import Lockstep.Proofs.Word
import Lockstep.Machine.Build
import Lockstep.Machine.Table

/-!
# State codes

The codes of the states of a machine differ from each other and fit the state register. With index
codes the successor of the last state has a code of its own as well, which also fits.
-/

namespace Lockstep.Machine

variable {f : Machine} {d i : Nat}

/-- The number of states is within what indices and the encoding can count. -/
structure Countable (f : Machine) : Prop where
  index : f.size < 2 ^ 63
  oneHot : f.encoding = .oneHot → f.size ≤ 64

/-- The index of a state, or of the place after the last one. -/
theorem code_index (he : f.encoding ≠ .oneHot) (hi : i < 2 ^ 64) : (f.code i).toNat = i := by
  have hc : f.code i = UInt64.ofInt i := by
    unfold code
    split
    · contradiction
    · rfl
  rw [hc, UInt64.ofInt]
  have hm : ((i : Int) % 2 ^ 64).toNat = i := by omega
  rw [hm, UInt64.toNat_ofNat', Nat.mod_eq_of_lt hi]

theorem code_bit (he : f.encoding = .oneHot) (hi : i < f.size) (h64 : i < 64) :
    (f.code i).toNat = 2 ^ i := by
  have hc : f.code i = UInt64.ofNat (2 ^ i) := by
    have h64' : (i : Int) < 64 := by omega
    simp [code, he, hi, h64', Nat.one_shiftLeft]
  have hlt : 2 ^ i < 2 ^ 64 := Nat.pow_lt_pow_right (by decide) h64
  rw [hc, UInt64.toNat_ofNat', Nat.mod_eq_of_lt hlt]

/-- One-hot codes have no place after the last state: it stands for the fallback state. -/
theorem code_size_bit (he : f.encoding = .oneHot) (hf : f.fallback = d) (hd : d < f.size) :
    f.code f.size = f.code d := by
  simp [code, he, hf, hd]

theorem registerWidth_le (hc : f.Countable) : f.registerWidth ≤ 64 := by
  unfold registerWidth
  split
  · next he =>
    have := hc.oneHot he
    omega
  · have := hc.index
    exact bitsFor_le (by decide) (by omega)

theorem registerWidth_pos (f : Machine) : 0 < f.registerWidth := by
  unfold registerWidth
  split
  · omega
  · exact bitsFor_pos _

theorem code_lt (hc : f.Countable) (hi : i < f.size) : (f.code i).toNat < 2 ^ f.registerWidth := by
  have hn := hc.index
  by_cases he : f.encoding = .oneHot
  · have h64 := hc.oneHot he
    rw [code_bit he hi (by omega), registerWidth, he]
    exact Nat.pow_lt_pow_right (by decide) (by dsimp only; omega)
  · have hw : f.registerWidth = bitsFor f.size := by
      unfold registerWidth
      split
      · contradiction
      · rfl
    rw [code_index he (by omega), hw]
    exact hi.trans (lt_two_pow_bitsFor _)

theorem code_size_lt (hc : f.Countable) (he : f.encoding ≠ .oneHot) :
    (f.code f.size).toNat < 2 ^ f.registerWidth := by
  have hn := hc.index
  have hw : f.registerWidth = bitsFor f.size := by
    unfold registerWidth
    split
    · contradiction
    · rfl
  rw [code_index he (by omega), hw]
  exact lt_two_pow_bitsFor _

theorem code_inj (hc : f.Countable) {j : Nat} (hi : i < f.size) (hj : j < f.size)
    (h : f.code i = f.code j) : i = j := by
  have hn := hc.index
  have h' := congrArg UInt64.toNat h
  by_cases he : f.encoding = .oneHot
  · have h64 := hc.oneHot he
    rw [code_bit he hi (by omega), code_bit he hj (by omega)] at h'
    exact Nat.pow_right_injective (le_refl 2) h'
  · rwa [code_index he (by omega), code_index he (by omega)] at h'

theorem code_size_ne (hc : f.Countable) (he : f.encoding ≠ .oneHot) (hi : i < f.size) :
    f.code f.size ≠ f.code i := by
  have hn := hc.index
  intro h
  have h' := congrArg UInt64.toNat h
  rw [code_index he (by omega), code_index he (by omega)] at h'
  omega

/-- A clamped index is a state, or the place after the last one where that has a code. -/
theorem clamp_cases (hf : f.fallback = d) (id : Int) :
    (∃ i : Nat, i < f.size ∧ id = i ∧ f.clamp id = i) ∨
      (id = f.size ∧ f.encoding = .binary ∧ f.clamp id = f.size) ∨
      ((id < 0 ∨ (f.size : Int) ≤ id) ∧ f.clamp id = d) := by
  unfold clamp
  split
  · next h =>
    simp only [Bool.and_eq_true, decide_eq_true_eq] at h
    obtain ⟨i, rfl⟩ := Int.eq_ofNat_of_zero_le h.1
    exact Or.inl ⟨i, by omega, rfl, rfl⟩
  · next h =>
    simp only [Bool.and_eq_true, decide_eq_true_eq, not_and, not_lt] at h
    have hout : id < 0 ∨ (f.size : Int) ≤ id := by omega
    split
    · next hb =>
      simp only [Bool.and_eq_true, decide_eq_true_eq] at hb
      exact Or.inr (Or.inl ⟨hb.1, hb.2, hb.1⟩)
    · exact Or.inr (Or.inr ⟨hout, hf⟩)

/-- The code of a clamped index fits the state register. -/
theorem code_clamp_lt (hc : f.Countable) (hf : f.fallback = d) (hd : d < f.size) (id : Int) :
    (f.code (f.clamp id)).toNat < 2 ^ f.registerWidth := by
  rcases clamp_cases hf id with ⟨i, hi, -, h⟩ | ⟨-, he, h⟩ | ⟨-, h⟩
  · rw [h]; exact code_lt hc hi
  · rw [h]; exact code_size_lt hc (by simp [he])
  · rw [h]; exact code_lt hc hd

end Lockstep.Machine
