import Lockstep.Proofs.Machine.Refinement

/-!
# The state register

A built machine has a register that is wide enough for the codes of its states, and the codes differ.
With index codes there is room for the place after the last state as well, and no narrower register
has it; a one-hot code is a single bit. So whatever the register holds, it selects at most one arm of
the two case statements that were made for it, although arms are compared at the width of the
register.
-/

namespace Lockstep

/-- `bitsFor` gives the narrowest width that is not zero. -/
theorem bitsFor_isLeast (n : Nat) : IsLeast {w | 1 ≤ w ∧ n < 2 ^ w} (bitsFor n) :=
  ⟨⟨bitsFor_pos n, lt_two_pow_bitsFor n⟩, fun _ hw => bitsFor_le hw.1 hw.2⟩

namespace Machine

open Sim

/-- A one-hot code has one bit set. -/
theorem code_existsUnique_bit {f : Machine} (hc : f.Countable) (he : f.encoding = .oneHot) {i : Nat}
    (hi : i < f.size) : ∃! b, (f.code i).toNat.testBit b = true := by
  have h64 := hc.oneHot he
  rw [code_bit he hi (by omega)]
  refine ⟨i, Nat.testBit_two_pow_self, fun b hb => ?_⟩
  simpa [Nat.testBit_two_pow, eq_comm] using hb

/-- A register value selects at most one arm. -/
theorem CodedArms.selects_unique {f : Machine} {arms : List (UInt64 × List Statement)}
    (h : f.CodedArms arms) (hc : f.Countable) {v : Word} {i j : Nat} {a b : UInt64 × List Statement}
    (hi : arms[i]? = some a) (hj : arms[j]? = some b)
    (ha : selects v f.registerWidth a.1 = true) (hb : selects v f.registerWidth b.1 = true) :
    i = j := by
  -- codes fit the register, so cutting them to its width leaves them as they are
  have hcode : ∀ {k : Nat} {c : UInt64 × List Statement}, arms[k]? = some c →
      selects v f.registerWidth c.1 = true → k < f.size ∧ v = Word.ofUInt64 (f.code k) := by
    intro k c hk hsel
    have hlt : k < f.size := h.1 ▸ (List.getElem?_eq_some_iff.mp hk).1
    have hfit : (Word.ofUInt64 (f.code k)).toNat < 2 ^ f.registerWidth := by
      rw [Word.toNat_ofUInt64]
      exact code_lt hc hlt
    rw [h.2 k c hk, selects, beq_iff_eq, Word.truncate_of_lt hfit] at hsel
    exact ⟨hlt, hsel⟩
  obtain ⟨hilt, hiv⟩ := hcode hi ha
  obtain ⟨hjlt, hjv⟩ := hcode hj hb
  exact code_inj hc hilt hjlt (Word.ofUInt64_inj.mp (hiv.symm.trans hjv))

/-- The codes of a built machine differ from each other and fit its register; whatever the register
holds, at most one arm of each case statement made for it is selected. -/
theorem codes_distinct_and_fit {m₀ m m₁ : Module} {opts : Options} {f f' : Machine}
    (hf : Assembled m₀ opts f m) (hb : f.build m = (none, f', m₁))
    (hn : f.encoding ≠ .oneHot → f.size < 2 ^ 63) :
    ∃ w : Nat, m₁.symbols.typeOf (.ref f.current) = some (.unsigned w) ∧
      (∀ i < f.size, (f.code i).toNat < 2 ^ w) ∧
      (∀ i < f.size, ∀ j < f.size, f.code i = f.code j → i = j) ∧
      (f.encoding ≠ .oneHot → w = bitsFor f.size ∧ IsLeast {k | 1 ≤ k ∧ f.size < 2 ^ k} w ∧
        (f.code f.size).toNat < 2 ^ w ∧ ∀ i < f.size, f.code f.size ≠ f.code i) ∧
      (f.encoding = .oneHot → ∀ i < f.size, ∃! b, (f.code i).toNat.testBit b = true) ∧
      ∃ arms, m₁.processes.toList = m.processes.toList ++
          f.processes [.case (.ref f.current) arms [f.assignNext f.fallback]] ∧
        ∀ cs ∈ [arms, f.bodyArms], ∀ (v : Word) (i j : Nat) a b, cs[i]? = some a → cs[j]? = some b →
          selects v (m₁.symbols.typeOf (.ref f.current)).bits a.1 = true →
          selects v (m₁.symbols.typeOf (.ref f.current)).bits b.1 = true → i = j := by
  obtain ⟨ho, -, next, hnext, hsym, hproc⟩ := build_ok hb
  have hhot := (obstacle_none ho).2
  have hc : f.Countable := by
    refine ⟨?_, hhot⟩
    by_cases he : f.encoding = .oneHot
    · exact (hhot he).trans_lt (by decide)
    · exact hn he
  obtain ⟨⟨c, hcur, hct⟩, -, -, t, ht⟩ := hf.placed
  have htype : m₁.symbols.typeOf (.ref f.current) = some (.unsigned f.registerWidth) := by
    rw [Symbols.typeOf, Symbols.signalType, hsym]
    change (m.symbols.signals[f.current]?.bind _) = _
    rw [hcur, Option.bind_some, hct]
    exact setType_type ht
  have hbits : (m₁.symbols.typeOf (.ref f.current)).bits = f.registerWidth := by
    rw [htype]
    exact bits_unsigned ((registerWidth_le hc).trans (by decide))
  refine ⟨f.registerWidth, htype, fun i hi => code_lt hc hi, fun i hi j hj => code_inj hc hi hj,
    fun he => ?_, fun he i hi => code_existsUnique_bit hc he hi, ?_⟩
  · have hw : f.registerWidth = bitsFor f.size := by
      unfold registerWidth
      split
      · contradiction
      · rfl
    exact ⟨hw, hw ▸ bitsFor_isLeast f.size, code_size_lt hc he, fun i hi => code_size_ne hc he hi⟩
  · obtain ⟨arms, harms, rfl⟩ := nextBody_eq hnext
    refine ⟨arms, hproc, fun cs hcs v i j a b hi hj ha hb => ?_⟩
    have hcoded : f.CodedArms cs := by
      rcases List.mem_pair.mp hcs with rfl | rfl
      · exact choiceArms_coded harms
      · exact bodyArms_coded f
    rw [hbits] at ha hb
    exact hcoded.selects_unique hc hi hj ha hb

/-- A machine with nameless states and no transitions. -/
def idlers : Nat → Machine
  | 0 => (create relayTop {}).1
  | n + 1 => { idlers n with states := (idlers n).states.push { name := "" } }

theorem idlers_assembled (n : Nat) :
    (idlers n).built = false ∧ Assembled relayTop {} (idlers n) (create relayTop {}).2 := by
  induction n with
  | zero => exact ⟨rfl, .create⟩
  | succ n ih => exact ⟨ih.1, ih.2.declare "" ih.1 rfl⟩

/-- Four states take three bits: the place after the last one has a code of its own. -/
theorem idlers_codes : ∃ f' m₁, (idlers 4).build (create relayTop {}).2 = (none, f', m₁) ∧
    m₁.symbols.typeOf (.ref (idlers 4).current) = some (.unsigned 3) ∧
    (∀ i < (idlers 4).size, ∀ j < (idlers 4).size, (idlers 4).code i = (idlers 4).code j → i = j) ∧
    ((idlers 4).code (idlers 4).size).toNat < 2 ^ 3 := by
  have hb : (idlers 4).build (create relayTop {}).2 =
      (none, ((idlers 4).build (create relayTop {}).2).2) := Prod.ext (by decide +kernel) rfl
  obtain ⟨w, htype, -, hinj, hindex, -⟩ :=
    codes_distinct_and_fit (idlers_assembled 4).2 hb fun _ => by decide +kernel
  obtain ⟨hw, -, hlt, -⟩ := hindex (by decide +kernel)
  obtain rfl : w = 3 := hw.trans (by decide +kernel)
  exact ⟨_, _, hb, htype, hinj, hlt⟩

end Machine

end Lockstep
