import Lockstep.Word
import Mathlib

/-!
# Words as numbers

The conversions of `Lockstep.Word` on natural numbers. Truncation is a remainder, so a value that
is below the bound of its width passes through every conversion to that width unchanged.
-/

namespace Lockstep

namespace Word

@[simp] theorem toNat_ofUInt64 (v : UInt64) : (ofUInt64 v).toNat = v.toNat := by
  have h : v.toNat < 2 ^ 64 := v.toNat_lt
  have hw : (2 : Nat) ^ 64 ≤ 2 ^ maxWidth := Nat.pow_le_pow_right (by decide) (by decide)
  rw [ofUInt64, BitVec.toNat_ofNat, Nat.mod_eq_of_lt (by omega)]

theorem ofUInt64_inj {a b : UInt64} : ofUInt64 a = ofUInt64 b ↔ a = b := by
  refine ⟨fun h => ?_, fun h => h ▸ rfl⟩
  have h' := congrArg BitVec.toNat h
  rw [toNat_ofUInt64, toNat_ofUInt64] at h'
  exact UInt64.toNat_inj.mp h'

theorem toNat_truncate (w : Nat) (v : Word) : (truncate w v).toNat = v.toNat % 2 ^ w := by
  have hv : v.toNat < 2 ^ maxWidth := v.isLt
  have hle : v.toNat % 2 ^ w ≤ v.toNat := Nat.mod_le _ _
  rw [truncate, BitVec.toNat_setWidth, BitVec.toNat_setWidth, Nat.mod_eq_of_lt (by omega)]

theorem truncate_lt (w : Nat) (v : Word) : (truncate w v).toNat < 2 ^ w := by
  rw [toNat_truncate]
  exact Nat.mod_lt _ (Nat.two_pow_pos w)

theorem truncate_of_lt {w : Nat} {v : Word} (h : v.toNat < 2 ^ w) : truncate w v = v := by
  apply BitVec.eq_of_toNat_eq
  rw [toNat_truncate, Nat.mod_eq_of_lt h]

@[simp] theorem truncate_truncate (w : Nat) (v : Word) : truncate w (truncate w v) = truncate w v :=
  truncate_of_lt (truncate_lt w v)

theorem fit_lt (t : TypeSlot) (w : Nat) (v : Word) : (fit t w v).toNat < 2 ^ w := truncate_lt _ _

@[simp] theorem fit_zero (t : TypeSlot) (w : Nat) : fit t w 0 = 0 := by
  have hx : ∀ n, extend n 0 = 0 := fun n => by
    simp [extend, BitVec.signExtend_eq_setWidth_of_msb_false]
  have ht : truncate w 0 = 0 := by simp [truncate]
  rw [fit, hx, ite_self, ht]

theorem fit_unsigned {t : TypeSlot} (h : t.isSigned = false) (w : Nat) (v : Word) :
    fit t w v = truncate w v := by
  simp [fit, h]

theorem shift_lt (op : BinOp) (t : TypeSlot) (w : Nat) (a b : Word) :
    (shift op t w a b).toNat < 2 ^ w := by
  unfold shift
  split <;> exact truncate_lt _ _

theorem arith_lt (op : BinOp) (w : Nat) (a b : Word) : (arith op w a b).toNat < 2 ^ w := by
  unfold arith
  split
  case h_7 => exact Nat.two_pow_pos w
  all_goals exact truncate_lt _ _

theorem binary_lt (op : BinOp) (t u : TypeSlot) (w : Nat) (a b : Word) :
    (binary op t u w a b).toNat < 2 ^ w := by
  unfold binary
  split
  · exact shift_lt op t w a b
  · exact arith_lt op w _ _

end Word

theorem lt_two_pow_bitsFor (n : Nat) : n < 2 ^ bitsFor n := Nat.lt_log2_self

theorem bitsFor_pos (n : Nat) : 0 < bitsFor n := Nat.succ_pos _

theorem bitsFor_le {n k : Nat} (hk : 0 < k) (h : n < 2 ^ k) : bitsFor n ≤ k := by
  rcases Nat.eq_zero_or_pos n with rfl | hn
  · exact hk
  · exact (Nat.log2_lt (by omega)).mpr h

/-- A resolved width of at most a word is the number of bits kept. -/
theorem bits_unsigned {w : Nat} (h : w ≤ maxWidth) :
    TypeSlot.bits (some (.unsigned w)) = w := by
  simp [TypeSlot.bits, SignalType.unsigned, h]

theorem wrapSigned_of_bounds {n : Int} (hl : -(2 ^ 63) ≤ n) (hu : n < 2 ^ 63) :
    wrapSigned n = n := by
  unfold wrapSigned UInt64.size
  apply Int.bmod_eq_of_le <;> omega

end Lockstep
