import Lockstep.Proofs.Lossless

/-!
# Ranges of types

The rule by which one type fits within another is about the integers that their words stand for. The
words of a type stand for exactly the integers of a range, and one type fits within another if its
range is a part of the other's. These are the pairs of types for which the conversion of words, with
its sign extension and its mask, loses nothing.
-/

namespace Lockstep

namespace SignalType

/-- The integers that a type of known width has room for. -/
def range (t : SignalType) : Set Int :=
  if t.signed then Set.Ico (-2 ^ (t.width.toNat - 1)) (2 ^ (t.width.toNat - 1))
  else Set.Ico 0 (2 ^ t.width.toNat)

theorem bits_of_isResolved {t : SignalType} (ht : TypeSlot.isResolved (some t) = true) :
    TypeSlot.bits (some t) = t.width.toNat := by
  rw [TypeSlot.isResolved_some] at ht
  simp only [TypeSlot.bits]
  omega

/-- One type fits within another if its range lies in the other one. -/
theorem range_subset_iff {t o : SignalType} (ht : 0 < t.width) (ho : 0 < o.width) :
    t.range ⊆ o.range ↔ t.fitsWithin o = true := by
  have hpos (n : Nat) : (0 : Int) < 2 ^ n := pow_pos two_pos n
  have hpow (m n : Nat) : (2 : Int) ^ m ≤ 2 ^ n ↔ m ≤ n := pow_le_pow_iff_right₀ one_lt_two
  have hw := hpos t.width.toNat
  have hhalf := hpos (t.width.toNat - 1)
  have hhalf' := hpos (o.width.toNat - 1)
  have hknown : t.isUnknown = false ∧ o.isUnknown = false := by
    simp only [isUnknown, decide_eq_false_iff_not]
    omega
  simp only [fitsWithin, hknown.1, hknown.2, Bool.false_or, range]
  cases t.signed <;> cases o.signed
  · simp only [Bool.false_eq_true, if_false, decide_eq_true_eq]
    rw [Set.Ico_subset_Ico_iff hw, hpow]
    omega
  · -- one bit is for the sign
    simp only [Bool.false_eq_true, if_false, if_true, decide_eq_true_eq]
    rw [Set.Ico_subset_Ico_iff hw, hpow]
    omega
  · -- the least value has no place
    simp only [Bool.false_eq_true, if_false, if_true, iff_false]
    rw [Set.Ico_subset_Ico_iff (by omega)]
    omega
  · simp only [if_true, decide_eq_true_eq]
    rw [Set.Ico_subset_Ico_iff (by omega), hpow, neg_le_neg_iff, hpow]
    omega

end SignalType

namespace Word

theorem reading_mem_range {t : SignalType} (ht : TypeSlot.isResolved (some t) = true) {v : Word}
    (hv : v.toNat < 2 ^ TypeSlot.bits (some t)) : reading (some t) v ∈ t.range := by
  have hbits := SignalType.bits_of_isResolved ht
  rw [reading, SignalType.range, TypeSlot.isSigned, Option.any_some]
  split
  · rw [hbits]
    exact ⟨BitVec.le_toInt _, BitVec.toInt_lt⟩
  · rw [hbits] at hv
    exact ⟨Int.natCast_nonneg _, by exact_mod_cast hv⟩

/-- Every integer of the range is the reading of a word. -/
theorem exists_reading {t : SignalType} (ht : TypeSlot.isResolved (some t) = true) {z : Int}
    (hz : z ∈ t.range) :
    ∃ v : Word, v.toNat < 2 ^ TypeSlot.bits (some t) ∧ reading (some t) v = z := by
  have hbits := SignalType.bits_of_isResolved ht
  have hle : t.width.toNat ≤ maxWidth := hbits ▸ TypeSlot.bits_le (some t)
  have hpos : 0 < t.width.toNat := by
    rw [TypeSlot.isResolved_some] at ht
    omega
  have hsmall : 2 ^ t.width.toNat ≤ 2 ^ maxWidth := Nat.pow_le_pow_right (by decide) hle
  rw [hbits]
  simp only [SignalType.range] at hz
  cases hs : t.signed with
  | false =>
    obtain ⟨n, rfl⟩ := Int.eq_ofNat_of_zero_le (hs ▸ hz).1
    have hn : n < 2 ^ t.width.toNat := by exact_mod_cast (hs ▸ hz).2
    have hword : (BitVec.ofNat maxWidth n).toNat = n := Nat.mod_eq_of_lt (by omega)
    exact ⟨BitVec.ofNat maxWidth n, by rwa [hword], by
      simp only [reading, TypeSlot.isSigned, Option.any_some, hs, Bool.false_eq_true, if_false, hword]⟩
  | true =>
    rw [hs, if_pos rfl] at hz
    refine ⟨(BitVec.ofInt t.width.toNat z).setWidth maxWidth, ?_, ?_⟩
    · rw [BitVec.toNat_setWidth_of_le hle]
      exact BitVec.isLt _
    · simp only [reading, TypeSlot.isSigned, Option.any_some, hs, if_true]
      rw [hbits, BitVec.setWidth_setWidth_of_le _ hle, BitVec.setWidth_eq]
      exact BitVec.toInt_ofInt_eq_self hpos hz.1 hz.2

/-- A type that fits within another one can be kept there. -/
theorem reading_fit_of_fitsWithin {t o : SignalType} (ht : t.isUnknown = false)
    (ho : TypeSlot.isResolved (some o) = true) (h : t.fitsWithin o = true) {v : Word}
    (hv : v.toNat < 2 ^ TypeSlot.bits (some t)) :
    reading (some o) (fit (some t) (TypeSlot.bits (some o)) v) = reading (some t) v := by
  rw [TypeSlot.isResolved_some] at ho
  have ho' : o.isUnknown = false := by
    simp only [SignalType.isUnknown, decide_eq_false_iff_not]
    omega
  simp only [SignalType.fitsWithin, ht, ho', Bool.false_or] at h
  by_cases hsign : t.signed = o.signed
  · have hle : t.width ≤ o.width := by
      cases hs : o.signed <;> simpa [hsign, hs] using h
    exact reading_fit (by simp [TypeSlot.isSigned, hsign]) (TypeSlot.bits_mono hle) hv
  · obtain ⟨hts, hos⟩ : t.signed = false ∧ o.signed = true := by
      cases hts : t.signed <;> cases hos : o.signed <;> simp_all
    have hlt : t.width < o.width := by simpa [hts, hos] using h
    have hbits : TypeSlot.bits (some t) < TypeSlot.bits (some o) := by
      simp only [SignalType.isUnknown, decide_eq_false_iff_not] at ht
      simp only [TypeSlot.bits]
      omega
    have hv' : v.toNat < 2 ^ TypeSlot.bits (some o) :=
      hv.trans (Nat.pow_lt_pow_right (by decide) hbits)
    have hsame : (v.setWidth (TypeSlot.bits (some o))).toNat = v.toNat := by
      rw [BitVec.toNat_setWidth, Nat.mod_eq_of_lt hv']
    have hhalf : 2 * v.toNat < 2 ^ TypeSlot.bits (some o) := by
      have hpow : 2 ^ (TypeSlot.bits (some t) + 1) ≤ 2 ^ TypeSlot.bits (some o) :=
        Nat.pow_le_pow_right (by decide) hbits
      omega
    have hunsigned : TypeSlot.isSigned (some t) = false := by simp [TypeSlot.isSigned, hts]
    have hsigned : TypeSlot.isSigned (some o) = true := by simp [TypeSlot.isSigned, hos]
    rw [fit_unsigned hunsigned, truncate_of_lt hv', reading, if_pos hsigned, reading,
      if_neg (by simp [hunsigned]), BitVec.toInt_eq_toNat_of_lt (by rwa [hsame]), hsame]

/-- Among the types of known width that a word has room for, one fits within another exactly if the
conversion keeps the integer that a value stands for, whatever the value is; and exactly if all its
integers are integers of the other one. -/
theorem fitsWithin_iff_keeps_values {t o : SignalType} (ht : 1 ≤ t.width ∧ t.width ≤ maxWidth)
    (ho : 1 ≤ o.width ∧ o.width ≤ maxWidth) :
    (t.fitsWithin o = true ↔ ∀ v : Word, v.toNat < 2 ^ t.width.toNat →
      reading (some o) (fit (some t) (TypeSlot.bits (some o)) v) = reading (some t) v) ∧
    (t.fitsWithin o = true ↔ t.range ⊆ o.range) := by
  have ht' : TypeSlot.isResolved (some t) = true := TypeSlot.isResolved_some.mpr (by omega)
  have ho' : TypeSlot.isResolved (some o) = true := TypeSlot.isResolved_some.mpr (by omega)
  have hrange := SignalType.range_subset_iff (t := t) (o := o) (by omega) (by omega)
  have hbits := SignalType.bits_of_isResolved ht'
  refine ⟨⟨fun h v hv => ?_, fun h => hrange.mp fun z hz => ?_⟩, hrange.symm⟩
  · have hu : t.isUnknown = false := by
      simp only [SignalType.isUnknown, decide_eq_false_iff_not]
      omega
    exact reading_fit_of_fitsWithin hu ho' h (hbits ▸ hv)
  · obtain ⟨v, hv, rfl⟩ := exists_reading ht' hz
    rw [← h v (hbits ▸ hv)]
    exact reading_mem_range ho' (fit_lt _ _ v)

/-- Eight bits without a sign take nine with one: among eight, 128 would be read as a negative
number. -/
theorem byte_fits_nine_bits :
    (∀ v : Word, v.toNat < 2 ^ 8 → reading (some ⟨9, true⟩) (fit (some ⟨8, false⟩) 9 v) = v.toNat) ∧
    (∃ v : Word, v.toNat < 2 ^ 8 ∧ reading (some ⟨8, true⟩) (fit (some ⟨8, false⟩) 8 v) ≠ v.toNat) := by
  obtain ⟨hnine, -⟩ := fitsWithin_iff_keeps_values (t := ⟨8, false⟩) (o := ⟨9, true⟩)
    (by decide) (by decide)
  obtain ⟨height, -⟩ := fitsWithin_iff_keeps_values (t := ⟨8, false⟩) (o := ⟨8, true⟩)
    (by decide) (by decide)
  refine ⟨hnine.mp (by decide), ?_⟩
  have hlost := mt height.mpr (by decide)
  push Not at hlost
  exact hlost

end Word

end Lockstep
