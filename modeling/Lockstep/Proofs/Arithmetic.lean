import Lockstep.Proofs.Lossless

/-!
# Expressions compute exact arithmetic

An operation on words is an operation on integers, reduced to the width of its result. Operands of
different widths are extended by their sign first, and large shift amounts take a way of their own;
none of this shows in the result. Comparisons of operands with one signedness agree with the order of
the integers that they stand for.
-/

namespace Lockstep

/-- The result of an operation on exact integers. Arithmetic and bitwise operations are about the
integers that the operands stand for, in two's complement without an end; shifts are about the bits of
the left operand, and only the arithmetic one reads them as a number with a sign. -/
def BinOp.exact (op : BinOp) (t u : TypeSlot) (x y : Word) : Int :=
  match op with
  | .add => x.reading t + y.reading u
  | .sub => x.reading t - y.reading u
  | .mul => x.reading t * y.reading u
  | .and => Int.land (x.reading t) (y.reading u)
  | .or => Int.lor (x.reading t) (y.reading u)
  | .xor => Int.xor (x.reading t) (y.reading u)
  | .shl => x.toNat * 2 ^ y.toNat
  | .shrU => x.toNat / 2 ^ y.toNat
  | .shrS => (x.setWidth t.bits).toInt / 2 ^ y.toNat
  | .unknown => 0

/-- The relation on integers. -/
def Relation.Holds (r : Relation) (a b : Int) : Prop :=
  match r with
  | .eq => a = b
  | .ne => a ≠ b
  | .lt => a < b
  | .le => a ≤ b
  | .gt => a > b
  | .ge => a ≥ b

instance (r : Relation) (a b : Int) : Decidable (r.Holds a b) :=
  match r with
  | .eq => inferInstanceAs (Decidable (a = b))
  | .ne => inferInstanceAs (Decidable (a ≠ b))
  | .lt => inferInstanceAs (Decidable (a < b))
  | .le => inferInstanceAs (Decidable (a ≤ b))
  | .gt => inferInstanceAs (Decidable (a > b))
  | .ge => inferInstanceAs (Decidable (a ≥ b))

/-! ## Remainders of powers of two -/

theorem emod_two_pow_emod (a : Int) {w n : Nat} (h : w ≤ n) : a % 2 ^ n % 2 ^ w = a % 2 ^ w :=
  Int.emod_emod_of_dvd a (pow_dvd_pow 2 h)

/-- The low bits of an integer are those of its remainder. -/
theorem testBit_emod_two_pow (a : Int) {w i : Nat} (hi : i < w) :
    (a % 2 ^ w).toNat.testBit i = a.testBit i := by
  have hpow : ((2 ^ w : Nat) : Int) = 2 ^ w := by norm_cast
  cases a with
  | ofNat m =>
    have hm : (Int.ofNat m % 2 ^ w).toNat = m % 2 ^ w := by
      rw [Int.ofNat_eq_natCast]
      norm_cast
    rw [hm, Nat.testBit_mod_two_pow]
    simp [hi, Int.testBit]
  | negSucc m =>
    have hlt : m % 2 ^ w < 2 ^ w := Nat.mod_lt _ (Nat.two_pow_pos w)
    have hm : (Int.negSucc m % 2 ^ w).toNat = 2 ^ w - (m % 2 ^ w + 1) := by
      rw [Int.negSucc_emod _ (by positivity), ← hpow]
      omega
    rw [hm, Nat.testBit_two_pow_sub_succ hlt]
    simp [Nat.testBit_mod_two_pow, hi, Int.testBit]

/-- Beyond the size of a number a shift leaves its sign only. -/
theorem ediv_two_pow_of_le {z : Int} {k m n : Nat} (hl : -2 ^ k ≤ z) (hu : z < 2 ^ k) (hm : k ≤ m)
    (hn : k ≤ n) : z / 2 ^ m = z / 2 ^ n := by
  have hsign : ∀ j, k ≤ j → z / 2 ^ j = if z < 0 then -1 else 0 := by
    intro j hj
    have hpow : (2 : Int) ^ k ≤ 2 ^ j := pow_le_pow_right₀ (by decide) hj
    split
    · next hneg =>
      rw [Int.ediv_eq_iff_of_pos (by positivity)]
      omega
    · next hpos => exact Int.ediv_eq_zero_of_lt (by omega) (by omega)
  rw [hsign m hm, hsign n hn]

namespace Word

/-! ## Conversions -/

theorem toNat_eq_toInt_emod (v : Word) : (v.toNat : Int) = v.toInt % 2 ^ maxWidth := by
  have hv : v.toNat = (v.toInt % ((2 ^ maxWidth : Nat) : Int)).toNat := by
    rw [← BitVec.toNat_ofInt, BitVec.ofInt_toInt]
  rw [hv, Int.toNat_of_nonneg (Int.emod_nonneg _ (by positivity))]
  norm_cast

theorem toInt_extend {n : Nat} (hn : n ≤ maxWidth) (v : Word) :
    (extend n v).toInt = (v.setWidth n).toInt := BitVec.toInt_signExtend_of_le hn

/-- Converted to `w` bits, a value stands for the same integer, up to multiples of `2 ^ w`. -/
theorem toNat_fit (t : TypeSlot) {w : Nat} (hw : w ≤ maxWidth) (v : Word) :
    ((fit t w v).toNat : Int) = v.reading t % 2 ^ w := by
  unfold fit reading
  rw [toNat_truncate]
  push_cast
  split
  · rw [toNat_eq_toInt_emod, toInt_extend t.bits_le, emod_two_pow_emod _ hw]
  · rfl

/-- A word is cut to the remainder of every integer with the same low bits. -/
theorem toNat_truncate_bits {w : Nat} {c : Word} {z : Int}
    (h : ∀ i < w, c.toNat.testBit i = z.testBit i) : ((truncate w c).toNat : Int) = z % 2 ^ w := by
  have hsame : (truncate w c).toNat = (z % 2 ^ w).toNat := by
    refine Nat.eq_of_testBit_eq fun i => ?_
    rcases Nat.lt_or_ge i w with hi | hi
    · rw [testBit_emod_two_pow z hi, toNat_truncate, Nat.testBit_mod_two_pow, h i hi]
      simp [hi]
    · have hz : (z % 2 ^ w).toNat < 2 ^ w := by
        have hpos : 0 < (2 : Int) ^ w := by positivity
        have := Int.emod_lt_of_pos z hpos
        have := Int.emod_nonneg z hpos.ne'
        zify
        omega
      have hpow : 2 ^ w ≤ 2 ^ i := Nat.pow_le_pow_right (by decide) hi
      rw [Nat.testBit_lt_two_pow (hz.trans_le hpow),
        Nat.testBit_lt_two_pow ((truncate_lt w c).trans_le hpow)]
  rw [hsame, Int.toNat_of_nonneg (Int.emod_nonneg z (by positivity))]

/-! ## Operations -/

theorem toNat_sub_emod (a b : Word) :
    ((a - b).toNat : Int) = ((a.toNat : Int) - b.toNat) % 2 ^ maxWidth := by
  have hb : b.toNat ≤ 2 ^ maxWidth := b.isLt.le
  rw [BitVec.toNat_sub]
  push_cast [Nat.cast_sub hb]
  rw [sub_add_eq_add_sub, add_sub_assoc, Int.add_emod_left]

section

variable {t u : TypeSlot} {w : Nat} (hw : w ≤ maxWidth) (x y : Word)
include hw

theorem testBit_fit {i : Nat} (hi : i < w) :
    (fit t w x).toNat.testBit i = (x.reading t).testBit i := by
  rw [← testBit_emod_two_pow _ hi, ← toNat_fit t hw, Int.toNat_natCast]

theorem toNat_arith {op : BinOp} (hop : op.isShift = false) :
    ((arith op w (fit t w x) (fit u w y)).toNat : Int) = op.exact t u x y % 2 ^ w := by
  have hx := toNat_fit t hw x
  have hy := toNat_fit u hw y
  cases op with
  | add =>
    rw [arith, toNat_truncate, BitVec.toNat_add]
    push_cast
    rw [emod_two_pow_emod _ hw, hx, hy, ← Int.add_emod]
    rfl
  | sub =>
    rw [arith, toNat_truncate]
    push_cast
    rw [toNat_sub_emod, emod_two_pow_emod _ hw, hx, hy, ← Int.sub_emod]
    rfl
  | mul =>
    rw [arith, toNat_truncate, BitVec.toNat_mul]
    push_cast
    rw [emod_two_pow_emod _ hw, hx, hy, ← Int.mul_emod]
    rfl
  | and =>
    refine toNat_truncate_bits fun i hi => ?_
    rw [BitVec.toNat_and, Nat.testBit_and, testBit_fit hw x hi, testBit_fit hw y hi,
      BinOp.exact, Int.testBit_land]
  | or =>
    refine toNat_truncate_bits fun i hi => ?_
    rw [BitVec.toNat_or, Nat.testBit_or, testBit_fit hw x hi, testBit_fit hw y hi,
      BinOp.exact, Int.testBit_lor]
  | xor =>
    refine toNat_truncate_bits fun i hi => ?_
    rw [BitVec.toNat_xor, Nat.testBit_xor, testBit_fit hw x hi, testBit_fit hw y hi,
      BinOp.exact, Int.testBit_lxor]
  | shl | shrU | shrS => cases hop
  | unknown => simp [arith, BinOp.exact]

end

/-- A shift by more than the width of a word is as good as one by the width. -/
theorem toNat_shift {op : BinOp} (hop : op.isShift = true) (t u : TypeSlot) (x y : Word) :
    ((shift op t t.bits x y).toNat : Int) = op.exact t u x y % 2 ^ t.bits := by
  have hw : t.bits ≤ maxWidth := t.bits_le
  have hcount : shiftAmount y = y.toNat ∨ shiftAmount y = maxWidth ∧ maxWidth ≤ y.toNat := by
    unfold shiftAmount
    omega
  cases op with
  | shl =>
    rw [shift, toNat_truncate, BitVec.toNat_shiftLeft, Nat.shiftLeft_eq, BinOp.exact]
    push_cast
    rw [emod_two_pow_emod _ hw]
    rcases hcount with hn | ⟨hn, hle⟩
    · rw [hn]
    · have hzero : ∀ k, maxWidth ≤ k → (x.toNat * 2 ^ k : Int) % 2 ^ t.bits = 0 := fun k hk =>
        Int.emod_eq_zero_of_dvd (Dvd.dvd.mul_left (pow_dvd_pow 2 (hw.trans hk)) _)
      rw [hn, hzero _ le_rfl, hzero _ hle]
  | shrU =>
    rw [shift, toNat_truncate, BitVec.toNat_ushiftRight, Nat.shiftRight_eq_div_pow, BinOp.exact]
    rcases hcount with hn | ⟨hn, hle⟩
    · rw [hn]
      norm_cast
    · have hzero : ∀ k, maxWidth ≤ k → x.toNat / 2 ^ k = 0 := fun k hk =>
        Nat.div_eq_of_lt (x.isLt.trans_le (Nat.pow_le_pow_right (by decide) hk))
      have hsame := hzero _ hle
      rw [hn, hzero _ le_rfl]
      zify at hsame
      rw [hsame]
      rfl
  | shrS =>
    have hshift : ∀ n, (((extend t.bits x).sshiftRight n).toNat : Int) % 2 ^ t.bits =
        (x.setWidth t.bits).toInt / 2 ^ n % 2 ^ t.bits := fun n => by
      rw [toNat_eq_toInt_emod, emod_two_pow_emod _ hw, BitVec.toInt_sshiftRight,
        Int.shiftRight_eq_div_pow, toInt_extend hw]
      norm_cast
    change ((truncate t.bits ((extend t.bits x).sshiftRight (shiftAmount y))).toNat : Int) = _
    rw [toNat_truncate, BinOp.exact]
    push_cast
    rw [hshift]
    rcases hcount with hn | ⟨hn, hle⟩
    · rw [hn]
    · have hl := BitVec.le_two_mul_toInt (x := x.setWidth t.bits)
      have hu := BitVec.two_mul_toInt_lt (x := x.setWidth t.bits)
      rw [hn, ediv_two_pow_of_le (k := t.bits) (by omega) (by omega) hw (hw.trans hle)]
  | add | sub | mul | and | or | xor | unknown => cases hop

/-- The result of an operation is the exact one, reduced to the width of the result. -/
theorem toNat_binary (op : BinOp) (t u : SignalType) (x y : Word) :
    ((binary op (some t) (some u) (TypeSlot.bits (some (t.resultFor op (some u)))) x y).toNat : Int) =
      op.exact (some t) (some u) x y % 2 ^ TypeSlot.bits (some (t.resultFor op (some u))) := by
  unfold binary
  cases hop : op.isShift with
  | true =>
    have htype : t.resultFor op (some u) = t := by simp [SignalType.resultFor, hop]
    rw [if_pos rfl, htype]
    exact toNat_shift hop (some t) (some u) x y
  | false =>
    rw [if_neg Bool.false_ne_true]
    exact toNat_arith (TypeSlot.bits_le _) x y hop

/-! ## Comparisons -/

section

variable {t u : TypeSlot} (hsign : t.isSigned = u.isSigned) {x y : Word}
  (hx : x.toNat < 2 ^ t.bits) (hy : y.toNat < 2 ^ u.bits)
include hsign hx hy

/-- At the wider of two widths equal bits stand for equal integers. -/
theorem fit_eq_fit_iff : fit t (max t.bits u.bits) x = fit u (max t.bits u.bits) y ↔
    x.reading t = y.reading u := by
  have hw : max t.bits u.bits ≤ maxWidth := max_le t.bits_le u.bits_le
  constructor
  · intro h
    rcases le_total t.bits u.bits with hle | hle
    · rw [max_eq_right hle] at h
      rw [← reading_fit hsign hle hx, h, reading_fit rfl le_rfl hy]
    · rw [max_eq_left hle] at h
      rw [← reading_fit rfl le_rfl hx, h, reading_fit hsign.symm hle hy]
  · intro h
    apply BitVec.eq_of_toNat_eq
    zify
    rw [toNat_fit t hw, toNat_fit u hw, h]

theorem ult_fit_iff (ht : t.isSigned = false) :
    (fit t (max t.bits u.bits) x).ult (fit u (max t.bits u.bits) y) = true ↔
      x.reading t < y.reading u := by
  have hx' : x.toNat < 2 ^ max t.bits u.bits :=
    hx.trans_le (Nat.pow_le_pow_right (by decide) (le_max_left _ _))
  have hy' : y.toNat < 2 ^ max t.bits u.bits :=
    hy.trans_le (Nat.pow_le_pow_right (by decide) (le_max_right _ _))
  rw [fit_unsigned ht, fit_unsigned (hsign ▸ ht), truncate_of_lt hx', truncate_of_lt hy',
    BitVec.ult_iff_lt, BitVec.lt_def, reading, reading, ht, ← hsign, ht]
  exact Int.ofNat_lt.symm

omit hx hy in
theorem slt_extend_iff (ht : t.isSigned = true) :
    (extend t.bits x).slt (extend u.bits y) = true ↔ x.reading t < y.reading u := by
  rw [BitVec.slt_iff_toInt_lt, toInt_extend t.bits_le, toInt_extend u.bits_le, reading, reading, ht,
    ← hsign, ht, if_pos rfl, if_pos rfl]

/-- The predicate of a relation, chosen by the common signedness of its operands, holds when the
relation does. -/
theorem holds_iff (r : Relation) :
    holds (if t.isSigned then r.signed else r.unsigned) t u x y = true ↔
      r.Holds (x.reading t) (y.reading u) := by
  have heq := fit_eq_fit_iff hsign hx hy
  cases ht : t.isSigned with
  | true =>
    have hlt := slt_extend_iff hsign (x := x) (y := y) ht
    have hgt := slt_extend_iff hsign.symm (x := y) (y := x) (hsign ▸ ht)
    cases r <;>
      simp [holds, Relation.signed, Predicate.isSigned, Relation.Holds, heq, hlt, hgt,
        ← Bool.not_eq_true]
  | false =>
    have hlt := ult_fit_iff hsign hx hy ht
    have hgt := ult_fit_iff hsign.symm hy hx (hsign ▸ ht)
    rw [max_comm] at hgt
    cases r <;>
      simp [holds, Relation.unsigned, Predicate.isSigned, Relation.Holds, heq, hlt, hgt,
        ← Bool.not_eq_true]

end

end Word

/-- Of operands with one signedness, `relate` makes the comparison that reads both as it says. -/
theorem Symbols.relate_eq {g : Symbols} (r : Relation) {a b : Expr} {t u : SignalType}
    (ha : g.knownType a = some t) (hb : g.knownType b = some u) (hsign : t.signed = u.signed) :
    g.relate r a b = some (.cmp (if t.signed then r.signed else r.unsigned) a b) := by
  cases ht : t.signed with
  | true => cases r <;> simp [relate, Relation.isEquality, ha, hb, ht, ← hsign, Relation.signed,
      Relation.unsigned]
  | false => cases r <;> simp [relate, Relation.isEquality, ha, ht, Relation.unsigned]

namespace Sim

/-- Every operation on operands with types computes its exact result modulo `2 ^ w`, where `w` is the
width of the result, cut at that of a word. The logical right shift needs no reduction. -/
theorem eval_bin_exact (g : Symbols) (s : State) (op : BinOp) {l r : Expr} {t u : SignalType}
    (hl : g.typeOf l = some t) (hr : g.typeOf r = some u) :
    ((eval g s (.bin op l r)).toNat : Int) =
      op.exact (some t) (some u) (eval g s l) (eval g s r) %
        2 ^ min (t.resultFor op (some u)).width.toNat maxWidth ∧
    (op = .shrU →
      (eval g s (.bin op l r)).toNat = (eval g s l).toNat / 2 ^ (eval g s r).toNat) := by
  have htype : g.typeOf (.bin op l r) = some (t.resultFor op (some u)) := by
    simp [Symbols.typeOf, hl, hr]
  have hexact := Word.toNat_binary op t u (eval g s l) (eval g s r)
  rw [eval, hl, hr, htype]
  refine ⟨hexact, ?_⟩
  rintro rfl
  -- The quotient is no larger than the left operand, which fits already.
  have hfits : (eval g s l).toNat < 2 ^ TypeSlot.bits (some t) := hl ▸ eval_lt g s l
  have hquot := (Nat.div_le_self (eval g s l).toNat (2 ^ (eval g s r).toNat)).trans_lt hfits
  rw [BinOp.exact] at hexact
  norm_cast at hexact
  rwa [show t.resultFor .shrU (some u) = t from rfl, Nat.mod_eq_of_lt hquot] at hexact

/-- A narrow signed number, a wider one, and one that is wider than a word. -/
def operands : Symbols where
  types := #[⟨4, true⟩, ⟨8, true⟩, .unsigned 300]
  signals := #[
    { name := "low", type := some 0, kind := .reg },
    { name := "high", type := some 1, kind := .reg },
    { name := "count", type := some 2, kind := .reg }]

/-- Minus three, five and three hundred. -/
def operandValues : State where
  scalars := #[some 13, some 5, some 300]
  memories := #[#[], #[], #[]]

theorem eval_bin_exact_operands :
    operands.typeOf (.ref 0) = some ⟨4, true⟩ ∧ operands.typeOf (.ref 2) = some (.unsigned 300) ∧
      ((eval operands operandValues (.bin .sub (.ref 0) (.ref 2))).toNat : Int) =
        (-3 - 300) % 2 ^ 256 ∧
      ((eval operands operandValues (.bin .shrS (.ref 0) (.ref 2))).toNat : Int) =
        (-3 / 2 ^ 300) % 2 ^ 4 := by
  have hsub := (eval_bin_exact operands operandValues .sub (l := .ref 0) (r := .ref 2) rfl rfl).1
  have hshift := (eval_bin_exact operands operandValues .shrS (l := .ref 0) (r := .ref 2) rfl rfl).1
  exact ⟨rfl, rfl, hsub.trans (by decide +kernel), hshift.trans (by decide +kernel)⟩

/-- A comparison of expressions whose types had one signedness when it was made, and have not changed,
tells how the integers that they stand for relate. -/
theorem eval_relate {g₀ g : Symbols} (s : State) (r : Relation) {a b : Expr} {t u : SignalType}
    (ha₀ : g₀.knownType a = some t) (hb₀ : g₀.knownType b = some u)
    (ha : g.typeOf a = some t) (hb : g.typeOf b = some u) (hsign : t.signed = u.signed) :
    ∃ e, g₀.relate r a b = some e ∧
      eval g s e =
        if r.Holds ((eval g s a).reading (some t)) ((eval g s b).reading (some u)) then 1 else 0 := by
  refine ⟨_, Symbols.relate_eq r ha₀ hb₀ hsign, ?_⟩
  have hholds := Word.holds_iff (t := some t) (u := some u) hsign
    (ha ▸ eval_lt g s a) (hb ▸ eval_lt g s b) r
  rw [eval, ha, hb]
  exact if_congr hholds rfl rfl

theorem eval_relate_operands :
    operands.knownType (.ref 0) = some ⟨4, true⟩ ∧ operands.knownType (.ref 1) = some ⟨8, true⟩ ∧
      ∃ e, operands.relate .lt (.ref 0) (.ref 1) = some e ∧ eval operands operandValues e = 1 := by
  have hlow : operands.knownType (.ref 0) = some ⟨4, true⟩ := rfl
  have hhigh : operands.knownType (.ref 1) = some ⟨8, true⟩ := rfl
  obtain ⟨e, hrelate, heval⟩ := eval_relate (g := operands) operandValues .lt hlow hhigh rfl rfl rfl
  exact ⟨hlow, hhigh, e, hrelate, heval.trans (by decide +kernel)⟩

end Sim

end Lockstep
