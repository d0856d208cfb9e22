import Lockstep.Proofs.Arithmetic

/-!
# Comparisons made before the types of their operands are known

The type of an expression is computed when it is asked for, so an expression sees what becomes of the
types of its signals. A comparison does so for the widths of its operands, but it asks for their
signedness only once, when it is made. It agrees with the one that would be made later as long as the
same operands are signed, and else only where both ways to read the operands order them alike.
-/

namespace Lockstep

/-- An ordering of the two is one of signed numbers. -/
def Symbols.ordersSigned (g : Symbols) (a b : Expr) : Bool :=
  (g.typeOf a).isSigned && (g.typeOf b).isSigned

theorem Symbols.relate_ordering {g : Symbols} {r : Relation} (hr : r.isEquality = false) {a b e : Expr}
    (h : g.relate r a b = some e) :
    e = .cmp (if g.ordersSigned a b then r.signed else r.unsigned) a b := by
  have htype {x : Expr} {t : SignalType} (hx : g.knownType x = some t) : g.typeOf x = some t := by
    unfold knownType at hx
    split at hx
    · exact hx
    · cases hx
  rw [relate, if_neg (by simp [hr])] at h
  obtain ⟨t, ht, h⟩ := Option.bind_eq_some_iff.mp h
  cases hsigned : t.signed with
  | false =>
    obtain rfl : .cmp r.unsigned a b = e := by simpa [hsigned] using h
    simp [ordersSigned, htype ht, TypeSlot.isSigned, hsigned]
  | true =>
    rw [if_pos hsigned] at h
    obtain ⟨u, hu, h⟩ := Option.bind_eq_some_iff.mp h
    obtain rfl : .cmp (if u.signed then r.signed else r.unsigned) a b = e := by simpa using h
    simp [ordersSigned, htype ht, htype hu, TypeSlot.isSigned, hsigned]

namespace Word

/-- The integer that an ordering takes a value of type `t` for. An ordering of signed numbers reads its
bits in two's complement; one of numbers without a sign extends it as its type says, and keeps the
low `w` bits. -/
def ranked (signed : Bool) (w : Nat) (t : TypeSlot) (v : Word) : Int :=
  if signed then (v.setWidth t.bits).toInt else v.reading t % 2 ^ w

theorem ult_fit_eq (t u : TypeSlot) (x y : Word) :
    (fit t (max t.bits u.bits) x).ult (fit u (max t.bits u.bits) y) = true ↔
      ranked false (max t.bits u.bits) t x < ranked false (max t.bits u.bits) u y := by
  have hw : max t.bits u.bits ≤ maxWidth := max_le t.bits_le u.bits_le
  rw [BitVec.ult_iff_lt, BitVec.lt_def]
  zify
  rw [toNat_fit t hw, toNat_fit u hw]
  rfl

theorem slt_extend_eq (w : Nat) (t u : TypeSlot) (x y : Word) :
    (extend t.bits x).slt (extend u.bits y) = true ↔ ranked true w t x < ranked true w u y := by
  rw [BitVec.slt_iff_toInt_lt, toInt_extend t.bits_le, toInt_extend u.bits_le]
  rfl

/-- An ordering goes by the integers that it takes its operands for, whatever their types are. -/
theorem holds_ordering {r : Relation} (hr : r.isEquality = false) (signed : Bool) (t u : TypeSlot)
    (x y : Word) :
    holds (if signed then r.signed else r.unsigned) t u x y = true ↔
      r.Holds (ranked signed (max t.bits u.bits) t x) (ranked signed (max t.bits u.bits) u y) := by
  cases signed with
  | true =>
    have hlt := slt_extend_eq (max t.bits u.bits) t u x y
    have hgt := slt_extend_eq (max t.bits u.bits) u t y x
    cases r <;>
      simp_all [holds, Relation.signed, Relation.isEquality, Predicate.isSigned, Relation.Holds,
        ← Bool.not_eq_true]
  | false =>
    have hlt := ult_fit_eq t u x y
    have hgt := ult_fit_eq u t y x
    rw [max_comm u.bits] at hgt
    cases r <;>
      simp_all [holds, Relation.unsigned, Relation.isEquality, Predicate.isSigned, Relation.Holds,
        ← Bool.not_eq_true]

end Word

namespace Sim

/-- The ordering holds of the values of the operands, read with or without a sign. -/
def Orders (g : Symbols) (s : State) (r : Relation) (a b : Expr) (signed : Bool) : Prop :=
  let w := max (g.typeOf a).bits (g.typeOf b).bits
  r.Holds ((eval g s a).ranked signed w (g.typeOf a)) ((eval g s b).ranked signed w (g.typeOf b))

instance (g : Symbols) (s : State) (r : Relation) (a b : Expr) (signed : Bool) :
    Decidable (Orders g s r a b signed) := inferInstanceAs (Decidable (r.Holds _ _))

theorem eval_ordering {g : Symbols} {r : Relation} (hr : r.isEquality = false) (s : State) (a b : Expr)
    (signed : Bool) : eval g s (.cmp (if signed then r.signed else r.unsigned) a b) =
      if Orders g s r a b signed then 1 else 0 := by
  rw [eval]
  exact if_congr (Word.holds_ordering hr signed _ _ _ _) rfl rfl

/-- An ordering that was made under `g`, and is evaluated after types have changed to those of `g'`,
reads its operands with a sign if they had one when it was made. It has the value of the one made
under `g'` exactly where this is still so, or makes no difference. -/
theorem late_comparison {g g' : Symbols} {r : Relation} (hr : r.isEquality = false) {a b e e' : Expr}
    (h : g.relate r a b = some e) (h' : g'.relate r a b = some e') (s : State) :
    eval g' s e = (if Orders g' s r a b (g.ordersSigned a b) then 1 else 0) ∧
      (eval g' s e = eval g' s e' ↔ g.ordersSigned a b = g'.ordersSigned a b ∨
        (Orders g' s r a b true ↔ Orders g' s r a b false)) := by
  obtain rfl := Symbols.relate_ordering hr h
  obtain rfl := Symbols.relate_ordering hr h'
  rw [eval_ordering hr, eval_ordering hr]
  refine ⟨rfl, ?_⟩
  have hvalue (p q : Prop) [Decidable p] [Decidable q] :
      (if p then (1 : Word) else 0) = (if q then 1 else 0) ↔ (p ↔ q) := by
    have hne : (1 : Word) ≠ 0 := by decide
    by_cases hp : p <;> by_cases hq : q <;>
      simp only [hp, hq, if_true, if_false, hne, hne.symm, iff_true, iff_false, not_true]
  rw [hvalue]
  cases g.ordersSigned a b <;> cases g'.ordersSigned a b <;> simp [iff_comm]

/-- Two registers of eight bits, which get a sign when their types are resolved. -/
def scales (signed : Bool) : Symbols where
  types := #[⟨8, signed⟩]
  signals := #[{ name := "a", type := some 0, kind := .reg },
    { name := "b", type := some 0, kind := .reg }]

/-- Minus one is less than zero, but not for a comparison that was made before. -/
theorem scales_late_comparison :
    ∃ e e', (scales false).relate .lt (.ref 0) (.ref 1) = some e ∧
      (scales true).relate .lt (.ref 0) (.ref 1) = some e' ∧
      eval (scales true) ⟨#[some 255, some 0], #[]⟩ e = 0 ∧
      eval (scales true) ⟨#[some 255, some 0], #[]⟩ e' = 1 ∧
      ¬ (Orders (scales true) ⟨#[some 255, some 0], #[]⟩ .lt (.ref 0) (.ref 1) true ↔
        Orders (scales true) ⟨#[some 255, some 0], #[]⟩ .lt (.ref 0) (.ref 1) false) := by
  have h : (scales false).relate .lt (.ref 0) (.ref 1) = some (.cmp .ult (.ref 0) (.ref 1)) := rfl
  have h' : (scales true).relate .lt (.ref 0) (.ref 1) = some (.cmp .slt (.ref 0) (.ref 1)) := rfl
  obtain ⟨hvalue, hagree⟩ := late_comparison rfl h h' ⟨#[some 255, some 0], #[]⟩
  have hlate : eval (scales true) ⟨#[some 255, some 0], #[]⟩ (.cmp .slt (.ref 0) (.ref 1)) = 1 := by
    decide +kernel
  have hearly : eval (scales true) ⟨#[some 255, some 0], #[]⟩ (.cmp .ult (.ref 0) (.ref 1)) = 0 :=
    hvalue.trans (by decide +kernel)
  refine ⟨_, _, h, h', hearly, hlate, fun hsame => ?_⟩
  have hequal := hagree.mpr (.inr hsame)
  rw [hearly, hlate] at hequal
  exact absurd hequal (by decide)

end Sim

end Lockstep
