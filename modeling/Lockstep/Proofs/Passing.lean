import Lockstep.Proofs.Lossless
import Lockstep.Proofs.Program.Growth

/-!
# Blocks that pass the width check

A block passes the width check when the check can be carried out and finds no error. What the check
asks of an assignment or a condition is asked of its operands: they are complete, and what they index
are memories. It goes on to pass while the table of symbols grows and the types in it are settled;
a case statement does so as long as its selector keeps its type.
-/

namespace Lockstep

/-! ## Tables that are being settled -/

/-- Signals stay what they are and types that are there get no wider than a word. The first `n`
types do not change. -/
structure Symbols.Refits (n : Nat) (g g' : Symbols) : Prop where
  signals : ∀ (i : SignalId) x, g.signals[i]? = some x → ∃ x', g'.signals[i]? = some x' ∧
    x'.type = x.type ∧ x'.kind = x.kind ∧ x'.declared = x.declared ∧ (0 < x.depth → 0 < x'.depth)
  types : ∀ (i : TypeId) t, g.types[i]? = some t → ∃ t', g'.types[i]? = some t' ∧
    (i < n → t' = t) ∧ (t.width ≤ maxWidth → t'.width ≤ maxWidth) ∧ (0 < t.width → 0 < t'.width)

namespace Symbols.Refits

variable {n : Nat} {g g' g'' : Symbols}

theorem refl (n : Nat) (g : Symbols) : g.Refits n g :=
  ⟨fun _ x hx => ⟨x, hx, rfl, rfl, rfl, id⟩, fun _ t ht => ⟨t, ht, fun _ => rfl, id, id⟩⟩

theorem trans (h : g.Refits n g') (h' : g'.Refits n g'') : g.Refits n g'' where
  signals i x hx := by
    obtain ⟨x', hx', ht, hk, hd, hp⟩ := h.signals i x hx
    obtain ⟨x'', hx'', ht', hk', hd', hp'⟩ := h'.signals i x' hx'
    exact ⟨x'', hx'', ht'.trans ht, hk'.trans hk, hd'.trans hd, fun hx => hp' (hp hx)⟩
  types i t ht := by
    obtain ⟨t', ht', hs, hw, hp⟩ := h.types i t ht
    obtain ⟨t'', ht'', hs', hw', hp'⟩ := h'.types i t' ht'
    exact ⟨t'', ht'', fun hi => (hs' hi).trans (hs hi), fun hx => hw' (hw hx), fun hx => hp' (hp hx)⟩

theorem of_grows (h : g.Grows g') : g.Refits n g' :=
  ⟨fun i x hx => ⟨x, h.signals i x hx, rfl, rfl, rfl, id⟩,
    fun i t ht => ⟨t, h.types i t ht, fun _ => rfl, id, id⟩⟩

/-- A type that is not among the first `n` may get any width that a signal can have. -/
theorem setType {i : TypeId} {t : SignalType} (hi : n ≤ i) (ht : TypeSlot.isResolved (some t) = true) :
    g.Refits n (g.setType i t) := by
  rw [TypeSlot.isResolved_some] at ht
  refine ⟨fun _ x hx => ⟨x, hx, rfl, rfl, rfl, id⟩, fun j u hu => ?_⟩
  have hj := (Array.getElem?_eq_some_iff.mp hu).1
  rw [Symbols.setType, Array.getElem?_setIfInBounds]
  split
  · next hij =>
    subst hij
    rw [if_pos hj]
    exact ⟨t, rfl, fun hlt => absurd hlt (Nat.not_lt.mpr hi), fun _ => ht.2, fun _ => ht.1⟩
  · exact ⟨u, hu, fun _ => rfl, id, id⟩

theorem setWidth {i : TypeId} {w : Int} (hi : n ≤ i) (hw : 0 < w ∧ w ≤ maxWidth) :
    g.Refits n (g.setWidth i w) := by
  refine ⟨fun _ x hx => ⟨x, hx, rfl, rfl, rfl, id⟩, fun j u hu => ?_⟩
  rw [Symbols.setWidth, Array.getElem?_modify, hu]
  split
  · next hij =>
    subst hij
    exact ⟨_, rfl, fun hlt => absurd hlt (Nat.not_lt.mpr hi), fun _ => hw.2, fun _ => hw.1⟩
  · exact ⟨u, rfl, fun _ => rfl, id, id⟩

theorem isMemory (h : g.Refits n g') {i : SignalId} (hi : g.isMemory i = true) :
    g'.isMemory i = true := by
  cases hx : g.signals[i]? with
  | none => simp [Symbols.isMemory, Symbols.signalKind, hx] at hi
  | some x =>
    obtain ⟨x', hx', -, hk, -⟩ := h.signals i x hx
    simp only [Symbols.isMemory, Symbols.signalKind, hx, hx', Option.map_some, Option.getD_some] at hi ⊢
    rw [hk]
    exact hi

theorem isSome_type? (h : g.Refits n g') {o : Option TypeId} (ho : (g.type? o).isSome = true) :
    (g'.type? o).isSome = true := by
  obtain ⟨t, ht⟩ := Option.isSome_iff_exists.mp ho
  obtain ⟨i, rfl, ht⟩ := Option.bind_eq_some_iff.mp ht
  obtain ⟨t', ht', -⟩ := h.types i t ht
  simp [Symbols.type?, ht']

theorem isSome_signalType (h : g.Refits n g') {i : SignalId}
    (hi : (g.signalType i).isSome = true) : (g'.signalType i).isSome = true := by
  obtain ⟨t, ht⟩ := Option.isSome_iff_exists.mp hi
  obtain ⟨x, hx, ht⟩ := Option.bind_eq_some_iff.mp ht
  obtain ⟨x', hx', hxt, -⟩ := h.signals i x hx
  rw [Symbols.signalType, hx', Option.bind_some, hxt]
  exact h.isSome_type? (Option.isSome_iff_exists.mpr ⟨t, ht⟩)

theorem isSome_typeOf (h : g.Refits n g') {e : Expr} (he : (g.typeOf e).isSome = true) :
    (g'.typeOf e).isSome = true := by
  induction e with
  | hole => simp [Symbols.typeOf] at he
  | ref i => exact h.isSome_signalType he
  | lit v o => exact h.isSome_type? he
  | bin op l r ihl ihr =>
    simp only [Symbols.typeOf, Option.isSome_map] at he ⊢
    exact ihl he
  | cmp p l r ihl ihr => rfl
  | not e ih => exact ih he
  | index i e ih => exact h.isSome_signalType he

theorem typed (h : g.Refits n g') {e : Expr} (he : g.typed e = true) : g'.typed e = true := by
  induction e with
  | hole => simp [Symbols.typed] at he
  | ref i | lit v o => rfl
  | bin op l r ihl ihr =>
    simp only [Symbols.typed, Bool.and_eq_true] at he ⊢
    exact ⟨⟨ihl he.1.1, ihr he.1.2⟩, h.isSome_typeOf he.2⟩
  | cmp p l r ihl ihr => rfl
  | not e ih => exact ih he
  | index i e ih => rfl

end Symbols.Refits

/-- Whether the signals and types that the expression mentions are in the table. -/
def Symbols.covers (g : Symbols) : Expr → Bool
  | .hole => true
  | .ref i => g.signals[i]?.isSome
  | .lit _ t => t.all (· < g.types.size)
  | .bin _ l r | .cmp _ l r => g.covers l && g.covers r
  | .not e => g.covers e
  | .index i e => g.signals[i]?.isSome && g.covers e

namespace Symbols.Refits

variable {n : Nat} {g g' : Symbols}

/-- What was covered keeps its type, if no type of the table may change. -/
theorem typeOf_eq (h : g.Refits n g') (hn : g.types.size ≤ n)
    (hs : ∀ (i : SignalId) x, g.signals[i]? = some x → ∀ t, x.type = some t → t < g.types.size)
    {e : Expr} (he : g.covers e = true) : g'.typeOf e = g.typeOf e := by
  have htype : ∀ t, (∀ i, t = some i → i < g.types.size) → g'.type? t = g.type? t := by
    rintro (_ | i) hi
    · rfl
    · have hlt := hi i rfl
      obtain ⟨t', ht', heq, -⟩ := h.types i _ (Array.getElem?_eq_getElem hlt)
      simp only [Symbols.type?, Option.bind_some, ht', Array.getElem?_eq_getElem hlt,
        heq (hlt.trans_le hn)]
  have hsignal : ∀ i, g.signals[i]?.isSome = true → g'.signalType i = g.signalType i := by
    intro i hi
    obtain ⟨x, hx⟩ := Option.isSome_iff_exists.mp hi
    obtain ⟨x', hx', hxt, -⟩ := h.signals i x hx
    rw [Symbols.signalType, Symbols.signalType, hx, hx', Option.bind_some, Option.bind_some, hxt]
    exact htype x.type fun t ht => hs i x hx t ht
  induction e with
  | hole => rfl
  | ref i => exact hsignal i he
  | lit v o => exact htype o fun i hi => by simpa [Symbols.covers, hi] using he
  | bin op l r ihl ihr =>
    simp only [Symbols.covers, Bool.and_eq_true] at he
    rw [Symbols.typeOf, Symbols.typeOf, ihl he.1, ihr he.2]
  | cmp p l r ihl ihr => rfl
  | not e ih => exact ih he
  | index i e ih =>
    simp only [Symbols.covers, Bool.and_eq_true] at he
    exact hsignal i he.1

end Symbols.Refits

/-! ## Operands -/

namespace Expr

/-- The signals that are read at an index. -/
def indexed : Expr → List SignalId
  | .hole | .ref _ | .lit .. => []
  | .bin _ l r | .cmp _ l r => l.indexed ++ r.indexed
  | .not e => e.indexed
  | .index i e => i :: e.indexed

/-- The expression is complete, every type it mentions is there and at most as wide as a word, and
only memories are read at an index. -/
def Sound (g : Symbols) : Expr → Prop
  | .hole => False
  | .ref i => ∃ t, g.signalType i = some t ∧ t.width ≤ maxWidth
  | .lit _ o => ∃ t, g.type? o = some t ∧ t.width ≤ maxWidth
  | .bin _ l r | .cmp _ l r => l.Sound g ∧ r.Sound g
  | .not e => e.Sound g
  | .index i e => g.isMemory i = true ∧ (∃ t, g.signalType i = some t ∧ t.width ≤ maxWidth) ∧ e.Sound g

namespace Sound

variable {n : Nat} {g g' : Symbols} {e : Expr}

theorem refit_type {o : Option TypeId} (h : g.Refits n g')
    (ho : ∃ t, g.type? o = some t ∧ t.width ≤ maxWidth) :
    ∃ t, g'.type? o = some t ∧ t.width ≤ maxWidth := by
  obtain ⟨t, ht, hw⟩ := ho
  obtain ⟨i, rfl, ht⟩ := Option.bind_eq_some_iff.mp ht
  obtain ⟨t', ht', -, hw', -⟩ := h.types i t ht
  exact ⟨t', ht', hw' hw⟩

theorem refit_signal {i : SignalId} (h : g.Refits n g')
    (hi : ∃ t, g.signalType i = some t ∧ t.width ≤ maxWidth) :
    ∃ t, g'.signalType i = some t ∧ t.width ≤ maxWidth := by
  obtain ⟨t, ht, hw⟩ := hi
  obtain ⟨x, hx, ht⟩ := Option.bind_eq_some_iff.mp ht
  obtain ⟨x', hx', hxt, -⟩ := h.signals i x hx
  rw [Symbols.signalType, hx', Option.bind_some, hxt]
  exact refit_type h ⟨t, ht, hw⟩

theorem refit (he : e.Sound g) (h : g.Refits n g') : e.Sound g' := by
  induction e with
  | hole => exact he
  | ref i => exact refit_signal h he
  | lit v o => exact refit_type h he
  | bin op l r ihl ihr | cmp p l r ihl ihr => exact ⟨ihl he.1, ihr he.2⟩
  | not e ih => exact ih he
  | index i e ih => exact ⟨h.isMemory he.1, refit_signal h he.2.1, ih he.2.2⟩

/-- The type of a sound expression is known, and at most as wide as a word. -/
theorem typeOf (he : e.Sound g) : ∃ t, g.typeOf e = some t ∧ t.width ≤ maxWidth := by
  induction e with
  | hole => exact absurd he not_false
  | ref i | lit v o => exact he
  | bin op l r ihl ihr =>
    obtain ⟨t, ht, hw⟩ := ihl he.1
    obtain ⟨u, hu, hw'⟩ := ihr he.2
    refine ⟨_, by rw [Symbols.typeOf, ht, hu]; rfl, ?_⟩
    simp only [SignalType.resultFor]
    split
    · exact hw
    · exact max_le hw hw'
  | cmp p l r ihl ihr => exact ⟨.bit, rfl, by decide⟩
  | not e ih => exact ih he
  | index i e ih => exact he.2.1

theorem typed (he : e.Sound g) : g.typed e = true := by
  induction e with
  | hole => exact absurd he not_false
  | ref i | lit v o => rfl
  | bin op l r ihl ihr =>
    obtain ⟨t, ht, -⟩ := typeOf he.1
    simp [Symbols.typed, ihl he.1, ihr he.2, ht]
  | cmp p l r ihl ihr => rfl
  | not e ih => exact ih he
  | index i e ih => rfl

theorem knownType (he : e.Sound g) : g.knownType e = g.typeOf e := by
  rw [Symbols.knownType, if_pos he.typed]

/-- A width that is known is one that a signal may have. -/
theorem isResolved (he : e.Sound g) (hw : (g.typeOf e).isUnknown = false) {t : SignalType}
    (ht : g.knownType e = some t) : TypeSlot.isResolved (some t) = true := by
  obtain ⟨u, hu, hle⟩ := he.typeOf
  obtain rfl : u = t := Option.some.inj (hu.symm.trans (he.knownType.symm.trans ht))
  rw [hu] at hw
  exact TypeSlot.isResolved_some.mpr
    ⟨by simpa [TypeSlot.isUnknown, SignalType.isUnknown] using hw, hle⟩

theorem indexed (he : e.Sound g) : ∀ i ∈ e.indexed, g.isMemory i = true := by
  induction e with
  | hole => exact absurd he not_false
  | ref i | lit v o => simp [Expr.indexed]
  | bin op l r ihl ihr | cmp p l r ihl ihr =>
    intro i hi
    rcases List.mem_append.mp hi with hi | hi
    · exact ihl he.1 i hi
    · exact ihr he.2 i hi
  | not e ih => exact ih he
  | index j e ih =>
    intro i hi
    rcases List.mem_cons.mp hi with rfl | hi
    · exact he.1
    · exact ih he.2.2 i hi

theorem checkable (he : e.Sound g) : WidthCheck.checkableExpr g e = true := by
  induction e with
  | hole => exact absurd he not_false
  | ref i | lit v o => rfl
  | bin op l r ihl ihr | cmp p l r ihl ihr =>
    simp [WidthCheck.checkableExpr, ihl he.1, ihr he.2, typed he.1, typed he.2]
  | not e ih => exact ih he
  | index i e ih => exact ih he.2.2

end Sound

end Expr

namespace WidthCheck

variable {n : Nat} {g g' : Symbols} {name name' : String}

theorem checkableExpr_refit (h : g.Refits n g') {e : Expr} (he : checkableExpr g e = true) :
    checkableExpr g' e = true := by
  induction e with
  | hole | ref i | lit v o => rfl
  | bin op l r ihl ihr =>
    simp only [checkableExpr, Bool.and_eq_true, Bool.or_eq_true] at he ⊢
    exact ⟨⟨ihl he.1.1, ihr he.1.2⟩, he.2.imp_right fun ht => ⟨h.typed ht.1, h.typed ht.2⟩⟩
  | cmp p l r ihl ihr =>
    simp only [checkableExpr, Bool.and_eq_true] at he ⊢
    exact ⟨⟨⟨ihl he.1.1.1, ihr he.1.1.2⟩, h.typed he.1.2⟩, h.typed he.2⟩
  | not e ih | index i e ih => exact ih he

/-- None of the findings is an error. -/
def Silent (fs : List Finding) : Prop := ∀ f ∈ fs, f.isError = false

@[simp] theorem silent_nil : Silent [] := by simp [Silent]

@[simp] theorem silent_append {a b : List Finding} : Silent (a ++ b) ↔ Silent a ∧ Silent b := by
  simp only [Silent, List.mem_append]
  exact ⟨fun h => ⟨fun f hf => h f (.inl hf), fun f hf => h f (.inr hf)⟩,
    fun h f hf => hf.elim (h.1 f) (h.2 f)⟩

@[simp] theorem silent_singleton {f : Finding} : Silent [f] ↔ f.isError = false := by simp [Silent]

/-- The only errors in an expression are indexed reads. -/
theorem silent_checkExpr {e : Expr} :
    Silent (checkExpr g name e) ↔ ∀ i ∈ e.indexed, g.isMemory i = true := by
  induction e with
  | hole | ref i | lit v o => simp [checkExpr, Expr.indexed]
  | bin op l r ihl ihr =>
    have hrest : Silent (if op.isShift || (g.typeOf l).signCompatible (g.typeOf r) then []
        else [.mixedOperands name (g.exprText (.bin op l r))]) := by
      split <;> simp [Finding.isError, Finding.severity]
    simp only [checkExpr, Expr.indexed, silent_append, hrest, ihl, ihr, List.mem_append, and_true,
      or_imp, forall_and]
  | cmp p l r ihl ihr =>
    have hrest : Silent (if (g.typeOf l).signCompatible (g.typeOf r) then []
        else [.mixedCompare name (g.exprText (.cmp p l r))]) := by
      split <;> simp [Finding.isError, Finding.severity]
    simp only [checkExpr, Expr.indexed, silent_append, hrest, ihl, ihr, List.mem_append, and_true,
      or_imp, forall_and]
  | not e ih => exact ih
  | index j e ih =>
    have hrest : Silent (if g.isMemory j then [] else [.indexedRead (g.signalName j)]) ↔
        g.isMemory j = true := by
      split <;> simp_all [Finding.isError, Finding.severity]
    simp only [checkExpr, Expr.indexed, silent_append, hrest, ih, List.mem_cons, forall_eq_or_imp]
    exact and_comm

theorem silent_checkStore (dest : SignalId) (value : Expr) : Silent (checkStore g dest value) := by
  unfold checkStore
  split
  · rw [silent_append]
    constructor <;> split <;> simp [Finding.isError, Finding.severity]
  · simp

/-- The errors of an assignment are those of its operands, and an index of what is no memory. -/
theorem silent_checkAssign {dest : SignalId} {index : Option Expr} {value : Expr} :
    Silent (checkAssign g name dest index value) ↔
      (∀ i ∈ value.indexed, g.isMemory i = true) ∧
      ∀ e, index = some e → (∀ i ∈ e.indexed, g.isMemory i = true) ∧ g.isMemory dest = true := by
  unfold checkAssign
  cases index with
  | none => simp [silent_checkExpr, silent_checkStore]
  | some e =>
    have hrest : Silent (if g.isMemory dest then [] else [.indexedWrite (g.signalName dest)]) ↔
        g.isMemory dest = true := by
      split <;> simp_all [Finding.isError, Finding.severity]
    simp only [silent_append, silent_checkExpr, silent_checkStore, hrest, Option.some.injEq,
      forall_eq', and_true]

/-- Only the type of the selector matters for the values of a case statement. -/
theorem silent_checkArmValue_congr {e : Expr} (h : g'.typeOf e = g.typeOf e) (v : UInt64) :
    Silent (checkArmValue g' name' e v) ↔ Silent (checkArmValue g name e v) := by
  unfold checkArmValue
  rw [h]
  split
  · split <;> simp [Finding.isError, Finding.severity]
  · rfl

/-! ## Blocks -/

/-- The check of the block can be carried out, and finds no error. -/
structure Passes (g : Symbols) (name : String) (body : List Statement) : Prop where
  checkable : checkableBlock g body = true
  silent : Silent (checkBlock g name body)

theorem knownType_refit (h : g.Refits n g') {e : Expr} (he : (g.knownType e).isSome = true) :
    (g'.knownType e).isSome = true := by
  unfold Symbols.knownType at he ⊢
  split at he
  · next ht =>
    rw [if_pos (h.typed ht)]
    exact h.isSome_typeOf he
  · simp at he

mutual

theorem refit_stmt (h : g.Refits n g') (st : Statement)
    (hsel : ∀ e arms o, .case e arms o ∈ Stmt.nested st → g'.typeOf e = g.typeOf e)
    (hc : checkable g st = true) (hs : Silent (checkStmt g name st)) :
    checkable g' st = true ∧ Silent (checkStmt g' name' st) := by
  cases st with
  | blank => exact ⟨rfl, by simp [checkStmt]⟩
  | assign dest index value =>
    simp only [checkable, Bool.and_eq_true] at hc ⊢
    simp only [checkStmt, silent_checkAssign] at hs ⊢
    refine ⟨⟨⟨checkableExpr_refit h hc.1.1, ?_⟩, h.typed hc.2⟩,
      fun i hi => h.isMemory (hs.1 i hi), fun e he => ?_⟩
    · cases index with
      | none => rfl
      | some e => exact checkableExpr_refit h hc.1.2
    · exact ⟨fun i hi => h.isMemory ((hs.2 e he).1 i hi), h.isMemory (hs.2 e he).2⟩
  | cond test thn els =>
    simp only [Stmt.nested, List.mem_cons, List.mem_append, reduceCtorEq, false_or] at hsel
    simp only [checkable, Bool.and_eq_true] at hc ⊢
    simp only [checkStmt, silent_append] at hs ⊢
    have ht := refit_block h thn (fun e arms o he => hsel e arms o (.inl he)) hc.1.2 hs.1.2
    have he := refit_block h els (fun e arms o he => hsel e arms o (.inr he)) hc.2 hs.2
    refine ⟨⟨⟨checkableExpr_refit h hc.1.1, ht.1⟩, he.1⟩, ⟨?_, ht.2⟩, he.2⟩
    rw [silent_checkExpr] at hs ⊢
    exact fun i hi => h.isMemory (hs.1.1 i hi)
  | case e arms o =>
    simp only [checkable, Bool.and_eq_true] at hc ⊢
    simp only [checkStmt, silent_append] at hs ⊢
    have hnested : ∀ e' arms' o', (.case e' arms' o' ∈ Stmt.nestedArms arms ∨
        .case e' arms' o' ∈ Stmt.nestedBlock o) → g'.typeOf e' = g.typeOf e' := fun e' arms' o' he' =>
      hsel e' arms' o' (List.mem_cons_of_mem _ (List.mem_append.mpr he'))
    have ha := refit_arms h e arms (hsel e arms o List.mem_cons_self)
      (fun e' arms' o' he' => hnested e' arms' o' (.inl he')) hc.1.2 hs.1.2
    have ho := refit_block h o (fun e' arms' o' he' => hnested e' arms' o' (.inr he')) hc.2 hs.2
    refine ⟨⟨⟨⟨checkableExpr_refit h hc.1.1.1, knownType_refit h hc.1.1.2⟩, ha.1⟩, ho.1⟩,
      ⟨?_, ha.2⟩, ho.2⟩
    rw [silent_checkExpr] at hs ⊢
    exact fun i hi => h.isMemory (hs.1.1 i hi)

theorem refit_block (h : g.Refits n g') (body : List Statement)
    (hsel : ∀ e arms o, .case e arms o ∈ Stmt.nestedBlock body → g'.typeOf e = g.typeOf e)
    (hc : checkableBlock g body = true) (hs : Silent (checkBlock g name body)) :
    checkableBlock g' body = true ∧ Silent (checkBlock g' name' body) := by
  cases body with
  | nil => exact ⟨rfl, by simp [checkBlock]⟩
  | cons st rest =>
    simp only [Stmt.nestedBlock, List.mem_append] at hsel
    simp only [checkableBlock, Bool.and_eq_true] at hc ⊢
    simp only [checkBlock, silent_append] at hs ⊢
    have hst := refit_stmt h st (fun e arms o he => hsel e arms o (.inl he)) hc.1 hs.1
    have hrest := refit_block h rest (fun e arms o he => hsel e arms o (.inr he)) hc.2 hs.2
    exact ⟨⟨hst.1, hrest.1⟩, hst.2, hrest.2⟩

theorem refit_arms (h : g.Refits n g') (e : Expr) (arms : List (UInt64 × List Statement))
    (htype : g'.typeOf e = g.typeOf e)
    (hsel : ∀ e arms' o, .case e arms' o ∈ Stmt.nestedArms arms → g'.typeOf e = g.typeOf e)
    (hc : checkableArms g arms = true) (hs : Silent (checkArms g name e arms)) :
    checkableArms g' arms = true ∧ Silent (checkArms g' name' e arms) := by
  cases arms with
  | nil => exact ⟨rfl, by simp [checkArms]⟩
  | cons arm rest =>
    obtain ⟨v, body⟩ := arm
    simp only [Stmt.nestedArms, List.mem_append] at hsel
    simp only [checkableArms, Bool.and_eq_true] at hc ⊢
    simp only [checkArms, silent_append] at hs ⊢
    have hbody := refit_block h body (fun e arms o he => hsel e arms o (.inl he)) hc.1 hs.1.2
    have hrest := refit_arms h e rest htype (fun e arms o he => hsel e arms o (.inr he)) hc.2 hs.2
    exact ⟨⟨hbody.1, hrest.1⟩, ⟨(silent_checkArmValue_congr htype v).mpr hs.1.1, hbody.2⟩, hrest.2⟩

end

/-- A block goes on to pass as long as its selectors keep their types; the name of the module does not
matter. -/
theorem Passes.refit {body : List Statement} (hb : Passes g name body) (h : g.Refits n g')
    (hsel : ∀ e arms o, .case e arms o ∈ Stmt.nestedBlock body → g'.typeOf e = g.typeOf e) :
    Passes g' name' body := by
  obtain ⟨hc, hs⟩ := refit_block h body hsel hb.checkable hb.silent
  exact ⟨hc, hs⟩

theorem passes_nil : Passes g name [] := ⟨rfl, by simp [checkBlock]⟩

theorem passes_cons {st : Statement} {rest : List Statement} :
    Passes g name (st :: rest) ↔ Passes g name [st] ∧ Passes g name rest := by
  constructor
  · rintro ⟨hc, hs⟩
    simp only [checkableBlock, Bool.and_eq_true] at hc
    simp only [checkBlock, silent_append] at hs
    exact ⟨⟨by simp [checkableBlock, hc.1], by simpa [checkBlock] using hs.1⟩, hc.2, hs.2⟩
  · rintro ⟨⟨hc, hs⟩, hc', hs'⟩
    refine ⟨?_, ?_⟩
    · simpa [checkableBlock, hc'] using hc
    · simpa [checkBlock, hs'] using hs

theorem passes_append {a b : List Statement} (ha : Passes g name a) (hb : Passes g name b) :
    Passes g name (a ++ b) := by
  induction a with
  | nil => exact hb
  | cons st a ih =>
    obtain ⟨hst, hrest⟩ := passes_cons.mp ha
    exact passes_cons.mpr ⟨hst, ih hrest⟩

theorem passes_assign {dest : SignalId} {index : Option Expr} {value : Expr}
    (hi : ∀ e, index = some e → e.Sound g ∧ g.isMemory dest = true) (hv : value.Sound g) :
    Passes g name [.assign dest index value] := by
  refine ⟨?_, ?_⟩
  · cases index with
    | none => simp [checkableBlock, checkable, hv.checkable, hv.typed]
    | some e => simp [checkableBlock, checkable, hv.checkable, hv.typed, (hi e rfl).1.checkable]
  · simp only [checkBlock, checkStmt, List.append_nil, silent_checkAssign]
    exact ⟨hv.indexed, fun e he => ⟨(hi e he).1.indexed, (hi e he).2⟩⟩

theorem passes_cond {test : Expr} {thn els : List Statement} (ht : test = .hole ∨ test.Sound g)
    (hthn : Passes g name thn) (hels : Passes g name els) :
    Passes g name [.cond test thn els] := by
  have htest : checkableExpr g test = true ∧ Silent (checkExpr g name test) := by
    rcases ht with rfl | ht
    · exact ⟨rfl, by simp [checkExpr]⟩
    · exact ⟨ht.checkable, silent_checkExpr.mpr ht.indexed⟩
  refine ⟨?_, ?_⟩
  · simp [checkableBlock, checkable, htest.1, hthn.checkable, hels.checkable]
  · simp [checkBlock, checkStmt, htest.2, hthn.silent, hels.silent]

/-- The value of a case statement fits in the bits of its selector. -/
theorem silent_checkArmValue {e : Expr} {t : SignalType} (he : g.typeOf e = some t) {v : UInt64}
    (hv : v.toNat < 2 ^ t.width.toNat) : Silent (checkArmValue g name e v) := by
  simp only [checkArmValue, he]
  split
  · next hbad =>
    simp [Nat.shiftRight_eq_div_pow, Nat.div_eq_of_lt hv] at hbad
  · simp

theorem passes_case {e : Expr} {t : SignalType} {arms : List (UInt64 × List Statement)}
    {o : List Statement} (he : e.Sound g) (ht : g.typeOf e = some t)
    (harms : ∀ arm ∈ arms, arm.1.toNat < 2 ^ t.width.toNat ∧ Passes g name arm.2)
    (ho : Passes g name o) : Passes g name [.case e arms o] := by
  have ha : checkableArms g arms = true ∧ Silent (checkArms g name e arms) := by
    clear ho
    induction arms with
    | nil => exact ⟨rfl, by simp [checkArms]⟩
    | cons arm arms ih =>
      obtain ⟨v, body⟩ := arm
      obtain ⟨hv, hbody⟩ := harms (v, body) List.mem_cons_self
      obtain ⟨hc, hs⟩ := ih fun arm harm => harms arm (List.mem_cons_of_mem _ harm)
      exact ⟨by simp [checkableArms, hbody.checkable, hc],
        by simp [checkArms, silent_checkArmValue ht hv, hbody.silent, hs]⟩
  refine ⟨?_, ?_⟩
  · simp [checkableBlock, checkable, he.checkable, he.knownType, ht, ha.1, ho.checkable]
  · simp [checkBlock, checkStmt, silent_checkExpr.mpr he.indexed, ha.2, ho.silent]

/-! ## Modules -/

/-- The errors of a signal are a width that it cannot have, and a memory without words. -/
theorem silent_checkSignal {x : Signal} : Silent (checkSignal g x) ↔
    (g.type? x.type).isResolved = true ∧ (x.kind = .memory → 0 < x.depth) := by
  unfold checkSignal
  cases htype : g.type? x.type with
  | none => simp [TypeSlot.isResolved, Finding.isError, Finding.severity]
  | some t =>
    rw [TypeSlot.isResolved_some]
    by_cases hu : t.isUnknown = true
    · have hw : t.width ≤ 0 := by simpa [SignalType.isUnknown] using hu
      simp [hu, hw, Finding.isError, Finding.severity]
    · have hw : 0 < t.width := by simpa [SignalType.isUnknown] using hu
      simp only [hu, Bool.false_eq_true, if_false, silent_append, hw, true_and]
      refine and_congr ?_ ?_
      · split
        · next hwide => simp [Finding.isError, Finding.severity, not_le.mpr hwide]
        · next hwide => simp [not_lt.mp hwide]
      · split
        · next hbad =>
          simp only [Bool.and_eq_true, decide_eq_true_eq] at hbad
          simp [Finding.isError, Finding.severity, hbad.1, hbad.2]
        · next hgood =>
          simp only [Bool.and_eq_true, decide_eq_true_eq, not_and, not_le] at hgood
          simpa using hgood

instance (g : Symbols) (name : String) (body : List Statement) : Decidable (Passes g name body) :=
  decidable_of_iff (_ ∧ ∀ f ∈ checkBlock g name body, f.isError = false)
    ⟨fun h => ⟨h.1, h.2⟩, fun h => ⟨h.checkable, h.silent⟩⟩

theorem silent_findings {m : Module} : Silent (findings m) ↔
    (∀ x ∈ m.symbols.signals.toList, x.declared = true →
      (m.symbols.type? x.type).isResolved = true ∧ (x.kind = .memory → 0 < x.depth)) ∧
      ∀ p ∈ m.processes.toList, Silent (checkBlock m.symbols m.name p.body) := by
  rw [findings, silent_append]
  refine and_congr ⟨fun h x hx hd => ?_, fun h f hf => ?_⟩ ⟨fun h p hp f hf => ?_, fun h f hf => ?_⟩
  · obtain ⟨i, hi⟩ := List.getElem?_of_mem hx
    rw [Array.getElem?_toList] at hi
    refine silent_checkSignal.mp fun f hf => h f (List.mem_flatMap.mpr ⟨i, ?_, ?_⟩)
    · exact mem_declared.mpr (by simp [hi, hd])
    · rw [hi, Option.getD_some]
      exact hf
  · obtain ⟨i, hi, hf⟩ := List.mem_flatMap.mp hf
    obtain ⟨x, hx, hdecl⟩ := (Option.any_eq_true ..).mp (mem_declared.mp hi)
    rw [hx, Option.getD_some] at hf
    exact silent_checkSignal.mpr (h x (List.mem_of_getElem? (Array.getElem?_toList ▸ hx)) hdecl) f hf
  · exact h f (List.mem_flatMap.mpr ⟨p, hp, hf⟩)
  · obtain ⟨p, hmem, hf⟩ := List.mem_flatMap.mp hf
    exact h p hmem f hf

/-- A module passes if and only if its signals are resolved, its memories have words, and all its blocks
pass. -/
theorem run_eq_none_iff {m : Module} {reporter : Option Reporter} :
    (run (some [some m]) reporter).1 = none ↔
      (∀ x ∈ m.symbols.signals.toList, x.declared = true →
        (m.symbols.type? x.type).isResolved = true ∧ (x.kind = .memory → 0 < x.depth)) ∧
      ∀ p ∈ m.processes.toList, Passes m.symbols m.name p.body := by
  have hcheck : checkableModule m = true ↔
      ∀ p ∈ m.processes.toList, checkableBlock m.symbols p.body = true := by
    rw [checkableModule, Array.all_eq_true_iff_forall_mem]
    exact ⟨fun h p hp => h p (by simpa using hp), fun h p hp => h p (by simpa using hp)⟩
  have hcount : (findings m).countP Finding.isError = 0 ↔ Silent (findings m) := by
    simp [List.countP_eq_zero, Silent]
  simp only [run, List.filterMap_cons, id, List.filterMap_nil, List.all_cons, List.all_nil,
    Bool.and_true, List.flatMap_cons, List.flatMap_nil, List.append_nil]
  split
  · next hc =>
    rw [hcheck] at hc
    have hnone : (if (findings m).countP Finding.isError = 0 then none
        else some (Error.found ((findings m).countP Finding.isError))) = none ↔
        Silent (findings m) := by
      rw [← hcount]
      split <;> simp_all
    rw [hnone, silent_findings]
    exact and_congr_right fun _ => ⟨fun h p hp => ⟨hc p hp, h p hp⟩, fun h p hp => (h p hp).silent⟩
  · next hc =>
    rw [hcheck] at hc
    simp only [reduceCtorEq, false_iff]
    exact fun h => hc fun p hp => (h.2 p hp).checkable

end WidthCheck

end Lockstep
