import Lockstep.Proofs.Sim.Blocks

/-!
# What does not depend on state codes

Two symbol tables that differ in one type, and in some late constants. An expression that reads no
signal of the type, and has no literal of it and none of the constants, has one value under both; a
block of such expressions makes the same writes, and in runs on both tables what holds no state code
stays the same.
-/

namespace Lockstep

/-- How state codes are written down: the type they have, and the late constants that hold one. -/
structure Coding where
  type : TypeId
  links : List LinkId
deriving DecidableEq, Repr

/-- The signal has the type of state codes. -/
def Symbols.isCoded (g : Symbols) (k : Coding) (i : SignalId) : Bool :=
  g.signals[i]?.any (·.type == some k.type)

namespace Expr

/-- The expression has no part that is a state code. -/
def isUncoded (g : Symbols) (k : Coding) : Expr → Bool
  | .hole => true
  | .ref i => !g.isCoded k i
  | .lit (.value _) t => t != some k.type
  | .lit (.link l) t => t != some k.type && !k.links.contains l
  | .bin _ l r | .cmp _ l r => l.isUncoded g k && r.isUncoded g k
  | .not e => e.isUncoded g k
  | .index i e => !g.isCoded k i && e.isUncoded g k

/-- The expression is a late constant of the type of state codes. -/
def isAddress (k : Coding) : Expr → Bool
  | .lit (.link _) t => t == some k.type
  | _ => false

end Expr

namespace Stmt

variable (g : Symbols) (k : Coding)

mutual

/-- The statement reads no state code, and writes none but late constants. -/
def isUncoded : Statement → Bool
  | .blank => true
  | .assign dest index value => index.all (·.isUncoded g k) &&
    if g.isCoded k dest then value.isAddress k else value.isUncoded g k
  | .cond test thn els => test.isUncoded g k && blockUncoded thn && blockUncoded els
  | .case selector arms otherwise =>
    selector.isUncoded g k && armsUncoded arms && blockUncoded otherwise

def blockUncoded : List Statement → Bool
  | [] => true
  | st :: rest => st.isUncoded && blockUncoded rest

def armsUncoded : List (UInt64 × List Statement) → Bool
  | [] => true
  | (_, body) :: rest => blockUncoded body && armsUncoded rest

end

end Stmt

/-- The tables agree on all but the type of state codes and the late constants that hold one. -/
structure Symbols.Recoded (k : Coding) (g g' : Symbols) : Prop where
  signals : g'.signals = g.signals
  types : ∀ t ≠ k.type, g'.types[t]? = g.types[t]?
  links : ∀ l ∉ k.links, g'.links[l]? = g.links[l]?

namespace Sim

variable {k : Coding} {g g' : Symbols} {s s' : State}

/-- The states agree on all signals but those of the type of state codes. -/
def State.Agrees (g : Symbols) (k : Coding) (s s' : State) : Prop :=
  ∀ i, g.isCoded k i = false → State.SameAt s' s i

section

variable (h : g.Recoded k g')
include h

theorem type?_recoded {t : Option TypeId} (ht : t ≠ some k.type) : g'.type? t = g.type? t := by
  cases t with
  | none => rfl
  | some t =>
    rw [Symbols.type?, Symbols.type?, Option.bind_some, Option.bind_some,
      h.types t fun he => ht (congrArg some he)]

theorem signalType_recoded {i : SignalId} (hi : g.isCoded k i = false) :
    g'.signalType i = g.signalType i := by
  rw [Symbols.signalType, Symbols.signalType, h.signals]
  cases hx : g.signals[i]? with
  | none => rfl
  | some x =>
    rw [Symbols.isCoded, hx, Option.any_some, beq_eq_false_iff_ne] at hi
    exact type?_recoded h hi

/-- Before anything has run the states agree. -/
theorem State.Agrees.initial : State.Agrees g k (.initial g) (.initial g') := by
  intro i hi
  refine ⟨by simp [State.initial, h.signals], ?_, ?_⟩
  · simp only [State.scalar, State.initial, Array.getElem?_map, h.signals]
    cases hx : g.signals[i]? with
    | none => rfl
    | some x =>
      rw [Symbols.isCoded, hx, Option.any_some, beq_eq_false_iff_ne] at hi
      rw [Option.map_some, Option.map_some, type?_recoded h hi]
  · simp only [State.words, State.initial, Array.getElem?_map, h.signals]

theorem typeOf_recoded {e : Expr} (he : e.isUncoded g k = true) : g'.typeOf e = g.typeOf e := by
  induction e with
  | hole => rfl
  | ref i => exact signalType_recoded h (by simpa [Expr.isUncoded] using he)
  | lit v t =>
    refine type?_recoded h ?_
    cases v with
    | value v => simpa [Expr.isUncoded] using he
    | link l =>
      rw [Expr.isUncoded, Bool.and_eq_true, bne_iff_ne] at he
      exact he.1
  | bin op l r ihl ihr =>
    rw [Expr.isUncoded, Bool.and_eq_true] at he
    rw [Symbols.typeOf, Symbols.typeOf, ihl he.1, ihr he.2]
  | cmp p l r => rfl
  | not e ih => exact ih he
  | index i e =>
    rw [Expr.isUncoded, Bool.and_eq_true, Bool.not_eq_true'] at he
    exact signalType_recoded h he.1

theorem literal_recoded {v : Literal} {t : Option TypeId}
    (he : (Expr.lit v t).isUncoded g k = true) : g'.literal v = g.literal v := by
  cases v with
  | value v => rfl
  | link l =>
    rw [Expr.isUncoded, Bool.and_eq_true, Bool.not_eq_true', ← Bool.not_eq_true,
      List.contains_iff_mem] at he
    rw [Symbols.literal, Symbols.literal, h.links l he.2]

theorem defined_recoded {e : Expr} (he : e.isUncoded g k = true) : g'.defined e = g.defined e := by
  induction e with
  | hole | ref i | lit v t => rfl
  | bin op l r ihl ihr =>
    rw [Expr.isUncoded, Bool.and_eq_true] at he
    rw [Symbols.defined, Symbols.defined, ihl he.1, ihr he.2, typeOf_recoded h he.1]
  | cmp p l r ihl ihr =>
    rw [Expr.isUncoded, Bool.and_eq_true] at he
    rw [Symbols.defined, Symbols.defined, ihl he.1, ihr he.2]
  | not e ih => exact ih he
  | index i e ih =>
    rw [Expr.isUncoded, Bool.and_eq_true] at he
    exact ih he.2

variable (hs : State.Agrees g k s s')
include hs

theorem eval_recoded {e : Expr} (he : e.isUncoded g k = true) : eval g' s' e = eval g s e := by
  have htype := fun {e} => typeOf_recoded h (e := e)
  induction e with
  | hole => rfl
  | ref i =>
    have hi : g.isCoded k i = false := by simpa [Expr.isUncoded] using he
    rw [eval, eval, signalType_recoded h hi, (hs i hi).read]
  | lit v t =>
    have ht : g'.type? t = g.type? t := htype he
    rw [eval, eval, ht, literal_recoded h he]
  | bin op l r ihl ihr =>
    have hb := htype he
    rw [Expr.isUncoded, Bool.and_eq_true] at he
    rw [eval, eval, hb, htype he.1, htype he.2, ihl he.1, ihr he.2]
  | cmp p l r ihl ihr =>
    rw [Expr.isUncoded, Bool.and_eq_true] at he
    rw [eval, eval, htype he.1, htype he.2, ihl he.1, ihr he.2]
  | not e ih => rw [eval, eval, htype (e := e) he, ih he]
  | index i e ih =>
    rw [Expr.isUncoded, Bool.and_eq_true, Bool.not_eq_true'] at he
    rw [eval, eval, signalType_recoded h he.1, ih he.2, (hs i he.1).word]

theorem assignment_recoded {dest : SignalId} {index : Option Expr} {value : Expr}
    (hd : g.isCoded k dest = false) (hindex : index.all (·.isUncoded g k) = true)
    (hvalue : value.isUncoded g k = true) :
    assignment g' s' dest index value = assignment g s dest index value := by
  have hv := eval_recoded h hs hvalue
  cases index with
  | none => simp only [assignment, typeOf_recoded h hvalue, signalType_recoded h hd, hv]
  | some e =>
    have he := eval_recoded h hs (e := e) hindex
    simp only [assignment, typeOf_recoded h hvalue, signalType_recoded h hd, hv, he,
      (hs dest hd).words]

end

/-- The writes to signals that hold no state code. -/
def Write.visible (g : Symbols) (k : Coding) (ws : List Write) : List Write :=
  ws.filter fun w => !g.isCoded k w.dest

namespace Write

theorem visible_append (ws vs : List Write) :
    visible g k (ws ++ vs) = visible g k ws ++ visible g k vs := List.filter_append ..

theorem visible_eq_self {ws : List Write} (h : ∀ w ∈ ws, g.isCoded k w.dest = false) :
    visible g k ws = ws := by
  rw [visible, List.filter_eq_self]
  intro w hw
  rw [h w hw, Bool.not_false]

theorem visible_eq_nil {ws : List Write} (h : ∀ w ∈ ws, g.isCoded k w.dest = true) :
    visible g k ws = [] := by
  rw [visible, List.filter_eq_nil_iff]
  intro w hw
  rw [h w hw]
  exact Bool.false_ne_true

end Write

/-- Writes that are the same as far as they are visible keep the states in agreement. -/
theorem State.Agrees.storeAll (hs : State.Agrees g k s s') {ws ws' : List Write}
    (h : Write.visible g k ws' = Write.visible g k ws) :
    State.Agrees g k (s.storeAll ws) (s'.storeAll ws') := by
  intro i hi
  have hto : ∀ vs : List Write, vs.filter (·.dest == i) =
      (Write.visible g k vs).filter (·.dest == i) := by
    intro vs
    rw [Write.visible, List.filter_filter]
    refine List.filter_congr fun w _ => ?_
    by_cases hw : w.dest = i
    · simp [hw, hi]
    · simp [hw]
  refine (State.storeAll_filter s' ws' i).trans (.trans ?_ (State.storeAll_filter s ws i).symm)
  rw [hto ws', h, ← hto ws]
  exact State.storeAll_sameAt (hs i hi) _

mutual

/-- A statement without state codes makes the same visible writes under both tables. -/
theorem exec_recoded (h : g.Recoded k g') (hs : State.Agrees g k s s') :
    ∀ st : Statement, st.isUncoded g k = true →
      Write.visible g k (exec g' s' st) = Write.visible g k (exec g s st)
  | .blank, _ => rfl
  | .assign dest index value, hst => by
    rw [Stmt.isUncoded, Bool.and_eq_true] at hst
    obtain ⟨hindex, hvalue⟩ := hst
    rw [exec, exec]
    cases hd : g.isCoded k dest with
    | false =>
      rw [hd, if_neg Bool.false_ne_true] at hvalue
      rw [assignment_recoded h hs hd hindex hvalue]
    | true =>
      rw [Write.visible_eq_nil, Write.visible_eq_nil]
      · exact fun w hw => assignment_dest hw ▸ hd
      · exact fun w hw => assignment_dest hw ▸ hd
  | .cond test thn els, hst => by
    rw [Stmt.isUncoded, Bool.and_eq_true, Bool.and_eq_true] at hst
    rw [exec, exec, eval_recoded h hs hst.1.1]
    split
    · exact execBlock_recoded h hs thn hst.1.2
    · exact execBlock_recoded h hs els hst.2
  | .case selector arms otherwise, hst => by
    rw [Stmt.isUncoded, Bool.and_eq_true, Bool.and_eq_true] at hst
    have harms : (execArms g' s' (eval g s selector) (g.typeOf selector).bits arms).map
        (Write.visible g k) = (execArms g s (eval g s selector) (g.typeOf selector).bits arms).map
        (Write.visible g k) := execArms_recoded h hs arms hst.1.2
    rw [exec, exec, eval_recoded h hs hst.1.1, typeOf_recoded h hst.1.1]
    cases hx : execArms g s (eval g s selector) (g.typeOf selector).bits arms with
    | none =>
      rw [hx, Option.map_none, Option.map_eq_none_iff] at harms
      rw [harms]
      exact execBlock_recoded h hs otherwise hst.2
    | some ws =>
      rw [hx, Option.map_some, Option.map_eq_some_iff] at harms
      obtain ⟨ws', hws', heq⟩ := harms
      rw [hws']
      exact heq

theorem execBlock_recoded (h : g.Recoded k g') (hs : State.Agrees g k s s') :
    ∀ body : List Statement, Stmt.blockUncoded g k body = true →
      Write.visible g k (execBlock g' s' body) = Write.visible g k (execBlock g s body)
  | [], _ => rfl
  | st :: rest, hst => by
    rw [Stmt.blockUncoded, Bool.and_eq_true] at hst
    rw [execBlock, execBlock, Write.visible_append, Write.visible_append,
      exec_recoded h hs st hst.1, execBlock_recoded h hs rest hst.2]

theorem execArms_recoded (h : g.Recoded k g') (hs : State.Agrees g k s s') {sel : Word} {w : Nat} :
    ∀ arms : List (UInt64 × List Statement), Stmt.armsUncoded g k arms = true →
      (execArms g' s' sel w arms).map (Write.visible g k) =
        (execArms g s sel w arms).map (Write.visible g k)
  | [], _ => rfl
  | (v, body) :: rest, hst => by
    rw [Stmt.armsUncoded, Bool.and_eq_true] at hst
    rw [execArms, execArms]
    split
    · rw [Option.map_some, Option.map_some, execBlock_recoded h hs body hst.1]
    · exact execArms_recoded h hs rest hst.2

end

/-- A block that also leaves state codes alone makes the same writes. -/
theorem execBlock_recoded_eq (h : g.Recoded k g') (hs : State.Agrees g k s s')
    {body : List Statement} (hbody : Stmt.blockUncoded g k body = true)
    (hfree : ∀ i ∈ Stmt.blockDests body, g.isCoded k i = false) :
    execBlock g' s' body = execBlock g s body := by
  have hall : ∀ (g₀ : Symbols) (s₀ : State), ∀ w ∈ execBlock g₀ s₀ body,
      g.isCoded k w.dest = false := fun _ _ w hw => hfree w.dest (execBlock_dest body hw)
  have heq := execBlock_recoded h hs body hbody
  rwa [Write.visible_eq_self (hall g' s'), Write.visible_eq_self (hall g s)] at heq

mutual

/-- It evaluates an undefined expression under both or under none. -/
theorem runnable_recoded (h : g.Recoded k g') (hs : State.Agrees g k s s') :
    ∀ st : Statement, st.isUncoded g k = true → runnable g' s' st = runnable g s st
  | .blank, _ => rfl
  | .assign dest index value, hst => by
    rw [Stmt.isUncoded, Bool.and_eq_true] at hst
    obtain ⟨hindex, hvalue⟩ := hst
    have hv : g'.defined value = g.defined value := by
      split at hvalue
      · cases value with
        | lit v t => rfl
        | _ => simp [Expr.isAddress] at hvalue
      · exact defined_recoded h hvalue
    have hi : index.all g'.defined = index.all g.defined := by
      cases index with
      | none => rfl
      | some e => exact defined_recoded h (e := e) hindex
    rw [runnable, runnable, hv, hi]
  | .cond test thn els, hst => by
    rw [Stmt.isUncoded, Bool.and_eq_true, Bool.and_eq_true] at hst
    rw [runnable, runnable, eval_recoded h hs hst.1.1, defined_recoded h hst.1.1,
      runnableBlock_recoded h hs thn hst.1.2, runnableBlock_recoded h hs els hst.2]
  | .case selector arms otherwise, hst => by
    rw [Stmt.isUncoded, Bool.and_eq_true, Bool.and_eq_true] at hst
    rw [runnable, runnable, eval_recoded h hs hst.1.1, typeOf_recoded h hst.1.1,
      defined_recoded h hst.1.1, runnableArms_recoded h hs arms hst.1.2,
      runnableBlock_recoded h hs otherwise hst.2]

theorem runnableBlock_recoded (h : g.Recoded k g') (hs : State.Agrees g k s s') :
    ∀ body : List Statement, Stmt.blockUncoded g k body = true →
      runnableBlock g' s' body = runnableBlock g s body
  | [], _ => rfl
  | st :: rest, hst => by
    rw [Stmt.blockUncoded, Bool.and_eq_true] at hst
    rw [runnableBlock, runnableBlock, runnable_recoded h hs st hst.1,
      runnableBlock_recoded h hs rest hst.2]

theorem runnableArms_recoded (h : g.Recoded k g') (hs : State.Agrees g k s s') {sel : Word}
    {w : Nat} :
    ∀ arms : List (UInt64 × List Statement), Stmt.armsUncoded g k arms = true →
      runnableArms g' s' sel w arms = runnableArms g s sel w arms
  | [], _ => rfl
  | (v, body) :: rest, hst => by
    rw [Stmt.armsUncoded, Bool.and_eq_true] at hst
    rw [runnableArms, runnableArms, runnableBlock_recoded h hs body hst.1,
      runnableArms_recoded h hs rest hst.2]

end

end Sim

end Lockstep
