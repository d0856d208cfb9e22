import Lockstep.Proofs.Machine.Codes
import Lockstep.Proofs.Sim.Settle

/-!
# The choice of the next state

What the case statements of a machine do in a state of the simulation. The arm of a state is run
exactly when the register holds its code; there the transitions write the next-state wire once for
each edge of the state table that is taken, in the order of the table.
-/

namespace Lockstep

namespace Sim

/-- The arm that is run is the first whose value the selector has. -/
theorem execArms_eq_find? (g : Symbols) (s : State) (sel : Word) (w : Nat)
    (arms : List (UInt64 × List Statement)) :
    execArms g s sel w arms = (arms.find? (selects sel w ·.1)).map (execBlock g s ·.2) := by
  induction arms with
  | nil => rfl
  | cons arm arms ih =>
    rw [execArms, List.find?_cons]
    cases selects sel w arm.1
    · simpa using ih
    · simp

theorem runnableArms_eq_find? (g : Symbols) (s : State) (sel : Word) (w : Nat)
    (arms : List (UInt64 × List Statement)) :
    runnableArms g s sel w arms = (arms.find? (selects sel w ·.1)).map (runnableBlock g s ·.2) := by
  induction arms with
  | nil => rfl
  | cons arm arms ih =>
    rw [runnableArms, List.find?_cons]
    cases selects sel w arm.1
    · simpa using ih
    · simp

theorem find?_arm_at {sel : Word} {w : Nat} {arms : List (UInt64 × List Statement)} {i : Nat}
    {arm : UInt64 × List Statement} (hi : arms[i]? = some arm) (hv : selects sel w arm.1 = true)
    (hbefore : ∀ j < i, ∀ arm, arms[j]? = some arm → selects sel w arm.1 = false) :
    arms.find? (selects sel w ·.1) = some arm := by
  induction arms generalizing i with
  | nil => simp at hi
  | cons arm' arms ih =>
    cases i with
    | zero =>
      cases hi
      exact List.find?_cons_of_pos hv
    | succ i =>
      have h0 := hbefore 0 (Nat.succ_pos i) arm' rfl
      rw [List.find?_cons_of_neg (by simp [h0])]
      exact ih hi fun j hj arm harm => hbefore (j + 1) (Nat.succ_lt_succ hj) arm harm

end Sim

namespace Machine

open Sim

variable {f : Machine} {s : Sim.State}

/-! ## What lowering gives -/

/-- A computed target is assigned as it is, and any other is an index. -/
theorem assignTarget_inv {t : Option (Target Expr)} {st : Statement}
    (h : f.assignTarget t = .ok st) :
    (∃ c, t = some (.computed c) ∧ st = .assign f.next none c) ∨
      ∃ target id, t = some target ∧ f.targetIndex target = some id ∧ st = f.assignNext id := by
  unfold assignTarget at h
  split at h
  · exact .inl ⟨_, rfl, (Except.ok.inj h).symm⟩
  · exact .inr ⟨_, _, rfl, rfl, (Except.ok.inj h).symm⟩
  · exact .inr ⟨_, _, rfl, rfl, (Except.ok.inj h).symm⟩
  · split at h
    · next id hid => exact .inr ⟨_, id, rfl, by simp [targetIndex, hid], (Except.ok.inj h).symm⟩
    · simp at h
  · simp at h

/-- The statement that a transition becomes. -/
inductive Lowers (f : Machine) : Transition Expr → Statement → Prop
  | jump {target otherwise thn} (h : f.assignTarget target = .ok thn) :
    Lowers f ⟨none, target, otherwise⟩ thn
  | guarded {e target thn} (h : f.assignTarget target = .ok thn) :
    Lowers f ⟨some e, target, none⟩ (.cond e [thn] [])
  | branch {e target other thn els} (h : f.assignTarget target = .ok thn)
    (h' : f.assignTarget (some other) = .ok els) :
    Lowers f ⟨some e, target, some other⟩ (.cond e [thn] [els])

theorem lower_inv {t : Transition Expr} {st : Statement} (h : f.lower t = .ok st) :
    f.Lowers t st := by
  obtain ⟨guard, target, otherwise⟩ := t
  unfold lower at h
  cases ht : f.assignTarget target with
  | error e => simp [ht, bind, Except.bind] at h
  | ok thn =>
    simp only [ht, bind, Except.bind, pure, Except.pure] at h
    cases guard with
    | none => exact Except.ok.inj h ▸ .jump ht
    | some e =>
      cases otherwise with
      | none => exact Except.ok.inj h ▸ .guarded ht
      | some other =>
        dsimp only at h
        cases he : f.assignTarget (some other) with
        | error e => simp [he] at h
        | ok els =>
          simp only [he] at h
          exact Except.ok.inj h ▸ .branch ht he

theorem lowerFrom_inv {n k : Nat} {gotos : List (Transition Expr)} {sts : List Statement}
    (h : f.lowerFrom n k gotos = .ok sts) : List.Forall₂ f.Lowers gotos sts := by
  induction gotos generalizing k sts with
  | nil => exact Except.ok.inj h ▸ .nil
  | cons t gotos ih =>
    rw [lowerFrom] at h
    cases ht : f.lower t with
    | error e => cases e <;> simp [ht] at h
    | ok st =>
      cases hrest : f.lowerFrom n (k + 1) gotos with
      | error e => simp [ht, hrest, Except.map] at h
      | ok rest =>
        simp only [ht, hrest, Except.map] at h
        exact Except.ok.inj h ▸ .cons (lower_inv ht) (ih hrest)

theorem stateChoice_inv {n : Nat} {st : State} {body : List Statement}
    (h : f.stateChoice n st = .ok body) :
    ∃ sts, List.Forall₂ f.Lowers st.gotos sts ∧ body = f.assignNext (n + 1) :: sts := by
  unfold stateChoice at h
  cases hl : f.lowerFrom n 0 st.gotos with
  | error e => simp [hl, Except.map] at h
  | ok sts =>
    simp only [hl, Except.map] at h
    exact ⟨sts, lowerFrom_inv hl, (Except.ok.inj h).symm⟩

/-- The arm of each state stands at its own position. -/
theorem choiceArms_inv {k : Nat} {states : List State} {arms : List (UInt64 × List Statement)}
    (h : f.choiceArms k states = .ok arms) :
    arms.length = states.length ∧ ∀ (i : Nat) (st : State), states[i]? = some st →
      ∃ body, f.stateChoice (k + i) st = .ok body ∧ arms[i]? = some (f.code ↑(k + i), body) := by
  induction states generalizing k arms with
  | nil =>
    cases h
    exact ⟨rfl, by simp⟩
  | cons st states ih =>
    rw [choiceArms] at h
    cases hb : f.stateChoice k st with
    | error e => simp [hb, bind, Except.bind] at h
    | ok body =>
      cases hr : f.choiceArms (k + 1) states with
      | error e => simp [hb, hr, bind, Except.bind] at h
      | ok rest =>
        simp only [hb, hr, bind, Except.bind, pure, Except.pure] at h
        cases h
        obtain ⟨hlen, hget⟩ := ih hr
        refine ⟨by simp [hlen], fun i st' hi => ?_⟩
        cases i with
        | zero =>
          cases hi
          exact ⟨body, hb, rfl⟩
        | succ i =>
          rw [show k + (i + 1) = k + 1 + i by omega]
          exact hget i st' hi

/-- The guard of an edge, read in a state of the simulation. -/
def Guard.taken (g : Symbols) (s : Sim.State) : Guard → Bool
  | .always => true
  | .holds e => eval g s e != 0
  | .fails e => eval g s e == 0

/-- The register value that an edge leads to: the code of its index, brought into the machine, or
the value of a computed target at the width of the register. -/
def edgeValue (f : Machine) (g : Symbols) (s : Sim.State) (e : Edge) : Word :=
  match e.target with
  | some (.computed c) => Word.fit (g.typeOf c) (g.signalType f.next).bits (eval g s c)
  | _ => Word.ofUInt64 (f.code (f.clamp (f.edgeIndex e)))

/-- The last of the edges whose guard holds. -/
def lastTaken (g : Symbols) (s : Sim.State) (edges : List Edge) : Option Edge :=
  (edges.filter (·.guard.taken g s)).getLast?

/-- The writes to the next-state wire that take the edges. -/
def takes (f : Machine) (g : Symbols) (s : Sim.State) (edges : List Edge) : List Write :=
  (edges.filter (·.guard.taken g s)).map fun e => ⟨f.next, none, f.edgeValue g s e⟩

/-- The next-state wire and the codes have the type that building gives the register. -/
structure Sized (f : Machine) (g : Symbols) : Prop where
  current : g.signalType f.current = some (.unsigned f.registerWidth)
  next : g.signalType f.next = some (.unsigned f.registerWidth)
  type : g.type? (some f.type) = some (.unsigned f.registerWidth)
  countable : f.Countable
  fallback : 0 ≤ f.fallback ∧ f.fallback < f.size

namespace Sized

variable {f : Machine} {g : Symbols} (h : f.Sized g)
include h

theorem registerBits :
    TypeSlot.bits (some (.unsigned f.registerWidth)) = f.registerWidth :=
  bits_unsigned ((registerWidth_le h.countable).trans (by decide))

theorem fallback_eq : ∃ d : Nat, f.fallback = d ∧ d < f.size := by
  obtain ⟨d, hd⟩ := Int.eq_ofNat_of_zero_le h.fallback.1
  have := h.fallback.2
  exact ⟨d, hd, by omega⟩

theorem clamp_lt (id : Int) : (f.code (f.clamp id)).toNat < 2 ^ f.registerWidth := by
  obtain ⟨d, hd, hlt⟩ := h.fallback_eq
  exact code_clamp_lt h.countable hd hlt id

theorem clamp_fallback : f.clamp f.fallback = f.fallback := by
  simp [clamp, h.fallback.1, h.fallback.2]

theorem exec_assignNext (s : Sim.State) (id : Int) :
    exec g s (f.assignNext id) = [⟨f.next, none, Word.ofUInt64 (f.code (f.clamp id))⟩] := by
  have hlt := h.clamp_lt id
  have hlit : g.typeOf (f.codeExpr (f.clamp id)) = some (.unsigned f.registerWidth) := h.type
  have hval : eval g s (f.codeExpr (f.clamp id)) = Word.ofUInt64 (f.code (f.clamp id)) := by
    simp only [codeExpr, Expr.const, eval, Symbols.literal, h.type, h.registerBits]
    exact Word.truncate_of_lt (by simpa using hlt)
  simp only [assignNext, exec, assignment, hlit, hval, h.next, h.registerBits,
    Option.toList_some]
  rw [Word.fit_unsigned rfl, Word.truncate_of_lt (by simpa using hlt)]

theorem exec_assignTarget (s : Sim.State) {t : Option (Target Expr)} {st : Statement}
    (ht : f.assignTarget t = .ok st) (guard : Guard) :
    exec g s st = [⟨f.next, none, f.edgeValue g s ⟨guard, t⟩⟩] := by
  rcases assignTarget_inv ht with ⟨c, rfl, rfl⟩ | ⟨target, id, rfl, hid, rfl⟩
  · rfl
  · rw [h.exec_assignNext]
    cases target with
    | computed c => simp [targetIndex] at hid
    | _ => simp [edgeValue, edgeIndex, hid]

/-- Taking a transition writes the next-state wire for each of its edges that is taken. -/
theorem exec_lowers (s : Sim.State) {t : Transition Expr} {st : Statement} (ht : f.Lowers t st) :
    exec g s st = f.takes g s (transitionEdges t) := by
  cases ht with
  | jump ht =>
    rw [h.exec_assignTarget s ht .always]
    simp [takes, transitionEdges, Guard.taken]
  | guarded ht =>
    next e _ _ =>
    have hholds : (Guard.holds e).taken g s = (eval g s e != 0) := rfl
    rw [exec, ← hholds]
    cases hv : (Guard.holds e).taken g s <;>
      simp [takes, transitionEdges, hv, execBlock, h.exec_assignTarget s ht (.holds e)]
  | branch ht ht' =>
    next e _ _ _ _ =>
    have hholds : (Guard.holds e).taken g s = (eval g s e != 0) := rfl
    have hfails : (Guard.fails e).taken g s = !(Guard.holds e).taken g s := by simp [Guard.taken, bne]
    rw [exec, ← hholds]
    cases hv : (Guard.holds e).taken g s <;>
      simp [takes, transitionEdges, hfails, hv, execBlock, h.exec_assignTarget s ht (.holds e),
        h.exec_assignTarget s ht' (.fails e)]

theorem execBlock_lowers (s : Sim.State) {gotos : List (Transition Expr)} {sts : List Statement}
    (hl : List.Forall₂ f.Lowers gotos sts) :
    execBlock g s sts = f.takes g s (gotos.flatMap transitionEdges) := by
  induction hl with
  | nil => rfl
  | cons ht _ ih =>
    rw [execBlock, h.exec_lowers s ht, ih, List.flatMap_cons]
    simp [takes]

theorem execBlock_stateChoice (s : Sim.State) {n : Nat} (hn : n < f.size) {st : State}
    {body : List Statement} (hb : f.stateChoice n st = .ok body) :
    execBlock g s body = f.takes g s (stateEdges n st) := by
  obtain ⟨sts, hl, rfl⟩ := stateChoice_inv hb
  have hw : wrapSigned ((n : Int) + 1) = n + 1 := by
    have := h.countable.index
    exact wrapSigned_of_bounds (by omega) (by omega)
  rw [execBlock, h.exec_assignNext, h.execBlock_lowers s hl, stateEdges]
  simp [takes, Guard.taken, edgeValue, edgeIndex, targetIndex, hw]

end Sized

/-- What the target needs when it is taken is defined. -/
def targetDefined (g : Symbols) : Target Expr → Bool
  | .computed c => g.defined c
  | _ => true

/-- What taking the transition evaluates is defined. -/
def transitionDefined (g : Symbols) (s : Sim.State) (t : Transition Expr) : Bool :=
  match t.guard with
  | none => t.target.all (targetDefined g)
  | some e => g.defined e &&
    if eval g s e != 0 then t.target.all (targetDefined g) else t.otherwise.all (targetDefined g)

section Runnable

variable {f : Machine} {g : Symbols} {s : Sim.State}

theorem runnable_assignNext (id : Int) : runnable g s (f.assignNext id) = true := rfl

theorem runnable_assignTarget {t : Option (Target Expr)} {st : Statement}
    (ht : f.assignTarget t = .ok st) : runnable g s st = t.all (targetDefined g) := by
  rcases assignTarget_inv ht with ⟨c, rfl, rfl⟩ | ⟨target, id, rfl, hid, rfl⟩
  · simp [runnable, targetDefined]
  · rw [runnable_assignNext]
    cases target with
    | computed c => simp [targetIndex] at hid
    | _ => rfl

theorem runnable_lowers {gotos : List (Transition Expr)} {sts : List Statement}
    (hl : List.Forall₂ f.Lowers gotos sts) :
    runnableBlock g s sts = gotos.all (transitionDefined g s) := by
  induction hl with
  | nil => rfl
  | cons ht _ ih =>
    rw [runnableBlock, ih, List.all_cons]
    congr 1
    cases ht with
    | jump ht => exact runnable_assignTarget ht
    | guarded ht =>
      simp [runnable, runnableBlock, transitionDefined, runnable_assignTarget ht]
    | branch ht ht' =>
      simp only [runnable, runnableBlock, transitionDefined, runnable_assignTarget ht,
        runnable_assignTarget ht', Bool.and_true]

theorem runnable_stateChoice {n : Nat} {st : State} {body : List Statement}
    (hb : f.stateChoice n st = .ok body) :
    runnableBlock g s body = st.gotos.all (transitionDefined g s) := by
  obtain ⟨sts, hl, rfl⟩ := stateChoice_inv hb
  rw [runnableBlock, runnable_assignNext, runnable_lowers hl, Bool.true_and]

end Runnable

/-- Falling through is always possible, so some edge is taken. -/
theorem exists_lastTaken (g : Symbols) (s : Sim.State) (n : Nat) (st : State) :
    ∃ e, lastTaken g s (stateEdges n st) = some e := by
  have hne : (stateEdges n st).filter (·.guard.taken g s) ≠ [] := by
    simp [stateEdges, Guard.taken]
  exact ⟨_, List.getLast?_eq_some_getLast hne⟩

/-- The last edge taken has the last word. -/
theorem takes_eq_concat {g : Symbols} {edges : List Edge} {e : Edge}
    (h : lastTaken g s edges = some e) :
    ∃ es : List Edge, f.takes g s edges =
      (es.map fun e => ⟨f.next, none, f.edgeValue g s e⟩) ++
        [⟨f.next, none, f.edgeValue g s e⟩] := by
  obtain ⟨es, hes⟩ := List.getLast?_eq_some_iff.mp h
  refine ⟨es, ?_⟩
  rw [takes, hes]
  simp

/-- Of the two edges of a branch the one is taken, or the other. -/
theorem lastTaken_branch (g : Symbols) (s : Sim.State) (test : Expr) (o t u : Option (Target Expr)) :
    lastTaken g s [⟨.always, o⟩, ⟨.holds test, t⟩, ⟨.fails test, u⟩] =
      if eval g s test != 0 then some ⟨.holds test, t⟩ else some ⟨.fails test, u⟩ := by
  have hfails : Guard.taken g s (.fails test) = !(Guard.taken g s (.holds test)) := by
    simp [Guard.taken, bne]
  have hholds : Guard.taken g s (.holds test) = (eval g s test != 0) := rfl
  rw [lastTaken, ← hholds]
  cases htest : Guard.taken g s (.holds test) with
  | true | false => simp [List.filter, hfails, htest, show Guard.taken g s .always = true from rfl]

/-- The code of a state stands at its own position among the arms. -/
def CodedArms (f : Machine) (arms : List (UInt64 × List Statement)) : Prop :=
  arms.length = f.size ∧ ∀ (i : Nat) (arm : UInt64 × List Statement), arms[i]? = some arm →
    arm.1 = f.code i

theorem choiceArms_coded {arms : List (UInt64 × List Statement)}
    (h : f.choiceArms 0 f.states.toList = .ok arms) : f.CodedArms arms := by
  obtain ⟨hlen, hget⟩ := choiceArms_inv h
  refine ⟨by simpa [size] using hlen, fun i arm hi => ?_⟩
  have hlt : i < f.states.toList.length := hlen ▸ (List.getElem?_eq_some_iff.mp hi).1
  obtain ⟨body, -, ha⟩ := hget i _ (List.getElem?_eq_getElem hlt)
  rw [ha] at hi
  cases hi
  simp

theorem bodyArms_get {i : Nat} {st : State} (hi : f.states[i]? = some st) :
    f.bodyArms[i]? = some (f.code i, st.body) := by
  simp [bodyArms, List.getElem?_zipIdx, hi]

theorem bodyArms_coded (f : Machine) : f.CodedArms f.bodyArms := by
  refine ⟨by simp [bodyArms, size], fun i arm hi => ?_⟩
  have hlt : i < f.bodyArms.length := (List.getElem?_eq_some_iff.mp hi).1
  have hlt' : i < f.states.size := by simpa [bodyArms] using hlt
  rw [bodyArms_get (Array.getElem?_eq_getElem hlt')] at hi
  cases hi
  rfl

/-- The register holds the code of state `i`. -/
def At (f : Machine) (s : Sim.State) (i : Nat) : Prop :=
  i < f.size ∧ s.read f.current = Word.ofUInt64 (f.code i)

/-- The register holds the code of no state. -/
def Astray (f : Machine) (s : Sim.State) : Prop :=
  ∀ i < f.size, s.read f.current ≠ Word.ofUInt64 (f.code i)

theorem at_or_astray (f : Machine) (s : Sim.State) : (∃ i, f.At s i) ∨ f.Astray s := by
  by_cases h : ∃ i, f.At s i
  · exact Or.inl h
  · exact Or.inr fun i hi he => h ⟨i, hi, he⟩

theorem At.exists_state {i : Nat} (h : f.At s i) : ∃ st, f.states[i]? = some st :=
  ⟨_, Array.getElem?_eq_getElem h.1⟩

theorem At.unique (hc : f.Countable) {i j : Nat} (hi : f.At s i) (hj : f.At s j) : i = j :=
  code_inj hc hi.1 hj.1 (Word.ofUInt64_inj.mp (hi.2.symm.trans hj.2))

/-- Zero is the code of the first state, unless each state has a bit of its own. -/
theorem at_zero (he : f.encoding ≠ .oneHot) (hpos : 0 < f.size) (hzero : s.read f.current = 0) :
    f.At s 0 := by
  refine ⟨hpos, hzero.trans (BitVec.eq_of_toNat_eq ?_)⟩
  rw [Word.toNat_ofUInt64, code_index he (by decide)]
  rfl

theorem astray_zero (hc : f.Countable) (he : f.encoding = .oneHot) (hzero : s.read f.current = 0) :
    f.Astray s := by
  intro i hi hx
  have h64 := hc.oneHot he
  have hcode := congrArg BitVec.toNat (hzero.symm.trans hx)
  rw [Word.toNat_ofUInt64, code_bit he hi (by omega)] at hcode
  exact absurd hcode.symm (Nat.two_pow_pos i).ne'

namespace Sized

variable {f : Machine} {g : Symbols} (h : f.Sized g)
variable {arms : List (UInt64 × List Statement)} {body otherwise : List Statement} {i : Nat}
  {s : Sim.State}
include h

theorem eval_current (hs : (s.read f.current).toNat < 2 ^ f.registerWidth) :
    eval g s (.ref f.current) = s.read f.current := by
  rw [eval, h.current, h.registerBits, Word.truncate_of_lt hs]

theorem find?_arm (hat : f.At s i) (ha : f.CodedArms arms) (hi : arms[i]? = some (f.code i, body)) :
    arms.find? (selects (eval g s (.ref f.current)) (g.typeOf (.ref f.current)).bits ·.1) =
      some (f.code i, body) := by
  have hlt := code_lt h.countable hat.1
  have hsel : eval g s (.ref f.current) = Word.ofUInt64 (f.code i) := by
    rw [h.eval_current (by simpa [hat.2] using hlt), hat.2]
  have hw : (g.typeOf (.ref f.current)).bits = f.registerWidth := by
    rw [Symbols.typeOf, h.current, h.registerBits]
  rw [hsel, hw]
  refine find?_arm_at hi ((selects_iff hlt).mpr rfl) fun j hj arm harm => ?_
  rw [ha.2 j arm harm]
  -- an earlier arm has the code of another state
  have hjlt := code_lt h.countable (show j < f.size by have := hat.1; omega)
  by_contra hc
  have he := (selects_iff hjlt).mp (by simpa using hc)
  have := code_inj h.countable hat.1 (by have := hat.1; omega) (Word.ofUInt64_inj.mp he)
  omega

theorem find?_arm_astray (hs : (s.read f.current).toNat < 2 ^ f.registerWidth) (hno : f.Astray s)
    (ha : f.CodedArms arms) :
    arms.find? (selects (eval g s (.ref f.current)) (g.typeOf (.ref f.current)).bits ·.1) =
      none := by
  have hw : (g.typeOf (.ref f.current)).bits = f.registerWidth := by
    rw [Symbols.typeOf, h.current, h.registerBits]
  rw [h.eval_current hs, hw, List.find?_eq_none]
  intro arm harm hc
  obtain ⟨i, hi⟩ := List.mem_iff_getElem?.mp harm
  have hlt : i < f.size := ha.1 ▸ (List.getElem?_eq_some_iff.mp hi).1
  rw [ha.2 i arm hi] at hc
  exact hno i hlt ((selects_iff (code_lt h.countable hlt)).mp hc)

theorem exec_case_at (hat : f.At s i) (ha : f.CodedArms arms)
    (hi : arms[i]? = some (f.code i, body)) :
    exec g s (.case (.ref f.current) arms otherwise) = execBlock g s body := by
  rw [exec, execArms_eq_find?, h.find?_arm hat ha hi, Option.map_some]

theorem exec_case_astray (hs : (s.read f.current).toNat < 2 ^ f.registerWidth) (hno : f.Astray s)
    (ha : f.CodedArms arms) :
    exec g s (.case (.ref f.current) arms otherwise) = execBlock g s otherwise := by
  rw [exec, execArms_eq_find?, h.find?_arm_astray hs hno ha, Option.map_none]

theorem runnable_case_at (hat : f.At s i) (ha : f.CodedArms arms)
    (hi : arms[i]? = some (f.code i, body)) :
    runnable g s (.case (.ref f.current) arms otherwise) = runnableBlock g s body := by
  rw [runnable, runnableArms_eq_find?, h.find?_arm hat ha hi, Option.map_some, Symbols.defined,
    Bool.true_and]

theorem runnable_case_astray (hs : (s.read f.current).toNat < 2 ^ f.registerWidth)
    (hno : f.Astray s) (ha : f.CodedArms arms) :
    runnable g s (.case (.ref f.current) arms otherwise) = runnableBlock g s otherwise := by
  rw [runnable, runnableArms_eq_find?, h.find?_arm_astray hs hno ha, Option.map_none,
    Symbols.defined, Bool.true_and]

end Sized

end Machine

end Lockstep
