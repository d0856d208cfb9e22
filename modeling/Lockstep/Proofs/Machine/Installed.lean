import Lockstep.Proofs.Machine.Choice
import Lockstep.Proofs.Sim.Play

/-!
# A machine inside a module

The three processes of a machine among the other processes of its module. As long as the others
leave the state register and the next-state wire alone, the wire always holds the choice of the
machine, the register takes it over at the edge of the machine's clock, and whatever else only the
bodies of the states assign changes at that edge by the body process alone.
-/

namespace Lockstep.Machine

open Sim

variable {f : Machine}

theorem updateBody_dests (f : Machine) : ∀ i ∈ Stmt.blockDests f.updateBody, i = f.current := by
  unfold updateBody
  split <;> simp [Stmt.blockDests, Stmt.dests]

theorem assignTarget_dests {t : Option (Target Expr)} {st : Statement}
    (h : f.assignTarget t = .ok st) : Stmt.dests st = [f.next] := by
  rcases assignTarget_inv h with ⟨c, rfl, rfl⟩ | ⟨target, id, rfl, -, rfl⟩ <;> rfl

theorem lowers_dests {gotos : List (Transition Expr)} {sts : List Statement}
    (h : List.Forall₂ f.Lowers gotos sts) : ∀ i ∈ Stmt.blockDests sts, i = f.next := by
  induction h with
  | nil => simp [Stmt.blockDests]
  | cons ht _ ih =>
    intro i hi
    rw [Stmt.blockDests, List.mem_append] at hi
    refine hi.elim (fun hi => ?_) (ih i)
    cases ht with
    | jump ht => simpa [assignTarget_dests ht] using hi
    | guarded ht => simpa [Stmt.dests, Stmt.blockDests, assignTarget_dests ht] using hi
    | branch ht ht' =>
      simpa [Stmt.dests, Stmt.blockDests, assignTarget_dests ht, assignTarget_dests ht'] using hi

theorem choiceArms_dests {k : Nat} {states : List State} {arms : List (UInt64 × List Statement)}
    (h : f.choiceArms k states = .ok arms) : ∀ i ∈ Stmt.armDests arms, i = f.next := by
  intro i hi
  obtain ⟨hlen, hget⟩ := choiceArms_inv h
  obtain ⟨v, body, harm, hi⟩ := Stmt.exists_of_mem_armDests hi
  obtain ⟨j, hj⟩ := List.mem_iff_getElem?.mp harm
  have hlt : j < states.length := hlen ▸ (List.getElem?_eq_some_iff.mp hj).1
  obtain ⟨body', hchoice, harm'⟩ := hget j _ (List.getElem?_eq_getElem hlt)
  obtain ⟨-, rfl⟩ := Prod.mk.inj (Option.some.inj (hj.symm.trans harm'))
  obtain ⟨sts, hl, rfl⟩ := stateChoice_inv hchoice
  rw [Stmt.blockDests, List.mem_append] at hi
  exact hi.elim (by simp [assignNext, Stmt.dests]) (lowers_dests hl i)

theorem nextBody_eq {next : List Statement} (h : f.nextBody = .ok next) :
    ∃ arms, f.choiceArms 0 f.states.toList = .ok arms ∧
      next = [.case (.ref f.current) arms [f.assignNext f.fallback]] := by
  unfold nextBody at h
  cases ha : f.choiceArms 0 f.states.toList with
  | error e => simp [ha, Except.map] at h
  | ok arms =>
    simp only [ha, Except.map] at h
    exact ⟨arms, rfl, (Except.ok.inj h).symm⟩

section NextBody

variable {f : Machine} {g : Symbols} (h : f.Sized g) {next : List Statement}
variable {i : Nat} {s : Sim.State} {st : State}
  (hn : f.nextBody = .ok next)
include h hn

/-- The arm of a state is its choice. -/
theorem nextBody_at (hat : f.At s i) (hst : f.states[i]? = some st) :
    ∃ body, f.stateChoice i st = .ok body ∧ execBlock g s next = execBlock g s body ∧
      runnableBlock g s next = runnableBlock g s body := by
  obtain ⟨arms, harms, rfl⟩ := nextBody_eq hn
  obtain ⟨body, hchoice, harm⟩ :=
    (choiceArms_inv harms).2 i st (by simpa using hst)
  rw [Nat.zero_add] at hchoice harm
  refine ⟨body, hchoice, ?_, ?_⟩
  · rw [execBlock, execBlock, List.append_nil, h.exec_case_at hat (choiceArms_coded harms) harm]
  · rw [runnableBlock, runnableBlock, Bool.and_true,
      h.runnable_case_at hat (choiceArms_coded harms) harm]

/-- In a state the wire is written once for each edge that is taken. -/
theorem execBlock_next_at (hat : f.At s i) (hst : f.states[i]? = some st) :
    execBlock g s next = f.takes g s (stateEdges i st) := by
  obtain ⟨body, hchoice, hexec, -⟩ := nextBody_at h hn hat hst
  rw [hexec, h.execBlock_stateChoice s hat.1 hchoice]

theorem runnableBlock_next_at (hat : f.At s i) (hst : f.states[i]? = some st) :
    runnableBlock g s next = st.gotos.all (transitionDefined g s) := by
  obtain ⟨body, hchoice, -, hrun⟩ := nextBody_at h hn hat hst
  rw [hrun, runnable_stateChoice hchoice]

/-- Outside every state it is written with the code of the fallback state. -/
theorem execBlock_next_astray (hfits : s.Fits g) (hno : f.Astray s) :
    execBlock g s next = [⟨f.next, none, Word.ofUInt64 (f.code f.fallback)⟩] ∧
      runnableBlock g s next = true := by
  obtain ⟨arms, harms, rfl⟩ := nextBody_eq hn
  have hcur := hfits.read f.current
  rw [h.current, h.registerBits] at hcur
  constructor
  · rw [execBlock, execBlock, List.append_nil,
      h.exec_case_astray hcur hno (choiceArms_coded harms), execBlock, execBlock,
      h.exec_assignNext, h.clamp_fallback, List.append_nil]
  · rw [runnableBlock, runnableBlock, Bool.and_true,
      h.runnable_case_astray hcur hno (choiceArms_coded harms)]
    rfl

end NextBody

theorem nextBody_dests {next : List Statement} (h : f.nextBody = .ok next) :
    ∀ i ∈ Stmt.blockDests next, i = f.next := by
  obtain ⟨arms, ha, rfl⟩ := nextBody_eq h
  intro i hi
  simp only [Stmt.blockDests, Stmt.dests, List.append_nil, List.mem_append] at hi
  rcases hi with hi | hi
  · exact choiceArms_dests ha i hi
  · simpa [assignNext, Stmt.dests] using hi

theorem bodyArms_dests (f : Machine) : ∀ i ∈ Stmt.armDests f.bodyArms,
    ∃ st ∈ f.states.toList, i ∈ Stmt.blockDests st.body := by
  intro i hi
  obtain ⟨v, body, harm, hi⟩ := Stmt.exists_of_mem_armDests hi
  obtain ⟨⟨st, n⟩, hst, he⟩ := List.mem_map.mp harm
  obtain ⟨-, rfl⟩ := Prod.mk.inj he
  exact ⟨st, (List.mem_zipIdx' hst).2 ▸ List.getElem_mem _, hi⟩

theorem dispatchBody_dests (f : Machine) : ∀ i ∈ Stmt.blockDests f.dispatchBody,
    i ∈ Stmt.blockDests f.onReset ∨ i ∈ Stmt.blockDests f.defaults ∨
      ∃ st ∈ f.states.toList, i ∈ Stmt.blockDests st.body := by
  intro i hi
  have hrun : i ∈ Stmt.blockDests (f.defaults ++ [.case (.ref f.current) f.bodyArms []]) →
      i ∈ Stmt.blockDests f.defaults ∨ ∃ st ∈ f.states.toList, i ∈ Stmt.blockDests st.body := by
    intro hi
    simp only [Stmt.blockDests_append, Stmt.blockDests, Stmt.dests, List.append_nil,
      List.mem_append] at hi
    exact hi.imp_right (f.bodyArms_dests i)
  unfold dispatchBody at hi
  split at hi
  · exact .inr (hrun hi)
  · simp only [Stmt.blockDests, Stmt.dests, List.append_nil, List.mem_append] at hi
    exact hi.imp_right hrun

/-- The reset condition holds. -/
def resets (f : Machine) (g : Symbols) (s : Sim.State) : Bool :=
  f.reset != .hole && eval g s f.reset != 0

/-- The machine steps on this edge of the clock. -/
def stepsOn (f : Machine) (edge : ClockEdge) : Bool :=
  f.clock.any (·.edge == edge)

/-- The processes of a machine are part of a module, where `others` are all other processes. -/
structure Installed (f : Machine) (m : Module) (others : List Process) : Prop where
  sized : f.Sized m.symbols
  apart : f.current ≠ f.next
  register : f.current < m.symbols.signals.size
  processes : ∃ before after next, others = before ++ after ∧ f.nextBody = .ok next ∧
    m.processes.toList = before ++ f.processes next ++ after
  current_free : ∀ p ∈ others, f.current ∉ Stmt.blockDests p.body
  next_free : ∀ p ∈ others, f.next ∉ Stmt.blockDests p.body
  body_current : f.current ∉ Stmt.blockDests f.dispatchBody
  body_next : f.next ∉ Stmt.blockDests f.dispatchBody

theorem firesOn_processes (f : Machine) (next : List Statement) (edge : ClockEdge) :
    (f.processes next).filter (·.firesOn edge) =
      if f.stepsOn edge then
        [{ name := f.name ++ "_update", trigger := .clocked f.clock, body := f.updateBody },
         { name := f.name ++ "_body", trigger := .clocked f.clock, body := f.dispatchBody }]
      else [] := by
  cases hc : f.clock with
  | none => simp [processes, stepsOn, hc, Process.firesOn]
  | some event => by_cases he : event.edge = edge <;>
      simp [processes, stepsOn, hc, Process.firesOn, he]

/-- The processes of an edge are those of the others, with the two of the machine between them on an
edge on which it steps. -/
theorem firing_eq {m : Module} {before after : List Process} (h : ∃ next, f.nextBody = .ok next ∧
      m.processes.toList = before ++ f.processes next ++ after) (edge : ClockEdge) :
    firing m edge = before.filter (·.firesOn edge) ++
      (if f.stepsOn edge then
        [{ name := f.name ++ "_update", trigger := .clocked f.clock, body := f.updateBody },
         { name := f.name ++ "_body", trigger := .clocked f.clock, body := f.dispatchBody }]
      else []) ++ after.filter (·.firesOn edge) := by
  obtain ⟨next, -, hm⟩ := h
  rw [firing, hm, List.filter_append, List.filter_append, firesOn_processes]

theorem combinational_processes (f : Machine) (next : List Statement) :
    (f.processes next).filter Process.isCombinational =
      [{ name := f.name ++ "_transitions", trigger := .combinational, body := next }] := by
  simp [processes, Process.isCombinational]

namespace Installed

variable {f : Machine} {m : Module} {others : List Process} (h : f.Installed m others)
variable {edge : ClockEdge} {i : SignalId} {s s' : Sim.State}
include h

/-- The combinational processes are those of the others and the next-state choice. -/
theorem mem_combinational {p : Process} (hp : p ∈ combinational m) :
    p ∈ others ∨ f.nextBody = .ok p.body := by
  obtain ⟨before, after, next, ho, hn, hm⟩ := h.processes
  rw [combinational, hm, List.filter_append, List.filter_append, combinational_processes] at hp
  simp only [List.mem_append, List.mem_filter, List.mem_singleton] at hp
  rcases hp with (hp | hp) | hp
  · exact Or.inl (by simp [ho, hp.1])
  · exact Or.inr (by rw [hp, hn])
  · exact Or.inl (by simp [ho, hp.1])

theorem transitions_mem : ∃ p ∈ combinational m, f.nextBody = .ok p.body := by
  obtain ⟨before, after, next, ho, hn, hm⟩ := h.processes
  refine ⟨{ name := f.name ++ "_transitions", trigger := .combinational, body := next }, ?_, hn⟩
  rw [combinational, hm, List.filter_append, List.filter_append, combinational_processes]
  simp

/-- What the others do not assign, no combinational process assigns, apart from the wire. -/
theorem not_combinational (hi : ∀ p ∈ others, i ∉ Stmt.blockDests p.body) (hne : i ≠ f.next) :
    ∀ p ∈ combinational m, i ∉ Stmt.blockDests p.body := by
  intro p hp hmem
  rcases h.mem_combinational hp with hp | hn
  · exact hi p hp hmem
  · exact hne (nextBody_dests hn i hmem)

/-- Settling leaves it alone. -/
theorem settles_other (hs : Settles m s s') (hi : ∀ p ∈ others, i ∉ Stmt.blockDests p.body)
    (hne : i ≠ f.next) : State.SameAt s' s i :=
  hs.other (h.not_combinational hi hne)

/-- The writes of an edge: on one on which the machine steps, those of its register and of its bodies
stand between writes of other processes. -/
theorem edgeWrites_eq (s : Sim.State) (edge : ClockEdge) :
    ∃ before after : List Write, edgeWrites m.symbols s (firing m edge) = before ++
        (if f.stepsOn edge then
          execBlock m.symbols s f.updateBody ++ execBlock m.symbols s f.dispatchBody
        else []) ++ after ∧
      ∀ w ∈ before ++ after, ∃ p ∈ others, w ∈ execBlock m.symbols s p.body := by
  obtain ⟨before, after, next, ho, hn, hm⟩ := h.processes
  refine ⟨edgeWrites m.symbols s (before.filter (·.firesOn edge)),
    edgeWrites m.symbols s (after.filter (·.firesOn edge)), ?_, fun w hw => ?_⟩
  · rw [firing_eq ⟨next, hn, hm⟩]
    split <;> simp [edgeWrites]
  · simp only [edgeWrites, ← List.flatMap_append, List.mem_flatMap, List.mem_append,
      List.mem_filter] at hw
    obtain ⟨p, hp, hw⟩ := hw
    exact ⟨p, by rcases hp with hp | hp <;> simp [ho, hp.1], hw⟩

omit h in
theorem other_of_writes {ws : List Write}
    (hw : ∀ w ∈ ws, ∃ p ∈ others, w ∈ execBlock m.symbols s p.body)
    (hi : ∀ p ∈ others, i ∉ Stmt.blockDests p.body) : ∀ w ∈ ws, w.dest ≠ i := by
  intro w hmem
  obtain ⟨p, hp, hx⟩ := hw w hmem
  exact not_mem_execBlock (hi p hp) w hx

/-- On the edge of the machine's clock, what only the bodies assign changes by their writes. -/
theorem edge_body (he : Strikes m edge s s') (hstep : f.stepsOn edge = true)
    (hi : ∀ p ∈ others, i ∉ Stmt.blockDests p.body) (hc : i ≠ f.current) (hn : i ≠ f.next) :
    State.SameAt s' (s.storeAll (execBlock m.symbols s f.dispatchBody)) i := by
  obtain ⟨before, after, hw, hothers⟩ := h.edgeWrites_eq s edge
  rw [hstep, if_pos rfl] at hw
  refine (he i (h.not_combinational hi hn)).trans ?_
  have hfree := other_of_writes hothers hi
  rw [hw, ← List.append_assoc before]
  refine State.storeAll_sole s (fun w hmem => ?_) fun w hmem => hfree w (by simp [hmem])
  rcases List.mem_append.mp hmem with hmem | hmem
  · exact hfree w (by simp [hmem])
  · exact not_mem_execBlock (fun hx => hc (f.updateBody_dests i hx)) w hmem

/-- On another edge it does not change. -/
theorem edge_idle (he : Strikes m edge s s') (hstep : f.stepsOn edge = false)
    (hi : ∀ p ∈ others, i ∉ Stmt.blockDests p.body) (hn : i ≠ f.next) : State.SameAt s' s i := by
  obtain ⟨before, after, hw, hothers⟩ := h.edgeWrites_eq s edge
  rw [hstep, if_neg Bool.false_ne_true, List.append_nil] at hw
  refine (he i (h.not_combinational hi hn)).trans (State.storeAll_other ?_)
  exact hw ▸ other_of_writes hothers hi

theorem driven_other {j : SignalId} {v : UInt64} (hs : Settles m (driven m j v s) s')
    (hi : ∀ p ∈ others, i ∉ Stmt.blockDests p.body) (hn : i ≠ f.next) (hne : i ≠ j) :
    State.SameAt s' s i := by
  refine (h.settles_other hs hi hn).trans ⟨by simp [driven], ?_, rfl⟩
  rw [driven, State.scalar_setScalar, if_neg fun hc => hne hc.1.symm]

/-- The state register takes over the next-state wire, or the code of the first state. -/
theorem edge_current (he : Strikes m edge s s') (hstep : f.stepsOn edge = true)
    (hfits : s.Fits m.symbols) (hsize : s.scalars.size = m.symbols.signals.size) :
    s'.read f.current =
      if f.resets m.symbols s then Word.ofUInt64 (f.code 0) else s.read f.next := by
  obtain ⟨before, after, hw, hothers⟩ := h.edgeWrites_eq s edge
  rw [hstep, if_pos rfl] at hw
  have hfree := other_of_writes hothers h.current_free
  have hbits := h.sized.registerBits
  -- one write to the register, of the value in question
  have hupdate : execBlock m.symbols s f.updateBody =
      [⟨f.current, none,
        if f.resets m.symbols s then Word.ofUInt64 (f.code 0) else s.read f.next⟩] := by
    have hnext := hfits.read f.next
    rw [h.sized.next, hbits] at hnext
    have hload : exec m.symbols s (.assign f.current none (.ref f.next)) =
        [⟨f.current, none, s.read f.next⟩] := by
      simp only [exec, assignment, eval, Symbols.typeOf, h.sized.next, h.sized.current, hbits,
        Option.toList_some]
      rw [Word.fit_unsigned rfl, Word.truncate_truncate, Word.truncate_of_lt hnext]
    have hzero : exec m.symbols s (.assign f.current none (f.codeExpr 0)) =
        [⟨f.current, none, Word.ofUInt64 (f.code 0)⟩] := by
      have h0 : 0 < f.size := by have := h.sized.fallback; omega
      have hlt := code_lt h.sized.countable h0
      have hval : eval m.symbols s (f.codeExpr 0) = Word.ofUInt64 (f.code 0) := by
        simp only [codeExpr, Expr.const, eval, Symbols.literal, h.sized.type, hbits]
        exact Word.truncate_of_lt (by simpa using hlt)
      have htype : m.symbols.typeOf (f.codeExpr 0) = some (.unsigned f.registerWidth) :=
        h.sized.type
      simp only [exec, assignment, hval, htype, h.sized.current, hbits, Option.toList_some]
      rw [Word.fit_unsigned rfl, Word.truncate_of_lt (by simpa using hlt)]
    unfold updateBody resets
    by_cases hr : f.reset = .hole
    · simp [hr, execBlock, hload]
    · rw [if_neg hr, execBlock, exec]
      cases hv : (eval m.symbols s f.reset != 0) <;> simp [execBlock, hr, hload, hzero]
  have hread : s'.scalar f.current = some
      (if f.resets m.symbols s then Word.ofUInt64 (f.code 0) else s.read f.next) := by
    rw [(he f.current (h.not_combinational h.current_free h.apart)).scalar, hw, hupdate]
    rw [show ∀ (a d b : List Write) (w : Write), a ++ ([w] ++ d) ++ b = a ++ w :: (d ++ b) by simp]
    refine State.scalar_storeAll_last s rfl (by rw [hsize]; exact h.register) fun v hv => ?_
    rcases List.mem_append.mp hv with hv | hv
    · exact not_mem_execBlock h.body_current v hv
    · exact hfree v (by simp [hv])
  rw [State.read, hread, Option.getD_some]

/-- At rest in a state, the wire holds the value of the last edge taken out of it. -/
theorem next_at (hrest : AtRest m.symbols (combinational m) s) {i : Nat} (hat : f.At s i)
    {st : State} (hst : f.states[i]? = some st) :
    ∃ e, lastTaken m.symbols s (stateEdges i st) = some e ∧
      s.read f.next = f.edgeValue m.symbols s e := by
  obtain ⟨p, hp, hbody⟩ := h.transitions_mem
  have hwrites := execBlock_next_at h.sized hbody hat hst
  obtain ⟨e, he⟩ := exists_lastTaken m.symbols s i st
  obtain ⟨es, hes⟩ := takes_eq_concat (f := f) he
  refine ⟨e, he, ?_⟩
  have hval := hrest.scalar hp (hwrites.trans hes) (by simp)
  rw [State.read, hval, Option.getD_some]

/-- At rest outside every state, the wire holds the code of the fallback state. -/
theorem next_astray (hrest : AtRest m.symbols (combinational m) s) (hfits : s.Fits m.symbols)
    (hno : f.Astray s) : s.read f.next = Word.ofUInt64 (f.code f.fallback) := by
  obtain ⟨p, hp, hbody⟩ := h.transitions_mem
  have hwrites : execBlock m.symbols s p.body =
      [] ++ ⟨f.next, none, Word.ofUInt64 (f.code f.fallback)⟩ :: [] :=
    (execBlock_next_astray h.sized hbody hfits hno).1
  have hval := hrest.scalar hp hwrites (by simp)
  rw [State.read, hval, Option.getD_some]

omit h in
/-- The body process resets, or runs the defaults and the bodies. -/
theorem execBlock_dispatch (g : Symbols) (s : Sim.State) :
    execBlock g s f.dispatchBody =
      if f.resets g s then execBlock g s f.onReset
      else execBlock g s f.defaults ++ exec g s (.case (.ref f.current) f.bodyArms []) := by
  have hbody : execBlock g s (f.defaults ++ [.case (.ref f.current) f.bodyArms []]) =
      execBlock g s f.defaults ++ exec g s (.case (.ref f.current) f.bodyArms []) := by
    rw [execBlock_append, execBlock, execBlock, List.append_nil]
  unfold dispatchBody resets
  by_cases hr : f.reset = .hole
  · simp [hr, hbody]
  · simp only [if_neg hr, execBlock, List.append_nil]
    rw [exec, hbody]
    simp [hr]

/-- The writes of the body process in a state. -/
theorem body_at {i : Nat} (hat : f.At s i) {st : State} (hst : f.states[i]? = some st) :
    execBlock m.symbols s f.dispatchBody =
      if f.resets m.symbols s then execBlock m.symbols s f.onReset
      else execBlock m.symbols s f.defaults ++ execBlock m.symbols s st.body := by
  rw [execBlock_dispatch, h.sized.exec_case_at hat f.bodyArms_coded (bodyArms_get hst)]

theorem body_astray (hfits : s.Fits m.symbols) (hno : f.Astray s) :
    execBlock m.symbols s f.dispatchBody =
      if f.resets m.symbols s then execBlock m.symbols s f.onReset
      else execBlock m.symbols s f.defaults := by
  have hcur := hfits.read f.current
  rw [h.sized.current, h.sized.registerBits] at hcur
  rw [execBlock_dispatch, h.sized.exec_case_astray hcur hno f.bodyArms_coded, execBlock,
    List.append_nil]

end Installed

/-! ## What the clocked processes of a machine need to be defined -/

theorem runnable_update (f : Machine) (g : Symbols) (s : Sim.State) :
    runnableBlock g s f.updateBody = (decide (f.reset = .hole) || g.defined f.reset) := by
  unfold updateBody
  split
  · next hr => simp [hr, runnableBlock, runnable, Symbols.defined]
  · next hr =>
    simp [hr, runnableBlock, runnable, Symbols.defined, codeExpr, Expr.const]

theorem runnableBlock_append (g : Symbols) (s : Sim.State) (a b : List Statement) :
    runnableBlock g s (a ++ b) = (runnableBlock g s a && runnableBlock g s b) := by
  induction a with
  | nil => simp [runnableBlock]
  | cons st a ih => rw [List.cons_append, runnableBlock, runnableBlock, ih, Bool.and_assoc]

theorem runnable_dispatch (f : Machine) (g : Symbols) (s : Sim.State) :
    runnableBlock g s f.dispatchBody = ((decide (f.reset = .hole) || g.defined f.reset) &&
      if f.resets g s then runnableBlock g s f.onReset
      else runnableBlock g s f.defaults &&
        runnable g s (.case (.ref f.current) f.bodyArms [])) := by
  have hbody : runnableBlock g s (f.defaults ++ [.case (.ref f.current) f.bodyArms []]) =
      (runnableBlock g s f.defaults && runnable g s (.case (.ref f.current) f.bodyArms [])) := by
    rw [runnableBlock_append, runnableBlock, runnableBlock, Bool.and_true]
  unfold dispatchBody resets
  by_cases hr : f.reset = .hole
  · simp [hr, hbody]
  · rw [if_neg hr, runnableBlock, runnableBlock, Bool.and_true, runnable, hbody]
    simp [hr]

end Lockstep.Machine
