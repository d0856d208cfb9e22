import Lockstep.Proofs.Program.Enumeration
import Lockstep.Proofs.Program.Sizing

/-!
# Waiting for the start

A program leaves its end state when its run flag is set. The flag is a register: what it holds is
what the step before has put there, so a program starts one step after its start condition held, and
only if there was no reset at either step. While it waits it assigns nothing but the flag, and the
stack pointers at a reset.
-/

namespace Lockstep.Program

open Sim Machine

/-- A step is made without reset while the start condition holds. -/
def Sequencer.starts (q : Sequencer) (start : Expr) (g : Symbols) (s : Sim.State) : Bool :=
  !q.machine.resets g s && eval g s start != 0

/-- A program inside a module, with the end state and the run flag that it was built with. -/
structure Sequencer.Waits (q : Sequencer) (start : Expr) (M : Module) (others : List Process) :
    Prop where
  installed : q.machine.Installed M others
  clock : q.machine.clock.isSome = true
  fallback : q.machine.fallback = 0
  idle : ∃ name, q.machine.states[0]? = some { name, gotos := [waitFor q.run 0] }
  started : start ≠ .hole
  register : ∃ x, M.symbols.signals[q.machine.current]? = some x ∧ x.kind = .reg
  flag : ∃ x, M.symbols.signals[q.run]? = some x ∧ x.kind = .reg
  bit : M.symbols.signalType q.run = some .bit
  tracks : ∃ low, TracksStart low M.symbols q.run start q.machine.defaults
  zero : ∀ st ∈ q.machine.onReset, ∃ i t, st = .assign i none (.const 0 t)
  clears : ∃ t, .assign q.run none (.const 0 t) ∈ q.machine.onReset
  apart : q.run ≠ q.machine.current ∧ q.run ≠ q.machine.next
  free : ∀ p ∈ others, q.run ∉ Stmt.blockDests p.body
  bodies : ∀ st ∈ q.machine.states.toList, q.run ∉ Stmt.blockDests st.body

/-! ## One step -/

theorem SetsRun.exec {low : Nat} {g : Symbols} {run : SignalId} {v : UInt64} {st : Statement}
    (h : SetsRun low g run v st) (hv : v.toNat < 2) (hbit : g.signalType run = some .bit)
    (s : Sim.State) : exec g s st = [⟨run, none, Word.ofUInt64 v⟩] := by
  obtain ⟨t, -, ht, rfl⟩ := h
  have hlt : (Word.ofUInt64 v).toNat < 2 ^ 1 := by simpa using hv
  have htype : g.typeOf (.const v (some t)) = some (.unsigned 1) := ht
  have hval : eval g s (.const v (some t)) = Word.ofUInt64 v := by
    simp only [Expr.const, eval, Symbols.literal]
    rw [show g.type? (some t) = some (.unsigned 1) from ht]
    exact Word.truncate_of_lt hlt
  simp only [Sim.exec, assignment, hval, htype, hbit, Option.toList_some]
  rw [Word.fit_unsigned rfl]
  exact congrArg (fun w => [(⟨run, none, w⟩ : Write)]) (Word.truncate_of_lt hlt)

namespace Sequencer.Waits

variable {q : Sequencer} {start : Expr} {M : Module} {others : List Process}
variable {edge : ClockEdge} {s s' : Sim.State} (h : q.Waits start M others)
include h

/-- The body process resets, or it sets the flag before anything else. -/
theorem dispatch (hs : Resting M s) : ∃ body, q.run ∉ Stmt.blockDests body ∧
    execBlock M.symbols s q.machine.dispatchBody =
      if q.machine.resets M.symbols s then execBlock M.symbols s q.machine.onReset
      else execBlock M.symbols s q.machine.defaults ++ execBlock M.symbols s body := by
  rcases q.machine.at_or_astray s with ⟨k, hat⟩ | hno
  · have hst : q.machine.states[k]? = some _ := Array.getElem?_eq_getElem hat.1
    exact ⟨_, h.bodies _ (Array.mem_toList_iff.mpr (Array.mem_of_getElem? hst)),
      h.installed.body_at hat hst⟩
  · refine ⟨[], List.not_mem_nil, ?_⟩
    rw [h.installed.body_astray hs.fits hno, execBlock, List.append_nil]

/-- All writes of a reset are of zero. -/
theorem reset_writes {w : Write} (hw : w ∈ execBlock M.symbols s q.machine.onReset) :
    w = ⟨w.dest, none, 0⟩ := by
  rw [execBlock_eq_flatMap] at hw
  obtain ⟨st, hst, hw⟩ := List.mem_flatMap.mp hw
  obtain ⟨i, t, rfl⟩ := h.zero st hst
  rw [exec_clear, List.mem_singleton] at hw
  subst hw
  rfl

theorem defaults_writes (s : Sim.State) : execBlock M.symbols s q.machine.defaults =
    ⟨q.run, none, 0⟩ :: if eval M.symbols s start != 0 then [⟨q.run, none, 1⟩] else [] := by
  obtain ⟨low, htracks⟩ := h.tracks
  obtain ⟨-, st, st', hzero, hone, hsts⟩ := htracks.resolve_left fun hno => h.started hno.1
  rw [hsts, execBlock, execBlock, execBlock, hzero.exec (by decide) h.bit s, List.append_nil, exec]
  split
  · rw [execBlock, execBlock, hone.exec (by decide) h.bit s]
    rfl
  · rfl

/-- After a step the run flag tells whether the step was one that starts the program. -/
theorem flag_step (hs : Resting M s) (he : Strikes M edge s s')
    (hstep : q.machine.stepsOn edge = true) :
    s'.read q.run = if q.starts start M.symbols s then 1 else 0 := by
  have hsize : q.run < s.scalars.size := by
    obtain ⟨x, hx, -⟩ := h.flag
    rw [hs.size]
    exact (Array.getElem?_eq_some_iff.mp hx).1
  rw [(h.installed.edge_body he hstep h.free h.apart.1 h.apart.2).read]
  obtain ⟨body, hfree, hbody⟩ := h.dispatch hs
  have hrest := not_mem_execBlock (g := M.symbols) (s := s) hfree
  rw [hbody, starts]
  cases hr : q.machine.resets M.symbols s with
  | true =>
    obtain ⟨t, ht⟩ := h.clears
    refine State.read_storeAll_const s (fun w hw hd => ?_) ?_ hsize
    · rw [← hd]
      exact h.reset_writes hw
    · rw [if_pos rfl, execBlock_eq_flatMap]
      refine List.mem_flatMap.mpr ⟨_, ht, ?_⟩
      rw [exec_clear]
      exact List.mem_singleton_self _
  | false =>
    -- the last write to the flag is one of the defaults: the state bodies leave it alone
    rw [if_neg Bool.false_ne_true, h.defaults_writes s]
    cases hv : eval M.symbols s start != 0 with
    | true =>
      have hlast : (s.storeAll ([⟨q.run, none, 0⟩] ++ ⟨q.run, none, 1⟩ ::
          execBlock M.symbols s body)).scalar q.run = some 1 :=
        State.scalar_storeAll_last s rfl hsize hrest
      exact congrArg (Option.getD · 0) hlast
    | false =>
      have hlast : (s.storeAll ([] ++ ⟨q.run, none, 0⟩ :: execBlock M.symbols s body)).scalar q.run =
          some 0 := State.scalar_storeAll_last s rfl hsize hrest
      exact congrArg (Option.getD · 0) hlast

/-- Out of the end state a step leads to the first state of the body, where the flag is set and
there is no reset, and back to the end state otherwise. -/
theorem end_step (hs : Resting M s) (he : Strikes M edge s s')
    (hstep : q.machine.stepsOn edge = true) (hsize : 1 < q.machine.size)
    (hat : q.machine.At s 0) : q.machine.At s'
      (if !q.machine.resets M.symbols s && s.read q.run != 0 then 1 else 0) := by
  obtain ⟨name, hst⟩ := h.idle
  have hpos : 0 < q.machine.size := hat.1
  have hcurrent := h.installed.edge_current he hstep hs.fits hs.size
  cases hr : q.machine.resets M.symbols s with
  | true =>
    rw [hr, if_pos rfl] at hcurrent
    exact ⟨hpos, hcurrent⟩
  | false =>
    obtain ⟨e, htaken, hnext⟩ := h.installed.next_at hs.rest hat hst
    rw [hr, if_neg Bool.false_ne_true, hnext] at hcurrent
    -- a target inside the machine is where the register goes, whichever edge was taken
    have hlands {a : Target Expr} {j : Nat} (hj : j < q.machine.size) (ha : a.place? = some (j : Int))
        (htarget : e.target = some a) : q.machine.At s' j := by
      have hcount := h.installed.sized.countable.index
      rw [edgeValue_place htarget ha (hj.trans hcount)] at hcurrent
      rcases clamp_cases h.fallback (j : Int) with ⟨i, -, hij, hc⟩ | ⟨hij, -, -⟩ | ⟨hout, -⟩
      · rw [hc, ← hij] at hcurrent
        exact ⟨hj, hcurrent⟩
      · omega
      · omega
    have hbranch : lastTaken M.symbols s (stateEdges 0 { name, gotos := [waitFor q.run 0] }) =
        if s.read q.run != 0 then some ⟨.holds (.ref q.run), some (.after 0)⟩
        else some ⟨.fails (.ref q.run), some (.state 0)⟩ := by
      have hread : eval M.symbols s (.ref q.run) = s.read q.run :=
        Word.truncate_of_lt (hs.fits.read q.run)
      rw [← hread]
      exact lastTaken_branch M.symbols s (.ref q.run) (some (.after 0)) (some (.after 0))
        (some (.state 0))
    rw [hbranch] at htaken
    cases hv : s.read q.run != 0 with
    | true =>
      rw [hv, if_pos rfl] at htaken
      cases htaken
      exact hlands hsize rfl rfl
    | false =>
      rw [hv, if_neg Bool.false_ne_true] at htaken
      cases htaken
      exact hlands hpos rfl rfl

/-- Outside all states a step leads to the end state. -/
theorem astray_step (hs : Resting M s) (he : Strikes M edge s s')
    (hstep : q.machine.stepsOn edge = true) (hno : q.machine.Astray s) : q.machine.At s' 0 := by
  obtain ⟨name, hst⟩ := h.idle
  refine ⟨(Array.getElem?_eq_some_iff.mp hst).1, ?_⟩
  rw [h.installed.edge_current he hstep hs.fits hs.size,
    h.installed.next_astray hs.rest hs.fits hno, h.fallback]
  split <;> rfl

/-- In the end state a step leaves everything alone but the flag and what a reset clears. -/
theorem end_keeps (he : Strikes M edge s s') (hstep : q.machine.stepsOn edge = true)
    (hat : q.machine.At s 0) {d : SignalId} (hfree : ∀ p ∈ others, d ∉ Stmt.blockDests p.body)
    (hcur : d ≠ q.machine.current) (hnext : d ≠ q.machine.next) (hrun : d ≠ q.run)
    (hreset : d ∉ Stmt.blockDests q.machine.onReset) : State.SameAt s' s d := by
  obtain ⟨name, hst⟩ := h.idle
  refine (h.installed.edge_body he hstep hfree hcur hnext).trans (State.storeAll_other ?_)
  rw [h.installed.body_at hat hst]
  split
  · exact not_mem_execBlock hreset
  · obtain ⟨low, htracks⟩ := h.tracks
    rw [execBlock, List.append_nil]
    exact not_mem_execBlock fun hd => hrun (htracks.dests d hd)

end Sequencer.Waits

/-! ## Whole runs -/

/-- What the flag and the register tell of the steps made so far: the flag, whether the last one was
one that starts the program; the register, that the program is in its end state if there was no such
step, unless there was no step at all. -/
structure Sequencer.Recalls (q : Sequencer) (start : Expr) (g : Symbols) (past : List Sim.State)
    (s : Sim.State) : Prop where
  flag : s.read q.run = if past.getLast?.any (q.starts start g) then 1 else 0
  place : (∀ t ∈ past, q.starts start g t = false) →
    q.machine.At s 0 ∨ (past = [] ∧ q.machine.Astray s)

theorem Sequencer.Recalls.same {q : Sequencer} {start : Expr} {g : Symbols} {past : List Sim.State}
    {s s' : Sim.State} (h : q.Recalls start g past s) (hcur : State.SameAt s' s q.machine.current)
    (hrun : State.SameAt s' s q.run) : q.Recalls start g past s' where
  flag := hrun.read.trans h.flag
  place hpast := (h.place hpast).imp (fun hat => ⟨hat.1, hcur.read.trans hat.2⟩)
    (And.imp_right fun hno i hi hx => hno i hi (hcur.read.symm.trans hx))

namespace Sequencer.Waits

variable {q : Sequencer} {start : Expr} {M : Module} {others : List Process}
variable (h : q.Waits start M others)
include h

/-- Along every run the flag and the register tell of the steps made so far. -/
theorem run {stimuli : List Stimulus} {sim : Sim} (hsize : 1 < q.machine.size)
    (hplay : Sim.play M stimuli = .ok sim)
    (hdrive : ∀ name v i, .drive name v ∈ stimuli → drives M name = some i →
      i ≠ q.machine.current ∧ i ≠ q.run) :
    q.Recalls start M.symbols (q.machine.history M stimuli) sim.state := by
  have hin := h.installed
  refine history_invariant h.clock (fun i => i ≠ q.machine.current ∧ i ≠ q.run)
    (q.Recalls start M.symbols) ?_ ?_ ?_ ?_ hplay hdrive
  · intro s _ hs
    obtain ⟨x, hx, hxkind⟩ := h.flag
    obtain ⟨y, hy, hykind⟩ := h.register
    have hzero : s.read q.machine.current = 0 := by
      rw [(hin.settles_other hs hin.current_free hin.apart).read]
      exact read_initial hy hykind
    refine ⟨?_, fun _ => ?_⟩
    · rw [(hin.settles_other hs h.free h.apart.2).read]
      exact read_initial hx hxkind
    · by_cases he : q.machine.encoding = .oneHot
      · exact .inr ⟨rfl, astray_zero hin.sized.countable he hzero⟩
      · exact .inl (at_zero he (by omega) hzero)
  · intro i v past s s' hi _ hpast hs
    exact hpast.same (hin.driven_other hs hin.current_free hin.apart hi.1.symm)
      (hin.driven_other hs h.free h.apart.2 hi.2.symm)
  · intro edge past s s' hidle _ hpast he
    exact hpast.same (hin.edge_idle he.strikes hidle hin.current_free hin.apart)
      (hin.edge_idle he.strikes hidle h.free h.apart.2)
  · intro edge past s s' hstep hs hpast he
    refine ⟨?_, fun hnone => .inl ?_⟩
    · rw [List.getLast?_concat]
      exact h.flag_step hs he.strikes hstep
    · have hold : ∀ t ∈ past, q.starts start M.symbols t = false := fun t ht =>
        hnone t (List.mem_append_left _ ht)
      rcases hpast.place hold with hat | ⟨-, hno⟩
      · have hclear : s.read q.run = 0 := by
          rw [hpast.flag, if_neg]
          intro hany
          obtain ⟨t, ht, hstarts⟩ := (Option.any_eq_true ..).mp hany
          rw [hold t (List.mem_of_getLast? ht)] at hstarts
          cases hstarts
        have hend := h.end_step hs he.strikes hstep hsize hat
        rw [hclear] at hend
        simpa using hend
      · exact h.astray_step hs he.strikes hstep hno

end Sequencer.Waits

/-! ## What was built -/

theorem TracksStart.mem {low : Nat} {g : Symbols} {run : SignalId} {start : Expr}
    {sts : List Statement} (h : TracksStart low g run start sts) : run ∈ Stmt.blockDests sts := by
  rcases h with ⟨-, st, ⟨t, -, -, rfl⟩, rfl⟩ | ⟨-, st, st', ⟨t, -, -, rfl⟩, -, rfl⟩
  · simp [Stmt.blockDests, Stmt.dests]
  · simp [Stmt.blockDests, Stmt.dests]

/-- The run flag stays the same signal. -/
theorem Threads.run_kept {base : Symbols} {k k' : Core} {t : List Point} (h : Threads base k t k') :
    k'.run = k.run := by
  refine h.invariant (I := fun k₁ => k₁.run = k.run) (fun k₁ k₂ hq hk => ?_) (fun p k₁ he hk => ?_) rfl
  · rw [hq.rest]
    exact hk
  · cases he <;> exact hk

/-- Besides the run flag, a reset clears the stack pointers of instances. -/
theorem Threads.pointers {base : Symbols} {k k' : Core} {t : List Point} (h : Threads base k t k')
    (hk : k.pointers = []) :
    ∀ d ∈ k'.pointers, ∃ r inst, instance? k'.functions r = some inst ∧ d = inst.sp := by
  refine h.invariant (I := fun k => ∀ d ∈ k.pointers, ∃ r inst, instance? k.functions r = some inst ∧
    d = inst.sp) (fun k k' hq hk => ?_) (fun p k he hold d hd => ?_) (by simp [hk])
  · rw [hq.rest]
    exact hk
  · have hkept (hd : d ∈ p.context.core.pointers) :
        ∃ r inst, instance? k.functions r = some inst ∧ d = inst.sp := by
      obtain ⟨r, inst, hi, rfl⟩ := hold d hd
      obtain ⟨inst', hi', hlike, -⟩ := he.instance_kept hi
      exact ⟨r, inst', hi', by rw [hlike]⟩
    cases he with
    | @make fn types f inst m hp hf _ _ _ _ =>
      rcases List.mem_append.mp hd with hd | hd
      · exact hkept hd
      · refine ⟨⟨fn, f.instances.size⟩, inst, ?_, List.mem_singleton.mp (List.mem_of_mem_filter hd)⟩
        rw [instance?_pushInstance hf, if_pos rfl]
    | keep _ _ | define _ | resize _ _ _ | build _ | size _ _ _ | enter _ _ _ _ _ _ | leave _
    | give _ _ _ _ _ => exact hkept hd

/-- What is assigned before every state, the body process assigns. -/
theorem mem_dispatchBody_defaults {f : Machine} {i : SignalId} (hi : i ∈ Stmt.blockDests f.defaults) :
    i ∈ Stmt.blockDests f.dispatchBody := by
  unfold Machine.dispatchBody
  split <;> simp [Stmt.blockDests_append, Stmt.blockDests, Stmt.dests, hi]

section

variable {s s' : Session} {opts : Options} {body : List Command} {q : Sequencer}
variable {c₀ c c₁ : Context} {k : Core}

/-- What comes of a program. Its end state is made in `c₀`, in `c` it has all its states, and in `c₁`
it is built; `k` is what elaborating its body comes to. -/
structure Elaboration (s : Session) (opts : Options) (body : List Command) (q : Sequencer)
    (s' : Session) (c₀ c c₁ : Context) (k : Core) : Prop where
  quiet : Core.Quiet s.module.symbols (draft s opts).core c₀.core
  spared : Spared 0 1 c₀ c
  threads : Threads s.module.symbols c₀.core (course s opts body) k
  settled : k.Settled c
  addressed : Addressed c c₁
  built : c.draft.machine.build c₁.session.module = (none, q.machine, s'.module)
  run : q.run = c.draft.run
  functions : s'.functions = c.session.functions

/-- A program that does not reach into its machine is elaborated from its end state on. -/
theorem elaboration_of_build (hbuild : build s opts body = (.ok q, s'))
    (hs : ∀ p ∈ s.scope.functions, p.2 < s.functions.size)
    (hfs : ∀ f ∈ s.functions, f.Avoids Command.isRaw)
    (hbody : Regular body) : ∃ c₀ c c₁ k,
      (beginProgram opts.start).run (draft s opts) = .ok () c₀ ∧
        Elaboration s opts body q s' c₀ c c₁ k := by
  obtain ⟨c, hprepare⟩ := exists_prepare hbuild
  obtain ⟨c₁, haddr, hmachine, hrun, hfunctions⟩ := Addressed.of_build hprepare hbuild
  have hsound := sound_draft hs opts
  have hall : Ensures (prepare opts body) (draft s opts) fun _ c => ∃ c₀ k,
      (beginProgram opts.start).run (draft s opts) = .ok () c₀ ∧
      Core.Quiet s.module.symbols (draft s opts).core c₀.core ∧ Spared 0 1 c₀ c ∧
      Threads s.module.symbols c₀.core (course s opts body) k ∧ k.Settled c := by
    rw [prepare, ensures_bind]
    intro _ c₀ hbegin
    obtain ⟨-, -, -, sts, clear, fault, -, -, hd⟩ := Ensures.beginProgram opts.start _ _ hbegin
    obtain ⟨hstart, -⟩ := Sound.start hfs hbegin
    have hquiet : Core.Quiet s.module.symbols (draft s opts).core c₀.core := by
      cases (Traces.beginProgram opts.start (draft s opts) hsound).1 _ _ hbegin with
      | done hq => exact hq
    have hend : Spared 0 1 c₀ c₀ := by
      have hmarks : ∀ f ∈ c₀.draft.frames, f.marks = [] := by simp [hd, draft, Frame.marks]
      refine ⟨?_, fun _ _ _ => rfl, rfl, fun f hf k hk => ?_, .refl _, hstart.functions, .refl _⟩
      · simp [hd, Machine.size]
      · simp [hmarks f hf] at hk
    have hcourse : course s opts body = pointsOf opts.budget body c₀ := onward_of_run hbegin
    have hspares : Spares 0 1 c₀ (do performAll (callWithin opts.budget) body; stepIfWaiting) :=
      .bind (performAll_spares body hbody) fun _ => .of_heeds (Spared.custody 0 1 c₀).stepIfWaiting
    have htraces : Traces s.module.symbols Unit
        (do performAll (callWithin opts.budget) body; stepIfWaiting) c₀
          (pointsOf opts.budget body c₀) :=
      Traces.chained.trail (Traces.account.pointsOf opts.budget body c₀) fun _ c₂ =>
        Traces.steps.stepIfWaiting c₂
    have hdone := (hspares c₀ hend).and (htraces (hsound.quiet hquiet)).1
    rw [ensures_bind] at hdone
    rw [ensures_bind]
    refine hdone.mono fun _ c₁ hc₁ => ?_
    rw [ensures_bind]
    refine hc₁.mono fun _ c₂ hc₂ => ?_
    refine ((Spares.passive .settleReturns c₂ hc₂.1).and (ensures_settleReturns c₂)).mono
      fun _ c hc => ?_
    exact ⟨c₀, c₂.core, hbegin, hquiet, hc.1, hcourse ▸ hc₂.2, hc.2⟩
  obtain ⟨c₀, k, hbegin, hquiet, hspared, hthreads, hsettled⟩ := hall _ c hprepare
  exact ⟨c₀, c, c₁, k, hbegin, hquiet, hspared, hthreads, hsettled, haddr, hmachine, hrun, hfunctions⟩

namespace Elaboration

variable (h : Elaboration s opts body q s' c₀ c c₁ k)
include h

theorem machine : q.machine = { c.draft.machine with built := true } :=
  (Machine.build_ok h.built).2.1

theorem flag : q.run = c₀.draft.run := by
  obtain ⟨g, hcore, -⟩ := h.settled
  have hrun : c.draft.run = k.run := congrArg Core.run hcore
  rw [h.run, hrun, h.threads.run_kept]
  rfl

/-- What is made before the body of the program, but for the type of state codes, is there in the
end, unless the program resizes it. -/
theorem kept {o : Holders} (ho : o.Records s.functions s.module.symbols) :
    (∀ (d : SignalId) x, s.module.symbols.signals.size ≤ d →
      c₀.session.module.symbols.signals[d]? = some x → s'.module.symbols.signals[d]? = some x) ∧
    ∀ (i : TypeId) u, s.module.symbols.types.size < i → c₀.session.module.symbols.types[i]? = some u →
      u.isUnknown = false → (∀ p ∈ course s opts body, ¬ p.Resizes i) →
      s'.module.symbols.types[i]? = some u := by
  obtain ⟨g, hcore, hsettles⟩ := h.settled
  obtain ⟨-, -, next, -, hsym, -⟩ := Machine.build_ok h.built
  obtain ⟨hsignals, htypes⟩ := h.threads.unheld ((held_draft ho opts).quiet h.quiet)
  have hsymbols : c.session.module.symbols = g := congrArg (·.module.symbols) hcore
  have hcode : c₀.core.code = s.module.symbols.types.size := by
    rw [h.quiet.rest]
    rfl
  have htype : c.draft.machine.type = s.module.symbols.types.size := by
    rw [h.spared.fields.2.2.1]
    exact hcode
  refine ⟨fun d x hle hx => ?_, fun i u hlt hu hknown hno => ?_⟩
  · rw [hsym, Symbols.setType, h.addressed.signals, hsymbols, hsettles.signals]
    exact hsignals d x hx (ho.signals d hle)
  · have hk := htypes i u hu (ho.cells i hlt.le) (hcode ▸ hlt.ne') hno
    obtain ⟨v, hv, hsame⟩ := hsettles.types i u hk
    obtain rfl := hsame (.inr hknown)
    rw [hsym, Symbols.setType, Array.getElem?_setIfInBounds_ne (htype ▸ hlt.ne), h.addressed.types,
      hsymbols]
    exact hv

/-- What a reset clears. -/
theorem reset_dests {d : SignalId} (hd : d ∈ Stmt.blockDests q.machine.onReset) :
    d = q.run ∨ ∃ r inst, instance? s'.functions r = some inst ∧ d = inst.sp := by
  rw [or_iff_not_imp_left]
  intro hne
  obtain ⟨g, hcore, -⟩ := h.settled
  have hpointer : d ∈ c.core.pointers := by
    rw [h.machine] at hd
    refine List.mem_filter.mpr ⟨hd, ?_⟩
    rw [← h.run]
    simpa using hne
  rw [hcore] at hpointer
  obtain ⟨r, inst, hi, hsp⟩ := h.threads.pointers (by rw [h.quiet.rest]; rfl) d hpointer
  refine ⟨r, inst, ?_, hsp⟩
  rw [h.functions, show c.session.functions = k.functions from congrArg Core.functions hcore]
  exact hi

theorem installed {M : Module} (hplaced : c₀.draft.machine.Placed c₀.session.module)
    (hfall : c₀.draft.machine.fallback = 0) (hM : s'.module.Grows M) (hsize : q.machine.size < 2 ^ 63)
    (hcur : M.SoleDriven q.machine.current) (hnext : M.SoleDriven q.machine.next) :
    ∃ others, q.machine.Installed M others := by
  have hfallback : 0 ≤ c.draft.machine.fallback ∧ c.draft.machine.fallback < c.draft.machine.size := by
    have hpos : 0 < c.draft.machine.size := h.spared.size
    rw [h.spared.fields.2.2.2.1, hfall]
    omega
  rw [h.machine] at hsize hcur hnext ⊢
  obtain ⟨others, hin⟩ := installed_of_build (h.spared.placed hplaced h.addressed) h.built hM hsize
    hfallback hcur hnext
  exact ⟨others, hin.withBuilt true⟩

end Elaboration

/-- A built program that keeps to its own states, in a session whose functions do, with a run flag
that it neither assigns nor resizes. -/
structure Contained (s : Session) (opts : Options) (body : List Command) (q : Sequencer)
    (s' : Session) : Prop where
  built : build s opts body = (.ok q, s')
  named : ∀ p ∈ s.scope.functions, p.2 < s.functions.size
  held : ∃ o : Holders, o.Records s.functions s.module.symbols
  functions : ∀ f ∈ s.functions, f.Avoids Command.isRaw
  regular : Regular body
  fixed : ∀ c₀, (beginProgram opts.start).run (draft s opts) = .ok () c₀ →
    ∀ p ∈ course s opts body, ∀ i, s.module.symbols.types.size < i →
      i < c₀.session.module.symbols.types.size → ¬ p.Resizes i
  assigns : ∀ st ∈ q.machine.states.toList, q.run ∉ Stmt.blockDests st.body
  size : q.machine.size < 2 ^ 63

/-- Such a program waits for its start, and a reset clears its run flag and its stack pointers. -/
theorem Contained.waits {M : Module} (h : Contained s opts body q s') (hstart : opts.start ≠ .hole)
    (hM : s'.module.Grows M) (hcur : M.SoleDriven q.machine.current)
    (hnext : M.SoleDriven q.machine.next) (hrun : M.SoleDriven q.run) :
    (∃ others, q.Waits opts.start M others) ∧ ∀ d ∈ Stmt.blockDests q.machine.onReset,
      d = q.run ∨ ∃ r inst, instance? s'.functions r = some inst ∧ d = inst.sp := by
  obtain ⟨o, ho⟩ := h.held
  obtain ⟨c₀, c, c₁, k, hbegin, hE⟩ := elaboration_of_build h.built h.named h.functions h.regular
  obtain ⟨-, hplaced, hfall, -, -⟩ := Sound.start h.functions hbegin
  obtain ⟨-, -, hm, sts, clear, fault, htracks, hclear, hd⟩ :=
    Ensures.beginProgram opts.start _ _ hbegin
  obtain ⟨hsignals, htypes⟩ := hE.kept ho
  obtain ⟨hcur', hnext', -, hfall', hdefaults'⟩ := hE.spared.fields
  obtain ⟨others, hin⟩ := hE.installed hplaced hfall hM h.size hcur hnext
  obtain ⟨ncur, nnext, nrun, -⟩ := draft_signals s opts
  obtain ⟨x, hx, hkind, i, hxi, hi, hlt⟩ := draft_flag s opts
  obtain ⟨y, -, hy, -, ⟨hykind, -⟩, -⟩ := draft_machine s opts
  -- register, wire and flag are those of the draft
  have hrun₀ : q.run = (draft s opts).draft.run := hE.flag.trans (by rw [hd])
  have hcur₀ : q.machine.current = (draft s opts).draft.machine.current := by
    rw [hE.machine]
    exact hcur'.trans (by rw [hd])
  have hnext₀ : q.machine.next = (draft s opts).draft.machine.next := by
    rw [hE.machine]
    exact hnext'.trans (by rw [hd])
  have hflag : M.symbols.signals[q.run]? = some x := by
    rw [hrun₀]
    refine hM.signal (hsignals _ x ?_ (hm.symbols.signals _ x hx))
    rw [nrun]
    exact Nat.le_add_right _ 2
  -- the numbers that the flag is set to have the types that they were made with
  have hkeep : ∀ t, s.module.symbols.types.size < t →
      c₀.session.module.symbols.types[t]? = some (.unsigned 1) →
      M.symbols.types[t]? = some (.unsigned 1) := by
    intro t hlow ht
    refine hM.type (htypes t _ hlow ht rfl fun p hp => ?_)
    exact h.fixed c₀ hbegin p hp t hlow (Array.getElem?_eq_some_iff.mp ht).1
  have hlow : s.module.symbols.types.size < (draft s opts).session.module.symbols.types.size :=
    hlt.trans (Array.getElem?_eq_some_iff.mp hi).1
  have hdefaults : q.machine.defaults = sts := by
    rw [hE.machine]
    exact hdefaults'.trans (by simp [hd, draft, Machine.create])
  have htracks' : TracksStart (draft s opts).session.module.symbols.types.size M.symbols q.run
      opts.start q.machine.defaults := by
    rw [hrun₀, hdefaults]
    exact htracks.keep fun t hle => hkeep t (hlow.trans_le hle)
  have hidle : q.machine.states[0]? = some { name := "", gotos := [waitFor q.run 0] } := by
    rw [hE.machine, hrun₀]
    change c.draft.machine.states[0]? = _
    rw [hE.spared.states 0 (le_refl 0) Nat.zero_lt_one, hd]
    rfl
  obtain ⟨more, hmore, hzero⟩ := hE.spared.clears
  have hreset : q.machine.onReset = clear :: more := by
    rw [hE.machine]
    exact hmore.trans (by simp [hd, draft, Machine.create])
  obtain ⟨t, -, -, rfl⟩ := hclear
  refine ⟨⟨others, hin, ?_, ?_, ⟨"", hidle⟩, hstart, ?_, ⟨x, hflag, hkind⟩, ?_, ⟨_, htracks'⟩, ?_,
    ⟨some t, ?_⟩, ?_, ?_, h.assigns⟩, fun d => hE.reset_dests⟩
  · obtain ⟨⟨event, hclock⟩, -⟩ := obstacle_none (Machine.build_ok hE.built).1
    rw [hE.machine]
    exact Option.isSome_iff_exists.mpr ⟨event, hclock⟩
  · rw [hE.machine]
    exact hfall'.trans hfall
  · refine ⟨y, ?_, hykind⟩
    rw [hcur₀]
    exact hM.signal (hsignals _ y ncur.ge (hm.symbols.signals _ y hy))
  · rw [Symbols.signalType, hflag, Option.bind_some, hxi]
    exact hkeep i hlt (hm.symbols.types i _ hi)
  · rw [hreset]
    intro st hst
    rcases List.mem_cons.mp hst with rfl | hst
    · exact ⟨_, _, rfl⟩
    · exact hzero st hst
  · rw [hreset, hrun₀]
    exact List.mem_cons_self
  · rw [hrun₀, hcur₀, hnext₀, nrun, ncur, nnext]
    exact ⟨Nat.ne_of_gt (by omega), Nat.ne_of_gt (by omega)⟩
  · exact hin.others_free hrun (mem_dispatchBody_defaults htracks'.mem)

end

/-! ## Running what was built -/

namespace Sequencer.Waits

variable {q : Sequencer} {start : Expr} {M : Module} {others : List Process}
variable {stimuli : List Stimulus} {sim sim' : Sim} (h : q.Waits start M others)
variable (hplay : Sim.play M stimuli = .ok sim) (htick : sim.respond .tick = .ok sim')
include h hplay htick

section

variable (hsize : 1 < q.machine.size)
variable (hdrive : ∀ name v i, .drive name v ∈ stimuli → drives M name = some i →
  i ≠ q.machine.current ∧ i ≠ q.run)
include hsize hdrive

/-- Where a tick leads that starts in the end state. -/
theorem end_tick (hat : q.machine.At sim.state 0) :
    q.machine.At sim'.state (if !q.machine.resets M.symbols (q.machine.stepState sim) &&
      (q.machine.history M stimuli).getLast?.any (q.starts start M.symbols) then 1 else 0) := by
  have hin := h.installed
  obtain ⟨hm, hrest⟩ := Resting.of_play hplay
  obtain ⟨edge, t, hstep, hs, hfires, hsame⟩ := hin.tick h.clock hm hrest htick
  obtain ⟨hbefore, hafter⟩ := hsame _ hin.current_free hin.apart
  have hflag : ((q.machine.stepState sim).read q.run != 0) =
      (q.machine.history M stimuli).getLast?.any (q.starts start M.symbols) := by
    rw [(hsame _ h.free h.apart.2).1.read, (h.run hsize hplay hdrive).flag]
    cases (q.machine.history M stimuli).getLast?.any (q.starts start M.symbols) <;> rfl
  have hend := h.end_step hs hfires.strikes hstep hsize ⟨hat.1, hbefore.read.trans hat.2⟩
  rw [hflag] at hend
  exact ⟨hend.1, hafter.read.trans hend.2⟩

/-- The first tick leads to the end state, whatever the register holds before it. -/
theorem first_tick (hfirst : q.machine.history M stimuli = []) : q.machine.At sim'.state 0 := by
  have hin := h.installed
  have hnone : ∀ t ∈ q.machine.history M stimuli, q.starts start M.symbols t = false := by
    simp [hfirst]
  rcases (h.run hsize hplay hdrive).place hnone with hat | ⟨-, hno⟩
  · have hend := h.end_tick hplay htick hsize hdrive hat
    simpa [hfirst] using hend
  · obtain ⟨hm, hrest⟩ := Resting.of_play hplay
    obtain ⟨edge, t, hstep, hs, hfires, hsame⟩ := hin.tick h.clock hm hrest htick
    obtain ⟨hbefore, hafter⟩ := hsame _ hin.current_free hin.apart
    have hend := h.astray_step hs hfires.strikes hstep fun i hi hx =>
      hno i hi (hbefore.read.symm.trans hx)
    exact ⟨hend.1, hafter.read.trans hend.2⟩

end

/-- A tick in the end state leaves alone what else the body process assigns, but for what a reset
clears. -/
theorem tick_keeps (hat : q.machine.At sim.state 0) {d : SignalId} (hsole : M.SoleDriven d)
    (hd : ∃ st ∈ q.machine.states.toList, d ∈ Stmt.blockDests st.body)
    (hreset : d ∉ Stmt.blockDests q.machine.onReset) : State.SameAt sim'.state sim.state d := by
  have hin := h.installed
  obtain ⟨st, hst, hmem⟩ := hd
  obtain ⟨k, hk⟩ := List.mem_iff_getElem?.mp hst
  rw [Array.getElem?_toList] at hk
  have hown := mem_dispatchBody hk hmem
  have hfree := hin.others_free hsole hown
  have hcur : d ≠ q.machine.current := fun heq => hin.body_current (heq ▸ hown)
  have hnext : d ≠ q.machine.next := fun heq => hin.body_next (heq ▸ hown)
  have hrun : d ≠ q.run := fun heq => h.bodies st hst (heq ▸ hmem)
  obtain ⟨hm, hrest⟩ := Resting.of_play hplay
  obtain ⟨edge, t, hstep, hs, hfires, hsame⟩ := hin.tick h.clock hm hrest htick
  obtain ⟨hbefore, hafter⟩ := hsame d hfree hnext
  have hstay : q.machine.At (q.machine.stepState sim) 0 :=
    ⟨hat.1, (hsame _ hin.current_free hin.apart).1.read.trans hat.2⟩
  exact hafter.trans ((h.end_keeps hfires.strikes hstep hstay hfree hcur hnext hrun hreset).trans
    hbefore)

end Sequencer.Waits

/-- A program that is never started stays in its end state. There a tick changes nothing that the
program assigns, and leads out of the state exactly if there is no reset at that tick and the tick
before was one without reset that the start condition held at. -/
theorem idle_until_started {s s' : Session} {opts : Options} {body : List Command} {q : Sequencer}
    {M : Module} (h : Contained s opts body q s') (hstart : opts.start ≠ .hole)
    (hsize : 1 < q.machine.size) (hM : s'.module.Grows M) (hcur : M.SoleDriven q.machine.current)
    (hnext : M.SoleDriven q.machine.next) (hrun : M.SoleDriven q.run) {stimuli : List Stimulus}
    {sim : Sim} (hplay : Sim.play M stimuli = .ok sim)
    (hdrive : ∀ name v i, .drive name v ∈ stimuli → drives M name = some i →
      i ≠ q.machine.current ∧ i ≠ q.run) :
    ((∀ t ∈ q.machine.history M stimuli, q.starts opts.start M.symbols t = false) →
      q.machine.history M stimuli = [] ∨ q.machine.At sim.state 0) ∧
    ∀ sim', sim.respond .tick = .ok sim' →
      (q.machine.history M stimuli = [] → q.machine.At sim'.state 0) ∧
      (q.machine.At sim.state 0 →
        (∀ d, M.SoleDriven d → (∃ st ∈ q.machine.states.toList, d ∈ Stmt.blockDests st.body) →
          (∀ r inst, instance? s'.functions r = some inst → d ≠ inst.sp) →
          State.SameAt sim'.state sim.state d) ∧
        (¬ q.machine.At sim'.state 0 ↔
          q.machine.resets M.symbols (q.machine.stepState sim) = false ∧
            (q.machine.history M stimuli).getLast?.any (q.starts opts.start M.symbols) = true)) := by
  obtain ⟨⟨others, hw⟩, hreset⟩ := h.waits hstart hM hcur hnext hrun
  refine ⟨fun hpast => ?_, fun sim' htick => ⟨fun hfirst => ?_,
    fun hat => ⟨fun d hsole hd hsp => ?_, ?_⟩⟩⟩
  · exact ((hw.run hsize hplay hdrive).place hpast).symm.imp_left And.left
  · exact hw.first_tick hplay htick hsize hdrive hfirst
  · refine hw.tick_keeps hplay htick hat hsole hd fun hmem => ?_
    obtain ⟨st, hst, hassigned⟩ := hd
    rcases hreset d hmem with rfl | ⟨r, inst, hi, heq⟩
    · exact h.assigns st hst hassigned
    · exact hsp r inst hi heq
  · have hend := hw.end_tick hplay htick hsize hdrive hat
    cases hb : !q.machine.resets M.symbols (q.machine.stepState sim) &&
      (q.machine.history M stimuli).getLast?.any (q.starts opts.start M.symbols) with
    | true =>
      rw [hb] at hend
      rw [Bool.and_eq_true, Bool.not_eq_true'] at hb
      refine iff_of_true (fun hzero => ?_) hb
      exact absurd (hzero.unique hw.installed.sized.countable hend) Nat.zero_ne_one
    | false =>
      rw [hb] at hend
      refine iff_of_false (not_not.mpr hend) fun hboth => ?_
      simp [hboth.1, hboth.2] at hb

/-- Whether the program is idle, one step after its start. -/
def idleCheck (q : Sequencer) (s' : Session) (sim : Sim) : Bool :=
  let m := s'.module
  1 < q.machine.size && m.SoleDriven q.machine.current && m.SoleDriven q.machine.next &&
  m.SoleDriven q.run && m.SoleDriven 3 && drives m "go" != some q.run &&
  q.machine.states.toList.all (fun st => !(Stmt.blockDests st.body).contains q.run) &&
  q.machine.states.toList.any (fun st => (Stmt.blockDests st.body).contains 3) &&
  s'.functions.toList.all (fun f => f.instances.toList.all (·.sp != 3)) &&
  sim.state.read q.machine.current == Word.ofUInt64 (q.machine.code 0) &&
  !q.machine.resets m.symbols (q.machine.stepState sim) &&
  (q.machine.history m (sumStimuli 0)).getLast?.any (q.starts (.ref 1) m.symbols) &&
  (sim.respond .tick).toOption.isSome

/-- A start pulse at the first tick wakes the program at the second, where nothing is added yet. The
register of a one-hot machine is in no state before. -/
theorem sum_idle_until_started : ∃ q s' sim sim',
    Contained { module := sumTop } (sumOptions .oneHot) sumBody q s' ∧
      Sim.play s'.module (sumStimuli 0) = .ok sim ∧ sim.respond .tick = .ok sim' ∧
      q.machine.At sim.state 0 ∧ ¬ q.machine.At sim'.state 0 ∧
      State.SameAt sim'.state sim.state 3 := by
  have hrun : runsInto { module := sumTop } (sumOptions .oneHot) sumBody (sumStimuli 0) idleCheck =
      true := by decide +kernel
  have hplain : (course { module := sumTop } (sumOptions .oneHot) sumBody).all
      (fun p => !p.event.isResize) = true := by decide +kernel
  obtain ⟨q, s', sim, hacc, hplay, hdrive, hc⟩ := exists_of_runsInto hrun
  simp only [idleCheck, Bool.and_eq_true, decide_eq_true_eq, List.all_eq_true, List.any_eq_true,
    Bool.not_eq_true', ← Bool.not_eq_true, List.contains_iff_mem, bne_iff_ne, beq_iff_eq] at hc
  obtain ⟨⟨⟨⟨⟨⟨⟨⟨⟨⟨⟨⟨hsize, hcur⟩, hnext⟩, hflag⟩, hsole⟩, hgo⟩, hassigns⟩, hbody⟩, hsp⟩, hat⟩, hreset⟩,
    hstarts⟩, htick⟩ := hc
  obtain ⟨sim', htick⟩ : ∃ sim', sim.respond .tick = .ok sim' := by
    cases hr : sim.respond .tick with
    | error e => simp [hr, Except.toOption] at htick
    | ok sim' => exact ⟨sim', rfl⟩
  have hcontained : Contained { module := sumTop } (sumOptions .oneHot) sumBody q s' := by
    refine ⟨hacc.built, fun p hp => absurd hp List.not_mem_nil,
      (Session.coherent_of_empty rfl).held, by simp, by decide +kernel, fun c₀ _ p hp i _ _ => ?_,
      hassigns, hacc.size⟩
    exact p.not_resizes (by simpa using List.all_eq_true.mp hplain p hp) i
  have hname : ∀ e ∈ sumStimuli 0, ∀ name v, e = .drive name v → name = "go" := by simp [sumStimuli]
  have hat' : q.machine.At sim.state 0 := ⟨by omega, hat⟩
  obtain ⟨-, hticks⟩ := idle_until_started hcontained (by decide) hsize
    ⟨List.prefix_rfl, List.prefix_rfl, List.prefix_rfl⟩ hcur hnext hflag hplay
      fun name v i hmem hi => by
      refine ⟨fun heq => hdrive name v i hmem hi (heq ▸ Sequencer.mem_made.mpr (.inl rfl)), ?_⟩
      rintro rfl
      exact hgo (hname _ hmem name v rfl ▸ hi)
  obtain ⟨-, hidle⟩ := hticks sim' htick
  obtain ⟨hkeeps, hleaves⟩ := hidle hat'
  refine ⟨q, s', sim, sim', hcontained, hplay, htick, hat',
    hleaves.mpr ⟨by simpa using hreset, hstarts⟩,
    hkeeps 3 hsole hbody fun r inst hi heq => ?_⟩
  obtain ⟨f, hf, hpos⟩ := Option.bind_eq_some_iff.mp hi
  have hne := hsp f (Array.mem_toList_iff.mpr (Array.mem_of_getElem? hf)) inst
    (Array.mem_toList_iff.mpr (Array.mem_of_getElem? hpos))
  exact hne heq.symm

/-- Leads out of the end state by a transition of its own. -/
def strayBody : List Command :=
  [.assign "acc" (.number 1 8), .stateGoto 0 (.jump (.state 1))]

/-- Without a start this program runs all the same. -/
theorem strayBody_runs : ∃ q s' sim, build { module := sumTop } (sumOptions .binary) strayBody =
      (.ok q, s') ∧ Sim.play s'.module [.tick, .tick] = .ok sim ∧
    (∀ t ∈ q.machine.history s'.module [.tick, .tick],
      q.starts (.ref 1) s'.module.symbols t = false) ∧
    ¬ q.machine.At sim.state 0 ∧ sim.state.read 3 = 1 := by
  have hrun : builds { module := sumTop } (sumOptions .binary) strayBody (fun q s' =>
      (Sim.play s'.module [.tick, .tick]).toOption.any fun sim =>
        (q.machine.history s'.module [.tick, .tick]).all (!q.starts (.ref 1) s'.module.symbols ·) &&
        sim.state.read q.machine.current != Word.ofUInt64 (q.machine.code 0) &&
        sim.state.read 3 == 1) = true := by decide +kernel
  obtain ⟨q, s', hbuild, hrun⟩ := exists_of_builds hrun
  obtain ⟨sim, hplay, hc⟩ := exists_of_any hrun
  simp only [Bool.and_eq_true, List.all_eq_true, Bool.not_eq_true', bne_iff_ne, beq_iff_eq] at hc
  obtain ⟨⟨hstarts, hcur⟩, hacc⟩ := hc
  exact ⟨q, s', sim, hbuild, hplay, hstarts, fun hat => hcur hat.2, hacc⟩

end Lockstep.Program
