import Lockstep.Proofs.Program.Live

/-!
# The discipline of calls and returns

What a program keeps to along every run. Its state register holds the code of one state, or that of
the place after the last one; its stacks hold the live activations; a return goes back to the newest
of them and takes it away, and a call without room changes no stack. Where only the outermost
commands may terminate the program, no activation is left when it is idle.
-/

namespace Lockstep.Program

open Sim Machine

variable {q : Sequencer} {fs : Array Function} {M : Module} {L : List (Site Nat)} {escapes : Prop}

/-! ## Programs that run as they were built -/

theorem Hosts.refl (q : Sequencer) (s : Session) : Hosts q s s.module where
  grows := ⟨List.prefix_rfl, List.prefix_rfl, List.prefix_rfl⟩
  links := List.prefix_rfl
  later p hp := by
    rw [← Array.length_toList, List.drop_length] at hp
    exact absurd hp List.not_mem_nil

/-- Whether a program is built, and what was built passes the check. -/
def builds (s : Session) (opts : Options) (body : List Command)
    (check : Sequencer → Session → Bool) : Bool :=
  match build s opts body with
  | (.ok q, s') => check q s'
  | (.error _, _) => false

theorem exists_of_builds {s : Session} {opts : Options} {body : List Command}
    {check : Sequencer → Session → Bool} (h : builds s opts body check = true) :
    ∃ q s', build s opts body = (.ok q, s') ∧ check q s' = true := by
  unfold builds at h
  split at h
  · next q s' hbuild => exact ⟨q, s', hbuild, h⟩
  · cases h

/-- Whether a program is accepted and runs, on stimuli that drive nothing made for it, into a state
that passes the check. -/
def runsInto (s : Session) (opts : Options) (body : List Command) (stimuli : List Stimulus)
    (check : Sequencer → Session → Sim → Bool) : Bool :=
  (accept? s opts body).any fun (q, s') =>
    stimuli.all (fun
      | .drive name _ => (drives s'.module name).all (! (q.made s'.functions).contains ·)
      | .tick => true) &&
    (Sim.play s'.module stimuli).toOption.any (check q s')

theorem exists_of_runsInto {s : Session} {opts : Options} {body : List Command}
    {stimuli : List Stimulus} {check : Sequencer → Session → Sim → Bool}
    (h : runsInto s opts body stimuli check = true) :
    ∃ q s' sim, Accepted s opts body q s' ∧ Sim.play s'.module stimuli = .ok sim ∧
      Undriven q s'.functions s'.module stimuli ∧ check q s' sim = true := by
  obtain ⟨⟨q, s'⟩, hacc, hrun⟩ := (Option.any_eq_true ..).mp h
  simp only [Bool.and_eq_true, List.all_eq_true] at hrun
  obtain ⟨hfree, hcheck⟩ := hrun
  obtain ⟨sim, hplay, hc⟩ := exists_of_any hcheck
  refine ⟨q, s', sim, .of_accept? hacc, hplay, fun name v i hmem hi => ?_, hc⟩
  have hout := hfree _ hmem
  simpa [hi] using hout

/-- A module with a clock, a start and a reset input, and a sum. -/
def sumTop : Module :=
  let (clk, m) := ({ name := "top" } : Module).addPort "clk" .input .bit
  let (_, m) := m.addPort "go" .input .bit
  let (_, m) := m.addPort "rst" .input .bit
  let (_, m) := m.addReg "acc" (.unsigned 8)
  { m with clock := some { signal := some clk } }

def sumOptions (encoding : Encoding) : Options :=
  { start := .ref 1, reset := .ref 2, clock := some { signal := some 0 }, encoding }

/-- Adds up the numbers from four down. The call for zero is one too many for the stack. -/
def sumBody : List Command :=
  [.define "sum" 4 none none
    [.ifThen (.relate .gt (.arg 0) (.number 0 8))
      [.assign "acc" (.bin .add (.signal "acc") (.arg 0)),
       .call "sum" [.bin .sub (.arg 0) (.number 1 8)] none]],
   .call "sum" [.number 4 8] none]

theorem sumBody_inner : Command.terminate ∉ Command.innerAll sumBody := by
  simp [sumBody, Command.innerAll, Command.inner, Command.withinAll, Command.within,
    Command.withinHandler]

/-- One start pulse, and some ticks after it. -/
def sumStimuli (ticks : Nat) : List Stimulus :=
  [.drive "go" 1, .tick, .drive "go" 0] ++ List.replicate ticks .tick

/-! ## One tick -/

/-- A tick is a step of the machine, with an edge before or after it that leaves alone what was made
for the program. -/
theorem Grounded.tick (hg : Grounded q fs M) {sim next : Sim} (hm : sim.module = M)
    (hrest : Resting M sim.state) (he : sim.respond .tick = .ok next) :
    ∃ edge s', q.machine.stepsOn edge = true ∧ Resting M (q.machine.stepState sim) ∧
      Fires M edge (q.machine.stepState sim) s' ∧
      (∀ d ∈ q.made fs, d ≠ q.machine.next →
        State.SameAt (q.machine.stepState sim) sim.state d) ∧
      ∀ d ∈ q.made fs, d ≠ q.machine.next → State.SameAt next.state s' d := by
  obtain ⟨others, hin, hfree⟩ := hg.installed
  obtain ⟨edge, s', hstep, hs, hfires, hsame⟩ := hin.tick hg.clock hm hrest he
  exact ⟨edge, s', hstep, hs, hfires, fun d hd hne => (hsame d (fun p hp => hfree p hp d hd) hne).1,
    fun d hd hne => (hsame d (fun p hp => hfree p hp d hd) hne).2⟩

/-! ## The state register -/

/-- Control in place is in a state, or past the last one where that place has a code. -/
theorem InPlace.register (hg : Grounded q fs M) (hp : Plan escapes q fs M.symbols L)
    {live : List Activation} {s : Sim.State} (h : InPlace escapes q.machine L live s) :
    (∃ k, q.machine.At s k) ∨ (q.machine.encoding ≠ .oneHot ∧
      (s.read q.machine.current).toNat = q.machine.size ∧ q.machine.Astray s) := by
  obtain ⟨others, hin, -⟩ := hg.installed
  rcases h.cases hg hp with ⟨k, -, hat, -⟩ | ⟨hno, -⟩
  · exact .inl ⟨k, hat⟩
  · obtain ⟨j, o, hj, -, hread⟩ := h
    have hcount := hin.sized.countable.index
    have hlast : j = q.machine.size := by
      by_contra hne
      have hle := hj.le
      rw [← hp.size] at hle
      exact hno j (by omega) hread
    subst hlast
    have he : q.machine.encoding ≠ .oneHot := by
      intro he
      have hpos : 0 < q.machine.size := by
        rw [hp.size]
        exact (List.getElem?_eq_some_iff.mp hp.first).1
      rw [code_size_bit he hg.fallback hpos] at hread
      exact hno 0 hpos hread
    refine .inr ⟨he, ?_, hno⟩
    rw [hread, Word.toNat_ofUInt64, code_index he (by omega)]

/-- A computed target is read from the top of a stack, which holds the code of a place. -/
theorem Live.computed_target {live : List Activation} {s : Sim.State}
    (h : Live escapes q fs M.symbols L live s) (hg : Grounded q fs M)
    (hp : Plan escapes q fs M.symbols L) (hplace : InPlace escapes q.machine L live s) {k : Nat}
    (hat : q.machine.At s k) {st : Machine.State} (hst : q.machine.states[k]? = some st)
    {t : Transition Expr} (ht : t ∈ st.gotos) {e : Expr}
    (he : t.target = some (.computed e) ∨ t.otherwise = some (.computed e)) :
    ∃ j ≤ q.machine.size, eval M.symbols s e = Word.ofUInt64 (q.machine.code j) := by
  obtain ⟨others, hin, -⟩ := hg.installed
  rcases hplace.cases hg hp with ⟨k', site, hat', hsite, ho⟩ | ⟨hno, -⟩
  · obtain rfl := hat.unique hin.sized.countable hat'
    have hs := hp.sites k site st hsite hst
    obtain ⟨owner, role⟩ := site
    cases role with
    | idle =>
      rw [hs.2.1, List.mem_singleton] at ht
      subst ht
      simp [waitFor, Transition.branch] at he
    | plain =>
      obtain ⟨j, hj, -⟩ := (hs.2.2 t ht).2 _ he
      simp [Target.place?] at hj
    | call r args request resume =>
      obtain ⟨inst, link, entry, skip, -, -, -, -, hgotos, -⟩ := hs
      rw [hgotos, List.mem_singleton] at ht
      subst ht
      simp [Transition.branch] at he
    | ret =>
      obtain ⟨r, inst, before, rfl, hi, -, -, hgotos⟩ := hs
      rw [hgotos, List.mem_singleton] at ht
      subst ht
      obtain rfl : e = .index inst.returnAddr (stackTop inst) := by
        simpa [Instance.leave, Transition.jump, eq_comm] using he
      obtain ⟨a, rest, rfl, rfl⟩ := ho.body _ rfl
      obtain ⟨⟨o, hreach, -⟩, -⟩ := h.returns
      have hholds := h.holds _ _ hi
      rw [activationsOf_cons_self] at hholds
      exact ⟨a.resume, hp.size ▸ hreach.le,
        hholds.eval_leave (hg.stacked _ _ hi) hin.sized (hg.code_lt hp hreach.le)⟩
  · exact absurd hat.2 (hno k hat.1)

/-- After the first tick the state register holds the code of one state, or the number of states if
codes are indices, and then the next tick goes to the end state. A one-hot register has one bit set.
What a return state reads as its target is the code of a state, or of the place after the last
one. -/
theorem Accepted.single_active_state {s s' : Session} {opts : Options} {body : List Command}
    (h : Accepted s opts body q s') (hM : Hosts q s' M) {stimuli : List Stimulus} {sim : Sim}
    (hplay : Sim.play M stimuli = .ok sim) (hdrive : Undriven q s'.functions M stimuli)
    (htick : .tick ∈ stimuli) :
    ((∃! i, q.machine.At sim.state i) ∨
      (q.machine.encoding ≠ .oneHot ∧
        (sim.state.read q.machine.current).toNat = q.machine.size ∧
        ∀ next, sim.respond .tick = .ok next → q.machine.At next.state 0)) ∧
    (q.machine.encoding = .oneHot →
      ∃! b, (sim.state.read q.machine.current).getLsbD b = true) ∧
    ∀ k st t e, q.machine.At sim.state k → q.machine.states[k]? = some st → t ∈ st.gotos →
      t.target = some (.computed e) ∨ t.otherwise = some (.computed e) →
      ∃ j ≤ q.machine.size, eval M.symbols sim.state e = Word.ofUInt64 (q.machine.code j) := by
  obtain ⟨L, hp, hg⟩ := h.grounded hM
  obtain ⟨others, hin, -⟩ := hg.installed
  obtain ⟨hlive, hplace⟩ := Live.run hg hp hplay hdrive
  replace hplace := hplace.resolve_right fun hnone =>
    q.machine.history_ne_nil hplay htick hnone.1
  have hone : ∀ {k}, q.machine.At sim.state k → ∃! i, q.machine.At sim.state i := fun hat =>
    ⟨_, hat, fun _ hat' => hat'.unique hin.sized.countable hat⟩
  refine ⟨?_, fun he => ?_, fun k st t e hat hst ht htarget =>
    hlive.computed_target hg hp hplace hat hst ht htarget⟩
  · rcases hplace.register hg hp with ⟨k, hat⟩ | ⟨he, hsize, hno⟩
    · exact .inl (hone hat)
    · refine .inr ⟨he, hsize, fun next hnext => ?_⟩
      obtain ⟨hm, hrest⟩ := Resting.of_play hplay
      obtain ⟨edge, s₁, hstep, hrest₀, hfires, hbefore, hafter⟩ := hg.tick hm hrest hnext
      have hcur : q.machine.current ∈ q.made s'.functions := Sequencer.mem_made.mpr (.inl rfl)
      have hno₀ : q.machine.Astray (q.machine.stepState sim) := fun i hi hx =>
        hno i hi ((hbefore _ hcur hin.apart).read.symm.trans hx)
      refine ⟨hp.size ▸ (List.getElem?_eq_some_iff.mp hp.first).1, ?_⟩
      rw [(hafter _ hcur hin.apart).read, hg.leaves_astray hrest₀ hfires.strikes hstep hno₀]
  · rcases hplace.register hg hp with ⟨k, hat⟩ | ⟨hne, -⟩
    · have hbit := hat.getLsbD hin.sized.countable he
      exact ⟨k, by simp [hbit], fun b hb => by simpa [hbit] using hb⟩
    · exact absurd he hne

/-- The fourth activation of the sum runs in the fifth state. -/
theorem sum_single_active_state :
    ∃ q s' sim, Accepted { module := sumTop } (sumOptions .oneHot) sumBody q s' ∧
      Sim.play s'.module (sumStimuli 13) = .ok sim ∧ q.machine.encoding = .oneHot ∧
      sim.state.read q.machine.current = 16 ∧
      (∃! b, (sim.state.read q.machine.current).getLsbD b = true) ∧
      ∀ k st t e, q.machine.At sim.state k → q.machine.states[k]? = some st → t ∈ st.gotos →
        t.target = some (.computed e) ∨ t.otherwise = some (.computed e) →
        ∃ j ≤ q.machine.size,
          eval s'.module.symbols sim.state e = Word.ofUInt64 (q.machine.code j) := by
  have hrun : runsInto { module := sumTop } (sumOptions .oneHot) sumBody (sumStimuli 13)
      (fun q _ sim => q.machine.encoding == .oneHot &&
        sim.state.read q.machine.current == 16) = true := by decide +kernel
  obtain ⟨q, s', sim, hacc, hplay, hdrive, hc⟩ := exists_of_runsInto hrun
  simp only [Bool.and_eq_true, beq_iff_eq] at hc
  obtain ⟨-, hbit, htargets⟩ :=
    hacc.single_active_state (.refl q s') hplay hdrive (by decide)
  exact ⟨q, s', sim, hacc, hplay, hc.1, hc.2, hbit hc.1, htargets⟩

/-! ## The stacks -/

/-- The live activations after a run. -/
def liveAt (q : Sequencer) (fs : Array Function) (M : Module) (L : List (Site Nat))
    (stimuli : List Stimulus) : List Activation :=
  liveAfter q fs M.symbols L (q.machine.history M stimuli)

/-- The stacks after a run, and what the next tick makes of them. -/
structure Disciplined (q : Sequencer) (fs : Array Function) (M : Module) (L : List (Site Nat))
    (stimuli : List Stimulus) (sim : Sim) : Prop where
  /-- The pointer counts the live activations of an instance, and the words below it are their
  return addresses and arguments. -/
  holds : ∀ r inst, q.Has fs r inst →
    StackHolds q.machine M.symbols inst (activationsOf (liveAt q fs M L stimuli) r) sim.state
  /-- The formals of a body stand for the arguments of its newest activation. -/
  formals : ∀ r inst older a, q.Has fs r inst →
    activationsOf (liveAt q fs M L stimuli) r = older ++ [a] →
    ∀ (i : Nat) mem, inst.args[i]? = some mem →
      a.args[i]? = some (eval M.symbols sim.state (.index mem (stackTop inst)))
  /-- A return goes back to the state after the newest live call, and takes that one away. -/
  returns : ∀ k r next, q.machine.At sim.state k → L[k]? = some ⟨some r, .ret⟩ →
    sim.respond .tick = .ok next → q.machine.resets M.symbols (q.machine.stepState sim) = false →
    ∃ a, a.callee = r ∧
      liveAt q fs M L stimuli = a :: liveAt q fs M L (stimuli ++ [.tick]) ∧
      next.state.read q.machine.current = Word.ofUInt64 (q.machine.code a.resume)
  /-- A call on a full stack writes nothing and goes to the state that skips the body. -/
  overflows : ∀ k owner r args request resume inst st next, q.machine.At sim.state k →
    L[k]? = some ⟨owner, .call r args request resume⟩ → q.Has fs r inst →
    q.machine.states[k]? = some st →
    (sim.state.read inst.sp).toNat = inst.room M.symbols →
    sim.respond .tick = .ok next → q.machine.resets M.symbols (q.machine.stepState sim) = false →
    execBlock M.symbols (q.machine.stepState sim) st.body = [] ∧
      (∀ r' inst', q.Has fs r' inst' → ∀ d ∈ inst'.stack, State.SameAt next.state sim.state d) ∧
      liveAt q fs M L (stimuli ++ [.tick]) = liveAt q fs M L stimuli ∧
      ∃ entry skip : Nat,
        st.gotos = [.branch inst.roomTest (.state entry) (.state skip)] ∧
        next.state.read q.machine.current =
          Word.ofUInt64 (q.machine.code (q.machine.clamp skip))

theorem edgeValue_state {f : Machine} {g : Symbols} {s : Sim.State} {e : Edge} {id : Int}
    (he : e.target = some (.state id)) :
    f.edgeValue g s e = Word.ofUInt64 (f.code (f.clamp id)) := by
  simp [edgeValue, he, edgeIndex, targetIndex]

section Run

variable {stimuli : List Stimulus} {sim next : Sim}

/-- The live activations after one more tick. -/
theorem liveAt_tick (hplay : Sim.play M stimuli = .ok sim) (hnext : sim.respond .tick = .ok next) :
    liveAt q fs M L (stimuli ++ [.tick]) =
      stepLive q fs M.symbols L (liveAt q fs M L stimuli) (q.machine.stepState sim) := by
  rw [liveAt, q.machine.history_concat hplay hnext, if_pos rfl, liveAfter, List.foldl_concat]
  rfl

theorem Live.disciplined (hg : Grounded q fs M) (hp : Plan escapes q fs M.symbols L)
    (hplay : Sim.play M stimuli = .ok sim) (hdrive : Undriven q fs M stimuli) :
    Disciplined q fs M L stimuli sim := by
  obtain ⟨others, hin, -⟩ := hg.installed
  obtain ⟨hlive, hplace⟩ := Live.run hg hp hplay hdrive
  obtain ⟨hm, hrest⟩ := Resting.of_play hplay
  have hcur : q.machine.current ∈ q.made fs := Sequencer.mem_made.mpr (.inl rfl)
  have hnext : ∀ r inst, q.Has fs r inst → ∀ d ∈ inst.stack, d ≠ q.machine.next :=
    fun r inst hi d hd hx => (hg.machine_apart r inst hi).2 (hx ▸ hd)
  refine ⟨hlive.holds, fun r inst older a hi hlast i mem hmem => ?_,
    fun k r next hat hk htick hr => ?_,
    fun k owner r args request resume inst st next hat hk hi hst hfull htick hr => ?_⟩
  · have hholds := hlive.holds r inst hi
    rw [liveAt] at hlast
    rw [hlast] at hholds
    exact hholds.eval_formal (hg.stacked r inst hi) hmem
  · obtain ⟨edge, s₁, hstep, hrest₀, hfires, hbefore, hafter⟩ := hg.tick hm hrest htick
    have hat₀ : q.machine.At (q.machine.stepState sim) k :=
      ⟨hat.1, (hbefore _ hcur hin.apart).read.trans hat.2⟩
    have hlive₀ := hlive.same hbefore fun r inst hi => (hg.machine_apart r inst hi).2
    have hst := Array.getElem?_eq_getElem hat.1
    -- control is in the body of the newest activation
    have hin₀ := (hplace.resolve_right fun hno => hno.2 k hat.1 hat.2).cases hg hp
    obtain ⟨a, rest, hcons, ha⟩ : ∃ a rest, liveAfter q fs M.symbols L
        (q.machine.history M stimuli) = a :: rest ∧ a.callee = r := by
      rcases hin₀ with ⟨k', site, hat', hk', ho⟩ | ⟨hno, -⟩
      · obtain rfl := hat.unique hin.sized.countable hat'
        cases hk.symm.trans hk'
        exact ho.body r rfl
      · exact absurd hat.2 (hno k hat.1)
    obtain ⟨-, hread⟩ := hlive₀.ret hg hp hrest₀ hfires.strikes hstep hr hat₀ hst hk hcons ha
    refine ⟨a, ha, ?_, (hafter _ hcur hin.apart).read.trans hread⟩
    rw [liveAt_tick hplay htick, liveAt, hcons, stepLive, hr, if_neg Bool.false_ne_true,
      hat₀.index? hin.sized.countable, Option.bind_some, hk]
    rfl
  · obtain ⟨edge, s₁, hstep, hrest₀, hfires, hbefore, hafter⟩ := hg.tick hm hrest htick
    have hat₀ : q.machine.At (q.machine.stepState sim) k :=
      ⟨hat.1, (hbefore _ hcur hin.apart).read.trans hat.2⟩
    have hlive₀ := hlive.same hbefore fun r inst hi => (hg.machine_apart r inst hi).2
    have hroom : ¬ (liveAfter q fs M.symbols L (q.machine.history M stimuli)).countP
        (·.callee == r) < inst.room M.symbols := by
      rw [← length_activationsOf, ← (hlive.holds r inst hi).pointer]
      omega
    obtain ⟨hnone, hsame⟩ := hlive₀.call_full hg hp hfires.strikes hstep hr hat₀ hst hk hi hroom
    obtain ⟨inst', link, entry, skip, hi', -, -, -, hgotos, -⟩ := hp.sites k _ st hk hst
    obtain rfl := hi'.unique hi
    obtain ⟨e, hval, htarget⟩ :=
      hlive₀.call_edge hg hrest₀ hfires.strikes hstep hr hat₀ hst hi hgotos
    rw [if_neg hroom] at htarget
    refine ⟨hnone, fun r' inst' hi' d hd => ?_, ?_, entry, skip, hgotos, ?_⟩
    · have hne := hnext r' inst' hi' d hd
      exact (hafter d (hi'.mem_made hd) hne).trans
        ((hsame r' inst' hi' d hd).trans (hbefore d (hi'.mem_made hd) hne))
    · rw [liveAt_tick hplay htick, liveAt, stepLive, hr, if_neg Bool.false_ne_true,
        hat₀.index? hin.sized.countable, Option.bind_some, hk]
      simp only [hi.2, if_neg hroom]
    · rw [(hafter _ hcur hin.apart).read, hval, edgeValue_state htarget]

end Run

/-- The stacks of a program that terminates outside its functions only hold its live activations
along every run, and calls and returns keep to them. -/
theorem Accepted.stack_discipline {s s' : Session} {opts : Options} {body : List Command}
    (h : Accepted s opts body q s') (hbody : .terminate ∉ Command.innerAll body)
    (hM : Hosts q s' M) :
    ∃ L, Plan False q s'.functions M.symbols L ∧ ∀ stimuli sim,
      Sim.play M stimuli = .ok sim → Undriven q s'.functions M stimuli →
      Disciplined q s'.functions M L stimuli sim := by
  obtain ⟨L, hp, hg⟩ := h.grounded hM
  rw [eq_false hbody] at hp
  exact ⟨L, hp, fun _ _ hplay hdrive => Live.disciplined hg hp hplay hdrive⟩

/-- Before the call for zero all four places of the stack are taken, and after it they still are. -/
theorem sum_stack_discipline :
    ∃ q s' sim inst L, Accepted { module := sumTop } (sumOptions .binary) sumBody q s' ∧
      Command.terminate ∉ Command.innerAll sumBody ∧
      Sim.play s'.module (sumStimuli 13) = .ok sim ∧ q.machine.At sim.state 4 ∧
      q.Has s'.functions ⟨0, 0⟩ inst ∧ sim.state.read inst.sp = 4 ∧
      inst.room s'.module.symbols = 4 ∧
      Disciplined q s'.functions s'.module L (sumStimuli 13) sim := by
  have hrun : runsInto { module := sumTop } (sumOptions .binary) sumBody (sumStimuli 13)
      (fun q s' sim => q.functions.contains 0 && 4 < q.machine.size &&
        sim.state.read q.machine.current == Word.ofUInt64 (q.machine.code 4) &&
        (instance? s'.functions ⟨0, 0⟩).any fun inst =>
          sim.state.read inst.sp == 4 && inst.room s'.module.symbols == 4) = true := by
    decide +kernel
  obtain ⟨q, s', sim, hacc, hplay, hdrive, hc⟩ := exists_of_runsInto hrun
  simp only [Bool.and_eq_true, beq_iff_eq, List.contains_iff_mem, decide_eq_true_eq,
    Option.any_eq_true] at hc
  obtain ⟨⟨⟨hown, hsize⟩, hcur⟩, inst, hinst, hsp, hroom⟩ := hc
  obtain ⟨L, -, hdisc⟩ := hacc.stack_discipline sumBody_inner (.refl q s')
  exact ⟨q, s', sim, inst, L, hacc, sumBody_inner, hplay, ⟨hsize, hcur⟩, ⟨hown, hinst⟩, hsp, hroom,
    hdisc _ sim hplay hdrive⟩

/-! ## The end state -/

/-- Where only the outermost commands terminate the program, every stack is empty while it is
idle. -/
theorem Accepted.idle_stacks_empty {s s' : Session} {opts : Options} {body : List Command}
    (h : Accepted s opts body q s') (hbody : .terminate ∉ Command.innerAll body)
    (hM : Hosts q s' M) {stimuli : List Stimulus} {sim : Sim}
    (hplay : Sim.play M stimuli = .ok sim) (hdrive : Undriven q s'.functions M stimuli)
    (hidle : q.machine.At sim.state 0) :
    ∀ r inst, q.Has s'.functions r inst → sim.state.read inst.sp = 0 := by
  intro r inst hi
  obtain ⟨L, hp, hg⟩ := h.grounded hM
  obtain ⟨others, hin, -⟩ := hg.installed
  obtain ⟨hlive, hplace⟩ := Live.run hg hp hplay hdrive
  have hempty : liveAfter q s'.functions M.symbols L (q.machine.history M stimuli) = [] := by
    rcases (hplace.resolve_right fun hno => hno.2 0 hidle.1 hidle.2).cases hg hp with
      ⟨k, site, hat, hsite, ho⟩ | ⟨hno, -⟩
    · obtain rfl := hidle.unique hin.sized.countable hat
      cases hp.first.symm.trans hsite
      exact (ho.outside rfl).resolve_left hbody
    · exact absurd hidle.2 (hno 0 hidle.1)
  have hpointer := (hlive.holds r inst hi).pointer
  rw [hempty, activationsOf_nil, List.length_nil] at hpointer
  exact BitVec.eq_of_toNat_eq hpointer

/-- The sum is done and its stack is empty, although one call found no room. -/
theorem sum_idle_stacks_empty :
    ∃ q s' sim inst, Accepted { module := sumTop } (sumOptions .binary) sumBody q s' ∧
      Command.terminate ∉ Command.innerAll sumBody ∧
      Sim.play s'.module (sumStimuli 27) = .ok sim ∧ q.machine.At sim.state 0 ∧
      sim.state.read 3 = 10 ∧ q.Has s'.functions ⟨0, 0⟩ inst ∧ sim.state.read inst.sp = 0 := by
  have hrun : runsInto { module := sumTop } (sumOptions .binary) sumBody (sumStimuli 27)
      (fun q s' sim => q.functions.contains 0 && 0 < q.machine.size &&
        sim.state.read q.machine.current == Word.ofUInt64 (q.machine.code 0) &&
        sim.state.read 3 == 10 && (instance? s'.functions ⟨0, 0⟩).isSome) = true := by
    decide +kernel
  obtain ⟨q, s', sim, hacc, hplay, hdrive, hc⟩ := exists_of_runsInto hrun
  simp only [Bool.and_eq_true, beq_iff_eq, List.contains_iff_mem, decide_eq_true_eq,
    Option.isSome_iff_exists] at hc
  obtain ⟨⟨⟨⟨hown, hsize⟩, hcur⟩, hacc10⟩, inst, hinst⟩ := hc
  exact ⟨q, s', sim, inst, hacc, sumBody_inner, hplay, ⟨hsize, hcur⟩, hacc10, ⟨hown, hinst⟩,
    hacc.idle_stacks_empty sumBody_inner (.refl q s') hplay hdrive ⟨hsize, hcur⟩ _ _ ⟨hown, hinst⟩⟩

end Lockstep.Program
