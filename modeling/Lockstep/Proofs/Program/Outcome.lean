import Lockstep.Proofs.Program.Commands
import Lockstep.Proofs.Machine.Refinement

/-!
# The beginning and the end of elaboration

A program starts from its end state, which nothing belongs to. When all commands are elaborated,
return registers without a type get one, every return address gets the code of the state it stands
for, and the machine is built.
-/

namespace Lockstep.Program

variable {env : Env} {L : List (Site LinkId)} {c : Context}
variable {body : List Command} {s : Session} {assignable : String → Prop}

/-! ## The beginning -/

/-- Processes and names refer to signals that exist. -/
structure Session.Closed (s : Session) : Prop where
  processes : ∀ p ∈ s.module.processes.toList, ∀ i ∈ Stmt.blockDests p.body,
    i < s.module.symbols.signals.size
  names : ∀ p ∈ s.scope.bound ++ s.scope.loose, p.2 < s.module.symbols.signals.size

/-- The environment of a program that starts in `s`. -/
def Env.start (s : Session) (opts : Options) (body : List Command) (assignable : String → Prop) :
    Env where
  base := s.functions.size
  foreign := s.scope.functions.map Prod.fst
  assignable := assignable
  requests := fun name depth => ∃ x ∈ Command.withinAll body, x.asks = some (name, depth)
  escapes := .terminate ∈ Command.innerAll body
  machine := (draft s opts).draft.machine
  run := (draft s opts).draft.run

theorem draft_expands (s : Session) (opts : Options) :
    s.module.Expands (draft s opts).session.module :=
  ((s.module.newType_expands .bit).trans (Module.declareAt_expands ..)).trans
    (Module.declareAt_expands ..) |>.trans (Module.declare_expands ..)

/-- Register, wire and run flag come after all signals that were there. -/
theorem draft_signals (s : Session) (opts : Options) :
    (draft s opts).draft.machine.current = s.module.symbols.signals.size ∧
      (draft s opts).draft.machine.next = s.module.symbols.signals.size + 1 ∧
      (draft s opts).draft.run = s.module.symbols.signals.size + 2 ∧
      (draft s opts).session.module.symbols.signals.size = s.module.symbols.signals.size + 3 := by
  simp [draft, Machine.create, Module.addReg, Module.declare, Module.newType, Symbols.newType,
    Module.declareAt, Module.claimName, Symbols.newSignal]

/-- A fresh draft adds three signals, of one bit each. -/
theorem draft_symbols (s : Session) (opts : Options) : ∃ a b d : Signal,
    (draft s opts).session.module.symbols.signals =
      ((s.module.symbols.signals.push a).push b).push d ∧
    (draft s opts).session.module.symbols.types = (s.module.symbols.types.push .bit).push .bit ∧
    (draft s opts).draft.machine.type = s.module.symbols.types.size ∧
    (a.kind = .reg ∧ a.type = some s.module.symbols.types.size) ∧
    (b.kind = .wire ∧ b.type = some s.module.symbols.types.size) ∧
    (d.kind = .reg ∧ d.type = some (s.module.symbols.types.size + 1)) :=
  ⟨_, _, _, rfl, rfl, rfl, ⟨rfl, rfl⟩, ⟨rfl, rfl⟩, rfl, congrArg some (Array.size_push ..)⟩

/-- The state register is a register and the next-state wire a wire, of the type of state codes. -/
theorem draft_machine (s : Session) (opts : Options) : ∃ a b : Signal,
    (draft s opts).session.module.symbols.signals[(draft s opts).draft.machine.current]? = some a ∧
    (draft s opts).session.module.symbols.signals[(draft s opts).draft.machine.next]? = some b ∧
    (a.kind = .reg ∧ a.type = some (draft s opts).draft.machine.type) ∧
    b.kind = .wire ∧ b.type = some (draft s opts).draft.machine.type := by
  obtain ⟨a, b, d, hsig, -, htype, ha, hb, -⟩ := draft_symbols s opts
  obtain ⟨hc, hn, -, -⟩ := draft_signals s opts
  rw [htype, hc, hn, hsig]
  exact ⟨a, b, by grind, by grind, ha, hb⟩

theorem draft_placed (s : Session) (opts : Options) :
    (draft s opts).draft.machine.Placed (draft s opts).session.module := by
  obtain ⟨-, -, -, -, htypes, htype, -⟩ := draft_symbols s opts
  obtain ⟨a, b, ha, hb, ⟨-, hat⟩, -, hbt⟩ := draft_machine s opts
  obtain ⟨hc, hn, -, -⟩ := draft_signals s opts
  refine ⟨⟨a, ha, hat⟩, ⟨b, hb, hbt⟩, by simp [hc, hn], .bit, ?_⟩
  rw [htypes, htype]
  grind

/-- The run flag is a register of one bit. Its type comes after that of state codes. -/
theorem draft_flag (s : Session) (opts : Options) :
    ∃ x, (draft s opts).session.module.symbols.signals[(draft s opts).draft.run]? = some x ∧
      x.kind = .reg ∧ ∃ i, x.type = some i ∧
        (draft s opts).session.module.symbols.types[i]? = some (.unsigned 1) ∧
        s.module.symbols.types.size < i := by
  obtain ⟨a, b, d, hsig, htypes, -, -, -, hk, ht⟩ := draft_symbols s opts
  obtain ⟨-, -, hr, -⟩ := draft_signals s opts
  rw [hsig, htypes, hr]
  exact ⟨d, by grind, hk, _, ht, by grind [SignalType.bit], Nat.lt_succ_self _⟩

/-- There are no instances before the program defines a function. -/
theorem Env.Has.not_start {opts : Options} {r : InstanceRef} {inst : Instance} :
    ¬ (Env.start s opts body assignable).Has s.functions r inst := by
  rintro ⟨hb, hi⟩
  obtain ⟨f, hf, -⟩ := Option.bind_eq_some_iff.mp hi
  exact Nat.not_lt.mpr hb (Array.getElem?_eq_some_iff.mp hf).1

theorem World.start (hs : s.Closed) (opts : Options) (body : List Command)
    (assignable : String → Prop) :
    World (.start s opts body assignable) s.functions (draft s opts).session.module s.scope := by
  obtain ⟨x, z, hx, hz, ⟨hkind, hxt⟩, hwire, hzt⟩ := draft_machine s opts
  obtain ⟨-, -, hne, hcode⟩ := draft_placed s opts
  obtain ⟨w, hw, hwkind, -⟩ := draft_flag s opts
  obtain ⟨hc, hn, -, -⟩ := draft_signals s opts
  refine ⟨⟨x, hx, hxt, hkind⟩, ⟨z, hz, hzt, hwire⟩, ⟨w, hw, hwkind⟩, hne, hcode,
    fun r inst hi => absurd hi Env.Has.not_start,
    fun r inst hi => absurd hi Env.Has.not_start, fun r r' inst inst' hi => absurd hi Env.Has.not_start,
    fun r r' inst inst' hi => absurd hi Env.Has.not_start,
    fun r inst hi => absurd hi Env.Has.not_start, fun r inst hi => absurd hi Env.Has.not_start,
    fun p hp => ?_, le_refl _, fun p hp hne => ?_, fun fn f hb hf => ?_⟩
  · have hlt := hs.names p hp
    refine ⟨hlt.trans_le (draft_expands s opts).symbols.size, ?_⟩
    rintro (hd | hd | ⟨r, inst, hi, -⟩)
    · exact Nat.ne_of_lt hlt (hd.trans hc)
    · exact Nat.ne_of_lt (hlt.trans (Nat.lt_succ_self _)) (hd.trans hn)
    · exact Env.Has.not_start hi
  · exact absurd (List.mem_map_of_mem hp) hne
  · exact absurd (Array.getElem?_eq_some_iff.mp hf).1 (Nat.not_lt.mpr hb)

theorem setRun_expands (run : SignalId) (v : UInt64) (m : Module) : m.Expands (setRun run v m).2 :=
  ⟨Symbols.newType_grows .., rfl⟩

/-- Puts `v` into the run flag, as a number of one bit. Its type is not among the first `low`. -/
def SetsRun (low : Nat) (g : Symbols) (run : SignalId) (v : UInt64) (st : Statement) : Prop :=
  ∃ t, low ≤ t ∧ g.types[t]? = some (.unsigned 1) ∧ st = .assign run none (.const v (some t))

/-- The run flag is set where `start` holds and cleared where it does not; without a start it is
set. -/
def TracksStart (low : Nat) (g : Symbols) (run : SignalId) (start : Expr) (sts : List Statement) :
    Prop :=
  (start = .hole ∧ ∃ st, SetsRun low g run 1 st ∧ sts = [st]) ∨
    (start ≠ .hole ∧ ∃ st st', SetsRun low g run 0 st ∧ SetsRun low g run 1 st' ∧
      sts = [st, .cond start [st'] []])

section

variable {low : Nat} {g g' : Symbols} {run : SignalId} {v : UInt64} {st : Statement}
variable {start : Expr} {sts : List Statement}

theorem setRun_sets (run : SignalId) (v : UInt64) (m : Module) :
    SetsRun m.symbols.types.size (setRun run v m).2.symbols run v (setRun run v m).1 :=
  ⟨_, le_refl _, Array.getElem?_push_size, rfl⟩

/-- It is enough that types from `low` on are kept. -/
theorem SetsRun.keep (h : SetsRun low g run v st)
    (hg : ∀ t, low ≤ t → g.types[t]? = some (.unsigned 1) → g'.types[t]? = some (.unsigned 1)) :
    SetsRun low g' run v st := by
  obtain ⟨t, hlow, ht, rfl⟩ := h
  exact ⟨t, hlow, hg t hlow ht, rfl⟩

theorem SetsRun.grow (h : SetsRun low g run v st) (hg : g.Grows g') : SetsRun low g' run v st :=
  h.keep fun t _ => hg.types t _

theorem SetsRun.weaken {low' : Nat} (h : SetsRun low g run v st) (hlow : low' ≤ low) :
    SetsRun low' g run v st := by
  obtain ⟨t, ht, hrest⟩ := h
  exact ⟨t, hlow.trans ht, hrest⟩

theorem TracksStart.keep (h : TracksStart low g run start sts)
    (hg : ∀ t, low ≤ t → g.types[t]? = some (.unsigned 1) → g'.types[t]? = some (.unsigned 1)) :
    TracksStart low g' run start sts := by
  rcases h with ⟨hs, st, hst, rfl⟩ | ⟨hs, st, st', hst, hst', rfl⟩
  · exact .inl ⟨hs, st, hst.keep hg, rfl⟩
  · exact .inr ⟨hs, st, st', hst.keep hg, hst'.keep hg, rfl⟩

theorem TracksStart.grow (h : TracksStart low g run start sts) (hg : g.Grows g') :
    TracksStart low g' run start sts := h.keep fun t _ => hg.types t _

/-- Only the run flag is assigned. -/
theorem TracksStart.dests (h : TracksStart low g run start sts) :
    ∀ i ∈ Stmt.blockDests sts, i = run := by
  rcases h with ⟨-, st, ⟨t, -, -, rfl⟩, rfl⟩ | ⟨-, st, st', ⟨t, -, -, rfl⟩, ⟨t', -, -, rfl⟩, rfl⟩
  · simp [Stmt.blockDests, Stmt.dests]
  · simp [Stmt.blockDests, Stmt.dests]

end

theorem Ensures.runDefaults (run : SignalId) (start : Expr) {c : Context} :
    Ensures (runDefaults run start) c fun sts c' => ∃ m, c.session.module.Expands m ∧
      TracksStart c.session.module.symbols.types.size m.symbols run start sts ∧
        c' = { c with session := { c.session with module := m } } := by
  set m := c.session.module
  have h₁ := fun v => setRun_expands run v m
  have h₂ := setRun_expands run 1 (setRun run 0 m).2
  simp only [Program.runDefaults, ensures_ite, ensures_ops]
  refine ⟨fun hs => ⟨_, h₁ 1, ?_, rfl⟩, fun hs => ⟨_, (h₁ 0).trans h₂, ?_, rfl⟩⟩
  · exact .inl ⟨hs, _, setRun_sets run 1 m, rfl⟩
  · refine .inr ⟨hs, _, _, (setRun_sets run 0 m).grow h₂.symbols, ?_, rfl⟩
    exact (setRun_sets run 1 (setRun run 0 m).2).weaken (h₁ 0).symbols.types_size

theorem Ensures.beginProgram (start : Expr) {c : Context} :
    Ensures (beginProgram start) c fun _ c' => c'.session.functions = c.session.functions ∧
      c'.session.scope = c.session.scope ∧ c.session.module.Expands c'.session.module ∧
      ∃ sts clear fault,
        TracksStart c.session.module.symbols.types.size c'.session.module.symbols c.draft.run start
          sts ∧
        SetsRun c.session.module.symbols.types.size c'.session.module.symbols c.draft.run 0 clear ∧
        c'.draft = { c.draft with machine := { c.draft.machine with
          states := c.draft.machine.states.push
            { name := "", gotos := [.branch (.ref c.draft.run) (.after c.draft.machine.size)
              (.state c.draft.machine.size)] }
          defaults := c.draft.machine.defaults ++ sts
          onReset := c.draft.machine.onReset ++ [clear]
          fault } } := by
  simp only [Program.beginProgram, Program.newState, ensures_ops]
  split
  · simp
  · next id f hnew =>
    obtain ⟨rfl, rfl⟩ := newState_ok hnew
    simp only [ensures_ops]
    refine (Ensures.runDefaults _ _).mono ?_
    rintro sts c₁ ⟨m, hm, hsts, rfl⟩
    obtain ⟨fault, hgoto⟩ := modifyState_eq
      { c.draft.machine with states := c.draft.machine.states.push { name := "" } }
      c.draft.machine.size "goto" fun s => { s with gotos := s.gotos ++
        [.branch (.ref c.draft.run) (.after c.draft.machine.size) (.state c.draft.machine.size)] }
    have hclear := setRun_expands c.draft.run 0 m
    refine ⟨rfl, rfl, hm.trans hclear, sts, _, fault, hsts.grow hclear.symbols,
      (setRun_sets c.draft.run 0 m).weaken hm.symbols.types_size, ?_⟩
    dsimp only [Context.reported]
    rw [Machine.addGoto, hgoto, Machine.size, modify_push_size]
    rfl

/-- The end state, before any command. -/
theorem Inv.start (hs : s.Closed) (opts : Options) (body : List Command)
    (assignable : String → Prop) :
    Ensures (Program.beginProgram opts.start) (draft s opts) fun _ c' =>
      Inv (.start s opts body assignable) [⟨none, .idle⟩] [] c' ∧
        Sized (.start s opts body assignable) (fun _ _ => False) [⟨none, .idle⟩] c' ∧
        c'.draft.building = [] ∧ s.module.Expands c'.session.module ∧
        c'.session.functions = s.functions := by
  refine (Ensures.beginProgram opts.start).mono ?_
  rintro _ c' ⟨hfs, hsc, hm, sts, clear, fault, hstart, ⟨t, -, -, rfl⟩, hd⟩
  have hsts := hstart.dests
  obtain ⟨hc, hn, hr, hsize⟩ := draft_signals s opts
  have hworld := (World.start hs opts body assignable).grow hm
  have hcur : (draft s opts).draft.run ≠ (draft s opts).draft.machine.current := by
    rw [hr, hc]
    exact Nat.ne_of_gt (by omega)
  have hnext : (draft s opts).draft.run ≠ (draft s opts).draft.machine.next := by
    rw [hr, hn]
    exact Nat.ne_of_gt (by omega)
  -- the run flag is an ordinary signal
  have hrun : (Env.start s opts body assignable).Clean s.functions c'.session.module.symbols
      (draft s opts).draft.run := by
    have hlt : (draft s opts).draft.run < (draft s opts).session.module.symbols.signals.size := by
      rw [hr, hsize]
      exact Nat.lt_succ_self _
    refine ⟨hlt.trans_le hm.symbols.size, .inl ?_⟩
    rintro (hd | hd | ⟨r, inst, hi, -⟩)
    · exact hcur hd
    · exact hnext hd
    · exact Env.Has.not_start hi
  have hzero : (draft s opts).draft.machine.size = 0 := rfl
  rw [hzero] at hd
  refine ⟨⟨⟨?_, ?_, ?_, ?_⟩, ?_⟩, ?_, by rw [hd]; rfl, (draft_expands s opts).trans hm, hfs⟩
  · rw [hfs, hsc]
    exact hworld
  · rw [hfs, hd]
    refine ⟨rfl, rfl, rfl, rfl, fun k site st hk hst => ?_, by simp,
      ?_, by simp [draft], by simp [draft],
      ⟨.empty none, rfl⟩, by simp [draft], by simp [draft], ?_, by simp [draft], ?_⟩
    · have hk0 : k = 0 := by
        have := (List.getElem?_eq_some_iff.mp hk).1
        simpa using this
      subst hk0
      cases hk
      cases hst
      exact ⟨rfl, rfl, .inr ⟨rfl, rfl⟩⟩
    · rintro k k' l ⟨owner, r, args, q, hk⟩
      rcases k with _ | k <;> simp at hk
    · rintro k r ⟨site, hk, ho⟩
      obtain ⟨hlt, rfl⟩ := List.getElem?_eq_some_iff.mp hk
      simp at ho
    · intro fn
      simp [draft, Env.start]
  · rw [hfs, hd]
    exact ⟨by simp [draft, Stmt.blockDests], by simp [draft]⟩
  · rw [hfs, hd]
    refine ⟨fun st hst => ?_, fun r inst hi => absurd hi Env.Has.not_start, fun i hi => ?_⟩
    · exact ⟨_, some t, List.mem_singleton.mp hst, .inl hrun⟩
    · rw [hsts i hi]
      exact hrun
  · rw [hfs]
    exact fun r inst hi => absurd hi Env.Has.not_start
  · rw [Sized, hfs]
    refine ⟨?_, fun r inst hi => absurd hi Env.Has.not_start, fun r inst f hi =>
      absurd hi Env.Has.not_start⟩
    rintro r q (hx | ⟨i, k, -, -, ⟨owner, args, back, hk⟩, -⟩)
    · exact absurd hx not_false
    · rcases k with _ | k <;> simp at hk

/-! ## The end -/

/-- Symbols were settled, and nothing else changed. -/
structure Settled (env : Env) (L : List (Site LinkId)) (c c' : Context) : Prop where
  inv : Inv env L [] c'
  depths : ∀ {asked}, Depths env asked c.session.functions c.session.module.symbols →
    Depths env asked c'.session.functions c'.session.module.symbols
  draft : c'.draft = c.draft
  functions : c'.session.functions = c.session.functions
  processes : c'.session.module.processes = c.session.module.processes

theorem Settled.trans {c' c'' : Context} (h : Settled env L c c') (h' : Settled env L c' c'') :
    Settled env L c c'' :=
  ⟨h'.inv, fun hd => h'.depths (h.depths hd), h'.draft.trans h.draft,
    h'.functions.trans h.functions, h'.processes.trans h.processes⟩

/-- Return registers without a type get one bit. -/
theorem Inv.settleReturn (h : Inv env L [] c) {r : InstanceRef} {inst : Instance}
    (hi : env.Has c.session.functions r inst) (f : Function) :
    Ensures (settleReturn f inst) c fun _ c' => Settled env L c c' := by
  obtain ⟨-, x, t, u, hx, hxt, hu, -, hcell⟩ := h.world.returns r inst hi
  have htype : c.session.module.symbols.signals[inst.ret]?.bind Signal.type = some t := by
    rw [hx, Option.bind_some, hxt]
  simp only [Program.settleReturn, ensures_ops, ensures_ite, htype, Option.forM]
  refine ⟨fun _ => ⟨?_, fun hd => hd.of_rooms fun _ _ _ => rfl, rfl, rfl, rfl⟩,
    fun _ => ⟨h, id, rfl, rfl, rfl⟩⟩
  refine h.advance rfl ⟨h.world.retype hcell (fun i hne => ?_) (by simp),
    .of_symbols rfl (fun _ => rfl) rfl, rfl, rfl, fun r inst hr => ⟨inst, hr, .refl inst, rfl⟩⟩
  rw [Array.getElem?_modify, if_neg (Ne.symm hne)]

theorem Inv.settleReturns (h : Inv env L [] c) :
    Ensures settleReturns c fun _ c' => Settled env L c c' := by
  rw [Program.settleReturns, ensures_bind, ensures_getDraft]
  refine Ensures.forM (P := Settled env L c) ⟨h, id, rfl, rfl, rfl⟩ fun fn hfn c₁ h₁ => ?_
  rw [ensures_bind, ensures_getFunction]
  obtain ⟨hbase, hlt⟩ := (h.code.functions fn).mp hfn
  refine Ensures.forM (P := Settled env L c) h₁ fun inst hinst c₂ h₂ => ?_
  obtain ⟨pos, hpos⟩ := List.getElem?_of_mem hinst
  rw [h₁.functions, Array.getElem?_eq_getElem hlt, Option.getD_some, Array.getElem?_toList] at hpos
  have hi : env.Has c₂.session.functions ⟨fn, pos⟩ inst := by
    refine ⟨hbase, ?_⟩
    rw [h₂.functions, instance?, Array.getElem?_eq_getElem hlt, Option.bind_some]
    exact hpos
  exact (h₂.inv.settleReturn hi _).mono fun _ c₃ h₃ => h₂.trans h₃

/-- Return addresses were given the codes of their states, and nothing else changed. -/
structure Relinked (f : Machine) (xs : List (LinkId × Nat)) (c c' : Context) : Prop where
  draft : c'.draft = c.draft
  functions : c'.session.functions = c.session.functions
  processes : c'.session.module.processes = c.session.module.processes
  signals : c'.session.module.symbols.signals = c.session.module.symbols.signals
  types : c'.session.module.symbols.types = c.session.module.symbols.types
  size : c'.session.module.symbols.links.size = c.session.module.symbols.links.size
  coded : ∀ l j, (l, j) ∈ xs → l < c.session.module.symbols.links.size →
    ∃ j', (l, j') ∈ xs ∧ c'.session.module.symbols.links[l]? = some (f.code j')
  links : ∀ l, (∀ j, (l, j) ∉ xs) →
    c'.session.module.symbols.links[l]? = c.session.module.symbols.links[l]?

theorem Relinked.of_setLinks (f : Machine) (xs : List (LinkId × Nat)) (c : Context) :
    Ensures (xs.forM fun (link, state) =>
      modifyModule (·.modifySymbols (·.setLink link (f.code state)))) c fun _ c' =>
        Relinked f xs c c' := by
  induction xs generalizing c with
  | nil =>
    rw [List.forM, ensures_pure]
    exact ⟨rfl, rfl, rfl, rfl, rfl, rfl, by simp, fun _ _ => rfl⟩
  | cons x xs ih =>
    obtain ⟨link, state⟩ := x
    rw [List.forM, ensures_bind, ensures_modifyModule]
    refine (ih _).mono ?_
    rintro _ c' ⟨hd, hf, hp, hsig, htypes, hsize, hin, hout⟩
    simp only [Module.modifySymbols, Symbols.setLink, Array.size_setIfInBounds] at hsize hin hout
    refine ⟨hd, hf, hp, hsig, htypes, hsize, fun l j hj hlt => ?_, fun l hl => ?_⟩
    · by_cases hmem : ∃ j', (l, j') ∈ xs
      · obtain ⟨j', hj'⟩ := hmem
        obtain ⟨i, hi, hcode⟩ := hin l j' hj' hlt
        exact ⟨i, List.mem_cons_of_mem _ hi, hcode⟩
      · obtain ⟨rfl, rfl⟩ : l = link ∧ j = state := by
          rcases List.mem_cons.mp hj with hj | hj
          · exact Prod.mk.inj hj
          · exact absurd ⟨j, hj⟩ hmem
        refine ⟨j, List.mem_cons_self, ?_⟩
        rw [hout l fun j' hj' => hmem ⟨j', hj'⟩]
        simp [hlt]
    · rw [hout l fun j hj => hl j (List.mem_cons_of_mem _ hj)]
      have hne : link ≠ l := fun hx => hl state (by simp [hx])
      simp [hne]

theorem Inv.setLink (h : Inv env L [] c) (link : LinkId) (v : UInt64) :
    Settled env L c { c with session := { c.session with
      module := c.session.module.modifySymbols (·.setLink link v) } } := by
  have hw : World env c.session.functions (c.session.module.modifySymbols (·.setLink link v))
      c.session.scope := h.world.congr_symbols (fun i x hx => ⟨x, hx, rfl, rfl⟩) (fun i t ht => ⟨t, ht⟩)
    fun r inst hi => (h.world.stacked r inst hi).congr (fun _ _ => rfl) rfl
  refine ⟨h.advance rfl ⟨hw, .of_symbols rfl (fun _ => rfl) ?_, rfl, rfl, fun r inst hr =>
    ⟨inst, hr, .refl inst, rfl⟩⟩, fun hd => hd.of_rooms fun _ _ _ => rfl, rfl, rfl, rfl⟩
  simp [Module.modifySymbols, Symbols.setLink]

/-- Every return address gets the code of its state; each has one state only. -/
theorem Inv.setLinks (f : Machine) (xs : List (LinkId × Nat)) (h : Inv env L [] c)
    (hlt : ∀ l j, (l, j) ∈ xs → l < c.session.module.symbols.links.size)
    (hone : ∀ l j j', (l, j) ∈ xs → (l, j') ∈ xs → j = j') :
    Ensures (xs.forM fun (link, state) =>
      modifyModule (·.modifySymbols (·.setLink link (f.code state)))) c fun _ c' =>
        Settled env L c c' ∧
          (∀ l j, (l, j) ∈ xs → c'.session.module.symbols.links[l]? = some (f.code j)) ∧
          Relinked f xs c c' := by
  refine ((Ensures.forM (P := Settled env L c) ⟨h, id, rfl, rfl, rfl⟩ fun x _ c₁ h₁ => ?_).and
    (Relinked.of_setLinks f xs c)).mono ?_
  · rw [ensures_modifyModule]
    exact h₁.trans (h₁.inv.setLink x.1 (f.code x.2))
  · rintro _ c' ⟨hs, hre⟩
    refine ⟨hs, fun l j hj => ?_, hre⟩
    obtain ⟨j', hj', hcode⟩ := hre.coded l j hj (hlt l j hj)
    rw [hcode, hone l j j' hj hj']

theorem Laid.link_lt {opens : List Nat} (h : Laid env L opens c) {k : Nat} {l : LinkId}
    (hk : CallsBy L k l) : l < c.session.module.symbols.links.size := by
  obtain ⟨owner, r, args, q, hk⟩ := hk
  have hlt : k < c.draft.machine.states.size :=
    h.code.size ▸ (List.getElem?_eq_some_iff.mp hk).1
  obtain ⟨-, -, -, hlink, -⟩ := h.code.sites k _ _ hk (Array.getElem?_eq_getElem hlt)
  exact hlink

theorem Inv.finishProgram (h : Inv env L [] c) :
    Ensures finishProgram c fun _ c' => ∃ c₁, Settled env L c c₁ ∧
      Relinked c.draft.machine c.draft.resumes c c₁ ∧
      (∀ l j, (l, j) ∈ c.draft.resumes →
        c₁.session.module.symbols.links[l]? = some (c.draft.machine.code j)) ∧
      c₁.draft.machine.build c₁.session.module =
        (none, c'.draft.machine, c'.session.module) ∧
      c'.session.functions = c₁.session.functions ∧ c'.draft.functions = c₁.draft.functions ∧
      c'.draft.run = c₁.draft.run ∧ c'.draft.name = c₁.draft.name := by
  simp only [Program.finishProgram, ensures_ops]
  refine (h.setLinks c.draft.machine c.draft.resumes (fun l j hj => ?_)
    fun l j j' hj hj' => ?_).mono ?_
  · obtain ⟨k, hk, -⟩ := h.code.resumes l j hj
    exact h.link_lt hk
  · exact h.code.resumes_unique l j j' hj hj'
  · rintro _ c₂ ⟨h₂, hlinks, hre⟩
    simp only [buildDraft, ensures_ops]
    split
    · simp
    · next hb =>
      simp only [ensures_ops]
      have hnone := Option.eq_none_iff_forall_ne_some.mpr fun e he => hb e he
      exact ⟨c₂, h₂, hre, hlinks, Prod.ext hnone rfl, rfl, rfl, rfl, rfl⟩

/-- A program that was elaborated in `s`, with all its states. -/
structure Prepared (s : Session) (opts : Options) (body : List Command)
    (assignable : String → Prop) (L : List (Site LinkId)) (c : Context) : Prop
    extends Inv (Env.start s opts body assignable) L [] c where
  depths : Depths (Env.start s opts body assignable) (Asks L []) c.session.functions
    c.session.module.symbols
  building : c.draft.building = []
  processes : c.session.module.processes = s.module.processes
  before : ∀ i < s.module.symbols.signals.size,
    ¬ (Env.start s opts body assignable).Made c.session.functions i

/-- The same, right before its machine is built. -/
structure Elaborated (s : Session) (opts : Options) (body : List Command)
    (assignable : String → Prop) (L : List (Site LinkId)) (c : Context) : Prop
    extends Prepared s opts body assignable L c where
  resumes : ∀ l j, (l, j) ∈ c.draft.resumes →
    c.session.module.symbols.links[l]? = some (c.draft.machine.code j)

/-- What comes of the commands of a program. -/
theorem Prepared.of_prepare (hs : s.Closed) (opts : Options)
    (hbody : ∀ x ∈ body, (Env.start s opts body assignable).Tame false x) :
    Ensures (prepare opts body) (draft s opts) fun _ c =>
      ∃ L, Prepared s opts body assignable L c := by
  simp only [Program.prepare, ensures_bind]
  refine (Inv.start hs opts body assignable).mono ?_
  rintro _ c₁ ⟨h₁, hs₁, hb₁, hm₁, hf₁⟩
  have hin : Inside false c₁ := fun _ => hb₁
  refine ((Keeps.performAll (callWithin_keeps _) _ _ hbody).run h₁ hin).mono ?_
  rintro _ c₂ ⟨L₂, h₂⟩
  refine (Keeps.stepIfWaiting.run h₂.inv (h₂.stays hin)).mono ?_
  rintro _ c₃ ⟨L₃, h₃⟩
  refine h₃.inv.settleReturns.mono ?_
  rintro _ c₄ h₄
  have hk := h₂.trans h₃
  have hbuilding : c₃.draft.building = [] := hk.building.trans hb₁
  refine ⟨L₃, h₄.inv, h₄.depths ?_, ?_, ?_, fun i hi hmade => ?_⟩
  · have hs₃ := hk.depths hs₁
    rw [Sized, hbuilding] at hs₃
    exact hs₃.reask (fun r q hr => hr.resolve_left not_false) fun r q hr => .inl (.inr hr)
  · rw [h₄.draft, hbuilding]
  · rw [h₄.processes, hk.processes, hm₁.processes]
  · rw [h₄.functions] at hmade
    have hstart := hk.widens.made i (hi.trans_le hm₁.symbols.size) hmade
    rw [hf₁] at hstart
    obtain ⟨hc, hn, -⟩ := draft_signals s opts
    rcases hstart with he | he | ⟨r, inst, hr, -⟩
    · exact Nat.ne_of_lt hi (he.trans hc)
    · exact Nat.ne_of_lt (hi.trans (Nat.lt_succ_self _)) (he.trans hn)
    · exact Env.Has.not_start hr

/-- What comes of a whole program. -/
theorem Elaborated.of_elaborate (hs : s.Closed) (opts : Options)
    (hbody : ∀ x ∈ body, (Env.start s opts body assignable).Tame false x) :
    Ensures (elaborate opts body) (draft s opts) fun q c' => ∃ L c,
      Elaborated s opts body assignable L c ∧
      (∃ c₁, (prepare opts body).run (draft s opts) = .ok () c₁ ∧
        Relinked c₁.draft.machine c₁.draft.resumes c₁ c) ∧
      c.draft.machine.build c.session.module = (none, q.machine, c'.session.module) ∧
      c'.session.functions = c.session.functions ∧ q.functions = c.draft.functions ∧
      q.run = c.draft.run ∧ q.name = c.draft.name := by
  simp only [Program.elaborate, ensures_ops]
  intro _ c₁ hprep
  obtain ⟨L, h₁⟩ := Prepared.of_prepare hs opts hbody _ _ hprep
  refine h₁.toInv.finishProgram.mono ?_
  rintro _ c₃ ⟨c₂, h₂, hre, hlinks, hbuild, hf, hfn, hrun, hname⟩
  refine ⟨L, c₂, ⟨⟨h₂.inv, h₂.depths h₁.depths, ?_, ?_, fun i hi hmade => ?_⟩, ?_⟩,
    ⟨c₁, hprep, hre⟩, hbuild, hf, hfn, hrun, hname⟩
  · rw [h₂.draft, h₁.building]
  · rw [h₂.processes, h₁.processes]
  · rw [h₂.functions] at hmade
    exact h₁.before i hi hmade
  · rw [h₂.draft]
    exact hlinks

end Lockstep.Program
