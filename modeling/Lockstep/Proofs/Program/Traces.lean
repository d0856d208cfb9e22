import Lockstep.Proofs.Program.Budget
import Lockstep.Proofs.Program.Outcome
import Lockstep.Proofs.Program.Threads

/-!
# What elaborations do

Every elaboration threads the points of its course. The steps between them are quiet, and each point
has its effect. If an elaboration fails, it does so after the last point, or at it, and the error is
reported. After the course, the program is finished: registers that nothing was returned to get a
type, return addresses get their codes, and the machine is built.
-/

namespace Lockstep.Program

variable {c : Context} {k : Core} {s : Session} {α : Type}

/-! ## Failures -/

section

variable {α β : Type} {c : Context} {E : Error → Context → Prop}
variable {r : InstanceRef}

/-- Where `x` fails from `c`, its error and the context that is left satisfy `E`. -/
def Fails (x : ElabM α) (c : Context) (E : Error → Context → Prop) : Prop :=
  ∀ e c', x.run c = .error e c' → E e c'

@[simp] theorem ensures_true {x : ElabM α} : Ensures x c fun _ _ => True := fun _ _ _ => trivial

@[simp] theorem fails_pure {a : α} : Fails (pure a) c E := fun _ _ h => nomatch h

@[simp] theorem fails_bind {x : ElabM α} {f : α → ElabM β} :
    Fails (x >>= f) c E ↔ Fails x c E ∧ Ensures x c fun a c' => Fails (f a) c' E := by
  simp only [Fails, Ensures, EStateM.run, bind, EStateM.bind]
  cases hx : x c with
  | ok a c' | error e c' => simp

@[simp] theorem fails_map {x : ElabM α} {f : α → β} : Fails (f <$> x) c E ↔ Fails x c E := by
  simp only [← bind_pure_comp, fails_bind, fails_pure, and_iff_left_iff_imp]
  exact fun _ _ _ _ => trivial

@[simp] theorem fails_get : Fails get c E := fun _ _ h => nomatch h

@[simp] theorem fails_getDraft : Fails getDraft c E := fun _ _ h => nomatch h

@[simp] theorem fails_getModule : Fails getModule c E := fun _ _ h => nomatch h

@[simp] theorem fails_getSymbols : Fails getSymbols c E := fun _ _ h => nomatch h

@[simp] theorem fails_getFunction {fn : Nat} : Fails (getFunction fn) c E := fun _ _ h => nomatch h

@[simp] theorem fails_getInstance : Fails (getInstance r) c E := fun _ _ h => nomatch h

@[simp] theorem fails_modify {f : Context → Context} : Fails (modify f) c E := fun _ _ h => nomatch h

@[simp] theorem fails_modifySession {f : Session → Session} : Fails (modifySession f) c E :=
  fails_modify

@[simp] theorem fails_modifyDraft {f : Draft → Draft} : Fails (modifyDraft f) c E := fails_modify

@[simp] theorem fails_modifyModule {f : Module → Module} : Fails (modifyModule f) c E := fails_modify

@[simp] theorem fails_modifyMachine {f : Machine → Machine} : Fails (modifyMachine f) c E :=
  fails_modify

@[simp] theorem fails_modifyTop {f : Frame → Frame} : Fails (modifyTop f) c E := fails_modify

@[simp] theorem ensures_modifyInstance {f : Instance → Instance} {Q : Unit → Context → Prop} :
    Ensures (modifyInstance r f) c Q ↔ Q () { c with session := { c.session with
      functions := c.session.functions.modify r.function fun fn =>
        { fn with instances := fn.instances.modify r.position f } } } := by
  unfold modifyInstance modifyFunction
  exact ensures_modifySession

@[simp] theorem fails_modifyInstance {f : Instance → Instance} :
    Fails (modifyInstance r f) c E := fails_modify

@[simp] theorem fails_modifyFunction {fn : Nat} {f : Function → Function} :
    Fails (modifyFunction fn f) c E := fails_modify

@[simp] theorem fails_note {place message : String} : Fails (note place message) c E := fails_modify

@[simp] theorem fails_record {command : String} {fact : Fact} : Fails (record command fact) c E :=
  fails_modify

@[simp] theorem fails_fail {e : Error} :
    Fails (fail (α := α) e) c E ↔ E e (c.reported (·.error c.draft.name e.message)) := by
  simp only [Fails, fail, EStateM.run, bind, EStateM.bind]
  constructor
  · exact fun h => h e _ rfl
  · intro h e' c' hrun
    obtain ⟨rfl, rfl⟩ := EStateM.Result.error.inj hrun
    exact h

@[simp] theorem fails_declare {f : Module → SignalId × Module} : Fails (declare f) c E := by
  simp [declare]

/-- Steps that never fail never fail one after the other. -/
theorem fails_mapM {f : α → ElabM β} (hf : ∀ a c, Fails (f a) c E) :
    ∀ (xs : List α) (c : Context), Fails (xs.mapM f) c E
  | [], c => by simp
  | x :: xs, c => by
    rw [List.mapM_cons, fails_bind]
    refine ⟨hf x c, fun b c₁ _ => ?_⟩
    simp only [fails_bind, fails_pure, ensures_true, and_true]
    exact fails_mapM hf xs c₁

theorem fails_forM {f : α → ElabM PUnit} (hf : ∀ a c, Fails (f a) c E) :
    ∀ (xs : List α) (c : Context), Fails (xs.forM f) c E
  | [], _ => fails_pure
  | x :: xs, c => fails_bind.mpr ⟨hf x c, fun _ c₁ _ => fails_forM hf xs c₁⟩

@[simp] theorem fails_ite {p : Prop} [Decidable p] {x y : ElabM α} :
    Fails (if p then x else y) c E ↔ (p → Fails x c E) ∧ (¬ p → Fails y c E) := by
  by_cases h : p <;> simp [h]

theorem Reads.fails {x : ElabM α} (hx : Reads x) (h : ∀ cause, E (.script cause) c) :
    Fails x c E := by
  intro e c' hrun
  have hc := hx c
  rw [hrun] at hc
  obtain ⟨rfl, cause, rfl⟩ := hc
  exact h cause

end

/-! ## Runs -/

/-- A run threads its points, up to the one that it stops at. -/
def Traces (base : Symbols) : Judgement := fun _ x c t => c.core.Sound base →
  (Ensures x c fun _ c' => Threads base c.core t c'.core) ∧
    Fails x c fun e c' => Stops base c.core t e c'.core

/-- What a step leaves that fails with `e`: the error is reported, and nothing else. -/
def Context.Halts (c : Context) (e : Error) (c' : Context) : Prop :=
  c'.core = c.core.halt e ∧ e ≠ .endless

theorem errors_noted {s' : Session} {place message : String}
    (h : s'.reporter = s.reporter.map (·.note place message)) : s'.errors = s.errors := by
  simp only [Session.errors, h, Option.map_map]
  congr 1
  funext r
  exact r.errors_note place message

theorem core_noted (c : Context) (place message : String) :
    (c.reported (·.note place message)).core = c.core := by
  have herrors : (c.reported (·.note place message)).session.errors = c.session.errors :=
    errors_noted rfl
  simp only [Context.core, herrors]
  rfl

theorem halts_failed (c : Context) {e : Error} (he : e.isRefusal = true) :
    c.Halts e (c.reported (·.error c.draft.name e.message)) := by
  have herrors : (c.reported (·.error c.draft.name e.message)).session.errors =
      c.session.errors.map (· ++ [⟨.error, c.draft.name, e.message⟩]) := by
    simp only [Context.reported, Session.errors, Option.map_map]
    congr 1
    funext r
    exact r.errors_error c.draft.name e.message
  refine ⟨?_, fun h => by simp [h, Error.isRefusal] at he⟩
  simp only [Core.halt, he, if_true, Context.core, herrors]
  rfl

theorem Reads.halts {x : ElabM α} (hx : Reads x) (c : Context) : Fails x c c.Halts :=
  hx.fails fun _ => ⟨rfl, fun h => nomatch h⟩

theorem Ensures.of_reads {x : ElabM α} {Q : α → Context → Prop} (hx : Reads x) (h : ∀ a, Q a c) :
    Ensures x c Q := fun a _ hrun => hx.ok hrun ▸ h a

/-- A call finds a body under elaboration, or an instance of its function, or there is none. -/
theorem ensures_findInstance (fn : Nat) (args : List Expr) (c : Context) :
    Ensures (findInstance fn args) c fun found _ => match found with
      | .building r => r ∈ c.draft.building
      | .known _ => True
      | .missing types => (c.function fn).instance? types = none := by
  rw [findInstance, ensures_bind, ensures_getSymbols, ensures_bind]
  refine .of_reads (.mapM (fun a => .require _) args) fun types => ?_
  simp only [elaborating, ensures_ops]
  split
  · next r hr => exact ensures_pure.mpr (List.mem_of_find?_eq_some hr)
  · rw [ensures_bind, ensures_getFunction]
    split
    · exact ensures_pure.mpr trivial
    · next hnone => exact ensures_pure.mpr hnone

theorem fails_newState (c : Context) (name : String) : Fails (newState name) c c.Halts := by
  simp only [newState, fails_bind, fails_getDraft, ensures_getDraft, true_and]
  cases c.draft.machine.newState name with
  | error e => exact fails_fail.mpr (halts_failed c rfl)
  | ok made =>
    simp only [fails_bind, fails_modifyMachine, fails_note, fails_pure, ensures_true, and_self]

theorem fails_resolving (f : Script.Scope → Option Script.Focus → Script.Resolve α) (c : Context) :
    Fails (resolving f) c c.Halts := by
  simp only [resolving, fails_bind, fails_get, ensures_get, true_and]
  split
  · simp only [fails_bind, fails_modifyModule, fails_pure, ensures_true, and_self]
  · exact (Reads.abort _).halts c

/-- The context after the machine of the draft was built, as far as it could be. -/
def Context.tried (c : Context) : Context :=
  let built := c.draft.machine.build c.session.module
  { c with
    session := { c.session with module := built.2.2 }
    draft := { c.draft with machine := built.2.1 } }

theorem ensures_buildDraft {Q : Option Machine.Error → Context → Prop} :
    Ensures buildDraft c Q ↔ Q (c.draft.machine.build c.session.module).1 c.tried := by
  simp only [buildDraft, ensures_ops, Context.tried]

theorem fails_buildDraft {E : Error → Context → Prop} : Fails buildDraft c E := by
  simp only [buildDraft, fails_bind, fails_getDraft, fails_getModule, fails_modifyMachine,
    fails_modifyModule, fails_pure, ensures_true, and_self]

theorem core_tried (c : Context) : c.tried.core = { c.core with
    module := (c.draft.machine.build c.session.module).2.2
    built := (c.draft.machine.build c.session.module).2.1.built } := by
  simp only [Context.tried, Context.core, Machine.build_type, Machine.build_onReset]
  rfl

namespace Traces

variable {base : Symbols} {α β : Type} {c : Context} {t : List Point}
variable {event : Event} {r : InstanceRef} {types : List SignalType} {fn : Nat}

theorem of_quiet {x : ElabM α} (hok : Ensures x c fun _ c' => Core.Quiet base c.core c'.core)
    (hfails : Fails x c c.Halts) : Traces base α x c [] := by
  refine fun _ => ⟨hok.mono fun _ _ h => .done h, fun e c' hrun => ?_⟩
  obtain ⟨hc', he⟩ := hfails e c' hrun
  exact hc' ▸ .after (.refl _) he

/-- A step that leaves the core as it is. -/
theorem of_core {x : ElabM α} (hok : Ensures x c fun _ c' => c'.core = c.core)
    (hfails : Fails x c c.Halts) : Traces base α x c [] :=
  .of_quiet (hok.mono fun _ _ h => h ▸ .refl _ _) hfails

/-- A step at a point where nothing changes. -/
theorem at_point {x : ElabM α} (hkeep : Effect base ⟨event, c⟩ c.core) (hx : Traces base α x c t) :
    Traces base α x c (⟨event, c⟩ :: t) := by
  have hpass : Threads base c.core [⟨event, c⟩] c.core :=
    .pass (p := ⟨event, c⟩) (.refl _ _) hkeep (.refl _)
  intro hc
  obtain ⟨hok, hfails⟩ := hx hc
  exact ⟨hok.mono fun _ _ h => hpass.append h, fun e c' hrun => .append hpass (hfails e c' hrun)⟩

/-- A step whose whole effect belongs to a point. -/
theorem of_effect {x : ElabM α} (hkeep : Effect base ⟨event, c⟩ c.core)
    (hok : Ensures x c fun _ c' => Effect base ⟨event, c⟩ c'.core) (hfails : Fails x c c.Halts) :
    Traces base α x c [⟨event, c⟩] := by
  refine fun _ => ⟨hok.mono fun _ _ he => ?_, fun e c' hrun => ?_⟩
  · exact .pass (p := ⟨event, c⟩) (.refl _ _) he (.refl _)
  · obtain ⟨hc', he⟩ := hfails e c' hrun
    exact hc' ▸ .after (.pass (p := ⟨event, c⟩) (.refl _ _) hkeep (.refl _)) he

/-- Such a step, if it cannot fail. -/
theorem of_change {x : ElabM α} (hok : Ensures x c fun _ c' => Effect base ⟨event, c⟩ c'.core)
    (hfails : Fails x c fun _ _ => False) : Traces base α x c [⟨event, c⟩] := by
  refine fun _ => ⟨hok.mono fun _ _ he => ?_, fun e c' hrun => (hfails e c' hrun).elim⟩
  exact .pass (p := ⟨event, c⟩) (.refl _ _) he (.refl _)

theorem bind {x : ElabM α} {f : α → ElabM β} {u : α → Context → List Point}
    (hx : Traces base α x c t)
    (hf : ∀ a c', x.run c = .ok a c' → Traces base β (f a) c' (u a c')) :
    Traces base β (x >>= f) c (t ++ onward x c u) := by
  intro hc
  obtain ⟨hok, hfails⟩ := hx hc
  have hnext {a c'} (hrun : x.run c = .ok a c') := hf a c' hrun ((hok a c' hrun).sound hc)
  constructor
  · rw [ensures_bind]
    intro a c' hrun
    rw [onward_of_run hrun]
    exact (hnext hrun).1.mono fun _ _ h => (hok a c' hrun).append h
  · rw [fails_bind]
    constructor
    · intro e c' hrun
      have hnil : onward x c u = [] := by simp [onward, hrun]
      rw [hnil, List.append_nil]
      exact hfails e c' hrun
    · intro a c' hrun e c'' hrun'
      rw [onward_of_run hrun]
      exact .append (hok a c' hrun) ((hnext hrun).2 e c'' hrun')

theorem chained : Chained (Traces base) where
  bind := .bind
  reads hx c := .of_quiet (fun _ _ hrun => hx.ok hrun ▸ .refl _ _) (hx.halts c)

theorem fail {e : Error} (he : e.isRefusal = true) : (Traces base).Still (fail (α := α) e) :=
  fun c => .of_quiet (by simp) (fails_fail.mpr (halts_failed c he))

theorem step (c : Context) : Traces base Nat step c [] := by
  refine .of_core ?_ ?_
  · simp only [Program.step, Program.newState, ensures_ops, ensures_ite, implies_true, true_and]
    intro _
    cases hnew : c.draft.machine.newState c.draft.label with
    | error e => simp
    | ok made =>
      obtain ⟨id, f⟩ := made
      obtain ⟨rfl, rfl⟩ := newState_ok hnew
      simp only [ensures_ops, ensures_modifyTop, Context.reported, addBody_push]
      exact core_noted c _ _
  · simp only [Program.step, fails_bind, fails_getDraft, ensures_ops, fails_modifyDraft,
      fails_modifyMachine, fails_modifyTop, fails_pure, fails_ite, fails_fail, ensures_true,
      true_and, and_true]
    exact ⟨fun _ => halts_failed c rfl, fun _ => fails_newState _ _⟩

theorem record (command : String) (fact : Fact) : (Traces base).Still (record command fact) :=
  fun _ => .of_core (by simp only [ensures_record]; rfl) fails_record

theorem scope {f : Script.Scope → Script.Scope} (hf : ∀ sc, (f sc).functions = sc.functions)
    (c : Context) : Traces base Unit (modifyScope f) c [] := by
  refine .of_core ?_ fails_modify
  rw [ensures_modifyScope]
  simp only [Context.core, hf]
  rfl

theorem expand {f : Module → Module} (hm : c.session.module.Expands (f c.session.module)) :
    Traces base Unit (modifyModule f) c [] :=
  .of_quiet (ensures_modifyModule.mpr (.expand hm)) fails_modifyModule

theorem frame {f : Draft → Draft} (hf : ∀ d, ∃ frames label, f d = { d with frames, label })
    (c : Context) : Traces base Unit (modifyDraft f) c [] := by
  refine .of_core ?_ fails_modifyDraft
  obtain ⟨frames, label, hd⟩ := hf c.draft
  rw [ensures_modifyDraft]
  simp only [Context.core, hd]

/-- A change of the machine that leaves its type, what is reset and whether it is built. -/
theorem machine {f : Machine → Machine} (htype : (f c.draft.machine).type = c.draft.machine.type)
    (hbuilt : (f c.draft.machine).built = c.draft.machine.built)
    (hreset : (Stmt.blockDests (f c.draft.machine).onReset).filter (· != c.draft.run) =
      (Stmt.blockDests c.draft.machine.onReset).filter (· != c.draft.run)) :
    Traces base Unit (modifyMachine f) c [] := by
  refine .of_core ?_ fails_modifyMachine
  rw [ensures_modifyMachine]
  simp only [Context.core, htype, hbuilt, hreset]

theorem modifyState (id : Int) (what : String) (change : Machine.State → Machine.State)
    (c : Context) : Traces base Unit (modifyMachine (·.modifyState id what change)) c [] :=
  .machine (Machine.modifyState_rest ..).1 (Machine.modifyState_rest ..).2.1
    (by rw [(Machine.modifyState_rest ..).2.2])

theorem addGoto (k : Nat) (t : Transition Expr) : (Traces base).Still (addGoto k t) :=
  .modifyState _ _ _

theorem emit (st st' : Statement) (c : Context) : Traces base Unit (emit st) c [⟨.emits st', c⟩] :=
  .at_point (.keep (fun h => h) fun _ h => h) (.of_core (ensures_emit.mpr rfl) fails_modify)

theorem popState (inst : Instance) (c : Context) :
    Traces base Nat (popState inst) c [⟨.emits inst.pop, c⟩] := by
  refine .at_point (.keep (fun h => h) fun _ h => h) (chained.trail (.step c) fun st => ?_)
  exact chained.seq (.modifyState _ _ _) fun _ => chained.seq (.addGoto _ _) fun _ => chained.done st

theorem resolveReturn (v : Expr) (hr : r ∈ c.draft.building) :
    Traces base Unit (resolveReturn r v) c [⟨.returns r v, c⟩] := by
  have hpass {k : Core} (he : Effect base ⟨.returns r v, c⟩ k) :
      Threads base c.core [⟨.returns r v, c⟩] k :=
    .pass (p := ⟨.returns r v, c⟩) (.refl _ _) he (.refl _)
  -- nothing is asked of a value that has no type yet
  have hstay (hv : ∀ t, c.session.module.symbols.knownType v = some t → t.isUnknown = true) :
      Effect base ⟨.returns r v, c⟩ c.core := by
    refine .keep ?_ ?_
    · rintro ⟨-, t, ht, hknown⟩
      rw [hv t ht] at hknown
      cases hknown
    · rintro e ⟨t, ht, hknown, -⟩
      rw [hv t ht] at hknown
      cases hknown
  intro _
  cases htyped : c.session.module.symbols.typed v with
  | false =>
    have hnone : c.session.module.symbols.knownType v = none := by simp [Symbols.knownType, htyped]
    have hstay := hstay fun t ht => by
      rw [hnone] at ht
      cases ht
    constructor
    · simp [Program.resolveReturn, htyped]
    · simp only [Program.resolveReturn, fails_bind, fails_ite, fails_getSymbols, ensures_getSymbols,
        htyped, Bool.false_eq_true, false_implies, true_and, not_false_eq_true, true_implies]
      intro e c' hrun
      obtain ⟨hc', he⟩ := (Reads.abort _).halts c e c' hrun
      exact hc' ▸ .after (hpass hstay) he
  | true =>
    have hknown : c.session.module.symbols.knownType v = c.session.module.symbols.typeOf v := by
      simp [Symbols.knownType, htyped]
    simp only [Program.resolveReturn, ensures_ops, ensures_ite, ensures_abort, implies_true,
      and_true, fails_bind, fails_ite, fails_getSymbols, fails_getInstance, true_and, htyped,
      true_implies, not_true_eq_false, false_implies]
    cases htype : c.session.module.symbols.typeOf v with
    | none =>
      refine ⟨ensures_pure.mpr (hpass (hstay fun t ht => ?_)), fails_pure⟩
      rw [hknown, htype] at ht
      cases ht
    | some t =>
      rw [htype] at hknown
      simp only [ensures_ite, ensures_ops, ensures_modifyInstance, fails_ite, fails_pure,
        fails_bind, fails_modifyModule, fails_modifyInstance, fails_getFunction, fails_fail,
        ensures_true, implies_true, true_and, and_true, Bool.not_eq_true', Bool.not_eq_true,
        Bool.not_eq_false]
      refine ⟨⟨fun hunknown => ?_, fun hunknown => ⟨fun hres => ?_, fun hres hfits => ?_⟩⟩,
        fun hunknown hres hfits => ?_⟩
      · refine hpass (hstay fun u hu => ?_)
        rwa [← Option.some.inj (hknown.symm.trans hu)]
      · exact hpass (.give rfl hr hres hknown hunknown)
      · refine hpass (.keep ?_ ?_)
        · rintro ⟨hno, -⟩
          exact absurd (hres.symm.trans hno) (by decide)
        · rintro e ⟨u, hu, -, -, hmisfit, -⟩
          cases hknown.symm.trans hu
          exact absurd (hfits.symm.trans hmisfit) (by decide)
      · rw [(halts_failed c rfl).1]
        exact .refused (p := ⟨.returns r v, c⟩) (.refl _) ⟨t, hknown, hunknown, hres, hfits, rfl⟩

theorem steps : Steps (Traces base) where
  toChained := chained
  step := .step
  fail := .fail
  record := .record
  scope := .scope
  expand := .expand
  frame := .frame
  addGoto := .addGoto
  emit st c := .emit st st c
  branch := chained.branch (fun c => .of_core (by simp; rfl) fails_modify)
    (fun c => .of_core (by simp; rfl) (by simp [closeBlock])) .emit
  resolveReturn := .resolveReturn
  popState := .popState

theorem sizeStack (request : Int) (hr : r ∈ c.draft.building) :
    Traces base Unit (sizeStack r request) c [⟨.recurs r request, c⟩] := by
  intro _
  constructor
  · simp only [Program.sizeStack, ensures_ops, ensures_ite, ensures_modifyInstance, implies_true,
      true_and]
    have hsize (hsized : (c.core.instanceAt r).sized = false) {c' : Context}
        (hc' : c'.core = (c.core.withSymbols (resized c.session.module.symbols (c.core.instanceAt r)
          (stackDepth (c.function r.function) (c.core.instanceAt r) request))).modifyInstance r
            ({ · with sized := true })) : Threads base c.core [⟨.recurs r request, c⟩] c'.core :=
      .pass (p := ⟨.recurs r request, c⟩) (.refl _ _) (.size rfl hr hsized) (hc' ▸ .refl _)
    refine ⟨fun hsized hsame => ?_, fun hsized => ⟨fun hasked => ?_, fun hasked => ?_⟩⟩
    · refine .pass (p := ⟨.recurs r request, c⟩) (.refl _ _) (.keep (fun hno => ?_) fun e h => ?_)
        (.refl _)
      · exact absurd (hsized.symm.trans hno) (by decide)
      · exact hsame ⟨h.2.1, h.2.2.1⟩
    · refine hsize (Bool.eq_false_of_not_eq_true hsized) ?_
      exact congrArg (fun k : Core => (k.withSymbols _).modifyInstance r _) (core_noted c _ _)
    · exact hsize (Bool.eq_false_of_not_eq_true hsized) rfl
  · simp only [Program.sizeStack, fails_bind, fails_ite, fails_note, fails_pure,
      fails_modifyInstance, fails_modifyModule, fails_fail, fails_getFunction, fails_getInstance,
      fails_getSymbols, ensures_ops, ensures_true, implies_true, and_true, true_and]
    intro hsized hconflict
    rw [(halts_failed c rfl).1]
    exact .refused (p := ⟨.recurs r request, c⟩) (.refl _) ⟨hsized, hconflict.1, hconflict.2, rfl⟩

theorem function_of_named (hc : c.core.Sound base) (hfn : fn ∈ c.named) :
    c.session.functions[fn]? = some (c.function fn) := by
  obtain ⟨p, hp, rfl⟩ := List.mem_map.mp hfn
  have hlt : p.2 < c.session.functions.size := hc.named p hp
  rw [Context.function, Array.getElem?_eq_getElem hlt]
  rfl

theorem ensures_instantiate {f : Function} (hf : c.session.functions[fn]? = some f) :
    Ensures (instantiate fn types) c fun r c' => ∃ inst,
      instance? c'.session.functions r = some inst ∧
        NewStack c.env c.session.module c'.session.module inst ∧
          c'.draft.building.length < maxElaboration := by
  refine .instantiate hf c.env_code fun inst c' hroom hstack hserves hreport hfs hsc hd => ?_
  refine ⟨inst, ?_, hstack, by rwa [hd]⟩
  rw [hfs, instance?_pushInstance hf, if_pos rfl]

theorem instantiate (hfn : fn ∈ c.named) (hnew : (c.function fn).instance? types = none) :
    Traces base InstanceRef (instantiate fn types) c [⟨.makes fn types, c⟩] := by
  intro hc
  have hf := function_of_named hc hfn
  constructor
  · refine .instantiate hf c.env_code fun inst c' hroom hstack hserves hreport hfs hsc hd => ?_
    obtain ⟨message, hreport⟩ := hreport
    have hcore : c'.core = { c.core with
        module := c'.session.module
        functions := c.session.functions.modify fn fun f =>
          { f with instances := f.instances.push inst }
        pointers := c.core.pointers ++ [inst.sp].filter (· != c.draft.run) } := by
      simp only [Context.core, hfs, hsc, hd, errors_noted hreport, Stmt.blockDests_append,
        List.filter_append]
      rfl
    rw [hcore]
    exact .pass (p := ⟨.makes fn types, c⟩) (.refl _ _) (.make rfl hf hnew hroom hstack hserves)
      (.refl _)
  · simp only [Program.instantiate, fails_bind, fails_getFunction, fails_getDraft, fails_ite,
      fails_fail, fails_getModule, fails_modifyModule, fails_declare, ensures_ops,
      fails_modifyMachine, fails_modifyFunction, fails_note, fails_pure, ensures_true, and_true,
      true_and]
    refine ⟨fun hfull => ?_, fun _ => fails_mapM (fun _ _ => fails_declare) _ _⟩
    rw [(halts_failed c rfl).1]
    exact .refused (p := ⟨.makes fn types, c⟩) (.refl _) ⟨hfull, rfl⟩

theorem resume (link : LinkId) (resume : Nat) (c : Context) (hlink : base.links.size ≤ link) :
    Traces base Unit
      (modifyDraft fun d => { d with resumes := d.resumes ++ [(link, resume)] }) c [] := by
  refine .of_quiet (ensures_modifyDraft.mpr ?_) fails_modifyDraft
  exact ⟨.refl _, ⟨[(link, resume)], rfl, by simpa using hlink⟩, rfl⟩

/-- The return address of a call is a new one, and functions stay as they are. -/
theorem ensures_pushCall (r : InstanceRef) (args : List Expr) (c : Context) :
    Ensures (pushCall r args) c fun link c' => link = c.session.module.symbols.links.size ∧
      c.session.module.Expands c'.session.module ∧
      c'.session.functions = c.session.functions ∧ c'.draft.building = c.draft.building := by
  have hwait : Ensures stepIfPending c fun _ c' => c'.session.module = c.session.module ∧
      c'.session.functions = c.session.functions ∧ c'.draft.building = c.draft.building := by
    simp only [stepIfPending, ensures_ops, ensures_ite]
    exact ⟨fun _ => .step fun _ _ => ⟨rfl, rfl, rfl⟩, fun _ => ⟨trivial, trivial, trivial⟩⟩
  rw [pushCall_eq, ensures_bind, preparePush, ensures_bind]
  refine hwait.mono fun _ c₁ hc₁ => ?_
  obtain ⟨hm, hf, hb⟩ := hc₁
  rw [ensures_bind, ensures_getInstance, ensures_bind]
  refine .of_reads (.bind .getSymbols fun _ => .require _) fun room => ?_
  simp only [ensures_ops, ← hm, ← hf, ← hb]
  exact ⟨rfl, ⟨Symbols.newLink_grows _, rfl⟩, trivial, trivial⟩

theorem enterBody {inst : Instance} (hi : instance? c.session.functions r = some inst)
    (hown : inst.Owned base c.session.module.symbols) (hentry : inst.entry = 0)
    (hroom : c.draft.building.length < maxElaboration) (call : Nat) :
    Traces base Unit (enterBody r call) c [⟨.opens r, c⟩] := by
  refine .of_change ?_ ?_
  · simp only [Program.enterBody, ensures_ops, ensures_modifyInstance]
    exact .enter rfl hi hown hentry (Nat.succ_pos call) hroom
  · simp only [Program.enterBody, pushFrame, modifyScope, fails_bind, fails_modifyInstance,
      fails_modifyDraft, fails_getInstance, fails_modifySession, ensures_true, and_self]

theorem leaveBody (r : InstanceRef) (c : Context) : Traces base Unit leaveBody c [⟨.closes r, c⟩] :=
  .of_change (ensures_modifyDraft.mpr (.leave rfl)) fails_modifyDraft

theorem endless (c : Context) : Traces base Expr (throw .endless) c [⟨.exhausts, c⟩] := by
  refine fun _ => ⟨by simp, fun e c' hrun => ?_⟩
  obtain ⟨rfl, rfl⟩ := EStateM.Result.error.inj hrun
  exact .endless (p := ⟨.exhausts, c⟩) (.refl _) rfl

theorem existing {run : List Command → ElabM Unit} {told : List Command → Context → List Point}
    (hrun : ∀ body c, Traces base Unit (run body) c (told body c)) (r : InstanceRef)
    (args : List Expr) (c : Context) :
    Traces base Unit (callExisting run r args) c (existingPoints told r args c) := by
  intro hc
  refine steps.callExisting (P := (base.links.size ≤ ·)) (fun _ b c _ => hrun b c)
    .resume ?_ hc
  intro link c₁ hpush
  rw [(ensures_pushCall r args c link c₁ hpush).1]
  exact hc.links

theorem missing {run : List Command → ElabM Unit} {told : List Command → Context → List Point}
    (hrun : ∀ body c, Traces base Unit (run body) c (told body c)) (hfn : fn ∈ c.named)
    (hnew : (c.function fn).instance? types = none) (depth : Int) (args : List Expr) :
    Traces base InstanceRef (callFound run fn depth args (.missing types)) c
      (foundPoints run told fn depth args (.missing types) c) := by
  intro hc
  have hmake : Traces base _ _ c _ := instantiate hfn hnew
  refine steps.callMissing (P := (base.links.size ≤ ·)) (fun _ b c _ => hrun b c)
    .resume hrun hmake ?_ ?_ .leaveBody depth hc
  · intro r c₁ link c₂ hmade hpush
    rw [(ensures_pushCall r args c₁ link c₂ hpush).1]
    exact (((hmake hc).1 r c₁ hmade).sound hc).links
  · intro r c₁ link c₂ call c₃ hmade hpush hstep
    obtain ⟨inst, hi, hstack, hroom⟩ := ensures_instantiate (function_of_named hc hfn) r c₁ hmade
    obtain ⟨-, hm, hfs, hb⟩ := ensures_pushCall r args c₁ link c₂ hpush
    obtain ⟨hm', hfs', hb'⟩ : c₃.session.module = c₂.session.module ∧
        c₃.session.functions = c₂.session.functions ∧ c₃.draft.building = c₂.draft.building :=
      Ensures.step (Q := fun _ c' => c'.session.module = c₂.session.module ∧
        c'.session.functions = c₂.session.functions ∧ c'.draft.building = c₂.draft.building)
        (fun _ _ => ⟨rfl, rfl, rfl⟩) _ _ hstep
    have hown : inst.Owned base c₃.session.module.symbols := by
      rw [hm']
      exact (hstack.owned hc.signals hc.types).touch hm.symbols.touches
    rw [← hfs, ← hfs'] at hi
    rw [← hb, ← hb'] at hroom
    exact .enterBody hi hown hstack.entry hroom call

theorem alter {n : Nat} {x : Command} (hx : x.alters = true) (c : Context) :
    Traces base Unit (perform (callWithin n) x) c [⟨.performs n x, c⟩] := by
  cases x with
  | define name depth returns overflow body =>
    refine .of_effect (.keep (fun h => h) fun _ h => h) ?_ ?_
    · simp only [perform, defineFunction, ensures_ops]
      exact .define rfl
    · simp only [perform, defineFunction, fails_bind, fails_get, fails_modifySession,
        fails_modifyDraft, ensures_true, and_self]
  | resize name t =>
    refine .of_effect (.keep (fun h => h) fun _ h => h) ?_ ?_
    · simp only [perform, resizeSignal, ensures_bind]
      refine .resolveSignal fun i hi => ?_
      simp only [ensures_ops]
      exact fun g hg => .resize rfl hi hg
    · simp only [perform, resizeSignal, fails_bind]
      refine ⟨fails_resolving _ c, .resolveSignal fun i _ => ?_⟩
      simp only [fails_getSymbols, ensures_getSymbols, fails_modifyModule, ensures_true, and_true,
        true_and]
      exact (Reads.require _).halts c
  | stateBody id body =>
    refine .at_point (.keep (fun h => h) fun _ h => h) ?_
    refine chained.trail (steps.resolving (Script.resolveBlock_expanding · · body) c) fun ss => ?_
    exact .modifyState _ _ _
  | stateGoto id t =>
    refine .at_point (.keep (fun h => h) fun _ h => h) ?_
    refine chained.trail (steps.resolving (Script.resolveTransition_expanding · · t) c) fun t => ?_
    exact .modifyState _ _ _
  | newState name =>
    refine .at_point (.keep (fun h => h) fun _ h => h) (chained.past (chained.reads .getDraft c) rfl ?_)
    split
    · next id f hnew =>
      obtain ⟨rfl, rfl⟩ := newState_ok hnew
      exact chained.trail (.machine rfl rfl rfl) fun _ => .record _ _
    · exact .record _ _ c
  | buildMachine =>
    refine .of_effect (.keep (fun h => h) fun _ h => h) ?_ ?_
    · simp only [perform, ensures_bind, ensures_buildDraft, ensures_record]
      exact core_tried c ▸ .build rfl
    · simp only [perform, fails_bind, fails_buildDraft, fails_record, ensures_true, and_self]
  | _ => cases hx

theorem account : Account (Traces base) where
  toSteps := steps
  endless := .endless
  sizeStack {fn args r c₀ c} depth hfound := by
    obtain rfl : c = c₀ := (Reads.findInstance fn args).ok hfound
    exact .sizeStack depth (ensures_findInstance fn args c _ _ hfound)
  existing := .existing
  missing {_ _ fn args types c₀ c} depth hrun hfn hfound := by
    obtain rfl : c = c₀ := (Reads.findInstance fn args).ok hfound
    exact .missing hrun hfn (ensures_findInstance fn args c _ _ hfound) depth args
  parts _ _ _ := trivial
  ordinary _ _ := .at_point (.keep (fun h => h) fun _ h => h)
  alter _ := .alter

theorem newState (name : String) (c : Context) : Traces base Nat (newState name) c [] := by
  refine .of_core ?_ (fails_newState c name)
  rw [Program.newState, ensures_bind, ensures_getDraft]
  split
  · simp
  · next id f hnew =>
    obtain ⟨rfl, rfl⟩ := newState_ok hnew
    simp only [ensures_ops]
    exact core_noted _ _ _

theorem runDefaults (run : SignalId) (start : Expr) : (Traces base).Still (runDefaults run start) := by
  have hassign (v : UInt64) : (Traces base).Still (do
      let m ← getModule
      modifyModule fun _ => (setRun run v m).2
      return (setRun run v m).1) := fun c =>
    chained.past (chained.reads (fun _ => rfl) c) rfl
      (chained.trail (.expand (setRun_expands run v _)) fun _ => chained.done _)
  unfold Program.runDefaults
  split
  · exact chained.seq (hassign 1) fun _ => chained.done _
  · exact chained.seq (hassign 0) fun _ => chained.seq (hassign 1) fun _ => chained.done _

theorem beginProgram (start : Expr) (c : Context) : Traces base Unit (beginProgram start) c [] := by
  have hnew : Ensures (Program.newState "") c fun _ c' => c'.draft.run = c.draft.run := by
    simp only [Program.newState, ensures_ops]
    split
    · exact ensures_fail.mpr trivial
    · simp only [ensures_ops]
      rfl
  refine chained.past (chained.reads .getDraft c) rfl ?_
  refine chained.follow (.newState "" c) fun _ c₂ h₂ => chained.follow (.addGoto _ _ c₂)
    fun _ c₃ h₃ => ?_
  refine chained.follow (.runDefaults _ start c₃) fun sts c₄ h₄ => ?_
  have hrun : c₄.draft.run = c.draft.run := by
    obtain ⟨m, -, -, rfl⟩ := Ensures.runDefaults _ _ sts c₄ h₄
    exact (ensures_addGoto (Q := fun _ c' => c'.draft.run = c₂.draft.run).mpr rfl _ c₃ h₃).trans
      (hnew _ c₂ h₂)
  refine chained.past (chained.reads (fun _ => rfl) c₄) rfl ?_
  refine chained.follow (.expand (setRun_expands c.draft.run 0 _)) fun _ c₅ h₅ => .machine rfl rfl ?_
  have hrun₅ : c₅.draft.run = c.draft.run :=
    (ensures_modifyModule (Q := fun _ c' => c'.draft.run = c₄.draft.run).mpr rfl _ c₅ h₅).trans hrun
  simp [Stmt.blockDests_append, Stmt.blockDests, Stmt.dests, hrun₅]

end Traces

/-! ## Whole programs -/

/-- All commands of a program, without what is left to do after them. -/
def performProgram (opts : Options) (body : List Command) : ElabM Unit := do
  beginProgram opts.start
  performAll (callWithin opts.budget) body
  stepIfWaiting

theorem elaborate_eq (opts : Options) (body : List Command) :
    elaborate opts body = (do
      performProgram opts body
      settleReturns
      finishProgram
      let d ← getDraft
      return { name := d.name, machine := d.machine, run := d.run, functions := d.functions }) := by
  simp [elaborate, prepare, performProgram]

theorem traces_performProgram (base : Symbols) (s : Session) (opts : Options)
    (body : List Command) : Traces base Unit (performProgram opts body) (draft s opts)
      (course s opts body) := by
  refine Traces.chained.lead (.beginProgram opts.start _) fun _ c₁ _ => ?_
  exact Traces.chained.trail (Traces.account.pointsOf opts.budget body c₁) fun _ =>
    Traces.steps.stepIfWaiting

/-- Where the return registers of the functions of the program have their types. -/
def Core.results (k : Core) (i : TypeId) : Prop :=
  ∃ r inst x, r.function ∈ k.defined ∧ instance? k.functions r = some inst ∧
    k.module.symbols.signals[inst.ret]? = some x ∧ x.type = some i

/-- The symbols of a finished program: return registers without a type have got one, and all return
addresses their codes. -/
structure Core.Settles (k : Core) (g : Symbols) : Prop where
  signals : g.signals = k.module.symbols.signals
  types : ∀ (i : TypeId) t, k.module.symbols.types[i]? = some t →
    ∃ u, g.types[i]? = some u ∧ (¬ k.results i ∨ t.isUnknown = false → u = t)
  links : ∀ i : LinkId, (∀ p ∈ k.resumes, p.1 ≠ i) → g.links[i]? = k.module.symbols.links[i]?

namespace Core.Settles

variable {k : Core} {g : Symbols}

theorem refl (k : Core) : k.Settles k.module.symbols :=
  ⟨rfl, fun _ t ht => ⟨t, ht, fun _ => rfl⟩, fun _ _ => rfl⟩

theorem setWidth (h : k.Settles g) {i : TypeId} (hi : k.results i)
    (hunknown : ∀ u, g.types[i]? = some u → u.isUnknown = true) (w : Int) :
    k.Settles (g.setWidth i w) where
  signals := h.signals
  types j t ht := by
    obtain ⟨u, hu, hsame⟩ := h.types j t ht
    simp only [Symbols.setWidth, Array.getElem?_modify, hu]
    split
    · next hij =>
      subst hij
      refine ⟨_, rfl, fun hkept => ?_⟩
      rcases hkept with hno | hknown
      · exact absurd hi hno
      · rw [← hsame (.inr hknown), hunknown u hu] at hknown
        cases hknown
    · exact ⟨u, rfl, hsame⟩
  links := h.links

theorem setLink (h : k.Settles g) {p : LinkId × Nat} (hp : p ∈ k.resumes) (v : UInt64) :
    k.Settles (g.setLink p.1 v) where
  signals := h.signals
  types := h.types
  links i hi := by
    rw [← h.links i hi, Symbols.setLink, Array.getElem?_setIfInBounds_ne (hi p hp)]

end Core.Settles

/-- Settling changes nothing but symbols. -/
def Core.Settled (k : Core) (c : Context) : Prop := ∃ g, c.core = k.withSymbols g ∧ k.Settles g

theorem instance?_of_mem {fn : Nat} {inst : Instance}
    (h : inst ∈ (c.function fn).instances.toList) :
    ∃ position, instance? c.session.functions ⟨fn, position⟩ = some inst := by
  obtain ⟨position, hp⟩ := List.mem_iff_getElem?.mp h
  rw [Array.getElem?_toList, Context.function] at hp
  cases hf : c.session.functions[fn]? with
  | none =>
    rw [hf] at hp
    exact absurd (Array.getElem?_eq_some_iff.mp hp).1 (Nat.not_lt_zero position)
  | some f =>
    rw [hf] at hp
    exact ⟨position, by rw [instance?, hf]; exact hp⟩

theorem Core.Settled.settleReturn (h : k.Settled c) (f : Function) {inst : Instance}
    {r : InstanceRef} (hr : r.function ∈ k.defined) (hi : instance? k.functions r = some inst) :
    Ensures (settleReturn f inst) c fun _ => k.Settled := by
  obtain ⟨g, hc, hg⟩ := h
  have hsymbols : c.session.module.symbols = g := congrArg (·.module.symbols) hc
  simp only [Program.settleReturn, ensures_ops, ensures_ite]
  refine ⟨fun hunknown => ?_, fun _ => ⟨g, hc, hg⟩⟩
  rw [hsymbols] at hunknown
  rw [hsymbols, hg.signals]
  cases htype : k.module.symbols.signals[inst.ret]?.bind Signal.type with
  | none => exact ensures_pure.mpr ⟨g, by rw [core_noted, hc], hg⟩
  | some t =>
    obtain ⟨x, hx, ht⟩ := Option.bind_eq_some_iff.mp htype
    have hno : ∀ u, g.types[t]? = some u → u.isUnknown = true := by
      intro u hu
      simpa [Symbols.signalType, hg.signals, hx, Symbols.type?, ht, hu, TypeSlot.isUnknown]
        using hunknown
    have hset := hg.setWidth ⟨r, inst, x, hr, hi, hx, ht⟩ hno 1
    refine (ensures_modifyModule (f := fun m => m.modifySymbols (·.setWidth t 1))).mpr ⟨_, ?_, hset⟩
    rw [core_noted]
    exact congrArg (fun k' : Core => k'.withSymbols (k'.module.symbols.setWidth t 1)) hc

theorem ensures_settleReturns (c : Context) : Ensures settleReturns c fun _ => c.core.Settled := by
  rw [settleReturns, ensures_bind, ensures_getDraft]
  refine .forM ⟨_, rfl, .refl _⟩ fun fn hfn c₁ hc₁ => ?_
  rw [ensures_bind, ensures_getFunction]
  have hfs : c₁.session.functions = c.session.functions := by
    obtain ⟨g₁, hc₁, -⟩ := hc₁
    exact congrArg Core.functions hc₁
  refine .forM hc₁ fun inst hinst c₂ hc₂ => ?_
  obtain ⟨position, hi⟩ := instance?_of_mem hinst
  rw [hfs] at hi
  exact hc₂.settleReturn _ (r := ⟨fn, position⟩) hfn hi

theorem fails_settleReturns {E : Error → Context → Prop} : Fails settleReturns c E := by
  rw [settleReturns, fails_bind, ensures_getDraft]
  refine ⟨fails_getDraft, fails_forM (fun fn c₁ => ?_) _ c⟩
  rw [fails_bind, ensures_getFunction]
  refine ⟨fails_getFunction, fails_forM (fun inst c₂ => ?_) _ c₁⟩
  simp only [settleReturn, fails_bind, fails_getSymbols, fails_ite, fails_note, fails_pure,
    ensures_getSymbols, ensures_true, implies_true, and_true, true_and]
  intro _
  cases c₂.session.module.symbols.signals[inst.ret]?.bind Signal.type with
  | none => exact fails_pure
  | some t => exact fails_modifyModule (f := fun m => m.modifySymbols (·.setWidth t 1))

/-- How an elaboration ends: it stops in its course, or its machine cannot be built, or it is. -/
inductive Concludes (base : Symbols) (k₀ : Core) (t : List Point) : Except Error Sequencer → Core → Prop
  | stops {e : Error} {k : Core} : Stops base k₀ t e k → Concludes base k₀ t (.error e) k
  | unbuilt {k : Core} {g g' : Symbols} {e : Machine.Error} : Threads base k₀ t k → k.Settles g →
      (g' = g ∨ ∃ u, g' = g.setType k.code u) →
      Concludes base k₀ t (.error (.machine e)) ((k.withSymbols g').halt (.machine e))
  | built {k : Core} {g : Symbols} {q : Sequencer} {next : List Statement} : Threads base k₀ t k →
      k.Settles g → k.built = false → q.machine.type = k.code → q.machine.nextBody = .ok next →
      Concludes base k₀ t (.ok q) { k with
        module := (q.machine.processes next).foldl Module.addProcess
          (q.machine.sizeRegister (k.withSymbols g).module)
        built := true }

namespace Concludes

variable {base : Symbols} {k₀ k' : Core} {t : List Point} {result : Except Error Sequencer} {p : Point}

theorem reach (h : Concludes base k₀ t result k') (hp : p ∈ t) :
    ∃ u ⊆ t, Threads base k₀ u p.context.core := by
  cases h with
  | stops h | unbuilt h _ _ | built h _ _ _ _ => exact h.reach hp

/-- Where a point refuses the program, the program is refused for that reason. -/
theorem refuses (h : Concludes base k₀ t result k') (hp : p ∈ t) {e : Error} (hr : p.Refuses e) :
    result = .error e := by
  cases h with
  | stops h => rw [h.refuses hp hr]
  | unbuilt h _ _ | built h _ _ _ _ => exact absurd hr (h.accepted hp e)

/-- The functions at the end are those after the last point that was passed. -/
theorem functions (h : Concludes base k₀ t result k') :
    ∃ u k, u ⊆ t ∧ Threads base k₀ u k ∧ k'.functions = k.functions := by
  have hhalt (k : Core) (e : Error) : (k.halt e).functions = k.functions := by
    unfold Core.halt
    split <;> rfl
  cases h with
  | stops h =>
    obtain ⟨u, k, hrun, hu, rfl⟩ := h.threads
    exact ⟨u, k, hu, hrun, hhalt k _⟩
  | @unbuilt k g g' e h _ _ => exact ⟨t, k, List.Subset.refl t, h, hhalt (k.withSymbols g') _⟩
  | @built k g q next h _ _ _ _ => exact ⟨t, k, List.Subset.refl t, h, rfl⟩

end Concludes

theorem ensures_setLinks (h : k.Settled c) : Ensures (c.draft.resumes.forM fun p =>
      modifyModule (·.modifySymbols (·.setLink p.1 (c.draft.machine.code p.2)))) c fun _ c' =>
        k.Settled c' ∧ c'.draft = c.draft := by
  have hresumes : c.draft.resumes = k.resumes := by
    obtain ⟨g, hc, -⟩ := h
    exact congrArg Core.resumes hc
  refine .forM (P := fun c' => k.Settled c' ∧ c'.draft = c.draft) ⟨h, rfl⟩ fun p hp c₁ hc₁ => ?_
  obtain ⟨⟨g, hcore, hg⟩, hd⟩ := hc₁
  have hset := hg.setLink (hresumes ▸ hp) (c.draft.machine.code p.2)
  refine ensures_modifyModule.mpr ⟨⟨_, ?_, hset⟩, hd⟩
  exact congrArg (fun k' : Core => k'.withSymbols (k'.module.symbols.setLink p.1 _)) hcore

theorem finishProgram_concludes {base : Symbols} {k₀ : Core} {t : List Point}
    (ht : Threads base k₀ t k) (h : k.Settled c) :
    (Ensures finishProgram c fun _ c' => ∀ q : Sequencer, q.machine = c'.draft.machine →
      Concludes base k₀ t (.ok q) c'.core) ∧
      Fails finishProgram c fun e c' => Concludes base k₀ t (.error e) c'.core := by
  have hlinks := ensures_setLinks h
  simp only [finishProgram, ensures_ops, fails_bind, fails_getDraft, ensures_buildDraft,
    fails_buildDraft, true_and]
  refine ⟨hlinks.mono fun _ c₁ hc₁ => ?_, fails_forM (fun _ _ => fails_modifyModule) _ _,
    hlinks.mono fun _ c₁ hc₁ => ?_⟩
  all_goals
    obtain ⟨⟨g, hcore, hg⟩, -⟩ := hc₁
    have hm : c₁.session.module = (k.withSymbols g).module := congrArg Core.module hcore
    have htype : c₁.draft.machine.type = k.code := congrArg Core.code hcore
    have htried := core_tried c₁
    rw [hcore] at htried
    rcases c₁.draft.machine.build_cases c₁.session.module with
      ⟨e, m', hbuild, hm'⟩ | ⟨hbuilt, next, hnext, hbuild⟩
    all_goals rw [hbuild] at htried ⊢
  · exact ensures_bind.mpr (ensures_fail.mpr trivial)
  · simp only [ensures_ops]
    intro q hq
    have hmachine : q.machine = { c₁.draft.machine with built := true } :=
      hq.trans (congrArg (·.2.1) hbuild)
    have hends := Concludes.built (q := q) ht hg ((congrArg Core.built hcore).symm.trans hbuilt)
      (by rw [hmachine]; exact htype) (by rw [hmachine, Machine.nextBody_built]; exact hnext)
    rw [hmachine] at hends
    rw [core_noted, htried, hm]
    exact hends
  · refine fails_bind.mpr ⟨fails_fail.mpr ?_, ensures_fail.mpr trivial⟩
    have hb : c₁.draft.machine.built = k.built := congrArg Core.built hcore
    rw [(halts_failed c₁.tried rfl).1, htried, hb]
    rcases hm' with rfl | rfl
    · rw [hm]
      exact .unbuilt ht hg (.inl rfl)
    · rw [hm, Machine.sizeRegister, htype]
      exact .unbuilt (k := k) ht hg (.inr ⟨_, rfl⟩)
  · simp only [fails_bind, fails_getDraft, fails_getSymbols, fails_note, ensures_true, and_self]

theorem sound_draft (hs : ∀ p ∈ s.scope.functions, p.2 < s.functions.size) (opts : Options) :
    (draft s opts).core.Sound s.module.symbols where
  signals := (draft_expands s opts).symbols.size
  types := (draft_expands s opts).symbols.types_size
  links := (draft_expands s opts).symbols.links_size
  named := hs

/-- The session has the module, the functions and the errors of a core. -/
structure Session.Shows (s : Session) (k : Core) : Prop where
  module : s.module = k.module
  functions : s.functions = k.functions
  named : s.scope.functions = k.named
  errors : s.errors = k.errors

/-- Every elaboration threads its course, and ends in one of three ways. -/
theorem build_concludes (hs : ∀ p ∈ s.scope.functions, p.2 < s.functions.size) (opts : Options)
    (body : List Command) :
    ∃ k, Concludes s.module.symbols (draft s opts).core (course s opts body) (build s opts body).1 k ∧
      (build s opts body).2.Shows k := by
  obtain ⟨hok, hfails⟩ := traces_performProgram s.module.symbols s opts body (sound_draft hs opts)
  have hends : Ensures (elaborate opts body) (draft s opts) fun q c' =>
      Concludes s.module.symbols (draft s opts).core (course s opts body) (.ok q) c'.core := by
    rw [elaborate_eq, ensures_bind]
    refine hok.mono fun _ c₁ ht => ?_
    rw [ensures_bind]
    refine (ensures_settleReturns c₁).mono fun _ c₂ hc₂ => ?_
    rw [ensures_bind]
    refine (finishProgram_concludes ht hc₂).1.mono fun _ c₃ hc₃ => ?_
    rw [ensures_bind, ensures_getDraft, ensures_pure]
    exact hc₃ _ rfl
  have hbreaks : Fails (elaborate opts body) (draft s opts) fun e c' =>
      Concludes s.module.symbols (draft s opts).core (course s opts body) (.error e) c'.core := by
    rw [elaborate_eq, fails_bind]
    refine ⟨fun e c' hrun => .stops (hfails e c' hrun), hok.mono fun _ c₁ ht => ?_⟩
    rw [fails_bind]
    refine ⟨fails_settleReturns, (ensures_settleReturns c₁).mono fun _ c₂ hc₂ => ?_⟩
    rw [fails_bind]
    refine ⟨(finishProgram_concludes ht hc₂).2, fun _ _ _ => fails_bind.mpr ⟨fails_getDraft, ?_⟩⟩
    exact ensures_getDraft.mpr fails_pure
  rw [build]
  cases hrun : (elaborate opts body).run (draft s opts) with
  | ok q c' => exact ⟨c'.core, hends q c' hrun, ⟨rfl, rfl, rfl, rfl⟩⟩
  | error e c' => exact ⟨c'.core, hbreaks e c' hrun, ⟨rfl, rfl, rfl, rfl⟩⟩

end Lockstep.Program
