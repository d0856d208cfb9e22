import Lockstep.Proofs.Program.Discipline
import Lockstep.Proofs.Program.Traces

/-!
# Elaboration comes to an end

A call whose argument types are new opens a body, and the calls in that body may have new types
again. At most 32 bodies are open at once; a call that would open one more is refused. A function
never has two instances for the same argument types, so each body is elaborated at most once for
each list of types.

The elaborator has a budget for calls inside each other. A body costs one of it, and so does an
overflow handler, whose calls happen while no further body is open. Where no handler contains a
call, the bodies run out before the budget does.
-/

namespace Lockstep.Program

variable {c : Context} {k k' : Core} {p : Point} {base : Symbols}

/-! ## Bodies and instances -/

/-- No function has two instances for the same argument types. -/
def Distinct (fs : Array Function) : Prop :=
  ∀ r r' inst inst', instance? fs r = some inst → instance? fs r' = some inst' →
    r.function = r'.function → inst.argTypes = inst'.argTypes → r = r'

theorem argTypes_ne_of_instance? {fn : Nat} {types : List SignalType} {r : InstanceRef}
    {inst : Instance} (hnone : (c.function fn).instance? types = none) (hr : r.function = fn)
    (hi : instance? c.session.functions r = some inst) : inst.argTypes ≠ types := by
  subst hr
  obtain ⟨f, hf, hi⟩ := Option.bind_eq_some_iff.mp hi
  rw [Context.function, hf, Option.getD_some, Function.instance?, Array.findIdx?_eq_none_iff] at hnone
  simpa using hnone inst (Array.mem_of_getElem? hi)

theorem Effect.distinct (he : Effect base p k) (h : Distinct p.context.session.functions) :
    Distinct k.functions := by
  intro r r' inst inst' hi hi' hfn htypes
  rcases he.instance_cases hi with ⟨inst₁, hi₁, hlike⟩ | ⟨-, hpos, hnone, -⟩ <;>
    rcases he.instance_cases hi' with ⟨inst₁', hi₁', hlike'⟩ | ⟨-, hpos', hnone', -⟩
  · refine h r r' inst₁ inst₁' hi₁ hi₁' hfn ?_
    rw [← hlike.argTypes, ← hlike'.argTypes, htypes]
  · exact absurd (hlike.argTypes.symm.trans htypes) (argTypes_ne_of_instance? hnone' hfn hi₁)
  · exact absurd (hlike'.argTypes.symm.trans htypes.symm) (argTypes_ne_of_instance? hnone hfn.symm hi₁')
  · cases r
    cases r'
    simp_all

/-- The body of a function was opened for these argument types. -/
def Core.Opened (k : Core) (key : Nat × List SignalType) : Prop :=
  ∃ r inst, instance? k.functions r = some inst ∧ (r.function, inst.argTypes) = key ∧ inst.entry ≠ 0

/-- The body that is opened at a point. -/
def Point.opening (p : Point) : Option (Nat × List SignalType) :=
  match p.event with
  | .opens r => some (r.function, (p.context.core.instanceAt r).argTypes)
  | _ => none

theorem Effect.opened (he : Effect base p k) {key : Nat × List SignalType}
    (h : p.context.core.Opened key) : k.Opened key := by
  obtain ⟨r, inst, hi, hkey, hentry⟩ := h
  obtain ⟨inst', hi', hlike, hopen⟩ := he.instance_kept hi
  exact ⟨r, inst', hi', by rw [hlike.argTypes, hkey], hopen hentry⟩

theorem Core.Quiet.functions (h : Quiet base k k') : k'.functions = k.functions := by rw [h.rest]

/-- A body that is opened was not open before, and is from then on. -/
theorem Effect.opening (he : Effect base p k) (h : Distinct p.context.session.functions)
    {key : Nat × List SignalType} (hkey : p.opening = some key) :
    ¬ p.context.core.Opened key ∧ k.Opened key := by
  cases he with
  | @enter r inst entry hp hi hown hentry hpos hroom =>
    have hat : p.context.core.instanceAt r = inst := by
      rw [Core.instanceAt]
      exact congrArg (Option.getD · default) hi
    simp only [Point.opening, hp, hat] at hkey
    cases hkey
    constructor
    · rintro ⟨r', inst', hi', hkey', hentry'⟩
      obtain ⟨hfn, htypes⟩ := Prod.mk.inj hkey'
      obtain rfl := h r' r inst' inst hi' hi hfn htypes
      exact hentry' (Option.some.inj (hi'.symm.trans hi) ▸ hentry)
    · refine ⟨r, { inst with entry }, ?_, rfl, Nat.ne_of_gt hpos⟩
      rw [Core.modifyInstance, instance?_modifyInstance, if_pos rfl]
      exact Option.map_eq_some_iff.mpr ⟨inst, hi, rfl⟩
  | keep hidle _ =>
    unfold Point.opening at hkey
    split at hkey
    · next hp => exact absurd (by rw [Point.Acts, hp]; trivial) hidle
    · cases hkey
  | define hp | resize hp _ _ | build hp | make hp _ _ _ _ _ | size hp _ _ | leave hp
  | give hp _ _ _ _ => simp [Point.opening, hp] at hkey

namespace Threads

variable {t : List Point}

theorem distinct (h : Threads base k t k') (hk : Distinct k.functions) : Distinct k'.functions :=
  h.invariant (I := fun k => Distinct k.functions) (fun _ _ hq hk => hq.functions ▸ hk)
    (fun _ _ he hk => he.distinct hk) hk

theorem nested (h : Threads base k t k') (hk : k.building.length ≤ maxElaboration) :
    k'.building.length ≤ maxElaboration := by
  refine h.invariant (I := fun k => k.building.length ≤ maxElaboration) (fun _ _ hq hk => ?_)
    (fun _ _ he hk => ?_) hk
  · rw [hq.rest]
    exact hk
  · cases he with
    | enter _ _ _ _ _ hroom => exact hroom
    | leave _ => exact List.length_tail ▸ (Nat.sub_le _ _).trans hk
    | _ => exact hk

/-- No body is opened twice for the same argument types. -/
theorem openings (h : Threads base k t k') (hk : Distinct k.functions) :
    (t.filterMap Point.opening).Nodup ∧ ∀ key ∈ t.filterMap Point.opening, ¬ k.Opened key := by
  induction h with
  | done _ => exact ⟨List.nodup_nil, fun _ h => absurd h List.not_mem_nil⟩
  | @pass k k₁ k' p t hq he _ ih =>
    have hp : Distinct p.context.core.functions := hq.functions ▸ hk
    obtain ⟨hnodup, hnew⟩ := ih (he.distinct hp)
    have hopened {key} (h : k.Opened key) : p.context.core.Opened key := by
      rwa [Core.Opened, hq.functions]
    have hrest : ∀ key ∈ t.filterMap Point.opening, ¬ k.Opened key :=
      fun key hkey h => hnew key hkey (he.opened (hopened h))
    cases hkey : p.opening with
    | none =>
      rw [List.filterMap_cons_none hkey]
      exact ⟨hnodup, hrest⟩
    | some key =>
      obtain ⟨hbefore, hafter⟩ := he.opening hp hkey
      rw [List.filterMap_cons_some hkey]
      refine ⟨List.nodup_cons.mpr ⟨fun hmem => hnew key hmem hafter, hnodup⟩, fun key' hmem => ?_⟩
      rcases List.mem_cons.mp hmem with rfl | hmem
      · exact fun h => hbefore (hopened h)
      · exact hrest key' hmem

end Threads

theorem Concludes.openings {k₀ : Core} {t : List Point} {result : Except Error Sequencer}
    (h : Concludes base k₀ t result k') (hk : Distinct k₀.functions) :
    (t.filterMap Point.opening).Nodup := by
  -- a run never stops at the opening of a body
  have hlast {u : List Point} {q : Point} (h : Threads base k₀ u q.context.core)
      (hq : q.opening = none) : ((u ++ [q]).filterMap Point.opening).Nodup := by
    rw [List.filterMap_append, List.filterMap_cons_none hq, List.filterMap_nil, List.append_nil]
    exact (h.openings hk).1
  cases h with
  | stops h =>
    cases h with
    | after h _ => exact (h.openings hk).1
    | @refused u q e h hq =>
      refine hlast h ?_
      obtain ⟨event, c⟩ := q
      cases event with
      | opens r => exact hq.elim
      | _ => rfl
    | endless h hq => exact hlast h (by rw [Point.opening, hq])
  | unbuilt h _ _ | built h _ _ _ _ => exact (h.openings hk).1

/-! ## Programs without calls in handlers -/

/-- The overflow handler of a definition. -/
def Command.handler : Command → Option (List Command)
  | .define _ _ _ overflow _ => overflow
  | _ => none

/-- No overflow handler in the command contains a call. -/
def Command.Calm (x : Command) : Prop :=
  ∀ y ∈ x.within, ∀ handler, y.handler = some handler → ∀ z ∈ withinAll handler, z.isCall = false

/-- All functions are without calls in their handlers. -/
def Context.Calm (c : Context) : Prop := ∀ x ∈ c.definitions, x.Calm

/-- A command of such a program, and never a call that the budget is too small for. -/
def Point.Calm (p : Point) : Prop :=
  match p.event with
  | .performs _ x => x.Calm
  | .exhausts => False
  | _ => True

section

variable {α β : Type} {t : List Point}

theorem calm_bind {x : ElabM α} {f : α → ElabM β} {u : α → Context → List Point}
    {M : α → Context → Prop} {Q : β → Context → Prop} (ht : ∀ p ∈ t, p.Calm) (hx : Ensures x c M)
    (hf : ∀ a c', M a c' → (∀ p ∈ u a c', p.Calm) ∧ Ensures (f a) c' Q) :
    (∀ p ∈ t ++ onward x c u, p.Calm) ∧ Ensures (x >>= f) c Q := by
  constructor
  · intro p hp
    rcases List.mem_append.mp hp with hp | hp
    · exact ht p hp
    · obtain ⟨a, c', hrun, hp⟩ := mem_onward.mp hp
      exact (hf a c' (hx a c' hrun)).1 p hp
  · rw [ensures_bind]
    exact hx.mono fun a c' h => (hf a c' h).2

theorem calm_lead {x : ElabM α} {f : α → ElabM β} {u : α → Context → List Point}
    {M : α → Context → Prop} {Q : β → Context → Prop} (hx : Ensures x c M)
    (hf : ∀ a c', M a c' → (∀ p ∈ u a c', p.Calm) ∧ Ensures (f a) c' Q) :
    (∀ p ∈ onward x c u, p.Calm) ∧ Ensures (x >>= f) c Q :=
  calm_bind (t := []) (fun _ h => absurd h List.not_mem_nil) hx hf

end

/-- A step passes calm points only, and comes back to the body that it started in. -/
def Stays (R : List InstanceRef → Prop) : Judgement := fun _ x c t =>
  c.Calm → R c.draft.building → (∀ p ∈ t, p.Calm) ∧
    Ensures x c fun _ c' => c'.Calm ∧ c'.draft.building = c.draft.building

namespace Stays

variable {R : List InstanceRef → Prop} {α β : Type} {t : List Point}

theorem of_same {x : ElabM α} (ht : ∀ p ∈ t, p.Calm)
    (h : Ensures x c fun _ c' => c'.definitions = c.definitions ∧
      c'.draft.building = c.draft.building) : Stays R α x c t := by
  refine fun hc _ => ⟨ht, h.mono ?_⟩
  rintro _ c' ⟨hfs, hb⟩
  exact ⟨by rwa [Context.Calm, hfs], hb⟩

/-- A step without points. -/
theorem of_quiet {x : ElabM α} (h : Ensures x c fun _ c' => c'.definitions = c.definitions ∧
    c'.draft.building = c.draft.building) : Stays R α x c [] :=
  .of_same (fun _ h => absurd h List.not_mem_nil) h

/-- A step at one point. -/
theorem at_point {x : ElabM α} {p : Point} (hp : p.Calm)
    (h : Ensures x c fun _ c' => c'.definitions = c.definitions ∧
      c'.draft.building = c.draft.building) : Stays R α x c [p] :=
  .of_same (fun _ h => List.mem_singleton.mp h ▸ hp) h

theorem at_passive {x : ElabM α} {p : Point} (hp : p.Calm) (hx : Passive x) : Stays R α x c [p] :=
  .at_point hp ((hx c).mono fun _ _ h => ⟨h.definitions, h.building⟩)

theorem cons {x : ElabM α} {p : Point} (hp : p.Calm) (hx : Stays R α x c t) :
    Stays R α x c (p :: t) :=
  fun hc hR => ⟨List.forall_mem_cons.mpr ⟨hp, (hx hc hR).1⟩, (hx hc hR).2⟩

theorem bind {x : ElabM α} {f : α → ElabM β} {u : α → Context → List Point}
    (hx : Stays R α x c t) (hf : ∀ a c', x.run c = .ok a c' → Stays R β (f a) c' (u a c')) :
    Stays R β (x >>= f) c (t ++ onward x c u) := by
  intro hc hR
  obtain ⟨ht, hok⟩ := hx hc hR
  have hreach : Ensures x c fun a c' => x.run c = .ok a c' ∧ c'.Calm ∧
      c'.draft.building = c.draft.building := fun a c' hrun => ⟨hrun, hok a c' hrun⟩
  refine calm_bind ht hreach ?_
  rintro a c' ⟨hrun, hc', hb⟩
  rw [← hb]
  exact hf a c' hrun hc' (hb ▸ hR)

theorem chained : Chained (Stays R) where
  bind := .bind
  reads hx _ := .of_quiet (.of_reads hx fun _ => ⟨rfl, rfl⟩)

theorem step (c : Context) : Stays R Nat step c [] := .of_quiet (.step fun _ _ => ⟨rfl, rfl⟩)

theorem emit (st st' : Statement) (c : Context) : Stays R Unit (emit st) c [⟨.emits st', c⟩] :=
  .at_point trivial (ensures_emit.mpr ⟨rfl, rfl⟩)

theorem popState (inst : Instance) (c : Context) :
    Stays R Nat (popState inst) c [⟨.emits inst.pop, c⟩] := by
  refine .at_point trivial ?_
  rw [Program.popState, ensures_bind]
  refine .step fun f _ => ?_
  simp only [ensures_ops]
  exact ⟨rfl, rfl⟩

theorem steps : Steps (Stays R) where
  toChained := chained
  step := .step
  fail _ c := .of_quiet (ensures_fail.mpr trivial)
  record _ _ c := .of_quiet (ensures_record.mpr ⟨rfl, rfl⟩)
  scope _ c := .of_quiet (ensures_modifyScope.mpr ⟨rfl, rfl⟩)
  expand _ := .of_quiet (ensures_modifyModule.mpr ⟨rfl, rfl⟩)
  frame hf c := by
    refine .of_quiet (ensures_modifyDraft.mpr ⟨rfl, ?_⟩)
    obtain ⟨_, _, hd⟩ := hf c.draft
    rw [hd]
  addGoto _ _ _ := .of_quiet (ensures_addGoto.mpr ⟨rfl, rfl⟩)
  emit st c := .emit st st c
  branch := chained.branch (fun c => .of_quiet (ensures_openBlock.mpr ⟨rfl, rfl⟩))
    (fun c => .of_quiet (ensures_closeBlock.mpr ⟨rfl, rfl⟩)) .emit
  resolveReturn v _ := .at_passive trivial (.resolveReturn _ v)
  popState := .popState

theorem define {n : Nat} {x : Command} (hx : x.Calm) {name : String} {depth : Int}
    {returns : Option SignalType} {overflow : Option (List Command)} {body : List Command}
    (hdef : x = .define name depth returns overflow body) (c : Context) :
    Stays R Unit (perform (callWithin n) x) c [⟨.performs n x, c⟩] := by
  refine fun hc _ => ⟨fun _ h => List.mem_singleton.mp h ▸ hx, ?_⟩
  subst hdef
  simp only [perform, defineFunction, ensures_ops]
  refine ⟨fun y hy => ?_, trivial⟩
  rw [Context.definitions, Array.map_push, Array.mem_push] at hy
  exact hy.elim (hc y) fun h => h ▸ hx

theorem alter {n : Nat} {x : Command} (hx : x.Calm) (halters : x.alters = true) (c : Context) :
    Stays R Unit (perform (callWithin n) x) c [⟨.performs n x, c⟩] := by
  cases x with
  | define name depth returns overflow body => exact .define hx rfl c
  | resize name t =>
    refine .at_point hx ?_
    simp only [perform, resizeSignal, ensures_bind]
    refine .resolveSignal fun i hi => ?_
    simp only [ensures_ops]
    exact fun _ _ => ⟨rfl, trivial⟩
  | stateBody id body =>
    refine .cons hx (chained.trail (steps.resolving (Script.resolveBlock_expanding · · body) c) ?_)
    exact fun _ _ => .of_quiet (ensures_modifyMachine.mpr ⟨rfl, rfl⟩)
  | stateGoto id t =>
    refine .cons hx (chained.trail (steps.resolving (Script.resolveTransition_expanding · · t) c) ?_)
    exact fun _ _ => .of_quiet (ensures_modifyMachine.mpr ⟨rfl, rfl⟩)
  | newState name =>
    refine .cons hx (chained.past (chained.reads .getDraft c) rfl ?_)
    split
    · exact chained.trail (.of_quiet (ensures_modifyMachine.mpr ⟨rfl, rfl⟩)) fun _ =>
        steps.record _ _
    · exact steps.record _ _ c
  | buildMachine =>
    refine .at_point hx ?_
    simp only [perform, ensures_bind, ensures_buildDraft, ensures_record]
    exact ⟨rfl, rfl⟩
  | _ => cases halters

/-- Calm commands, with no more calls than `Q` allows. -/
theorem performs {Q : Command → Prop} (hcalm : ∀ x, Q x → x.Calm)
    (hparts : ∀ x, Q x → ∀ y ∈ x.parts, Q y) : Performs (Stays R) Q where
  toSteps := steps
  parts hx := hparts _ hx
  ordinary hx _ h := .cons (hcalm _ hx) h
  alter hx := .alter (hcalm _ hx)

end Stays

/-! ## Calls within the budget -/

theorem Context.Calm.function (h : c.Calm) (fn : Nat) : (c.function fn).definition.Calm := by
  rw [Context.function]
  cases hf : c.session.functions[fn]? with
  | none =>
    intro y hy handler hhandler
    obtain rfl : y = (default : Function).definition := List.mem_singleton.mp hy
    cases hhandler
  | some f => exact h _ (Array.mem_map_of_mem (Array.mem_of_getElem? hf))

theorem Command.Calm.body {f : Function} (h : f.definition.Calm) : ∀ x ∈ f.body, x.Calm := by
  intro x hx y hy
  refine h y ?_
  rw [Function.definition, Command.within]
  exact List.mem_cons_of_mem _ (List.mem_append_right _ (Command.mem_withinAll hx hy))

/-- A command without calls, and without calls in handlers. -/
def Command.Silent (x : Command) : Prop := x.Calm ∧ ∀ y ∈ x.within, y.isCall = false

theorem Command.Calm.handler {f : Function} (h : f.definition.Calm) {handler : List Command}
    (hf : f.overflow = some handler) : ∀ x ∈ handler, x.Silent := by
  intro x hx
  constructor
  · intro y hy
    refine h y ?_
    rw [Function.definition, Command.within, hf, Command.withinHandler]
    exact List.mem_cons_of_mem _ (List.mem_append_left _ (Command.mem_withinAll hx hy))
  · intro y hy
    exact h _ (Command.self_mem_within _) handler hf y (Command.mem_withinAll hx hy)

theorem Command.Calm.parts {x : Command} (h : x.Calm) : ∀ y ∈ x.parts, y.Calm :=
  fun _ hy _ hz => h _ (within_of_parts hy hz)

theorem Command.Silent.parts {x : Command} (h : x.Silent) : ∀ y ∈ x.parts, y.Silent :=
  fun y hy => ⟨h.1.parts y hy, fun z hz => h.2 z (within_of_parts hy hz)⟩

/-- No handler makes a call, so the budget for them does not matter. -/
theorem stays_handler (R : List InstanceRef → Prop) (n : Nat)
    (told : Nat → Int → List Expr → Context → List Point) {fn : Nat} {handler : List Command}
    (hf : (c.function fn).overflow = some handler) :
    Stays R Unit (performAll (callWithin n) handler) c (Command.pointsAll n told handler c) := by
  intro hc
  have hperforms : Performs (Stays R) Command.Silent :=
    Stays.performs (fun _ h => h.1) fun _ h => h.parts
  refine hperforms.performAll (fun x hx hcall => ?_) handler ((hc.function fn).handler hf) c hc
  exact absurd hcall (by simp [hx.2 x x.self_mem_within])

/-- The budget is enough for all bodies that can still be opened. -/
def Enough (n : Nat) (building : List InstanceRef) : Prop :=
  maxElaboration < n + building.length ∧ building.length ≤ maxElaboration

/-- There is room for one more body. -/
def Room (n : Nat) (building : List InstanceRef) : Prop :=
  maxElaboration ≤ n + building.length ∧ building.length < maxElaboration

namespace Stays

variable {R : List InstanceRef → Prop} {n : Nat}
  {told : Nat → Int → List Expr → Context → List Point}

theorem finishCall (r : InstanceRef) (call : Nat) (link : LinkId) (skip : Nat) (c : Context) :
    Stays R Unit (finishCall (performAll (callWithin n)) r call link skip) c
      (handlerPoints (Command.pointsAll n told) r c) := by
  have hhandler : ∀ fn handler c, (c.function fn).overflow = some handler →
      Stays R Unit (performAll (callWithin n) handler) c (Command.pointsAll n told handler c) :=
    fun _ _ _ hf => stays_handler R n told hf
  exact steps.finishCall (P := fun _ => True) hhandler
    (fun _ _ _ _ => .of_quiet (ensures_modifyDraft.mpr ⟨rfl, rfl⟩)) r call trivial skip c

theorem callExisting (r : InstanceRef) (args : List Expr) (c : Context) :
    Stays R Unit (callExisting (performAll (callWithin n)) r args) c
      (existingPoints (Command.pointsAll n told) r args c) := by
  refine chained.bind (steps.pushCall r args c) fun link c₁ _ => ?_
  exact chained.lead (.step c₁) fun call c₂ _ => .finishCall r call link (call + 1) c₂

theorem enterBody (r : InstanceRef) (call : Nat) {c : Context} (hc : c.Calm) :
    Ensures (enterBody r call) c fun _ c' => c'.Calm ∧
      c'.draft.building = r :: c.draft.building := by
  simp only [Program.enterBody, ensures_ops, ensures_modifyInstance]
  refine ⟨?_, trivial⟩
  rw [Context.Calm, Context.definitions,
    definitions_modify c.session.functions r.function (·.modify r.position _)]
  exact hc

theorem closeBody (r : InstanceRef) {c : Context} (hc : c.Calm) :
    (∀ p ∈ closePoints r c, p.Calm) ∧ Ensures (closeBody r) c fun _ c' => c'.Calm ∧
      c'.draft.building = c.draft.building.tail := by
  refine calm_lead (steps (R := fun _ => True).scope (fun _ => by rfl) c hc trivial).2 ?_
  rintro _ c₁ ⟨hc₁, hb₁⟩
  have hreturn := steps (R := fun _ => True).makeReturn (r := r) (.inl rfl) hc₁ trivial
  refine calm_bind hreturn.1 hreturn.2 ?_
  rintro last c₂ ⟨hc₂, hb₂⟩
  refine calm_lead (steps (R := fun _ => True).popFrame c₂ hc₂ trivial).2 ?_
  rintro _ c₃ ⟨hc₃, hb₃⟩
  refine ⟨fun _ h => List.mem_singleton.mp h ▸ trivial, ?_⟩
  rw [ensures_bind, ensures_modifyDraft, ensures_pure]
  exact ⟨hc₃, by rw [hb₃, hb₂, hb₁]⟩

theorem callFirst (hbody : ∀ body c, (∀ x ∈ body, x.Calm) →
      Stays (Enough n) Unit (performAll (callWithin n) body) c (Command.pointsAll n told body c))
    (r : InstanceRef) (args : List Expr) (c : Context) :
    Stays (Room n) Unit (callFirst (performAll (callWithin n)) r args) c
      (firstPoints (performAll (callWithin n)) (Command.pointsAll n told) r args c) := by
  rw [callFirst_entered]
  refine chained.bind (steps.pushCall r args c) fun link c₁ _ => ?_
  refine chained.lead (.step c₁) fun call c₂ _ hc₂ hR => ?_
  refine calm_bind (t := [⟨.opens r, c₂⟩]) ?_ (enterBody r call hc₂) ?_
  · exact fun _ h => List.mem_singleton.mp h ▸ trivial
  rintro _ c₃ ⟨hc₃, hb₃⟩
  have hrun := hbody (c₃.function r.function).body c₃ (hc₃.function r.function).body hc₃ <| by
    rw [hb₃, Enough, List.length_cons]
    exact ⟨by have := hR.1; omega, hR.2⟩
  have hrest : (∀ p ∈ Command.pointsAll n told (c₃.function r.function).body c₃ ++
      onward (performAll (callWithin n) (c₃.function r.function).body) c₃ fun _ c₄ =>
        closePoints r c₄ ++ onward (Program.closeBody r) c₄ fun _ c₅ =>
          handlerPoints (Command.pointsAll n told) r c₅, p.Calm) ∧ Ensures (do
      performAll (callWithin n) (c₃.function r.function).body
      let last ← Program.closeBody r
      Program.finishCall (performAll (callWithin n)) r call link (last + 1)) c₃ fun _ c' =>
        c'.Calm ∧ c'.draft.building = c₂.draft.building := by
    refine calm_bind hrun.1 hrun.2 ?_
    rintro _ c₄ ⟨hc₄, hb₄⟩
    have hclose := closeBody r hc₄
    refine calm_bind hclose.1 hclose.2 ?_
    rintro last c₅ ⟨hc₅, hb₅⟩
    have hfinish : Stays (fun _ => True) Unit _ c₅ (handlerPoints (Command.pointsAll n told) r c₅) :=
      .finishCall r call link (last + 1) c₅
    have hend := hfinish hc₅ trivial
    rwa [hb₅, hb₄, hb₃] at hend
  exact ⟨hrest.1, ensures_bind.mpr (ensures_getFunction.mpr hrest.2)⟩

/-- A stack is only made where one more body can be opened. -/
theorem instantiate (fn : Nat) (types : List SignalType) (c : Context) :
    Ensures (instantiate fn types) c fun _ c' => c'.definitions = c.definitions ∧
      c'.draft.building = c.draft.building ∧ c.draft.building.length < maxElaboration := by
  simp only [Program.instantiate, ensures_ops, ensures_ite, implies_true, true_and]
  intro hroom
  refine .declareArgs _ _ fun args m _ _ _ _ => ?_
  simp only [ensures_ops, modifyFunction]
  exact ⟨definitions_modify c.session.functions fn (·.push _), rfl, Nat.lt_of_not_le hroom⟩

theorem callFound (hbody : ∀ body c, (∀ x ∈ body, x.Calm) →
      Stays (Enough n) Unit (performAll (callWithin n) body) c (Command.pointsAll n told body c))
    (fn : Nat) (depth : Int) (args : List Expr) (found : Found) (c : Context) :
    Stays (Enough (n + 1)) InstanceRef (callFound (performAll (callWithin n)) fn depth args found) c
      (foundPoints (performAll (callWithin n)) (Command.pointsAll n told) fn depth args found c) := by
  cases found with
  | building r =>
    refine chained.bind (t := [⟨.recurs r depth, c⟩]) (.at_passive trivial (.sizeStack r depth))
      fun _ c₁ _ => ?_
    exact chained.trail (.callExisting r args c₁) fun _ => chained.done r
  | known r => exact chained.trail (.callExisting r args c) fun _ => chained.done r
  | missing types =>
    intro hc hR
    refine calm_bind (t := [⟨.makes fn types, c⟩]) ?_ (instantiate fn types c) ?_
    · exact fun _ h => List.mem_singleton.mp h ▸ trivial
    rintro r c₁ ⟨hfs, hb, hroom⟩
    have hcall : Stays (Room n) InstanceRef _ c₁ _ :=
      chained.trail (callFirst hbody r args c₁) fun _ => chained.done r
    rw [← hb]
    refine hcall (by rwa [Context.Calm, hfs]) (hb ▸ ⟨?_, hroom⟩)
    have := hR.1
    omega

/-- Each level of the budget opens at most one body, so the budget never runs out. -/
theorem callWithin : ∀ (n fn : Nat) (depth : Int) (args : List Expr) (c : Context),
    Stays (Enough n) Expr (callWithin n fn depth args) c (pointsWithin n fn depth args c)
  | 0, _, _, _, c => fun _ hR => by
    have := hR.1
    have := hR.2
    omega
  | n + 1, fn, depth, args, c => by
    have hbody : ∀ body c, (∀ x ∈ body, x.Calm) → Stays (Enough n) Unit
        (performAll (Program.callWithin n) body) c (Command.pointsAll n (pointsWithin n) body c) :=
      fun body c hcalm => (performs (fun _ h => h) fun _ h => h.parts).performAll
        (fun _ _ _ fn depth args c _ => callWithin n fn depth args c) body hcalm c
    simp only [Program.callWithin, callFunction_found, pointsWithin, callPoints]
    refine chained.lead (chained.reads (.findInstance fn args) c) fun found c₁ _ => ?_
    refine chained.trail (callFound hbody fn depth args found c₁) fun r => ?_
    exact chained.seq (chained.reads (.getInstance r)) fun _ => chained.done _

theorem pointsOf {body : List Command} (hbody : ∀ x ∈ body, x.Calm) (n : Nat) (c : Context) :
    Stays (Enough n) Unit (performAll (Program.callWithin n) body) c (pointsOf n body c) :=
  (performs (fun _ h => h) fun _ h => h.parts).performAll
    (fun _ _ _ fn depth args c _ => callWithin n fn depth args c) body hbody c

end Stays

/-! ## Whole programs -/

theorem Stops.exhausts {t : List Point} (h : Stops base k t .endless k') :
    ∃ p ∈ t, p.event = .exhausts := by
  cases h with
  | after _ he => exact absurd rfl he
  | @refused u p _ _ hp =>
    unfold Point.Refuses at hp
    split at hp
    · cases hp.2
    · cases hp.2.2.2
    · obtain ⟨_, -, -, -, -, he⟩ := hp
      cases he
    · exact hp.elim
  | @endless u p _ hp => exact ⟨p, List.mem_append_right u List.mem_cons_self, hp⟩

section

variable {s : Session} {body : List Command} {opts : Options}
  (hcalm : ∀ f ∈ s.functions, f.definition.Calm) (hbody : ∀ x ∈ body, x.Calm)
  (hn : maxElaboration < opts.budget)
include hcalm hbody hn

theorem course_calm : ∀ p ∈ course s opts body, p.Calm := by
  have hbegin : Ensures (beginProgram opts.start) (draft s opts) fun _ c =>
      c.Calm ∧ c.draft.building = [] := by
    refine (Ensures.beginProgram opts.start).mono ?_
    rintro _ c ⟨hfs, -, -, _, _, _, -, -, hd⟩
    refine ⟨fun x hx => ?_, by rw [hd]; rfl⟩
    rw [Context.definitions, hfs] at hx
    obtain ⟨f, hf, rfl⟩ := Array.mem_map.mp hx
    exact hcalm f hf
  refine (calm_lead (f := fun _ => performAll (callWithin opts.budget) body) (Q := fun _ _ => True)
    hbegin ?_).1
  rintro _ c ⟨hc, hb⟩
  have hstay := Stays.pointsOf hbody opts.budget c hc (by rw [hb]; exact ⟨hn, Nat.zero_le _⟩)
  exact ⟨hstay.1, hstay.2.mono fun _ _ _ => trivial⟩

/-- A budget for all bodies that can be open is enough. -/
theorem build_ne_endless (hs : ∀ p ∈ s.scope.functions, p.2 < s.functions.size) :
    (build s opts body).1 ≠ .error .endless := by
  obtain ⟨k, hends, -⟩ := build_concludes hs opts body
  intro hend
  rw [hend] at hends
  cases hends with
  | stops h =>
    obtain ⟨p, hp, hevent⟩ := h.exhausts
    have hquiet := course_calm hcalm hbody hn p hp
    rw [Point.Calm, hevent] at hquiet
    exact hquiet

end

/-- Where no overflow handler makes a call, elaboration comes to an end however argument types change
from call to call: with any budget for more than 32 calls inside each other it is the same. Whatever
the budget is, at most 32 bodies are open at once, a call that needs one more is refused, and no body
is opened twice for the same argument types. -/
theorem build_converges {s : Session} (hs : ∀ p ∈ s.scope.functions, p.2 < s.functions.size)
    (hdistinct : Distinct s.functions) (hcalm : ∀ f ∈ s.functions, f.definition.Calm)
    {body : List Command} (hbody : ∀ x ∈ body, x.Calm) (opts : Options) :
    (maxElaboration < opts.budget → (build s opts body).1 ≠ .error .endless ∧
      ∀ n, maxElaboration < n → build s opts body = build s { opts with budget := n } body) ∧
    (∀ p ∈ course s opts body, p.context.draft.building.length ≤ maxElaboration ∧
      Distinct p.context.session.functions ∧
      ∀ fn types, p.event = .makes fn types → p.context.draft.building.length = maxElaboration →
        (build s opts body).1 = .error (.noConvergence (p.context.function fn).name types)) ∧
    ((course s opts body).filterMap Point.opening).Nodup ∧
    Distinct (build s opts body).2.functions := by
  obtain ⟨k, hends, hshows⟩ := build_concludes hs opts body
  refine ⟨fun hbudget => ⟨build_ne_endless hcalm hbody hbudget hs, fun n hn => ?_⟩, fun p hp => ?_,
    hends.openings hdistinct, ?_⟩
  · have hend (m : Nat) (hm : maxElaboration < m) :
        (build s { opts with budget := m } body).1 ≠ .error .endless :=
      build_ne_endless hcalm hbody hm hs
    rcases Nat.le_total opts.budget n with hle | hle
    · exact build_le hle s opts body (hend _ hbudget)
    · exact (build_le hle s opts body (hend n hn)).symm
  · obtain ⟨u, -, hthreads⟩ := hends.reach hp
    refine ⟨hthreads.nested (Nat.zero_le _), hthreads.distinct hdistinct,
      fun fn types hmake hfull => ?_⟩
    refine hends.refuses hp ?_
    rw [Point.Refuses, hmake]
    exact ⟨hfull.ge, rfl⟩
  · obtain ⟨u, k₁, -, hthreads, hfs⟩ := hends.functions
    rw [hshows.functions, hfs]
    exact hthreads.distinct hdistinct

/-- A function that is called with four bits, and calls itself with eight. -/
def widenBody : List Command :=
  [.define "widen" 0 none (some [.step]) [.call "widen" [.number 1 8] none],
   .call "widen" [.number 1 4] none]

/-- A function that calls itself with one bit more each time. -/
def growBody : List Command :=
  [.define "f" 0 none none [.call "f" [.numberLike 1 (.arg 0) 1] none], .call "f" [.number 1 8] none]

def growCheck (p : Point) : Bool :=
  match p.event with
  | .makes 0 types => types == [.unsigned 40] && p.context.draft.building.length == 32 &&
    (p.context.function 0).name == "f"
  | _ => false

/-- Two bodies are opened for the first function and its machine is built, with any budget for more
than 32 calls. With 32 bodies of the second one open, the call for the next is refused. -/
theorem widenBody_converges : ((∀ x ∈ widenBody, x.Calm) ∧ ∀ x ∈ growBody, x.Calm) ∧
    (∃ q s', build { module := sumTop } (sumOptions .binary) widenBody = (.ok q, s') ∧
      q.machine.size = 14 ∧ Distinct s'.functions ∧
      build { module := sumTop } { sumOptions .binary with budget := 33 } widenBody = (.ok q, s') ∧
      (course { module := sumTop } (sumOptions .binary) widenBody).filterMap Point.opening =
        [(0, [.unsigned 4]), (0, [.unsigned 8])]) ∧
    ∃ p ∈ course { module := sumTop } (sumOptions .binary) growBody,
      p.event = .makes 0 [.unsigned 40] ∧ p.context.draft.building.length = 32 ∧
      (build { module := sumTop } (sumOptions .binary) growBody).1 =
        .error (.noConvergence "f" [.unsigned 40]) := by
  have hdistinct : Distinct #[] := fun _ _ _ _ hi => nomatch hi
  have hconverges {body : List Command} (hbody : ∀ x ∈ body, x.Calm) :=
    build_converges (s := { module := sumTop }) (fun p hp => absurd hp List.not_mem_nil) hdistinct
      (fun f hf => absurd hf (Array.not_mem_empty f)) hbody (sumOptions .binary)
  have hcalm : (∀ x ∈ widenBody, x.Calm) ∧ ∀ x ∈ growBody, x.Calm := by
    simp [widenBody, growBody, Command.Calm, Command.within, Command.withinAll,
      Command.withinHandler, Command.handler, Command.isCall]
  refine ⟨hcalm, ?_, ?_⟩
  · obtain ⟨hbudget, -, -, hfunctions⟩ := hconverges hcalm.1
    have hsize : builds { module := sumTop } (sumOptions .binary) widenBody
        (fun q _ => q.machine.size == 14) = true := by decide +kernel
    obtain ⟨q, s', hbuild, hsize⟩ := exists_of_builds hsize
    have hsame := (hbudget (by decide)).2 33 (by decide)
    rw [hbuild] at hfunctions hsame
    exact ⟨q, s', hbuild, beq_iff_eq.mp hsize, hfunctions, hsame.symm, by decide +kernel⟩
  · obtain ⟨-, hrefused, -⟩ := hconverges hcalm.2
    have hfull : (course { module := sumTop } (sumOptions .binary) growBody).any growCheck = true := by
      decide +kernel
    obtain ⟨p, hp, hmakes⟩ := List.any_eq_true.mp hfull
    unfold growCheck at hmakes
    split at hmakes
    · next types hevent =>
      simp only [Bool.and_eq_true, beq_iff_eq] at hmakes
      obtain ⟨⟨rfl, hlength⟩, hname⟩ := hmakes
      exact ⟨p, hp, hevent, hlength, hname ▸ (hrefused p hp).2.2 0 _ hevent hlength⟩
    · cases hmakes

end Lockstep.Program
