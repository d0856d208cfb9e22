import Lockstep.Proofs.Program.Course

/-!
# What an elaboration changes

Between the points of its course an elaboration only adds to the module, and goes on with the code
of its machine. Functions, types, reports and the bodies under elaboration change at points, and
each kind of point has a change of its own. A run that fails stops between two points, or at one,
and reports its error.
-/

namespace Lockstep

def Reporter.errors (r : Reporter) : List Diagnostic :=
  r.diagnostics.filter (·.severity == .error)

theorem Reporter.errors_note (r : Reporter) (place message : String) :
    (r.note place message).errors = r.errors := by
  simp [errors, note, report]

theorem Reporter.errors_error (r : Reporter) (place message : String) :
    (r.error place message).errors = r.errors ++ [⟨.error, place, message⟩] := by
  simp [errors, error, report]

/-- A machine that is not built is left as it was. Its register may have been sized. -/
theorem Machine.build_cases (f : Machine) (m : Module) :
    (∃ e m', f.build m = (some e, f, m') ∧ (m' = m ∨ m' = f.sizeRegister m)) ∨
      f.built = false ∧ ∃ next, f.nextBody = .ok next ∧ f.build m = (none, { f with built := true },
        (f.processes next).foldl Module.addProcess (f.sizeRegister m)) := by
  unfold build
  split
  · next e _ => exact .inl ⟨e, m, rfl, .inl rfl⟩
  · next hnone =>
    dsimp only
    split
    · next e _ => exact .inl ⟨e, _, rfl, .inr rfl⟩
    · next next hnext =>
      refine .inr ⟨?_, next, hnext, rfl⟩
      unfold obstacle at hnone
      split at hnone
      · simp at hnone
      · next hbuilt => simpa using hbuilt

theorem Machine.modifyState_rest (f : Machine) (id : Int) (what : String) (change : State → State) :
    (f.modifyState id what change).type = f.type ∧
      (f.modifyState id what change).built = f.built ∧
      (f.modifyState id what change).onReset = f.onReset := by
  unfold modifyState
  split <;> exact ⟨rfl, rfl, rfl⟩

theorem Machine.build_type (f : Machine) (m : Module) : (f.build m).2.1.type = f.type := by
  rcases f.build_cases m with ⟨e, m', h, -⟩ | ⟨-, next, -, h⟩ <;> rw [h]

theorem Machine.build_onReset (f : Machine) (m : Module) : (f.build m).2.1.onReset = f.onReset := by
  rcases f.build_cases m with ⟨e, m', h, -⟩ | ⟨-, next, -, h⟩ <;> rw [h]

/-- Of the symbols only the type of the state register changes. -/
theorem Machine.build_symbols (f : Machine) (m : Module) :
    (f.build m).2.2.symbols = m.symbols ∨
      (f.build m).2.2.symbols = m.symbols.setType f.type (.unsigned f.registerWidth) := by
  rcases f.build_cases m with ⟨e, m', h, rfl | rfl⟩ | ⟨-, next, -, h⟩
  · exact .inl (by rw [h])
  · exact .inr (by rw [h]; rfl)
  · exact .inr (by rw [h]; rfl)

/-! ## Symbols that are touched -/

namespace Symbols

/-- Types change in the given cells only, and signals only if they are among the given ones. Every
signal keeps the place of its type. -/
structure Touches (cells : TypeId → Prop) (words : SignalId → Prop) (g g' : Symbols) : Prop where
  signals : ∀ (i : SignalId) x, g.signals[i]? = some x →
    ∃ y, g'.signals[i]? = some y ∧ y.type = x.type ∧ (¬ words i → y = x)
  types : ∀ (i : TypeId) t, g.types[i]? = some t →
    ∃ u, g'.types[i]? = some u ∧ (¬ cells i → u = t)
  links : ∀ (i : LinkId) v, g.links[i]? = some v → g'.links[i]? = some v

namespace Touches

variable {cells cells' : TypeId → Prop} {words words' : SignalId → Prop} {g g' g'' : Symbols}

theorem of_grows (h : g.Grows g') : Touches cells words g g' where
  signals i x hx := ⟨x, h.signals i x hx, rfl, fun _ => rfl⟩
  types i t ht := ⟨t, h.types i t ht, fun _ => rfl⟩
  links := h.links

theorem refl (g : Symbols) : Touches cells words g g := .of_grows (.refl g)

theorem trans (h : Touches cells words g g') (h' : Touches cells words g' g'') :
    Touches cells words g g'' where
  signals i x hx := by
    obtain ⟨y, hy, hxy, hsame⟩ := h.signals i x hx
    obtain ⟨z, hz, hyz, hsame'⟩ := h'.signals i y hy
    exact ⟨z, hz, hyz.trans hxy, fun hi => (hsame' hi).trans (hsame hi)⟩
  types i t ht := by
    obtain ⟨u, hu, hsame⟩ := h.types i t ht
    obtain ⟨v, hv, hsame'⟩ := h'.types i u hu
    exact ⟨v, hv, fun hi => (hsame' hi).trans (hsame hi)⟩
  links i v hv := h'.links i v (h.links i v hv)

theorem mono (h : Touches cells words g g') (hc : ∀ i, cells i → cells' i)
    (hw : ∀ i, words i → words' i) : Touches cells' words' g g' where
  signals i x hx := by
    obtain ⟨y, hy, hxy, hsame⟩ := h.signals i x hx
    exact ⟨y, hy, hxy, fun hi => hsame fun h => hi (hw i h)⟩
  types i t ht := by
    obtain ⟨u, hu, hsame⟩ := h.types i t ht
    exact ⟨u, hu, fun hi => hsame fun h => hi (hc i h)⟩
  links := h.links

theorem setType {i : TypeId} (hi : cells i) (t : SignalType) :
    Touches cells words g (g.setType i t) where
  signals j x hx := ⟨x, hx, rfl, fun _ => rfl⟩
  types j u hu := by
    have hj := (Array.getElem?_eq_some_iff.mp hu).1
    simp only [Symbols.setType, Array.getElem?_setIfInBounds]
    split
    · next hij => exact ⟨t, by rw [if_pos (hij ▸ hj)], fun hn => absurd (hij ▸ hi) hn⟩
    · exact ⟨u, hu, fun _ => rfl⟩
  links _ _ h := h

theorem resize {i : SignalId} {t : SignalType} (h : g.resize i t = some g')
    (hi : ∀ x u, g.signals[i]? = some x → x.type = some u → cells u) : Touches cells words g g' := by
  obtain ⟨u, hu, rfl⟩ := Option.map_eq_some_iff.mp h
  obtain ⟨x, hx, hxu⟩ := Option.bind_eq_some_iff.mp hu
  exact .setType (hi x u hx hxu) t

theorem signals_size (h : Touches cells words g g') : g.signals.size ≤ g'.signals.size := by
  by_contra hlt
  obtain ⟨y, hy, -⟩ := h.signals _ _ (Array.getElem?_eq_getElem (Nat.lt_of_not_le hlt))
  exact absurd (Array.getElem?_eq_some_iff.mp hy).1 (lt_irrefl _)

theorem types_size (h : Touches cells words g g') : g.types.size ≤ g'.types.size := by
  by_contra hlt
  obtain ⟨y, hy, -⟩ := h.types _ _ (Array.getElem?_eq_getElem (Nat.lt_of_not_le hlt))
  exact absurd (Array.getElem?_eq_some_iff.mp hy).1 (lt_irrefl _)

theorem links_size (h : Touches cells words g g') : g.links.size ≤ g'.links.size := by
  by_contra hlt
  have hy := h.links _ _ (Array.getElem?_eq_getElem (Nat.lt_of_not_le hlt))
  exact absurd (Array.getElem?_eq_some_iff.mp hy).1 (lt_irrefl _)

end Touches

/-- What is only added to is not touched. -/
theorem Grows.touches {g g' : Symbols} (h : g.Grows g') :
    Touches (fun _ => False) (fun _ => False) g g' := .of_grows h

end Symbols

theorem Program.touches_resized {cells : TypeId → Prop} {words : SignalId → Prop} {inst : Instance}
    (hc : cells inst.spType) (hw : ∀ d ∈ inst.depth :: inst.returnAddr :: inst.args, words d)
    (g : Symbols) (depth : Int) : g.Touches cells words (resized g inst depth) where
  signals i x hx := by
    rw [resized_signals, hx]
    refine ⟨_, rfl, rfl, fun hi => ?_⟩
    have hout : i ∉ inst.depth :: inst.returnAddr :: inst.args := fun h => hi (hw i h)
    simp only [List.mem_cons, not_or] at hout
    simp [Ne.symm hout.1, hout.2]
  types i t ht := by
    rw [resized_types, ht]
    split
    · next hi => exact ⟨_, rfl, fun hn => absurd (hi ▸ hc) hn⟩
    · exact ⟨t, rfl, fun _ => rfl⟩
  links i v hv := by rwa [resized, (foldl_depth _ _ _).2.1]

namespace Program

/-! ## The core of a context -/

/-- What functions and reports depend on; the code of the machine is not part of it. -/
structure Core where
  module : Module
  functions : Array Function
  named : List (String × Nat)
  /-- The errors reported so far, if there is anyone to report to. -/
  errors : Option (List Diagnostic)
  name : String
  building : List InstanceRef
  /-- Functions defined by the program. -/
  defined : List Nat
  /-- The type of state codes. -/
  code : TypeId
  built : Bool
  resumes : List (LinkId × Nat)
  run : SignalId
  /-- What a reset clears besides the run flag. -/
  pointers : List SignalId

def Session.errors (s : Session) : Option (List Diagnostic) := s.reporter.map Reporter.errors

def Context.core (c : Context) : Core where
  module := c.session.module
  functions := c.session.functions
  named := c.session.scope.functions
  errors := c.session.errors
  name := c.draft.name
  building := c.draft.building
  defined := c.draft.functions
  code := c.draft.machine.type
  built := c.draft.machine.built
  resumes := c.draft.resumes
  run := c.draft.run
  pointers := (Stmt.blockDests c.draft.machine.onReset).filter (· != c.draft.run)

namespace Core

/-- Errors are reported when a program is refused. -/
def halt (k : Core) (e : Error) : Core :=
  if e.isRefusal then { k with errors := k.errors.map (· ++ [⟨.error, k.name, e.message⟩]) } else k

def define (k : Core) (f : Function) : Core :=
  { k with
    functions := k.functions.push f
    named := (f.name, k.functions.size) :: k.named
    defined := k.defined ++ [k.functions.size] }

def modifyInstance (k : Core) (r : InstanceRef) (change : Instance → Instance) : Core :=
  { k with functions := k.functions.modify r.function fun f =>
      { f with instances := f.instances.modify r.position change } }

def withSymbols (k : Core) (g : Symbols) : Core := { k with module := { k.module with symbols := g } }

def instanceAt (k : Core) (r : InstanceRef) : Instance := (instance? k.functions r).getD default

/-- Only what was added to the module, and return addresses that `base` does not have, are new. -/
structure Quiet (base : Symbols) (k k' : Core) : Prop where
  module : k.module.Expands k'.module
  resumes : ∃ more, k'.resumes = k.resumes ++ more ∧ ∀ p ∈ more, base.links.size ≤ p.1
  rest : k' = { k with module := k'.module, resumes := k'.resumes }

theorem Quiet.refl (base : Symbols) (k : Core) : Quiet base k k :=
  ⟨.refl _, ⟨[], by simp, by simp⟩, rfl⟩

theorem Quiet.trans {base : Symbols} {k k' k'' : Core} (h : Quiet base k k') (h' : Quiet base k' k'') :
    Quiet base k k'' := by
  obtain ⟨more, hmore, hall⟩ := h.resumes
  obtain ⟨more', hmore', hall'⟩ := h'.resumes
  refine ⟨h.module.trans h'.module, ⟨more ++ more', by simp [hmore, hmore'], fun p hp => ?_⟩, ?_⟩
  · rcases List.mem_append.mp hp with hp | hp
    · exact hall p hp
    · exact hall' p hp
  · rw [h'.rest, h.rest]

theorem Quiet.expand {base : Symbols} {k : Core} {m : Module} (hm : k.module.Expands m) :
    Quiet base k { k with module := m } := ⟨hm, ⟨[], by simp, by simp⟩, rfl⟩

end Core

/-! ## Points and their effects -/

namespace Point

variable (p : Point)

/-- Where a point may change types. -/
def cells (i : TypeId) : Prop :=
  match p.event with
  | .performs _ (.resize name _) => ∃ d x,
    p.context.session.scope.signal? p.context.session.module name = some d ∧
      p.context.session.module.symbols.signals[d]? = some x ∧ x.type = some i
  | .performs _ .buildMachine => i = p.context.draft.machine.type
  | .recurs r _ => i = (p.context.core.instanceAt r).spType
  | .returns r _ => ∃ x,
    p.context.session.module.symbols.signals[(p.context.core.instanceAt r).ret]? = some x ∧
      x.type = some i
  | _ => False

/-- The signals that a point may change. -/
def words (i : SignalId) : Prop :=
  match p.event with
  | .recurs r _ =>
    let inst := p.context.core.instanceAt r
    i ∈ inst.depth :: inst.returnAddr :: inst.args
  | _ => False

/-- The program is refused at the point: too many bodies are being elaborated inside each other, a
recursive call asks for another depth than the one that is fixed, or a value is returned that does
not fit the register for it. -/
def Refuses (e : Error) : Prop :=
  match p.event with
  | .makes fn types => maxElaboration ≤ p.context.draft.building.length ∧
    e = .noConvergence (p.context.function fn).name types
  | .recurs r request =>
    let inst := p.context.core.instanceAt r
    let fixed := instanceDepth p.context.session.module.symbols inst
    inst.sized = true ∧ request ≠ 0 ∧ request ≠ fixed ∧
      e = .depthConflict (p.context.function r.function).name request fixed
  | .returns r v =>
    let g := p.context.session.module.symbols
    let register := g.signalType (p.context.core.instanceAt r).ret
    ∃ t, g.knownType v = some t ∧ t.isUnknown = false ∧
      (p.context.core.instanceAt r).resolved = true ∧
      TypeSlot.fitsWithin (some t) register = false ∧
      e = .returnType (p.context.function r.function).name (some t) register
  | _ => False

/-- Something has to change at the point: an instance is made or its body is opened or closed, the
depth of its stack is fixed, or its register gets a type. -/
def Acts : Prop :=
  match p.event with
  | .makes .. | .opens _ | .closes _ => True
  | .recurs r _ => (p.context.core.instanceAt r).sized = false
  | .returns r v => (p.context.core.instanceAt r).resolved = false ∧
    ∃ t, p.context.session.module.symbols.knownType v = some t ∧ t.isUnknown = false
  | _ => False

theorem Refuses.unique {p : Point} {e e' : Error} (h : p.Refuses e) (h' : p.Refuses e') :
    e = e' := by
  obtain ⟨event, c⟩ := p
  cases event with
  | makes fn types => exact h.2.trans h'.2.symm
  | recurs r request => exact h.2.2.2.trans h'.2.2.2.symm
  | returns r v =>
    obtain ⟨t, ht, -, -, -, rfl⟩ := h
    obtain ⟨u, hu, -, -, -, rfl⟩ := h'
    rw [Option.some.inj (ht.symm.trans hu)]
  | _ => exact h.elim

end Point

/-- The environment of a context, in which nothing is ruled out. -/
def Context.env (c : Context) : Env where
  base := 0
  foreign := []
  assignable _ := True
  requests _ _ := True
  escapes := True
  machine := c.draft.machine
  run := c.draft.run

theorem Context.env_code (c : Context) : c.draft.machine.type = c.env.code := rfl

/-- The stack of an instance, and the type of what it returns, are not among the given symbols. -/
structure Instance.Owned (base g : Symbols) (inst : Instance) : Prop where
  stack : ∀ d ∈ inst.stack, base.signals.size ≤ d
  pointer : base.types.size ≤ inst.spType
  result : ∃ x t, g.signals[inst.ret]? = some x ∧ x.type = some t ∧ base.types.size ≤ t

theorem Instance.Owned.touch {base g g' : Symbols} {inst : Instance} {cells : TypeId → Prop}
    {words : SignalId → Prop} (h : inst.Owned base g) (hg : g.Touches cells words g') :
    inst.Owned base g' := by
  obtain ⟨x, t, hx, ht, hle⟩ := h.result
  obtain ⟨y, hy, hyx, -⟩ := hg.signals _ _ hx
  exact ⟨h.stack, h.pointer, y, t, hy, hyx.trans ht, hle⟩

theorem NewStack.owned {env : Env} {m m' : Module} {inst : Instance} (h : NewStack env m m' inst)
    {base : Symbols} (hs : base.signals.size ≤ m.symbols.signals.size)
    (ht : base.types.size ≤ m.symbols.types.size) : inst.Owned base m'.symbols := by
  obtain ⟨x, t, -, hx, hxt, -, hle, -⟩ := h.ret_type
  exact ⟨fun d hd => hs.trans (h.signals d hd), ht.trans h.type, x, t, hx, hxt, ht.trans hle⟩

/-- The two instances differ at most in how far they are elaborated. -/
def Instance.Like (inst inst' : Instance) : Prop :=
  inst' = { inst with entry := inst'.entry, sized := inst'.sized, resolved := inst'.resolved }

theorem Instance.Like.refl (inst : Instance) : inst.Like inst := rfl

theorem Instance.Like.argTypes {inst inst' : Instance} (h : inst.Like inst') :
    inst'.argTypes = inst.argTypes := by rw [h]

theorem Instance.Owned.like {base g : Symbols} {inst inst' : Instance} (h : inst.Owned base g)
    (hl : inst.Like inst') : inst'.Owned base g := by
  rw [hl]
  exact ⟨h.stack, h.pointer, h.result⟩

/-- What a point that is passed changes. -/
inductive Effect (base : Symbols) (p : Point) : Core → Prop
  | keep : ¬ p.Acts → (∀ e, ¬ p.Refuses e) → Effect base p p.context.core
  | define {n : Nat} {name : String} {depth : Int} {returns : Option SignalType}
      {overflow : Option (List Command)} {body : List Command} :
      p.event = .performs n (.define name depth returns overflow body) →
      Effect base p (p.context.core.define { name, depth, returns, overflow, body })
  | resize {n : Nat} {name : String} {t : SignalType} {i : SignalId} {g : Symbols} :
      p.event = .performs n (.resize name t) →
      p.context.session.scope.signal? p.context.session.module name = some i →
      p.context.session.module.symbols.resize i t = some g →
      Effect base p (p.context.core.withSymbols g)
  | build {n : Nat} : p.event = .performs n .buildMachine →
      Effect base p { p.context.core with
        module := (p.context.draft.machine.build p.context.session.module).2.2
        built := (p.context.draft.machine.build p.context.session.module).2.1.built }
  /-- A stack is made, if there is room for its body. -/
  | make {fn : Nat} {types : List SignalType} {f : Function} {inst : Instance} {m : Module} :
      p.event = .makes fn types → p.context.session.functions[fn]? = some f →
      f.instance? types = none → p.context.draft.building.length < maxElaboration →
      NewStack p.context.env p.context.session.module m inst → inst.Serves m.symbols f types →
      Effect base p { p.context.core with
        module := m
        functions := p.context.session.functions.modify fn fun f =>
          { f with instances := f.instances.push inst }
        pointers := p.context.core.pointers ++ [inst.sp].filter (· != p.context.draft.run) }
  /-- The depth of a stack is fixed. -/
  | size {r : InstanceRef} {request : Int} : p.event = .recurs r request →
      r ∈ p.context.draft.building → (p.context.core.instanceAt r).sized = false →
      Effect base p ((p.context.core.withSymbols (resized p.context.session.module.symbols
          (p.context.core.instanceAt r) (stackDepth (p.context.function r.function)
            (p.context.core.instanceAt r) request))).modifyInstance r ({ · with sized := true }))
  | enter {r : InstanceRef} {inst : Instance} {entry : Nat} : p.event = .opens r →
      instance? p.context.session.functions r = some inst →
      inst.Owned base p.context.session.module.symbols → inst.entry = 0 → 0 < entry →
      p.context.draft.building.length < maxElaboration →
      Effect base p { p.context.core.modifyInstance r ({ · with entry }) with
        building := r :: p.context.draft.building }
  | leave {r : InstanceRef} : p.event = .closes r →
      Effect base p { p.context.core with building := p.context.draft.building.tail }
  /-- A return register gets its type. -/
  | give {r : InstanceRef} {v : Expr} {t : SignalType} : p.event = .returns r v →
      r ∈ p.context.draft.building → (p.context.core.instanceAt r).resolved = false →
      p.context.session.module.symbols.knownType v = some t → t.isUnknown = false →
      Effect base p ((p.context.core.withSymbols
          ((p.context.session.module.symbols.resize (p.context.core.instanceAt r).ret t).getD
            p.context.session.module.symbols)).modifyInstance r ({ · with resolved := true }))

namespace Effect

variable {base : Symbols} {p : Point} {k : Core}

theorem accepted (h : Effect base p k) (e : Error) : ¬ p.Refuses e := by
  cases h with
  | keep _ hp => exact hp e
  | make hp _ _ hroom _ _ =>
    rw [Point.Refuses, hp]
    exact fun h => absurd hroom (Nat.not_lt.mpr h.1)
  | size hp _ hsized =>
    rw [Point.Refuses, hp]
    exact fun h => absurd h.1 (by simp [hsized])
  | give hp _ hres _ _ =>
    rw [Point.Refuses, hp]
    rintro ⟨t, -, -, hresolved, -, -⟩
    rw [hres] at hresolved
    cases hresolved
  | define hp | resize hp _ _ | build hp | enter hp _ _ _ _ _ | leave hp =>
    rw [Point.Refuses, hp]
    exact fun h => h

theorem touches (h : Effect base p k) :
    p.context.session.module.symbols.Touches p.cells p.words k.module.symbols := by
  cases h with
  | keep _ _ | define _ | enter _ _ _ _ _ _ | leave _ => exact .refl _
  | resize hp hd hg =>
    refine .resize hg fun x u hx hu => ?_
    rw [Point.cells, hp]
    exact ⟨_, x, hd, hx, hu⟩
  | build hp =>
    rcases p.context.draft.machine.build_symbols p.context.session.module with hs | hs
    · exact hs ▸ .refl _
    · refine hs ▸ .setType ?_ _
      rw [Point.cells, hp]
  | make _ _ _ _ hnew _ => exact .of_grows hnew.expands.symbols
  | size hp _ _ =>
    refine touches_resized ?_ (fun d hd => ?_) _ _
    · rw [Point.cells, hp]
    · rw [Point.words, hp]
      exact hd
  | @give r v t hp _ _ _ _ =>
    simp only [Core.modifyInstance, Core.withSymbols]
    cases hg : p.context.session.module.symbols.resize (p.context.core.instanceAt r).ret t with
    | none => exact .refl _
    | some g =>
      refine .resize hg fun x u hx hu => ?_
      rw [Point.cells, hp]
      exact ⟨x, hx, hu⟩

/-- No point reports an error, or changes what the program and its machine are. -/
theorem rest (h : Effect base p k) : k.errors = p.context.core.errors ∧
    k.name = p.context.core.name ∧ k.code = p.context.core.code ∧
    k.resumes = p.context.core.resumes := by
  cases h <;> exact ⟨rfl, rfl, rfl, rfl⟩

/-- An instance that is there after a point was there before, or it is the one that is made. -/
theorem instance_cases (h : Effect base p k) {r : InstanceRef} {inst' : Instance}
    (hi : instance? k.functions r = some inst') :
    (∃ inst, instance? p.context.session.functions r = some inst ∧ inst.Like inst') ∨
      p.event = .makes r.function inst'.argTypes ∧
        r.position = (p.context.function r.function).instances.size ∧
        (p.context.function r.function).instance? inst'.argTypes = Option.none ∧
        NewStack p.context.env p.context.session.module k.module inst' := by
  cases h with
  | keep _ _ | resize _ _ _ | build _ | leave _ => exact .inl ⟨inst', hi, .refl _⟩
  | define _ =>
    refine .inl ⟨inst', ?_, .refl _⟩
    rwa [Core.define, instance?_push rfl] at hi
  | @make fn types f inst m hp hf hnone _ hnew hserves =>
    rw [instance?_pushInstance hf] at hi
    split at hi
    · next hr =>
      cases hi
      subst hr
      rw [Context.function, hf]
      exact .inr ⟨by rw [hp, hserves.argTypes], rfl, hserves.argTypes ▸ hnone, hnew⟩
    · exact .inl ⟨inst', hi, .refl _⟩
  | size _ _ _ | enter _ _ _ _ _ _ | give _ _ _ _ _ =>
    rw [Core.modifyInstance, instance?_modifyInstance] at hi
    split at hi
    · next hr =>
      obtain ⟨inst, hold, rfl⟩ := Option.map_eq_some_iff.mp hi
      exact .inl ⟨inst, hr ▸ hold, rfl⟩
    · exact .inl ⟨inst', hi, .refl _⟩

/-- Instances stay, and once their bodies are opened, they have an entry. -/
theorem instance_kept (h : Effect base p k) {r : InstanceRef} {inst : Instance}
    (hi : instance? p.context.session.functions r = some inst) :
    ∃ inst', instance? k.functions r = some inst' ∧ inst.Like inst' ∧
      (inst.entry ≠ 0 → inst'.entry ≠ 0) := by
  have hmodify {r₀ : InstanceRef} {change : Instance → Instance}
      (hlike : ∀ inst : Instance, inst.Like (change inst))
      (hentry : ∀ inst : Instance, inst.entry ≠ 0 → (change inst).entry ≠ 0) :
      ∃ inst', instance? (p.context.core.modifyInstance r₀ change).functions r = some inst' ∧
        inst.Like inst' ∧ (inst.entry ≠ 0 → inst'.entry ≠ 0) := by
    rw [Core.modifyInstance, instance?_modifyInstance]
    split
    · next hr =>
      subst hr
      exact ⟨_, Option.map_eq_some_iff.mpr ⟨inst, hi, rfl⟩, hlike inst, hentry inst⟩
    · exact ⟨inst, hi, .refl _, id⟩
  cases h with
  | keep _ _ | resize _ _ _ | build _ | leave _ => exact ⟨inst, hi, .refl _, id⟩
  | define _ => exact ⟨inst, by rwa [Core.define, instance?_push rfl], .refl _, id⟩
  | @make fn types f inst₁ m hp hf hnone _ hnew _ =>
    refine ⟨inst, ?_, .refl _, id⟩
    rw [instance?_pushInstance hf, if_neg]
    · exact hi
    · rintro rfl
      simp [instance?, hf] at hi
  | size _ _ _ => exact hmodify (fun _ => rfl) fun _ => id
  | enter _ _ _ _ hpos _ => exact hmodify (fun _ => rfl) fun _ _ => Nat.ne_of_gt hpos
  | give _ _ _ _ _ => exact hmodify (fun _ => rfl) fun _ => id

end Effect

/-! ## Runs of points -/

/-- The points of a run, in order: between them all is quiet. -/
inductive Threads (base : Symbols) : Core → List Point → Core → Prop
  | done {k k' : Core} : Core.Quiet base k k' → Threads base k [] k'
  | pass {k k₁ k' : Core} {p : Point} {t : List Point} : Core.Quiet base k p.context.core →
      Effect base p k₁ → Threads base k₁ t k' → Threads base k (p :: t) k'

namespace Threads

variable {base : Symbols} {k k₁ k' : Core} {t u : List Point} {p : Point}

theorem refl (k : Core) : Threads base k [] k := .done (.refl base k)

theorem quiet_before (hq : Core.Quiet base k k₁) (h : Threads base k₁ t k') : Threads base k t k' := by
  cases h with
  | done hq' => exact .done (hq.trans hq')
  | pass hq' he h' => exact .pass (hq.trans hq') he h'

theorem append (h : Threads base k t k₁) (h' : Threads base k₁ u k') : Threads base k (t ++ u) k' := by
  induction h with
  | done hq => exact h'.quiet_before hq
  | pass hq he _ ih => exact .pass hq he (ih h')

/-- What quiet steps and points keep is kept by the whole run. -/
theorem invariant {I : Core → Prop} (hquiet : ∀ k k', Core.Quiet base k k' → I k → I k')
    (heffect : ∀ p k, Effect base p k → I p.context.core → I k) (h : Threads base k t k')
    (hk : I k) : I k' := by
  induction h with
  | done hq => exact hquiet _ _ hq hk
  | pass hq he _ ih => exact ih (heffect _ _ he (hquiet _ _ hq hk))

/-- A run up to one of its points is a run. -/
theorem reach (h : Threads base k t k') (hp : p ∈ t) : ∃ u ⊆ t, Threads base k u p.context.core := by
  induction h with
  | done _ => cases hp
  | pass hq he _ ih =>
    rcases List.mem_cons.mp hp with rfl | hp
    · exact ⟨[], List.nil_subset _, .done hq⟩
    · obtain ⟨u, hu, hrun⟩ := ih hp
      exact ⟨_, List.cons_subset_cons _ hu, .pass hq he hrun⟩

theorem accepted (h : Threads base k t k') (hp : p ∈ t) (e : Error) : ¬ p.Refuses e := by
  induction h with
  | done _ => cases hp
  | pass _ he _ ih =>
    rcases List.mem_cons.mp hp with rfl | hp
    · exact he.accepted e
    · exact ih hp

end Threads

/-- The points of a run that fails with `e`. It fails after the last of them, or at it. -/
inductive Stops (base : Symbols) (k : Core) : List Point → Error → Core → Prop
  | after {t : List Point} {e : Error} {k₁ : Core} : Threads base k t k₁ → e ≠ .endless →
      Stops base k t e (k₁.halt e)
  | refused {t : List Point} {p : Point} {e : Error} : Threads base k t p.context.core →
      p.Refuses e → Stops base k (t ++ [p]) e (p.context.core.halt e)
  | endless {t : List Point} {p : Point} : Threads base k t p.context.core → p.event = .exhausts →
      Stops base k (t ++ [p]) .endless p.context.core

namespace Stops

variable {base : Symbols} {k k₁ k' : Core} {t u : List Point} {e e' : Error} {p : Point}

theorem append (h : Threads base k t k₁) (h' : Stops base k₁ u e k') : Stops base k (t ++ u) e k' := by
  cases h' with
  | after h' he => exact .after (h.append h') he
  | refused h' hp => exact List.append_assoc .. ▸ .refused (h.append h') hp
  | endless h' hp => exact List.append_assoc .. ▸ .endless (h.append h') hp

/-- A run that stops has threaded its points, but perhaps for the last one. -/
theorem threads (h : Stops base k t e k') :
    ∃ u k₁, Threads base k u k₁ ∧ u ⊆ t ∧ k' = k₁.halt e := by
  cases h with
  | after h _ => exact ⟨_, _, h, List.Subset.refl _, rfl⟩
  | refused h _ | endless h _ => exact ⟨_, _, h, List.subset_append_left _ _, rfl⟩

theorem reach (h : Stops base k t e k') (hp : p ∈ t) : ∃ u ⊆ t, Threads base k u p.context.core := by
  have hlast {t : List Point} {q : Point} (h : Threads base k t q.context.core) (hp : p ∈ t ++ [q]) :
      ∃ u ⊆ t ++ [q], Threads base k u p.context.core := by
    rcases List.mem_append.mp hp with hp | hp
    · obtain ⟨u, hu, hrun⟩ := h.reach hp
      exact ⟨u, List.Subset.trans hu (List.subset_append_left _ _), hrun⟩
    · obtain rfl := List.mem_singleton.mp hp
      exact ⟨t, List.subset_append_left _ _, h⟩
  cases h with
  | after h _ => exact h.reach hp
  | refused h _ | endless h _ => exact hlast h hp

/-- Where a point refuses the program, this is the error. -/
theorem refuses (h : Stops base k t e k') (hp : p ∈ t) (hr : p.Refuses e') : e = e' := by
  cases h with
  | after h _ => exact absurd hr (h.accepted hp e')
  | refused h hq =>
    rcases List.mem_append.mp hp with hp | hp
    · exact absurd hr (h.accepted hp e')
    · exact hq.unique (List.mem_singleton.mp hp ▸ hr)
  | endless h hq =>
    rcases List.mem_append.mp hp with hp | hp
    · exact absurd hr (h.accepted hp e')
    · rw [List.mem_singleton.mp hp, Point.Refuses, hq] at hr
      exact hr.elim

end Stops

/-! ## Sound cores -/

/-- There are at least as many symbols as in `base`, and the names of functions stand for some. -/
structure Core.Sound (base : Symbols) (k : Core) : Prop where
  signals : base.signals.size ≤ k.module.symbols.signals.size
  types : base.types.size ≤ k.module.symbols.types.size
  links : base.links.size ≤ k.module.symbols.links.size
  named : ∀ p ∈ k.named, p.2 < k.functions.size

namespace Core.Sound

variable {base : Symbols} {k k' : Core}

theorem touch {cells : TypeId → Prop} {words : SignalId → Prop} (h : k.Sound base)
    (hg : k.module.symbols.Touches cells words k'.module.symbols)
    (hn : ∀ p ∈ k'.named, p.2 < k'.functions.size) : k'.Sound base :=
  ⟨h.signals.trans hg.signals_size, h.types.trans hg.types_size, h.links.trans hg.links_size, hn⟩

theorem quiet (h : k.Sound base) (hq : Quiet base k k') : k'.Sound base := by
  refine h.touch hq.module.symbols.touches ?_
  rw [hq.rest]
  exact h.named

theorem effect {p : Point} (h : p.context.core.Sound base) (he : Effect base p k) : k.Sound base := by
  have hmodify {fn : Nat} {f : Function → Function} :
      ∀ q ∈ p.context.core.named, q.2 < (p.context.core.functions.modify fn f).size :=
    fun q hq => (h.named q hq).trans_eq Array.size_modify.symm
  refine h.touch he.touches ?_
  cases he with
  | keep _ _ | resize _ _ _ | build _ | leave _ => exact h.named
  | define _ =>
    intro q hq
    rcases List.mem_cons.mp hq with rfl | hq
    · simp [define]
    · exact (h.named q hq).trans (by simp [define])
  | make _ _ _ _ _ _ | size _ _ _ | enter _ _ _ _ _ _ | give _ _ _ _ _ => exact hmodify

end Core.Sound

theorem Threads.sound {base : Symbols} {k k' : Core} {t : List Point} (h : Threads base k t k')
    (hk : k.Sound base) : k'.Sound base :=
  h.invariant (fun _ _ hq hk => hk.quiet hq) (fun _ _ he hk => hk.effect he) hk

end Program

end Lockstep
