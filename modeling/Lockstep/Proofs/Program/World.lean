import Lockstep.Proofs.Program.Growth
import Lockstep.Proofs.Sim.Blocks

/-!
# The stacks of functions in the symbol table

While a program is elaborated, a few symbols change in place: the depth and the width of a stack
when a function turns out to be recursive, and the type of a return register. Throughout, the
signals of the stacks stay apart from each other and from everything that the program itself
declares, and the type of each stack pointer is just wide enough for its depth.
-/

namespace Lockstep.Program

variable {fs : Array Function} {x y : Command} {env : Env} {f : Function} {inst inst' : Instance}
  {r r₀ : InstanceRef} {depth : Int} {g : Symbols}

/-! ## Commands inside commands -/

mutual

/-- A command and all commands in its bodies and handlers. -/
def Command.within : Command → List Command
  | .when test thn els => .when test thn els :: (withinAll thn ++ withinAll els)
  | .ifThen test body => .ifThen test body :: withinAll body
  | .orElse body => .orElse body :: withinAll body
  | .whileLoop test body => .whileLoop test body :: withinAll body
  | .loop body => .loop body :: withinAll body
  | .count limit index body => .count limit index body :: withinAll body
  | .times n index body => .times n index body :: withinAll body
  | .each mem word index body => .each mem word index body :: withinAll body
  | .define name depth returns overflow body =>
    .define name depth returns overflow body :: (withinHandler overflow ++ withinAll body)
  | c => [c]

def Command.withinHandler : Option (List Command) → List Command
  | none => []
  | some body => withinAll body

def Command.withinAll : List Command → List Command
  | [] => []
  | c :: rest => c.within ++ withinAll rest

end

mutual

/-- The commands in the bodies and handlers of the functions that a command defines. -/
def Command.inner : Command → List Command
  | .when _ thn els => innerAll thn ++ innerAll els
  | .ifThen _ body | .orElse body | .whileLoop _ body | .loop body | .count _ _ body
  | .times _ _ body | .each _ _ _ body => innerAll body
  | .define _ _ _ overflow body => withinHandler overflow ++ withinAll body
  | _ => []

def Command.innerAll : List Command → List Command
  | [] => []
  | c :: rest => c.inner ++ innerAll rest

end

theorem Command.self_mem_within (x : Command) : x ∈ x.within := by
  cases x <;> simp [within]

theorem Command.mem_withinAll {body : List Command} (hx : x ∈ body) (hy : y ∈ x.within) :
    y ∈ withinAll body := by
  induction body with
  | nil => simp at hx
  | cons z rest ih =>
    rw [Command.withinAll, List.mem_append]
    rcases List.mem_cons.mp hx with rfl | hx
    · exact .inl hy
    · exact .inr (ih hx)

theorem Command.mem_innerAll {body : List Command} (hx : x ∈ body) (hy : y ∈ x.inner) :
    y ∈ innerAll body := by
  induction body with
  | nil => simp at hx
  | cons z rest ih =>
    rw [Command.innerAll, List.mem_append]
    rcases List.mem_cons.mp hx with rfl | hx
    · exact .inl hy
    · exact .inr (ih hx)

/-- The commands right inside a command. The body of a definition is performed elsewhere. -/
def Command.parts : Command → List Command
  | .when _ thn els => thn ++ els
  | .ifThen _ body | .orElse body | .whileLoop _ body | .loop body | .count _ _ body
  | .times _ _ body | .each _ _ _ body => body
  | _ => []

theorem Command.within_of_parts {z : Command} (hy : y ∈ x.parts) (hz : z ∈ y.within) :
    z ∈ x.within := by
  cases x with
  | when test thn els =>
    rw [within]
    refine List.mem_cons_of_mem _ (List.mem_append.mpr ?_)
    exact (List.mem_append.mp hy).imp (mem_withinAll · hz) (mem_withinAll · hz)
  | ifThen test body | orElse body | whileLoop test body | loop body | count limit index body
  | times n index body | each mem word index body =>
    rw [within]
    exact List.mem_cons_of_mem _ (mem_withinAll hy hz)
  | _ => cases hy

theorem Command.inner_of_parts {z : Command} (hy : y ∈ x.parts) (hz : z ∈ y.inner) :
    z ∈ x.inner := by
  cases x with
  | when test thn els =>
    rw [inner]
    exact List.mem_append.mpr ((List.mem_append.mp hy).imp (mem_innerAll · hz) (mem_innerAll · hz))
  | ifThen test body | orElse body | whileLoop test body | loop body | count limit index body
  | times n index body | each mem word index body =>
    rw [inner]
    exact mem_innerAll hy hz
  | _ => cases hy

/-- The terms that stand in the command itself. -/
def Command.terms : Command → List Script.Term
  | .assign _ value | .ret value | .bind _ value | .probe value => [value]
  | .assignAt _ index value => [index, value]
  | .when test .. | .ifThen test _ | .whileLoop test _ | .count test .. => [test]
  | .call _ args _ | .callDepth _ _ args _ => args
  | _ => []

/-- The name of the signal that the command itself assigns. -/
def Command.assigns : Command → Option String
  | .assign dest _ | .assignAt dest .. => some dest
  | _ => none

/-- The name of the function that the command itself calls. -/
def Command.calls : Command → Option String
  | .call f .. | .callDepth f .. => some f
  | _ => none

/-! ## What a program is

A body may hold any command, and some reach past the program. Raw commands change states of its
machine by their index. A call of a function that an earlier program defined goes to a state of that
program, by its index in another machine. Results that are not about all bodies speak of regular
bodies, which have no raw commands, or of self-contained ones, which also have neither labels nor such
calls; or they exclude a single kind of command and name it. -/

/-- The command changes states of the machine by their index, or builds it. -/
def Command.isRaw : Command → Bool
  | .stateBody .. | .stateGoto .. | .buildMachine => true
  | _ => false

/-- The command is part of the structured language: no labels, and nothing that reaches past the
program into its machine or into types that others share. -/
def Command.isStructured : Command → Bool
  | .label _ | .goto _ | .resize .. | .newState _ => false
  | x => !x.isRaw

/-- No command of a body, or of one inside it, is among the `bad` ones. -/
def Avoids (bad : Command → Bool) (body : List Command) : Prop :=
  ∀ x ∈ Command.withinAll body, bad x = false

structure Function.Avoids (bad : Command → Bool) (f : Function) : Prop where
  body : Program.Avoids bad f.body
  overflow : ∀ handler, f.overflow = some handler → Program.Avoids bad handler

/-- No command of a body, or of one inside it, is raw. -/
def Regular (body : List Command) : Prop := Avoids Command.isRaw body

instance (body : List Command) : Decidable (Regular body) :=
  inferInstanceAs (Decidable (∀ x ∈ Command.withinAll body, x.isRaw = false))

/-- The body is made of structured commands, and calls no function that the session had before. -/
structure SelfContained (s : Session) (body : List Command) : Prop where
  structured : ∀ x ∈ Command.withinAll body, x.isStructured = true
  calls : ∀ x ∈ Command.withinAll body, ∀ name, x.calls = some name →
    name ∉ s.scope.functions.map Prod.fst

/-- The function that the command itself calls, and the depth that it asks for. -/
def Command.asks : Command → Option (String × Int)
  | .call f .. => some (f, 0)
  | .callDepth f depth .. => some (f, depth)
  | _ => none

/-! ## Instances -/

/-- The signals of the stack of an instance. -/
def Instance.stack (inst : Instance) : List SignalId :=
  inst.sp :: inst.depth :: inst.returnAddr :: inst.args

/-- The number of calls that the stack has room for. -/
def Instance.room (g : Symbols) (inst : Instance) : Nat :=
  ((g.signals[inst.depth]?.map Signal.value).getD 0).toNat

/-- The same stack and registers; elaboration of the body may have got further. -/
structure Instance.Same (a b : Instance) : Prop where
  eq : b = { a with entry := b.entry, resolved := b.resolved, sized := b.sized }
  sized : a.sized = true → b.sized = true

namespace Instance.Same

variable {a b : Instance}

theorem refl (a : Instance) : a.Same a := ⟨rfl, id⟩

theorem trans {c : Instance} (h : a.Same b) (h' : b.Same c) : a.Same c := by
  refine ⟨?_, fun hs => h'.sized (h.sized hs)⟩
  rw [h'.eq, h.eq]

theorem stack (h : a.Same b) : b.stack = a.stack := (congrArg Instance.stack h.eq :)

theorem spType (h : a.Same b) : b.spType = a.spType := (congrArg Instance.spType h.eq :)

theorem room (h : a.Same b) (g : Symbols) : b.room g = a.room g :=
  (congrArg (Instance.room g) h.eq :)

theorem sp (h : a.Same b) : b.sp = a.sp := (congrArg Instance.sp h.eq :)

theorem ret (h : a.Same b) : b.ret = a.ret := (congrArg Instance.ret h.eq :)

end Instance.Same

theorem instance?_push (h : f.instances = #[]) (r : InstanceRef) :
    instance? (fs.push f) r = instance? fs r := by
  unfold instance?
  rw [Array.getElem?_push]
  split
  · next hr => simp [hr, h]
  · rfl

theorem instance?_modifyInstance (fs : Array Function) (r₀ r : InstanceRef)
    (change : Instance → Instance) : instance? (fs.modify r₀.function fun f =>
        { f with instances := f.instances.modify r₀.position change }) r =
      if r = r₀ then (instance? fs r₀).map change else instance? fs r := by
  unfold instance?
  rw [Array.getElem?_modify]
  by_cases hf : r₀.function = r.function
  · cases hfn : fs[r.function]? with
    | none =>
      rw [hf]
      simp [hfn]
    | some f =>
      rw [if_pos hf, Option.map_some, Option.bind_some, Option.bind_some, Array.getElem?_modify,
        hf, hfn, Option.bind_some]
      by_cases hp : r₀.position = r.position
      · have hr : r = r₀ := by cases r; cases r₀; simp_all
        rw [if_pos hp, if_pos hr, hp]
      · have hr : r ≠ r₀ := fun h => hp (by rw [h])
        rw [if_neg hp, if_neg hr]
  · have hr : r ≠ r₀ := fun h => hf (by rw [h])
    rw [if_neg hf, if_neg hr]

/-- A new instance takes the position after the last one of its function. -/
theorem instance?_pushInstance {fn : Nat} (h : fs[fn]? = some f) (inst : Instance)
    (r : InstanceRef) :
    instance? (fs.modify fn fun f => { f with instances := f.instances.push inst }) r =
      if r = ⟨fn, f.instances.size⟩ then some inst else instance? fs r := by
  unfold instance?
  rw [Array.getElem?_modify]
  by_cases hf : fn = r.function
  · subst hf
    rw [if_pos rfl, h, Option.map_some, Option.bind_some, Option.bind_some, Array.getElem?_push]
    by_cases hp : r.position = f.instances.size
    · have hr : r = ⟨r.function, f.instances.size⟩ := by rw [← hp]
      rw [if_pos hp, if_pos hr]
    · have hr : r ≠ ⟨r.function, f.instances.size⟩ := fun hr => hp (congrArg (·.position) hr)
      rw [if_neg hp, if_neg hr]
  · have hr : r ≠ ⟨fn, f.instances.size⟩ := fun hr => hf (congrArg (·.function) hr).symm
    rw [if_neg hf, if_neg hr]

/-! ## Stacks -/

/-- The symbols of a stack: a pointer and a depth of one type, just wide enough for the depth, and
memories with a word for each call, the return addresses of the type of state codes. -/
structure Stacked (g : Symbols) (code : TypeId) (inst : Instance) : Prop where
  sp : ∃ x, g.signals[inst.sp]? = some x ∧ x.declared = true ∧ x.kind = .reg ∧
    x.type = some inst.spType
  depth : ∃ x, g.signals[inst.depth]? = some x ∧ x.declared = true ∧ x.kind = .const ∧
    x.type = some inst.spType
  width : g.types[inst.spType]? = some (.unsigned (bitsFor (inst.room g)))
  memories : ∀ d ∈ inst.returnAddr :: inst.args, ∃ x, g.signals[d]? = some x ∧
    x.declared = true ∧ x.kind = .memory ∧ (inst.room g : Int) ≤ x.depth
  address : ∃ x, g.signals[inst.returnAddr]? = some x ∧ x.type = some code
  nodup : inst.stack.Nodup
  args : inst.args.length = inst.argTypes.length

namespace Stacked

variable {g g' : Symbols} {code : TypeId} {inst : Instance}

theorem room_lt (inst : Instance) (g : Symbols) : inst.room g < 2 ^ 64 := UInt64.toNat_lt _

theorem signal (h : Stacked g code inst) {d : SignalId} (hd : d ∈ inst.stack) :
    ∃ x, g.signals[d]? = some x := by
  simp only [Instance.stack, List.mem_cons] at hd
  rcases hd with rfl | rfl | hd
  · obtain ⟨x, hx, -⟩ := h.sp
    exact ⟨x, hx⟩
  · obtain ⟨x, hx, -⟩ := h.depth
    exact ⟨x, hx⟩
  · obtain ⟨x, hx, -⟩ := h.memories d (List.mem_cons.mpr hd)
    exact ⟨x, hx⟩

/-- Only the signals of the stack and the type of its pointer matter. -/
theorem congr (h : Stacked g code inst) (hs : ∀ d ∈ inst.stack, g'.signals[d]? = g.signals[d]?)
    (ht : g'.types[inst.spType]? = g.types[inst.spType]?) : Stacked g' code inst := by
  have hsp := hs inst.sp (by simp [Instance.stack])
  have hdepth := hs inst.depth (by simp [Instance.stack])
  have haddr := hs inst.returnAddr (by simp [Instance.stack])
  have hroom : inst.room g' = inst.room g := by rw [Instance.room, Instance.room, hdepth]
  refine ⟨by rw [hsp]; exact h.sp, by rw [hdepth]; exact h.depth, by rw [ht, hroom]; exact h.width,
    fun d hd => ?_, by rw [haddr]; exact h.address, h.nodup, h.args⟩
  rw [hs d (by simp only [Instance.stack, List.mem_cons] at hd ⊢; tauto), hroom]
  exact h.memories d hd

theorem same {inst' : Instance} (h : Stacked g code inst) (hs : inst.Same inst') :
    Stacked g code inst' := by
  rw [hs.eq]
  exact ⟨h.sp, h.depth, h.width, h.memories, h.address, h.nodup, h.args⟩

theorem grow (h : Stacked g code inst) (hg : g.Grows g') : Stacked g' code inst := by
  refine h.congr (fun d hd => ?_) ?_
  · obtain ⟨x, hx⟩ := h.signal hd
    rw [hx, hg.signals d x hx]
  · rw [h.width, hg.types _ _ h.width]

end Stacked

/-! ## The world of a program -/

/-- What stays fixed while a program is elaborated. -/
structure Env where
  /-- The number of functions that were there before. -/
  base : Nat
  /-- Names of functions that the program does not call. -/
  foreign : List String
  /-- Names that the program may assign. -/
  assignable : String → Prop
  /-- Depths that its calls of a function may ask for. -/
  requests : String → Int → Prop
  /-- Whether a body or a handler may terminate the program. -/
  escapes : Prop
  /-- The machine as it was created. -/
  machine : Machine
  /-- The run flag. -/
  run : SignalId

namespace Env

variable (env : Env)

/-- The state register. -/
def current : SignalId := env.machine.current

/-- The next-state wire. -/
def next : SignalId := env.machine.next

/-- The type of state codes. -/
def code : TypeId := env.machine.type

/-- An instance of a function of this program. -/
def Has (fs : Array Function) (r : InstanceRef) (inst : Instance) : Prop :=
  env.base ≤ r.function ∧ instance? fs r = some inst

/-- The signal was made for the machine or for a stack. -/
def Made (fs : Array Function) (d : SignalId) : Prop :=
  d = env.current ∨ d = env.next ∨ ∃ r inst, env.Has fs r inst ∧ d ∈ inst.stack

/-- The signal is not a made one, or at least has a name that none of those will have. -/
def Clean (fs : Array Function) (g : Symbols) (d : SignalId) : Prop :=
  d < g.signals.size ∧ (¬ env.Made fs d ∨ env.assignable (g.signalName d))

/-- The command is structured, and uses only the names it may. If it is part of a body or handler,
or where it defines one, it terminates the program only if it may. -/
structure Tame (inside : Bool) (c : Command) : Prop where
  structured : ∀ x ∈ c.within, x.isStructured = true
  assigns : ∀ x ∈ c.within, ∀ name, x.assigns = some name → env.assignable name
  calls : ∀ x ∈ c.within, ∀ name, x.calls = some name → name ∉ env.foreign
  requests : ∀ x ∈ c.within, ∀ name depth, x.asks = some (name, depth) → env.requests name depth
  escapes : ∀ x ∈ if inside then c.within else c.inner, x = .terminate → env.escapes

end Env

/-- An instance after the record of one was changed. -/
theorem Env.Has.of_modifyInstance {change : Instance → Instance}
    (h : env.Has (fs.modify r₀.function fun f =>
      { f with instances := f.instances.modify r₀.position change }) r inst') :
    ∃ inst, env.Has fs r inst ∧ inst' = if r = r₀ then change inst else inst := by
  obtain ⟨hb, hi'⟩ := h
  rw [instance?_modifyInstance] at hi'
  split at hi'
  · next hr =>
    obtain ⟨inst, hi, rfl⟩ := Option.map_eq_some_iff.mp hi'
    exact ⟨inst, ⟨hb, by rw [hr]; exact hi⟩, by rw [if_pos hr]⟩
  · next hr => exact ⟨inst', ⟨hb, hi'⟩, by rw [if_neg hr]⟩

theorem Env.Has.same_of_modifyInstance {change : Instance → Instance}
    (hc : ∀ inst : Instance, inst.Same (change inst)) (h : env.Has (fs.modify r₀.function fun f =>
      { f with instances := f.instances.modify r₀.position change }) r inst') :
    ∃ inst, env.Has fs r inst ∧ inst.Same inst' := by
  obtain ⟨inst, hi, rfl⟩ := h.of_modifyInstance
  refine ⟨inst, hi, ?_⟩
  split
  · exact hc inst
  · exact .refl inst

/-- What holds of functions, symbols and names throughout. -/
structure World (env : Env) (fs : Array Function) (m : Module) (sc : Script.Scope) : Prop where
  current : ∃ x, m.symbols.signals[env.current]? = some x ∧ x.type = some env.code ∧ x.kind = .reg
  next : ∃ x, m.symbols.signals[env.next]? = some x ∧ x.type = some env.code ∧ x.kind = .wire
  flag : ∃ x, m.symbols.signals[env.run]? = some x ∧ x.kind = .reg
  apart : env.current ≠ env.next
  code : ∃ t, m.symbols.types[env.code]? = some t
  stacked : ∀ r inst, env.Has fs r inst → Stacked m.symbols env.code inst
  machine_apart : ∀ r inst, env.Has fs r inst → env.current ∉ inst.stack ∧ env.next ∉ inst.stack
  stacks_apart : ∀ r r' inst inst', env.Has fs r inst → env.Has fs r' inst' →
    ∀ d ∈ inst.stack, d ∈ inst'.stack → r = r'
  types_apart : ∀ r r' inst inst', env.Has fs r inst → env.Has fs r' inst' →
    inst.spType = inst'.spType → r = r'
  code_apart : ∀ r inst, env.Has fs r inst → inst.spType ≠ env.code
  /-- The return register has a type of its own. -/
  returns : ∀ r inst, env.Has fs r inst → ¬ env.Made fs inst.ret ∧ ∃ x t u,
    m.symbols.signals[inst.ret]? = some x ∧ x.type = some t ∧ m.symbols.types[t]? = some u ∧
    t ≠ env.code ∧ ∀ r' inst', env.Has fs r' inst' → inst'.spType ≠ t
  names : ∀ p ∈ sc.bound ++ sc.loose, p.2 < m.symbols.signals.size ∧ ¬ env.Made fs p.2
  base : env.base ≤ fs.size
  callable : ∀ p ∈ sc.functions, p.1 ∉ env.foreign →
    env.base ≤ p.2 ∧ ∃ f, fs[p.2]? = some f ∧ f.name = p.1
  bodies : ∀ fn f, env.base ≤ fn → fs[fn]? = some f → (∀ c ∈ f.body, env.Tame true c) ∧
    ∀ handler, f.overflow = some handler → ∀ c ∈ handler, env.Tame true c

/-- How the surroundings of the code change: nothing that the code refers to is lost, and nothing
that was there becomes a made signal. -/
structure Widens (env : Env) (fs fs' : Array Function) (g g' : Symbols) : Prop where
  signals : g.signals.size ≤ g'.signals.size
  names : ∀ d < g.signals.size, g'.signalName d = g.signalName d
  links : g.links.size ≤ g'.links.size
  handlers : ∀ (fn : Nat) f, env.base ≤ fn → fs[fn]? = some f →
    ∃ f', fs'[fn]? = some f' ∧ f'.overflow = f.overflow ∧ f'.name = f.name
  instances : ∀ r inst, env.Has fs r inst → ∃ inst', env.Has fs' r inst' ∧ inst.Same inst'
  made : ∀ d < g.signals.size, env.Made fs' d → env.Made fs d

namespace Widens

variable {env : Env} {fs fs' fs'' : Array Function} {g g' g'' : Symbols}

theorem trans (h : Widens env fs fs' g g') (h' : Widens env fs' fs'' g' g'') :
    Widens env fs fs'' g g'' where
  signals := h.signals.trans h'.signals
  names d hd := (h'.names d (hd.trans_le h.signals)).trans (h.names d hd)
  links := h.links.trans h'.links
  handlers fn f hb hf := by
    obtain ⟨f', hf', ho, hn⟩ := h.handlers fn f hb hf
    obtain ⟨f'', hf'', ho', hn'⟩ := h'.handlers fn f' hb hf'
    exact ⟨f'', hf'', ho'.trans ho, hn'.trans hn⟩
  instances r inst hi := by
    obtain ⟨inst', hi', hs⟩ := h.instances r inst hi
    obtain ⟨inst'', hi'', hs'⟩ := h'.instances r inst' hi'
    exact ⟨inst'', hi'', hs.trans hs'⟩
  made d hd hm := h.made d hd (h'.made d (hd.trans_le h.signals) hm)

theorem of_grows (h : g.Grows g') : Widens env fs fs g g' where
  signals := h.size
  names _ hd := h.signalName hd
  links := h.links_size
  handlers _ f _ hf := ⟨f, hf, rfl, rfl⟩
  instances _ inst hi := ⟨inst, hi, .refl inst⟩
  made _ _ hm := hm

theorem refl : Widens env fs fs g g := of_grows (.refl g)

theorem clean (h : Widens env fs fs' g g') {d : SignalId} (hd : env.Clean fs g d) :
    env.Clean fs' g' d := by
  obtain ⟨hlt, hor⟩ := hd
  refine ⟨hlt.trans_le h.signals, ?_⟩
  rw [h.names d hlt]
  exact hor.imp_left fun hn hm => hn (h.made d hlt hm)

theorem define {f : Function} (hf : f.instances = #[]) : Widens env fs (fs.push f) g g where
  signals := le_refl _
  names _ _ := rfl
  links := le_refl _
  handlers _ f _ hf := ⟨f, Symbols.getElem?_push_of_some hf, rfl, rfl⟩
  instances r inst hi := ⟨inst, ⟨hi.1, by rw [instance?_push hf]; exact hi.2⟩, .refl inst⟩
  made d _ hm := by
    rcases hm with hd | hd | ⟨r, inst, hi, hd⟩
    · exact .inl hd
    · exact .inr (.inl hd)
    · exact .inr (.inr ⟨r, inst, ⟨hi.1, by rw [← instance?_push hf]; exact hi.2⟩, hd⟩)

theorem modifyInstance (r₀ : InstanceRef) {change : Instance → Instance}
    (hc : ∀ inst : Instance, inst.Same (change inst)) :
    Widens env fs (fs.modify r₀.function fun f =>
      { f with instances := f.instances.modify r₀.position change }) g g where
  signals := le_refl _
  names _ _ := rfl
  links := le_refl _
  handlers fn f _ hf := by
    rw [Array.getElem?_modify, hf]
    split
    · exact ⟨_, rfl, rfl, rfl⟩
    · exact ⟨f, rfl, rfl, rfl⟩
  instances r inst hi := by
    unfold Env.Has
    rw [instance?_modifyInstance]
    by_cases hr : r = r₀
    · rw [if_pos hr, ← hr, hi.2]
      exact ⟨change inst, ⟨hi.1, rfl⟩, hc inst⟩
    · rw [if_neg hr]
      exact ⟨inst, hi, .refl inst⟩
  made d _ hm := by
    rcases hm with hd | hd | ⟨r, inst', hi', hd⟩
    · exact .inl hd
    · exact .inr (.inl hd)
    · obtain ⟨inst, hi, hs⟩ := hi'.same_of_modifyInstance hc
      exact .inr (.inr ⟨r, inst, hi, hs.stack ▸ hd⟩)

/-- Signals keep their places and names; their types and depths may change. -/
theorem of_symbols (hsig : g'.signals.size = g.signals.size)
    (hname : ∀ d, g'.signalName d = g.signalName d) (hlinks : g'.links.size = g.links.size) :
    Widens env fs fs g g' where
  signals := hsig.ge
  names d _ := hname d
  links := hlinks.ge
  handlers _ f _ hf := ⟨f, hf, rfl, rfl⟩
  instances _ inst hi := ⟨inst, hi, .refl inst⟩
  made _ _ hm := hm

end Widens

namespace World

variable {env : Env} {fs fs' : Array Function} {m m' : Module} {sc sc' : Script.Scope}

section

variable (h : World env fs m sc)
include h

theorem made_lt {d : SignalId} (hd : env.Made fs d) : d < m.symbols.signals.size := by
  have hx : ∃ x, m.symbols.signals[d]? = some x := by
    rcases hd with rfl | rfl | ⟨r, inst, hi, hd⟩
    · exact h.current.imp fun x hx => hx.1
    · exact h.next.imp fun x hx => hx.1
    · exact (h.stacked r inst hi).signal hd
  obtain ⟨x, hx⟩ := hx
  exact (Array.getElem?_eq_some_iff.mp hx).1

/-- A change of symbols keeps the world if it keeps the stacks, and the types of signals are still
where they were. -/
theorem congr_symbols (hsig : ∀ (i : SignalId) x, m.symbols.signals[i]? = some x →
      ∃ x', m'.symbols.signals[i]? = some x' ∧ x'.type = x.type ∧ x'.kind = x.kind)
    (htype : ∀ (i : TypeId) t, m.symbols.types[i]? = some t → ∃ t', m'.symbols.types[i]? = some t')
    (hstack : ∀ r inst, env.Has fs r inst → Stacked m'.symbols env.code inst) :
    World env fs m' sc where
  current := by
    obtain ⟨x, hx, ht, hk⟩ := h.current
    obtain ⟨x', hx', ht', hk'⟩ := hsig _ x hx
    exact ⟨x', hx', ht'.trans ht, hk'.trans hk⟩
  next := by
    obtain ⟨x, hx, ht, hk⟩ := h.next
    obtain ⟨x', hx', ht', hk'⟩ := hsig _ x hx
    exact ⟨x', hx', ht'.trans ht, hk'.trans hk⟩
  flag := by
    obtain ⟨x, hx, hk⟩ := h.flag
    obtain ⟨x', hx', -, hk'⟩ := hsig _ x hx
    exact ⟨x', hx', hk'.trans hk⟩
  apart := h.apart
  code := by
    obtain ⟨t, ht⟩ := h.code
    exact htype _ t ht
  stacked := hstack
  machine_apart := h.machine_apart
  stacks_apart := h.stacks_apart
  types_apart := h.types_apart
  code_apart := h.code_apart
  returns r inst hi := by
    obtain ⟨hm, x, t, u, hx, ht, hu, hne, hall⟩ := h.returns r inst hi
    obtain ⟨x', hx', ht', -⟩ := hsig _ x hx
    obtain ⟨u', hu'⟩ := htype _ u hu
    exact ⟨hm, x', t, u', hx', ht'.trans ht, hu', hne, hall⟩
  names p hp := by
    obtain ⟨hlt, hm⟩ := h.names p hp
    obtain ⟨x', hx', -⟩ := hsig _ _ (Array.getElem?_eq_getElem hlt)
    exact ⟨(Array.getElem?_eq_some_iff.mp hx').1, hm⟩
  base := h.base
  callable := h.callable
  bodies := h.bodies

theorem grow (hm : m.Expands m') : World env fs m' sc :=
  h.congr_symbols (fun i x hx => ⟨x, hm.symbols.signals i x hx, rfl, rfl⟩)
    (fun i t ht => ⟨t, hm.symbols.types i t ht⟩)
    fun r inst hi => (h.stacked r inst hi).grow hm.symbols

/-- Only what names stand for matters. -/
theorem rescope (hb : sc'.bound = sc.bound) (hl : sc'.loose = sc.loose)
    (hf : sc'.functions = sc.functions) : World env fs m sc' :=
  { h with
    names := by rw [hb, hl]; exact h.names
    callable := by rw [hf]; exact h.callable }

/-- A signal that the program declares is not a made one. -/
theorem bind (hm : m.Expands m') {name : String} {i : SignalId}
    (hi : m.symbols.signals.size ≤ i) (hi' : i < m'.symbols.signals.size) :
    World env fs m' { sc with bound := (name, i) :: sc.bound } := by
  refine { h.grow hm with names := fun p hp => ?_ }
  rcases List.mem_cons.mp hp with rfl | hp
  · exact ⟨hi', fun hmade => Nat.not_lt.mpr hi (h.made_lt hmade)⟩
  · exact (h.grow hm).names p hp

/-- A change of functions keeps the world if it leaves the stacks of the instances alone. -/
theorem congr_functions
    (hsame : ∀ r inst', env.Has fs' r inst' → ∃ inst, env.Has fs r inst ∧ inst.Same inst')
    (hbase : env.base ≤ fs'.size) (hb : sc'.bound = sc.bound) (hl : sc'.loose = sc.loose)
    (hcall : ∀ p ∈ sc'.functions, p.1 ∉ env.foreign →
      env.base ≤ p.2 ∧ ∃ f, fs'[p.2]? = some f ∧ f.name = p.1)
    (hbodies : ∀ fn f, env.base ≤ fn → fs'[fn]? = some f → (∀ c ∈ f.body, env.Tame true c) ∧
      ∀ handler, f.overflow = some handler → ∀ c ∈ handler, env.Tame true c) :
    World env fs' m sc' := by
  have hmade : ∀ d, env.Made fs' d → env.Made fs d := by
    rintro d (hd | hd | ⟨r, inst', hi', hd⟩)
    · exact .inl hd
    · exact .inr (.inl hd)
    · obtain ⟨inst, hi, hs⟩ := hsame r inst' hi'
      exact .inr (.inr ⟨r, inst, hi, hs.stack ▸ hd⟩)
  refine ⟨h.current, h.next, h.flag, h.apart, h.code, fun r inst' hi' => ?_, fun r inst' hi' => ?_,
    fun r₁ r₂ inst₁ inst₂ h₁ h₂ => ?_, fun r₁ r₂ inst₁ inst₂ h₁ h₂ => ?_, fun r inst' hi' => ?_,
    fun r inst' hi' => ?_, fun p hp => ?_, hbase, hcall, hbodies⟩
  · obtain ⟨inst, hi, hs⟩ := hsame r inst' hi'
    exact (h.stacked r inst hi).same hs
  · obtain ⟨inst, hi, hs⟩ := hsame r inst' hi'
    rw [hs.stack]
    exact h.machine_apart r inst hi
  · obtain ⟨i₁, hi₁, hs₁⟩ := hsame r₁ inst₁ h₁
    obtain ⟨i₂, hi₂, hs₂⟩ := hsame r₂ inst₂ h₂
    rw [hs₁.stack, hs₂.stack]
    exact h.stacks_apart r₁ r₂ i₁ i₂ hi₁ hi₂
  · obtain ⟨i₁, hi₁, hs₁⟩ := hsame r₁ inst₁ h₁
    obtain ⟨i₂, hi₂, hs₂⟩ := hsame r₂ inst₂ h₂
    rw [hs₁.spType, hs₂.spType]
    exact h.types_apart r₁ r₂ i₁ i₂ hi₁ hi₂
  · obtain ⟨inst, hi, hs⟩ := hsame r inst' hi'
    rw [hs.spType]
    exact h.code_apart r inst hi
  · obtain ⟨inst, hi, hs⟩ := hsame r inst' hi'
    obtain ⟨hm, x, t, u, hx, ht, hu, hne, hall⟩ := h.returns r inst hi
    rw [hs.ret]
    refine ⟨fun hd => hm (hmade _ hd), x, t, u, hx, ht, hu, hne, fun r₂ inst₂ h₂ => ?_⟩
    obtain ⟨i₂, hi₂, hs₂⟩ := hsame r₂ inst₂ h₂
    rw [hs₂.spType]
    exact hall r₂ i₂ hi₂
  · rw [hb, hl] at hp
    obtain ⟨hlt, hm⟩ := h.names p hp
    exact ⟨hlt, fun hd => hm (hmade _ hd)⟩

/-- A new function has no instances yet. -/
theorem define {f : Function} (hf : f.instances = #[]) (hbody : (∀ c ∈ f.body, env.Tame true c) ∧
      ∀ handler, f.overflow = some handler → ∀ c ∈ handler, env.Tame true c) :
    World env (fs.push f) m { sc with functions := (f.name, fs.size) :: sc.functions } := by
  refine h.congr_functions (fun r inst hi => ?_) ?_ rfl rfl (fun p hp hne => ?_)
    fun fn f' hb hf' => ?_
  · exact ⟨inst, ⟨hi.1, by rw [← instance?_push hf]; exact hi.2⟩, .refl inst⟩
  · exact h.base.trans (by simp)
  · rcases List.mem_cons.mp hp with rfl | hp
    · exact ⟨h.base, f, by simp, rfl⟩
    · obtain ⟨hle, f', hf', hname⟩ := h.callable p hp hne
      exact ⟨hle, f', Symbols.getElem?_push_of_some hf', hname⟩
  · rw [Array.getElem?_push] at hf'
    split at hf'
    · cases hf'
      exact hbody
    · exact h.bodies fn f' hb hf'

/-- Functions keep their names. -/
theorem callable_modify {fn : Nat} {change : Function → Function}
    (hc : ∀ f, (change f).name = f.name) : ∀ p ∈ sc.functions, p.1 ∉ env.foreign →
      env.base ≤ p.2 ∧ ∃ f, (fs.modify fn change)[p.2]? = some f ∧ f.name = p.1 := by
  intro p hp hne
  obtain ⟨hle, f, hf, hname⟩ := h.callable p hp hne
  rw [Array.getElem?_modify, hf]
  split
  · exact ⟨hle, _, rfl, (hc f).trans hname⟩
  · exact ⟨hle, f, rfl, hname⟩

/-- The record of an instance gets further. -/
theorem modifyInstance (r₀ : InstanceRef) {change : Instance → Instance}
    (hc : ∀ inst : Instance, inst.Same (change inst)) : World env (fs.modify r₀.function fun f =>
      { f with instances := f.instances.modify r₀.position change }) m sc := by
  refine h.congr_functions (fun r inst' hi' => hi'.same_of_modifyInstance hc)
    (by simpa using h.base) rfl rfl (h.callable_modify fun _ => rfl) fun fn f' hb hf' => ?_
  rw [Array.getElem?_modify] at hf'
  split at hf'
  · obtain ⟨f, hf, rfl⟩ := Option.map_eq_some_iff.mp hf'
    exact h.bodies fn f hb hf
  · exact h.bodies fn f' hb hf'

/-- A type that no stack pointer has may change. -/
theorem retype {t : TypeId} {types : Array SignalType}
    (ht : ∀ r inst, env.Has fs r inst → inst.spType ≠ t)
    (hother : ∀ i : TypeId, i ≠ t → types[i]? = m.symbols.types[i]?)
    (hsize : types.size = m.symbols.types.size) :
    World env fs { m with symbols := { m.symbols with types } } sc := by
  refine h.congr_symbols (fun i x hx => ⟨x, hx, rfl, rfl⟩) (fun i u hu => ?_) fun r inst hi =>
    (h.stacked r inst hi).congr (fun _ _ => rfl) (hother _ (ht r inst hi))
  have hi : i < types.size := hsize ▸ (Array.getElem?_eq_some_iff.mp hu).1
  exact ⟨_, Array.getElem?_eq_getElem hi⟩

end

end World

/-! ## The depth of a stack -/

/-- The symbols with another depth of a stack. -/
def resized (g : Symbols) (inst : Instance) (depth : Int) : Symbols :=
  (inst.args ++ [inst.returnAddr]).foldl (fun g i => g.modifySignal i ({ · with depth }))
    ((g.setWidth inst.spType (bitsFor (UInt64.ofInt depth).toNat)).modifySignal inst.depth
      ({ · with value := UInt64.ofInt depth }))

theorem foldl_depth (depth : Int) (ds : List SignalId) (g : Symbols) :
    let g' := ds.foldl (fun g i => g.modifySignal i ({ · with depth })) g
    g'.types = g.types ∧ g'.links = g.links ∧ ∀ i : SignalId, g'.signals[i]? =
      (g.signals[i]?).map fun x => if i ∈ ds then { x with depth } else x := by
  induction ds generalizing g with
  | nil => simp
  | cons d ds ih =>
    obtain ⟨htypes, hlinks, hsig⟩ := ih (g.modifySignal d ({ · with depth }))
    refine ⟨htypes, hlinks, fun i => ?_⟩
    rw [List.foldl_cons, hsig, Symbols.modifySignal, Array.getElem?_modify]
    by_cases hd : d = i
    · subst hd
      cases g.signals[d]? <;> simp
    · have hd' : i ≠ d := fun h => hd h.symm
      rw [if_neg hd]
      simp [hd']

theorem resized_types (g : Symbols) (inst : Instance) (depth : Int) (i : TypeId) :
    (resized g inst depth).types[i]? = if inst.spType = i then
      (g.types[i]?).map ({ · with width := bitsFor (UInt64.ofInt depth).toNat }) else g.types[i]? := by
  rw [resized, (foldl_depth depth _ _).1]
  simp only [Symbols.modifySignal, Symbols.setWidth, Array.getElem?_modify]

theorem resized_signals (g : Symbols) (inst : Instance) (depth : Int) (i : SignalId) :
    (resized g inst depth).signals[i]? = (g.signals[i]?).map fun x =>
      { x with
        value := if inst.depth = i then UInt64.ofInt depth else x.value
        depth := if i ∈ inst.args ++ [inst.returnAddr] then depth else x.depth } := by
  rw [resized, (foldl_depth depth _ _).2.2]
  simp only [Symbols.modifySignal, Symbols.setWidth, Array.getElem?_modify]
  cases g.signals[i]? with
  | none => simp
  | some x =>
    by_cases hd : inst.depth = i <;> by_cases hi : i ∈ inst.args ++ [inst.returnAddr] <;>
      simp [hd, hi]

theorem room_resized {code : TypeId} (h : Stacked g code inst) (depth : Int) :
    inst.room (resized g inst depth) = (UInt64.ofInt depth).toNat := by
  obtain ⟨x, hx, -⟩ := h.depth
  rw [Instance.room, resized_signals, hx]
  simp

theorem toNat_ofInt_le (hd : 0 ≤ depth) : ((UInt64.ofInt depth).toNat : Int) ≤ depth := by
  have hlt : (depth % 2 ^ 64).toNat < 2 ^ 64 := by omega
  rw [UInt64.ofInt, UInt64.toNat_ofNat', Nat.mod_eq_of_lt hlt]
  omega

/-- The resized stack is as deep as its memories are long. -/
theorem Stacked.resized {code : TypeId} (h : Stacked g code inst) (hd : 0 ≤ depth) :
    Stacked (resized g inst depth) code inst where
  sp := by
    obtain ⟨x, hx, hdecl, hkind, ht⟩ := h.sp
    rw [resized_signals, hx]
    exact ⟨_, rfl, hdecl, hkind, ht⟩
  depth := by
    obtain ⟨x, hx, hdecl, hkind, ht⟩ := h.depth
    rw [resized_signals, hx]
    exact ⟨_, rfl, hdecl, hkind, ht⟩
  width := by
    rw [room_resized h, resized_types, if_pos rfl, h.width]
    rfl
  memories d hmem := by
    obtain ⟨x, hx, hdecl, hkind, -⟩ := h.memories d hmem
    have hin : d ∈ inst.args ++ [inst.returnAddr] := by
      simp only [List.mem_cons, List.mem_append] at hmem ⊢
      tauto
    rw [room_resized h, resized_signals, hx]
    refine ⟨_, rfl, hdecl, hkind, ?_⟩
    simpa [hin] using toNat_ofInt_le hd
  address := by
    obtain ⟨x, hx, ht⟩ := h.address
    rw [resized_signals, hx]
    exact ⟨_, rfl, ht⟩
  nodup := h.nodup
  args := h.args

theorem World.resize {m : Module} {sc : Script.Scope} (h : World env fs m sc)
    (hi : env.Has fs r inst) (hd : 0 ≤ depth) :
    World env fs (m.modifySymbols (resized · inst depth)) sc := by
  refine h.congr_symbols (fun i x hx => ?_) (fun i t ht => ?_) fun r' inst' hi' => ?_
  · rw [Module.modifySymbols, resized_signals, hx]
    exact ⟨_, rfl, rfl, rfl⟩
  · rw [Module.modifySymbols, resized_types, ht]
    split
    · exact ⟨_, rfl⟩
    · exact ⟨t, rfl⟩
  · by_cases hr : r' = r
    · subst hr
      obtain rfl : inst' = inst := Option.some.inj (hi'.2.symm.trans hi.2)
      exact (h.stacked r' inst' hi').resized hd
    · refine (h.stacked r' inst' hi').congr (fun d hmem => ?_) ?_
      · have hout : d ∉ inst.stack := fun hx => hr (h.stacks_apart r' r inst' inst hi' hi d hmem hx)
        simp only [Instance.stack, List.mem_cons, not_or] at hout
        rw [Module.modifySymbols, resized_signals]
        simp [Ne.symm hout.2.1, hout.2.2]
      · rw [Module.modifySymbols, resized_types, if_neg]
        exact fun ht => hr (h.types_apart r' r inst' inst hi' hi ht.symm)

theorem Widens.resize (inst : Instance) (depth : Int) :
    Widens env fs fs g (resized g inst depth) := by
  have hget := resized_signals g inst depth
  refine .of_symbols ?_ (fun d => ?_) ?_
  · by_contra hne
    rcases Nat.lt_or_gt_of_ne hne with hlt | hlt
    · have hx := hget (resized g inst depth).signals.size
      rw [Array.getElem?_eq_none (le_refl _), Array.getElem?_eq_getElem hlt] at hx
      simp at hx
    · have hx := hget g.signals.size
      rw [Array.getElem?_eq_none (le_refl _), Array.getElem?_eq_getElem hlt] at hx
      simp at hx
  · rw [Symbols.signalName, Symbols.signalName, hget]
    cases g.signals[d]? <;> rfl
  · rw [resized, (foldl_depth depth _ _).2.1]
    rfl

/-! ## Depths that were asked for -/

/-- The depth of the stack of a recursive function: the one that a call asks for, else that of the
function, else the width of its widest argument, and at least one. -/
def stackDepth (f : Function) (inst : Instance) (request : Int) : Int :=
  let asked := if request = 0 then f.depth else request
  max (if asked = 0 then guessDepth inst.argTypes else asked) 1

theorem stackDepth_congr {f' : Function} (hdepth : f'.depth = f.depth)
    (htypes : inst'.argTypes = inst.argTypes) (request : Int) :
    stackDepth f' inst' request = stackDepth f inst request := by
  rw [stackDepth, stackDepth, hdepth, htypes]

/-- The stack is that of a recursive function, and as deep as a call asks for. -/
def Instance.Grants (g : Symbols) (inst : Instance) (request : Int) : Prop :=
  inst.sized = true ∧ (0 < request → inst.room g = (UInt64.ofInt request).toNat)

/-- Every stack has room for one call, or for as many as the recursive calls asked for. -/
structure Depths (env : Env) (asked : InstanceRef → Int → Prop) (fs : Array Function)
    (g : Symbols) : Prop where
  grants : ∀ r request, asked r request → ∃ inst, env.Has fs r inst ∧ inst.Grants g request
  unsized : ∀ r inst, env.Has fs r inst → inst.sized = false → inst.room g = 1
  sized : ∀ r inst f, env.Has fs r inst → fs[r.function]? = some f → inst.sized = true →
    ∃ request, asked r request ∧ inst.room g = (UInt64.ofInt (stackDepth f inst request)).toNat

namespace Depths

variable {env : Env} {asked : InstanceRef → Int → Prop} {fs fs' : Array Function} {g g' : Symbols}

section

variable (h : Depths env asked fs g)
include h

/-- Only the functions and the rooms of their stacks matter. -/
theorem congr (hkeep : ∀ r inst, env.Has fs r inst → ∃ inst', env.Has fs' r inst')
    (hsame : ∀ r inst' f', env.Has fs' r inst' → fs'[r.function]? = some f' →
      ∃ inst f, env.Has fs r inst ∧ fs[r.function]? = some f ∧ f'.depth = f.depth ∧
        inst'.argTypes = inst.argTypes ∧ inst'.sized = inst.sized ∧
        inst'.room g' = inst.room g) : Depths env asked fs' g' where
  grants r request hr := by
    obtain ⟨inst, hi, hgrants⟩ := h.grants r request hr
    obtain ⟨inst', hi'⟩ := hkeep r inst hi
    obtain ⟨f', hf', -⟩ := Option.bind_eq_some_iff.mp hi'.2
    obtain ⟨inst₀, f, hi₀, -, -, -, hsized, hroom⟩ := hsame r inst' f' hi' hf'
    obtain rfl : inst₀ = inst := Option.some.inj (hi₀.2.symm.trans hi.2)
    exact ⟨inst', hi', by rw [Instance.Grants, hsized, hroom]; exact hgrants⟩
  unsized r inst' hi' hs := by
    obtain ⟨f', hf', -⟩ := Option.bind_eq_some_iff.mp hi'.2
    obtain ⟨inst, f, hi, -, -, -, hsized, hroom⟩ := hsame r inst' f' hi' hf'
    rw [hroom]
    exact h.unsized r inst hi (hsized ▸ hs)
  sized r inst' f' hi' hf' hs := by
    obtain ⟨inst, f, hi, hf, hdepth, htypes, hsized, hroom⟩ := hsame r inst' f' hi' hf'
    simp only [hroom, stackDepth_congr hdepth htypes]
    exact h.sized r inst f hi hf (hsized ▸ hs)

theorem of_rooms (hroom : ∀ r inst, env.Has fs r inst → inst.room g' = inst.room g) :
    Depths env asked fs g' :=
  h.congr (fun _ inst hi => ⟨inst, hi⟩)
    fun r inst f hi hf => ⟨inst, f, hi, hf, rfl, rfl, rfl, hroom r inst hi⟩

theorem grow {code : TypeId}
    (hs : ∀ r inst, env.Has fs r inst → Stacked g code inst) (hg : g.Grows g') :
    Depths env asked fs g' := by
  refine h.of_rooms fun r inst hi => ?_
  obtain ⟨x, hx, -⟩ := (hs r inst hi).depth
  rw [Instance.room, Instance.room, hx, hg.signals _ x hx]

theorem modifyInstance (r₀ : InstanceRef)
    {change : Instance → Instance} (hc : ∀ inst : Instance, inst.Same (change inst))
    (hs : ∀ inst, (change inst).sized = inst.sized) :
    Depths env asked (fs.modify r₀.function fun f =>
      { f with instances := f.instances.modify r₀.position change }) g := by
  refine h.congr (fun r inst hi => ?_) fun r inst' f' hi' hf' => ?_
  · have hw : Widens env fs _ g g := .modifyInstance r₀ hc
    obtain ⟨inst', hi', -⟩ := hw.instances r inst hi
    exact ⟨inst', hi'⟩
  · obtain ⟨inst, hi, rfl⟩ := hi'.of_modifyInstance
    obtain ⟨f, hf, hdepth⟩ : ∃ f, fs[r.function]? = some f ∧ f'.depth = f.depth := by
      rw [Array.getElem?_modify] at hf'
      split at hf'
      · obtain ⟨f, hf, rfl⟩ := Option.map_eq_some_iff.mp hf'
        exact ⟨f, hf, rfl⟩
      · exact ⟨f', hf', rfl⟩
    refine ⟨inst, f, hi, hf, hdepth, ?_⟩
    split
    · exact ⟨(congrArg Instance.argTypes (hc inst).eq :), hs inst, (hc inst).room g⟩
    · exact ⟨rfl, rfl, rfl⟩

theorem define {f : Function} (hf : f.instances = #[]) : Depths env asked (fs.push f) g := by
  have hpush : ∀ r inst, env.Has (fs.push f) r inst ↔ env.Has fs r inst := fun r inst => by
    rw [Env.Has, Env.Has, instance?_push hf]
  refine h.congr (fun r inst hi => ⟨inst, (hpush r inst).mpr hi⟩) fun r inst f' hi hf' => ?_
  have hi₀ := (hpush r inst).mp hi
  obtain ⟨f₀, hf₀, -⟩ := Option.bind_eq_some_iff.mp hi₀.2
  obtain rfl : f' = f₀ :=
    Option.some.inj (hf'.symm.trans (Symbols.getElem?_push_of_some hf₀))
  exact ⟨inst, f', hi₀, hf₀, rfl, rfl, rfl, rfl⟩

/-- More calls may have asked, if they got what they asked for. -/
theorem reask {asked' : InstanceRef → Int → Prop}
    (hold : ∀ r request, asked r request → asked' r request)
    (hnew : ∀ r request, asked' r request →
      asked r request ∨ ∃ inst, env.Has fs r inst ∧ inst.Grants g request) :
    Depths env asked' fs g where
  grants r request hr := (hnew r request hr).elim (h.grants r request) id
  unsized := h.unsized
  sized r inst f hi hf hs := by
    obtain ⟨request, hr, hroom⟩ := h.sized r inst f hi hf hs
    exact ⟨request, hold r request hr, hroom⟩

end

end Depths

theorem grants_resized {code : TypeId} (h : Stacked g code inst) (f : Function) (request : Int) :
    Instance.Grants (resized g inst (stackDepth f inst request)) { inst with sized := true }
      request := by
  refine ⟨rfl, fun hpos => ?_⟩
  have hwanted : stackDepth f inst request = request := by
    rw [stackDepth, if_neg (by omega), if_neg (by omega)]
    omega
  rw [hwanted]
  exact room_resized h _

/-- A first recursive call fixes the depth of one stack. -/
theorem Depths.size {asked : InstanceRef → Int → Prop} {code : TypeId} (h : Depths env asked fs g)
    (hs : ∀ r inst, env.Has fs r inst → Stacked g code inst)
    (hapart : ∀ r r' inst inst', env.Has fs r inst → env.Has fs r' inst' →
      ∀ d ∈ inst.stack, d ∈ inst'.stack → r = r') {inst₀ : Instance} (hi₀ : env.Has fs r₀ inst₀)
    {f₀ : Function} (hf₀ : fs[r₀.function]? = some f₀) (hfirst : inst₀.sized = false)
    (request : Int) : Depths env (fun r q => asked r q ∨ (r = r₀ ∧ q = request))
      (fs.modify r₀.function fun f =>
        { f with instances := f.instances.modify r₀.position ({ · with sized := true }) })
      (resized g inst₀ (stackDepth f₀ inst₀ request)) := by
  have hw : Widens env fs (fs.modify r₀.function fun f =>
      { f with instances := f.instances.modify r₀.position ({ · with sized := true }) }) g g :=
    .modifyInstance r₀ fun _ => ⟨rfl, fun _ => rfl⟩
  -- the other stacks keep their room
  have hother : ∀ r inst, env.Has fs r inst → r ≠ r₀ →
      inst.room (resized g inst₀ (stackDepth f₀ inst₀ request)) = inst.room g := by
    intro r inst hi hrr
    have hout : inst.depth ≠ inst₀.depth := fun hx => hrr (hapart r r₀ inst inst₀ hi hi₀
      inst.depth (by simp [Instance.stack]) (by simp [Instance.stack, hx]))
    rw [Instance.room, Instance.room, resized_signals]
    cases g.signals[inst.depth]? <;> simp [Ne.symm hout]
  -- nobody asked for this one before
  have hnone : ∀ q, ¬ asked r₀ q := by
    intro q hq
    obtain ⟨inst, hi, hsized, -⟩ := h.grants r₀ q hq
    obtain rfl : inst = inst₀ := Option.some.inj (hi.2.symm.trans hi₀.2)
    rw [hfirst] at hsized
    exact Bool.false_ne_true hsized
  refine ⟨fun r q hq => ?_, fun r inst' hi' hsized => ?_, fun r inst' f' hi' hf' hsized => ?_⟩
  · by_cases hrr : r = r₀
    · subst hrr
      obtain ⟨-, rfl⟩ := hq.resolve_left (hnone q)
      obtain ⟨inst', hi', -⟩ := hw.instances r inst₀ hi₀
      refine ⟨inst', hi', ?_⟩
      obtain ⟨inst, hi, rfl⟩ := hi'.of_modifyInstance
      obtain rfl : inst = inst₀ := Option.some.inj (hi.2.symm.trans hi₀.2)
      rw [if_pos rfl]
      exact grants_resized (hs r inst hi) f₀ q
    · obtain ⟨inst, hi, hgrants⟩ := h.grants r q (hq.resolve_right fun hx => hrr hx.1)
      obtain ⟨inst', hi', -⟩ := hw.instances r inst hi
      refine ⟨inst', hi', ?_⟩
      obtain ⟨inst₁, hi₁, rfl⟩ := hi'.of_modifyInstance
      obtain rfl : inst₁ = inst := Option.some.inj (hi₁.2.symm.trans hi.2)
      rw [if_neg hrr, Instance.Grants, hother r inst₁ hi hrr]
      exact hgrants
  · obtain ⟨inst, hi, rfl⟩ := hi'.of_modifyInstance
    by_cases hrr : r = r₀
    · rw [if_pos hrr] at hsized
      exact absurd hsized (by simp)
    · rw [if_neg hrr] at hsized ⊢
      rw [hother r inst hi hrr]
      exact h.unsized r inst hi hsized
  · obtain ⟨inst, hi, rfl⟩ := hi'.of_modifyInstance
    obtain ⟨f, hf, -⟩ := Option.bind_eq_some_iff.mp hi.2
    have hdepth : f'.depth = f.depth := by
      rw [Array.getElem?_modify, hf] at hf'
      split at hf' <;> obtain rfl := Option.some.inj hf' <;> rfl
    by_cases hrr : r = r₀
    · subst hrr
      obtain rfl : inst = inst₀ := Option.some.inj (hi.2.symm.trans hi₀.2)
      obtain rfl : f = f₀ := Option.some.inj (hf.symm.trans hf₀)
      rw [if_pos rfl]
      refine ⟨request, .inr ⟨rfl, rfl⟩, ?_⟩
      rw [stackDepth_congr hdepth rfl]
      exact room_resized (hs r inst hi) _
    · rw [if_neg hrr] at hsized ⊢
      obtain ⟨q, hq, hroom⟩ := h.sized r inst f hi hf hsized
      refine ⟨q, .inl hq, ?_⟩
      rw [hother r inst hi hrr, hroom, stackDepth_congr hdepth rfl]

end Lockstep.Program
