import Lockstep.Proofs.Program.Walk

/-!
# Steps aside

Many steps of an elaboration do nothing to states, frames and links: they resolve, declare, record or
size something. The constructs, taken apart into what opens and what closes them, are made of such
steps and of those that cut states and wire them.
-/

namespace Lockstep

/-- The same signals are there, each with its type at the same place, and the same processes. -/
structure Module.Retains (m m' : Module) : Prop where
  signals : ∀ (i : SignalId) x, m.symbols.signals[i]? = some x →
    ∃ y, m'.symbols.signals[i]? = some y ∧ y.type = x.type
  types : m.symbols.types.size ≤ m'.symbols.types.size
  processes : m'.processes = m.processes

namespace Module.Retains

variable {m m' m'' : Module}

theorem refl (m : Module) : m.Retains m := ⟨fun _ x hx => ⟨x, hx, rfl⟩, le_refl _, rfl⟩

theorem trans (h : m.Retains m') (h' : m'.Retains m'') : m.Retains m'' := by
  constructor
  · intro i x hx
    obtain ⟨y, hy, hxy⟩ := h.signals i x hx
    obtain ⟨z, hz, hyz⟩ := h'.signals i y hy
    exact ⟨z, hz, hyz.trans hxy⟩
  · exact h.types.trans h'.types
  · exact h'.processes.trans h.processes

theorem of_expands (h : m.Expands m') : m.Retains m' :=
  ⟨fun i x hx => ⟨x, h.symbols.signals i x hx, rfl⟩, h.symbols.types_size, h.processes⟩

/-- Types may change in place. -/
theorem of_types {g : Symbols} (hs : g.signals = m.symbols.signals)
    (ht : m.symbols.types.size ≤ g.types.size) : m.Retains { m with symbols := g } :=
  ⟨fun i x hx => ⟨x, by rw [hs]; exact hx, rfl⟩, ht, rfl⟩

end Module.Retains

namespace Machine

/-- What elaboration does not change of a machine. -/
def fixed (f : Machine) : Machine := { f with states := #[], onReset := [], fault := none }

/-- What is reset in `f` is reset in `f'` as well, and whatever else to zero. -/
def Clears (f f' : Machine) : Prop :=
  ∃ more, f'.onReset = f.onReset ++ more ∧ ∀ st ∈ more, ∃ i t, st = .assign i none (.const 0 t)

theorem Clears.refl (f : Machine) : f.Clears f := ⟨[], (List.append_nil _).symm, by simp⟩

theorem Clears.trans {f f' f'' : Machine} (h : f.Clears f') (h' : f'.Clears f'') : f.Clears f'' := by
  obtain ⟨more, heq, hmore⟩ := h
  obtain ⟨more', heq', hmore'⟩ := h'
  refine ⟨more ++ more', by rw [heq', heq, List.append_assoc], fun st hst => ?_⟩
  exact (List.mem_append.mp hst).elim (hmore st) (hmore' st)

theorem Clears.add (f : Machine) (i : SignalId) (t : Option TypeId) :
    f.Clears { f with onReset := f.onReset ++ [.assign i none (.const 0 t)] } :=
  ⟨_, rfl, fun _ hst => ⟨i, t, List.mem_singleton.mp hst⟩⟩

theorem addGoto_other (f : Machine) {j k : Nat} (hj : j ≠ k) (t : Transition Expr) :
    (f.addGoto k t).states[j]? = f.states[j]? := by
  unfold addGoto modifyState
  split
  · simp [Array.getElem?_modify, hj.symm]
  · rfl

theorem addBody_size (f : Machine) (k : Int) (body : List Statement) :
    (f.addBody k body).size = f.size := by
  unfold addBody modifyState
  split <;> simp [size]

end Machine

namespace Program

/-- The command declares, names, sizes or looks at something, and leaves the machine alone. -/
def Command.isPassive : Command → Bool
  | .reg .. | .memory .. | .bind .. | .probe _ | .resize .. => true
  | _ => false

/-- The states that a frame keeps for later. -/
def Frame.marks (f : Frame) : List Nat :=
  f.closedIf.toList ++ f.loop.elim [] fun l => l.breaks ++ l.continues

section

variable {bad : Command → Bool} {x : Command} {body : List Command}

theorem Avoids.of_subset {body' : List Command} (h : Avoids bad body')
    (hsub : ∀ y ∈ Command.withinAll body, y ∈ Command.withinAll body') : Avoids bad body :=
  fun y hy => h y (hsub y hy)

theorem Avoids.within (h : Avoids bad [x])
    (hsub : ∀ y ∈ Command.withinAll body, y ∈ x.within) : Avoids bad body :=
  h.of_subset fun y hy => by simpa [Command.withinAll] using hsub y hy

end

/-! ## Constructs

Each construct is what opens it, its body, and what closes it. -/

/-- Cuts the statements before a branch, and opens it. -/
def openBranch : ElabM Nat := do
  let st ← step
  pushFrame {}
  return st

def closeBranch (test : Expr) (st : Nat) : ElabM Nat := do
  let yes ← step
  let _ ← popFrame
  addGoto st ⟨test.toOption, some (.after st), some (.after yes)⟩
  modifyTop fun f => { f with closedIf := some yes }
  return yes

theorem ifThen_eq (test : Expr) (body : ElabM Unit) : ifThen test body = (do
      let st ← openBranch
      body
      closeBranch test st) := by
  simp [ifThen, openBranch, closeBranch]

/-- Opens the other branch, if there is one to be the other of; gives the closing state of that. -/
def openElse : ElabM Nat := do
  let d ← getDraft
  match d.frames.head?.bind Frame.closedIf, d.blocks.pending with
  | some yes, false =>
    modifyTop fun f => { f with closedIf := none }
    pushFrame {}
    return yes
  | _, _ => fail (.elseWithoutIf d.name (d.machine.size - 1))

def closeElse (yes : Nat) : ElabM Nat := do
  let no ← step
  let _ ← popFrame
  addGoto yes (.jump (.after no))
  return no

theorem orElse_eq (body : ElabM Unit) : orElse body = (do
      let yes ← openElse
      body
      closeElse yes) := by
  simp only [orElse, openElse, bind_assoc]
  refine bind_congr fun d => ?_
  cases d.frames.head?.bind Frame.closedIf with
  | none => rfl
  | some yes =>
    cases d.blocks.pending with
    | true => rfl
    | false => simp [closeElse]

/-- Cuts the statements before a loop, and opens it. -/
def openLoop (advance : Option Statement) : ElabM Nat := do
  let st ← step
  pushFrame { loop := some { anchor := st + 1, advance } }
  return st

def closeLoop (head tail : Option Expr) (advance : Option Statement) (st : Nat) : ElabM Nat := do
  advance.forM emit
  let yes ← step
  let frame ← popFrame
  addGoto st (loopEdge head st yes)
  addGoto yes (loopEdge tail st yes)
  let f := frame.loop.getD { anchor := st + 1 }
  f.continues.forM fun c => addGoto c (loopEdge tail st yes)
  f.breaks.forM fun b => addGoto b (.jump (.after yes))
  return yes

theorem loop_eq (head tail : Option Expr) (advance : Option Statement) (body : ElabM Unit) :
    loop head tail advance body = (do
      let st ← openLoop advance
      body
      closeLoop head tail advance st) := by
  simp [loop, openLoop, closeLoop]

/-- An enumerator that has been opened. -/
structure Counter where
  index : SignalId
  type : TypeId
  /-- Tested before the first round. -/
  enter : Expr
  /-- Tested after each round. -/
  again : Expr
  /-- The state before the first round. -/
  state : Nat
deriving DecidableEq

/-- Sets the index to zero. -/
def Counter.clear (k : Counter) : Statement := .assign k.index none (.const 0 (some k.type))

/-- The index of the next round. -/
def Counter.next (k : Counter) : Expr := .plus (.ref k.index) (.const 1 (some k.type))

def Counter.advance (k : Counter) : Statement := .assign k.index none k.next

/-- Declares the index of an enumerator and opens its loop. -/
def openCount (limit : Expr) : ElabM Counter := do
  stepIfWaiting
  let (type, symbols) ← require ((← getSymbols).shareType limit)
  modifyModule fun m => { m with symbols }
  let i ← declare (·.declareAt "i" .reg type 0 0)
  let one : Expr := .const 1 (some type)
  let zero : Expr := .const 0 (some type)
  let advanced : Expr := .plus (.ref i) one
  emit (.assign i none zero)
  let enter ← relate .lt zero limit
  let again ← relate .lt advanced limit
  let st ← openLoop (some (.assign i none advanced))
  return ⟨i, type, enter, again, st⟩

def closeCount (k : Counter) : ElabM Nat :=
  closeLoop (some k.enter) (some k.again) (some k.advance) k.state

theorem count_eq (limit : Expr) (body : Expr → ElabM Unit) : count limit body = (do
      let k ← openCount limit
      body (.ref k.index)
      closeCount k) := by
  simp [count, openCount, closeCount, loop_eq, Counter.advance, Counter.next]

/-- The index of an enumerator, with the type of its limit. -/
def declareIndex (limit : Expr) : ElabM (SignalId × TypeId) := do
  stepIfWaiting
  let (type, symbols) ← require ((← getSymbols).shareType limit)
  modifyModule fun m => { m with symbols }
  let i ← declare (·.declareAt "i" .reg type 0 0)
  return (i, type)

theorem openCount_eq (limit : Expr) : openCount limit = (do
    let p ← declareIndex limit
    emit (.assign p.1 none (.const 0 (some p.2)))
    let enter ← relate .lt (.const 0 (some p.2)) limit
    let again ← relate .lt (.plus (.ref p.1) (.const 1 (some p.2))) limit
    let st ← openLoop (some (.assign p.1 none (.plus (.ref p.1) (.const 1 (some p.2)))))
    return ⟨p.1, p.2, enter, again, st⟩) := by
  simp [openCount, declareIndex]

/-- Chooses the instance that a call goes to; says whether its body has yet to be elaborated. -/
def chooseInstance (fn : Nat) (depth : Int) (args : List Expr) : ElabM (InstanceRef × Bool) := do
  let s ← getSymbols
  let types ← args.mapM fun a => require (s.knownType a)
  match ← elaborating fn types with
  | some r =>
    sizeStack r depth
    return (r, false)
  | none =>
    match (← getFunction fn).instance? types with
    | some position => return (⟨fn, position⟩, false)
    | none => return (← instantiate fn types, true)

theorem callFunction_eq (run : List Command → ElabM Unit) (fn : Nat) (depth : Int)
    (args : List Expr) : callFunction run fn depth args = (do
      let (r, fresh) ← chooseInstance fn depth args
      if fresh then callFirst run r args else callExisting run r args
      return .ref (← getInstance r).ret) := by
  simp only [callFunction, chooseInstance, bind_assoc]
  refine bind_congr fun s => bind_congr fun types => bind_congr fun o => ?_
  cases o with
  | some r => simp
  | none =>
    simp only [bind_assoc]
    refine bind_congr fun f => ?_
    cases f.instance? types with
    | some position | none => simp

/-- Pushes the first call of an instance, and opens its body. Gives the state of the call and the
link of its return address. -/
def openBody (r : InstanceRef) (args : List Expr) : ElabM (Nat × LinkId) := do
  let link ← pushCall r args
  let call ← step
  modifyInstance r ({ · with entry := call + 1 })
  modifyDraft fun d => { d with building := r :: d.building }
  pushFrame { isBody := true }
  let inst ← getInstance r
  let formals := inst.args.map fun mem => Expr.index mem (stackTop inst)
  modifyScope fun sc => { sc with formals := formals :: sc.formals }
  return (call, link)

/-- Returns at the end of a body, and closes it. -/
def closeBody (r : InstanceRef) : ElabM Nat := do
  modifyScope fun sc => { sc with formals := sc.formals.tail }
  let last ← makeReturn r none
  let _ ← popFrame
  modifyDraft fun d => { d with building := d.building.tail }
  return last

/-- The transition of a call, and the state that its return address stands for. -/
def wireCall (r : InstanceRef) (call : Nat) (link : LinkId) (skip resume : Nat) : ElabM Unit := do
  modifyDraft fun d => { d with resumes := d.resumes ++ [(link, resume)] }
  let inst ← getInstance r
  let room ← hasRoom inst
  addGoto call (.branch room (.state inst.entry) (.state skip))

theorem callFirst_eq (run : List Command → ElabM Unit) (r : InstanceRef) (args : List Expr) :
    callFirst run r args = (do
      let (call, link) ← openBody r args
      run (← getFunction r.function).body
      let last ← closeBody r
      finishCall run r call link (last + 1)) := by
  simp [callFirst, openBody, closeBody]

theorem finishCall_eq (run : List Command → ElabM Unit) (r : InstanceRef) (call : Nat)
    (link : LinkId) (skip : Nat) : finishCall run r call link skip = (do
      match (← getFunction r.function).overflow with
      | some handler =>
        run handler
        let last ← step
        wireCall r call link skip (last + 1)
      | none => wireCall r call link skip skip) := by
  simp only [finishCall]
  refine bind_congr fun f => ?_
  cases f.overflow with
  | some handler | none => simp [wireCall]

/-! ## Steps aside -/

theorem mem_modify {α : Type} {xs : Array α} {n : Nat} {f : α → α} {a : α} (h : a ∈ xs.modify n f) :
    a ∈ xs ∨ ∃ b ∈ xs, a = f b := by
  obtain ⟨j, hj⟩ := Array.mem_iff_getElem?.mp h
  rw [Array.getElem?_modify] at hj
  split at hj
  · obtain ⟨b, hb, rfl⟩ := Option.map_eq_some_iff.mp hj
    exact .inr ⟨b, Array.mem_of_getElem? hb, rfl⟩
  · exact .inl (Array.mem_of_getElem? hj)

/-- The command that defines a function. -/
def Function.definition (f : Function) : Command := .define f.name f.depth f.returns f.overflow f.body

def Context.definitions (c : Context) : Array Command := c.session.functions.map Function.definition

/-- Instances of a function do not change its definition. -/
theorem definitions_modify (fs : Array Function) (fn : Nat)
    (change : Array Instance → Array Instance) :
    (fs.modify fn fun f => { f with instances := change f.instances }).map Function.definition =
      fs.map Function.definition := by
  ext i hi hi'
  · simp
  · simp only [Array.getElem_map, Array.getElem_modify]
    split <;> rfl

/-- A body that was elaborated starts there. -/
def Session.Entered (s : Session) (i : Int) : Prop :=
  ∃ f ∈ s.functions, ∃ inst ∈ f.instances, i = (inst.entry : Nat)

/-- A change of instances starts bodies at `e` only. -/
theorem Session.Entered.of_modify {s : Session} {fn e : Nat} {i : Int}
    (change : Array Instance → Array Instance)
    (hc : ∀ xs, ∀ x' ∈ change xs, x'.entry = e ∨ ∃ x ∈ xs, x.entry = x'.entry)
    (h : Session.Entered { s with functions := s.functions.modify fn fun f => { f with
      instances := change f.instances } } i) : i = e ∨ s.Entered i := by
  obtain ⟨g, hg, inst, hinst, rfl⟩ := h
  dsimp only at hg
  rcases mem_modify hg with hg | ⟨x, hx, rfl⟩
  · exact .inr ⟨g, hg, inst, hinst, rfl⟩
  · rcases hc _ inst hinst with h0 | ⟨j, hj, heq⟩
    · exact .inl (by rw [h0])
    · exact .inr ⟨x, hx, j, hj, by rw [heq]⟩

theorem avoids_of_definitions {bad : Command → Bool} {fs fs' : Array Function}
    (h : fs'.map Function.definition = fs.map Function.definition)
    (hfs : ∀ f ∈ fs, f.Avoids bad) : ∀ f ∈ fs', f.Avoids bad := by
  intro f' hf'
  obtain ⟨f, hf, heq⟩ := Array.mem_map.mp (h ▸ Array.mem_map_of_mem hf' : _ ∈ fs.map _)
  obtain ⟨-, -, -, hover, hbody⟩ := Command.define.inj heq
  exact ⟨hbody ▸ (hfs f hf).body, hover ▸ (hfs f hf).overflow⟩

/-- Nothing is done to states, frames and links. -/
structure Aside (c c' : Context) : Prop where
  states : c'.draft.machine.states = c.draft.machine.states
  fixed : c'.draft.machine.fixed = c.draft.machine.fixed
  clears : c.draft.machine.Clears c'.draft.machine
  frames : c'.draft.frames = c.draft.frames
  resumes : c'.draft.resumes = c.draft.resumes
  module : c.session.module.Retains c'.session.module
  links : c'.session.module.symbols.links.size = c.session.module.symbols.links.size
  definitions : c'.definitions = c.definitions
  entries : ∀ i, c'.session.Entered i → i = 0 ∨ c.session.Entered i

/-- Nor is a statement emitted, or a body opened or closed. -/
structure Silent (c c' : Context) : Prop extends Aside c c' where
  blocks : c'.draft.blocks = c.draft.blocks
  building : c'.draft.building = c.draft.building

/-- The step is silent wherever it is taken. -/
def Passive {α : Type} (x : ElabM α) : Prop := ∀ c, Ensures x c fun _ c' => Silent c c'

section

variable {α β : Type} {c c' c'' : Context}

theorem Silent.trans (h : Silent c c') (h' : Silent c' c'') : Silent c c'' where
  states := h'.states.trans h.states
  fixed := h'.fixed.trans h.fixed
  clears := h.clears.trans h'.clears
  frames := h'.frames.trans h.frames
  resumes := h'.resumes.trans h.resumes
  module := h.module.trans h'.module
  links := h'.links.trans h.links
  definitions := h'.definitions.trans h.definitions
  entries i hi := (h'.entries i hi).elim .inl (h.entries i)
  blocks := h'.blocks.trans h.blocks
  building := h'.building.trans h.building

theorem Aside.size (h : Aside c c') : c'.draft.machine.size = c.draft.machine.size :=
  congrArg Array.size h.states

/-- What is not looked at may change. -/
theorem Aside.same (hm : c'.draft.machine = c.draft.machine)
    (hf : c'.draft.frames = c.draft.frames) (hr : c'.draft.resumes = c.draft.resumes)
    (hx : c'.session.module = c.session.module)
    (hfn : c'.session.functions = c.session.functions) : Aside c c' :=
  ⟨by rw [hm], by rw [hm], hm ▸ .refl _, hf, hr, hx ▸ .refl _, by rw [hx],
    by rw [Context.definitions, hfn]; rfl, fun i hi => .inr (by rwa [Session.Entered, hfn] at hi)⟩

theorem Silent.same (hd : c'.draft = c.draft) (hx : c'.session.module = c.session.module)
    (hfn : c'.session.functions = c.session.functions) : Silent c c' :=
  ⟨.same (by rw [hd]) (by rw [hd]) (by rw [hd]) hx hfn, by rw [hd], by rw [hd]⟩

theorem Silent.retain {m : Module} (hm : c.session.module.Retains m)
    (hl : m.symbols.links.size = c.session.module.symbols.links.size) :
    Silent c { c with session := { c.session with module := m } } :=
  ⟨⟨rfl, rfl, .refl _, rfl, rfl, hm, hl, rfl, fun _ => .inr⟩, rfl, rfl⟩

/-- A change of instances that starts no body anew. -/
theorem Silent.modifyFunction (c : Context) (fn : Nat) (change : Array Instance → Array Instance)
    (hc : ∀ xs, ∀ i' ∈ change xs, i'.entry = 0 ∨ ∃ i ∈ xs, i.entry = i'.entry) :
    Silent c { c with session := { c.session with
      functions := c.session.functions.modify fn fun f => { f with
        instances := change f.instances } } } := by
  exact ⟨⟨rfl, rfl, .refl _, rfl, rfl, .refl _, rfl, definitions_modify _ fn change,
    fun _ => Session.Entered.of_modify change hc⟩, rfl, rfl⟩

namespace Passive

/-- Steps that leave the context as it is. -/
theorem still {x : ElabM α} (h : ∀ c, Ensures x c fun _ c' => c' = c) : Passive x := fun c =>
  (h c).mono fun _ _ hc => hc ▸ .same rfl rfl rfl

theorem pure (a : α) : Passive (pure a) := .still fun _ => by simp

theorem bind {x : ElabM α} {f : α → ElabM β} (hx : Passive x) (hf : ∀ a, Passive (f a)) :
    Passive (x >>= f) := fun c =>
  ensures_bind.mpr ((hx c).mono fun a c' h => (hf a c').mono fun _ _ h' => h.trans h')

theorem ite {p : Prop} [Decidable p] {x y : ElabM α} (hx : Passive x) (hy : Passive y) :
    Passive (if p then x else y) := by
  split
  · exact hx
  · exact hy

theorem fail (e : Error) : Passive (fail (α := α) e) := fun _ => by simp

theorem require (o : Option α) : Passive (require o) := .still fun _ => by simp

theorem mapM {f : α → ElabM β} (hf : ∀ a, Passive (f a)) : ∀ xs : List α, Passive (xs.mapM f)
  | [] => by
    rw [List.mapM_nil]
    exact .pure []
  | x :: xs => by
    rw [List.mapM_cons]
    exact .bind (hf x) fun b => .bind (mapM hf xs) fun bs => .pure (b :: bs)

theorem forM {f : α → ElabM PUnit} (hf : ∀ a, Passive (f a)) (xs : List α) :
    Passive (xs.forM f) := fun c =>
  Ensures.forM (P := Silent c) (.same rfl rfl rfl) fun x _ c' h =>
    (hf x c').mono fun _ _ h' => h.trans h'

theorem getSymbols : Passive getSymbols := .still fun _ => by simp

theorem getDraft : Passive getDraft := .still fun _ => by simp

theorem getFunction (fn : Nat) : Passive (getFunction fn) := .still fun _ => by
  simp [Program.getFunction]

theorem getInstance (r : InstanceRef) : Passive (getInstance r) :=
  .bind (.getFunction _) fun _ => .pure _

theorem resolving {f : Script.Scope → Option Script.Focus → Script.Resolve α}
    (hf : ∀ sc focus, Script.Expanding (f sc focus)) : Passive (resolving f) := fun _ =>
  .resolving hf fun _ _ hm _ hl => .retain (.of_expands hm) (by rw [hl])

theorem resolve (t : Script.Term) : Passive (resolve t) :=
  .resolving fun sc focus => t.resolve_expanding sc focus

theorem resolveSignal (name : String) : Passive (resolveSignal name) := .still fun _ =>
  .resolveSignal fun _ _ => rfl

theorem record (command : String) (fact : Fact) : Passive (record command fact) := fun _ =>
  ensures_record.mpr (.same rfl rfl rfl)

theorem note (place message : String) : Passive (note place message) := fun _ =>
  ensures_note.mpr (.same rfl rfl rfl)

theorem bindVar (name : Option String) (e : Expr) : Passive (bindVar name e) := fun _ =>
  ensures_modifyScope.mpr (.same rfl rfl rfl)

theorem relate (rel : Relation) (a b : Expr) : Passive (relate rel a b) :=
  .bind .getSymbols fun _ => .require _

theorem hasRoom (inst : Instance) : Passive (hasRoom inst) := .relate _ _ _

theorem modifyModule {f : Module → Module} (hf : ∀ m : Module, m.Retains (f m))
    (hl : ∀ m : Module, (f m).symbols.links = m.symbols.links) : Passive (modifyModule f) := fun _ =>
  ensures_modifyModule.mpr (.retain (hf _) (by rw [hl]))

theorem declare {f : Module → SignalId × Module} (hf : ∀ m : Module, m.Expands (f m).2)
    (hl : ∀ m : Module, (f m).2.symbols.links = m.symbols.links) : Passive (declare f) := fun _ =>
  ensures_declare.mpr (.retain (.of_expands (hf _)) (by rw [hl]))

theorem declareBound (command name : String) {f : Module → SignalId × Module}
    (hf : ∀ m : Module, m.Expands (f m).2)
    (hl : ∀ m : Module, (f m).2.symbols.links = m.symbols.links) :
    Passive (declareBound command name f) :=
  .bind (.declare hf hl) fun _ => .bind
    (fun _ => ensures_modifyScope.mpr (.same rfl rfl rfl)) fun _ =>
      .bind .getSymbols fun _ => .record command _

theorem exactNumber (v : UInt64) : Passive (exactNumber v) := by
  intro c
  simp only [Program.exactNumber, ensures_ops]
  exact .retain (.of_expands ⟨Symbols.newType_grows _ _, rfl⟩) rfl

theorem modifyInstance (r : InstanceRef) {f : Instance → Instance}
    (hf : ∀ i, (f i).entry = i.entry) : Passive (modifyInstance r f) := by
  intro c
  rw [Program.modifyInstance, Program.modifyFunction, ensures_modifySession]
  refine .modifyFunction c r.function (·.modify r.position f) fun _ i' hi' => .inr ?_
  rcases mem_modify hi' with hi' | ⟨i, hi, rfl⟩
  · exact ⟨i', hi', rfl⟩
  · exact ⟨i, hi, (hf i).symm⟩

end Passive

theorem retains_resized (m : Module) (inst : Instance) (depth : Int) :
    m.Retains (m.modifySymbols (resized · inst depth)) := by
  obtain ⟨htypes, -, hsignals⟩ := foldl_depth depth (inst.args ++ [inst.returnAddr])
    ((m.symbols.setWidth inst.spType (bitsFor (UInt64.ofInt depth).toNat)).modifySignal inst.depth
      ({ · with value := UInt64.ofInt depth }))
  constructor
  · intro i x hx
    rw [Module.modifySymbols, resized_signals, hx]
    exact ⟨_, rfl, rfl⟩
  · change _ ≤ (Program.resized m.symbols inst depth).types.size
    rw [Program.resized, htypes]
    simp [Symbols.modifySignal, Symbols.setWidth]
  · rfl

theorem retains_resize {m : Module} {i : SignalId} {t : SignalType} {g : Symbols}
    (h : m.symbols.resize i t = some g) :
    m.Retains { m with symbols := g } ∧ g.links = m.symbols.links := by
  obtain ⟨u, -, rfl⟩ := Option.map_eq_some_iff.mp h
  exact ⟨.of_types rfl (by simp [Symbols.setType]), rfl⟩

namespace Passive

theorem sizeStack (r : InstanceRef) (request : Int) : Passive (sizeStack r request) := by
  refine .bind (.getFunction _) fun f => .bind (.getInstance r) fun inst => .ite ?_ ?_
  · exact .bind .getSymbols fun g => .ite (.fail _) (.pure _)
  · refine .ite (.bind (.note _ _) fun _ => ?_) ?_
    all_goals
      refine .bind (.modifyInstance _ fun _ => rfl) fun _ =>
        .modifyModule (fun m => retains_resized m inst _) fun m => ?_
      exact (foldl_depth _ _ _).2.1

theorem instantiate (fn : Nat) (types : List SignalType) : Passive (instantiate fn types) := by
  have hreset : ∀ (sp : SignalId) (spType : TypeId), Passive (modifyMachine fun m =>
      { m with onReset := m.onReset ++ [.assign sp none (.const 0 (some spType))] }) :=
    fun _ _ c => ensures_modifyMachine.mpr ⟨⟨rfl, rfl, .add _ _ _, rfl, rfl, .refl _, rfl, rfl,
      fun _ => .inr⟩, rfl, rfl⟩
  have hpush : ∀ inst : Instance, inst.entry = 0 → Passive (modifyFunction fn fun f =>
      { f with instances := f.instances.push inst }) := by
    intro inst hentry c
    rw [Program.modifyFunction, ensures_modifySession]
    refine .modifyFunction c fn (·.push inst) fun _ i hi => ?_
    rcases Array.mem_push.mp hi with hi | rfl
    · exact .inr ⟨i, hi, rfl⟩
    · exact .inl hentry
  refine .bind (.getFunction fn) fun f => .bind .getDraft fun d => ?_
  refine .ite (.bind (.fail _) fun _ => ?_) ?_
  all_goals
    intro c
    rw [ensures_bind, ensures_getModule, ensures_bind, ensures_modifyModule]
    refine Ensures.mono (Passive.bind
      (.declare (fun m => m.declareAt_expands _ _ _ _ _) fun _ => rfl) (fun sp => ?_) _)
      fun _ _ h => Silent.trans (.retain (.of_expands (c.session.module.newType_expands _)) rfl) h
    refine .bind (.declare (fun m => m.declareAt_expands _ _ _ _ _) fun _ => rfl) fun depth => ?_
    refine .bind (.mapM (fun a => .declare (fun m => m.declare_expands _ _ _ _ _) fun _ => rfl) _)
      fun args => ?_
    refine .bind (.declare (fun m => m.declareAt_expands _ _ _ _ _) fun _ => rfl) fun addr => ?_
    refine .bind (.declare (fun m => m.declare_expands _ _ _ _ _) fun _ => rfl) fun ret => ?_
    exact .bind (hreset _ _) fun _ => .bind (hpush _ rfl) fun _ => .bind (.note _ _) fun _ => .pure _

theorem resolveReturn (r : InstanceRef) (value : Expr) : Passive (resolveReturn r value) := by
  have hresize : ∀ (i : SignalId) (t : SignalType) (m : Module),
      m.Retains (m.modifySymbols fun g => (g.resize i t).getD g) ∧
        (m.modifySymbols fun g => (g.resize i t).getD g).symbols.links = m.symbols.links := by
    intro i t m
    rw [Module.modifySymbols]
    cases hg : m.symbols.resize i t with
    | none => exact ⟨.refl m, rfl⟩
    | some g => exact retains_resize hg
  refine .bind .getSymbols fun g => .ite (.bind (.getInstance r) fun inst => ?_) fun _ => by simp
  split
  · exact .pure _
  · refine .ite (.pure _) (.ite ?_ (.ite (.bind (.getFunction _) fun _ => .fail _) (.pure _)))
    exact .bind (.modifyModule (fun m => (hresize _ _ m).1) fun m => (hresize _ _ m).2) fun _ =>
      .modifyInstance _ fun _ => rfl

theorem chooseInstance (fn : Nat) (depth : Int) (args : List Expr) :
    Passive (chooseInstance fn depth args) := by
  refine .bind .getSymbols fun g => .bind (.mapM (fun a => .require _) args) fun types => ?_
  refine .bind (.still fun _ => by simp [elaborating]) fun o => ?_
  split
  · exact .bind (.sizeStack _ depth) fun _ => .pure _
  · refine .bind (.getFunction fn) fun f => ?_
    split
    · exact .pure _
    · exact .bind (.instantiate fn types) fun _ => .pure _

theorem settleReturn (f : Function) (inst : Instance) : Passive (settleReturn f inst) := by
  unfold Program.settleReturn
  refine .bind .getSymbols fun g => .ite (.bind ?_ fun _ => .note _ _) (.pure ())
  cases g.signals[inst.ret]?.bind Signal.type with
  | none => exact .pure ()
  | some t =>
    have hwidth : ∀ m : Module, m.Retains (m.modifySymbols (·.setWidth t 1)) := fun m =>
      .of_types rfl (by simp [Symbols.setWidth])
    exact .modifyModule hwidth fun _ => rfl

theorem settleReturns : Passive settleReturns :=
  .bind .getDraft fun _ => .forM (fun fn => .bind (.getFunction fn) fun f => .forM (settleReturn f) _) _

theorem perform (call : Caller) : ∀ {x : Command}, x.isPassive = true → Passive (perform call x)
  | .reg name _, _ => .declareBound "reg" name (fun m => m.declare_expands _ _ _ _ _) fun _ => rfl
  | .memory name _ _, _ =>
    .declareBound "mem" name (fun m => m.declare_expands _ _ _ _ _) fun _ => rfl
  | .bind name value, _ => .bind (.resolve value) fun e => .bindVar (some name) e
  | .probe value, _ => .bind (.resolve value) fun e => .bind .getSymbols fun g =>
    .bind (.require _) fun _ => .record _ _
  | .resize name t, _ => by
    rw [Program.perform]
    refine .bind (.resolveSignal name) fun i c => ?_
    simp only [ensures_ops]
    intro g hg
    obtain ⟨hm, hl⟩ := retains_resize hg
    exact .retain hm (congrArg Array.size hl)

end Passive

end

end Program

end Lockstep
