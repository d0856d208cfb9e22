import Lockstep.Proofs.Program.Commands
import Lockstep.Proofs.Program.Visits

/-!
# The course of an elaboration

What happens while a program is elaborated, in the order in which it happens: commands are begun,
statements are emitted, instances are made, and the bodies of functions are opened and closed. Each
event comes with the context that it happens in. The course ends where elaboration ends, or at the
point where it fails.

An account tells something about every step of an elaboration and the points that it passes. If it
holds of the steps that commands are made of, and of steps one after the other, it holds of whole
programs.
-/

namespace Lockstep.Program

open Script (Term)

/-! ## Points -/

/-- What happens at a point of an elaboration. -/
inductive Event where
  /-- A command is begun, with a budget for calls inside each other. -/
  | performs (budget : Nat) (x : Command)
  | emits (st : Statement)
  /-- A call finds no instance for its argument types, so one is made. -/
  | makes (fn : Nat) (types : List SignalType)
  /-- A call from inside the body that it calls asks for a depth. -/
  | recurs (r : InstanceRef) (request : Int)
  /-- The body of a new instance is begun. -/
  | opens (r : InstanceRef)
  | closes (r : InstanceRef)
  /-- A value is returned from the body of an instance. -/
  | returns (r : InstanceRef) (value : Expr)
  /-- A call is begun with no budget left. -/
  | exhausts

structure Point where
  event : Event
  context : Context

/-- The statement that is emitted at a point, if it goes to a block of the given depth. -/
def Point.emission (depth : Nat) (p : Point) : Option Statement :=
  match p.event with
  | .emits st => if p.context.draft.blocks.depth = depth then some st else none
  | _ => none

/-- The statements that go to blocks of the given depth. -/
def emitted (depth : Nat) (t : List Point) : List Statement := t.filterMap (Point.emission depth)

theorem emitted_append (depth : Nat) (t u : List Point) :
    emitted depth (t ++ u) = emitted depth t ++ emitted depth u := List.filterMap_append

section

variable {α β : Type}

/-- The points after a step, if there is anything after it. -/
def onward (x : ElabM α) (c : Context) (k : α → Context → List Point) : List Point :=
  match x.run c with
  | .ok a c' => k a c'
  | .error .. => []

theorem onward_of_run {x : ElabM α} {c c' : Context} {a : α} {k : α → Context → List Point}
    (h : x.run c = .ok a c') : onward x c k = k a c' := by
  simp [onward, h]

@[simp] theorem onward_bind (x : ElabM α) (f : α → ElabM β) (c : Context)
    (k : β → Context → List Point) :
    onward (x >>= f) c k = onward x c fun a c' => onward (f a) c' k := by
  simp only [onward, EStateM.run, bind, EStateM.bind]
  cases x c <;> rfl

@[simp] theorem onward_nil (x : ElabM α) (c : Context) : onward x c (fun _ _ => []) = [] := by
  unfold onward
  split <;> rfl

theorem mem_onward {x : ElabM α} {c : Context} {k : α → Context → List Point} {p : Point} :
    p ∈ onward x c k ↔ ∃ a c', x.run c = .ok a c' ∧ p ∈ k a c' := by
  unfold onward
  split
  · next a c' h => simp [h]
  · next e c' h => simp [h]

end

/-! ## Calls -/

/-- What a call finds when it looks for its instance. -/
inductive Found where
  /-- The body of the instance is being elaborated. -/
  | building (r : InstanceRef)
  | known (r : InstanceRef)
  | missing (types : List SignalType)

def findInstance (fn : Nat) (args : List Expr) : ElabM Found := do
  let s ← getSymbols
  let types ← args.mapM fun a => require (s.knownType a)
  match ← elaborating fn types with
  | some r => return .building r
  | none =>
    match (← getFunction fn).instance? types with
    | some position => return .known ⟨fn, position⟩
    | none => return .missing types

/-- Calls the instance that was found, or makes it. -/
def callFound (run : List Command → ElabM Unit) (fn : Nat) (depth : Int) (args : List Expr) :
    Found → ElabM InstanceRef
  | .building r => do
    sizeStack r depth
    callExisting run r args
    return r
  | .known r => do
    callExisting run r args
    return r
  | .missing types => do
    let r ← instantiate fn types
    callFirst run r args
    return r

theorem callFunction_found (run : List Command → ElabM Unit) (fn : Nat) (depth : Int)
    (args : List Expr) : callFunction run fn depth args = (do
      let r ← callFound run fn depth args (← findInstance fn args)
      return .ref (← getInstance r).ret) := by
  simp only [callFunction, findInstance, bind_assoc]
  refine bind_congr fun s => bind_congr fun types => bind_congr fun o => ?_
  cases o with
  | some r => simp [callFound]
  | none =>
    simp only [bind_assoc]
    refine bind_congr fun f => ?_
    cases f.instance? types with
    | some position | none => simp [callFound]

def stepIfPending : ElabM Unit := do
  if (← getDraft).blocks.pending then
    let _ ← step

/-- The return address of a call and its push, which is emitted last. -/
def preparePush (r : InstanceRef) (args : List Expr) : ElabM (LinkId × Statement) := do
  stepIfPending
  let inst ← getInstance r
  let room ← hasRoom inst
  let (link, symbols) := (← getSymbols).newLink
  modifyModule fun m => { m with symbols }
  let sp : Expr := .ref inst.sp
  let address : Expr := .lit (.link link) (some (← getDraft).machine.type)
  let pushes := (inst.args.zip args).map fun p => Stmt.assign p.1 (some sp) p.2
  return (link, .cond room
    (pushes ++
      [.assign inst.returnAddr (some sp) address,
       .assign inst.sp none (.plus sp (.const 1 (some inst.spType)))]) [])

theorem pushCall_eq (r : InstanceRef) (args : List Expr) : pushCall r args = (do
      let p ← preparePush r args
      emit p.2
      return p.1) := by
  simp only [pushCall, preparePush, stepIfPending, bind_assoc]
  refine bind_congr fun d => ?_
  split <;> simp

/-- Gives the returned value to the register of an instance. -/
def giveValue (r : InstanceRef) (inst : Instance) : Option Expr → ElabM Unit
  | none => pure ()
  | some value => do
    resolveReturn r value
    emit (.assign inst.ret none value)

/-- The state that pops the stack and leaves. -/
def popState (inst : Instance) : ElabM Nat := do
  let st ← step
  modifyMachine (·.addBody st [inst.pop])
  addGoto st inst.leave
  return st

theorem makeReturn_eq (r : InstanceRef) (value : Option Expr) : makeReturn r value = (do
      let _ ← step
      let inst ← getInstance r
      giveValue r inst value
      popState inst) := by
  simp only [makeReturn]
  refine bind_congr fun _ => bind_congr fun inst => ?_
  cases value with
  | none | some v => simp [giveValue, popState, Instance.pop, Instance.leave]

/-- Enters the body of an instance, after the state of its first call. -/
def enterBody (r : InstanceRef) (call : Nat) : ElabM Unit := do
  modifyInstance r ({ · with entry := call + 1 })
  modifyDraft fun d => { d with building := r :: d.building }
  pushFrame { isBody := true }
  let inst ← getInstance r
  let formals := inst.args.map fun mem => Expr.index mem (stackTop inst)
  modifyScope fun sc => { sc with formals := formals :: sc.formals }

def leaveBody : ElabM Unit := modifyDraft fun d => { d with building := d.building.tail }

theorem callFirst_entered (run : List Command → ElabM Unit) (r : InstanceRef) (args : List Expr) :
    callFirst run r args = (do
      let link ← pushCall r args
      let call ← step
      enterBody r call
      run (← getFunction r.function).body
      let last ← closeBody r
      finishCall run r call link (last + 1)) := by
  simp [callFirst, enterBody, closeBody]

def pushPoints (r : InstanceRef) (args : List Expr) (c : Context) : List Point :=
  onward (preparePush r args) c fun p c' => [⟨.emits p.2, c'⟩]

def valuePoints (r : InstanceRef) (inst : Instance) : Option Expr → Context → List Point
  | none, _ => []
  | some v, c =>
    ⟨.returns r v, c⟩ :: onward (resolveReturn r v) c fun _ c' =>
      [⟨.emits (.assign inst.ret none v), c'⟩]

def returnPoints (r : InstanceRef) (value : Option Expr) (c : Context) : List Point :=
  onward step c fun _ c₁ => onward (getInstance r) c₁ fun inst c₂ =>
    valuePoints r inst value c₂ ++ onward (giveValue r inst value) c₂ fun _ c₃ =>
      [⟨.emits inst.pop, c₃⟩]

/-- The end of a body, which is a return without a value. -/
def closePoints (r : InstanceRef) (c : Context) : List Point :=
  onward (modifyScope fun sc => { sc with formals := sc.formals.tail }) c fun _ c₁ =>
    returnPoints r none c₁ ++ onward (makeReturn r none) c₁ fun _ c₂ => onward popFrame c₂ fun _ c₃ =>
      [⟨.closes r, c₃⟩]

section

variable (run : List Command → ElabM Unit) (told : List Command → Context → List Point)

def handlerPoints (r : InstanceRef) (c : Context) : List Point :=
  match (c.function r.function).overflow with
  | some handler => told handler c
  | none => []

def existingPoints (r : InstanceRef) (args : List Expr) (c : Context) : List Point :=
  pushPoints r args c ++ onward (pushCall r args) c fun _ c₁ => onward step c₁ fun _ c₂ =>
    handlerPoints told r c₂

def firstPoints (r : InstanceRef) (args : List Expr) (c : Context) : List Point :=
  pushPoints r args c ++ onward (pushCall r args) c fun _ c₁ => onward step c₁ fun call c₂ =>
    ⟨.opens r, c₂⟩ :: onward (enterBody r call) c₂ fun _ c₃ =>
      told (c₃.function r.function).body c₃ ++
        onward (run (c₃.function r.function).body) c₃ fun _ c₄ =>
          closePoints r c₄ ++ onward (closeBody r) c₄ fun _ c₅ => handlerPoints told r c₅

def foundPoints (fn : Nat) (depth : Int) (args : List Expr) : Found → Context → List Point
  | .building r, c =>
    ⟨.recurs r depth, c⟩ :: onward (sizeStack r depth) c fun _ => existingPoints told r args
  | .known r, c => existingPoints told r args c
  | .missing types, c =>
    ⟨.makes fn types, c⟩ :: onward (instantiate fn types) c fun r => firstPoints run told r args

def callPoints (fn : Nat) (depth : Int) (args : List Expr) (c : Context) : List Point :=
  onward (findInstance fn args) c (foundPoints run told fn depth args)

end

/-! ## Commands -/

/-- The two branches of a conditional inside one state, and the statement that it comes to. -/
def branchPoints (test : Expr) (thn els : ElabM Unit) (thnTold elsTold : Context → List Point)
    (c : Context) : List Point :=
  onward openBlock c fun _ c₁ => thnTold c₁ ++ onward thn c₁ fun _ c₂ =>
    onward (do let _ ← closeBlock; openBlock) c₂ fun _ c₃ => elsTold c₃ ++ onward els c₃ fun _ c₄ =>
      onward closeBlock c₄ fun _ c₅ =>
        [⟨.emits (.cond test (emitted c₁.draft.blocks.depth (thnTold c₁))
          (emitted c₁.draft.blocks.depth (elsTold c₃))), c₅⟩]

/-- An enumerator clears its index before the first round, and advances it after each. -/
def countPoints (limit : Expr) (body : Expr → ElabM Unit) (told : Expr → Context → List Point)
    (c : Context) : List Point :=
  onward (declareIndex limit) c (fun p c₁ =>
      [⟨.emits (.assign p.1 none (.const 0 (some p.2))), c₁⟩]) ++
    onward (openCount limit) c fun k c₁ =>
      told (.ref k.index) c₁ ++ onward (body (.ref k.index)) c₁ fun _ c₂ => [⟨.emits k.advance, c₂⟩]

/-- The next round of an enumerator advances its index. -/
def roundPoints (c : Context) : List Point :=
  ((nearestLoop c.draft.frames).bind LoopFrame.advance).toList.map (⟨.emits ·, c⟩)

def namedPoints (told : Nat → Int → List Expr → Context → List Point) (name : String) (depth : Int)
    (args : List Term) (c : Context) : List Point :=
  match c.session.scope.functions.lookup name with
  | none => []
  | some fn => onward (args.mapM resolve) c fun es => told fn depth es

def leavePoints (value : Option Expr) (c : Context) : List Point :=
  match c.draft.building with
  | [] => []
  | r :: _ => returnPoints r value c

mutual

/-- The points that a command passes, with a budget of `n` calls; `told` gives those of a call. -/
def Command.points (n : Nat) (told : Nat → Int → List Expr → Context → List Point) :
    Command → Context → List Point
  | .assign dest value, c =>
    onward (resolveSignal dest) c fun i c₁ => onward (resolve value) c₁ fun v c₂ =>
      [⟨.emits (.assign i none v), c₂⟩]
  | .assignAt dest index value, c =>
    onward (resolveSignal dest) c fun i c₁ => onward (resolve index) c₁ fun k c₂ =>
      onward (resolve value) c₂ fun v c₃ => [⟨.emits (.assign i k.toOption v), c₃⟩]
  | .when test thn els, c =>
    onward (resolve test) c fun v =>
      branchPoints v (performAll (callWithin n) thn) (performAll (callWithin n) els)
        (pointsAll n told thn) (pointsAll n told els)
  | .ifThen test body, c =>
    onward (resolve test) c fun _ c₁ => onward openBranch c₁ fun _ => pointsAll n told body
  | .orElse body, c => onward openElse c fun _ => pointsAll n told body
  | .whileLoop test body, c =>
    onward (resolve test) c fun _ c₁ => onward (openLoop none) c₁ fun _ => pointsAll n told body
  | .loop body, c => onward (openLoop none) c fun _ => pointsAll n told body
  | .nextRound, c => roundPoints c
  | .count limit index body, c =>
    onward (resolve limit) c fun v =>
      countPoints v (fun i => do bindVar index i; performAll (callWithin n) body)
        fun i c₁ => onward (bindVar index i) c₁ fun _ => pointsAll n told body
  | .times k index body, c =>
    onward (exactNumber (UInt64.ofInt k)) c fun v =>
      countPoints v (fun i => do bindVar index i; performAll (callWithin n) body)
        fun i c₁ => onward (bindVar index i) c₁ fun _ => pointsAll n told body
  | .each name word index body, c =>
    onward (resolveSignal name) c fun mem c₁ =>
      onward (exactNumber (UInt64.ofInt
          ((c₁.session.module.symbols.signals[mem]?.map Signal.depth).getD 0))) c₁ fun v =>
        countPoints v
          (fun i => do
            bindVar word (.index mem i)
            bindVar index i
            performAll (callWithin n) body)
          fun i c₂ => onward (do bindVar word (.index mem i); bindVar index i) c₂ fun _ =>
            pointsAll n told body
  | .call name args _, c => namedPoints told name 0 args c
  | .callDepth name depth args _, c => namedPoints told name depth args c
  | .ret value, c => onward (resolve value) c fun v => leavePoints v.toOption
  | _, _ => []

def Command.pointsAll (n : Nat) (told : Nat → Int → List Expr → Context → List Point) :
    List Command → Context → List Point
  | [], _ => []
  | x :: rest, c =>
    ⟨.performs n x, c⟩ ::
      (points n told x c ++ onward (perform (callWithin n) x) c fun _ => pointsAll n told rest)

end

/-- The points of a call, with a budget for calls inside each other. -/
def pointsWithin : Nat → Nat → Int → List Expr → Context → List Point
  | 0 => fun _ _ _ c => [⟨.exhausts, c⟩]
  | n + 1 => callPoints (performAll (callWithin n)) (Command.pointsAll n (pointsWithin n))

def pointsOf (n : Nat) : List Command → Context → List Point := Command.pointsAll n (pointsWithin n)

/-- The course of the elaboration of a program. -/
def course (s : Session) (opts : Options) (body : List Command) : List Point :=
  onward (beginProgram opts.start) (draft s opts) fun _ => pointsOf opts.budget body

/-! ## Accounts -/

/-- Something told of a step that starts in a context and passes the given points. -/
abbrev Judgement := (α : Type) → ElabM α → Context → List Point → Prop

/-- The step changes nothing; where it fails, the program cannot be read. -/
def Reads {α : Type} (x : ElabM α) : Prop :=
  ∀ c, match x.run c with
    | .ok _ c' => c' = c
    | .error e c' => c' = c ∧ ∃ cause, e = .script cause

section

variable {α β : Type}

theorem Reads.ok {x : ElabM α} (hx : Reads x) {c c' : Context} {a : α} (h : x.run c = .ok a c') :
    c' = c := by
  have hc := hx c
  rwa [h] at hc

theorem Reads.pure (a : α) : Reads (pure a) := fun _ => rfl

theorem Reads.bind {x : ElabM α} {f : α → ElabM β} (hx : Reads x) (hf : ∀ a, Reads (f a)) :
    Reads (x >>= f) := by
  intro c
  have hc := hx c
  simp only [EStateM.run, Bind.bind, EStateM.bind] at hc ⊢
  cases hrun : x c with
  | error e c' =>
    rw [hrun] at hc
    exact hc
  | ok a c' =>
    rw [hrun] at hc
    obtain rfl := hc
    exact hf a c'

theorem Reads.mapM {f : α → ElabM β} (hf : ∀ a, Reads (f a)) : ∀ xs : List α, Reads (xs.mapM f)
  | [] => by
    rw [List.mapM_nil]
    exact .pure []
  | x :: xs => by
    rw [List.mapM_cons]
    exact .bind (hf x) fun b => .bind (mapM hf xs) fun bs => .pure (b :: bs)

theorem Reads.getSymbols : Reads getSymbols := fun _ => rfl

theorem Reads.getDraft : Reads getDraft := fun _ => rfl

theorem Reads.getInstance (r : InstanceRef) : Reads (getInstance r) := fun _ => rfl

theorem Reads.getFunction (fn : Nat) : Reads (getFunction fn) := fun _ => rfl

theorem Reads.abort (e : Script.Error) : Reads (abort (α := α) e) := fun _ => ⟨rfl, e, rfl⟩

theorem Reads.require : ∀ o : Option α, Reads (require o)
  | some _ => fun _ => rfl
  | none => Reads.abort .undefined

theorem Reads.findInstance (fn : Nat) (args : List Expr) : Reads (findInstance fn args) := by
  refine .bind .getSymbols fun g => .bind (.mapM (fun a => .require _) args) fun types => ?_
  refine .bind (x := elaborating fn types) (fun _ => rfl) fun o => ?_
  split
  · exact .pure _
  · refine .bind (.getFunction fn) fun f => ?_
    split <;> exact .pure _

end

/-- The command changes the functions, the types or the machine directly. -/
def Command.alters : Command → Bool
  | .define .. | .resize .. | .stateBody .. | .stateGoto .. | .newState _ | .buildMachine => true
  | _ => false

def Command.isCall : Command → Bool
  | .call .. | .callDepth .. => true
  | _ => false

/-- Errors that a program is refused for. Others are about descriptions that cannot be read, or
calls that never come to an end. -/
def Error.isRefusal : Error → Bool
  | .script _ | .endless => false
  | _ => true

/-- The functions that have a name. -/
def Context.named (c : Context) : List Nat := c.session.scope.functions.map Prod.snd

/-- It holds of the step wherever that starts, without points. -/
def Judgement.Still (T : Judgement) {α : Type} (x : ElabM α) : Prop := ∀ c, T α x c []

/-- The judgement holds of steps in a row when it holds of each of them. -/
structure Chained (T : Judgement) : Prop where
  bind {α β : Type} {x : ElabM α} {f : α → ElabM β} {c : Context} {t : List Point}
    {u : α → Context → List Point} : T α x c t →
      (∀ a c', x.run c = .ok a c' → T β (f a) c' (u a c')) → T β (x >>= f) c (t ++ onward x c u)
  reads {α : Type} {x : ElabM α} : Reads x → T.Still x

/-- It holds of the steps that constructs other than calls are made of. -/
structure Steps (T : Judgement) : Prop extends Chained T where
  step : T.Still step
  fail {α : Type} {e : Error} : e.isRefusal = true → T.Still (fail (α := α) e)
  record (command : String) (fact : Fact) : T.Still (record command fact)
  /-- Names other than those of functions get another meaning. -/
  scope {f : Script.Scope → Script.Scope} : (∀ sc, (f sc).functions = sc.functions) →
    T.Still (modifyScope f)
  /-- Something is added to the module. -/
  expand {f : Module → Module} {c : Context} : c.session.module.Expands (f c.session.module) →
    T Unit (modifyModule f) c []
  /-- Only the frames and the label of the draft change. -/
  frame {f : Draft → Draft} : (∀ d, ∃ frames label, f d = { d with frames, label }) →
    T.Still (modifyDraft f)
  addGoto (k : Nat) (t : Transition Expr) : T.Still (addGoto k t)
  emit (st : Statement) (c : Context) : T Unit (emit st) c [⟨.emits st, c⟩]
  branch (test : Expr) {thn els : ElabM Unit} {thnTold elsTold : Context → List Point} :
    (∀ c, T Unit thn c (thnTold c)) → (∀ c, T Unit els c (elsTold c)) → ∀ c,
      T Unit (do
        openBlock
        thn
        let thn ← closeBlock
        openBlock
        els
        let els ← closeBlock
        Program.emit (.cond test thn els)) c (branchPoints test thn els thnTold elsTold c)
  resolveReturn {r : InstanceRef} {c : Context} (v : Expr) : r ∈ c.draft.building →
    T Unit (resolveReturn r v) c [⟨.returns r v, c⟩]
  popState (inst : Instance) (c : Context) : T Nat (popState inst) c [⟨.emits inst.pop, c⟩]

/-- It holds of commands that satisfy `Q`, and are made of such commands, but for calls. -/
structure Performs (T : Judgement) (Q : Command → Prop) : Prop extends Steps T where
  parts {x : Command} : Q x → ∀ y ∈ x.parts, Q y
  ordinary {n : Nat} {x : Command} {c : Context} {t : List Point} : Q x → x.alters = false →
    T Unit (perform (callWithin n) x) c t →
      T Unit (perform (callWithin n) x) c (⟨.performs n x, c⟩ :: t)
  alter {n : Nat} {x : Command} : Q x → x.alters = true → ∀ c,
    T Unit (perform (callWithin n) x) c [⟨.performs n x, c⟩]

/-- It holds of all the steps that commands are made of. -/
structure Account (T : Judgement) : Prop extends Performs T fun _ => True where
  endless (c : Context) : T Expr (throw .endless) c [⟨.exhausts, c⟩]
  sizeStack {fn : Nat} {args : List Expr} {r : InstanceRef} {c₀ c : Context} (depth : Int) :
    (findInstance fn args).run c₀ = .ok (.building r) c →
      T Unit (sizeStack r depth) c [⟨.recurs r depth, c⟩]
  existing {run : List Command → ElabM Unit} {told : List Command → Context → List Point} :
    (∀ body c, T Unit (run body) c (told body c)) → ∀ r args c,
      T Unit (callExisting run r args) c (existingPoints told r args c)
  missing {run : List Command → ElabM Unit} {told : List Command → Context → List Point}
    {fn : Nat} {args : List Expr} {types : List SignalType} {c₀ c : Context} (depth : Int) :
    (∀ body c, T Unit (run body) c (told body c)) → fn ∈ c₀.named →
      (findInstance fn args).run c₀ = .ok (.missing types) c →
      T InstanceRef (callFound run fn depth args (.missing types)) c
        (foundPoints run told fn depth args (.missing types) c)

namespace Chained

variable {T : Judgement} {α β : Type} {c : Context} {t v : List Point} (h : Chained T)
include h

theorem done (a : α) : T.Still (pure a) := h.reads (.pure a)

section

variable {x : ElabM α} {f : α → ElabM β} {u : α → Context → List Point}

theorem bind_eq (hx : T α x c t) (hf : ∀ a c', x.run c = .ok a c' → T β (f a) c' (u a c'))
    (hv : v = t ++ onward x c u) : T β (x >>= f) c v := hv ▸ h.bind hx hf

/-- A step without points before one with points. -/
theorem lead (hx : T α x c []) (hf : ∀ a c', x.run c = .ok a c' → T β (f a) c' (u a c')) :
    T β (x >>= f) c (onward x c u) := h.bind_eq hx hf rfl

/-- A step without points after one with points. -/
theorem trail (hx : T α x c t) (hf : ∀ a, T.Still (f a)) : T β (x >>= f) c t :=
  h.bind_eq hx (fun a c' _ => hf a c') (by simp)

theorem seq (hx : T.Still x) (hf : ∀ a, T.Still (f a)) : T.Still (x >>= f) := fun c => h.trail (hx c) hf

/-- Two steps without points. -/
theorem follow (hx : T α x c [])
    (hf : ∀ a c', x.run c = .ok a c' → T β (f a) c' []) : T β (x >>= f) c [] :=
  h.bind_eq (u := fun _ _ => []) hx hf (by simp)

/-- Nothing comes after a step that fails. -/
theorem stop (hx : T α x c []) (hfails : ∀ a c', x.run c ≠ .ok a c') : T β (x >>= f) c [] :=
  h.bind_eq (u := fun _ _ => []) hx (fun a c' hrun => absurd hrun (hfails a c')) (by simp)

/-- A step without points whose outcome is known. -/
theorem past {a : α} {c' : Context} (hx : T α x c []) (hrun : x.run c = .ok a c')
    (hf : T β (f a) c' t) : T β (x >>= f) c t := by
  refine h.bind_eq (u := fun _ _ => t) hx ?_ (by rw [onward_of_run hrun, List.nil_append])
  intro b c'' hrun'
  obtain ⟨rfl, rfl⟩ := EStateM.Result.ok.inj (hrun.symm.trans hrun')
  exact hf

end

/-- Conditionals, for a judgement that does not look at what is emitted. -/
theorem branch (hopen : T.Still openBlock) (hclose : T.Still closeBlock)
    (hemit : ∀ st st' c, T Unit (emit st) c [⟨.emits st', c⟩]) (test : Expr) {thn els : ElabM Unit}
    {thnTold elsTold : Context → List Point} (hthn : ∀ c, T Unit thn c (thnTold c))
    (hels : ∀ c, T Unit els c (elsTold c)) (c : Context) : T Unit (do
      openBlock
      thn
      let thn ← closeBlock
      openBlock
      els
      let els ← closeBlock
      emit (.cond test thn els)) c (branchPoints test thn els thnTold elsTold c) := by
  refine h.lead (hopen c) fun _ c₁ _ => h.bind (hthn c₁) fun _ c₂ _ => ?_
  rw [onward_bind]
  refine h.lead (hclose c₂) fun _ c₃ _ => h.lead (hopen c₃) fun _ c₄ _ => ?_
  exact h.bind (hels c₄) fun _ c₅ _ => h.lead (hclose c₅) fun _ c₆ _ => hemit _ _ c₆

end Chained

namespace Steps

variable {T : Judgement} {α β : Type} {c : Context} {t : List Point} (h : Steps T)
include h

theorem recordState (command : String) {make : ElabM Nat} (hmake : T Nat make c t) :
    T Unit (recordState command make) c t := h.trail hmake fun _ => h.record command _

theorem mapM {f : α → ElabM β} (hf : ∀ a, T.Still (f a)) : ∀ xs : List α, T.Still (xs.mapM f)
  | [] => by
    rw [List.mapM_nil]
    exact h.done []
  | x :: xs => by
    rw [List.mapM_cons]
    exact h.seq (hf x) fun b => h.seq (mapM hf xs) fun bs => h.done (b :: bs)

theorem forM {f : α → ElabM Unit} (hf : ∀ a, T.Still (f a)) : ∀ xs : List α, T.Still (xs.forM f)
  | [] => h.done ()
  | x :: xs => h.seq (hf x) fun _ => forM hf xs

/-! ### Names and declarations -/

theorem bindVar (name : Option String) (e : Expr) : T.Still (bindVar name e) :=
  h.scope fun sc => by cases name <;> rfl

theorem declare {f : Module → SignalId × Module} (hf : ∀ m : Module, m.Expands (f m).2) :
    T.Still (declare f) := fun c =>
  h.past (h.reads (fun _ => rfl) c) rfl (h.trail (h.expand (hf _)) fun _ => h.done _)

theorem declareBound (command name : String) {f : Module → SignalId × Module}
    (hf : ∀ m : Module, m.Expands (f m).2) : T.Still (declareBound command name f) :=
  h.seq (h.declare hf) fun _ => h.seq (h.scope fun _ => by rfl) fun _ =>
    h.seq (h.reads .getSymbols) fun _ => h.record command _

theorem resolving {f : Script.Scope → Option Script.Focus → Script.Resolve α}
    (hf : ∀ sc focus, Script.Expanding (f sc focus)) : T.Still (resolving f) := by
  refine fun c => h.past (h.reads (fun _ => rfl) c) rfl ?_
  dsimp only
  split
  · next a m hrun => exact h.trail (h.expand (hf _ _ _ _ _ hrun).1) fun _ => h.done a
  · exact h.reads (.abort _) c

theorem resolve (t : Term) : T.Still (resolve t) := h.resolving t.resolve_expanding

theorem resolveSignal (name : String) : T.Still (resolveSignal name) :=
  h.resolving fun sc _ => .signal sc name

theorem relate (r : Relation) (a b : Expr) : T.Still (relate r a b) :=
  h.seq (h.reads .getSymbols) fun _ => h.reads (.require _)

theorem exactNumber (v : UInt64) : T.Still (exactNumber v) := by
  refine fun c => h.past (h.reads .getSymbols c) rfl (h.trail (h.expand ?_) fun _ => h.done _)
  exact c.session.module.newType_expands _

/-! ### Control -/

theorem stepIf (b : Draft → Bool) : T.Still (do
    if b (← getDraft) then
      let _ ← Program.step) := by
  refine h.seq (h.reads .getDraft) fun d => ?_
  split
  · exact h.seq h.step fun _ => h.done _
  · exact h.done _

theorem stepIfWaiting : T.Still stepIfWaiting := h.stepIf (·.waiting)

theorem stepIfPending : T.Still stepIfPending := h.stepIf (·.blocks.pending)

theorem pushFrame (f : Frame) : T.Still (pushFrame f) := h.frame fun _ => ⟨_, _, rfl⟩

theorem popFrame : T.Still popFrame :=
  h.seq (h.reads .getDraft) fun _ => h.seq (h.frame fun _ => ⟨_, _, rfl⟩) fun _ => h.done _

theorem modifyTop (f : Frame → Frame) : T.Still (modifyTop f) := h.frame fun _ => ⟨_, _, rfl⟩

theorem modifyLoop (f : LoopFrame → LoopFrame) : T.Still (modifyLoop f) :=
  h.frame fun _ => ⟨_, _, rfl⟩

theorem jump (t : Transition Expr) : T.Still (do
    let st ← Program.step
    Program.addGoto st t
    return st) := h.seq h.step fun st => h.seq (h.addGoto st t) fun _ => h.done st

theorem openBranch : T.Still openBranch :=
  h.seq h.step fun st => h.seq (h.pushFrame _) fun _ => h.done st

theorem closeBranch (test : Expr) (st : Nat) : T.Still (closeBranch test st) :=
  h.seq h.step fun yes => h.seq h.popFrame fun _ => h.seq (h.addGoto _ _) fun _ =>
    h.seq (h.modifyTop _) fun _ => h.done yes

theorem openElse : T.Still openElse := by
  refine h.seq (h.reads .getDraft) fun d => ?_
  split
  · exact h.seq (h.modifyTop _) fun _ => h.seq (h.pushFrame _) fun _ => h.done _
  · exact h.fail rfl

theorem closeElse (yes : Nat) : T.Still (closeElse yes) :=
  h.seq h.step fun no => h.seq h.popFrame fun _ => h.seq (h.addGoto _ _) fun _ => h.done no

theorem openLoop (advance : Option Statement) : T.Still (openLoop advance) :=
  h.seq h.step fun st => h.seq (h.pushFrame _) fun _ => h.done st

theorem closeLoop (head tail : Option Expr) (advance : Option Statement) (st : Nat) (c : Context) :
    T Nat (closeLoop head tail advance st) c (advance.toList.map (⟨.emits ·, c⟩)) := by
  have hemit : T Unit (advance.forM Program.emit) c (advance.toList.map (⟨.emits ·, c⟩)) := by
    cases advance with
    | none => exact h.done () c
    | some next => exact h.emit next c
  refine h.trail hemit fun _ => h.seq h.step fun yes => h.seq h.popFrame fun frame => ?_
  refine h.seq (h.addGoto _ _) fun _ => h.seq (h.addGoto _ _) fun _ => ?_
  refine h.seq (h.forM (h.addGoto · _) _) fun _ => h.seq (h.forM (h.addGoto · _) _) fun _ => ?_
  exact h.done yes

theorem breakLoop : T.Still breakLoop := by
  refine h.seq h.step fun st => h.seq (h.reads .getDraft) fun d => ?_
  split
  · exact h.fail rfl
  · exact h.seq (h.modifyLoop _) fun _ => h.done st

theorem nextRound (c : Context) : T Nat nextRound c (roundPoints c) := by
  refine h.past (h.reads .getDraft c) rfl ?_
  unfold roundPoints
  cases hloop : nearestLoop c.draft.frames with
  | none => exact h.fail rfl c
  | some l =>
    simp only [Option.bind_some]
    cases hnext : l.advance with
    | none => exact h.jump _ c
    | some next =>
      exact h.trail (h.emit next c) fun _ => h.seq h.step fun st => h.seq (h.modifyLoop _) fun _ =>
        h.done st

theorem label (name : String) : T.Still (label name) := by
  have hset : T.Still (do
      Program.stepIfWaiting
      modifyDraft fun d => { d with label := name }) :=
    h.seq h.stepIfWaiting fun _ => h.frame fun _ => ⟨_, _, rfl⟩
  refine fun c => h.past (h.reads .getDraft c) rfl ?_
  split
  · exact h.trail (h.fail rfl c) fun _ => hset
  · exact hset c

theorem declareIndex (limit : Expr) : T.Still (declareIndex limit) := by
  refine h.seq h.stepIfWaiting fun _ c => h.past (h.reads .getSymbols c) rfl ?_
  cases hshare : c.session.module.symbols.shareType limit with
  | none => exact h.stop (h.reads (.require none) c) fun p c' hrun => nomatch hrun
  | some p =>
    refine h.past (h.reads (.require _) c) rfl (h.trail (h.expand ?_) fun _ => ?_)
    · exact ⟨Symbols.shareType_grows hshare, rfl⟩
    · exact h.seq (h.declare fun m => m.declareAt_expands ..) fun i => h.done _

theorem openCount (limit : Expr) (c : Context) :
    T Counter (openCount limit) c (onward (Program.declareIndex limit) c fun p c₁ =>
      [⟨.emits (.assign p.1 none (.const 0 (some p.2))), c₁⟩]) := by
  rw [openCount_eq]
  refine h.lead (h.declareIndex limit c) fun p c₁ _ => h.trail (h.emit _ c₁) fun _ => ?_
  refine h.seq (h.relate _ _ _) fun enter => h.seq (h.relate _ _ _) fun again => ?_
  exact h.seq (h.openLoop _) fun st => h.done _

theorem closeCount (k : Counter) (c : Context) : T Nat (closeCount k) c [⟨.emits k.advance, c⟩] :=
  h.closeLoop _ _ (some k.advance) _ c

section

variable {body : Expr → ElabM Unit} {told : Expr → Context → List Point}
  (hbody : ∀ i c, T Unit (body i) c (told i c))
include hbody

theorem count (limit : Expr) (c : Context) :
    T Nat (count limit body) c (countPoints limit body told c) := by
  rw [count_eq]
  exact h.bind (h.openCount limit c) fun k c₁ _ => h.bind (hbody _ c₁) fun _ c₂ _ => h.closeCount k c₂

theorem times (v : UInt64) (c : Context) :
    T Nat (times v body) c (onward (Program.exactNumber v) c fun e => countPoints e body told) :=
  h.lead (h.exactNumber v c) fun e c' _ => h.count hbody e c'

end

/-! ### Calls and returns -/

theorem preparePush (r : InstanceRef) (args : List Expr) : T.Still (preparePush r args) := by
  refine h.seq h.stepIfPending fun _ => h.seq (h.reads (.getInstance r)) fun inst => ?_
  refine h.seq (h.relate _ _ _) fun room c => h.past (h.reads .getSymbols c) rfl ?_
  refine h.trail (h.expand ⟨Symbols.newLink_grows _, rfl⟩) fun _ => ?_
  exact h.seq (h.reads .getDraft) fun d => h.done _

theorem pushCall (r : InstanceRef) (args : List Expr) (c : Context) :
    T LinkId (pushCall r args) c (pushPoints r args c) := by
  rw [pushCall_eq]
  exact h.lead (h.preparePush r args c) fun p c₁ _ => h.trail (h.emit _ c₁) fun _ => h.done _

theorem makeReturn {r : InstanceRef} {value : Option Expr}
    (hr : value = none ∨ r ∈ c.draft.building) :
    T Nat (makeReturn r value) c (returnPoints r value c) := by
  rw [makeReturn_eq]
  refine h.lead (h.step c) fun _ c₁ hstep => h.lead (h.reads (.getInstance r) c₁)
    fun inst c₂ hinst => ?_
  refine h.bind ?_ fun _ c₃ _ => h.popState inst c₃
  cases value with
  | none => exact h.done () c₂
  | some v =>
    obtain rfl : c₂ = c₁ := ((Reads.getInstance r).ok hinst)
    have hb := hr.resolve_left (by simp)
    have hsame : c₂.draft.building = c.draft.building :=
      Ensures.step (Q := fun _ c' => c'.draft.building = c.draft.building) (fun _ _ => rfl) _ _ hstep
    rw [← hsame] at hb
    exact h.bind (h.resolveReturn v hb) fun _ c₃ _ => h.emit _ c₃

theorem returnFrom (value : Option Expr) (c : Context) :
    T Nat (returnFrom value) c (leavePoints value c) := by
  refine h.past (h.reads .getDraft c) rfl ?_
  unfold leavePoints
  cases hb : c.draft.building with
  | nil => exact h.fail rfl c
  | cons r rest => exact h.makeReturn (.inr (by simp [hb]))

section Calls

variable {run : List Command → ElabM Unit} {told : List Command → Context → List Point}
  {P : LinkId → Prop}
  (hhandler : ∀ fn handler c, (c.function fn).overflow = some handler →
    T Unit (run handler) c (told handler c))
  (hresume : ∀ link resume c, P link →
    T Unit (modifyDraft fun d => { d with resumes := d.resumes ++ [(link, resume)] }) c [])
include hhandler hresume

theorem finishCall (r : InstanceRef) (call : Nat) {link : LinkId} (hlink : P link)
    (skip : Nat) (c : Context) :
    T Unit (finishCall run r call link skip) c (handlerPoints told r c) := by
  have hwire (resume : Nat) (c : Context) : T Unit (wireCall r call link skip resume) c [] :=
    h.trail (hresume link resume c hlink) fun _ => h.seq (h.reads (.getInstance r)) fun _ =>
      h.seq (h.relate _ _ _) fun _ => h.addGoto _ _
  rw [finishCall_eq]
  refine h.past (h.reads (.getFunction _) c) rfl ?_
  unfold handlerPoints
  cases hover : (c.function r.function).overflow with
  | none =>
    rw [show (c.session.functions[r.function]?.getD default).overflow = none from hover]
    exact hwire skip c
  | some handler =>
    rw [show (c.session.functions[r.function]?.getD default).overflow = some handler from hover]
    exact h.trail (hhandler _ handler c hover) fun _ => h.seq h.step fun last => hwire (last + 1)

theorem callExisting {r : InstanceRef} {args : List Expr}
    (hlink : ∀ link c₁, (Program.pushCall r args).run c = .ok link c₁ → P link) :
    T Unit (callExisting run r args) c (existingPoints told r args c) := by
  refine h.bind (h.pushCall r args c) fun link c₁ hpush => h.lead (h.step c₁) fun call c₂ _ => ?_
  exact h.finishCall hhandler hresume r call (hlink link c₁ hpush) (call + 1) c₂

theorem callFirst {r : InstanceRef} {args : List Expr}
    (hrun : ∀ body c, T Unit (run body) c (told body c))
    (hlink : ∀ link c₁, (Program.pushCall r args).run c = .ok link c₁ → P link)
    (hopen : ∀ link c₁ call c₂, (Program.pushCall r args).run c = .ok link c₁ →
      Program.step.run c₁ = .ok call c₂ → T Unit (enterBody r call) c₂ [⟨.opens r, c₂⟩])
    (hleave : ∀ c, T Unit leaveBody c [⟨.closes r, c⟩]) :
    T Unit (callFirst run r args) c (firstPoints run told r args c) := by
  have hclose (c : Context) : T Nat (closeBody r) c (closePoints r c) := by
    refine h.lead (h.scope (fun _ => by rfl) c) fun _ c₁ _ => ?_
    refine h.bind (h.makeReturn (.inl rfl)) fun last c₂ _ => h.lead (h.popFrame c₂) fun _ c₃ _ => ?_
    exact h.trail (hleave c₃) fun _ => h.done last
  rw [callFirst_entered]
  refine h.bind (h.pushCall r args c) fun link c₁ hpush => h.lead (h.step c₁) fun call c₂ hstep => ?_
  refine h.bind (hopen link c₁ call c₂ hpush hstep) fun _ c₃ _ => ?_
  refine h.past (h.reads (.getFunction _) c₃) rfl (h.bind (hrun _ c₃) fun _ c₄ _ => ?_)
  refine h.bind (hclose c₄) fun last c₅ _ => ?_
  exact h.finishCall hhandler hresume r call (hlink link c₁ hpush) (last + 1) c₅

theorem callMissing {fn : Nat} {types : List SignalType} {args : List Expr}
    (hrun : ∀ body c, T Unit (run body) c (told body c))
    (hmake : T InstanceRef (instantiate fn types) c [⟨.makes fn types, c⟩])
    (hlink : ∀ r c₁ link c₂, (instantiate fn types).run c = .ok r c₁ →
      (Program.pushCall r args).run c₁ = .ok link c₂ → P link)
    (hopen : ∀ r c₁ link c₂ call c₃, (instantiate fn types).run c = .ok r c₁ →
      (Program.pushCall r args).run c₁ = .ok link c₂ → Program.step.run c₂ = .ok call c₃ →
      T Unit (enterBody r call) c₃ [⟨.opens r, c₃⟩])
    (hleave : ∀ r c, T Unit leaveBody c [⟨.closes r, c⟩]) (depth : Int) :
    T InstanceRef (callFound run fn depth args (.missing types)) c
      (foundPoints run told fn depth args (.missing types) c) := by
  refine h.bind hmake fun r c₁ hmade => h.trail ?_ fun _ => h.done r
  exact h.callFirst hhandler hresume hrun (fun link c₂ => hlink r c₁ link c₂ hmade)
    (fun link c₂ call c₃ => hopen r c₁ link c₂ call c₃ hmade) (hleave r)

end Calls

end Steps

/-! ## Whole programs -/

theorem ensures_mapM_scope : ∀ (args : List Term) (c : Context),
    Ensures (args.mapM resolve) c fun _ c' => c'.session.scope = c.session.scope
  | [], c => by simp
  | t :: args, c => by
    rw [List.mapM_cons, ensures_bind]
    refine .resolve fun e m _ => ?_
    rw [ensures_bind]
    refine (ensures_mapM_scope args _).mono fun es c' hc' => ?_
    simpa using hc'

namespace Performs

variable {T : Judgement} {Q : Command → Prop} {n : Nat}
  {told : Nat → Int → List Expr → Context → List Point}

theorem callNamed (h : Performs T Q) {call : Caller}
    (hcall : ∀ fn depth args c, fn ∈ c.named → T Expr (call fn depth args) c (told fn depth args c))
    (command name : String) (depth : Int) (args : List Term) (result : Option String) (c : Context) :
    T Unit (callNamed call command name depth args result) c (namedPoints told name depth args c) := by
  refine h.past (h.reads (fun _ => rfl) c) rfl ?_
  unfold namedPoints
  cases hname : c.session.scope.functions.lookup name with
  | none => exact h.reads (.abort _) c
  | some fn =>
    refine h.lead (h.mapM h.resolve args c) fun es c₁ hargs => ?_
    have hnamed : fn ∈ c₁.named := by
      rw [Context.named, ensures_mapM_scope args c es c₁ hargs]
      exact List.mem_map.mpr ⟨(name, fn), mem_of_lookup hname, rfl⟩
    refine h.trail (hcall fn depth es c₁ hnamed) fun e => h.seq (h.bindVar result e) fun _ => ?_
    exact h.seq (h.reads .getSymbols) fun g => h.record command _

mutual

theorem perform (h : Performs T Q)
    (hcall : ∀ x, Q x → x.isCall = true → ∀ fn depth args c, fn ∈ c.named →
      T Expr (callWithin n fn depth args) c (told fn depth args c)) :
    ∀ (x : Command), Q x → x.alters = false → ∀ c,
      T Unit (perform (callWithin n) x) c (Command.points n told x c)
  | .reg name t, _, _, c => h.declareBound "reg" name (fun m => m.declare_expands ..) c
  | .memory name t depth, _, _, c => h.declareBound "mem" name (fun m => m.declare_expands ..) c
  | .assign dest value, _, _, c => by
    refine h.lead (h.resolveSignal dest c) fun i c₁ _ => h.lead (h.resolve value c₁) fun v c₂ _ => ?_
    exact h.emit _ c₂
  | .assignAt dest index value, _, _, c => by
    refine h.lead (h.resolveSignal dest c) fun i c₁ _ => h.lead (h.resolve index c₁) fun k c₂ _ => ?_
    exact h.lead (h.resolve value c₂) fun v c₃ _ => h.emit _ c₃
  | .when test thn els, hq, _, c => by
    rw [Program.perform]
    refine h.lead (h.resolve test c) fun v c₁ _ => ?_
    exact h.branch v (performAll h hcall thn fun y hy => h.parts hq y (List.mem_append_left _ hy))
      (performAll h hcall els fun y hy => h.parts hq y (List.mem_append_right _ hy)) c₁
  | .step, _, _, c => h.recordState "step" (h.step c)
  | .ifThen test body, hq, _, c => by
    refine h.lead (h.resolve test c) fun v c₁ _ => h.recordState "if" ?_
    rw [ifThen_eq]
    refine h.lead (h.openBranch c₁) fun st c₂ _ => ?_
    exact h.trail (performAll h hcall body (h.parts hq) c₂) fun _ => h.closeBranch v st
  | .orElse body, hq, _, c => by
    refine h.recordState "else" ?_
    rw [orElse_eq]
    refine h.lead (h.openElse c) fun yes c₁ _ => ?_
    exact h.trail (performAll h hcall body (h.parts hq) c₁) fun _ => h.closeElse yes
  | .whileLoop test body, hq, _, c => by
    refine h.lead (h.resolve test c) fun v c₁ _ => h.recordState "while" ?_
    rw [loop_eq]
    refine h.lead (h.openLoop none c₁) fun st c₂ _ => ?_
    exact h.trail (performAll h hcall body (h.parts hq) c₂) fun _ => h.closeLoop _ _ none st
  | .loop body, hq, _, c => by
    refine h.recordState "loop" ?_
    rw [loop_eq]
    refine h.lead (h.openLoop none c) fun st c₁ _ => ?_
    exact h.trail (performAll h hcall body (h.parts hq) c₁) fun _ => h.closeLoop _ _ none st
  | .breakLoop, _, _, c => h.recordState "break" (h.breakLoop c)
  | .nextRound, _, _, c => h.recordState "continue" (h.nextRound c)
  | .terminate, _, _, c => h.recordState "terminate" (h.jump _ c)
  | .label name, _, _, c => h.label name c
  | .goto name, _, _, c => h.recordState "goto" (h.jump _ c)
  | .count limit index body, hq, _, c => by
    refine h.lead (h.resolve limit c) fun v c₁ _ => h.recordState "for" (h.count ?_ v c₁)
    exact fun i c₂ => h.lead (h.bindVar index i c₂) fun _ c₃ _ => performAll h hcall body
      (h.parts hq) c₃
  | .times k index body, hq, _, c => by
    rw [Command.points]
    refine h.recordState "times" (h.times ?_ _ c)
    exact fun i c₂ => h.lead (h.bindVar index i c₂) fun _ c₃ _ => performAll h hcall body
      (h.parts hq) c₃
  | .each name word index body, hq, _, c => by
    rw [Command.points]
    refine h.lead (h.resolveSignal name c) fun mem c₁ _ => ?_
    refine h.past (h.reads .getSymbols c₁) rfl (h.recordState "each" (h.times ?_ _ c₁))
    intro i c₂
    rw [onward_bind]
    refine h.lead (h.bindVar word _ c₂) fun _ c₃ _ => ?_
    exact h.lead (h.bindVar index i c₃) fun _ c₄ _ => performAll h hcall body (h.parts hq) c₄
  | .call name args result, hq, _, c => h.callNamed (hcall _ hq rfl) "call" name 0 args result c
  | .callDepth name depth args result, hq, _, c => h.callNamed (hcall _ hq rfl) "calld" name depth
    args result c
  | .ret value, _, _, c => by
    refine h.lead (h.resolve value c) fun v c₁ _ => h.recordState "return" ?_
    exact h.returnFrom v.toOption c₁
  | .bind name value, _, _, c => h.trail (h.resolve value c) fun v => h.bindVar _ v
  | .probe value, _, _, c => by
    refine h.trail (h.resolve value c) fun v => h.seq (h.reads .getSymbols) fun g => ?_
    exact h.seq (h.reads (.require _)) fun _ => h.record "probe" _
  | .define .., _, hx, _ | .resize .., _, hx, _ | .stateBody .., _, hx, _ | .stateGoto .., _, hx, _
  | .newState _, _, hx, _ | .buildMachine, _, hx, _ => nomatch hx

theorem performAll (h : Performs T Q)
    (hcall : ∀ x, Q x → x.isCall = true → ∀ fn depth args c, fn ∈ c.named →
      T Expr (callWithin n fn depth args) c (told fn depth args c)) :
    ∀ (body : List Command), (∀ x ∈ body, Q x) → ∀ c,
      T Unit (performAll (callWithin n) body) c (Command.pointsAll n told body c)
  | [], _, c => h.done () c
  | x :: rest, hq, c => by
    have hx := hq x List.mem_cons_self
    have hone : T Unit (Program.perform (callWithin n) x) c
        (⟨.performs n x, c⟩ :: Command.points n told x c) := by
      cases hd : x.alters with
      | false => exact h.ordinary hx hd (perform h hcall x hx hd c)
      | true =>
        have hnone : Command.points n told x c = [] := by cases x <;> first | rfl | cases hd
        rw [hnone]
        exact h.alter hx hd c
    exact h.bind hone fun _ c' _ =>
      performAll h hcall rest (fun y hy => hq y (List.mem_cons_of_mem x hy)) c'

end

end Performs

namespace Account

variable {T : Judgement}

theorem callFound (h : Account T) {run : List Command → ElabM Unit}
    {told : List Command → Context → List Point} (hrun : ∀ body c, T Unit (run body) c (told body c))
    {fn : Nat} {args : List Expr} {found : Found} {c₀ c : Context} (hnamed : fn ∈ c₀.named)
    (hfound : (findInstance fn args).run c₀ = .ok found c) (depth : Int) :
    T InstanceRef (callFound run fn depth args found) c
      (foundPoints run told fn depth args found c) := by
  cases found with
  | building r =>
    refine h.bind (h.sizeStack depth hfound) fun _ c₁ _ => ?_
    exact h.trail (h.existing hrun r args c₁) fun _ => h.done r
  | known r => exact h.trail (h.existing hrun r args c) fun _ => h.done r
  | missing types => exact h.missing depth hrun hnamed hfound

theorem callWithin (h : Account T) : ∀ (n fn : Nat) (depth : Int) (args : List Expr) (c : Context),
    fn ∈ c.named → T Expr (callWithin n fn depth args) c (pointsWithin n fn depth args c)
  | 0, _, _, _, c, _ => h.endless c
  | n + 1, fn, depth, args, c, hnamed => by
    have hrun := fun body => h.performAll (fun _ _ _ => callWithin h n) body fun _ _ => trivial
    simp only [Program.callWithin, callFunction_found, pointsWithin, callPoints]
    refine h.lead (h.reads (.findInstance fn args) c) fun found c₁ hfound => ?_
    refine h.trail (h.callFound hrun hnamed hfound depth) fun r => ?_
    exact h.seq (h.reads (.getInstance r)) fun _ => h.done _

/-- What holds of the steps of an elaboration holds of the whole of it. -/
theorem pointsOf (h : Account T) (n : Nat) (body : List Command) (c : Context) :
    T Unit (Program.performAll (Program.callWithin n) body) c (pointsOf n body c) :=
  h.performAll (fun _ _ _ => callWithin h n) body (fun _ _ => trivial) c

end Account

end Lockstep.Program
