import Lockstep.Program.Control

/-!
# Function calls

A function is elaborated once for each list of argument types, right after the first call. A call
pushes its arguments and return address if the stack has room, and jumps to the body; a return
state reads the address on top of the stack and pops it.

The stack has one word until a call from inside the body shows that the function is recursive;
that call fixes its depth.
-/

namespace Lockstep.Program

/-- The deepest nesting of bodies that are elaborated inside each other. -/
def maxElaboration : Nat := 32

def getFunction (fn : Nat) : ElabM Function := do
  return (← get).session.functions[fn]?.getD default

def getInstance (r : InstanceRef) : ElabM Instance := do
  return (← getFunction r.function).instances[r.position]?.getD default

def modifyFunction (fn : Nat) (f : Function → Function) : ElabM Unit :=
  modifySession fun s => { s with functions := s.functions.modify fn f }

def modifyInstance (r : InstanceRef) (f : Instance → Instance) : ElabM Unit :=
  modifyFunction r.function fun fn => { fn with instances := fn.instances.modify r.position f }

/-- The instance of a function for the given argument types. -/
def Function.instance? (f : Function) (types : List SignalType) : Option Nat :=
  f.instances.findIdx? (·.argTypes == types)

/-- The innermost body under elaboration that belongs to this function and these types. -/
def elaborating (fn : Nat) (types : List SignalType) : ElabM (Option InstanceRef) := do
  let s ← get
  return s.draft.building.find? fun r =>
    r.function == fn &&
      ((s.session.functions[fn]?.bind (·.instances[r.position]?)).any (·.argTypes == types))

/-- Declares the stack and the return register of a new instance. -/
def instantiate (fn : Nat) (types : List SignalType) : ElabM InstanceRef := do
  let f ← getFunction fn
  let d ← getDraft
  if maxElaboration ≤ d.building.length then fail (.noConvergence f.name types)
  let position := f.instances.size
  let stem := if position = 0 then f.name else f.name ++ "_" ++ toString position
  let (spType, m) := (← getModule).newType (.unsigned 1)
  modifyModule fun _ => m
  let sp ← declare (·.declareAt (stem ++ "_sp") .reg spType 0 0)
  let depth ← declare (·.declareAt (stem ++ "_depth") .const spType 1 0)
  let args ← types.zipIdx.mapM fun (t, i) =>
    declare (·.addMemory (stem ++ "_arg" ++ toString i) t 1)
  let returnAddr ← declare (·.declareAt (stem ++ "_ret_addr") .memory d.machine.type 0 1)
  let ret ← declare (·.addReg (stem ++ "_ret") (f.returns.getD (.unsigned 0)))
  modifyMachine fun m =>
    { m with onReset := m.onReset ++ [.assign sp none (.const 0 (some spType))] }
  let inst : Instance :=
    { argTypes := types, args, returnAddr, sp, depth, ret, spType
      resolved := f.returns.isSome }
  modifyFunction fn fun f => { f with instances := f.instances.push inst }
  note f.name ("instance " ++ stem ++ "(" ++ describeTypes types ++ ")")
  return ⟨fn, position⟩

def instanceDepth (s : Symbols) (inst : Instance) : Int :=
  wrapSigned ((s.signals[inst.depth]?.map Signal.value).getD 0).toNat

/-- The depth of a stack when nothing asks for one: the widest argument. -/
def guessDepth (types : List SignalType) : Int :=
  types.foldl (fun d t => max d t.width) 0

/-- Fixes the depth of the stack of a recursive function. Later requests have to agree. -/
def sizeStack (r : InstanceRef) (request : Int) : ElabM Unit := do
  let f ← getFunction r.function
  let inst ← getInstance r
  if inst.sized then
    let fixed := instanceDepth (← getSymbols) inst
    if request ≠ 0 ∧ request ≠ fixed then fail (.depthConflict f.name request fixed)
  else
    let asked := if request = 0 then f.depth else request
    let wanted := if asked = 0 then guessDepth inst.argTypes else asked
    if asked = 0 then
      note f.name ("recursion depth " ++ toString wanted ++ " guessed from argument width")
    let depth := max wanted 1
    modifyInstance r ({ · with sized := true })
    modifyModule fun m => m.modifySymbols fun s =>
      let s := s.setWidth inst.spType (bitsFor (UInt64.ofInt depth).toNat)
      let s := s.modifySignal inst.depth ({ · with value := UInt64.ofInt depth })
      (inst.args ++ [inst.returnAddr]).foldl
        (fun s i => s.modifySignal i ({ · with depth })) s

/-- The stack has room for another call. -/
def hasRoom (inst : Instance) : ElabM Expr := relate .lt (.ref inst.sp) (.ref inst.depth)

def stackTop (inst : Instance) : Expr :=
  .minus (.ref inst.sp) (.const 1 (some inst.spType))

/-- Emits the push of a call, if there is room for it. Statements before the call get a state of
their own, so that the arguments see their effect. The return address is filled in later. -/
def pushCall (r : InstanceRef) (args : List Expr) : ElabM LinkId := do
  if (← getDraft).blocks.pending then
    let _ ← step
  let inst ← getInstance r
  let room ← hasRoom inst
  let (link, symbols) := (← getSymbols).newLink
  modifyModule fun m => { m with symbols }
  let sp : Expr := .ref inst.sp
  let address : Expr := .lit (.link link) (some (← getDraft).machine.type)
  let pushes := (inst.args.zip args).map fun (mem, a) => Stmt.assign mem (some sp) a
  emit (.cond room
    (pushes ++
      [.assign inst.returnAddr (some sp) address,
       .assign inst.sp none (.plus sp (.const 1 (some inst.spType)))]) [])
  return link

/-- Takes the type of a first returned value; later ones have to fit it. -/
def resolveReturn (r : InstanceRef) (value : Expr) : ElabM Unit := do
  let s ← getSymbols
  if s.typed value then
    let t := s.typeOf value
    let inst ← getInstance r
    match t with
    | none => return
    | some t =>
      if t.isUnknown then return
      if !inst.resolved then
        modifyModule fun m => m.modifySymbols fun s => (s.resize inst.ret t).getD s
        modifyInstance r ({ · with resolved := true })
      else
        let register := s.signalType inst.ret
        if !TypeSlot.fitsWithin (some t) register then
          let f ← getFunction r.function
          fail (.returnType f.name (some t) register)
  else abort .undefined

/-- Assigns the returned value, then pops the stack and jumps to the address that was on top. -/
def makeReturn (r : InstanceRef) (value : Option Expr) : ElabM Nat := do
  let _ ← step
  let inst ← getInstance r
  if let some value := value then
    resolveReturn r value
    emit (.assign inst.ret none value)
  let st ← step
  modifyMachine (·.addBody st [.assign inst.sp none (stackTop inst)])
  addGoto st (.jump (.computed (.index inst.returnAddr (stackTop inst))))
  return st

/-- Places the overflow handler at state `skip` and wires the call state. -/
def finishCall (run : List Command → ElabM Unit) (r : InstanceRef) (call : Nat) (link : LinkId)
    (skip : Nat) : ElabM Unit := do
  let f ← getFunction r.function
  let resume ← match f.overflow with
    | some handler => do
      run handler
      let last ← step
      pure (last + 1)
    | none => pure skip
  modifyDraft fun d => { d with resumes := d.resumes ++ [(link, resume)] }
  let inst ← getInstance r
  let room ← hasRoom inst
  addGoto call (.branch room (.state inst.entry) (.state skip))

/-- Elaborates the body of a new instance right after its first call. -/
def callFirst (run : List Command → ElabM Unit) (r : InstanceRef) (args : List Expr) :
    ElabM Unit := do
  let link ← pushCall r args
  let call ← step
  modifyInstance r ({ · with entry := call + 1 })
  modifyDraft fun d => { d with building := r :: d.building }
  pushFrame { isBody := true }
  let inst ← getInstance r
  let formals := inst.args.map fun mem => Expr.index mem (stackTop inst)
  modifyScope fun sc => { sc with formals := formals :: sc.formals }
  run (← getFunction r.function).body
  modifyScope fun sc => { sc with formals := sc.formals.tail }
  let last ← makeReturn r none
  let _ ← popFrame
  modifyDraft fun d => { d with building := d.building.tail }
  finishCall run r call link (last + 1)

/-- Calls a body that was elaborated before, or is being elaborated. -/
def callExisting (run : List Command → ElabM Unit) (r : InstanceRef) (args : List Expr) :
    ElabM Unit := do
  let link ← pushCall r args
  let call ← step
  finishCall run r call link (call + 1)

/-- Calls a function and gives its return register. `run` elaborates bodies and handlers. -/
def callFunction (run : List Command → ElabM Unit) (fn : Nat) (depth : Int) (args : List Expr) :
    ElabM Expr := do
  let s ← getSymbols
  let types ← args.mapM fun a => require (s.knownType a)
  let r ← match ← elaborating fn types with
    | some r => do
      sizeStack r depth
      callExisting run r args
      pure r
    | none =>
      match (← getFunction fn).instance? types with
      | some position => do
        callExisting run ⟨fn, position⟩ args
        pure ⟨fn, position⟩
      | none => do
        let r ← instantiate fn types
        callFirst run r args
        pure r
  return .ref (← getInstance r).ret

/-- Returns from the innermost body. -/
def returnFrom (value : Option Expr) : ElabM Nat := do
  let d ← getDraft
  match d.building with
  | [] => fail (.outsideFunction d.name d.machine.size)
  | r :: _ => makeReturn r value

end Lockstep.Program
