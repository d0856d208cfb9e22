import Lockstep.Machine

/-!
# Building a state machine

A machine becomes three processes of its module: the clocked update of the state register, the
clocked dispatch of the state bodies, and the combinational choice of the next state.
-/

namespace Lockstep.Machine

/-- The number of bits of the state register. Index codes leave room for the successor of the last
state. -/
def registerWidth (f : Machine) : Nat :=
  match f.encoding with
  | .oneHot => max f.size 1
  | _ => bitsFor f.size

def assignNext (f : Machine) (id : Int) : Statement :=
  .assign f.next none (f.codeExpr (f.clamp id))

/-- Why a target cannot be lowered. -/
inductive TargetError where
  | unknown (name : String)
  | missing
deriving DecidableEq, Repr

def assignTarget (f : Machine) : Option (Target Expr) → Except TargetError Statement
  | some (.computed e) => .ok (.assign f.next none e)
  | some (.state id) => .ok (f.assignNext id)
  | some (.after id) => .ok (f.assignNext (wrapSigned (id + 1)))
  | some (.named name) =>
    match f.lookup name with
    | some id => .ok (f.assignNext id)
    | none => .error (.unknown name)
  | none => .error .missing

/-- The statement that takes a transition. -/
def lower (f : Machine) (t : Transition Expr) : Except TargetError Statement := do
  let target ← f.assignTarget t.target
  match t.guard with
  | none => return target
  | some guard =>
    match t.otherwise with
    | none => return .cond guard [target] []
    | some other => return .cond guard [target] [← f.assignTarget (some other)]

/-- The transitions of state `n` from position `k` on. -/
def lowerFrom (f : Machine) (n : Nat) :
    Nat → List (Transition Expr) → Except Error (List Statement)
  | _, [] => .ok []
  | k, t :: rest =>
    match f.lower t with
    | .ok st => (f.lowerFrom n (k + 1) rest).map (st :: ·)
    | .error (.unknown name) => .error (.unknownTarget f.name (f.stateLabel n) k name)
    | .error .missing => .error (.missingTarget f.name (f.stateLabel n) k)

/-- The choice of the next state out of state `n`: fall through, unless a transition is taken. -/
def stateChoice (f : Machine) (n : Nat) (s : State) : Except Error (List Statement) :=
  (f.lowerFrom n 0 s.gotos).map (f.assignNext (n + 1) :: ·)

/-- The arms of the next-state choice for the states from index `n` on. -/
def choiceArms (f : Machine) :
    Nat → List State → Except Error (List (UInt64 × List Statement))
  | _, [] => .ok []
  | n, s :: rest => do
    let body ← f.stateChoice n s
    return (f.code n, body) :: (← f.choiceArms (n + 1) rest)

def nextBody (f : Machine) : Except Error (List Statement) :=
  (f.choiceArms 0 f.states.toList).map fun arms =>
    [.case (.ref f.current) arms [f.assignNext f.fallback]]

def updateBody (f : Machine) : List Statement :=
  let update : Statement := .assign f.current none (.ref f.next)
  if f.reset = .hole then [update]
  else [.cond f.reset [.assign f.current none (f.codeExpr 0)] [update]]

/-- The arms of the body dispatch. -/
def bodyArms (f : Machine) : List (UInt64 × List Statement) :=
  f.states.toList.zipIdx.map fun (s, n) => (f.code n, s.body)

def dispatchBody (f : Machine) : List Statement :=
  let body := f.defaults ++ [.case (.ref f.current) f.bodyArms []]
  if f.reset = .hole then body else [.cond f.reset f.onReset body]

/-- The processes of the machine, given the body of its next-state choice. -/
def processes (f : Machine) (next : List Statement) : List Process :=
  [{ name := f.name ++ "_update", trigger := .clocked f.clock, body := f.updateBody },
   { name := f.name ++ "_body", trigger := .clocked f.clock, body := f.dispatchBody },
   { name := f.name ++ "_transitions", trigger := .combinational, body := next }]

/-- Fixes the width of the state register. -/
def sizeRegister (f : Machine) (m : Module) : Module :=
  m.modifySymbols (·.setType f.type (.unsigned f.registerWidth))

/-- What keeps the machine from being built, before its transitions are looked at. -/
def obstacle (f : Machine) : Option Error :=
  if f.built then some (.built f.name)
  else
    match f.fault with
    | some e => some e
    | none =>
      if (f.clock.bind ClockEvent.signal).isNone then some (.noClock f.name)
      else if f.encoding = .oneHot && 64 < f.size then some (.tooManyStates f.name f.size)
      else none

/-- Adds the machine to its module. The register is sized before transitions are resolved, so it
stays sized when one of them is wrong. -/
def build (f : Machine) (m : Module) : Option Error × Machine × Module :=
  match f.obstacle with
  | some e => (some e, f, m)
  | none =>
    let m := f.sizeRegister m
    match f.nextBody with
    | .error e => (some e, f, m)
    | .ok next => (none, { f with built := true }, (f.processes next).foldl Module.addProcess m)

end Lockstep.Machine
