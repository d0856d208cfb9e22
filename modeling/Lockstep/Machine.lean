import Lockstep.Module
import Lockstep.Text.Quoted

/-!
# State machines

The states of a synchronous machine in the order of their declaration, and the transitions
between them. Transitions are data: their targets are resolved when the machine is built, so a
transition may name a state that is declared later. Later transitions of a state override earlier
ones when their condition holds, and a state without a transition falls through to the next.
-/

namespace Lockstep

/-- How a state index is written to the state register. -/
inductive Encoding where
  /-- The index itself. The successor of the last state keeps its own code. -/
  | binary
  /-- One bit for each state. -/
  | oneHot
  /-- The index itself, with every index outside the machine leading to the fallback state. -/
  | closed
deriving DecidableEq, Repr, Inhabited

namespace Encoding

def ofCode : Int → Encoding
  | 0 => .binary
  | 1 => .oneHot
  | _ => .closed

def ofWord? : String → Option Encoding
  | "binary" => some .binary
  | "onehot" => some .oneHot
  | _ => none

def word : Encoding → String
  | .oneHot => "onehot"
  | _ => "binary"

end Encoding

/-- The destination of a transition. -/
inductive Target (ε : Type) where
  | state (id : Int)
  /-- The state declared right after `id`. -/
  | after (id : Int)
  | named (name : String)
  /-- The state whose code is the value of an expression. -/
  | computed (code : ε)
deriving DecidableEq, Repr, Inhabited

/-- Goes to `target`; with a guard, only if it holds, and to `otherwise` if it does not. -/
structure Transition (ε : Type) where
  guard : Option ε
  target : Option (Target ε)
  otherwise : Option (Target ε)
deriving DecidableEq, Repr, Inhabited

namespace Transition

variable {ε : Type}

def jump (t : Target ε) : Transition ε := ⟨none, some t, none⟩

def branch (guard : ε) (target otherwise : Target ε) : Transition ε :=
  ⟨some guard, some target, some otherwise⟩

end Transition

namespace Machine

inductive Error where
  /-- The machine was built before. -/
  | built (machine : String)
  /-- A state was declared after the machine was built. -/
  | lateState (machine state : String)
  | duplicateState (machine state : String) (previous : Nat)
  /-- A body or transition was added to a state that does not exist. -/
  | badReference (machine what : String) (id : Int) (count : Nat)
  | noClock (machine : String)
  | tooManyStates (machine : String) (count : Nat)
  /-- A transition names a state that was never declared. -/
  | unknownTarget (machine state : String) (position : Nat) (target : String)
  | missingTarget (machine state : String) (position : Nat)
deriving DecidableEq, Repr, Inhabited

def Error.message : Error → String
  | .built f => f ++ ": fsm already built"
  | .lateState f s => f ++ ": new state " ++ Text.quoted s ++ ": fsm already built"
  | .duplicateState f s n =>
    f ++ ": " ++ Text.quoted s ++ " (state " ++ toString n ++ "): state name already declared"
  | .badReference f what id n =>
    f ++ ": " ++ what ++ " on state " ++ toString id ++ " of " ++ toString n ++
      ": goto to undeclared state"
  | .noClock f => f ++ ": no clock event"
  | .tooManyStates f n =>
    f ++ ": " ++ toString n ++ " states, onehot supports 64: too many states for encoding"
  | .unknownTarget f s n t =>
    f ++ ": state " ++ s ++ " goto " ++ toString n ++ ": " ++ Text.quoted t ++
      ": goto to undeclared state"
  | .missingTarget f s n =>
    f ++ ": state " ++ s ++ " goto " ++ toString n ++ ": " ++ f ++
      ": unsupported target <nil>"

structure State where
  name : String
  body : List Statement := []
  gotos : List (Transition Expr) := []
deriving Repr, Inhabited

structure Options where
  name : String := ""
  clock : Option ClockEvent := none
  reset : Expr := .hole
  encoding : Encoding := .binary
  /-- Entered when the register holds the code of no state. -/
  fallback : Int := 0
deriving Inhabited

end Machine

structure Machine where
  name : String
  clock : Option ClockEvent
  reset : Expr
  encoding : Encoding
  fallback : Int
  /-- The type of the state register, shared by every state code. Building fixes its width. -/
  type : TypeId
  current : SignalId
  next : SignalId
  /-- Run in every active cycle, before the body of the state. -/
  defaults : List Statement := []
  /-- Run instead while reset is asserted. -/
  onReset : List Statement := []
  states : Array Machine.State := #[]
  built : Bool := false
  /-- The first reference to a state that does not exist; building reports it. -/
  fault : Option Machine.Error := none
deriving Inhabited

namespace Machine

/-- Declares the state register and the next-state wire in `m`. A machine without a clock or a reset
of its own takes those of the module. -/
def create (m : Module) (opts : Options) : Machine × Module :=
  let name := if opts.name = "" then "fsm" else opts.name
  let (type, m) := m.newType .bit
  let (current, m) := m.declareAt (name ++ "_state") .reg type 0 0
  let (next, m) := m.declareAt (name ++ "_next") .wire type 0 0
  let f : Machine :=
    { name, type, current, next
      clock := opts.clock <|> m.clock
      reset := if opts.reset = .hole then m.reset else opts.reset
      encoding := opts.encoding
      fallback := opts.fallback }
  (f, m)

def size (f : Machine) : Nat := f.states.size

def lookup (f : Machine) (name : String) : Option Nat :=
  if name = "" then none else f.states.findIdx? (·.name == name)

/-- Declares a state; its index is the number of states before it. -/
def newState (f : Machine) (name : String) : Except Error (Nat × Machine) :=
  if f.built then .error (.lateState f.name name)
  else
    match f.lookup name with
    | some previous => .error (.duplicateState f.name name previous)
    | none => .ok (f.size, { f with states := f.states.push { name } })

def state? (f : Machine) (id : Int) : Option State :=
  if id < 0 then none else f.states[id.toNat]?

/-- Changes a state, or records that there is none. -/
def modifyState (f : Machine) (id : Int) (what : String) (change : State → State) : Machine :=
  if (f.state? id).isSome then { f with states := f.states.modify id.toNat change }
  else { f with fault := f.fault <|> some (.badReference f.name what id f.size) }

def addBody (f : Machine) (id : Int) (body : List Statement) : Machine :=
  f.modifyState id "body" fun s => { s with body := s.body ++ body }

def addGoto (f : Machine) (id : Int) (t : Transition Expr) : Machine :=
  f.modifyState id "goto" fun s => { s with gotos := s.gotos ++ [t] }

/-- The register value of a state index. One-hot codes have room for 64 states; an index without a
code of its own has that of the fallback state. -/
def code (f : Machine) (id : Int) : UInt64 :=
  match f.encoding with
  | .oneHot =>
    let id := if 0 ≤ id && id < f.size && id < 64 then id else f.fallback
    if 0 ≤ id && id < 64 then UInt64.ofNat (1 <<< id.toNat) else 0
  | _ => UInt64.ofInt id

def codeExpr (f : Machine) (id : Int) : Expr := .const (f.code id) f.type

def isIn (f : Machine) (id : Int) : Expr := .cmp .eq (.ref f.current) (f.codeExpr id)

def isNotIn (f : Machine) (id : Int) : Expr := .cmp .ne (.ref f.current) (f.codeExpr id)

/-- Leads an index outside the machine to the fallback state. -/
def clamp (f : Machine) (id : Int) : Int :=
  if 0 ≤ id && id < f.size then id
  else if id = f.size && f.encoding = .binary then id
  else f.fallback

/-- The index that a target stands for, if it is known before the machine runs. -/
def targetIndex (f : Machine) : Target Expr → Option Int
  | .state id => some id
  | .after id => some (wrapSigned (id + 1))
  | .named name => (f.lookup name).map Int.ofNat
  | .computed _ => none

/-- A state in error messages. -/
def stateLabel (f : Machine) (n : Nat) : String :=
  match f.states[n]? with
  | some s => if s.name = "" then toString n else toString n ++ " (" ++ s.name ++ ")"
  | none => toString n

end Machine

end Lockstep
