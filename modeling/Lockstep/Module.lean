import Lockstep.NameTable
import Lockstep.Stmt
import Lockstep.Symbols

/-!
# Modules

A hardware module: its symbols, ports and processes, the names taken in it, and the clock
and reset that generators use when they are given none.
-/

namespace Lockstep

inductive Direction where
  | input | output | inout
  | unknown (code : Int)
deriving DecidableEq, Repr, Inhabited

namespace Direction

def ofCode : Int → Direction
  | 0 => .input
  | 1 => .output
  | 2 => .inout
  | code => .unknown code

def ofWord? : String → Option Direction
  | "in" => some .input
  | "out" => some .output
  | "io" => some .inout
  | _ => none

/-- Words in a column of three characters. -/
def word : Direction → String
  | .input => "in "
  | .output => "out"
  | .inout => "io "
  | .unknown _ => "?"

end Direction

structure Port where
  name : String
  direction : Direction
  type : Option TypeId
  signal : SignalId
deriving Repr, Inhabited

inductive ClockEdge where
  | rising | falling
deriving DecidableEq, Repr, Inhabited

/-- A clock edge. The signal may still be missing. -/
structure ClockEvent where
  edge : ClockEdge := .rising
  signal : Option SignalId
deriving DecidableEq, Repr, Inhabited

inductive Trigger where
  /-- Runs whenever its inputs change. -/
  | combinational
  /-- Runs on a clock edge, if it has one. -/
  | clocked (event : Option ClockEvent)
deriving DecidableEq, Repr, Inhabited

structure Process where
  name : String
  trigger : Trigger
  body : List Statement
deriving Repr, Inhabited

namespace Process

def isCombinational (p : Process) : Bool := p.trigger == .combinational

def firesOn (p : Process) (edge : ClockEdge) : Bool :=
  match p.trigger with
  | .clocked (some event) => event.edge == edge
  | _ => false

end Process

structure Module where
  name : String
  symbols : Symbols := {}
  names : NameTable := {}
  ports : Array Port := #[]
  processes : Array Process := #[]
  clock : Option ClockEvent := none
  reset : Expr := .hole
deriving Repr, Inhabited

namespace Module

def claimName (m : Module) (wanted : String) : String × Module :=
  let (name, names) := m.names.claim wanted
  (name, { m with names })

def modifySymbols (m : Module) (f : Symbols → Symbols) : Module :=
  { m with symbols := f m.symbols }

def newType (m : Module) (t : SignalType) : TypeId × Module :=
  let (i, symbols) := m.symbols.newType t
  (i, { m with symbols })

/-- Declares a signal whose type is at `type`. The name is made unique. -/
def declareAt (m : Module) (wanted : String) (kind : SignalKind) (type : TypeId)
    (value : UInt64) (depth : Int) : SignalId × Module :=
  let (name, m) := m.claimName wanted
  let (i, symbols) := m.symbols.newSignal { name, type := some type, kind, value, depth }
  (i, { m with symbols })

/-- Declares a signal with a type of its own. -/
def declare (m : Module) (wanted : String) (kind : SignalKind) (type : SignalType)
    (value : UInt64) (depth : Int) : SignalId × Module :=
  let (t, m) := m.newType type
  m.declareAt wanted kind t value depth

def addReg (m : Module) (name : String) (type : SignalType) : SignalId × Module :=
  m.declare name .reg type 0 0

def addWire (m : Module) (name : String) (type : SignalType) : SignalId × Module :=
  m.declare name .wire type 0 0

def addMemory (m : Module) (name : String) (type : SignalType) (depth : Int) :
    SignalId × Module :=
  m.declare name .memory type 0 depth

def addConst (m : Module) (name : String) (value : UInt64) (type : SignalType) :
    SignalId × Module :=
  m.declare name .const type value 0

/-- An output is a register, any other port a wire. -/
def addPort (m : Module) (name : String) (direction : Direction) (type : SignalType) :
    SignalId × Module :=
  let kind := if direction = .output then .reg else .wire
  let (i, m) := m.declare name kind type 0 0
  let port : Port :=
    { name := m.symbols.signalName i
      direction
      type := m.symbols.signals[i]?.bind Signal.type
      signal := i }
  (i, { m with ports := m.ports.push port })

/-- Adds a signal that can be referred to without being part of the module. -/
def addLoose (m : Module) (name : String) (kind : SignalKind) (type : Option SignalType)
    (depth : Int) (value : UInt64) : SignalId × Module :=
  let (t, m) := match type with
    | some t => let (i, m) := m.newType t; (some i, m)
    | none => (none, m)
  let (i, symbols) :=
    m.symbols.newSignal { name, type := t, kind, value, depth, declared := false }
  (i, { m with symbols })

def addProcess (m : Module) (p : Process) : Module :=
  { m with processes := m.processes.push p }

def addCombinational (m : Module) (name : String) (body : List Statement) : Module :=
  m.addProcess { name, trigger := .combinational, body }

def signal? (m : Module) (name : String) : Option SignalId :=
  m.symbols.signals.findIdx? fun g => g.declared && g.name == name

/-- The declared signals, in the order of their names. -/
def declared (m : Module) : List SignalId :=
  let ids := (List.range m.symbols.signals.size).filter fun i =>
    m.symbols.signals[i]?.any Signal.declared
  ids.mergeSort fun i j => m.symbols.signalName i ≤ m.symbols.signalName j

def signalNames (m : Module) : List String := m.declared.map m.symbols.signalName

end Module

end Lockstep
