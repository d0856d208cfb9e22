import Lockstep.Script.Term

/-!
# Module descriptions

Declarations and processes as they are written, and the module they describe.
-/

namespace Lockstep.Script

inductive Decl where
  | port (name : String) (direction : Direction) (type : SignalType)
  | reg (name : String) (type : SignalType)
  | wire (name : String) (type : SignalType)
  | memory (name : String) (type : SignalType) (depth : Int)
  | const (name : String) (value : UInt64) (type : SignalType)
  /-- Takes a name without declaring a signal. -/
  | unique (stem : String)
  /-- A signal outside the module. -/
  | loose (name : String) (kind : SignalKind) (type : Option SignalType) (depth : Int)
      (value : UInt64)
  | kind (signal : String) (kind : SignalKind)
  /-- Changes a type for all that share it. -/
  | resize (signal : String) (type : SignalType)
  /-- Lets `a` share the type of `b`. -/
  | share (a b : String)
deriving Repr, Inhabited

/-- A clock edge as it is written. -/
structure Clock where
  edge : ClockEdge := .rising
  signal : Option String
deriving Repr, Inhabited

structure ProcessText where
  name : String
  clocked : Bool
  clock : Option Clock
  body : List Stmt
deriving Inhabited

structure Description where
  name : String
  decls : List Decl
  clock : Option Clock
  reset : Term
  processes : List ProcessText
deriving Inhabited

def declared (result : SignalId × Module) : Resolve String := do
  set result.2
  return result.2.symbols.signalName result.1

/-- Carries a declaration out and yields the name it is about. -/
def Decl.apply (sc : Scope) : Decl → Resolve (String × Scope)
  | .port name dir t => do return (← declared ((← get).addPort name dir t), sc)
  | .reg name t => do return (← declared ((← get).addReg name t), sc)
  | .wire name t => do return (← declared ((← get).addWire name t), sc)
  | .memory name t depth => do return (← declared ((← get).addMemory name t depth), sc)
  | .const name v t => do return (← declared ((← get).addConst name v t), sc)
  | .unique stem => do return (← modifyGet (·.claimName stem), sc)
  | .loose name k t depth v => do
    let (i, m) := (← get).addLoose name k t depth v
    set m
    return (name, { sc with loose := (name, i) :: sc.loose })
  | .kind name k => do
    let i ← sc.signal name
    modify (·.modifySymbols (·.modifySignal i ({ · with kind := k })))
    return ((← get).symbols.signalName i, sc)
  | .resize name t => do
    let i ← sc.signal name
    let m ← get
    let symbols ← need .undefined (m.symbols.resize i t)
    set { m with symbols }
    return (symbols.signalName i, sc)
  | .share a b => do
    let i ← sc.signal a
    let j ← sc.signal b
    modify fun m =>
      let type := m.symbols.signals[j]?.bind Signal.type
      m.modifySymbols (·.modifySignal i ({ · with type }))
    return ((← get).symbols.signalName i, sc)

/-- Declarations in order, with the names they are about. -/
def applyDecls : Scope → List Decl → Resolve (List String × Scope)
  | sc, [] => return ([], sc)
  | sc, d :: rest => do
    let (name, sc) ← d.apply sc
    let (names, sc) ← applyDecls sc rest
    return (name :: names, sc)

def Clock.resolve (sc : Scope) (c : Clock) : Resolve ClockEvent := do
  return { edge := c.edge, signal := ← c.signal.mapM sc.signal }

def ProcessText.resolve (sc : Scope) (focus : Option Focus) (p : ProcessText) :
    Resolve Process := do
  let clock ← p.clock.mapM (Clock.resolve sc)
  let body ← resolveBlock sc focus p.body
  return { name := p.name, trigger := if p.clocked then .clocked clock else .combinational, body }

def addProcesses (sc : Scope) (focus : Option Focus) : List ProcessText → Resolve Unit
  | [] => return ()
  | p :: rest => do
    let p ← p.resolve sc focus
    modify (·.addProcess p)
    addProcesses sc focus rest

def Description.elaborate (d : Description) : Resolve (List String × Scope) := do
  let (names, sc) ← applyDecls {} d.decls
  let clock ← d.clock.mapM (Clock.resolve sc)
  modify ({ · with clock })
  let reset ← d.reset.resolve sc none
  modify ({ · with reset })
  addProcesses sc none d.processes
  return (names, sc)

/-- The module that a description stands for, with the declared names and what names mean in it. -/
def Description.module (d : Description) : Except Error (List String × Scope × Module) := do
  let ((names, sc), m) ← d.elaborate.run { name := d.name }
  return (names, sc, m)

end Lockstep.Script
