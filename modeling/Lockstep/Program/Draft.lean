import Lockstep.Blocks
import Lockstep.Diagnostic
import Lockstep.Machine.Build
import Lockstep.Program.Command

/-!
# Programs under elaboration

A session holds what all programs of a module share; a draft is the program being elaborated. The
statements that a program emits gather in the draft until a control construct cuts them into a
state of its machine.

Elaboration stops at the first error, and keeps what was done before it.
-/

namespace Lockstep.Program

inductive Error where
  /-- A control construct inside a conditional statement. -/
  | nestedControl (program : String) (depth : Nat)
  | elseWithoutIf (program : String) (after : Int)
  | noLoop (program what : String) (state : Nat)
  | duplicateLabel (program label : String)
  | outsideFunction (program : String) (state : Nat)
  | returnType (function : String) (value register : TypeSlot)
  | depthConflict (function : String) (requested fixed : Int)
  | noConvergence (function : String) (types : List SignalType)
  | machine (e : Machine.Error)
  | script (e : Script.Error)
  /-- Calls are nested beyond any program that could be elaborated. -/
  | endless
deriving DecidableEq, Repr, Inhabited

def describeTypes (ts : List SignalType) : String :=
  ", ".intercalate (ts.map SignalType.describe)

def Error.message : Error → String
  | .nestedControl p n =>
    p ++ ": " ++ toString n ++
      " conditional block(s) open: control construct inside a conditional statement"
  | .elseWithoutIf p n =>
    p ++ ": after state " ++ toString n ++ ": else without a preceding if"
  | .noLoop p what n =>
    p ++ ": " ++ what ++ " at state " ++ toString n ++ ": no loop for break or continue"
  | .duplicateLabel p l => p ++ ": label " ++ Text.quoted l ++ ": state name already declared"
  | .outsideFunction p n => p ++ ": state " ++ toString n ++ ": return outside a function"
  | .returnType f t r =>
    f ++ ": " ++ t.describe ++ " returned, register is " ++ r.describe ++
      ": return value does not fit the return register"
  | .depthConflict f n fixed =>
    f ++ ": depth " ++ toString n ++ " requested, fixed at " ++ toString fixed ++
      ": recursion depth already fixed"
  | .noConvergence f ts =>
    f ++ "(" ++ describeTypes ts ++
      "): argument types keep changing: function instantiation does not converge"
  | .machine e => e.message
  | .script e => e.message
  | .endless => "endless calls"

/-- What an entry of the journal is about. -/
inductive Fact where
  | name (s : String)
  | state (id : Nat)
  | expr (text : String)
  | shown (e : Script.Shown)
  | declared (result : Except Machine.Error Nat)
  | built (error : Option Machine.Error)
deriving Inhabited

/-- A journal of elaboration: which command, and what came of it. -/
structure Entry where
  command : String
  fact : Fact
deriving Inhabited

/-- What the programs of a module share. -/
structure Session where
  module : Module
  scope : Script.Scope := {}
  functions : Array Function := #[]
  journal : Array Entry := #[]
  reporter : Option Reporter := none
deriving Inhabited

/-- An open loop. -/
structure LoopFrame where
  /-- The first state of the body. -/
  anchor : Nat
  breaks : List Nat := []
  /-- States that go on with the next round of an enumerator. -/
  continues : List Nat := []
  /-- Advances the index of an enumerator. -/
  advance : Option Statement := none
deriving Inhabited

/-- One level of nesting. -/
structure Frame where
  loop : Option LoopFrame := none
  /-- The body of a function. Loops outside it cannot be left from within. -/
  isBody : Bool := false
  /-- The closing state of the `ifThen` that an `orElse` may follow. -/
  closedIf : Option Nat := none
deriving Inhabited

structure Draft where
  name : String
  machine : Machine
  run : SignalId
  blocks : Blocks := {}
  /-- Innermost first. -/
  frames : List Frame := [{}]
  /-- Instances whose bodies are being elaborated, innermost first. -/
  building : List InstanceRef := []
  /-- The name waiting for the next state; empty if there is none. -/
  label : String := ""
  /-- Return addresses, each with the state it stands for. -/
  resumes : List (LinkId × Nat) := []
  /-- Functions defined by this program. -/
  functions : List Nat := []
deriving Inhabited

structure Context where
  session : Session
  draft : Draft
deriving Inhabited

abbrev ElabM := EStateM Error Context

def modifyDraft (f : Draft → Draft) : ElabM Unit := modify fun s => { s with draft := f s.draft }

def modifySession (f : Session → Session) : ElabM Unit :=
  modify fun s => { s with session := f s.session }

def modifyModule (f : Module → Module) : ElabM Unit :=
  modifySession fun s => { s with module := f s.module }

def modifyMachine (f : Machine → Machine) : ElabM Unit :=
  modifyDraft fun d => { d with machine := f d.machine }

def modifyScope (f : Script.Scope → Script.Scope) : ElabM Unit :=
  modifySession fun s => { s with scope := f s.scope }

def getDraft : ElabM Draft := return (← get).draft

def getModule : ElabM Module := return (← get).session.module

def getSymbols : ElabM Symbols := return (← getModule).symbols

/-- Declares something in the module. -/
def declare (f : Module → SignalId × Module) : ElabM SignalId := do
  let (i, m) := f (← getModule)
  modifyModule fun _ => m
  return i

def report (f : Reporter → Reporter) : ElabM Unit :=
  modifySession fun s => { s with reporter := s.reporter.map f }

/-- Reports an error and stops. -/
def fail {α : Type} (e : Error) : ElabM α := do
  let d ← getDraft
  report (·.error d.name e.message)
  throw e

/-- Stops without a report: the description itself cannot be read. -/
def abort {α : Type} (e : Script.Error) : ElabM α := throw (.script e)

def require {α : Type} : Option α → ElabM α
  | some a => return a
  | none => abort .undefined

def note (place message : String) : ElabM Unit := report (·.note place message)

def record (command : String) (fact : Fact) : ElabM Unit :=
  modifySession fun s => { s with journal := s.journal.push ⟨command, fact⟩ }

/-- Runs a resolution in the module, with the names of the session. -/
def resolving {α : Type} (f : Script.Scope → Option Script.Focus → Script.Resolve α) :
    ElabM α := do
  let s ← get
  let focus : Script.Focus := { machine := s.draft.machine, run := some s.draft.run }
  match (f s.session.scope (some focus)).run s.session.module with
  | .ok (a, m) =>
    modifyModule fun _ => m
    return a
  | .error e => abort e

def resolve (t : Script.Term) : ElabM Expr := resolving fun sc focus => t.resolve sc focus

def resolveSignal (name : String) : ElabM SignalId := resolving fun sc _ => sc.signal name

/-- Emits a statement into the current state. -/
def emit (st : Statement) : ElabM Unit :=
  modifyDraft fun d => { d with blocks := d.blocks.emit st }

def openBlock : ElabM Unit := modifyDraft fun d => { d with blocks := d.blocks.enter }

def closeBlock : ElabM (List Statement) := do
  let (block, blocks) := (← getDraft).blocks.leave
  modifyDraft fun d => { d with blocks }
  return block

def addGoto (state : Nat) (t : Transition Expr) : ElabM Unit :=
  modifyMachine (·.addGoto state t)

/-- Declares a state. -/
def newState (name : String) : ElabM Nat := do
  let d ← getDraft
  match d.machine.newState name with
  | .error e => fail (.machine e)
  | .ok (id, machine) =>
    modifyMachine fun _ => machine
    let suffix := if name = "" then "" else " " ++ Text.quoted name
    note d.name ("state " ++ toString id ++ suffix)
    return id

/-- Changes the innermost frame. -/
def modifyTop (f : Frame → Frame) : ElabM Unit :=
  modifyDraft fun d => { d with frames := d.frames.modifyHead f }

def pushFrame (f : Frame) : ElabM Unit :=
  modifyDraft fun d => { d with frames := f :: d.frames }

def popFrame : ElabM Frame := do
  let d ← getDraft
  modifyDraft fun d => { d with frames := d.frames.tail }
  return d.frames.headD {}

/-- Cuts the statements emitted since the last step into a new state. -/
def step : ElabM Nat := do
  let d ← getDraft
  if 0 < d.blocks.depth then fail (.nestedControl d.name d.blocks.depth)
  modifyDraft fun d => { d with label := "" }
  let id ← newState d.label
  let (body, blocks) := (← getDraft).blocks.take
  modifyDraft fun d => { d with blocks }
  modifyMachine (·.addBody id body)
  modifyTop fun f => { f with closedIf := none }
  return id

/-- Statements or a label are waiting for a state. -/
def Draft.waiting (d : Draft) : Bool := d.blocks.pending || d.label != ""

def stepIfWaiting : ElabM Unit := do
  if (← getDraft).waiting then
    let _ ← step

end Lockstep.Program
