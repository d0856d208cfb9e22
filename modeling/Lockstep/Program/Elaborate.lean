import Lockstep.Program.Call

/-!
# Elaboration

A program is elaborated command by command into the states of a machine, which is then built into
the module. State 0 is the end state: the machine waits there for its run flag. Commands that make a
state record it in the journal.
-/

namespace Lockstep.Program

open Script (Term)

/-- Calls a function: its position, a requested depth, and the arguments. -/
abbrev Caller := Nat → Int → List Expr → ElabM Expr

def recordState (command : String) (make : ElabM Nat) : ElabM Unit := do
  record command (.state (← make))

def bindVar (name : Option String) (e : Expr) : ElabM Unit :=
  modifyScope (·.bindVar? name e)

/-- Declares a signal and binds the name that was asked for. -/
def declareBound (command name : String) (f : Module → SignalId × Module) : ElabM Unit := do
  let i ← declare f
  modifyScope fun sc => { sc with bound := (name, i) :: sc.bound }
  record command (.name ((← getSymbols).signalName i))

/-- Calls a function by name and binds what it returns. -/
def callNamed (call : Caller) (command name : String) (depth : Int) (args : List Term)
    (result : Option String) : ElabM Unit := do
  match (← get).session.scope.functions.lookup name with
  | none => abort (.unknownName name)
  | some fn =>
    let args ← args.mapM resolve
    let e ← call fn depth args
    bindVar result e
    record command (.expr ((← getSymbols).exprText e))

def defineFunction (f : Function) : ElabM Unit := do
  let fn := (← get).session.functions.size
  modifySession fun s =>
    { s with
      functions := s.functions.push f
      scope := { s.scope with functions := (f.name, fn) :: s.scope.functions } }
  modifyDraft fun d => { d with functions := d.functions ++ [fn] }

def resizeSignal (name : String) (t : SignalType) : ElabM Unit := do
  let i ← resolveSignal name
  let symbols ← require ((← getSymbols).resize i t)
  modifyModule fun m => { m with symbols }

/-- Builds the machine of the draft into the module. -/
def buildDraft : ElabM (Option Machine.Error) := do
  let d ← getDraft
  let (error, machine, m) := d.machine.build (← getModule)
  modifyMachine fun _ => machine
  modifyModule fun _ => m
  return error

mutual

/-- Elaborates one command; `call` elaborates function calls. -/
def perform (call : Caller) : Command → ElabM Unit
  | .reg name t => declareBound "reg" name (·.addReg name t)
  | .memory name t depth => declareBound "mem" name (·.addMemory name t depth)
  | .assign dest value => do
    let i ← resolveSignal dest
    emit (.assign i none (← resolve value))
  | .assignAt dest index value => do
    let i ← resolveSignal dest
    let index ← resolve index
    emit (.assign i index.toOption (← resolve value))
  | .when test thn els => do
    let test ← resolve test
    openBlock
    performAll call thn
    let thn ← closeBlock
    openBlock
    performAll call els
    let els ← closeBlock
    emit (.cond test thn els)
  | .step => recordState "step" step
  | .ifThen test body => do
    let test ← resolve test
    recordState "if" (ifThen test (performAll call body))
  | .orElse body => recordState "else" (orElse (performAll call body))
  | .whileLoop test body => do
    let test ← resolve test
    recordState "while" (loop test.toOption test.toOption none (performAll call body))
  | .loop body => recordState "loop" (loop none none none (performAll call body))
  | .breakLoop => recordState "break" breakLoop
  | .nextRound => recordState "continue" nextRound
  | .terminate => recordState "terminate" terminate
  | .label name => label name
  | .goto name => recordState "goto" (goto name)
  | .count limit index body => do
    let limit ← resolve limit
    recordState "for" <| count limit fun i => do
      bindVar index i
      performAll call body
  | .times n index body =>
    recordState "times" <| times (UInt64.ofInt n) fun i => do
      bindVar index i
      performAll call body
  | .each name word index body => do
    let mem ← resolveSignal name
    let depth := ((← getSymbols).signals[mem]?.map Signal.depth).getD 0
    recordState "each" <| times (UInt64.ofInt depth) fun i => do
      bindVar word (.index mem i)
      bindVar index i
      performAll call body
  | .define name depth returns overflow body =>
    defineFunction { name, depth, returns, overflow, body }
  | .call fn args result => callNamed call "call" fn 0 args result
  | .callDepth fn depth args result => callNamed call "calld" fn depth args result
  | .ret value => do
    let value ← resolve value
    recordState "return" (returnFrom value.toOption)
  | .bind name value => do bindVar (some name) (← resolve value)
  | .probe value => do
    let e ← resolve value
    record "probe" (.shown (← require (Script.shown (← getSymbols) e)))
  | .resize name t => resizeSignal name t
  | .stateBody id body => do
    let body ← resolving fun sc focus => Script.resolveBlock sc focus body
    modifyMachine (·.addBody id body)
  | .stateGoto id t => do
    let t ← resolving fun sc focus => Script.resolveTransition sc focus t
    modifyMachine (·.addGoto id t)
  | .newState name => do
    match (← getDraft).machine.newState name with
    | .ok (id, machine) =>
      modifyMachine fun _ => machine
      record "fsm_state" (.declared (.ok id))
    | .error e => record "fsm_state" (.declared (.error e))
  | .buildMachine => do record "fsm_build" (.built (← buildDraft))

def performAll (call : Caller) : List Command → ElabM Unit
  | [] => return ()
  | c :: rest => do
    perform call c
    performAll call rest

end

/-- Calls with a bound on how deep bodies and handlers are nested. -/
def callWithin : Nat → Caller
  | 0 => fun _ _ _ => throw .endless
  | n + 1 => fun fn depth args => callFunction (performAll (callWithin n)) fn depth args

structure Options where
  name : String := ""
  clock : Option ClockEvent := none
  /-- Starts a run. Without it the program starts over as soon as it ends. -/
  start : Expr := .hole
  reset : Expr := .hole
  encoding : Encoding := .binary
  /-- How deep bodies and handlers may be inside each other. Bodies alone never get there: their
  nesting stops at `maxElaboration`. A larger budget changes nothing for a program that it is enough
  for. -/
  budget : Nat := 1024
deriving Inhabited

/-- A program that was built into a module. -/
structure Sequencer where
  name : String
  machine : Machine
  run : SignalId
  functions : List Nat
deriving Inhabited

/-- Sets or clears the run flag. -/
def setRun (run : SignalId) (v : UInt64) (m : Module) : Statement × Module :=
  let (e, symbols) := m.symbols.number v 1
  (.assign run none e, { m with symbols })

/-- The run flag follows `start`; without a start it is always set. -/
def runDefaults (run : SignalId) (start : Expr) : ElabM (List Statement) := do
  let assign (v : UInt64) : ElabM Statement := do
    let (st, m) := setRun run v (← getModule)
    modifyModule fun _ => m
    return st
  if start = .hole then return [← assign 1]
  else return [← assign 0, .cond start [← assign 1] []]

/-- The end state, left when the run flag is set. -/
def beginProgram (start : Expr) : ElabM Unit := do
  let d ← getDraft
  let last ← newState ""
  addGoto last (.branch (.ref d.run) (.after last) (.state last))
  let defaults ← runDefaults d.run start
  let (clear, m) := setRun d.run 0 (← getModule)
  modifyModule fun _ => m
  modifyMachine fun f =>
    { f with defaults := f.defaults ++ defaults, onReset := f.onReset ++ [clear] }

/-- A return register that never got a type has one bit. -/
def settleReturn (f : Function) (inst : Instance) : ElabM Unit := do
  let s ← getSymbols
  if (s.signalType inst.ret).isUnknown then
    let type := s.signals[inst.ret]?.bind Signal.type
    type.forM fun t => modifyModule (·.modifySymbols (·.setWidth t 1))
    note f.name "no value returned, return register is 1 bit"

def settleReturns : ElabM Unit := do
  (← getDraft).functions.forM fun fn => do
    let f ← getFunction fn
    f.instances.toList.forM (settleReturn f)

/-- Elaborates a program up to the point where all its states are known. -/
def prepare (opts : Options) (body : List Command) : ElabM Unit := do
  beginProgram opts.start
  performAll (callWithin opts.budget) body
  stepIfWaiting
  settleReturns

/-- Gives every return address the code of its state, and builds the machine. -/
def finishProgram : ElabM Unit := do
  let d ← getDraft
  d.resumes.forM fun (link, state) =>
    modifyModule (·.modifySymbols (·.setLink link (d.machine.code state)))
  if let some e ← buildDraft then fail (.machine e)
  let d ← getDraft
  let width := ((← getSymbols).types[d.machine.type]?.map SignalType.width).getD 0
  note d.name (toString d.machine.size ++ " states, " ++ d.machine.encoding.word ++
    " encoding, " ++ toString width ++ "-bit state register")

def elaborate (opts : Options) (body : List Command) : ElabM Sequencer := do
  prepare opts body
  finishProgram
  let d ← getDraft
  return { name := d.name, machine := d.machine, run := d.run, functions := d.functions }

/-- A fresh draft in the module of the session. -/
def draft (s : Session) (opts : Options) : Context :=
  let name := if opts.name = "" then "seq" else opts.name
  let (machine, m) := Machine.create s.module
    { name, clock := opts.clock, reset := opts.reset, encoding := opts.encoding }
  let (run, m) := m.addReg (name ++ "_run") .bit
  { session := { s with module := m }, draft := { name, machine, run } }

/-- Elaborates a program and builds it into the module of the session. -/
def build (s : Session) (opts : Options) (body : List Command) :
    Except Error Sequencer × Session :=
  match (elaborate opts body).run (draft s opts) with
  | .ok q s => (.ok q, s.session)
  | .error e s => (.error e, s.session)

namespace Sequencer

def focus (q : Sequencer) : Script.Focus := { machine := q.machine, run := some q.run }

/-- The machine is outside its end state. -/
def alive (q : Sequencer) : Expr := q.machine.isNotIn 0

/-- Adds an output that is set while the sequencer is running. -/
def addBusy (q : Sequencer) (m : Module) : SignalId × Module :=
  let (busy, m) := m.addPort "busy" .output .bit
  (busy, m.addCombinational "busy" [.assign busy none q.alive])

end Sequencer

end Lockstep.Program
