import Lockstep.Sim.Eval

/-!
# Cycle simulation

A clock period runs the processes of the rising edge, then those of the falling edge. All
processes of an edge read the values from before it, and the last write to a place wins. After
each edge, and whenever a signal is driven from outside, the combinational processes are swept
until a sweep changes nothing; logic that still changes after `settleLimit` sweeps does not settle.
-/

namespace Lockstep.Sim

def settleLimit : Nat := 64

/-- Memories beyond this size cannot be simulated. -/
def maxDepth : Int := (1 <<< 45 : Nat)

inductive Error where
  | unknownSignal (name : String)
  /-- A memory was used as a scalar. -/
  | memoryAsScalar (name : String)
  /-- A scalar was used as a memory. -/
  | notMemory (name : String)
  | unsettled
  | unsettledAt (cycle : Nat)
  /-- An undefined expression was reached, or a memory has no possible size. -/
  | undefined
deriving DecidableEq, Repr, Inhabited

def Error.message : Error → String
  | .unknownSignal name => name ++ ": unknown signal"
  | .memoryAsScalar name => name ++ " is a memory, use Word: signal is not a memory"
  | .notMemory name => name ++ ": signal is not a memory"
  | .unsettled => "combinational logic does not settle"
  | .unsettledAt cycle =>
    "cycle " ++ toString cycle ++ ": combinational logic does not settle"
  | .undefined => "undefined expression"

/-- One pass over the combinational processes. -/
structure Sweep where
  state : State
  changed : Bool
  /-- No undefined expression was evaluated. -/
  defined : Bool
deriving Repr, Inhabited

namespace Sweep

/-- Stores a write and notes whether it changed anything. -/
def store (p : Sweep) (w : Write) : Sweep :=
  let changed := p.changed || p.state.changedBy w
  { p with state := p.state.store w, changed }

/-- Runs one process; its writes are seen by the next. -/
def step (g : Symbols) (p : Sweep) (proc : Process) : Sweep :=
  let ws := Write.lasting (execBlock g p.state proc.body)
  let defined := p.defined && runnableBlock g p.state proc.body
  ws.foldl store { p with defined }

end Sweep

def sweep (g : Symbols) (procs : List Process) (s : State) : Sweep :=
  procs.foldl (Sweep.step g) ⟨s, false, true⟩

inductive Verdict where
  | settled | unsettled | undefined
deriving DecidableEq, Repr, Inhabited

/-- Sweeps until nothing changes, at most the given number of times. -/
def settle (g : Symbols) (procs : List Process) : Nat → State → State × Verdict
  | 0, s => (s, .unsettled)
  | n + 1, s =>
    let p := sweep g procs s
    if !p.defined then (p.state, .undefined)
    else if p.changed then settle g procs n p.state
    else (p.state, .settled)

end Sim

open Sim in
/-- A module under simulation. -/
structure Sim where
  module : Module
  state : State
  /-- Completed clock periods. -/
  cycle : Nat := 0
deriving Inhabited

namespace Sim

def combinational (m : Module) : List Process :=
  m.processes.toList.filter Process.isCombinational

def firing (m : Module) (edge : ClockEdge) : List Process :=
  m.processes.toList.filter (·.firesOn edge)

def settled (s : Sim) : Sim × Verdict :=
  let (state, v) := settle s.module.symbols (combinational s.module) settleLimit s.state
  ({ s with state }, v)

def possibleDepths (m : Module) : Bool :=
  m.symbols.signals.all fun g =>
    !(g.declared && g.kind == .memory) || (0 ≤ g.depth && g.depth ≤ maxDepth)

/-- A simulation at rest, its combinational logic settled. -/
def start (m : Module) : Except Error Sim :=
  if possibleDepths m then
    match ({ module := m, state := .initial m.symbols } : Sim).settled with
    | (s, .settled) => .ok s
    | (_, .unsettled) => .error .unsettled
    | (_, .undefined) => .error .undefined
  else .error .undefined

def scalarId (s : Sim) (name : String) : Except Error SignalId :=
  match s.module.signal? name with
  | none => .error (.unknownSignal name)
  | some i => if s.module.symbols.isMemory i then .error (.memoryAsScalar name) else .ok i

/-- Drives a signal and settles. The new value stays also when the logic does not settle. -/
def set (s : Sim) (name : String) (v : UInt64) : Sim × Option Error :=
  match s.scalarId name with
  | .error e => (s, some e)
  | .ok i =>
    let value := Word.truncate (s.module.symbols.signalType i).bits (Word.ofUInt64 v)
    match ({ s with state := s.state.setScalar i value }).settled with
    | (s, .settled) => (s, none)
    | (s, .unsettled) => (s, some .unsettled)
    | (s, .undefined) => (s, some .undefined)

def value (s : Sim) (name : String) : Except Error Word :=
  (s.scalarId name).map s.state.read

/-- The low 64 bits of a signal. -/
def get (s : Sim) (name : String) : Except Error UInt64 :=
  (s.value name).map Word.low

/-- The low 64 bits of one word of a memory; zero outside it. -/
def word (s : Sim) (name : String) (index : Int) : Except Error UInt64 :=
  match s.module.signal? name with
  | none => .error (.unknownSignal name)
  | some i =>
    if s.module.symbols.isMemory i then
      .ok (if index < 0 then 0 else (s.state.word i index.toNat).low)
    else .error (.notMemory name)

/-- The writes of an edge, all read from the same state. -/
def edgeWrites (g : Symbols) (s : State) (procs : List Process) : List Write :=
  procs.flatMap fun p => execBlock g s p.body

/-- One clock edge and the settling after it. -/
def clockEdge (s : Sim) (edge : ClockEdge) : Sim × Verdict :=
  let procs := firing s.module edge
  let g := s.module.symbols
  let writes := edgeWrites g s.state procs
  let defined := procs.all fun p => runnableBlock g s.state p.body
  let after := { s with state := s.state.storeAll writes }
  if defined then after.settled else (after, .undefined)

/-- One clock period. A period that does not settle is not counted. -/
def tick (s : Sim) : Sim × Option Error :=
  match s.clockEdge .rising with
  | (s, .undefined) => (s, some .undefined)
  | (s, .unsettled) => (s, some (.unsettledAt s.cycle))
  | (s, .settled) =>
    match s.clockEdge .falling with
    | (s, .undefined) => (s, some .undefined)
    | (s, .unsettled) => (s, some (.unsettledAt s.cycle))
    | (s, .settled) => ({ s with cycle := s.cycle + 1 }, none)

/-- The outcome of running for some periods. -/
structure Stretch where
  sim : Sim
  ticks : Int
  error : Option Error := none
deriving Inhabited

/-- Ticks until `done` holds, at most `left` more times, having ticked `n` times. -/
def runFrom (done : Sim → Bool) : Nat → Nat → Sim → Stretch
  | 0, n, s => { sim := s, ticks := n }
  | left + 1, n, s =>
    if done s then { sim := s, ticks := n }
    else
      match s.tick with
      | (s, none) => runFrom done left (n + 1) s
      | (s, some e) => { sim := s, ticks := n, error := some e }

/-- Ticks until `done` holds, at most `limit` times. A negative limit is answered as it is. -/
def run (s : Sim) (limit : Int) (done : Sim → Bool) : Stretch :=
  if limit < 0 then { sim := s, ticks := limit } else runFrom done limit.toNat 0 s

end Sim

end Lockstep
