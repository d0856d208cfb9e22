import Lockstep.Module
import Lockstep.Word

/-!
# Simulation state

The value of every scalar signal and the words of every memory, by position in the symbol
table. A scalar that is not declared has no value until it is written, and reads as zero.
-/

namespace Lockstep.Sim

structure State where
  scalars : Array (Option Word)
  memories : Array (Array Word)
deriving DecidableEq, Repr, Inhabited

/-- One write to a scalar, or to one word of a memory. -/
structure Write where
  dest : SignalId
  index : Option Nat
  value : Word
deriving DecidableEq, Repr, Inhabited

namespace Write

/-- Both writes go to the same place. -/
def sameSlot (a b : Write) : Bool := a.dest == b.dest && a.index == b.index

/-- Adds a write to a list that has at most one write for each place. A later write takes over the
position of an earlier one. -/
def supersede (w : Write) : List Write → List Write
  | [] => [w]
  | v :: rest => if v.sameSlot w then w :: rest else v :: supersede w rest

/-- The last write to each place, in the order of first writes. -/
def lasting (ws : List Write) : List Write :=
  ws.foldl (fun acc w => supersede w acc) []

end Write

namespace State

def scalar (s : State) (i : SignalId) : Option Word := s.scalars[i]?.join

/-- The value read from a scalar. -/
def read (s : State) (i : SignalId) : Word := (s.scalar i).getD 0

def words (s : State) (i : SignalId) : Array Word := s.memories[i]?.getD #[]

/-- Reads outside a memory yield zero. -/
def word (s : State) (i : SignalId) (n : Nat) : Word := (s.words i)[n]?.getD 0

def setScalar (s : State) (i : SignalId) (v : Word) : State :=
  { s with scalars := s.scalars.setIfInBounds i (some v) }

def setWord (s : State) (i : SignalId) (n : Nat) (v : Word) : State :=
  { s with memories := s.memories.modify i (·.setIfInBounds n v) }

/-- A write changes the state if its place holds another value, or none. A word outside its memory
cannot be written. -/
def changedBy (s : State) (w : Write) : Bool :=
  match w.index with
  | none => s.scalar w.dest != some w.value
  | some n =>
    match (s.words w.dest)[n]? with
    | some old => old != w.value
    | none => false

def store (s : State) (w : Write) : State :=
  match w.index with
  | none => s.setScalar w.dest w.value
  | some n => s.setWord w.dest n w.value

def storeAll (s : State) (ws : List Write) : State := ws.foldl store s

/-- The state before anything has run: constants hold their value, everything else zero. -/
def initial (symbols : Symbols) : State where
  scalars := symbols.signals.map fun g =>
    if g.declared && g.kind != .memory then
      if g.kind == .const then
        some (Word.truncate (symbols.type? g.type).bits (Word.ofUInt64 g.value))
      else
        some 0
    else none
  memories := symbols.signals.map fun g =>
    if g.declared && g.kind == .memory then Array.replicate g.depth.toNat 0 else #[]

end State

end Lockstep.Sim
