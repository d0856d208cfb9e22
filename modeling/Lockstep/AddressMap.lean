import Lockstep.Module
import Lockstep.Text.Columns

/-!
# Address maps

Addresses for signals out of a fixed range of words. Addresses are handed out in rising order and
never taken back; a signal that was given an address keeps it. Addresses and sizes are unsigned
64-bit numbers, and their arithmetic wraps.
-/

namespace Lockstep

namespace AddressMap

inductive Error where
  | wordSize (given : Int)
  | unsized (signal : String)
  | exhausted (signal : String) (size head last : UInt64)
  /-- The size of a signal without a type was asked for. -/
  | untyped
deriving DecidableEq, Repr, Inhabited

def Error.message : Error → String
  | .wordSize given => "got " ++ toString given ++ ": word size must be positive"
  | .unsized signal => signal ++ ": signal width is unresolved"
  | .exhausted signal size head last =>
    signal ++ " needs " ++ toString size ++ " word(s) at " ++ Text.hex head.toNat ++
      ", range ends at " ++ Text.hex last.toNat ++ ": address range exhausted"
  | .untyped => "signal has no type"

structure Entry where
  signal : SignalId
  address : UInt64
deriving DecidableEq, Repr, Inhabited

end AddressMap

structure AddressMap where
  /-- Bits in a word. -/
  wordSize : UInt64
  last : UInt64
  /-- The next free address. -/
  head : UInt64
  /-- Allocated signals, in the order of allocation. -/
  entries : List AddressMap.Entry := []
deriving Repr, Inhabited

namespace AddressMap

def create (wordSize : Int) (first last : UInt64) : Except Error AddressMap :=
  if wordSize ≤ 0 then .error (.wordSize wordSize)
  else .ok { wordSize := UInt64.ofInt wordSize, last, head := first }

/-- The words that a signal of type `t` takes. A memory of more than one word takes all of them. -/
def sizeFor (a : AddressMap) (g : Signal) (t : SignalType) : UInt64 :=
  let width := UInt64.ofInt t.width
  let bits :=
    if g.kind = .memory && 1 < g.depth then width * UInt64.ofInt g.depth else width
  (bits + a.wordSize - 1) / a.wordSize

def size (a : AddressMap) (s : Symbols) (i : SignalId) : Except Error UInt64 :=
  match s.signals[i]? with
  | none => .error .untyped
  | some g =>
    match s.type? g.type with
    | none => .error .untyped
    | some t => .ok (a.sizeFor g t)

def find? (a : AddressMap) (i : SignalId) : Option UInt64 :=
  (a.entries.find? (·.signal == i)).map Entry.address

/-- The address of a signal, reserved on first use. A failed request changes nothing. -/
def allocate (a : AddressMap) (s : Symbols) (i : SignalId) :
    Except Error UInt64 × AddressMap :=
  match a.find? i with
  | some address => (.ok address, a)
  | none =>
    if (s.signalType i).isUnknown then (.error (.unsized (s.signalName i)), a)
    else
      match a.size s i with
      | .error e => (.error e, a)
      | .ok size =>
        if a.last < a.head + size then
          (.error (.exhausted (s.signalName i) size a.head a.last), a)
        else
          (.ok a.head,
            { a with head := a.head + size, entries := a.entries ++ [⟨i, a.head⟩] })

/-- Allocates a list of signals in order, up to the first failure. -/
def allocateAll (a : AddressMap) (s : Symbols) : List SignalId → Except Error AddressMap
  | [] => .ok a
  | i :: rest =>
    match a.allocate s i with
    | (.ok _, a) => a.allocateAll s rest
    | (.error e, _) => .error e

end AddressMap

end Lockstep
