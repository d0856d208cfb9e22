import Lockstep.Operator

/-!
# Signal types

Width and signedness of a signal. A width of zero or below means that the width is
still to be resolved; the words of a resolved type are its low `width` bits.
-/

namespace Lockstep

/-- The widest signal, and the width of a simulated word. -/
def maxWidth : Nat := 256

structure SignalType where
  width : Int
  signed : Bool := false
deriving DecidableEq, Repr, Inhabited

namespace SignalType

def unsigned (width : Int) : SignalType := ⟨width, false⟩

/-- The type of conditions. -/
def bit : SignalType := unsigned 1

def isUnknown (t : SignalType) : Bool := t.width ≤ 0

/-- Every value of `t` can be stored in `o`. Nothing is known of unresolved types, so they
fit anywhere. -/
def fitsWithin (t o : SignalType) : Bool :=
  t.isUnknown || o.isUnknown ||
    match t.signed, o.signed with
    | false, true => t.width < o.width
    | true, false => false
    | _, _ => t.width ≤ o.width

def signCompatible (t o : SignalType) : Bool :=
  t.isUnknown || o.isUnknown || t.signed == o.signed

/-- The type of `op` applied to operands of type `t` and `o`; the right type may be missing. -/
def resultFor (op : BinOp) (t : SignalType) (o : Option SignalType) : SignalType :=
  if op.isShift then t
  else
    match o with
    | none => ⟨t.width, false⟩
    | some o => ⟨max t.width o.width, t.signed && o.signed⟩

/-- The type as it is written in a description, also for unresolved widths. -/
def text (t : SignalType) : String :=
  (if t.signed then "s" else "u") ++ toString t.width

/-- Reads a type as `text` writes it. -/
def ofText? (s : String) : Option SignalType :=
  match s.toList with
  | 'u' :: digits => (String.ofList digits).toInt?.map (⟨·, false⟩)
  | 's' :: digits => (String.ofList digits).toInt?.map (⟨·, true⟩)
  | _ => none

def describe (t : SignalType) : String :=
  if t.isUnknown then "unresolved" else t.text

end SignalType

/-- A signal or an operand may have no type at all. -/
abbrev TypeSlot := Option SignalType

namespace TypeSlot

def isUnknown (t : TypeSlot) : Bool := t.all SignalType.isUnknown

def fitsWithin (t o : TypeSlot) : Bool :=
  match t, o with
  | some t, some o => t.fitsWithin o
  | _, _ => true

def signCompatible (t o : TypeSlot) : Bool :=
  match t, o with
  | some t, some o => t.signCompatible o
  | _, _ => true

def describe (t : TypeSlot) : String :=
  match t with
  | some t => t.describe
  | none => "unresolved"

/-- The number of bits a word of this type keeps. -/
def bits (t : TypeSlot) : Nat :=
  match t with
  | some t => min t.width.toNat maxWidth
  | none => 0

def isSigned (t : TypeSlot) : Bool := t.any SignalType.signed

end TypeSlot

/-- The number of binary digits of `n`, at least one. -/
def bitsFor (n : Nat) : Nat := n.log2 + 1

/-- Reduction to the range of a signed 64-bit integer. -/
def wrapSigned (n : Int) : Int := n.bmod UInt64.size

end Lockstep
