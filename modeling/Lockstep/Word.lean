import Lockstep.SignalType

/-!
# Words

Values are kept in 256-bit words. A value of a type occupies the low bits of its word and the
bits above are zero; a signed type reads those low bits as a two's complement number.
-/

namespace Lockstep

abbrev Word := BitVec maxWidth

namespace Word

def ofUInt64 (v : UInt64) : Word := BitVec.ofNat maxWidth v.toNat

/-- Keeps the low `w` bits. -/
def truncate (w : Nat) (v : Word) : Word := (v.setWidth w).setWidth maxWidth

/-- Widens the low `w` bits, read as a two's complement number, to a full word. -/
def extend (w : Nat) (v : Word) : Word := (v.setWidth w).signExtend maxWidth

/-- Converts a value of type `t` to `w` bits. -/
def fit (t : TypeSlot) (w : Nat) (v : Word) : Word :=
  truncate w (if t.isSigned then extend t.bits v else v)

/-- Shifting by the width of a word or more pushes every bit out. -/
def shiftAmount (v : Word) : Nat := min v.toNat maxWidth

/-- A shift of a value of type `t`, as a value of `w` bits. -/
def shift (op : BinOp) (t : TypeSlot) (w : Nat) (v count : Word) : Word :=
  let n := shiftAmount count
  match op with
  | .shl => truncate w (v <<< n)
  | .shrU => truncate w (v >>> n)
  | _ => truncate w ((extend t.bits v).sshiftRight n)

/-- An operation on two `w`-bit values. -/
def arith (op : BinOp) (w : Nat) (a b : Word) : Word :=
  match op with
  | .add => truncate w (a + b)
  | .sub => truncate w (a - b)
  | .mul => truncate w (a * b)
  | .and => truncate w (a &&& b)
  | .or => truncate w (a ||| b)
  | .xor => truncate w (a ^^^ b)
  | _ => 0

/-- The result of `op` on values of the types `t` and `u`, as a value of `w` bits. -/
def binary (op : BinOp) (t u : TypeSlot) (w : Nat) (a b : Word) : Word :=
  if op.isShift then shift op t w a b
  else arith op w (fit t w a) (fit u w b)

/-- Signed predicates compare full words; the others compare at the wider of the two types. -/
def holds (p : Predicate) (t u : TypeSlot) (a b : Word) : Bool :=
  if p.isSigned then
    let a := extend t.bits a
    let b := extend u.bits b
    match p with
    | .slt => a.slt b
    | .sle => !b.slt a
    | .sgt => b.slt a
    | _ => !a.slt b
  else
    let w := max t.bits u.bits
    let a := fit t w a
    let b := fit u w b
    match p with
    | .eq => a == b
    | .ne => a != b
    | .ult => a.ult b
    | .ule => !b.ult a
    | .ugt => b.ult a
    | _ => !a.ult b

/-- The low 64 bits. -/
def low (v : Word) : UInt64 := UInt64.ofNat v.toNat

end Word

end Lockstep
