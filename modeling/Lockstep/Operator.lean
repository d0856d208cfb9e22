/-!
# Operators

Binary operations and comparison predicates of hardware expressions, with the
numeric codes and the symbols they are known by. A code outside the table gives
an `unknown` operator: it prints as `?`, an unknown operation has the value zero
and an unknown predicate is read as unsigned greater-or-equal.
-/

namespace Lockstep

inductive BinOp where
  | add | sub | mul | and | or | xor | shl | shrU | shrS
  | unknown
deriving DecidableEq, Repr, Inhabited

namespace BinOp

def ofCode : Int → BinOp
  | 0 => .add
  | 1 => .sub
  | 2 => .mul
  | 3 => .and
  | 4 => .or
  | 5 => .xor
  | 6 => .shl
  | 7 => .shrU
  | 8 => .shrS
  | _ => .unknown

def symbol : BinOp → String
  | .add => "+"
  | .sub => "-"
  | .mul => "*"
  | .and => "&"
  | .or => "|"
  | .xor => "^"
  | .shl => "<<"
  | .shrU => ">>"
  | .shrS => ">>>"
  | .unknown => "?"

def ofSymbol? : String → Option BinOp
  | "+" => some .add
  | "-" => some .sub
  | "*" => some .mul
  | "&" => some .and
  | "|" => some .or
  | "^" => some .xor
  | "<<" => some .shl
  | ">>" => some .shrU
  | ">>>" => some .shrS
  | _ => none

/-- A shift keeps the type of its left operand. -/
def isShift : BinOp → Bool
  | .shl | .shrU | .shrS => true
  | _ => false

end BinOp

inductive Predicate where
  | eq | ne | slt | sle | sgt | sge | ult | ule | ugt | uge
  | unknown (code : Int)
deriving DecidableEq, Repr, Inhabited

namespace Predicate

def ofCode : Int → Predicate
  | 0 => .eq
  | 1 => .ne
  | 2 => .slt
  | 3 => .sle
  | 4 => .sgt
  | 5 => .sge
  | 6 => .ult
  | 7 => .ule
  | 8 => .ugt
  | 9 => .uge
  | code => .unknown code

def code : Predicate → Int
  | .eq => 0
  | .ne => 1
  | .slt => 2
  | .sle => 3
  | .sgt => 4
  | .sge => 5
  | .ult => 6
  | .ule => 7
  | .ugt => 8
  | .uge => 9
  | .unknown code => code

def symbol : Predicate → String
  | .eq => "=="
  | .ne => "!="
  | .slt | .ult => "<"
  | .sle | .ule => "<="
  | .sgt | .ugt => ">"
  | .sge | .uge => ">="
  | .unknown _ => "?"

/-- Predicates by name: `s` for signed and `u` for unsigned orderings. -/
def ofWord? : String → Option Predicate
  | "eq" => some .eq
  | "ne" => some .ne
  | "slt" => some .slt
  | "sle" => some .sle
  | "sgt" => some .sgt
  | "sge" => some .sge
  | "ult" => some .ult
  | "ule" => some .ule
  | "ugt" => some .ugt
  | "uge" => some .uge
  | _ => none

/-- Signed predicates read both operands as two's complement numbers. -/
def isSigned : Predicate → Bool
  | .slt | .sle | .sgt | .sge => true
  | _ => false

end Predicate

/-- A comparison as it is written, before operand types choose its predicate. -/
inductive Relation where
  | eq | ne | lt | le | gt | ge
deriving DecidableEq, Repr, Inhabited

namespace Relation

def unsigned : Relation → Predicate
  | .eq => .eq
  | .ne => .ne
  | .lt => .ult
  | .le => .ule
  | .gt => .ugt
  | .ge => .uge

def signed : Relation → Predicate
  | .eq => .eq
  | .ne => .ne
  | .lt => .slt
  | .le => .sle
  | .gt => .sgt
  | .ge => .sge

def ofWord? : String → Option Relation
  | "eq" => some .eq
  | "ne" => some .ne
  | "lt" => some .lt
  | "le" => some .le
  | "gt" => some .gt
  | "ge" => some .ge
  | _ => none

/-- Equality does not depend on how its operands are read. -/
def isEquality : Relation → Bool
  | .eq | .ne => true
  | _ => false

end Relation

end Lockstep
