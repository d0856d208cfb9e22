import Lockstep.SignalType

/-!
# Expressions

Expressions over the signals of a module. Signals, types and late constants are
referred to by their position in the module's symbol table, so that a type that is
resolved later is seen by every expression that mentions it.
-/

namespace Lockstep

/-- Position of a type in the symbol table. Signals and literals that share one share every
later change of it. -/
abbrev TypeId := Nat

/-- Position of a signal in the symbol table. -/
abbrev SignalId := Nat

/-- Position of a late constant in the symbol table. -/
abbrev LinkId := Nat

inductive Literal where
  | value (v : UInt64)
  /-- A constant that is settled after the expression was built. -/
  | link (id : LinkId)
deriving DecidableEq, Repr, Inhabited

inductive Expr where
  /-- An operand that was left out. -/
  | hole
  | ref (signal : SignalId)
  | lit (value : Literal) (type : Option TypeId)
  | bin (op : BinOp) (left right : Expr)
  | cmp (pred : Predicate) (left right : Expr)
  | not (operand : Expr)
  | index (memory : SignalId) (offset : Expr)
deriving DecidableEq, Repr, Inhabited

namespace Expr

def const (v : UInt64) (type : Option TypeId) : Expr := .lit (.value v) type

def plus (a b : Expr) : Expr := .bin .add a b

def minus (a b : Expr) : Expr := .bin .sub a b

/-- An expression in a place that may stay empty. -/
def toOption : Expr → Option Expr
  | .hole => none
  | e => some e

end Expr

end Lockstep
