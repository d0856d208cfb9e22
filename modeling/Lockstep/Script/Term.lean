import Lockstep.Machine
import Lockstep.Module.Dump

/-!
# Written terms

Expressions as a description writes them, with signals and bound values by name, and their
resolution against the symbols of a module. Every number is given a type of its own.
-/

namespace Lockstep.Script

inductive Term where
  | hole
  | signal (name : String)
  | number (value : UInt64) (width : Int)
  | literal (value : UInt64) (type : Option SignalType)
  /-- A literal that shares the type of a signal. -/
  | literalOf (value : UInt64) (signal : String)
  /-- A number whose width is `delta` more than that of another term. -/
  | numberLike (value : UInt64) (like : Term) (delta : Int)
  | bin (op : BinOp) (left right : Term)
  | cmp (pred : Predicate) (left right : Term)
  /-- A comparison whose predicate follows from the types of its operands. -/
  | relate (relation : Relation) (left right : Term)
  | not (operand : Term)
  | index (memory : String) (offset : Term)
  /-- A bound expression. -/
  | var (name : String)
  /-- An argument of the innermost function body. -/
  | arg (position : Int)
  /-- The value of the innermost case arm. -/
  | armValue (width : Int)
  | code (state : Int)
  | isIn (state : Int)
  /-- The sequencer is outside its end state. -/
  | alive
  /-- The run flag of the sequencer. -/
  | running
deriving Repr, Inhabited

/-- What names stand for. In each list the latest binding comes first. -/
structure Scope where
  /-- Signals declared by a program, by the name that was asked for. -/
  bound : List (String × SignalId) := []
  /-- Signals outside the module. -/
  loose : List (String × SignalId) := []
  vars : List (String × Expr) := []
  functions : List (String × Nat) := []
  /-- Arguments of the function bodies being elaborated, innermost first. -/
  formals : List (List Expr) := []
  /-- Values of the open case arms, innermost first. -/
  arms : List UInt64 := []
deriving Inhabited

/-- The machine that states are named in, and the run flag of its sequencer. -/
structure Focus where
  machine : Machine
  run : Option SignalId := none
deriving Inhabited

inductive Error where
  /-- A type that is needed is missing. -/
  | undefined
  | unknownName (name : String)
  /-- A term is used where it has no meaning. -/
  | misplaced (what : String)
deriving DecidableEq, Repr, Inhabited

def Error.message : Error → String
  | .undefined => "undefined expression"
  | .unknownName name => "unknown name " ++ name
  | .misplaced what => what ++ " has no meaning here"

/-- Resolution may add types to the module. -/
abbrev Resolve := StateT Module (Except Error)

namespace Scope

def signal? (sc : Scope) (m : Module) (name : String) : Option SignalId :=
  sc.bound.lookup name <|> m.signal? name <|> sc.loose.lookup name

def signal (sc : Scope) (name : String) : Resolve SignalId := do
  match sc.signal? (← get) name with
  | some i => return i
  | none => throw (.unknownName name)

/-- An argument of the innermost function body, counted from zero. -/
def argument? (sc : Scope) (position : Int) : Option Expr := do
  let args ← sc.formals.head?
  if position < 0 then none else args[position.toNat]?

def bindVar (sc : Scope) (name : String) (e : Expr) : Scope :=
  { sc with vars := (name, e) :: sc.vars }

def bindVar? (sc : Scope) (name : Option String) (e : Expr) : Scope :=
  match name with
  | some name => sc.bindVar name e
  | none => sc

end Scope

/-- A value that must be there. -/
def need {α : Type} (e : Error) : Option α → Resolve α
  | some a => return a
  | none => throw e

def newType (t : SignalType) : Resolve TypeId := modifyGet (·.newType t)

def newNumber (v : UInt64) (width : Int) : Resolve Expr := do
  return .const v (← newType (.unsigned width))

def Term.resolve (sc : Scope) (focus : Option Focus) : Term → Resolve Expr
  | .hole => return .hole
  | .signal name => return .ref (← sc.signal name)
  | .number v w => newNumber v w
  | .literal v none => return .const v none
  | .literal v (some t) => return .const v (← newType t)
  | .literalOf v name => do
    let i ← sc.signal name
    return .const v ((← get).symbols.signals[i]?.bind Signal.type)
  | .numberLike v like delta => do
    let e ← like.resolve sc focus
    let t ← need .undefined ((← get).symbols.knownType e)
    newNumber v (wrapSigned (t.width + delta))
  | .bin op l r => return .bin op (← l.resolve sc focus) (← r.resolve sc focus)
  | .cmp p l r => return .cmp p (← l.resolve sc focus) (← r.resolve sc focus)
  | .relate rel l r => do
    let l ← l.resolve sc focus
    let r ← r.resolve sc focus
    need .undefined ((← get).symbols.relate rel l r)
  | .not e => return .not (← e.resolve sc focus)
  | .index name e => return .index (← sc.signal name) (← e.resolve sc focus)
  | .var name => need (.unknownName name) (sc.vars.lookup name)
  | .arg n => need .undefined (sc.argument? n)
  | .armValue w => do newNumber (← need (.misplaced "arm value") sc.arms.head?) w
  | .code id => do return (← need (.misplaced "state code") focus).machine.codeExpr id
  | .isIn id => do return (← need (.misplaced "state test") focus).machine.isIn id
  | .alive => do return (← need (.misplaced "alive") focus).machine.isNotIn 0
  | .running => return .ref (← need (.misplaced "run flag") (focus.bind Focus.run))

/-- A statement as it is written. -/
abbrev Stmt := Lockstep.Stmt String Term

def resolveBlock (sc : Scope) (focus : Option Focus) (body : List Stmt) :
    Resolve (List Statement) :=
  Stmt.traverseBlock sc.signal (Term.resolve sc focus)
    (fun t => return (← t.resolve sc focus).toOption) body

def resolveTarget (sc : Scope) (focus : Option Focus) : Target Term → Resolve (Target Expr)
  | .state id => return .state id
  | .after id => return .after id
  | .named name => return .named name
  | .computed t => return .computed (← t.resolve sc focus)

def resolveTransition (sc : Scope) (focus : Option Focus) (t : Transition Term) :
    Resolve (Transition Expr) := do
  let guard ← t.guard.mapM (Term.resolve sc focus)
  let target ← t.target.mapM (resolveTarget sc focus)
  let otherwise ← t.otherwise.mapM (resolveTarget sc focus)
  return ⟨guard.bind Expr.toOption, target, otherwise⟩

/-- An expression with what is known about it. -/
structure Shown where
  text : String
  /-- The type of an expression that is not left out. -/
  type : Option TypeSlot
  pred : Option Predicate
deriving Repr, Inhabited

/-- None if the type of the expression cannot be computed. -/
def shown (s : Symbols) (e : Expr) : Option Shown :=
  let text := s.exprText e
  match e with
  | .hole => some ⟨text, none, none⟩
  | .cmp p .. => some ⟨text, some (s.typeOf e), some p⟩
  | _ => if s.typed e then some ⟨text, some (s.typeOf e), none⟩ else none

end Lockstep.Script
