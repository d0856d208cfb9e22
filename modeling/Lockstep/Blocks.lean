import Lockstep.Stmt

/-!
# Blocks under construction

Statements collected in program order. A conditional opens a block of its own, which is closed when
its branch is complete; statements always go to the innermost open block.
-/

namespace Lockstep

structure Blocks where
  /-- The outermost block. -/
  outer : List Statement := []
  /-- Open conditional blocks, innermost first. -/
  inner : List (List Statement) := []
deriving Inhabited

namespace Blocks

def depth (b : Blocks) : Nat := b.inner.length

def emit (b : Blocks) (st : Statement) : Blocks :=
  match b.inner with
  | [] => { b with outer := b.outer ++ [st] }
  | block :: rest => { b with inner := (block ++ [st]) :: rest }

/-- The outermost block holds statements. -/
def pending (b : Blocks) : Bool := !b.outer.isEmpty

/-- Removes every statement of the outermost block. -/
def take (b : Blocks) : List Statement × Blocks := (b.outer, { b with outer := [] })

def enter (b : Blocks) : Blocks := { b with inner := [] :: b.inner }

/-- Closes the innermost open block. -/
def leave (b : Blocks) : List Statement × Blocks :=
  match b.inner with
  | [] => ([], b)
  | block :: rest => (block, { b with inner := rest })

section

variable {m : Type → Type} [Monad m] [MonadStateOf Blocks m]

def emitM (st : Statement) : m Unit := modify (·.emit st)

/-- The statements that `body` emits, in a block of their own. -/
def collect (body : m Unit) : m (List Statement) := do
  modify (σ := Blocks) enter
  body
  modifyGet (σ := Blocks) leave

/-- Emits a conditional with the statements of the two branches. -/
def emitCond (test : Expr) (thn els : m Unit) : m (List Statement × List Statement) := do
  let thn ← collect thn
  let els ← collect els
  emitM (.cond test thn els)
  return (thn, els)

/-- The arms for the given values, each with the statements that `arm` emits for it. -/
def collectArms (arm : UInt64 → m Unit) : List UInt64 → m (List (UInt64 × List Statement))
  | [] => return []
  | v :: rest => return (v, ← collect (arm v)) :: (← collectArms arm rest)

/-- Emits a case over the given values. -/
def emitCase (selector : Expr) (values : List UInt64) (arm : UInt64 → m Unit)
    (otherwise : m Unit) : m (List (UInt64 × List Statement) × List Statement) := do
  let arms ← collectArms arm values
  let otherwise ← collect otherwise
  emitM (.case selector arms otherwise)
  return (arms, otherwise)

end

end Blocks

end Lockstep
