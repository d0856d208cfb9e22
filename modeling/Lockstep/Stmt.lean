import Lockstep.Expr

/-!
# Statements

Statements of a process, over any kind `σ` of signal reference and `ε` of expression:
once with names as they are written, once resolved against a symbol table.
-/

namespace Lockstep

inductive Stmt (σ ε : Type) where
  /-- A statement that was left out. It has no effect. -/
  | blank
  /-- Writes `value` into `dest`, or into one word of it. -/
  | assign (dest : σ) (index : Option ε) (value : ε)
  | cond (test : ε) (thn els : List (Stmt σ ε))
  /-- The first arm whose value the selector has, else `otherwise`. -/
  | case (selector : ε) (arms : List (UInt64 × List (Stmt σ ε))) (otherwise : List (Stmt σ ε))
deriving Repr, Inhabited

abbrev Block (σ ε : Type) := List (Stmt σ ε)

/-- A statement over the symbols of a module. -/
abbrev Statement := Stmt SignalId Expr

section Traverse

variable {m : Type → Type} [Monad m] {σ ε σ' ε' : Type}
variable (signal : σ → m σ') (expr : ε → m ε') (place : ε → m (Option ε'))

mutual

/-- Maps every signal and expression; `place` is used for the index of an assignment,
which it may leave out. -/
def Stmt.traverse : Stmt σ ε → m (Stmt σ' ε')
  | .blank => return .blank
  | .assign dest index value => do
    let dest ← signal dest
    let index ← match index with
      | some i => place i
      | none => pure none
    return .assign dest index (← expr value)
  | .cond test thn els => do
    return .cond (← expr test) (← traverseBlock thn) (← traverseBlock els)
  | .case selector arms otherwise => do
    return .case (← expr selector) (← traverseArms arms) (← traverseBlock otherwise)

def Stmt.traverseBlock : List (Stmt σ ε) → m (List (Stmt σ' ε'))
  | [] => return []
  | s :: rest => return (← s.traverse) :: (← traverseBlock rest)

def Stmt.traverseArms :
    List (UInt64 × List (Stmt σ ε)) → m (List (UInt64 × List (Stmt σ' ε')))
  | [] => return []
  | (v, body) :: rest => return (v, ← traverseBlock body) :: (← traverseArms rest)

end

end Traverse

end Lockstep
