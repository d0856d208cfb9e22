import Lockstep.Sim.State

/-!
# Evaluation and execution

The value of an expression in a state, and the writes that a block of statements makes in it.
Writes are collected, not applied: every statement of a block reads the same state.
-/

namespace Lockstep.Sim

def eval (g : Symbols) (s : State) : Expr → Word
  | .hole => 0
  | .ref i => Word.truncate (g.signalType i).bits (s.read i)
  | .lit v t => Word.truncate (g.type? t).bits (Word.ofUInt64 (g.literal v))
  | .bin op l r =>
    Word.binary op (g.typeOf l) (g.typeOf r) (g.typeOf (.bin op l r)).bits (eval g s l) (eval g s r)
  | .cmp p l r =>
    if Word.holds p (g.typeOf l) (g.typeOf r) (eval g s l) (eval g s r) then 1 else 0
  | .not e => Word.truncate (g.typeOf e).bits (~~~ (eval g s e))
  | .index i e => Word.truncate (g.signalType i).bits (s.word i (eval g s e).toNat)

/-- The write of an assignment, if it has one: an index outside the memory writes nothing. -/
def assignment (g : Symbols) (s : State) (dest : SignalId) (index : Option Expr) (value : Expr) :
    Option Write :=
  let v := Word.fit (g.typeOf value) (g.signalType dest).bits (eval g s value)
  match index with
  | none => some ⟨dest, none, v⟩
  | some i =>
    let n := (eval g s i).toNat
    if n < (s.words dest).size then some ⟨dest, some n, v⟩ else none

/-- An arm is selected when the selector, a value of `w` bits, has its value at that width. -/
def selects (sel : Word) (w : Nat) (v : UInt64) : Bool :=
  sel == Word.truncate w (Word.ofUInt64 v)

mutual

def exec (g : Symbols) (s : State) : Statement → List Write
  | .blank => []
  | .assign dest index value => (assignment g s dest index value).toList
  | .cond test thn els => if eval g s test != 0 then execBlock g s thn else execBlock g s els
  | .case selector arms otherwise =>
    match execArms g s (eval g s selector) (g.typeOf selector).bits arms with
    | some ws => ws
    | none => execBlock g s otherwise

def execBlock (g : Symbols) (s : State) : List Statement → List Write
  | [] => []
  | st :: rest => exec g s st ++ execBlock g s rest

/-- The writes of the first arm that is selected. -/
def execArms (g : Symbols) (s : State) (sel : Word) (w : Nat) :
    List (UInt64 × List Statement) → Option (List Write)
  | [] => none
  | (v, body) :: rest =>
    if selects sel w v then some (execBlock g s body) else execArms g s sel w rest

end

mutual

/-- Every expression that running the statement evaluates is defined. -/
def runnable (g : Symbols) (s : State) : Statement → Bool
  | .blank => true
  | .assign _ index value => g.defined value && index.all g.defined
  | .cond test thn els =>
    g.defined test &&
      (if eval g s test != 0 then runnableBlock g s thn else runnableBlock g s els)
  | .case selector arms otherwise =>
    g.defined selector &&
      match runnableArms g s (eval g s selector) (g.typeOf selector).bits arms with
      | some ok => ok
      | none => runnableBlock g s otherwise

def runnableBlock (g : Symbols) (s : State) : List Statement → Bool
  | [] => true
  | st :: rest => runnable g s st && runnableBlock g s rest

def runnableArms (g : Symbols) (s : State) (sel : Word) (w : Nat) :
    List (UInt64 × List Statement) → Option Bool
  | [] => none
  | (v, body) :: rest =>
    if selects sel w v then some (runnableBlock g s body) else runnableArms g s sel w rest

end

end Lockstep.Sim
