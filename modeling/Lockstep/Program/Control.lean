import Lockstep.Program.Draft

/-!
# Control flow

Conditionals, loops and jumps over the states of a program. A construct closes the current state
first; targets that do not exist yet are the successors of states that do.
-/

namespace Lockstep.Program

/-- Runs the body if the test holds; gives the closing state of the branch. -/
def ifThen (test : Expr) (body : ElabM Unit) : ElabM Nat := do
  let st ← step
  pushFrame {}
  body
  let yes ← step
  let _ ← popFrame
  addGoto st ⟨test.toOption, some (.after st), some (.after yes)⟩
  modifyTop fun f => { f with closedIf := some yes }
  return yes

/-- The other branch of the conditional that was closed last, with nothing in between. -/
def orElse (body : ElabM Unit) : ElabM Nat := do
  let d ← getDraft
  match d.frames.head?.bind Frame.closedIf, d.blocks.pending with
  | some yes, false =>
    modifyTop fun f => { f with closedIf := none }
    pushFrame {}
    body
    let no ← step
    let _ ← popFrame
    addGoto yes (.jump (.after no))
    return no
  | _, _ => fail (.elseWithoutIf d.name (d.machine.size - 1))

/-- The way out of a loop state: on with the body if the test holds, else past the last state. -/
def loopEdge (test : Option Expr) (st yes : Nat) : Transition Expr :=
  match test with
  | none => .jump (.after st)
  | some e => .branch e (.after st) (.after yes)

/-- A loop: `head` is tested on entry, `tail` after each round, and `advance` ends each round. -/
def loop (head tail : Option Expr) (advance : Option Statement) (body : ElabM Unit) :
    ElabM Nat := do
  let st ← step
  pushFrame { loop := some { anchor := st + 1, advance } }
  body
  advance.forM emit
  let yes ← step
  let frame ← popFrame
  addGoto st (loopEdge head st yes)
  addGoto yes (loopEdge tail st yes)
  let f := frame.loop.getD { anchor := st + 1 }
  f.continues.forM fun c => addGoto c (loopEdge tail st yes)
  f.breaks.forM fun b => addGoto b (.jump (.after yes))
  return yes

/-- The innermost loop, not looking past the body of a function. -/
def nearestLoop : List Frame → Option LoopFrame
  | [] => none
  | f :: rest =>
    match f.loop with
    | some l => some l
    | none => if f.isBody then none else nearestLoop rest

def modifyNearest (change : LoopFrame → LoopFrame) : List Frame → List Frame
  | [] => []
  | f :: rest =>
    match f.loop with
    | some l => { f with loop := some (change l) } :: rest
    | none => if f.isBody then f :: rest else f :: modifyNearest change rest

def modifyLoop (change : LoopFrame → LoopFrame) : ElabM Unit :=
  modifyDraft fun d => { d with frames := modifyNearest change d.frames }

def breakLoop : ElabM Nat := do
  let st ← step
  let d ← getDraft
  match nearestLoop d.frames with
  | none => fail (.noLoop d.name "break" st)
  | some _ =>
    modifyLoop fun l => { l with breaks := l.breaks ++ [st] }
    return st

/-- Starts the next round. A plain loop is entered again without a test; an enumerator advances its
index and tests it first. -/
def nextRound : ElabM Nat := do
  let d ← getDraft
  match nearestLoop d.frames with
  | none => fail (.noLoop d.name "continue" d.machine.size)
  | some l =>
    match l.advance with
    | some next =>
      emit next
      let st ← step
      modifyLoop fun l => { l with continues := l.continues ++ [st] }
      return st
    | none =>
      let st ← step
      addGoto st (.jump (.state l.anchor))
      return st

/-- Goes back to the end state. -/
def terminate : ElabM Nat := do
  let st ← step
  addGoto st (.jump (.state 0))
  return st

def label (name : String) : ElabM Unit := do
  let d ← getDraft
  if (d.machine.lookup name).isSome || name = d.label then fail (.duplicateLabel d.name name)
  stepIfWaiting
  modifyDraft fun d => { d with label := name }

def goto (name : String) : ElabM Nat := do
  let st ← step
  addGoto st (.jump (.named name))
  return st

def relate (r : Relation) (a b : Expr) : ElabM Expr := do
  require ((← getSymbols).relate r a b)

/-- Runs the body with an index from zero up to `limit`. The index has the type of the limit. -/
def count (limit : Expr) (body : Expr → ElabM Unit) : ElabM Nat := do
  stepIfWaiting
  let (type, symbols) ← require ((← getSymbols).shareType limit)
  modifyModule fun m => { m with symbols }
  let i ← declare (·.declareAt "i" .reg type 0 0)
  let one : Expr := .const 1 (some type)
  let zero : Expr := .const 0 (some type)
  let advanced : Expr := .plus (.ref i) one
  emit (.assign i none zero)
  let head ← relate .lt zero limit
  let tail ← relate .lt advanced limit
  loop (some head) (some tail) (some (.assign i none advanced)) (body (.ref i))

/-- A number that is just wide enough. -/
def exactNumber (v : UInt64) : ElabM Expr := do
  let (e, symbols) := (← getSymbols).number v (bitsFor v.toNat)
  modifyModule fun m => { m with symbols }
  return e

def times (n : UInt64) (body : Expr → ElabM Unit) : ElabM Nat := do
  count (← exactNumber n) body

end Lockstep.Program
