import Lockstep.Blocks
import Mathlib

/-!
# Replaying a tree of statements

Blocks are collected on a stack while callbacks of any depth run in between. Replaying a tree of
statements through these calls, with callbacks that replay its branches, adds exactly this tree to
the block that was innermost before. What a callback needs to know about the block it runs in is only
that it is open: it adds its statements there and leaves all blocks around it as they are.
-/

namespace Lockstep.Blocks

/-- Every open block, innermost first; the last is the outermost one. -/
def openBlocks (b : Blocks) : List (List Statement) := b.inner ++ [b.outer]

/-- Adds statements to the innermost open block. -/
def extend (b : Blocks) (body : List Statement) : Blocks :=
  match b.inner with
  | [] => { b with outer := b.outer ++ body }
  | block :: rest => { b with inner := (block ++ body) :: rest }

theorem extend_nil (b : Blocks) : b.extend [] = b := by
  obtain ⟨outer, _ | ⟨block, rest⟩⟩ := b <;> simp [extend]

theorem extend_extend (b : Blocks) (body body' : List Statement) :
    (b.extend body).extend body' = b.extend (body ++ body') := by
  obtain ⟨outer, _ | ⟨block, rest⟩⟩ := b <;> simp [extend]

theorem leave_extend_enter (b : Blocks) (body : List Statement) :
    (b.enter.extend body).leave = (body, b) := rfl

theorem openBlocks_extend (b : Blocks) (body : List Statement) :
    (b.extend body).openBlocks = (b.openBlocks.headD [] ++ body) :: b.openBlocks.tail := by
  obtain ⟨outer, _ | ⟨block, rest⟩⟩ := b <;> rfl

theorem depth_extend (b : Blocks) (body : List Statement) : (b.extend body).depth = b.depth := by
  obtain ⟨outer, _ | ⟨block, rest⟩⟩ := b <;> rfl

/-- A replay counts the arms it has begun, for each case under way, innermost first. -/
abbrev Replay := StateT Blocks (StateM (List Nat))

/-- All arms of a case share one callback. Its calls replay one arm after the other. -/
def nextArm (arms : List (Replay Unit)) : Replay Unit := do
  let n ← modifyGetThe (List Nat) fun ns => (ns.headD 0, (ns.headD 0 + 1) :: ns.tail)
  arms.getD n (pure ())

mutual

/-- Makes the calls that build a statement. A branch without statements is the callback that does
nothing, as is one that is left out. -/
def replay : Statement → Replay Unit
  | .blank => emitM .blank
  | .assign dest index value => emitM (.assign dest index value)
  | .cond test thn els => do
    let _ ← emitCond test (replayBlock thn) (replayBlock els)
  | .case selector arms otherwise => do
    modifyThe (List Nat) (0 :: ·)
    let _ ← emitCase selector (arms.map Prod.fst) (fun _ => nextArm (replayArms arms))
      (replayBlock otherwise)
    modifyThe (List Nat) List.tail

def replayBlock : List Statement → Replay Unit
  | [] => pure ()
  | st :: rest => do
    replay st
    replayBlock rest

def replayArms : List (UInt64 × List Statement) → List (Replay Unit)
  | [] => []
  | (_, body) :: rest => replayBlock body :: replayArms rest

end

/-- From any blocks, the callback adds the statements to the innermost one. -/
def Adds (c : Replay Unit) (body : List Statement) : Prop :=
  ∀ b ns, (c.run b).run ns = (((), b.extend body), ns)

theorem replayArms_eq_map (arms : List (UInt64 × List Statement)) :
    replayArms arms = arms.map fun arm => replayBlock arm.2 := by
  induction arms with
  | nil => rfl
  | cons arm arms ih => rw [replayArms, ih, List.map_cons]

theorem run_bind_of {α β : Type} {x : Replay α} {f : α → Replay β} {a : α} {b b' : Blocks}
    {ns ns' : List Nat} (h : (x.run b).run ns = ((a, b'), ns')) :
    ((x >>= f).run b).run ns = ((f a).run b').run ns' := by
  have hrun : ((x >>= f).run b).run ns =
      ((f ((x.run b).run ns).1.1).run ((x.run b).run ns).1.2).run ((x.run b).run ns).2 := rfl
  rw [hrun, h]

theorem adds_emit (st : Statement) : Adds (emitM st) [st] := by
  rintro ⟨outer, _ | ⟨block, rest⟩⟩ ns <;> rfl

theorem Adds.seq {c c' : Replay Unit} {body body' : List Statement} (h : Adds c body)
    (h' : Adds c' body') : Adds (do c; c') (body ++ body') := by
  intro b ns
  rw [run_bind_of (h b ns), h' _ ns, extend_extend]

theorem run_collect {c : Replay Unit} {body : List Statement} {b : Blocks} {ns ns' : List Nat}
    (h : (c.run b.enter).run ns = (((), b.enter.extend body), ns')) :
    ((collect c).run b).run ns = ((body, b), ns') := by
  have hrun : ((collect c).run b).run ns =
      (((c.run b.enter).run ns).1.2.leave, ((c.run b.enter).run ns).2) := rfl
  rw [hrun, h, leave_extend_enter]

theorem adds_cond (test : Expr) {thn els : List Statement} (ht : Adds (replayBlock thn) thn)
    (he : Adds (replayBlock els) els) : Adds (replay (.cond test thn els)) [.cond test thn els] := by
  intro b ns
  have hcond : ((emitCond test (replayBlock thn) (replayBlock els)).run b).run ns =
      (((thn, els), b.extend [.cond test thn els]), ns) := by
    rw [emitCond, run_bind_of (run_collect (ht b.enter ns)), run_bind_of (run_collect (he b.enter ns)),
      run_bind_of (adds_emit _ b ns)]
    rfl
  rw [replay, run_bind_of hcond]
  rfl

/-- The arms of a case from one of them on, at which its callback has arrived. -/
theorem run_collectArms (before : List (UInt64 × List Statement))
    {rest : List (UInt64 × List Statement)} (h : ∀ arm ∈ rest, Adds (replayBlock arm.2) arm.2)
    (b : Blocks) (ns : List Nat) :
    ((collectArms (fun _ => nextArm (replayArms (before ++ rest))) (rest.map Prod.fst)).run b).run
        (before.length :: ns) = ((rest, b), (before ++ rest).length :: ns) := by
  induction rest generalizing before with
  | nil => rw [List.append_nil]; rfl
  | cons arm rest ih =>
    have harm : ((nextArm (replayArms (before ++ arm :: rest))).run b.enter).run (before.length :: ns) =
        (((), b.enter.extend arm.2), (before.length + 1) :: ns) := by
      have hrun : ((nextArm (replayArms (before ++ arm :: rest))).run b.enter).run
            (before.length :: ns) =
          (((replayArms (before ++ arm :: rest)).getD before.length (pure ())).run b.enter).run
            ((before.length + 1) :: ns) := rfl
      rw [hrun, replayArms_eq_map]
      simpa using h arm List.mem_cons_self b.enter _
    have hrest := ih (before ++ [arm]) fun a ha => h a (List.mem_cons_of_mem arm ha)
    rw [List.append_assoc, List.singleton_append, List.length_append, List.length_singleton] at hrest
    rw [List.map_cons, collectArms, run_bind_of (run_collect harm), run_bind_of hrest]
    rfl

theorem adds_case (selector : Expr) {arms : List (UInt64 × List Statement)}
    {otherwise : List Statement} (ha : ∀ arm ∈ arms, Adds (replayBlock arm.2) arm.2)
    (ho : Adds (replayBlock otherwise) otherwise) :
    Adds (replay (.case selector arms otherwise)) [.case selector arms otherwise] := by
  intro b ns
  have hcase : ((emitCase selector (arms.map Prod.fst) (fun _ => nextArm (replayArms arms))
      (replayBlock otherwise)).run b).run (0 :: ns) =
      (((arms, otherwise), b.extend [.case selector arms otherwise]), arms.length :: ns) := by
    have harms := run_collectArms [] ha b ns
    rw [List.nil_append, List.length_nil] at harms
    rw [emitCase, run_bind_of harms, run_bind_of (run_collect (ho b.enter _)),
      run_bind_of (adds_emit _ b _)]
    rfl
  have hbegin : ((modifyThe (List Nat) (0 :: ·) : Replay Unit).run b).run ns =
      (((), b), 0 :: ns) := rfl
  rw [replay, run_bind_of hbegin, run_bind_of hcase]
  rfl

mutual

theorem adds_replay : ∀ st : Statement, Adds (replay st) [st]
  | .blank => adds_emit _
  | .assign .. => adds_emit _
  | .cond test thn els => adds_cond test (adds_replayBlock thn) (adds_replayBlock els)
  | .case selector arms otherwise =>
    adds_case selector (adds_replayArms arms) (adds_replayBlock otherwise)

theorem adds_replayBlock : ∀ body : List Statement, Adds (replayBlock body) body
  | [] => fun b ns => by rw [extend_nil]; rfl
  | st :: rest => by
    rw [replayBlock]
    exact (adds_replay st).seq (adds_replayBlock rest)

theorem adds_replayArms :
    ∀ arms : List (UInt64 × List Statement), ∀ arm ∈ arms, Adds (replayBlock arm.2) arm.2
  | [] => List.forall_mem_nil _
  | (_, body) :: rest =>
    List.forall_mem_cons.mpr ⟨adds_replayBlock body, adds_replayArms rest⟩

end

/-- Replaying a tree of statements adds exactly this tree to the block that was innermost before, and
leaves every other open block and the depth as they were. Outside of all conditionals, the statements
taken after it are those that were pending before, followed by the tree, and nothing is left. -/
theorem replay_builds_tree (body : List Statement) (ns : List Nat) :
    (∀ b : Blocks, ∃ b' : Blocks, ((replayBlock body).run b).run ns = (((), b'), ns) ∧
      b'.openBlocks = (b.openBlocks.headD [] ++ body) :: b.openBlocks.tail ∧ b'.depth = b.depth) ∧
    ∀ waiting : List Statement, ∃ b' : Blocks,
      (StateT.run (do replayBlock body; modifyGet take : Replay (List Statement))
        ⟨waiting, []⟩).run ns = ((waiting ++ body, b'), ns) ∧ b'.pending = false ∧ b'.depth = 0 := by
  have hbody := adds_replayBlock body
  refine ⟨fun b => ⟨b.extend body, hbody b ns, b.openBlocks_extend body, b.depth_extend body⟩,
    fun waiting => ⟨{}, ?_, rfl, rfl⟩⟩
  rw [run_bind_of (hbody ⟨waiting, []⟩ ns)]
  rfl

end Lockstep.Blocks
