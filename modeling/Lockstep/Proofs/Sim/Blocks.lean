import Lockstep.Proofs.Sim.Store

/-!
# Destinations and operands of a block

The signals that the statements of a block can write, and those that its expressions read. The
writes of a block go to its destinations, and depend on a state only through what the block reads.
-/

namespace Lockstep

namespace Expr

/-- The signals and memories whose contents the value depends on. -/
def reads : Expr → List SignalId
  | .hole | .lit .. => []
  | .ref i => [i]
  | .bin _ l r | .cmp _ l r => l.reads ++ r.reads
  | .not e => e.reads
  | .index i e => i :: e.reads

end Expr

namespace Stmt

variable {i : SignalId}

mutual

/-- The signals that a statement assigns, on any path. -/
def dests : Statement → List SignalId
  | .blank => []
  | .assign dest _ _ => [dest]
  | .cond _ thn els => blockDests thn ++ blockDests els
  | .case _ arms otherwise => armDests arms ++ blockDests otherwise

def blockDests : List Statement → List SignalId
  | [] => []
  | st :: rest => dests st ++ blockDests rest

def armDests : List (UInt64 × List Statement) → List SignalId
  | [] => []
  | (_, body) :: rest => blockDests body ++ armDests rest

end

mutual

/-- The signals that the expressions of a statement read, on any path. An indexed assignment also
asks for the size of its memory, which never changes. -/
def reads : Statement → List SignalId
  | .blank => []
  | .assign _ index value => (index.elim [] Expr.reads) ++ value.reads
  | .cond test thn els => test.reads ++ blockReads thn ++ blockReads els
  | .case selector arms otherwise => selector.reads ++ armReads arms ++ blockReads otherwise

def blockReads : List Statement → List SignalId
  | [] => []
  | st :: rest => reads st ++ blockReads rest

def armReads : List (UInt64 × List Statement) → List SignalId
  | [] => []
  | (_, body) :: rest => blockReads body ++ armReads rest

end

mutual

/-- A statement and all statements in it, at any depth. -/
def nested : Statement → List Statement
  | .blank => [.blank]
  | .assign dest index value => [.assign dest index value]
  | .cond test thn els => .cond test thn els :: (nestedBlock thn ++ nestedBlock els)
  | .case selector arms otherwise =>
    .case selector arms otherwise :: (nestedArms arms ++ nestedBlock otherwise)

def nestedBlock : List Statement → List Statement
  | [] => []
  | st :: rest => nested st ++ nestedBlock rest

def nestedArms : List (UInt64 × List Statement) → List Statement
  | [] => []
  | (_, body) :: rest => nestedBlock body ++ nestedArms rest

end

/-- The expressions of a statement itself, without those of the statements in it. -/
def operands : Statement → List Expr
  | .blank => []
  | .assign _ index value => index.toList ++ [value]
  | .cond test _ _ => [test]
  | .case selector _ _ => [selector]

@[simp] theorem blockDests_append (a b : List Statement) :
    blockDests (a ++ b) = blockDests a ++ blockDests b := by
  induction a with
  | nil => simp [blockDests]
  | cons st a ih => simp [blockDests, ih]

@[simp] theorem nestedBlock_append (a b : List Statement) :
    nestedBlock (a ++ b) = nestedBlock a ++ nestedBlock b := by
  induction a with
  | nil => simp [nestedBlock]
  | cons st a ih => simp [nestedBlock, ih]

theorem exists_of_mem_blockDests {body : List Statement} (hi : i ∈ blockDests body) :
    ∃ st ∈ body, i ∈ dests st := by
  induction body with
  | nil => simp [blockDests] at hi
  | cons st body ih =>
    rw [blockDests, List.mem_append] at hi
    rcases hi with hi | hi
    · exact ⟨st, List.mem_cons_self, hi⟩
    · obtain ⟨st', hst', hi'⟩ := ih hi
      exact ⟨st', List.mem_cons_of_mem st hst', hi'⟩

theorem exists_of_mem_armDests {arms : List (UInt64 × List Statement)} (hi : i ∈ armDests arms) :
    ∃ v body, (v, body) ∈ arms ∧ i ∈ blockDests body := by
  induction arms with
  | nil => simp [armDests] at hi
  | cons arm arms ih =>
    obtain ⟨v, body⟩ := arm
    rw [armDests, List.mem_append] at hi
    rcases hi with hi | hi
    · exact ⟨v, body, List.mem_cons_self, hi⟩
    · obtain ⟨v', body', hmem, hi'⟩ := ih hi
      exact ⟨v', body', List.mem_cons_of_mem _ hmem, hi'⟩

theorem mem_armDests {v : UInt64} {body : List Statement} {arms : List (UInt64 × List Statement)}
    (ha : (v, body) ∈ arms) (hi : i ∈ blockDests body) : i ∈ armDests arms := by
  induction arms with
  | nil => simp at ha
  | cons arm arms ih =>
    obtain ⟨v', body'⟩ := arm
    rw [armDests, List.mem_append]
    rcases List.mem_cons.mp ha with h | ha
    · obtain ⟨-, rfl⟩ := Prod.mk.inj h
      exact Or.inl hi
    · exact Or.inr (ih ha)

end Stmt

namespace Sim

variable {value : Expr} {index : Option Expr} {dest : SignalId} {s : State} {g : Symbols}
  {w : Write}

theorem assignment_dest (h : w ∈ (assignment g s dest index value).toList) : w.dest = dest := by
  unfold assignment at h
  split at h
  · simp at h; simp [h]
  · dsimp only at h
    split at h <;> simp at h
    simp [h]

mutual

variable {s : State} {g : Symbols} {w : Write}

theorem exec_dest :
    ∀ (st : Statement), w ∈ exec g s st → w.dest ∈ st.dests
  | .blank, h => by simp [exec] at h
  | .assign dest index value, h => by
    rw [exec] at h
    simpa [Stmt.dests] using assignment_dest h
  | .cond test thn els, h => by
    rw [exec] at h
    rw [Stmt.dests, List.mem_append]
    split at h
    · exact Or.inl (execBlock_dest thn h)
    · exact Or.inr (execBlock_dest els h)
  | .case selector arms otherwise, h => by
    rw [exec] at h
    rw [Stmt.dests, List.mem_append]
    split at h
    · next ws hws => exact Or.inl (execArms_dest arms hws h)
    · exact Or.inr (execBlock_dest otherwise h)

theorem execBlock_dest :
    ∀ (body : List Statement), w ∈ execBlock g s body → w.dest ∈ Stmt.blockDests body
  | [], h => by simp [execBlock] at h
  | st :: rest, h => by
    rw [execBlock, List.mem_append] at h
    rw [Stmt.blockDests, List.mem_append]
    exact h.imp (exec_dest st) (execBlock_dest rest)

theorem execArms_dest {sel : Word} {width : Nat} {ws : List Write} :
    ∀ (arms : List (UInt64 × List Statement)), execArms g s sel width arms = some ws → w ∈ ws →
      w.dest ∈ Stmt.armDests arms
  | [], h, _ => by simp [execArms] at h
  | (v, body) :: rest, h, hw => by
    rw [execArms] at h
    rw [Stmt.armDests, List.mem_append]
    split at h
    · cases h
      exact Or.inl (execBlock_dest body hw)
    · exact Or.inr (execArms_dest rest h hw)

end

@[simp] theorem execBlock_append (g : Symbols) (s : State) (a b : List Statement) :
    execBlock g s (a ++ b) = execBlock g s a ++ execBlock g s b := by
  induction a with
  | nil => simp [execBlock]
  | cons st a ih => simp [execBlock, ih]

theorem execBlock_eq_flatMap (g : Symbols) (s : State) (body : List Statement) :
    execBlock g s body = body.flatMap (exec g s) := by
  induction body with
  | nil => rfl
  | cons st body ih => rw [execBlock, List.flatMap_cons, ih]

/-- A block that does not assign a signal leaves it alone. -/
theorem not_mem_execBlock {body : List Statement} {i : SignalId} (h : i ∉ Stmt.blockDests body) :
    ∀ w ∈ execBlock g s body, w.dest ≠ i := by
  intro w hw he
  exact h (he ▸ execBlock_dest body hw)

/-- Every evaluation ends in a conversion to the width of its type. -/
theorem eval_lt (g : Symbols) (s : State) (e : Expr) :
    (eval g s e).toNat < 2 ^ (g.typeOf e).bits := by
  cases e with
  | hole => exact Nat.one_pos
  | ref i | lit v t => exact Word.truncate_lt _ _
  | bin op l r => exact Word.binary_lt ..
  | cmp p l r =>
    have hbits : (g.typeOf (.cmp p l r)).bits = 1 := by rfl
    rw [hbits, eval]
    split <;> decide
  | not e | index i e => exact Word.truncate_lt _ _

theorem eval_congr {t : State} :
    ∀ (e : Expr), (∀ i ∈ e.reads, State.SameAt s t i) → eval g s e = eval g t e
  | .hole, _ => rfl
  | .lit .., _ => rfl
  | .ref i, h => by
    rw [eval, eval, (h i (by simp [Expr.reads])).read]
  | .bin op l r, h => by
    rw [eval, eval, eval_congr l fun i hi => h i (by simp [Expr.reads, hi]),
      eval_congr r fun i hi => h i (by simp [Expr.reads, hi])]
  | .cmp p l r, h => by
    rw [eval, eval, eval_congr l fun i hi => h i (by simp [Expr.reads, hi]),
      eval_congr r fun i hi => h i (by simp [Expr.reads, hi])]
  | .not e, h => by
    rw [eval, eval, eval_congr e fun i hi => h i (by simp [Expr.reads, hi])]
  | .index i e, h => by
    rw [eval, eval, eval_congr e fun j hj => h j (by simp [Expr.reads, hj]),
      (h i (by simp [Expr.reads])).word]

theorem assignment_congr {t : State} (hsize : (s.words dest).size = (t.words dest).size)
    (h : ∀ i ∈ (Stmt.assign dest index value : Statement).reads, State.SameAt s t i) :
    assignment g s dest index value = assignment g t dest index value := by
  have hv : eval g s value = eval g t value :=
    eval_congr value fun i hi => h i (by simp [Stmt.reads, hi])
  cases index with
  | none => simp only [assignment, hv]
  | some e =>
    have he : eval g s e = eval g t e := eval_congr e fun i hi => h i (by simp [Stmt.reads, hi])
    simp only [assignment, hv, he, hsize]

mutual

variable {s t : State} {g : Symbols}

/-- A statement sees of a state only what it reads, and the sizes of the memories. -/
theorem exec_congr (hsize : ∀ i, (s.words i).size = (t.words i).size) :
    ∀ (st : Statement), (∀ i ∈ st.reads, State.SameAt s t i) → exec g s st = exec g t st
  | .blank, _ => rfl
  | .assign dest index value, h => by
    rw [exec, exec, assignment_congr (hsize dest) h]
  | .cond test thn els, h => by
    rw [exec, exec, eval_congr test fun i hi => h i (by simp [Stmt.reads, hi]),
      execBlock_congr hsize thn fun i hi => h i (by simp [Stmt.reads, hi]),
      execBlock_congr hsize els fun i hi => h i (by simp [Stmt.reads, hi])]
  | .case selector arms otherwise, h => by
    rw [exec, exec, eval_congr selector fun i hi => h i (by simp [Stmt.reads, hi]),
      execArms_congr hsize arms fun i hi => h i (by simp [Stmt.reads, hi]),
      execBlock_congr hsize otherwise fun i hi => h i (by simp [Stmt.reads, hi])]

theorem execBlock_congr (hsize : ∀ i, (s.words i).size = (t.words i).size) :
    ∀ (body : List Statement), (∀ i ∈ Stmt.blockReads body, State.SameAt s t i) →
      execBlock g s body = execBlock g t body
  | [], _ => rfl
  | st :: rest, h => by
    rw [execBlock, execBlock, exec_congr hsize st fun i hi => h i (by simp [Stmt.blockReads, hi]),
      execBlock_congr hsize rest fun i hi => h i (by simp [Stmt.blockReads, hi])]

theorem execArms_congr (hsize : ∀ i, (s.words i).size = (t.words i).size) {sel : Word}
    {width : Nat} :
    ∀ (arms : List (UInt64 × List Statement)), (∀ i ∈ Stmt.armReads arms, State.SameAt s t i) →
      execArms g s sel width arms = execArms g t sel width arms
  | [], _ => rfl
  | (v, body) :: rest, h => by
    rw [execArms, execArms, execBlock_congr hsize body fun i hi => h i (by simp [Stmt.armReads, hi]),
      execArms_congr hsize rest fun i hi => h i (by simp [Stmt.armReads, hi])]

end

mutual

variable {s t : State} {g : Symbols}

/-- Whether a statement can be run depends on what it reads alone. -/
theorem runnable_congr :
    ∀ (st : Statement), (∀ i ∈ st.reads, State.SameAt s t i) → runnable g s st = runnable g t st
  | .blank, _ => rfl
  | .assign .., _ => rfl
  | .cond test thn els, h => by
    rw [runnable, runnable, eval_congr test fun i hi => h i (by simp [Stmt.reads, hi]),
      runnableBlock_congr thn fun i hi => h i (by simp [Stmt.reads, hi]),
      runnableBlock_congr els fun i hi => h i (by simp [Stmt.reads, hi])]
  | .case selector arms otherwise, h => by
    rw [runnable, runnable, eval_congr selector fun i hi => h i (by simp [Stmt.reads, hi]),
      runnableArms_congr arms fun i hi => h i (by simp [Stmt.reads, hi]),
      runnableBlock_congr otherwise fun i hi => h i (by simp [Stmt.reads, hi])]

theorem runnableBlock_congr :
    ∀ (body : List Statement), (∀ i ∈ Stmt.blockReads body, State.SameAt s t i) →
      runnableBlock g s body = runnableBlock g t body
  | [], _ => rfl
  | st :: rest, h => by
    rw [runnableBlock, runnableBlock, runnable_congr st fun i hi => h i (by simp [Stmt.blockReads, hi]),
      runnableBlock_congr rest fun i hi => h i (by simp [Stmt.blockReads, hi])]

theorem runnableArms_congr {sel : Word} {width : Nat} :
    ∀ (arms : List (UInt64 × List Statement)), (∀ i ∈ Stmt.armReads arms, State.SameAt s t i) →
      runnableArms g s sel width arms = runnableArms g t sel width arms
  | [], _ => rfl
  | (v, body) :: rest, h => by
    rw [runnableArms, runnableArms,
      runnableBlock_congr body fun i hi => h i (by simp [Stmt.armReads, hi]),
      runnableArms_congr rest fun i hi => h i (by simp [Stmt.armReads, hi])]

end

/-- An arm value below the bound of the selector's width is compared as it is. -/
theorem selects_iff {sel : Word} {w : Nat} {v : UInt64} (hv : v.toNat < 2 ^ w) :
    selects sel w v = true ↔ sel = Word.ofUInt64 v := by
  rw [selects, Word.truncate_of_lt (by simpa using hv), beq_iff_eq]

/-- Every write of a block has been converted to the width of its destination. -/
def Write.Fits (g : Symbols) (w : Write) : Prop :=
  w.value.toNat < 2 ^ (g.signalType w.dest).bits

theorem assignment_fits (h : w ∈ (assignment g s dest index value).toList) : w.Fits g := by
  unfold assignment at h
  split at h
  · simp at h; subst h; exact Word.fit_lt ..
  · dsimp only at h
    split at h <;> simp at h
    subst h
    exact Word.fit_lt ..

theorem assignment_inBounds {n : Nat} (h : w ∈ (assignment g s dest index value).toList)
    (hn : w.index = some n) : n < (s.words w.dest).size := by
  unfold assignment at h
  split at h
  · simp at h; subst h; simp at hn
  · dsimp only at h
    split at h <;> simp at h
    subst h
    exact Option.some.inj hn ▸ ‹_›

mutual

variable {s : State} {g : Symbols} {w : Write}

/-- Every write is that of an assignment in the statement. -/
theorem exec_assignment :
    ∀ (st : Statement), w ∈ exec g s st → ∃ dest index value,
      .assign dest index value ∈ st.nested ∧ w ∈ (assignment g s dest index value).toList
  | .blank, h => by simp [exec] at h
  | .assign dest index value, h => ⟨dest, index, value, by simp [Stmt.nested], by rwa [exec] at h⟩
  | .cond test thn els, h => by
    rw [exec] at h
    split at h
    · obtain ⟨d, i, v, hst, hw⟩ := execBlock_assignment thn h
      exact ⟨d, i, v, by simp [Stmt.nested, hst], hw⟩
    · obtain ⟨d, i, v, hst, hw⟩ := execBlock_assignment els h
      exact ⟨d, i, v, by simp [Stmt.nested, hst], hw⟩
  | .case selector arms otherwise, h => by
    rw [exec] at h
    split at h
    · next ws hws =>
      obtain ⟨d, i, v, hst, hw⟩ := execArms_assignment arms hws h
      exact ⟨d, i, v, by simp [Stmt.nested, hst], hw⟩
    · obtain ⟨d, i, v, hst, hw⟩ := execBlock_assignment otherwise h
      exact ⟨d, i, v, by simp [Stmt.nested, hst], hw⟩

theorem execBlock_assignment :
    ∀ (body : List Statement), w ∈ execBlock g s body → ∃ dest index value,
      .assign dest index value ∈ Stmt.nestedBlock body ∧
        w ∈ (assignment g s dest index value).toList
  | [], h => by simp [execBlock] at h
  | st :: rest, h => by
    rw [execBlock, List.mem_append] at h
    rcases h with h | h
    · obtain ⟨d, i, v, hst, hw⟩ := exec_assignment st h
      exact ⟨d, i, v, by simp [Stmt.nestedBlock, hst], hw⟩
    · obtain ⟨d, i, v, hst, hw⟩ := execBlock_assignment rest h
      exact ⟨d, i, v, by simp [Stmt.nestedBlock, hst], hw⟩

theorem execArms_assignment {sel : Word} {width : Nat} {ws : List Write} :
    ∀ (arms : List (UInt64 × List Statement)), execArms g s sel width arms = some ws → w ∈ ws →
      ∃ dest index value, .assign dest index value ∈ Stmt.nestedArms arms ∧
        w ∈ (assignment g s dest index value).toList
  | [], h, _ => by simp [execArms] at h
  | (v, body) :: rest, h, hw => by
    rw [execArms] at h
    split at h
    · cases h
      obtain ⟨d, i, v, hst, hw⟩ := execBlock_assignment body hw
      exact ⟨d, i, v, by simp [Stmt.nestedArms, hst], hw⟩
    · obtain ⟨d, i, v, hst, hw⟩ := execArms_assignment rest h hw
      exact ⟨d, i, v, by simp [Stmt.nestedArms, hst], hw⟩

end

theorem execBlock_fits (body : List Statement) (h : w ∈ execBlock g s body) : w.Fits g := by
  obtain ⟨_, _, _, -, hw⟩ := execBlock_assignment body h
  exact assignment_fits hw

/-- No write goes to a word outside its memory. -/
theorem execBlock_inBounds {n : Nat} (body : List Statement) (h : w ∈ execBlock g s body)
    (hn : w.index = some n) : n < (s.words w.dest).size := by
  obtain ⟨_, _, _, -, hw⟩ := execBlock_assignment body h
  exact assignment_inBounds hw hn

end Sim

end Lockstep
