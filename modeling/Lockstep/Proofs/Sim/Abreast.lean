import Lockstep.Proofs.Sim.Recoded
import Lockstep.Proofs.Sim.Play

/-!
# Two simulations abreast

Two simulations whose sweeps change something in the same rounds settle after the same number of
sweeps, with the same verdict. Processes without state codes make the same writes on both sides, so
they never put the simulations out of step.
-/

namespace Lockstep.Sim

variable {k : Coding} {g g' : Symbols}

theorem State.SameAt.changedBy {s t : State} {w : Write} (h : SameAt s t w.dest) :
    s.changedBy w = t.changedBy w := by
  simp only [State.changedBy, h.scalar, h.words]

namespace Sweep

/-- Visible writes change both states or none. -/
theorem foldl_store_agrees {ws : List Write} (hws : ∀ w ∈ ws, g.isCoded k w.dest = false)
    {p p' : Sweep} (h : State.Agrees g k p.state p'.state) :
    ∃ b, ws.foldl store p = ⟨p.state.storeAll ws, p.changed || b, p.defined⟩ ∧
      ws.foldl store p' = ⟨p'.state.storeAll ws, p'.changed || b, p'.defined⟩ := by
  induction ws generalizing p p' with
  | nil => exact ⟨false, by simp [State.storeAll], by simp [State.storeAll]⟩
  | cons w ws ih =>
    have hw := hws w List.mem_cons_self
    have hsame : p'.state.changedBy w = p.state.changedBy w := (h w.dest hw).changedBy
    have hnext : State.Agrees g k (p.store w).state (p'.store w).state :=
      fun i hi => State.store_sameAt (h i hi) w
    obtain ⟨b, hb, hb'⟩ := ih (fun v hv => hws v (List.mem_cons_of_mem w hv)) hnext
    refine ⟨p.state.changedBy w || b, ?_, ?_⟩
    · rw [List.foldl_cons, hb, ← Bool.or_assoc]
      rfl
    · rw [List.foldl_cons, hb', ← Bool.or_assoc, ← hsame]
      rfl

/-- A process without state codes does the same on both sides. -/
theorem step_agrees (h : g.Recoded k g') {proc : Process}
    (hreads : Stmt.blockUncoded g k proc.body = true)
    (hfree : ∀ i ∈ Stmt.blockDests proc.body, g.isCoded k i = false)
    {p p' : Sweep} (hs : State.Agrees g k p.state p'.state) :
    ∃ ws b d, step g p proc = ⟨p.state.storeAll ws, p.changed || b, p.defined && d⟩ ∧
      step g' p' proc = ⟨p'.state.storeAll ws, p'.changed || b, p'.defined && d⟩ ∧
      MadeBy g [proc] ws ∧ MadeBy g' [proc] ws := by
  have hexec := execBlock_recoded_eq h hs hreads hfree
  have hrun := runnableBlock_recoded h hs proc.body hreads
  have hvisible : ∀ w ∈ Write.lasting (execBlock g p.state proc.body),
      g.isCoded k w.dest = false := fun w hw =>
    hfree w.dest (execBlock_dest proc.body (Write.mem_of_mem_lasting hw))
  obtain ⟨b, hb, hb'⟩ := @foldl_store_agrees _ _ _ hvisible
    ⟨p.state, p.changed, p.defined && runnableBlock g p.state proc.body⟩
    ⟨p'.state, p'.changed, p'.defined && runnableBlock g p.state proc.body⟩ hs
  refine ⟨_, b, _, hb, ?_, fun w hw => ?_, fun w hw => ?_⟩
  · rw [step, hexec, hrun]
    exact hb'
  · exact ⟨proc, List.mem_cons_self, p.state, Write.mem_of_mem_lasting hw⟩
  · exact ⟨proc, List.mem_cons_self, p'.state, hexec ▸ Write.mem_of_mem_lasting hw⟩

theorem MadeBy.cons {proc : Process} {procs : List Process} {ws vs : List Write}
    (hw : MadeBy g [proc] ws) (hv : MadeBy g procs vs) : MadeBy g (proc :: procs) (ws ++ vs) := by
  intro w hmem
  rcases List.mem_append.mp hmem with hmem | hmem
  · obtain ⟨q, hq, hx⟩ := hw w hmem
    exact ⟨q, List.mem_singleton.mp hq ▸ List.mem_cons_self, hx⟩
  · obtain ⟨q, hq, hx⟩ := hv w hmem
    exact ⟨q, List.mem_cons_of_mem proc hq, hx⟩

/-- So do any number of them, one after the other. -/
theorem foldl_step_agrees (h : g.Recoded k g') {procs : List Process}
    (hreads : ∀ p ∈ procs, Stmt.blockUncoded g k p.body = true)
    (hfree : ∀ p ∈ procs, ∀ i ∈ Stmt.blockDests p.body, g.isCoded k i = false)
    {p p' : Sweep} (hs : State.Agrees g k p.state p'.state) :
    ∃ ws b d, procs.foldl (step g) p = ⟨p.state.storeAll ws, p.changed || b, p.defined && d⟩ ∧
      procs.foldl (step g') p' = ⟨p'.state.storeAll ws, p'.changed || b, p'.defined && d⟩ ∧
      MadeBy g procs ws ∧ MadeBy g' procs ws := by
  induction procs generalizing p p' with
  | nil => exact ⟨[], false, true, by simp [State.storeAll], by simp [State.storeAll],
      fun _ hw => absurd hw List.not_mem_nil, fun _ hw => absurd hw List.not_mem_nil⟩
  | cons proc procs ih =>
    obtain ⟨ws, b, d, hstep, hstep', hw, hw'⟩ :=
      step_agrees h (hreads proc List.mem_cons_self) (hfree proc List.mem_cons_self) hs
    have hnext : State.Agrees g k (step g p proc).state (step g' p' proc).state := by
      rw [hstep, hstep']
      exact hs.storeAll rfl
    obtain ⟨vs, c, e, hrest, hrest', hv, hv'⟩ := ih
      (fun q hq => hreads q (List.mem_cons_of_mem proc hq))
      (fun q hq => hfree q (List.mem_cons_of_mem proc hq)) hnext
    refine ⟨ws ++ vs, b || c, d && e, ?_, ?_, hw.cons hv, hw'.cons hv'⟩
    · rw [List.foldl_cons, hrest, hstep, State.storeAll_append, Bool.or_assoc, Bool.and_assoc]
    · rw [List.foldl_cons, hrest', hstep', State.storeAll_append, Bool.or_assoc, Bool.and_assoc]

end Sweep

section Settle

variable {procs procs' : List Process} {R : State → State → Prop}

/-! One more sweep, by what it finds. -/

theorem settle_undefined {n : Nat} {s : State} (hd : (sweep g procs s).defined = false) :
    settle g procs (n + 1) s = ((sweep g procs s).state, .undefined) := by
  simp [settle, hd]

theorem settle_changed {n : Nat} {s : State} (hd : (sweep g procs s).defined = true)
    (hc : (sweep g procs s).changed = true) :
    settle g procs (n + 1) s = settle g procs n (sweep g procs s).state := by
  simp [settle, hd, hc]

theorem settle_unchanged {n : Nat} {s : State} (hd : (sweep g procs s).defined = true)
    (hc : (sweep g procs s).changed = false) :
    settle g procs (n + 1) s = ((sweep g procs s).state, .settled) := by
  simp [settle, hd, hc]

/-- A sweep of both sides keeps them abreast: defined or not, changed or not, as one. -/
def SweepsAlike (g g' : Symbols) (procs procs' : List Process) (R : State → State → Prop) : Prop :=
  ∀ s s', R s s' → (sweep g' procs' s').defined = (sweep g procs s).defined ∧
    (sweep g' procs' s').changed = (sweep g procs s).changed ∧
    R (sweep g procs s).state (sweep g' procs' s').state

/-- Sides that stay abreast settle alike. -/
theorem SweepsAlike.settle (h : SweepsAlike g g' procs procs' R) (n : Nat) {s s' : State}
    (hs : R s s') : (Sim.settle g' procs' n s').2 = (Sim.settle g procs n s).2 ∧
      R (Sim.settle g procs n s).1 (Sim.settle g' procs' n s').1 := by
  induction n generalizing s s' with
  | zero => exact ⟨rfl, hs⟩
  | succ n ih =>
    obtain ⟨hdefined, hchanged, hstate⟩ := h s s' hs
    cases hd : (sweep g procs s).defined with
    | false =>
      rw [settle_undefined hd, settle_undefined (hdefined.trans hd)]
      exact ⟨rfl, hstate⟩
    | true =>
      cases hc : (sweep g procs s).changed with
      | true =>
        rw [settle_changed hd hc, settle_changed (hdefined.trans hd) (hchanged.trans hc)]
        exact ih hstate
      | false =>
        rw [settle_unchanged hd hc, settle_unchanged (hdefined.trans hd) (hchanged.trans hc)]
        exact ⟨rfl, hstate⟩

/-- A sweep that changes nothing and is defined leaves the state as it was. -/
theorem sweep_unchanged {s : State} (hd : (sweep g procs s).defined = true)
    (hc : (sweep g procs s).changed = false) : (sweep g procs s).state = s :=
  congrArg Sweep.state (Sweep.atRest_of_unchanged (p := ⟨s, false, true⟩) hc hd).2.2.1

/-- One side may need a sweep more than the other to get abreast: where the other has settled by
then, it settles in the next sweep. -/
theorem SweepsAlike.settle_late (h : SweepsAlike g g' procs procs' R) (n : Nat) {s s' : State}
    (hdefined : (sweep g' procs' s').defined = (sweep g procs s).defined)
    (hchanged : (sweep g procs s).changed = true → (sweep g' procs' s').changed = true)
    (hstate : R (sweep g procs s).state (sweep g' procs' s').state) :
    (Sim.settle g' procs' (n + 2) s').2 = (Sim.settle g procs (n + 2) s).2 ∧
      R (Sim.settle g procs (n + 2) s).1 (Sim.settle g' procs' (n + 2) s').1 := by
  have hnext := h.settle (n + 1) hstate
  cases hd : (sweep g procs s).defined with
  | false =>
    rw [settle_undefined hd, settle_undefined (hdefined.trans hd)]
    exact ⟨rfl, hstate⟩
  | true =>
    have hd' := hdefined.trans hd
    cases hc : (sweep g procs s).changed with
    | true =>
      rw [settle_changed hd hc, settle_changed hd' (hchanged hc)]
      exact hnext
    | false =>
      rw [settle_unchanged hd hc]
      cases hc' : (sweep g' procs' s').changed with
      | false =>
        rw [settle_unchanged hd' hc']
        exact ⟨rfl, hstate⟩
      | true =>
        -- the next sweep of the settled side is the one it has just made
        have hsame := sweep_unchanged hd hc
        have hagain : Sim.settle g procs (n + 1) (sweep g procs s).state =
            ((sweep g procs s).state, .settled) := by
          rw [hsame, settle_unchanged hd hc, hsame]
        rw [hagain] at hnext
        rw [settle_changed hd' hc']
        exact hnext

end Settle

end Lockstep.Sim
