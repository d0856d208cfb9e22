import Lockstep.Proofs.Sim.Play

/-!
# The fixpoint that settling finds

A settled state is a fixpoint of the combinational processes: each place that a process writes, when
it runs on that state, already holds the last value written to it. A sweep over such a state changes
nothing, so settling stops at once and gives it back.
-/

namespace Lockstep.Sim

/-- The place of a write holds its value. -/
def State.Has (s : State) (w : Write) : Prop :=
  match w.index with
  | none => s.scalar w.dest = some w.value
  | some n => (s.words w.dest)[n]? = some w.value

/-- A write that a process makes on a state, and that changes nothing, is there already. -/
theorem has_of_unchanged {g : Symbols} {s : State} {body : List Statement} {w : Write}
    (hw : w ∈ execBlock g s body) (h : s.changedBy w = false) : s.Has w := by
  obtain ⟨dest, index, value⟩ := w
  cases index with
  | none => simpa [State.changedBy, State.Has] using h
  | some n =>
    have hn : n < (s.words dest).size := execBlock_inBounds body hw rfl
    have hword : (s.words dest)[n]? = some (s.words dest)[n] := Array.getElem?_eq_getElem hn
    have hsame : (s.words dest)[n] = value := by simpa [State.changedBy, hword] using h
    exact hword.trans (congrArg some hsame)

namespace Sweep

theorem foldl_store_of_unchanged {ws : List Write} {p : Sweep}
    (h : ∀ w ∈ ws, p.state.changedBy w = false) : ws.foldl store p = p := by
  induction ws with
  | nil => rfl
  | cons w ws ih =>
    have hw := h w List.mem_cons_self
    have hsame : p.store w = p := by
      obtain ⟨state, changed, defined⟩ := p
      simp only at hw
      simp [store, hw, State.store_of_unchanged hw]
    rw [List.foldl_cons, hsame, ih fun v hv => h v (List.mem_cons_of_mem w hv)]

theorem foldl_step_of_atRest {g : Symbols} {procs : List Process} {s : State}
    (h : AtRest g procs s) (b : Bool) : procs.foldl (step g) ⟨s, b, true⟩ = ⟨s, b, true⟩ := by
  induction procs with
  | nil => rfl
  | cons p procs ih =>
    obtain ⟨hrun, hsame⟩ := h p List.mem_cons_self
    have hstep : step g ⟨s, b, true⟩ p = ⟨s, b, true⟩ := by
      simp only [step, hrun, Bool.and_self]
      exact foldl_store_of_unchanged hsame
    rw [List.foldl_cons, hstep, ih (h.mono fun q hq => List.mem_cons_of_mem p hq)]

end Sweep

/-- A state at rest settles in one sweep that changes nothing. -/
theorem settle_of_atRest {g : Symbols} {procs : List Process} {s : State} (h : AtRest g procs s)
    (n : Nat) : settle g procs (n + 1) s = (s, .settled) := by
  have hsweep : sweep g procs s = ⟨s, false, true⟩ := Sweep.foldl_step_of_atRest h false
  simp [settle, hsweep]

/-- After a run in which every call succeeded, each place that a combinational process would write
holds the last value written to it, and settling once more gives the same simulation back. -/
theorem settled_is_fixpoint {m : Module} {stimuli : List Stimulus} {s : Sim}
    (h : play m stimuli = .ok s) :
    (∀ p ∈ m.processes, p.isCombinational = true → ∀ before w after,
      execBlock m.symbols s.state p.body = before ++ w :: after →
      (∀ v ∈ after, w.sameSlot v = false) → s.state.Has w) ∧
    s.settled = (s, .settled) := by
  obtain ⟨rfl, hrest⟩ := play_atRest h
  refine ⟨fun p hp hcomb before w after hexec hlast => ?_, ?_⟩
  · have hmem : p ∈ combinational s.module :=
      List.mem_filter.mpr ⟨Array.mem_toList_iff.mpr hp, hcomb⟩
    have hlasting : w ∈ Write.lasting (execBlock s.module.symbols s.state p.body) := by
      rw [hexec]
      exact Write.mem_lasting_last hlast
    have hw : w ∈ execBlock s.module.symbols s.state p.body := by
      rw [hexec]
      exact List.mem_append_right before List.mem_cons_self
    exact has_of_unchanged hw ((hrest p hmem).2 w hlasting)
  · simp only [settled, settleLimit, settle_of_atRest hrest]

/-- A value that is zero unless it is selected, and a memory that follows it at the selected word. -/
def selector : Module where
  name := "selector"
  symbols :=
    { types := #[.unsigned 1, .unsigned 4]
      signals := #[
        { name := "sel", type := some 0, kind := .wire },
        { name := "a", type := some 1, kind := .wire },
        { name := "y", type := some 1, kind := .wire },
        { name := "bank", type := some 1, kind := .memory, depth := 2 }] }
  processes := #[
    { name := "select"
      trigger := .combinational
      body := [
        .assign 2 none (.lit (.value 0) (some 1)),
        .cond (.ref 0) [.assign 2 none (.ref 1)] [],
        .assign 3 (some (.ref 0)) (.ref 2)] }]

theorem selector_is_fixpoint : ∃ s, play selector [.drive "a" 5, .drive "sel" 1] = .ok s ∧
    execBlock selector.symbols s.state selector.processes[0].body =
      [⟨2, none, 0⟩, ⟨2, none, 5⟩, ⟨3, some 1, 5⟩] ∧
    s.state.Has ⟨2, none, 5⟩ ∧ s.state.Has ⟨3, some 1, 5⟩ ∧ s.settled = (s, .settled) := by
  have hrun : (play selector [.drive "a" 5, .drive "sel" 1]).toOption.any (fun s =>
      execBlock selector.symbols s.state selector.processes[0].body ==
        [⟨2, none, 0⟩, ⟨2, none, 5⟩, ⟨3, some 1, 5⟩]) = true := by
    decide +kernel
  obtain ⟨s, hs, hexec⟩ := exists_of_any hrun
  rw [beq_iff_eq] at hexec
  obtain ⟨hhas, hsettled⟩ := settled_is_fixpoint hs
  have hp : selector.processes[0] ∈ selector.processes := by simp
  exact ⟨s, hs, hexec, hhas _ hp rfl [_] ⟨2, none, 5⟩ [_] hexec (by simp [Write.sameSlot]),
    hhas _ hp rfl [_, _] ⟨3, some 1, 5⟩ [] hexec (by simp), hsettled⟩

end Lockstep.Sim
