import Lockstep.Proofs.Machine.Refinement

/-!
# The steps of a machine along a run

A machine makes one step in each period of the clock, at one of its two edges. The history of a run
is the list of the states in which those steps were made. A property of a history and the state
after it holds along every run if starting gives it, if driving a signal and the other edge keep it,
and if a step carries it over to the history with one more state.
-/

namespace Lockstep

open Sim

variable {m : Module}

/-- What holds of the state between two calls of a simulation. -/
structure Sim.Resting (m : Module) (s : Sim.State) : Prop where
  rest : AtRest m.symbols (combinational m) s
  fits : s.Fits m.symbols
  size : s.scalars.size = m.symbols.signals.size

theorem Sim.Settles.resting {s s' : Sim.State} (h : Settles m s s') (hfits : s.Fits m.symbols)
    (hsize : s.scalars.size = m.symbols.signals.size) : Resting m s' := by
  refine ⟨h.atRest, h.fits hfits, ?_⟩
  obtain ⟨ws, rfl, -⟩ := h.writes
  simpa using hsize

theorem Sim.Fires.resting {edge : ClockEdge} {s s' : Sim.State} (h : Fires m edge s s')
    (hs : Resting m s) : Resting m s' :=
  h.settles.resting (hs.fits.storeAll edgeWrites_fits) (by simpa using hs.size)

theorem Sim.Resting.of_play {stimuli : List Stimulus} {s : Sim} (h : play m stimuli = .ok s) :
    s.module = m ∧ Resting m s.state := by
  obtain ⟨hm, hrest⟩ := play_atRest h
  exact ⟨hm, hrest, play_fits h, play_size h⟩

theorem Sim.clockEdge_state {s : Sim} {edge : ClockEdge} {t : Sim.State}
    (h : Fires s.module edge s.state t) : (s.clockEdge edge).1.state = t := by
  have hall : ((firing s.module edge).all fun p =>
      runnableBlock s.module.symbols s.state p.body) = true := by
    simpa using h.runnable
  have hset := h.settles
  unfold Settles at hset
  unfold clockEdge settled
  simp only [hall, if_true, hset]

namespace Machine

variable {stimuli : List Stimulus} {f : Machine} {m : Module} {i : Nat} {s s' : Sim}

/-- The state that the machine is in. -/
def index? (f : Machine) (s : Sim.State) : Option Nat :=
  (List.range f.size).find? fun i => s.read f.current == Word.ofUInt64 (f.code i)

theorem At.index? (hc : f.Countable) {s : Sim.State} (h : f.At s i) : f.index? s = some i := by
  cases hf : f.index? s with
  | none =>
    rw [Machine.index?, List.find?_eq_none] at hf
    exact absurd (by simpa using h.2) (hf i (List.mem_range.mpr h.1))
  | some j =>
    have hj : f.At s j := by
      refine ⟨List.mem_range.mp (List.mem_of_find?_eq_some hf), ?_⟩
      simpa using List.find?_some hf
    rw [h.unique hc hj]

theorem Astray.index? {s : Sim.State} (h : f.Astray s) : f.index? s = none := by
  rw [Machine.index?, List.find?_eq_none]
  intro i hi
  simpa using h i (List.mem_range.mp hi)

theorem at_of_index? {s : Sim.State} (h : f.index? s = some i) : f.At s i :=
  ⟨List.mem_range.mp (List.mem_of_find?_eq_some h), by simpa using List.find?_some h⟩

/-- A one-hot register has the bit of its state set, and no other. -/
theorem At.getLsbD (hc : f.Countable) (he : f.encoding = .oneHot) {s : Sim.State} (h : f.At s i)
    (b : Nat) : (s.read f.current).getLsbD b = decide (b = i) := by
  have h64 := hc.oneHot he
  have hi := h.1
  rw [h.2, BitVec.getLsbD, Word.toNat_ofUInt64, code_bit he hi (by omega), Nat.testBit_two_pow]
  exact decide_eq_decide.mpr eq_comm

/-- The state in which the machine makes its step in the period that starts with `s`. -/
def stepState (f : Machine) (s : Sim) : Sim.State :=
  if f.stepsOn .rising then s.state else (s.clockEdge .rising).1.state

/-- The states in which the machine makes its steps while stimuli are applied to `s`, up to the
first that fails. -/
def stepsFrom (f : Machine) : Sim → List Stimulus → List Sim.State
  | _, [] => []
  | s, e :: rest =>
    match s.respond e with
    | .error _ => []
    | .ok s' => (if e = .tick then [f.stepState s] else []) ++ f.stepsFrom s' rest

/-- The states in which the machine made its steps along a run, the earliest first. -/
def history (f : Machine) (m : Module) (stimuli : List Stimulus) : List Sim.State :=
  match Sim.start m with
  | .error _ => []
  | .ok s => f.stepsFrom s stimuli

theorem stepsFrom_concat (f : Machine) {e : Stimulus} {s₀ : Sim}
    (hs : stimuli.foldlM respond s₀ = .ok s) (he : s.respond e = .ok s') :
    f.stepsFrom s₀ (stimuli ++ [e]) =
      f.stepsFrom s₀ stimuli ++ if e = .tick then [f.stepState s] else [] := by
  induction stimuli generalizing s₀ with
  | nil =>
    cases hs
    simp [stepsFrom, he]
  | cons d stimuli ih =>
    rw [List.foldlM_cons] at hs
    cases hd : s₀.respond d with
    | error err => simp [hd, bind, Except.bind] at hs
    | ok s₁ =>
      rw [hd] at hs
      simp only [List.cons_append, stepsFrom, hd, ih hs, List.append_assoc]

theorem history_concat (f : Machine) {e : Stimulus} (hs : play m stimuli = .ok s)
    (he : s.respond e = .ok s') :
    f.history m (stimuli ++ [e]) =
      f.history m stimuli ++ if e = .tick then [f.stepState s] else [] := by
  unfold history
  rw [play] at hs
  cases h₀ : Sim.start m with
  | error err => simp [h₀, bind, Except.bind] at hs
  | ok s₀ =>
    rw [h₀] at hs
    exact f.stepsFrom_concat hs he

/-- The history of a run with a tick is not empty. -/
theorem history_ne_nil (f : Machine) (hs : play m stimuli = .ok s) (ht : .tick ∈ stimuli) :
    f.history m stimuli ≠ [] := by
  induction stimuli using List.reverseRecOn generalizing s with
  | nil => simp at ht
  | append_singleton stimuli e ih =>
    obtain ⟨s₀, hs₀, he⟩ := play_concat.mp hs
    rw [f.history_concat hs₀ he]
    rcases List.mem_append.mp ht with ht | ht
    · exact List.append_ne_nil_of_left_ne_nil (ih hs₀ ht) _
    · rw [if_pos (List.mem_singleton.mp ht).symm]
      exact List.append_ne_nil_of_right_ne_nil _ (List.cons_ne_nil _ _)

/-- A machine that was built steps at one of the two edges. -/
theorem stepsOn_cases (h : f.clock.isSome = true) :
    (f.stepsOn .rising = true ∧ f.stepsOn .falling = false) ∨
      (f.stepsOn .rising = false ∧ f.stepsOn .falling = true) := by
  obtain ⟨event, he⟩ := Option.isSome_iff_exists.mp h
  cases hedge : event.edge with
  | rising => exact .inl (by simp [stepsOn, he, hedge])
  | falling => exact .inr (by simp [stepsOn, he, hedge])

theorem stepState_rising (h : f.stepsOn .rising = true) (s : Sim) :
    f.stepState s = s.state := if_pos h

theorem stepState_falling (h : f.stepsOn .rising = false) {mid : Sim.State}
    (hr : Fires s.module .rising s.state mid) : f.stepState s = mid := by
  rw [stepState, if_neg (by simp [h]), clockEdge_state hr]

/-- A tick is a step of the machine, with an edge before or after it that leaves alone what no other
process assigns. -/
theorem Installed.tick {others : List Process} (h : f.Installed m others)
    (hclock : f.clock.isSome = true) (hm : s.module = m) (hrest : Resting m s.state)
    (he : s.respond .tick = .ok s') : ∃ edge t, f.stepsOn edge = true ∧ Resting m (f.stepState s) ∧
      Fires m edge (f.stepState s) t ∧
      ∀ i, (∀ p ∈ others, i ∉ Stmt.blockDests p.body) → i ≠ f.next →
        State.SameAt (f.stepState s) s.state i ∧ State.SameAt s'.state t i := by
  obtain ⟨-, -, mid, hrise, hfall⟩ := pulse_ok he
  rcases stepsOn_cases hclock with ⟨hr, hf⟩ | ⟨hr, hf⟩
  · rw [stepState_rising hr]
    rw [hm] at hrise hfall
    refine ⟨.rising, mid, hr, hrest, hrise, fun i hi hne => ⟨.refl _ _, ?_⟩⟩
    exact h.edge_idle hfall.strikes hf hi hne
  · rw [stepState_falling hr hrise]
    rw [hm] at hrise hfall
    refine ⟨.falling, s'.state, hf, hrise.resting hrest, hfall, fun i hi hne => ⟨?_, .refl _ _⟩⟩
    exact h.edge_idle hrise.strikes hr hi hne

/-- Along every run, a history and the state after it. -/
theorem history_invariant (hclock : f.clock.isSome = true) (allowed : SignalId → Prop)
    (P : List Sim.State → Sim.State → Prop)
    (hstart : ∀ s, possibleDepths m = true → Settles m (.initial m.symbols) s → P [] s)
    (hdrive : ∀ i v past s s', allowed i → Resting m s → P past s →
      Settles m (driven m i v s) s' → P past s')
    (hidle : ∀ edge past s s', f.stepsOn edge = false → Resting m s → P past s →
      Fires m edge s s' → P past s')
    (hstep : ∀ edge past s s', f.stepsOn edge = true → Resting m s → P past s →
      Fires m edge s s' → P (past ++ [s]) s') :
    ∀ {stimuli : List Stimulus} {s : Sim}, play m stimuli = .ok s →
      (∀ name v i, .drive name v ∈ stimuli → drives m name = some i → allowed i) →
      P (f.history m stimuli) s.state := by
  intro stimuli
  induction stimuli using List.reverseRecOn with
  | nil =>
    intro s h _
    rw [play_nil] at h
    obtain ⟨-, -, hd, hs⟩ := start_ok h
    simp only [history, h, stepsFrom]
    exact hstart _ hd hs
  | append_singleton stimuli e ih =>
    intro s' h hall
    obtain ⟨s, hs, he⟩ := play_concat.mp h
    have hp := ih hs fun name v i hmem => hall name v i (by simp [hmem])
    obtain ⟨hm, hrest⟩ := Resting.of_play hs
    rw [f.history_concat hs he]
    cases e with
    | drive name v =>
      obtain ⟨-, i, hi, hset⟩ := drive_ok he
      rw [hm] at hi hset
      rw [if_neg (by simp), List.append_nil]
      exact hdrive i v _ _ _ (hall name v i (by simp) hi) hrest hp hset
    | tick =>
      obtain ⟨-, -, mid, hrise, hfall⟩ := pulse_ok he
      rw [if_pos rfl]
      rcases stepsOn_cases hclock with ⟨hr, hf⟩ | ⟨hr, hf⟩
      · rw [stepState_rising hr]
        rw [hm] at hrise hfall
        have hmid := hstep .rising _ _ _ hr hrest hp hrise
        exact hidle .falling _ _ _ hf (hrise.resting hrest) hmid hfall
      · rw [stepState_falling hr hrise]
        rw [hm] at hrise hfall
        have hmid := hidle .rising _ _ _ hr hrest hp hrise
        exact hstep .falling _ _ _ hf (hrise.resting hrest) hmid hfall

end Machine

end Lockstep
