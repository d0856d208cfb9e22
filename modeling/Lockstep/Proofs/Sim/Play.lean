import Lockstep.Proofs.Sim.Settle

/-!
# Runs of a simulation

A run starts a module and then drives signals and ticks, in any order, as long as every call
succeeds. Between two calls the state is at rest, and it moves in two ways only: a signal is driven,
or one edge of the clock fires. A property of states that both ways preserve holds along every run.
-/

namespace Lockstep.Sim

variable {edge : ClockEdge} {stimuli : List Stimulus} {m : Module} {i : SignalId} {s : Sim}
  {s' t : State} {g : Symbols}

/-- What is done to a simulation from outside. -/
inductive Stimulus where
  | drive (name : String) (v : UInt64)
  | tick
deriving DecidableEq, Repr

def respond (s : Sim) : Stimulus → Except Error Sim
  | .drive name v => Bench.drive s name v
  | .tick => Bench.pulse s

/-- Starts the module and applies the stimuli in turn, up to the first that fails. -/
def play (m : Module) (stimuli : List Stimulus) : Except Error Sim := do
  stimuli.foldlM respond (← start m)

/-- Where an outcome passes a check, there is one, and it does. -/
theorem exists_of_any {ε α : Type} {x : Except ε α} {p : α → Bool} (h : x.toOption.any p = true) :
    ∃ a, x = .ok a ∧ p a = true := by
  cases x with
  | error e => cases h
  | ok a => exact ⟨a, rfl, h⟩

/-- Settling after a change, with success. -/
def Settles (m : Module) (s s' : State) : Prop :=
  settle m.symbols (combinational m) settleLimit s = (s', .settled)

/-- One edge of the clock, all processes reading the state before it. -/
structure Fires (m : Module) (edge : ClockEdge) (s s' : State) : Prop where
  runnable : ∀ p ∈ firing m edge, runnableBlock m.symbols s p.body = true
  settles : Settles m (s.storeAll (edgeWrites m.symbols s (firing m edge))) s'

/-- The signal that a name drives. -/
def drives (m : Module) (name : String) : Option SignalId :=
  (m.signal? name).filter fun i => !m.symbols.isMemory i

def driven (m : Module) (i : SignalId) (v : UInt64) (s : State) : State :=
  s.setScalar i (Word.truncate (m.symbols.signalType i).bits (Word.ofUInt64 v))

theorem Settles.atRest {s : State} (h : Settles m s s') :
    AtRest m.symbols (combinational m) s' := atRest_of_settle h

theorem Settles.writes {s : State} (h : Settles m s s') :
    ∃ ws, s' = s.storeAll ws ∧ Sweep.MadeBy m.symbols (combinational m) ws := by
  obtain ⟨ws, hs, hw⟩ := settle_writes m.symbols (combinational m) settleLimit s
  rw [h] at hs
  exact ⟨ws, hs, hw⟩

theorem Settles.other {s : State} (h : Settles m s s')
    (hi : ∀ p ∈ combinational m, i ∉ Stmt.blockDests p.body) : State.SameAt s' s i := by
  have hs := settle_other (g := m.symbols) (n := settleLimit) (s := s) hi
  rwa [h] at hs

/-- `s'` is as the edge leaves it, wherever settling has no part in it. -/
def Strikes (m : Module) (edge : ClockEdge) (s s' : State) : Prop :=
  ∀ i, (∀ p ∈ combinational m, i ∉ Stmt.blockDests p.body) →
    State.SameAt s' (s.storeAll (edgeWrites m.symbols s (firing m edge))) i

theorem Fires.strikes {s : State} (h : Fires m edge s s') :
    Strikes m edge s s' := fun _ hi => h.settles.other hi

theorem settled_eq {s' : Sim} (h : s.settled = (s', .settled)) :
    s' = { s with state := s'.state } ∧ Settles s.module s.state s'.state := by
  unfold settled at h
  cases hs : settle s.module.symbols (combinational s.module) settleLimit s.state with
  | mk state v =>
    rw [hs] at h
    obtain ⟨rfl, rfl⟩ := Prod.mk.inj h
    exact ⟨rfl, hs⟩

theorem start_ok (h : start m = .ok s) :
    s.module = m ∧ s.cycle = 0 ∧ possibleDepths m = true ∧
      Settles m (.initial m.symbols) s.state := by
  unfold start at h
  split at h
  · next hd =>
    split at h
    · next s' hs =>
      cases h
      obtain ⟨he, hset⟩ := settled_eq hs
      exact ⟨by rw [he], by rw [he], hd, hset⟩
    · simp at h
    · simp at h
  · simp at h

theorem drive_ok {s' : Sim} {name : String} {v : UInt64} (h : Bench.drive s name v = .ok s') :
    s'.module = s.module ∧ ∃ i, drives s.module name = some i ∧
      Settles s.module (driven s.module i v s.state) s'.state := by
  unfold Bench.drive at h
  split at h
  · next t hset =>
    cases h
    unfold set at hset
    split at hset
    · simp at hset
    · next i hi =>
      have hid : drives s.module name = some i := by
        unfold scalarId at hi
        split at hi
        · simp at hi
        · next j hj =>
          split at hi
          · simp at hi
          · next hm =>
            cases hi
            simp [drives, hj, hm]
      dsimp only at hset
      split at hset
      · next u hu =>
        obtain ⟨rfl, -⟩ := Prod.mk.inj hset
        obtain ⟨he, hset'⟩ := settled_eq hu
        exact ⟨by rw [he], i, hid, hset'⟩
      · simp at hset
      · simp at hset
  · simp at h

theorem clockEdge_ok {s' : Sim} (h : s.clockEdge edge = (s', .settled)) :
    s'.module = s.module ∧ s'.cycle = s.cycle ∧ Fires s.module edge s.state s'.state := by
  unfold clockEdge at h
  dsimp only at h
  split at h
  · next hd =>
    obtain ⟨he, hset⟩ := settled_eq h
    exact ⟨by rw [he], by rw [he], by simpa using hd, hset⟩
  · simp at h

/-- A period is a rising edge and then a falling one. -/
theorem pulse_ok {s' : Sim} (h : Bench.pulse s = .ok s') :
    s'.module = s.module ∧ s'.cycle = s.cycle + 1 ∧
      ∃ mid, Fires s.module .rising s.state mid ∧ Fires s.module .falling mid s'.state := by
  unfold Bench.pulse at h
  split at h
  · next t ht =>
    cases h
    unfold tick at ht
    split at ht
    · simp at ht
    · simp at ht
    · next mid hmid =>
      obtain ⟨hm, hc, hrise⟩ := clockEdge_ok hmid
      split at ht
      · simp at ht
      · simp at ht
      · next u hu =>
        obtain ⟨hm', hc', hfall⟩ := clockEdge_ok hu
        obtain ⟨rfl, -⟩ := Prod.mk.inj ht
        rw [hm] at hfall hm'
        exact ⟨hm', by simp [hc', hc], mid.state, hrise, hfall⟩
  · simp at h

/-! The same calls, given what they settle to. -/

theorem start_of_settles (hd : possibleDepths m = true) (h : Settles m (.initial m.symbols) t) :
    start m = .ok { module := m, state := t } := by
  unfold start settled
  rw [if_pos hd, show settle _ _ _ _ = _ from h]

theorem drive_of_settles {name : String} {v : UInt64} (hi : drives s.module name = some i)
    (h : Settles s.module (driven s.module i v s.state) t) :
    Bench.drive s name v = .ok { s with state := t } := by
  obtain ⟨hname, hmem⟩ := Option.filter_eq_some_iff.mp hi
  have hid : s.scalarId name = .ok i := by
    unfold scalarId
    rw [hname]
    simp only [Bool.not_eq_true'] at hmem
    simp [hmem]
  unfold Settles driven at h
  unfold Bench.drive set settled
  rw [hid]
  dsimp only
  rw [h]

theorem clockEdge_of_fires (h : Fires s.module edge s.state t) :
    s.clockEdge edge = ({ s with state := t }, .settled) := by
  unfold clockEdge settled
  dsimp only
  rw [if_pos (List.all_eq_true.mpr h.runnable), show settle _ _ _ _ = _ from h.settles]

theorem pulse_of_fires {mid : State} (hrise : Fires s.module .rising s.state mid)
    (hfall : Fires s.module .falling mid t) :
    Bench.pulse s = .ok { s with state := t, cycle := s.cycle + 1 } := by
  have hfall' := clockEdge_of_fires (s := { s with state := mid }) hfall
  unfold Bench.pulse tick
  rw [clockEdge_of_fires hrise]
  dsimp only
  rw [hfall']

theorem play_nil : play m [] = start m := by
  simp [play]

theorem play_concat {e : Stimulus} {s' : Sim} :
    play m (stimuli ++ [e]) = .ok s' ↔ ∃ s, play m stimuli = .ok s ∧ respond s e = .ok s' := by
  simp only [play, List.foldlM_append]
  cases hs : start m with
  | error e => simp [bind, Except.bind]
  | ok s₀ =>
    cases hf : stimuli.foldlM respond s₀ with
    | error e => simp [bind, Except.bind, hf]
    | ok s => cases hr : respond s e <;> simp [bind, Except.bind, pure, Except.pure, hf, hr]

/-- The states of a run are at rest, and have every property that starting gives and that driving
an allowed signal and a clock edge preserve. -/
theorem play_invariant (allowed : SignalId → Prop) (P : State → Prop)
    (hstart : ∀ s, possibleDepths m = true → Settles m (.initial m.symbols) s → P s)
    (hdrive : ∀ i v s s', allowed i → AtRest m.symbols (combinational m) s → P s →
      Settles m (driven m i v s) s' → P s')
    (hedge : ∀ edge s s', AtRest m.symbols (combinational m) s → P s → Fires m edge s s' → P s') :
    ∀ {stimuli : List Stimulus} {s : Sim}, play m stimuli = .ok s →
      (∀ name v i, .drive name v ∈ stimuli → drives m name = some i → allowed i) →
      s.module = m ∧ AtRest m.symbols (combinational m) s.state ∧ P s.state := by
  intro stimuli
  induction stimuli using List.reverseRecOn with
  | nil =>
    intro s h _
    rw [play_nil] at h
    obtain ⟨hm, -, hd, hs⟩ := start_ok h
    exact ⟨hm, hs.atRest, hstart _ hd hs⟩
  | append_singleton stimuli e ih =>
    intro s' h hall
    obtain ⟨s, hs, he⟩ := play_concat.mp h
    obtain ⟨hm, hrest, hp⟩ := ih hs fun name v i hmem => hall name v i (by simp [hmem])
    cases e with
    | drive name v =>
      obtain ⟨hm', i, hi, hset⟩ := drive_ok he
      rw [hm] at hm' hi hset
      exact ⟨hm', hset.atRest, hdrive i v _ _ (hall name v i (by simp) hi) hrest hp hset⟩
    | tick =>
      obtain ⟨hm', -, mid, hrise, hfall⟩ := pulse_ok he
      rw [hm] at hm' hrise hfall
      have hmid := hedge .rising _ _ hrest hp hrise
      exact ⟨hm', hfall.settles.atRest, hedge .falling _ _ hrise.settles.atRest hmid hfall⟩

theorem play_atRest (h : play m stimuli = .ok s) :
    s.module = m ∧ AtRest m.symbols (combinational m) s.state := by
  obtain ⟨hm, hrest, -⟩ := play_invariant (fun _ => True) (fun _ => True) (fun _ _ _ => trivial)
    (fun _ _ _ _ _ _ _ _ => trivial) (fun _ _ _ _ _ _ => trivial) h fun _ _ _ _ _ => trivial
  exact ⟨hm, hrest⟩

/-- The shape of the state is that of the symbol table. -/
theorem play_size (h : play m stimuli = .ok s) : s.state.scalars.size = m.symbols.signals.size := by
  have hset : ∀ {s s' : State}, Settles m s s' → s'.scalars.size = s.scalars.size := by
    intro s s' hs
    obtain ⟨ws, rfl, -⟩ := hs.writes
    simp
  refine (play_invariant (fun _ => True) (fun s => s.scalars.size = m.symbols.signals.size)
    ?_ ?_ ?_ h fun _ _ _ _ _ => trivial).2.2
  · exact fun s _ hs => (hset hs).trans (by simp [State.initial])
  · exact fun i v s s' _ _ hp hs => (hset hs).trans (by simpa [driven] using hp)
  · exact fun edge s s' _ hp he => (hset he.settles).trans (by simpa using hp)

/-- Every signal holds a value of its width. -/
def State.Fits (g : Symbols) (s : State) : Prop :=
  ∀ i v, s.scalar i = some v → v.toNat < 2 ^ (g.signalType i).bits

theorem State.Fits.read {s : State} (h : s.Fits g) (i : SignalId) :
    (s.read i).toNat < 2 ^ (g.signalType i).bits := by
  rw [State.read]
  cases hv : s.scalar i with
  | none => exact Nat.two_pow_pos _
  | some v => exact h i v hv

theorem State.Fits.setScalar {s : State} (h : s.Fits g) {v : Word}
    (hv : v.toNat < 2 ^ (g.signalType i).bits) : (s.setScalar i v).Fits g := by
  intro j x hx
  rw [State.scalar_setScalar] at hx
  split at hx
  · next hij =>
    cases hx
    rw [← hij.1]
    exact hv
  · exact h j x hx

theorem State.Fits.storeAll {g : Symbols} {s : State} (h : s.Fits g) {ws : List Write}
    (hw : ∀ w ∈ ws, w.Fits g) : (s.storeAll ws).Fits g := by
  induction ws generalizing s with
  | nil => exact h
  | cons w ws ih =>
    refine ih ?_ fun v hv => hw v (List.mem_cons_of_mem w hv)
    unfold State.store
    split
    · exact h.setScalar (hw w List.mem_cons_self)
    · exact h

theorem initial_fits (g : Symbols) : (State.initial g).Fits g := by
  intro i v h
  simp only [State.scalar, State.initial, Array.getElem?_map] at h
  cases hs : g.signals[i]? with
  | none => simp [hs] at h
  | some sig =>
    have ht : g.signalType i = g.type? sig.type := by simp [Symbols.signalType, hs]
    rw [hs, Option.map_some, Option.join_some] at h
    split at h
    · split at h
      · cases h
        rw [ht]
        exact Word.truncate_lt ..
      · cases h
        exact Nat.two_pow_pos _
    · simp at h

theorem Settles.fits {s : State} (h : Settles m s s') (hs : s.Fits m.symbols) :
    s'.Fits m.symbols := by
  obtain ⟨ws, rfl, hw⟩ := h.writes
  exact hs.storeAll (MadeBy.fits hw)

theorem edgeWrites_fits {s : State} {procs : List Process} :
    ∀ w ∈ edgeWrites g s procs, w.Fits g := by
  intro w hw
  obtain ⟨p, -, hp⟩ := List.mem_flatMap.mp hw
  exact execBlock_fits p.body hp

/-- Along every run the stored values fit their signals. -/
theorem play_fits (h : play m stimuli = .ok s) : s.state.Fits m.symbols := by
  refine (play_invariant (fun _ => True) (State.Fits m.symbols) ?_ ?_ ?_ h fun _ _ _ _ _ => trivial).2.2
  · exact fun s _ hs => hs.fits (initial_fits _)
  · exact fun i v s s' _ _ hp hs => hs.fits (hp.setScalar (Word.truncate_lt ..))
  · exact fun edge s s' _ hp he => he.settles.fits (hp.storeAll edgeWrites_fits)

end Lockstep.Sim
