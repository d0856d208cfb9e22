import Lockstep.Proofs.Sim.Blocks
import Lockstep.Bench

/-!
# Settling

A sweep that changes nothing has run every combinational process on one and the same state, so a
state that has settled is at rest: each process would write again what is there already.

Whatever the verdict, settling only stores writes of the combinational processes. What holds of all
of them, such as leaving a signal alone, holds of settling and of a whole run.
-/

namespace Lockstep.Sim

variable {procs : List Process} {s : State} {g : Symbols}

namespace Write

variable {ws : List Write} {w : Write}

theorem mem_supersede_self (w : Write) (ws : List Write) : w ∈ supersede w ws := by
  induction ws with
  | nil => simp [supersede]
  | cons v ws ih =>
    rw [supersede]
    split
    · exact List.mem_cons_self
    · exact List.mem_cons_of_mem v ih

theorem mem_supersede_of_mem {v : Write} (h : w ∈ ws) (hne : w.sameSlot v = false) :
    w ∈ supersede v ws := by
  induction ws with
  | nil => simp at h
  | cons u ws ih =>
    rw [supersede]
    rcases List.mem_cons.mp h with rfl | h
    · rw [if_neg (by simp [hne])]
      exact List.mem_cons_self
    · split
      · exact List.mem_cons_of_mem v h
      · exact List.mem_cons_of_mem u (ih h)

theorem mem_of_mem_supersede {v : Write} (h : w ∈ supersede v ws) : w = v ∨ w ∈ ws := by
  induction ws with
  | nil => simpa [supersede] using h
  | cons u ws ih =>
    rw [supersede] at h
    split at h
    · rcases List.mem_cons.mp h with rfl | h
      · exact Or.inl rfl
      · exact Or.inr (List.mem_cons_of_mem u h)
    · rcases List.mem_cons.mp h with rfl | h
      · exact Or.inr List.mem_cons_self
      · exact (ih h).imp_right (List.mem_cons_of_mem u)

theorem lasting_concat (ws : List Write) (w : Write) :
    lasting (ws ++ [w]) = supersede w (lasting ws) := by
  simp [lasting]

theorem mem_of_mem_lasting (h : w ∈ lasting ws) : w ∈ ws := by
  induction ws using List.reverseRecOn with
  | nil => simp [lasting] at h
  | append_singleton ws v ih =>
    rw [lasting_concat] at h
    rcases mem_of_mem_supersede h with rfl | h
    · simp
    · exact List.mem_append_left _ (ih h)

/-- Of writes to one place only the last lasts. -/
theorem lasting_sole (h : ∀ v ∈ ws, v.sameSlot w = true) : lasting (ws ++ [w]) = [w] := by
  rw [lasting_concat]
  induction ws using List.reverseRecOn generalizing w with
  | nil => rfl
  | append_singleton ws v ih =>
    have hslot : ∀ u ∈ ws, u.sameSlot v = true := by
      intro u hu
      have huw := h u (by simp [hu])
      have hvw := h v (by simp)
      simp only [sameSlot, Bool.and_eq_true, beq_iff_eq] at huw hvw ⊢
      exact ⟨huw.1.trans hvw.1.symm, huw.2.trans hvw.2.symm⟩
    rw [lasting_concat, ih hslot, supersede, if_pos (h v (by simp))]

/-- The last write to a place lasts. -/
theorem mem_lasting_last {before after : List Write} (h : ∀ v ∈ after, w.sameSlot v = false) :
    w ∈ lasting (before ++ w :: after) := by
  induction after using List.reverseRecOn with
  | nil =>
    rw [lasting_concat]
    exact mem_supersede_self w _
  | append_singleton after v ih =>
    have hcat : before ++ w :: (after ++ [v]) = (before ++ w :: after) ++ [v] := by simp
    rw [hcat, lasting_concat]
    exact mem_supersede_of_mem (ih fun u hu => h u (by simp [hu])) (h v (by simp))

end Write

/-- Running the processes again would write what is there already. -/
def AtRest (g : Symbols) (procs : List Process) (s : State) : Prop :=
  ∀ p ∈ procs, runnableBlock g s p.body = true ∧
    ∀ w ∈ Write.lasting (execBlock g s p.body), s.changedBy w = false

theorem AtRest.mono {procs' : List Process} (h : AtRest g procs s)
    (hsub : ∀ p ∈ procs', p ∈ procs) : AtRest g procs' s :=
  fun p hp => h p (hsub p hp)

/-- At rest a scalar holds the last value that a process writes to it. -/
theorem AtRest.scalar (h : AtRest g procs s) {p : Process} (hp : p ∈ procs)
    {before after : List Write} {dest : SignalId} {v : Word}
    (hw : execBlock g s p.body = before ++ ⟨dest, none, v⟩ :: after)
    (ha : ∀ u ∈ after, u.dest ≠ dest) : s.scalar dest = some v := by
  have hmem : (⟨dest, none, v⟩ : Write) ∈ Write.lasting (execBlock g s p.body) := by
    rw [hw]
    refine Write.mem_lasting_last fun u hu => ?_
    simpa [Write.sameSlot] using fun hd => absurd hd.symm (ha u hu)
  have hc := (h p hp).2 _ hmem
  simpa [State.changedBy] using hc

namespace Sweep

theorem changed_of_foldl_store {ws : List Write} {p : Sweep}
    (h : (ws.foldl store p).changed = false) :
    p.changed = false ∧ ws.foldl store p = p ∧ ∀ w ∈ ws, p.state.changedBy w = false := by
  induction ws generalizing p with
  | nil => exact ⟨h, rfl, by simp⟩
  | cons w ws ih =>
    obtain ⟨hc, hf, hall⟩ := ih (p := p.store w) h
    obtain ⟨hp, hw⟩ : p.changed = false ∧ p.state.changedBy w = false := by
      simpa [store] using hc
    have hsame : p.store w = p := by
      obtain ⟨state, changed, defined⟩ := p
      simp_all [store, State.store_of_unchanged]
    rw [hsame] at hf hall
    refine ⟨hp, by rw [List.foldl_cons, hsame, hf], fun v hv => ?_⟩
    rcases List.mem_cons.mp hv with rfl | hv
    · exact hw
    · exact hall v hv

theorem atRest_of_unchanged {g : Symbols} {procs : List Process} {p : Sweep}
    (hc : (procs.foldl (step g) p).changed = false)
    (hd : (procs.foldl (step g) p).defined = true) :
    p.changed = false ∧ p.defined = true ∧ procs.foldl (step g) p = p ∧
      AtRest g procs p.state := by
  induction procs generalizing p with
  | nil => exact ⟨hc, hd, rfl, fun _ hp => absurd hp (by simp)⟩
  | cons proc procs ih =>
    obtain ⟨hc', hd', hf, hrest⟩ := ih (p := step g p proc) hc hd
    -- every write of this process was a repetition, so the next one ran on the same state
    obtain ⟨hp, hs, hw⟩ := changed_of_foldl_store hc'
    have hstep : step g p proc =
        ⟨p.state, p.changed, p.defined && runnableBlock g p.state proc.body⟩ := hs
    have hdef : p.defined = true ∧ runnableBlock g p.state proc.body = true := by
      simpa [hstep] using hd'
    have hsame : step g p proc = p := by
      rw [hstep, hdef.1, hdef.2]
      exact congrArg (Sweep.mk p.state p.changed) hdef.1.symm
    rw [hsame] at hf hrest
    refine ⟨hp, hdef.1, by rw [List.foldl_cons, hsame, hf], fun q hq => ?_⟩
    rcases List.mem_cons.mp hq with rfl | hq
    · exact ⟨hdef.2, hw⟩
    · exact hrest q hq

/-- Writes that one of the processes makes in some state. -/
def MadeBy (g : Symbols) (procs : List Process) (ws : List Write) : Prop :=
  ∀ w ∈ ws, ∃ p ∈ procs, ∃ s, w ∈ execBlock g s p.body

theorem state_foldl_store (ws : List Write) (p : Sweep) :
    (ws.foldl store p).state = p.state.storeAll ws := by
  induction ws generalizing p with
  | nil => rfl
  | cons w ws ih => exact ih (p.store w)

theorem foldl_step_writes (g : Symbols) {procs all : List Process} (p : Sweep)
    (hsub : ∀ q ∈ procs, q ∈ all) :
    ∃ ws, (procs.foldl (step g) p).state = p.state.storeAll ws ∧ MadeBy g all ws := by
  induction procs generalizing p with
  | nil => exact ⟨[], rfl, fun _ hw => absurd hw (by simp)⟩
  | cons proc procs ih =>
    obtain ⟨ws, hs, hw⟩ := ih (step g p proc) fun q hq => hsub q (List.mem_cons_of_mem proc hq)
    refine ⟨Write.lasting (execBlock g p.state proc.body) ++ ws, ?_, fun w hmem => ?_⟩
    · rw [List.foldl_cons, hs, State.storeAll_append]
      simp only [step, state_foldl_store]
    · rcases List.mem_append.mp hmem with hmem | hmem
      · exact ⟨proc, hsub proc List.mem_cons_self, p.state, Write.mem_of_mem_lasting hmem⟩
      · exact hw w hmem

end Sweep

open Sweep (MadeBy)

/-- A settled state is at rest. -/
theorem atRest_of_settle {n : Nat} {s' : State} (h : settle g procs n s = (s', .settled)) :
    AtRest g procs s' := by
  induction n generalizing s with
  | zero => simp [settle] at h
  | succ n ih =>
    simp only [settle] at h
    split at h
    · simp at h
    · next hd =>
      split at h
      · exact ih h
      · next hc =>
        obtain ⟨rfl, -⟩ := Prod.mk.inj h
        have hr := @Sweep.atRest_of_unchanged g procs ⟨s, false, true⟩
          (by simpa [sweep] using hc) (by simpa [sweep] using hd)
        have hs : (sweep g procs s).state = s := congrArg Sweep.state hr.2.2.1
        rw [hs]
        exact hr.2.2.2

theorem settle_writes (g : Symbols) (procs : List Process) (n : Nat) (s : State) :
    ∃ ws, (settle g procs n s).1 = s.storeAll ws ∧ MadeBy g procs ws := by
  induction n generalizing s with
  | zero => exact ⟨[], rfl, fun _ hw => absurd hw (by simp)⟩
  | succ n ih =>
    obtain ⟨ws, hs, hw⟩ := @Sweep.foldl_step_writes g procs procs ⟨s, false, true⟩ fun _ => id
    simp only [settle]
    split
    · exact ⟨ws, hs, hw⟩
    · split
      · obtain ⟨vs, hv, hmade⟩ := ih (sweep g procs s).state
        refine ⟨ws ++ vs, ?_, fun w hmem => ?_⟩
        · rw [hv, State.storeAll_append]
          exact congrArg (State.storeAll · vs) hs
        · exact (List.mem_append.mp hmem).elim (hw w) (hmade w)
      · exact ⟨ws, hs, hw⟩

theorem MadeBy.other {ws : List Write} (h : MadeBy g procs ws) {i : SignalId}
    (hi : ∀ p ∈ procs, i ∉ Stmt.blockDests p.body) : ∀ w ∈ ws, w.dest ≠ i := by
  intro w hw
  obtain ⟨p, hp, s, hmem⟩ := h w hw
  exact not_mem_execBlock (hi p hp) w hmem

theorem MadeBy.fits {ws : List Write} (h : MadeBy g procs ws) : ∀ w ∈ ws, w.Fits g := by
  intro w hw
  obtain ⟨p, -, s, hmem⟩ := h w hw
  exact execBlock_fits p.body hmem

/-- Settling leaves alone what no process assigns. -/
theorem settle_other {n : Nat} {i : SignalId} (hi : ∀ p ∈ procs, i ∉ Stmt.blockDests p.body) :
    State.SameAt (settle g procs n s).1 s i := by
  obtain ⟨ws, hs, hw⟩ := settle_writes g procs n s
  rw [hs]
  exact State.storeAll_other (MadeBy.other hw hi)

end Lockstep.Sim
