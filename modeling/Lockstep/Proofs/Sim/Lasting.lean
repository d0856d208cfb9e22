import Lockstep.Proofs.Sim.Fixpoint

/-!
# Only the last writes count

The writes of a block in the order it makes them, and the last write to each place in the order of
first writes, lead to the same state. A write that another one replaces is overwritten in any case,
and writes to different places can change places. The writes that are kept go to different places, so
none hides what another one did: one of them changes the state exactly if they do so together.
-/

namespace Lockstep.Sim

theorem Write.sameSlot_comm (v w : Write) : v.sameSlot w = w.sameSlot v := by
  simp only [sameSlot, Bool.beq_comm]

/-- The writes that last go to different places. -/
theorem Write.pairwise_lasting (ws : List Write) :
    (lasting ws).Pairwise fun v w => v.sameSlot w = false := by
  have hsupersede : ∀ (w : Write) (acc : List Write),
      (acc.Pairwise fun v w => v.sameSlot w = false) →
      (supersede w acc).Pairwise fun v w => v.sameSlot w = false := by
    intro w acc hacc
    induction acc with
    | nil => exact List.pairwise_singleton _ _
    | cons v acc ih =>
      obtain ⟨hv, hacc⟩ := List.pairwise_cons.mp hacc
      rw [supersede]
      split
      · next hslot =>
        refine List.pairwise_cons.mpr ⟨fun u hu => ?_, hacc⟩
        have := hv u hu
        simp only [sameSlot, Bool.and_eq_true, beq_iff_eq] at hslot this ⊢
        rwa [← hslot.1, ← hslot.2]
      · next hslot =>
        refine List.pairwise_cons.mpr ⟨fun u hu => ?_, ih hacc⟩
        rcases mem_of_mem_supersede hu with rfl | hu
        · exact Bool.eq_false_of_not_eq_true hslot
        · exact hv u hu
  induction ws using List.reverseRecOn with
  | nil => exact List.Pairwise.nil
  | append_singleton ws w ih =>
    rw [lasting_concat]
    exact hsupersede w _ ih

namespace State

variable {ws : List Write} {s : State} {v w : Write}

theorem changedBy_congr {t : State} (h : SameAt s t w.dest) : s.changedBy w = t.changedBy w := by
  simp only [changedBy, h.scalar, h.words]

theorem changedBy_store_self (hw : w.dest < s.scalars.size) : (s.store w).changedBy w = false := by
  obtain ⟨dest, index, value⟩ := w
  cases index with
  | none => simp [changedBy, store, scalar_setScalar, hw]
  | some n =>
    simp only [changedBy, store, words_setWord, if_pos, Array.getElem?_setIfInBounds]
    by_cases hn : n < (s.words dest).size <;> simp [hn]

theorem changedBy_store_other (s : State) (h : v.sameSlot w = false) :
    (s.store v).changedBy w = s.changedBy w := by
  obtain ⟨dest, index, value⟩ := w
  by_cases hd : v.dest = dest
  · subst hd
    obtain ⟨dest, index', value'⟩ := v
    have hindex : index' ≠ index := by simpa [Write.sameSlot] using h
    cases index <;> cases index' <;>
      simp_all [changedBy, store, words_setWord]
  · exact changedBy_congr (store_other s hd)

theorem storeAll_of_unchanged (h : ∀ w ∈ ws, s.changedBy w = false) : s.storeAll ws = s := by
  induction ws with
  | nil => rfl
  | cons w ws ih =>
    rw [storeAll_cons, store_of_unchanged (h w List.mem_cons_self),
      ih fun v hv => h v (List.mem_cons_of_mem w hv)]

/-- Writes to different places are all there once they are stored. -/
theorem changedBy_storeAll (hslots : ws.Pairwise fun v w => v.sameSlot w = false)
    (hdest : ∀ w ∈ ws, w.dest < s.scalars.size) (hw : w ∈ ws) :
    (s.storeAll ws).changedBy w = false := by
  induction ws using List.reverseRecOn with
  | nil => simp at hw
  | append_singleton ws v ih =>
    obtain ⟨hslots, -, hlast⟩ := List.pairwise_append.mp hslots
    rw [storeAll_append, storeAll_cons, storeAll_nil]
    rcases List.mem_append.mp hw with hw | hw
    · have hne : v.sameSlot w = false := by
        rw [Write.sameSlot_comm]
        exact hlast w hw v (List.mem_singleton_self v)
      rw [changedBy_store_other _ hne]
      exact ih hslots (fun u hu => hdest u (List.mem_append_left _ hu)) hw
    · obtain rfl := List.mem_singleton.mp hw
      exact changedBy_store_self (by simpa using hdest w (by simp))

/-- Of two writes to one place the first does not matter. -/
theorem store_store_same (s : State) (h : v.sameSlot w = true) :
    (s.store v).store w = s.store w := by
  obtain ⟨dest, index, value⟩ := w
  obtain ⟨dest', index', value'⟩ := v
  obtain ⟨rfl, rfl⟩ : dest' = dest ∧ index' = index := by simpa [Write.sameSlot] using h
  cases index' with
  | none => simp [store, setScalar]
  | some n =>
    have hmodify : ∀ memories : Array (Array Word),
        (memories.modify dest' (·.setIfInBounds n value')).modify dest' (·.setIfInBounds n value) =
          memories.modify dest' (·.setIfInBounds n value) := by
      intro memories
      apply Array.ext_getElem?
      intro i
      simp only [Array.getElem?_modify]
      by_cases hi : dest' = i
      · cases memories[i]? <;> simp [hi]
      · simp [hi]
    simp [store, setWord, hmodify]

/-- Writes to different places can be stored in any order. -/
theorem store_comm (s : State) (h : v.sameSlot w = false) :
    (s.store v).store w = (s.store w).store v := by
  obtain ⟨dest, index, value⟩ := w
  obtain ⟨dest', index', value'⟩ := v
  cases index with
  | none =>
    cases index' with
    | none =>
      have hne : dest' ≠ dest := by simpa [Write.sameSlot] using h
      simp only [store, setScalar]
      rw [Array.setIfInBounds_comm _ _ hne]
    | some k => rfl
  | some n =>
    cases index' with
    | none => rfl
    | some k =>
      have hne : dest' = dest → k ≠ n := by simpa [Write.sameSlot] using h
      simp only [store, setWord]
      congr 1
      apply Array.ext_getElem?
      intro i
      simp only [Array.getElem?_modify]
      by_cases hi : dest = i <;> by_cases hi' : dest' = i
      · have hkn : k ≠ n := hne (hi'.trans hi.symm)
        cases s.memories[i]? with
        | none => simp [hi, hi']
        | some words => simp [hi, hi', Array.setIfInBounds_comm _ _ hkn]
      all_goals simp [hi, hi']

theorem storeAll_store_comm (s : State) (h : ∀ v ∈ ws, v.sameSlot w = false) :
    (s.store w).storeAll ws = (s.storeAll ws).store w := by
  induction ws generalizing s with
  | nil => rfl
  | cons v ws ih =>
    rw [storeAll_cons, storeAll_cons, ← store_comm s (h v List.mem_cons_self)]
    exact ih (s.store v) fun u hu => h u (List.mem_cons_of_mem v hu)

/-- A write that takes over the position of an earlier one has the effect of a last one. -/
theorem storeAll_supersede (s : State) (w : Write)
    (h : ws.Pairwise fun v w => v.sameSlot w = false) :
    s.storeAll (Write.supersede w ws) = (s.storeAll ws).store w := by
  induction ws generalizing s with
  | nil => rfl
  | cons v ws ih =>
    obtain ⟨hv, hws⟩ := List.pairwise_cons.mp h
    rw [Write.supersede]
    split
    · next hslot =>
      have hother : ∀ u ∈ ws, u.sameSlot w = false := by
        intro u hu
        have hne := hv u hu
        simp only [Write.sameSlot, Bool.and_eq_true, beq_iff_eq] at hslot hne
        rw [Write.sameSlot_comm]
        simpa only [Write.sameSlot, hslot.1, hslot.2] using hne
      rw [storeAll_cons, storeAll_cons, ← storeAll_store_comm _ hother, store_store_same s hslot]
    · rw [storeAll_cons, storeAll_cons, ih (s.store v) hws]

theorem storeAll_lasting (s : State) (ws : List Write) :
    s.storeAll (Write.lasting ws) = s.storeAll ws := by
  induction ws using List.reverseRecOn with
  | nil => rfl
  | append_singleton ws w ih =>
    rw [Write.lasting_concat, storeAll_supersede s w (Write.pairwise_lasting ws), ih,
      storeAll_append]
    rfl

end State

/-- Running a block keeps one write at most for each scalar and each word of a memory. Storing these
leads to the state that all writes of the block lead to. If the state has a place for every
destination, which a state of the module has for every signal declared there, then one of these
writes is reported as a change exactly if the two states differ. -/
theorem last_writes_suffice (g : Symbols) (s : State) (body : List Statement) :
    let kept := Write.lasting (execBlock g s body)
    (kept.Pairwise fun v w => v.sameSlot w = false) ∧
    s.storeAll kept = s.storeAll (execBlock g s body) ∧
    ((∀ d ∈ Stmt.blockDests body, d < s.scalars.size) →
      ((kept.foldl Sweep.store ⟨s, false, true⟩).changed = true ↔ s.storeAll kept ≠ s)) := by
  intro kept
  have hslots : kept.Pairwise fun v w => v.sameSlot w = false := Write.pairwise_lasting _
  refine ⟨hslots, State.storeAll_lasting s _, fun hdest => ?_⟩
  have hplace : ∀ w ∈ kept, w.dest < s.scalars.size := fun w hw =>
    hdest w.dest (execBlock_dest body (Write.mem_of_mem_lasting hw))
  rw [← Bool.not_eq_false, not_iff_not]
  constructor
  · intro hc
    exact State.storeAll_of_unchanged (Sweep.changed_of_foldl_store hc).2.2
  · intro hsame
    have hall : ∀ w ∈ kept, s.changedBy w = false := fun w hw =>
      hsame ▸ State.changedBy_storeAll hslots hplace hw
    rw [Sweep.foldl_store_of_unchanged (p := ⟨s, false, true⟩) hall]

/-- The value is set twice and the memory once; the second value lasts, in the place of the first. -/
theorem selector_last_writes :
    let s : State := ⟨#[some 1, some 5, some 0, none], #[#[], #[], #[], #[0, 0]]⟩
    let body := selector.processes[0].body
    execBlock selector.symbols s body = [⟨2, none, 0⟩, ⟨2, none, 5⟩, ⟨3, some 1, 0⟩] ∧
      Write.lasting (execBlock selector.symbols s body) = [⟨2, none, 5⟩, ⟨3, some 1, 0⟩] ∧
      s.storeAll (Write.lasting (execBlock selector.symbols s body)) ≠ s := by
  intro s body
  obtain ⟨-, -, hchanged⟩ := last_writes_suffice selector.symbols s body
  exact ⟨by decide +kernel, by decide +kernel, (hchanged (by decide +kernel)).mp (by decide +kernel)⟩

end Lockstep.Sim
