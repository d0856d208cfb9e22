import Lockstep.Proofs.Word
import Lockstep.Sim.Eval

/-!
# Writes and what they leave alone

A write changes the one signal it goes to. So what a list of writes does to a signal depends only
on the writes to it, and the writes of a block go to the destinations of its assignments.
-/

namespace Lockstep.Sim

namespace State

variable {ws : List Write} {i : SignalId} {s t : State} {v : Word} {w : Write}

/-- Both states hold the same at a signal, read as a scalar or as a memory. -/
structure SameAt (s t : State) (i : SignalId) : Prop where
  size : s.scalars.size = t.scalars.size
  scalar : s.scalar i = t.scalar i
  words : s.words i = t.words i

theorem SameAt.refl (s : State) (i : SignalId) : SameAt s s i := ⟨rfl, rfl, rfl⟩

theorem SameAt.symm (h : SameAt s t i) : SameAt t s i :=
  ⟨h.size.symm, h.scalar.symm, h.words.symm⟩

theorem SameAt.trans {u : State} (h : SameAt s t i) (h' : SameAt t u i) : SameAt s u i :=
  ⟨h.size.trans h'.size, h.scalar.trans h'.scalar, h.words.trans h'.words⟩

theorem SameAt.read (h : SameAt s t i) : s.read i = t.read i := by
  rw [State.read, State.read, h.scalar]

theorem SameAt.word (h : SameAt s t i) (n : Nat) : s.word i n = t.word i n := by
  rw [State.word, State.word, h.words]

@[simp] theorem size_setScalar (s : State) (i : SignalId) (v : Word) :
    (s.setScalar i v).scalars.size = s.scalars.size := by
  simp [setScalar]

@[simp] theorem size_store (s : State) (w : Write) :
    (s.store w).scalars.size = s.scalars.size := by
  unfold store
  split <;> simp [setWord]

@[simp] theorem size_storeAll (s : State) (ws : List Write) :
    (s.storeAll ws).scalars.size = s.scalars.size := by
  induction ws generalizing s with
  | nil => rfl
  | cons w ws ih => exact (ih _).trans (size_store s w)

theorem scalar_setScalar (s : State) (i j : SignalId) (v : Word) :
    (s.setScalar i v).scalar j =
      if i = j ∧ i < s.scalars.size then some v else s.scalar j := by
  simp only [scalar, setScalar, Array.getElem?_setIfInBounds]
  by_cases hij : i = j
  · subst hij
    by_cases hi : i < s.scalars.size <;> simp [hi]
  · simp [hij]

@[simp] theorem words_setScalar (s : State) (i j : SignalId) (v : Word) :
    (s.setScalar i v).words j = s.words j := rfl

@[simp] theorem scalar_setWord (s : State) (i j : SignalId) (n : Nat) (v : Word) :
    (s.setWord i n v).scalar j = s.scalar j := rfl

theorem words_setWord (s : State) (i j : SignalId) (n : Nat) (v : Word) :
    (s.setWord i n v).words j =
      if i = j then (s.words j).setIfInBounds n v else s.words j := by
  simp only [words, setWord, Array.getElem?_modify]
  by_cases hij : i = j
  · subst hij
    cases s.memories[i]? <;> simp
  · simp [hij]

theorem store_sameAt (h : SameAt s t i) (w : Write) : SameAt (s.store w) (t.store w) i := by
  refine ⟨by simp [h.size], ?_, ?_⟩
  · unfold store
    split
    · simp only [scalar_setScalar, h.size, h.scalar]
    · exact h.scalar
  · unfold store
    split
    · exact h.words
    · simp only [words_setWord, h.words]

theorem store_other (s : State) (h : w.dest ≠ i) : SameAt (s.store w) s i := by
  refine ⟨size_store s w, ?_, ?_⟩
  · unfold store
    split
    · rw [scalar_setScalar, if_neg (fun hc => h hc.1)]
    · rfl
  · unfold store
    split
    · rfl
    · rw [words_setWord, if_neg h]

theorem storeAll_nil (s : State) : s.storeAll [] = s := rfl

theorem storeAll_cons (s : State) (w : Write) (ws : List Write) :
    s.storeAll (w :: ws) = (s.store w).storeAll ws := rfl

theorem storeAll_append (s : State) (ws vs : List Write) :
    s.storeAll (ws ++ vs) = (s.storeAll ws).storeAll vs := List.foldl_append

theorem storeAll_sameAt (h : SameAt s t i) (ws : List Write) :
    SameAt (s.storeAll ws) (t.storeAll ws) i := by
  induction ws generalizing s t with
  | nil => exact h
  | cons w ws ih => exact ih (store_sameAt h w)

theorem storeAll_other (h : ∀ w ∈ ws, w.dest ≠ i) : SameAt (s.storeAll ws) s i := by
  induction ws generalizing s with
  | nil => exact .refl s i
  | cons w ws ih =>
    have hw := store_other s (h w List.mem_cons_self)
    exact (ih fun v hv => h v (List.mem_cons_of_mem w hv)).trans hw

/-- Only the writes to a signal matter for it. -/
theorem storeAll_filter (s : State) (ws : List Write) (i : SignalId) :
    SameAt (s.storeAll ws) (s.storeAll (ws.filter (·.dest == i))) i := by
  induction ws generalizing s with
  | nil => exact .refl s i
  | cons w ws ih =>
    by_cases hw : w.dest = i
    · rw [List.filter_cons_of_pos (by simpa using hw)]
      exact ih (s.store w)
    · rw [List.filter_cons_of_neg (by simpa using hw)]
      exact (storeAll_sameAt (store_other s hw) ws).trans (ih s)

/-- The writes before and after a stretch that alone writes a signal do not matter for it. -/
theorem storeAll_sole (s : State) {before after : List Write} (hb : ∀ w ∈ before, w.dest ≠ i)
    (ha : ∀ w ∈ after, w.dest ≠ i) :
    SameAt (s.storeAll (before ++ ws ++ after)) (s.storeAll ws) i := by
  rw [storeAll_append, storeAll_append]
  exact (storeAll_other ha).trans (storeAll_sameAt (storeAll_other hb) ws)

/-- The last write to a scalar stays. -/
theorem scalar_storeAll_last (s : State) {before after : List Write} {w : Write}
    (hi : w.index = none) (hs : w.dest < s.scalars.size) (ha : ∀ v ∈ after, v.dest ≠ w.dest) :
    (s.storeAll (before ++ w :: after)).scalar w.dest = some w.value := by
  rw [storeAll_append, storeAll_cons, (storeAll_other ha).scalar, store, hi]
  simp [scalar_setScalar, hs]

theorem filter_dest (hn : (ws.map Write.dest).Nodup) (hw : w ∈ ws) :
    ws.filter (·.dest == w.dest) = [w] := by
  induction ws with
  | nil => simp at hw
  | cons v ws ih =>
    rw [List.map_cons, List.nodup_cons] at hn
    rcases List.mem_cons.mp hw with rfl | hw
    · rw [List.filter_cons_of_pos (by simp), List.filter_eq_nil_iff.mpr]
      intro v hv
      have hne : v.dest ≠ w.dest := fun he => hn.1 (he ▸ List.mem_map_of_mem hv)
      simpa using hne
    · have hne : v.dest ≠ w.dest := fun he => hn.1 (he ▸ List.mem_map_of_mem hw)
      rw [List.filter_cons_of_neg (by simpa using hne), ih hn.2 hw]

/-- Where every signal is written once at most, each write to a memory stays. -/
theorem words_storeAll_once (s : State) (hn : (ws.map Write.dest).Nodup) {n : Nat}
    (hw : ⟨i, some n, v⟩ ∈ ws) : (s.storeAll ws).words i = (s.words i).setIfInBounds n v := by
  rw [(storeAll_filter s ws i).words, filter_dest hn hw, storeAll_cons, storeAll_nil, store,
    words_setWord, if_pos rfl]

theorem read_storeAll_once (s : State) (hn : (ws.map Write.dest).Nodup) (hw : ⟨i, none, v⟩ ∈ ws)
    (hi : i < s.scalars.size) : (s.storeAll ws).read i = v := by
  rw [(storeAll_filter s ws i).read, filter_dest hn hw, storeAll_cons, storeAll_nil, store,
    State.read, scalar_setScalar, if_pos ⟨rfl, hi⟩, Option.getD_some]

/-- A scalar that is written, always with the same value. -/
theorem read_storeAll_const (s : State) (hall : ∀ w ∈ ws, w.dest = i → w = ⟨i, none, v⟩)
    (hw : ⟨i, none, v⟩ ∈ ws) (hi : i < s.scalars.size) : (s.storeAll ws).read i = v := by
  induction ws generalizing s with
  | nil => simp at hw
  | cons w ws ih =>
    rw [storeAll_cons]
    by_cases hrest : ⟨i, none, v⟩ ∈ ws
    · exact ih (s.store w) (fun u hu => hall u (List.mem_cons_of_mem w hu)) hrest (by simpa using hi)
    · obtain rfl : w = ⟨i, none, v⟩ :=
        ((List.mem_cons.mp hw).resolve_right hrest).symm
      have hother : ∀ u ∈ ws, u.dest ≠ i := fun u hu he =>
        hrest (hall u (List.mem_cons_of_mem _ hu) he ▸ hu)
      rw [(storeAll_other hother).read, store, State.read, scalar_setScalar, if_pos ⟨rfl, hi⟩,
        Option.getD_some]

@[simp] theorem size_words_store (s : State) (w : Write) (i : SignalId) :
    ((s.store w).words i).size = (s.words i).size := by
  unfold store
  split
  · rfl
  · rw [words_setWord]
    split <;> simp

@[simp] theorem size_words_storeAll (s : State) (ws : List Write) (i : SignalId) :
    ((s.storeAll ws).words i).size = (s.words i).size := by
  induction ws generalizing s with
  | nil => rfl
  | cons w ws ih => exact (ih _).trans (size_words_store s w i)

theorem setScalar_self (h : s.scalar i = some v) : s.setScalar i v = s := by
  have hv : s.scalars[i]? = some (some v) := by
    simpa [scalar, Option.join_eq_some_iff] using h
  have hi : i < s.scalars.size := (Array.getElem?_eq_some_iff.mp hv).1
  have hset : s.scalars.setIfInBounds i (some v) = s.scalars := by
    apply Array.ext_getElem?
    intro j
    rw [Array.getElem?_setIfInBounds]
    by_cases hj : i = j
    · subst hj
      rw [if_pos rfl, if_pos hi, hv]
    · rw [if_neg hj]
  simp [setScalar, hset]

theorem setWord_self {n : Nat} (h : ∀ old, (s.words i)[n]? = some old → old = v) :
    s.setWord i n v = s := by
  have hset : s.memories.modify i (·.setIfInBounds n v) = s.memories := by
    apply Array.ext_getElem?
    intro j
    rw [Array.getElem?_modify]
    by_cases hj : i = j
    · subst hj
      cases hm : s.memories[i]? with
      | none => simp
      | some a =>
        have ha : ∀ old, a[n]? = some old → old = v := by simpa [words, hm] using h
        have hself : a.setIfInBounds n v = a := by
          apply Array.ext_getElem?
          intro k
          rw [Array.getElem?_setIfInBounds]
          by_cases hk : n = k
          · subst hk
            by_cases hn : n < a.size
            · have hv := ha a[n] (Array.getElem?_eq_getElem hn)
              simp [hn, hv]
            · simp [hn]
          · simp [hk]
        simp [hself]
    · simp [hj]
  simp [setWord, hset]

/-- A write that changes nothing can be left out. -/
theorem store_of_unchanged (h : s.changedBy w = false) : s.store w = s := by
  obtain ⟨dest, index, value⟩ := w
  cases index with
  | none => exact setScalar_self (by simpa [changedBy] using h)
  | some n =>
    refine setWord_self fun old ho => ?_
    simpa [changedBy, ho] using h

end State

end Lockstep.Sim
