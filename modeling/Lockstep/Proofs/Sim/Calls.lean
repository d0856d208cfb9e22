import Lockstep.Proofs.Sim.Play

/-!
# Calls that may fail

A simulation that has started goes on whether or not its logic settles: a call that fails leaves a
state behind, and the next call starts from there. Whatever it answers, a call moves the state in two
ways only, by driving one signal and by writes that processes of the module make. So the widths of
stored values, which both ways keep, hold after every sequence of calls.
-/

namespace Lockstep.Sim

/-- What a stimulus does to a simulation, and what it answers if it fails. -/
def call (s : Sim) : Stimulus → Sim × Option Error
  | .drive name v => s.set name v
  | .tick => s.tick

/-- Applies the stimuli in turn, past those that fail. -/
def calls (s : Sim) (stimuli : List Stimulus) : Sim :=
  stimuli.foldl (fun s e => (s.call e).1) s

/-- What a call that ends with settling answers. -/
def answer : Sim × Verdict → Sim × Option Error
  | (s, .settled) => (s, none)
  | (s, .unsettled) => (s, some .unsettled)
  | (s, .undefined) => (s, some .undefined)

theorem set_eq {s : Sim} {name : String} {i : SignalId} (hi : s.scalarId name = .ok i)
    (v : UInt64) :
    s.set name v = answer (settled { s with state := driven s.module i v s.state }) := by
  unfold set
  rw [hi]
  rfl

/-- The state right after an edge, before its effect has settled. -/
def struck (m : Module) (edge : ClockEdge) (s : State) : State :=
  s.storeAll (edgeWrites m.symbols s (firing m edge))

theorem clockEdge_eq (s : Sim) (edge : ClockEdge) : s.clockEdge edge =
    if ((firing s.module edge).all fun p => runnableBlock s.module.symbols s.state p.body) = true then
      settled { s with state := struck s.module edge s.state }
    else ({ s with state := struck s.module edge s.state }, .undefined) := rfl

/-- A property of states that no call to a simulation of `m` takes away. -/
structure Stable (m : Module) (P : State → Prop) : Prop where
  drive : ∀ i v s, P s → P (driven m i v s)
  write : ∀ ws s, Sweep.MadeBy m.symbols m.processes.toList ws → P s → P (s.storeAll ws)

/-- The simulation is one of `m`, in a state with the property. -/
def Keeps (m : Module) (P : State → Prop) (s : Sim) : Prop := s.module = m ∧ P s.state

namespace Stable

variable {m : Module} {P : State → Prop}

theorem settle (h : Stable m P) {s : State} (hs : P s) (n : Nat) :
    P (Sim.settle m.symbols (combinational m) n s).1 := by
  obtain ⟨ws, hws, hmade⟩ := settle_writes m.symbols (combinational m) n s
  rw [hws]
  refine h.write ws s (fun w hw => ?_) hs
  obtain ⟨p, hp, t, hmem⟩ := hmade w hw
  exact ⟨p, List.mem_of_mem_filter hp, t, hmem⟩

theorem settled (h : Stable m P) {s : Sim} (hs : Keeps m P s) : Keeps m P s.settled.1 := by
  obtain ⟨rfl, hp⟩ := hs
  exact ⟨rfl, h.settle hp settleLimit⟩

theorem set (h : Stable m P) {s : Sim} (hs : Keeps m P s) (name : String) (v : UInt64) :
    Keeps m P (s.set name v).1 := by
  cases hi : s.scalarId name with
  | error e =>
    unfold Sim.set
    rw [hi]
    exact hs
  | ok i =>
    obtain ⟨rfl, hp⟩ := hs
    have hset := h.settled (s := { s with state := driven s.module i v s.state })
      ⟨rfl, h.drive i v _ hp⟩
    rw [set_eq hi]
    unfold answer
    split <;> next he => rw [he] at hset; exact hset

theorem clockEdge (h : Stable m P) {s : Sim} (hs : Keeps m P s) (edge : ClockEdge) :
    Keeps m P (s.clockEdge edge).1 := by
  obtain ⟨rfl, hp⟩ := hs
  have hmade : Sweep.MadeBy s.module.symbols s.module.processes.toList
      (edgeWrites s.module.symbols s.state (firing s.module edge)) := by
    intro w hw
    obtain ⟨p, hmem, hw⟩ := List.mem_flatMap.mp hw
    exact ⟨p, List.mem_of_mem_filter hmem, s.state, hw⟩
  have hstruck : P (struck s.module edge s.state) := h.write _ _ hmade hp
  rw [clockEdge_eq]
  split
  · exact h.settled ⟨rfl, hstruck⟩
  · exact ⟨rfl, hstruck⟩

theorem tick (h : Stable m P) {s : Sim} (hs : Keeps m P s) : Keeps m P s.tick.1 := by
  have hrise := h.clockEdge hs .rising
  unfold Sim.tick
  split
  · next he => rw [he] at hrise; exact hrise
  · next he => rw [he] at hrise; exact hrise
  · next he =>
    rw [he] at hrise
    have hfall := h.clockEdge hrise .falling
    split <;> next he' => rw [he'] at hfall; exact hfall

theorem call (h : Stable m P) {s : Sim} (hs : Keeps m P s) (e : Stimulus) :
    Keeps m P (s.call e).1 := by
  cases e with
  | drive name v => exact h.set hs name v
  | tick => exact h.tick hs

theorem calls (h : Stable m P) {s : Sim} (hs : Keeps m P s) (stimuli : List Stimulus) :
    Keeps m P (s.calls stimuli) := by
  induction stimuli generalizing s with
  | nil => exact hs
  | cons e stimuli ih => exact ih (h.call hs e)

/-- What holds of the state before anything has run holds after every sequence of calls. -/
theorem of_start (h : Stable m P) (hinit : P (.initial m.symbols)) {s : Sim}
    (hs : start m = .ok s) (stimuli : List Stimulus) : Keeps m P (s.calls stimuli) := by
  obtain ⟨hm, -, -, hset⟩ := start_ok hs
  refine h.calls ⟨hm, ?_⟩ stimuli
  have := h.settle hinit settleLimit
  rwa [hset] at this

end Stable

/-! ## Widths -/

namespace State

/-- The words of every memory are values of its width. -/
def WordsFit (g : Symbols) (s : State) : Prop :=
  ∀ i (n : Nat) (v : Word), (s.words i)[n]? = some v → v.toNat < 2 ^ (g.signalType i).bits

theorem WordsFit.setWord {g : Symbols} {s : State} (h : s.WordsFit g) {i : SignalId} {n : Nat}
    {v : Word} (hv : v.toNat < 2 ^ (g.signalType i).bits) : (s.setWord i n v).WordsFit g := by
  intro j k x hx
  rw [words_setWord] at hx
  split at hx
  · next hij =>
    subst hij
    rw [Array.getElem?_setIfInBounds] at hx
    split at hx
    · next hk =>
      split at hx
      · exact Option.some.inj hx ▸ hv
      · simp at hx
    · exact h i k x hx
  · exact h j k x hx

theorem WordsFit.storeAll {g : Symbols} {s : State} (h : s.WordsFit g) {ws : List Write}
    (hw : ∀ w ∈ ws, w.Fits g) : (s.storeAll ws).WordsFit g := by
  induction ws generalizing s with
  | nil => exact h
  | cons w ws ih =>
    refine ih ?_ fun v hv => hw v (List.mem_cons_of_mem w hv)
    unfold store
    split
    · exact h
    · exact h.setWord (hw w List.mem_cons_self)

theorem initial_wordsFit (g : Symbols) : (initial g).WordsFit g := by
  intro i n v h
  -- the words of a memory are zero at first, and no other signal has words
  have hz : v = 0 := by
    simp only [words, initial, Array.getElem?_map] at h
    cases hs : g.signals[i]? with
    | none => simp [hs] at h
    | some x =>
      rw [hs, Option.map_some, Option.getD_some] at h
      split at h
      · rw [Array.getElem?_replicate] at h
        split at h
        · exact (Option.some.inj h).symm
        · simp at h
      · simp at h
  subst hz
  exact Nat.two_pow_pos _

/-- Every signal that is declared as a scalar has a value. -/
def Holds (g : Symbols) (s : State) : Prop :=
  ∀ i x, g.signals[i]? = some x → x.declared = true → x.kind ≠ .memory → (s.scalar i).isSome = true

theorem Holds.setScalar {g : Symbols} {s : State} (h : s.Holds g) (i : SignalId) (v : Word) :
    (s.setScalar i v).Holds g := by
  intro j x hx hd hk
  rw [scalar_setScalar]
  split
  · rfl
  · exact h j x hx hd hk

theorem Holds.storeAll {g : Symbols} {s : State} (h : s.Holds g) (ws : List Write) :
    (s.storeAll ws).Holds g := by
  induction ws generalizing s with
  | nil => exact h
  | cons w ws ih =>
    refine ih ?_
    unfold store
    split
    · exact h.setScalar _ _
    · exact h

theorem initial_holds (g : Symbols) : (initial g).Holds g := by
  intro i x hx hd hk
  simp only [scalar, initial, Array.getElem?_map, hx, Option.map_some, Option.join_some, hd,
    Bool.true_and, bne_iff_ne, ne_eq, hk, not_false_eq_true, if_true]
  split <;> rfl

/-- Every scalar has a value of its width, and every memory words of its width. -/
structure InWidth (g : Symbols) (s : State) : Prop where
  fits : s.Fits g
  words : s.WordsFit g
  holds : s.Holds g

end State

theorem stable_inWidth (m : Module) : Stable m (State.InWidth m.symbols) where
  drive i _ _ hs :=
    ⟨hs.fits.setScalar (Word.truncate_lt _ _), hs.words, hs.holds.setScalar i _⟩
  write ws _ hmade hs :=
    ⟨hs.fits.storeAll (MadeBy.fits hmade), hs.words.storeAll (MadeBy.fits hmade),
      hs.holds.storeAll ws⟩

/-- After every sequence of calls, successful or not, each declared scalar holds a value below the
bound of its width and each memory word is below the bound of its memory's, and every expression
has a value below the bound of its own type. -/
theorem values_within_widths {m : Module} {s : Sim} (hs : start m = .ok s)
    (stimuli : List Stimulus) :
    (∀ i x, m.symbols.signals[i]? = some x → x.declared = true → x.kind ≠ .memory →
      ∃ v, (s.calls stimuli).state.scalar i = some v ∧
        v.toNat < 2 ^ (m.symbols.signalType i).bits) ∧
    (∀ i (n : Nat) (v : Word), ((s.calls stimuli).state.words i)[n]? = some v →
      v.toNat < 2 ^ (m.symbols.signalType i).bits) ∧
    ∀ e, (eval m.symbols (s.calls stimuli).state e).toNat < 2 ^ (m.symbols.typeOf e).bits := by
  have h := ((stable_inWidth m).of_start
    ⟨initial_fits _, State.initial_wordsFit _, State.initial_holds _⟩ hs stimuli).2
  refine ⟨fun i x hx hd hk => ?_, h.words, eval_lt _ _⟩
  obtain ⟨v, hv⟩ := Option.isSome_iff_exists.mp (h.holds i x hx hd hk)
  exact ⟨v, hv, h.fits i v hv⟩

/-- A pattern of four bits that flips as long as it is enabled, and a memory that takes a sum of nine
bits on every clock edge. -/
def flipper : Module where
  name := "flipper"
  symbols :=
    { types := #[.unsigned 1, .unsigned 4, .unsigned 9]
      signals := #[
        { name := "clk", type := some 0, kind := .wire },
        { name := "enable", type := some 0, kind := .wire },
        { name := "pattern", type := some 1, kind := .wire },
        { name := "log", type := some 1, kind := .memory, depth := 2 }] }
  processes := #[
    { name := "flip"
      trigger := .combinational
      body := [.cond (.ref 1)
        [.cond (.ref 2) [.assign 2 none (.not (.ref 2))] [.assign 2 none (.lit (.value 509) (some 2))]]
        []] },
    { name := "keep"
      trigger := .clocked (some { signal := some 0 })
      body := [.assign 3 (some (.ref 1)) (.bin .add (.ref 2) (.lit (.value 300) (some 2)))] }]

/-- The enabled pattern never settles; it and the memory stay below sixteen all the same. -/
theorem flipper_within_widths : ∃ s, start flipper = .ok s ∧
    (s.call (.drive "enable" 1)).2 = some .unsettled ∧
    (s.calls [.drive "enable" 1, .tick]).state.read 2 ≠ 0 ∧
    ∃ v, ((s.calls [.drive "enable" 1, .tick]).state.words 3)[1]? = some v ∧ v ≠ 0 ∧
      v.toNat < 2 ^ 4 := by
  have hrun : (start flipper).toOption.any (fun s =>
      (s.call (.drive "enable" 1)).2 == some .unsettled &&
      (s.calls [.drive "enable" 1, .tick]).state.read 2 != 0 &&
      (((s.calls [.drive "enable" 1, .tick]).state.words 3)[1]?).any (· != 0)) = true := by
    decide +kernel
  obtain ⟨s, hs, hrun⟩ := exists_of_any hrun
  simp only [Bool.and_eq_true, beq_iff_eq] at hrun
  obtain ⟨⟨hcall, hpattern⟩, hword⟩ := hrun
  obtain ⟨v, hv, hne⟩ := (Option.any_eq_true ..).mp hword
  exact ⟨s, hs, hcall, bne_iff_ne.mp hpattern, v, hv, bne_iff_ne.mp hne,
    (values_within_widths hs [.drive "enable" 1, .tick]).2.1 3 1 v hv⟩

end Lockstep.Sim
