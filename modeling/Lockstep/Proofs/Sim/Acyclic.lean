import Lockstep.Proofs.Sim.Calls
import Lockstep.Proofs.Sim.Lasting

/-!
# Acyclic logic settles

Combinational processes may hold values: a branch that is skipped leaves its destinations as they
are, and a memory is assigned word by word. So the values at rest are not determined by the inputs,
and a process may reach an undefined expression. Acyclic logic settles all the same. Each sweep brings
one more rank to rest, in the sense that what a process writes there is there already, and a sweep
over processes that are all at rest changes nothing.

There are as many ranks as sweeps but one, since the last sweep is to find that nothing changes. A
chain that uses the rank of the inputs for a signal of its own is one sweep too long.
-/

namespace Lockstep

namespace Stmt

mutual

/-- The signals and memories that decide what a statement writes to `d`: those read by the values
assigned to it, and by the conditions and selectors around these assignments. -/
def feeds (d : SignalId) : Statement → List SignalId
  | .blank => []
  | .assign dest index value => if dest = d then index.elim [] Expr.reads ++ value.reads else []
  | .cond test thn els =>
    if d ∈ blockDests thn ++ blockDests els then
      test.reads ++ blockFeeds d thn ++ blockFeeds d els
    else []
  | .case selector arms otherwise =>
    if d ∈ armDests arms ++ blockDests otherwise then
      selector.reads ++ armFeeds d arms ++ blockFeeds d otherwise
    else []

def blockFeeds (d : SignalId) : List Statement → List SignalId
  | [] => []
  | st :: rest => feeds d st ++ blockFeeds d rest

def armFeeds (d : SignalId) : List (UInt64 × List Statement) → List SignalId
  | [] => []
  | (_, body) :: rest => blockFeeds d body ++ armFeeds d rest

end

end Stmt

namespace Sim

/-- The state has a place for every signal of the table, and memories of the declared sizes. -/
structure State.Shaped (g : Symbols) (s : State) : Prop where
  scalars : s.scalars.size = g.signals.size
  memories : s.memories.size = g.signals.size
  words : ∀ i, (s.words i).size = ((initial g).words i).size

end Sim

open Sim in
/-- Each signal is assigned by one combinational process at most. The signals have ranks up to 63, and
zero where none assigns them, such that whatever an assignment reads, in its value, its index and the
conditions and selectors around it, lies below its destination. -/
structure Module.Layered (m : Module) (rank : SignalId → Nat) : Prop where
  sole : (combinational m).Pairwise fun p q =>
    ∀ d ∈ Stmt.blockDests p.body, d ∉ Stmt.blockDests q.body
  known : ∀ p ∈ combinational m, ∀ d ∈ Stmt.blockDests p.body, d < m.symbols.signals.size
  free : ∀ i, (∀ p ∈ combinational m, i ∉ Stmt.blockDests p.body) → rank i = 0
  bound : ∀ i, rank i ≤ 63
  above : ∀ p ∈ combinational m, ∀ d ∈ Stmt.blockDests p.body,
    ∀ i ∈ Stmt.blockFeeds d p.body, rank i < rank d

namespace Sim

variable {p : Process} {d : SignalId} {s : State} {g : Symbols} {w : Write}

theorem settled_snd (s : Sim) :
    s.settled.2 = (settle s.module.symbols (combinational s.module) settleLimit s.state).2 := rfl

/-! ## What decides the writes to one signal -/

/-- The writes that go to `d`. -/
def writesTo (d : SignalId) (ws : List Write) : List Write := ws.filter (·.dest == d)

@[simp] theorem writesTo_append (d : SignalId) (ws vs : List Write) :
    writesTo d (ws ++ vs) = writesTo d ws ++ writesTo d vs := List.filter_append ..

theorem mem_writesTo {ws : List Write} : w ∈ writesTo d ws ↔ w ∈ ws ∧ w.dest = d := by
  simp [writesTo]

theorem writesTo_eq_nil {ws : List Write} (h : ∀ w ∈ ws, w.dest ≠ d) : writesTo d ws = [] := by
  simpa [writesTo] using h

theorem writesTo_execBlock_eq_nil {body : List Statement} (h : d ∉ Stmt.blockDests body) :
    writesTo d (execBlock g s body) = [] :=
  writesTo_eq_nil (not_mem_execBlock h)

theorem writesTo_exec_eq_nil {st : Statement} (h : d ∉ st.dests) : writesTo d (exec g s st) = [] :=
  writesTo_eq_nil fun _ hw he => h (he ▸ exec_dest st hw)

mutual

variable {d : SignalId} {s t : State} {g : Symbols}

/-- The writes of a statement to `d` depend on a state only through what feeds `d`. -/
theorem writesTo_exec_congr (hsize : ∀ i, (s.words i).size = (t.words i).size) :
    ∀ (st : Statement), (∀ i ∈ st.feeds d, State.SameAt s t i) →
      writesTo d (exec g s st) = writesTo d (exec g t st)
  | .blank, _ => rfl
  | .assign dest index value, h => by
    by_cases hd : dest = d
    · rw [Stmt.feeds, if_pos hd] at h
      rw [exec, exec, assignment_congr (hsize dest) h]
    · have hn : d ∉ (Stmt.assign dest index value : Statement).dests := by
        simpa [Stmt.dests] using fun he => hd he.symm
      rw [writesTo_exec_eq_nil hn, writesTo_exec_eq_nil hn]
  | .cond test thn els, h => by
    by_cases hd : d ∈ Stmt.blockDests thn ++ Stmt.blockDests els
    · rw [Stmt.feeds, if_pos hd] at h
      rw [exec, exec, eval_congr test fun i hi => h i (by simp [hi])]
      split
      · exact writesTo_execBlock_congr hsize thn fun i hi => h i (by simp [hi])
      · exact writesTo_execBlock_congr hsize els fun i hi => h i (by simp [hi])
    · have hn : d ∉ (Stmt.cond test thn els : Statement).dests := hd
      rw [writesTo_exec_eq_nil hn, writesTo_exec_eq_nil hn]
  | .case selector arms otherwise, h => by
    by_cases hd : d ∈ Stmt.armDests arms ++ Stmt.blockDests otherwise
    · rw [Stmt.feeds, if_pos hd] at h
      rw [exec, exec, eval_congr selector fun i hi => h i (by simp [hi])]
      have harms : (execArms g s (eval g t selector) (g.typeOf selector).bits arms).map (writesTo d) =
          (execArms g t (eval g t selector) (g.typeOf selector).bits arms).map (writesTo d) :=
        writesTo_execArms_congr hsize arms fun i hi => h i (by simp [hi])
      have hother : writesTo d (execBlock g s otherwise) = writesTo d (execBlock g t otherwise) :=
        writesTo_execBlock_congr hsize otherwise fun i hi => h i (by simp [hi])
      cases ha : execArms g s (eval g t selector) (g.typeOf selector).bits arms <;>
        cases hb : execArms g t (eval g t selector) (g.typeOf selector).bits arms <;>
        simp_all
    · have hn : d ∉ (Stmt.case selector arms otherwise : Statement).dests := hd
      rw [writesTo_exec_eq_nil hn, writesTo_exec_eq_nil hn]

theorem writesTo_execBlock_congr (hsize : ∀ i, (s.words i).size = (t.words i).size) :
    ∀ (body : List Statement), (∀ i ∈ Stmt.blockFeeds d body, State.SameAt s t i) →
      writesTo d (execBlock g s body) = writesTo d (execBlock g t body)
  | [], _ => rfl
  | st :: rest, h => by
    rw [execBlock, execBlock, writesTo_append, writesTo_append,
      writesTo_exec_congr hsize st fun i hi => h i (by simp [Stmt.blockFeeds, hi]),
      writesTo_execBlock_congr hsize rest fun i hi => h i (by simp [Stmt.blockFeeds, hi])]

theorem writesTo_execArms_congr (hsize : ∀ i, (s.words i).size = (t.words i).size) {sel : Word}
    {width : Nat} :
    ∀ (arms : List (UInt64 × List Statement)), (∀ i ∈ Stmt.armFeeds d arms, State.SameAt s t i) →
      (execArms g s sel width arms).map (writesTo d) = (execArms g t sel width arms).map (writesTo d)
  | [], _ => rfl
  | (v, body) :: rest, h => by
    rw [execArms, execArms]
    split
    · simpa using writesTo_execBlock_congr hsize body fun i hi => h i (by simp [Stmt.armFeeds, hi])
    · exact writesTo_execArms_congr hsize rest fun i hi => h i (by simp [Stmt.armFeeds, hi])

end

/-! ## Running one process -/

theorem writesTo_supersede_ne (hw : w.dest ≠ d) (acc : List Write) :
    writesTo d (Write.supersede w acc) = writesTo d acc := by
  induction acc with
  | nil => simp [Write.supersede, writesTo, hw]
  | cons v acc ih =>
    rw [Write.supersede]
    split
    · next hslot =>
      have hv : v.dest ≠ d := by
        simp only [Write.sameSlot, Bool.and_eq_true, beq_iff_eq] at hslot
        exact hslot.1 ▸ hw
      simp [writesTo, hw, hv]
    · simp only [writesTo, List.filter_cons] at ih ⊢
      rw [ih]

theorem writesTo_supersede_eq (hw : w.dest = d) (acc : List Write) :
    writesTo d (Write.supersede w acc) = Write.supersede w (writesTo d acc) := by
  induction acc with
  | nil => simp [Write.supersede, writesTo, hw]
  | cons v acc ih =>
    by_cases hv : v.dest = d
    · have hcons : writesTo d (v :: acc) = v :: writesTo d acc := by simp [writesTo, hv]
      rw [Write.supersede, hcons, Write.supersede]
      split
      · simp [writesTo, hw]
      · rw [← ih]
        simp [writesTo, hv]
    · have hslot : v.sameSlot w = false := by simp [Write.sameSlot, hw, hv]
      have hcons : ∀ ws, writesTo d (v :: ws) = writesTo d ws := by simp [writesTo, hv]
      rw [Write.supersede, hslot, if_neg Bool.false_ne_true, hcons, hcons, ih]

theorem State.Shaped.storeAll {g : Symbols} {s : State} (h : s.Shaped g) (ws : List Write) :
    (s.storeAll ws).Shaped g := by
  refine ⟨by simp [h.scalars], ?_, fun i => by simp [h.words]⟩
  induction ws generalizing s with
  | nil => exact h.memories
  | cons w ws ih =>
    refine ih (s := s.store w) ⟨by simp [h.scalars], ?_, fun i => by simp [h.words]⟩
    unfold store
    split
    · exact h.memories
    · simpa [setWord] using h.memories

/-- The state after one process has run. -/
def ran (g : Symbols) (p : Process) (s : State) : State :=
  s.storeAll (Write.lasting (execBlock g s p.body))

theorem size_words_ran (g : Symbols) (p : Process) (s : State) (i : SignalId) :
    (s.words i).size = ((ran g p s).words i).size :=
  (State.size_words_storeAll s _ i).symm

theorem Sweep.step_eq (g : Symbols) (q : Sweep) (p : Process) :
    (q.step g p).state = ran g p q.state ∧
      (q.step g p).defined = (q.defined && runnableBlock g q.state p.body) := by
  have hdefined : ∀ (ws : List Write) (q : Sweep), (ws.foldl store q).defined = q.defined := by
    intro ws
    induction ws with
    | nil => exact fun _ => rfl
    | cons w ws ih => exact fun q => ih (q.store w)
  simp only [step, state_foldl_store, hdefined, ran, and_self]

theorem initial_shaped (g : Symbols) : (State.initial g).Shaped g :=
  ⟨by simp [State.initial], by simp [State.initial], fun _ => rfl⟩

theorem stable_shaped (m : Module) : Stable m (State.Shaped m.symbols) where
  drive _ _ _ hs := ⟨by simpa [driven] using hs.scalars, hs.memories, hs.words⟩
  write ws _ _ hs := hs.storeAll ws

/-! ## Writes that are there already -/

theorem writesTo_lasting_eq (d : SignalId) (ws : List Write) :
    writesTo d (Write.lasting ws) = Write.lasting (writesTo d ws) := by
  induction ws using List.reverseRecOn with
  | nil => rfl
  | append_singleton ws w ih =>
    rw [Write.lasting_concat, writesTo_append]
    by_cases hw : w.dest = d
    · have hone : writesTo d [w] = [w] := by simp [writesTo, hw]
      rw [writesTo_supersede_eq hw, ih, hone, Write.lasting_concat]
    · have hnone : writesTo d [w] = [] := by simp [writesTo, hw]
      rw [writesTo_supersede_ne hw, ih, hnone, List.append_nil]

/-- What the process writes to `d`, run on the state, is there already. It may write nothing. -/
def Still (g : Symbols) (p : Process) (d : SignalId) (s : State) : Prop :=
  ∀ w ∈ writesTo d (Write.lasting (execBlock g s p.body)), s.changedBy w = false

theorem Still.mono {t : State} (h : Still g p d s)
    (hsize : ∀ i, (s.words i).size = (t.words i).size) (hd : State.SameAt s t d)
    (hfeeds : ∀ i ∈ Stmt.blockFeeds d p.body, State.SameAt s t i) : Still g p d t := by
  intro w hw
  rw [writesTo_lasting_eq, ← writesTo_execBlock_congr hsize p.body hfeeds,
    ← writesTo_lasting_eq] at hw
  have hdest := (mem_writesTo.mp hw).2
  rw [← State.changedBy_congr (s := s) (hdest ▸ hd)]
  exact h w hw

theorem still_of_not_mem (hd : d ∉ Stmt.blockDests p.body) : Still g p d s := by
  intro w hw
  rw [writesTo_lasting_eq, writesTo_execBlock_eq_nil hd] at hw
  exact absurd hw List.not_mem_nil

/-- Running a process leaves alone where it is still. -/
theorem Still.ran_same (h : Still g p d s) : State.SameAt s (ran g p s) d := by
  have hfilter : State.SameAt (ran g p s)
      (s.storeAll (writesTo d (Write.lasting (execBlock g s p.body)))) d :=
    State.storeAll_filter s _ d
  rw [State.storeAll_of_unchanged h] at hfilter
  exact hfilter.symm

end Sim

namespace Module.Layered

open Sim

variable {m : Module} {rank : SignalId → Nat} (h : m.Layered rank) {s : State}
variable {r : Nat}

/-- Every process is still on the ranks up to `r`. -/
def StillUpTo (m : Module) (rank : SignalId → Nat) (r : Nat) (s : State) : Prop :=
  ∀ p ∈ combinational m, ∀ d, rank d ≤ r → Still m.symbols p d s

include h

theorem stillUpTo_ran {p : Process} (hp : p ∈ combinational m) (hr : StillUpTo m rank r s) :
    StillUpTo m rank r (ran m.symbols p s) := by
  intro q hq d hle
  by_cases hd : d ∈ Stmt.blockDests q.body
  · refine (hr q hq d hle).mono (size_words_ran _ _ _) (hr p hp d hle).ran_same fun i hi => ?_
    have := h.above q hq d hd i hi
    exact (hr p hp i (by omega)).ran_same
  · exact still_of_not_mem hd

/-- With what decides a destination at rest, running its process brings it to rest. -/
theorem still_ran {p : Process} (hp : p ∈ combinational m) (hs : s.Shaped m.symbols)
    (hr : StillUpTo m rank r s) {d : SignalId} (hle : rank d ≤ r + 1) :
    Still m.symbols p d (ran m.symbols p s) := by
  by_cases hd : d ∈ Stmt.blockDests p.body
  · intro w hw
    rw [writesTo_lasting_eq, ← writesTo_execBlock_congr (size_words_ran m.symbols p s) p.body
      (fun i hi => (hr p hp i (by have := h.above p hp d hd i hi; omega)).ran_same),
      ← writesTo_lasting_eq] at hw
    refine State.changedBy_storeAll (Write.pairwise_lasting _) (fun v hv => ?_) (mem_writesTo.mp hw).1
    rw [hs.scalars]
    exact h.known p hp _ (execBlock_dest p.body (Write.mem_of_mem_lasting hv))
  · exact still_of_not_mem hd

/-- What a sweep over some of the processes has reached. -/
structure Stilled (m : Module) (rank : SignalId → Nat) (r : Nat) (procs : List Process) (s : State) :
    Prop where
  shaped : s.Shaped m.symbols
  below : StillUpTo m rank r s
  reached : ∀ p ∈ procs, ∀ d, rank d ≤ r + 1 → Still m.symbols p d s

theorem stilled_foldl {procs : List Process} (hsub : ∀ p ∈ procs, p ∈ combinational m)
    (hsole : procs.Pairwise fun p q => ∀ d ∈ Stmt.blockDests p.body, d ∉ Stmt.blockDests q.body)
    {q : Sweep} (hq : Stilled m rank r [] q.state) :
    Stilled m rank r procs (procs.foldl (Sweep.step m.symbols) q).state := by
  induction procs using List.reverseRecOn with
  | nil => exact hq
  | append_singleton procs p ih =>
    rw [List.pairwise_append] at hsole
    have ih := ih (fun q hq => hsub q (List.mem_append_left _ hq)) hsole.1
    have hp : p ∈ combinational m := hsub p (by simp)
    rw [List.foldl_concat, (Sweep.step_eq m.symbols _ p).1]
    generalize (procs.foldl (Sweep.step m.symbols) q).state = s at ih
    refine ⟨ih.shaped.storeAll _, h.stillUpTo_ran hp ih.below, fun p' hp' d hle => ?_⟩
    rcases List.mem_append.mp hp' with hp' | hp'
    · by_cases hd : d ∈ Stmt.blockDests p'.body
      · -- an earlier process: this one does not assign its destination
        have hfree : d ∉ Stmt.blockDests p.body := hsole.2.2 p' hp' p (by simp) d hd
        refine (ih.reached p' hp' d hle).mono (size_words_ran _ _ _)
          (still_of_not_mem hfree).ran_same fun i hi => ?_
        have := h.above p' (hsub p' (List.mem_append_left _ hp')) d hd i hi
        exact (ih.below p hp i (by omega)).ran_same
      · exact still_of_not_mem hd
    · obtain rfl := List.mem_singleton.mp hp'
      exact h.still_ran hp ih.shaped ih.below hle

/-- A sweep brings one more rank to rest. -/
theorem stillUpTo_sweep (hs : s.Shaped m.symbols) (hr : StillUpTo m rank r s) :
    (sweep m.symbols (combinational m) s).state.Shaped m.symbols ∧
      StillUpTo m rank (r + 1) (sweep m.symbols (combinational m) s).state := by
  have hstilled : Stilled m rank r (combinational m) (sweep m.symbols (combinational m) s).state :=
    h.stilled_foldl (fun _ => id) h.sole ⟨hs, hr, by simp⟩
  exact ⟨hstilled.shaped, hstilled.reached⟩

/-- With all ranks at rest a sweep changes nothing, defined or not. -/
theorem sweep_unchanged (hr : StillUpTo m rank 63 s) :
    (sweep m.symbols (combinational m) s).changed = false := by
  have hsame : ∀ p ∈ combinational m, ∀ w ∈ Write.lasting (execBlock m.symbols s p.body),
      s.changedBy w = false := fun p hp w hw =>
    hr p hp w.dest (h.bound w.dest) w (mem_writesTo.mpr ⟨hw, rfl⟩)
  have hfold : ∀ procs : List Process, (∀ p ∈ procs, p ∈ combinational m) → ∀ q : Sweep, q.state = s →
      (procs.foldl (Sweep.step m.symbols) q).changed = q.changed := by
    intro procs
    induction procs with
    | nil => exact fun _ _ _ => rfl
    | cons p procs ih =>
      rintro hsub q rfl
      have hstep : q.step m.symbols p =
          { q with defined := q.defined && runnableBlock m.symbols q.state p.body } :=
        Sweep.foldl_store_of_unchanged (hsame p (hsub p List.mem_cons_self))
      rw [List.foldl_cons, hstep]
      exact ih (fun p' hp' => hsub p' (List.mem_cons_of_mem p hp')) _ rfl
  exact hfold _ (fun _ => id) ⟨s, false, true⟩ rfl

/-- With the ranks up to `r` at rest, as many sweeps as there are ranks left and one more are enough. -/
theorem settle_ne_unsettled {n : Nat} (hn : r + n = 63) (hs : s.Shaped m.symbols)
    (hr : StillUpTo m rank r s) :
    (settle m.symbols (combinational m) (n + 1) s).2 ≠ .unsettled := by
  induction n generalizing r s with
  | zero =>
    obtain rfl : r = 63 := hn
    rw [settle]
    simp only [h.sweep_unchanged hr, Bool.false_eq_true, if_false]
    split <;> exact Verdict.noConfusion
  | succ n ih =>
    obtain ⟨hs', hr'⟩ := h.stillUpTo_sweep hs hr
    rw [settle]
    split
    · exact Verdict.noConfusion
    · split
      · exact ih (by omega) hs' hr'
      · exact Verdict.noConfusion

section

variable (hpos : ∀ p ∈ combinational m, ∀ d ∈ Stmt.blockDests p.body, 0 < rank d) {s : Sim}
  (hs : Keeps m (State.Shaped m.symbols) s)
include hpos hs

/-- If only what is not assigned has rank zero, nothing has to be at rest at first. -/
theorem settled_ne_unsettled : s.settled.2 ≠ .unsettled := by
  obtain ⟨rfl, hs⟩ := hs
  refine h.settle_ne_unsettled (r := 0) (n := 63) rfl hs fun p hp d hle => ?_
  refine still_of_not_mem fun hd => ?_
  have := hpos p hp d hd
  omega

theorem set_ne_unsettled (name : String) (v : UInt64) : (s.set name v).2 ≠ some .unsettled := by
  cases hi : s.scalarId name with
  | error e =>
    have he : e ≠ .unsettled := by
      rintro rfl
      unfold scalarId at hi
      split at hi
      · cases hi
      · split at hi <;> cases hi
    unfold Sim.set
    rw [hi]
    simpa using he
  | ok i =>
    have hsettled := h.settled_ne_unsettled hpos
      (s := { s with state := driven s.module i v s.state })
      ⟨hs.1, hs.1 ▸ (stable_shaped _).drive i v _ (hs.1 ▸ hs.2)⟩
    rw [set_eq hi]
    unfold answer
    split <;> simp_all

theorem clockEdge_ne_unsettled (edge : ClockEdge) : (s.clockEdge edge).2 ≠ .unsettled := by
  rw [clockEdge_eq]
  split
  · exact h.settled_ne_unsettled hpos ⟨hs.1, hs.2.storeAll _⟩
  · exact Verdict.noConfusion

theorem tick_ne_unsettled (cycle : Nat) : s.tick.2 ≠ some (.unsettledAt cycle) := by
  have hrise := h.clockEdge_ne_unsettled hpos hs .rising
  have hkeep := (stable_shaped m).clockEdge hs .rising
  unfold Sim.tick
  cases he : s.clockEdge .rising with
  | mk t v =>
    rw [he] at hrise hkeep
    have hfall := h.clockEdge_ne_unsettled hpos hkeep .falling
    cases v with
    | undefined => simp
    | unsettled => exact absurd rfl hrise
    | settled =>
      cases he' : t.clockEdge .falling with
      | mk u v =>
        simp only [he'] at hfall ⊢
        cases v with
        | undefined => simp
        | unsettled => exact absurd rfl hfall
        | settled => simp

end

end Module.Layered

namespace Sim

variable {j k : Nat} {s : State}

/-- The logic of a layered module in which only what is not assigned has rank zero always settles: at
the start, when a signal is driven and on every clock edge, in whatever state of the module. The order
of processes and statements plays no part. -/
theorem acyclic_settles {m : Module} {rank : SignalId → Nat} (h : m.Layered rank)
    (hpos : ∀ p ∈ combinational m, ∀ d ∈ Stmt.blockDests p.body, 0 < rank d) :
    start m ≠ .error .unsettled ∧
    ∀ s : Sim, s.module = m → s.state.Shaped m.symbols →
      (∀ name v, (s.set name v).2 ≠ some .unsettled) ∧
      ∀ cycle, s.tick.2 ≠ some (.unsettledAt cycle) := by
  refine ⟨?_, fun s hm hs => ⟨h.set_ne_unsettled hpos ⟨hm, hs⟩, h.tick_ne_unsettled hpos ⟨hm, hs⟩⟩⟩
  have hsettled := h.settled_ne_unsettled hpos (s := { module := m, state := .initial m.symbols })
    ⟨rfl, initial_shaped _⟩
  unfold start
  split
  · split <;> simp_all
  · simp

def selectorRank (i : SignalId) : Nat := if i = 2 then 1 else if i = 3 then 2 else 0

/-- The value is not the selected one and the memory holds other words. -/
def selectorState : State where
  scalars := #[some 0, some 5, some 9, none]
  memories := #[#[], #[], #[], #[7, 8]]

theorem selectorState_shaped : selectorState.Shaped selector.symbols := by
  refine ⟨rfl, rfl, fun i => ?_⟩
  match i with
  | 0 | 1 | 2 | 3 => decide +kernel
  | i + 4 => simp [State.words, selectorState, State.initial, selector]

theorem selector_layered : selector.Layered selectorRank where
  sole := List.pairwise_singleton _ _
  known := by decide +kernel
  free i hi := by
    have hdests : i ∉ [2, 2, 3] := hi selector.processes[0] (List.mem_singleton_self _)
    simp only [List.mem_cons, List.not_mem_nil, or_false, not_or] at hdests
    simp [selectorRank, hdests]
  bound i := by
    unfold selectorRank
    split
    · decide
    · split <;> decide
  above := by decide +kernel

theorem selector_settles : selector.Layered selectorRank ∧ start selector ≠ .error .unsettled ∧
    ∃ s : Sim, s.module = selector ∧ s.state = selectorState ∧
      (s.set "sel" 1).2 ≠ some .unsettled ∧ s.tick.2 ≠ some (.unsettledAt 0) := by
  have hpos : ∀ p ∈ combinational selector, ∀ d ∈ Stmt.blockDests p.body, 0 < selectorRank d := by
    decide +kernel
  obtain ⟨hstart, hcalls⟩ := acyclic_settles selector_layered hpos
  obtain ⟨hset, htick⟩ := hcalls { module := selector, state := selectorState } rfl
    selectorState_shaped
  exact ⟨selector_layered, hstart, _, rfl, rfl, hset "sel" 1, htick 0⟩

/-! ## A chain that is too long -/

/-- The signal `k` of the chain takes over the one before it, and the first one is constant. -/
def link (k : Nat) : Process where
  name := "link"
  trigger := .combinational
  body := [.assign k none (if k = 0 then .lit (.value 1) (some 0) else .ref (k - 1))]

def linkSignal : Signal := { name := "x", type := some 0, kind := .wire }

/-- A chain of 64 signals, listed from its end. -/
def chain : Module where
  name := "chain"
  symbols := { types := #[.unsigned 1], signals := Array.replicate 64 linkSignal }
  processes := ((List.range 64).reverse.map link).toArray

theorem size_chain : chain.symbols.signals.size = 64 := Array.size_replicate

theorem signal_chain {i : Nat} (hi : i < 64) : chain.symbols.signals[i]? = some linkSignal := by
  rw [chain, Array.getElem?_replicate, if_pos hi]

theorem combinational_chain : combinational chain = (List.range 64).reverse.map link := by
  refine List.filter_eq_self.mpr fun p hp => ?_
  obtain ⟨k, -, rfl⟩ := List.mem_map.mp hp
  rfl

/-- Before a sweep the first `k` signals are one, the others zero. In the sweep the links from `j` on
have run. -/
structure Lit (k j : Nat) (s : State) : Prop where
  size : s.scalars.size = 64
  scalar : ∀ i : Nat, i < 64 → s.scalar i = some (if i < k ∨ i = k ∧ j ≤ k then 1 else 0)

theorem signalType_chain {i : Nat} (hi : i < 64) :
    chain.symbols.signalType i = some (.unsigned 1) := by
  rw [Symbols.signalType, signal_chain hi]
  rfl

theorem execBlock_link (hj : j < 64) (hs : Lit k (j + 1) s) :
    execBlock chain.symbols s (link j).body = [⟨j, none, if j ≤ k then 1 else 0⟩] := by
  have htype : chain.symbols.type? (some 0) = some (.unsigned 1) := rfl
  have hone : Word.fit (some (.unsigned 1)) (TypeSlot.bits (some (.unsigned 1)))
      (Word.truncate (TypeSlot.bits (some (.unsigned 1))) 1) = 1 := by decide +kernel
  have hzero : Word.fit (some (.unsigned 1)) (TypeSlot.bits (some (.unsigned 1)))
      (Word.truncate (TypeSlot.bits (some (.unsigned 1))) 0) = 0 := by decide +kernel
  have hlit : Word.ofUInt64 (chain.symbols.literal (.value 1)) = 1 := by decide +kernel
  cases j with
  | zero =>
    simp only [link, if_true, execBlock, exec, assignment, eval, Symbols.typeOf, htype, hlit, hone,
      signalType_chain hj, Option.toList_some, List.append_nil, Nat.zero_le]
  | succ j =>
    have hread : s.read j = if j + 1 ≤ k then 1 else 0 := by
      rw [State.read, hs.scalar j (by omega), Option.getD_some]
      exact if_congr (by omega) rfl rfl
    simp only [link, Nat.add_eq_zero_iff, Nat.one_ne_zero, and_false, if_false, Nat.add_sub_cancel,
      execBlock, exec, assignment, eval, Symbols.typeOf, signalType_chain hj,
      signalType_chain (i := j) (by omega), hread, Option.toList_some, List.append_nil]
    split
    · rw [hone]
    · rw [hzero]

theorem step_link (hj : j < 64) {q : Sweep} (hq : Lit k (j + 1) q.state) :
    q.step chain.symbols (link j) = q.store ⟨j, none, if j ≤ k then 1 else 0⟩ := by
  have hrun : runnableBlock chain.symbols q.state (link j).body = true := by
    simp only [link]
    split <;> rfl
  rw [Sweep.step, hrun, Bool.and_true, execBlock_link hj hq]
  rfl

theorem Lit.store (hj : j < 64) (hs : Lit k (j + 1) s) :
    Lit k j (s.store ⟨j, none, if j ≤ k then 1 else 0⟩) := by
  refine ⟨by simp [hs.size], fun i hi => ?_⟩
  rw [State.store, State.scalar_setScalar, hs.size, hs.scalar i hi]
  grind

/-- A sweep over the links below `j` lights the signal `k`, if it is one of them, and no other. -/
theorem foldl_link (hj : j ≤ 64) {q : Sweep} (hq : Lit k j q.state) (hdefined : q.defined = true) :
    let r := ((List.range j).reverse.map link).foldl (Sweep.step chain.symbols) q
    Lit k 0 r.state ∧ r.defined = true ∧ (q.changed = true ∨ k < j → r.changed = true) := by
  induction j generalizing q with
  | zero => exact ⟨hq, hdefined, fun h => h.resolve_right (Nat.not_lt_zero k)⟩
  | succ j ih =>
    have hstep := step_link hj hq
    simp only [List.range_succ, List.reverse_append, List.reverse_singleton, List.singleton_append,
      List.map_cons, List.foldl_cons, hstep]
    obtain ⟨hlit, hdef, hchanged⟩ := ih (q := q.store ⟨j, none, if j ≤ k then 1 else 0⟩) (by omega)
      (hq.store hj) hdefined
    refine ⟨hlit, hdef, fun h => hchanged ?_⟩
    by_cases hk : j = k
    · subst hk
      have hwas : q.state.scalar j = some 0 := by
        rw [hq.scalar j hj, if_neg (by omega)]
      have hnew : (some (0 : Word) != some 1) = true := by decide +kernel
      simp only [Sweep.store, State.changedBy, hwas, le_refl, if_true, hnew, Bool.or_true, true_or]
    · refine h.imp (fun h => by simp [Sweep.store, h]) fun h => by omega

/-- Each sweep lights one more signal, and all 64 of them change something. -/
theorem settle_chain {n : Nat} (hn : k + n = 64) (hs : Lit k 64 s) :
    (settle chain.symbols (combinational chain) n s).2 = .unsettled := by
  induction n generalizing k s with
  | zero => rfl
  | succ n ih =>
    obtain ⟨hlit, hdefined, hchanged⟩ := foldl_link le_rfl (q := ⟨s, false, true⟩) hs rfl
    rw [← combinational_chain] at hlit hdefined hchanged
    rw [settle]
    simp only [sweep, hdefined, hchanged (.inr (by omega)), Bool.not_true, Bool.false_eq_true,
      if_false, if_true]
    refine ih (k := k + 1) (by omega) ⟨hlit.size, fun i hi => ?_⟩
    rw [hlit.scalar i hi]
    exact congrArg some (if_congr (by omega) rfl rfl)

theorem layered_chain : chain.Layered fun i : Nat => if i < 64 then i else 0 := by
  have hmem : ∀ {p}, p ∈ combinational chain → ∃ k < 64, p = link k := by
    intro p hp
    rw [combinational_chain] at hp
    obtain ⟨k, hk, rfl⟩ := List.mem_map.mp hp
    exact ⟨k, by simpa using hk, rfl⟩
  constructor
  · rw [combinational_chain, List.pairwise_map, List.pairwise_reverse]
    refine List.nodup_range.imp fun hne => ?_
    simpa [link, Stmt.blockDests, Stmt.dests] using hne.symm
  · intro p hp d hd
    obtain ⟨k, hk, rfl⟩ := hmem hp
    obtain rfl : d = k := by simpa [link, Stmt.blockDests, Stmt.dests] using hd
    rw [size_chain]
    exact hk
  · intro i hi
    refine if_neg fun hlt => hi (link i) ?_ (by simp [link, Stmt.blockDests, Stmt.dests])
    rw [combinational_chain]
    simpa using ⟨i, hlt, rfl⟩
  · intro i
    split <;> omega
  · intro p hp d hd i hi
    obtain ⟨k, hk, rfl⟩ := hmem hp
    obtain rfl : d = k := by simpa [link, Stmt.blockDests, Stmt.dests] using hd
    cases d with
    | zero => simp [link, Stmt.blockFeeds, Stmt.feeds, Expr.reads] at hi
    | succ d =>
      obtain rfl : i = d := by simpa [link, Stmt.blockFeeds, Stmt.feeds, Expr.reads] using hi
      rw [if_pos hk, if_pos (by omega)]
      omega

/-- The chain has the ranks 0 to 63, each link above the one before it, and does not settle. -/
theorem chain_unsettled :
    (chain.Layered fun i : Nat => if i < 64 then i else 0) ∧ start chain = .error .unsettled := by
  have hlit : Lit 0 64 (.initial chain.symbols) := by
    refine ⟨by rw [State.initial, Array.size_map, size_chain], fun i hi => ?_⟩
    rw [if_neg (by omega)]
    simp only [State.scalar, State.initial, Array.getElem?_map, signal_chain hi, Option.map_some]
    rfl
  have hsettle : (settled { module := chain, state := .initial chain.symbols }).2 = .unsettled := by
    rw [settled_snd]
    exact settle_chain (k := 0) (n := 64) rfl hlit
  refine ⟨layered_chain, ?_⟩
  have hdepths : possibleDepths chain = true := by
    refine Array.all_eq_true.mpr fun i hi => ?_
    have hsignal : chain.symbols.signals[i] = linkSignal := Array.getElem_replicate hi
    rw [hsignal]
    rfl
  unfold start
  rw [hdepths, if_pos rfl]
  generalize settled { module := chain, state := .initial chain.symbols } = r at hsettle
  obtain ⟨s, v⟩ := r
  obtain rfl : v = .unsettled := hsettle
  rfl

end Sim

end Lockstep
