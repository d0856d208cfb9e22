import Lockstep.Proofs.Sim.Acyclic

/-!
# The order of the processes does not matter

In a module where each signal has one driver and the combinational processes form a ranked network,
settling leads to one state whatever order the processes run in. Each sweep brings one more rank to
rest: what decides a destination lies below it and does not move any more. So the network is at rest
in time, and two states at rest with the same inputs agree on every rank. The writes of a clock edge
go to different signals for different processes, so their order does not matter either.
-/

namespace Lockstep

open Sim in
/-- Each signal has one driver, and the combinational processes are a network of scalars with the
given ranks: they run to their end in every state and assign each of their destinations there, from
signals and memories of lower rank. -/
structure Module.Ranked (m : Module) (rank : SignalId → Nat) : Prop where
  sole : m.processes.toList.Pairwise fun p q =>
    ∀ d ∈ Stmt.blockDests p.body, d ∉ Stmt.blockDests q.body
  scalars : ∀ p ∈ combinational m, ∀ d ∈ Stmt.blockDests p.body,
    ∃ x, m.symbols.signals[d]? = some x ∧ x.kind ≠ .memory
  complete : ∀ p ∈ combinational m, ∀ s : State, s.Shaped m.symbols →
    runnableBlock m.symbols s p.body = true ∧
      ∀ d ∈ Stmt.blockDests p.body, ∃ w ∈ execBlock m.symbols s p.body, w.dest = d
  bounds : ∀ p ∈ combinational m, ∀ d ∈ Stmt.blockDests p.body, 1 ≤ rank d ∧ rank d ≤ 63
  above : ∀ p ∈ combinational m, ∀ d ∈ Stmt.blockDests p.body,
    ∀ i ∈ Stmt.blockFeeds d p.body, rank i < rank d

namespace Sim

/-- Only the writes to a signal matter for it. -/
theorem State.sameAt_of_writesTo {s : State} {i : SignalId} {ws vs : List Write}
    (h : writesTo i ws = writesTo i vs) : SameAt (s.storeAll ws) (s.storeAll vs) i := by
  have hws := storeAll_filter s ws i
  rw [show ws.filter _ = _ from h] at hws
  exact hws.trans (storeAll_filter s vs i).symm

end Sim

namespace Module.Ranked

open Sim

variable {m : Module} {rank : SignalId → Nat} (h : m.Ranked rank) {s t : State}
  {p : Process} (hp : p ∈ combinational m) {d : SignalId} (hd : d ∈ Stmt.blockDests p.body)
include h

include hp hd in
theorem words_eq_empty (hs : s.Shaped m.symbols) : s.words d = #[] := by
  obtain ⟨x, hx, hk⟩ := h.scalars p hp d hd
  refine Array.eq_empty_of_size_eq_zero ?_
  rw [hs.words d]
  simp [State.words, State.initial, hx, hk]

include hp hd in
theorem index_eq_none (hs : s.Shaped m.symbols) :
    ∀ w ∈ writesTo d (execBlock m.symbols s p.body), w.index = none := by
  intro w hto
  obtain ⟨hw, rfl⟩ := mem_writesTo.mp hto
  cases hi : w.index with
  | none => rfl
  | some n =>
    have hn := execBlock_inBounds p.body hw hi
    rw [h.words_eq_empty hp hd hs] at hn
    exact absurd hn (Nat.not_lt_zero n)

include hp hd in
/-- At rest a destination holds the value of each write to it that lasts. -/
theorem scalar_of_atRest (hs : s.Shaped m.symbols) (hr : AtRest m.symbols (combinational m) s)
    {w : Write} (hw : w ∈ Write.lasting (writesTo d (execBlock m.symbols s p.body))) :
    s.scalar d = some w.value := by
  have hindex := h.index_eq_none hp hd hs w (Write.mem_of_mem_lasting hw)
  rw [← writesTo_lasting_eq] at hw
  obtain ⟨hlasting, rfl⟩ := mem_writesTo.mp hw
  simpa [State.changedBy, hindex] using (hr p hp).2 w hlasting

/-- Outside the network the ranks of layered logic are zero. -/
theorem exists_layered : ∃ rank', m.Layered rank' ∧
    ∀ p ∈ combinational m, ∀ d ∈ Stmt.blockDests p.body, 0 < rank' d := by
  classical
  let rank' (i : SignalId) := if ∃ p ∈ combinational m, i ∈ Stmt.blockDests p.body then rank i else 0
  have hle : ∀ i, rank' i ≤ rank i := by
    intro i
    simp only [rank']
    split <;> omega
  have heq : ∀ p ∈ combinational m, ∀ d ∈ Stmt.blockDests p.body, rank' d = rank d :=
    fun p hp d hd => if_pos ⟨p, hp, hd⟩
  refine ⟨rank', ⟨h.sole.filter _, fun p hp d hd => ?_, fun i hi => ?_, fun i => ?_,
    fun p hp d hd i hi => ?_⟩, fun p hp d hd => heq p hp d hd ▸ (h.bounds p hp d hd).1⟩
  · obtain ⟨x, hx, -⟩ := h.scalars p hp d hd
    exact (Array.getElem?_eq_some_iff.mp hx).1
  · exact if_neg fun hex => hex.elim fun p hp => hi p hp.1 hp.2
  · by_cases hi : ∃ p ∈ combinational m, i ∈ Stmt.blockDests p.body
    · obtain ⟨p, hp, hd⟩ := hi
      exact (hle i).trans (h.bounds p hp i hd).2
    · simp [rank', hi]
  · exact heq p hp d hd ▸ (hle i).trans_lt (h.above p hp d hd i hi)

theorem sweep_defined (hs : s.Shaped m.symbols) :
    (sweep m.symbols (combinational m) s).state.Shaped m.symbols ∧
      (sweep m.symbols (combinational m) s).defined = true := by
  refine List.foldlRecOn (motive := fun q : Sweep => q.state.Shaped m.symbols ∧ q.defined = true)
    _ _ ⟨hs, rfl⟩ fun q hq p hp => ?_
  obtain ⟨hstate, hdefined⟩ := Sweep.step_eq m.symbols q p
  rw [hstate, hdefined, hq.2, (h.complete p hp q.state hq.1).1]
  exact ⟨hq.1.storeAll _, rfl⟩

theorem settle_ne_undefined (hs : s.Shaped m.symbols) (n : Nat) :
    (settle m.symbols (combinational m) n s).2 ≠ .undefined := by
  induction n generalizing s with
  | zero => exact Verdict.noConfusion
  | succ n ih =>
    obtain ⟨hs', hdefined⟩ := h.sweep_defined hs
    rw [settle]
    simp only [hdefined, Bool.not_true, Bool.false_eq_true, if_false]
    split
    · exact ih hs'
    · exact Verdict.noConfusion

theorem settles (hs : s.Shaped m.symbols) : ∃ t, Settles m s t := by
  obtain ⟨rank', hlayered, hpos⟩ := h.exists_layered
  have hunsettled := hlayered.settled_ne_unsettled hpos (s := { module := m, state := s }) ⟨rfl, hs⟩
  have hundefined := h.settle_ne_undefined hs settleLimit
  rw [settled_snd] at hunsettled
  cases hv : settle m.symbols (combinational m) settleLimit s with
  | mk t v => cases v <;> simp_all [Settles]

/-- Two states at rest that agree on everything outside the network agree on the network. -/
theorem sameAt_of_atRest (hs : s.Shaped m.symbols) (ht : t.Shaped m.symbols)
    (hrs : AtRest m.symbols (combinational m) s) (hrt : AtRest m.symbols (combinational m) t)
    (hout : ∀ i, (∀ p ∈ combinational m, i ∉ Stmt.blockDests p.body) → State.SameAt s t i)
    (i : SignalId) : State.SameAt s t i := by
  induction hrank : rank i using Nat.strong_induction_on generalizing i with
  | h r ih =>
    by_cases hfree : ∀ p ∈ combinational m, i ∉ Stmt.blockDests p.body
    · exact hout i hfree
    · push Not at hfree
      obtain ⟨p, hp, hd⟩ := hfree
      -- what decides the value is of lower rank, where the states agree
      have hwrites : writesTo i (execBlock m.symbols s p.body) =
          writesTo i (execBlock m.symbols t p.body) := by
        refine writesTo_execBlock_congr (fun j => (hs.words j).trans (ht.words j).symm) p.body ?_
        exact fun j hj => ih (rank j) (hrank ▸ h.above p hp i hd j hj) j rfl
      obtain ⟨w, hw⟩ : ∃ w, w ∈ Write.lasting (writesTo i (execBlock m.symbols t p.body)) := by
        obtain ⟨w, hw, hwd⟩ := (h.complete p hp t ht).2 i hd
        have hne := List.ne_nil_of_mem (mem_writesTo.mpr ⟨hw, hwd⟩)
        rw [← List.dropLast_append_getLast hne]
        exact ⟨_, Write.mem_lasting_last (by simp)⟩
      refine ⟨hs.scalars.trans ht.scalars.symm, ?_, ?_⟩
      · rw [h.scalar_of_atRest hp hd hs hrs (hwrites ▸ hw), h.scalar_of_atRest hp hd ht hrt hw]
      · rw [h.words_eq_empty hp hd hs, h.words_eq_empty hp hd ht]

end Module.Ranked

/-! ## Processes in another order -/

/-- The same module with its processes in the given order. -/
def Module.reorder (m : Module) (procs : Array Process) : Module := { m with processes := procs }

theorem Module.Ranked.reorder {m : Module} {rank : SignalId → Nat} (h : m.Ranked rank)
    {procs : Array Process} (hp : m.processes.toList.Perm procs.toList) :
    (m.reorder procs).Ranked rank := by
  have hcomb : ∀ p, p ∈ Sim.combinational (m.reorder procs) ↔ p ∈ Sim.combinational m :=
    fun p => (hp.filter _).mem_iff.symm
  have hsymm : ∀ p q : Process, (∀ d ∈ Stmt.blockDests p.body, d ∉ Stmt.blockDests q.body) →
      ∀ d ∈ Stmt.blockDests q.body, d ∉ Stmt.blockDests p.body :=
    fun p q hpq d hq hp => hpq d hp hq
  refine ⟨(hp.pairwise_iff (hsymm _ _)).mp h.sole, fun p hp => h.scalars p ((hcomb p).mp hp),
    fun p hp => h.complete p ((hcomb p).mp hp), fun p hp => h.bounds p ((hcomb p).mp hp),
    fun p hp => h.above p ((hcomb p).mp hp)⟩

namespace Sim

/-- A state of the module's shape is determined by what its signals hold. -/
theorem State.Shaped.ext {g : Symbols} {s t : State} (hs : s.Shaped g) (ht : t.Shaped g)
    (h : ∀ i, SameAt s t i) : s = t := by
  obtain ⟨scalars, memories⟩ := s
  obtain ⟨scalars', memories'⟩ := t
  have hscalars : scalars = scalars' := by
    refine Array.ext (hs.scalars.trans ht.scalars.symm) fun i hi hi' => ?_
    simpa [scalar, hi, hi'] using (h i).scalar
  have hmemories : memories = memories' := by
    refine Array.ext (hs.memories.trans ht.memories.symm) fun i hi hi' => ?_
    simpa [State.words, hi, hi'] using (h i).words
  rw [hscalars, hmemories]

/-- Where no two processes write the same signal, their order does not matter for one signal. -/
theorem writesTo_flatMap_perm {procs procs' : List Process} (hp : procs.Perm procs')
    (hsole : procs.Pairwise fun p q => ∀ d ∈ Stmt.blockDests p.body, d ∉ Stmt.blockDests q.body)
    (g : Symbols) (s : State) (d : SignalId) :
    writesTo d (edgeWrites g s procs) = writesTo d (edgeWrites g s procs') := by
  induction hp with
  | nil => rfl
  | cons p _ ih =>
    simp only [edgeWrites, List.flatMap_cons, writesTo_append] at ih ⊢
    rw [ih (List.pairwise_cons.mp hsole).2]
  | swap p q procs =>
    simp only [edgeWrites, List.flatMap_cons, writesTo_append]
    by_cases hd : d ∈ Stmt.blockDests q.body
    · have hp : d ∉ Stmt.blockDests p.body :=
        (List.pairwise_cons.mp hsole).1 p List.mem_cons_self d hd
      simp [writesTo_execBlock_eq_nil hp]
    · simp [writesTo_execBlock_eq_nil hd]
  | trans hp _ ih ih' =>
    rw [ih hsole, ih' ((hp.pairwise_iff fun hpq d hq hp => hpq d hp hq).mp hsole)]

/-- The simulation of the same module with its processes in the given order. -/
def reorder (s : Sim) (procs : Array Process) : Sim := { s with module := s.module.reorder procs }

section

variable {m : Module} {rank : SignalId → Nat} (h : m.Ranked rank) {procs : Array Process}
  (hp : m.processes.toList.Perm procs.toList)
include h hp

/-- Both orders settle, in the same state. -/
theorem settle_reorder {s : State} (hs : s.Shaped m.symbols) : ∃ t, Settles m s t ∧
    Settles (m.reorder procs) s t := by
  have h' := h.reorder hp
  obtain ⟨t, ht⟩ := h.settles hs
  obtain ⟨t', ht'⟩ := h'.settles (s := s) hs
  have hmem : ∀ p, p ∈ combinational m ↔ p ∈ combinational (m.reorder procs) :=
    fun p => (hp.filter _).mem_iff
  have hshape : ∀ {m' : Module} {u : State}, Settles m' s u → u.Shaped m.symbols := by
    intro m' u hu
    obtain ⟨ws, rfl, -⟩ := hu.writes
    exact hs.storeAll ws
  have hsame : t = t' := by
    refine (hshape ht).ext (hshape ht') (h.sameAt_of_atRest (hshape ht) (hshape ht') ht.atRest ?_ ?_)
    · exact ht'.atRest.mono fun p hp => (hmem p).mp hp
    · intro i hi
      exact (ht.other hi).trans (ht'.other fun p hp => hi p ((hmem p).mpr hp)).symm
  exact ⟨t, ht, hsame ▸ ht'⟩

theorem settled_reorder {s : Sim} (hs : Keeps m (State.Shaped m.symbols) s) :
    (s.reorder procs).settled = (s.settled.1.reorder procs, s.settled.2) := by
  obtain ⟨rfl, hs⟩ := hs
  obtain ⟨t, ht, ht'⟩ := settle_reorder h hp hs
  simp only [settled, reorder, show settle _ _ _ _ = _ from ht]
  rw [show settle _ _ _ _ = _ from ht']

theorem set_reorder {s : Sim} (hs : Keeps m (State.Shaped m.symbols) s) (name : String)
    (v : UInt64) :
    (s.reorder procs).set name v = ((s.set name v).1.reorder procs, (s.set name v).2) := by
  cases hi : s.scalarId name with
  | error e =>
    unfold set
    rw [hi, show (s.reorder procs).scalarId name = .error e from hi]
  | ok i =>
    obtain ⟨rfl, hs⟩ := hs
    have hset := settled_reorder h hp
      (s := { s with state := driven s.module i v s.state }) ⟨rfl, (stable_shaped _).drive i v _ hs⟩
    rw [set_eq hi, set_eq (s := s.reorder procs) hi]
    refine (congrArg answer hset).trans ?_
    cases he : settled { s with state := driven s.module i v s.state } with
    | mk t v => cases v <;> rfl

theorem struck_reorder {s : State} (hs : s.Shaped m.symbols) (edge : ClockEdge) :
    struck (m.reorder procs) edge s = struck m edge s := by
  refine State.Shaped.ext (hs.storeAll _) (hs.storeAll _) fun i => ?_
  have hto := writesTo_flatMap_perm (hp.filter (·.firesOn edge)) (h.sole.filter _) m.symbols s i
  exact State.sameAt_of_writesTo hto.symm

theorem clockEdge_reorder {s : Sim} (hs : Keeps m (State.Shaped m.symbols) s) (edge : ClockEdge) :
    (s.reorder procs).clockEdge edge = ((s.clockEdge edge).1.reorder procs, (s.clockEdge edge).2) := by
  obtain ⟨rfl, hs⟩ := hs
  have hall : ((firing (s.module.reorder procs) edge).all
      fun p => runnableBlock s.module.symbols s.state p.body) =
      (firing s.module edge).all fun p => runnableBlock s.module.symbols s.state p.body :=
    (hp.filter _).symm.all_eq
  have hstruck :
      ({ s.reorder procs with state := struck (s.module.reorder procs) edge s.state } : Sim) =
      reorder { s with state := struck s.module edge s.state } procs :=
    congrArg (fun t => ({ s.reorder procs with state := t } : Sim)) (struck_reorder h hp hs edge)
  by_cases hrun : ((firing s.module edge).all
      fun p => runnableBlock s.module.symbols s.state p.body) = true
  · rw [clockEdge_eq s, if_pos hrun]
    refine (if_pos (hall.trans hrun)).trans ((congrArg settled hstruck).trans ?_)
    exact settled_reorder h hp ⟨rfl, hs.storeAll _⟩
  · rw [clockEdge_eq s, if_neg hrun]
    exact (if_neg fun hno => hrun (hall.symm.trans hno)).trans
      (congrArg (·, Verdict.undefined) hstruck)

theorem tick_reorder {s : Sim} (hs : Keeps m (State.Shaped m.symbols) s) :
    (s.reorder procs).tick = (s.tick.1.reorder procs, s.tick.2) := by
  have hrise := clockEdge_reorder h hp hs .rising
  have hkeep := (stable_shaped m).clockEdge hs .rising
  unfold tick
  rw [hrise]
  cases he : s.clockEdge .rising with
  | mk t v =>
    rw [he] at hkeep
    have hfall := clockEdge_reorder h hp hkeep .falling
    cases v with
    | undefined | unsettled => rfl
    | settled =>
      simp only at hfall ⊢
      rw [hfall]
      cases he' : t.clockEdge .falling with
      | mk u v => cases v <;> rfl

theorem call_reorder {s : Sim} (hs : Keeps m (State.Shaped m.symbols) s) (e : Stimulus) :
    (s.reorder procs).call e = ((s.call e).1.reorder procs, (s.call e).2) := by
  cases e with
  | drive name v => exact set_reorder h hp hs name v
  | tick => exact tick_reorder h hp hs

theorem calls_reorder {s : Sim} (hs : Keeps m (State.Shaped m.symbols) s)
    (stimuli : List Stimulus) :
    (s.reorder procs).calls stimuli = (s.calls stimuli).reorder procs := by
  induction stimuli generalizing s with
  | nil => rfl
  | cons e stimuli ih =>
    have hcall := congrArg Prod.fst (call_reorder h hp hs e)
    simp only [calls, List.foldl_cons] at ih ⊢
    rw [hcall, ih ((stable_shaped m).call hs e)]

end

/-- In a ranked module with one driver for each signal, permuting the processes changes nothing that a
run shows: both modules start or fail alike, and after any calls both hold the same values in all
signals and memory words, and answer the next call alike. -/
theorem process_order_irrelevant {m : Module} {rank : SignalId → Nat} (h : m.Ranked rank)
    {procs : Array Process} (hp : m.processes.toList.Perm procs.toList) :
    start (m.reorder procs) = (start m).map (·.reorder procs) ∧
    ∀ s, start m = .ok s → ∀ stimuli,
      ((s.reorder procs).calls stimuli).state = (s.calls stimuli).state ∧
      ∀ e, (((s.reorder procs).calls stimuli).call e).2 = ((s.calls stimuli).call e).2 := by
  constructor
  · have hset := settled_reorder h hp (s := { module := m, state := .initial m.symbols })
      ⟨rfl, initial_shaped _⟩
    have hdepths : possibleDepths (m.reorder procs) = possibleDepths m := rfl
    simp only [reorder] at hset
    unfold start
    rw [hdepths]
    split
    · rw [show settled { module := m.reorder procs, state := .initial (m.reorder procs).symbols } = _
        from hset]
      cases he : settled { module := m, state := .initial m.symbols } with
      | mk t v => cases v <;> rfl
    · rfl
  · intro s hs stimuli
    have hkeeps : ∀ stimuli, Keeps m (State.Shaped m.symbols) (s.calls stimuli) :=
      (stable_shaped m).of_start (initial_shaped _) hs
    have hcalls : (s.reorder procs).calls stimuli = (s.calls stimuli).reorder procs :=
      calls_reorder h hp (hkeeps []) stimuli
    refine ⟨by rw [hcalls]; rfl, fun e => ?_⟩
    rw [hcalls, call_reorder h hp (hkeeps stimuli)]

/-- The sum of the total and the input. -/
def adding : Process where
  name := "add"
  trigger := .combinational
  body := [.assign 2 none (.bin .add (.ref 4) (.ref 1))]

/-- The sum, or the largest value where it has wrapped around. -/
def saturating : Process where
  name := "saturate"
  trigger := .combinational
  body := [.cond (.cmp .ult (.ref 2) (.ref 4))
    [.assign 3 none (.lit (.value 15) (some 1))] [.assign 3 none (.ref 2)]]

def registering : Process where
  name := "register"
  trigger := .clocked (some { edge := .rising, signal := some 0 })
  body := [.assign 4 none (.ref 3)]

def recording : Process where
  name := "record"
  trigger := .clocked (some { edge := .falling, signal := some 0 })
  body := [.assign 5 (some (.lit (.value 1) (some 1))) (.ref 4)]

/-- A saturating accumulator. The total is registered on the rising edge and recorded on the falling
one. -/
def accumulator : Module where
  name := "accumulator"
  symbols :=
    { types := #[.unsigned 1, .unsigned 4]
      signals := #[
        { name := "clk", type := some 0, kind := .wire },
        { name := "x", type := some 1, kind := .wire },
        { name := "sum", type := some 1, kind := .wire },
        { name := "kept", type := some 1, kind := .wire },
        { name := "total", type := some 1, kind := .reg },
        { name := "log", type := some 1, kind := .memory, depth := 2 }] }
  processes := #[adding, saturating, registering, recording]

def accumulatorRank (i : SignalId) : Nat := if i = 2 then 1 else if i = 3 then 2 else 0

theorem accumulator_ranked : accumulator.Ranked accumulatorRank := by
  have hcomb : combinational accumulator = [adding, saturating] := rfl
  have hadd : Stmt.blockDests adding.body = [2] := rfl
  have hsat : Stmt.blockDests saturating.body = [3, 3] := rfl
  refine ⟨by decide +kernel, ?_, ?_, ?_, ?_⟩
  all_goals simp only [hcomb, List.forall_mem_cons, List.not_mem_nil, false_imp_iff, implies_true,
    and_true, hadd, hsat]
  · exact ⟨⟨_, rfl, by decide⟩, ⟨_, rfl, by decide⟩, ⟨_, rfl, by decide⟩⟩
  · refine ⟨fun s _ => ⟨rfl, by simp [adding, execBlock, exec, assignment]⟩, fun s _ => ?_⟩
    simp only [saturating, runnableBlock, runnable, execBlock, exec, assignment]
    split <;> exact ⟨rfl, by simp⟩
  · decide +kernel
  · decide +kernel

/-- With the processes in the opposite order the saturated copy is computed from the old sum first, and
ends up the same. -/
theorem accumulator_order_irrelevant : accumulator.Ranked accumulatorRank ∧
    ∃ s, start accumulator = .ok s ∧
      ((s.reorder #[recording, registering, saturating, adding]).calls
        [.drive "x" 9, .tick, .drive "x" 11, .tick]).state =
      ⟨#[some 0, some 11, some 10, some 15, some 15, none], #[#[], #[], #[], #[], #[], #[0, 15]]⟩ := by
  refine ⟨accumulator_ranked, ?_⟩
  have hrun : (start accumulator).toOption.any (fun s =>
      (s.calls [.drive "x" 9, .tick, .drive "x" 11, .tick]).state ==
        ⟨#[some 0, some 11, some 10, some 15, some 15, none],
          #[#[], #[], #[], #[], #[], #[0, 15]]⟩) = true := by
    decide +kernel
  obtain ⟨s, hs, hrun⟩ := exists_of_any hrun
  have hperm : accumulator.processes.toList.Perm
      #[recording, registering, saturating, adding].toList := (List.reverse_perm _).symm
  refine ⟨s, hs, ?_⟩
  rw [((process_order_irrelevant accumulator_ranked hperm).2 s hs _).1]
  exact beq_iff_eq.mp hrun

end Sim

end Lockstep
