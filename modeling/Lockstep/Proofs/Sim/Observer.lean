import Lockstep.Proofs.Sim.Abreast

/-!
# Observers

Processes that are added to a module, and only write what the module itself neither reads nor
assigns, do not disturb it. A module and the same module with observers are run side by side: the
processes of the module see the same values on both sides and write the same, and the observers write
where nobody looks. The observed side may need more sweeps to settle, never fewer, and while its
observers are still moving, the other side has come to rest already.
-/

namespace Lockstep.Sim

/-- `full` has the processes of `base`, in their order, with those of `extra` anywhere between
them. -/
inductive Interleaved : List Process → List Process → List Process → Prop
  | nil : Interleaved [] [] []
  | base (p : Process) {base extra full : List Process} :
      Interleaved base extra full → Interleaved (p :: base) extra (p :: full)
  | extra (p : Process) {base extra full : List Process} :
      Interleaved base extra full → Interleaved base (p :: extra) (p :: full)

namespace Interleaved

variable {base extra full : List Process}

theorem filter (h : Interleaved base extra full) (keep : Process → Bool) :
    Interleaved (base.filter keep) (extra.filter keep) (full.filter keep) := by
  induction h with
  | nil => exact .nil
  | base p _ ih =>
    cases hp : keep p with
    | true => simpa [List.filter_cons, hp] using ih.base p
    | false => simpa [List.filter_cons, hp] using ih
  | extra p _ ih =>
    cases hp : keep p with
    | true => simpa [List.filter_cons, hp] using ih.extra p
    | false => simpa [List.filter_cons, hp] using ih

theorem sublist (h : Interleaved base extra full) : base.Sublist full := by
  induction h with
  | nil => exact .slnil
  | base p _ ih => exact ih.cons_cons p
  | extra p _ ih => exact ih.cons p

end Interleaved

/-- A destination of one of the processes. -/
def Assigned (procs : List Process) (i : SignalId) : Prop :=
  ∃ p ∈ procs, i ∈ Stmt.blockDests p.body

/-- The process neither reads nor assigns what is hidden. -/
structure Blind (hidden : SignalId → Prop) (p : Process) : Prop where
  reads : ∀ i ∈ Stmt.blockReads p.body, ¬ hidden i
  dests : ∀ i ∈ Stmt.blockDests p.body, ¬ hidden i

/-- The states differ in what is hidden only. -/
structure State.Beside (hidden : SignalId → Prop) (s t : State) : Prop where
  same : ∀ i, ¬ hidden i → SameAt s t i
  size : ∀ i, (s.words i).size = (t.words i).size

section

variable {hidden : SignalId → Prop} {g : Symbols} {s t : State}

namespace State.Beside

theorem refl (hidden : SignalId → Prop) (s : State) : Beside hidden s s :=
  ⟨fun i _ => .refl s i, fun _ => rfl⟩

theorem storeAll (h : Beside hidden s t) (ws : List Write) :
    Beside hidden (s.storeAll ws) (t.storeAll ws) :=
  ⟨fun i hi => storeAll_sameAt (h.same i hi) ws, by simp [h.size]⟩

/-- Writes to what is hidden, on one side. -/
theorem storeAll_hidden (h : Beside hidden s t) {ws : List Write}
    (hws : ∀ w ∈ ws, hidden w.dest) : Beside hidden s (t.storeAll ws) := by
  refine ⟨fun i hi => (h.same i hi).trans (storeAll_other fun w hw he => ?_).symm, by simp [h.size]⟩
  exact hi (he ▸ hws w hw)

theorem execBlock (h : Beside hidden s t) {p : Process} (hp : Blind hidden p) :
    Sim.execBlock g s p.body = Sim.execBlock g t p.body :=
  execBlock_congr h.size p.body fun i hi => h.same i (hp.reads i hi)

theorem runnableBlock (h : Beside hidden s t) {p : Process} (hp : Blind hidden p) :
    Sim.runnableBlock g s p.body = Sim.runnableBlock g t p.body :=
  runnableBlock_congr p.body fun i hi => h.same i (hp.reads i hi)

end State.Beside

/-! ## Sweeps -/

/-- Two sweeps under way. The one with observers changes more, and is defined less often. -/
structure Sweep.Beside (hidden : SignalId → Prop) (p q : Sweep) : Prop where
  state : State.Beside hidden p.state q.state
  changed : p.changed = true → q.changed = true
  defined : q.defined = true → p.defined = true

namespace Sweep.Beside

variable {p q : Sweep}

theorem foldl_store (h : Beside hidden p q) {ws : List Write} (hws : ∀ w ∈ ws, ¬ hidden w.dest) :
    Beside hidden (ws.foldl store p) (ws.foldl store q) := by
  induction ws generalizing p q with
  | nil => exact h
  | cons w ws ih =>
    refine ih ⟨?_, ?_, h.defined⟩ fun v hv => hws v (List.mem_cons_of_mem w hv)
    · exact h.state.storeAll [w]
    · have hsame := (h.state.same w.dest (hws w List.mem_cons_self)).changedBy
      simp only [store, hsame, Bool.or_eq_true]
      exact Or.imp_left h.changed

theorem foldl_store_hidden (h : Beside hidden p q) {ws : List Write}
    (hws : ∀ w ∈ ws, hidden w.dest) : Beside hidden p (ws.foldl store q) := by
  induction ws generalizing q with
  | nil => exact h
  | cons w ws ih =>
    refine ih ⟨?_, ?_, h.defined⟩ fun v hv => hws v (List.mem_cons_of_mem w hv)
    · have hone : ∀ v ∈ [w], hidden v.dest := by simpa using hws w List.mem_cons_self
      exact h.state.storeAll_hidden hone
    · intro hc
      simp [store, h.changed hc]

/-- A process of the module runs on both sides. -/
theorem step (h : Beside hidden p q) {proc : Process} (hproc : Blind hidden proc) :
    Beside hidden (Sweep.step g p proc) (Sweep.step g q proc) := by
  have hexec := h.state.execBlock (g := g) hproc
  have hrun := h.state.runnableBlock (g := g) hproc
  have hstart : Beside hidden
      ⟨p.state, p.changed, p.defined && runnableBlock g q.state proc.body⟩
      ⟨q.state, q.changed, q.defined && runnableBlock g q.state proc.body⟩ := by
    refine ⟨h.state, h.changed, ?_⟩
    simp only [Bool.and_eq_true]
    exact And.imp_left h.defined
  unfold Sweep.step
  rw [hexec, hrun]
  exact hstart.foldl_store fun w hw =>
    hproc.dests w.dest (execBlock_dest proc.body (Write.mem_of_mem_lasting hw))

/-- An observer runs on its side. -/
theorem step_hidden (h : Beside hidden p q) {proc : Process}
    (hproc : ∀ i ∈ Stmt.blockDests proc.body, hidden i) :
    Beside hidden p (Sweep.step g q proc) := by
  have hstart : Beside hidden p
      ⟨q.state, q.changed, q.defined && runnableBlock g q.state proc.body⟩ := by
    refine ⟨h.state, h.changed, ?_⟩
    simp only [Bool.and_eq_true]
    exact fun hd => h.defined hd.1
  unfold Sweep.step
  exact hstart.foldl_store_hidden fun w hw =>
    hproc w.dest (execBlock_dest proc.body (Write.mem_of_mem_lasting hw))

theorem foldl_step {base extra full : List Process} (hfull : Interleaved base extra full)
    (hbase : ∀ b ∈ base, Blind hidden b)
    (hextra : ∀ e ∈ extra, ∀ i ∈ Stmt.blockDests e.body, hidden i) (h : Beside hidden p q) :
    Beside hidden (base.foldl (Sweep.step g) p) (full.foldl (Sweep.step g) q) := by
  induction hfull generalizing p q with
  | nil => exact h
  | base b _ ih =>
    exact ih (fun c hc => hbase c (List.mem_cons_of_mem b hc)) hextra
      (h.step (hbase b List.mem_cons_self))
  | extra e _ ih =>
    exact ih hbase (fun c hc => hextra c (List.mem_cons_of_mem e hc))
      (h.step_hidden (hextra e List.mem_cons_self))

end Sweep.Beside

/-! ## Settling -/

variable {base extra full : List Process}

/-- Where the side with observers settles, the other does, in no more sweeps. -/
theorem State.Beside.settle (hfull : Interleaved base extra full)
    (hbase : ∀ b ∈ base, Blind hidden b)
    (hextra : ∀ e ∈ extra, ∀ i ∈ Stmt.blockDests e.body, hidden i) (n : Nat)
    (h : Beside hidden s t) {t' : State} (ht : Sim.settle g full n t = (t', .settled)) :
    ∃ s', Sim.settle g base n s = (s', .settled) ∧ Beside hidden s' t' := by
  induction n generalizing s t with
  | zero => simp [Sim.settle] at ht
  | succ n ih =>
    have hsweep : Sweep.Beside hidden (sweep g base s) (sweep g full t) :=
      Sweep.Beside.foldl_step hfull hbase hextra ⟨h, id, id⟩
    cases hd : (sweep g full t).defined with
    | false => simp [settle_undefined hd] at ht
    | true =>
      have hdb := hsweep.defined hd
      cases hc : (sweep g full t).changed with
      | false =>
        have hcb : (sweep g base s).changed = false := by
          by_contra hne
          simp [hsweep.changed (by simpa using hne)] at hc
        rw [settle_unchanged hd hc] at ht
        obtain ⟨rfl, -⟩ := Prod.mk.inj ht
        exact ⟨_, settle_unchanged hdb hcb, hsweep.state⟩
      | true =>
        rw [settle_changed hd hc] at ht
        cases hcb : (sweep g base s).changed with
        | true =>
          rw [settle_changed hdb hcb]
          exact ih hsweep.state ht
        | false =>
          -- this side has come to rest, so the sweeps to come find it as it is
          have hsame := sweep_unchanged hdb hcb
          rw [settle_unchanged hdb hcb, hsame]
          obtain ⟨s', hs', hbeside⟩ := ih (hsame ▸ hsweep.state) ht
          cases n with
          | zero => simp [Sim.settle] at hs'
          | succ n =>
            rw [settle_unchanged hdb hcb, hsame] at hs'
            obtain ⟨rfl, -⟩ := Prod.mk.inj hs'
            exact ⟨s, rfl, hbeside⟩

/-- The writes of an edge, the observers writing on their side only. -/
theorem State.Beside.edgeWrites (hfull : Interleaved base extra full)
    (hbase : ∀ b ∈ base, Blind hidden b)
    (hextra : ∀ e ∈ extra, ∀ i ∈ Stmt.blockDests e.body, hidden i) {s₀ t₀ : State}
    (h₀ : Beside hidden s₀ t₀) (h : Beside hidden s t) :
    Beside hidden (s.storeAll (Sim.edgeWrites g s₀ base)) (t.storeAll (Sim.edgeWrites g t₀ full)) := by
  induction hfull generalizing s t with
  | nil => exact h
  | base b _ ih =>
    simp only [Sim.edgeWrites, List.flatMap_cons, storeAll_append] at ih ⊢
    rw [h₀.execBlock (hbase b List.mem_cons_self)]
    exact ih (fun c hc => hbase c (List.mem_cons_of_mem b hc)) hextra (h.storeAll _)
  | extra e _ ih =>
    simp only [Sim.edgeWrites, List.flatMap_cons, storeAll_append] at ih ⊢
    refine ih hbase (fun c hc => hextra c (List.mem_cons_of_mem e hc)) (h.storeAll_hidden ?_)
    exact fun w hw => hextra e List.mem_cons_self w.dest (execBlock_dest e.body hw)

end

/-! ## Runs -/

/-- `m'` is `m` with observers, which write only what is hidden from `m`. -/
structure Observed (m : Module) (extra : List Process) (m' : Module) : Prop where
  rest : m' = { m with processes := m'.processes }
  processes : Interleaved m.processes.toList extra m'.processes.toList
  blind : ∀ p ∈ m.processes.toList, Blind (Assigned extra) p

namespace Observed

variable {m m' : Module} {extra : List Process}

theorem symbols (h : Observed m extra m') : m'.symbols = m.symbols := by rw [h.rest]

theorem filter (h : Observed m extra m') (keep : Process → Bool) :
    Interleaved (m.processes.toList.filter keep) (extra.filter keep)
        (m'.processes.toList.filter keep) ∧
      (∀ p ∈ m.processes.toList.filter keep, Blind (Assigned extra) p) ∧
      ∀ e ∈ extra.filter keep, ∀ i ∈ Stmt.blockDests e.body, Assigned extra i :=
  ⟨h.processes.filter keep, fun p hp => h.blind p (List.mem_of_mem_filter hp),
    fun e he _ hi => ⟨e, List.mem_of_mem_filter he, hi⟩⟩

theorem settles (h : Observed m extra m') {s t t' : State}
    (hst : State.Beside (Assigned extra) s t) (ht : Settles m' t t') :
    ∃ s', Settles m s s' ∧ State.Beside (Assigned extra) s' t' := by
  obtain ⟨hmix, hblind, hextra⟩ := h.filter Process.isCombinational
  unfold Settles at ht
  rw [h.symbols] at ht
  exact hst.settle hmix hblind hextra settleLimit ht

theorem fires (h : Observed m extra m') {edge : ClockEdge} {s t t' : State}
    (hst : State.Beside (Assigned extra) s t) (ht : Fires m' edge t t') :
    ∃ s', Fires m edge s s' ∧ State.Beside (Assigned extra) s' t' := by
  obtain ⟨hmix, hblind, hextra⟩ := h.filter (·.firesOn edge)
  obtain ⟨hrun, hset⟩ := ht
  rw [h.symbols] at hrun hset
  obtain ⟨s', hs', hbeside⟩ :=
    h.settles (hst.edgeWrites (g := m.symbols) hmix hblind hextra hst) hset
  refine ⟨s', ⟨fun p hp => ?_, hs'⟩, hbeside⟩
  rw [hst.runnableBlock (hblind p hp)]
  exact hrun p (hmix.sublist.subset hp)

/-- Two simulations, side by side. -/
structure Along (m : Module) (extra : List Process) (m' : Module) (s s' : Sim) : Prop where
  module : s.module = m
  module' : s'.module = m'
  state : State.Beside (Assigned extra) s.state s'.state

theorem start (h : Observed m extra m') {s' : Sim} (hs' : Sim.start m' = .ok s') :
    ∃ s, Sim.start m = .ok s ∧ Along m extra m' s s' := by
  obtain ⟨hm', -, hd, hset⟩ := start_ok hs'
  rw [h.symbols] at hset
  obtain ⟨t, ht, hbeside⟩ := h.settles (.refl _ _) hset
  refine ⟨_, start_of_settles ?_ ht, rfl, hm', hbeside⟩
  unfold possibleDepths at hd ⊢
  rwa [h.symbols] at hd

theorem respond (h : Observed m extra m') {s s' t' : Sim} (hs : Along m extra m' s s')
    {e : Stimulus} (ht' : Sim.respond s' e = .ok t') :
    ∃ t, Sim.respond s e = .ok t ∧ Along m extra m' t t' := by
  obtain ⟨hm, hm', hstate⟩ := hs
  subst hm hm'
  cases e with
  | drive name v =>
    obtain ⟨hmod, i, hi, hset⟩ := drive_ok ht'
    have hi' : drives s.module name = some i := by
      rw [h.rest] at hi
      exact hi
    have hdrive : State.Beside (Assigned extra) (driven s.module i v s.state)
        (driven s'.module i v s'.state) := by
      unfold driven
      rw [h.symbols]
      exact hstate.storeAll [⟨i, none, _⟩]
    obtain ⟨t, ht, hend⟩ := h.settles hdrive hset
    exact ⟨_, drive_of_settles hi' ht, rfl, hmod, hend⟩
  | tick =>
    obtain ⟨hmod, -, mid', hrise, hfall⟩ := pulse_ok ht'
    obtain ⟨mid, hrise', hmid⟩ := h.fires hstate hrise
    obtain ⟨t, hfall', hend⟩ := h.fires hmid hfall
    exact ⟨_, pulse_of_fires hrise' hfall', rfl, hmod, hend⟩

theorem play (h : Observed m extra m') {stimuli : List Stimulus} {s' : Sim}
    (hs' : Sim.play m' stimuli = .ok s') :
    ∃ s, Sim.play m stimuli = .ok s ∧ Along m extra m' s s' := by
  induction stimuli using List.reverseRecOn generalizing s' with
  | nil =>
    rw [play_nil] at hs' ⊢
    exact h.start hs'
  | append_singleton stimuli e ih =>
    obtain ⟨t', ht', he'⟩ := play_concat.mp hs'
    obtain ⟨t, ht, halong⟩ := ih ht'
    obtain ⟨s, hs, hend⟩ := h.respond halong he'
    exact ⟨s, play_concat.mpr ⟨t, ht, hs⟩, hend⟩

end Observed

/-- Adding observers does not disturb a module: where a run succeeds with them it succeeds without, and
both hold the same in every signal and every memory word that the observers do not write. This is so
after every call, since the beginning of a run is a run. -/
theorem observers_do_not_disturb {m m' : Module} {extra : List Process}
    (hrest : m' = { m with processes := m'.processes })
    (hprocs : Interleaved m.processes.toList extra m'.processes.toList)
    (hfree : ∀ p ∈ extra, ∀ i ∈ Stmt.blockDests p.body, ∀ q ∈ m.processes.toList,
      i ∉ Stmt.blockReads q.body ∧ i ∉ Stmt.blockDests q.body)
    {stimuli : List Stimulus} {s' : Sim} (hs' : play m' stimuli = .ok s') :
    ∃ s, play m stimuli = .ok s ∧ ∀ i, (∀ p ∈ extra, i ∉ Stmt.blockDests p.body) →
      s.state.scalar i = s'.state.scalar i ∧ s.state.words i = s'.state.words i := by
  have h : Observed m extra m' := by
    refine ⟨hrest, hprocs, fun q hq => ⟨?_, ?_⟩⟩
    · rintro i hi ⟨p, hp, hd⟩
      exact (hfree p hp i hd q hq).1 hi
    · rintro i hi ⟨p, hp, hd⟩
      exact (hfree p hp i hd q hq).2 hi
  obtain ⟨s, hs, halong⟩ := h.play hs'
  refine ⟨s, hs, fun i hi => ?_⟩
  have hseen : ¬ Assigned extra i := by
    rintro ⟨p, hp, hd⟩
    exact hi p hp hd
  have hsame := halong.state.same i hseen
  exact ⟨hsame.scalar, hsame.words⟩

/-- Counts the pulses of its input. -/
def counting : Process where
  name := "count"
  trigger := .clocked (some { edge := .rising, signal := some 0 })
  body := [.cond (.ref 1) [.assign 2 none (.bin .add (.ref 2) (.lit (.value 1) (some 1)))] []]

/-- Shows the low bit of the count. -/
def parity : Process where
  name := "parity"
  trigger := .combinational
  body := [.assign 3 none (.ref 2)]

/-- Keeps the last count that was even. -/
def keeping : Process where
  name := "keep"
  trigger := .clocked (some { edge := .falling, signal := some 0 })
  body := [.cond (.ref 3) [] [.assign 4 (some (.lit (.value 1) (some 0))) (.ref 2)]]

/-- Shows whether the count has moved on from what was kept. -/
def moving : Process where
  name := "moved"
  trigger := .combinational
  body := [.assign 5 none (.cmp .ne (.index 4 (.lit (.value 1) (some 0))) (.ref 2))]

def pulseCounter : Module where
  name := "counter"
  symbols :=
    { types := #[.unsigned 1, .unsigned 4]
      signals := #[
        { name := "clk", type := some 0, kind := .wire },
        { name := "pulse", type := some 0, kind := .wire },
        { name := "count", type := some 1, kind := .reg },
        { name := "odd", type := some 0, kind := .wire },
        { name := "seen", type := some 1, kind := .memory, depth := 2 },
        { name := "moved", type := some 0, kind := .wire }] }
  processes := #[counting, parity]

/-- The counter with both observers, one before it and one in its middle. -/
def watchedCounter : Module :=
  { pulseCounter with processes := #[moving, counting, keeping, parity] }

theorem watchedCounter_undisturbed :
    let stimuli : List Stimulus := [.drive "pulse" 1, .tick, .tick, .tick]
    ∃ s', play watchedCounter stimuli = .ok s' ∧ s'.state.scalar 2 = some 3 ∧
      s'.state.words 4 = #[0, 2] ∧ s'.state.scalar 5 = some 1 ∧
      ∃ s, play pulseCounter stimuli = .ok s ∧ s.state.scalar 2 = some 3 := by
  intro stimuli
  have hrun : (play watchedCounter stimuli).toOption.any (fun s =>
      s.state.scalar 2 == some 3 && s.state.words 4 == #[0, 2] && s.state.scalar 5 == some 1) =
      true := by
    decide +kernel
  obtain ⟨s', hs', hrun⟩ := exists_of_any hrun
  simp only [Bool.and_eq_true, beq_iff_eq] at hrun
  obtain ⟨⟨hcount, hseen⟩, hmoved⟩ := hrun
  have hprocs : Interleaved pulseCounter.processes.toList [moving, keeping]
      watchedCounter.processes.toList :=
    .extra _ (.base _ (.extra _ (.base _ .nil)))
  have hfree : ∀ p ∈ [moving, keeping], ∀ i ∈ Stmt.blockDests p.body,
      ∀ q ∈ pulseCounter.processes.toList,
        i ∉ Stmt.blockReads q.body ∧ i ∉ Stmt.blockDests q.body := by
    decide +kernel
  obtain ⟨s, hs, hsame⟩ := observers_do_not_disturb rfl hprocs hfree hs'
  have h2 := (hsame 2 (by decide +kernel)).1
  exact ⟨s', hs', hcount, hseen, hmoved, s, hs, h2.trans hcount⟩

end Lockstep.Sim
