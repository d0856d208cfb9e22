import Lockstep.Proofs.Machine.Installed

/-!
# A built machine follows its state table

A machine is assembled by declaring states and adding bodies and transitions in any order, while its
module may grow around it. Once it is built, every simulation of the module runs the state table:
the next-state wire holds the value of the last edge taken out of the current state, and at the edge
of the machine's clock the register takes it over while the body of the state is run.

Indices are counted in the range of a signed 64-bit number; a machine is taken to have fewer states.
-/

namespace Lockstep

/-- The module was only added to: more types, signals and processes. -/
structure Module.Grows (m m' : Module) : Prop where
  types : m.symbols.types.toList <+: m'.symbols.types.toList
  signals : m.symbols.signals.toList <+: m'.symbols.signals.toList
  processes : m.processes.toList <+: m'.processes.toList

namespace Module.Grows

theorem signal {m m' : Module} (h : m.Grows m') {i : SignalId} {sig : Signal}
    (hi : m.symbols.signals[i]? = some sig) : m'.symbols.signals[i]? = some sig := by
  rw [← Array.getElem?_toList] at hi ⊢
  obtain ⟨more, hmore⟩ := h.signals
  rw [← hmore, List.getElem?_append_left (List.getElem?_eq_some_iff.mp hi).1, hi]

theorem type {m m' : Module} (h : m.Grows m') {i : TypeId} {t : SignalType}
    (hi : m.symbols.types[i]? = some t) : m'.symbols.types[i]? = some t := by
  rw [← Array.getElem?_toList] at hi ⊢
  obtain ⟨more, hmore⟩ := h.types
  rw [← hmore, List.getElem?_append_left (List.getElem?_eq_some_iff.mp hi).1, hi]

end Module.Grows

/-- Exactly one process of the module assigns the signal. -/
def Module.SoleDriven (m : Module) (i : SignalId) : Prop :=
  m.processes.toList.countP (fun p => i ∈ Stmt.blockDests p.body) = 1

instance (m : Module) (i : SignalId) : Decidable (m.SoleDriven i) :=
  inferInstanceAs (Decidable (_ = _))

namespace Machine

open Sim

variable {others : List Process} {f f' : Machine} {M m m₁ : Module}

/-- A machine created in `m₀` and what has been done to it and around it since. -/
inductive Assembled (m₀ : Module) (opts : Options) : Machine → Module → Prop
  | create : Assembled m₀ opts (create m₀ opts).1 (create m₀ opts).2
  | newState {f f' : Machine} {m : Module} {name : String} {id : Nat} :
      Assembled m₀ opts f m → f.newState name = .ok (id, f') → Assembled m₀ opts f' m
  | addBody {f : Machine} {m : Module} (id : Int) (body : List Statement) :
      Assembled m₀ opts f m → Assembled m₀ opts (f.addBody id body) m
  | addGoto {f : Machine} {m : Module} (id : Int) (t : Transition Expr) :
      Assembled m₀ opts f m → Assembled m₀ opts (f.addGoto id t) m
  | addDefaults {f : Machine} {m : Module} (body : List Statement) :
      Assembled m₀ opts f m → Assembled m₀ opts { f with defaults := f.defaults ++ body } m
  | addOnReset {f : Machine} {m : Module} (body : List Statement) :
      Assembled m₀ opts f m → Assembled m₀ opts { f with onReset := f.onReset ++ body } m
  | grow {f : Machine} {m m' : Module} :
      Assembled m₀ opts f m → m.Grows m' → Assembled m₀ opts f m'

theorem Assembled.declare {m₀ : Module} {opts : Options} (h : Assembled m₀ opts f m)
    (name : String) (hb : f.built = false) (hl : f.lookup name = none) :
    Assembled m₀ opts { f with states := f.states.push { name } } m := by
  have hn : f.newState name = .ok (f.size, { f with states := f.states.push { name } }) := by
    simp [Machine.newState, hb, hl]
  exact h.newState hn

/-- The register and the wire are signals of the module and share the type of the machine. -/
structure Placed (f : Machine) (m : Module) : Prop where
  current : ∃ c, m.symbols.signals[f.current]? = some c ∧ c.type = some f.type
  next : ∃ c, m.symbols.signals[f.next]? = some c ∧ c.type = some f.type
  apart : f.current ≠ f.next
  type : ∃ t, m.symbols.types[f.type]? = some t

theorem Placed.of_fields (h : f.Placed m) (hc : f'.current = f.current) (hn : f'.next = f.next)
    (ht : f'.type = f.type) : f'.Placed m := by
  obtain ⟨hcur, hnext, hne, htype⟩ := h
  exact ⟨by rwa [hc, ht], by rwa [hn, ht], by rwa [hc, hn], by rwa [ht]⟩

theorem Placed.grow {m' : Module} (h : f.Placed m) (hg : m.Grows m') : f.Placed m' := by
  obtain ⟨⟨c, hc, hct⟩, ⟨d, hd, hdt⟩, hne, t, ht⟩ := h
  exact ⟨⟨c, hg.signal hc, hct⟩, ⟨d, hg.signal hd, hdt⟩, hne, t, hg.type ht⟩

theorem create_placed (m : Module) (opts : Options) :
    (create m opts).1.Placed (create m opts).2 := by
  simp only [create, Module.newType, Symbols.newType, Module.declareAt, Module.claimName,
    Symbols.newSignal]
  constructor <;> simp [Array.getElem_push]

theorem modifyState_fields (f : Machine) (id : Int) (what : String) (change : State → State) :
    (f.modifyState id what change).current = f.current ∧
      (f.modifyState id what change).next = f.next ∧
      (f.modifyState id what change).type = f.type := by
  unfold modifyState
  split <;> exact ⟨rfl, rfl, rfl⟩

theorem Assembled.placed {m₀ : Module} {opts : Options} (h : Assembled m₀ opts f m) :
    f.Placed m := by
  induction h with
  | create => exact create_placed m₀ opts
  | newState _ hn ih =>
    unfold Machine.newState at hn
    split at hn
    · simp at hn
    · split at hn
      · simp at hn
      · obtain ⟨-, rfl⟩ := Prod.mk.inj (Except.ok.inj hn)
        exact ih.of_fields rfl rfl rfl
  | addBody id body _ ih =>
    obtain ⟨hc, hn, ht⟩ := modifyState_fields _ id "body" fun s => { s with body := s.body ++ body }
    exact ih.of_fields hc hn ht
  | addGoto id t _ ih =>
    obtain ⟨hc, hn, ht⟩ := modifyState_fields _ id "goto" fun s => { s with gotos := s.gotos ++ [t] }
    exact ih.of_fields hc hn ht
  | addDefaults body _ ih | addOnReset body _ ih => exact ih.of_fields rfl rfl rfl
  | grow _ hg ih => exact ih.grow hg

theorem build_ok {m' : Module} (h : f.build m = (none, f', m')) :
    f.obstacle = none ∧ f' = { f with built := true } ∧ ∃ next, f.nextBody = .ok next ∧
      m'.symbols = m.symbols.setType f.type (.unsigned f.registerWidth) ∧
      m'.processes.toList = m.processes.toList ++ f.processes next := by
  unfold build at h
  split at h
  · simp at h
  · next ho =>
    dsimp only at h
    split at h
    · simp at h
    · next next hn =>
      simp only [Prod.mk.injEq, true_and] at h
      obtain ⟨rfl, rfl⟩ := h
      refine ⟨ho, rfl, next, hn, ?_, ?_⟩
      · simp [processes, Module.addProcess, sizeRegister, Module.modifySymbols]
      · simp [processes, Module.addProcess, sizeRegister, Module.modifySymbols]

theorem lowerFrom_built (f : Machine) (b : Bool) (n k : Nat) (gotos : List (Transition Expr)) :
    ({ f with built := b } : Machine).lowerFrom n k gotos = f.lowerFrom n k gotos := by
  induction gotos generalizing k with
  | nil => rfl
  | cons t gotos ih =>
    rw [lowerFrom, lowerFrom, ih]
    rfl

/-- That a machine has been built does not matter for its choice of the next state. -/
theorem nextBody_built (f : Machine) (b : Bool) :
    ({ f with built := b } : Machine).nextBody = f.nextBody := by
  have harms : ∀ n states,
      ({ f with built := b } : Machine).choiceArms n states = f.choiceArms n states := by
    intro n states
    induction states generalizing n with
    | nil => rfl
    | cons st states ih =>
      rw [choiceArms, choiceArms, ih, stateChoice, stateChoice, lowerFrom_built]
      rfl
  rw [nextBody, nextBody, harms]
  rfl

/-- That a machine has been built does not matter for its place in a module. -/
theorem Installed.withBuilt (h : f.Installed m others) (b : Bool) :
    ({ f with built := b } : Machine).Installed m others := by
  obtain ⟨before, after, next, ho, hn, hm⟩ := h.processes
  have hsized := h.sized
  exact ⟨⟨hsized.current, hsized.next, hsized.type,
      ⟨hsized.countable.index, hsized.countable.oneHot⟩, hsized.fallback⟩, h.apart, h.register,
    ⟨before, after, next, ho, (nextBody_built f b).trans hn, hm⟩, h.current_free, h.next_free,
    h.body_current, h.body_next⟩

theorem obstacle_none (h : f.obstacle = none) :
    (∃ event, f.clock = some event) ∧ (f.encoding = .oneHot → f.size ≤ 64) := by
  unfold obstacle at h
  split at h
  · simp at h
  · split at h
    · simp at h
    · split at h
      · simp at h
      · next hclk =>
        split at h
        · simp at h
        · next hsize =>
          constructor
          · cases hc : f.clock with
            | none => simp [hc] at hclk
            | some event => exact ⟨event, rfl⟩
          · intro he
            simpa [he] using hsize

theorem setType_type {g : Symbols} {i : TypeId} {t t' : SignalType} (h : g.types[i]? = some t') :
    (g.setType i t).types[i]? = some t := by
  have hi : i < g.types.size := (Array.getElem?_eq_some_iff.mp h).1
  simp [Symbols.setType, hi]

/-- The update process assigns the register, the choice of the next state the wire. -/
theorem current_mem_updateBody (f : Machine) : f.current ∈ Stmt.blockDests f.updateBody := by
  unfold updateBody
  split <;> simp [Stmt.blockDests, Stmt.dests]

theorem next_mem_nextBody {next : List Statement} (h : f.nextBody = .ok next) :
    f.next ∈ Stmt.blockDests next := by
  obtain ⟨arms, -, rfl⟩ := nextBody_eq h
  simp [Stmt.blockDests, Stmt.dests, assignNext]

theorem sized_of_build (hp : f.Placed m) (hb : f.build m = (none, f', m₁)) (hM : m₁.Grows M)
    (hn : f.size < 2 ^ 63) (hd : 0 ≤ f.fallback ∧ f.fallback < f.size) :
    f.Sized M.symbols ∧ f.current < M.symbols.signals.size := by
  obtain ⟨ho, -, next, hbody, hsym, -⟩ := build_ok hb
  obtain ⟨⟨c, hc, hct⟩, ⟨d, hdn, hdt⟩, -, t, ht⟩ := hp
  obtain ⟨-, hhot⟩ := obstacle_none ho
  have hty : M.symbols.type? (some f.type) = some (.unsigned f.registerWidth) :=
    hM.type (by rw [hsym]; exact setType_type ht)
  have hc' : M.symbols.signals[f.current]? = some c := hM.signal (by rw [hsym]; exact hc)
  have hd' : M.symbols.signals[f.next]? = some d := hM.signal (by rw [hsym]; exact hdn)
  refine ⟨⟨?_, ?_, hty, ⟨hn, hhot⟩, hd⟩, (Array.getElem?_eq_some_iff.mp hc').1⟩
  · rw [Symbols.signalType, hc', Option.bind_some, hct, hty]
  · rw [Symbols.signalType, hd', Option.bind_some, hdt, hty]

/-- The processes of a built machine stand behind those that were there before it. -/
theorem installed_between (hp : f.Placed m) (hb : f.build m = (none, f', m₁)) (hM : m₁.Grows M)
    (hn : f.size < 2 ^ 63) (hd : 0 ≤ f.fallback ∧ f.fallback < f.size)
    (hcur : M.SoleDriven f.current) (hnext : M.SoleDriven f.next) :
    ∃ extra next, f.nextBody = .ok next ∧
      M.processes.toList = m.processes.toList ++ f.processes next ++ extra ∧
      f.Installed M (m.processes.toList ++ extra) := by
  obtain ⟨-, -, next, hbody, -, hproc⟩ := build_ok hb
  obtain ⟨hsized, hreg⟩ := sized_of_build hp hb hM hn hd
  obtain ⟨extra, hextra⟩ := hM.processes
  have hall : M.processes.toList = m.processes.toList ++ f.processes next ++ extra := by
    rw [← hextra, hproc]
  -- one of the three processes assigns the signal, so none of the rest does
  have hsole : ∀ i, M.SoleDriven i →
      (i ∈ Stmt.blockDests f.updateBody ∨ i ∈ Stmt.blockDests next) →
      (∀ p ∈ m.processes.toList ++ extra, i ∉ Stmt.blockDests p.body) ∧
        i ∉ Stmt.blockDests f.dispatchBody := by
    intro i hi hown
    rw [Module.SoleDriven, hall] at hi
    simp only [List.countP_append, processes, List.countP_cons, List.countP_nil] at hi
    have hone : 1 ≤ (if decide (i ∈ Stmt.blockDests f.updateBody) = true then 1 else 0) +
        (if decide (i ∈ Stmt.blockDests next) = true then 1 else 0) := by
      rcases hown with h | h <;> simp [h]
    have hbefore : m.processes.toList.countP (fun p => i ∈ Stmt.blockDests p.body) = 0 := by omega
    have hafter : extra.countP (fun p => i ∈ Stmt.blockDests p.body) = 0 := by omega
    rw [List.countP_eq_zero] at hbefore hafter
    refine ⟨fun p hp => ?_, fun hmem => ?_⟩
    · rcases List.mem_append.mp hp with hp | hp
      · simpa using hbefore p hp
      · simpa using hafter p hp
    · simp only [hmem, decide_true, if_true] at hi
      omega
  obtain ⟨hcf, hcb⟩ := hsole _ hcur (Or.inl f.current_mem_updateBody)
  obtain ⟨hnf, hnb⟩ := hsole _ hnext (Or.inr (next_mem_nextBody hbody))
  exact ⟨extra, next, hbody, hall, hsized, hp.apart, hreg, ⟨_, _, next, rfl, hbody, hall⟩, hcf, hnf,
    hcb, hnb⟩

theorem installed_of_build (hp : f.Placed m) (hb : f.build m = (none, f', m₁)) (hM : m₁.Grows M)
    (hn : f.size < 2 ^ 63) (hd : 0 ≤ f.fallback ∧ f.fallback < f.size)
    (hcur : M.SoleDriven f.current) (hnext : M.SoleDriven f.next) :
    ∃ others, f.Installed M others := by
  obtain ⟨extra, next, -, -, h⟩ := installed_between hp hb hM hn hd hcur hnext
  exact ⟨_, h⟩

/-- The wire holds the value of the last edge taken out of the current row of the table, and the
code of the fallback state where the register holds the code of no state. -/
structure FollowsTable (f : Machine) (g : Symbols) (s : Sim.State) : Prop where
  inside : ∀ i < f.size, s.read f.current = Word.ofUInt64 (f.code i) →
    ∃ row e, f.table[i]? = some row ∧ row.code = f.code i ∧
      lastTaken g s row.edges = some e ∧ s.read f.next = f.edgeValue g s e
  outside : (∀ i < f.size, s.read f.current ≠ Word.ofUInt64 (f.code i)) →
    s.read f.next = Word.ofUInt64 (f.code f.fallback)

/-- A step of the machine from the state before an edge of its clock to the state after it. -/
structure Steps (f : Machine) (m : Module) (edge : ClockEdge) (s s' : Sim.State) : Prop where
  current : s'.read f.current =
    if f.resets m.symbols s then Word.ofUInt64 (f.code 0) else s.read f.next
  body : ∃ p ∈ firing m edge, p.name = f.name ++ "_body" ∧
    (∀ i st, f.At s i → f.states[i]? = some st → execBlock m.symbols s p.body =
      if f.resets m.symbols s then execBlock m.symbols s f.onReset
      else execBlock m.symbols s f.defaults ++ execBlock m.symbols s st.body) ∧
    (f.Astray s → execBlock m.symbols s p.body =
      if f.resets m.symbols s then execBlock m.symbols s f.onReset
      else execBlock m.symbols s f.defaults)

theorem Installed.followsTable (h : f.Installed m others) {s : Sim.State}
    (hrest : AtRest m.symbols (combinational m) s) (hfits : s.Fits m.symbols) :
    f.FollowsTable m.symbols s := by
  refine ⟨fun i hi hcode => ?_, fun hno => h.next_astray hrest hfits hno⟩
  have hst : f.states[i]? = some f.states[i] := Array.getElem?_eq_getElem hi
  obtain ⟨e, he, hval⟩ := h.next_at hrest ⟨hi, hcode⟩ hst
  refine ⟨⟨i, f.code i, f.states[i].name, stateEdges i f.states[i]⟩, e, ?_, rfl, he, hval⟩
  simp [table, List.getElem?_zipIdx, hst]

theorem Installed.steps (h : f.Installed m others) {edge : ClockEdge} {s s' : Sim.State}
    (he : Fires m edge s s') (hstep : f.stepsOn edge = true) (hfits : s.Fits m.symbols)
    (hsize : s.scalars.size = m.symbols.signals.size) : f.Steps m edge s s' := by
  refine ⟨h.edge_current he.strikes hstep hfits hsize,
    ⟨f.name ++ "_body", .clocked f.clock, f.dispatchBody⟩, ?_, rfl, ?_, h.body_astray hfits⟩
  · obtain ⟨before, after, next, -, -, hm⟩ := h.processes
    rw [firing, hm, List.filter_append, List.filter_append, firesOn_processes, hstep, if_pos rfl]
    exact List.mem_append_left _ (List.mem_append_right _ (by simp))
  · exact fun i st hat hst => h.body_at hat hst

/-- In every state of every run the wire follows the state table, and each period takes one step of
the machine, at the edge of its clock. -/
theorem built_machine_follows_table {m₀ m m₁ M : Module} {opts : Options} {f f' : Machine}
    (hf : Assembled m₀ opts f m) (hb : f.build m = (none, f', m₁)) (hM : m₁.Grows M)
    (hn : f.size < 2 ^ 63) (hd : 0 ≤ f.fallback ∧ f.fallback < f.size) (hcur : M.SoleDriven f.current)
    (hnext : M.SoleDriven f.next) {stimuli : List Stimulus} {s : Sim}
    (hs : Sim.play M stimuli = .ok s) :
    f.FollowsTable M.symbols s.state ∧ ∃ event, f.clock = some event ∧
      ∀ s', s.respond .tick = .ok s' → ∃ mid,
        Fires M .rising s.state mid ∧ Fires M .falling mid s'.state ∧
        f.FollowsTable M.symbols mid ∧
        (event.edge = .rising → f.Steps M .rising s.state mid ∧
          s'.state.read f.current = mid.read f.current) ∧
        (event.edge = .falling → mid.read f.current = s.state.read f.current ∧
          f.Steps M .falling mid s'.state) := by
  obtain ⟨others, h⟩ := installed_of_build hf.placed hb hM hn hd hcur hnext
  obtain ⟨⟨event, hevent⟩, -⟩ := obstacle_none (build_ok hb).1
  obtain ⟨hm, hrest⟩ := play_atRest hs
  have hfits := play_fits hs
  have hsize := play_size hs
  refine ⟨h.followsTable hrest hfits, event, hevent, fun s' htick => ?_⟩
  obtain ⟨-, -, mid, hrise, hfall⟩ := pulse_ok htick
  rw [hm] at hrise hfall
  have hmfits : mid.Fits M.symbols := hrise.settles.fits (hfits.storeAll edgeWrites_fits)
  have hmsize : mid.scalars.size = M.symbols.signals.size := by
    obtain ⟨ws, rfl, -⟩ := hrise.settles.writes
    simpa using hsize
  refine ⟨mid, hrise, hfall, h.followsTable hrise.settles.atRest hmfits, fun hedge => ?_,
    fun hedge => ?_⟩
  · have hr : f.stepsOn .rising = true := by simp [stepsOn, hevent, hedge]
    have hf : f.stepsOn .falling = false := by simp [stepsOn, hevent, hedge]
    exact ⟨h.steps hrise hr hfits hsize, (h.edge_idle hfall.strikes hf h.current_free h.apart).read⟩
  · have hr : f.stepsOn .rising = false := by simp [stepsOn, hevent, hedge]
    have hf : f.stepsOn .falling = true := by simp [stepsOn, hevent, hedge]
    exact ⟨(h.edge_idle hrise.strikes hr h.current_free h.apart).read, h.steps hfall hf hmfits hmsize⟩

/-- A clock, an input and a register. -/
def relayTop : Module :=
  let (clk, m) := ({ name := "relay" } : Module).addPort "clk" .input .bit
  let (_, m) := m.addPort "go" .input .bit
  let (_, m) := m.addReg "back" (.unsigned 3)
  { m with clock := some { signal := some clk } }

def relayOptions : Options := { name := "relay", encoding := .oneHot }

/-- A machine that waits for its input and comes back through a computed target. -/
def relay : Machine :=
  let f := (create relayTop relayOptions).1
  let f := { f with states := f.states.push { name := "wait" } }
  let f := { f with states := f.states.push { name := "jump" } }
  let f := { f with states := f.states.push { name := "work" } }
  let f := f.addGoto 0 (.branch (.ref 1) (.named "work") (.state 0))
  let f := f.addBody 2 [.assign 2 none (.ref 1)]
  let f := f.addGoto 2 (.jump (.after 0))
  f.addGoto 1 (.jump (.computed (.ref 2)))

def relayBuilt : Option Error × Machine × Module := relay.build (create relayTop relayOptions).2

theorem relay_assembled : Assembled relayTop relayOptions relay (create relayTop relayOptions).2 := by
  have h : Assembled relayTop relayOptions _ _ := .create
  have h := h.declare "wait" (by decide +kernel) (by decide +kernel)
  have h := h.declare "jump" (by decide +kernel) (by decide +kernel)
  have h := h.declare "work" (by decide +kernel) (by decide +kernel)
  have h := h.addGoto 0 (.branch (.ref 1) (.named "work") (.state 0))
  have h := h.addBody 2 [.assign 2 none (.ref 1)]
  have h := h.addGoto 2 (.jump (.after 0))
  exact h.addGoto 1 (.jump (.computed (.ref 2)))

/-- After a round through all three states the relay waits again, one bit of its register set. -/
theorem relay_follows_table : relayBuilt.1 = none ∧
    ∃ s, Sim.play relayBuilt.2.2 [.tick, .drive "go" 1, .tick, .tick, .tick] = .ok s ∧
      s.state.read relay.current = 1 ∧ s.state.read relay.next = 4 ∧
      relay.FollowsTable relayBuilt.2.2.symbols s.state := by
  have hb : relayBuilt = (none, relayBuilt.2) := Prod.ext (by decide +kernel) rfl
  have hrun : (Sim.play relayBuilt.2.2 [.tick, .drive "go" 1, .tick, .tick, .tick]).toOption.any
      (fun s => s.state.read relay.current == 1 && s.state.read relay.next == 4) = true := by
    decide +kernel
  obtain ⟨s, hs, hrun⟩ := Sim.exists_of_any hrun
  rw [Bool.and_eq_true, beq_iff_eq, beq_iff_eq] at hrun
  refine ⟨by rw [hb], s, hs, hrun.1, hrun.2, ?_⟩
  exact (built_machine_follows_table relay_assembled hb
    ⟨List.prefix_rfl, List.prefix_rfl, List.prefix_rfl⟩ (by decide +kernel) (by decide +kernel)
    (by decide +kernel) (by decide +kernel) hs).1

end Machine

end Lockstep
