import Lockstep.Proofs.Program.Discipline
import Lockstep.Proofs.Program.Paired

/-!
# State codes cannot be observed

Two runs of one program, with index codes and with one-hot codes, on the same stimuli. Each settles
when the other does, and each edge of the clock carries both to the same state with the same live
activations. So the runs succeed or fail together, they agree on every signal and memory that holds
no state code, and from the first tick on their registers hold the codes of one and the same state.
-/

namespace Lockstep

open Sim

namespace Machine

theorem code_eq_iff {f : Machine} (hc : f.Countable) {i j : Nat} (hi : i < f.size)
    (hj : j < f.size) :
    Word.ofUInt64 (f.code i) = Word.ofUInt64 (f.code j) ↔ i = j :=
  ⟨fun h => code_inj hc hi hj (Word.ofUInt64_inj.mp h), fun h => by rw [h]⟩

/-- No edge writes the wire. -/
theorem Installed.edge_next {f : Machine} {m : Module} {others : List Process}
    (h : f.Installed m others) (s : Sim.State) {edge : ClockEdge} (hstep : f.stepsOn edge = true) :
    State.SameAt (s.storeAll (edgeWrites m.symbols s (firing m edge))) s f.next := by
  obtain ⟨before, after, hw, hothers⟩ := h.edgeWrites_eq s edge
  rw [hstep, if_pos rfl] at hw
  have hfree := other_of_writes hothers h.next_free
  refine State.storeAll_other fun w hmem => ?_
  rw [hw] at hmem
  simp only [List.mem_append] at hmem
  rcases hmem with (hmem | hmem | hmem) | hmem
  · exact hfree w (List.mem_append_left _ hmem)
  · exact not_mem_execBlock (fun hx => h.apart (f.updateBody_dests _ hx).symm) w hmem
  · exact not_mem_execBlock h.body_next w hmem
  · exact hfree w (List.mem_append_right _ hmem)

end Machine

theorem Sim.drives_of_scalarId {s : Sim} {name : String} {i : SignalId}
    (h : s.scalarId name = .ok i) : drives s.module name = some i := by
  unfold scalarId at h
  split at h
  · simp at h
  · next j hj =>
    split at h
    · simp at h
    · next hm =>
      cases h
      simp [drives, hj, hm]

theorem Sim.drive_eq (s : Sim) (name : String) (v : UInt64) : Bench.drive s name v =
    match s.scalarId name with
    | .error e => .error e
    | .ok i =>
      match Sim.settled { s with state := driven s.module i v s.state } with
      | (s, .settled) => .ok s
      | (_, .unsettled) => .error .unsettled
      | (_, .undefined) => .error .undefined := by
  unfold Bench.drive Sim.set
  cases s.scalarId name with
  | error e => rfl
  | ok i =>
    dsimp only [driven]
    generalize Sim.settled _ = x
    obtain ⟨t, w⟩ := x
    cases w <;> rfl

theorem Sim.edgeWrites_append (g : Symbols) (s : Sim.State) (a b : List Process) :
    edgeWrites g s (a ++ b) = edgeWrites g s a ++ edgeWrites g s b := List.flatMap_append

theorem Sim.edgeWrites_recoded {κ : Coding} {g g' : Symbols} {s s' : Sim.State}
    (h : g.Recoded κ g') (hs : State.Agrees g κ s s') {procs : List Process}
    (hprocs : ∀ p ∈ procs, Stmt.blockUncoded g κ p.body = true ∧
      ∀ i ∈ Stmt.blockDests p.body, g.isCoded κ i = false) :
    edgeWrites g' s' procs = edgeWrites g s procs :=
  List.flatMap_congr fun p hp => execBlock_recoded_eq h hs (hprocs p hp).1 (hprocs p hp).2

namespace Program

open Machine

variable {escapes : Prop} {q : Sequencer} {fs : Array Function} {M M' : Module}
variable {before after : List Process} {L : List (Site Nat)} {live : List Activation}
variable {s s' : Sim.State}

/-! ## One edge of the clock -/

theorem Twins.reset_defined (T : Twins escapes q fs M M' before after L) :
    M'.symbols.defined q.machine.reset = M.symbols.defined q.machine.reset :=
  defined_recoded T.symbols T.oblivious.reset

namespace Paired

variable (h : Paired escapes q fs M M' L live s s') (T : Twins escapes q fs M M' before after L)
variable {edge : ClockEdge}
include h T

theorem resets_eq :
    (q.reencode .oneHot).machine.resets M'.symbols s' = q.machine.resets M.symbols s := by
  have heval := eval_recoded T.symbols h.agrees T.oblivious.reset
  change (q.machine.reset != .hole && eval M'.symbols s' q.machine.reset != 0) = _
  rw [heval]
  rfl

/-- The bodies of the machine make the same visible writes on both sides. -/
theorem body_visible :
    Write.visible M.symbols q.machine.coding
        (execBlock M'.symbols s' (q.reencode .oneHot).machine.dispatchBody) =
      Write.visible M.symbols q.machine.coding
        (execBlock M.symbols s q.machine.dispatchBody) := by
  have hblock := fun body => execBlock_recoded T.symbols h.agrees body
  have hdefaults := hblock q.machine.defaults (T.oblivious.blocks _ List.mem_cons_self)
  have hreset := hblock q.machine.onReset
    (T.oblivious.blocks _ (List.mem_cons_of_mem _ List.mem_cons_self))
  cases h.abreast with
  | inState k site hat hat' hsite ho =>
    obtain ⟨st, hst⟩ := hat.exists_state
    have hbody := hblock st.body (T.oblivious.body hst)
    rw [T.installed.body_at hat hst, T.installed'.body_at hat' hst, h.resets_eq T]
    split
    · exact hreset
    · rw [Write.visible_append, Write.visible_append, hbody]
      exact congrArg (· ++ _) hdefaults
  | fresh hlive hzero hzero' hrun =>
    have hat := T.at_zero hzero
    have hno := T.astray_zero hzero'
    obtain ⟨st, hst, hbody, -⟩ := T.idle_state
    rw [T.installed.body_at hat hst, T.installed'.body_astray h.fits' hno, h.resets_eq T, hbody,
      execBlock, List.append_nil]
    split
    · exact hreset
    · exact hdefaults

theorem body_runnable :
    runnableBlock M'.symbols s' (q.reencode .oneHot).machine.dispatchBody =
      runnableBlock M.symbols s q.machine.dispatchBody := by
  have hblock := fun body => runnableBlock_recoded T.symbols h.agrees body
  have hdefaults : runnableBlock M'.symbols s' (q.reencode .oneHot).machine.defaults = _ :=
    hblock q.machine.defaults (T.oblivious.blocks _ List.mem_cons_self)
  have hreset : runnableBlock M'.symbols s' (q.reencode .oneHot).machine.onReset = _ :=
    hblock q.machine.onReset (T.oblivious.blocks _ (List.mem_cons_of_mem _ List.mem_cons_self))
  have hdefined : M'.symbols.defined (q.reencode .oneHot).machine.reset = _ := T.reset_defined
  -- what is left is the dispatch of the states
  suffices hcase : runnable M'.symbols s' (.case (.ref (q.reencode .oneHot).machine.current)
      (q.reencode .oneHot).machine.bodyArms []) =
      runnable M.symbols s (.case (.ref q.machine.current) q.machine.bodyArms []) by
    rw [runnable_dispatch, runnable_dispatch, h.resets_eq T, hdefaults, hreset, hdefined, hcase]
    rfl
  cases h.abreast with
  | inState k site hat hat' hsite ho =>
    obtain ⟨st, hst⟩ := hat.exists_state
    have hbody := hblock st.body (T.oblivious.body hst)
    rw [T.installed.sized.runnable_case_at hat q.machine.bodyArms_coded (bodyArms_get hst),
      T.installed'.sized.runnable_case_at hat' (bodyArms_coded _) (bodyArms_get hst), hbody]
  | fresh hlive hzero hzero' hrun =>
    have hat := T.at_zero hzero
    have hno := T.astray_zero hzero'
    obtain ⟨st, hst, hbody, -⟩ := T.idle_state
    have hcur := h.fits'.read (q.reencode .oneHot).machine.current
    rw [T.installed'.sized.current, T.installed'.sized.registerBits] at hcur
    rw [T.installed.sized.runnable_case_at hat q.machine.bodyArms_coded (bodyArms_get hst),
      T.installed'.sized.runnable_case_astray hcur hno (bodyArms_coded _), hbody]
    rfl

/-- A call passes the same values on both sides. -/
theorem passed_eq {k : Nat} {owner : Option InstanceRef} {r : InstanceRef} {args : List Expr}
    {request : Int} {resume : Nat} (hsite : L[k]? = some ⟨owner, .call r args request resume⟩)
    (hk : k < q.machine.size) {inst : Instance} (hinst : instance? fs r = some inst) :
    passed M'.symbols s' inst args = passed M.symbols s inst args := by
  have hst : q.machine.states[k]? = some _ := Array.getElem?_eq_getElem hk
  obtain ⟨inst', link, -, -, hi, -, hbody, -⟩ := T.plan.sites k _ _ hsite hst
  cases hinst.symm.trans hi.2
  have hpush := T.oblivious.body hst
  rw [hbody] at hpush
  simp only [Instance.push, Stmt.blockUncoded, Stmt.isUncoded, Bool.and_eq_true] at hpush
  refine List.map_congr_left fun x hx => ?_
  obtain ⟨mem, a⟩ := x
  have hmem : M.symbols.isCoded q.machine.coding mem = false := by
    have hargs := (List.of_mem_zip hx).1
    refine T.stack_uncoded hi (by simp [Instance.stack, hargs]) fun heq => ?_
    have hnodup : (inst.returnAddr :: inst.args).Nodup :=
      (List.nodup_cons.mp (List.nodup_cons.mp (T.grounded.stacked r inst hi).nodup).2).2
    exact (List.nodup_cons.mp hnodup).1 (heq ▸ hargs)
  have ha : a.isUncoded M.symbols q.machine.coding = true := by
    have hassign := Stmt.blockUncoded_mem hpush.1.1.2 (List.mem_append_left _
      (List.mem_map_of_mem hx))
    simp only [Stmt.isUncoded, hmem, Bool.and_eq_true] at hassign
    simpa using hassign.2
  simp only [typeOf_recoded T.symbols ha, signalType_recoded T.symbols hmem,
    eval_recoded T.symbols h.agrees ha]

/-- A step leaves the same activations live on both sides. -/
theorem stepLive_eq : stepLive (q.reencode .oneHot) fs M'.symbols L live s' =
    stepLive q fs M.symbols L live s := by
  unfold stepLive
  rw [h.resets_eq T]
  cases hr : q.machine.resets M.symbols s with
  | true => rfl
  | false =>
    rw [if_neg Bool.false_ne_true, if_neg Bool.false_ne_true]
    cases h.abreast with
    | inState k site hat hat' hsite ho =>
      rw [hat.index? T.installed.sized.countable, hat'.index? T.installed'.sized.countable,
        Option.bind_some, hsite]
      obtain ⟨owner, role⟩ := site
      cases role with
      | idle | plain | ret => rfl
      | call r args request resume =>
        cases hinst : instance? fs r with
        | none => simp only [hinst]
        | some inst =>
          have hroom : inst.room M'.symbols = inst.room M.symbols := by
            rw [Instance.room, Instance.room, T.symbols.signals]
          simp only [hinst, hroom, h.passed_eq T hsite hat.1 hinst]
    | fresh hlive hzero hzero' hrun =>
      rw [(T.at_zero hzero).index? T.installed.sized.countable, (T.astray_zero hzero').index?,
        Option.bind_some, Option.bind_none, T.plan.first]

/-- Every live activation comes back to a state. -/
theorem stepLive_resumes : ∀ a ∈ stepLive q fs M.symbols L live s, a.resume < q.machine.size := by
  intro a ha
  unfold stepLive at ha
  split at ha
  · exact absurd ha List.not_mem_nil
  · cases hx : (q.machine.index? s).bind (L[·]?) with
    | none =>
      rw [hx] at ha
      exact h.resumes a ha
    | some site =>
      obtain ⟨k, -, hsite⟩ := Option.bind_eq_some_iff.mp hx
      rw [hx] at ha
      obtain ⟨owner, role⟩ := site
      cases role with
      | idle | plain => exact h.resumes a ha
      | ret => exact h.resumes a (List.mem_of_mem_tail ha)
      | call r args request resume =>
        simp only at ha
        split at ha
        · split at ha
          · rcases List.mem_cons.mp ha with rfl | ha
            · exact T.resumes k owner r args request resume hsite
            · exact h.resumes a ha
          · exact h.resumes a ha
        · exact h.resumes a ha

theorem others_runnable {procs : List Process} (hprocs : ∀ p ∈ procs, p ∈ before ++ after) :
    (procs.all fun p => runnableBlock M'.symbols s' p.body) =
      procs.all fun p => runnableBlock M.symbols s p.body := by
  rw [Bool.eq_iff_iff, List.all_eq_true, List.all_eq_true]
  refine forall₂_congr fun p hp => ?_
  rw [runnableBlock_recoded T.symbols h.agrees p.body (T.others_uncoded (hprocs p hp)).1]

/-- An edge evaluates an undefined expression on both sides or on none. -/
theorem edge_runnable (edge : ClockEdge) :
    ((firing M' edge).all fun p => runnableBlock M'.symbols s' p.body) =
      (firing M edge).all fun p => runnableBlock M.symbols s p.body := by
  have hupdate : runnableBlock M'.symbols s' (q.reencode .oneHot).machine.updateBody =
      runnableBlock M.symbols s q.machine.updateBody := by
    rw [runnable_update, runnable_update]
    exact congrArg (_ || ·) T.reset_defined
  have hsteps : (q.reencode .oneHot).machine.stepsOn edge = q.machine.stepsOn edge := rfl
  rw [firing_eq T.processes, firing_eq T.processes', hsteps]
  simp only [List.all_append]
  rw [h.others_runnable T fun p hp => List.mem_append_left _ (List.mem_filter.mp hp).1,
    h.others_runnable T fun p hp => List.mem_append_right _ (List.mem_filter.mp hp).1]
  cases q.machine.stepsOn edge with
  | false => rfl
  | true => simp only [if_true, List.all_cons, List.all_nil, hupdate, h.body_runnable T]

theorem edgeWrites_others {procs : List Process} (hprocs : ∀ p ∈ procs, p ∈ before ++ after) :
    edgeWrites M'.symbols s' procs = edgeWrites M.symbols s procs :=
  edgeWrites_recoded T.symbols h.agrees fun p hp => T.others_uncoded (hprocs p hp)

/-- On an edge on which the machine does not step, nothing made for the program changes. -/
theorem edge_idle (hstep : q.machine.stepsOn edge = false) {j : Nat} (hw : Wired q j s s') :
    Paired escapes q fs M M' L live (s.storeAll (edgeWrites M.symbols s (firing M edge)))
        (s'.storeAll (edgeWrites M'.symbols s' (firing M' edge))) ∧
      Wired q j (s.storeAll (edgeWrites M.symbols s (firing M edge)))
        (s'.storeAll (edgeWrites M'.symbols s' (firing M' edge))) := by
  have hfiring : firing M' edge = firing M edge := by
    rw [firing_eq T.processes, firing_eq T.processes', hstep,
      show (q.reencode .oneHot).machine.stepsOn edge = false from hstep]
    rfl
  have hothers : ∀ p ∈ firing M edge, p ∈ before ++ after := by
    intro p hp
    rw [firing_eq T.processes, hstep] at hp
    simp only [Bool.false_eq_true, if_false, List.append_nil, List.mem_append, List.mem_filter] at hp
    exact List.mem_append.mpr (hp.imp And.left And.left)
  have heq := h.edgeWrites_others T hothers
  have hmade : ∀ {g : Symbols} {x : Sim.State} {procs : List Process},
      Sweep.MadeBy g procs (edgeWrites g x procs) := by
    intro g x procs w hw
    obtain ⟨p, hp, hx⟩ := List.mem_flatMap.mp hw
    exact ⟨p, hp, x, hx⟩
  rw [hfiring, heq]
  obtain ⟨hkept, hsame⟩ := h.others T hothers hmade (heq ▸ hmade)
  have hnext := hsame q.machine.next (Sequencer.mem_made.mpr (.inr (.inl rfl)))
  exact ⟨hkept, hw.same hnext.1 hnext.2⟩

/-- The visible writes of an edge are the same on both sides. -/
theorem edge_visible (hstep : q.machine.stepsOn edge = true) :
    Write.visible M.symbols q.machine.coding (edgeWrites M'.symbols s' (firing M' edge)) =
      Write.visible M.symbols q.machine.coding (edgeWrites M.symbols s (firing M edge)) := by
  have hcurrent : ∀ (f : Machine) (g : Symbols) (x : Sim.State), f.current = q.machine.current →
      Write.visible M.symbols q.machine.coding (execBlock g x f.updateBody) = [] := by
    intro f g x hf
    refine Write.visible_eq_nil fun w hw => ?_
    rw [f.updateBody_dests w.dest (execBlock_dest f.updateBody hw), hf]
    exact T.current_coded
  rw [firing_eq T.processes, firing_eq T.processes', hstep,
    show (q.reencode .oneHot).machine.stepsOn edge = true from hstep]
  simp only [edgeWrites_append, Write.visible_append, if_true]
  rw [h.edgeWrites_others T fun p hp => List.mem_append_left _ (List.mem_filter.mp hp).1,
    h.edgeWrites_others T fun p hp => List.mem_append_right _ (List.mem_filter.mp hp).1]
  simp only [edgeWrites, List.flatMap_cons, List.flatMap_nil, List.append_nil, Write.visible_append,
    hcurrent q.machine _ _ rfl, hcurrent (q.reencode .oneHot).machine _ _ rfl, h.body_visible T]

/-- On an edge on which the machine steps, both runs go to the state that their wires hold, or to
the first one on a reset. -/
theorem edge_step (hstep : q.machine.stepsOn edge = true) (hs : Resting M s) (hs' : Resting M' s')
    {j : Nat} (hw : Wired q j s s') :
    Paired escapes q fs M M' L (stepLive q fs M.symbols L live s)
        (s.storeAll (edgeWrites M.symbols s (firing M edge)))
        (s'.storeAll (edgeWrites M'.symbols s' (firing M' edge))) ∧
      Wired q j (s.storeAll (edgeWrites M.symbols s (firing M edge)))
        (s'.storeAll (edgeWrites M'.symbols s' (firing M' edge))) := by
  have hstrikes : Strikes M edge s (s.storeAll (edgeWrites M.symbols s (firing M edge))) :=
    fun _ _ => .refl _ _
  have hstrikes' : Strikes M' edge s' (s'.storeAll (edgeWrites M'.symbols s' (firing M' edge))) :=
    fun _ _ => .refl _ _
  have hagrees := h.agrees.storeAll (h.edge_visible T hstep)
  have hsame := T.installed.edge_next s hstep
  have hsame' := T.installed'.edge_next s'
    (show (q.reencode .oneHot).machine.stepsOn edge = true from hstep)
  obtain ⟨hlive, hplace⟩ := h.holds.step T.grounded T.plan hs hstrikes hstep (.inl (h.inPlace T))
  obtain ⟨hlive', -⟩ := h.holds'.step T.grounded' T.plan' hs' hstrikes' hstep (h.inPlace' T)
  rw [h.stepLive_eq T] at hlive'
  have hcur := T.installed.edge_current hstrikes hstep h.fits h.size
  have hcur' := T.installed'.edge_current hstrikes' hstep h.fits' h.size'
  rw [h.resets_eq T] at hcur'
  -- the registers take over the codes of one state
  obtain ⟨i, hat, hat'⟩ : ∃ i,
      q.machine.At (s.storeAll (edgeWrites M.symbols s (firing M edge))) i ∧
      (q.reencode .oneHot).machine.At
        (s'.storeAll (edgeWrites M'.symbols s' (firing M' edge))) i := by
    cases hr : q.machine.resets M.symbols s with
    | true =>
      rw [hr, if_pos rfl] at hcur hcur'
      exact ⟨0, ⟨T.size_pos, hcur⟩, T.size_pos, hcur'⟩
    | false =>
      rw [hr, if_neg Bool.false_ne_true] at hcur hcur'
      exact ⟨j, ⟨hw.lt, hcur.trans hw.read.1⟩, hw.lt, hcur'.trans hw.read.2⟩
  refine ⟨⟨hagrees, hlive, hlive', h.stepLive_resumes T, h.fits.storeAll edgeWrites_fits,
    h.fits'.storeAll edgeWrites_fits, by simpa using h.size, by simpa using h.size', ?_⟩,
    hw.same hsame hsame'⟩
  rcases hplace.cases T.grounded T.plan with ⟨k, site, hk, hsite, ho⟩ | ⟨hno, -⟩
  · obtain rfl := hat.unique T.installed.sized.countable hk
    exact .inState i site hat hat' hsite ho
  · exact absurd hat.2 (hno i hat.1)

end Paired

/-! ## Settling -/

/-- Sweeps keep the runs side by side, with the wires at one state. -/
theorem Twins.sweepsAlike (T : Twins escapes q fs M M' before after L) (live : List Activation) :
    SweepsAlike M.symbols M'.symbols (combinational M) (combinational M') fun s s' =>
      Paired escapes q fs M M' L live s s' ∧ ∃ j, Wired q j s s' := by
  rintro s s' ⟨h, i, hi⟩
  obtain ⟨j, b, d, t, t', ht, hj, hsweep, hsweep', -⟩ := h.sweep_eq T
  have hcode := code_eq_iff T.installed.sized.countable hi.lt hj.lt
  have hcode' := code_eq_iff T.installed'.sized.countable hi.lt hj.lt
  rw [hsweep, hsweep']
  refine ⟨rfl, ?_, ht, j, hj⟩
  -- the wires change on both sides or on none, as codes of two states differ
  simp only [State.changedBy, hi.wire, hi.wire']
  by_cases hij : i = j
  · simp [hij]
  · rw [bne_iff_ne.mpr fun hx => hij (hcode.mp (Option.some.inj hx)),
      bne_iff_ne.mpr fun hx => hij (hcode'.mp (Option.some.inj hx))]

/-- The first sweep after the start brings the runs side by side. -/
theorem Twins.starts (T : Twins escapes q fs M M' before after L) :
    (settle M'.symbols (combinational M') settleLimit (.initial M'.symbols)).2 =
        (settle M.symbols (combinational M) settleLimit (.initial M.symbols)).2 ∧
      Paired escapes q fs M M' L []
        (settle M.symbols (combinational M) settleLimit (.initial M.symbols)).1
        (settle M'.symbols (combinational M') settleLimit (.initial M'.symbols)).1 ∧
      ∃ j, Wired q j (settle M.symbols (combinational M) settleLimit (.initial M.symbols)).1
        (settle M'.symbols (combinational M') settleLimit (.initial M'.symbols)).1 := by
  obtain ⟨x, hx, hreg⟩ := T.grounded.register
  obtain ⟨y, hy, hflag⟩ := T.flag
  obtain ⟨z, hz, hwire⟩ := T.wire
  have hzero : (State.initial M.symbols).read q.machine.current = 0 := read_initial hx hreg
  have hzero' : (State.initial M'.symbols).read q.machine.current = 0 :=
    read_initial (T.symbols.signals ▸ hx) hreg
  have hpaired : Paired escapes q fs M M' L [] (.initial M.symbols) (.initial M'.symbols) :=
    ⟨.initial T.symbols, .initial T.grounded, .initial T.grounded', by simp, initial_fits _,
      initial_fits _, by simp [State.initial], by simp [State.initial],
      .fresh rfl hzero hzero' (read_initial hy hflag)⟩
  obtain ⟨j, b, d, t, t', ht, hj, hsweep, hsweep', hfresh⟩ := hpaired.sweep_eq T
  obtain rfl := hfresh (T.astray_zero hzero')
  refine (T.sweepsAlike []).settle_late 62 ?_ ?_ ?_
  · rw [hsweep, hsweep']
  · -- with index codes the wire holds the code of the end state from the start, if it is declared
    have hinit : ∀ {g : Symbols}, g.signals[q.machine.next]? = some z →
        (State.initial g).scalar q.machine.next = if z.declared then some 0 else none := by
      intro g hg
      simp [State.scalar, State.initial, hg, hwire]
    rw [hsweep, hsweep']
    simp only [State.changedBy, hinit hz, hinit (T.symbols.signals ▸ hz), code_zero T.not_oneHot]
    cases z.declared with
    | true =>
      rw [if_pos rfl, bne_self_eq_false, Bool.false_or]
      intro hb
      rw [hb, Bool.or_true]
    | false => exact fun _ => rfl
  · rw [hsweep, hsweep']
    exact ⟨ht, 0, hj⟩

/-! ## Runs -/

/-- The two simulations side by side, each at rest. -/
structure Together (escapes : Prop) (q : Sequencer) (fs : Array Function) (M M' : Module)
    (L : List (Site Nat)) (sim sim' : Sim) : Prop where
  module : sim.module = M
  module' : sim'.module = M'
  cycle : sim'.cycle = sim.cycle
  rest : Resting M sim.state
  rest' : Resting M' sim'.state
  paired : ∃ live, Paired escapes q fs M M' L live sim.state sim'.state ∧
    ∃ j, Wired q j sim.state sim'.state

/-- Both sides succeed and are related, or both fail for the same reason. -/
def SameEnd (R : Sim → Sim → Prop) : Except Sim.Error Sim → Except Sim.Error Sim → Prop
  | .ok sim, .ok sim' => R sim sim'
  | .error e, .error e' => e = e'
  | _, _ => False

theorem SameEnd.bind {R S : Sim → Sim → Prop} {x x' : Except Sim.Error Sim}
    {f f' : Sim → Except Sim.Error Sim} (h : SameEnd R x x')
    (hf : ∀ sim sim', R sim sim' → SameEnd S (f sim) (f' sim')) :
    SameEnd S (x >>= f) (x' >>= f') := by
  cases x with
  | error e =>
    cases x' with
    | error e' => exact h
    | ok sim' => exact h.elim
  | ok sim =>
    cases x' with
    | error e' => exact h.elim
    | ok sim' => exact hf sim sim' h

section Steps

variable (T : Twins escapes q fs M M' before after L)
variable {sim sim' : Sim}
include T

/-- Settling ends with the same verdict on both sides. -/
theorem Twins.settled {sim sim' : Sim} (hm : sim.module = M) (hm' : sim'.module = M')
    (hcycle : sim'.cycle = sim.cycle) (h : Paired escapes q fs M M' L live sim.state sim'.state)
    {j : Nat} (hw : Wired q j sim.state sim'.state) :
    sim'.settled.2 = sim.settled.2 ∧ sim'.settled.1.cycle = sim.settled.1.cycle ∧
      (sim.settled.2 = .settled → Together escapes q fs M M' L sim.settled.1 sim'.settled.1) := by
  obtain ⟨hverdict, hpaired⟩ := (T.sweepsAlike live).settle settleLimit ⟨h, j, hw⟩
  subst hm hm'
  refine ⟨hverdict, hcycle, fun hs => ⟨rfl, rfl, hcycle, ?_, ?_, live, hpaired⟩⟩
  · exact Settles.resting (Prod.ext rfl hs) h.fits h.size
  · exact Settles.resting (Prod.ext rfl (hverdict.trans hs)) h.fits' h.size'

/-- So does an edge of the clock. -/
theorem Together.clockEdge (h : Together escapes q fs M M' L sim sim') (edge : ClockEdge) :
    (sim'.clockEdge edge).2 = (sim.clockEdge edge).2 ∧
      (sim'.clockEdge edge).1.cycle = (sim.clockEdge edge).1.cycle ∧
      ((sim.clockEdge edge).2 = .settled →
        Together escapes q fs M M' L (sim.clockEdge edge).1 (sim'.clockEdge edge).1) := by
  obtain ⟨hm, hm', hcycle, hrest, hrest', live, hp, j, hw⟩ := h
  obtain ⟨live', hp', hw'⟩ : ∃ live', Paired escapes q fs M M' L live'
      (sim.state.storeAll (edgeWrites M.symbols sim.state (firing M edge)))
      (sim'.state.storeAll (edgeWrites M'.symbols sim'.state (firing M' edge))) ∧
      Wired q j (sim.state.storeAll (edgeWrites M.symbols sim.state (firing M edge)))
        (sim'.state.storeAll (edgeWrites M'.symbols sim'.state (firing M' edge))) := by
    cases hstep : q.machine.stepsOn edge with
    | true => exact ⟨_, hp.edge_step T hstep hrest hrest' hw⟩
    | false => exact ⟨live, hp.edge_idle T hstep hw⟩
  have hrunnable := hp.edge_runnable T edge
  have hnext := @Twins.settled _ _ _ _ _ _ _ _ _ T
    { sim with state := sim.state.storeAll (edgeWrites M.symbols sim.state (firing M edge)) }
    { sim' with state := sim'.state.storeAll (edgeWrites M'.symbols sim'.state (firing M' edge)) }
    hm hm' hcycle hp' j hw'
  subst hm hm'
  simp only [Sim.clockEdge, hrunnable]
  split
  · exact hnext
  · exact ⟨rfl, hcycle, fun hx => by simp at hx⟩

theorem Together.pulse (h : Together escapes q fs M M' L sim sim') :
    SameEnd (Together escapes q fs M M' L) (Bench.pulse sim) (Bench.pulse sim') := by
  obtain ⟨hrise, hcycle, hmid⟩ := h.clockEdge T .rising
  unfold Bench.pulse Sim.tick
  generalize sim.clockEdge .rising = x at hrise hcycle hmid
  generalize sim'.clockEdge .rising = x' at hrise hcycle hmid
  obtain ⟨mid, v⟩ := x
  obtain ⟨mid', v'⟩ := x'
  obtain rfl : v' = v := hrise
  cases v' with
  | undefined => rfl
  | unsettled => exact congrArg Sim.Error.unsettledAt hcycle.symm
  | settled =>
    obtain ⟨hfall, hcycle', hend⟩ := (hmid rfl).clockEdge T .falling
    dsimp only
    generalize mid.clockEdge .falling = y at hfall hcycle' hend
    generalize mid'.clockEdge .falling = y' at hfall hcycle' hend
    obtain ⟨last, w⟩ := y
    obtain ⟨last', w'⟩ := y'
    obtain rfl : w' = w := hfall
    cases w' with
    | undefined => rfl
    | unsettled => exact congrArg Sim.Error.unsettledAt hcycle'.symm
    | settled =>
      obtain ⟨hm, hm', hc, hrest, hrest', hp⟩ := hend rfl
      exact ⟨hm, hm', congrArg (· + 1) hc, hrest, hrest', hp⟩

theorem Together.drive (h : Together escapes q fs M M' L sim sim') {name : String} (v : UInt64)
    (hdrive : ∀ i, drives M name = some i → i ∉ q.run :: q.made fs) :
    SameEnd (Together escapes q fs M M' L) (Bench.drive sim name v) (Bench.drive sim' name v) := by
  obtain ⟨hm, hm', hcycle, hrest, hrest', live, hp, j, hw⟩ := h
  have hid : sim'.scalarId name = sim.scalarId name := by
    simp only [scalarId, hm, hm', Module.signal?, Symbols.isMemory, Symbols.signalKind,
      T.symbols.signals]
  rw [drive_eq, drive_eq, hid]
  cases hi : sim.scalarId name with
  | error e => rfl
  | ok i =>
    -- the same value is stored on both sides
    have hfree := hdrive i (hm ▸ drives_of_scalarId hi)
    have htype := signalType_recoded T.symbols (T.uncoded fun hmade =>
      hfree (List.mem_cons_of_mem _ hmade))
    dsimp only [driven]
    rw [hm, hm', htype]
    generalize hvalue : Word.truncate (M.symbols.signalType i).bits (Word.ofUInt64 v) = value
    have hfits : value.toNat < 2 ^ (M.symbols.signalType i).bits := hvalue ▸ Word.truncate_lt ..
    obtain ⟨hp₁, hsame⟩ := @Paired.storeAll _ _ _ _ _ _ _ _ _ _ _ hp T [⟨i, none, value⟩]
      (by simpa using hfree) (by simpa [Write.Fits] using hfits)
      (by simpa [Write.Fits, htype] using hfits)
    have hnext := hsame q.machine.next (Sequencer.mem_made.mpr (.inr (.inl rfl)))
    obtain ⟨hverdict, -, hend⟩ := @Twins.settled _ _ _ _ _ _ _ _ _ T
      ⟨M, sim.state.setScalar i value, sim.cycle⟩ ⟨M', sim'.state.setScalar i value, sim'.cycle⟩
      rfl rfl hcycle hp₁ j (hw.same hnext.1 hnext.2)
    generalize Sim.settled ⟨M, _, _⟩ = x at hverdict hend ⊢
    generalize Sim.settled ⟨M', _, _⟩ = x' at hverdict hend ⊢
    obtain ⟨last, w⟩ := x
    obtain ⟨last', w'⟩ := x'
    obtain rfl : w' = w := hverdict
    cases w' with
    | undefined | unsettled => rfl
    | settled => exact hend rfl

theorem Twins.start :
    SameEnd (Together escapes q fs M M' L) (Sim.start M) (Sim.start M') := by
  have hdepths : possibleDepths M' = possibleDepths M := by
    rw [possibleDepths, possibleDepths, T.symbols.signals]
  obtain ⟨hverdict, hp, hw⟩ := T.starts
  unfold Sim.start Sim.settled
  rw [hdepths]
  split
  · dsimp only
    generalize hx : settle M.symbols (combinational M) settleLimit (.initial M.symbols) = x
      at hverdict hp hw
    generalize hx' : settle M'.symbols (combinational M') settleLimit (.initial M'.symbols) = x'
      at hverdict hp hw
    obtain ⟨t, w⟩ := x
    obtain ⟨t', w'⟩ := x'
    obtain rfl : w' = w := hverdict
    cases w' with
    | undefined | unsettled => rfl
    | settled =>
      exact ⟨rfl, rfl, rfl, Settles.resting hx (initial_fits _) (by simp [State.initial]),
        Settles.resting hx' (initial_fits _) (by simp [State.initial]), [], hp, hw⟩
  · rfl

theorem Together.respond (h : Together escapes q fs M M' L sim sim') {e : Stimulus}
    (he : ∀ name v i, e = .drive name v → drives M name = some i → i ∉ q.run :: q.made fs) :
    SameEnd (Together escapes q fs M M' L) (sim.respond e) (sim'.respond e) := by
  cases e with
  | drive name v => exact h.drive T v fun i => he name v i rfl
  | tick => exact h.pulse T

/-- Stimuli that set nothing made for the program keep the simulations side by side. -/
theorem Together.responds (h : Together escapes q fs M M' L sim sim') {stimuli : List Stimulus}
    (hdrive : ∀ name v i, .drive name v ∈ stimuli →
      drives M name = some i → i ∉ q.run :: q.made fs) :
    SameEnd (Together escapes q fs M M' L) (stimuli.foldlM Sim.respond sim)
      (stimuli.foldlM Sim.respond sim') := by
  induction stimuli generalizing sim sim' with
  | nil => exact h
  | cons e stimuli ih =>
    rw [List.foldlM_cons, List.foldlM_cons]
    refine (h.respond T fun name v i he => hdrive name v i (he ▸ List.mem_cons_self)).bind
      fun next next' hnext => ih hnext fun name v i hmem => ?_
    exact hdrive name v i (List.mem_cons_of_mem e hmem)

theorem Twins.play {stimuli : List Stimulus} (hdrive : ∀ name v i, .drive name v ∈ stimuli →
      drives M name = some i → i ∉ q.run :: q.made fs) :
    SameEnd (Together escapes q fs M M' L) (Sim.play M stimuli) (Sim.play M' stimuli) :=
  T.start.bind fun _ _ h => h.responds T hdrive

end Steps

/-- Simulations side by side agree on everything that holds no state code, and from the first tick
on they are in the same state. -/
theorem Together.agree {sim sim' : Sim} (h : Together escapes q fs M M' L sim sim')
    (T : Twins escapes q fs M M' before after L) {stimuli : List Stimulus}
    (hplay' : Sim.play M' stimuli = .ok sim')
    (hdrive : Undriven (q.reencode .oneHot) fs M' stimuli) :
    (∀ i ∉ q.codes fs, State.SameAt sim'.state sim.state i) ∧
      (.tick ∈ stimuli → ∃ k, q.machine.At sim.state k ∧
        (q.reencode .oneHot).machine.At sim'.state k) := by
  obtain ⟨live, hp, -⟩ := h.paired
  refine ⟨fun i hi => hp.agrees i ?_, fun htick => ?_⟩
  · rw [← Bool.not_eq_true]
    exact fun hc => hi (T.coded_mem hc)
  · cases hp.abreast with
    | inState k site hat hat' hsite ho => exact ⟨k, hat, hat'⟩
    | fresh hlive hzero hzero' hrun =>
      -- after a tick the register holds a code
      obtain ⟨-, hplace⟩ := Live.run T.grounded' T.plan' hplay' hdrive
      replace hplace := hplace.resolve_right fun hnone =>
        (q.reencode .oneHot).machine.history_ne_nil hplay' htick hnone.1
      rcases hplace.register T.grounded' T.plan' with ⟨k, hat⟩ | ⟨hne, -⟩
      · exact absurd hat.2 (T.astray_zero hzero' k hat.1)
      · exact absurd rfl hne

/-! ## Programs that were built -/

/-- A program whose last command terminates it, built under both encodings in one module, to which
the same symbols and processes may be added. Neither the program nor another process reads a state
code or return address. Then, on all stimuli that set nothing made for the program, both simulations
fail for the same reason or both succeed; they agree on every signal and memory that holds no state
code, and from the first tick on their registers hold the codes of the same state. -/
theorem Accepted.encoding_unobservable {s s₁ s₂ : Session} {opts : Options} {init : List Command}
    {q q' : Sequencer} (h : Accepted s { opts with encoding := .binary } (init ++ [.terminate]) q s₁)
    (h' : Accepted s { opts with encoding := .oneHot } (init ++ [.terminate]) q' s₂)
    (hterms : ∀ x ∈ Command.withinAll (init ++ [.terminate]), ∀ t ∈ x.terms, t.isUncoded = true)
    (a : Addition) (ho : Oblivious q s₁.functions (s₁.module.add a).symbols
      (s.module.processes.toList ++ a.processes))
    {stimuli : List Stimulus} (hdrive : ∀ name v i, .drive name v ∈ stimuli →
      drives (s₁.module.add a) name = some i → i ∉ q.run :: q.made s₁.functions) :
    (∃ e, Sim.play (s₁.module.add a) stimuli = .error e ∧
      Sim.play (s₂.module.add a) stimuli = .error e) ∨
    ∃ sim sim', Sim.play (s₁.module.add a) stimuli = .ok sim ∧
      Sim.play (s₂.module.add a) stimuli = .ok sim' ∧
      (∀ i ∉ q.codes s₁.functions, State.SameAt sim'.state sim.state i) ∧
      (.tick ∈ stimuli → ∃ k, q.machine.At sim.state k ∧ q'.machine.At sim'.state k) := by
  obtain ⟨rfl, -, L, T⟩ := h.twins h' hterms a ho
  have hend := T.play hdrive
  cases hplay : Sim.play (s₁.module.add a) stimuli with
  | error e =>
    cases hplay' : Sim.play (s₂.module.add a) stimuli with
    | error e' =>
      rw [hplay, hplay'] at hend
      exact .inl ⟨e, rfl, congrArg Except.error hend.symm⟩
    | ok sim' =>
      rw [hplay, hplay'] at hend
      exact hend.elim
  | ok sim =>
    cases hplay' : Sim.play (s₂.module.add a) stimuli with
    | error e' =>
      rw [hplay, hplay'] at hend
      exact hend.elim
    | ok sim' =>
      rw [hplay, hplay'] at hend
      refine .inr ⟨sim, sim', rfl, rfl, hend.agree T hplay' fun name v i hmem hi => ?_⟩
      have hsame : drives (s₂.module.add a) name = drives (s₁.module.add a) name := by
        simp only [drives, Module.signal?, Symbols.isMemory, Symbols.signalKind, T.symbols.signals]
      exact fun hmade => hdrive name v i hmem (hsame ▸ hi) (List.mem_cons_of_mem _ hmade)

/-- Whether a program is accepted under both encodings and reads no state code, and whether it runs
with index codes, on stimuli that drive nothing made for it, into a state that passes the check. -/
def runsUnderBoth (s : Session) (opts : Options) (body : List Command) (stimuli : List Stimulus)
    (check : Sequencer → Session → Sim → Bool) : Bool :=
  (accept? s { opts with encoding := .oneHot } body).isSome &&
  (accept? s { opts with encoding := .binary } body).any fun (q, s₁) =>
    decide (Oblivious q s₁.functions (s₁.module.add {}).symbols s.module.processes.toList) &&
    stimuli.all (fun
      | .drive name _ => (drives (s₁.module.add {}) name).all
        (! (q.run :: q.made s₁.functions).contains ·)
      | .tick => true) &&
    (Sim.play (s₁.module.add {}) stimuli).toOption.any (check q s₁)

theorem exists_of_runsUnderBoth {s : Session} {opts : Options} {body : List Command}
    {stimuli : List Stimulus} {check : Sequencer → Session → Sim → Bool}
    (h : runsUnderBoth s opts body stimuli check = true) :
    ∃ q q' s₁ s₂ sim, Accepted s { opts with encoding := .binary } body q s₁ ∧
      Accepted s { opts with encoding := .oneHot } body q' s₂ ∧
      Oblivious q s₁.functions (s₁.module.add {}).symbols
        (s.module.processes.toList ++ ({} : Addition).processes) ∧
      (∀ name v i, .drive name v ∈ stimuli → drives (s₁.module.add {}) name = some i →
        i ∉ q.run :: q.made s₁.functions) ∧
      Sim.play (s₁.module.add {}) stimuli = .ok sim ∧ check q s₁ sim = true := by
  rw [runsUnderBoth, Bool.and_eq_true] at h
  obtain ⟨⟨q', s₂⟩, hacc'⟩ := Option.isSome_iff_exists.mp h.1
  obtain ⟨⟨q, s₁⟩, hacc, hrun⟩ := (Option.any_eq_true ..).mp h.2
  simp only [Bool.and_eq_true, List.all_eq_true, decide_eq_true_eq] at hrun
  obtain ⟨⟨ho, hfree⟩, hcheck⟩ := hrun
  obtain ⟨sim, hplay, hc⟩ := exists_of_any hcheck
  refine ⟨q, q', s₁, s₂, sim, .of_accept? hacc, .of_accept? hacc', ?_, fun name v i hmem hi => ?_,
    hplay, hc⟩
  · rwa [List.append_nil]
  · have hout := hfree _ hmem
    simpa [hi] using hout

/-- The module of the sum, with a process that doubles it. -/
def doubledTop : Module :=
  let (twice, m) := sumTop.addWire "twice" (.unsigned 8)
  m.addCombinational "double" [.assign twice none (.plus (.ref 3) (.ref 3))]

/-- The sum is the same under both encodings, although one call found no room, and so is its double.
Both programs are in their end state. -/
theorem sum_encoding_unobservable :
    ∃ q q' s₁ s₂ sim sim', Accepted { module := doubledTop } (sumOptions .binary)
        (sumBody ++ [.terminate]) q s₁ ∧
      Accepted { module := doubledTop } (sumOptions .oneHot) (sumBody ++ [.terminate]) q' s₂ ∧
      Oblivious q s₁.functions (s₁.module.add {}).symbols
        (doubledTop.processes.toList ++ ({} : Addition).processes) ∧
      Sim.play (s₁.module.add {}) (sumStimuli 27) = .ok sim ∧
      Sim.play (s₂.module.add {}) (sumStimuli 27) = .ok sim' ∧
      sim.state.read 3 = 10 ∧ sim'.state.read 3 = 10 ∧ sim'.state.read 4 = 20 ∧
      ∃ k, q.machine.At sim.state k ∧ q'.machine.At sim'.state k := by
  have hrun : runsUnderBoth { module := doubledTop } (sumOptions .binary)
      (sumBody ++ [.terminate]) (sumStimuli 27) (fun q s₁ sim =>
        sim.state.read 3 == 10 && sim.state.read 4 == 20 &&
          !(q.codes s₁.functions).contains 3 && !(q.codes s₁.functions).contains 4) = true := by
    decide +kernel
  obtain ⟨q, q', s₁, s₂, sim, hacc, hacc', ho, hdrive, hplay, hc⟩ := exists_of_runsUnderBoth hrun
  simp only [Bool.and_eq_true, beq_iff_eq, Bool.not_eq_true', ← Bool.not_eq_true,
    List.contains_iff_mem] at hc
  obtain ⟨⟨⟨hsum, htwice⟩, hthree⟩, hfour⟩ := hc
  have hterms : ∀ x ∈ Command.withinAll (sumBody ++ [.terminate]), ∀ t ∈ x.terms,
      t.isUncoded = true := by decide +kernel
  rcases hacc.encoding_unobservable hacc' hterms {} ho hdrive with ⟨e, he, -⟩ |
    ⟨sim₁, sim', hplay₁, hplay', hsame, hat⟩
  · rw [hplay] at he
    simp at he
  · obtain rfl : sim = sim₁ := Except.ok.inj (hplay.symm.trans hplay₁)
    exact ⟨q, q', s₁, s₂, sim, sim', hacc, hacc', ho, hplay, hplay', hsum,
      (hsame 3 hthree).read.trans hsum, (hsame 4 hfour).read.trans htwice, hat (by decide)⟩

/-- Calls a function, and then looks at the return address that the call has left behind. -/
def peekBody : List Command :=
  [.define "f" 1 none none [.step], .call "f" [.number 1 8] none,
   .assign "acc" (.index "f_ret_addr" (.number 0 1)), .terminate]

/-- The signals that the program reads, in the bodies and guards of its states and in what is done
before and instead of them. -/
def Sequencer.reads (q : Sequencer) : List SignalId :=
  q.machine.reset.reads ++ Stmt.blockReads q.machine.defaults ++ Stmt.blockReads q.machine.onReset ++
    q.machine.states.toList.flatMap fun st =>
      Stmt.blockReads st.body ++ st.gotos.flatMap fun t => (t.guard.map Expr.reads).getD []

/-- It is not enough that the state register and the next-state wire are not read: a return address
is a state code as well. -/
theorem return_address_observable :
    ∃ q q' s₁ s₂ sim sim', Accepted { module := sumTop } (sumOptions .binary) peekBody q s₁ ∧
      Accepted { module := sumTop } (sumOptions .oneHot) peekBody q' s₂ ∧
      sumTop.processes = #[] ∧ q.machine.current ∉ q.reads ∧ q.machine.next ∉ q.reads ∧
      Sim.play s₁.module (sumStimuli 8) = .ok sim ∧
      Sim.play s₂.module (sumStimuli 8) = .ok sim' ∧
      3 ∉ q.codes s₁.functions ∧ sim.state.read 3 = 5 ∧ sim'.state.read 3 = 32 := by
  have hrun : runsInto { module := sumTop } (sumOptions .binary) peekBody (sumStimuli 8)
      (fun q s₁ sim => !q.reads.contains q.machine.current && !q.reads.contains q.machine.next &&
        !(q.codes s₁.functions).contains 3 && sim.state.read 3 == 5) = true := by decide +kernel
  have hrun' : runsInto { module := sumTop } (sumOptions .oneHot) peekBody (sumStimuli 8)
      (fun _ _ sim => sim.state.read 3 == 32) = true := by decide +kernel
  obtain ⟨q, s₁, sim, hacc, hplay, -, hc⟩ := exists_of_runsInto hrun
  obtain ⟨q', s₂, sim', hacc', hplay', -, hc'⟩ := exists_of_runsInto hrun'
  simp only [Bool.and_eq_true, beq_iff_eq, Bool.not_eq_true', ← Bool.not_eq_true,
    List.contains_iff_mem] at hc hc'
  obtain ⟨⟨⟨hcur, hnext⟩, hthree⟩, hleft⟩ := hc
  exact ⟨q, q', s₁, s₂, sim, sim', hacc, hacc', rfl, hcur, hnext, hplay, hplay', hthree, hleft, hc'⟩

end Program

end Lockstep
