import Lockstep.Proofs.Program.Twins
import Lockstep.Proofs.Sim.Abreast

/-!
# Two runs of one program

A program with index codes and the same program with one-hot codes, run side by side. Both are in
the same state, or have not made a step yet; they agree on everything that holds no state code, and
their stacks hold the same activations. The choice of the next state is then the same on both sides,
so settling takes them to one and the same next state, and an edge of the clock carries both over to
it.
-/

namespace Lockstep

open Sim

/-! ## Choices without state codes -/

theorem Stmt.blockUncoded_mem {g : Symbols} {k : Coding} {body : List Statement}
    (h : blockUncoded g k body = true) {st : Statement} (hst : st ∈ body) :
    st.isUncoded g k = true := by
  induction body with
  | nil => exact absurd hst List.not_mem_nil
  | cons st' body ih =>
    rw [blockUncoded, Bool.and_eq_true] at h
    rcases List.mem_cons.mp hst with rfl | hst
    · exact h.1
    · exact ih h.2 hst

namespace Machine

variable {f : Machine} {s : Sim.State}

/-- With index codes the first state has the code zero. -/
theorem code_zero (he : f.encoding ≠ .oneHot) : Word.ofUInt64 (f.code (0 : Nat)) = 0 := by
  apply BitVec.eq_of_toNat_eq
  rw [Word.toNat_ofUInt64, code_index he (by decide)]
  rfl

/-- No one-hot code is zero. -/
theorem Astray.of_zero (hc : f.Countable) (he : f.encoding = .oneHot) (hs : s.read f.current = 0) :
    f.Astray s := by
  intro i hi hx
  have h64 := hc.oneHot he
  have hcode := congrArg BitVec.toNat (hs.symm.trans hx)
  rw [Word.toNat_ofUInt64, code_bit he hi (by omega)] at hcode
  exact absurd hcode.symm (Nat.two_pow_pos i).ne'

/-- A last edge that is always taken is the last one taken. -/
theorem lastTaken_concat_always (g : Symbols) (s : Sim.State) (edges : List Edge)
    (a : Option (Target Expr)) :
    lastTaken g s (edges ++ [⟨.always, a⟩]) = some ⟨.always, a⟩ := by
  simp [lastTaken, Guard.taken]

/-- The edge taken out of a state of a sealed machine leads to a state. -/
theorem Sealed.taken (h : f.Sealed) {g : Symbols} {k : Nat} {st : State}
    (hst : f.states[k]? = some st) {e : Edge} (htaken : lastTaken g s (stateEdges k st) = some e) :
    ∃ a, e.target = some a ∧ a.Below f.size := by
  have hgoto : ∀ t ∈ st.gotos, ∀ e ∈ transitionEdges t, ∃ a, e.target = some a ∧ a.Below f.size := by
    intro t ht e he
    obtain ⟨hsome, hbelow⟩ := h.targets k st hst t ht
    rcases Program.mem_transitionEdges he with heq | ⟨b, heq, hb⟩
    · obtain ⟨a, ha⟩ := Option.isSome_iff_exists.mp hsome
      exact ⟨a, heq.trans ha, hbelow a (.inl ha)⟩
    · exact ⟨b, heq, hbelow b (.inr hb)⟩
  rcases List.mem_cons.mp (Program.mem_of_lastTaken htaken).1 with rfl | he
  · rcases h.falls k st hst with hlt | ⟨before, a, hgotos⟩
    · exact ⟨.after k, rfl, .inl ⟨k + 1, rfl, hlt⟩⟩
    · have hlast : stateEdges k st = (⟨.always, some (.after k)⟩ :: before.flatMap transitionEdges) ++
          [⟨.always, some a⟩] := by
        simp [stateEdges, hgotos, transitionEdges, Transition.jump]
      rw [hlast, lastTaken_concat_always] at htaken
      exact hgoto (.jump a) (by simp [hgotos]) _
        (by simp [transitionEdges, Transition.jump, ← Option.some.inj htaken])
  · obtain ⟨t, ht, he⟩ := List.mem_flatMap.mp he
    exact hgoto t ht e he

/-- The machine is installed among the processes that stand around its own. -/
theorem Installed.among {m : Module} {others before after : List Process}
    (h : f.Installed m others) (hproc : ∃ next, f.nextBody = .ok next ∧
      m.processes.toList = before ++ f.processes next ++ after)
    (hcur : ∀ p ∈ before ++ after, f.current ∉ Stmt.blockDests p.body)
    (hnext : ∀ p ∈ before ++ after, f.next ∉ Stmt.blockDests p.body) :
    f.Installed m (before ++ after) := by
  obtain ⟨next, hbody, hm⟩ := hproc
  exact { h with
    processes := ⟨before, after, next, rfl, hbody, hm⟩
    current_free := hcur
    next_free := hnext }

/-- Of the writes to the wire the one of the last edge taken lasts. -/
theorem lasting_takes {g : Symbols} {edges : List Edge} {e : Edge}
    (h : lastTaken g s edges = some e) :
    Write.lasting (f.takes g s edges) = [⟨f.next, none, f.edgeValue g s e⟩] := by
  obtain ⟨es, hes⟩ := takes_eq_concat (f := f) h
  rw [hes]
  refine Write.lasting_sole fun w hw => ?_
  obtain ⟨e', -, rfl⟩ := List.mem_map.mp hw
  simp [Write.sameSlot]

section Recoded

variable {κ : Coding} {g g' : Symbols} {s s' : Sim.State} (h : g.Recoded κ g')
  (hs : State.Agrees g κ s s')
include h hs

theorem taken_recoded {k : Nat} {st : State}
    (hguards : ∀ t ∈ st.gotos, t.guard.all (·.isUncoded g κ) = true) {e : Edge}
    (he : e ∈ stateEdges k st) : e.guard.taken g' s' = e.guard.taken g s := by
  rcases List.mem_cons.mp he with rfl | he
  · rfl
  · obtain ⟨t, ht, he⟩ := List.mem_flatMap.mp he
    have hguard := hguards t ht
    unfold transitionEdges at he
    split at he
    · rw [List.mem_singleton.mp he]
      rfl
    · next x hx _ =>
      rw [hx, Option.all_some] at hguard
      rw [List.mem_singleton.mp he, Guard.taken, Guard.taken, eval_recoded h hs hguard]
    · next x other hx _ =>
      rw [hx, Option.all_some] at hguard
      simp only [List.mem_cons, List.not_mem_nil, or_false] at he
      rcases he with rfl | rfl
      · rw [Guard.taken, Guard.taken, eval_recoded h hs hguard]
      · rw [Guard.taken, Guard.taken, eval_recoded h hs hguard]

/-- Where guards read no state code, the same edge is taken. -/
theorem lastTaken_recoded {k : Nat} {st : State}
    (hguards : ∀ t ∈ st.gotos, t.guard.all (·.isUncoded g κ) = true) :
    lastTaken g' s' (stateEdges k st) = lastTaken g s (stateEdges k st) := by
  rw [lastTaken, lastTaken, List.filter_congr fun e he => taken_recoded h hs hguards he]

theorem transitionDefined_recoded {t : Transition Expr}
    (hguard : t.guard.all (·.isUncoded g κ) = true)
    (htargets : ∀ a, t.target = some a ∨ t.otherwise = some a →
      targetDefined g' a = targetDefined g a) :
    transitionDefined g' s' t = transitionDefined g s t := by
  have hall : ∀ o : Option (Target Expr), (∀ a, o = some a → targetDefined g' a = targetDefined g a) →
      o.all (targetDefined g') = o.all (targetDefined g) := by
    intro o ho
    cases o with
    | none => rfl
    | some a => exact ho a rfl
  have htarget := hall t.target fun a ha => htargets a (.inl ha)
  have hother := hall t.otherwise fun a ha => htargets a (.inr ha)
  unfold transitionDefined
  cases hx : t.guard with
  | none => exact htarget
  | some e =>
    rw [hx, Option.all_some] at hguard
    simp only [defined_recoded h hguard, eval_recoded h hs hguard, htarget, hother]

end Recoded

end Machine

namespace Program

open Machine

variable {escapes : Prop} {q : Sequencer} {fs : Array Function} {M M' : Module}
variable {before after : List Process} {L : List (Site Nat)}
variable {s s' : Sim.State}

/-- A transition of a state leads to a place, unless it is a return. -/
theorem Sited.target {g : Symbols} {k : Nat} {st : Machine.State} {site : Site Nat}
    (h : Sited escapes q fs g L k st site) {t : Transition Expr} (ht : t ∈ st.gotos)
    {a : Target Expr} (ha : t.target = some a ∨ t.otherwise = some a) :
    (∃ j, a.place? = some j) ∨ ∃ r inst, site = ⟨some r, .ret⟩ ∧ q.Has fs r inst ∧
      a = .computed (.index inst.returnAddr (stackTop inst)) := by
  obtain ⟨owner, role⟩ := site
  cases role with
  | idle =>
    rw [h.2.1, List.mem_singleton] at ht
    subst ht
    rcases ha with ha | ha <;> exact .inl ⟨_, by rw [← Option.some.inj ha]; rfl⟩
  | plain =>
    obtain ⟨j, hj, -⟩ := (h.2.2 t ht).2 a ha
    exact .inl ⟨j, hj⟩
  | call r args request resume =>
    obtain ⟨inst, link, entry, skip, -, -, -, -, hgotos, -⟩ := h
    rw [hgotos, List.mem_singleton] at ht
    subst ht
    rcases ha with ha | ha <;> exact .inl ⟨_, by rw [← Option.some.inj ha]; rfl⟩
  | ret =>
    obtain ⟨r, inst, before, rfl, hi, -, -, hgotos⟩ := h
    rw [hgotos, List.mem_singleton] at ht
    subst ht
    refine .inr ⟨r, inst, rfl, hi, ?_⟩
    simpa [Instance.leave, Transition.jump, eq_comm] using ha

/-! ## The signals that hold state codes -/

namespace Twins

variable (T : Twins escapes q fs M M' before after L)
include T

theorem coded_mem {i : SignalId} (hi : M.symbols.isCoded q.machine.coding i = true) :
    i ∈ q.codes fs := by
  refine T.oblivious.signals i ?_ hi
  obtain ⟨x, hx, -⟩ := (Option.any_eq_true ..).mp hi
  exact (Array.getElem?_eq_some_iff.mp hx).1

/-- What was not made for the program holds no state code. -/
theorem uncoded {i : SignalId} (hi : i ∉ q.made fs) :
    M.symbols.isCoded q.machine.coding i = false := by
  rw [← Bool.not_eq_true]
  intro hc
  refine hi (Sequencer.mem_made.mpr ?_)
  rcases List.mem_cons.mp (T.coded_mem hc) with rfl | hc
  · exact .inl rfl
  · rcases List.mem_cons.mp hc with rfl | hc
    · exact .inr (.inl rfl)
    · obtain ⟨inst, hinst, rfl⟩ := List.mem_map.mp hc
      obtain ⟨r, hr⟩ := Sequencer.mem_instances.mp hinst
      exact .inr (.inr ⟨r, inst, hr, by simp [Instance.stack]⟩)

/-- Of a stack only the return addresses are state codes. -/
theorem stack_uncoded {r : InstanceRef} {inst : Instance} (hi : q.Has fs r inst) {d : SignalId}
    (hd : d ∈ inst.stack) (hne : d ≠ inst.returnAddr) :
    M.symbols.isCoded q.machine.coding d = false := by
  rw [← Bool.not_eq_true]
  intro hc
  obtain ⟨hcur, hnext⟩ := T.grounded.machine_apart r inst hi
  rcases List.mem_cons.mp (T.coded_mem hc) with rfl | hc
  · exact hcur hd
  · rcases List.mem_cons.mp hc with rfl | hc
    · exact hnext hd
    · obtain ⟨inst', hinst, rfl⟩ := List.mem_map.mp hc
      obtain ⟨r', hr'⟩ := Sequencer.mem_instances.mp hinst
      obtain rfl := T.grounded.stacks_apart r r' inst inst' hi hr' _ hd (by simp [Instance.stack])
      exact hne (congrArg Instance.returnAddr (hi.unique hr'))

theorem others_free {p : Process} (hp : p ∈ before ++ after) {d : SignalId} (hd : d ∈ q.made fs) :
    d ∉ Stmt.blockDests p.body :=
  T.oblivious.assigns p hp d (List.mem_cons_of_mem _ hd)

/-- The other processes read and write no state code. -/
theorem others_uncoded {p : Process} (hp : p ∈ before ++ after) :
    Stmt.blockUncoded M.symbols q.machine.coding p.body = true ∧
      ∀ i ∈ Stmt.blockDests p.body, M.symbols.isCoded q.machine.coding i = false :=
  ⟨T.oblivious.reads p hp, fun _ hi => T.uncoded fun hmade => T.others_free hp hmade hi⟩

theorem installed : q.machine.Installed M (before ++ after) := by
  obtain ⟨others, hin, -⟩ := T.grounded.installed
  exact hin.among T.processes (fun p hp => T.others_free hp (Sequencer.mem_made.mpr (.inl rfl)))
    fun p hp => T.others_free hp (Sequencer.mem_made.mpr (.inr (.inl rfl)))

theorem installed' : (q.reencode .oneHot).machine.Installed M' (before ++ after) := by
  obtain ⟨others, hin, -⟩ := T.grounded'.installed
  exact hin.among T.processes' (fun p hp => T.others_free hp (Sequencer.mem_made.mpr (.inl rfl)))
    fun p hp => T.others_free hp (Sequencer.mem_made.mpr (.inr (.inl rfl)))

theorem not_oneHot : q.machine.encoding ≠ .oneHot := by
  rw [T.binary]
  decide

theorem size_pos : 0 < q.machine.size := by
  rw [T.plan.size]
  exact (List.getElem?_eq_some_iff.mp T.plan.first).1

/-- A register that holds zero is in the end state, if codes are indices. -/
theorem at_zero {s : Sim.State} (hs : s.read q.machine.current = 0) : q.machine.At s 0 :=
  ⟨T.size_pos, hs.trans (code_zero T.not_oneHot).symm⟩

/-- It is in no state if codes are one-hot. -/
theorem astray_zero {s : Sim.State} (hs : s.read q.machine.current = 0) :
    (q.reencode .oneHot).machine.Astray s :=
  .of_zero T.installed'.sized.countable rfl hs

/-- The end state, which waits for the run flag. -/
theorem idle_state : ∃ st, q.machine.states[0]? = some st ∧ st.body = [] ∧
    st.gotos = [waitFor q.run 0] := by
  have hst : q.machine.states[0]? = some _ := Array.getElem?_eq_getElem T.size_pos
  obtain ⟨hbody, hgotos, -⟩ := T.plan.sites 0 _ _ T.plan.first hst
  exact ⟨_, hst, hbody, hgotos⟩

theorem guards {k : Nat} {st : Machine.State} (hst : q.machine.states[k]? = some st) :
    ∀ t ∈ st.gotos, t.guard.all (·.isUncoded M.symbols q.machine.coding) = true :=
  T.oblivious.guards st (Array.mem_toList_iff.mpr (Array.mem_of_getElem? hst))

theorem run_uncoded : M.symbols.isCoded q.machine.coding q.run = false := by
  obtain ⟨st, hst, -, hgotos⟩ := T.idle_state
  have hguard := T.guards hst (waitFor q.run 0) (by rw [hgotos]; exact List.mem_singleton.mpr rfl)
  simpa [waitFor, Transition.branch, Expr.isUncoded] using hguard

theorem current_coded : M.symbols.isCoded q.machine.coding q.machine.current = true :=
  T.coded _ List.mem_cons_self

theorem next_coded : M.symbols.isCoded q.machine.coding q.machine.next = true :=
  T.coded _ (List.mem_cons_of_mem _ List.mem_cons_self)

theorem run_ne_next : q.run ≠ q.machine.next := by
  intro heq
  have hrun := T.run_uncoded
  rw [heq, T.next_coded] at hrun
  exact Bool.noConfusion hrun

end Twins

/-! ## Where two runs are -/

/-- Where the two runs are, with the live activations of both. -/
inductive Abreast (escapes : Prop) (q : Sequencer) (L : List (Site Nat)) (live : List Activation)
    (s s' : Sim.State) : Prop
  /-- In the same state. -/
  | inState (k : Nat) (site : Site Nat) (hat : q.machine.At s k)
      (hat' : (q.reencode .oneHot).machine.At s' k) (hsite : L[k]? = some site)
      (ho : Within escapes live site.owner)
  /-- Before the first step, when both registers hold zero. This is the code of the end state on one
  side and of no state on the other. -/
  | fresh (hlive : live = []) (hzero : s.read q.machine.current = 0)
      (hzero' : s'.read q.machine.current = 0) (hrun : s.read q.run = 0)

/-- The two runs side by side, with the live activations of both. -/
structure Paired (escapes : Prop) (q : Sequencer) (fs : Array Function) (M M' : Module)
    (L : List (Site Nat)) (live : List Activation) (s s' : Sim.State) : Prop where
  agrees : State.Agrees M.symbols q.machine.coding s s'
  holds : Live escapes q fs M.symbols L live s
  holds' : Live escapes (q.reencode .oneHot) fs M'.symbols L live s'
  resumes : ∀ a ∈ live, a.resume < q.machine.size
  fits : s.Fits M.symbols
  fits' : s'.Fits M'.symbols
  size : s.scalars.size = M.symbols.signals.size
  size' : s'.scalars.size = M'.symbols.signals.size
  abreast : Abreast escapes q L live s s'

/-- The next-state wires hold the codes of state `j`. -/
structure Wired (q : Sequencer) (j : Nat) (s s' : Sim.State) : Prop where
  lt : j < q.machine.size
  wire : s.scalar q.machine.next = some (Word.ofUInt64 (q.machine.code j))
  wire' : s'.scalar q.machine.next = some (Word.ofUInt64 ((q.reencode .oneHot).machine.code j))

theorem Wired.same {t t' : Sim.State} {j : Nat} (h : Wired q j s s')
    (hs : State.SameAt t s q.machine.next) (hs' : State.SameAt t' s' q.machine.next) :
    Wired q j t t' :=
  ⟨h.lt, hs.scalar.trans h.wire, hs'.scalar.trans h.wire'⟩

theorem Wired.read {j : Nat} (h : Wired q j s s') :
    s.read q.machine.next = Word.ofUInt64 (q.machine.code j) ∧
      s'.read q.machine.next = Word.ofUInt64 ((q.reencode .oneHot).machine.code j) := by
  rw [State.read, State.read, h.wire, h.wire']
  exact ⟨rfl, rfl⟩

namespace Paired

variable {live : List Activation} {s s' t t' : Sim.State}
variable (h : Paired escapes q fs M M' L live s s') (T : Twins escapes q fs M M' before after L)
include h T

/-- What leaves alone the signals made for the program, apart from the wires, and keeps the rest in
agreement, leaves the runs side by side. -/
theorem keep (hsame : ∀ d ∈ q.run :: q.made fs, d ≠ q.machine.next →
      State.SameAt t s d ∧ State.SameAt t' s' d)
    (hagrees : State.Agrees M.symbols q.machine.coding t t')
    (hfits : t.Fits M.symbols) (hfits' : t'.Fits M'.symbols)
    (hsize : t.scalars.size = s.scalars.size) (hsize' : t'.scalars.size = s'.scalars.size) :
    Paired escapes q fs M M' L live t t' where
  agrees := hagrees
  holds := h.holds.same (fun d hd hne => (hsame d (List.mem_cons_of_mem _ hd) hne).1)
    fun r inst hi => (T.grounded.machine_apart r inst hi).2
  holds' := h.holds'.same (fun d hd hne => (hsame d (List.mem_cons_of_mem _ hd) hne).2)
    fun r inst hi => (T.grounded'.machine_apart r inst hi).2
  resumes := h.resumes
  fits := hfits
  fits' := hfits'
  size := hsize.trans h.size
  size' := hsize'.trans h.size'
  abreast := by
    have hcur := hsame q.machine.current
      (List.mem_cons_of_mem _ (Sequencer.mem_made.mpr (.inl rfl))) T.installed.apart
    cases h.abreast with
    | inState k site hat hat' hsite ho =>
      exact .inState k site ⟨hat.1, hcur.1.read.trans hat.2⟩ ⟨hat'.1, hcur.2.read.trans hat'.2⟩
        hsite ho
    | fresh hlive hzero hzero' hrun =>
      exact .fresh hlive (hcur.1.read.trans hzero) (hcur.2.read.trans hzero')
        ((hsame q.run List.mem_cons_self T.run_ne_next).1.read.trans hrun)

/-- The same writes on both sides to signals that were not made for the program keep the runs side
by side, and what was made as it is. -/
theorem storeAll {ws : List Write} (hfree : ∀ w ∈ ws, w.dest ∉ q.run :: q.made fs)
    (hw : ∀ w ∈ ws, w.Fits M.symbols) (hw' : ∀ w ∈ ws, w.Fits M'.symbols) :
    Paired escapes q fs M M' L live (s.storeAll ws) (s'.storeAll ws) ∧
      ∀ d ∈ q.made fs, State.SameAt (s.storeAll ws) s d ∧ State.SameAt (s'.storeAll ws) s' d := by
  have hsame : ∀ d ∈ q.run :: q.made fs,
      State.SameAt (s.storeAll ws) s d ∧ State.SameAt (s'.storeAll ws) s' d := by
    intro d hd
    have hother : ∀ w ∈ ws, w.dest ≠ d := fun w hw hx => hfree w hw (hx ▸ hd)
    exact ⟨State.storeAll_other hother, State.storeAll_other hother⟩
  exact ⟨h.keep T (fun d hd _ => hsame d hd) (h.agrees.storeAll rfl) (h.fits.storeAll hw)
    (h.fits'.storeAll hw') (by simp) (by simp), fun d hd => hsame d (List.mem_cons_of_mem _ hd)⟩

theorem inPlace : InPlace escapes q.machine L live s := by
  cases h.abreast with
  | inState k site hat hat' hsite ho => exact ⟨k, site.owner, .inl ⟨site, hsite, rfl⟩, ho, hat.2⟩
  | fresh hlive hzero hzero' hrun =>
    exact ⟨0, none, .inl ⟨_, T.plan.first, rfl⟩, hlive ▸ .empty, (T.at_zero hzero).2⟩

theorem inPlace' : InPlace escapes (q.reencode .oneHot).machine L live s' ∨
    (live = [] ∧ (q.reencode .oneHot).machine.Astray s') := by
  cases h.abreast with
  | inState k site hat hat' hsite ho =>
    exact .inl ⟨k, site.owner, .inl ⟨site, hsite, rfl⟩, ho, hat'.2⟩
  | fresh hlive hzero hzero' hrun =>
    exact .inr ⟨hlive, T.astray_zero hzero'⟩

/-! ## The choice of the next state -/

/-- The edge taken out of the common state leads both runs to the same state. -/
theorem edge_value {k : Nat} {site : Site Nat} (hsite : L[k]? = some site)
    (ho : Within escapes live site.owner) {st : Machine.State}
    (hst : q.machine.states[k]? = some st) {e : Edge}
    (he : lastTaken M.symbols s (stateEdges k st) = some e) :
    ∃ j < q.machine.size,
      q.machine.edgeValue M.symbols s e = Word.ofUInt64 (q.machine.code j) ∧
      (q.reencode .oneHot).machine.edgeValue M'.symbols s' e =
        Word.ofUInt64 ((q.reencode .oneHot).machine.code j) := by
  have he' : lastTaken M'.symbols s' (stateEdges k st) = some e :=
    (lastTaken_recoded T.symbols h.agrees (T.guards hst)).trans he
  obtain ⟨a, hea, ⟨j, hplace, hj⟩ | ⟨code, rfl⟩⟩ := T.closed.taken hst he
  · have hlt : j < L.length := T.plan.size ▸ hj
    obtain ⟨i, hi, hval⟩ := T.grounded.edge_lands T.plan (s := s) hea hplace hlt.le
    obtain ⟨i', hi', hval'⟩ := T.grounded'.edge_lands T.plan' (s := s') hea hplace hlt.le
    obtain rfl := hi.resolve_right fun hx => hlt.ne hx.2
    obtain rfl := hi'.resolve_right fun hx => hlt.ne hx.2
    exact ⟨i', hj, hval, hval'⟩
  · -- a computed target is that of a return, which goes back to the newest activation
    obtain ⟨t, ht, htarget⟩ : ∃ t ∈ st.gotos,
        t.target = some (.computed code) ∨ t.otherwise = some (.computed code) := by
      rcases List.mem_cons.mp (mem_of_lastTaken he).1 with rfl | hmem
      · simp at hea
      · obtain ⟨t, ht, hmem⟩ := List.mem_flatMap.mp hmem
        rcases mem_transitionEdges hmem with heq | ⟨b, heq, hb⟩
        · exact ⟨t, ht, .inl (heq.symm.trans hea)⟩
        · exact ⟨t, ht, .inr (hb.trans (heq.symm.trans hea))⟩
    rcases (T.plan.sites k site st hsite hst).target ht htarget with ⟨j, hj⟩ | ⟨r, inst, rfl, -, -⟩
    · simp [Target.place?] at hj
    · obtain ⟨a, rest, hlive, ha⟩ := ho.body r rfl
      exact ⟨a.resume, h.resumes a (hlive ▸ List.mem_cons_self),
        (h.holds.leave_value T.grounded T.plan hst hsite hlive ha he).2,
        (h.holds'.leave_value T.grounded' T.plan' hst hsite hlive ha he').2⟩

/-- What the transitions of the common state evaluate is defined on both sides or on none. -/
theorem gotos_defined {k : Nat} {site : Site Nat} (hsite : L[k]? = some site) {st : Machine.State}
    (hst : q.machine.states[k]? = some st) :
    st.gotos.all (transitionDefined M'.symbols s') = st.gotos.all (transitionDefined M.symbols s) := by
  have hone : ∀ t ∈ st.gotos,
      transitionDefined M'.symbols s' t = transitionDefined M.symbols s t := by
    intro t ht
    refine transitionDefined_recoded T.symbols h.agrees (T.guards hst t ht) fun a ha => ?_
    rcases (T.plan.sites k site st hsite hst).target ht ha with ⟨j, hj⟩ | ⟨r, inst, -, hi, rfl⟩
    · cases a with
      | state id | after id | named name => rfl
      | computed code => simp [Target.place?] at hj
    · have htop : ∀ {g : Symbols}, Stacked g q.machine.type inst →
          g.defined (stackTop inst) = true := by
        intro g hstk
        simp [stackTop, Expr.minus, Expr.const, Symbols.defined, Symbols.typeOf, hstk.sp_type]
      exact (htop (T.grounded'.stacked r inst hi)).trans (htop (T.grounded.stacked r inst hi)).symm
  rw [Bool.eq_iff_iff, List.all_eq_true, List.all_eq_true]
  exact forall₂_congr fun t ht => by rw [hone t ht]

end Paired

/-- Both sides choose state `j`. -/
structure Chooses (q : Sequencer) (M M' : Module) (next next' : List Statement) (j : Nat)
    (s s' : Sim.State) : Prop where
  lt : j < q.machine.size
  writes : Write.lasting (execBlock M.symbols s next) =
    [⟨q.machine.next, none, Word.ofUInt64 (q.machine.code j)⟩]
  writes' : Write.lasting (execBlock M'.symbols s' next') =
    [⟨q.machine.next, none, Word.ofUInt64 ((q.reencode .oneHot).machine.code j)⟩]
  runnable : runnableBlock M'.symbols s' next' = runnableBlock M.symbols s next

/-- The two runs choose the same next state. Before the first step it is the end state. -/
theorem Paired.chooses {live : List Activation} (h : Paired escapes q fs M M' L live s s')
    (T : Twins escapes q fs M M' before after L) {next next' : List Statement}
    (hn : q.machine.nextBody = .ok next) (hn' : (q.reencode .oneHot).machine.nextBody = .ok next') :
    ∃ j, Chooses q M M' next next' j s s' ∧
      ((q.reencode .oneHot).machine.Astray s' → j = 0) := by
  cases h.abreast with
  | inState k site hat hat' hsite ho =>
    obtain ⟨st, hst⟩ := hat.exists_state
    obtain ⟨e, he⟩ := exists_lastTaken M.symbols s k st
    have he' : lastTaken M'.symbols s' (stateEdges k st) = some e :=
      (lastTaken_recoded T.symbols h.agrees (T.guards hst)).trans he
    obtain ⟨j, hj, hval, hval'⟩ := h.edge_value T hsite ho hst he
    refine ⟨j, ⟨hj, ?_, ?_, ?_⟩, fun hno => absurd hat'.2 (hno k hat'.1)⟩
    · rw [execBlock_next_at T.installed.sized hn hat hst, lasting_takes he, hval]
    · rw [execBlock_next_at T.installed'.sized hn' hat' hst, lasting_takes he', hval']
      rfl
    · rw [runnableBlock_next_at T.installed.sized hn hat hst,
        runnableBlock_next_at T.installed'.sized hn' hat' hst, h.gotos_defined T hsite hst]
  | fresh hlive hzero hzero' hrun =>
    have hat := T.at_zero hzero
    have hno := T.astray_zero hzero'
    obtain ⟨st, hst, -, hgotos⟩ := T.idle_state
    obtain ⟨hexec', hrunnable'⟩ :=
      execBlock_next_astray T.installed'.sized hn' h.fits' hno
    -- the run flag is not set, so the end state goes to itself
    have hflag : eval M.symbols s (.ref q.run) = 0 := by
      simp [eval, hrun, Word.truncate]
    have htaken : lastTaken M.symbols s (stateEdges 0 st) =
        some ⟨.fails (.ref q.run), some (.state 0)⟩ := by
      simp [lastTaken, stateEdges, hgotos, waitFor, Transition.branch, transitionEdges, Guard.taken,
        hflag]
    refine ⟨0, ⟨T.size_pos, ?_, ?_, ?_⟩, fun _ => rfl⟩
    · obtain ⟨i, hi, hval⟩ := T.grounded.edge_lands T.plan (s := s)
        (e := ⟨.fails (.ref q.run), some (.state 0)⟩) rfl (j := 0) rfl (Nat.zero_le _)
      obtain rfl : i = 0 := hi.elim id And.left
      rw [execBlock_next_at T.installed.sized hn hat hst, lasting_takes htaken, hval]
    · rw [hexec', T.grounded'.fallback]
      rfl
    · rw [hrunnable', runnableBlock_next_at T.installed.sized hn hat hst, hgotos]
      simp [transitionDefined, waitFor, Transition.branch, Symbols.defined, targetDefined]

/-! ## Sweeps -/

section Sweeps

variable {live : List Activation} {s s' : Sim.State}
variable (h : Paired escapes q fs M M' L live s s') (T : Twins escapes q fs M M' before after L)
include h T

/-- The write that chooses state `j` brings the wires to it. -/
theorem Paired.choose {j : Nat} (hj : j < q.machine.size) :
    Paired escapes q fs M M' L live
      (s.storeAll [⟨q.machine.next, none, Word.ofUInt64 (q.machine.code j)⟩])
      (s'.storeAll [⟨q.machine.next, none, Word.ofUInt64 ((q.reencode .oneHot).machine.code j)⟩]) ∧
    Wired q j (s.storeAll [⟨q.machine.next, none, Word.ofUInt64 (q.machine.code j)⟩])
      (s'.storeAll [⟨q.machine.next, none, Word.ofUInt64 ((q.reencode .oneHot).machine.code j)⟩]) := by
  have hsized := T.installed.sized
  have hsized' := T.installed'.sized
  have hlt : q.machine.next < M.symbols.signals.size := by
    obtain ⟨x, hx, -⟩ := (Option.any_eq_true ..).mp T.next_coded
    exact (Array.getElem?_eq_some_iff.mp hx).1
  have hnext' : M'.symbols.signalType q.machine.next = _ := hsized'.next
  refine ⟨h.keep T (fun d _ hne => ?_) (h.agrees.storeAll ?_) (h.fits.storeAll ?_)
    (h.fits'.storeAll ?_) (by simp) (by simp), hj, ?_, ?_⟩
  · exact ⟨State.storeAll_other (by simpa using hne.symm),
      State.storeAll_other (by simpa using hne.symm)⟩
  · simp [Write.visible, T.next_coded]
  · simpa [Write.Fits, hsized.next, hsized.registerBits] using code_lt hsized.countable hj
  · simpa [Write.Fits, hnext', hsized'.registerBits] using code_lt hsized'.countable hj
  · exact @State.scalar_storeAll_last s [] [] _ rfl (by rw [h.size]; exact hlt) (by simp)
  · exact @State.scalar_storeAll_last s' [] [] _ rfl
      (by rw [h.size', T.symbols.signals]; exact hlt) (by simp)

/-- Writes of the other processes are the same on both sides and keep the runs side by side. -/
theorem Paired.others {procs : List Process} (hprocs : ∀ p ∈ procs, p ∈ before ++ after)
    {ws : List Write} (hw : Sweep.MadeBy M.symbols procs ws)
    (hw' : Sweep.MadeBy M'.symbols procs ws) :
    Paired escapes q fs M M' L live (s.storeAll ws) (s'.storeAll ws) ∧
      ∀ d ∈ q.made fs, State.SameAt (s.storeAll ws) s d ∧ State.SameAt (s'.storeAll ws) s' d := by
  refine h.storeAll T (fun w hmem hd => ?_) (MadeBy.fits hw) (MadeBy.fits hw')
  obtain ⟨p, hp, x, hx⟩ := hw w hmem
  exact T.oblivious.assigns p (hprocs p hp) _ hd (execBlock_dest p.body hx)

omit h T in
/-- A process of which one write lasts. -/
theorem step_single {g : Symbols} {p : Sweep} {proc : Process} {w : Write}
    (hw : Write.lasting (execBlock g p.state proc.body) = [w]) :
    Sweep.step g p proc = ⟨p.state.storeAll [w], p.changed || p.state.changedBy w,
      p.defined && runnableBlock g p.state proc.body⟩ := by
  rw [Sweep.step, hw]
  rfl

/-- A sweep brings both wires to the code of one state, and does the same on both sides otherwise.
Before the first step that state is the end state. -/
theorem Paired.sweep_eq : ∃ j b d t t', Paired escapes q fs M M' L live t t' ∧ Wired q j t t' ∧
    Sim.sweep M.symbols (combinational M) s = ⟨t, s.changedBy
      ⟨q.machine.next, none, Word.ofUInt64 (q.machine.code j)⟩ || b, d⟩ ∧
    Sim.sweep M'.symbols (combinational M') s' = ⟨t', s'.changedBy
      ⟨q.machine.next, none, Word.ofUInt64 ((q.reencode .oneHot).machine.code j)⟩ || b, d⟩ ∧
    ((q.reencode .oneHot).machine.Astray s' → j = 0) := by
  obtain ⟨next, hn, hproc⟩ := T.processes
  obtain ⟨next', hn', hproc'⟩ := T.processes'
  have hbefore : ∀ p ∈ before.filter Process.isCombinational, p ∈ before ++ after := fun p hp =>
    List.mem_append_left _ (List.mem_filter.mp hp).1
  have hafter : ∀ p ∈ after.filter Process.isCombinational, p ∈ before ++ after := fun p hp =>
    List.mem_append_right _ (List.mem_filter.mp hp).1
  have hnext : q.machine.next ∈ q.made fs := Sequencer.mem_made.mpr (.inr (.inl rfl))
  -- the processes before the machine
  obtain ⟨ws, b, d, hb, hb', hw, hw'⟩ := @Sweep.foldl_step_agrees _ _ _ T.symbols _
    (fun p hp => (T.others_uncoded (hbefore p hp)).1)
    (fun p hp => (T.others_uncoded (hbefore p hp)).2) ⟨s, false, true⟩ ⟨s', false, true⟩ h.agrees
  rw [Bool.false_or, Bool.true_and] at hb hb'
  obtain ⟨h₁, hs₁⟩ := h.others T hbefore hw hw'
  generalize s.storeAll ws = s₁ at h₁ hs₁ hb
  generalize s'.storeAll ws = s₁' at h₁ hs₁ hb'
  -- the choice of the next state
  obtain ⟨j, hc, hfresh⟩ := h₁.chooses T hn hn'
  obtain ⟨h₂, hwired⟩ := h₁.choose T hc.lt
  have hstep := @step_single M.symbols ⟨s₁, b, d⟩
    { name := q.machine.name ++ "_transitions", trigger := .combinational, body := next } _ hc.writes
  have hstep' := @step_single M'.symbols ⟨s₁', b, d⟩
    { name := (q.reencode .oneHot).machine.name ++ "_transitions", trigger := .combinational,
      body := next' } _ hc.writes'
  dsimp only at hstep hstep'
  rw [State.SameAt.changedBy (hs₁ _ hnext).1] at hstep
  rw [State.SameAt.changedBy (hs₁ _ hnext).2, hc.runnable] at hstep'
  generalize runnableBlock M.symbols s₁ next = r at hstep hstep'
  refine ⟨j, ?_⟩
  generalize s.changedBy _ = x at hstep ⊢
  generalize s'.changedBy _ = x' at hstep' ⊢
  generalize s₁.storeAll _ = s₂ at h₂ hwired hstep
  generalize s₁'.storeAll _ = s₂' at h₂ hwired hstep'
  -- the processes after it
  obtain ⟨vs, c, e, hv, hv', hu, hu'⟩ := @Sweep.foldl_step_agrees _ _ _ T.symbols _
    (fun p hp => (T.others_uncoded (hafter p hp)).1)
    (fun p hp => (T.others_uncoded (hafter p hp)).2) ⟨s₂, b || x, d && r⟩ ⟨s₂', b || x', d && r⟩
    h₂.agrees
  obtain ⟨h₃, hs₃⟩ := h₂.others T hafter hu hu'
  refine ⟨b || c, d && r && e, _, _, h₃, hwired.same (hs₃ _ hnext).1 (hs₃ _ hnext).2, ?_, ?_,
    fun hno => hfresh fun i hi hx => hno i hi ?_⟩
  · rw [Sim.sweep, combinational, hproc, List.filter_append, List.filter_append,
      combinational_processes, List.foldl_append, List.foldl_append, hb, List.foldl_cons,
      List.foldl_nil, hstep, hv, Bool.or_left_comm, Bool.or_assoc]
  · rw [Sim.sweep, combinational, hproc', List.filter_append, List.filter_append,
      combinational_processes, List.foldl_append, List.foldl_append, hb', List.foldl_cons,
      List.foldl_nil, hstep', hv', Bool.or_left_comm, Bool.or_assoc]
  · exact (hs₁ q.machine.current (Sequencer.mem_made.mpr (.inl rfl))).2.symm.read.trans hx

end Sweeps

end Program

end Lockstep
