import Lockstep.Proofs.Arithmetic
import Lockstep.Proofs.Program.Resolved
import Lockstep.Proofs.Program.Rounds

/-!
# Enumerators of a built program

An enumerator that elaboration comes to anywhere in a program, followed to the machine that is built.
Its states are where they were laid, its index is a signal that nothing made before it knows, and its
two tests compare numbers of the type of the limit.
-/

namespace Lockstep

/-! ## Types in a module that grows -/

namespace Symbols.Grows

variable {g g' : Symbols} {t : SignalType}

theorem type?_eq (h : g.Grows g') {o : Option TypeId} (ht : g.type? o = some t) :
    g'.type? o = some t := by
  obtain ⟨i, rfl, hi⟩ := Option.bind_eq_some_iff.mp ht
  exact h.types i t hi

theorem signalType_eq (h : g.Grows g') {i : SignalId} (ht : g.signalType i = some t) :
    g'.signalType i = some t := by
  obtain ⟨x, hx, hxt⟩ := Option.bind_eq_some_iff.mp ht
  rw [signalType, h.signals i x hx]
  exact h.type?_eq hxt

theorem typeOf_isSome (h : g.Grows g') {e : Expr} (he : (g.typeOf e).isSome = true) :
    (g'.typeOf e).isSome = true := by
  induction e with
  | hole => cases he
  | ref i | index i =>
    obtain ⟨t, ht⟩ := Option.isSome_iff_exists.mp he
    exact Option.isSome_iff_exists.mpr ⟨t, h.signalType_eq ht⟩
  | lit =>
    obtain ⟨t, ht⟩ := Option.isSome_iff_exists.mp he
    exact Option.isSome_iff_exists.mpr ⟨t, h.type?_eq ht⟩
  | bin op l r ihl =>
    rw [typeOf, Option.isSome_map] at he ⊢
    exact ihl he
  | cmp => rfl
  | not e ih => exact ih he

theorem typed_eq (h : g.Grows g') {e : Expr} (he : g.typed e = true) : g'.typed e = true := by
  induction e with
  | hole => cases he
  | ref | lit | cmp | index => rfl
  | bin op l r ihl ihr =>
    simp only [typed, Bool.and_eq_true] at he ⊢
    exact ⟨⟨ihl he.1.1, ihr he.1.2⟩, h.typeOf_isSome he.2⟩
  | not e ih => exact ih he

/-- The type of an expression may depend on types that are not known yet, but not if it is signed. -/
theorem typeOf_signed (h : g.Grows g') {e : Expr} (ht : g.typeOf e = some t)
    (hs : t.signed = true) : g'.typeOf e = some t := by
  induction e generalizing t with
  | hole => cases ht
  | ref | index => exact h.signalType_eq ht
  | lit => exact h.type?_eq ht
  | bin op l r ihl ihr =>
    rw [typeOf] at ht ⊢
    obtain ⟨u, hu, rfl⟩ := Option.map_eq_some_iff.mp ht
    cases hop : op.isShift with
    | true =>
      simp only [SignalType.resultFor, hop, if_true] at hs ⊢
      rw [ihl hu hs, Option.map_some]
    | false =>
      cases hr : g.typeOf r with
      | none => simp [SignalType.resultFor, hop, hr] at hs
      | some v =>
        simp only [SignalType.resultFor, hop, hr, Bool.false_eq_true, if_false,
          Bool.and_eq_true] at hs
        rw [ihl hu hs.1, ihr hr hs.2, Option.map_some]
  | cmp => exact ht
  | not e ih => exact ih ht hs

/-- A number of the type that `b` had before is compared with `b` as the type says. -/
theorem relate_eq (h : g.Grows g') (r : Relation) {a b : Expr} (hr : r.isEquality = false)
    (ha : g'.knownType a = some t) (hb : g.knownType b = some t) :
    g'.relate r a b = some (.cmp (if t.signed then r.signed else r.unsigned) a b) := by
  rw [knownType] at hb
  split at hb
  · next htyped =>
    cases hs : t.signed with
    | true =>
      have hb' : g'.knownType b = some t := by
        rw [knownType, h.typed_eq htyped, if_pos rfl, h.typeOf_signed hb hs]
      rw [Symbols.relate_eq r ha hb' rfl, hs]
    | false => simp [relate, hr, ha, hs]
  · cases hb

end Symbols.Grows

namespace Module.Retains

theorem size {m m' : Module} (h : m.Retains m') :
    m.symbols.signals.size ≤ m'.symbols.signals.size := by
  by_contra hlt
  rw [Nat.not_le] at hlt
  obtain ⟨y, hy, -⟩ := h.signals m'.symbols.signals.size _ (Array.getElem?_eq_getElem hlt)
  exact Nat.lt_irrefl _ (Array.getElem?_eq_some_iff.mp hy).1

end Module.Retains

namespace Program

/-- The enumerator `x` as it was elaborated from `a`, with a budget of `n` calls. -/
structure Enumerator (n : Nat) (x : Command) (a : Context) where
  limit : Expr
  type : SignalType
  counter : Counter
  /-- Binds the variables of the body, given the index. -/
  names : Expr → ElabM Unit
  body : List Command
  /-- The limit is resolved. -/
  resolved : Context
  /-- The index is declared, and the loop open. -/
  opened : Context
  /-- The body is elaborated. -/
  ended : Context
  enumerates : Enumerates x a limit resolved names body
  known : resolved.session.module.symbols.knownType limit = some type
  opens : (openCount limit).run resolved = .ok counter opened
  runs : (do names (.ref counter.index); performAll (callWithin n) body : ElabM Unit).run opened =
    .ok () ended

namespace Enumerator

variable {n : Nat} {x : Command} {a : Context}

def index (E : Enumerator n x a) : SignalId := E.counter.index

/-- The state before the first round. -/
def first (E : Enumerator n x a) : Nat := E.counter.state

/-- The closing state of the body. -/
def last (E : Enumerator n x a) : Nat := E.ended.draft.machine.size

/-- The states that end a round: the closing one, and those that go on with the next round from
inside the body. -/
def ends (E : Enumerator n x a) : List Nat :=
  E.last :: (E.ended.draft.frames.head?.bind Frame.loop).elim [] LoopFrame.continues

/-! ## The states of the loop -/

/-- The enumerator in the machine as it is in `c`, out of reach of what is still open there. -/
structure Laid (E : Enumerator n x a) (labels : List String) (c : Context) : Prop where
  rounds : E.counter.In c.draft.machine labels E.last E.ends
  room : E.last < c.draft.machine.size
  marks : ∀ f ∈ c.draft.frames, ∀ k ∈ f.marks, k < E.first ∨ E.last < k
  sound : Sound E.opened c

end Enumerator

section

variable {n : Nat} {x : Command} {r a b e c : Context} {labels : List String}

theorem Sound.refl (h : Sound r c) : Sound c c :=
  ⟨Nat.zero_le _, fun _ _ _ => rfl, rfl, h.marks, .refl _, h.functions, .refl _⟩

/-- The rounds depend only on the states from the first to the last. -/
theorem Counter.In.congr {k : Counter} {f f' : Machine} {last : Nat} {sites : List Nat}
    (h : k.In f labels last sites)
    (hf : ∀ j, k.state ≤ j → j ≤ last → f'.states[j]? = f.states[j]?) :
    k.In f' labels last sites := by
  constructor
  · rw [hf _ (le_refl _) h.after.le]
    exact h.header
  · exact h.after
  · exact h.closing
  · intro j hj
    obtain ⟨hlo, hhi, hst⟩ := h.ends j hj
    rw [hf j hlo.le hhi]
    exact ⟨hlo, hhi, hst⟩
  · intro j st hlo hhi hsite hst
    rw [hf j hlo.le hhi] at hst
    exact h.others j st hlo hhi hsite hst

namespace Enumerator

theorem names_weave {E : Weave} {limit : Expr} {names : Expr → ElabM Unit} {body : List Command}
    (h : Enumerates x a limit b names body) (i : Expr) : Weaves E [] (names i) := by
  cases h with
  | count | times => exact .passive (.bindVar _ i)
  | each => exact .passive (.bind (.bindVar _ _) fun _ => .bindVar _ i)

theorem opened_of (E : Enumerator n x a) (h : Sound r a) :
    Opened E.limit E.resolved E.counter E.opened ∧ Sound r E.opened ∧ ∃ name outer,
      (∀ f ∈ outer, ∀ j ∈ f.marks, j < E.first) ∧ ∀ names, Woven
        ⟨E.first, { name, body := [E.counter.clear] }, E.counter.advance, outer, names⟩ [] []
          E.opened := by
  have hres := (E.enumerates.sound h).1
  have hopen := Opened.of_openCount hres E.limit _ _ E.opens
  exact ⟨hopen.1, (hres.of_gives (fun lo hi => (Spared.custody lo hi r).openCount E.limit) E.opens
    List.mem_cons_self).1, hopen.2⟩

/-- The command lays the states of the enumerator. -/
theorem laid (E : Enumerator n x a) (h : Sound r a) (hx : Regular [x])
    (hstays : Command.staysAll labels false E.body = true) :
    Ensures (perform (callWithin n) x) a fun _ c => E.Laid labels c := by
  obtain ⟨-, hopened, name, outer, houter, hwoven⟩ := E.opened_of h
  obtain ⟨command, hperform⟩ := E.enumerates.perform (callWithin n)
  obtain ⟨hbody, hgrow⟩ := hopened.refl.of_run (fun _ _ => .bind
    (.passive (E.enumerates.names_passive _)) fun _ =>
      performAll_spares _ (E.enumerates.regular hx)) E.runs
  have hheld : ∀ k ∈ [E.first], k < E.ended.draft.machine.size ∧ (k < 0 ∨ 0 ≤ k) := by
    simpa using (hwoven labels).begun.trans_le hgrow
  -- the body has been elaborated, and its frame is the innermost one
  obtain ⟨cs, hcs, -⟩ := Weaves.bind (names_weave E.enumerates _)
    (fun _ => Weaves.performAll (callWithin n) [] E.body hstays) [] E.opened (hwoven labels) _ _ E.runs
  rw [List.nil_append] at hcs
  obtain ⟨inside, own, hframes, hshape, hown, -⟩ := hcs.frames
  obtain rfl := List.map_eq_nil_iff.mp hshape
  have hends : E.ends = E.last :: cs := by simp [ends, hframes, hown.loop]
  rw [hperform, recordState, count_eq, ensures_bind, ensures_bind, ensures_of_run E.opens,
    ensures_bind, ensures_of_run E.runs]
  have hclose := (Spared.custody 0 0 E.opened).closeLoop (some E.counter.enter)
    (some E.counter.again) (some E.counter.advance) E.first ⟨[], []⟩ E.ended ⟨hbody, hheld⟩
  refine (Ensures.and hclose hcs.closeCount).mono ?_
  rintro k c ⟨⟨⟨hsound, -⟩, -⟩, hk, hin, hsize, hframes⟩
  rw [ensures_record]
  obtain rfl : k = E.last := hk
  constructor
  · rw [hends]
    exact hin
  · exact hsize ▸ Nat.lt_succ_self _
  · intro f hf j hj
    exact .inl (houter f (hframes ▸ hf) j hj)
  · exact hsound.aside (.same rfl rfl rfl rfl rfl)

/-- Nothing that leaves such states alone changes them. -/
theorem Laid.spared {E : Enumerator n x a} (h : E.Laid labels b)
    (he : ∀ lo hi r', E.first ≤ lo → Spared lo hi r' b → Spared lo hi r' e) : E.Laid labels e := by
  have hle : E.first ≤ E.last := h.rounds.after.le
  have hown : Spared E.first (E.last + 1) b b := by
    refine ⟨h.room, fun _ _ _ => rfl, rfl, fun f hf k hk => ⟨(h.sound.marks f hf k hk).1, ?_⟩,
      .refl _, h.sound.functions, .refl _⟩
    exact (h.marks f hf k hk).imp_right Nat.succ_le_of_lt
  have hlaid := he E.first (E.last + 1) b (le_refl _) hown
  have hsound := he _ _ E.opened (hle.trans h.room.le) h.sound.atEnd
  constructor
  · exact h.rounds.congr fun j hlo hhi => hlaid.states j hlo (Nat.lt_succ_of_le hhi)
  · exact hlaid.size
  · exact fun f hf k hk => (hlaid.marks f hf k hk).2
  · exact hsound.sound

/-- Elaboration leaves the enumerator as the command laid it. -/
theorem laid_visited (E : Enumerator n x a) (h : Visited r e n x a b)
    (hstays : Command.staysAll labels false E.body = true) : E.Laid labels e := by
  have hlaid := E.laid h.sound h.regular hstays _ _ h.run
  have hstart : a.draft.machine.size ≤ E.first :=
    (E.enumerates.sound h.sound).2.trans (E.opened_of h.sound).1.state
  exact hlaid.spared fun lo hi r' hlo hb => h.kept lo hi r' (hstart.trans hlo) hb

end Enumerator

end

/-! ## The end of the program -/

section

variable {lo hi : Nat} {r c : Context}

theorem Spared.fields (h : Spared lo hi r c) :
    c.draft.machine.current = r.draft.machine.current ∧
      c.draft.machine.next = r.draft.machine.next ∧ c.draft.machine.type = r.draft.machine.type ∧
      c.draft.machine.fallback = r.draft.machine.fallback ∧
      c.draft.machine.defaults = r.draft.machine.defaults :=
  ⟨(congrArg Machine.current h.fixed :), (congrArg Machine.next h.fixed :),
    (congrArg Machine.type h.fixed :), (congrArg Machine.fallback h.fixed :),
    (congrArg Machine.defaults h.fixed :)⟩

/-- The machine still has its register and its wire when it is built. -/
theorem Spared.placed {c₁ : Context} (hc : Spared lo hi r c)
    (h : r.draft.machine.Placed r.session.module) (haddr : Addressed c c₁) :
    c.draft.machine.Placed c₁.session.module := by
  obtain ⟨⟨y, hy, hyt⟩, ⟨z, hz, hzt⟩, hne, t, ht⟩ := h
  obtain ⟨y', hy', hyt'⟩ := hc.module.signals _ y hy
  obtain ⟨z', hz', hzt'⟩ := hc.module.signals _ z hz
  obtain ⟨hcur, hnext, htype, -, -⟩ := hc.fields
  have hlt := (Array.getElem?_eq_some_iff.mp ht).1.trans_le hc.module.types
  have hp : Machine.Placed r.draft.machine c₁.session.module := by
    refine ⟨⟨y', haddr.signals ▸ hy', hyt'.trans hyt⟩, ⟨z', haddr.signals ▸ hz', hzt'.trans hzt⟩,
      hne, ?_⟩
    rw [haddr.types]
    exact ⟨_, Array.getElem?_eq_getElem hlt⟩
  exact hp.of_fields hcur hnext htype

/-- The program begins with its end state; what elaboration does not change is fixed from there. -/
theorem Sound.start {s : Session} {opts : Options} (hfs : ∀ f ∈ s.functions, f.Avoids Command.isRaw)
    (hc : (beginProgram opts.start).run (draft s opts) = .ok () c) : Sound c c ∧
      c.draft.machine.Placed c.session.module ∧ c.draft.machine.fallback = 0 ∧
      (c.draft.machine.current < c.session.module.symbols.signals.size ∧
        c.draft.machine.next < c.session.module.symbols.signals.size) ∧
      ∀ i ∈ Stmt.blockDests c.draft.machine.defaults, i < c.session.module.symbols.signals.size := by
  obtain ⟨hfunctions, -, hm, sts, clear, fault, hstart, -, hd⟩ :=
    Ensures.beginProgram opts.start _ _ hc
  obtain ⟨hcur, hnext, hrun, hsize⟩ := draft_signals s opts
  have hgrow := hm.symbols.size
  have hlt : ∀ k < 3, s.module.symbols.signals.size + k < c.session.module.symbols.signals.size := by
    omega
  have hplaced := draft_placed s opts
  have hmarks : ∀ f ∈ c.draft.frames, f.marks = [] := by simp [hd, draft, Frame.marks]
  have hdefaults : c.draft.machine.defaults = sts := by simp [hd, draft, Machine.create]
  have hcur' : c.draft.machine.current = (draft s opts).draft.machine.current := by rw [hd]
  have hnext' : c.draft.machine.next = (draft s opts).draft.machine.next := by rw [hd]
  refine ⟨⟨Nat.zero_le _, fun _ _ _ => rfl, rfl, ?_, .refl _, ?_, .refl _⟩, ?_, ?_, ⟨?_, ?_⟩, ?_⟩
  · intro f hf k hk
    simp [hmarks f hf] at hk
  · rw [hfunctions]
    exact fun f hf => ⟨(hfs f hf).body, (hfs f hf).overflow⟩
  · obtain ⟨⟨y, hy, hyt⟩, ⟨z, hz, hzt⟩, hne, t, ht⟩ := hplaced
    have hp : Machine.Placed (draft s opts).draft.machine c.session.module :=
      ⟨⟨y, hm.symbols.signals _ y hy, hyt⟩, ⟨z, hm.symbols.signals _ z hz, hzt⟩, hne, t,
        hm.symbols.types _ t ht⟩
    exact hp.of_fields hcur' hnext' (by rw [hd])
  · simp [hd, draft, Machine.create]
  · rw [hcur', hcur]
    exact hlt 0 (by decide)
  · rw [hnext', hnext]
    exact hlt 1 (by decide)
  · intro i hi
    rw [hdefaults] at hi
    rw [hstart.dests i hi, hrun]
    exact hlt 2 (by decide)

theorem exists_prepare {s s' : Session} {opts : Options} {body : List Command} {q : Sequencer}
    (h : build s opts body = (.ok q, s')) :
    ∃ c, (prepare opts body).run (draft s opts) = .ok () c := by
  have hprepare : Ensures (elaborate opts body) (draft s opts) fun _ _ =>
      ∃ c, (prepare opts body).run (draft s opts) = .ok () c := by
    rw [elaborate, ensures_bind]
    intro _ c hc _ _ _
    exact ⟨c, hc⟩
  unfold build at h
  split at h
  · next hrun => exact hprepare _ _ hrun
  · simp at h

end

namespace Enumerator

variable {n : Nat} {x : Command} {a c c₀ : Context} {labels : List String}
variable {s s' : Session} {opts : Options} {body : List Command} {q : Sequencer}

/-- Elaborating the rest of the program keeps the enumerator. -/
theorem laid_prepare (E : Enumerator n x a)
    (hbegin : (beginProgram opts.start).run (draft s opts) = .ok () c₀) (h : Sound c₀ c₀)
    (hvisit : Visits opts.budget body c₀ x n a) (hbody : Regular body)
    (hstays : Command.staysAll labels false E.body = true) :
    Ensures (prepare opts body) (draft s opts) fun _ c =>
      Sound c₀ a ∧ Sound c₀ c ∧ E.Laid labels c := by
  have hrest : ∀ lo hi r, Spares lo hi r (do stepIfWaiting; settleReturns) := fun lo hi r =>
    .bind (.of_heeds (Spared.custody lo hi r).stepIfWaiting) fun _ => .passive .settleReturns
  rw [prepare, ensures_bind, ensures_of_run hbegin, ensures_bind]
  refine (Ensures.and (performAll_spares body hbody c₀ h) (hvisit.visited h hbody)).mono ?_
  rintro _ e ⟨he, b, hvisited, -⟩ _ c hrun
  refine ⟨hvisited.sound, hrest 0 0 c₀ e he _ c hrun, ?_⟩
  exact (E.laid_visited hvisited hstays).spared fun lo hi r _ hr => hrest lo hi r e hr _ c hrun

/-- The enumerator in the machine that was built, and in its module. -/
structure Housed (E : Enumerator n x a) (labels : List String) (f : Machine) (m : Module) : Prop where
  rounds : E.counter.In f labels E.last E.ends
  room : E.last < f.size
  built : ∃ (f₀ : Machine) (m₀ : Module), f₀.Placed m₀ ∧ f₀.fallback = 0 ∧
    f₀.build m₀ = (none, f, m)
  current : f.current < E.index
  next : f.next < E.index
  defaults : ∀ i ∈ Stmt.blockDests f.defaults, i < E.index
  signal : ∃ y, m.symbols.signals[E.index]? = some y ∧ y.type = some E.counter.type

/-- The index has a place of its own, with the type of the limit. -/
theorem index_declared (E : Enumerator n x a) (h : Opened E.limit E.resolved E.counter E.opened) :
    (∃ y, E.opened.session.module.symbols.signals[E.index]? = some y ∧
      y.type = some E.counter.type) ∧
    E.opened.session.module.symbols.type? (some E.counter.type) = some E.type ∧
    E.resolved.session.module.symbols.Grows E.opened.session.module.symbols := by
  obtain ⟨g, hshare, hmodule⟩ := h.shared
  have hknown := E.known
  rw [Symbols.knownType] at hknown
  split at hknown
  · obtain ⟨htype, hsignals⟩ := shareType_type hknown hshare
    have hexpands := Module.declareAt_expands { E.resolved.session.module with symbols := g } "i" .reg
      E.counter.type 0 0
    obtain ⟨y, hy, hyt, -⟩ := Module.declareAt_signal
      { E.resolved.session.module with symbols := g } "i" .reg E.counter.type 0 0
    rw [hmodule]
    refine ⟨⟨y, ?_, hyt⟩, hexpands.symbols.type?_eq htype,
      (Symbols.shareType_grows hshare).trans hexpands.symbols⟩
    rw [index, h.index, ← hsignals]
    exact hy
  · cases hknown

theorem housed (E : Enumerator n x a) (hbuild : build s opts body = (.ok q, s'))
    (hbegin : (beginProgram opts.start).run (draft s opts) = .ok () c₀)
    (hfs : ∀ f ∈ s.functions, f.Avoids Command.isRaw) (hvisit : Visits opts.budget body c₀ x n a)
    (hbody : Regular body) (hstays : Command.staysAll labels false E.body = true) :
    Opened E.limit E.resolved E.counter E.opened ∧ E.Housed labels q.machine s'.module := by
  obtain ⟨hstart, hplaced, hfall, ⟨hcur, hnext⟩, hdefaults⟩ := Sound.start hfs hbegin
  obtain ⟨c, hprepare⟩ := exists_prepare hbuild
  obtain ⟨ha, hc, hlaid⟩ := E.laid_prepare hbegin hstart hvisit hbody hstays _ c hprepare
  obtain ⟨c₁, haddr, hmachine, -⟩ := Addressed.of_build hprepare hbuild
  obtain ⟨hopened, -⟩ := E.opened_of ha
  obtain ⟨-, hq, next, -, hsym, -⟩ := Machine.build_ok hmachine
  have hindex : c₀.session.module.symbols.signals.size ≤ E.index := by
    rw [index, hopened.index]
    exact (E.enumerates.sound ha).1.module.size
  obtain ⟨hcur', hnext', -, hfall', hdefaults'⟩ := hc.fields
  refine ⟨hopened, ?_⟩
  rw [hq] at hmachine ⊢
  constructor
  · exact hlaid.rounds.congr fun _ _ _ => rfl
  · exact hlaid.room
  · refine ⟨c.draft.machine, c₁.session.module, ?_, ?_, hmachine⟩
    · exact hc.placed hplaced haddr
    · exact hfall'.trans hfall
  · exact hcur' ▸ hcur.trans_le hindex
  · exact hnext' ▸ hnext.trans_le hindex
  · intro i hi
    exact (hdefaults i (hdefaults' ▸ hi)).trans_le hindex
  · obtain ⟨⟨y, hy, hyt⟩, -⟩ := E.index_declared hopened
    obtain ⟨y', hy', hyt'⟩ := hlaid.sound.module.signals _ y hy
    refine ⟨y', ?_, hyt'.trans hyt⟩
    rw [hsym]
    exact haddr.signals ▸ hy'

/-! ## The tests -/

/-- The predicate that compares numbers of the type of the limit. -/
def below (E : Enumerator n x a) : Predicate :=
  if E.type.signed then Relation.lt.signed else Relation.lt.unsigned

theorem knownType_const {g : Symbols} {i : TypeId} {t : SignalType} (h : g.type? (some i) = some t)
    (v : UInt64) : g.knownType (.const v (some i)) = some t := h

theorem knownType_next {g : Symbols} {k : Counter} {t : SignalType}
    (hindex : g.signalType k.index = some t) (htype : g.type? (some k.type) = some t) :
    g.knownType k.next = some t := by
  simp [Symbols.knownType, Counter.next, Expr.plus, Symbols.typed, Symbols.typeOf, hindex, htype,
    Expr.const, SignalType.resultFor, BinOp.isShift]

/-- The tests compare zero and the next index with the limit, in its type. -/
theorem tests (E : Enumerator n x a) (h : Opened E.limit E.resolved E.counter E.opened) :
    E.counter.enter = .cmp E.below (.const 0 (some E.counter.type)) E.limit ∧
      E.counter.again = .cmp E.below E.counter.next E.limit := by
  obtain ⟨⟨y, hy, hyt⟩, htype, hgrows⟩ := E.index_declared h
  have hindex : E.opened.session.module.symbols.signalType E.counter.index = some E.type := by
    rw [Symbols.signalType, show E.counter.index = E.index from rfl, hy, Option.bind_some, hyt, htype]
  have henter := hgrows.relate_eq .lt rfl (knownType_const htype 0) E.known
  have hagain := hgrows.relate_eq .lt rfl (knownType_next hindex htype) E.known
  exact ⟨Option.some.inj (h.enter.symm.trans henter), Option.some.inj (h.again.symm.trans hagain)⟩

end Enumerator

end Program

end Lockstep
