import Lockstep.Proofs.Program.Holdings

/-!
# The depth of stacks

The depth of a stack is in several symbols: a constant, the lengths of its memories, and the width
that the pointer and the constant share. All of them agree at every point of an elaboration. A new
stack has room for one call; the first recursive call fixes another depth, in place, and from then
on only calls for that depth are accepted.

A program can resize the pointer by a command, since the pointer is a signal with a name. Then its
width is what the program says.
-/

namespace Lockstep.Program

variable {r : InstanceRef} {t : List Point} {p : Point} {s : Session}

theorem toNat_ofInt_of_int {n : Int} (hpos : 0 ≤ n) (hint : wrapSigned n = n) :
    ((UInt64.ofInt n).toNat : Int) = n := by
  have hlt : n < 2 ^ 63 := by
    have hmod : wrapSigned n < (UInt64.size + 1) / 2 := Int.bmod_lt (by decide)
    rw [hint] at hmod
    exact hmod
  have hself : n % 2 ^ 64 = n := Int.emod_eq_of_lt hpos (by omega)
  rw [UInt64.ofInt, hself, UInt64.toNat_ofNat']
  omega

/-- The symbols of a stack agree on its depth, a positive machine integer. -/
structure Instance.Coherent (g : Symbols) (inst : Instance) : Prop where
  stacked : ∃ code, Stacked g code inst
  depth : instanceDepth g inst = inst.room g
  positive : 0 < inst.room g
  words : ∀ d ∈ inst.returnAddr :: inst.args, ∃ x, g.signals[d]? = some x ∧ x.depth = inst.room g

/-- The pointer counts the calls up to the depth, and the constant holds the depth. -/
structure Instance.Counts (g : Symbols) (inst : Instance) : Prop where
  type : g.signalType inst.sp = some (.unsigned (bitsFor (inst.room g))) ∧
    g.signalType inst.depth = some (.unsigned (bitsFor (inst.room g)))
  representable : ∀ n ≤ inst.room g, n < 2 ^ (g.signalType inst.sp).bits
  push : ∀ s : Sim.State, (s.read inst.sp).toNat < inst.room g →
    (Sim.eval g s (.plus (.ref inst.sp) (.const 1 (some inst.spType)))).toNat =
      (s.read inst.sp).toNat + 1
  limit : (Sim.eval g (.initial g) (.ref inst.depth)).toNat = inst.room g

namespace Instance.Coherent

variable {g g' : Symbols} {inst inst' : Instance}

theorem counts (h : inst.Coherent g) : inst.Counts g := by
  obtain ⟨code, hs⟩ := h.stacked
  have hinit := (Shaped.initial hs).depth
  refine ⟨⟨hs.sp_type, hs.depth_type⟩, fun n hn => ?_, fun s hsp => hs.eval_push hsp, ?_⟩
  · rw [hs.sp_type, Stacked.pointer_bits]
    exact Stacked.pointer_lt hn
  · rw [hs.eval_depth hinit, hinit]

theorem like (h : inst.Coherent g) (hl : inst.Like inst') : inst'.Coherent g := by
  obtain ⟨code, hs⟩ := h.stacked
  rw [hl]
  exact ⟨⟨code, hs.sp, hs.depth, hs.width, hs.memories, hs.address, hs.nodup, hs.args⟩, h.depth,
    h.positive, h.words⟩

theorem congr (h : inst.Coherent g) (hs : ∀ d ∈ inst.stack, g'.signals[d]? = g.signals[d]?)
    (ht : g'.types[inst.spType]? = g.types[inst.spType]?) :
    inst.Coherent g' ∧ inst.room g' = inst.room g := by
  obtain ⟨code, hstacked⟩ := h.stacked
  have hdepth := hs inst.depth (by simp [Instance.stack])
  have hroom : inst.room g' = inst.room g := by rw [Instance.room, Instance.room, hdepth]
  refine ⟨⟨⟨code, hstacked.congr hs ht⟩, ?_, hroom ▸ h.positive, fun d hd => ?_⟩, hroom⟩
  · rw [hroom, ← h.depth, instanceDepth, instanceDepth, hdepth]
  · rw [hs d (List.mem_cons_of_mem _ (List.mem_cons_of_mem _ hd)), hroom]
    exact h.words d hd

/-- What does not touch the symbols of a stack keeps its depth. -/
theorem touch (h : inst.Coherent g) {cells : TypeId → Prop} {words : SignalId → Prop}
    (ht : g.Touches cells words g') (hw : ∀ d ∈ inst.stack, ¬ words d) (hc : ¬ cells inst.spType) :
    inst.Coherent g' ∧ inst.room g' = inst.room g := by
  obtain ⟨code, hs⟩ := h.stacked
  refine h.congr (fun d hd => ?_) ?_
  · obtain ⟨x, hx⟩ := hs.signal hd
    obtain ⟨y, hy, -, hsame⟩ := ht.signals d x hx
    rw [hx, hy, hsame (hw d hd)]
  · obtain ⟨u, hu, hsame⟩ := ht.types _ _ hs.width
    rw [hs.width, hu, hsame hc]

theorem resized (h : inst.Coherent g) {depth : Int} (hpos : 0 < depth)
    (hint : wrapSigned depth = depth) :
    inst.Coherent (resized g inst depth) ∧
      (inst.room (Program.resized g inst depth) : Int) = depth := by
  obtain ⟨code, hs⟩ := h.stacked
  have hroom : (inst.room (Program.resized g inst depth) : Int) = depth := by
    rw [room_resized hs]
    exact toNat_ofInt_of_int hpos.le hint
  refine ⟨⟨⟨code, hs.resized hpos.le⟩, ?_, by omega, fun d hd => ?_⟩, hroom⟩
  · change wrapSigned (inst.room (Program.resized g inst depth)) = _
    rw [hroom, hint]
  · obtain ⟨x, hx, -⟩ := hs.memories d hd
    have hin : d ∈ inst.args ++ [inst.returnAddr] := by
      simp only [List.mem_cons, List.mem_append] at hd ⊢
      tauto
    rw [hroom, resized_signals, hx]
    exact ⟨_, rfl, by simp [hin]⟩

end Instance.Coherent

theorem NewStack.coherent {env : Env} {m m' : Module} {inst : Instance}
    (h : NewStack env m m' inst) : inst.Coherent m'.symbols := by
  refine ⟨⟨_, h.stacked⟩, ?_, by simp [h.room], fun d hd => ?_⟩
  · change wrapSigned (inst.room m'.symbols) = inst.room m'.symbols
    rw [h.room]
    decide
  · obtain ⟨x, hx, hdepth⟩ := h.words d hd
    exact ⟨x, hx, by simp [hdepth, h.room]⟩

/-! ## Recursive calls -/

/-- A recursive call, and the depth that it gives the stack if it is the first one. -/
def Point.asked (p : Point) : Option (InstanceRef × Int) :=
  match p.event with
  | .recurs r request =>
    some (r, stackDepth (p.context.function r.function) (p.context.core.instanceAt r) request)
  | _ => none

/-- The first depth that the recursive calls of an instance ask for, else room for one call. -/
def firstDepth (r : InstanceRef) (t : List Point) : Int :=
  ((t.filterMap Point.asked).lookup r).getD 1

theorem Point.asked_recurs {request : Int} (hp : p.event = .recurs r request) : p.asked =
      some (r, stackDepth (p.context.function r.function) (p.context.core.instanceAt r) request) := by
  rw [asked, hp]

theorem Point.recurs_of_asked {d : Int} (h : p.asked = some (r, d)) :
    ∃ request, p.event = .recurs r request := by
  unfold asked at h
  split at h
  · next r' request hp =>
    obtain ⟨rfl, -⟩ := Prod.mk.inj (Option.some.inj h)
    exact ⟨request, hp⟩
  · cases h

theorem lookup_asked_eq_none (h : ∀ q ∈ t, ∀ request, q.event ≠ .recurs r request) :
    (t.filterMap Point.asked).lookup r = none := by
  refine List.lookup_eq_none_iff.mpr fun a ha => ?_
  obtain ⟨q, hq, hasked⟩ := List.mem_filterMap.mp ha
  obtain ⟨request, hrec⟩ := Point.recurs_of_asked hasked
  by_contra hr
  have hra : r = a.1 := by simpa using hr
  exact h q hq request (hra ▸ hrec)

/-- Only the first of the recursive calls counts. -/
theorem firstDepth_concat
    (h : ∀ request, p.event = .recurs r request → ∃ q ∈ t, ∃ request, q.event = .recurs r request) :
    firstDepth r (t ++ [p]) = firstDepth r t := by
  rw [firstDepth, List.filterMap_append, List.lookup_append, firstDepth]
  cases hd : (t.filterMap Point.asked).lookup r with
  | some d => rfl
  | none =>
    have hno : ([p].filterMap Point.asked).lookup r = none := by
      refine lookup_asked_eq_none fun p' hp' request hrec => ?_
      obtain rfl := List.mem_singleton.mp hp'
      obtain ⟨q, hq, request', hq'⟩ := h request hrec
      have hmem := List.mem_filterMap.mpr ⟨q, hq, Point.asked_recurs hq'⟩
      simpa using List.lookup_eq_none_iff.mp hd _ hmem
    rw [hno]
    rfl

theorem firstDepth_concat_recurs {request : Int}
    (h : ∀ q ∈ t, ∀ request, q.event ≠ .recurs r request) (hp : p.event = .recurs r request) :
    firstDepth r (t ++ [p]) =
      stackDepth (p.context.function r.function) (p.context.core.instanceAt r) request := by
  rw [firstDepth, List.filterMap_append, List.lookup_append, lookup_asked_eq_none h]
  simp [Point.asked_recurs hp]

namespace Effect

variable {base : Symbols} {p : Point} {k : Core}

/-- After a recursive call the stack has its depth. -/
theorem sized_of_recurs (h : Effect base p k) {o : Holders} (ho : p.context.core.Held o)
    {r : InstanceRef} {request : Int} (hp : p.event = .recurs r request) :
    ∃ inst, instance? k.functions r = some inst ∧ inst.sized = true := by
  by_cases hsized : (p.context.core.instanceAt r).sized = true
  · cases hi : instance? p.context.session.functions r with
    | none =>
      rw [Core.instanceAt, show instance? p.context.core.functions r = none from hi] at hsized
      cases hsized
    | some inst =>
      obtain ⟨inst', hi', hstep⟩ := h.proceeds hi
      refine ⟨inst', hi', hstep.sized ?_⟩
      simpa [Core.instanceAt, Context.core, hi] using hsized
  · cases h with
    | keep hacts _ =>
      rw [Point.Acts, hp] at hacts
      exact absurd (by simpa using hsized) hacts
    | @size r' request' hp' hr _ =>
      obtain ⟨rfl, rfl⟩ : r' = r ∧ request' = request := by simpa using hp'.symm.trans hp
      refine ⟨{ p.context.core.instanceAt r' with sized := true }, ?_, rfl⟩
      rw [Core.modifyInstance, instance?_modifyInstance, if_pos rfl]
      exact Option.map_eq_some_iff.mpr ⟨_, ho.instanceAt hr, rfl⟩
    | define hp' | resize hp' _ _ | build hp' | make hp' _ _ _ _ _ | enter hp' _ _ _ _ _ | leave hp'
    | give hp' _ _ _ _ =>
      rw [hp] at hp'
      cases hp'

end Effect

/-- After the points `t`: all stacks are coherent, those that were asked for a depth are sized, and
those that are new are as deep as they were asked to be first. -/
structure Measures (old : Array Function) (t : List Point) (k : Core) : Prop where
  held : ∃ o, k.Held o
  coherent : ∀ r inst, instance? k.functions r = some inst → inst.Coherent k.module.symbols
  asked : ∀ q ∈ t, ∀ r request, q.event = .recurs r request →
    ∃ inst, instance? k.functions r = some inst ∧ inst.sized = true
  depth : ∀ r inst, instance? k.functions r = some inst → instance? old r = none →
    (inst.room k.module.symbols : Int) = firstDepth r t ∧
      (inst.sized = true → ∃ q ∈ t, ∃ request, q.event = .recurs r request)

namespace Measures

variable {base : Symbols} {old : Array Function} {t : List Point} {p : Point} {k k' : Core}

theorem quiet (h : Measures old t k) (hq : Core.Quiet base k k') : Measures old t k' := by
  obtain ⟨o, ho⟩ := h.held
  have hfs : k'.functions = k.functions := by rw [hq.rest]
  have hkept {r : InstanceRef} {inst : Instance} (hi : instance? k.functions r = some inst) :=
    (h.coherent r inst hi).touch hq.module.symbols.touches (fun _ _ => id) id
  refine ⟨⟨o, ho.quiet hq⟩, ?_, ?_, ?_⟩
  all_goals rw [hfs]
  · exact fun r inst hi => (hkept hi).1
  · exact h.asked
  · intro r inst hi hnew
    rw [(hkept hi).2]
    exact h.depth r inst hi hnew

/-- A stack that is not sized at a point is left alone, if the program does not resize it. -/
theorem touch (h : Measures old t p.context.core) (he : Effect base p k) {r : InstanceRef}
    {inst : Instance} (hi : instance? p.context.session.functions r = some inst)
    (hno : ¬ p.Resizes inst.spType) (hs : ¬ p.Sizes r) :
    inst.Coherent k.module.symbols ∧
      inst.room k.module.symbols = inst.room p.context.session.module.symbols := by
  obtain ⟨o, ho⟩ := h.held
  refine (h.coherent r inst hi).touch (ho.touches he) (fun d hd => ?_) ?_
  · rintro ⟨r', hr', hs'⟩
    cases (ho.records.stack r inst hi d hd).symm.trans hr'
    exact hs hs'
  · have hcell := ho.records.pointer r inst hi
    rw [hcell]
    rintro (hres | hcode | ⟨r', ⟨hr', hs'⟩ | ⟨hr', -⟩⟩)
    · exact hno hres
    · rw [hcode, ho.code.2] at hcell
      cases hcell
    · obtain rfl : r = r' := (Prod.mk.inj (Option.some.inj hr')).1
      exact hs hs'
    · cases hr'

/-- The first recursive call gives a stack its depth. -/
theorem size (h : Measures old t p.context.core) (he : Effect base p k) {r : InstanceRef}
    {inst inst' : Instance} (hi : instance? p.context.session.functions r = some inst)
    (hlike : inst.Like inst') (hs : p.Sizes r)
    (hint : ∀ d, p.asked = some (r, d) → wrapSigned d = d) :
    inst'.Coherent k.module.symbols ∧ (instance? old r = none →
      (inst'.room k.module.symbols : Int) = firstDepth r (t ++ [p])) := by
  obtain ⟨request, hp, hsized⟩ := hs
  have hat : p.context.core.instanceAt r = inst := by simp [Core.instanceAt, Context.core, hi]
  cases he with
  | keep hacts _ =>
    rw [Point.Acts, hp] at hacts
    exact absurd hsized hacts
  | @size r' request' hp' hr _ =>
    obtain ⟨rfl, rfl⟩ : r' = r ∧ request' = request := by simpa using hp'.symm.trans hp
    have hpos : 0 < stackDepth (p.context.function r'.function) (p.context.core.instanceAt r')
        request' := lt_max_of_lt_right Int.one_pos
    obtain ⟨hco, hroom⟩ := (h.coherent r' inst hi).resized hpos (hint _ (Point.asked_recurs hp))
    have hfirst : ∀ q ∈ t, ∀ request, q.event ≠ .recurs r' request := by
      intro q hq request hq'
      obtain ⟨inst₀, hi₀, hsized₀⟩ := h.asked q hq r' request hq'
      cases hi.symm.trans hi₀
      rw [hat, hsized₀] at hsized
      cases hsized
    rw [firstDepth_concat_recurs hfirst hp]
    rw [hat] at hco hroom ⊢
    refine ⟨hco.like hlike, fun _ => ?_⟩
    rw [hlike]
    exact hroom
  | define hp' | resize hp' _ _ | build hp' | make hp' _ _ _ _ _ | enter hp' _ _ _ _ _ | leave hp'
  | give hp' _ _ _ _ =>
    rw [hp] at hp'
    cases hp'

theorem effect (h : Measures old t p.context.core) (he : Effect base p k)
    (hno : ∀ r inst, instance? p.context.session.functions r = some inst → ¬ p.Resizes inst.spType)
    (hint : ∀ r d, p.asked = some (r, d) → wrapSigned d = d) : Measures old (t ++ [p]) k := by
  obtain ⟨o, ho⟩ := h.held
  refine ⟨ho.effect he, fun r inst' hi' => ?_, fun q hq r request hrec => ?_,
    fun r inst' hi' hold => ?_⟩
  · rcases he.instance_cases hi' with ⟨inst, hi, hlike⟩ | ⟨-, -, -, hnew⟩
    · by_cases hs : p.Sizes r
      · exact (h.size he hi hlike hs (hint r)).1
      · exact (h.touch he hi (hno r inst hi) hs).1.like hlike
    · exact hnew.coherent
  · rcases List.mem_append.mp hq with hq | hq
    · obtain ⟨inst, hi, hsized⟩ := h.asked q hq r request hrec
      obtain ⟨inst', hi', hstep⟩ := he.proceeds hi
      exact ⟨inst', hi', hstep.sized hsized⟩
    · obtain rfl := List.mem_singleton.mp hq
      exact he.sized_of_recurs ho hrec
  · rcases he.instance_cases hi' with ⟨inst, hi, hlike⟩ | ⟨hp, hpos, -, hnew⟩
    · obtain ⟨hroom, hwas⟩ := h.depth r inst hi hold
      by_cases hs : p.Sizes r
      · refine ⟨(h.size he hi hlike hs (hint r)).2 hold, fun _ => ⟨p, by simp, ?_⟩⟩
        obtain ⟨request, hp, -⟩ := hs
        exact ⟨request, hp⟩
      · have hfirst : firstDepth r (t ++ [p]) = firstDepth r t := by
          refine firstDepth_concat fun request hp => hwas ?_
          -- what is not sized at a recursive call is sized already
          by_contra hno
          refine hs ⟨request, hp, ?_⟩
          simpa [Core.instanceAt, Context.core, hi] using hno
        have hsame := (h.touch he hi (hno r inst hi) hs).2
        refine ⟨?_, fun hsized => ?_⟩
        · rw [hfirst, ← hroom, hlike]
          exact congrArg Nat.cast hsame
        · obtain ⟨inst₁, hi₁, hstep⟩ := he.proceeds hi
          cases hi₁.symm.trans hi'
          obtain ⟨q, hq, hrec⟩ := hwas ((hstep.sizes hsized).resolve_right hs)
          exact ⟨q, List.mem_append_left _ hq, hrec⟩
    · have hnone : instance? p.context.session.functions r = none := by
        cases hf : p.context.session.functions[r.function]? <;>
          simp [instance?, Context.function, hf, hpos]
      have hfirst : ∀ q ∈ t ++ [p], ∀ request, q.event ≠ .recurs r request := by
        intro q hq request hrec
        rcases List.mem_append.mp hq with hq | hq
        · obtain ⟨inst, hi, -⟩ := h.asked q hq r request hrec
          rw [show instance? p.context.core.functions r = none from hnone] at hi
          cases hi
        · rw [List.mem_singleton.mp hq, hp] at hrec
          cases hrec
      refine ⟨by rw [firstDepth, lookup_asked_eq_none hfirst, hnew.room]; rfl, fun hsized => ?_⟩
      rw [hnew.unsized] at hsized
      cases hsized

/-- The end of an elaboration changes no stack. -/
theorem settle (h : Measures old t k) {g g' : Symbols} (hg : k.Settles g)
    (hg' : g' = g ∨ ∃ w, g' = g.setType k.code w) : (∃ o : Holders, o.Records k.functions g') ∧
      ∀ r inst, instance? k.functions r = some inst →
        inst.Coherent g' ∧ inst.room g' = inst.room k.module.symbols := by
  obtain ⟨o, ho⟩ := h.held
  obtain ⟨hrecords, hsignals, htypes⟩ := ho.settle hg hg'
  refine ⟨⟨o, hrecords⟩, fun r inst hi => ?_⟩
  have hco := h.coherent r inst hi
  refine hco.congr (fun d _ => by rw [hsignals]) ?_
  obtain ⟨code, hstacked⟩ := hco.stacked
  obtain ⟨u, hu, hsame⟩ := htypes _ _ hstacked.width
  rw [hstacked.width, hu, hsame r .pointer (ho.records.pointer r inst hi) (.inl rfl)]

end Measures

/-- A stack gets its depth while the body of its instance is being elaborated. -/
theorem Concludes.building_of_sizes {base : Symbols} {k₀ k' : Core}
    {result : Except Error Sequencer} (h : Concludes base k₀ t result k') (hp : p ∈ t)
    (hs : p.Sizes r) : r ∈ p.context.draft.building := by
  obtain ⟨request, hrec, hsized⟩ := hs
  have hno : ∀ e, ¬ p.Refuses e := by
    intro e
    rw [Point.Refuses, hrec]
    simp [hsized]
  obtain ⟨k, he⟩ := h.effect hp hno (by simp [hrec])
  cases he with
  | keep hacts _ =>
    rw [Point.Acts, hrec] at hacts
    exact absurd hsized hacts
  | @size r' request' hp' hr _ =>
    obtain ⟨rfl, -⟩ : r' = r ∧ request' = request := by simpa using hp'.symm.trans hrec
    exact hr
  | define hp' | resize hp' _ _ | build hp' | make hp' _ _ _ _ _ | enter hp' _ _ _ _ _ | leave hp'
  | give hp' _ _ _ _ =>
    rw [hrec] at hp'
    cases hp'

/-! ## Whole programs -/

/-- Every function of the session has a stack of its own for each instance, and all are coherent. -/
structure Session.Coherent (s : Session) : Prop where
  held : ∃ o : Holders, o.Records s.functions s.module.symbols
  coherent : ∀ r inst, instance? s.functions r = some inst → inst.Coherent s.module.symbols

/-- Without functions there is nothing to hold. -/
theorem Session.coherent_of_empty (h : s.functions = #[]) : s.Coherent where
  held := by
    refine ⟨⟨fun _ => none, fun _ => none⟩, ?_⟩
    constructor <;> simp [instance?, h]
  coherent := by simp [instance?, h]

theorem measures_draft (h : s.Coherent) (opts : Options) :
    Measures s.functions [] (draft s opts).core where
  held := by
    obtain ⟨o, ho⟩ := h.held
    exact ⟨o, held_draft ho opts⟩
  coherent r inst hi := ((h.coherent r inst hi).touch (draft_expands s opts).symbols.touches
    (fun _ _ => id) id).1
  asked _ hq := absurd hq List.not_mem_nil
  depth r inst hi hnone := by
    rw [show instance? (draft s opts).core.functions r = instance? s.functions r from rfl,
      hnone] at hi
    cases hi

/-- Stacks that were there before the program keep their depth. -/
theorem room_kept (hs : ∀ p ∈ s.scope.functions, p.2 < s.functions.size) (h : s.Coherent)
    {opts : Options} {k : Core} (hrun : Threads s.module.symbols (draft s opts).core t k)
    {inst inst₀ : Instance} (hi : instance? k.functions r = some inst)
    (hi₀ : instance? s.functions r = some inst₀) :
    inst.room k.module.symbols = inst₀.room s.module.symbols := by
  have hdraft : instance? (draft s opts).core.functions r = some inst₀ := hi₀
  obtain ⟨inst', hi', hlike⟩ := hrun.instance_kept hdraft
  cases hi.symm.trans hi'
  obtain ⟨code, hstacked⟩ := (h.coherent r inst₀ hi₀).stacked
  obtain ⟨x, hx, -⟩ := hstacked.depth
  obtain ⟨-, htouch⟩ := hrun.owns (sound_draft hs opts) (owns_draft s opts)
  obtain ⟨y, hy, -, hsame⟩ := htouch.signals _ x ((draft_expands s opts).symbols.signals _ x hx)
  have hnew : ¬ s.module.symbols.signals.size ≤ inst₀.depth :=
    Nat.not_le.mpr (Array.getElem?_eq_some_iff.mp hx).1
  rw [hlike, Instance.room, Instance.room, hy, hx, hsame hnew]

def Event.isResize : Event → Bool
  | .performs _ (.resize _ _) => true
  | _ => false

theorem Point.not_resizes (p : Point) (h : p.event.isResize = false) (i : TypeId) : ¬ p.Resizes i := by
  rintro ⟨⟨n, name, t, hevent⟩, -⟩
  simp [hevent, Event.isResize] at h

/-- The stacks of all instances are coherent at every point of an elaboration and after it. A stack
that is new is as deep as the first recursive call asks for, which comes while its body is being
elaborated; a later one that asks for another depth is refused. -/
theorem stacks_coherent {s : Session} (hs : ∀ p ∈ s.scope.functions, p.2 < s.functions.size)
    (hc : s.Coherent) (opts : Options) (body : List Command)
    (hsp : ∀ p ∈ course s opts body, ∀ r inst, instance? p.context.session.functions r = some inst →
      ¬ p.Resizes inst.spType)
    (hint : ∀ p ∈ course s opts body, ∀ r d, p.asked = some (r, d) → wrapSigned d = d) :
    (∀ t p u, course s opts body = t ++ p :: u →
      (∀ r inst, instance? p.context.session.functions r = some inst →
        inst.Coherent p.context.session.module.symbols ∧
        inst.Counts p.context.session.module.symbols ∧
        (∀ inst₀, instance? s.functions r = some inst₀ →
          inst.room p.context.session.module.symbols = inst₀.room s.module.symbols) ∧
        (instance? s.functions r = none →
          (inst.room p.context.session.module.symbols : Int) = firstDepth r t)) ∧
      (∀ r, p.Sizes r → r ∈ p.context.draft.building) ∧
      ∀ q ∈ t, ∀ r request request', q.event = .recurs r request → p.event = .recurs r request' →
        request' ≠ 0 →
        request' ≠ (p.context.core.instanceAt r).room p.context.session.module.symbols →
        (build s opts body).1 = .error (.depthConflict (p.context.function r.function).name request'
          ((p.context.core.instanceAt r).room p.context.session.module.symbols))) ∧
    (build s opts body).2.Coherent ∧
    ∀ q, (build s opts body).1 = .ok q → ∀ r inst,
      instance? (build s opts body).2.functions r = some inst →
        inst.Counts (build s opts body).2.module.symbols ∧ (instance? s.functions r = none →
          (inst.room (build s opts body).2.module.symbols : Int) =
            firstDepth r (course s opts body)) := by
  obtain ⟨k', hends, hshow⟩ := build_concludes hs opts body
  have hmeasures {t : List Point} {k : Core} (ht : t ⊆ course s opts body)
      (hrun : Threads s.module.symbols (draft s opts).core t k) : Measures s.functions t k := by
    have h := hrun.collect (P := Measures s.functions) (fun _ _ _ hq h => h.quiet hq)
      (fun _ p hp _ he h => h.effect he (hsp p (ht hp)) (hint p (ht hp))) (measures_draft hc opts)
    simpa using h
  refine ⟨fun t p u heq => ?_, ?_⟩
  · rw [heq] at hends
    have hrun := hends.upto
    have hp : p ∈ t ++ p :: u := List.mem_append_right t List.mem_cons_self
    have hm := hmeasures (by rw [heq]; exact List.subset_append_left t _) hrun
    refine ⟨fun r inst hi => ?_, fun r => hends.building_of_sizes hp,
      fun q hq r request request' hq' hp' hne hother => ?_⟩
    · have hco := hm.coherent r inst hi
      exact ⟨hco, hco.counts, fun inst₀ => room_kept hs hc hrun hi, fun hnone =>
        (hm.depth r inst hi hnone).1⟩
    · obtain ⟨inst, hi, hsized⟩ := hm.asked q hq r request hq'
      have hat : p.context.core.instanceAt r = inst := by
        rw [Core.instanceAt, hi]
        rfl
      have hdepth : instanceDepth p.context.session.module.symbols inst =
          inst.room p.context.session.module.symbols := (hm.coherent r inst hi).depth
      refine hends.refuses hp ?_
      rw [Point.Refuses, hp']
      simp only [hat, hdepth] at hother ⊢
      exact ⟨hsized, hne, hother, trivial⟩
  · obtain ⟨u, k, g, hu, hall, hrun, hg, hfs, hg'⟩ := hends.ends
    have hm := hmeasures hu hrun
    obtain ⟨hrecords, hco⟩ := hm.settle hg hg'
    rw [← hfs, ← hshow.functions, ← hshow.module] at hrecords hco
    refine ⟨⟨hrecords, fun r inst hi => (hco r inst hi).1⟩, fun q hq r inst hi => ?_⟩
    obtain ⟨hcoherent, hroom⟩ := hco r inst hi
    refine ⟨hcoherent.counts, fun hnone => ?_⟩
    rw [hshow.functions, hfs] at hi
    rw [hroom, ← hall q hq]
    exact (hm.depth r inst hi hnone).1

/-- The stack of `sum` has room for one call, until the function calls itself. -/
theorem sumBody_stack :
    (build { module := sumTop } (sumOptions .binary) sumBody).1.isOk = true ∧
    (course { module := sumTop } (sumOptions .binary) sumBody).filterMap Point.asked =
      [(⟨0, 0⟩, 4)] ∧
    (build { module := sumTop } (sumOptions .binary) sumBody).2.Coherent ∧
    ∃ inst, instance? (build { module := sumTop } (sumOptions .binary) sumBody).2.functions ⟨0, 0⟩ =
        some inst ∧
      inst.Counts (build { module := sumTop } (sumOptions .binary) sumBody).2.module.symbols ∧
      inst.room (build { module := sumTop } (sumOptions .binary) sumBody).2.module.symbols = 4 := by
  have hasked : (course { module := sumTop } (sumOptions .binary) sumBody).filterMap Point.asked =
      [(⟨0, 0⟩, 4)] := by decide +kernel
  have hplain : (course { module := sumTop } (sumOptions .binary) sumBody).all
      (fun p => !p.event.isResize) = true := by decide +kernel
  have hok : (build { module := sumTop } (sumOptions .binary) sumBody).1.isOk = true := by
    decide +kernel
  have hsome : (instance? (build { module := sumTop } (sumOptions .binary) sumBody).2.functions
      ⟨0, 0⟩).isSome = true := by decide +kernel
  have hsp : ∀ p ∈ course { module := sumTop } (sumOptions .binary) sumBody, ∀ r inst,
      instance? p.context.session.functions r = some inst → ¬ p.Resizes inst.spType := by
    intro p hp r inst _
    exact p.not_resizes (by simpa using List.all_eq_true.mp hplain p hp) _
  have hint : ∀ p ∈ course { module := sumTop } (sumOptions .binary) sumBody, ∀ r d,
      p.asked = some (r, d) → wrapSigned d = d := by
    intro p hp r d hd
    have hmem := List.mem_filterMap.mpr ⟨p, hp, hd⟩
    rw [hasked, List.mem_singleton] at hmem
    obtain ⟨-, rfl⟩ := Prod.mk.inj hmem
    decide
  obtain ⟨-, hco, hdepth⟩ := stacks_coherent (s := { module := sumTop })
    (fun p hp => absurd hp List.not_mem_nil) (Session.coherent_of_empty rfl) (sumOptions .binary)
    sumBody hsp hint
  obtain ⟨inst, hi⟩ := Option.isSome_iff_exists.mp hsome
  cases hbuild : (build { module := sumTop } (sumOptions .binary) sumBody).1 with
  | error e =>
    rw [hbuild] at hok
    cases hok
  | ok q =>
    obtain ⟨hcounts, hroom⟩ := hdepth q hbuild _ inst hi
    refine ⟨rfl, hasked, hco, inst, hi, hcounts, ?_⟩
    have hfirst := hroom rfl
    rw [firstDepth, hasked] at hfirst
    exact Int.ofNat_inj.mp hfirst

/-- Once the stack of `sum` is made, its pointer is a signal that the program can resize. -/
def stretchBody : List Command := sumBody ++ [.resize "sum_sp" (.unsigned 9)]

theorem stretchBody_pointer : (build { module := sumTop } (sumOptions .binary) stretchBody).1.isOk ∧
    ∃ inst, instance? (build { module := sumTop } (sumOptions .binary) stretchBody).2.functions
        ⟨0, 0⟩ = some inst ∧
      inst.room (build { module := sumTop } (sumOptions .binary) stretchBody).2.module.symbols = 4 ∧
      ¬ inst.Coherent (build { module := sumTop } (sumOptions .binary)
        stretchBody).2.module.symbols := by
  have hok : (build { module := sumTop } (sumOptions .binary) stretchBody).1.isOk = true := by
    decide +kernel
  have hinst : (instance? (build { module := sumTop } (sumOptions .binary) stretchBody).2.functions
      ⟨0, 0⟩).any (fun inst => inst.room (build { module := sumTop } (sumOptions .binary)
        stretchBody).2.module.symbols == 4 &&
      (build { module := sumTop } (sumOptions .binary)
        stretchBody).2.module.symbols.types[inst.spType]? ==
        some (.unsigned 9)) = true := by decide +kernel
  obtain ⟨inst, hi, hcheck⟩ := (Option.any_eq_true ..).mp hinst
  simp only [Bool.and_eq_true, beq_iff_eq] at hcheck
  refine ⟨hok, inst, hi, hcheck.1, fun hco => ?_⟩
  obtain ⟨code, hstacked⟩ := hco.stacked
  have hwidth := hstacked.width
  rw [hcheck.2, hcheck.1] at hwidth
  exact absurd hwidth (by decide)

end Lockstep.Program
