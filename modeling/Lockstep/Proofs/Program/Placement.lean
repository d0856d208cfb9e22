import Lockstep.Proofs.Program.Layout

/-!
# Elaboration keeps the layout

Each operation on the draft extends the layout of the program by the states that it makes. Between
commands every state is in place but for the calls whose callee is still being elaborated.
-/

namespace Lockstep.Program

variable {α : Type} {env : Env} {L : List (Site LinkId)} {cur cur' : Option InstanceRef}
variable {opens opens' : List Nat} {fs : Array Function} {g : Symbols} {d d' : Draft}
variable {frames : List Frame} {building : List InstanceRef} {o : Option InstanceRef}

/-! ## States -/

theorem addGoto_states (f : Machine) (k : Nat) (t : Transition Expr) :
    (f.addGoto k t).states = f.states.modify k fun s => { s with gotos := s.gotos ++ [t] } := by
  obtain ⟨fault, h⟩ := modifyState_eq f k "goto" fun s => { s with gotos := s.gotos ++ [t] }
  rw [Machine.addGoto, h]

/-- A new state, at the place after the last one. -/
theorem Code.snoc (h : Code env L cur opens fs g d) {role : Role LinkId} {st : Machine.State}
    (hstates : d'.machine.states = d.machine.states.push st)
    (hmachine : Alike d.machine d'.machine) (hrun : d'.run = d.run)
    (hresumes : d'.resumes = d.resumes) (hfunctions : d'.functions = d.functions)
    (hopens : ∀ k, k ∈ opens' ↔ k ∈ opens ∨ (k = L.length ∧ k ∈ opens'))
    (hsite : SiteOk env (L ++ [⟨cur, role⟩]) cur' opens' fs g d.resumes L.length st ⟨cur, role⟩)
    (hlink : ∀ r args q l, role = .call r args q l → ∀ k, ¬ CallsBy L k l)
    (hframes : FramesOk env (L ++ [⟨cur, role⟩]) cur' fs g d'.frames d'.building)
    (hbuilding : ∀ r ∈ d'.building, ∃ inst, env.Has fs r inst)
    (hhere : ∀ r, cur' = some r → r ∈ d'.building)
    (houter : ∀ r ∈ d'.building.tail, ∃ k, Owns (L ++ [⟨cur, role⟩]) k r) :
    Code env (L ++ [⟨cur, role⟩]) cur' opens' fs g d' := by
  have hgo : Goes env L (L ++ [⟨cur, role⟩]) cur cur' fs fs g g := .snoc role
  have hsame : ∀ k < L.length, k ∈ opens' ↔ k ∈ opens := fun k hk => by
    rw [hopens k]
    constructor
    · rintro (hk' | ⟨rfl, -⟩)
      · exact hk'
      · omega
    · exact .inl
  have hcalls : ∀ k l, CallsBy (L ++ [⟨cur, role⟩]) k l →
      CallsBy L k l ∨ (k = L.length ∧ ∃ r args q, role = .call r args q l) := by
    rintro k l ⟨owner, r, args, q, hk⟩
    rcases getElem?_concat hk with ⟨-, hk⟩ | ⟨rfl, hsite⟩
    · exact .inl ⟨owner, r, args, q, hk⟩
    · exact .inr ⟨rfl, r, args, q, (Site.mk.inj hsite).2⟩
  refine ⟨h.alike.trans hmachine, hrun.trans h.run, ?_, hgo.sites _ _ h.first,
    fun k site st' hk hst => ?_,
    fun k hk => ?_, fun k k' l hk hk' => ?_, fun l j hlj => ?_, ?_, hframes, hbuilding, hhere,
    fun k r hown => ?_, houter, by rw [hfunctions]; exact h.functions⟩
  · rw [hstates]
    simp [h.size]
  · rw [hstates, Array.getElem?_push, h.size] at hst
    rw [hresumes]
    split at hst
    · next hk' =>
      subst hk'
      cases hst
      simp only [List.getElem?_append_right (le_refl _), Nat.sub_self, List.getElem?_cons_zero,
        Option.some.injEq] at hk
      rw [← hk]
      exact hsite
    · have hlt : k < L.length := h.size ▸ (Array.getElem?_eq_some_iff.mp hst).1
      rw [List.getElem?_append_left hlt] at hk
      exact (h.sites k site st' hk hst).go hgo (hsame k hlt) fun _ hx => hx
  · rcases (hopens k).mp hk with hk | ⟨rfl, -⟩
    · exact (h.opens_lt k hk).trans (by simp)
    · simp
  · rcases hcalls k l hk with hk | ⟨rfl, r, args, q, hr⟩ <;>
      rcases hcalls k' l hk' with hk' | ⟨rfl, r', args', q', hr'⟩
    · exact h.links k k' l hk hk'
    · exact absurd hk (hlink r' args' q' l hr' k)
    · exact absurd hk' (hlink r args q l hr k')
    · rfl
  · obtain ⟨k, ⟨owner, r, args, q, hk⟩, hopen⟩ := h.resumes l j (hresumes ▸ hlj)
    have hlt := (List.getElem?_eq_some_iff.mp hk).1
    exact ⟨k, ⟨owner, r, args, q, hgo.sites _ _ hk⟩, fun hx => hopen ((hsame k hlt).mp hx)⟩
  · rw [hresumes]
    exact h.resumes_unique
  · rcases hown.of_concat with hown | ⟨-, hcur⟩
    · exact h.owners k r hown
    · exact h.building r (h.here r hcur)

/-- A change of states that stay in their roles. -/
theorem Code.restate (h : Code env L cur opens fs g d) {f : Machine}
    (hmachine : Alike d.machine f)
    (hsize : f.states.size = d.machine.states.size)
    (hsites : ∀ (k : Nat) site st, L[k]? = some site → f.states[k]? = some st →
      SiteOk env L cur opens fs g d.resumes k st site) :
    Code env L cur opens fs g { d with machine := f } :=
  { h with
    alike := h.alike.trans hmachine
    size := hsize.trans h.size
    sites := hsites }

theorem addGoto_alike (f : Machine) (k : Nat) (t : Transition Expr) : Alike f (f.addGoto k t) := by
  obtain ⟨fault, h⟩ := modifyState_eq f k "goto" fun s => { s with gotos := s.gotos ++ [t] }
  rw [Machine.addGoto, h]
  rfl

/-- A plain state gets another transition. -/
theorem Code.addGoto (h : Code env L cur opens fs g d) {k : Nat} {t : Transition Expr}
    (hk : L[k]? = some ⟨o, .plain⟩) (ht : Leads env.escapes L cur o t) :
    Code env L cur opens fs g { d with machine := d.machine.addGoto k t } := by
  refine h.restate (addGoto_alike ..) (by simp [addGoto_states]) fun k' site st hk' hst => ?_
  rw [addGoto_states, Array.getElem?_modify] at hst
  split at hst
  · next hkk =>
    subst hkk
    obtain ⟨st₀, hst₀, rfl⟩ := Option.map_eq_some_iff.mp hst
    cases hk.symm.trans hk'
    obtain ⟨hbody, hnext, hgotos⟩ := h.sites k _ st₀ hk hst₀
    refine ⟨hbody, hnext, fun t' ht' => ?_⟩
    rcases List.mem_append.mp ht' with ht' | ht'
    · exact hgotos t' ht'
    · obtain rfl := List.mem_singleton.mp ht'
      exact ht
  · exact h.sites k' site st hk' hst

/-- Other frames, in the same bodies. -/
theorem Code.reframe (h : Code env L cur opens fs g d)
    (hf : FramesOk env L cur fs g frames d.building) :
    Code env L cur opens fs g { d with frames } :=
  { h with frames := hf }

/-- The surroundings change, and the functions that the program has defined. -/
theorem Code.define (h : Code env L cur opens fs g d) {fs' : Array Function} {g' : Symbols}
    (hw : Widens env fs fs' g g') {functions : List Nat}
    (hf : ∀ fn, fn ∈ functions ↔ env.base ≤ fn ∧ fn < fs'.size) :
    Code env L cur opens fs' g' { d with functions } :=
  { h with
    sites := fun k site st hk hst =>
      (h.sites k site st hk hst).go (.of_widens hw) .rfl fun _ hx => hx
    frames := h.frames.go (.of_widens hw)
    building := fun r hr => by
      obtain ⟨inst, hi⟩ := h.building r hr
      obtain ⟨inst', hi', -⟩ := hw.instances r inst hi
      exact ⟨inst', hi'⟩
    owners := fun k r hown => by
      obtain ⟨inst, hi⟩ := h.owners k r hown
      obtain ⟨inst', hi', -⟩ := hw.instances r inst hi
      exact ⟨inst', hi'⟩
    functions := hf }

theorem Code.widen (h : Code env L cur opens fs g d) {fs' : Array Function} {g' : Symbols}
    (hw : Widens env fs fs' g g') (hsize : fs'.size = fs.size) :
    Code env L cur opens fs' g' d :=
  h.define hw (by rw [hsize]; exact h.functions)

/-! ## Frames -/

theorem FrameOk.empty (o : Option InstanceRef) : FrameOk env L cur fs g o {} :=
  ⟨by simp, by simp, by simp, by simp⟩

theorem FramesOk.modifyHead (h : FramesOk env L cur fs g frames building) {change : Frame → Frame}
    (hbody : ∀ fr, (change fr).isBody = fr.isBody)
    (hok : ∀ fr ∈ frames.head?, FrameOk env L cur fs g building.head? fr →
      FrameOk env L cur fs g building.head? (change fr)) :
    FramesOk env L cur fs g (frames.modifyHead change) building := by
  cases frames with
  | nil => exact h
  | cons fr rest =>
    obtain ⟨hfr, hrest⟩ := h
    refine ⟨hok fr rfl hfr, ?_⟩
    rw [hbody]
    exact hrest

theorem map_isBody_modifyHead (frames : List Frame) {change : Frame → Frame}
    (hbody : ∀ fr, (change fr).isBody = fr.isBody) :
    (frames.modifyHead change).map Frame.isBody = frames.map Frame.isBody := by
  cases frames <;> simp [hbody]

theorem FrameOk.unclose {fr : Frame} (h : FrameOk env L cur fs g o fr) :
    FrameOk env L cur fs g o { fr with closedIf := none } :=
  { h with closedIf := by simp }

theorem FramesOk.unclose (h : FramesOk env L cur fs g frames building) :
    FramesOk env L cur fs g (frames.modifyHead fun fr => { fr with closedIf := none }) building :=
  h.modifyHead (fun _ => rfl) fun _ _ hfr => hfr.unclose

/-! ## Contexts -/

/-- The depths of the stacks are those that the calls of the layout ask for, or calls that have no
place in it yet. -/
def Sized (env : Env) (due : InstanceRef → Int → Prop) (L : List (Site LinkId)) (c : Context) :
    Prop :=
  Depths env (fun r q => due r q ∨ Asks L c.draft.building r q) c.session.functions
    c.session.module.symbols

/-- A new state may be a call that gets the depth it asks for. -/
theorem Depths.snoc {due : InstanceRef → Int → Prop} {building' : List InstanceRef}
    {role : Role LinkId} (h : Depths env (fun r q => due r q ∨ Asks L building r q) fs g)
    (ho : ∀ r, o = some r → r ∈ building) (hleft : ∀ r ∈ building, r ∉ building' → o = some r)
    (hnew : ∀ r ∈ building', r ∈ building ∨ ∀ k, ¬ Owns (L ++ [⟨o, role⟩]) k r)
    (hcall : ∀ r args q l, role = .call r args q l → r ∈ building →
      ∃ inst, env.Has fs r inst ∧ inst.Grants g q) :
    Depths env (fun r q => due r q ∨ Asks (L ++ [⟨o, role⟩]) building' r q) fs g := by
  refine h.reask (fun r q => Or.imp_right fun ha => ?_) fun r q hr => ?_
  · refine ha.grow (List.prefix_append ..) fun hr hr' => ⟨⟨o, role⟩, by simp, hleft r hr hr'⟩
  · rcases hr with hd | ha
    · exact .inl (.inl hd)
    · rcases ha.of_concat ho (hnew r) with ha | ⟨hr, args, l, hrole⟩
      · exact .inl (.inr ha)
      · exact .inr (hcall r args q l hrole hr)

/-- What an operation leaves of the layout and the nesting it started from. -/
structure Grown (env : Env) (L : List (Site LinkId)) (c : Context) (L' : List (Site LinkId))
    (c' : Context) : Prop where
  grows : L <+: L'
  reaches : ∀ j o, Reaches L c.draft.building.head? j o → Reaches L' c'.draft.building.head? j o
  building : c'.draft.building = c.draft.building
  bodies : c'.draft.frames.map Frame.isBody = c.draft.frames.map Frame.isBody
  processes : c'.session.module.processes = c.session.module.processes
  widens : Widens env c.session.functions c'.session.functions c.session.module.symbols
    c'.session.module.symbols
  depths : ∀ {due}, Sized env due L c → Sized env due L' c'

/-- The layout was extended, and is in order again. -/
structure Kept (env : Env) (L : List (Site LinkId)) (opens : List Nat) (c : Context)
    (L' : List (Site LinkId)) (c' : Context) : Prop extends Grown env L c L' c' where
  inv : Inv env L' opens c'

/-- No body is open, unless `inside`. -/
def Inside (inside : Bool) (c : Context) : Prop := inside = false → c.draft.building = []

/-- The operation extends every layout; it may be asked to do so outside all bodies only. -/
structure Keeps (env : Env) (inside : Bool) (x : ElabM α) : Prop where
  run : ∀ {c : Context} {L : List (Site LinkId)} {opens : List Nat}, Inv env L opens c →
    Inside inside c → Ensures x c fun _ c' => ∃ L', Kept env L opens c L' c'

section Contexts

variable {c c' c'' : Context} {L' L'' : List (Site LinkId)} {inside : Bool}
variable {b : Blocks} {body : ElabM Unit} {frames : List Frame} {k : Nat} {o : Option InstanceRef}
  {t : Transition Expr}

theorem Grown.stays (h : Grown env L c L' c') (hin : Inside inside c) : Inside inside c' :=
  fun hb => h.building.trans (hin hb)

theorem Grown.refl : Grown env L c L c :=
  ⟨List.prefix_rfl, fun _ _ h => h, rfl, rfl, rfl, .refl, id⟩

theorem Grown.trans (h : Grown env L c L' c') (h' : Grown env L' c' L'' c'') :
    Grown env L c L'' c'' :=
  ⟨h.grows.trans h'.grows, fun j o hj => h'.reaches j o (h.reaches j o hj),
    h'.building.trans h.building, h'.bodies.trans h.bodies, h'.processes.trans h.processes,
    h.widens.trans h'.widens, fun hd => h'.depths (h.depths hd)⟩

theorem Kept.refl (h : Inv env L opens c) : Kept env L opens c L c := ⟨.refl, h⟩

theorem Kept.trans (h : Kept env L opens c L' c') (h' : Kept env L' opens' c' L'' c'') :
    Kept env L opens' c L'' c'' :=
  ⟨h.toGrown.trans h'.toGrown, h'.inv⟩

theorem Grown.site (h : Grown env L c L' c') {site : Site LinkId} (hk : L[k]? = some site) :
    L'[k]? = some site := site_of_prefix h.grows hk

/-- A plain state leads on within its body. -/
theorem Laid.reaches_after (h : Laid env L opens c) (hk : L[k]? = some ⟨o, .plain⟩) :
    Reaches L c.draft.building.head? (k + 1) o := by
  have hlt : k < c.draft.machine.states.size :=
    h.code.size ▸ (List.getElem?_eq_some_iff.mp hk).1
  exact (h.code.sites k _ _ hk (Array.getElem?_eq_getElem hlt)).2.1

/-- The surroundings change, and the code stays. -/
theorem Laid.advance (h : Laid env L opens c) (hd : c'.draft = c.draft)
    (hworld : World env c'.session.functions c'.session.module c'.session.scope)
    (hwidens : Widens env c.session.functions c'.session.functions c.session.module.symbols
      c'.session.module.symbols)
    (hsize : c'.session.functions.size = c.session.functions.size)
    (hold : ∀ r inst', env.Has c'.session.functions r inst' →
      ∃ inst, env.Has c.session.functions r inst ∧ inst.Same inst') :
    Laid env L opens c' where
  world := hworld
  code := by
    rw [hd]
    exact h.code.widen hwidens hsize
  pending := by
    rw [hd]
    exact h.pending.widen hwidens
  resets := by
    rw [hd]
    refine ⟨fun st hst => (h.resets.zero st hst).widen hwidens, fun r inst' hi' => ?_,
      fun i hi => hwidens.clean (h.resets.defaults i hi)⟩
    obtain ⟨inst, hi, hs⟩ := hold r inst' hi'
    rw [hs.sp]
    exact h.resets.pointers r inst hi

/-- An operation on the session. -/
theorem Inv.advance (h : Inv env L opens c) (hd : c'.draft = c.draft)
    (ha : Moves env c.session c'.session) : Inv env L opens c' where
  toLaid := h.toLaid.advance hd ha.world ha.widens ha.size fun r inst' hi' => by
    obtain ⟨inst, hi, hs, -⟩ := ha.instances r inst' hi'
    exact ⟨inst, hi, hs⟩
  entries r inst' hi' := by
    obtain ⟨inst, hi, -, he⟩ := ha.instances r inst' hi'
    rw [hd, he]
    exact h.entries r inst hi

theorem Inv.kept_advance (h : Inv env L opens c) (hd : c'.draft = c.draft)
    (ha : Advances env c.session c'.session) : Kept env L opens c L c' :=
  ⟨⟨List.prefix_rfl, fun _ _ hj => by rw [hd]; exact hj, by rw [hd], by rw [hd], ha.processes,
    ha.widens, fun hs => by rw [Sized, hd]; exact ha.depths hs⟩, h.advance hd ha.toMoves⟩

theorem Keeps.of_steady {x : ElabM α} (hx : ∀ c, Steady env x c) : Keeps env inside x := by
  refine ⟨fun {c L opens} h _ => ?_⟩
  exact (hx c).mono h.world fun a c' hd ha => ⟨L, h.kept_advance hd ha⟩

theorem Keeps.bind {β : Type} {x : ElabM α} {f : α → ElabM β} (hx : Keeps env inside x)
    (hf : ∀ a, Keeps env inside (f a)) : Keeps env inside (x >>= f) := by
  refine ⟨fun {c L opens} h hin => ?_⟩
  rw [ensures_bind]
  refine (hx.run h hin).mono ?_
  rintro a c' ⟨L', hk⟩
  refine ((hf a).run hk.inv (hk.stays hin)).mono ?_
  rintro b c'' ⟨L'', hk'⟩
  exact ⟨L'', hk.trans hk'⟩

theorem Keeps.pure (a : α) : Keeps env inside (Pure.pure a : ElabM α) :=
  .of_steady fun _ => .pure a

/-- The pending statements become a plain state of the current body. -/
theorem Laid.cut (h : Laid env L opens c) (f : Reporter → Reporter) :
    Laid env (L ++ [⟨c.draft.building.head?, .plain⟩]) opens
        { c.reported f with draft := c.draft.cut } ∧
      Grown env L c (L ++ [⟨c.draft.building.head?, .plain⟩])
        { c.reported f with draft := c.draft.cut } := by
  have hgo : Goes env L (L ++ [⟨c.draft.building.head?, .plain⟩]) c.draft.building.head?
      c.draft.building.head? c.session.functions c.session.functions c.session.module.symbols
      c.session.module.symbols := .snoc .plain
  refine ⟨⟨h.world, ?_, ⟨by simp [Draft.cut, Stmt.blockDests], h.pending.inner⟩,
    ⟨h.resets.zero, h.resets.pointers, h.resets.defaults⟩⟩, List.prefix_append ..,
    hgo.reaches, rfl, ?_, rfl, .refl, fun hs => hs.snoc (fun r => List.mem_of_head?)
      (fun r hr hr' => absurd hr hr') (fun r hr => .inl hr) (by simp)⟩
  · refine h.code.snoc rfl rfl rfl rfl rfl (fun k => ?_)
      ⟨h.pending.outer, .inr ⟨by simp, rfl⟩, by simp⟩ (by simp) ?_ h.code.building h.code.here
      fun r hr => (h.code.outer r hr).imp fun _ hk => hk.grow (List.prefix_append ..)
    · exact ⟨.inl, fun hk => hk.elim id And.right⟩
    · exact (h.code.frames.go hgo).unclose
  · exact map_isBody_modifyHead _ fun _ => rfl

/-- The entries of bodies stay in place. -/
theorem Inv.keep (h : Inv env L opens c) (hg : Grown env L c L' c') (hl : Laid env L' opens' c')
    (hf : c'.session.functions = c.session.functions) : Kept env L opens' c L' c' :=
  ⟨hg, hl, fun r inst hi => hg.reaches _ _ (h.entries r inst (hf ▸ hi))⟩

theorem Inv.step (h : Inv env L opens c) {Q : Nat → Context → Prop}
    (hq : ∀ k c' L', Kept env L opens c L' c' →
      L'[k]? = some ⟨c.draft.building.head?, .plain⟩ → L.length ≤ k →
      c'.draft.blocks.outer = [] → Q k c') :
    Ensures step c Q := by
  refine .step fun f hdepth => ?_
  rw [show c.draft.machine.size = L.length from h.code.size]
  obtain ⟨hlaid, hgrown⟩ := h.toLaid.cut f
  exact hq _ _ _ (h.keep hgrown hlaid rfl) (by simp) (le_refl _) rfl

theorem Keeps.step : Keeps env inside step := ⟨fun h _ => h.step fun _ _ _ hk _ _ _ => ⟨_, hk⟩⟩

theorem Keeps.stepIfWaiting : Keeps env inside stepIfWaiting := by
  refine ⟨fun {c L opens} h hin => ?_⟩
  simp only [Program.stepIfWaiting, ensures_ops, ensures_ite]
  exact ⟨fun _ => Keeps.step.run h hin, fun _ => ⟨L, .refl h⟩⟩

theorem Inv.reframe (h : Inv env L opens c)
    (hf : FramesOk env L c.draft.building.head? c.session.functions c.session.module.symbols frames
      c.draft.building) : Inv env L opens { c with draft := { c.draft with frames } } :=
  ⟨⟨h.world, h.code.reframe hf, h.pending, h.resets⟩, h.entries⟩

theorem Inv.addGoto (h : Inv env L opens c) (hk : L[k]? = some ⟨o, .plain⟩)
    (ht : Leads env.escapes L c.draft.building.head? o t) :
    Inv env L opens { c with draft := { c.draft with machine := c.draft.machine.addGoto k t } } := by
  obtain ⟨fault, hf⟩ := modifyState_eq c.draft.machine k "goto" fun s =>
    { s with gotos := s.gotos ++ [t] }
  refine ⟨⟨h.world, h.code.addGoto hk ht, h.pending, ?_⟩, h.entries⟩
  rw [show c.draft.machine.addGoto k t = _ from hf]
  exact ⟨h.resets.zero, h.resets.pointers, h.resets.defaults⟩

theorem Pending.emit (h : Pending env fs g b) {st : Statement}
    (hst : ∀ i ∈ st.dests, env.Clean fs g i) : Pending env fs g (b.emit st) := by
  have hblock : ∀ block : List Statement, (∀ i ∈ Stmt.blockDests block, env.Clean fs g i) →
      ∀ i ∈ Stmt.blockDests (block ++ [st]), env.Clean fs g i := by
    intro block hb i hi
    rw [Stmt.blockDests_append, List.mem_append] at hi
    rcases hi with hi | hi
    · exact hb i hi
    · exact hst i (by simpa [Stmt.blockDests] using hi)
  unfold Blocks.emit
  split
  · exact ⟨hblock _ h.outer, h.inner⟩
  · next block rest hin =>
    have hinner := h.inner
    rw [hin] at hinner
    refine ⟨h.outer, fun b hb => ?_⟩
    rcases List.mem_cons.mp hb with rfl | hb
    · exact hblock _ (hinner block List.mem_cons_self)
    · exact hinner b (List.mem_cons_of_mem _ hb)

theorem Pending.enter (h : Pending env fs g b) : Pending env fs g b.enter := by
  refine ⟨h.outer, fun block hb => ?_⟩
  rcases List.mem_cons.mp hb with rfl | hb
  · simp [Stmt.blockDests]
  · exact h.inner block hb

theorem Pending.leave (h : Pending env fs g b) :
    (∀ i ∈ Stmt.blockDests b.leave.1, env.Clean fs g i) ∧ Pending env fs g b.leave.2 := by
  unfold Blocks.leave
  split
  · exact ⟨by simp [Stmt.blockDests], h⟩
  · next block rest hin =>
    have hinner := h.inner
    rw [hin] at hinner
    exact ⟨hinner block List.mem_cons_self, h.outer, fun b hb =>
      hinner b (List.mem_cons_of_mem _ hb)⟩

/-- Other pending statements. -/
theorem Kept.reblock (hk : Kept env L opens c L' c')
    (hb : Pending env c'.session.functions c'.session.module.symbols b) :
    Kept env L opens c L' { c' with draft := { c'.draft with blocks := b } } :=
  { hk with
    inv :=
      ⟨⟨hk.inv.world, { hk.inv.code with }, hb, hk.inv.resets⟩, hk.inv.entries⟩ }

theorem Kept.emit (hk : Kept env L opens c L' c') {st : Statement}
    (hst : ∀ i ∈ st.dests, env.Clean c'.session.functions c'.session.module.symbols i) :
    Kept env L opens c L'
      { c' with draft := { c'.draft with blocks := c'.draft.blocks.emit st } } :=
  hk.reblock (hk.inv.pending.emit hst)

theorem Kept.addGoto (hk : Kept env L opens c L' c') (hsite : L'[k]? = some ⟨o, .plain⟩)
    (ht : Leads env.escapes L' c'.draft.building.head? o t) :
    Kept env L opens c L'
      { c' with draft := { c'.draft with machine := c'.draft.machine.addGoto k t } } :=
  { hk with inv := hk.inv.addGoto hsite ht }

theorem Inv.enter (h : Inv env L opens c) {fr : Frame}
    (hfr : FrameOk env L c.draft.building.head? c.session.functions c.session.module.symbols
      c.draft.building.head? fr) (hb : fr.isBody = false) :
    Inv env L opens { c with draft := { c.draft with frames := fr :: c.draft.frames } } :=
  h.reframe ⟨hfr, by rw [if_neg (by simp [hb])]; exact h.code.frames⟩

/-- A target after a plain state of the current body. -/
theorem Inv.lands_after (h : Inv env L opens c) (hk : L[k]? = some ⟨o, .plain⟩) :
    Lands env.escapes L c.draft.building.head? o (.after k) :=
  ⟨k + 1, by simp [Target.place?], .inr (h.reaches_after hk)⟩

/-- The closing state of a construct, after its body was elaborated in a frame `fr`. -/
theorem Kept.close {fr : Frame} (hk : Kept env L opens
      { c with draft := { c.draft with frames := fr :: c.draft.frames } } L' c')
    (hfr : fr.isBody = false) :
    Ensures step c' fun y c'' => ∃ fr' rest L'', c''.draft.frames = fr' :: rest ∧
      Kept env L opens c L'' { c'' with draft := { c''.draft with frames := rest } } ∧
      L''[y]? = some ⟨c.draft.building.head?, .plain⟩ ∧
      FrameOk env L'' c.draft.building.head? c''.session.functions c''.session.module.symbols
        c.draft.building.head? fr' := by
  refine hk.inv.step fun y c'' L'' hk' hy _ _ => ?_
  have hbuild : c''.draft.building = c.draft.building := hk'.building.trans hk.building
  have hbodies := hk'.bodies.trans hk.bodies
  rw [List.map_cons, hfr] at hbodies
  obtain ⟨fr', rest, hf, hb, hrest⟩ := List.map_eq_cons_iff.mp hbodies
  have hframes := hk'.inv.code.frames
  rw [hf] at hframes
  obtain ⟨hfr', htail⟩ := hframes
  rw [if_neg (by simp [hb])] at htail
  have hg := hk.toGrown.trans hk'.toGrown
  refine ⟨fr', rest, L'', hf, ⟨⟨hg.grows, hg.reaches, hbuild, hrest, hg.processes, hg.widens,
    hg.depths⟩,
    hk'.inv.reframe htail⟩, hk.building ▸ hy, hbuild ▸ hfr'⟩

theorem Keeps.ifThen (hbody : Keeps env inside body) (test : Expr) :
    Keeps env inside (ifThen test body) := by
  refine ⟨fun {c L opens} h hin => ?_⟩
  simp only [Program.ifThen, ensures_ops, ensures_modifyTop]
  refine h.step fun st c₁ L₁ hk₁ hst₁ _ _ => ?_
  have h₁ := hk₁.inv.enter (FrameOk.empty _) rfl
  refine (hbody.run h₁ (hk₁.stays hin)).mono ?_
  rintro _ c₂ ⟨L₂, hk₂⟩
  refine (hk₂.close rfl).mono ?_
  rintro y c₃ ⟨fr, rest, L₃, hf, hk₃, hy, -⟩
  have hst := hk₃.site hst₁
  have hk := hk₁.trans hk₃
  rw [hk₁.building] at hy
  have hgoto := hk.inv.addGoto hst
    (.fork test.toOption (hk.inv.lands_after hst) (hk.inv.lands_after hy))
  rw [hf]
  refine ⟨L₃, ⟨hk.grows, hk.reaches, hk.building, ?_, hk.processes, hk.widens, hk.depths⟩,
    hgoto.reframe (hgoto.code.frames.modifyHead (fun _ => rfl) fun _ _ hfr => ?_)⟩
  rotate_left
  · rw [← show c₃.draft.building = c.draft.building from hk.building] at hy
    exact ⟨fun _ hx => Option.some.inj hx ▸ hy, hfr.anchor, hfr.exits, hfr.advance⟩
  · refine Eq.trans (map_isBody_modifyHead rest ?_) hk.bodies
    exact fun _ => rfl

theorem Keeps.orElse (hbody : Keeps env inside body) : Keeps env inside (orElse body) := by
  refine ⟨fun {c L opens} h hin => ?_⟩
  simp only [Program.orElse, ensures_ops]
  split
  · next yes hyes _ =>
    simp only [ensures_ops, ensures_modifyTop]
    have hyes' : L[yes]? = some ⟨c.draft.building.head?, .plain⟩ := by
      have hframes := h.code.frames
      cases hf : c.draft.frames with
      | nil => simp [hf] at hyes
      | cons fr rest =>
        rw [hf] at hframes hyes
        exact hframes.1.closedIf yes (by simpa using hyes)
    have h₁ := (h.reframe h.code.frames.unclose).enter (FrameOk.empty _) rfl
    refine (hbody.run h₁ hin).mono ?_
    rintro _ c₂ ⟨L₂, hk₂⟩
    refine (hk₂.close rfl).mono ?_
    rintro no c₃ ⟨fr, rest, L₃, hf, hk₃, hno, -⟩
    have hgoto := hk₃.inv.addGoto (hk₃.site hyes') (.jump (hk₃.inv.lands_after hno))
    rw [hf]
    exact ⟨L₃, ⟨hk₃.grows, hk₃.reaches, hk₃.building,
      hk₃.bodies.trans (map_isBody_modifyHead _ fun _ => rfl), hk₃.processes, hk₃.widens,
      hk₃.depths⟩, hgoto⟩
  · simp

/-- The transitions of a loop state. -/
theorem Inv.leads_loopEdge (h : Inv env L opens c) {st yes : Nat}
    (hst : L[st]? = some ⟨o, .plain⟩) (hyes : L[yes]? = some ⟨o, .plain⟩) (test : Option Expr) :
    Leads env.escapes L c.draft.building.head? o (loopEdge test st yes) := by
  cases test with
  | none => exact .jump (h.lands_after hst)
  | some e => exact .fork (some e) (h.lands_after hst) (h.lands_after hyes)

/-- Transitions added to several states. -/
theorem Inv.addGotos (h : Inv env L opens c) {ks : List Nat}
    (hks : ∀ k ∈ ks, L[k]? = some ⟨o, .plain⟩)
    (ht : Leads env.escapes L c.draft.building.head? o t) :
    Ensures (ks.forM fun k => Program.addGoto k t) c fun _ c' => Kept env L opens c L c' := by
  refine Ensures.forM (P := fun c' => Kept env L opens c L c') (.refl h) fun k hk c' hk' => ?_
  rw [ensures_addGoto]
  exact { hk' with inv := hk'.inv.addGoto (hks k hk) (hk'.building ▸ ht) }

theorem Inv.loop (h : Inv env L opens c) (hin : Inside inside c) (hbody : Keeps env inside body)
    {head tail : Option Expr} {advance : Option Statement}
    (hadvance : ∀ st, advance = some st → ∀ i ∈ st.dests,
      env.Clean c.session.functions c.session.module.symbols i) :
    Ensures (loop head tail advance body) c fun _ c' => ∃ L', Kept env L opens c L' c' := by
  simp only [Program.loop, ensures_ops]
  refine h.step fun st c₁ L₁ hk₁ hst₁ _ _ => ?_
  have hfr : FrameOk env L₁ c₁.draft.building.head? c₁.session.functions c₁.session.module.symbols
      c₁.draft.building.head? { loop := some { anchor := st + 1, advance } } := by
    refine ⟨by simp, ?_, by simp, ?_⟩
    · rintro _ ⟨⟩
      exact hk₁.inv.reaches_after (hk₁.building ▸ hst₁)
    · rintro _ st ⟨⟩ hst i hi
      exact hk₁.widens.clean (hadvance st hst i hi)
  refine (hbody.run (hk₁.inv.enter hfr rfl) (hk₁.stays hin)).mono ?_
  rintro _ c₂ ⟨L₂, hk₂⟩
  -- the closing state also advances the index of an enumerator
  have hemit : Ensures (advance.forM Program.emit) c₂ fun _ c₃ => Kept env L₁ opens
      { c₁ with draft := { c₁.draft with
        frames := { loop := some { anchor := st + 1, advance } } :: c₁.draft.frames } }
      L₂ c₃ := by
    cases advance with
    | none => simpa [Option.forM] using hk₂
    | some st =>
      simp only [Option.forM, ensures_emit]
      exact hk₂.emit fun i hi => (hk₁.widens.trans hk₂.widens).clean (hadvance st rfl i hi)
  refine hemit.mono fun _ c₃ hk₃ => (hk₃.close rfl).mono ?_
  rintro yes c₄ ⟨fr, rest, L₄, hf, hk₄, hyes, hfr'⟩
  have hk := hk₁.trans hk₄
  have hst := hk₄.site hst₁
  have hexits : ∀ k ∈ (fr.loop.getD { anchor := st + 1 }).continues ++
      (fr.loop.getD { anchor := st + 1 }).breaks,
      L₄[k]? = some ⟨c.draft.building.head?, .plain⟩ := by
    rw [← hk₁.building]
    cases hl : fr.loop with
    | none => simp
    | some l => exact hfr'.exits l hl
  rw [hk₁.building] at hyes
  have hkh := hk.addGoto hst (hk.inv.leads_loopEdge hst hyes head)
  have hkt := hkh.addGoto hyes (hkh.inv.leads_loopEdge hst hyes tail)
  rw [hf]
  refine (hkt.inv.addGotos (fun k hk => hexits k (List.mem_append_left _ hk))
    (hkt.inv.leads_loopEdge hst hyes tail)).mono fun _ c₅ hk₅ => ?_
  refine (hk₅.inv.addGotos (fun k hk => hexits k (List.mem_append_right _ hk))
    (.jump (hk₅.inv.lands_after hyes))).mono fun _ c₆ hk₆ => ?_
  exact ⟨L₄, (hkt.trans hk₅).trans hk₆⟩

/-! ## Jumps -/

theorem FramesOk.nearestLoop {building : List InstanceRef}
    (h : FramesOk env L cur fs g frames building) {l : LoopFrame}
    (hl : nearestLoop frames = some l) : Reaches L cur l.anchor building.head? ∧
      ∀ st, l.advance = some st → ∀ i ∈ st.dests, env.Clean fs g i := by
  induction frames with
  | nil => simp [Program.nearestLoop] at hl
  | cons fr rest ih =>
    obtain ⟨hfr, hrest⟩ := h
    rw [Program.nearestLoop] at hl
    split at hl
    · next l' hl' =>
      cases hl
      exact ⟨hfr.anchor _ hl', fun st hst => hfr.advance _ st hl' hst⟩
    · split at hl
      · simp at hl
      · next hb =>
        rw [if_neg hb] at hrest
        exact ih hrest hl

/-- A jump is noted in the innermost loop of the body. -/
theorem FramesOk.modifyNearest {building : List InstanceRef}
    (h : FramesOk env L cur fs g frames building) {change : LoopFrame → LoopFrame}
    (hanchor : ∀ l, (change l).anchor = l.anchor) (hadvance : ∀ l, (change l).advance = l.advance)
    (hexits : ∀ l, ∀ k ∈ (change l).continues ++ (change l).breaks,
      k ∈ l.continues ++ l.breaks ∨ L[k]? = some ⟨building.head?, .plain⟩) :
    FramesOk env L cur fs g (modifyNearest change frames) building ∧
      (modifyNearest change frames).map Frame.isBody = frames.map Frame.isBody := by
  induction frames with
  | nil => exact ⟨h, rfl⟩
  | cons fr rest ih =>
    obtain ⟨hfr, hrest⟩ := h
    rw [Program.modifyNearest]
    split
    · next l hl =>
      refine ⟨⟨⟨hfr.closedIf, ?_, ?_, ?_⟩, hrest⟩, rfl⟩
      · rintro _ ⟨⟩
        rw [hanchor]
        exact hfr.anchor l hl
      · rintro _ ⟨⟩ k hk
        rcases hexits l k hk with hk | hk
        · exact hfr.exits l hl k hk
        · exact hk
      · rintro _ st ⟨⟩ hst
        rw [hadvance] at hst
        exact hfr.advance l st hl hst
    · split
      · exact ⟨⟨hfr, hrest⟩, rfl⟩
      · next hb =>
        rw [if_neg hb] at hrest
        obtain ⟨hok, hbodies⟩ := ih hrest
        exact ⟨⟨hfr, by rw [if_neg hb]; exact hok⟩, by simp [hbodies]⟩

/-- A new state is noted as a way out of the innermost loop. -/
theorem Kept.modifyLoop (hk : Kept env L opens c L' c')
    (hsite : L'[k]? = some ⟨c'.draft.building.head?, .plain⟩) {change : LoopFrame → LoopFrame}
    (hanchor : ∀ l, (change l).anchor = l.anchor) (hadvance : ∀ l, (change l).advance = l.advance)
    (hexits : ∀ l, ∀ x ∈ (change l).continues ++ (change l).breaks,
      x ∈ l.continues ++ l.breaks ∨ x = k) : Kept env L opens c L' { c' with draft :=
      { c'.draft with frames := modifyNearest change c'.draft.frames } } := by
  have hplain : ∀ l, ∀ x ∈ (change l).continues ++ (change l).breaks,
      x ∈ l.continues ++ l.breaks ∨ L'[x]? = some ⟨c'.draft.building.head?, .plain⟩ := by
    intro l x hx
    obtain hold | rfl := hexits l x hx
    · exact .inl hold
    · exact .inr hsite
  obtain ⟨hok, hbodies⟩ := hk.inv.code.frames.modifyNearest hanchor hadvance hplain
  exact { hk with inv := hk.inv.reframe hok, bodies := hbodies.trans hk.bodies }

theorem Keeps.breakLoop : Keeps env inside breakLoop := by
  refine ⟨fun {c L opens} h _ => ?_⟩
  simp only [Program.breakLoop, ensures_ops]
  refine h.step fun st c₁ L₁ hk₁ hst _ _ => ?_
  split
  · simp
  · simp only [Program.modifyLoop, ensures_ops]
    refine ⟨L₁, hk₁.modifyLoop (hk₁.building ▸ hst) (fun _ => rfl) (fun _ => rfl) fun l x hx => ?_⟩
    simpa [← or_assoc] using hx

theorem Keeps.nextRound : Keeps env inside nextRound := by
  refine ⟨fun {c L opens} h _ => ?_⟩
  simp only [Program.nextRound, ensures_ops]
  split
  · simp
  · next l hl =>
    obtain ⟨hanchor, hadvance⟩ := h.code.frames.nearestLoop hl
    split
    · next st hst =>
      simp only [Program.modifyLoop, ensures_ops]
      have hk := (Kept.refl h).emit (hadvance st hst)
      refine hk.inv.step fun k c₁ L₁ hk₁ hk₁' _ _ => ⟨L₁, ?_⟩
      refine (hk.trans hk₁).modifyLoop (hk₁.building ▸ hk₁') (fun _ => rfl) (fun _ => rfl)
        fun l x hx => ?_
      simp only [List.mem_append, List.mem_singleton] at hx ⊢
      tauto
    · simp only [ensures_ops]
      refine h.step fun k c₁ L₁ hk₁ hk₁' _ _ => ⟨L₁, hk₁.addGoto hk₁' (.jump ?_)⟩
      exact ⟨l.anchor, rfl, .inr (hk₁.reaches _ _ hanchor)⟩

/-- Outside all bodies the end state is a state like any other. -/
theorem Keeps.terminate (hesc : inside = true → env.escapes) : Keeps env inside terminate := by
  refine ⟨fun {c L opens} h hin => ?_⟩
  simp only [Program.terminate, ensures_ops]
  refine h.step fun k c₁ L₁ hk₁ hk₁' _ _ => ⟨L₁, hk₁.addGoto hk₁' (.jump ⟨0, rfl, ?_⟩)⟩
  cases inside with
  | true => exact .inl ⟨hesc rfl, rfl⟩
  | false =>
    refine .inr (.inl ⟨_, hk₁.inv.code.first, ?_⟩)
    rw [hin rfl]
    rfl

/-! ## Enumerators -/

theorem Inv.kept_expand (h : Inv env L opens c) {m : Module} (hm : c.session.module.Expands m) :
    Kept env L opens c L { c with session := { c.session with module := m } } :=
  h.kept_advance rfl (.expand h.world hm)

/-- A signal that was just declared is clean. -/
theorem Laid.clean_new (h : Laid env L opens c) {g : Symbols} {i : SignalId}
    (hi : c.session.module.symbols.signals.size ≤ i) (hi' : i < g.signals.size) :
    env.Clean c.session.functions g i :=
  ⟨hi', .inl fun hmade => Nat.not_lt.mpr hi (h.world.made_lt hmade)⟩

theorem Keeps.count {body : Expr → ElabM Unit} (hbody : ∀ e, Keeps env inside (body e))
    (limit : Expr) : Keeps env inside (count limit body) := by
  refine ⟨fun {c L opens} h hin => ?_⟩
  simp only [Program.count, ensures_bind]
  refine (Keeps.stepIfWaiting.run h hin).mono ?_
  rintro _ c₁ ⟨L₁, hk₁⟩
  simp only [relate, ensures_ops]
  rintro ⟨type, symbols⟩ hshare head - tail -
  have hm₁ : c₁.session.module.Expands { c₁.session.module with symbols } :=
    ⟨Symbols.shareType_grows hshare, rfl⟩
  have hm₂ := hm₁.trans (Module.declareAt_expands _ "i" .reg type 0 0)
  have hk₂ := hk₁.trans (hk₁.inv.kept_expand hm₂)
  have hsize := Module.declareAt_size { c₁.session.module with symbols } "i" .reg type 0 0
  have hdest : ∀ e, ∀ i ∈ (Stmt.assign symbols.signals.size none e : Statement).dests,
      env.Clean c₁.session.functions
        (Module.declareAt { c₁.session.module with symbols } "i" .reg type 0 0).2.symbols i := by
    intro e i hi
    obtain rfl : i = symbols.signals.size := by simpa [Stmt.dests] using hi
    exact hk₁.inv.clean_new hm₁.symbols.size (hsize ▸ Nat.lt_succ_self _)
  have hk₃ := hk₂.emit (hdest (.const 0 (some type)))
  refine (hk₃.inv.loop (hk₃.stays hin) (hbody _) ?_).mono ?_
  rotate_left
  · rintro _ c' ⟨L', hk⟩
    exact ⟨L', hk₃.trans hk⟩
  rintro _ ⟨⟩
  exact hdest _

end Contexts

end Lockstep.Program
