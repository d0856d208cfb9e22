import Lockstep.Proofs.Program.Placement

/-!
# Calls and returns in the layout

A call state and a return state each hand control to another body, so the state that follows them
may belong to any body: the layout is extended by the site, and the nesting of bodies changes with
it. A call stays open while the body of its callee or its handler is elaborated.
-/

namespace Lockstep.Program

variable {env : Env} {L L' : List (Site LinkId)} {opens opens' : List Nat} {c c' : Context}
variable {f : Function} {inst : Instance} {r : InstanceRef} {request : Int} {link : LinkId}
  {run : List Command → ElabM Unit} {args : List Expr} {rest : List InstanceRef}
  {st : Machine.State} {m : Module} {fn k : Nat}

/-- The context went on by one state. -/
structure Pushed (c : Context) (st : Machine.State) (c' : Context) : Prop where
  functions : c'.session.functions = c.session.functions
  module : c'.session.module = c.session.module
  scope : c'.session.scope = c.session.scope
  states : c'.draft.machine.states = c.draft.machine.states.push st
  alike : Alike c.draft.machine c'.draft.machine
  defaults : c'.draft.machine.defaults = c.draft.machine.defaults
  onReset : c'.draft.machine.onReset = c.draft.machine.onReset
  outer : c'.draft.blocks.outer = []
  inner : c'.draft.blocks.inner = c.draft.blocks.inner
  resumes : c'.draft.resumes = c.draft.resumes
  defined : c'.draft.functions = c.draft.functions
  building : c'.draft.building = c.draft.building
  run : c'.draft.run = c.draft.run
  frames : c'.draft.frames = c.draft.frames.modifyHead fun fr => { fr with closedIf := none }

/-- The site of a new state, with which the nesting may change. -/
theorem Laid.push (h : Laid env L opens c) (hp : Pushed c st c') (role : Role LinkId)
    {frames : List Frame} {building : List InstanceRef}
    (hopens : ∀ k, k ∈ opens' ↔ k ∈ opens ∨ (k = L.length ∧ k ∈ opens'))
    (hsite : SiteOk env (L ++ [⟨c.draft.building.head?, role⟩]) building.head? opens'
      c.session.functions c.session.module.symbols c.draft.resumes L.length st
      ⟨c.draft.building.head?, role⟩)
    (hlink : ∀ r args q l, role = .call r args q l → ∀ k, ¬ CallsBy L k l)
    (hframes : FramesOk env (L ++ [⟨c.draft.building.head?, role⟩]) building.head?
      c.session.functions c.session.module.symbols frames building)
    (hbuilding : ∀ r ∈ building, ∃ inst, env.Has c.session.functions r inst)
    (houter : ∀ r ∈ building.tail, ∃ k, Owns (L ++ [⟨c.draft.building.head?, role⟩]) k r) :
    Laid env (L ++ [⟨c.draft.building.head?, role⟩]) opens'
      { c' with draft := { c'.draft with frames, building } } := by
  have hcode : Code env (L ++ [⟨c.draft.building.head?, role⟩]) building.head? opens'
      c.session.functions c.session.module.symbols { c'.draft with frames, building } :=
    h.code.snoc hp.states hp.alike hp.run hp.resumes hp.defined hopens hsite hlink hframes hbuilding
      (fun r hr => List.mem_of_head? hr) houter
  refine ⟨?_, ?_, ?_, ?_⟩
  · dsimp only
    rw [hp.functions, hp.module, hp.scope]
    exact h.world
  · dsimp only
    rw [hp.functions, hp.module]
    exact hcode
  · dsimp only
    rw [hp.functions, hp.module]
    refine ⟨?_, ?_⟩
    · simp [hp.outer, Stmt.blockDests]
    · rw [hp.inner]
      exact h.pending.inner
  · dsimp only
    rw [hp.functions, hp.module]
    refine ⟨?_, ?_, ?_⟩
    · rw [hp.onReset]
      exact h.resets.zero
    · rw [hp.onReset]
      exact h.resets.pointers
    · rw [hp.defaults]
      exact h.resets.defaults

/-- The frames do not refer to the place after the new state. -/
theorem Laid.frames_push (h : Laid env L opens c) (role : Role LinkId)
    (cur' : Option InstanceRef) :
    FramesOk env (L ++ [⟨c.draft.building.head?, role⟩]) cur' c.session.functions
      c.session.module.symbols
      (c.draft.frames.modifyHead fun fr => { fr with closedIf := none }) c.draft.building :=
  (h.code.frames.go (.snoc role)).unclose

theorem Laid.push_same (h : Laid env L opens c) (hp : Pushed c st c') (role : Role LinkId)
    (hopens : ∀ k, k ∈ opens' ↔ k ∈ opens ∨ (k = L.length ∧ k ∈ opens'))
    (hsite : SiteOk env (L ++ [⟨c.draft.building.head?, role⟩]) c.draft.building.head? opens'
      c.session.functions c.session.module.symbols c.draft.resumes L.length st
      ⟨c.draft.building.head?, role⟩)
    (hlink : ∀ r args q l, role = .call r args q l → ∀ k, ¬ CallsBy L k l) :
    Laid env (L ++ [⟨c.draft.building.head?, role⟩]) opens' c' := by
  have hlaid := h.push hp role hopens hsite hlink (h.frames_push role _) h.code.building
    fun r hr => (h.code.outer r hr).imp fun _ hk => hk.grow (List.prefix_append ..)
  have heq : c' = { c' with draft := { c'.draft with
      frames := c.draft.frames.modifyHead fun fr => { fr with closedIf := none }
      building := c.draft.building } } := by
    rw [← hp.frames, ← hp.building]
  rw [heq]
  exact hlaid

theorem Pushed.bodies (hp : Pushed c st c') :
    c'.draft.frames.map Frame.isBody = c.draft.frames.map Frame.isBody := by
  rw [hp.frames]
  exact map_isBody_modifyHead _ fun _ => rfl

/-- Within the same nesting the layout has grown by the site. -/
theorem Pushed.grown (hp : Pushed c st c') {role : Role LinkId}
    (hcall : ∀ r args q l, role = .call r args q l → r ∈ c.draft.building →
      ∃ inst, env.Has c.session.functions r inst ∧ inst.Grants c.session.module.symbols q) :
    Grown env L c (L ++ [⟨c.draft.building.head?, role⟩]) c' := by
  have hgo : Goes env L (L ++ [⟨c.draft.building.head?, role⟩]) c.draft.building.head?
      c'.draft.building.head? c.session.functions c.session.functions c.session.module.symbols
      c.session.module.symbols := .snoc role
  refine ⟨List.prefix_append .., hgo.reaches, hp.building, hp.bodies, by rw [hp.module], ?_,
    fun hs => ?_⟩
  · rw [hp.functions, hp.module]
    exact .refl
  · rw [Sized, hp.functions, hp.module, hp.building]
    exact hs.snoc (fun r => List.mem_of_head?) (fun r hr hr' => absurd hr hr')
      (fun r hr => .inl hr) hcall

/-! ## Returns -/

/-- The state that pops the stack of `inst`, after what is pending. -/
theorem Ensures.returnState (inst : Instance) :
    Ensures Program.step c fun k c₁ => k = c.draft.machine.size ∧ Pushed c
      { name := c.draft.label, body := c.draft.blocks.outer ++ [inst.pop], gotos := [inst.leave] }
      { c₁ with draft := { c₁.draft with
        machine := (c₁.draft.machine.addBody k [inst.pop]).addGoto k inst.leave } } := by
  refine .step fun f _ => ⟨rfl, ?_⟩
  obtain ⟨fault, hbody⟩ := modifyState_eq c.draft.cut.machine c.draft.machine.size "body" fun s =>
    { s with body := s.body ++ [inst.pop] }
  obtain ⟨fault', hgoto⟩ := modifyState_eq
    { c.draft.cut.machine with
      states := c.draft.cut.machine.states.modify c.draft.machine.size fun s =>
        { s with body := s.body ++ [inst.pop] }
      fault } c.draft.machine.size "goto" fun s => { s with gotos := s.gotos ++ [inst.leave] }
  rw [Machine.addBody, hbody, Machine.addGoto, hgoto]
  refine ⟨rfl, rfl, rfl, ?_, rfl, rfl, rfl, rfl, rfl, rfl, rfl, rfl, rfl, rfl⟩
  simp only [Draft.cut, Machine.size, modify_push_size, List.nil_append]

/-- A return state comes after a plain one, and may take a value to return. -/
theorem Inv.makeReturn (h : Inv env L opens c) (hb : c.draft.building = r :: rest)
    (value : Option Expr) :
    Ensures (makeReturn r value) c fun k c' => ∃ c₁ L₁ st, Kept env L opens c L₁ c₁ ∧
      k = L₁.length ∧ Pushed c₁ st c' ∧ ∃ inst before, env.Has c₁.session.functions r inst ∧
        st.body = before ++ [inst.pop] ∧
        (∀ i ∈ Stmt.blockDests before,
          env.Clean c₁.session.functions c₁.session.module.symbols i) ∧
        st.gotos = [inst.leave] := by
  obtain ⟨inst, hi⟩ := h.code.building r (by simp [hb])
  simp only [Program.makeReturn, ensures_ops]
  refine h.step fun _ c₁ L₁ hk₁ _ _ _ => ?_
  obtain ⟨inst₁, hi₁, -⟩ := hk₁.widens.instances r inst hi
  rw [hi₁.2, Option.getD_some]
  cases value with
  | none =>
    simp only [ensures_ops]
    refine (Ensures.returnState inst₁).mono ?_
    rintro k c' ⟨hk, hp⟩
    exact ⟨c₁, L₁, _, hk₁, hk.trans hk₁.inv.code.size, hp, inst₁, _, hi₁, rfl,
      hk₁.inv.pending.outer, rfl⟩
  | some v =>
    simp only [ensures_ops]
    refine (Steady.resolveReturn hi₁ v).mono hk₁.inv.world fun _ c₂ hd ha => ?_
    obtain ⟨inst₂, hi₂, hsame⟩ := ha.widens.instances r inst₁ hi₁
    have hret : env.Clean c₂.session.functions c₂.session.module.symbols inst₁.ret := by
      obtain ⟨hm, x, -, -, hx, -⟩ := ha.world.returns r inst₂ hi₂
      rw [hsame.ret] at hm hx
      exact ⟨(Array.getElem?_eq_some_iff.mp hx).1, .inl hm⟩
    have hclean : ∀ d ∈ Stmt.dests (.assign inst₁.ret none v),
        env.Clean c₂.session.functions c₂.session.module.symbols d := by
      simpa [Stmt.dests] using hret
    have hk₂ := (hk₁.trans (hk₁.inv.kept_advance hd ha)).emit hclean
    refine (Ensures.returnState inst₁).mono ?_
    rintro k c' ⟨hk, hp⟩
    exact ⟨_, L₁, _, hk₂, hk.trans hk₂.inv.code.size, hp, inst₂, _, hi₂, by rw [hsame.pop],
      hk₂.inv.pending.outer, by rw [hsame.leave]⟩

theorem Keeps.returnFrom {inside : Bool} (value : Option Expr) :
    Keeps env inside (returnFrom value) := by
  refine ⟨fun {c L opens} h _ => ?_⟩
  simp only [Program.returnFrom, ensures_ops]
  split
  · simp
  · next r rest hb =>
    refine (h.makeReturn hb value).mono ?_
    rintro k c' ⟨c₁, L₁, st, hk₁, rfl, hp, inst, before, hi, hbody, hclean, hgotos⟩
    have hcur : c₁.draft.building.head? = some r := by rw [hk₁.building, hb]; rfl
    have hlaid := hk₁.inv.toLaid.push_same hp .ret (fun k => ⟨.inl, fun hk => hk.elim id And.right⟩)
      ⟨r, inst, before, hcur, hi, hbody, hclean, hgotos⟩ (by simp)
    exact ⟨_, hk₁.trans (hk₁.inv.keep (hp.grown (by simp)) hlaid hp.functions)⟩

/-! ## Calls -/

/-- The pointer is unsigned, so the test for room is. -/
theorem Stacked.relate_room {g : Symbols} {code : TypeId} (h : Stacked g code inst) :
    g.relate .lt (.ref inst.sp) (.ref inst.depth) = some inst.roomTest := by
  obtain ⟨x, hx, -, -, ht⟩ := h.sp
  have htype : g.knownType (.ref inst.sp) = some (.unsigned (bitsFor (inst.room g))) := by
    simp [Symbols.knownType, Symbols.typed, Symbols.typeOf, Symbols.signalType, hx, ht,
      Symbols.type?, h.width]
  simp [Symbols.relate, Relation.isEquality, htype, SignalType.unsigned, Instance.roomTest,
    Relation.unsigned]

/-- The return address of a new call is that of no call before. -/
theorem Laid.link_fresh (h : Laid env L opens c) (k : Nat) :
    ¬ CallsBy L k c.session.module.symbols.links.size := by
  rintro ⟨owner, r, args, q, hk⟩
  have hlt : k < c.draft.machine.states.size :=
    h.code.size ▸ (List.getElem?_eq_some_iff.mp hk).1
  obtain ⟨-, -, -, hlink, -⟩ := h.code.sites k _ _ hk (Array.getElem?_eq_getElem hlt)
  exact absurd hlink (Nat.lt_irrefl _)

theorem Laid.expand (h : Laid env L opens c) (hm : c.session.module.Expands m) :
    Laid env L opens { c with session := { c.session with module := m } } :=
  h.advance rfl (h.world.grow hm) (.of_grows hm.symbols) rfl fun _ inst hi => ⟨inst, hi, .refl inst⟩

theorem Grown.expand (h : Grown env L c L' c')
    (hw : World env c'.session.functions c'.session.module c'.session.scope)
    (hm : c'.session.module.Expands m) :
    Grown env L c L' { c' with session := { c'.session with module := m } } :=
  { h with
    processes := hm.processes.trans h.processes
    widens := h.widens.trans (.of_grows hm.symbols)
    depths := fun hs => (h.depths hs).grow hw.stacked hm.symbols }

/-- Statements before a call get a state of their own. -/
theorem Ensures.pushCall_pending {Q : LinkId → Context → Prop}
    (hp : c.draft.blocks.pending = true)
    (h : Ensures Program.step c fun _ c₁ => c₁.draft.blocks.pending = false ∧
      Ensures (pushCall r args) c₁ Q) : Ensures (pushCall r args) c Q := by
  unfold Program.pushCall at h ⊢
  rw [ensures_bind, ensures_getDraft, if_pos hp, ensures_bind]
  refine h.mono ?_
  rintro _ c₁ ⟨hp₁, h₁⟩
  rw [ensures_bind, ensures_getDraft, hp₁] at h₁
  exact h₁

/-- A call state holds the push and nothing else. It comes after the states of the statements that
were pending. -/
def CallState (env : Env) (L : List (Site LinkId)) (opens : List Nat) (c : Context) (inst : Instance)
    (args : List Expr) (link : LinkId) (k : Nat) (c' : Context) : Prop :=
  ∃ c₀ L₀ name, Laid env L₀ opens c₀ ∧ Grown env L c L₀ c₀ ∧
    c₀.session.functions = c.session.functions ∧
    c₀.session.module.symbols.signals = c.session.module.symbols.signals ∧
    (∀ k r, Owns L₀ k r → Owns L k r ∨ c.draft.building.head? = some r) ∧ k = L₀.length ∧
    link < c₀.session.module.symbols.links.size ∧ (∀ k, ¬ CallsBy L₀ k link) ∧
    Pushed c₀ { name, body := [inst.push env.code args link] } c'

theorem Laid.callState (h : Laid env L opens c) (hi : env.Has c.session.functions r inst)
    (args : List Expr) :
    Ensures (pushCall r args) c fun link c₁ => Ensures Program.step c₁ fun k c' =>
      CallState env L opens c inst args link k c' := by
  -- once nothing is pending, the push becomes the body of the next state
  have key : ∀ c₀ L₀, Laid env L₀ opens c₀ → Grown env L c L₀ c₀ →
      c₀.session.functions = c.session.functions →
      c₀.session.module.symbols.signals = c.session.module.symbols.signals →
      (∀ k r, Owns L₀ k r → Owns L k r ∨ c.draft.building.head? = some r) →
      c₀.draft.blocks.outer = [] →
      Ensures (pushCall r args) c₀ fun link c₁ => Ensures Program.step c₁ fun k c' =>
        CallState env L opens c inst args link k c' := by
    intro c₀ L₀ hl hg hf hsig hown hout
    rw [← hf] at hi
    have hroom := (hl.world.stacked r inst hi).relate_room
    have hpending : c₀.draft.blocks.pending = false := by simp [Blocks.pending, hout]
    simp only [Program.pushCall, hasRoom, relate, ensures_ops, hpending, Bool.false_eq_true,
      if_false, hi.2, Option.getD_some, hroom, Option.some.injEq]
    rintro _ rfl
    refine .step fun f hdepth => ?_
    have hm : c₀.session.module.Expands
        { c₀.session.module with symbols := c₀.session.module.symbols.newLink.2 } :=
      ⟨c₀.session.module.symbols.newLink_grows, rfl⟩
    have hinner : c₀.draft.blocks.inner = [] := by
      cases hb : c₀.draft.blocks.inner with
      | nil => rfl
      | cons => simp [Blocks.emit, Blocks.depth, hb] at hdepth
    refine ⟨_, L₀, c₀.draft.label, hl.expand hm, hg.expand hl.world hm, hf, hsig, hown,
      hl.code.size, ?_, hl.link_fresh,
      rfl, rfl, rfl, ?_, rfl, rfl, rfl, rfl, ?_, rfl, rfl, rfl, rfl, rfl⟩
    · exact Nat.lt_of_lt_of_eq (Nat.lt_succ_self _) (Array.size_push _).symm
    · simp only [Draft.cut, Blocks.emit, hinner, hout, List.nil_append, hl.code.alike.type]
      rfl
    · simp [Draft.cut, Blocks.emit, hinner]
  cases hpending : c.draft.blocks.pending with
  | false =>
    exact key c L h .refl rfl rfl (fun _ _ => .inl) (by simpa [Blocks.pending] using hpending)
  | true =>
    exact .pushCall_pending hpending <| .step fun f _ =>
      ⟨rfl, key _ _ (h.cut f).1 (h.cut f).2 rfl rfl
        (fun _ _ hown => hown.of_concat.imp_right And.right) rfl⟩

/-- An open call is wired: to the body of its callee, or past it if the stack is full. -/
theorem Inv.closeCall (h : Inv env L (k :: opens) c) (hk : k ∉ opens) {o : Option InstanceRef}
    (hsite : L[k]? = some ⟨o, .call r args request link⟩)
    (hi : env.Has c.session.functions r inst) {skip resume : Nat}
    (hskip : Reaches L c.draft.building.head? skip o)
    (hresume : Reaches L c.draft.building.head? resume o)
    (hf : c.session.functions[r.function]? = some f) (hreq : env.requests f.name request)
    (hnone : f.overflow = none → resume = skip)
    (hsome : f.overflow ≠ none → ∃ last, resume = last + 1 ∧ skip ≤ last ∧
      L[last]? = some ⟨o, .plain⟩) : Inv env L opens { c with draft := { c.draft with
      resumes := c.draft.resumes ++ [(link, resume)]
      machine := c.draft.machine.addGoto k
        (.branch inst.roomTest (.state inst.entry) (.state skip)) } } := by
  have hcalls : CallsBy L k link := ⟨o, r, args, request, hsite⟩
  have hother : ∀ l j, (l, j) ∈ c.draft.resumes → l ≠ link := by
    rintro l j hlj rfl
    obtain ⟨k', hk', hopen⟩ := h.code.resumes l j hlj
    obtain rfl := h.code.links k' k l hk' hcalls
    exact hopen List.mem_cons_self
  obtain ⟨fault, hgoto⟩ := modifyState_eq c.draft.machine k "goto" fun s =>
    { s with gotos := s.gotos ++ [.branch inst.roomTest (.state inst.entry) (.state skip)] }
  rw [show c.draft.machine.addGoto k _ = _ from hgoto]
  refine ⟨⟨h.world, ⟨h.code.alike.trans rfl, h.code.run, ?_, h.code.first, fun k' site st hk' hst => ?_,
    fun k' hk' => h.code.opens_lt k' (List.mem_cons_of_mem _ hk'), h.code.links,
    fun l j hlj => ?_, fun l j j' hlj hlj' => ?_, h.code.frames, h.code.building, h.code.here,
    h.code.owners, h.code.outer, h.code.functions⟩, h.pending,
    ⟨h.resets.zero, h.resets.pointers, h.resets.defaults⟩⟩, h.entries⟩
  · simpa using h.code.size
  · dsimp only at hst
    rw [Array.getElem?_modify] at hst
    split at hst
    · next hkk =>
      subst hkk
      obtain ⟨st₀, hst₀, rfl⟩ := Option.map_eq_some_iff.mp hst
      cases hsite.symm.trans hk'
      obtain ⟨inst', hi', hlen, hlink, hbody, hopen, -⟩ := h.code.sites k _ st₀ hsite hst₀
      obtain rfl : inst' = inst := Option.some.inj (hi'.2.symm.trans hi.2)
      refine ⟨inst', hi, hlen, hlink, hbody, fun hx => absurd hx hk, fun _ =>
        ⟨inst'.entry, skip, resume, by simp [hopen List.mem_cons_self], by simp,
          h.entries r inst' hi, hskip, hresume, f, hf, hreq, hnone, hsome⟩⟩
    · next hkk =>
      refine (h.code.sites k' site st hk' hst).go (.of_widens .refl) ?_ fun x hx =>
        List.mem_append_left _ hx
      rw [List.mem_cons, or_iff_right (fun hx => hkk hx.symm)]
  · rcases List.mem_append.mp hlj with hlj | hlj
    · obtain ⟨k', hk', hopen⟩ := h.code.resumes l j hlj
      exact ⟨k', hk', fun hx => hopen (List.mem_cons_of_mem _ hx)⟩
    · obtain ⟨rfl, rfl⟩ := Prod.mk.inj (List.mem_singleton.mp hlj)
      exact ⟨k, hcalls, hk⟩
  · simp only [List.mem_append, List.mem_singleton, Prod.mk.injEq] at hlj hlj'
    rcases hlj with hlj | ⟨rfl, rfl⟩ <;> rcases hlj' with hlj' | ⟨hl, rfl⟩
    · exact h.code.resumes_unique l j j' hlj hlj'
    · exact absurd hl (hother l j hlj)
    · exact absurd rfl (hother l j' hlj')
    · rfl

/-- The operation elaborates a body of the program. -/
def Runs (env : Env) (run : List Command → ElabM Unit) : Prop :=
  ∀ body, (∀ x ∈ body, env.Tame true x) → Keeps env true (run body)

theorem Inv.finishCall (hrun : Runs env run) (h : Inv env L (k :: opens) c) (hk : k ∉ opens)
    (hsite : L[k]? = some ⟨c.draft.building.head?, .call r args request link⟩)
    (hf : c.session.functions[r.function]? = some f) (hreq : env.requests f.name request) :
    Ensures (finishCall run r k link L.length) c fun _ c' => ∃ L', Kept env L opens c L' c' := by
  have hlt : k < c.draft.machine.states.size :=
    h.code.size ▸ (List.getElem?_eq_some_iff.mp hsite).1
  obtain ⟨inst, hi, -⟩ := h.code.sites k _ _ hsite (Array.getElem?_eq_getElem hlt)
  have hskip : Reaches L c.draft.building.head? L.length c.draft.building.head? := .inr ⟨rfl, rfl⟩
  -- the call is wired once it is known where it comes back to
  have key : ∀ c₁ L₁ resume, Kept env L (k :: opens) c L₁ c₁ →
      Reaches L₁ c.draft.building.head? resume c.draft.building.head? →
      (f.overflow = none → resume = L.length) →
      (f.overflow ≠ none → ∃ last, resume = last + 1 ∧ L.length ≤ last ∧
        L₁[last]? = some ⟨c.draft.building.head?, .plain⟩) →
      Ensures (do
        modifyDraft fun d => { d with resumes := d.resumes ++ [(link, resume)] }
        let inst ← getInstance r
        let room ← hasRoom inst
        Program.addGoto k (.branch room (.state inst.entry) (.state L.length))) c₁
        fun _ c' => ∃ L', Kept env L opens c L' c' := by
    intro c₁ L₁ resume hk₁ hresume hnone hsome
    obtain ⟨inst₁, hi₁, -⟩ := hk₁.widens.instances r inst hi
    obtain ⟨f₁, hf₁, ho, hname⟩ := hk₁.widens.handlers r.function f hi.1 hf
    have hroom := (hk₁.inv.world.stacked r inst₁ hi₁).relate_room
    simp only [hasRoom, relate, ensures_ops, hi₁.2, Option.getD_some, hroom, Option.some.injEq]
    rintro _ rfl
    rw [← ho] at hnone hsome
    have hinv := hk₁.inv.closeCall hk (hk₁.site hsite) hi₁
      (hk₁.reaches _ _ hskip) (hk₁.building ▸ hresume) hf₁ (hname ▸ hreq) hnone hsome
    exact ⟨L₁, { hk₁ with inv := hinv }⟩
  unfold Program.finishCall
  rw [ensures_bind, ensures_getFunction, hf, Option.getD_some]
  cases ho : f.overflow with
  | none =>
    simp only [pure_bind]
    exact key c L _ (.refl h) hskip (fun _ => rfl) fun hne => absurd ho hne
  | some handler =>
    have htame := (h.world.bodies r.function f hi.1 hf).2 handler ho
    simp only [pure_bind]
    rw [ensures_bind]
    refine ((hrun handler htame).run h (by simp [Inside])).mono ?_
    rintro _ c₁ ⟨L₁, hk₁⟩
    rw [ensures_bind]
    refine hk₁.inv.step fun last c₂ L₂ hk₂ hlast hle _ => ?_
    rw [hk₁.building] at hlast
    have hk' := hk₁.trans hk₂
    refine key c₂ L₂ (last + 1) hk' ?_ (fun hnone => by simp [ho] at hnone) fun _ =>
      ⟨last, rfl, hk₁.grows.length_le.trans hle, hlast⟩
    rw [← hk'.building] at hlast ⊢
    exact hk'.inv.reaches_after hlast

/-- What is known of a call state while the call is open. -/
theorem SiteOk.openCall {fs : Array Function} {g : Symbols} {cur o : Option InstanceRef}
    {resumes : List (LinkId × Nat)} {name : String} (hi : env.Has fs r inst)
    (hlen : args.length = inst.args.length) (hlink : link < g.links.size) :
    SiteOk env L cur (k :: opens) fs g resumes k { name, body := [inst.push env.code args link] }
      ⟨o, .call r args request link⟩ :=
  ⟨inst, hi, hlen, hlink, rfl, fun _ => rfl, fun hk => absurd List.mem_cons_self hk⟩

theorem mem_cons_length (L : List (Site LinkId)) (opens : List Nat) (k : Nat) :
    k ∈ L.length :: opens ↔ k ∈ opens ∨ (k = L.length ∧ k ∈ L.length :: opens) := by
  simp only [List.mem_cons]
  tauto

/-- A call of an instance whose body has been elaborated, or is being so. In the second case the
call stands within that body, and has to get the depth that it asks for. -/
theorem Inv.callExisting (hrun : Runs env run) (h : Inv env L opens c)
    (hi : env.Has c.session.functions r inst) (hlen : args.length = inst.args.length)
    (hf : c.session.functions[r.function]? = some f) (hreq : env.requests f.name request)
    (hgrants : r ∈ c.draft.building → inst.Grants c.session.module.symbols request) :
    Ensures (callExisting run r args) c fun _ c' => ∃ L', Kept env L opens c L' c' ∧
      (r ∈ c.draft.building → Asks L' c'.draft.building r request) := by
  simp only [Program.callExisting, ensures_bind]
  refine (h.toLaid.callState hi args).mono fun link c₁ hstep => hstep.mono ?_
  rintro _ c₂ ⟨c₀, L₀, name, hl, hg, hfs, hsig, -, rfl, hlink, hfresh, hp⟩
  have hnew : L₀.length ∉ opens := fun hx => absurd (hl.code.opens_lt _ hx) (Nat.lt_irrefl _)
  have hcall : ∀ r' args' q l, Role.call r args request link = .call r' args' q l →
      r' ∈ c₀.draft.building → ∃ inst, env.Has c₀.session.functions r' inst ∧
        inst.Grants c₀.session.module.symbols q := by
    rintro r' args' q l ⟨⟩ hr
    refine ⟨inst, hfs ▸ hi, ?_⟩
    rw [Instance.Grants, Instance.room, hsig]
    exact hgrants (hg.building ▸ hr)
  have hlaid := hl.push_same hp (.call r args request link) (mem_cons_length L₀ opens)
    (.openCall (hfs ▸ hi) hlen hlink) (by rintro r args q l ⟨⟩; exact hfresh)
  have hk := h.keep (hg.trans (hp.grown hcall)) hlaid (hp.functions.trans hfs)
  have hsite : (L₀ ++ [⟨c₀.draft.building.head?, .call r args request link⟩])[L₀.length]? =
      some ⟨c₂.draft.building.head?, .call r args request link⟩ := by
    rw [hp.building]
    simp
  have hfinish := hk.inv.finishCall hrun hnew hsite (by rw [hp.functions, hfs]; exact hf) hreq
  rw [List.length_append] at hfinish
  refine hfinish.mono ?_
  rintro _ c' ⟨L', hk'⟩
  refine ⟨L', hk.trans hk', fun hr => ?_⟩
  have hbuild : c'.draft.building = c.draft.building := (hk.trans hk').building
  have hsite' := hk'.site hsite
  rw [hk.building] at hsite'
  rw [hbuild]
  -- the call belongs to the innermost body, and the bodies around that one have states before it
  obtain ⟨i, hle, hown⟩ : ∃ i ≤ L₀.length, Owns L' i r := by
    cases hb : c.draft.building with
    | nil => simp [hb] at hr
    | cons r' rest =>
      rw [hb] at hr
      rcases List.mem_cons.mp hr with rfl | hr
      · exact ⟨_, le_refl _, _, hsite', by rw [hb]; rfl⟩
      · obtain ⟨i, hown⟩ := h.code.outer r (by rw [hb]; exact hr)
        exact ⟨i, hown.lt.le.trans hg.grows.length_le, hown.grow (hk.trans hk').grows⟩
  exact ⟨i, _, hle, hown, ⟨_, _, _, hsite'⟩, .inl hr⟩

/-- The layout has grown, and the innermost body was left. -/
structure Left (env : Env) (L : List (Site LinkId)) (c : Context) (L' : List (Site LinkId))
    (c' : Context) : Prop where
  grows : L <+: L'
  reaches : ∀ j o, Reaches L c.draft.building.head? j o → Reaches L' c'.draft.building.head? j o
  building : c'.draft.building = c.draft.building.tail
  bodies : c'.draft.frames.map Frame.isBody = (c.draft.frames.map Frame.isBody).tail
  processes : c'.session.module.processes = c.session.module.processes
  widens : Widens env c.session.functions c'.session.functions c.session.module.symbols
    c'.session.module.symbols
  depths : ∀ {due}, Sized env due L c → Sized env due L' c'

theorem Grown.left {L'' : List (Site LinkId)} {c'' : Context} (h : Grown env L c L' c')
    (h' : Left env L' c' L'' c'') : Left env L c L'' c'' :=
  ⟨h.grows.trans h'.grows, fun j o hj => h'.reaches j o (h.reaches j o hj),
    by rw [h'.building, h.building], by rw [h'.bodies, h.bodies],
    h'.processes.trans h.processes, h.widens.trans h'.widens, fun hs => h'.depths (h.depths hs)⟩

theorem Left.grown {L'' : List (Site LinkId)} {c'' : Context} (h : Left env L c L' c')
    (h' : Grown env L' c' L'' c'') : Left env L c L'' c'' :=
  ⟨h.grows.trans h'.grows, fun j o hj => h'.reaches j o (h.reaches j o hj),
    h'.building.trans h.building, h'.bodies.trans h.bodies, h'.processes.trans h.processes,
    h.widens.trans h'.widens, fun hs => h'.depths (h.depths hs)⟩

/-- After the last return of a body the elaboration goes on in the body around it. -/
theorem Inv.leaveBody (h : Inv env L opens c) (hb : c.draft.building = r :: rest)
    (hframes : (c.draft.frames.map Frame.isBody).head? = some true) :
    Ensures (Program.makeReturn r none) c fun k c' => ∃ L', k + 1 = L'.length ∧
      Inv env L' opens { c' with draft := { c'.draft with
        frames := c'.draft.frames.tail, building := c'.draft.building.tail } } ∧
      Left env L c L' { c' with draft := { c'.draft with
        frames := c'.draft.frames.tail, building := c'.draft.building.tail } } := by
  refine (h.makeReturn hb none).mono ?_
  rintro _ c' ⟨c₁, L₁, st, hk₁, rfl, hp, inst, before, hi, hbody, hclean, hgotos⟩
  have hb₁ : c₁.draft.building = r :: rest := hk₁.building.trans hb
  have hcur : c₁.draft.building.head? = some r := by rw [hb₁]; rfl
  have hgo : Goes env L₁ (L₁ ++ [⟨c₁.draft.building.head?, .ret⟩]) c₁.draft.building.head?
      rest.head? c₁.session.functions c₁.session.functions c₁.session.module.symbols
      c₁.session.module.symbols := .snoc .ret
  have hok := hk₁.inv.frames_push .ret rest.head?
  have hbodies : c'.draft.frames.map Frame.isBody = c.draft.frames.map Frame.isBody :=
    hp.bodies.trans hk₁.bodies
  rw [← hbodies] at hframes
  obtain ⟨fr, frames, hfr⟩ : ∃ fr frames, c'.draft.frames = fr :: frames := by
    cases hf : c'.draft.frames with
    | nil => simp [hf] at hframes
    | cons fr frames => exact ⟨fr, frames, rfl⟩
  have hfrb : fr.isBody = true := by simpa [hfr] using hframes
  rw [← hp.frames, hb₁, hfr] at hok
  have hframes' := hok.2
  rw [if_pos hfrb, List.tail_cons, ← hb₁] at hframes'
  have hlaid := hk₁.inv.toLaid.push hp .ret (fun k => ⟨.inl, fun hk => hk.elim id And.right⟩)
    ⟨r, inst, before, hcur, hi, hbody, hclean, hgotos⟩ (by simp) hframes'.2
    (fun r' hr' => hk₁.inv.code.building r' (hb₁ ▸ List.mem_cons_of_mem _ hr'))
    fun r' hr' => (hk₁.inv.code.outer r' (by rw [hb₁]; exact List.mem_of_mem_tail hr')).imp
      fun _ hk => hk.grow (List.prefix_append ..)
  rw [show c'.draft.frames.tail = frames by rw [hfr, List.tail_cons],
    show c'.draft.building.tail = rest by rw [hp.building, hb₁, List.tail_cons]]
  refine ⟨L₁ ++ [⟨c₁.draft.building.head?, .ret⟩], by simp, ⟨hlaid, fun r' inst' hi' => ?_⟩,
    ⟨hk₁.grows.trans (List.prefix_append ..), fun j o hj => hgo.reaches j o (hk₁.reaches j o hj),
      by rw [hb, List.tail_cons], by rw [← hbodies, hfr]; rfl, ?_, ?_, fun hs => ?_⟩⟩
  · exact hgo.reaches _ _ (hk₁.inv.entries r' inst' (hp.functions ▸ hi'))
  · dsimp only
    rw [hp.module, hk₁.processes]
  · dsimp only
    rw [hp.functions, hp.module]
    exact hk₁.widens
  · rw [Sized]
    dsimp only
    rw [hp.functions, hp.module]
    refine (hk₁.depths hs).snoc (fun r => List.mem_of_head?) (fun r' hr' hout => ?_)
      (fun r' hr' => .inl (hb₁ ▸ List.mem_cons_of_mem _ hr')) (by simp)
    rw [hb₁, List.mem_cons] at hr'
    rw [hcur, hr'.resolve_right hout]

/-- The state of the first call to a new instance; its body comes next. -/
theorem Laid.enterBody (h : Laid env L opens c)
    (hentries : ∀ r' inst', env.Has c.session.functions r' inst' → r' ≠ r →
      Reaches L c.draft.building.head? inst'.entry (some r'))
    (hi : env.Has c.session.functions r inst) (hout : r ∉ c.draft.building)
    (hown : ∀ k, ¬ Owns L k r) (hlen : args.length = inst.args.length) {c₁ : Context}
    (request : Int) {name : String} (hlink : link < c.session.module.symbols.links.size)
    (hfresh : ∀ k, ¬ CallsBy L k link)
    (hp : Pushed c { name, body := [inst.push env.code args link] } c₁)
    (hd : c'.draft = { c₁.draft with
      frames := { isBody := true } :: c₁.draft.frames
      building := r :: c₁.draft.building })
    (hfs : c'.session.functions = c₁.session.functions.modify r.function fun f =>
      { f with instances := f.instances.modify r.position ({ · with entry := L.length + 1 }) })
    (hm : c'.session.module = c₁.session.module)
    (hsc : c'.session.scope.bound = c₁.session.scope.bound ∧
      c'.session.scope.loose = c₁.session.scope.loose ∧
      c'.session.scope.functions = c₁.session.scope.functions) :
    Inv env (L ++ [⟨c.draft.building.head?, .call r args request link⟩]) (L.length :: opens) c' ∧
      ∀ {due}, Sized env due L c →
        Sized env due (L ++ [⟨c.draft.building.head?, .call r args request link⟩]) c' := by
  have hgo : Goes env L (L ++ [⟨c.draft.building.head?, .call r args request link⟩])
      c.draft.building.head? (some r) c.session.functions c.session.functions
      c.session.module.symbols c.session.module.symbols := .snoc _
  have hfree : ∀ k, ¬ Owns (L ++ [⟨c.draft.building.head?, .call r args request link⟩]) k r := by
    intro k hk
    rcases hk.of_concat with hk | ⟨-, hcur⟩
    · exact hown k hk
    · exact hout (h.code.here r hcur)
  have hlaid : Laid env (L ++ [⟨c.draft.building.head?, .call r args request link⟩])
      (L.length :: opens) { c₁ with draft := { c₁.draft with
        frames := { isBody := true } :: c.draft.frames.modifyHead fun fr => { fr with closedIf := none }
        building := r :: c.draft.building } } := by
    refine h.push hp (.call r args request link) (mem_cons_length L opens)
      (.openCall hi hlen hlink) ?_ ?_ (fun r' hr' => ?_) fun r' hr' => ?_
    · rintro r args q l ⟨⟩
      exact hfresh
    · exact ⟨⟨by simp, by simp, by simp, by simp⟩, by simp [h.frames_push _ (some r)]⟩
    · rcases List.mem_cons.mp hr' with rfl | hr'
      · exact ⟨inst, hi⟩
      · exact h.code.building r' hr'
    · -- the call is a state of the body around the new one
      rw [List.tail_cons] at hr'
      cases hb : c.draft.building with
      | nil => simp [hb] at hr'
      | cons r₀ rest =>
        rw [hb] at hr'
        rcases List.mem_cons.mp hr' with rfl | hr'
        · exact ⟨L.length, ⟨some r', .call r args request link⟩, by simp, rfl⟩
        · obtain ⟨k, hk⟩ := h.code.outer r' (by rw [hb]; exact hr')
          exact ⟨k, hk.grow (List.prefix_append ..)⟩
  have hc : ∀ inst : Instance, inst.Same { inst with entry := L.length + 1 } := fun _ => ⟨rfl, id⟩
  have hd' : c'.draft = { c₁.draft with
      frames := { isBody := true } :: c.draft.frames.modifyHead fun fr => { fr with closedIf := none }
      building := r :: c.draft.building } := by
    rw [hd, hp.frames, hp.building]
  have hentry : c'.draft.building.head? = some r := by rw [hd]; rfl
  refine ⟨⟨hlaid.advance hd' ?_ ?_ ?_ ?_, fun r' inst' hi' => ?_⟩, fun hs => ?_⟩
  · rw [hfs, hm]
    exact (hlaid.world.modifyInstance r hc).rescope hsc.1 hsc.2.1 hsc.2.2
  · rw [hfs, hm]
    exact .modifyInstance r hc
  · simp [hfs]
  · rw [hfs]
    exact fun r' inst' hi' => hi'.same_of_modifyInstance hc
  · rw [hfs, hp.functions] at hi'
    obtain ⟨inst₀, hi₀, rfl⟩ := hi'.of_modifyInstance
    rw [hentry]
    split
    · next hr =>
      subst hr
      exact .inr ⟨by simp, rfl⟩
    · next hr => exact hgo.reaches _ _ (hentries r' inst₀ hi₀ hr)
  · rw [Sized, hd', hfs, hm, hp.functions, hp.module]
    refine (hs.snoc (fun r => List.mem_of_head?) (fun r' hr' hx => ?_) (fun r' hr' => ?_)
      ?_).modifyInstance r hc fun _ => rfl
    · exact absurd (List.mem_cons_of_mem _ hr') hx
    · rcases List.mem_cons.mp hr' with rfl | hr'
      · exact .inr hfree
      · exact .inl hr'
    · rintro r' args' q l ⟨⟩ hr'
      exact absurd hr' hout

theorem World.tame_body {fs : Array Function} {sc : Script.Scope} (h : World env fs m sc)
    (hb : env.base ≤ fn) : ∀ x ∈ (fs[fn]?.getD default).body, env.Tame true x := by
  cases hf : fs[fn]? with
  | none => simp [default, instInhabitedFunction.default]
  | some f => exact (h.bodies fn f hb hf).1

/-- Only the names in scope matter, not the arguments of the body. -/
theorem Inv.kept_rescope (h : Inv env L opens c) (sc : Script.Scope)
    (hb : sc.bound = c.session.scope.bound) (hl : sc.loose = c.session.scope.loose)
    (hf : sc.functions = c.session.scope.functions) :
    Kept env L opens c L { c with session := { c.session with scope := sc } } :=
  h.kept_advance rfl ⟨⟨h.world.rescope hb hl hf, .refl, rfl, rfl, fun _ inst hi =>
    ⟨inst, hi, .refl inst, rfl⟩⟩, id⟩

/-- The first call of an instance, from the body on. -/
theorem Inv.finishFirst (hrun : Runs env run) (h : Inv env L (k :: opens) c) (hk : k ∉ opens)
    (hb : c.draft.building = r :: rest)
    (hframes : (c.draft.frames.map Frame.isBody).head? = some true)
    (hsite : L[k]? = some ⟨rest.head?, .call r args request link⟩)
    (hf : c.session.functions[r.function]? = some f) (hb₀ : env.base ≤ r.function)
    (hreq : env.requests f.name request) {body : List Command}
    (hbody : ∀ x ∈ body, env.Tame true x) :
    Ensures (do
      run body
      modifyScope fun sc => { sc with formals := sc.formals.tail }
      let last ← Program.makeReturn r none
      let _ ← popFrame
      modifyDraft fun d => { d with building := d.building.tail }
      Program.finishCall run r k link (last + 1)) c
      fun _ c' => ∃ L', Inv env L' opens c' ∧ Left env L c L' c' := by
  simp only [ensures_ops]
  refine ((hrun body hbody).run h (by simp [Inside])).mono ?_
  rintro _ c₁ ⟨L₁, hk₁⟩
  have hk₂ := hk₁.trans (hk₁.inv.kept_rescope { c₁.session.scope with
    formals := c₁.session.scope.formals.tail } rfl rfl rfl)
  refine (hk₂.inv.leaveBody (hk₂.building.trans hb) (hk₂.bodies ▸ hframes)).mono ?_
  rintro last c₃ ⟨L₃, hlen, hinv, hleft⟩
  have hleft' := hk₂.toGrown.left hleft
  have hcur : c₃.draft.building.tail = rest := hleft'.building.trans (by rw [hb, List.tail_cons])
  have hsite' := site_of_prefix hleft'.grows hsite
  obtain ⟨f', hf', -, hname⟩ := hleft'.widens.handlers r.function f hb₀ hf
  rw [← hcur] at hsite'
  rw [hlen]
  refine (hinv.finishCall hrun hk hsite' hf' (hname ▸ hreq)).mono ?_
  rintro _ c' ⟨L', hk'⟩
  exact ⟨L', hk'.inv, hleft'.grown hk'.toGrown⟩

/-- The first call of an instance: everything but the body of the instance is in place. -/
theorem Laid.callFirst (hrun : Runs env run) (h : Laid env L opens c)
    (hentries : ∀ r' inst', env.Has c.session.functions r' inst' → r' ≠ r →
      Reaches L c.draft.building.head? inst'.entry (some r'))
    (hi : env.Has c.session.functions r inst) (hout : r ∉ c.draft.building)
    (hown : ∀ k, ¬ Owns L k r) (hlen : args.length = inst.args.length)
    (hf : c.session.functions[r.function]? = some f) (hreq : env.requests f.name request) :
    Ensures (callFirst run r args) c fun _ c' => ∃ L', Kept env L opens c L' c' := by
  unfold Program.callFirst
  rw [ensures_bind]
  refine (h.callState hi args).mono fun link c₁ hstep => ensures_bind.mpr (hstep.mono ?_)
  rintro _ c₂ ⟨c₀, L₀, name, hl, hg, hfs, -, howns, rfl, hlink, hfresh, hp⟩
  have hnew : L₀.length ∉ opens := fun hx => absurd (hl.code.opens_lt _ hx) (Nat.lt_irrefl _)
  have hout₀ : r ∉ c₀.draft.building := hg.building ▸ hout
  have hown₀ : ∀ k, ¬ Owns L₀ k r := fun k hk =>
    (howns k r hk).elim (hown k) fun hcur => hout (List.mem_of_head? hcur)
  have hentries₀ : ∀ r' inst', env.Has c₀.session.functions r' inst' → r' ≠ r →
      Reaches L₀ c₀.draft.building.head? inst'.entry (some r') := fun r' inst' hi' hne =>
    hg.reaches _ _ (hentries r' inst' (hfs ▸ hi') hne)
  have hentry : ∀ inst : Instance, inst.Same { inst with entry := L₀.length + 1 } :=
    fun _ => ⟨rfl, id⟩
  -- the body, from the context in which it is entered
  have key : ∀ c₃ : Context, c₃.draft = { c₂.draft with
      frames := { isBody := true } :: c₂.draft.frames
      building := r :: c₂.draft.building } →
      (c₃.session.functions = c₂.session.functions.modify r.function fun f =>
        { f with
          instances := f.instances.modify r.position ({ · with entry := L₀.length + 1 }) }) →
      c₃.session.module = c₂.session.module →
      c₃.session.scope.bound = c₂.session.scope.bound ∧
        c₃.session.scope.loose = c₂.session.scope.loose ∧
        c₃.session.scope.functions = c₂.session.scope.functions →
      Ensures (do
        run (c₃.session.functions[r.function]?.getD default).body
        modifyScope fun sc => { sc with formals := sc.formals.tail }
        let last ← Program.makeReturn r none
        let _ ← popFrame
        modifyDraft fun d => { d with building := d.building.tail }
        Program.finishCall run r L₀.length link (last + 1)) c₃
        fun _ c' => ∃ L', Kept env L opens c L' c' := by
    intro c₃ hd hfs₃ hm hsc
    obtain ⟨hinv, hdepths⟩ :=
      hl.enterBody hentries₀ (hfs ▸ hi) hout₀ hown₀ hlen request hlink hfresh hp hd hfs₃ hm hsc
    have hwidens : Widens env c.session.functions c₃.session.functions c.session.module.symbols
        c₃.session.module.symbols := by
      rw [hfs₃, hm, hp.functions, hp.module]
      exact hg.widens.trans (.modifyInstance r hentry)
    obtain ⟨f₃, hf₃, -, hname⟩ := hwidens.handlers r.function f hi.1 hf
    have hsite : (L₀ ++ [⟨c₀.draft.building.head?, .call r args request link⟩])[L₀.length]? =
        some ⟨c₂.draft.building.head?, .call r args request link⟩ := by
      rw [hp.building]
      simp
    refine (hinv.finishFirst hrun hnew (by rw [hd]) (by rw [hd]; rfl) hsite hf₃ hi.1
      (hname ▸ hreq) (hinv.world.tame_body hi.1)).mono ?_
    rintro _ c' ⟨L', hinv', hleft⟩
    have hgo : Goes env L₀ (L₀ ++ [⟨c₀.draft.building.head?, .call r args request link⟩])
        c₀.draft.building.head? (some r) c₀.session.functions c₀.session.functions
        c₀.session.module.symbols c₀.session.module.symbols := .snoc _
    have hcur : c₃.draft.building.head? = some r := by rw [hd]; rfl
    refine ⟨L', ⟨hg.grows.trans ((List.prefix_append ..).trans hleft.grows),
      fun j o hj => hleft.reaches j o (hcur ▸ hgo.reaches j o (hg.reaches j o hj)), ?_, ?_, ?_,
      hwidens.trans hleft.widens, fun hs => hleft.depths (hdepths (hg.depths hs))⟩, hinv'⟩
    · rw [hleft.building, hd, List.tail_cons, hp.building, hg.building]
    · rw [hleft.bodies, hd, List.map_cons, List.tail_cons, hp.bodies, hg.bodies]
    · rw [hleft.processes, hm, hp.module, hg.processes]
  rw [ensures_bind, modifyInstance, modifyFunction, ensures_modifySession, ensures_bind,
    ensures_modifyDraft, ensures_bind, ensures_pushFrame, ensures_bind, ensures_getInstance,
    ensures_bind, ensures_modifyScope, ensures_bind, ensures_getFunction]
  exact key _ rfl rfl rfl ⟨rfl, rfl, rfl⟩

/-! ## Functions -/

theorem Ensures.mapM_require {α β : Type} (f : α → Option β) (xs : List α) :
    Ensures (xs.mapM fun x => require (f x)) c fun ys c' => c' = c ∧ ys.length = xs.length := by
  induction xs with
  | nil => simp
  | cons x xs ih =>
    rw [List.mapM_cons, ensures_bind, ensures_require]
    intro y _
    rw [ensures_bind]
    refine ih.mono ?_
    rintro ys c' ⟨rfl, hlen⟩
    exact ensures_pure.mpr ⟨rfl, by simp [hlen]⟩

/-- A body under elaboration, for the types that were asked for, or none. -/
theorem Laid.elaborating (h : Laid env L opens c) (fn : Nat) (types : List SignalType) :
    Ensures (elaborating fn types) c fun found c' => c' = c ∧
      (∀ r, found = some r → r.function = fn ∧ r ∈ c.draft.building ∧
        ∃ inst, env.Has c.session.functions r inst ∧ inst.argTypes = types) ∧
      (found = none → ∀ r ∈ c.draft.building, r.function = fn →
        ∀ inst, env.Has c.session.functions r inst → inst.argTypes ≠ types) := by
  simp only [Program.elaborating, ensures_ops, true_and]
  refine ⟨fun r hr => ?_, fun hnone r hr hfn inst hi htypes => ?_⟩
  rotate_left
  · rw [List.find?_eq_none] at hnone
    refine hnone r hr ?_
    have hinst : c.session.functions[fn]?.bind (·.instances[r.position]?) = some inst := hfn ▸ hi.2
    simp [hfn, hinst, htypes]
  obtain ⟨inst, hi⟩ := h.code.building r (List.mem_of_find?_eq_some hr)
  have htest := List.find?_some hr
  simp only [Bool.and_eq_true, beq_iff_eq, Option.any_eq_true] at htest
  obtain ⟨hfn, inst', hi', htypes⟩ := htest
  rw [← hfn] at hi'
  obtain rfl : inst' = inst := Option.some.inj (hi'.symm.trans hi.2)
  exact ⟨hfn, List.mem_of_find?_eq_some hr, inst', hi, by simpa using htypes⟩

/-- A new instance has its stack, and everything else is as it was. -/
theorem Laid.instantiate (h : Laid env L opens c) (hb : env.base ≤ fn)
    (hf : c.session.functions[fn]? = some f)
    (hnew : NewStack env c.session.module c'.session.module inst)
    (hfs : c'.session.functions = c.session.functions.modify fn fun f =>
      { f with instances := f.instances.push inst }) (hsc : c'.session.scope = c.session.scope)
    (hd : c'.draft = { c.draft with machine := { c.draft.machine with
      onReset := c.draft.machine.onReset ++
        [.assign inst.sp none (.const 0 (some inst.spType))] } }) :
    Laid env L opens c' ∧ Grown env L c L c' := by
  have hwidens : Widens env c.session.functions c'.session.functions c.session.module.symbols
      c'.session.module.symbols := hfs ▸ hnew.widens hf
  refine ⟨⟨?_, ?_, ?_, ?_⟩, ⟨List.prefix_rfl, fun j o hj => ?_, by rw [hd], by rw [hd],
    hnew.expands.processes, hwidens, fun hs => ?_⟩⟩
  · rw [hfs, hsc]
    exact hnew.world h.world hf
  · have hcode := (h.code.restate (f := { c.draft.machine with
      onReset := c.draft.machine.onReset ++
        [.assign inst.sp none (.const 0 (some inst.spType))] }) rfl rfl
      h.code.sites).widen hwidens (by simp [hfs])
    rw [hd]
    exact hcode
  · rw [hd]
    exact h.pending.widen hwidens
  · rw [hd]
    refine ⟨fun st hst => ?_, fun r inst' hi' => ?_, fun i hi =>
      hwidens.clean (h.resets.defaults i hi)⟩
    · rcases List.mem_append.mp hst with hst | hst
      · exact (h.resets.zero st hst).widen hwidens
      · refine ⟨inst.sp, some inst.spType, List.mem_singleton.mp hst,
          .inr ⟨⟨fn, f.instances.size⟩, inst, ⟨hb, ?_⟩, rfl⟩⟩
        rw [hfs, instance?_pushInstance hf, if_pos rfl]
    · rw [hfs] at hi'
      rcases NewStack.has_cases hf hi' with ⟨-, rfl⟩ | ⟨-, hi⟩
      · exact ⟨some inst'.spType, by simp⟩
      · obtain ⟨t, ht⟩ := h.resets.pointers r inst' hi
        exact ⟨t, List.mem_append_left _ ht⟩
  · rw [hd]
    exact hj
  · rw [Sized, hd, hfs]
    exact hnew.depths hf h.world hs

theorem Inv.callFunction (hrun : Runs env run) (h : Inv env L opens c) (hb : env.base ≤ fn)
    (hf : c.session.functions[fn]? = some f) {depth : Int} (hdepth : env.requests f.name depth)
    (args : List Expr) :
    Ensures (callFunction run fn depth args) c fun _ c' => ∃ L', Kept env L opens c L' c' := by
  have hargs : ∀ r inst types, env.Has c.session.functions r inst → inst.argTypes = types →
      types.length = args.length → args.length = inst.args.length := by
    rintro r inst types hi rfl hlen
    rw [(h.world.stacked r inst hi).args, hlen]
  unfold Program.callFunction
  rw [ensures_bind, ensures_getSymbols, ensures_bind]
  refine (Ensures.mapM_require _ args).mono ?_
  rintro types c' ⟨hc, hlen⟩
  rw [hc, ensures_bind]
  refine (h.elaborating fn types).mono ?_
  rintro found c' ⟨hc, hfound, hnone⟩
  rw [hc]
  cases found with
  | some r =>
    obtain ⟨rfl, hr, inst, hi, htypes⟩ := hfound r rfl
    simp only [ensures_ops]
    refine (Ensures.sizeStack h.world hi hf depth).mono ?_
    rintro _ c₁ ⟨hd, hsizes⟩
    have hinv := h.advance hd hsizes.toMoves
    obtain ⟨inst₁, hi₁, hsame⟩ := hsizes.widens.instances r inst hi
    obtain ⟨f₁, hf₁, -, hname⟩ := hsizes.widens.handlers r.function f hb hf
    have hlen₁ : args.length = inst₁.args.length := by
      rw [hsame.args]
      exact hargs r inst types hi htypes hlen
    refine (hinv.callExisting hrun hi₁ hlen₁ hf₁ (hname ▸ hdepth) fun _ =>
      hsizes.grants inst₁ hi₁).mono ?_
    rintro _ c₂ ⟨L₂, hk₂, hasks⟩
    rw [hd] at hasks
    refine ⟨L₂, ⟨hk₂.grows, fun j o hj => hk₂.reaches j o (hd ▸ hj), hk₂.building.trans (by rw [hd]),
      hk₂.bodies.trans (by rw [hd]), hk₂.processes.trans hsizes.processes,
      hsizes.widens.trans hk₂.widens, fun {due} hs => ?_⟩, hk₂.inv⟩
    -- the call that asked for the depth has its place now
    have hs₁ : Sized env (fun r' q => due r' q ∨ (r' = r ∧ q = depth)) L c₁ := by
      rw [Sized, hd]
      refine (hsizes.depths hs).reask (fun r' q => ?_) fun r' q => ?_ <;> tauto
    refine (hk₂.depths hs₁).reask (fun r' q => ?_) fun r' q => ?_
    · rintro ((hdue | ⟨rfl, rfl⟩) | ha)
      · exact .inl hdue
      · exact .inr (hasks hr)
      · exact .inr ha
    · tauto
  | none =>
    simp only [ensures_ops, hf, Option.getD_some]
    split
    · next position hpos =>
      simp only [ensures_ops]
      obtain ⟨hlt, htypes, -⟩ := Array.findIdx?_eq_some_iff_getElem.mp hpos
      have hi : env.Has c.session.functions ⟨fn, position⟩ f.instances[position] :=
        ⟨hb, by simp [instance?, hf, hlt]⟩
      refine (h.callExisting hrun hi (hargs _ _ types hi (by simpa using htypes) hlen) hf hdepth
        fun hr => ?_).mono ?_
      · exact absurd (by simpa using htypes) (hnone rfl _ hr rfl _ hi)
      · rintro _ _ ⟨L', hk, -⟩
        exact ⟨L', hk⟩
    · simp only [ensures_ops]
      refine .instantiate hf h.code.alike.type fun inst c₁ _ hnew hserves _ hfs hsc hd => ?_
      obtain ⟨hlaid, hgrown⟩ := h.toLaid.instantiate hb hf hnew hfs hsc hd
      have hi : env.Has c₁.session.functions ⟨fn, f.instances.size⟩ inst :=
        hfs ▸ NewStack.has_new hf hb
      have hfresh : ∀ inst', ¬ env.Has c.session.functions ⟨fn, f.instances.size⟩ inst' := by
        rintro inst' ⟨-, hi'⟩
        simp [instance?, hf] at hi'
      obtain ⟨f₁, hf₁, -, hname⟩ := hgrown.widens.handlers fn f hb hf
      refine (hlaid.callFirst hrun (fun r' inst' hi' hne => ?_) hi (fun hr => ?_) (fun k hk => ?_)
        ?_ hf₁ (hname ▸ hdepth)).mono ?_
      · rw [hfs] at hi'
        rcases NewStack.has_cases hf hi' with ⟨rfl, -⟩ | ⟨-, hi'⟩
        · exact absurd rfl hne
        · exact hgrown.reaches _ _ (h.entries r' inst' hi')
      · obtain ⟨inst', hi'⟩ := h.code.building _ (hgrown.building ▸ hr)
        exact hfresh inst' hi'
      · obtain ⟨inst', hi'⟩ := h.code.owners k _ hk
        exact hfresh inst' hi'
      · rw [hnew.stacked.args, hserves.argTypes, hlen]
      · rintro _ c₂ ⟨L₂, hk₂⟩
        exact ⟨L₂, hgrown.trans hk₂.toGrown, hk₂.inv⟩

end Lockstep.Program
