import Lockstep.Proofs.Program.World

/-!
# Operations on the session

The operations of elaboration that leave the draft alone: resolving terms, declaring signals, fixing
the depth of a stack or the type of a return register. Each keeps the world of the program. Making
an instance adds one stack to it, apart from all others.
-/

namespace Lockstep.Program

variable {α : Type}

/-- The session moved on, with the same functions and instances. -/
structure Moves (env : Env) (s s' : Session) : Prop where
  world : World env s'.functions s'.module s'.scope
  widens : Widens env s.functions s'.functions s.module.symbols s'.module.symbols
  processes : s'.module.processes = s.module.processes
  size : s'.functions.size = s.functions.size
  instances : ∀ r inst', env.Has s'.functions r inst' →
    ∃ inst, env.Has s.functions r inst ∧ inst.Same inst' ∧ inst'.entry = inst.entry

/-- The session moved on, and no stack was sized. -/
structure Advances (env : Env) (s s' : Session) : Prop extends Moves env s s' where
  depths : ∀ {asked}, Depths env asked s.functions s.module.symbols →
    Depths env asked s'.functions s'.module.symbols

namespace Advances

variable {env : Env} {s s' s'' : Session}

theorem refl (h : World env s.functions s.module s.scope) : Advances env s s where
  world := h
  widens := .refl
  processes := rfl
  size := rfl
  instances _ inst hi := ⟨inst, hi, .refl inst, rfl⟩
  depths := id

/-- Reports and the journal do not matter. -/
theorem of_eq (h : World env s.functions s.module s.scope) (hf : s'.functions = s.functions)
    (hm : s'.module = s.module) (hs : s'.scope = s.scope) : Advances env s s' where
  world := by rw [hf, hm, hs]; exact h
  widens := by rw [hf, hm]; exact .refl
  processes := by rw [hm]
  size := by rw [hf]
  instances _ inst hi := ⟨inst, hf ▸ hi, .refl inst, rfl⟩
  depths := by rw [hf, hm]; exact id

theorem trans (h : Advances env s s') (h' : Advances env s' s'') : Advances env s s'' where
  world := h'.world
  widens := h.widens.trans h'.widens
  processes := h'.processes.trans h.processes
  size := h'.size.trans h.size
  instances r inst'' hi'' := by
    obtain ⟨inst', hi', hs', he'⟩ := h'.instances r inst'' hi''
    obtain ⟨inst, hi, hs, he⟩ := h.instances r inst' hi'
    exact ⟨inst, hi, hs.trans hs', he'.trans he⟩
  depths hd := h'.depths (h.depths hd)

theorem expand (h : World env s.functions s.module s.scope) {m : Module}
    (hm : s.module.Expands m) : Advances env s { s with module := m } where
  world := h.grow hm
  widens := .of_grows hm.symbols
  processes := hm.processes
  size := rfl
  instances _ inst hi := ⟨inst, hi, .refl inst, rfl⟩
  depths hd := hd.grow h.stacked hm.symbols

theorem modifyInstance (h : World env s.functions s.module s.scope) (r₀ : InstanceRef)
    {change : Instance → Instance} (hc : ∀ inst : Instance, inst.Same (change inst))
    (he : ∀ inst, (change inst).entry = inst.entry)
    (hs : ∀ inst, (change inst).sized = inst.sized) :
    Advances env s { s with
      functions := s.functions.modify r₀.function fun f =>
        { f with instances := f.instances.modify r₀.position change } } where
  world := h.modifyInstance r₀ hc
  widens := .modifyInstance r₀ hc
  processes := rfl
  size := by simp
  instances r inst' hi' := by
    obtain ⟨inst, hi, rfl⟩ := hi'.of_modifyInstance
    refine ⟨inst, hi, ?_⟩
    split
    · exact ⟨hc inst, he inst⟩
    · exact ⟨.refl inst, rfl⟩
  depths hd := hd.modifyInstance r₀ hc hs

end Advances

/-- The operation works on the session alone and keeps the world. -/
def Steady (env : Env) (x : ElabM α) (c : Context) : Prop :=
  World env c.session.functions c.session.module c.session.scope →
    Ensures x c fun _ c' => c'.draft = c.draft ∧ Advances env c.session c'.session

namespace Steady

variable {env : Env} {c : Context}

theorem resolve (t : Script.Term) : Steady env (resolve t) c := fun h =>
  .resolve fun _ _ hm => ⟨rfl, .expand h hm⟩

theorem declareBound (command name : String) {f : Module → SignalId × Module}
    (hm : ∀ m : Module, m.Expands (f m).2)
    (hi : ∀ m : Module, m.symbols.signals.size ≤ (f m).1 ∧
      (f m).1 < (f m).2.symbols.signals.size) :
    Steady env (declareBound command name f) c := by
  intro h
  simp only [Program.declareBound, ensures_ops, ensures_record]
  exact ⟨trivial, ⟨h.bind (hm _) (hi _).1 (hi _).2, .of_grows (hm _).symbols, (hm _).processes, rfl,
    fun r inst hr => ⟨inst, hr, .refl inst, rfl⟩⟩, fun hd => hd.grow h.stacked (hm _).symbols⟩

theorem bindVar (name : Option String) (e : Expr) : Steady env (bindVar name e) c := by
  intro h
  simp only [Program.bindVar, ensures_modifyScope]
  refine ⟨trivial, ⟨h.rescope ?_ ?_ ?_, .refl, rfl, rfl,
    fun r inst hr => ⟨inst, hr, .refl inst, rfl⟩⟩, id⟩ <;>
    cases name <;> rfl

theorem record (command : String) (fact : Fact) : Steady env (record command fact) c := by
  intro h
  simp only [ensures_record]
  exact ⟨trivial, .of_eq h rfl rfl rfl⟩

theorem mono {x : ElabM α} (hx : Steady env x c)
    (h : World env c.session.functions c.session.module c.session.scope) {Q : α → Context → Prop}
    (hq : ∀ a c', c'.draft = c.draft → Advances env c.session c'.session → Q a c') :
    Ensures x c Q :=
  (hx h).mono fun a c' hc => hq a c' hc.1 hc.2

theorem bind {β : Type} {x : ElabM α} {f : α → ElabM β} (hx : Steady env x c)
    (hf : ∀ a c', Steady env (f a) c') : Steady env (x >>= f) c := by
  intro h
  rw [ensures_bind]
  refine hx.mono h fun a c' hd ha => (hf a c').mono ha.world fun b c'' hd' ha' => ?_
  exact ⟨hd'.trans hd, ha.trans ha'⟩

theorem pure (a : α) : Steady env (Pure.pure a) c := by
  intro h
  rw [ensures_pure]
  exact ⟨rfl, .refl h⟩

theorem exactNumber (v : UInt64) : Steady env (exactNumber v) c := by
  intro h
  simp only [Program.exactNumber, ensures_ops]
  exact ⟨trivial, .expand h ⟨Symbols.newType_grows .., rfl⟩⟩

/-- The return register takes the type of a first returned value. -/
theorem resolveReturn {r : InstanceRef} {inst : Instance} (hi : env.Has c.session.functions r inst)
    (value : Expr) : Steady env (resolveReturn r value) c := by
  intro h
  obtain ⟨-, x, t, u, hx, hxt, hu, -, hcell⟩ := h.returns r inst hi
  simp only [Program.resolveReturn, ensures_ops]
  split
  · simp only [ensures_ops, hi.2, Option.getD_some]
    split
    · simpa using .refl h
    · next v hv =>
      -- the first returned value sets the type, in place
      have hset : c.session.module.symbols.resize inst.ret v =
          some (c.session.module.symbols.setType t v) := by
        simp [Symbols.resize, hx, hxt]
      have hworld : World env c.session.functions
          (c.session.module.modifySymbols (·.setType t v)) c.session.scope := by
        refine h.retype hcell (fun i hne => ?_) (by simp)
        rw [Array.getElem?_setIfInBounds, if_neg (Ne.symm hne)]
      have htyped : Advances env c.session
          { c.session with module := c.session.module.modifySymbols (·.setType t v) } :=
        ⟨⟨hworld, .of_symbols rfl (fun _ => rfl) rfl, rfl, rfl, fun r inst hr =>
          ⟨inst, hr, .refl inst, rfl⟩⟩, fun hd => hd.of_rooms fun _ _ _ => rfl⟩
      have hdone := htyped.trans (.modifyInstance hworld r (fun inst => ⟨rfl, id⟩ :
        ∀ inst : Instance, inst.Same { inst with resolved := true }) (fun _ => rfl) fun _ => rfl)
      simp only [modifyInstance, modifyFunction, ensures_ite, ensures_ops, implies_true, true_and]
      refine ⟨fun _ => .refl h, fun _ => ⟨fun _ => ?_, fun _ _ => .refl h⟩⟩
      have hm : (c.session.module.modifySymbols fun s => (s.resize inst.ret v).getD s) =
          c.session.module.modifySymbols (·.setType t v) := by
        simp [Module.modifySymbols, hset]
      rw [hm]
      exact hdone
  · simp

end Steady

/-! ## Sizing a stack -/

/-- A recursive call asked for a depth: the stack has one now, and it is what was asked for. -/
structure Sizes (env : Env) (r : InstanceRef) (request : Int) (s s' : Session) : Prop
    extends Moves env s s' where
  depths : ∀ {asked}, Depths env asked s.functions s.module.symbols →
    Depths env (fun r' q => asked r' q ∨ (r' = r ∧ q = request)) s'.functions s'.module.symbols
  grants : ∀ inst, env.Has s'.functions r inst → inst.Grants s'.module.symbols request

theorem toNat_ofInt_wrapSigned (n : UInt64) :
    (UInt64.ofInt (wrapSigned n.toNat)).toNat = n.toNat := by
  have hlt := n.toNat_lt
  have hmod : (n.toNat : Int).bmod UInt64.size % 2 ^ 64 = n.toNat % 2 ^ 64 := Int.bmod_emod
  rw [UInt64.ofInt, UInt64.toNat_ofNat', wrapSigned, hmod]
  omega

theorem Ensures.sizeStack {env : Env} {c : Context} {r : InstanceRef} {inst : Instance}
    (h : World env c.session.functions c.session.module c.session.scope)
    (hi : env.Has c.session.functions r inst) {f : Function}
    (hf : c.session.functions[r.function]? = some f) (request : Int) :
    Ensures (Program.sizeStack r request) c fun _ c' =>
      c'.draft = c.draft ∧ Sizes env r request c.session c'.session := by
  simp only [Program.sizeStack, ensures_ops, hi.2, hf, Option.getD_some]
  split
  · next hsized =>
    -- the depth is fixed already, and a request has to be for this depth
    simp only [ensures_ops, ensures_ite, implies_true, true_and]
    intro hagree
    have hgrants : inst.Grants c.session.module.symbols request := by
      refine ⟨hsized, fun hpos => ?_⟩
      have hfixed : request = instanceDepth c.session.module.symbols inst := by
        by_contra hne
        exact hagree ⟨by omega, hne⟩
      rw [hfixed, instanceDepth, toNat_ofInt_wrapSigned]
      rfl
    have hall : ∀ inst', env.Has c.session.functions r inst' →
        inst'.Grants c.session.module.symbols request := by
      intro inst' hi'
      obtain rfl : inst' = inst := Option.some.inj (hi'.2.symm.trans hi.2)
      exact hgrants
    refine ⟨(Advances.refl h).toMoves, fun hd => hd.reask (fun _ _ => .inl) ?_, hall⟩
    rintro r' q (hq | ⟨rfl, rfl⟩)
    · exact .inl hq
    · exact .inr ⟨inst, hi, hgrants⟩
  · next hsized =>
    have key : ∀ s' : Session,
        s'.functions = (c.session.functions.modify r.function fun f =>
          { f with instances := f.instances.modify r.position ({ · with sized := true }) }) →
        s'.module = c.session.module.modifySymbols (resized · inst (stackDepth f inst request)) →
        s'.scope = c.session.scope → Sizes env r request c.session s' := by
      intro s' hfs hm hs
      have hc : ∀ inst : Instance, inst.Same { inst with sized := true } := fun inst =>
        ⟨rfl, fun _ => rfl⟩
      have hworld := h.modifyInstance r hc
      have hwidens : Widens env c.session.functions _ c.session.module.symbols
        c.session.module.symbols := .modifyInstance r hc
      obtain ⟨inst', hi', hsame⟩ := hwidens.instances r inst hi
      have hres : (resized · inst (stackDepth f inst request)) =
          (resized · inst' (stackDepth f inst request)) := by
        rw [hsame.eq]
        rfl
      have hdepths : ∀ {asked}, Depths env asked c.session.functions c.session.module.symbols →
          Depths env (fun r' q => asked r' q ∨ (r' = r ∧ q = request)) s'.functions
            s'.module.symbols := by
        intro asked hd
        rw [hfs, hm]
        exact hd.size h.stacked h.stacks_apart hi hf (by simpa using hsized) request
      refine ⟨⟨?_, ?_, by rw [hm]; rfl, by simp [hfs], fun r₁ inst₁ hi₁ => ?_⟩, hdepths,
        fun inst₁ hi₁ => ?_⟩
      · rw [hfs, hm, hs, hres]
        exact hworld.resize hi' (le_max_of_le_right zero_le_one)
      · rw [hfs, hm]
        exact hwidens.trans (.resize inst _)
      · rw [hfs] at hi₁
        obtain ⟨inst₂, hi₂, rfl⟩ := hi₁.of_modifyInstance
        refine ⟨inst₂, hi₂, ?_⟩
        split
        · exact ⟨hc inst₂, rfl⟩
        · exact ⟨.refl inst₂, rfl⟩
      · rw [hfs] at hi₁
        obtain ⟨inst₂, hi₂, rfl⟩ := hi₁.of_modifyInstance
        obtain rfl : inst₂ = inst := Option.some.inj (hi₂.2.symm.trans hi.2)
        rw [if_pos rfl, hm]
        exact grants_resized (h.stacked r inst₂ hi) f request
    simp only [modifyInstance, modifyFunction, ensures_ops, ensures_ite]
    exact ⟨fun _ => ⟨rfl, key _ rfl rfl rfl⟩, fun _ => ⟨trivial, key _ rfl rfl rfl⟩⟩

/-! ## Making an instance -/

/-- The memories of the arguments come after all other signals. -/
theorem Ensures.declareArgs (stem : String) (xs : List (SignalType × Nat)) {c : Context}
    {Q : List SignalId → Context → Prop}
    (h : ∀ ids m, c.session.module.Expands m → ids.length = xs.length → ids.Nodup →
      (∀ d ∈ ids, c.session.module.symbols.signals.size ≤ d ∧ ∃ x, m.symbols.signals[d]? = some x ∧
        x.declared = true ∧ x.kind = .memory ∧ x.depth = 1) →
      Q ids { c with session := { c.session with module := m } }) :
    Ensures (xs.mapM fun (t, i) => declare (·.addMemory (stem ++ "_arg" ++ toString i) t 1)) c Q := by
  induction xs generalizing c Q with
  | nil => simpa using h [] _ (.refl _) rfl .nil (by simp)
  | cons a xs ih =>
    obtain ⟨t, i⟩ := a
    rw [List.mapM_cons, ensures_bind, ensures_declare, ensures_bind]
    refine ih fun ids m hm hlen hnodup hids => ?_
    simp only [ensures_pure]
    have hdecl := c.session.module.declare_expands (stem ++ "_arg" ++ toString i) .memory t 0 1
    refine h _ m (hdecl.trans hm) (by simp [hlen]) (List.nodup_cons.mpr ⟨fun hd => ?_, hnodup⟩)
      fun d hd => ?_
    · have hle := (hids _ hd).1
      simp [Module.addMemory, Module.declare, Module.declareAt_fst, Module.declareAt_size] at hle
    · rcases List.mem_cons.mp hd with rfl | hd
      · obtain ⟨x, hx, -, hkind, -, hdepth, hdeclared⟩ :=
          (c.session.module.newType t).2.declareAt_signal (stem ++ "_arg" ++ toString i) .memory
            c.session.module.symbols.types.size 0 1
        exact ⟨le_refl _, x, hm.symbols.signals _ x hx, hdeclared, hkind, hdepth⟩
      · obtain ⟨hle, hx⟩ := hids d hd
        exact ⟨hdecl.symbols.size.trans hle, hx⟩

/-- A stack made of new symbols. -/
structure NewStack (env : Env) (m m' : Module) (inst : Instance) : Prop where
  expands : m.Expands m'
  stacked : Stacked m'.symbols env.code inst
  signals : ∀ d ∈ inst.stack, m.symbols.signals.size ≤ d
  type : m.symbols.types.size ≤ inst.spType
  ret : m.symbols.signals.size ≤ inst.ret ∧ inst.ret ∉ inst.stack
  ret_type : ∃ x t u, m'.symbols.signals[inst.ret]? = some x ∧ x.type = some t ∧
    m'.symbols.types[t]? = some u ∧ m.symbols.types.size ≤ t ∧ t ≠ inst.spType
  unsized : inst.sized = false
  room : inst.room m'.symbols = 1
  words : ∀ d ∈ inst.returnAddr :: inst.args, ∃ x, m'.symbols.signals[d]? = some x ∧ x.depth = 1
  entry : inst.entry = 0

namespace NewStack

variable {env : Env} {fs : Array Function} {m m' : Module} {sc : Script.Scope} {inst : Instance}
variable {fn : Nat} {f : Function}

theorem has_cases (hf : fs[fn]? = some f) {r : InstanceRef} {inst' : Instance}
    (h : env.Has (fs.modify fn fun f => { f with instances := f.instances.push inst }) r inst') :
    (r = ⟨fn, f.instances.size⟩ ∧ inst' = inst) ∨
      (r ≠ ⟨fn, f.instances.size⟩ ∧ env.Has fs r inst') := by
  obtain ⟨hb, hi⟩ := h
  rw [instance?_pushInstance hf] at hi
  split at hi
  · next hr => exact .inl ⟨hr, (Option.some.inj hi).symm⟩
  · next hr => exact .inr ⟨hr, hb, hi⟩

theorem has_new (hf : fs[fn]? = some f) (hb : env.base ≤ fn) :
    env.Has (fs.modify fn fun f => { f with instances := f.instances.push inst })
      ⟨fn, f.instances.size⟩ inst :=
  ⟨hb, by rw [instance?_pushInstance hf, if_pos rfl]⟩

theorem has_old (hf : fs[fn]? = some f) {r : InstanceRef} {inst' : Instance}
    (h : env.Has fs r inst') :
    env.Has (fs.modify fn fun f => { f with instances := f.instances.push inst }) r inst' := by
  refine ⟨h.1, ?_⟩
  rw [instance?_pushInstance hf]
  split
  · next hr =>
    have hi := h.2
    rw [hr, instance?, hf] at hi
    simp at hi
  · exact h.2

theorem made_cases (hf : fs[fn]? = some f) {d : SignalId}
    (h : env.Made (fs.modify fn fun f => { f with instances := f.instances.push inst }) d) :
    d ∈ inst.stack ∨ env.Made fs d := by
  rcases h with hd | hd | ⟨r, inst', hi, hd⟩
  · exact .inr (.inl hd)
  · exact .inr (.inr (.inl hd))
  · rcases has_cases hf hi with ⟨-, rfl⟩ | ⟨-, hi⟩
    · exact .inl hd
    · exact .inr (.inr (.inr ⟨r, inst', hi, hd⟩))

theorem widens (h : NewStack env m m' inst) (hf : fs[fn]? = some f) :
    Widens env fs (fs.modify fn fun f => { f with instances := f.instances.push inst })
      m.symbols m'.symbols where
  signals := h.expands.symbols.size
  names _ hd := h.expands.symbols.signalName hd
  links := h.expands.symbols.links_size
  handlers fn' f' _ hf' := by
    rw [Array.getElem?_modify, hf']
    split
    · exact ⟨_, rfl, rfl, rfl⟩
    · exact ⟨f', rfl, rfl, rfl⟩
  instances r inst' hi := ⟨inst', has_old hf hi, .refl inst'⟩
  made d hd hm := (made_cases hf hm).resolve_left fun hx => Nat.not_lt.mpr (h.signals d hx) hd

theorem depths (h : NewStack env m m' inst) (hf : fs[fn]? = some f) (hw : World env fs m sc)
    {asked : InstanceRef → Int → Prop} (hd : Depths env asked fs m.symbols) :
    Depths env asked (fs.modify fn fun f => { f with instances := f.instances.push inst })
      m'.symbols := by
  have hd' := hd.grow hw.stacked h.expands.symbols
  refine ⟨fun r request hr => ?_, fun r inst' hi' hs => ?_, fun r inst' f' hi' hf' hs => ?_⟩
  · obtain ⟨inst', hi', hgrants⟩ := hd'.grants r request hr
    exact ⟨inst', has_old hf hi', hgrants⟩
  · rcases has_cases hf hi' with ⟨-, rfl⟩ | ⟨-, hi⟩
    · exact h.room
    · exact hd'.unsized r inst' hi hs
  · rcases has_cases hf hi' with ⟨-, rfl⟩ | ⟨-, hi⟩
    · rw [h.unsized] at hs
      exact absurd hs Bool.false_ne_true
    · obtain ⟨f₀, hf₀, -⟩ := Option.bind_eq_some_iff.mp hi.2
      have hdepth : f'.depth = f₀.depth := by
        rw [Array.getElem?_modify, hf₀] at hf'
        split at hf' <;> obtain rfl := Option.some.inj hf' <;> rfl
      simp only [stackDepth_congr hdepth rfl]
      exact hd'.sized r inst' f₀ hi hf₀ hs

theorem world (h : NewStack env m m' inst) (hw : World env fs m sc) (hf : fs[fn]? = some f) :
    World env (fs.modify fn fun f => { f with instances := f.instances.push inst }) m' sc := by
  have hg := hw.grow h.expands
  have hold : ∀ {d : SignalId}, d ∈ inst.stack → ¬ env.Made fs d := fun hx hm =>
    Nat.not_lt.mpr (h.signals _ hx) (hw.made_lt hm)
  have hcode : env.code < m.symbols.types.size := by
    obtain ⟨t, ht⟩ := hw.code
    exact (Array.getElem?_eq_some_iff.mp ht).1
  have htypes : ∀ r inst', env.Has fs r inst' → inst'.spType < m.symbols.types.size :=
    fun r inst' hi => (Array.getElem?_eq_some_iff.mp (hw.stacked r inst' hi).width).1
  refine ⟨hg.current, hg.next, hg.flag, hg.apart, hg.code, fun r inst' hi => ?_, fun r inst' hi => ?_,
    fun r₁ r₂ i₁ i₂ h₁ h₂ d hd₁ hd₂ => ?_, fun r₁ r₂ i₁ i₂ h₁ h₂ ht => ?_, fun r inst' hi => ?_,
    fun r inst' hi => ?_, fun p hp => ?_, by simpa using hg.base, hg.callable_modify fun _ => rfl,
    fun fn' f' hb hf' => ?_⟩
  · rcases has_cases hf hi with ⟨-, rfl⟩ | ⟨-, hi⟩
    · exact h.stacked
    · exact hg.stacked r inst' hi
  · rcases has_cases hf hi with ⟨-, rfl⟩ | ⟨-, hi⟩
    · exact ⟨fun hx => hold hx (.inl rfl), fun hx => hold hx (.inr (.inl rfl))⟩
    · exact hg.machine_apart r inst' hi
  · rcases has_cases hf h₁ with ⟨rfl, rfl⟩ | ⟨-, o₁⟩ <;>
      rcases has_cases hf h₂ with ⟨rfl, rfl⟩ | ⟨-, o₂⟩
    · rfl
    · exact absurd (.inr (.inr ⟨r₂, i₂, o₂, hd₂⟩)) (hold hd₁)
    · exact absurd (.inr (.inr ⟨r₁, i₁, o₁, hd₁⟩)) (hold hd₂)
    · exact hg.stacks_apart r₁ r₂ i₁ i₂ o₁ o₂ d hd₁ hd₂
  · rcases has_cases hf h₁ with ⟨rfl, rfl⟩ | ⟨-, o₁⟩ <;>
      rcases has_cases hf h₂ with ⟨rfl, rfl⟩ | ⟨-, o₂⟩
    · rfl
    · exact absurd (htypes r₂ i₂ o₂) (Nat.not_lt.mpr (ht ▸ h.type))
    · exact absurd (htypes r₁ i₁ o₁) (Nat.not_lt.mpr (ht ▸ h.type))
    · exact hg.types_apart r₁ r₂ i₁ i₂ o₁ o₂ ht
  · rcases has_cases hf hi with ⟨-, rfl⟩ | ⟨-, hi⟩
    · exact fun hx => Nat.not_lt.mpr (hx ▸ h.type) hcode
    · exact hg.code_apart r inst' hi
  · rcases has_cases hf hi with ⟨-, rfl⟩ | ⟨-, hi⟩
    · obtain ⟨x, t, u, hx, hxt, hu, hle, hne⟩ := h.ret_type
      refine ⟨fun hm => ?_, x, t, u, hx, hxt, hu, fun hc => Nat.not_lt.mpr hle (hc ▸ hcode),
        fun r₂ i₂ h₂ => ?_⟩
      · rcases made_cases hf hm with hm | hm
        · exact h.ret.2 hm
        · exact Nat.not_lt.mpr h.ret.1 (hw.made_lt hm)
      · rcases has_cases hf h₂ with ⟨-, rfl⟩ | ⟨-, o₂⟩
        · exact hne.symm
        · exact fun hc => Nat.not_lt.mpr hle (hc ▸ htypes r₂ i₂ o₂)
    · obtain ⟨hm, x, t, u, hx, hxt, hu, hne, hall⟩ := hw.returns r inst' hi
      have hlt : inst'.ret < m.symbols.signals.size := (Array.getElem?_eq_some_iff.mp hx).1
      have htlt : t < m.symbols.types.size := (Array.getElem?_eq_some_iff.mp hu).1
      refine ⟨fun hm' => ?_, x, t, u, h.expands.symbols.signals _ x hx, hxt,
        h.expands.symbols.types _ u hu, hne, fun r₂ i₂ h₂ => ?_⟩
      · rcases made_cases hf hm' with hm' | hm'
        · exact Nat.not_lt.mpr (h.signals _ hm') hlt
        · exact hm hm'
      · rcases has_cases hf h₂ with ⟨-, rfl⟩ | ⟨-, o₂⟩
        · exact fun hc => Nat.not_lt.mpr h.type (hc ▸ htlt)
        · exact hall r₂ i₂ o₂
  · obtain ⟨hlt, hm⟩ := hw.names p hp
    refine ⟨(hg.names p hp).1, fun hm' => ?_⟩
    rcases made_cases hf hm' with hm' | hm'
    · exact Nat.not_lt.mpr (h.signals _ hm') hlt
    · exact hm hm'
  · rw [Array.getElem?_modify] at hf'
    split at hf'
    · obtain ⟨f₀, hf₀, rfl⟩ := Option.map_eq_some_iff.mp hf'
      exact hw.bodies fn' f₀ hb hf₀
    · exact hw.bodies fn' f' hb hf'

end NewStack

/-- The declarations of an instance: pointer and depth, then the memories, then the register. -/
theorem newStack_of_declared (env : Env) {m m₃ : Module} {args : List SignalId}
    {types : List SignalType} (n₁ n₂ n₃ n₄ : String) (t : SignalType) (resolved : Bool) :
    let ty := m.newType (.unsigned 1)
    let sp := ty.2.declareAt n₁ .reg ty.1 0 0
    let depth := sp.2.declareAt n₂ .const ty.1 1 0
    let addr := m₃.declareAt n₃ .memory env.code 0 1
    let ret := addr.2.addReg n₄ t
    depth.2.Expands m₃ → args.length = types.length → args.Nodup →
    (∀ d ∈ args, depth.2.symbols.signals.size ≤ d ∧ ∃ x, m₃.symbols.signals[d]? = some x ∧
      x.declared = true ∧ x.kind = .memory ∧ x.depth = 1) →
    NewStack env m ret.2
      { argTypes := types, args := args, returnAddr := addr.1, sp := sp.1, depth := depth.1,
        ret := ret.1, spType := ty.1, resolved := resolved } := by
  intro ty sp depth addr ret hm hlen hnodup hargs
  have hty : m.Expands ty.2 := m.newType_expands _
  have hsp : ty.2.Expands sp.2 := ty.2.declareAt_expands ..
  have hdepth : sp.2.Expands depth.2 := sp.2.declareAt_expands ..
  have haddr : m₃.Expands addr.2 := m₃.declareAt_expands ..
  have hret : addr.2.Expands ret.2 := addr.2.declare_expands ..
  have hsp₁ : m.symbols.signals.size = sp.1 := rfl
  have hdepth₁ : m.symbols.signals.size + 1 = depth.1 := (ty.2.declareAt_size ..).symm
  have hsize : depth.2.symbols.signals.size = m.symbols.signals.size + 2 := by
    have h₁ : sp.2.symbols.signals.size = m.symbols.signals.size + 1 := ty.2.declareAt_size ..
    have h₂ : depth.2.symbols.signals.size = sp.2.symbols.signals.size + 1 := sp.2.declareAt_size ..
    rw [h₂, h₁]
  have hsize₃ : m.symbols.signals.size + 2 ≤ m₃.symbols.signals.size := hsize ▸ hm.symbols.size
  have haddr₁ : m₃.symbols.signals.size = addr.1 := rfl
  have hret₁ : m₃.symbols.signals.size + 1 = ret.1 := (m₃.declareAt_size ..).symm
  have hargs' : ∀ d : Nat, d ∈ args → m.symbols.signals.size + 2 ≤ d ∧ d < m₃.symbols.signals.size := by
    intro d hd
    obtain ⟨hle, x, hx, -⟩ := hargs d hd
    exact ⟨hsize ▸ hle, (Array.getElem?_eq_some_iff.mp hx).1⟩
  have htop : m₃.Expands ret.2 := haddr.trans hret
  have hend : sp.2.Expands ret.2 := (hdepth.trans hm).trans htop
  obtain ⟨x₁, hx₁, htype₁, hkind₁, -, -, hdecl₁⟩ := ty.2.declareAt_signal n₁ .reg ty.1 0 0
  obtain ⟨x₂, hx₂, htype₂, hkind₂, hvalue₂, -, hdecl₂⟩ := sp.2.declareAt_signal n₂ .const ty.1 1 0
  obtain ⟨x₃, hx₃, htype₃, hkind₃, -, hdepth₃, hdecl₃⟩ :=
    m₃.declareAt_signal n₃ .memory env.code 0 1
  obtain ⟨x₄, hx₄, htype₄, -⟩ :=
    (addr.2.newType t).2.declareAt_signal n₄ .reg addr.2.symbols.types.size 0 0
  have hg₁ : ret.2.symbols.signals[sp.1]? = some x₁ := hend.symbols.signals _ _ hx₁
  have hg₂ : ret.2.symbols.signals[depth.1]? = some x₂ := (hm.trans htop).symbols.signals _ _ hx₂
  have hg₃ : ret.2.symbols.signals[addr.1]? = some x₃ := hret.symbols.signals _ _ hx₃
  have hwidth : ret.2.symbols.types[ty.1]? = some (.unsigned 1) :=
    (hsp.trans hend).symbols.types _ _ Array.getElem?_push_size
  have hroom : ((ret.2.symbols.signals[depth.1]?.map Signal.value).getD 0).toNat = 1 := by
    rw [hg₂, Option.map_some, hvalue₂]
    rfl
  have htypes : m.symbols.types.size + 1 ≤ addr.2.symbols.types.size := by
    have h₁ : ty.2.symbols.types.size = m.symbols.types.size + 1 := Array.size_push ..
    rw [← h₁]
    exact (((hsp.trans hdepth).trans hm).trans haddr).symbols.types_size
  refine ⟨(hty.trans hsp).trans hend, ⟨⟨x₁, hg₁, hdecl₁, hkind₁, htype₁⟩,
    ⟨x₂, hg₂, hdecl₂, hkind₂, htype₂⟩, ?_, fun d hd => ?_, ⟨x₃, hg₃, htype₃⟩, ?_, hlen⟩,
    fun d hd => ?_, le_refl _, ⟨?_, fun hd => ?_⟩, ⟨x₄, _, t, hx₄, htype₄,
    Array.getElem?_push_size, ?_, ?_⟩, rfl, hroom, fun d hd => ?_, rfl⟩
  · rw [Instance.room, hroom]
    exact hwidth
  · rw [Instance.room, hroom]
    rcases List.mem_cons.mp hd with rfl | hd
    · exact ⟨x₃, hg₃, hdecl₃, hkind₃, hdepth₃.ge⟩
    · obtain ⟨-, x, hx, hdecl, hkind, hdepth⟩ := hargs d hd
      exact ⟨x, htop.symbols.signals _ _ hx, hdecl, hkind, hdepth.ge⟩
  · simp only [Instance.stack, List.nodup_cons, List.mem_cons, not_or]
    refine ⟨⟨Nat.ne_of_lt (by omega), Nat.ne_of_lt (by omega), fun hd => ?_⟩,
      ⟨Nat.ne_of_lt (by omega), fun hd => ?_⟩, fun hd => ?_, hnodup⟩ <;>
    · have := hargs' _ hd
      omega
  · simp only [Instance.stack, List.mem_cons] at hd
    rcases hd with rfl | rfl | rfl | hd
    · omega
    · omega
    · omega
    · have := hargs' d hd
      omega
  · change m.symbols.signals.size ≤ ret.1
    omega
  · simp only [Instance.stack, List.mem_cons] at hd
    rcases hd with hd | hd | hd | hd
    · exact Nat.ne_of_gt (by omega) hd
    · exact Nat.ne_of_gt (by omega) hd
    · exact Nat.ne_of_gt (by omega) hd
    · have := hargs' _ hd
      omega
  · omega
  · have hlt : m.symbols.types.size < addr.2.symbols.types.size := by omega
    exact Nat.ne_of_gt hlt
  · rcases List.mem_cons.mp hd with rfl | hd
    · exact ⟨x₃, hg₃, hdepth₃⟩
    · obtain ⟨-, x, hx, -, -, hdepth⟩ := hargs d hd
      exact ⟨x, htop.symbols.signals _ _ hx, hdepth⟩

/-- The instance takes arguments of the given types, and its register has the type that the function
declares, if it declares one. -/
structure Instance.Serves (g : Symbols) (f : Function) (types : List SignalType) (inst : Instance) :
    Prop where
  argTypes : inst.argTypes = types
  resolved : inst.resolved = f.returns.isSome
  register : g.signalType inst.ret = some (f.returns.getD (.unsigned 0))

theorem signalType_addReg (m : Module) (name : String) (t : SignalType) :
    (m.addReg name t).2.symbols.signalType (m.addReg name t).1 = some t := by
  obtain ⟨x, hx, htype, -⟩ := (m.newType t).2.declareAt_signal name .reg m.symbols.types.size 0 0
  have hsignal : (m.addReg name t).2.symbols.signals[(m.addReg name t).1]? = some x := hx
  rw [Symbols.signalType, hsignal, Option.bind_some, htype]
  exact Array.getElem?_push_size

theorem Ensures.instantiate {env : Env} {c : Context} {fn : Nat} {f : Function}
    {types : List SignalType} {Q : InstanceRef → Context → Prop}
    (hf : c.session.functions[fn]? = some f) (hcode : c.draft.machine.type = env.code)
    (h : ∀ inst c', c.draft.building.length < maxElaboration →
      NewStack env c.session.module c'.session.module inst →
      inst.Serves c'.session.module.symbols f types →
      (∃ message, c'.session.reporter = c.session.reporter.map (·.note f.name message)) →
      c'.session.functions = (c.session.functions.modify fn fun f =>
        { f with instances := f.instances.push inst }) →
      c'.session.scope = c.session.scope →
      c'.draft = { c.draft with machine := { c.draft.machine with
        onReset := c.draft.machine.onReset ++
          [.assign inst.sp none (.const 0 (some inst.spType))] } } →
      Q ⟨fn, f.instances.size⟩ c') :
    Ensures (instantiate fn types) c Q := by
  simp only [Program.instantiate, ensures_ops, hf, Option.getD_some, ensures_ite, implies_true,
    true_and]
  intro hroom
  refine .declareArgs _ _ fun args m hm hlen hnodup hargs => ?_
  simp only [ensures_ops, modifyFunction]
  refine h _ _ (Nat.lt_of_not_le hroom) ?_ ⟨rfl, rfl, ?_⟩ ⟨_, rfl⟩ rfl rfl rfl
  · rw [hcode]
    exact newStack_of_declared env _ _ _ _ _ _ hm (by simpa using hlen) hnodup hargs
  · exact signalType_addReg (m.declareAt _ .memory c.draft.machine.type 0 1).2 _ _

end Lockstep.Program
