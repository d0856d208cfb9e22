import Lockstep.Proofs.Program.Widths

/-!
# Careful elaboration keeps widths in order

Declarations, counts and calls, and with them every command of the language. A new stack brings signals
of its own, and its return register may stay without a width until the program ends.
-/

namespace Lockstep.Program

variable {n : Nat} {g : Symbols} {c c' : Context}
variable {f : Function} {inst : Instance} {r : InstanceRef} {depth : Int} {fn : Nat}
  {kind : SignalKind} {t : SignalType}

/-! ## Declarations -/

/-- A new signal whose type has a width. -/
theorem Fitted.declareAt (h : Fitted n c) (name : String) {type : TypeId} (value : UInt64)
    (ht : (c.session.module.symbols.type? (some type)).isResolved = true)
    (hd : kind = .memory → 0 < depth) : Forward n c { c with session := { c.session with
      module := (c.session.module.declareAt name kind type value depth).2 } } := by
  have hm := c.session.module.declareAt_expands name kind type value depth
  refine h.retable rfl (.of_grows hm.symbols) hm.processes rfl fun i x hge hx => ?_
  have hi : i = c.session.module.symbols.signals.size := by
    have hlt := (Array.getElem?_eq_some_iff.mp hx).1
    rw [Module.declareAt_size] at hlt
    exact Nat.le_antisymm (Nat.lt_succ_iff.mp hlt) hge
  obtain ⟨y, hy, htype, hkind, -, hdepth, -⟩ :=
    c.session.module.declareAt_signal name kind type value depth
  obtain rfl : y = x := Option.some.inj (hy.symm.trans (hi ▸ hx))
  refine ⟨fun _ hk => hdepth ▸ hd (hkind ▸ hk), ?_⟩
  cases hu : c.session.module.symbols.types[type]? with
  | none => simp [Symbols.type?, hu, TypeSlot.isResolved] at ht
  | some u =>
    simp only [Symbols.type?, Option.bind_some, hu, TypeSlot.isResolved_some] at ht
    exact ⟨type, u, htype, hm.symbols.types _ u hu, ht.2, .inl ht.1⟩

theorem Fitted.newType (h : Fitted n c) (t : SignalType) :
    Forward n c { c with session := { c.session with module := (c.session.module.newType t).2 } } :=
  h.expand (c.session.module.newType_expands t) rfl

theorem isResolved_newType (m : Module) (ht : TypeSlot.isResolved (some t) = true) :
    ((m.newType t).2.symbols.type? (some (m.newType t).1)).isResolved = true := by
  simpa [Module.newType, Symbols.newType, Symbols.type?] using ht

/-- A new signal with a type of its own. -/
theorem Fitted.declare (h : Fitted n c) (name : String) (value : UInt64)
    (ht : TypeSlot.isResolved (some t) = true) (hd : kind = .memory → 0 < depth) :
    Forward n c { c with session := { c.session with
      module := (c.session.module.declare name kind t value depth).2 } } := by
  have h₁ := h.newType t
  exact h₁.trans (h₁.fitted.declareAt name value (isResolved_newType _ ht) hd)

theorem Forwards.declareBound (command name : String) (ht : TypeSlot.isResolved (some t) = true)
    (hd : kind = .memory → 0 < depth) :
    Forwards n (declareBound command name (·.declare name kind t 0 depth)) := fun c h => by
  simp only [Program.declareBound, ensures_ops, ensures_record]
  have h₁ := h.declare name 0 ht hd
  exact h₁.trans (h₁.fitted.redraft rfl rfl h₁.fitted.coded ⟨rfl, rfl, rfl⟩ rfl rfl
    h₁.fitted.building)

/-! ## Counts -/

theorem isResolved_of_pos (hw : t.width ≤ maxWidth) (hp : 0 < t.width) :
    TypeSlot.isResolved (some t) = true := TypeSlot.isResolved_some.mpr ⟨hp, hw⟩

/-- The type that is shared is the type of the expression. -/
theorem shareType_type {e : Expr} (ht : g.typeOf e = some t) {i : TypeId} {g' : Symbols}
    (h : g.shareType e = some (i, g')) : g'.type? (some i) = some t ∧ g'.signals = g.signals := by
  induction e with
  | hole => simp [Symbols.shareType] at h
  | ref j | index j e ih =>
    obtain ⟨k, hk, hi⟩ := Option.map_eq_some_iff.mp h
    obtain ⟨rfl, rfl⟩ := Prod.mk.inj hi
    obtain ⟨x, hx, hxt⟩ := Option.bind_eq_some_iff.mp hk
    rw [Symbols.typeOf, Symbols.signalType, hx, Option.bind_some, hxt] at ht
    exact ⟨ht, rfl⟩
  | lit v o =>
    obtain ⟨k, rfl, hi⟩ := Option.map_eq_some_iff.mp h
    obtain ⟨rfl, rfl⟩ := Prod.mk.inj hi
    exact ⟨ht, rfl⟩
  | not e ih => exact ih ht h
  | bin op l r ihl ihr | cmp p l r ihl ihr =>
    obtain ⟨u, hu, hi⟩ := Option.map_eq_some_iff.mp h
    obtain ⟨rfl, rfl⟩ := Prod.mk.inj hi
    rw [Symbols.knownType] at hu
    split at hu
    · cases hu.symm.trans ht
      exact ⟨by simp [Symbols.type?], rfl⟩
    · simp at hu

theorem Ensures.stepIfWaiting_module (h : Fitted n c) :
    Ensures stepIfWaiting c fun _ c' => Forward n c c' ∧ c'.session.module = c.session.module := by
  simp only [Program.stepIfWaiting, ensures_ops, ensures_ite]
  exact ⟨fun _ => .step fun f _ => ⟨h.cut f, rfl⟩, fun _ => ⟨.refl h, trivial⟩⟩

theorem Fitted.count (h : Fitted n c) {limit : Expr} {body : Expr → ElabM Unit}
    (hbody : ∀ i, Forwards n (body i)) (hl : limit.Sound c.session.module.symbols)
    (ht : c.session.module.symbols.typeOf limit = some t) (hp : 0 < t.width) :
    Ensures (count limit body) c fun _ => Forward n c := by
  obtain ⟨u, hu, hw⟩ := hl.typeOf
  obtain rfl : u = t := Option.some.inj (hu.symm.trans ht)
  have hres := isResolved_of_pos hw hp
  simp only [Program.count, ensures_bind, ensures_getSymbols, ensures_require, ensures_modifyModule,
    ensures_declare]
  refine (Ensures.stepIfWaiting_module h).mono ?_
  rintro _ c₁ ⟨h₁, hm₁⟩ ⟨type, g₂⟩ hshare
  rw [hm₁] at hshare ⊢
  obtain ⟨htype, hsig⟩ := shareType_type ht hshare
  -- the index shares the type of the limit, which has a width
  have h₂ : Forward n c₁ { c₁ with session := { c₁.session with
      module := { c.session.module with symbols := g₂ } } } :=
    h₁.fitted.retype rfl (.of_grows (by rw [hm₁]; exact Symbols.shareType_grows hshare))
      (by rw [hm₁, hsig]) (by rw [hm₁]) rfl
  have hres₂ : (g₂.type? (some type)).isResolved = true := by rw [htype]; exact hres
  have h₃ := h₂.fitted.declareAt "i" 0 hres₂
    (by simp : SignalKind.reg = .memory → (0 : Int) < 0)
  have hres₃ := isResolved_refit h₃.refits hres₂
  have hindex₃ : (Expr.ref g₂.signals.size).Sound _ := h₃.fitted.sound_ref (by
    obtain ⟨x, hx, -⟩ := Module.declareAt_signal { c.session.module with symbols := g₂ } "i" .reg
      type 0 0
    exact Option.isSome_iff_exists.mpr ⟨x, hx⟩)
  refine (h₃.fitted.emit (Stmt.sound_assign _ (Expr.sound_lit (.value 0) hres₃))).mono fun _ c₄ h₄ => ?_
  have hk := ((h₁.trans h₂).trans h₃).trans h₄
  have hres₄ := isResolved_refit h₄.refits hres₃
  have hlimit := hl.refit hk.refits
  have hnext : (Expr.plus (.ref g₂.signals.size) (.const 1 (some type))).Sound
      c₄.session.module.symbols := ⟨hindex₃.refit h₄.refits, Expr.sound_lit (.value 1) hres₄⟩
  refine .relate (Expr.sound_lit (.value 0) hres₄) hlimit fun head hhead => ?_
  refine .relate hnext hlimit fun tail htail => ?_
  refine (h₄.fitted.loop (hbody _) (fun e he => Option.some.inj he ▸ hhead)
    (fun e he => Option.some.inj he ▸ htail) (fun st hst => ?_)).mono fun _ c₅ h₅ => hk.trans h₅
  cases hst
  exact Stmt.sound_assign _ hnext

theorem bitsFor_resolved (v : UInt64) :
    TypeSlot.isResolved (some (.unsigned (bitsFor v.toNat))) = true := by
  have hle : bitsFor v.toNat ≤ 64 := bitsFor_le (by decide) v.toNat_lt
  have hpos := bitsFor_pos v.toNat
  rw [TypeSlot.isResolved_some]
  simp only [SignalType.unsigned, maxWidth]
  omega

theorem Forwards.times {body : Expr → ElabM Unit} (hbody : ∀ i, Forwards n (body i)) (v : UInt64) :
    Forwards n (times v body) := fun c h => by
  simp only [Program.times, Program.exactNumber, ensures_ops]
  have h₁ := h.newType (.unsigned (bitsFor v.toNat))
  have hres := isResolved_newType c.session.module (bitsFor_resolved v)
  have htype : (c.session.module.newType (.unsigned (bitsFor v.toNat))).2.symbols.typeOf
      (.const v (some c.session.module.symbols.types.size)) =
        some (.unsigned (bitsFor v.toNat)) := by
    simp [Expr.const, Symbols.typeOf, Module.newType, Symbols.newType, Symbols.type?]
  exact (h₁.fitted.count hbody (Expr.sound_lit (.value v) hres) htype
    (TypeSlot.isResolved_some.mp (bitsFor_resolved v)).1).mono fun _ c₂ h₂ => h₁.trans h₂

/-! ## Instances -/

theorem Instance.Held.same {inst' : Instance} (h : inst.Held n g) (hs : inst.Same inst') :
    inst'.Held n g := by
  rw [hs.eq]
  exact ⟨h.sp, h.depth, h.memories, h.pointer, h.ret⟩

/-- Records of instances and functions change, but not what they stand for. -/
theorem Fitted.refunction (h : Fitted n c) (hm : c'.session.module = c.session.module)
    (hd : c'.draft = c.draft)
    (hold : ∀ r inst, instance? c.session.functions r = some inst →
      ∃ inst', instance? c'.session.functions r = some inst' ∧ inst.Same inst')
    (hnew : ∀ r inst', instance? c'.session.functions r = some inst' →
      ∃ inst, instance? c.session.functions r = some inst ∧ inst.Same inst')
    (hf : ∀ (fn : Nat) f, c.session.functions[fn]? = some f →
      ∃ f', c'.session.functions[fn]? = some f' ∧ f'.returns = f.returns) : Forward n c c' := by
  have hpending : ∀ t, c.Pending t → c'.Pending t := by
    rintro t ⟨r, inst, x, ⟨hfn, hi⟩, hx, hxt⟩
    obtain ⟨inst', hi', hs⟩ := hold r inst hi
    exact ⟨r, inst', x, ⟨hd ▸ hfn, hi'⟩, by rw [hm, hs.ret]; exact hx, hxt⟩
  have howns : ∀ r inst, c.Owns r inst → ∃ inst', c'.Owns r inst' := by
    rintro r inst ⟨hfn, hi⟩
    obtain ⟨inst', hi', -⟩ := hold r inst hi
    exact ⟨inst', hd ▸ hfn, hi'⟩
  refine ⟨⟨fun i x hx => ?_, ?_, ?_, ?_, ?_, ?_, ?_, fun fn hfn => ?_, fun r hr => ?_⟩, hm ▸ .refl n _,
    howns, fun fn hfn => hd ▸ hfn, by rw [hm]⟩
  · rw [hm] at hx ⊢
    obtain ⟨hdepth, j, t, hj, ht, hw, hp⟩ := h.signals i x hx
    exact ⟨hdepth, j, t, hj, ht, hw, hp.imp_right (hpending j)⟩
  · rw [hm, hd]
    exact h.coded
  · rw [hm, hd]
    exact h.register
  · rw [hm, hd]
    exact h.wire
  · rw [hm, hd]
    exact h.flag
  · rw [hm, hd]
    exact h.code
  · rintro r inst' ⟨hfn, hi'⟩
    obtain ⟨inst, hi, hs⟩ := hnew r inst' hi'
    rw [hm]
    exact (h.held r inst ⟨hd ▸ hfn, hi⟩).same hs
  · rw [hd] at hfn
    obtain ⟨f, hf₀, hret⟩ := h.functions fn hfn
    obtain ⟨f', hf', hr⟩ := hf fn f hf₀
    exact ⟨f', hf', fun t ht => hret t (hr ▸ ht)⟩
  · rw [hd] at hr
    obtain ⟨inst, hi⟩ := h.building r hr
    exact howns r inst hi

theorem Fitted.modifyInstance (h : Fitted n c) (r₀ : InstanceRef) {change : Instance → Instance}
    (hc : ∀ inst : Instance, inst.Same (change inst)) :
    Ensures (modifyInstance r₀ change) c fun _ => Forward n c := by
  simp only [Program.modifyInstance, modifyFunction, ensures_modifySession]
  refine h.refunction rfl rfl (fun r inst hi => ?_) (fun r inst' hi' => ?_) fun fn f hf => ?_
  · rw [instance?_modifyInstance]
    by_cases hr : r = r₀
    · rw [if_pos hr, ← hr, hi]
      exact ⟨_, rfl, hc inst⟩
    · rw [if_neg hr]
      exact ⟨inst, hi, .refl inst⟩
  · rw [instance?_modifyInstance] at hi'
    split at hi'
    · next hr =>
      obtain ⟨inst, hi, rfl⟩ := Option.map_eq_some_iff.mp hi'
      exact ⟨inst, hr ▸ hi, hc inst⟩
    · exact ⟨inst', hi', .refl inst'⟩
  · rw [Array.getElem?_modify, hf]
    split
    · exact ⟨_, rfl, rfl⟩
    · exact ⟨f, rfl, rfl⟩

/-- A resized stack has a pointer with a width, and memories with words. -/
theorem refits_resized (hn : n ≤ inst.spType) (hd : 0 < depth) :
    g.Refits n (resized g inst depth) where
  signals i x hx := by
    rw [resized_signals, hx]
    refine ⟨_, rfl, rfl, rfl, rfl, fun hp => ?_⟩
    dsimp only
    split
    · exact hd
    · exact hp
  types i t ht := by
    rw [resized_types, ht]
    split
    · next hi =>
      have hw := TypeSlot.isResolved_some.mp (bitsFor_resolved (UInt64.ofInt depth))
      exact ⟨_, rfl, fun hlt => absurd (hi ▸ hn) (Nat.not_le.mpr hlt), fun _ => hw.2, fun _ => hw.1⟩
    · exact ⟨t, rfl, fun _ => rfl, id, id⟩

theorem resized_size (inst : Instance) (depth : Int) :
    (resized g inst depth).signals.size = g.signals.size := by
  have hlen : ∀ (ds : List SignalId) (g : Symbols),
      (ds.foldl (fun g i => g.modifySignal i ({ · with depth })) g).signals.size =
        g.signals.size := by
    intro ds
    induction ds with
    | nil => exact fun _ => rfl
    | cons d ds ih =>
      intro g
      rw [List.foldl_cons, ih]
      simp [Symbols.modifySignal]
  rw [resized, hlen]
  simp [Symbols.modifySignal, Symbols.setWidth]

theorem Fitted.sizeStack (h : Fitted n c) (hi : c.Owns r inst) (request : Int) :
    Ensures (sizeStack r request) c fun _ => Forward n c := by
  simp only [Program.sizeStack, ensures_ops, hi.2, Option.getD_some]
  split
  · simp only [ensures_ops, ensures_ite, implies_true, true_and]
    exact fun _ => .refl h
  · have hrest : ∀ c₀, Forward n c c₀ → ∀ depth : Int, 0 < depth →
        Ensures (Program.modifyInstance r ({ · with sized := true })) c₀ fun _ c₁ =>
          Forward n c { c₁ with session := { c₁.session with
            module := c₁.session.module.modifySymbols (resized · inst depth) } } := by
      intro c₀ h₀ depth hd
      refine (h₀.fitted.modifyInstance r fun _ => ⟨rfl, fun _ => rfl⟩).mono fun _ c₁ h₁ => ?_
      refine (h₀.trans h₁).trans (h₁.fitted.retype rfl
        (refits_resized (h.held r inst hi).pointer.1 hd) (resized_size inst depth) rfl rfl)
    simp only [ensures_ops, ensures_ite]
    refine ⟨fun _ => hrest _ ?_ _ (by omega), fun _ => hrest c (.refl h) _ (by omega)⟩
    exact h.redraft rfl rfl h.coded ⟨rfl, rfl, rfl⟩ rfl rfl h.building

theorem isMemory_declareAt (m : Module) (name : String) (type : TypeId) (value : UInt64) (depth : Int) :
    (m.declareAt name .memory type value depth).2.symbols.isMemory m.symbols.signals.size = true := by
  obtain ⟨x, hx, -, hkind, -⟩ := m.declareAt_signal name .memory type value depth
  simp [Symbols.isMemory, Symbols.signalKind, hx, hkind]

theorem isSome_declareAt (m : Module) (name : String) (kind : SignalKind) (type : TypeId)
    (value : UInt64) (depth : Int) :
    (m.declareAt name kind type value depth).2.symbols.signals[m.symbols.signals.size]?.isSome =
      true := by
  obtain ⟨x, hx, -⟩ := m.declareAt_signal name kind type value depth
  rw [hx]
  rfl

/-- Memories for the arguments, one for each type. -/
theorem Fitted.declareArgs (stem : String) {xs : List (SignalType × Nat)}
    (hx : ∀ p ∈ xs, TypeSlot.isResolved (some p.1) = true) {c : Context} (h : Fitted n c) :
    Ensures (xs.mapM fun (t, i) => Program.declare (·.addMemory (stem ++ "_arg" ++ toString i) t 1)) c
      fun ds c' => Forward n c c' ∧ c'.session.functions = c.session.functions ∧ c'.draft = c.draft ∧
        ∀ d ∈ ds, c'.session.module.symbols.isMemory d = true := by
  induction xs generalizing c with
  | nil => simpa using Forward.refl h
  | cons p xs ih =>
    obtain ⟨t, i⟩ := p
    rw [List.mapM_cons, ensures_bind, ensures_declare, ensures_bind]
    have h₁ := h.declare (stem ++ "_arg" ++ toString i) 0 (hx _ List.mem_cons_self)
      (fun _ => by decide : SignalKind.memory = .memory → (0 : Int) < 1)
    refine (ih (fun p hp => hx p (List.mem_cons_of_mem _ hp)) h₁.fitted).mono ?_
    rintro ds c₂ ⟨h₂, hf, hd, hds⟩
    rw [ensures_pure]
    refine ⟨h₁.trans h₂, hf, hd, fun d hmem => ?_⟩
    rcases List.mem_cons.mp hmem with rfl | hmem
    · exact h₂.refits.isMemory (isMemory_declareAt ..)
    · exact hds d hmem

theorem Fitted.types_size (h : Fitted n c) : n ≤ c.session.module.symbols.types.size := by
  obtain ⟨hle, hres⟩ := h.code
  refine hle.trans (Nat.le_of_not_lt fun hlt => ?_)
  simp [Symbols.type?, Array.getElem?_eq_none (Nat.le_of_lt hlt), TypeSlot.isResolved] at hres

section NewStack

variable (h : Fitted n c) (hfn : fn ∈ c.draft.functions) (hf : c.session.functions[fn]? = some f)
  (hfs : c'.session.functions = c.session.functions.modify fn fun f =>
    { f with instances := f.instances.push inst })
  (hd : c'.draft = { c.draft with machine := { c.draft.machine with
    onReset := c.draft.machine.onReset ++
      [.assign inst.sp none (.const 0 (some inst.spType))] } })

include h hfn hf hfs hd

/-- The last step of a new stack: the return register, which may have no width yet, the record of the
instance, and the reset of its pointer. -/
theorem Fitted.pushInstance {name : String} (ht : t.width ≤ maxWidth)
    (hret : inst.ret = c.session.module.symbols.signals.size)
    (hm : c'.session.module = (c.session.module.addReg name t).2)
    (hheld : inst.Held n c'.session.module.symbols) :
    Forward n c c' ∧ c'.Owns ⟨fn, f.instances.size⟩ inst := by
  have hexp : c.session.module.Expands c'.session.module := by
    rw [hm]
    exact c.session.module.declare_expands ..
  have hr : c.session.module.symbols.Refits n c'.session.module.symbols := .of_grows hexp.symbols
  have hfns : c'.draft.functions = c.draft.functions := by rw [hd]
  have hnew : c'.Owns ⟨fn, f.instances.size⟩ inst :=
    ⟨hfns ▸ hfn, by rw [hfs, instance?_pushInstance hf, if_pos rfl]⟩
  have howns : ∀ r i, c.Owns r i → c'.Owns r i := by
    rintro r i ⟨hrf, hi⟩
    refine ⟨hfns ▸ hrf, ?_⟩
    rw [hfs, instance?_pushInstance hf, if_neg ?_]
    · exact hi
    · rintro rfl
      simp [instance?, hf] at hi
  have hpending : ∀ i, c.Pending i → c'.Pending i := by
    rintro i ⟨r, inst', x, hi, hx, hxt⟩
    obtain ⟨x', hx', hxt', -⟩ := hr.signals _ x hx
    exact ⟨r, inst', x', howns r inst' hi, hx', hxt'.trans hxt⟩
  -- the return register itself
  obtain ⟨y, hy, hyt, hyk, -⟩ := (c.session.module.newType t).2.declareAt_signal name .reg
    c.session.module.symbols.types.size 0 0
  have hy' : c'.session.module.symbols.signals[c.session.module.symbols.signals.size]? = some y := by
    rw [hm]
    exact hy
  have htype : c'.session.module.symbols.types[c.session.module.symbols.types.size]? = some t := by
    rw [hm]
    exact ((c.session.module.newType t).2.declareAt_expands ..).symbols.types _ _
      Array.getElem?_push_size
  have hfits : y.Fits c'.session.module.symbols c'.Pending :=
    ⟨fun _ hk => by simp [hyk] at hk, _, t, hyt, htype, ht,
      .inr ⟨_, inst, y, hnew, hret ▸ hy', hyt⟩⟩
  have hcoded : Coded c'.session.module.symbols c'.draft := by
    have hc := h.coded.refit hr
    rw [hd]
    exact { hc with onReset := Stmt.blockSound_append.mpr ⟨hc.onReset, Stmt.blockSound_singleton.mpr
      (Stmt.sound_assign _ (Expr.sound_lit (.value 0) hheld.pointer.2))⟩ }
  refine ⟨⟨⟨fun i x hx => ?_, hcoded, ?_, ?_, ?_, ?_, ?_, ?_, ?_⟩, hr, ?_, fun _ hm => hfns ▸ hm,
    hexp.processes⟩, hnew⟩
  · rcases Nat.lt_trichotomy i c.session.module.symbols.signals.size with hlt | rfl | hgt
    · have hx₀ := Array.getElem?_eq_getElem hlt
      cases hx.symm.trans (hexp.symbols.signals i _ hx₀)
      obtain ⟨hdepth, j, u, hj, hu, hw, hp⟩ := h.signals i _ hx₀
      exact ⟨hdepth, j, u, hj, hexp.symbols.types j u hu, hw, hp.imp_right (hpending j)⟩
    · cases hx.symm.trans hy'
      exact hfits
    · have hlt := (Array.getElem?_eq_some_iff.mp hx).1
      rw [hm, Module.addReg, Module.declare, Module.declareAt_size] at hlt
      exact absurd (Nat.lt_succ_iff.mp hlt) (Nat.not_le.mpr hgt)
  · obtain ⟨x, hx, hxt⟩ := h.register
    rw [hd]
    exact ⟨x, hexp.symbols.signals _ x hx, hxt⟩
  · rw [hd]
    exact isSome_refit hr h.wire
  · rw [hd]
    exact isSome_refit hr h.flag
  · rw [hd]
    exact ⟨h.code.1, isResolved_refit hr h.code.2⟩
  · rintro r inst' ⟨hrf, hi⟩
    rw [hfs, instance?_pushInstance hf] at hi
    split at hi
    · cases hi
      exact hheld
    · exact (h.held r inst' ⟨hfns ▸ hrf, hi⟩).refit hr
  · intro fn' hfn'
    obtain ⟨f', hf', hret'⟩ := h.functions fn' (hfns ▸ hfn')
    rw [hfs, Array.getElem?_modify, hf']
    split
    · exact ⟨_, rfl, hret'⟩
    · exact ⟨f', rfl, hret'⟩
  · intro r hr'
    rw [hd] at hr'
    obtain ⟨i, hi⟩ := h.building r hr'
    exact ⟨i, howns r i hi⟩
  · exact fun r i hi => ⟨i, howns r i hi⟩

/-- Once pointer, depth and arguments are there, the return address and the return register complete
a stack. -/
theorem Fitted.completeStack {code : TypeId}
    (hcode : (c.session.module.symbols.type? (some code)).isResolved = true) {a b : String}
    (ht : t.width ≤ maxWidth)
    (hm : c'.session.module = ((c.session.module.declareAt a .memory code 0 1).2.addReg b t).2)
    (hsp : c.session.module.symbols.signals[inst.sp]?.isSome = true)
    (hdepth : c.session.module.symbols.signals[inst.depth]?.isSome = true)
    (hargs : ∀ d ∈ inst.args, c.session.module.symbols.isMemory d = true)
    (hptr : n ≤ inst.spType ∧ (c.session.module.symbols.type? (some inst.spType)).isResolved = true)
    (haddr : inst.returnAddr = c.session.module.symbols.signals.size)
    (hret : inst.ret = c.session.module.symbols.signals.size + 1) :
    Forward n c c' ∧ c'.Owns ⟨fn, f.instances.size⟩ inst := by
  obtain ⟨m, hm₁⟩ : ∃ m, m = (c.session.module.declareAt a .memory code 0 1).2 := ⟨_, rfl⟩
  have h₁ : Forward n c { c with session := { c.session with module := m } } :=
    hm₁ ▸ h.declareAt a 0 hcode (fun _ => by decide : SignalKind.memory = .memory → (0 : Int) < 1)
  have hmem : m.symbols.isMemory inst.returnAddr = true := hm₁ ▸ haddr ▸ isMemory_declareAt ..
  have hsize : inst.ret = m.symbols.signals.size := by
    rw [hm₁, Module.declareAt_size, hret]
  rw [← hm₁] at hm
  have hr : m.symbols.Refits n c'.session.module.symbols :=
    hm ▸ .of_grows (m.declare_expands b .reg t 0 0).symbols
  obtain ⟨y, hy, hyt, -⟩ := (m.newType t).2.declareAt_signal b .reg m.symbols.types.size 0 0
  have hreg : c'.session.module.symbols.signals[inst.ret]? = some y := by
    rw [hm, hsize]
    exact hy
  have hall := h₁.refits.trans hr
  have hheld : inst.Held n c'.session.module.symbols :=
    { sp := isSome_refit hall hsp
      depth := isSome_refit hall hdepth
      memories := fun d hmem' => by
        rcases List.mem_cons.mp hmem' with rfl | hmem'
        · exact hr.isMemory hmem
        · exact hall.isMemory (hargs d hmem')
      pointer := ⟨hptr.1, isResolved_refit hall hptr.2⟩
      ret := ⟨y, _, hreg, hyt, h₁.fitted.types_size⟩ }
  obtain ⟨h₂, hown⟩ := h₁.fitted.pushInstance hfn hf hfs hd ht hsize hm hheld
  exact ⟨h₁.trans h₂, hown⟩

end NewStack

/-- A new stack has a pointer of one bit, and memories of one word with the widths of the
arguments. -/
theorem Fitted.instantiate (h : Fitted n c) (hfn : fn ∈ c.draft.functions)
    {types : List SignalType} (ht : ∀ t ∈ types, TypeSlot.isResolved (some t) = true) :
    Ensures (instantiate fn types) c fun r c' => Forward n c c' ∧ ∃ inst, c'.Owns r inst := by
  obtain ⟨f, hf, hreturns⟩ := h.functions fn hfn
  have hwidth : (f.returns.getD (.unsigned 0)).width ≤ maxWidth := by
    cases hr : f.returns with
    | none => simp [SignalType.unsigned]
    | some t => exact (TypeSlot.isResolved_some.mp (hreturns t hr)).2
  simp only [Program.instantiate, ensures_ops, hf, Option.getD_some, ensures_ite, implies_true,
    true_and]
  intro _
  generalize (if f.instances.size = 0 then f.name
    else f.name ++ "_" ++ toString f.instances.size) = stem
  have hbit : TypeSlot.isResolved (some (.unsigned 1)) = true := by decide
  have h₁ := h.newType (.unsigned 1)
  have hptr₁ := isResolved_newType c.session.module hbit
  have h₂ := h₁.fitted.declareAt (stem ++ "_sp") 0 hptr₁
    (by simp : SignalKind.reg = .memory → (0 : Int) < 0)
  have h₃ := h₂.fitted.declareAt (stem ++ "_depth") 1 (isResolved_refit h₂.refits hptr₁)
    (by simp : SignalKind.const = .memory → (0 : Int) < 0)
  refine (h₃.fitted.declareArgs stem fun p hp => ht p.1 (List.fst_mem_of_mem_zipIdx hp)).mono ?_
  rintro args c₄ ⟨h₄, hf₄, hd₄, hargs⟩
  have hk₄ := ((h₁.trans h₂).trans h₃).trans h₄
  have hptr := isResolved_refit ((h₂.trans h₃).trans h₄).refits hptr₁
  simp only [ensures_ops, modifyFunction]
  refine And.imp (hk₄.trans ·) (fun hown => ⟨_, hown⟩) (h₄.fitted.completeStack (hd₄ ▸ hfn) (hf₄ ▸ hf)
    rfl rfl (isResolved_refit hk₄.refits h.code.2) hwidth rfl ?_ ?_ hargs ⟨h.types_size, hptr⟩ rfl
    (Module.declareAt_size ..))
  · exact isSome_refit (h₃.trans h₄).refits (isSome_declareAt ..)
  · exact isSome_refit h₄.refits (isSome_declareAt ..)

/-! ## Returns -/

theorem Fitted.sound_sp (h : Fitted n c) (hi : inst.Held n c.session.module.symbols) :
    (Expr.ref inst.sp).Sound c.session.module.symbols := h.sound_ref hi.sp

theorem Fitted.sound_top (h : Fitted n c) (hi : inst.Held n c.session.module.symbols) :
    (stackTop inst).Sound c.session.module.symbols :=
  ⟨h.sound_sp hi, Expr.sound_lit (.value 1) hi.pointer.2⟩

theorem isSome_of_isMemory {i : SignalId} (hi : g.isMemory i = true) :
    g.signals[i]?.isSome = true := by
  cases hx : g.signals[i]? with
  | none => simp [Symbols.isMemory, Symbols.signalKind, hx] at hi
  | some x => rfl

/-- The word of a stack memory that is on top. -/
theorem Fitted.sound_word (h : Fitted n c) (hi : inst.Held n c.session.module.symbols)
    {d : SignalId} (hd : d ∈ inst.returnAddr :: inst.args) :
    (Expr.index d (stackTop inst)).Sound c.session.module.symbols :=
  ⟨hi.memories d hd, h.sound_ref (isSome_of_isMemory (hi.memories d hd)), h.sound_top hi⟩

/-- The return register takes the type of the value, which has a width. -/
theorem Fitted.resolveReturn (h : Fitted n c) (hi : c.Owns r inst) {value : Expr}
    (hv : value.Sound c.session.module.symbols) :
    Ensures (resolveReturn r value) c fun _ => Forward n c := by
  obtain ⟨t, ht, hw⟩ := hv.typeOf
  obtain ⟨x, i, hx, hxt, hle⟩ := (h.held r inst hi).ret
  simp only [Program.resolveReturn, ensures_ops]
  rw [if_pos hv.typed]
  simp only [ht, ensures_ops, hi.2, Option.getD_some, ensures_ite, implies_true, true_and]
  refine ⟨fun _ => .refl h, fun hknown => ⟨fun _ => ?_, fun _ _ => .refl h⟩⟩
  have hpos : 0 < t.width := by
    simpa [SignalType.isUnknown] using hknown
  have hset : c.session.module.symbols.resize inst.ret t =
      some (c.session.module.symbols.setType i t) := by
    simp [Symbols.resize, hx, hxt]
  have h₁ : Forward n c { c with session := { c.session with
      module := c.session.module.modifySymbols fun s => (s.resize inst.ret t).getD s } } := by
    refine h.retype rfl ?_ ?_ rfl rfl
    · simp only [Module.modifySymbols, hset, Option.getD_some]
      exact .setType hle (isResolved_of_pos hw hpos)
    · simp [Module.modifySymbols, hset, Symbols.setType]
  have h₂ := h₁.fitted.modifyInstance r fun (x : Instance) =>
    show x.Same { x with resolved := true } from ⟨rfl, id⟩
  exact h₂.mono fun _ c₂ h₂ => h₁.trans h₂

/-- The return state pops the stack, whatever is pending in it. -/
theorem Fitted.popState (h : Fitted n c) (hi : inst.Held n c.session.module.symbols) : Ensures (do
      let st ← Program.step
      modifyMachine (·.addBody st [.assign inst.sp none (stackTop inst)])
      Program.addGoto st (.jump (.computed (.index inst.returnAddr (stackTop inst))))
      return st) c fun _ => Forward n c := by
  simp only [ensures_bind, ensures_modifyMachine]
  refine (Forwards.step c h).mono fun st c₁ h₁ => ?_
  have hi₁ := hi.refit h₁.refits
  have h₂ : Forward n c₁ { c₁ with draft := { c₁.draft with
      machine := c₁.draft.machine.addBody st [.assign inst.sp none (stackTop inst)] } } := by
    obtain ⟨fault, hf⟩ := modifyState_eq c₁.draft.machine st "body" fun s =>
      { s with body := s.body ++ [.assign inst.sp none (stackTop inst)] }
    refine h₁.fitted.redraft rfl rfl (h₁.fitted.coded.addBody st
      (Stmt.blockSound_singleton.mpr (Stmt.sound_assign _ (h₁.fitted.sound_top hi₁)))) ?_ rfl rfl
      h₁.fitted.building
    rw [Machine.addBody, hf]
    exact ⟨rfl, rfl, rfl⟩
  have hword := h₂.fitted.sound_word (hi₁.refit h₂.refits) List.mem_cons_self
  refine (h₂.fitted.addGoto st (.jump fun e he => Target.computed.inj he ▸ hword)).mono
    fun _ c₃ h₃ => ?_
  rw [ensures_pure]
  exact (h₁.trans h₂).trans h₃

theorem Fitted.makeReturn (h : Fitted n c) (hi : c.Owns r inst) {value : Option Expr}
    (hv : ∀ e, value = some e → e.Sound c.session.module.symbols) :
    Ensures (makeReturn r value) c fun _ => Forward n c := by
  simp only [Program.makeReturn, ensures_ops]
  refine (Forwards.step c h).mono fun _ c₁ h₁ => ?_
  obtain ⟨inst₁, hi₁⟩ := h₁.owns r inst hi
  rw [hi₁.2, Option.getD_some]
  have hheld := h₁.fitted.held r inst₁ hi₁
  cases value with
  | none =>
    have hpop := h₁.fitted.popState hheld
    simp only [ensures_bind] at hpop ⊢
    exact hpop.mono fun st c₂ h₂ => h₂.mono fun _ c₃ h₃ => h₃.mono fun _ c₄ h₄ =>
      h₄.mono fun _ _ h₅ => h₁.trans h₅
  | some e =>
    have he := (hv e rfl).refit h₁.refits
    simp only [ensures_bind]
    refine (h₁.fitted.resolveReturn hi₁ he).mono fun _ c₂ h₂ => ?_
    refine (h₂.fitted.emit (Stmt.sound_assign _ (he.refit h₂.refits))).mono fun _ c₃ h₃ => ?_
    have hpop := h₃.fitted.popState (hheld.refit (h₂.trans h₃).refits)
    simp only [ensures_bind] at hpop
    exact hpop.mono fun st c₄ h₄ => h₄.mono fun _ c₅ h₅ => h₅.mono fun _ c₆ h₆ =>
      h₆.mono fun _ _ h₇ => ((h₁.trans h₂).trans h₃).trans h₇

theorem Fitted.returnFrom (h : Fitted n c) {value : Option Expr}
    (hv : ∀ e, value = some e → e.Sound c.session.module.symbols) :
    Ensures (returnFrom value) c fun _ => Forward n c := by
  simp only [Program.returnFrom, ensures_ops]
  split
  · simp
  · next r rest hb =>
    obtain ⟨inst, hi⟩ := h.building r (by simp [hb])
    exact h.makeReturn hi hv

/-! ## Calls -/

theorem Fitted.newLink (h : Fitted n c) : Forward n c { c with session := { c.session with module :=
      { c.session.module with symbols := c.session.module.symbols.newLink.2 } } } :=
  h.expand ⟨c.session.module.symbols.newLink_grows, rfl⟩ rfl

theorem Fitted.hasRoom (h : Fitted n c) (hi : inst.Held n c.session.module.symbols)
    {Q : Expr → Context → Prop} (hq : ∀ e : Expr, e.Sound c.session.module.symbols → Q e c) :
    Ensures (hasRoom inst) c Q := .relate (h.sound_sp hi) (h.sound_ref hi.depth) hq

/-- What a call state does if there is room: everything it writes at the stack pointer is a memory. -/
theorem Fitted.sound_pushes (h : Fitted n c) (hi : inst.Held n c.session.module.symbols)
    {args : List Expr} (ha : ∀ a ∈ args, a.Sound c.session.module.symbols) (link : LinkId) :
    Stmt.BlockSound c.session.module.symbols
      ((inst.args.zip args).map (fun (mem, a) => Stmt.assign mem (some (.ref inst.sp)) a) ++
        [.assign inst.returnAddr (some (.ref inst.sp)) (.lit (.link link) (some c.draft.machine.type)),
         .assign inst.sp none (.plus (.ref inst.sp) (.const 1 (some inst.spType)))]) := by
  have hsp := h.sound_sp hi
  have hat : ∀ {d : SignalId} {e : Expr}, d ∈ inst.returnAddr :: inst.args →
      e.Sound c.session.module.symbols →
      Stmt.Sound c.session.module.symbols (.assign d (some (.ref inst.sp)) e) := fun hd he =>
    ⟨fun e' he' => Option.some.inj he' ▸ ⟨hsp, hi.memories _ hd⟩, he⟩
  rw [Stmt.blockSound_append]
  refine ⟨Stmt.blockSound_iff.mpr fun st hst => ?_, hat List.mem_cons_self (Expr.sound_lit _ h.code.2),
    Stmt.sound_assign _ ⟨hsp, Expr.sound_lit (.value 1) hi.pointer.2⟩, trivial⟩
  obtain ⟨⟨d, a⟩, hmem, rfl⟩ := List.mem_map.mp hst
  obtain ⟨hd, ha'⟩ := List.of_mem_zip hmem
  exact hat (List.mem_cons_of_mem _ hd) (ha a ha')

theorem Fitted.pushCall (h : Fitted n c) (hi : c.Owns r inst) {args : List Expr}
    (ha : ∀ a ∈ args, a.Sound c.session.module.symbols) :
    Ensures (pushCall r args) c fun _ => Forward n c := by
  -- once nothing is pending, a link is made and the push emitted
  have key : ∀ c₁, Forward n c c₁ → c₁.draft.blocks.pending = false →
      Ensures (Program.pushCall r args) c₁ fun _ => Forward n c := by
    intro c₁ h₁ hp
    obtain ⟨inst₁, hi₁⟩ := h₁.owns r inst hi
    have hheld := h₁.fitted.held r inst₁ hi₁
    have h₂ := h₁.fitted.newLink
    simp only [Program.pushCall, ensures_bind, ensures_getDraft, hp, Bool.false_eq_true, if_false,
      ensures_getInstance, hi₁.2, Option.getD_some, ensures_getSymbols, ensures_modifyModule]
    refine h₁.fitted.hasRoom hheld fun room hroom => ?_
    refine (h₂.fitted.emit (Stmt.sound_when (hroom.refit h₂.refits)
      (h₂.fitted.sound_pushes (hheld.refit h₂.refits)
        (fun a hmem => (ha a hmem).refit (h₁.trans h₂).refits) _))).mono fun _ c₃ h₃ => ?_
    rw [ensures_pure]
    exact (h₁.trans h₂).trans h₃
  cases hp : c.draft.blocks.pending with
  | false => exact key c (.refl h) hp
  | true => exact .pushCall_pending hp <| .step fun f _ => ⟨rfl, key _ (h.cut f) rfl⟩

theorem Ensures.mapM_require_mem {α β : Type} (f : α → Option β) (xs : List α) :
    Ensures (xs.mapM fun x => require (f x)) c fun ys c' => c' = c ∧
      ∀ y ∈ ys, ∃ x ∈ xs, f x = some y := by
  induction xs with
  | nil => simp
  | cons x xs ih =>
    rw [List.mapM_cons, ensures_bind, ensures_require]
    intro y hy
    rw [ensures_bind]
    refine ih.mono ?_
    rintro ys c' ⟨rfl, hys⟩
    refine ensures_pure.mpr ⟨rfl, fun z hz => ?_⟩
    rcases List.mem_cons.mp hz with rfl | hz
    · exact ⟨x, List.mem_cons_self, hy⟩
    · obtain ⟨x', hx', h'⟩ := hys z hz
      exact ⟨x', List.mem_cons_of_mem _ hx', h'⟩

section Run

variable {run : List Command → ElabM Unit} (hrun : ∀ body, Forwards n (run body))
variable {args : List Expr}
include hrun

theorem Fitted.finishCall (h : Fitted n c) (hi : c.Owns r inst) (call : Nat) (link : LinkId)
    (skip : Nat) : Ensures (finishCall run r call link skip) c fun _ => Forward n c := by
  have hwire : ∀ c₁, Forward n c c₁ → ∀ resume, Ensures (do
      modifyDraft fun d => { d with resumes := d.resumes ++ [(link, resume)] }
      let inst ← Program.getInstance r
      let room ← Program.hasRoom inst
      Program.addGoto call (.branch room (.state inst.entry) (.state skip))) c₁
        fun _ => Forward n c := by
    intro c₁ h₁ resume
    obtain ⟨inst₁, hi₁⟩ := h₁.owns r inst hi
    have h₂ : Forward n c₁ { c₁ with draft := { c₁.draft with
        resumes := c₁.draft.resumes ++ [(link, resume)] } } :=
      h₁.fitted.redraft rfl rfl { h₁.fitted.coded with } ⟨rfl, rfl, rfl⟩ rfl rfl h₁.fitted.building
    simp only [ensures_bind, ensures_modifyDraft, ensures_getInstance, hi₁.2, Option.getD_some]
    refine h₂.fitted.hasRoom (h₁.fitted.held r inst₁ hi₁) fun room hroom => ?_
    have hedge : Transition.Sound c₁.session.module.symbols
        (.branch room (.state inst₁.entry) (.state skip)) :=
      .fork (fun e he => Option.some.inj he ▸ hroom) (by simp) (by simp)
    exact (h₂.fitted.addGoto call hedge).mono fun _ c₃ h₃ => (h₁.trans h₂).trans h₃
  simp only [Program.finishCall]
  rw [ensures_bind, ensures_getFunction]
  split
  · rw [ensures_bind]
    refine (hrun _ c h).mono fun _ c₁ h₁ => ?_
    rw [ensures_bind]
    refine (Forwards.step c₁ h₁.fitted).mono fun last c₂ h₂ => ?_
    exact hwire c₂ (h₁.trans h₂) (last + 1)
  · exact hwire c (.refl h) skip

theorem Fitted.callExisting (h : Fitted n c) (hi : c.Owns r inst)
    (ha : ∀ a ∈ args, a.Sound c.session.module.symbols) :
    Ensures (callExisting run r args) c fun _ => Forward n c := by
  simp only [Program.callExisting, ensures_bind]
  refine (h.pushCall hi ha).mono fun link c₁ h₁ => ?_
  refine (Forwards.step c₁ h₁.fitted).mono fun call c₂ h₂ => ?_
  obtain ⟨inst₂, hi₂⟩ := (h₁.trans h₂).owns r inst hi
  exact (h₂.fitted.finishCall hrun hi₂ call link (call + 1)).mono fun _ c₃ h₃ =>
    (h₁.trans h₂).trans h₃

theorem Fitted.callFirst (h : Fitted n c) (hi : c.Owns r inst)
    (ha : ∀ a ∈ args, a.Sound c.session.module.symbols) :
    Ensures (callFirst run r args) c fun _ => Forward n c := by
  simp only [Program.callFirst, ensures_bind]
  refine (h.pushCall hi ha).mono fun link c₁ h₁ => ?_
  refine (Forwards.step c₁ h₁.fitted).mono fun call c₂ h₂ => ?_
  have hentry := h₂.fitted.modifyInstance r fun (x : Instance) =>
    show x.Same { x with entry := call + 1 } from ⟨rfl, id⟩
  refine hentry.mono fun _ c₃ h₃ => ?_
  have hk₃ := (h₁.trans h₂).trans h₃
  obtain ⟨inst₃, hi₃⟩ := hk₃.owns r inst hi
  rw [ensures_modifyDraft]
  have h₄ : Forward n c₃ { c₃ with draft := { c₃.draft with building := r :: c₃.draft.building } } := by
    refine h₃.fitted.redraft rfl rfl { h₃.fitted.coded with } ⟨rfl, rfl, rfl⟩ rfl rfl fun r' hr' => ?_
    rcases List.mem_cons.mp hr' with rfl | hr'
    · exact ⟨inst₃, hi₃⟩
    · exact h₃.fitted.building r' hr'
  refine (h₄.fitted.pushFrame (by simp)).mono fun _ c₅ h₅ => ?_
  simp only [ensures_getInstance, ensures_modifyScope, ensures_getFunction]
  have h₆ := h₅.fitted.rescope { c₅.session.scope with
    formals := (((instance? c₅.session.functions r).getD default).args.map fun mem => Expr.index mem
      (stackTop ((instance? c₅.session.functions r).getD default))) :: c₅.session.scope.formals }
  refine (hrun _ _ h₆.fitted).mono fun _ c₇ h₇ => ?_
  have h₈ := h₇.fitted.rescope { c₇.session.scope with formals := c₇.session.scope.formals.tail }
  have hk₈ := ((((hk₃.trans h₄).trans h₅).trans h₆).trans h₇).trans h₈
  obtain ⟨inst₈, hi₈⟩ := hk₈.owns r inst hi
  refine (h₈.fitted.makeReturn hi₈ (by simp)).mono fun last c₉ h₉ => ?_
  refine (Forwards.popFrame c₉ h₉.fitted).mono fun _ c₁₀ h₁₀ => ?_
  rw [ensures_modifyDraft]
  have h₁₁ : Forward n c₁₀ { c₁₀ with draft := { c₁₀.draft with
      building := c₁₀.draft.building.tail } } :=
    h₁₀.fitted.redraft rfl rfl { h₁₀.fitted.coded with } ⟨rfl, rfl, rfl⟩ rfl rfl fun r' hr' =>
      h₁₀.fitted.building r' (List.mem_of_mem_tail hr')
  have hk := ((hk₈.trans h₉).trans h₁₀).trans h₁₁
  obtain ⟨inst', hi'⟩ := hk.owns r inst hi
  exact (hk.fitted.finishCall hrun hi' call link (last + 1)).mono fun _ c' h' => hk.trans h'

/-- A call, for arguments whose widths are known. -/
theorem Fitted.callFunction (h : Fitted n c) {fn : Nat} (hfn : fn ∈ c.draft.functions)
    (depth : Int) (ha : ∀ a ∈ args, a.Sound c.session.module.symbols)
    (hw : ∀ a ∈ args, (c.session.module.symbols.typeOf a).isUnknown = false) :
    Ensures (callFunction run fn depth args) c fun _ => Forward n c := by
  simp only [Program.callFunction]
  rw [ensures_bind, ensures_getSymbols, ensures_bind]
  refine (Ensures.mapM_require_mem _ args).mono ?_
  rintro types c₀ ⟨hc, htypes⟩
  rw [hc]
  have hresolved : ∀ t ∈ types, TypeSlot.isResolved (some t) = true := by
    intro t ht
    obtain ⟨a, hmem, hat⟩ := htypes t ht
    exact (ha a hmem).isResolved (hw a hmem) hat
  rw [ensures_bind]
  simp only [Program.elaborating, ensures_ops]
  split
  · next r hr =>
    obtain ⟨inst, hi⟩ := h.building r (List.mem_of_find?_eq_some hr)
    simp only [ensures_ops]
    refine (h.sizeStack hi depth).mono fun _ c₁ h₁ => ?_
    obtain ⟨inst₁, hi₁⟩ := h₁.owns r inst hi
    exact (h₁.fitted.callExisting hrun hi₁ fun a hmem => (ha a hmem).refit h₁.refits).mono
      fun _ c₂ h₂ => h₁.trans h₂
  · obtain ⟨f, hf, -⟩ := h.functions fn hfn
    rw [ensures_bind, ensures_getFunction, hf, Option.getD_some]
    split
    · next position hp =>
      obtain ⟨hlt, -⟩ := Array.findIdx?_eq_some_iff_getElem.mp hp
      have hi : c.Owns ⟨fn, position⟩ f.instances[position] :=
        ⟨hfn, by simp [instance?, hf, hlt]⟩
      simp only [ensures_ops]
      exact h.callExisting hrun hi ha
    · simp only [ensures_ops]
      refine (h.instantiate hfn hresolved).mono ?_
      rintro r c₁ ⟨h₁, inst₁, hi₁⟩
      exact (h₁.fitted.callFirst hrun hi₁ fun a hmem => (ha a hmem).refit h₁.refits).mono
        fun _ c₂ h₂ => h₁.trans h₂

end Run

/-- A new function has no instance yet. -/
theorem Fitted.defineFunction (h : Fitted n c) (hf : f.instances = #[])
    (hr : ∀ t, f.returns = some t → TypeSlot.isResolved (some t) = true) :
    Ensures (defineFunction f) c fun _ => Forward n c := by
  simp only [Program.defineFunction, ensures_ops]
  have hlt : ∀ fn ∈ c.draft.functions, fn < c.session.functions.size := fun fn hfn => by
    obtain ⟨f', hf', -⟩ := h.functions fn hfn
    exact (Array.getElem?_eq_some_iff.mp hf').1
  have hinst : ∀ r, instance? (c.session.functions.push f) r = instance? c.session.functions r := by
    intro r
    rw [instance?, instance?, Array.getElem?_push]
    split
    · next he => simp [he, hf]
    · rfl
  have howns : ∀ r inst, Context.Owns { c with
      session := { c.session with
        functions := c.session.functions.push f
        scope.functions := (f.name, c.session.functions.size) :: c.session.scope.functions }
      draft := { c.draft with functions := c.draft.functions ++ [c.session.functions.size] } } r inst ↔
      c.Owns r inst := by
    intro r inst
    simp only [Context.Owns, hinst, List.mem_append, List.mem_singleton]
    refine and_congr_left fun hi => ⟨fun hm => hm.resolve_right fun he => ?_, .inl⟩
    simp [instance?, he] at hi
  refine ⟨⟨fun i x hx => ?_, { h.coded with }, h.register, h.wire, h.flag, h.code, fun r inst hi =>
    h.held r inst ((howns r inst).mp hi), fun fn hfn => ?_, fun r hr' => ?_⟩, .refl n _,
    fun r inst hi => ⟨inst, (howns r inst).mpr hi⟩, fun fn hfn => List.mem_append_left _ hfn, rfl⟩
  · obtain ⟨hdepth, j, t, hj, ht, hw, hp⟩ := h.signals i x hx
    refine ⟨hdepth, j, t, hj, ht, hw, hp.imp_right ?_⟩
    rintro ⟨r, inst, y, hi, hy⟩
    exact ⟨r, inst, y, (howns r inst).mpr hi, hy⟩
  · rcases List.mem_append.mp hfn with hfn | hfn
    · obtain ⟨f', hf', hr'⟩ := h.functions fn hfn
      refine ⟨f', ?_, hr'⟩
      dsimp only
      rw [Array.getElem?_push, if_neg (Nat.ne_of_lt (hlt fn hfn))]
      exact hf'
    · rw [List.mem_singleton.mp hfn]
      exact ⟨f, Array.getElem?_push_size, hr⟩
  · obtain ⟨inst, hi⟩ := h.building r hr'
    exact ⟨inst, (howns r inst).mpr hi⟩

end Lockstep.Program
