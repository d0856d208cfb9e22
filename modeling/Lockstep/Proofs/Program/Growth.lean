import Lockstep.Proofs.Program.Ensures

/-!
# Growth of a module under elaboration

Declarations and the resolution of terms add types, signals and late constants to a module. They
never change what is there, and never add a process.
-/

namespace Lockstep

namespace Symbols

variable {g g' : Symbols}

/-- What was there is there unchanged. -/
structure Grows (g g' : Symbols) : Prop where
  types : ∀ (i : TypeId) t, g.types[i]? = some t → g'.types[i]? = some t
  signals : ∀ (i : SignalId) x, g.signals[i]? = some x → g'.signals[i]? = some x
  links : ∀ (i : LinkId) v, g.links[i]? = some v → g'.links[i]? = some v

theorem Grows.refl (g : Symbols) : g.Grows g := ⟨fun _ _ h => h, fun _ _ h => h, fun _ _ h => h⟩

theorem Grows.trans {g'' : Symbols} (h : g.Grows g') (h' : g'.Grows g'') : g.Grows g'' :=
  ⟨fun i t ht => h'.types i t (h.types i t ht), fun i x hx => h'.signals i x (h.signals i x hx),
    fun i v hv => h'.links i v (h.links i v hv)⟩

theorem getElem?_push_of_some {α : Type} {xs : Array α} {i : Nat} {a b : α}
    (h : xs[i]? = some a) : (xs.push b)[i]? = some a := by
  have hi : i < xs.size := (Array.getElem?_eq_some_iff.mp h).1
  rw [Array.getElem?_push, if_neg (Nat.ne_of_lt hi), h]

theorem newType_grows (g : Symbols) (t : SignalType) : g.Grows (g.newType t).2 :=
  ⟨fun _ _ h => getElem?_push_of_some h, fun _ _ h => h, fun _ _ h => h⟩

theorem newLink_grows (g : Symbols) : g.Grows g.newLink.2 :=
  ⟨fun _ _ h => h, fun _ _ h => h, fun _ _ h => getElem?_push_of_some h⟩

theorem newSignal_grows (g : Symbols) (x : Signal) : g.Grows (g.newSignal x).2 :=
  ⟨fun _ _ h => h, fun _ _ h => getElem?_push_of_some h, fun _ _ h => h⟩

theorem Grows.size (h : g.Grows g') : g.signals.size ≤ g'.signals.size := by
  by_contra hlt
  have hi : g'.signals.size < g.signals.size := by omega
  have := h.signals _ _ (Array.getElem?_eq_getElem hi)
  simp at this

theorem Grows.types_size (h : g.Grows g') : g.types.size ≤ g'.types.size := by
  by_contra hlt
  have hi : g'.types.size < g.types.size := by omega
  have := h.types _ _ (Array.getElem?_eq_getElem hi)
  simp at this

theorem Grows.links_size (h : g.Grows g') : g.links.size ≤ g'.links.size := by
  by_contra hlt
  have hi : g'.links.size < g.links.size := by omega
  have := h.links _ _ (Array.getElem?_eq_getElem hi)
  simp at this

theorem Grows.signalName (h : g.Grows g') {d : SignalId} (hd : d < g.signals.size) :
    g'.signalName d = g.signalName d := by
  have hsome := Array.getElem?_eq_getElem hd
  simp [Symbols.signalName, hsome, h.signals d _ hsome]

theorem shareType_cases {t : TypeId} :
    ∀ {e : Expr}, g.shareType e = some (t, g') → g' = g ∨ ∃ u, g' = (g.newType u).2
  | .hole, h => by simp [shareType] at h
  | .ref i, h | .index i _, h | .lit _ o, h => by
    simp only [shareType, Option.map_eq_some_iff, Prod.mk.injEq] at h
    obtain ⟨_, _, -, rfl⟩ := h
    exact .inl rfl
  | .not e, h => shareType_cases (e := e) (by simpa [shareType] using h)
  | .bin op l r, h | .cmp p l r, h => by
    simp only [shareType, Option.map_eq_some_iff] at h
    obtain ⟨u, -, hu⟩ := h
    exact .inr ⟨u, by rw [hu]⟩

theorem shareType_grows {t : TypeId} {e : Expr} (h : g.shareType e = some (t, g')) :
    g.Grows g' := by
  rcases shareType_cases h with rfl | ⟨u, rfl⟩
  · exact .refl _
  · exact newType_grows ..

theorem shareType_same {t : TypeId} {e : Expr} (h : g.shareType e = some (t, g')) :
    g'.signals = g.signals ∧ g'.links = g.links := by
  rcases shareType_cases h with rfl | ⟨u, rfl⟩ <;> exact ⟨rfl, rfl⟩

end Symbols

/-- The module declares more than before, and has the same processes. -/
structure Module.Expands (m m' : Module) : Prop where
  symbols : m.symbols.Grows m'.symbols
  processes : m'.processes = m.processes

namespace Module.Expands

theorem refl (m : Module) : m.Expands m := ⟨.refl _, rfl⟩

theorem trans {m m' m'' : Module} (h : m.Expands m') (h' : m'.Expands m'') : m.Expands m'' :=
  ⟨h.symbols.trans h'.symbols, h'.processes.trans h.processes⟩

end Module.Expands

namespace Module

theorem newType_expands (m : Module) (t : SignalType) : m.Expands (m.newType t).2 :=
  ⟨m.symbols.newType_grows t, rfl⟩

theorem declareAt_expands (m : Module) (wanted : String) (kind : SignalKind) (type : TypeId)
    (value : UInt64) (depth : Int) : m.Expands (m.declareAt wanted kind type value depth).2 :=
  ⟨m.symbols.newSignal_grows _, rfl⟩

theorem declare_expands (m : Module) (wanted : String) (kind : SignalKind) (type : SignalType)
    (value : UInt64) (depth : Int) : m.Expands (m.declare wanted kind type value depth).2 :=
  (m.newType_expands type).trans (declareAt_expands ..)

/-- A new signal comes after all others. -/
theorem declareAt_fst (m : Module) (wanted : String) (kind : SignalKind) (type : TypeId)
    (value : UInt64) (depth : Int) :
    (m.declareAt wanted kind type value depth).1 = m.symbols.signals.size := rfl

theorem declareAt_size (m : Module) (wanted : String) (kind : SignalKind) (type : TypeId)
    (value : UInt64) (depth : Int) :
    (m.declareAt wanted kind type value depth).2.symbols.signals.size =
      m.symbols.signals.size + 1 := by
  simp [declareAt, claimName, Symbols.newSignal]

theorem declareAt_signal (m : Module) (wanted : String) (kind : SignalKind) (type : TypeId)
    (value : UInt64) (depth : Int) :
    ∃ x, (m.declareAt wanted kind type value depth).2.symbols.signals[m.symbols.signals.size]? =
      some x ∧ x.type = some type ∧ x.kind = kind ∧ x.value = value ∧ x.depth = depth ∧
        x.declared = true :=
  ⟨_, Array.getElem?_push_size, rfl, rfl, rfl, rfl, rfl⟩

end Module

namespace Script

variable {α β : Type}

/-- Resolution only adds types to the module. -/
def Expanding (r : Resolve α) : Prop :=
  ∀ m a m', r.run m = .ok (a, m') → m.Expands m' ∧ m'.symbols.signals = m.symbols.signals ∧
    m'.symbols.links = m.symbols.links

namespace Expanding

theorem pure (a : α) : Expanding (Pure.pure a) := by
  intro m b m' h
  cases h
  exact ⟨.refl m, rfl, rfl⟩

theorem bind {r : Resolve α} {f : α → Resolve β} (hr : Expanding r)
    (hf : ∀ a, Expanding (f a)) : Expanding (r >>= f) := by
  intro m b m' h
  rw [StateT.run_bind] at h
  cases hx : r.run m with
  | error e => simp [hx, Bind.bind, Except.bind] at h
  | ok v =>
    obtain ⟨a, m₁⟩ := v
    rw [hx] at h
    obtain ⟨hm, hs, hl⟩ := hr m a m₁ hx
    obtain ⟨hm', hs', hl'⟩ := hf a m₁ b m' h
    exact ⟨hm.trans hm', hs'.trans hs, hl'.trans hl⟩

theorem get : Expanding get := by
  intro m b m' h
  cases h
  exact ⟨.refl m, rfl, rfl⟩

theorem throw (e : Error) : Expanding (MonadExcept.throw e : Resolve α) := by
  intro m b m' h
  cases h

theorem need (e : Error) (o : Option α) : Expanding (need e o) := by
  cases o with
  | none => exact throw e
  | some a => exact pure a

theorem newType (t : SignalType) : Expanding (newType t) := by
  intro m b m' h
  cases h
  exact ⟨m.newType_expands t, rfl, rfl⟩

theorem newNumber (v : UInt64) (width : Int) : Expanding (newNumber v width) :=
  (newType _).bind fun _ => pure _

end Expanding

theorem signal_ok {sc : Scope} {name : String} {m m' : Module} {i : SignalId}
    (h : (sc.signal name).run m = .ok (i, m')) : sc.signal? m name = some i ∧ m' = m := by
  simp only [Scope.signal, StateT.run_bind, StateT.run_get, pure_bind] at h
  cases hs : sc.signal? m name with
  | none => rw [hs] at h; cases h
  | some j =>
    rw [hs] at h
    obtain ⟨rfl, rfl⟩ := Prod.mk.inj (Except.ok.inj h)
    exact ⟨rfl, rfl⟩

theorem Expanding.signal (sc : Scope) (name : String) : Expanding (sc.signal name) := by
  intro m i m' h
  rw [(signal_ok h).2]
  exact ⟨.refl m, rfl, rfl⟩

theorem Term.resolve_expanding (sc : Scope) (focus : Option Focus) :
    ∀ t : Term, Expanding (t.resolve sc focus)
  | .hole => .pure _
  | .signal name => (Expanding.signal sc name).bind fun _ => .pure _
  | .number _ _ => .newNumber _ _
  | .literal _ none => .pure _
  | .literal _ (some t) => (Expanding.newType t).bind fun _ => .pure _
  | .literalOf _ name =>
    (Expanding.signal sc name).bind fun _ => Expanding.get.bind fun _ => .pure _
  | .numberLike _ like _ =>
    (like.resolve_expanding sc focus).bind fun _ => Expanding.get.bind fun _ =>
      (Expanding.need _ _).bind fun _ => .newNumber _ _
  | .bin _ l r =>
    (l.resolve_expanding sc focus).bind fun _ => (r.resolve_expanding sc focus).bind fun _ => .pure _
  | .cmp _ l r =>
    (l.resolve_expanding sc focus).bind fun _ => (r.resolve_expanding sc focus).bind fun _ => .pure _
  | .relate _ l r =>
    (l.resolve_expanding sc focus).bind fun _ => (r.resolve_expanding sc focus).bind fun _ =>
      Expanding.get.bind fun _ => .need _ _
  | .not e => (e.resolve_expanding sc focus).bind fun _ => .pure _
  | .index name e =>
    (Expanding.signal sc name).bind fun _ => (e.resolve_expanding sc focus).bind fun _ => .pure _
  | .var _ => .need _ _
  | .arg _ => .need _ _
  | .armValue _ => (Expanding.need _ _).bind fun _ => .newNumber _ _
  | .code _ => (Expanding.need _ _).bind fun _ => .pure _
  | .isIn _ => (Expanding.need _ _).bind fun _ => .pure _
  | .alive => (Expanding.need _ _).bind fun _ => .pure _
  | .running => (Expanding.need _ _).bind fun _ => .pure _

section

variable {σ ε σ' ε' : Type} {signal : σ → Resolve σ'} {expr : ε → Resolve ε'}
  {place : ε → Resolve (Option ε')}

mutual

theorem Expanding.traverse (hs : ∀ s, Expanding (signal s)) (he : ∀ e, Expanding (expr e))
    (hp : ∀ e, Expanding (place e)) :
    ∀ s : Lockstep.Stmt σ ε, Expanding (Lockstep.Stmt.traverse signal expr place s)
  | .blank => .pure _
  | .assign d none v =>
    (hs d).bind fun _ => (Expanding.pure none).bind fun _ => (he v).bind fun _ => .pure _
  | .assign d (some i) v => (hs d).bind fun _ => (hp i).bind fun _ => (he v).bind fun _ => .pure _
  | .cond test thn els =>
    (he test).bind fun _ => (traverseBlock hs he hp thn).bind fun _ =>
      (traverseBlock hs he hp els).bind fun _ => .pure _
  | .case selector arms otherwise =>
    (he selector).bind fun _ => (traverseArms hs he hp arms).bind fun _ =>
      (traverseBlock hs he hp otherwise).bind fun _ => .pure _

theorem Expanding.traverseBlock (hs : ∀ s, Expanding (signal s)) (he : ∀ e, Expanding (expr e))
    (hp : ∀ e, Expanding (place e)) :
    ∀ ss : List (Lockstep.Stmt σ ε), Expanding (Lockstep.Stmt.traverseBlock signal expr place ss)
  | [] => .pure _
  | s :: rest =>
    (traverse hs he hp s).bind fun _ => (traverseBlock hs he hp rest).bind fun _ => .pure _

theorem Expanding.traverseArms (hs : ∀ s, Expanding (signal s)) (he : ∀ e, Expanding (expr e))
    (hp : ∀ e, Expanding (place e)) :
    ∀ arms : List (UInt64 × List (Lockstep.Stmt σ ε)),
      Expanding (Lockstep.Stmt.traverseArms signal expr place arms)
  | [] => .pure _
  | (_, body) :: rest =>
    (traverseBlock hs he hp body).bind fun _ => (traverseArms hs he hp rest).bind fun _ => .pure _

end

end

theorem resolveBlock_expanding (sc : Scope) (focus : Option Focus) (body : List Stmt) :
    Expanding (resolveBlock sc focus body) :=
  .traverseBlock (.signal sc) (Term.resolve_expanding sc focus)
    (fun t => (Term.resolve_expanding sc focus t).bind fun _ => .pure _) body

theorem resolveTarget_expanding (sc : Scope) (focus : Option Focus) :
    ∀ t : Target Term, Expanding (resolveTarget sc focus t)
  | .state _ | .after _ | .named _ => .pure _
  | .computed t => (t.resolve_expanding sc focus).bind fun _ => .pure _

theorem resolveTransition_expanding (sc : Scope) (focus : Option Focus) (t : Transition Term) :
    Expanding (resolveTransition sc focus t) := by
  have hmap {α β : Type} {f : α → Resolve β} (hf : ∀ a, Expanding (f a)) :
      ∀ o : Option α, Expanding (o.mapM f)
    | none => .pure _
    | some a => (hf a).bind fun _ => .pure _
  exact (hmap (Term.resolve_expanding sc focus) _).bind fun _ =>
    (hmap (resolveTarget_expanding sc focus) _).bind fun _ =>
      (hmap (resolveTarget_expanding sc focus) _).bind fun _ => .pure _

end Script

namespace Program

open Script (Resolve Scope Focus Term)

variable {α : Type}
variable {c : Context}

theorem Ensures.resolving {f : Scope → Option Focus → Resolve α} {Q : α → Context → Prop}
    (hf : ∀ sc focus, Script.Expanding (f sc focus)) (h : ∀ a m, c.session.module.Expands m →
      m.symbols.signals = c.session.module.symbols.signals →
      m.symbols.links = c.session.module.symbols.links →
      Q a { c with session := { c.session with module := m } }) : Ensures (resolving f) c Q := by
  simp only [Program.resolving, ensures_ops]
  split
  · next a m hr =>
    simp only [ensures_ops]
    obtain ⟨hm, hs, hl⟩ := hf _ _ _ _ _ hr
    exact h a m hm hs hl
  · simp

theorem Ensures.resolve {t : Term} {Q : Expr → Context → Prop}
    (h : ∀ e m, c.session.module.Expands m →
      Q e { c with session := { c.session with module := m } }) : Ensures (resolve t) c Q :=
  .resolving (fun sc focus => t.resolve_expanding sc focus) fun e m hm _ _ => h e m hm

/-- The signals stay as they are. -/
theorem Ensures.resolve_types {t : Term} {Q : Expr → Context → Prop}
    (h : ∀ e m, c.session.module.Expands m →
      m.symbols.signals = c.session.module.symbols.signals →
      Q e { c with session := { c.session with module := m } }) : Ensures (Program.resolve t) c Q :=
  .resolving (fun sc focus => t.resolve_expanding sc focus) fun e m hm hs _ => h e m hm hs

theorem Ensures.resolveSignal {name : String} {Q : SignalId → Context → Prop}
    (h : ∀ i, c.session.scope.signal? c.session.module name = some i → Q i c) :
    Ensures (resolveSignal name) c Q := by
  simp only [Program.resolveSignal, Program.resolving, ensures_ops]
  split
  · next i m hr =>
    simp only [ensures_ops]
    obtain ⟨hi, rfl⟩ := Script.signal_ok hr
    exact h i hi
  · simp

end Program

end Lockstep
