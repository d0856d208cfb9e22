import Lockstep.Proofs.Program.Refusal

/-!
# Whose symbols are whose

The symbols of a stack and the type of what is returned are made for one instance, and no other
instance has a part in them. This is kept as a record of holders, which every step of an elaboration
extends and none takes back. It bounds what a step can change: the depth of a stack only at a
recursive call of its instance, the type of a return register only where its instance returns a
value, and else only what the program resizes by itself.
-/

namespace Lockstep.Program

/-- What a type is made for. -/
inductive Use where
  | pointer | result
deriving DecidableEq

/-- The instances that types and signals were made for. -/
structure Holders where
  cell : TypeId → Option (InstanceRef × Use)
  signal : SignalId → Option InstanceRef

/-- Instances hold their own symbols, and no one holds those that are still to be made. -/
structure Holders.Records (o : Holders) (fs : Array Function) (g : Symbols) : Prop where
  cells : ∀ i, g.types.size ≤ i → o.cell i = none
  signals : ∀ d, g.signals.size ≤ d → o.signal d = none
  stack : ∀ r inst, instance? fs r = some inst → ∀ d ∈ inst.stack, o.signal d = some r
  pointer : ∀ r inst, instance? fs r = some inst → o.cell inst.spType = some (r, .pointer)
  result : ∀ r inst, instance? fs r = some inst → ∃ x t, g.signals[inst.ret]? = some x ∧
    x.type = some t ∧ o.cell t = some (r, .result)

/-- What is there in `g` has the same holders. -/
def Holders.Agrees (o o' : Holders) (g : Symbols) : Prop :=
  (∀ i < g.types.size, o'.cell i = o.cell i) ∧ ∀ d < g.signals.size, o'.signal d = o.signal d

theorem Holders.Agrees.refl (o : Holders) (g : Symbols) : o.Agrees o g :=
  ⟨fun _ _ => rfl, fun _ _ => rfl⟩

/-- No one holds the type of state codes, and the bodies under elaboration are those of instances. -/
structure Core.Held (k : Core) (o : Holders) : Prop where
  records : o.Records k.functions k.module.symbols
  code : k.code < k.module.symbols.types.size ∧ o.cell k.code = none
  building : ∀ r ∈ k.building, ∃ inst, instance? k.functions r = some inst

/-- The depth of the stack of an instance is fixed at the point. -/
def Point.Sizes (p : Point) (r : InstanceRef) : Prop :=
  ∃ request, p.event = .recurs r request ∧ (p.context.core.instanceAt r).sized = false

/-- The return register of an instance gets its type at the point. -/
def Point.Gives (p : Point) (r : InstanceRef) : Prop :=
  ∃ v t, p.event = .returns r v ∧ (p.context.core.instanceAt r).resolved = false ∧
    p.context.session.module.symbols.knownType v = some t ∧ t.isUnknown = false

namespace Core.Held

variable {base : Symbols} {k k' : Core} {o : Holders} {p : Point}

theorem instanceAt (h : k.Held o) {r : InstanceRef} (hr : r ∈ k.building) :
    instance? k.functions r = some (k.instanceAt r) := by
  obtain ⟨inst, hi⟩ := h.building r hr
  rw [Core.instanceAt, hi]
  rfl

/-- Nothing is to be recorded where no instance is made. -/
theorem like (h : k.Held o) {cells : TypeId → Prop} {words : SignalId → Prop}
    (ht : k.module.symbols.Touches cells words k'.module.symbols) (hcode : k'.code = k.code)
    (hi : ∀ r inst', instance? k'.functions r = some inst' → ∃ inst,
      instance? k.functions r = some inst ∧ inst.Like inst')
    (hb : ∀ r ∈ k'.building, ∃ inst, instance? k'.functions r = some inst) : k'.Held o := by
  refine ⟨⟨fun i hle => h.records.cells i (ht.types_size.trans hle),
    fun d hle => h.records.signals d (ht.signals_size.trans hle), fun r inst' hr d hd => ?_,
    fun r inst' hr => ?_, fun r inst' hr => ?_⟩,
    ⟨hcode ▸ h.code.1.trans_le ht.types_size, hcode ▸ h.code.2⟩, hb⟩
  all_goals obtain ⟨inst, hold, hlike⟩ := hi r inst' hr
  · rw [hlike] at hd
    exact h.records.stack r inst hold d hd
  · rw [hlike]
    exact h.records.pointer r inst hold
  · obtain ⟨x, t, hx, hxt, ho⟩ := h.records.result r inst hold
    obtain ⟨y, hy, hyx, -⟩ := ht.signals _ _ hx
    rw [hlike]
    exact ⟨y, t, hy, hyx.trans hxt, ho⟩

theorem quiet (h : k.Held o) (hq : Quiet base k k') : k'.Held o := by
  refine h.like hq.module.symbols.touches (by rw [hq.rest]) (fun r inst' hi => ?_) ?_
  · rw [hq.rest] at hi
    exact ⟨inst', hi, .refl _⟩
  · rw [hq.rest]
    exact h.building

/-- A new instance holds its symbols, which no one held before. -/
theorem make (h : k.Held o) {fn : Nat} {f : Function} {inst : Instance} {m : Module} {env : Env}
    (hf : k.functions[fn]? = some f) (hnew : NewStack env k.module m inst) (pointers : List SignalId) :
    ∃ o', Core.Held { k with
      module := m
      functions := k.functions.modify fn fun f => { f with instances := f.instances.push inst }
      pointers } o' ∧ o.Agrees o' k.module.symbols := by
  let r : InstanceRef := ⟨fn, f.instances.size⟩
  obtain ⟨x, t, u, hx, hxt, hu, hlet, hne⟩ := hnew.ret_type
  have hgrows := hnew.expands.symbols
  -- what was held is older than what is made
  have hcell {i : TypeId} {who : InstanceRef × Use} (hi : o.cell i = some who) :
      i ≠ inst.spType ∧ i ≠ t := by
    have hlt : i < k.module.symbols.types.size := by
      by_contra hle
      rw [h.records.cells i (Nat.le_of_not_lt hle)] at hi
      cases hi
    exact ⟨(hlt.trans_le hnew.type).ne, (hlt.trans_le hlet).ne⟩
  have hsignal {d : SignalId} {who : InstanceRef} (hd : o.signal d = some who) : d ∉ inst.stack := by
    intro hmem
    rw [h.records.signals d (hnew.signals d hmem)] at hd
    cases hd
  have hcases {r' : InstanceRef} {inst' : Instance} (hi : instance? (k.functions.modify fn fun f =>
      { f with instances := f.instances.push inst }) r' = some inst') :
      (r' = r ∧ inst' = inst) ∨ instance? k.functions r' = some inst' := by
    rw [instance?_pushInstance hf] at hi
    split at hi
    · next hr => exact .inl ⟨hr, (Option.some.inj hi).symm⟩
    · exact .inr hi
  refine ⟨⟨fun i => if i = inst.spType then some (r, .pointer) else if i = t then some (r, .result)
      else o.cell i, fun d => if d ∈ inst.stack then some r else o.signal d⟩,
    ⟨⟨fun i hle => ?_, fun d hle => ?_, fun r' inst' hi d hd => ?_, fun r' inst' hi => ?_,
      fun r' inst' hi => ?_⟩, ?_, fun r' hr' => ?_⟩, fun i hi => ?_, fun d hd => ?_⟩
  · have hsp : i ≠ inst.spType := by
      rintro rfl
      exact absurd (Array.getElem?_eq_some_iff.mp hnew.stacked.width).1 (Nat.not_lt.mpr hle)
    have hret : i ≠ t := by
      rintro rfl
      exact absurd (Array.getElem?_eq_some_iff.mp hu).1 (Nat.not_lt.mpr hle)
    simp only [hsp, hret, if_false]
    exact h.records.cells i (hgrows.types_size.trans hle)
  · have hout : d ∉ inst.stack := by
      intro hmem
      obtain ⟨y, hy⟩ := hnew.stacked.signal hmem
      exact absurd (Array.getElem?_eq_some_iff.mp hy).1 (Nat.not_lt.mpr hle)
    simp only [hout, if_false]
    exact h.records.signals d (hgrows.size.trans hle)
  · rcases hcases hi with ⟨rfl, rfl⟩ | hi
    · simp [hd]
    · have hold := h.records.stack r' inst' hi d hd
      simp [hsignal hold, hold]
  · rcases hcases hi with ⟨rfl, rfl⟩ | hi
    · simp
    · have hold := h.records.pointer r' inst' hi
      simp [(hcell hold).1, (hcell hold).2, hold]
  · rcases hcases hi with ⟨rfl, rfl⟩ | hi
    · exact ⟨x, t, hx, hxt, by simp [hne]⟩
    · obtain ⟨y, j, hy, hyj, hold⟩ := h.records.result r' inst' hi
      exact ⟨y, j, hgrows.signals _ _ hy, hyj, by simp [(hcell hold).1, (hcell hold).2, hold]⟩
  · have hsp : k.code ≠ inst.spType := (h.code.1.trans_le hnew.type).ne
    have hret : k.code ≠ t := (h.code.1.trans_le hlet).ne
    simp only [hsp, hret, if_false]
    exact ⟨h.code.1.trans_le hgrows.types_size, h.code.2⟩
  · obtain ⟨inst', hi⟩ := h.building r' hr'
    refine ⟨inst', ?_⟩
    rw [instance?_pushInstance hf, if_neg]
    · exact hi
    · rintro rfl
      simp [instance?, hf] at hi
  · simp only [(hi.trans_le hnew.type).ne, (hi.trans_le hlet).ne, if_false]
  · have hout : d ∉ inst.stack := fun hmem => Nat.not_lt.mpr (hnew.signals d hmem) hd
    simp only [hout, if_false]

theorem effect_agrees (h : p.context.core.Held o) (he : Effect base p k) :
    ∃ o', k.Held o' ∧ o.Agrees o' p.context.session.module.symbols := by
  have hkept {r : InstanceRef} (hr : ∃ inst, instance? p.context.session.functions r = some inst) :
      ∃ inst, instance? k.functions r = some inst := by
    obtain ⟨inst, hi⟩ := hr
    obtain ⟨inst', hi', -⟩ := he.instance_kept hi
    exact ⟨inst', hi'⟩
  have hlike (hno : ∀ fn types, p.event ≠ .makes fn types)
      (hb : ∀ r ∈ k.building, ∃ inst, instance? k.functions r = some inst) :
      ∃ o', k.Held o' ∧ o.Agrees o' p.context.session.module.symbols := by
    refine ⟨o, h.like he.touches he.rest.2.2.1 (fun r inst' hi => ?_) hb, .refl o _⟩
    rcases he.instance_cases hi with hold | ⟨hp, -⟩
    · exact hold
    · exact absurd hp (hno _ _)
  have hbuilding {r : InstanceRef} (hr : r ∈ p.context.draft.building) := hkept (h.building r hr)
  cases he with
  | keep _ _ => exact ⟨o, h, .refl o _⟩
  | make _ hf _ _ hnew _ => exact h.make hf hnew _
  | enter hp hi _ _ _ _ =>
    refine hlike (by simp [hp]) fun r hr => ?_
    rcases List.mem_cons.mp hr with rfl | hr
    · exact hkept ⟨_, hi⟩
    · exact hbuilding hr
  | leave hp => exact hlike (by simp [hp]) fun r hr => hbuilding (List.mem_of_mem_tail hr)
  | define hp | resize hp _ _ | build hp | size hp _ _ | give hp _ _ _ _ =>
    exact hlike (by simp [hp]) fun r hr => hbuilding hr

theorem effect (h : p.context.core.Held o) (he : Effect base p k) : ∃ o', k.Held o' := by
  obtain ⟨o', ho', -⟩ := h.effect_agrees he
  exact ⟨o', ho'⟩

/-- What is held by an instance changes only where its stack is sized or its register gets a type,
and where the program itself resizes a type. -/
theorem touches (h : p.context.core.Held o) (he : Effect base p k) :
    p.context.session.module.symbols.Touches
      (fun i => p.Resizes i ∨ i = p.context.core.code ∨ ∃ r,
        (o.cell i = some (r, .pointer) ∧ p.Sizes r) ∨
        (o.cell i = some (r, .result) ∧ p.Gives r))
      (fun d => ∃ r, o.signal d = some r ∧ p.Sizes r) k.module.symbols := by
  have htouch := he.touches
  cases he with
  | keep _ _ | define _ | enter _ _ _ _ _ _ | leave _ => exact .refl _
  | make _ _ _ _ hnew _ => exact .of_grows hnew.expands.symbols
  | resize hp _ _ =>
    refine htouch.mono (fun i hi => .inl ⟨⟨_, _, _, hp⟩, hi⟩) fun i hi => ?_
    simp [Point.words, hp] at hi
  | build hp =>
    refine htouch.mono (fun i hi => .inr (.inl ?_)) fun i hi => ?_
    · simp only [Point.cells, hp] at hi
      exact hi
    · simp [Point.words, hp] at hi
  | @size r request hp hr hsized =>
    have hi := h.instanceAt hr
    refine htouch.mono (fun i hc => .inr (.inr ⟨r, .inl ⟨?_, request, hp, hsized⟩⟩))
      fun d hd => ⟨r, ?_, request, hp, hsized⟩
    · simp only [Point.cells, hp] at hc
      exact hc ▸ h.records.pointer r _ hi
    · simp only [Point.words, hp] at hd
      exact h.records.stack r _ hi d (List.mem_cons_of_mem _ hd)
  | @give r v t hp hr hres ht hu =>
    obtain ⟨x, j, hx, hj, ho⟩ := h.records.result r _ (h.instanceAt hr)
    refine htouch.mono (fun i hc => .inr (.inr ⟨r, .inr ⟨?_, v, t, hp, hres, ht, hu⟩⟩)) fun d hd => ?_
    · simp only [Point.cells, hp] at hc
      obtain ⟨y, hy, hi⟩ := hc
      cases hx.symm.trans hy
      exact Option.some.inj (hj.symm.trans hi) ▸ ho
    · simp [Point.words, hp] at hd

end Core.Held

theorem Holders.Records.grow {o : Holders} {fs : Array Function} {g g' : Symbols}
    (h : o.Records fs g) (hg : g.Grows g') : o.Records fs g' where
  cells i hle := h.cells i (hg.types_size.trans hle)
  signals d hle := h.signals d (hg.size.trans hle)
  stack := h.stack
  pointer := h.pointer
  result r inst hi := by
    obtain ⟨x, t, hx, ht, ho⟩ := h.result r inst hi
    exact ⟨x, t, hg.signals _ x hx, ht, ho⟩

theorem held_draft {s : Session} {o : Holders} (h : o.Records s.functions s.module.symbols)
    (opts : Options) : (draft s opts).core.Held o where
  records := h.grow (draft_expands s opts).symbols
  code := by
    obtain ⟨-, -, -, t, ht⟩ := draft_placed s opts
    exact ⟨(Array.getElem?_eq_some_iff.mp ht).1, h.cells _ (owns_draft s opts).code⟩
  building _ hr := absurd hr List.not_mem_nil

/-- At the end of an elaboration no pointer is resized, and no type that is known. -/
theorem Core.Held.settle {k : Core} {o : Holders} {g g' : Symbols} (h : k.Held o) (hg : k.Settles g)
    (hg' : g' = g ∨ ∃ w, g' = g.setType k.code w) : o.Records k.functions g' ∧
      g'.signals = k.module.symbols.signals ∧
      ∀ (i : TypeId) t, k.module.symbols.types[i]? = some t → ∃ u, g'.types[i]? = some u ∧
        ∀ r use, o.cell i = some (r, use) → use = .pointer ∨ t.isUnknown = false → u = t := by
  have hsignals : g'.signals = k.module.symbols.signals := by
    rcases hg' with rfl | ⟨w, rfl⟩ <;> exact hg.signals
  have htypes : ∀ (i : TypeId) t, k.module.symbols.types[i]? = some t → ∃ u, g'.types[i]? = some u ∧
      ∀ r use, o.cell i = some (r, use) → use = .pointer ∨ t.isUnknown = false → u = t := by
    intro i t ht
    obtain ⟨u, hu, hsame⟩ := hg.types i t ht
    have hsettled : ∀ r use, o.cell i = some (r, use) → use = .pointer ∨ t.isUnknown = false →
        u = t := by
      intro r use hcell huse
      refine hsame (huse.imp_left fun hptr => ?_)
      rintro ⟨r', inst, x, -, hi, hx, hxi⟩
      obtain ⟨y, j, hy, hj, hres⟩ := h.records.result r' inst hi
      cases hx.symm.trans hy
      cases hj.symm.trans hxi
      rw [hcell, hptr] at hres
      cases hres
    rcases hg' with rfl | ⟨w, rfl⟩
    · exact ⟨u, hu, hsettled⟩
    · by_cases hcode : k.code = i
      · subst hcode
        refine ⟨w, ?_, fun r use hcell => ?_⟩
        · simp [Symbols.setType, (Array.getElem?_eq_some_iff.mp hu).1]
        · rw [h.code.2] at hcell
          cases hcell
      · exact ⟨u, by rwa [Symbols.setType, Array.getElem?_setIfInBounds_ne hcode], hsettled⟩
  refine ⟨⟨fun i hle => h.records.cells i ?_, ?_, h.records.stack, h.records.pointer, ?_⟩, hsignals,
    htypes⟩
  · by_contra hlt
    obtain ⟨u, hu, -⟩ := htypes i _ (Array.getElem?_eq_getElem (Nat.lt_of_not_le hlt))
    exact absurd (Array.getElem?_eq_some_iff.mp hu).1 (Nat.not_lt.mpr hle)
  · rw [hsignals]
    exact h.records.signals
  · rw [hsignals]
    exact h.records.result

/-! ## How far instances are elaborated -/

/-- A stack is sized where a point says so, and a register gets its type where a value is returned;
neither is taken back. -/
structure Instance.Proceeds (p : Point) (r : InstanceRef) (inst inst' : Instance) : Prop where
  like : inst.Like inst'
  sized : inst.sized = true → inst'.sized = true
  sizes : inst'.sized = true → inst.sized = true ∨ p.Sizes r
  resolved : inst.resolved = true → inst'.resolved = true
  gives : inst'.resolved = true → inst.resolved = true ∨ p.Gives r

theorem Instance.Proceeds.refl (p : Point) (r : InstanceRef) (inst : Instance) :
    inst.Proceeds p r inst := ⟨.refl inst, id, .inl, id, .inl⟩

theorem Effect.proceeds {base : Symbols} {p : Point} {k : Core} (h : Effect base p k)
    {r : InstanceRef} {inst : Instance} (hi : instance? p.context.session.functions r = some inst) :
    ∃ inst', instance? k.functions r = some inst' ∧ inst.Proceeds p r inst' := by
  have hmodify {r₀ : InstanceRef} {change : Instance → Instance}
      (hc : r₀ = r → inst.Proceeds p r (change inst)) :
      ∃ inst', instance? (p.context.core.modifyInstance r₀ change).functions r = some inst' ∧
        inst.Proceeds p r inst' := by
    rw [Core.modifyInstance, instance?_modifyInstance]
    split
    · next hr =>
      subst hr
      exact ⟨_, Option.map_eq_some_iff.mpr ⟨inst, hi, rfl⟩, hc rfl⟩
    · exact ⟨inst, hi, .refl p r inst⟩
  cases h with
  | keep _ _ | resize _ _ _ | build _ | leave _ => exact ⟨inst, hi, .refl p r inst⟩
  | define _ => exact ⟨inst, by rwa [Core.define, instance?_push rfl], .refl p r inst⟩
  | make _ hf _ _ _ _ =>
    refine ⟨inst, ?_, .refl p r inst⟩
    rw [instance?_pushInstance hf, if_neg]
    · exact hi
    · rintro rfl
      simp [instance?, hf] at hi
  | size hp _ hsized =>
    exact hmodify fun hr => ⟨rfl, fun _ => rfl, fun _ => .inr ⟨_, hr ▸ hp, hr ▸ hsized⟩, id, .inl⟩
  | enter _ _ _ _ _ _ => exact hmodify fun _ => ⟨rfl, id, .inl, id, .inl⟩
  | give hp _ hres ht hu =>
    exact hmodify fun hr =>
      ⟨rfl, id, .inl, fun _ => rfl, fun _ => .inr ⟨_, _, hr ▸ hp, hr ▸ hres, ht, hu⟩⟩

/-! ## Up to a point -/

theorem Instance.Like.trans {a b c : Instance} (h : a.Like b) (h' : b.Like c) : a.Like c := by
  rw [Like, h', h]

namespace Threads

variable {base : Symbols} {k k' : Core} {t u : List Point} {p : Point}

/-- A run through a point is a run up to it, its effect, and a run from there. -/
theorem split (h : Threads base k (t ++ p :: u) k') : Threads base k t p.context.core ∧
    ∃ k₁, Effect base p k₁ ∧ Threads base k₁ u k' := by
  induction t generalizing k with
  | nil =>
    cases h with
    | pass hq he h => exact ⟨.done hq, _, he, h⟩
  | cons q t ih =>
    cases h with
    | pass hq he h => exact ⟨.pass hq he (ih h).1, (ih h).2⟩

theorem effect (h : Threads base k t k') (hp : p ∈ t) : ∃ k₁, Effect base p k₁ := by
  obtain ⟨u, v, rfl⟩ := List.append_of_mem hp
  obtain ⟨-, k₁, he, -⟩ := h.split
  exact ⟨k₁, he⟩

/-- What is kept may depend on the points passed so far. -/
theorem collect {P : List Point → Core → Prop} (h : Threads base k t k')
    (hquiet : ∀ u k k', Core.Quiet base k k' → P u k → P u k')
    (heffect : ∀ u, ∀ p ∈ t, ∀ k, Effect base p k → P u p.context.core → P (u ++ [p]) k)
    {u : List Point} (hk : P u k) : P (u ++ t) k' := by
  induction h generalizing u with
  | done hq => simpa using hquiet u _ _ hq hk
  | @pass k k₁ k' p t hq he _ ih =>
    rw [List.append_cons]
    refine ih (fun u q hq => heffect u q (List.mem_cons_of_mem p hq)) ?_
    exact heffect u p List.mem_cons_self k₁ he (hquiet u _ _ hq hk)

theorem instance_kept (h : Threads base k t k') {r : InstanceRef} {inst : Instance}
    (hi : instance? k.functions r = some inst) :
    ∃ inst', instance? k'.functions r = some inst' ∧ inst.Like inst' := by
  refine h.invariant (I := fun k => ∃ inst', instance? k.functions r = some inst' ∧ inst.Like inst')
    (fun k k' hq hk => ?_) (fun p k he hk => ?_) ⟨inst, hi, .refl _⟩
  · rw [hq.rest]
    exact hk
  · obtain ⟨inst₁, hi₁, hlike₁⟩ := hk
    obtain ⟨inst₂, hi₂, hlike₂, -⟩ := he.instance_kept hi₁
    exact ⟨inst₂, hi₂, hlike₁.trans hlike₂⟩

/-- What no instance holds is kept, but for types that the program resizes. -/
theorem unheld {o : Holders} (h : Threads base k t k') (hk : k.Held o) :
    (∀ (d : SignalId) x, k.module.symbols.signals[d]? = some x → o.signal d = none →
      k'.module.symbols.signals[d]? = some x) ∧
    ∀ (i : TypeId) u, k.module.symbols.types[i]? = some u → o.cell i = none → i ≠ k.code →
      (∀ p ∈ t, ¬ p.Resizes i) → k'.module.symbols.types[i]? = some u := by
  induction h generalizing o with
  | done hq => exact ⟨fun d x hx _ => hq.module.symbols.signals d x hx,
      fun i u hu _ _ _ => hq.module.symbols.types i u hu⟩
  | @pass k k₁ k' p t hq he _ ih =>
    have hp := hk.quiet hq
    have htouch := hp.touches he
    have hcode : p.context.core.code = k.code := by rw [hq.rest]
    obtain ⟨o', ho', hcells, hsignals⟩ := hp.effect_agrees he
    obtain ⟨ihsignals, ihtypes⟩ := ih ho'
    refine ⟨fun d x hx hfree => ?_, fun i u hu hfree hne hno => ?_⟩
    · have hx₀ := hq.module.symbols.signals d x hx
      obtain ⟨y, hy, -, hsame⟩ := htouch.signals d x hx₀
      obtain rfl := hsame (by simp [hfree])
      refine ihsignals d y hy ?_
      rw [hsignals d (Array.getElem?_eq_some_iff.mp hx₀).1]
      exact hfree
    · have hu₀ := hq.module.symbols.types i u hu
      obtain ⟨v, hv, hsame⟩ := htouch.types i u hu₀
      obtain rfl := hsame (by simp [hfree, hcode, hne, hno p List.mem_cons_self])
      refine ihtypes i v hv ?_ ?_ fun p' hp' => hno p' (List.mem_cons_of_mem p hp')
      · rw [hcells i (Array.getElem?_eq_some_iff.mp hu₀).1]
        exact hfree
      · rw [he.rest.2.2.1, hcode]
        exact hne

end Threads

theorem Stops.upto {base : Symbols} {k k' : Core} {t u : List Point} {p : Point} {e : Error}
    (h : Stops base k (t ++ p :: u) e k') : Threads base k t p.context.core := by
  have hlast {v : List Point} {q : Point} (hrun : Threads base k v q.context.core)
      (heq : v ++ [q] = t ++ p :: u) : Threads base k t p.context.core := by
    rcases List.eq_nil_or_concat u with rfl | ⟨u', q', rfl⟩
    · obtain ⟨rfl, hq⟩ := List.append_inj' heq rfl
      rwa [← List.singleton_inj.mp hq]
    · rw [List.concat_eq_append, ← List.cons_append, ← List.append_assoc] at heq
      obtain ⟨rfl, -⟩ := List.append_inj' heq rfl
      exact hrun.split.1
  generalize hw : t ++ p :: u = w at h
  cases h with
  | after h _ => exact (hw ▸ h).split.1
  | refused h _ | endless h _ => exact hlast h hw.symm

namespace Concludes

variable {base : Symbols} {k₀ k' : Core} {t u : List Point} {result : Except Error Sequencer}
  {p : Point}

theorem upto (h : Concludes base k₀ (t ++ p :: u) result k') : Threads base k₀ t p.context.core := by
  cases h with
  | stops h => exact h.upto
  | unbuilt h _ _ | built h _ _ _ _ => exact h.split.1

/-- A point has its effect, unless the program fails there. -/
theorem effect (h : Concludes base k₀ t result k') (hp : p ∈ t) (hno : ∀ e, ¬ p.Refuses e)
    (hend : p.event ≠ .exhausts) : ∃ k, Effect base p k := by
  cases h with
  | stops h =>
    cases h with
    | after h _ => exact h.effect hp
    | refused h hr =>
      rcases List.mem_append.mp hp with hp | hp
      · exact h.effect hp
      · exact absurd (List.mem_singleton.mp hp ▸ hr) (hno _)
    | endless h he =>
      rcases List.mem_append.mp hp with hp | hp
      · exact h.effect hp
      · exact absurd (List.mem_singleton.mp hp ▸ he) hend
  | unbuilt h _ _ | built h _ _ _ _ => exact h.effect hp

/-- At its end an elaboration settles what is left open, and perhaps sizes its state codes. -/
theorem ends (h : Concludes base k₀ t result k') : ∃ u k g, u ⊆ t ∧ (∀ q, result = .ok q → u = t) ∧
    Threads base k₀ u k ∧ k.Settles g ∧ k'.functions = k.functions ∧
      (k'.module.symbols = g ∨ ∃ w, k'.module.symbols = g.setType k.code w) := by
  have hhalt (k : Core) (e : Error) :
      (k.halt e).functions = k.functions ∧ (k.halt e).module = k.module := by
    unfold Core.halt
    split <;> exact ⟨rfl, rfl⟩
  cases h with
  | stops h =>
    obtain ⟨u, k, hrun, hu, rfl⟩ := h.threads
    obtain ⟨hf, hm⟩ := hhalt k _
    exact ⟨u, k, _, hu, by simp, hrun, .refl _, hf, .inl (by rw [hm])⟩
  | @unbuilt k g g' e h hg hg' =>
    obtain ⟨hf, hm⟩ := hhalt (k.withSymbols g') (.machine e)
    exact ⟨t, k, g, List.Subset.refl t, fun _ _ => rfl, h, hg, hf, by rwa [hm]⟩
  | @built k g q next h hg _ htype _ =>
    refine ⟨t, k, g, List.Subset.refl t, fun _ _ => rfl, h, hg, rfl,
      .inr ⟨.unsigned q.machine.registerWidth, ?_⟩⟩
    rw [← htype]
    rfl

end Concludes

end Lockstep.Program
