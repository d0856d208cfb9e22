import Lockstep.Proofs.Range
import Lockstep.Proofs.Program.Holdings

/-!
# Values that are returned

The register for what a function returns gets its type from the declaration of the function, or from
the first value of a known type that is returned. From then on it keeps this type, and values that do
not fit are refused. So the type that a value has when it is returned fits the register of the
finished program, and if the value still has this type there, nothing of it is lost.

The type of a value may change later. A function that returns what another one gave it, which is
still being elaborated itself, returns a value of a type that is not known yet. Nobody looks at it
again once it is.
-/

namespace Lockstep

theorem SignalType.fitsWithin_self (t : SignalType) : t.fitsWithin t = true := by
  cases hs : t.signed <;> simp [fitsWithin, hs]

theorem Symbols.Touches.signalType {cells : TypeId → Prop} {words : SignalId → Prop} {g g' : Symbols}
    (h : g.Touches cells words g') {d : SignalId} {t : SignalType} (ht : g.signalType d = some t)
    (hc : ∀ x i, g.signals[d]? = some x → x.type = some i → ¬ cells i) :
    g'.signalType d = some t := by
  obtain ⟨x, hx, hxt⟩ := Option.bind_eq_some_iff.mp ht
  obtain ⟨i, hi, hti⟩ := Option.bind_eq_some_iff.mp hxt
  obtain ⟨y, hy, hyx, -⟩ := h.signals d x hx
  obtain ⟨u, hu, hsame⟩ := h.types i t hti
  rw [Symbols.signalType, hy, Option.bind_some, hyx, hi, ← hsame (hc x i hx hi)]
  exact hu

namespace Program

/-- A command of the program changes the type of the signal. -/
def Point.Retypes (p : Point) (d : SignalId) : Prop :=
  ∃ x i, p.context.session.module.symbols.signals[d]? = some x ∧ x.type = some i ∧ p.Resizes i

/-- Types that functions declare are known, and so are those of registers that have got one. -/
structure Pledges (fs : Array Function) (g : Symbols) : Prop where
  declared : ∀ (fn : Nat) f t, fs[fn]? = some f → f.returns = some t → t.isUnknown = false
  registers : ∀ r inst, instance? fs r = some inst → inst.resolved = true →
    ∃ t, g.signalType inst.ret = some t ∧ t.isUnknown = false

theorem Effect.serves {base : Symbols} {p : Point} {k : Core} (h : Effect base p k)
    {r : InstanceRef} {inst : Instance} (hold : instance? p.context.session.functions r = none)
    (hi : instance? k.functions r = some inst) :
    ∃ f types, p.context.session.functions[r.function]? = some f ∧
      inst.Serves k.module.symbols f types := by
  have hmodify {r₀ : InstanceRef} {change : Instance → Instance}
      (hi : instance? (p.context.core.modifyInstance r₀ change).functions r = some inst) : False := by
    rw [Core.modifyInstance, instance?_modifyInstance] at hi
    split at hi
    · next hr =>
      subst hr
      simp [Context.core, hold] at hi
    · simp [Context.core, hold] at hi
  cases h with
  | keep _ _ | resize _ _ _ | build _ | leave _ => exact absurd (hold.symm.trans hi) (by simp)
  | define _ =>
    rw [Core.define, instance?_push rfl] at hi
    exact absurd (hold.symm.trans hi) (by simp)
  | make _ hf _ _ _ hserves =>
    rw [instance?_pushInstance hf] at hi
    split at hi
    · next hr =>
      subst hr
      cases hi
      exact ⟨_, _, hf, hserves⟩
    · exact absurd (hold.symm.trans hi) (by simp)
  | size _ _ _ | enter _ _ _ _ _ _ | give _ _ _ _ _ => exact (hmodify hi).elim

namespace Core.Held

variable {base : Symbols} {k : Core} {o : Holders} {p : Point}

/-- A register keeps its type, unless it is given one or the program resizes it. -/
theorem register_kept (h : p.context.core.Held o) (he : Effect base p k) {r : InstanceRef}
    {inst : Instance} (hi : instance? p.context.session.functions r = some inst)
    (hno : ¬ p.Retypes inst.ret) (hg : ¬ p.Gives r) {t : SignalType}
    (ht : p.context.session.module.symbols.signalType inst.ret = some t) :
    k.module.symbols.signalType inst.ret = some t := by
  refine (h.touches he).signalType ht fun x i hx hxi => ?_
  obtain ⟨y, j, hy, hyj, hcell⟩ := h.records.result r inst hi
  cases hx.symm.trans hy
  cases hxi.symm.trans hyj
  rw [hcell]
  rintro (hres | hcode | ⟨r', ⟨hr', -⟩ | ⟨hr', hg'⟩⟩)
  · exact hno ⟨x, i, hx, hxi, hres⟩
  · rw [hcode, h.code.2] at hcell
    cases hcell
  · cases hr'
  · obtain rfl : r = r' := (Prod.mk.inj (Option.some.inj hr')).1
    exact hg hg'

/-- A register that is given a type at a point has it afterwards. -/
theorem register_given (h : p.context.core.Held o) (he : Effect base p k) {r : InstanceRef}
    {inst : Instance} (hi : instance? p.context.session.functions r = some inst) {v : Expr}
    {t : SignalType} (hp : p.event = .returns r v)
    (hres : (p.context.core.instanceAt r).resolved = false)
    (ht : p.context.session.module.symbols.knownType v = some t) (hu : t.isUnknown = false) :
    k.module.symbols.signalType inst.ret = some t ∧
      instance? k.functions r = some { inst with resolved := true } := by
  have hat : p.context.core.instanceAt r = inst := by simp [Core.instanceAt, Context.core, hi]
  cases he with
  | keep hacts _ =>
    rw [Point.Acts, hp] at hacts
    exact absurd ⟨hres, t, ht, hu⟩ hacts
  | @give r' v' t' hp' hr _ ht' _ =>
    obtain ⟨rfl, rfl⟩ : r' = r ∧ v' = v := by simpa using hp'.symm.trans hp
    obtain rfl := Option.some.inj (ht'.symm.trans ht)
    obtain ⟨x, j, hx, hj, hcell⟩ := h.records.result r' inst hi
    have hlt : j < p.context.session.module.symbols.types.size := by
      by_contra hle
      rw [h.records.cells j (Nat.le_of_not_lt hle)] at hcell
      cases hcell
    have hx' : p.context.session.module.symbols.signals[inst.ret]? = some x := hx
    have hresize : p.context.session.module.symbols.resize inst.ret t' =
        some (p.context.session.module.symbols.setType j t') := by
      simp [Symbols.resize, hx', hj]
    constructor
    · simp [Core.modifyInstance, Core.withSymbols, hat, hresize, Symbols.signalType, Symbols.setType,
        Symbols.type?, hx', hj, hlt]
    · rw [Core.modifyInstance, instance?_modifyInstance, if_pos rfl]
      exact Option.map_eq_some_iff.mpr ⟨inst, hi, rfl⟩
  | define hp' | resize hp' _ _ | build hp' | make hp' _ _ _ _ _ | enter hp' _ _ _ _ _ | leave hp'
  | size hp' _ _ =>
    rw [hp] at hp'
    cases hp'

end Core.Held

namespace Pledges

variable {base : Symbols} {k k' : Core} {o : Holders} {p : Point}

theorem quiet (h : Pledges k.functions k.module.symbols) (hq : Core.Quiet base k k') :
    Pledges k'.functions k'.module.symbols := by
  have hfs : k'.functions = k.functions := by rw [hq.rest]
  rw [hfs]
  refine ⟨h.declared, fun r inst hi hres => ?_⟩
  obtain ⟨t, ht, hu⟩ := h.registers r inst hi hres
  exact ⟨t, hq.module.symbols.touches.signalType ht fun _ _ _ _ => id, hu⟩

theorem declared_kept (h : Pledges p.context.session.functions p.context.session.module.symbols)
    (he : Effect base p k) (hdef : ∀ n name depth t overflow body,
      p.event = .performs n (.define name depth (some t) overflow body) → t.isUnknown = false)
    {fn : Nat} {f : Function} {t : SignalType} (hf : k.functions[fn]? = some f)
    (ht : f.returns = some t) : t.isUnknown = false := by
  have hmodify {fn₀ : Nat} {change : Function → Function}
      (hf : (p.context.session.functions.modify fn₀ change)[fn]? = some f)
      (hc : ∀ f, (change f).returns = f.returns) : t.isUnknown = false := by
    rw [Array.getElem?_modify] at hf
    split at hf
    · obtain ⟨f', hf', rfl⟩ := Option.map_eq_some_iff.mp hf
      exact h.declared fn f' t hf' (by rwa [hc] at ht)
    · exact h.declared fn f t hf ht
  cases he with
  | keep _ _ | resize _ _ _ | build _ | leave _ => exact h.declared fn f t hf ht
  | @define n name depth returns overflow body hp =>
    rw [Core.define, Array.getElem?_push] at hf
    split at hf
    · cases hf
      subst ht
      exact hdef n name depth t overflow body hp
    · exact h.declared fn f t hf ht
  | make _ _ _ _ _ _ | size _ _ _ | enter _ _ _ _ _ _ | give _ _ _ _ _ =>
    exact hmodify hf fun _ => rfl

theorem effect (h : Pledges p.context.session.functions p.context.session.module.symbols)
    (ho : p.context.core.Held o) (he : Effect base p k)
    (hdef : ∀ n name depth t overflow body,
      p.event = .performs n (.define name depth (some t) overflow body) → t.isUnknown = false)
    (hno : ∀ r inst, instance? p.context.session.functions r = some inst → ¬ p.Retypes inst.ret) :
    Pledges k.functions k.module.symbols := by
  refine ⟨fun fn f t => h.declared_kept he hdef, fun r inst' hi' hres' => ?_⟩
  cases hi : instance? p.context.session.functions r with
  | none =>
    obtain ⟨f, types, hf, hserves⟩ := he.serves hi hi'
    rw [hserves.resolved] at hres'
    obtain ⟨t, ht⟩ := Option.isSome_iff_exists.mp hres'
    refine ⟨t, ?_, h.declared _ f t hf ht⟩
    rw [hserves.register, ht]
    rfl
  | some inst =>
    obtain ⟨inst₁, hi₁, hstep⟩ := he.proceeds hi
    obtain rfl := Option.some.inj (hi₁.symm.trans hi')
    have hret : inst₁.ret = inst.ret := by rw [hstep.like]
    rw [hret]
    by_cases hgives : p.Gives r
    · obtain ⟨v, t, hp, hres, ht, hu⟩ := hgives
      exact ⟨t, (ho.register_given he hi hp hres ht hu).1, hu⟩
    · obtain ⟨t, ht, hu⟩ := h.registers r inst hi ((hstep.gives hres').resolve_right hgives)
      exact ⟨t, ho.register_kept he hi (hno r inst hi) hgives ht, hu⟩

end Pledges

/-! ## From a return on -/

/-- The register of an instance has got its type. -/
structure Core.Gave (k : Core) (r : InstanceRef) (t : SignalType) : Prop where
  held : ∃ o, k.Held o
  register : ∃ inst, instance? k.functions r = some inst ∧ inst.resolved = true ∧
    k.module.symbols.signalType inst.ret = some t

namespace Core.Gave

variable {base : Symbols} {k k' : Core} {p : Point} {r : InstanceRef} {t : SignalType}

theorem quiet (h : k.Gave r t) (hq : Quiet base k k') : k'.Gave r t := by
  obtain ⟨o, ho⟩ := h.held
  obtain ⟨inst, hi, hres, ht⟩ := h.register
  refine ⟨⟨o, ho.quiet hq⟩, inst, ?_, hres, hq.module.symbols.touches.signalType ht fun _ _ _ _ => id⟩
  rw [hq.rest]
  exact hi

theorem effect (h : p.context.core.Gave r t) (he : Effect base p k)
    (hno : ∀ r inst, instance? p.context.session.functions r = some inst → ¬ p.Retypes inst.ret) :
    k.Gave r t := by
  obtain ⟨o, ho⟩ := h.held
  obtain ⟨inst, hi, hres, ht⟩ := h.register
  obtain ⟨inst', hi', hstep⟩ := he.proceeds hi
  have hgives : ¬ p.Gives r := by
    rintro ⟨v, u, -, hunresolved, -⟩
    rw [Core.instanceAt, hi, Option.getD_some, hres] at hunresolved
    cases hunresolved
  refine ⟨ho.effect he, inst', hi', hstep.resolved hres, ?_⟩
  rw [show inst'.ret = inst.ret by rw [hstep.like]]
  exact ho.register_kept he hi (hno r inst hi) hgives ht

theorem settle (h : k.Gave r t) (hu : t.isUnknown = false) {g g' : Symbols} (hg : k.Settles g)
    (hg' : g' = g ∨ ∃ w, g' = g.setType k.code w) :
    ∃ inst, instance? k.functions r = some inst ∧ g'.signalType inst.ret = some t := by
  obtain ⟨o, ho⟩ := h.held
  obtain ⟨inst, hi, -, ht⟩ := h.register
  obtain ⟨-, hsignals, htypes⟩ := ho.settle hg hg'
  obtain ⟨x, j, hx, hj, hcell⟩ := ho.records.result r inst hi
  refine ⟨inst, hi, ?_⟩
  rw [Symbols.signalType, hx, Option.bind_some, hj] at ht
  obtain ⟨u, hu', hsame⟩ := htypes j t ht
  rw [Symbols.signalType, hsignals, hx, Option.bind_some, hj, ← hsame r .result hcell (.inr hu)]
  exact hu'

/-- After a value of a known type is returned, the register has a type that it fits. -/
theorem of_returns {o : Holders} (ho : p.context.core.Held o)
    (hpl : Pledges p.context.session.functions p.context.session.module.symbols)
    (he : Effect base p k)
    (hno : ∀ r inst, instance? p.context.session.functions r = some inst → ¬ p.Retypes inst.ret)
    {v : Expr} (hp : p.event = .returns r v)
    (ht : p.context.session.module.symbols.knownType v = some t) (hu : t.isUnknown = false) :
    ∃ register, k.Gave r register ∧ register.isUnknown = false ∧ t.fitsWithin register = true := by
  cases hi : instance? p.context.session.functions r with
  | none =>
    -- without an instance there is no register, and something has to be given
    have hat : p.context.core.instanceAt r = default := by
      rw [Core.instanceAt, show instance? p.context.core.functions r = none from hi]
      rfl
    cases he with
    | keep hacts _ =>
      rw [Point.Acts, hp] at hacts
      exact absurd ⟨by rw [hat]; rfl, t, ht, hu⟩ hacts
    | @give r' v' t' hp' hr _ _ _ =>
      obtain ⟨rfl, -⟩ : r' = r ∧ v' = v := by simpa using hp'.symm.trans hp
      obtain ⟨inst, hi'⟩ := ho.building r' hr
      exact absurd (hi.symm.trans hi') (by simp)
    | define hp' | resize hp' _ _ | build hp' | make hp' _ _ _ _ _ | enter hp' _ _ _ _ _ | leave hp'
    | size hp' _ _ =>
      rw [hp] at hp'
      cases hp'
  | some inst =>
    have hat : p.context.core.instanceAt r = inst := by
      rw [Core.instanceAt, show instance? p.context.core.functions r = some inst from hi]
      rfl
    by_cases hres : inst.resolved = true
    · obtain ⟨register, hreg, hknown⟩ := hpl.registers r inst hi hres
      have hgave : p.context.core.Gave r register := ⟨⟨o, ho⟩, inst, hi, hres, hreg⟩
      refine ⟨register, hgave.effect he hno, hknown, ?_⟩
      by_contra hfits
      refine he.accepted (.returnType (p.context.function r.function).name (some t)
        (p.context.session.module.symbols.signalType inst.ret)) ?_
      rw [Point.Refuses, hp]
      simp only [hat]
      exact ⟨t, ht, hu, hres, by rw [hreg]; simpa [TypeSlot.fitsWithin] using hfits, rfl⟩
    · have hunresolved : (p.context.core.instanceAt r).resolved = false := by
        rw [hat]
        simpa using hres
      obtain ⟨hreg, hi'⟩ := ho.register_given he hi hp hunresolved ht hu
      exact ⟨t, ⟨ho.effect he, _, hi', rfl, hreg⟩, hu, t.fitsWithin_self⟩

end Core.Gave

/-! ## Whole programs -/

/-- Registers are held by their instances, and their types are as they should be. -/
structure Session.Pledges (s : Session) : Prop
    extends Program.Pledges s.functions s.module.symbols where
  held : ∃ o : Holders, o.Records s.functions s.module.symbols

theorem Session.pledges_of_empty {s : Session} (h : s.functions = #[]) : s.Pledges where
  declared := by simp [h]
  registers := by simp [instance?, h]
  held := by
    refine ⟨⟨fun _ => none, fun _ => none⟩, ?_⟩
    constructor <;> simp [instance?, h]

theorem Threads.pledges {base : Symbols} {k k' : Core} {t : List Point} (h : Threads base k t k')
    (hdef : ∀ p ∈ t, ∀ n name depth t overflow body,
      p.event = .performs n (.define name depth (some t) overflow body) → t.isUnknown = false)
    (hno : ∀ p ∈ t, ∀ r inst, instance? p.context.session.functions r = some inst →
      ¬ p.Retypes inst.ret)
    (hk : (∃ o, k.Held o) ∧ Pledges k.functions k.module.symbols) :
    (∃ o, k'.Held o) ∧ Pledges k'.functions k'.module.symbols := by
  refine h.collect (P := fun _ k => (∃ o, k.Held o) ∧ Pledges k.functions k.module.symbols) (u := [])
    (fun _ k k' hq hk => ?_) (fun _ p hp k he hk => ?_) hk
  · obtain ⟨⟨o, ho⟩, hpl⟩ := hk
    exact ⟨⟨o, ho.quiet hq⟩, hpl.quiet hq⟩
  · obtain ⟨⟨o, ho⟩, hpl⟩ := hk
    exact ⟨ho.effect he, hpl.effect ho he (hdef p hp) (hno p hp)⟩

/-- The instance that returns a value at the point, and the type of the value as it is known then. -/
def Point.returned (p : Point) : Option (InstanceRef × TypeSlot) :=
  match p.event with
  | .returns r v => some (r, p.context.session.module.symbols.knownType v)
  | _ => none

theorem Point.returns_of_returned {p : Point} {r : InstanceRef} {t : TypeSlot}
    (h : p.returned = some (r, t)) :
    ∃ v, p.event = .returns r v ∧ p.context.session.module.symbols.knownType v = t := by
  unfold returned at h
  split at h
  · next r' v hp =>
    obtain ⟨rfl, rfl⟩ := Prod.mk.inj (Option.some.inj h)
    exact ⟨v, hp, rfl⟩
  · cases h

/-- A function is defined without a type for what it returns, or another command is performed. -/
def Event.leavesTypes : Event → Bool
  | .performs _ (.define _ _ result _ _) => result.isNone
  | .performs _ (.resize _ _) => false
  | _ => true

/-- The type that a value has when it is returned fits the register of the finished program. Where
the value still has this type then, the register takes the number that the value stands for. -/
theorem returned_values_fit {s : Session} (hs : ∀ p ∈ s.scope.functions, p.2 < s.functions.size)
    (hpl : s.Pledges) (opts : Options) (body : List Command)
    (hdef : ∀ p ∈ course s opts body, ∀ n name depth t overflow inner,
      p.event = .performs n (.define name depth (some t) overflow inner) → t.isUnknown = false)
    (hno : ∀ p ∈ course s opts body, ∀ r inst,
      instance? p.context.session.functions r = some inst → ¬ p.Retypes inst.ret)
    {q : Sequencer} (hok : (build s opts body).1 = .ok q) {p : Point} (hp : p ∈ course s opts body)
    {r : InstanceRef} {v : Expr} (hret : p.event = .returns r v) {t : SignalType}
    (ht : p.context.session.module.symbols.knownType v = some t) (hu : t.isUnknown = false) :
    ∃ inst register, instance? (build s opts body).2.functions r = some inst ∧
      (build s opts body).2.module.symbols.signalType inst.ret = some register ∧
      t.fitsWithin register = true ∧
      ((build s opts body).2.module.symbols.knownType v = some t →
        TypeSlot.isResolved (some register) = true → ∀ σ : Sim.State,
          Word.reading (some register) (Word.fit (some t) (TypeSlot.bits (some register))
            (Sim.eval (build s opts body).2.module.symbols σ v)) =
          Word.reading (some t) (Sim.eval (build s opts body).2.module.symbols σ v)) := by
  obtain ⟨k', hends, hshow⟩ := build_concludes hs opts body
  obtain ⟨u, k, g, -, hall, hrun, hg, hfs, hg'⟩ := hends.ends
  obtain rfl := hall q hok
  obtain ⟨o, ho⟩ := hpl.held
  have hdraft : Pledges (draft s opts).core.functions (draft s opts).core.module.symbols := by
    refine ⟨hpl.declared, fun r inst hi hres => ?_⟩
    obtain ⟨t, ht, hu⟩ := hpl.registers r inst hi hres
    exact ⟨t, (draft_expands s opts).symbols.touches.signalType ht fun _ _ _ _ => id, hu⟩
  obtain ⟨before, after, heq⟩ := List.append_of_mem hp
  rw [heq] at hrun hdef hno
  obtain ⟨hupto, k₁, he, hon⟩ := hrun.split
  obtain ⟨⟨o₁, ho₁⟩, hpl₁⟩ := hupto.pledges
    (fun p' hp' => hdef p' (List.mem_append_left _ hp'))
    (fun p' hp' => hno p' (List.mem_append_left _ hp')) ⟨⟨o, held_draft ho opts⟩, hdraft⟩
  obtain ⟨register, hgave, hknown, hfits⟩ := Core.Gave.of_returns ho₁ hpl₁ he
    (hno p (List.mem_append_right _ List.mem_cons_self)) hret ht hu
  have hend : k.Gave r register := hon.collect (P := fun _ k => k.Gave r register) (u := [])
    (fun _ _ _ hq h => h.quiet hq) (fun _ p' hp' _ he h => h.effect he
      (hno p' (List.mem_append_right _ (List.mem_cons_of_mem _ hp')))) hgave
  obtain ⟨inst, hi, hreg⟩ := hend.settle hknown hg hg'
  rw [← hfs, ← hshow.functions] at hi
  rw [← hshow.module] at hreg
  refine ⟨inst, register, hi, hreg, hfits, fun hkept hres σ => ?_⟩
  have hlt := Sim.eval_lt (build s opts body).2.module.symbols σ v
  have htype : (build s opts body).2.module.symbols.typeOf v = some t := by
    unfold Symbols.knownType at hkept
    split at hkept
    · exact hkept
    · cases hkept
  rw [htype] at hlt
  exact Word.reading_fit_of_fitsWithin hu hres hfits hlt

/-- Adds up the numbers from its argument down. -/
def totalBody : List Command :=
  [.define "total" 4 none none
    [.ifThen (.relate .gt (.arg 0) (.number 0 8))
      [.call "total" [.bin .sub (.arg 0) (.number 1 8)] (some "rest"),
       .ret (.bin .add (.arg 0) (.var "rest"))],
     .ret (.number 0 8)],
   .call "total" [.number 3 8] (some "sum"),
   .assign "acc" (.var "sum")]

theorem totalBody_fits :
    (build { module := sumTop } (sumOptions .binary) totalBody).1.isOk = true ∧
    ∃ p ∈ course { module := sumTop } (sumOptions .binary) totalBody, ∃ v inst register,
      p.event = .returns ⟨0, 0⟩ v ∧
      p.context.session.module.symbols.knownType v = some (.unsigned 8) ∧
      instance? (build { module := sumTop } (sumOptions .binary) totalBody).2.functions ⟨0, 0⟩ =
        some inst ∧
      (build { module := sumTop } (sumOptions .binary) totalBody).2.module.symbols.signalType
        inst.ret = some register ∧
      (SignalType.unsigned 8).fitsWithin register = true := by
  have hreturned : (course { module := sumTop } (sumOptions .binary) totalBody).filterMap
      Point.returned = [(⟨0, 0⟩, some (.unsigned 8)), (⟨0, 0⟩, some (.unsigned 8))] := by
    decide +kernel
  have hplain : (course { module := sumTop } (sumOptions .binary) totalBody).all
      (·.event.leavesTypes) = true := by decide +kernel
  have hok : (build { module := sumTop } (sumOptions .binary) totalBody).1.isOk = true := by
    decide +kernel
  have hdef : ∀ p ∈ course { module := sumTop } (sumOptions .binary) totalBody,
      ∀ n name depth t overflow inner,
        p.event = .performs n (.define name depth (some t) overflow inner) → t.isUnknown = false := by
    intro p hp n name depth t overflow inner hevent
    have hleaves := List.all_eq_true.mp hplain p hp
    simp [hevent, Event.leavesTypes] at hleaves
  have hno : ∀ p ∈ course { module := sumTop } (sumOptions .binary) totalBody, ∀ r inst,
      instance? p.context.session.functions r = some inst → ¬ p.Retypes inst.ret := by
    intro p hp r inst _ hretypes
    obtain ⟨-, -, -, -, ⟨n, name, t, hevent⟩, -⟩ := hretypes
    have hleaves := List.all_eq_true.mp hplain p hp
    simp [hevent, Event.leavesTypes] at hleaves
  have hmem : (⟨0, 0⟩, some (.unsigned 8)) ∈ (course { module := sumTop } (sumOptions .binary)
      totalBody).filterMap Point.returned := by
    rw [hreturned]
    exact List.mem_cons_self
  obtain ⟨p, hp, hpoint⟩ := List.mem_filterMap.mp hmem
  obtain ⟨v, hret, ht⟩ := Point.returns_of_returned hpoint
  cases hbuild : (build { module := sumTop } (sumOptions .binary) totalBody).1 with
  | error e =>
    rw [hbuild] at hok
    cases hok
  | ok q =>
    obtain ⟨inst, register, hi, hreg, hfits, -⟩ := returned_values_fit (s := { module := sumTop })
      (fun p hp => absurd hp List.not_mem_nil) (Session.pledges_of_empty rfl) (sumOptions .binary)
      totalBody hdef hno hbuild hp hret ht rfl
    exact ⟨rfl, p, hp, v, inst, register, hret, ht, hi, hreg, hfits⟩

/-- Two functions that call each other. The second one returns what the first one gave it, of which
nothing is known before the first one returns sixteen bits. By then its own register has eight. -/
def relayBody : List Command :=
  [.define "ping" 4 none none
    [.ifThen (.relate .gt (.arg 0) (.number 0 8))
      [.call "pong" [.bin .sub (.arg 0) (.number 1 8)] none],
     .ret (.number 300 16)],
   .define "pong" 4 none none
    [.ifThen (.relate .gt (.arg 0) (.number 0 8))
      [.call "ping" [.bin .sub (.arg 0) (.number 1 8)] (some "x"), .ret (.var "x")],
     .ret (.number 1 8)],
   .call "ping" [.number 2 8] none]

example : (course { module := sumTop } (sumOptions .binary) relayBody).filterMap Point.returned =
    [(⟨1, 0⟩, some (.unsigned 0)), (⟨1, 0⟩, some (.unsigned 8)), (⟨0, 0⟩, some (.unsigned 16))] := by
  decide +kernel

end Program

end Lockstep
