import Lockstep.Proofs.Program.Discipline
import Lockstep.Proofs.Program.Traces

/-!
# What a refused program leaves behind

A program is built all or not at all. If it is refused, the module has the processes that it had
before, and the error is reported, once. If it is built, the three processes of its machine come
after the others; signals, types and return addresses that were there before stay as they are, but
for the types that the program itself resizes.

The elaborator changes signals and types in place: the depth of a stack, the type of a register, the
width of state codes. All of these are its own, made while the program is elaborated. A program can
build its machine itself, with a command. Then the processes are there before it is known whether
the program is accepted.
-/

namespace Lockstep.Program

/-! ## Symbols of its own -/

/-- What elaboration changes in place is newer than `base`. -/
structure Core.Owns (base : Symbols) (k : Core) : Prop where
  building : ∀ r ∈ k.building, ∃ inst,
    instance? k.functions r = some inst ∧ inst.Owned base k.module.symbols
  defined : ∀ r inst, r.function ∈ k.defined → instance? k.functions r = some inst →
    inst.Owned base k.module.symbols
  code : base.types.size ≤ k.code
  resumes : ∀ p ∈ k.resumes, base.links.size ≤ p.1

/-- A command of the program changes the type at this place. -/
def Point.Resizes (p : Point) (i : TypeId) : Prop :=
  (∃ n name t, p.event = .performs n (.resize name t)) ∧ p.cells i

namespace Core.Owns

variable {base : Symbols} {k k' : Core} {p : Point}

theorem instanceAt (h : k.Owns base) {r : InstanceRef} (hr : r ∈ k.building) :
    (k.instanceAt r).Owned base k.module.symbols := by
  obtain ⟨inst, hi, hown⟩ := h.building r hr
  rwa [Core.instanceAt, hi]

theorem quiet (h : k.Owns base) (hq : Quiet base k k') : k'.Owns base := by
  have htouch : k.module.symbols.Touches (fun _ => False) (fun _ => False) k'.module.symbols :=
    .of_grows hq.module.symbols
  obtain ⟨more, hmore, hall⟩ := hq.resumes
  have hresumes : ∀ p ∈ k'.resumes, base.links.size ≤ p.1 := by
    rw [hmore]
    exact fun p hp => (List.mem_append.mp hp).elim (h.resumes p) (hall p)
  rw [hq.rest]
  refine ⟨fun r hr => ?_, fun r inst hr hi => (h.defined r inst hr hi).touch htouch, h.code, hresumes⟩
  obtain ⟨inst, hi, hown⟩ := h.building r hr
  exact ⟨inst, hi, hown.touch htouch⟩

theorem effect (h : p.context.core.Owns base) (hs : p.context.core.Sound base)
    (he : Effect base p k) : k.Owns base := by
  have hkept {r : InstanceRef} {inst : Instance}
      (hi : instance? p.context.session.functions r = some inst)
      (hown : inst.Owned base p.context.session.module.symbols) :
      ∃ inst, instance? k.functions r = some inst ∧ inst.Owned base k.module.symbols := by
    obtain ⟨inst', hi', hlike, -⟩ := he.instance_kept hi
    exact ⟨inst', hi', (hown.touch he.touches).like hlike⟩
  have hbuilding {r : InstanceRef} (hr : r ∈ p.context.draft.building) :
      ∃ inst, instance? k.functions r = some inst ∧ inst.Owned base k.module.symbols := by
    obtain ⟨inst, hi, hown⟩ := h.building r hr
    exact hkept hi hown
  obtain ⟨-, -, hcode, hresumes⟩ := he.rest
  refine ⟨fun r hr => ?_, fun r inst' hr hi' => ?_, hcode ▸ h.code, hresumes ▸ h.resumes⟩
  · cases he with
    | enter _ hi hown _ _ _ =>
      rcases List.mem_cons.mp hr with rfl | hr
      · exact hkept hi hown
      · exact hbuilding hr
    | leave _ => exact hbuilding (List.mem_of_mem_tail hr)
    | _ => exact hbuilding hr
  · rcases he.instance_cases hi' with ⟨inst, hi, hlike⟩ | ⟨-, -, -, hnew⟩
    · refine ((h.defined r inst ?_ hi).touch he.touches).like hlike
      cases he with
      | define _ =>
        rcases List.mem_append.mp hr with hr | hr
        · exact hr
        · simp [instance?, List.mem_singleton.mp hr, Context.core] at hi
      | _ => exact hr
    · exact hnew.owned hs.signals hs.types

/-- Of the symbols of `base`, only the types that the program resizes can change. -/
theorem touches (h : p.context.core.Owns base) (he : Effect base p k) :
    p.context.session.module.symbols.Touches (fun i => base.types.size ≤ i ∨ p.Resizes i)
      (base.signals.size ≤ ·) k.module.symbols := by
  have htouch := he.touches
  cases he with
  | keep _ _ | define _ | enter _ _ _ _ _ _ | leave _ => exact .refl _
  | make _ _ _ _ hnew _ => exact .of_grows hnew.expands.symbols
  | resize hp _ _ =>
    refine htouch.mono (fun i hi => .inr ⟨⟨_, _, _, hp⟩, hi⟩) fun i hi => ?_
    simp [Point.words, hp] at hi
  | build hp =>
    refine htouch.mono (fun i hi => .inl ?_) fun i hi => ?_
    · simp only [Point.cells, hp] at hi
      exact hi ▸ h.code
    · simp [Point.words, hp] at hi
  | size hp hr _ =>
    have hown := h.instanceAt hr
    refine htouch.mono (fun i hi => .inl ?_) fun i hi => ?_
    · simp only [Point.cells, hp] at hi
      exact hi ▸ hown.pointer
    · simp only [Point.words, hp] at hi
      exact hown.stack i (List.mem_cons_of_mem _ hi)
  | give hp hr _ _ _ =>
    obtain ⟨x, t, hx, ht, hle⟩ := (h.instanceAt hr).result
    refine htouch.mono (fun i hi => .inl ?_) fun i hi => ?_
    · simp only [Point.cells, hp] at hi
      obtain ⟨y, hy, hi⟩ := hi
      cases hx.symm.trans hy
      exact Option.some.inj (ht.symm.trans hi) ▸ hle
    · simp [Point.words, hp] at hi

end Core.Owns

/-- Along a whole run, too. -/
theorem Threads.owns {base : Symbols} {k k' : Core} {t : List Point} (h : Threads base k t k')
    (hs : k.Sound base) (ho : k.Owns base) : k'.Owns base ∧
      k.module.symbols.Touches (fun i => base.types.size ≤ i ∨ ∃ p ∈ t, p.Resizes i)
        (base.signals.size ≤ ·) k'.module.symbols := by
  induction h with
  | done hq => exact ⟨ho.quiet hq, .of_grows hq.module.symbols⟩
  | @pass k k₁ k' p t hq he _ ih =>
    have hs₁ := hs.quiet hq
    have ho₁ := ho.quiet hq
    obtain ⟨hown, htouch⟩ := ih (hs₁.effect he) (ho₁.effect hs₁ he)
    refine ⟨hown, (Symbols.Touches.of_grows hq.module.symbols).trans
      (((ho₁.touches he).mono (fun i hi => ?_) fun _ hi => hi).trans
        (htouch.mono (fun i hi => ?_) fun _ hi => hi))⟩
    · exact hi.imp_right fun hi => ⟨p, List.mem_cons_self, hi⟩
    · refine hi.imp_right ?_
      rintro ⟨q, hq, hi⟩
      exact ⟨q, List.mem_cons_of_mem _ hq, hi⟩

/-! ## Processes and reports -/

/-- The program builds its machine at the point. -/
def Point.Builds (p : Point) : Prop := ∃ n, p.event = .performs n .buildMachine

def Event.isBuild : Event → Bool
  | .performs _ .buildMachine => true
  | _ => false

/-- Where the machine is not built, no process is added. -/
theorem Effect.unbuilt {base : Symbols} {p : Point} {k : Core} (h : Effect base p k)
    (hb : k.built = false) : p.context.core.built = false ∧
      k.module.processes = p.context.core.module.processes := by
  cases h with
  | build _ =>
    rcases p.context.draft.machine.build_cases p.context.session.module with
      ⟨e, m', hbuild, hm'⟩ | ⟨-, next, -, hbuild⟩
    · rw [hbuild] at hb ⊢
      refine ⟨hb, ?_⟩
      rcases hm' with rfl | rfl <;> rfl
    · rw [hbuild] at hb
      cases hb
  | make _ _ _ _ hnew _ => exact ⟨hb, hnew.expands.processes⟩
  | _ => exact ⟨hb, rfl⟩

theorem Effect.built_eq {base : Symbols} {p : Point} {k : Core} (h : Effect base p k)
    (hp : ¬ p.Builds) : k.built = p.context.core.built := by
  cases h with
  | build hbuild => exact absurd ⟨_, hbuild⟩ hp
  | _ => rfl

namespace Threads

variable {base : Symbols} {k k' : Core} {t : List Point}

theorem unbuilt (h : Threads base k t k') (hb : k'.built = false) :
    k.built = false ∧ k'.module.processes = k.module.processes := by
  induction h with
  | done hq => exact ⟨by rwa [hq.rest] at hb, hq.module.processes⟩
  | pass hq he _ ih =>
    obtain ⟨hb₁, hp₁⟩ := ih hb
    obtain ⟨hb₀, hp₀⟩ := he.unbuilt hb₁
    exact ⟨by rwa [hq.rest] at hb₀, (hp₁.trans hp₀).trans hq.module.processes⟩

theorem built_eq (h : Threads base k t k') (hno : ∀ p ∈ t, ¬ p.Builds) : k'.built = k.built := by
  induction h with
  | done hq => rw [hq.rest]
  | pass hq he _ ih =>
    rw [ih fun p hp => hno p (List.mem_cons_of_mem _ hp), he.built_eq (hno _ List.mem_cons_self),
      hq.rest]

theorem reports (h : Threads base k t k') : k'.errors = k.errors ∧ k'.name = k.name := by
  induction h with
  | done hq =>
    rw [hq.rest]
    exact ⟨rfl, rfl⟩
  | pass hq he _ ih =>
    obtain ⟨herr, hname, -, -⟩ := he.rest
    rw [ih.1, ih.2, herr, hname, hq.rest]
    exact ⟨rfl, rfl⟩

/-- A run that adds no process, and an error that ends it. -/
theorem halted {e : Error} (h : Threads base k t k') (hb : k.built = false)
    (hno : ∀ p ∈ t, ¬ p.Builds) (he : e.isRefusal = true) :
    (k'.halt e).module.processes = k.module.processes ∧
      (k'.halt e).errors = k.errors.map (· ++ [⟨.error, k.name, e.message⟩]) := by
  obtain ⟨-, hp⟩ := h.unbuilt ((h.built_eq hno).trans hb)
  obtain ⟨herr, hname⟩ := h.reports
  simp only [Core.halt, he, if_true, hp, herr, hname, and_self]

end Threads

/-! ## Whole programs -/

theorem owns_draft (s : Session) (opts : Options) : (draft s opts).core.Owns s.module.symbols where
  building _ hr := absurd hr List.not_mem_nil
  defined _ _ hr := absurd hr List.not_mem_nil
  code := le_refl _
  resumes _ hp := absurd hp List.not_mem_nil

/-- The symbols are still there as they were, but for types that are resized at some point. -/
structure Survives (t : List Point) (g g' : Symbols) : Prop where
  signals : ∀ (i : SignalId) x, g.signals[i]? = some x → g'.signals[i]? = some x
  types : ∀ (i : TypeId) u, g.types[i]? = some u → (∀ p ∈ t, ¬ p.Resizes i) → g'.types[i]? = some u
  links : ∀ (i : LinkId) v, g.links[i]? = some v → g'.links[i]? = some v

/-- What is settled in the end, and the width of state codes, is not among the symbols of `base`. -/
theorem survives_settled {base g : Symbols} {k₀ k : Core} {t : List Point}
    (hbase : base.Grows k₀.module.symbols) (h : Threads base k₀ t k) (hs : k₀.Sound base)
    (ho : k₀.Owns base) (hg : k.Settles g) (u : SignalType) :
    Survives t base (g.setType k.code u) := by
  obtain ⟨hown, htouch⟩ := h.owns hs ho
  constructor
  · intro i x hx
    obtain ⟨y, hy, -, hsame⟩ := htouch.signals i x (hbase.signals i x hx)
    obtain rfl := hsame (Nat.not_le.mpr (Array.getElem?_eq_some_iff.mp hx).1)
    rw [Symbols.setType, hg.signals]
    exact hy
  · intro i v hv hno
    have hlt : ¬ base.types.size ≤ i := Nat.not_le.mpr (Array.getElem?_eq_some_iff.mp hv).1
    have hresults : ¬ k.results i := by
      rintro ⟨r, inst, x, hr, hi, hx, hxi⟩
      obtain ⟨y, j, hy, hj, hle⟩ := (hown.defined r inst hr hi).result
      cases hx.symm.trans hy
      exact hlt (Option.some.inj (hj.symm.trans hxi) ▸ hle)
    obtain ⟨v₁, hv₁, hsame₁⟩ := htouch.types i v (hbase.types i v hv)
    have hsettled : ¬ ∃ p ∈ t, p.Resizes i := by
      rintro ⟨p, hp, hi⟩
      exact hno p hp hi
    obtain rfl := hsame₁ (not_or.mpr ⟨hlt, hsettled⟩)
    obtain ⟨v₂, hv₂, hsame₂⟩ := hg.types i v₁ hv₁
    obtain rfl := hsame₂ (.inl hresults)
    rw [Symbols.setType, Array.getElem?_setIfInBounds_ne]
    · exact hv₂
    · exact fun hcode => hlt (hcode ▸ hown.code)
  · intro i v hv
    have hv₁ := htouch.links i v (hbase.links i v hv)
    rw [Symbols.setType, hg.links i]
    · exact hv₁
    · intro p hp hi
      exact absurd (hi ▸ hown.resumes p hp) (Nat.not_le.mpr (Array.getElem?_eq_some_iff.mp hv).1)

/-- A program is built all or not at all. If it is refused, no process is added, and one error is
reported; if it is built, its processes are added, and nothing else changes that was there. -/
theorem build_all_or_nothing {s : Session} (hs : ∀ p ∈ s.scope.functions, p.2 < s.functions.size)
    (opts : Options) (body : List Command) :
    match build s opts body with
    | (.error e, s') => e.isRefusal = true → (∀ p ∈ course s opts body, ¬ p.Builds) →
      s'.module.processes = s.module.processes ∧
        s'.errors = s.errors.map (· ++ [⟨.error, (draft s opts).draft.name, e.message⟩])
    | (.ok q, s') =>
      (∃ next, q.machine.nextBody = .ok next ∧
        s'.module.processes.toList = s.module.processes.toList ++ q.machine.processes next) ∧
      Survives (course s opts body) s.module.symbols s'.module.symbols ∧ s'.errors = s.errors := by
  have hprocesses : (draft s opts).core.module.processes = s.module.processes :=
    (draft_expands s opts).processes
  obtain ⟨k', hends, hshow⟩ := build_concludes hs opts body
  generalize build s opts body = result at hends hshow ⊢
  obtain ⟨outcome, s'⟩ := result
  cases hends with
  | stops hstop =>
    intro he hno
    obtain ⟨u, k, hthreads, hsub, rfl⟩ := hstop.threads
    rw [hshow.module, hshow.errors, ← hprocesses]
    exact hthreads.halted rfl (fun p hp => hno p (hsub hp)) he
  | @unbuilt k g g' e hthreads hg hg' =>
    intro he hno
    rw [hshow.module, hshow.errors, ← hprocesses]
    have hhalt := hthreads.halted rfl hno he
    simp only [Core.halt, he, if_true, Core.withSymbols] at hhalt ⊢
    exact hhalt
  | @built k g q next hthreads hg hb htype hnext =>
    obtain ⟨-, hp⟩ := hthreads.unbuilt hb
    refine ⟨⟨next, hnext, ?_⟩, ?_, ?_⟩
    · rw [hshow.module, ← hprocesses, ← hp]
      simp [Machine.processes, Module.addProcess, Machine.sizeRegister, Module.modifySymbols,
        Core.withSymbols]
    · have hsymbols : s'.module.symbols = g.setType k.code (.unsigned q.machine.registerWidth) := by
        rw [hshow.module, ← htype]
        rfl
      rw [hsymbols]
      exact survives_settled (draft_expands s opts).symbols hthreads (sound_draft hs opts)
        (owns_draft s opts) hg _
    · rw [hshow.errors]
      exact hthreads.reports.1

/-- Two recursive calls that do not agree on the depth of the stack, after some states were made. -/
def clashBody : List Command :=
  [.define "sum" 0 none none
    [.ifThen (.relate .gt (.arg 0) (.number 0 8))
      [.callDepth "sum" 2 [.bin .sub (.arg 0) (.number 1 8)] none,
       .callDepth "sum" 3 [.bin .sub (.arg 0) (.number 1 8)] none]],
   .assign "acc" (.number 0 8),
   .call "sum" [.number 4 8] none]

theorem clashBody_refused : ∃ e s',
    build { module := sumTop, reporter := some {} } (sumOptions .binary) clashBody = (.error e, s') ∧
      e.isRefusal = true ∧ s'.module.processes = sumTop.processes ∧
      s'.errors = some [⟨.error, "seq", e.message⟩] := by
  have hrefused : (match (build { module := sumTop, reporter := some {} } (sumOptions .binary)
      clashBody).1 with
    | .error e => e.isRefusal
    | .ok _ => false) = true := by decide +kernel
  have hplain : (course { module := sumTop, reporter := some {} } (sumOptions .binary)
      clashBody).all (fun p => !p.event.isBuild) = true := by decide +kernel
  have hno : ∀ p ∈ course { module := sumTop, reporter := some {} } (sumOptions .binary) clashBody,
      ¬ p.Builds := by
    rintro p hp ⟨n, hbuild⟩
    have hevent := List.all_eq_true.mp hplain p hp
    simp [hbuild, Event.isBuild] at hevent
  have hresult := build_all_or_nothing (s := { module := sumTop, reporter := some {} })
    (fun p hp => absurd hp List.not_mem_nil) (sumOptions .binary) clashBody
  cases hbuild : build { module := sumTop, reporter := some {} } (sumOptions .binary) clashBody with
  | mk result s' =>
    rw [hbuild] at hrefused hresult
    cases result with
    | ok q => cases hrefused
    | error e =>
      obtain ⟨hprocesses, herrors⟩ := hresult hrefused hno
      exact ⟨e, s', rfl, hrefused, hprocesses, herrors⟩

/-- A program that builds its machine itself, before its last state is made: it is refused, and the
processes stay. -/
theorem buildMachine_remains : ∃ e s',
    build { module := sumTop } (sumOptions .binary) [.assign "acc" (.number 1 8), .buildMachine] =
        (.error e, s') ∧
      e.isRefusal = true ∧ sumTop.processes.size = 0 ∧ s'.module.processes.size = 3 := by
  have hrefused : (match build { module := sumTop } (sumOptions .binary)
      [.assign "acc" (.number 1 8), .buildMachine] with
    | (.error e, s') => e.isRefusal && s'.module.processes.size == 3
    | (.ok _, _) => false) = true := by decide +kernel
  cases hbuild : build { module := sumTop } (sumOptions .binary)
      [.assign "acc" (.number 1 8), .buildMachine] with
  | mk result s' =>
    rw [hbuild] at hrefused
    cases result with
    | ok q => cases hrefused
    | error e =>
      simp only [Bool.and_eq_true, beq_iff_eq] at hrefused
      exact ⟨e, s', rfl, hrefused.1, by decide +kernel, hrefused.2⟩

end Lockstep.Program
