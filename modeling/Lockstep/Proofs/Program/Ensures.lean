import Lockstep.Program.Elaborate
import Lockstep.Proofs.Word

/-!
# What elaboration ensures

The successful ends of an elaboration step. A step that fails ends elaboration, so nothing is
asked of it. The rules say for each operation that elaboration is made of what has to hold before
it, for a property to hold after it; they reduce a statement about a step to one about the context
it starts from. Reports and the journal are carried along and never asked about.
-/

namespace Lockstep.Program

variable {α β : Type}
variable {c : Context} {Q : Unit → Context → Prop}

/-- Where `x` succeeds from `c`, its value and the context after it satisfy `Q`. -/
def Ensures (x : ElabM α) (c : Context) (Q : α → Context → Prop) : Prop :=
  ∀ a c', x.run c = .ok a c' → Q a c'

theorem Ensures.mono {x : ElabM α} {P Q : α → Context → Prop} (h : Ensures x c P)
    (hpq : ∀ a c', P a c' → Q a c') : Ensures x c Q := fun a c' hx => hpq a c' (h a c' hx)

theorem Ensures.and {x : ElabM α} {P Q : α → Context → Prop} (hp : Ensures x c P)
    (hq : Ensures x c Q) : Ensures x c fun a c' => P a c' ∧ Q a c' :=
  fun a c' hx => ⟨hp a c' hx, hq a c' hx⟩

@[simp] theorem ensures_pure {a : α} {Q : α → Context → Prop} : Ensures (pure a) c Q ↔ Q a c := by
  simp [Ensures, EStateM.run, pure, EStateM.pure]

@[simp] theorem ensures_bind {x : ElabM α} {f : α → ElabM β} {Q : β → Context → Prop} :
    Ensures (x >>= f) c Q ↔ Ensures x c fun a c' => Ensures (f a) c' Q := by
  simp only [Ensures, EStateM.run, bind, EStateM.bind]
  cases hx : x c with
  | ok a c' | error e c' => simp

@[simp] theorem ensures_map {x : ElabM α} {f : α → β} {Q : β → Context → Prop} :
    Ensures (f <$> x) c Q ↔ Ensures x c fun a c' => Q (f a) c' := by
  simp only [← bind_pure_comp, ensures_bind, ensures_pure]

@[simp] theorem ensures_get {Q : Context → Context → Prop} : Ensures get c Q ↔ Q c c := by
  simp [Ensures, EStateM.run, get, getThe, MonadStateOf.get, EStateM.get]

@[simp] theorem ensures_modify {f : Context → Context} {Q : PUnit → Context → Prop} :
    Ensures (modify f) c Q ↔ Q ⟨⟩ (f c) := by
  simp only [Ensures, EStateM.run, modify, modifyGet, MonadStateOf.modifyGet, EStateM.modifyGet]
  exact ⟨fun h => h _ _ rfl, fun h a c' hx => by cases hx; exact h⟩

@[simp] theorem ensures_throw {e : Error} {Q : α → Context → Prop} :
    Ensures (throw e) c Q ↔ True := by
  simp [Ensures, EStateM.run, throw, throwThe, MonadExceptOf.throw, EStateM.throw]

@[simp] theorem ensures_ite {p : Prop} [Decidable p] {x y : ElabM α} {Q : α → Context → Prop} :
    Ensures (if p then x else y) c Q ↔ (p → Ensures x c Q) ∧ (¬ p → Ensures y c Q) := by
  by_cases h : p <;> simp [h]

/-- A property of contexts that every round keeps is kept by all of them. -/
theorem Ensures.forM {xs : List α} {f : α → ElabM PUnit} {P : Context → Prop} (hc : P c)
    (h : ∀ x ∈ xs, ∀ c, P c → Ensures (f x) c fun _ => P) :
    Ensures (xs.forM f) c fun _ => P := by
  induction xs generalizing c with
  | nil => simpa using hc
  | cons x xs ih =>
    rw [List.forM_eq_forM, List.forM_cons, ensures_bind]
    exact (h x List.mem_cons_self c hc).mono fun _ c' hc' =>
      ih hc' fun y hy => h y (List.mem_cons_of_mem x hy)

/-! ## Parts of the context -/

@[simp] theorem ensures_modifyDraft {f : Draft → Draft} :
    Ensures (modifyDraft f) c Q ↔ Q () { c with draft := f c.draft } := ensures_modify

@[simp] theorem ensures_modifySession {f : Session → Session} :
    Ensures (modifySession f) c Q ↔ Q () { c with session := f c.session } := ensures_modify

@[simp] theorem ensures_modifyModule {f : Module → Module} :
    Ensures (modifyModule f) c Q ↔
      Q () { c with session := { c.session with module := f c.session.module } } :=
  ensures_modifySession

@[simp] theorem ensures_modifyMachine {f : Machine → Machine} :
    Ensures (modifyMachine f) c Q ↔
      Q () { c with draft := { c.draft with machine := f c.draft.machine } } :=
  ensures_modifyDraft

@[simp] theorem ensures_modifyScope {f : Script.Scope → Script.Scope} :
    Ensures (modifyScope f) c Q ↔
      Q () { c with session := { c.session with scope := f c.session.scope } } :=
  ensures_modifySession

@[simp] theorem ensures_getDraft {Q : Draft → Context → Prop} :
    Ensures getDraft c Q ↔ Q c.draft c := by
  simp [getDraft]

@[simp] theorem ensures_getModule {Q : Module → Context → Prop} :
    Ensures getModule c Q ↔ Q c.session.module c := by
  simp [getModule]

@[simp] theorem ensures_getSymbols {Q : Symbols → Context → Prop} :
    Ensures getSymbols c Q ↔ Q c.session.module.symbols c := by
  simp [getSymbols]

@[simp] theorem ensures_declare {f : Module → SignalId × Module} {Q : SignalId → Context → Prop} :
    Ensures (declare f) c Q ↔ Q (f c.session.module).1
      { c with session := { c.session with module := (f c.session.module).2 } } := by
  simp [declare]

@[simp] theorem ensures_fail {e : Error} {Q : α → Context → Prop} :
    Ensures (fail e) c Q ↔ True := by
  simp [fail, report]

@[simp] theorem ensures_abort {e : Script.Error} {Q : α → Context → Prop} :
    Ensures (abort e) c Q ↔ True := ensures_throw

@[simp] theorem ensures_require {o : Option α} {Q : α → Context → Prop} :
    Ensures (require o) c Q ↔ ∀ a, o = some a → Q a c := by
  cases o <;> simp [require]

/-- The context after a report. -/
def Context.reported (c : Context) (f : Reporter → Reporter) : Context :=
  { c with session := { c.session with reporter := c.session.reporter.map f } }

@[simp] theorem ensures_report {f : Reporter → Reporter} :
    Ensures (report f) c Q ↔ Q () (c.reported f) := ensures_modifySession

@[simp] theorem ensures_note {place message : String} :
    Ensures (note place message) c Q ↔ Q () (c.reported (·.note place message)) := ensures_report

@[simp] theorem ensures_record {command : String} {fact : Fact} :
    Ensures (record command fact) c Q ↔
      Q () { c with session := { c.session with journal := c.session.journal.push ⟨command, fact⟩ } } :=
  ensures_modifySession

@[simp] theorem ensures_emit {st : Statement} :
    Ensures (emit st) c Q ↔
      Q () { c with draft := { c.draft with blocks := c.draft.blocks.emit st } } :=
  ensures_modifyDraft

@[simp] theorem ensures_openBlock :
    Ensures openBlock c Q ↔
      Q () { c with draft := { c.draft with blocks := c.draft.blocks.enter } } := by
  simp [openBlock]

@[simp] theorem ensures_closeBlock {Q : List Statement → Context → Prop} :
    Ensures closeBlock c Q ↔ Q c.draft.blocks.leave.1
      { c with draft := { c.draft with blocks := c.draft.blocks.leave.2 } } := by
  simp [closeBlock]

@[simp] theorem ensures_addGoto {n : Nat} {t : Transition Expr} :
    Ensures (addGoto n t) c Q ↔
      Q () { c with draft := { c.draft with machine := c.draft.machine.addGoto n t } } :=
  ensures_modifyMachine

@[simp] theorem ensures_pushFrame {f : Frame} :
    Ensures (pushFrame f) c Q ↔
      Q () { c with draft := { c.draft with frames := f :: c.draft.frames } } :=
  ensures_modifyDraft

@[simp] theorem ensures_popFrame {Q : Frame → Context → Prop} :
    Ensures popFrame c Q ↔ Q (c.draft.frames.headD {})
      { c with draft := { c.draft with frames := c.draft.frames.tail } } := by
  simp [popFrame]

@[simp] theorem ensures_modifyTop {f : Frame → Frame} :
    Ensures (modifyTop f) c Q ↔
      Q () { c with draft := { c.draft with frames := c.draft.frames.modifyHead f } } :=
  ensures_modifyDraft

/-- The instance that a reference stands for. -/
def instance? (fs : Array Function) (r : InstanceRef) : Option Instance :=
  fs[r.function]?.bind (·.instances[r.position]?)

@[simp] theorem ensures_getInstance {r : InstanceRef} {Q : Instance → Context → Prop} :
    Ensures (getInstance r) c Q ↔ Q ((instance? c.session.functions r).getD default) c := by
  simp only [getInstance, getFunction, ensures_bind, ensures_get, ensures_pure, instance?]
  cases c.session.functions[r.function]? <;> rfl

@[simp] theorem ensures_getFunction {fn : Nat} {Q : Function → Context → Prop} :
    Ensures (getFunction fn) c Q ↔ Q (c.session.functions[fn]?.getD default) c := by
  simp [getFunction]

/-- The rules of the operations, as one set of rewrite rules. -/
theorem ensures_ops :
    (∀ {α β} (x : ElabM α) (f : α → ElabM β) c Q,
      Ensures (x >>= f) c Q ↔ Ensures x c fun a c' => Ensures (f a) c' Q) ∧
    (∀ {α} (a : α) c Q, Ensures (pure a) c Q ↔ Q a c) ∧
    (∀ c Q, Ensures get c Q ↔ Q c c) ∧
    (∀ c Q, Ensures getDraft c Q ↔ Q c.draft c) ∧
    (∀ c Q, Ensures getModule c Q ↔ Q c.session.module c) ∧
    (∀ c Q, Ensures getSymbols c Q ↔ Q c.session.module.symbols c) ∧
    (∀ fn c Q, Ensures (getFunction fn) c Q ↔ Q (c.session.functions[fn]?.getD default) c) ∧
    (∀ r c Q, Ensures (getInstance r) c Q ↔
      Q ((instance? c.session.functions r).getD default) c) ∧
    (∀ {α} (o : Option α) c Q, Ensures (require o) c Q ↔ ∀ a, o = some a → Q a c) ∧
    (∀ {α} e c (Q : α → _), Ensures (fail e) c Q ↔ True) ∧
    (∀ f c Q, Ensures (modifyDraft f) c Q ↔ Q () { c with draft := f c.draft }) ∧
    (∀ f c Q, Ensures (modifySession f) c Q ↔ Q () { c with session := f c.session }) ∧
    (∀ f c Q, Ensures (modifyModule f) c Q ↔
      Q () { c with session := { c.session with module := f c.session.module } }) ∧
    (∀ f c Q, Ensures (modifyMachine f) c Q ↔
      Q () { c with draft := { c.draft with machine := f c.draft.machine } }) ∧
    (∀ f c Q, Ensures (modifyScope f) c Q ↔
      Q () { c with session := { c.session with scope := f c.session.scope } }) ∧
    (∀ f c Q, Ensures (declare f) c Q ↔ Q (f c.session.module).1
      { c with session := { c.session with module := (f c.session.module).2 } }) ∧
    (∀ place message c Q, Ensures (note place message) c Q ↔
      Q () (c.reported (·.note place message))) ∧
    (∀ st c Q, Ensures (emit st) c Q ↔
      Q () { c with draft := { c.draft with blocks := c.draft.blocks.emit st } }) ∧
    (∀ (n : Nat) t c Q, Ensures (addGoto n t) c Q ↔
      Q () { c with draft := { c.draft with machine := c.draft.machine.addGoto n t } }) ∧
    (∀ f c Q, Ensures (pushFrame f) c Q ↔
      Q () { c with draft := { c.draft with frames := f :: c.draft.frames } }) ∧
    ∀ c Q, Ensures popFrame c Q ↔ Q (c.draft.frames.headD {})
      { c with draft := { c.draft with frames := c.draft.frames.tail } } := by
  simp

/-! ## States -/

theorem newState_ok {f f' : Machine} {name : String} {id : Nat}
    (h : f.newState name = .ok (id, f')) :
    id = f.size ∧ f' = { f with states := f.states.push { name } } := by
  unfold Machine.newState at h
  split at h
  · simp at h
  · split at h
    · simp at h
    · obtain ⟨hid, hf⟩ := Prod.mk.inj (Except.ok.inj h)
      exact ⟨hid.symm, hf.symm⟩

/-- A change of the state that was declared last. -/
theorem modify_push_size (xs : Array α) (a : α) (f : α → α) :
    (xs.push a).modify xs.size f = xs.push (f a) := by
  apply Array.ext
  · simp
  · intro k _ hk
    rw [Array.getElem_modify, Array.getElem_push, Array.getElem_push]
    rcases Nat.lt_or_ge k xs.size with hlt | hge
    · simp [hlt, Nat.ne_of_gt hlt]
    · have hlast : xs.size = k := by
        simp only [Array.size_push] at hk
        omega
      simp [hlast]

theorem addBody_push (f : Machine) (name : String) (body : List Statement) :
    ({ f with states := f.states.push { name } } : Machine).addBody f.size body =
      { f with states := f.states.push { name, body } } := by
  have hmodify := modify_push_size f.states { name } fun s => { s with body := s.body ++ body }
  simpa [Machine.addBody, Machine.modifyState, Machine.state?, Machine.size] using hmodify

/-- Changing a state touches no other field of the machine that building reads. -/
theorem modifyState_eq (f : Machine) (k : Nat) (what : String)
    (change : Machine.State → Machine.State) :
    ∃ fault, f.modifyState k what change =
      { f with states := f.states.modify k change, fault } := by
  unfold Machine.modifyState
  split
  · exact ⟨f.fault, rfl⟩
  · next h =>
    have hk : f.states.size ≤ k := by simpa [Machine.state?] using h
    have hsame : f.states.modify k change = f.states := by
      apply Array.ext
      · simp
      · intro i h₁ h₂
        rw [Array.getElem_modify, if_neg (by omega)]
    rw [hsame]
    exact ⟨_, rfl⟩

theorem addGoto_eq {f : Machine} {k : Nat} (hk : k < f.size) (t : Transition Expr) :
    f.addGoto k t =
      { f with states := f.states.modify k fun s => { s with gotos := s.gotos ++ [t] } } := by
  have hsome : (f.state? k).isSome = true := by
    rw [Machine.state?, if_neg (by omega), Int.toNat_natCast]
    simpa [Machine.size] using hk
  rw [Machine.addGoto, Machine.modifyState, if_pos hsome, Int.toNat_natCast]

theorem addGoto_size (f : Machine) (k : Nat) (t : Transition Expr) :
    (f.addGoto k t).size = f.size := by
  unfold Machine.addGoto Machine.modifyState
  split <;> simp [Machine.size]

/-- The draft after the pending statements have become a state. -/
def Draft.cut (d : Draft) : Draft :=
  { d with
    machine := { d.machine with
      states := d.machine.states.push { name := d.label, body := d.blocks.outer } }
    blocks := { d.blocks with outer := [] }
    frames := d.frames.modifyHead fun f => { f with closedIf := none }
    label := "" }

theorem cut_size (d : Draft) : d.cut.machine.size = d.machine.size + 1 := by
  simp [Draft.cut, Machine.size]

theorem Ensures.step {Q : Nat → Context → Prop} (h : ∀ f, c.draft.blocks.depth = 0 →
      Q c.draft.machine.size { c.reported f with draft := c.draft.cut }) : Ensures step c Q := by
  unfold Program.step Program.newState
  simp only [ensures_bind, ensures_getDraft, ensures_ite, ensures_fail, ensures_pure,
    ensures_modifyDraft, ensures_modifyMachine, ensures_modifyTop, implies_true, true_and]
  intro hdepth
  cases hn : c.draft.machine.newState c.draft.label with
  | error e => simp
  | ok made =>
    obtain ⟨id, f⟩ := made
    obtain ⟨rfl, rfl⟩ := newState_ok hn
    simp only [ensures_bind, ensures_modifyMachine, ensures_note, ensures_pure, Blocks.take,
      Context.reported, addBody_push]
    exact h _ (by omega)

theorem ensures_stepIfWaiting (c : Context) : Ensures stepIfWaiting c fun _ c' =>
    c'.draft.blocks.outer = [] ∧ c'.session.module = c.session.module ∧
      c.draft.machine.size ≤ c'.draft.machine.size := by
  simp only [Program.stepIfWaiting, ensures_bind, ensures_getDraft, ensures_ite, ensures_pure]
  constructor
  · intro _
    refine .step fun f _ => ⟨rfl, rfl, ?_⟩
    have := cut_size c.draft
    exact this ▸ Nat.le_succ _
  · intro hwaiting
    refine ⟨?_, trivial, le_refl _⟩
    simp only [Draft.waiting, Blocks.pending, Bool.or_eq_true, Bool.not_eq_true', not_or,
      Bool.not_eq_false] at hwaiting
    exact List.isEmpty_iff.mp hwaiting.1

end Lockstep.Program
