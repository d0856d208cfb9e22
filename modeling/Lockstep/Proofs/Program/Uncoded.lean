import Lockstep.Proofs.Program.Walk

/-!
# Elaboration without state codes

The encoding of a machine decides the codes of its states, and nothing else. A program that names no
code is elaborated without a look at the encoding: from contexts that differ in it, every step makes
the same choices and ends in contexts that differ in it and in nothing else.

As for the layout, the proof goes by the structure of the commands within a body, and by the budget
of calls across bodies and handlers.
-/

namespace Lockstep

/-- The machine with its states coded otherwise. -/
def Machine.reencode (e : Encoding) (f : Machine) : Machine := { f with encoding := e }

namespace Script

def Focus.reencode (e : Encoding) (focus : Focus) : Focus :=
  { focus with machine := focus.machine.reencode e }

/-- The term names no state and no code of one. -/
def Term.isUncoded : Term → Bool
  | .code _ | .isIn _ | .alive => false
  | .bin _ l r | .cmp _ l r | .relate _ l r => l.isUncoded && r.isUncoded
  | .numberLike _ e _ | .not e | .index _ e => e.isUncoded
  | _ => true

/-- Of a machine, such a term can see nothing but the run flag. -/
theorem Term.resolve_uncoded {t : Term} (h : t.isUncoded = true) (sc : Scope)
    {focus focus' : Focus} (hrun : focus.run = focus'.run) :
    t.resolve sc (some focus) = t.resolve sc (some focus') := by
  induction t with
  | code id | isIn id | alive => simp [isUncoded] at h
  | bin op l r ihl ihr | cmp p l r ihl ihr | relate rel l r ihl ihr =>
    rw [isUncoded, Bool.and_eq_true] at h
    rw [resolve, resolve, ihl h.1, ihr h.2]
  | numberLike v like delta ih | not x ih | index name x ih => rw [resolve, resolve, ih h]
  | literal v type => cases type <;> rfl
  | running => simp only [resolve, Option.bind_some, hrun]
  | hole | signal name | number v w | literalOf v name | var name | arg n | armValue w => rfl

end Script

namespace Program

open Script (Term)

/-- All commands within the command are structured, name no code, and call no function of another
program. -/
def Command.Uncoded (foreign : List String) (x : Command) : Prop :=
  ∀ y ∈ x.within, y.isStructured = true ∧ (∀ t ∈ y.terms, t.isUncoded = true) ∧
    ∀ name, y.calls = some name → name ∉ foreign

namespace Command.Uncoded

variable {foreign : List String} {x : Command}

theorem structured (h : x.Uncoded foreign) : x.isStructured = true := (h x x.self_mem_within).1

theorem term (h : x.Uncoded foreign) {t : Term} (ht : t ∈ x.terms) : t.isUncoded = true :=
  (h x x.self_mem_within).2.1 t ht

theorem call (h : x.Uncoded foreign) {name : String} (hname : x.calls = some name) :
    name ∉ foreign := (h x x.self_mem_within).2.2 name hname

/-- The commands of a body of the command. -/
theorem body (h : x.Uncoded foreign) {body : List Command}
    (hsub : ∀ y ∈ withinAll body, y ∈ x.within) : ∀ y ∈ body, y.Uncoded foreign :=
  fun _ hy z hz => h z (hsub z (mem_withinAll hy hz))

end Command.Uncoded

structure Function.Uncoded (foreign : List String) (f : Function) : Prop where
  body : ∀ x ∈ f.body, x.Uncoded foreign
  overflow : ∀ handler, f.overflow = some handler → ∀ x ∈ handler, x.Uncoded foreign

/-- The functions from `base` on, among which are all that the program can call, name no code. -/
structure Session.Uncoded (base : Nat) (foreign : List String) (s : Session) : Prop where
  le : base ≤ s.functions.size
  callable : ∀ p ∈ s.scope.functions, p.1 ∉ foreign → base ≤ p.2
  bodies : ∀ fn f, base ≤ fn → s.functions[fn]? = some f → f.Uncoded foreign

def Draft.reencode (e : Encoding) (d : Draft) : Draft := { d with machine := d.machine.reencode e }

def Context.reencode (e : Encoding) (c : Context) : Context := { c with draft := c.draft.reencode e }

/-- Another encoding for a program. Its own functions begin at `base`; those of other programs have
the `foreign` names. -/
structure Recoding where
  base : Nat
  foreign : List String
  encoding : Encoding

variable {α β : Type} {v : Recoding}

/-- The end of a step, with the machine coded otherwise. -/
def reencodeEnd (e : Encoding) : EStateM.Result Error Context α → EStateM.Result Error Context α
  | .ok a c => .ok a (c.reencode e)
  | .error x c => .error x (c.reencode e)

/-- The step does not look at the encoding, as long as functions name no code; and they never do. -/
structure Blind (v : Recoding) (x : ElabM α) : Prop where
  run : ∀ c, c.session.Uncoded v.base v.foreign →
    x.run (c.reencode v.encoding) = reencodeEnd v.encoding (x.run c) ∧
    ∀ a c', x.run c = .ok a c' → c'.session.Uncoded v.base v.foreign

namespace Blind

/-! ## Operations on the context -/

theorem pure (a : α) : Blind v (Pure.pure a : ElabM α) := by
  refine ⟨fun c hc => ⟨rfl, fun a' c' h => ?_⟩⟩
  cases h
  exact hc

theorem throw (x : Error) : Blind v (MonadExcept.throw x : ElabM α) := by
  refine ⟨fun c _ => ⟨rfl, fun a' c' h => ?_⟩⟩
  cases h

/-- What comes next may use what the step is known to yield. -/
theorem bind_of {x : ElabM α} {f : α → ElabM β} {Q : α → Prop} (hq : ∀ c, Ensures x c fun a _ => Q a)
    (hx : Blind v x) (hf : ∀ a, Q a → Blind v (f a)) : Blind v (x >>= f) := by
  refine ⟨fun c hc => ?_⟩
  obtain ⟨hrun, hkeep⟩ := hx.run c hc
  have hbind : ∀ c, (x >>= f).run c =
      match x.run c with
      | .ok a c' => (f a).run c'
      | .error err c' => .error err c' := fun c => by
    change EStateM.bind x f c = _
    rw [EStateM.bind, EStateM.run]
    cases x c <;> rfl
  rw [hbind, hbind, hrun]
  cases hend : x.run c with
  | ok a c' => exact (hf a (hq c a c' hend)).run c' (hkeep a c' hend)
  | error err c' => exact ⟨rfl, fun a' c'' h => by cases h⟩

theorem bind {x : ElabM α} {f : α → ElabM β} (hx : Blind v x)
    (hf : ∀ a, Blind v (f a)) : Blind v (x >>= f) :=
  .bind_of (Q := fun _ => True) (fun _ _ _ _ => trivial) hx fun a _ => hf a

theorem ite {p : Prop} [Decidable p] {x y : ElabM α} (hx : Blind v x)
    (hy : Blind v y) : Blind v (if p then x else y) := by
  split
  · exact hx
  · exact hy

theorem forM {xs : List α} {f : α → ElabM PUnit} (hf : ∀ x ∈ xs, Blind v (f x)) :
    Blind v (xs.forM f) := by
  induction xs with
  | nil => exact .pure PUnit.unit
  | cons x xs ih =>
    rw [List.forM_eq_forM, List.forM_cons]
    exact .bind (hf x List.mem_cons_self) fun _ => ih fun y hy => hf y (List.mem_cons_of_mem x hy)

theorem mapM {f : α → ElabM β} {xs : List α} (hf : ∀ x ∈ xs, Blind v (f x)) :
    Blind v (xs.mapM f) := by
  induction xs with
  | nil =>
    rw [List.mapM_nil]
    exact .pure []
  | cons x xs ih =>
    rw [List.mapM_cons]
    exact .bind (hf x List.mem_cons_self) fun b =>
      .bind (ih fun y hy => hf y (List.mem_cons_of_mem x hy)) fun bs => .pure (b :: bs)

/-- What is read does not depend on the encoding. -/
theorem get_bind {f : Context → ElabM β} (hf : ∀ c, f (c.reencode v.encoding) = f c)
    (hb : ∀ c, c.session.Uncoded v.base v.foreign → Blind v (f c)) : Blind v (get >>= f) := by
  refine ⟨fun c hc => ?_⟩
  have hrun : ∀ c : Context, (get >>= f : ElabM β).run c = (f c).run c := fun _ => rfl
  rw [hrun, hrun, hf]
  exact (hb c hc).run c hc

theorem run_getDraft_bind (f : Draft → ElabM β) (c : Context) :
    (getDraft >>= f).run c = (f c.draft).run c := rfl

theorem getDraft_bind {f : Draft → ElabM β} (hf : ∀ d, f (d.reencode v.encoding) = f d)
    (hb : ∀ d, Blind v (f d)) : Blind v (getDraft >>= f) :=
  .get_bind (f := fun c => f c.draft) (fun c => hf c.draft) fun c _ => hb c.draft

theorem getModule : Blind v getModule :=
  .get_bind (f := fun c => Pure.pure c.session.module) (fun _ => rfl) fun _ _ => .pure _

theorem getSymbols : Blind v getSymbols := .bind .getModule fun _ => .pure _

theorem update {f : Context → Context} (hf : ∀ c, f (c.reencode v.encoding) = (f c).reencode v.encoding)
    (hs : ∀ c, c.session.Uncoded v.base v.foreign → (f c).session.Uncoded v.base v.foreign) :
    Blind v (modify f) := by
  refine ⟨fun c hc => ?_⟩
  have hrun : ∀ c : Context, (modify f : ElabM PUnit).run c = .ok ⟨⟩ (f c) := fun _ => rfl
  rw [hrun, hrun, hf]
  refine ⟨rfl, fun a c' h => ?_⟩
  cases h
  exact hs c hc

theorem modifyDraft {f : Draft → Draft}
    (hf : ∀ d, f (d.reencode v.encoding) = (f d).reencode v.encoding) :
    Blind v (modifyDraft f) := .update (fun c => by simp only [Context.reencode, hf]) fun _ hc => hc

theorem modifyMachine {f : Machine → Machine}
    (hf : ∀ m, f (m.reencode v.encoding) = (f m).reencode v.encoding) :
    Blind v (modifyMachine f) := .modifyDraft fun d => by simp only [Draft.reencode, hf]

theorem modifySession {f : Session → Session}
    (hs : ∀ s, s.Uncoded v.base v.foreign → (f s).Uncoded v.base v.foreign) :
    Blind v (modifySession f) := .update (fun _ => rfl) fun c hc => hs c.session hc

theorem modifyModule (f : Module → Module) : Blind v (modifyModule f) :=
  .modifySession fun _ hs => ⟨hs.le, hs.callable, hs.bodies⟩

theorem modifyScope {f : Script.Scope → Script.Scope} (hf : ∀ sc, (f sc).functions = sc.functions) :
    Blind v (modifyScope f) := by
  refine .modifySession fun s hs => ⟨hs.le, fun p hp => hs.callable p ?_, hs.bodies⟩
  rwa [hf] at hp

theorem declare (f : Module → SignalId × Module) : Blind v (declare f) :=
  .bind .getModule fun _ => .bind (.modifyModule _) fun _ => .pure _

theorem report (f : Reporter → Reporter) : Blind v (report f) :=
  .modifySession fun _ hs => ⟨hs.le, hs.callable, hs.bodies⟩

theorem note (place message : String) : Blind v (note place message) := .report _

theorem record (command : String) (fact : Fact) : Blind v (record command fact) :=
  .modifySession fun _ hs => ⟨hs.le, hs.callable, hs.bodies⟩

theorem fail (x : Error) : Blind v (fail x : ElabM α) :=
  .getDraft_bind (fun _ => rfl) fun _ => .bind (.report _) fun _ => .throw x

theorem require (o : Option α) : Blind v (require o) := by
  cases o with
  | none => exact .throw _
  | some a => exact .pure a

theorem emit (st : Statement) : Blind v (emit st) := .modifyDraft fun _ => rfl

theorem closeBlock : Blind v closeBlock :=
  .getDraft_bind (fun _ => rfl) fun _ => .bind (.modifyDraft fun _ => rfl) fun _ => .pure _

theorem pushFrame (fr : Frame) : Blind v (pushFrame fr) := .modifyDraft fun _ => rfl

theorem popFrame : Blind v popFrame :=
  .getDraft_bind (fun _ => rfl) fun _ => .bind (.modifyDraft fun _ => rfl) fun _ => .pure _

theorem modifyTop (f : Frame → Frame) : Blind v (modifyTop f) := .modifyDraft fun _ => rfl

/-! ## Terms -/

/-- A resolution that does not look at the encoding. -/
theorem resolving {f : Script.Scope → Option Script.Focus → Script.Resolve α}
    (hf : ∀ sc (focus : Script.Focus), f sc (some (focus.reencode v.encoding)) = f sc (some focus)) :
    Blind v (resolving f) := by
  refine .get_bind (fun c => ?_) fun c _ => ?_
  · dsimp only
    rw [← hf c.session.scope]
    rfl
  · dsimp only
    split
    · exact .bind (.modifyModule _) fun _ => .pure _
    · exact .throw _

theorem resolve {t : Term} (h : t.isUncoded = true) : Blind v (resolve t) :=
  .resolving fun sc _ => Term.resolve_uncoded h sc rfl

theorem resolveSignal (name : String) : Blind v (resolveSignal name) := .resolving fun _ _ => rfl

/-! ## States -/

theorem modifyState (e : Encoding) (f : Machine) (id : Int) (what : String)
    (change : Machine.State → Machine.State) :
    (f.reencode e).modifyState id what change = (f.modifyState id what change).reencode e := by
  unfold Machine.modifyState
  rw [show (f.reencode e).state? id = f.state? id from rfl]
  split <;> rfl

theorem addGoto (state : Nat) (t : Transition Expr) : Blind v (addGoto state t) :=
  .modifyMachine fun f => modifyState _ f _ _ _

theorem addBody (state : Nat) (body : List Statement) :
    Blind v (Program.modifyMachine (·.addBody state body)) :=
  .modifyMachine fun f => modifyState _ f _ _ _

theorem newState (name : String) : Blind v (newState name) := by
  refine ⟨fun c hc => ?_⟩
  have hnew : (c.draft.machine.reencode v.encoding).newState name =
      (c.draft.machine.newState name).map fun p => (p.1, p.2.reencode v.encoding) := by
    unfold Machine.newState
    rw [show (c.draft.machine.reencode v.encoding).built = c.draft.machine.built from rfl,
      show (c.draft.machine.reencode v.encoding).lookup name = c.draft.machine.lookup name from rfl]
    split
    · rfl
    · split <;> rfl
  cases hm : c.draft.machine.newState name with
  | error x =>
    have hrun : ∀ c : Context, c.draft.machine.newState name = .error x →
        (Program.newState name).run c = (Program.fail (.machine x) : ElabM Nat).run c := by
      intro c h
      rw [Program.newState, run_getDraft_bind, h]
    have hm' : (c.reencode v.encoding).draft.machine.newState name = .error x := by
      rw [show (c.reencode v.encoding).draft.machine = c.draft.machine.reencode v.encoding from rfl,
        hnew, hm]
      rfl
    rw [hrun c hm, hrun _ hm']
    exact (fail _).run c hc
  | ok made =>
    -- the state that is declared keeps the encoding of the machine it is declared in
    have hrun : ∀ (c : Context) (made : Nat × Machine), c.draft.machine.newState name = .ok made →
        (Program.newState name).run c = (do
          Program.modifyMachine fun _ => made.2
          Program.note c.draft.name ("state " ++ toString made.1 ++
            if name = "" then "" else " " ++ Text.quoted name)
          return made.1 : ElabM Nat).run c := by
      intro c made h
      rw [Program.newState, run_getDraft_bind, h]
    have hm' : (c.reencode v.encoding).draft.machine.newState name =
        .ok (made.1, made.2.reencode v.encoding) := by
      rw [show (c.reencode v.encoding).draft.machine = c.draft.machine.reencode v.encoding from rfl,
        hnew, hm]
      rfl
    rw [hrun c made hm, hrun _ _ hm']
    refine ⟨rfl, fun a c' h => ?_⟩
    cases h
    exact ⟨hc.le, hc.callable, hc.bodies⟩

theorem step : Blind v step := by
  refine .getDraft_bind (fun _ => rfl) fun d => ?_
  dsimp only
  refine .ite (.bind (.fail _) fun _ => ?_) ?_
  all_goals
    exact .bind (.modifyDraft fun _ => rfl) fun _ => .bind (.newState _) fun id =>
      .getDraft_bind (fun _ => rfl) fun _ => .bind (.modifyDraft fun _ => rfl) fun _ =>
        .bind (.addBody _ _) fun _ => .bind (.modifyTop _) fun _ => .pure _

theorem stepIfWaiting : Blind v stepIfWaiting :=
  .getDraft_bind (fun _ => rfl) fun _ => .ite (.bind .step fun _ => .pure _) (.pure _)

/-! ## Control flow -/

section Control

variable {body : ElabM Unit} (hbody : Blind v body)
include hbody

theorem ifThen (test : Expr) : Blind v (ifThen test body) :=
  .bind .step fun _ => .bind (.pushFrame _) fun _ => .bind hbody fun _ => .bind .step fun _ =>
    .bind .popFrame fun _ => .bind (.addGoto _ _) fun _ => .bind (.modifyTop _) fun _ => .pure _

theorem orElse : Blind v (orElse body) := by
  refine .getDraft_bind (fun _ => rfl) fun d => ?_
  split
  · exact .bind (.modifyTop _) fun _ => .bind (.pushFrame _) fun _ => .bind hbody fun _ =>
      .bind .step fun _ => .bind .popFrame fun _ => .bind (.addGoto _ _) fun _ => .pure _
  · exact .fail _

theorem loop (head tail : Option Expr) (advance : Option Statement) :
    Blind v (loop head tail advance body) := by
  have hadvance : Blind v (advance.forM Program.emit) := by
    cases advance with
    | none => exact .pure _
    | some st => exact .emit st
  exact .bind .step fun _ => .bind (.pushFrame _) fun _ => .bind hbody fun _ =>
    .bind hadvance fun _ => .bind .step fun _ => .bind .popFrame fun _ =>
    .bind (.addGoto _ _) fun _ => .bind (.addGoto _ _) fun _ =>
    .bind (.forM fun _ _ => .addGoto _ _) fun _ => .bind (.forM fun _ _ => .addGoto _ _) fun _ =>
    .pure _

end Control

theorem breakLoop : Blind v breakLoop := by
  refine .bind .step fun st => .getDraft_bind (fun _ => rfl) fun d => ?_
  split
  · exact .fail _
  · exact .bind (.modifyDraft fun _ => rfl) fun _ => .pure _

theorem nextRound : Blind v nextRound := by
  refine .getDraft_bind (fun _ => rfl) fun d => ?_
  split
  · exact .fail _
  · split
    · exact .bind (.emit _) fun _ => .bind .step fun _ => .bind (.modifyDraft fun _ => rfl) fun _ =>
        .pure _
    · exact .bind .step fun _ => .bind (.addGoto _ _) fun _ => .pure _

theorem terminate : Blind v terminate := .bind .step fun _ => .bind (.addGoto _ _) fun _ => .pure _

theorem relate (r : Relation) (a b : Expr) : Blind v (relate r a b) :=
  .bind .getSymbols fun _ => .require _

theorem count {body : Expr → ElabM Unit} (hbody : ∀ i, Blind v (body i))
    (limit : Expr) : Blind v (count limit body) := by
  refine .bind .stepIfWaiting fun _ => .bind .getSymbols fun _ => .bind (.require _) fun p => ?_
  exact .bind (.modifyModule _) fun _ => .bind (.declare _) fun _ => .bind (.emit _) fun _ =>
    .bind (.relate ..) fun _ => .bind (.relate ..) fun _ => .loop (hbody _) ..

theorem exactNumber (n : UInt64) : Blind v (exactNumber n) :=
  .bind .getSymbols fun _ => .bind (.modifyModule _) fun _ => .pure _

/-! ## Calls -/

/-- The function of the program at this position, or one without a body. -/
theorem getFunction_bind {fn : Nat} (hfn : v.base ≤ fn) {g : Function → ElabM β}
    (hg : ∀ f, f.Uncoded v.foreign → Blind v (g f)) : Blind v (getFunction fn >>= g) := by
  refine .get_bind (f := fun c => g (c.session.functions[fn]?.getD default)) (fun _ => rfl)
    fun c hc => hg _ ?_
  cases hf : c.session.functions[fn]? with
  | none => exact ⟨fun x hx => absurd hx List.not_mem_nil, fun handler hx => by cases hx⟩
  | some f => exact hc.bodies fn f hfn hf

theorem getFunction (fn : Nat) : Blind v (getFunction fn) :=
  .get_bind (f := fun c => Pure.pure (c.session.functions[fn]?.getD default)) (fun _ => rfl)
    fun _ _ => .pure _

theorem getInstance (r : InstanceRef) : Blind v (getInstance r) :=
  .bind (.getFunction _) fun _ => .pure _

/-- Instances come and change, bodies stay. -/
theorem modifyFunction {fn : Nat} {f : Function → Function}
    (hf : ∀ g, (f g).body = g.body ∧ (f g).overflow = g.overflow) :
    Blind v (modifyFunction fn f) := by
  refine .modifySession fun s hs => ⟨by simpa using hs.le, hs.callable, fun k g hk hg => ?_⟩
  rw [Array.getElem?_modify] at hg
  split at hg
  · obtain ⟨g', hg', rfl⟩ := Option.map_eq_some_iff.mp hg
    obtain ⟨hbody, hover⟩ := hs.bodies k g' hk hg'
    refine ⟨?_, ?_⟩
    · rw [(hf g').1]
      exact hbody
    · rw [(hf g').2]
      exact hover
  · exact hs.bodies k g hk hg

theorem modifyInstance (r : InstanceRef) (f : Instance → Instance) : Blind v (modifyInstance r f) :=
  .modifyFunction fun _ => ⟨rfl, rfl⟩

/-- A body under elaboration belongs to the function that was asked for. -/
theorem elaborating_bind {fn : Nat} {types : List SignalType} {g : Option InstanceRef → ElabM β}
    (hg : ∀ o, (∀ r, o = some r → r.function = fn) → Blind v (g o)) :
    Blind v (elaborating fn types >>= g) := by
  refine .get_bind (f := fun c => g (c.draft.building.find? fun r => r.function == fn &&
    ((c.session.functions[fn]?.bind (·.instances[r.position]?)).any (·.argTypes == types))))
    (fun _ => rfl) fun c _ => hg _ fun r hr => ?_
  have hmatch := List.find?_some hr
  rw [Bool.and_eq_true, beq_iff_eq] at hmatch
  exact hmatch.1

theorem instantiate_function (fn : Nat) (types : List SignalType) (c : Context) :
    Ensures (Program.instantiate fn types) c fun r _ => r.function = fn := by
  simp only [Program.instantiate, ensures_ops, ensures_ite, Program.modifyFunction, implies_true,
    true_and]
  exact fun _ _ _ _ => trivial

theorem instantiate (fn : Nat) (types : List SignalType) : Blind v (instantiate fn types) := by
  refine .bind (.getFunction fn) fun f => .getDraft_bind (fun _ => rfl) fun d => ?_
  dsimp only
  refine .ite (.bind (.fail _) fun _ => ?_) ?_
  all_goals
    refine .bind .getModule fun _ => .bind (.modifyModule _) fun _ => .bind (.declare _) fun _ => ?_
    refine .bind (.declare _) fun _ => .bind (.mapM fun _ _ => .declare _) fun _ => ?_
    refine .bind (.declare _) fun _ => .bind (.declare _) fun _ => ?_
    refine .bind (.modifyMachine fun _ => rfl) fun _ => ?_
    exact .bind (.modifyFunction fun _ => ⟨rfl, rfl⟩) fun _ => .bind (.note ..) fun _ => .pure _

theorem sizeStack (r : InstanceRef) (request : Int) : Blind v (sizeStack r request) := by
  refine .bind (.getFunction _) fun f => .bind (.getInstance r) fun inst => ?_
  refine .ite (.bind .getSymbols fun _ => .ite (.fail _) (.pure _)) ?_
  dsimp only
  refine .ite (.bind (.note ..) fun _ => ?_) ?_
  all_goals exact .bind (.modifyInstance ..) fun _ => .modifyModule _

theorem hasRoom (inst : Instance) : Blind v (hasRoom inst) := .relate ..

theorem pushCall (r : InstanceRef) (args : List Expr) : Blind v (pushCall r args) := by
  refine .getDraft_bind (fun _ => rfl) fun _ => ?_
  dsimp only
  refine .ite (.bind .step fun _ => ?_) ?_
  all_goals
    refine .bind (.getInstance r) fun _ => .bind (.hasRoom _) fun _ => .bind .getSymbols fun _ => ?_
    refine .bind (.modifyModule _) fun _ => .getDraft_bind (fun _ => rfl) fun _ => ?_
    exact .bind (.emit _) fun _ => .pure _

theorem resolveReturn (r : InstanceRef) (value : Expr) : Blind v (resolveReturn r value) := by
  refine .bind .getSymbols fun s => .ite (.bind (.getInstance r) fun inst => ?_) (.throw _)
  split
  · exact .pure _
  · refine .ite (.pure _) (.ite (.bind (.modifyModule _) fun _ => .modifyInstance ..) ?_)
    exact .ite (.bind (.getFunction _) fun _ => .fail _) (.pure _)

theorem makeReturn (r : InstanceRef) (value : Option Expr) : Blind v (makeReturn r value) := by
  refine .bind .step fun _ => .bind (.getInstance r) fun inst => ?_
  dsimp only
  split
  · refine .bind (.resolveReturn r _) fun _ => .bind (.emit _) fun _ => ?_
    exact .bind .step fun _ => .bind (.addBody _ _) fun _ => .bind (.addGoto _ _) fun _ => .pure _
  · exact .bind .step fun _ => .bind (.addBody _ _) fun _ => .bind (.addGoto _ _) fun _ => .pure _

section Calls

variable {run : List Command → ElabM Unit}
variable (hrun : ∀ body, (∀ x ∈ body, x.Uncoded v.foreign) → Blind v (run body))
include hrun

theorem finishCall {r : InstanceRef} (hr : v.base ≤ r.function) (call : Nat) (link : LinkId)
    (skip : Nat) : Blind v (finishCall run r call link skip) := by
  refine .getFunction_bind hr fun f hf => ?_
  have hwire : ∀ resume, Blind v (do
      Program.modifyDraft fun d => { d with resumes := d.resumes ++ [(link, resume)] }
      let inst ← Program.getInstance r
      let room ← Program.hasRoom inst
      Program.addGoto call (.branch room (.state inst.entry) (.state skip))) := fun resume =>
    .bind (.modifyDraft fun _ => rfl) fun _ => .bind (.getInstance r) fun _ =>
      .bind (.hasRoom _) fun _ => .addGoto _ _
  dsimp only
  split
  · next handler hh =>
    exact .bind (hrun _ (hf.overflow handler hh)) fun _ => .bind .step fun last => hwire (last + 1)
  · exact hwire skip

theorem callFirst {r : InstanceRef} (hr : v.base ≤ r.function) (args : List Expr) :
    Blind v (callFirst run r args) := by
  refine .bind (.pushCall r args) fun link => .bind .step fun call => ?_
  refine .bind (.modifyInstance ..) fun _ => .bind (.modifyDraft fun _ => rfl) fun _ => ?_
  refine .bind (.pushFrame _) fun _ => .bind (.getInstance r) fun inst => ?_
  refine .bind (.modifyScope fun _ => rfl) fun _ => .getFunction_bind hr fun f hf => ?_
  refine .bind (hrun _ hf.body) fun _ => .bind (.modifyScope fun _ => rfl) fun _ => ?_
  refine .bind (.makeReturn r none) fun _ => .bind .popFrame fun _ => ?_
  exact .bind (.modifyDraft fun _ => rfl) fun _ => .finishCall hrun hr ..

theorem callExisting {r : InstanceRef} (hr : v.base ≤ r.function) (args : List Expr) :
    Blind v (callExisting run r args) :=
  .bind (.pushCall r args) fun _ => .bind .step fun _ => .finishCall hrun hr ..

theorem callFunction {fn : Nat} (hfn : v.base ≤ fn) (depth : Int) (args : List Expr) :
    Blind v (callFunction run fn depth args) := by
  refine .bind .getSymbols fun s => .bind (.mapM fun _ _ => .require _) fun types => ?_
  have hret : ∀ r, Blind v (do return Expr.ref (← Program.getInstance r).ret) :=
    fun r => .bind (.getInstance r) fun _ => .pure _
  refine .elaborating_bind fun o ho => ?_
  dsimp only
  split
  · next r =>
    have hr : v.base ≤ r.function := ho r rfl ▸ hfn
    exact .bind (.sizeStack r depth) fun _ => .bind (.callExisting hrun hr args) fun _ => hret r
  · refine .bind (.getFunction fn) fun f => ?_
    split
    · exact .bind (.callExisting hrun hfn args) fun _ => hret _
    · refine .bind_of (instantiate_function fn types) (.instantiate fn types) fun r hr => ?_
      exact .bind (.callFirst hrun (hr ▸ hfn) args) fun _ => hret r

end Calls

theorem returnFrom (value : Option Expr) : Blind v (returnFrom value) := by
  refine .getDraft_bind (fun _ => rfl) fun d => ?_
  split
  · exact .fail _
  · exact .makeReturn _ value

/-! ## Commands -/

theorem recordState {make : ElabM Nat} (hmake : Blind v make) (command : String) :
    Blind v (recordState command make) := .bind hmake fun _ => .record ..

theorem bindVar (name : Option String) (x : Expr) : Blind v (bindVar name x) :=
  .modifyScope fun sc => by cases name <;> rfl

theorem declareBound (command name : String) (f : Module → SignalId × Module) :
    Blind v (declareBound command name f) :=
  .bind (.declare f) fun _ => .bind (.modifyScope fun _ => rfl) fun _ =>
    .bind .getSymbols fun _ => .record ..

/-- Calls of the functions of the program do not look at the encoding. -/
def Calls (v : Recoding) (call : Caller) : Prop :=
  ∀ fn depth args, v.base ≤ fn → Blind v (call fn depth args)

theorem callNamed {call : Caller} (hcall : Calls v call) {name : String}
    (hname : name ∉ v.foreign) (command : String) (depth : Int) {args : List Term}
    (hargs : ∀ t ∈ args, t.isUncoded = true) (result : Option String) :
    Blind v (callNamed call command name depth args result) := by
  refine .get_bind (fun _ => rfl) fun c hc => ?_
  split
  · exact .throw _
  · next fn hfn =>
    obtain ⟨before, after, hsplit, -⟩ := List.lookup_eq_some_iff.mp hfn
    have hbase : v.base ≤ fn := hc.callable (name, fn) (by simp [hsplit]) hname
    refine .bind (.mapM fun t ht => .resolve (hargs t ht)) fun args' => ?_
    exact .bind (hcall fn depth args' hbase) fun _ => .bind (.bindVar ..) fun _ =>
      .bind .getSymbols fun _ => .record ..

theorem defineFunction {f : Function} (hf : f.Uncoded v.foreign) : Blind v (defineFunction f) := by
  refine .get_bind (fun _ => rfl) fun c hc => .bind (.modifySession fun s hs => ?_) fun _ =>
    .modifyDraft fun _ => rfl
  refine ⟨?_, fun p hp hne => ?_, fun k g hk hg => ?_⟩
  · rw [Array.size_push]
    exact hs.le.trans (Nat.le_succ _)
  · rcases List.mem_cons.mp hp with rfl | hp
    · exact hc.le
    · exact hs.callable p hp hne
  · rw [Array.getElem?_push] at hg
    split at hg
    · cases hg
      exact hf
    · exact hs.bodies k g hk hg

theorem simple {call : Caller} (hcall : Calls v call) :
    ∀ x : Command, x.Uncoded v.foreign → x.isConstruct = false → Blind v (perform call x)
  | .reg name t, _, _ => .declareBound ..
  | .memory name t depth, _, _ => .declareBound ..
  | .assign dest value, h, _ =>
    .bind (.resolveSignal dest) fun _ => .bind (.resolve (h.term List.mem_cons_self)) fun _ => .emit _
  | .assignAt dest index value, h, _ =>
    .bind (.resolveSignal dest) fun _ => .bind (.resolve (h.term (by simp [Command.terms]))) fun _ =>
      .bind (.resolve (h.term (by simp [Command.terms]))) fun _ => .emit _
  | .step, _, _ => .recordState .step "step"
  | .breakLoop, _, _ => .recordState .breakLoop "break"
  | .nextRound, _, _ => .recordState .nextRound "continue"
  | .terminate, _, _ => .recordState .terminate "terminate"
  | .define name depth returns overflow body, h, _ => by
    rw [Program.perform]
    refine .defineFunction ⟨h.body fun y hy => by simp [Command.within, hy], ?_⟩
    rintro handler rfl
    exact h.body fun y hy => by simp [Command.within, Command.withinHandler, hy]
  | .call fn args result, h, _ => .callNamed hcall (h.call rfl) "call" 0 (fun t ht => h.term ht) result
  | .callDepth fn depth args result, h, _ =>
    .callNamed hcall (h.call rfl) "calld" depth (fun t ht => h.term ht) result
  | .ret value, h, _ =>
    .bind (.resolve (h.term List.mem_cons_self)) fun _ => .recordState (.returnFrom _) "return"
  | .bind name value, h, _ => .bind (.resolve (h.term List.mem_cons_self)) fun _ => .bindVar ..
  | .probe value, h, _ =>
    .bind (.resolve (h.term List.mem_cons_self)) fun _ => .bind .getSymbols fun _ =>
      .bind (.require _) fun _ => .record ..
  | .label _, h, _ | .goto _, h, _ | .resize .., h, _ | .stateBody .., h, _ | .stateGoto .., h, _
  | .newState _, h, _ | .buildMachine, h, _ =>
    absurd h.structured (by simp [Command.isStructured, Command.isRaw])

theorem walk {call : Caller} (hcall : Calls v call) :
    Walk (ι := Unit) id id (fun _ _ x => Blind v x) (fun _ x => x.Uncoded v.foreign)
      call where
  pure _ := .pure ()
  bind := .bind
  record _ := .record
  bindVar _ := .bindVar
  getSymbols _ := .getSymbols
  resolveSignal _ := .resolveSignal
  exactNumber _ := .exactNumber
  resolve h ht := .resolve (h.term ht)
  ifThen test hbody := .ifThen hbody test
  orElse hbody := .orElse hbody
  loop _ hbody := .loop hbody ..
  count limit hbody := .count hbody limit
  choice h hthn hels := choice_of_emit (P := fun _ x => Blind v x) .bind
    (.resolve (h.term List.mem_cons_self)) (.modifyDraft fun _ => rfl) .closeBlock .emit hthn hels
  simple h hx := .simple hcall _ h hx
  parts h _ hy := fun z hz => h z (Command.within_of_parts hy hz)

theorem performAll {call : Caller} (hcall : Calls v call) (body : List Command)
    (h : ∀ x ∈ body, x.Uncoded v.foreign) : Blind v (performAll call body) :=
  (walk hcall).performAll () body h

/-- Whatever the budget of nested calls is. -/
theorem callWithin (n : Nat) : Calls v (callWithin n) := by
  induction n with
  | zero => exact fun _ _ _ _ => .throw _
  | succ n ih =>
    exact fun fn depth args hfn => .callFunction (fun body hbody => performAll ih body hbody) hfn ..

/-! ## Whole programs -/

theorem setRun (run : SignalId) (n : UInt64) : Blind v (do
    let (st, m) := Program.setRun run n (← Program.getModule)
    Program.modifyModule fun _ => m
    return st) := .bind .getModule fun _ => .bind (.modifyModule _) fun _ => .pure _

theorem runDefaults (run : SignalId) (start : Expr) : Blind v (runDefaults run start) :=
  .ite (.bind (.setRun run 1) fun _ => .pure _)
    (.bind (.setRun run 0) fun _ => .bind (.setRun run 1) fun _ => .pure _)

theorem beginProgram (start : Expr) : Blind v (beginProgram start) :=
  .getDraft_bind (fun _ => rfl) fun _ => .bind (.newState _) fun _ => .bind (.addGoto _ _) fun _ =>
    .bind (.runDefaults ..) fun _ => .bind .getModule fun _ => .bind (.modifyModule _) fun _ =>
    .modifyMachine fun _ => rfl

theorem settleReturn (f : Function) (inst : Instance) : Blind v (settleReturn f inst) := by
  refine .bind .getSymbols fun s => .ite (.bind ?_ fun _ => .note ..) (.pure _)
  cases s.signals[inst.ret]?.bind Signal.type with
  | none => exact .pure _
  | some t => exact .modifyModule (·.modifySymbols (·.setWidth t 1))

theorem settleReturns : Blind v settleReturns :=
  .getDraft_bind (fun _ => rfl) fun _ => .forM fun _ _ => .bind (.getFunction _) fun f =>
    .forM fun inst _ => .settleReturn f inst

theorem prepare (opts : Options) {body : List Command} (h : ∀ x ∈ body, x.Uncoded v.foreign) :
    Blind v (prepare opts body) :=
  .bind (.beginProgram opts.start) fun _ => .bind (.performAll (callWithin opts.budget) body h)
    fun _ => .bind .stepIfWaiting fun _ => .settleReturns

end Blind

end Program

end Lockstep
