import Lockstep.Proofs.Program.Ensures

/-!
# Reading a program

A program can be read if all its names stand for something and the types that it needs are known.
Reading resolves the expressions of a program and makes its declarations, in the order in which
elaboration does, but cuts no states. Elaboration sees the same module and the same names on the
way, so a program that can be read fails for its control flow or not at all.
-/

namespace Lockstep.Program

variable {α β : Type}

/-! ## Steps that succeed -/

/-- `x` succeeds from `c`, and its value and the context after it satisfy `Q`. -/
def Yields (x : ElabM α) (c : Context) (Q : α → Context → Prop) : Prop :=
  match x.run c with
  | .ok a c' => Q a c'
  | .error .. => False

section

variable {x : ElabM α} {f : α → ElabM β} {c : Context} {P Q : α → Context → Prop}

theorem Yields.mono (h : Yields x c P) (hpq : ∀ a c', P a c' → Q a c') : Yields x c Q := by
  unfold Yields at h ⊢
  split at h
  · exact hpq _ _ h
  · exact h.elim

theorem Yields.and (hp : Yields x c P) (hq : Yields x c Q) :
    Yields x c fun a c' => P a c' ∧ Q a c' := by
  unfold Yields at *
  split at hp
  · next hx =>
    rw [hx] at hq
    exact ⟨hp, hq⟩
  · exact hp.elim

@[simp] theorem yields_pure {a : α} : Yields (pure a) c Q ↔ Q a c := Iff.rfl

@[simp] theorem yields_bind {Q : β → Context → Prop} :
    Yields (x >>= f) c Q ↔ Yields x c fun a c' => Yields (f a) c' Q := by
  simp only [Yields, EStateM.run, bind, EStateM.bind]
  cases x c <;> rfl

@[simp] theorem yields_map {g : α → β} {Q : β → Context → Prop} :
    Yields (g <$> x) c Q ↔ Yields x c fun a c' => Q (g a) c' := by
  simp only [← bind_pure_comp, yields_bind, yields_pure]

@[simp] theorem yields_get {Q : Context → Context → Prop} : Yields get c Q ↔ Q c c := Iff.rfl

@[simp] theorem not_yields_throw {e : Error} : ¬ Yields (throw e : ElabM α) c Q := id

@[simp] theorem yields_modifyDraft {g : Draft → Draft} {Q : Unit → Context → Prop} :
    Yields (modifyDraft g) c Q ↔ Q () { c with draft := g c.draft } := Iff.rfl

@[simp] theorem yields_modifyModule {g : Module → Module} {Q : Unit → Context → Prop} :
    Yields (modifyModule g) c Q ↔
      Q () { c with session := { c.session with module := g c.session.module } } := Iff.rfl

@[simp] theorem yields_modifyMachine {g : Machine → Machine} {Q : Unit → Context → Prop} :
    Yields (modifyMachine g) c Q ↔
      Q () { c with draft := { c.draft with machine := g c.draft.machine } } := Iff.rfl

@[simp] theorem yields_modifyScope {g : Script.Scope → Script.Scope} {Q : Unit → Context → Prop} :
    Yields (modifyScope g) c Q ↔
      Q () { c with session := { c.session with scope := g c.session.scope } } := Iff.rfl

@[simp] theorem yields_getDraft {Q : Draft → Context → Prop} :
    Yields getDraft c Q ↔ Q c.draft c := Iff.rfl

@[simp] theorem yields_getModule {Q : Module → Context → Prop} :
    Yields getModule c Q ↔ Q c.session.module c := Iff.rfl

@[simp] theorem yields_getSymbols {Q : Symbols → Context → Prop} :
    Yields getSymbols c Q ↔ Q c.session.module.symbols c := Iff.rfl

@[simp] theorem yields_declare {g : Module → SignalId × Module} {Q : SignalId → Context → Prop} :
    Yields (declare g) c Q ↔ Q (g c.session.module).1
      { c with session := { c.session with module := (g c.session.module).2 } } := Iff.rfl

@[simp] theorem yields_emit {st : Statement} {Q : Unit → Context → Prop} :
    Yields (emit st) c Q ↔
      Q () { c with draft := { c.draft with blocks := c.draft.blocks.emit st } } := Iff.rfl

@[simp] theorem yields_openBlock {Q : Unit → Context → Prop} :
    Yields openBlock c Q ↔
      Q () { c with draft := { c.draft with blocks := c.draft.blocks.enter } } := Iff.rfl

@[simp] theorem yields_closeBlock {Q : List Statement → Context → Prop} :
    Yields closeBlock c Q ↔ Q c.draft.blocks.leave.1
      { c with draft := { c.draft with blocks := c.draft.blocks.leave.2 } } := Iff.rfl

@[simp] theorem yields_addGoto {n : Nat} {t : Transition Expr} {Q : Unit → Context → Prop} :
    Yields (addGoto n t) c Q ↔
      Q () { c with draft := { c.draft with machine := c.draft.machine.addGoto n t } } := Iff.rfl

@[simp] theorem yields_pushFrame {fr : Frame} {Q : Unit → Context → Prop} :
    Yields (pushFrame fr) c Q ↔
      Q () { c with draft := { c.draft with frames := fr :: c.draft.frames } } := Iff.rfl

@[simp] theorem yields_popFrame {Q : Frame → Context → Prop} :
    Yields popFrame c Q ↔ Q (c.draft.frames.headD {})
      { c with draft := { c.draft with frames := c.draft.frames.tail } } := Iff.rfl

@[simp] theorem yields_modifyTop {g : Frame → Frame} {Q : Unit → Context → Prop} :
    Yields (modifyTop g) c Q ↔
      Q () { c with draft := { c.draft with frames := c.draft.frames.modifyHead g } } := Iff.rfl

@[simp] theorem yields_require {o : Option α} :
    Yields (require o) c Q ↔ ∃ a, o = some a ∧ Q a c := by
  cases o with
  | none => simp [require, abort]
  | some a => simp [require]

@[simp] theorem yields_note {place message : String} {Q : Unit → Context → Prop} :
    Yields (note place message) c Q ↔ Q () (c.reported (·.note place message)) := Iff.rfl

@[simp] theorem yields_record {command : String} {fact : Fact} {Q : Unit → Context → Prop} :
    Yields (record command fact) c Q ↔
      Q () { c with session :=
        { c.session with journal := c.session.journal.push ⟨command, fact⟩ } } := Iff.rfl

end

/-! ## Contexts that read alike -/

/-- The machine that the terms of a context speak of. -/
def Context.focus (c : Context) : Script.Focus :=
  { machine := c.draft.machine, run := some c.draft.run }

/-- What the terms of a program can see of its draft. -/
def Draft.face (d : Draft) : SignalId × TypeId × SignalId × Encoding :=
  (d.run, d.machine.type, d.machine.current, d.machine.encoding)

/-- The same names in the same module, and the same codes for the states of the machine. -/
structure Beside (c r : Context) : Prop where
  module_eq : c.session.module = r.session.module
  scope_eq : c.session.scope = r.session.scope
  face_eq : c.draft.face = r.draft.face
  /-- Other codes depend on the number of states. -/
  binary : c.draft.machine.encoding = .binary

def Context.withModule (c : Context) (m : Module) : Context :=
  { c with session := { c.session with module := m } }

variable {c c' r : Context}

theorem Beside.withModule (h : Beside c r) (m : Module) :
    Beside (c.withModule m) (r.withModule m) :=
  { h with module_eq := rfl }

def Context.withScope (c : Context) (sc : Script.Scope) : Context :=
  { c with session := { c.session with scope := sc } }

theorem Beside.withScope (h : Beside c r) (sc : Script.Scope) :
    Beside (c.withScope sc) (r.withScope sc) :=
  { h with scope_eq := rfl }

/-- A change of the draft that terms cannot see. -/
theorem Beside.redraft (h : Beside c r) (hs : c'.session.module = c.session.module)
    (hsc : c'.session.scope = c.session.scope) (hf : c'.draft.face = c.draft.face) :
    Beside c' r where
  module_eq := hs.trans h.module_eq
  scope_eq := hsc.trans h.scope_eq
  face_eq := hf.trans h.face_eq
  binary := by
    simp only [Draft.face, Prod.mk.injEq] at hf
    exact hf.2.2.2.trans h.binary

theorem Beside.codeExpr (h : Beside c r) (id : Int) :
    c.draft.machine.codeExpr id = r.draft.machine.codeExpr id := by
  have hface := h.face_eq
  simp only [Draft.face, Prod.mk.injEq] at hface
  simp [Machine.codeExpr, Machine.code, ← hface.2.2.2, h.binary, hface.2.1]

theorem resolve_beside (h : Beside c r) (sc : Script.Scope) (t : Script.Term) :
    t.resolve sc (some c.focus) = t.resolve sc (some r.focus) := by
  have hface := h.face_eq
  simp only [Draft.face, Prod.mk.injEq] at hface
  have hcurrent : c.focus.machine.current = r.focus.machine.current := hface.2.2.1
  have hcode : ∀ id, c.focus.machine.codeExpr id = r.focus.machine.codeExpr id := h.codeExpr
  have hrun : c.focus.run = r.focus.run := congrArg some hface.1
  induction t with
  | bin op l r ihl ihr | cmp p l r ihl ihr | relate rel l r ihl ihr =>
    rw [Script.Term.resolve, Script.Term.resolve, ihl, ihr]
  | numberLike v like delta ih | not x ih | index name x ih =>
    rw [Script.Term.resolve, Script.Term.resolve, ih]
  | code id => simp only [Script.Term.resolve, Script.need, pure_bind, hcode]
  | isIn id =>
    simp only [Script.Term.resolve, Script.need, pure_bind, Machine.isIn, hcode, hcurrent]
  | alive =>
    simp only [Script.Term.resolve, Script.need, pure_bind, Machine.isNotIn, hcode, hcurrent]
  | running => simp only [Script.Term.resolve, Option.bind_some, hrun]
  | literal v type => cases type <;> rfl
  | _ => rfl

/-- Only the module changes when something is resolved. -/
theorem yields_resolving {f : Script.Scope → Option Script.Focus → Script.Resolve α}
    {Q : α → Context → Prop} : Yields (resolving f) c Q ↔
      ∃ a m, (f c.session.scope (some c.focus)).run c.session.module = .ok (a, m) ∧
        Q a (c.withModule m) := by
  simp only [resolving, yields_bind, yields_get, Context.focus]
  split
  · next a m hr =>
    simp [hr, Context.withModule]
  · next e hr => simp [hr, abort]

/-- What can be read can be resolved beside it, with the same value and in the same module. -/
theorem Beside.resolving {f : Script.Scope → Option Script.Focus → Script.Resolve α}
    {P Q : α → Context → Prop} (h : Beside c r)
    (hf : ∀ sc, f sc (some c.focus) = f sc (some r.focus)) (hr : Yields (resolving f) r P)
    (hQ : ∀ a m, P a (r.withModule m) → Q a (c.withModule m)) : Yields (resolving f) c Q := by
  obtain ⟨a, m, hm, hP⟩ := yields_resolving.mp hr
  refine yields_resolving.mpr ⟨a, m, ?_, hQ a m hP⟩
  rw [h.scope_eq, h.module_eq, hf, hm]

theorem Beside.resolve {t : Script.Term} {P Q : Expr → Context → Prop} (h : Beside c r)
    (hr : Yields (resolve t) r P) (hQ : ∀ e m, P e (r.withModule m) → Q e (c.withModule m)) :
    Yields (Program.resolve t) c Q :=
  h.resolving (fun sc => resolve_beside h sc t) hr hQ

theorem Beside.resolveSignal {name : String} {P Q : SignalId → Context → Prop} (h : Beside c r)
    (hr : Yields (resolveSignal name) r P)
    (hQ : ∀ i m, P i (r.withModule m) → Q i (c.withModule m)) :
    Yields (Program.resolveSignal name) c Q :=
  h.resolving (fun _ => rfl) hr hQ

/-! ## The reader -/

/-- Declares the index of an enumerator and makes its tests. -/
def visitCount (limit : Expr) (body : Expr → ElabM Unit) : ElabM Unit := do
  let (type, symbols) ← require ((← getSymbols).shareType limit)
  modifyModule fun m => { m with symbols }
  let i ← declare (·.declareAt "i" .reg type 0 0)
  let _ ← relate .lt (.const 0 (some type)) limit
  let _ ← relate .lt (.plus (.ref i) (.const 1 (some type))) limit
  body (.ref i)

mutual

/-- Reads a command. -/
def visit : Command → ElabM Unit
  | .reg name t => declareBound "reg" name (·.addReg name t)
  | .memory name t depth => declareBound "mem" name (·.addMemory name t depth)
  | .assign dest value => do
    let _ ← resolveSignal dest
    let _ ← resolve value
  | .assignAt dest index value => do
    let _ ← resolveSignal dest
    let _ ← resolve index
    let _ ← resolve value
  | .when test thn els => do
    let _ ← resolve test
    visitAll thn
    visitAll els
  | .ifThen test body | .whileLoop test body => do
    let _ ← resolve test
    visitAll body
  | .orElse body | .loop body => visitAll body
  | .count limit index body => do
    visitCount (← resolve limit) fun i => do
      bindVar index i
      visitAll body
  | .times n index body => do
    visitCount (← exactNumber (UInt64.ofInt n)) fun i => do
      bindVar index i
      visitAll body
  | .each name word index body => do
    let mem ← resolveSignal name
    let depth := ((← getSymbols).signals[mem]?.map Signal.depth).getD 0
    visitCount (← exactNumber (UInt64.ofInt depth)) fun i => do
      bindVar word (.index mem i)
      bindVar index i
      visitAll body
  | .ret value => do
    let _ ← resolve value
  | .bind name value => do bindVar (some name) (← resolve value)
  | .probe value => do
    let e ← resolve value
    let _ ← require (Script.shown (← getSymbols) e)
  | _ => return ()

def visitAll : List Command → ElabM Unit
  | [] => return ()
  | x :: rest => do
    visit x
    visitAll rest

end

/-- All names of the program stand for something when it is read in its draft. -/
def isReadable (s : Session) (opts : Options) (body : List Command) : Bool :=
  match (do beginProgram opts.start; visitAll body : ElabM Unit).run (draft s opts) with
  | .ok .. => true
  | .error .. => false

theorem yields_of_isReadable {s : Session} {opts : Options} {body : List Command}
    (h : isReadable s opts body = true) :
    Yields (do beginProgram opts.start; visitAll body) (draft s opts) fun _ _ => True := by
  unfold isReadable at h
  unfold Yields
  split <;> simp_all

end Lockstep.Program
