import Lockstep.Proofs.Program.Discipline
import Lockstep.Proofs.Program.Fitting

/-!
# Built programs pass the width check

Careful elaboration keeps widths in order, command by command. At the end of the program every return
register gets a width, the state register the width of the codes, and the two processes of the machine
assign and compare only what fits.
-/

namespace Lockstep.Program

open Script (Term)

variable {n : Nat} {c c' : Context}
variable {opts : Options} {s : Session} {i : SignalId} {α : Type}

/-! ## Commands -/

theorem Blocks.sound_leave {g : Symbols} {d : Draft} (h : Coded g d) :
    Stmt.BlockSound g d.blocks.leave.1 ∧ Coded g { d with blocks := d.blocks.leave.2 } := by
  unfold Blocks.leave
  split
  · exact ⟨trivial, h.reblock h.outer h.inner⟩
  · next block rest hb =>
    have hinner := h.inner
    rw [hb] at hinner
    exact ⟨hinner block List.mem_cons_self,
      h.reblock h.outer fun b hmem => hinner b (List.mem_cons_of_mem _ hmem)⟩

theorem Forwards.openBlock : Forwards n openBlock := fun c h => by
  rw [ensures_openBlock]
  refine h.redraft rfl rfl (h.coded.reblock h.coded.outer fun b hb => ?_) ⟨rfl, rfl, rfl⟩ rfl rfl
    h.building
  rcases List.mem_cons.mp hb with rfl | hb
  · exact trivial
  · exact h.coded.inner b hb

theorem Fitted.closeBlock (h : Fitted n c) : Ensures closeBlock c fun block c' => Forward n c c' ∧
      Stmt.BlockSound c'.session.module.symbols block := by
  rw [ensures_closeBlock]
  obtain ⟨hblock, hcoded⟩ := Blocks.sound_leave h.coded
  exact ⟨h.redraft rfl rfl hcoded ⟨rfl, rfl, rfl⟩ rfl rfl h.building, hblock⟩

/-- A block of commands of its own. -/
theorem Forwards.block {body : ElabM Unit} (hbody : Forwards n body) (c : Context) (h : Fitted n c) :
    Ensures (do Program.openBlock; body; Program.closeBlock) c fun block c' => Forward n c c' ∧
      Stmt.BlockSound c'.session.module.symbols block := by
  simp only [ensures_bind]
  refine (Forwards.openBlock c h).mono fun _ c₁ h₁ => ?_
  refine (hbody c₁ h₁.fitted).mono fun _ c₂ h₂ => ?_
  refine h₂.fitted.closeBlock.mono ?_
  rintro block c₃ ⟨h₃, hb⟩
  exact ⟨(h₁.trans h₂).trans h₃, hb⟩

theorem Fitted.when (h : Fitted n c) {thn els : ElabM Unit} (hthn : Forwards n thn)
    (hels : Forwards n els) {test : Expr}
    (ht : test = .hole ∨ test.Sound c.session.module.symbols) : Ensures (do
      let thn ← (do Program.openBlock; thn; Program.closeBlock)
      let els ← (do Program.openBlock; els; Program.closeBlock)
      Program.emit (.cond test thn els)) c fun _ => Forward n c := by
  rw [ensures_bind]
  refine (hthn.block c h).mono ?_
  rintro thn' c₁ ⟨h₁, hthn'⟩
  rw [ensures_bind]
  refine (hels.block c₁ h₁.fitted).mono ?_
  rintro els' c₂ ⟨h₂, hels'⟩
  have hst : Stmt.Sound c₂.session.module.symbols (.cond test thn' els') :=
    ⟨ht.imp_right fun ht => ht.refit (h₁.trans h₂).refits, hthn'.refit h₂.refits, hels'⟩
  exact (h₂.fitted.emit hst).mono fun _ c₃ h₃ => (h₁.trans h₂).trans h₃

theorem Forwards.mapM {β : Type} {f : α → ElabM β} (hf : ∀ x, Forwards n (f x)) (xs : List α) :
    Forwards n (xs.mapM f) := by
  induction xs with
  | nil => exact .pure _
  | cons x xs ih =>
    rw [List.mapM_cons]
    exact (hf x).bind fun _ => ih.bind fun _ => .pure _

/-- Looking something up. -/
theorem Forwards.resolveSignal (name : String) : Forwards n (resolveSignal name) := fun _ h =>
  .resolveSignal fun _ _ => .refl h

theorem Forwards.getSymbols : Forwards n getSymbols := fun c h => by
  rw [ensures_getSymbols]
  exact .refl h

theorem Forwards.require (o : Option α) : Forwards n (require o) := fun c h => by
  rw [ensures_require]
  exact fun _ _ => .refl h

theorem Ensures.recordState {make : ElabM Nat} (h : Ensures make c fun _ => Forward n c)
    (command : String) : Ensures (recordState command make) c fun _ => Forward n c := by
  unfold Program.recordState
  rw [ensures_bind]
  exact h.mono fun _ c₁ h₁ => (Forwards.record command _ c₁ h₁.fitted).mono fun _ c₂ h₂ => h₁.trans h₂

theorem Forwards.callNamed {call : Caller}
    (hcall : ∀ fn depth args, Forwards n (call fn depth args)) (command name : String) (depth : Int)
    (args : List Term) (result : Option String) :
    Forwards n (callNamed call command name depth args result) := fun c h => by
  simp only [Program.callNamed]
  rw [ensures_bind, ensures_get]
  split
  · simp
  · next fn _ =>
    exact Forwards.bind (.mapM .resolve args) (fun args => .bind (hcall fn depth args) fun e =>
      .bind (.bindVar result e) fun _ => .bind .getSymbols fun _ => .record _ _) c h

mutual

/-- Every command keeps widths in order. -/
theorem Forwards.careful {call : Caller} (hcall : ∀ fn depth args, Forwards n (call fn depth args))
    (x : Command) : Forwards n (careful call x) := by
  intro c h
  cases x with
  | reg name t =>
    simp only [Program.careful, perform, ensures_bind, ensures_demand]
    exact fun ht => Forwards.declareBound "reg" name ht (by simp) c h
  | memory name t depth =>
    simp only [Program.careful, perform, ensures_bind, ensures_demand, Bool.and_eq_true,
      decide_eq_true_eq]
    exact fun ht => Forwards.declareBound "mem" name ht.1 (fun _ => ht.2) c h
  | assign dest value =>
    simp only [Program.careful, ensures_bind]
    refine .resolveSignal fun i _ => (h.resolveComplete value).mono ?_
    rintro e c₁ ⟨h₁, he⟩
    exact (h₁.fitted.emit (Stmt.sound_assign i he)).mono fun _ c₂ h₂ => h₁.trans h₂
  | assignAt dest index value =>
    simp only [Program.careful, ensures_bind, ensures_getSymbols, ensures_demand, Bool.or_eq_true,
      decide_eq_true_eq]
    refine .resolveSignal fun i _ => (h.resolveOptional index).mono ?_
    rintro at' c₁ ⟨h₁, hat⟩ hmem
    refine (h₁.fitted.resolveComplete value).mono ?_
    rintro e c₂ ⟨h₂, he⟩
    have hst : Stmt.Sound c₂.session.module.symbols (.assign i at'.toOption e) := by
      refine ⟨fun e' he' => ⟨(sound_of_toOption hat he').refit h₂.refits, h₂.refits.isMemory ?_⟩, he⟩
      exact hmem.resolve_left fun hh => by simp [hh, Expr.toOption] at he'
    exact (h₂.fitted.emit hst).mono fun _ c₃ h₃ => (h₁.trans h₂).trans h₃
  | when test thn els =>
    simp only [Program.careful, ensures_bind]
    refine (h.resolveOptional test).mono ?_
    rintro e c₁ ⟨h₁, he⟩
    have hw := h₁.fitted.when (Forwards.carefulAll hcall thn) (Forwards.carefulAll hcall els) he
    simp only [ensures_bind] at hw
    exact hw.mono fun _ c₂ h₂ => h₂.mono fun _ c₃ h₃ => h₃.mono fun _ c₄ h₄ => h₄.mono
      fun _ c₅ h₅ => h₅.mono fun _ c₆ h₆ => h₆.mono fun _ c₇ h₇ => h₇.mono fun _ c₈ h₈ => h₁.trans h₈
  | ifThen test body =>
    simp only [Program.careful, ensures_bind]
    refine (h.resolveOptional test).mono ?_
    rintro e c₁ ⟨h₁, he⟩
    exact (Ensures.recordState (h₁.fitted.ifThen (Forwards.carefulAll hcall body) he) _).mono
      fun _ c₂ h₂ => h₁.trans h₂
  | orElse body => exact (Forwards.orElse (Forwards.carefulAll hcall body)).recordState _ c h
  | whileLoop test body =>
    simp only [Program.careful, ensures_bind]
    refine (h.resolveOptional test).mono ?_
    rintro e c₁ ⟨h₁, he⟩
    exact (Ensures.recordState (h₁.fitted.loop (Forwards.carefulAll hcall body)
      (fun _ => sound_of_toOption he) (fun _ => sound_of_toOption he) (by simp)) _).mono
      fun _ c₂ h₂ => h₁.trans h₂
  | loop body =>
    exact Ensures.recordState (h.loop (Forwards.carefulAll hcall body) (by simp) (by simp) (by simp)) _
  | count limit index body =>
    simp only [Program.careful, ensures_bind, ensures_getSymbols, ensures_demand]
    refine (h.resolveComplete limit).mono ?_
    rintro e c₁ ⟨h₁, he⟩ hw
    obtain ⟨t, ht, -⟩ := he.typeOf
    have hpos : 0 < t.width := by
      simpa [ht, TypeSlot.isUnknown, SignalType.isUnknown] using hw
    exact (Ensures.recordState (h₁.fitted.count
      (fun i => .bind (.bindVar index i) fun _ => Forwards.carefulAll hcall body) he ht hpos) _).mono
      fun _ c₂ h₂ => h₁.trans h₂
  | times v index body =>
    exact (Forwards.times (fun i => .bind (.bindVar index i) fun _ => Forwards.carefulAll hcall body)
      _).recordState _ c h
  | each name word index body =>
    exact Forwards.bind (.resolveSignal name) (fun _ => .bind .getSymbols fun _ => .recordState
      (.times (fun i => .bind (.bindVar word _) fun _ => .bind (.bindVar index i) fun _ =>
        Forwards.carefulAll hcall body) _) _) c h
  | define name depth returns overflow body =>
    simp only [Program.careful, perform, ensures_bind, ensures_demand]
    exact fun hr => h.defineFunction rfl fun t ht => by simpa [show returns = some t from ht] using hr
  | ret value =>
    simp only [Program.careful, ensures_bind]
    refine (h.resolveOptional value).mono ?_
    rintro e c₁ ⟨h₁, he⟩
    exact (Ensures.recordState (h₁.fitted.returnFrom fun _ => sound_of_toOption he) _).mono
      fun _ c₂ h₂ => h₁.trans h₂
  | call fn args result | callDepth fn depth args result =>
    exact Forwards.callNamed hcall _ _ _ _ _ c h
  | resize | stateBody | stateGoto | newState | buildMachine => simp [Program.careful]
  | step => exact Forwards.recordState .step _ c h
  | breakLoop => exact Forwards.recordState .breakLoop _ c h
  | nextRound => exact Forwards.recordState .nextRound _ c h
  | terminate => exact Forwards.recordState (.stepTo (by simp)) _ c h
  | label name => exact Forwards.label name c h
  | goto name => exact Forwards.recordState (.stepTo (by simp)) _ c h
  | bind name value => exact Forwards.bind (.resolve value) (fun _ => .bindVar _ _) c h
  | probe value =>
    exact Forwards.bind (.resolve value) (fun _ => .bind .getSymbols fun _ =>
      .bind (.require _) fun _ => .record _ _) c h

theorem Forwards.carefulAll {call : Caller} (hcall : ∀ fn depth args, Forwards n (call fn depth args))
    (body : List Command) : Forwards n (carefulAll call body) := by
  cases body with
  | nil => exact .pure _
  | cons x rest => exact .bind (Forwards.careful hcall x) fun _ => Forwards.carefulAll hcall rest

end

theorem Forwards.carefulWithin (k fn : Nat) (depth : Int) (args : List Expr) :
    Forwards n (carefulWithin k fn depth args) := by
  induction k generalizing fn depth args with
  | zero => exact fun c _ => by simp [Program.carefulWithin]
  | succ k ih =>
    intro c h
    simp only [Program.carefulWithin, ensures_ops, ensures_demand, Bool.and_eq_true,
      List.contains_iff_mem, List.all_eq_true, Bool.not_eq_true']
    rintro ⟨hfn, hargs⟩
    exact h.callFunction (fun body => Forwards.carefulAll ih body) hfn depth
      (fun a ha => h.sound_of_complete (hargs a ha).1) fun a ha => (hargs a ha).2

/-! ## The start -/

/-- The widths of a module are in order before a program is added to it. -/
theorem Fitted.start (hs : ∀ (i : SignalId) x, s.module.symbols.signals[i]? = some x →
      (s.module.symbols.type? x.type).isResolved = true ∧
        (x.declared = true → x.kind = .memory → 0 < x.depth))
    (hreset : (draft s opts).draft.machine.reset = .hole ∨
      (draft s opts).session.module.symbols.complete (draft s opts).draft.machine.reset = true) :
    Fitted s.module.symbols.types.size (draft s opts) := by
  obtain ⟨a, b, d, hsig, htypes, hcode, ⟨hak, hat⟩, ⟨hbk, hbt⟩, hdk, hdt⟩ := draft_symbols s opts
  obtain ⟨hcur, hnext, hrun, hsize⟩ := draft_signals s opts
  have hfirst : (draft s opts).session.module.symbols.types[s.module.symbols.types.size]? =
      some .bit := by
    rw [htypes, Array.getElem?_push, if_neg (by simp), Array.getElem?_push_size]
  have hsecond : (draft s opts).session.module.symbols.types[s.module.symbols.types.size + 1]? =
      some .bit := by
    rw [htypes, Array.getElem?_push, if_pos (by simp)]
  have hfits : ∀ (i : SignalId) x, (draft s opts).session.module.symbols.signals[i]? = some x →
      x.Fits (draft s opts).session.module.symbols fun _ => False := by
    intro i x hx
    rw [hsig, Array.getElem?_push, Array.getElem?_push, Array.getElem?_push] at hx
    split at hx
    · cases hx
      exact ⟨by simp [hdk], _, .bit, hdt, hsecond, by decide, .inl (by decide)⟩
    split at hx
    · cases hx
      exact ⟨by simp [hbk], _, .bit, hbt, hfirst, by decide, .inl (by decide)⟩
    split at hx
    · cases hx
      exact ⟨by simp [hak], _, .bit, hat, hfirst, by decide, .inl (by decide)⟩
    · obtain ⟨hres, hdepth⟩ := hs i x hx
      cases ht : s.module.symbols.type? x.type with
      | none => simp [ht, TypeSlot.isResolved] at hres
      | some t =>
        rw [ht, TypeSlot.isResolved_some] at hres
        obtain ⟨j, hj, ht⟩ := Option.bind_eq_some_iff.mp ht
        exact ⟨hdepth, j, t, hj, (draft_expands s opts).symbols.types j t ht, hres.2, .inl hres.1⟩
  have hthere : ∀ k < 3, (draft s opts).session.module.symbols.signals[s.module.symbols.signals.size +
      k]?.isSome = true := by
    intro k hk
    simpa [hsize] using hk
  refine ⟨fun i x hx => (hfits i x hx).mono fun _ => False.elim, ?_, ?_, ?_, ?_, ?_, ?_, ?_, ?_⟩
  · exact ⟨trivial, by simp [draft], by simp [draft, Machine.create], trivial, trivial,
      hreset.imp_right (Signal.sound_of_complete hfits), by simp [draft]⟩
  · rw [hcur, hcode]
    refine ⟨a, ?_, hat⟩
    rw [hsig, Array.getElem?_push, if_neg (by simp; omega), Array.getElem?_push,
      if_neg (by simp), Array.getElem?_push_size]
  · rw [hnext]
    exact hthere 1 (by decide)
  · rw [hrun]
    exact hthere 2 (by decide)
  · rw [hcode]
    exact ⟨le_refl _, by simp only [Symbols.type?, Option.bind_some, hfirst]; decide⟩
  · rintro r inst ⟨hfn, -⟩
    simp [draft] at hfn
  · intro fn hfn
    simp [draft] at hfn
  · intro r hr
    simp [draft] at hr

theorem Forwards.newState (name : String) : Forwards n (newState name) := fun c h => by
  simp only [Program.newState, ensures_ops]
  split
  · simp
  · next id f hnew =>
    obtain ⟨rfl, rfl⟩ := newState_ok hnew
    simp only [ensures_ops]
    refine h.redraft rfl rfl { h.coded with states := fun k st hk => ?_ } ⟨rfl, rfl, rfl⟩ rfl rfl
      h.building
    dsimp only [Context.reported] at hk
    rw [Array.getElem?_push] at hk
    split at hk
    · cases hk
      exact ⟨trivial, by simp⟩
    · exact h.coded.states k st hk

/-- The run flag is set from a literal of one bit. -/
theorem Fitted.setRun (h : Fitted n c) (run : SignalId) (v : UInt64) :
    Forward n c { c with session := { c.session with module := (setRun run v c.session.module).2 } } ∧
      (setRun run v c.session.module).1.Sound (setRun run v c.session.module).2.symbols := by
  have hbit : TypeSlot.isResolved (some (.unsigned 1)) = true := by decide
  exact ⟨h.expand (setRun_expands run v _) rfl,
    Stmt.sound_assign run (Expr.sound_lit (.value v) (isResolved_newType c.session.module hbit))⟩

theorem Fitted.runDefaults (h : Fitted n c) (run : SignalId) {start : Expr}
    (hstart : start = .hole ∨ start.Sound c.session.module.symbols) :
    Ensures (runDefaults run start) c fun sts c' => Forward n c c' ∧
      Stmt.BlockSound c'.session.module.symbols sts := by
  simp only [Program.runDefaults, ensures_ite, ensures_ops]
  refine ⟨fun _ => ?_, fun hne => ?_⟩
  · obtain ⟨h₁, hst⟩ := h.setRun run 1
    exact ⟨h₁, Stmt.blockSound_singleton.mpr hst⟩
  · obtain ⟨h₁, hclear⟩ := h.setRun run 0
    obtain ⟨h₂, hset⟩ := h₁.fitted.setRun run 1
    have htest := (hstart.resolve_left hne).refit (h₁.trans h₂).refits
    exact ⟨h₁.trans h₂, hclear.refit h₂.refits,
      Stmt.sound_when htest (Stmt.blockSound_singleton.mpr hset), trivial⟩

theorem Fitted.beginProgram (h : Fitted n c) {start : Expr}
    (hstart : start = .hole ∨ start.Sound c.session.module.symbols) :
    Ensures (beginProgram start) c fun _ => Forward n c := by
  simp only [Program.beginProgram, ensures_bind, ensures_getDraft]
  refine (Forwards.newState "" c h).mono fun last c₁ h₁ => ?_
  have hflag := (h.sound_ref h.flag).refit h₁.refits
  have hedge : Transition.Sound c₁.session.module.symbols
      (.branch (.ref c.draft.run) (.after last) (.state last)) :=
    .fork (fun e he => Option.some.inj he ▸ hflag) (by simp) (by simp)
  refine (h₁.fitted.addGoto last hedge).mono fun _ c₂ h₂ => ?_
  have hk₂ := h₁.trans h₂
  refine (h₂.fitted.runDefaults c.draft.run
    (hstart.imp_right fun hs => hs.refit hk₂.refits)).mono ?_
  rintro sts c₃ ⟨h₃, hsts⟩
  simp only [ensures_getModule, ensures_modifyModule, ensures_modifyMachine]
  obtain ⟨h₄, hclear⟩ := h₃.fitted.setRun c.draft.run 0
  have hcoded := h₄.fitted.coded
  refine ((hk₂.trans h₃).trans h₄).trans (h₄.fitted.redraft rfl rfl { hcoded with
    defaults := Stmt.blockSound_append.mpr ⟨hcoded.defaults, hsts.refit h₄.refits⟩
    onReset := Stmt.blockSound_append.mpr ⟨hcoded.onReset, Stmt.blockSound_singleton.mpr hclear⟩ }
    ⟨rfl, rfl, rfl⟩ rfl rfl h₄.fitted.building)

/-! ## The end -/

/-- Only types were settled. -/
structure Calm (n : Nat) (c c' : Context) : Prop extends Forward n c c' where
  draft : c'.draft = c.draft
  functions' : c'.session.functions = c.session.functions

theorem Calm.refl (h : Fitted n c) : Calm n c c := ⟨.refl h, rfl, rfl⟩

theorem Calm.trans {c'' : Context} (h : Calm n c c') (h' : Calm n c' c'') : Calm n c c'' :=
  ⟨h.toForward.trans h'.toForward, h'.draft.trans h.draft, h'.functions'.trans h.functions'⟩

/-- What is done for one element of a list stays done. -/
theorem Calm.forM (Done : α → Context → Prop) {xs : List α} {f : α → ElabM PUnit}
    (hdone : ∀ x c c', Calm n c c' → Done x c → Done x c') (h : Fitted n c)
    (hf : ∀ x ∈ xs, ∀ c₁, Calm n c c₁ → Ensures (f x) c₁ fun _ c₂ => Calm n c₁ c₂ ∧ Done x c₂) :
    Ensures (xs.forM f) c fun _ c' => Calm n c c' ∧ ∀ x ∈ xs, Done x c' := by
  induction xs generalizing c with
  | nil =>
    rw [List.forM, ensures_pure]
    exact ⟨.refl h, by simp⟩
  | cons x xs ih =>
    rw [List.forM, ensures_bind]
    refine (hf x List.mem_cons_self c (.refl h)).mono ?_
    rintro _ c₁ ⟨h₁, hx⟩
    refine (ih h₁.fitted fun y hy c₂ h₂ => hf y (List.mem_cons_of_mem _ hy) c₂ (h₁.trans h₂)).mono ?_
    rintro _ c₂ ⟨h₂, hxs⟩
    refine ⟨h₁.trans h₂, fun y hy => ?_⟩
    rcases List.mem_cons.mp hy with rfl | hy
    · exact hdone y c₁ c₂ h₂ hx
    · exact hxs y hy

theorem isResolved_signalType_refit {g g' : Symbols} (h : g.Refits n g')
    (hi : (g.signalType i).isResolved = true) : (g'.signalType i).isResolved = true := by
  cases hx : g.signals[i]? with
  | none => simp [Symbols.signalType, hx, TypeSlot.isResolved] at hi
  | some x =>
    obtain ⟨x', hx', hxt, -⟩ := h.signals i x hx
    rw [Symbols.signalType, hx, Option.bind_some] at hi
    rw [Symbols.signalType, hx', Option.bind_some, hxt]
    cases ht : x.type with
    | none => simp [ht, Symbols.type?, TypeSlot.isResolved] at hi
    | some t => exact isResolved_refit h (ht ▸ hi)

/-- A return register has a width in the end. -/
theorem Fitted.settleReturn (h : Fitted n c) {inst : Instance}
    (hi : inst.Held n c.session.module.symbols) (f : Function) :
    Ensures (settleReturn f inst) c fun _ c' => Calm n c c' ∧
      (c'.session.module.symbols.signalType inst.ret).isResolved = true := by
  obtain ⟨x, t, hx, hxt, hle⟩ := hi.ret
  obtain ⟨-, j, u, hj, hu, hw, -⟩ := h.signals _ x hx
  obtain rfl : t = j := Option.some.inj (hxt.symm.trans hj)
  have htype : c.session.module.symbols.signalType inst.ret = some u := by
    rw [Symbols.signalType, hx, Option.bind_some, hxt, Symbols.type?, Option.bind_some, hu]
  simp only [Program.settleReturn, ensures_ops, ensures_ite, hx, Option.bind_some, hxt, Option.forM]
  refine ⟨fun _ => ?_, fun hknown => ⟨.refl h, ?_⟩⟩
  · have h₁ : Forward n c { c with session := { c.session with
        module := c.session.module.modifySymbols (·.setWidth t 1) } } :=
      h.retype rfl (.setWidth hle (by decide)) rfl rfl rfl
    refine ⟨⟨h₁.trans (h₁.fitted.redraft rfl rfl h₁.fitted.coded ⟨rfl, rfl, rfl⟩ rfl rfl
      h₁.fitted.building), rfl, rfl⟩, ?_⟩
    simp only [Context.reported, Module.modifySymbols, Symbols.signalType, Symbols.setWidth, hx,
      Option.bind_some, hxt, Symbols.type?, Array.getElem?_modify, if_true, hu, Option.map_some]
    exact TypeSlot.isResolved_some.mpr ⟨Int.one_pos, (by decide : (1 : Int) ≤ maxWidth)⟩
  · rw [htype] at hknown ⊢
    exact isResolved_of_pos hw (by simpa [TypeSlot.isUnknown, SignalType.isUnknown] using hknown)

/-- All return registers of the program have a width in the end. -/
theorem Fitted.settleReturns (h : Fitted n c) : Ensures settleReturns c fun _ c' => Calm n c c' ∧
      ∀ r inst, c'.Owns r inst → (c'.session.module.symbols.signalType inst.ret).isResolved = true := by
  rw [Program.settleReturns, ensures_bind, ensures_getDraft]
  refine (Calm.forM (fun fn c' => ∀ r inst, r.function = fn →
    instance? c'.session.functions r = some inst →
    (c'.session.module.symbols.signalType inst.ret).isResolved = true) ?_ h ?_).mono ?_
  rotate_right
  · rintro _ c' ⟨hc, hdone⟩
    exact ⟨hc, fun r inst hi => hdone r.function (hc.draft ▸ hi.1) r inst rfl hi.2⟩
  · intro fn c₁ c₂ h₁ hd r inst hr hi
    rw [h₁.functions'] at hi
    exact isResolved_signalType_refit h₁.refits (hd r inst hr hi)
  · intro fn hfn c₁ h₁
    obtain ⟨f, hf, -⟩ := h.functions fn hfn
    rw [ensures_bind, ensures_getFunction, h₁.functions', hf, Option.getD_some]
    refine (Calm.forM (fun (inst : Instance) c' =>
      (c'.session.module.symbols.signalType inst.ret).isResolved = true)
      (fun _ _ _ h₂ hd => isResolved_signalType_refit h₂.refits hd) h₁.fitted ?_).mono ?_
    rotate_right
    · rintro _ c₂ ⟨h₂, hd⟩
      refine ⟨h₂, fun r inst hr hi => hd inst ?_⟩
      rw [h₂.functions', h₁.functions', instance?, hr, hf, Option.bind_some] at hi
      exact List.mem_of_getElem? (Array.getElem?_toList ▸ hi)
    · intro inst hmem c₂ h₂
      obtain ⟨pos, hpos⟩ := List.getElem?_of_mem hmem
      rw [Array.getElem?_toList] at hpos
      have hown : c.Owns ⟨fn, pos⟩ inst := ⟨hfn, by rw [instance?, hf, Option.bind_some]; exact hpos⟩
      exact h₂.fitted.settleReturn ((h.held _ inst hown).refit (h₁.trans h₂).refits) f

/-! ## The machine -/

section Machine

variable {g : Symbols} {f : Machine}

section

variable (hcode : (g.type? (some f.type)).isResolved = true)
include hcode

theorem sound_assignNext (id : Int) :
    (f.assignNext id).Sound g := Stmt.sound_assign _ (Expr.sound_lit _ hcode)

theorem sound_assignTarget {t : Option (Target Expr)}
    (ht : ∀ e, t = some (.computed e) → e.Sound g) {st : Statement}
    (h : f.assignTarget t = .ok st) : st.Sound g := by
  unfold Machine.assignTarget at h
  split at h
  · next e =>
    cases h
    exact Stmt.sound_assign _ (ht e rfl)
  · cases h
    exact sound_assignNext hcode _
  · cases h
    exact sound_assignNext hcode _
  · split at h
    · cases h
      exact sound_assignNext hcode _
    · simp at h
  · simp at h

theorem sound_lower {t : Transition Expr}
    (ht : t.Sound g) {st : Statement} (h : f.lower t = .ok st) : st.Sound g := by
  unfold Machine.lower at h
  cases htarget : f.assignTarget t.target with
  | error e => simp [htarget, bind, Except.bind] at h
  | ok target =>
    have hsound := sound_assignTarget hcode (fun e he => ht.code e (.inl he)) htarget
    simp only [htarget, bind, Except.bind] at h
    split at h
    · cases h
      exact hsound
    · next guard hg =>
      split at h
      · cases h
        exact Stmt.sound_when (ht.guard guard hg) (Stmt.blockSound_singleton.mpr hsound)
      · next other ho =>
        cases hother : f.assignTarget (some other) with
        | error e => simp [hother] at h
        | ok st' =>
          simp only [hother] at h
          cases h
          have hsound' := sound_assignTarget hcode (fun e he => ht.code e (.inr (ho.trans he))) hother
          exact ⟨.inr (ht.guard guard hg), Stmt.blockSound_singleton.mpr hsound,
            Stmt.blockSound_singleton.mpr hsound'⟩

theorem sound_lowerFrom {k j : Nat}
    {gotos : List (Transition Expr)} (ht : ∀ t ∈ gotos, t.Sound g) {sts : List Statement}
    (h : f.lowerFrom k j gotos = .ok sts) : Stmt.BlockSound g sts := by
  induction gotos generalizing j sts with
  | nil =>
    cases h
    exact trivial
  | cons t rest ih =>
    rw [Machine.lowerFrom] at h
    split at h
    · next st hst =>
      cases hrest : f.lowerFrom k (j + 1) rest with
      | error e => simp [hrest, Except.map] at h
      | ok sts' =>
        rw [hrest] at h
        cases h
        exact ⟨sound_lower hcode (ht t List.mem_cons_self) hst,
          ih (fun t' ht' => ht t' (List.mem_cons_of_mem _ ht')) hrest⟩
    · simp at h
    · simp at h

/-- Every arm of the choice is sound, and its value is the code of a state. -/
theorem sound_choiceArms {k : Nat}
    {states : List Machine.State} (hs : ∀ st ∈ states, ∀ t ∈ st.gotos, t.Sound g)
    {arms : List (UInt64 × List Statement)} (h : f.choiceArms k states = .ok arms) :
    ∀ arm ∈ arms, (∃ i : Nat, i < k + states.length ∧ arm.1 = f.code i) ∧ Stmt.BlockSound g arm.2 := by
  induction states generalizing k arms with
  | nil =>
    cases h
    simp
  | cons st rest ih =>
    rw [Machine.choiceArms] at h
    cases hbody : f.stateChoice k st with
    | error e => simp [hbody, bind, Except.bind] at h
    | ok body =>
      cases hrest : f.choiceArms (k + 1) rest with
      | error e => simp [hbody, hrest, bind, Except.bind] at h
      | ok arms' =>
        simp only [hbody, hrest, bind, Except.bind] at h
        cases h
        intro arm harm
        rcases List.mem_cons.mp harm with rfl | harm
        · refine ⟨⟨k, by simp, rfl⟩, ?_⟩
          unfold Machine.stateChoice at hbody
          cases hl : f.lowerFrom k 0 st.gotos with
          | error e => simp [hl, Except.map] at hbody
          | ok sts =>
            rw [hl] at hbody
            cases hbody
            exact ⟨sound_assignNext hcode _, sound_lowerFrom hcode (hs st List.mem_cons_self) hl⟩
        · obtain ⟨⟨i, hi, hcode'⟩, hsound⟩ :=
            ih (fun st' hst' => hs st' (List.mem_cons_of_mem _ hst')) hrest arm harm
          exact ⟨⟨i, by simp only [List.length_cons]; omega, hcode'⟩, hsound⟩

end

variable {d : Draft} (hc : Coded g d) (hcount : d.machine.Countable)
variable (hcode : g.type? (some d.machine.type) = some (.unsigned d.machine.registerWidth))
variable (hcurrent : ∃ x, g.signals[d.machine.current]? = some x ∧ x.type = some d.machine.type)
variable (hnext : (Expr.ref d.machine.next).Sound g)
include hcount hcode

theorem isResolved_code : (g.type? (some d.machine.type)).isResolved = true := by
  rw [hcode, TypeSlot.isResolved_some]
  have hle := Machine.registerWidth_le hcount
  have hpos := d.machine.registerWidth_pos
  simp only [SignalType.unsigned, maxWidth]
  omega

include hcurrent in
/-- A choice by the state register passes if its values are codes of states. -/
theorem passes_dispatch {arms : List (UInt64 × List Statement)} {o : List Statement} {name : String}
    (harms : ∀ arm ∈ arms, (∃ i : Nat, i < d.machine.size ∧ arm.1 = d.machine.code i) ∧
      Stmt.BlockSound g arm.2) (ho : Stmt.BlockSound g o) :
    WidthCheck.Passes g name [.case (.ref d.machine.current) arms o] := by
  obtain ⟨x, hx, hxt⟩ := hcurrent
  have htype : g.typeOf (.ref d.machine.current) = some (.unsigned d.machine.registerWidth) := by
    rw [Symbols.typeOf, Symbols.signalType, hx, Option.bind_some, hxt, hcode]
  have hsound : (Expr.ref d.machine.current).Sound g :=
    ⟨_, htype, (TypeSlot.isResolved_some.mp (hcode ▸ isResolved_code hcount hcode)).2⟩
  refine WidthCheck.passes_case hsound htype (fun arm harm => ?_) (ho.passes name)
  obtain ⟨⟨i, hi, hv⟩, hbody⟩ := harms arm harm
  exact ⟨hv ▸ Machine.code_lt hcount hi, hbody.passes name⟩

include hc hcurrent hnext in
/-- The processes of a machine pass once its register has the width of the codes. -/
theorem passes_processes {next : List Statement} (hn : d.machine.nextBody = .ok next) (name : String) :
    ∀ p ∈ d.machine.processes next, WidthCheck.Passes g name p.body := by
  have hres := isResolved_code hcount hcode
  have hstates : ∀ st ∈ d.machine.states.toList,
      Stmt.BlockSound g st.body ∧ ∀ t ∈ st.gotos, t.Sound g := by
    intro st hst
    obtain ⟨k, hk⟩ := List.getElem?_of_mem hst
    exact hc.states k st (Array.getElem?_toList ▸ hk)
  have hupdate : WidthCheck.Passes g name d.machine.updateBody := by
    unfold Machine.updateBody
    have hmove : Stmt.BlockSound g [.assign d.machine.current none (.ref d.machine.next)] :=
      Stmt.blockSound_singleton.mpr (Stmt.sound_assign _ hnext)
    split
    · exact hmove.passes name
    · exact WidthCheck.passes_cond hc.reset ((Stmt.blockSound_singleton.mpr
        (Stmt.sound_assign _ (Expr.sound_lit _ hres))).passes name) (hmove.passes name)
  have hbody : WidthCheck.Passes g name d.machine.dispatchBody := by
    have hrun : WidthCheck.Passes g name
        (d.machine.defaults ++ [.case (.ref d.machine.current) d.machine.bodyArms []]) := by
      refine WidthCheck.passes_append (hc.defaults.passes name)
        (passes_dispatch hcount hcode hcurrent (fun arm harm => ?_) trivial)
      obtain ⟨⟨st, i⟩, hst, rfl⟩ := List.mem_map.mp harm
      have hi := List.snd_lt_of_mem_zipIdx hst
      exact ⟨⟨i, by simpa [Machine.size] using hi, rfl⟩,
        (hstates st (List.fst_mem_of_mem_zipIdx hst)).1⟩
    unfold Machine.dispatchBody
    split
    · exact hrun
    · exact WidthCheck.passes_cond hc.reset (hc.onReset.passes name) hrun
  have hchoice : WidthCheck.Passes g name next := by
    obtain ⟨arms, harms, rfl⟩ := Machine.nextBody_eq hn
    refine passes_dispatch hcount hcode hcurrent (fun arm harm => ?_)
      (Stmt.blockSound_singleton.mpr (sound_assignNext hres _))
    obtain ⟨⟨i, hi, hv⟩, hsound⟩ :=
      sound_choiceArms hres (fun st hst => (hstates st hst).2) harms arm harm
    exact ⟨⟨i, by simpa [Machine.size] using hi, hv⟩, hsound⟩
  intro p hp
  simp only [Machine.processes, List.mem_cons, List.not_mem_nil, or_false] at hp
  rcases hp with rfl | rfl | rfl
  · exact hupdate
  · exact hbody
  · exact hchoice

end Machine

/-! ## Whole programs -/

/-- Return addresses were given their values: signals and types are as they were. -/
abbrev Addressed (c c' : Context) : Prop := Relinked c.draft.machine c.draft.resumes c c'

theorem Addressed.refits (h : Addressed c c') :
    c.session.module.symbols.Refits n c'.session.module.symbols :=
  ⟨fun _ x hx => ⟨x, h.signals ▸ hx, rfl, rfl, rfl, id⟩,
    fun _ t ht => ⟨t, h.types ▸ ht, fun _ => rfl, id, id⟩⟩

/-- The machine is built in the module as elaboration left it, but for the return addresses. -/
theorem Ensures.finishProgram : Ensures finishProgram c fun _ c' => ∃ c₁, Addressed c c₁ ∧
    c.draft.machine.build c₁.session.module = (none, c'.draft.machine, c'.session.module) ∧
      c'.draft.run = c.draft.run ∧ c'.session.functions = c.session.functions := by
  simp only [Program.finishProgram, ensures_ops]
  refine (Relinked.of_setLinks c.draft.machine c.draft.resumes c).mono fun _ c₁ h₁ => ?_
  · simp only [buildDraft, ensures_ops]
    split
    · simp
    · next hb =>
      simp only [ensures_ops]
      have hnone := Option.eq_none_iff_forall_ne_some.mpr fun e he => hb e he
      rw [h₁.draft] at hnone ⊢
      exact ⟨c₁, h₁, Prod.ext hnone rfl, rfl, h₁.functions⟩

theorem Addressed.of_build {s' : Session} {body : List Command} {q : Sequencer}
    (hc : (prepare opts body).run (Program.draft s opts) = .ok () c)
    (hbuild : build s opts body = (.ok q, s')) : ∃ c₁, Addressed c c₁ ∧
      c.draft.machine.build c₁.session.module = (none, q.machine, s'.module) ∧
        q.run = c.draft.run ∧ s'.functions = c.session.functions := by
  have hall : Ensures (elaborate opts body) (Program.draft s opts) fun q c' => ∃ c₁, Addressed c c₁ ∧
      c.draft.machine.build c₁.session.module = (none, q.machine, c'.session.module) ∧
        q.run = c.draft.run ∧ c'.session.functions = c.session.functions := by
    simp only [Program.elaborate, ensures_ops]
    intro _ c₀ h₀
    obtain ⟨-, rfl⟩ := EStateM.Result.ok.inj (hc.symm.trans h₀)
    exact Ensures.finishProgram
  unfold build at hbuild
  split at hbuild
  · next q' c' he =>
    obtain ⟨hq, rfl⟩ := Prod.mk.inj hbuild
    obtain rfl := Except.ok.inj hq
    exact hall q' c' he
  · simp at hbuild

/-- What careful elaboration comes to: all widths are in order, also those of return registers. -/
theorem Ensures.carefulPrepare (hs : ∀ (i : SignalId) x, s.module.symbols.signals[i]? = some x →
      (s.module.symbols.type? x.type).isResolved = true ∧
        (x.declared = true → x.kind = .memory → 0 < x.depth)) (body : List Command) :
    Ensures (carefulPrepare opts body) (draft s opts) fun _ c =>
      Forward s.module.symbols.types.size (draft s opts) c ∧
        ∀ r inst, c.Owns r inst → (c.session.module.symbols.signalType inst.ret).isResolved = true := by
  simp only [Program.carefulPrepare, ensures_ops, ensures_demand, List.all_cons, List.all_nil,
    Bool.and_true, Bool.and_eq_true, Bool.or_eq_true, decide_eq_true_eq]
  rintro ⟨hstart, hreset⟩
  have h := Fitted.start hs hreset
  refine (h.beginProgram (hstart.imp_right h.sound_of_complete)).mono fun _ c₁ h₁ => ?_
  refine (Forwards.carefulAll (Forwards.carefulWithin opts.budget) body c₁ h₁.fitted).mono
    fun _ c₂ h₂ => ?_
  refine (Forwards.stepIfWaiting c₂ h₂.fitted).mono fun _ c₃ h₃ => ?_
  refine h₃.fitted.settleReturns.mono ?_
  rintro _ c₄ ⟨h₄, hret⟩
  exact ⟨((h₁.trans h₂).trans h₃).trans h₄.toForward, hret⟩

/-- Once return registers have a width, every signal has. -/
theorem Fitted.isResolved (h : Fitted n c) (hret : ∀ r inst, c.Owns r inst →
      (c.session.module.symbols.signalType inst.ret).isResolved = true) {x : Signal}
    (hx : c.session.module.symbols.signals[i]? = some x) :
    (c.session.module.symbols.type? x.type).isResolved = true := by
  obtain ⟨-, j, t, hj, ht, hw, hp⟩ := h.signals i x hx
  rw [hj]
  rcases hp with hpos | ⟨r, inst, y, hi, hy, hyt⟩
  · simp only [Symbols.type?, Option.bind_some, ht]
    exact isResolved_of_pos hw hpos
  · have hres := hret r inst hi
    rw [Symbols.signalType, hy, Option.bind_some, hyt] at hres
    exact hres

/-- A module that programs may be added to: it passes the width check, signals outside of it have a
width too, and its processes mention only what there is. -/
structure Session.Tidy (s : Session) : Prop where
  passes : (WidthCheck.run (some [some s.module]) none).1 = none
  loose : ∀ x ∈ s.module.symbols.signals.toList, x.declared = false →
    (s.module.symbols.type? x.type).isResolved = true
  processes : ∀ p ∈ s.module.processes.toList, ∀ st ∈ Stmt.nestedBlock p.body, ∀ e ∈ st.operands,
    s.module.symbols.covers e = true

instance (s : Session) : Decidable s.Tidy :=
  decidable_of_iff (_ ∧ _ ∧ _) ⟨fun h => ⟨WidthCheck.run_eq_none_iff.mpr h.1, h.2.1, h.2.2⟩,
    fun h => ⟨WidthCheck.run_eq_none_iff.mp h.passes, h.loose, h.processes⟩⟩

theorem Session.Tidy.signals (h : s.Tidy) {x : Signal}
    (hx : s.module.symbols.signals[i]? = some x) :
    (s.module.symbols.type? x.type).isResolved = true ∧
      (x.declared = true → x.kind = .memory → 0 < x.depth) := by
  have hmem : x ∈ s.module.symbols.signals.toList := List.mem_of_getElem? (Array.getElem?_toList ▸ hx)
  have hdeclared := (WidthCheck.run_eq_none_iff.mp h.passes).1 x hmem
  cases hd : x.declared with
  | true => exact ⟨(hdeclared hd).1, fun _ => (hdeclared hd).2⟩
  | false => exact ⟨h.loose x hmem hd, by simp⟩

/-- Whether careful elaboration of the program gets to its end. -/
def isCareful (s : Session) (opts : Options) (body : List Command) : Bool :=
  match (carefulPrepare opts body).run (draft s opts) with
  | .ok .. => true
  | .error .. => false

/-- A program that was elaborated with care and built leaves a module that passes the width check: all
its signals have widths that they may have, its memories have words, what it indexes are memories, and
the codes of its states fit the state register. -/
theorem Session.Tidy.build_passes {s s' : Session} (hs : s.Tidy) {opts : Options}
    {body : List Command} {q : Sequencer} (hcare : isCareful s opts body = true)
    (hbuild : build s opts body = (.ok q, s')) (hsize : q.machine.size < 2 ^ 63)
    (reporter : Option Reporter) : (WidthCheck.run (some [some s'.module]) reporter).1 = none := by
  obtain ⟨c, hc⟩ : ∃ c, (carefulPrepare opts body).run (draft s opts) = .ok () c := by
    unfold isCareful at hcare
    split at hcare
    · next c hc => exact ⟨c, hc⟩
    · simp at hcare
  obtain ⟨hforward, hret⟩ := Ensures.carefulPrepare (fun _ _ hx => hs.signals hx) body _ _ hc
  have hfitted := hforward.fitted
  -- elaboration does the same, and the machine is built in what it left
  obtain ⟨c₁, haddr, hmachine, -⟩ :=
    Addressed.of_build (Follows.carefulPrepare opts body _ _ _ hc) hbuild
  obtain ⟨hobstacle, hq, next, hnext, hsym, hproc⟩ := Machine.build_ok hmachine
  have hcount : c.draft.machine.Countable :=
    ⟨by simpa [hq, Machine.size] using hsize, (Machine.obstacle_none hobstacle).2⟩
  have hregister : s'.module.symbols.type? (some c.draft.machine.type) =
      some (.unsigned c.draft.machine.registerWidth) := by
    have hres := hfitted.code.2
    cases ht : c.session.module.symbols.types[c.draft.machine.type]? with
    | none => simp [Symbols.type?, ht, TypeSlot.isResolved] at hres
    | some t =>
      rw [hsym, Symbols.type?, Option.bind_some]
      exact Machine.setType_type (haddr.types ▸ ht)
  have hrefits : c.session.module.symbols.Refits s.module.symbols.types.size s'.module.symbols := by
    rw [hsym]
    refine haddr.refits.trans (.setType hfitted.code.1 ?_)
    rw [← hregister]
    exact isResolved_code hcount hregister
  have hsignals : s'.module.symbols.signals = c.session.module.symbols.signals := by
    rw [hsym]
    exact haddr.signals
  refine WidthCheck.run_eq_none_iff.mpr ⟨fun x hx hdecl => ?_, fun p hp => ?_⟩
  · obtain ⟨i, hx⟩ := List.getElem?_of_mem hx
    rw [hsignals, Array.getElem?_toList] at hx
    have hres := hfitted.isResolved hret hx
    obtain ⟨hdepth, j, t, hj, -⟩ := hfitted.signals i x hx
    rw [hj] at hres ⊢
    exact ⟨isResolved_refit hrefits hres, hdepth hdecl⟩
  · rw [hproc, haddr.processes, hforward.processes, (draft_expands s opts).processes] at hp
    rcases List.mem_append.mp hp with hp | hp
    · have hgrown := (Symbols.Refits.of_grows (draft_expands s opts).symbols).trans
        (hforward.refits.trans hrefits)
      refine ((WidthCheck.run_eq_none_iff.mp hs.passes).2 p hp).refit hgrown fun e arms o he => ?_
      refine hgrown.typeOf_eq (le_refl _) (fun i x hx t ht => ?_)
        (hs.processes p hp _ he e List.mem_cons_self)
      have hres := (hs.signals hx).1
      by_contra hge
      rw [ht, Symbols.type?, Option.bind_some, Array.getElem?_eq_none (Nat.not_lt.mp hge)] at hres
      simp [TypeSlot.isResolved] at hres
    · obtain ⟨x, hx, hxt⟩ := hfitted.register
      exact passes_processes (hfitted.coded.refit hrefits) hcount hregister ⟨x, hsignals ▸ hx, hxt⟩
        ((hfitted.sound_ref hfitted.wire).refit hrefits) hnext _ p hp

/-- The module of the sum, with its program in it. -/
def sumSession : Session := (build { module := sumTop } (sumOptions .binary) sumBody).2

/-- Clears the sum three times. -/
def clearBody : List Command := [.times 3 none [.assign "acc" (.number 0 8)]]

/-- A second program, next to the processes of the first. -/
theorem clear_build_passes : ∃ q s', sumSession.Tidy ∧ sumSession.module.processes.size = 3 ∧
    isCareful sumSession (sumOptions .oneHot) clearBody = true ∧
    build sumSession (sumOptions .oneHot) clearBody = (.ok q, s') ∧ q.machine.size = 3 ∧
    (WidthCheck.run (some [some s'.module]) none).1 = none := by
  have htidy : sumSession.Tidy := by decide +kernel
  have hcare : isCareful sumSession (sumOptions .oneHot) clearBody = true := by decide +kernel
  have hrun : runsInto sumSession (sumOptions .oneHot) clearBody []
      (fun q _ _ => q.machine.size == 3) = true := by decide +kernel
  obtain ⟨q, s', -, hacc, -, -, hc⟩ := exists_of_runsInto hrun
  exact ⟨q, s', htidy, by decide +kernel, hcare, hacc.built, by simpa using hc,
    htidy.build_passes hcare hacc.built hacc.size none⟩

end Lockstep.Program
