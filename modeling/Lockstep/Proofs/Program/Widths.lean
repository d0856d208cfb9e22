import Lockstep.Proofs.Program.Careful
import Lockstep.Proofs.Program.Outcome

/-!
# The widths of a program under elaboration

What careful elaboration keeps. Every signal has a type that is at most a word wide, and every type
but those of return registers has a width; every statement in the draft is sound. Types are still set
in place: a stack pointer when its function turns out to be recursive, a return register when a value
is returned, the state register when the machine is built. None of them is a type that was there
before the program, and each gets a width that a signal may have.
-/

namespace Lockstep

/-! ## Sound statements -/

namespace Stmt

mutual

/-- The operands of the statement are sound, and what it assigns at an index is a memory. -/
def Sound (g : Symbols) : Statement → Prop
  | .blank => True
  | .assign dest index value =>
    (∀ e, index = some e → e.Sound g ∧ g.isMemory dest = true) ∧ value.Sound g
  | .cond test thn els => (test = .hole ∨ test.Sound g) ∧ BlockSound g thn ∧ BlockSound g els
  | .case .. => False

def BlockSound (g : Symbols) : List Statement → Prop
  | [] => True
  | st :: rest => Sound g st ∧ BlockSound g rest

end

variable {n : Nat} {g g' : Symbols}

theorem blockSound_iff {body : List Statement} : BlockSound g body ↔ ∀ st ∈ body, Sound g st := by
  induction body with
  | nil => simp [BlockSound]
  | cons st rest ih => simp [BlockSound, ih]

theorem blockSound_append {a b : List Statement} :
    BlockSound g (a ++ b) ↔ BlockSound g a ∧ BlockSound g b := by
  simp only [blockSound_iff, List.mem_append]
  exact ⟨fun h => ⟨fun st hst => h st (.inl hst), fun st hst => h st (.inr hst)⟩,
    fun h st hst => hst.elim (h.1 st) (h.2 st)⟩

theorem blockSound_singleton {st : Statement} : BlockSound g [st] ↔ Sound g st := by
  simp [BlockSound]

theorem sound_assign (dest : SignalId) {value : Expr} (hv : value.Sound g) :
    Sound g (.assign dest none value) := ⟨by simp, hv⟩

theorem sound_when {test : Expr} {thn : List Statement} (ht : test.Sound g) (hb : BlockSound g thn) :
    Sound g (.cond test thn []) := ⟨.inr ht, hb, trivial⟩

mutual

theorem Sound.refit {st : Statement} (h : g.Refits n g') (hst : Sound g st) : Sound g' st := by
  cases st with
  | blank => exact trivial
  | assign dest index value =>
    exact ⟨fun e he => ⟨(hst.1 e he).1.refit h, h.isMemory (hst.1 e he).2⟩, hst.2.refit h⟩
  | cond test thn els =>
    exact ⟨hst.1.imp_right fun ht => ht.refit h, BlockSound.refit h hst.2.1, BlockSound.refit h hst.2.2⟩
  | case e arms o => exact hst

theorem BlockSound.refit {body : List Statement} (h : g.Refits n g') (hb : BlockSound g body) :
    BlockSound g' body := by
  cases body with
  | nil => exact trivial
  | cons st rest => exact ⟨Sound.refit h hb.1, BlockSound.refit h hb.2⟩

end

mutual

theorem Sound.passes {st : Statement} (hst : Sound g st) (name : String) :
    WidthCheck.Passes g name [st] := by
  cases st with
  | blank => exact ⟨rfl, by simp [WidthCheck.checkBlock, WidthCheck.checkStmt]⟩
  | assign dest index value => exact WidthCheck.passes_assign hst.1 hst.2
  | cond test thn els =>
    exact WidthCheck.passes_cond hst.1 (BlockSound.passes hst.2.1 name) (BlockSound.passes hst.2.2 name)
  | case e arms o => exact absurd hst not_false

theorem BlockSound.passes {body : List Statement} (hb : BlockSound g body) (name : String) :
    WidthCheck.Passes g name body := by
  cases body with
  | nil => exact WidthCheck.passes_nil
  | cons st rest =>
    exact WidthCheck.passes_cons.mpr ⟨Sound.passes hb.1 name, BlockSound.passes hb.2 name⟩

end

end Stmt

/-- The guard of the transition and the codes it computes are sound. -/
structure Transition.Sound (g : Symbols) (t : Transition Expr) : Prop where
  guard : ∀ e, t.guard = some e → e.Sound g
  code : ∀ e, t.target = some (.computed e) ∨ t.otherwise = some (.computed e) → e.Sound g

namespace Transition.Sound

variable {n : Nat} {g g' : Symbols} {t : Transition Expr}
variable {a : Target Expr}

theorem refit (ht : t.Sound g) (h : g.Refits n g') : t.Sound g' :=
  ⟨fun e he => (ht.guard e he).refit h, fun e he => (ht.code e he).refit h⟩

theorem jump (ha : ∀ e, a = .computed e → e.Sound g) : (Transition.jump a).Sound g := by
  refine ⟨by simp [Transition.jump], ?_⟩
  rintro e (he | he)
  · exact ha e (Option.some.inj he)
  · simp [Transition.jump] at he

theorem plainJump (ha : ∀ e, a ≠ .computed e) : (Transition.jump a).Sound g :=
  jump fun e he => absurd he (ha e)

/-- A transition whose targets are states needs only a sound guard. -/
theorem fork {guard : Option Expr} {b : Target Expr} (hg : ∀ e, guard = some e → e.Sound g)
    (ha : ∀ e, a ≠ .computed e) (hb : ∀ e, b ≠ .computed e) :
    (⟨guard, some a, some b⟩ : Transition Expr).Sound g := by
  refine ⟨hg, ?_⟩
  rintro e (he | he)
  · exact absurd (Option.some.inj he) (ha e)
  · exact absurd (Option.some.inj he) (hb e)

end Transition.Sound

/-- A signal has a type, which has a width unless it is pending; a memory of the module has words. -/
structure Signal.Fits (g : Symbols) (pending : TypeId → Prop) (x : Signal) : Prop where
  depth : x.declared = true → x.kind = .memory → 0 < x.depth
  type : ∃ i t, x.type = some i ∧ g.types[i]? = some t ∧ t.width ≤ maxWidth ∧
    (0 < t.width ∨ pending i)

section

variable {g : Symbols} {pending : TypeId → Prop}

theorem Signal.Fits.mono {pending' : TypeId → Prop} {x : Signal} (h : x.Fits g pending)
    (hp : ∀ t, pending t → pending' t) : x.Fits g pending' := by
  obtain ⟨hd, i, t, hi, ht, hw, ho⟩ := h
  exact ⟨hd, i, t, hi, ht, hw, ho.imp_right (hp i)⟩

theorem Signal.sound_ref (h : ∀ (i : SignalId) x, g.signals[i]? = some x → x.Fits g pending)
    {i : SignalId} (hi : g.signals[i]?.isSome = true) : (Expr.ref i).Sound g := by
  obtain ⟨x, hx⟩ := Option.isSome_iff_exists.mp hi
  obtain ⟨j, t, hj, ht, hw, -⟩ := (h i x hx).type
  refine ⟨t, ?_, hw⟩
  simp [Symbols.signalType, hx, Symbols.type?, hj, ht]

theorem Expr.sound_lit (v : Literal) {i : TypeId} (hi : (g.type? (some i)).isResolved = true) :
    (Expr.lit v (some i)).Sound g := by
  cases ht : g.type? (some i) with
  | none => simp [ht, TypeSlot.isResolved] at hi
  | some t =>
    rw [ht, TypeSlot.isResolved_some] at hi
    exact ⟨t, ht, hi.2⟩

/-- A complete expression is sound in a table whose signals fit. -/
theorem Signal.sound_of_complete (h : ∀ (i : SignalId) x, g.signals[i]? = some x → x.Fits g pending)
    {e : Expr} (he : g.complete e = true) : e.Sound g := by
  induction e with
  | hole => simp [Symbols.complete] at he
  | ref i => exact sound_ref h he
  | lit v o =>
    cases o with
    | none => simp [Symbols.complete, Symbols.type?, TypeSlot.isResolved] at he
    | some i => exact Expr.sound_lit v he
  | bin op l r ihl ihr | cmp p l r ihl ihr =>
    simp only [Symbols.complete, Bool.and_eq_true] at he
    exact ⟨ihl he.1, ihr he.2⟩
  | not e ih => exact ih he
  | index i e ih =>
    simp only [Symbols.complete, Bool.and_eq_true] at he
    refine ⟨he.1, sound_ref h ?_, ih he.2⟩
    cases hx : g.signals[i]? with
    | none => simp [Symbols.isMemory, Symbols.signalKind, hx] at he
    | some x => rfl

end

namespace Program

variable {n : Nat} {g g' : Symbols}

/-! ## The code of a draft -/

/-- Every statement and every transition that the draft holds is sound. -/
structure Coded (g : Symbols) (d : Draft) : Prop where
  outer : Stmt.BlockSound g d.blocks.outer
  inner : ∀ b ∈ d.blocks.inner, Stmt.BlockSound g b
  states : ∀ (k : Nat) st, d.machine.states[k]? = some st →
    Stmt.BlockSound g st.body ∧ ∀ t ∈ st.gotos, t.Sound g
  defaults : Stmt.BlockSound g d.machine.defaults
  onReset : Stmt.BlockSound g d.machine.onReset
  reset : d.machine.reset = .hole ∨ d.machine.reset.Sound g
  advances : ∀ fr ∈ d.frames, ∀ l, fr.loop = some l → ∀ st, l.advance = some st → st.Sound g

namespace Coded

variable {d : Draft}

theorem refit (h : Coded g d) (hr : g.Refits n g') : Coded g' d where
  outer := h.outer.refit hr
  inner b hb := (h.inner b hb).refit hr
  states k st hk := ⟨(h.states k st hk).1.refit hr, fun t ht => ((h.states k st hk).2 t ht).refit hr⟩
  defaults := h.defaults.refit hr
  onReset := h.onReset.refit hr
  reset := h.reset.imp_right fun he => he.refit hr
  advances fr hfr l hl st hst := (h.advances fr hfr l hl st hst).refit hr

theorem reblock (h : Coded g d) {blocks : Blocks} (ho : Stmt.BlockSound g blocks.outer)
    (hi : ∀ b ∈ blocks.inner, Stmt.BlockSound g b) : Coded g { d with blocks } :=
  { h with outer := ho, inner := hi }

theorem emit (h : Coded g d) {st : Statement} (hst : st.Sound g) :
    Coded g { d with blocks := d.blocks.emit st } := by
  unfold Blocks.emit
  split
  · exact h.reblock (Stmt.blockSound_append.mpr ⟨h.outer, Stmt.blockSound_singleton.mpr hst⟩) h.inner
  · next block rest hb =>
    refine h.reblock h.outer fun b hmem => ?_
    have hinner := h.inner
    rw [hb] at hinner
    rcases List.mem_cons.mp hmem with rfl | hmem
    · exact Stmt.blockSound_append.mpr
        ⟨hinner block List.mem_cons_self, Stmt.blockSound_singleton.mpr hst⟩
    · exact hinner b (List.mem_cons_of_mem _ hmem)

/-- Other frames, whose advances are among those that were there. -/
theorem reframe (h : Coded g d) {frames : List Frame}
    (hf : ∀ fr ∈ frames, ∀ l, fr.loop = some l → ∀ st, l.advance = some st → st.Sound g) :
    Coded g { d with frames } := { h with advances := hf }

theorem modifyHead (h : Coded g d) {change : Frame → Frame} (hc : ∀ fr, (change fr).loop = fr.loop) :
    Coded g { d with frames := d.frames.modifyHead change } := by
  refine h.reframe ?_
  have ha := h.advances
  cases hd : d.frames with
  | nil => simp
  | cons fr rest =>
    rw [hd] at ha
    intro fr' hfr' l hl
    rcases List.mem_cons.mp hfr' with rfl | hfr'
    · exact ha fr List.mem_cons_self l (by rw [← hc]; exact hl)
    · exact ha fr' (List.mem_cons_of_mem _ hfr') l hl

theorem cut (h : Coded g d) : Coded g d.cut := by
  have hframes := (h.modifyHead
    (fun _ => rfl : ∀ fr : Frame, ({ fr with closedIf := none } : Frame).loop = fr.loop)).advances
  refine { h with outer := trivial, states := fun k st hk => ?_, advances := hframes }
  rw [Draft.cut, Array.getElem?_push] at hk
  split at hk
  · cases hk
    exact ⟨h.outer, by simp⟩
  · exact h.states k st hk

theorem addGoto (h : Coded g d) (k : Nat) {t : Transition Expr} (ht : t.Sound g) :
    Coded g { d with machine := d.machine.addGoto k t } := by
  obtain ⟨fault, hf⟩ := modifyState_eq d.machine k "goto" fun s => { s with gotos := s.gotos ++ [t] }
  rw [Machine.addGoto, hf]
  refine { h with states := fun j st hj => ?_ }
  rw [Array.getElem?_modify] at hj
  split at hj
  · obtain ⟨st₀, hst₀, rfl⟩ := Option.map_eq_some_iff.mp hj
    obtain ⟨hbody, hgotos⟩ := h.states j st₀ hst₀
    refine ⟨hbody, fun t' ht' => ?_⟩
    rcases List.mem_append.mp ht' with ht' | ht'
    · exact hgotos t' ht'
    · rw [List.mem_singleton.mp ht']
      exact ht
  · exact h.states j st hj

theorem addBody (h : Coded g d) (k : Nat) {body : List Statement} (hb : Stmt.BlockSound g body) :
    Coded g { d with machine := d.machine.addBody k body } := by
  obtain ⟨fault, hf⟩ := modifyState_eq d.machine k "body" fun s => { s with body := s.body ++ body }
  rw [Machine.addBody, hf]
  refine { h with states := fun j st hj => ?_ }
  rw [Array.getElem?_modify] at hj
  split at hj
  · obtain ⟨st₀, hst₀, rfl⟩ := Option.map_eq_some_iff.mp hj
    obtain ⟨hbody, hgotos⟩ := h.states j st₀ hst₀
    exact ⟨Stmt.blockSound_append.mpr ⟨hbody, hb⟩, hgotos⟩
  · exact h.states j st hj

end Coded

/-! ## The table of symbols -/

/-- An instance of a function that the program has defined. -/
def Context.Owns (c : Context) (r : InstanceRef) (inst : Instance) : Prop :=
  r.function ∈ c.draft.functions ∧ instance? c.session.functions r = some inst

/-- The type is that of a return register, which may have no width yet. -/
def Context.Pending (c : Context) (t : TypeId) : Prop :=
  ∃ r inst x, c.Owns r inst ∧ c.session.module.symbols.signals[inst.ret]? = some x ∧ x.type = some t

/-- The symbols of a stack; its own types come after the first `n`. -/
structure Instance.Held (n : Nat) (g : Symbols) (inst : Instance) : Prop where
  sp : g.signals[inst.sp]?.isSome = true
  depth : g.signals[inst.depth]?.isSome = true
  memories : ∀ d ∈ inst.returnAddr :: inst.args, g.isMemory d = true
  pointer : n ≤ inst.spType ∧ (g.type? (some inst.spType)).isResolved = true
  ret : ∃ x t, g.signals[inst.ret]? = some x ∧ x.type = some t ∧ n ≤ t

/-- What holds throughout careful elaboration. -/
structure Fitted (n : Nat) (c : Context) : Prop where
  signals : ∀ (i : SignalId) x, c.session.module.symbols.signals[i]? = some x →
    x.Fits c.session.module.symbols c.Pending
  coded : Coded c.session.module.symbols c.draft
  register : ∃ x, c.session.module.symbols.signals[c.draft.machine.current]? = some x ∧
    x.type = some c.draft.machine.type
  wire : c.session.module.symbols.signals[c.draft.machine.next]?.isSome = true
  flag : c.session.module.symbols.signals[c.draft.run]?.isSome = true
  code : n ≤ c.draft.machine.type ∧
    (c.session.module.symbols.type? (some c.draft.machine.type)).isResolved = true
  held : ∀ r inst, c.Owns r inst → inst.Held n c.session.module.symbols
  functions : ∀ fn ∈ c.draft.functions, ∃ f, c.session.functions[fn]? = some f ∧
    ∀ t, f.returns = some t → TypeSlot.isResolved (some t) = true
  building : ∀ r ∈ c.draft.building, ∃ inst, c.Owns r inst

/-- Elaboration went on from `c` to `c'`: nothing that was there is lost. -/
structure Forward (n : Nat) (c c' : Context) : Prop where
  fitted : Fitted n c'
  refits : c.session.module.symbols.Refits n c'.session.module.symbols
  owns : ∀ r inst, c.Owns r inst → ∃ inst', c'.Owns r inst'
  functions : ∀ fn ∈ c.draft.functions, fn ∈ c'.draft.functions
  processes : c'.session.module.processes = c.session.module.processes

theorem isSome_refit (h : g.Refits n g') {i : SignalId} (hi : g.signals[i]?.isSome = true) :
    g'.signals[i]?.isSome = true := by
  obtain ⟨x, hx⟩ := Option.isSome_iff_exists.mp hi
  obtain ⟨x', hx', -⟩ := h.signals i x hx
  simp [hx']

theorem isResolved_refit (h : g.Refits n g') {i : TypeId}
    (hi : (g.type? (some i)).isResolved = true) : (g'.type? (some i)).isResolved = true := by
  cases ht : g.types[i]? with
  | none => simp [Symbols.type?, ht, TypeSlot.isResolved] at hi
  | some t =>
    obtain ⟨t', ht', -, hw, hp⟩ := h.types i t ht
    simp only [Symbols.type?, Option.bind_some, ht, ht', TypeSlot.isResolved_some] at hi ⊢
    exact ⟨hp hi.1, hw hi.2⟩

theorem Instance.Held.refit {inst : Instance} (h : inst.Held n g) (hr : g.Refits n g') :
    inst.Held n g' where
  sp := isSome_refit hr h.sp
  depth := isSome_refit hr h.depth
  memories d hd := hr.isMemory (h.memories d hd)
  pointer := ⟨h.pointer.1, isResolved_refit hr h.pointer.2⟩
  ret := by
    obtain ⟨x, t, hx, hxt, hle⟩ := h.ret
    obtain ⟨x', hx', hxt', -⟩ := hr.signals _ x hx
    exact ⟨x', t, hx', hxt'.trans hxt, hle⟩

namespace Forward

variable {c c' c'' : Context}

theorem refl (h : Fitted n c) : Forward n c c :=
  ⟨h, .refl n _, fun _ inst hi => ⟨inst, hi⟩, fun _ hf => hf, rfl⟩

theorem trans (h : Forward n c c') (h' : Forward n c' c'') : Forward n c c'' where
  fitted := h'.fitted
  refits := h.refits.trans h'.refits
  owns r inst hi := by
    obtain ⟨inst', hi'⟩ := h.owns r inst hi
    exact h'.owns r inst' hi'
  functions fn hfn := h'.functions fn (h.functions fn hfn)
  processes := h'.processes.trans h.processes

end Forward

namespace Fitted

variable {c c' : Context}

theorem sound_ref (h : Fitted n c) {i : SignalId}
    (hi : c.session.module.symbols.signals[i]?.isSome = true) :
    (Expr.ref i).Sound c.session.module.symbols := Signal.sound_ref h.signals hi

theorem sound_of_complete (h : Fitted n c) {e : Expr}
    (he : c.session.module.symbols.complete e = true) : e.Sound c.session.module.symbols :=
  Signal.sound_of_complete h.signals he

/-- What elaboration may change between two commands: the table is settled further, new signals fit,
and the draft holds sound code for the same machine. -/
theorem forward (h : Fitted n c) (hr : c.session.module.symbols.Refits n c'.session.module.symbols)
    (hp : c'.session.module.processes = c.session.module.processes)
    (hf : c'.session.functions = c.session.functions)
    (hnew : ∀ (i : SignalId) x, c.session.module.symbols.signals.size ≤ i →
      c'.session.module.symbols.signals[i]? = some x →
      x.Fits c'.session.module.symbols c'.Pending)
    (hcoded : Coded c'.session.module.symbols c'.draft)
    (hmachine : c'.draft.machine.current = c.draft.machine.current ∧
      c'.draft.machine.next = c.draft.machine.next ∧ c'.draft.machine.type = c.draft.machine.type)
    (hrun : c'.draft.run = c.draft.run) (hfn : c'.draft.functions = c.draft.functions)
    (hb : ∀ r ∈ c'.draft.building, ∃ inst, c.Owns r inst) : Forward n c c' := by
  have howns : ∀ r inst, c'.Owns r inst ↔ c.Owns r inst := fun r inst => by
    rw [Context.Owns, Context.Owns, hf, hfn]
  have hpending : ∀ t, c.Pending t → c'.Pending t := by
    rintro t ⟨r, inst, x, hi, hx, hxt⟩
    obtain ⟨x', hx', hxt', -⟩ := hr.signals _ x hx
    exact ⟨r, inst, x', (howns r inst).mpr hi, hx', hxt'.trans hxt⟩
  refine ⟨⟨fun i x hx => ?_, hcoded, ?_, ?_, ?_, ?_, fun r inst hi => ?_, ?_, fun r hr' => ?_⟩, hr,
    fun r inst hi => ⟨inst, (howns r inst).mpr hi⟩, fun fn hm => hfn ▸ hm, hp⟩
  · rcases Nat.lt_or_ge i c.session.module.symbols.signals.size with hlt | hge
    · obtain ⟨x', hx', hxt, hk, hd, hpos⟩ := hr.signals i _ (Array.getElem?_eq_getElem hlt)
      obtain rfl : x' = x := Option.some.inj (hx'.symm.trans hx)
      have hold := h.signals i _ (Array.getElem?_eq_getElem hlt)
      refine ⟨fun hdecl hkind => hpos (hold.depth (hd ▸ hdecl) (hk ▸ hkind)), ?_⟩
      obtain ⟨j, t, hj, ht, hw, hpos⟩ := hold.type
      obtain ⟨t', ht', -, hw', hp'⟩ := hr.types j t ht
      exact ⟨j, t', hxt.trans hj, ht', hw' hw, hpos.imp hp' (hpending j)⟩
    · exact hnew i x hge hx
  · obtain ⟨x, hx, hxt⟩ := h.register
    obtain ⟨x', hx', hxt', -⟩ := hr.signals _ x hx
    rw [hmachine.1, hmachine.2.2]
    exact ⟨x', hx', hxt'.trans hxt⟩
  · rw [hmachine.2.1]
    exact isSome_refit hr h.wire
  · rw [hrun]
    exact isSome_refit hr h.flag
  · rw [hmachine.2.2]
    exact ⟨h.code.1, isResolved_refit hr h.code.2⟩
  · exact (h.held r inst ((howns r inst).mp hi)).refit hr
  · rw [hfn, hf]
    exact h.functions
  · obtain ⟨inst, hi⟩ := hb r hr'
    exact ⟨inst, (howns r inst).mpr hi⟩

/-- Only the table of symbols changes. -/
theorem retable (h : Fitted n c) (hd : c'.draft = c.draft)
    (hr : c.session.module.symbols.Refits n c'.session.module.symbols)
    (hp : c'.session.module.processes = c.session.module.processes)
    (hf : c'.session.functions = c.session.functions)
    (hnew : ∀ (i : SignalId) x, c.session.module.symbols.signals.size ≤ i →
      c'.session.module.symbols.signals[i]? = some x →
      x.Fits c'.session.module.symbols c'.Pending) : Forward n c c' := by
  refine h.forward hr hp hf hnew ?_ ?_ ?_ ?_ ?_ <;> rw [hd]
  · exact h.coded.refit hr
  · exact ⟨rfl, rfl, rfl⟩
  · exact h.building

/-- No signal is added. -/
theorem retype (h : Fitted n c) (hd : c'.draft = c.draft)
    (hr : c.session.module.symbols.Refits n c'.session.module.symbols)
    (hs : c'.session.module.symbols.signals.size = c.session.module.symbols.signals.size)
    (hp : c'.session.module.processes = c.session.module.processes)
    (hf : c'.session.functions = c.session.functions) : Forward n c c' := by
  refine h.retable hd hr hp hf fun i x hge hx => ?_
  have hlt := (Array.getElem?_eq_some_iff.mp hx).1
  omega

/-- Only the draft changes, and with it at most reports and names. -/
theorem redraft (h : Fitted n c) (hm : c'.session.module = c.session.module)
    (hf : c'.session.functions = c.session.functions)
    (hcoded : Coded c.session.module.symbols c'.draft)
    (hmachine : c'.draft.machine.current = c.draft.machine.current ∧
      c'.draft.machine.next = c.draft.machine.next ∧ c'.draft.machine.type = c.draft.machine.type)
    (hrun : c'.draft.run = c.draft.run) (hfn : c'.draft.functions = c.draft.functions)
    (hb : ∀ r ∈ c'.draft.building, ∃ inst, c.Owns r inst) : Forward n c c' := by
  refine h.forward (hm ▸ .refl n _) (by rw [hm]) hf (fun i x hge hx => ?_) (by rw [hm]; exact hcoded)
    hmachine hrun hfn hb
  rw [hm] at hx
  have hlt := (Array.getElem?_eq_some_iff.mp hx).1
  omega

end Fitted

/-! ## Operations -/

section Operations

variable {α β : Type} {c c' : Context}
variable {body : ElabM Unit} {frames : List Frame}

/-- The operation keeps all widths in order. -/
def Forwards (n : Nat) (x : ElabM α) : Prop := ∀ c, Fitted n c → Ensures x c fun _ => Forward n c

theorem Forward.bind {x : ElabM α} {f : α → ElabM β} {P : α → Context → Prop}
    (hx : Ensures x c fun a c' => Forward n c c' ∧ P a c')
    (hf : ∀ a c', Forward n c c' → P a c' → Ensures (f a) c' fun _ c'' => Forward n c' c'') :
    Ensures (x >>= f) c fun _ c'' => Forward n c c'' := by
  rw [ensures_bind]
  refine hx.mono ?_
  rintro a c₁ ⟨h₁, hp⟩
  exact (hf a c₁ h₁ hp).mono fun _ _ h₂ => h₁.trans h₂

theorem Forwards.bind {x : ElabM α} {f : α → ElabM β} (hx : Forwards n x)
    (hf : ∀ a, Forwards n (f a)) : Forwards n (x >>= f) := fun c h =>
  Forward.bind (P := fun _ _ => True) ((hx c h).mono fun _ _ h₁ => ⟨h₁, trivial⟩)
    fun a c₁ h₁ _ => hf a c₁ h₁.fitted

theorem Forwards.pure (a : α) : Forwards n (Pure.pure a : ElabM α) := fun c h => by
  rw [ensures_pure]
  exact .refl h

/-- Names do not matter for widths. -/
theorem Fitted.rescope (h : Fitted n c) (scope : Script.Scope) :
    Forward n c { c with session := { c.session with scope } } :=
  h.redraft rfl rfl h.coded ⟨rfl, rfl, rfl⟩ rfl rfl h.building

theorem Forwards.record (command : String) (fact : Fact) : Forwards n (record command fact) :=
  fun c h => by
    rw [ensures_record]
    exact h.redraft rfl rfl h.coded ⟨rfl, rfl, rfl⟩ rfl rfl h.building

theorem Forwards.recordState {make : ElabM Nat} (h : Forwards n make) (command : String) :
    Forwards n (recordState command make) := h.bind fun _ => .record command _

theorem Forwards.bindVar (name : Option String) (e : Expr) : Forwards n (bindVar name e) :=
  fun c h => by
    simp only [Program.bindVar, ensures_modifyScope]
    exact h.rescope _

@[simp] theorem ensures_demand {p : Bool} {Q : Unit → Context → Prop} :
    Ensures (demand p) c Q ↔ (p = true → Q () c) := by
  simp [demand]

/-! ### Terms -/

theorem Fitted.expand (h : Fitted n c) {m : Module} (hm : c.session.module.Expands m)
    (hs : m.symbols.signals = c.session.module.symbols.signals) :
    Forward n c { c with session := { c.session with module := m } } :=
  h.retype rfl (.of_grows hm.symbols) (by rw [hs]) hm.processes rfl

theorem Forwards.resolve (t : Script.Term) : Forwards n (resolve t) := fun _ h =>
  .resolve_types fun _ _ hm hs => h.expand hm hs

theorem Fitted.resolveComplete (h : Fitted n c) (t : Script.Term) :
    Ensures (resolveComplete t) c fun e c' => Forward n c c' ∧
      e.Sound c'.session.module.symbols := by
  simp only [Program.resolveComplete, ensures_ops, ensures_demand]
  refine .resolve_types fun e m hm hs he => ?_
  have hf := h.expand hm hs
  exact ⟨hf, hf.fitted.sound_of_complete he⟩

theorem Fitted.resolveOptional (h : Fitted n c) (t : Script.Term) :
    Ensures (resolveOptional t) c fun e c' => Forward n c c' ∧
      (e = .hole ∨ e.Sound c'.session.module.symbols) := by
  simp only [Program.resolveOptional, ensures_ops, ensures_demand, Bool.or_eq_true,
    decide_eq_true_eq]
  refine .resolve_types fun e m hm hs he => ?_
  have hf := h.expand hm hs
  exact ⟨hf, he.imp_right hf.fitted.sound_of_complete⟩

theorem sound_of_toOption {e e' : Expr} (he : e = .hole ∨ e.Sound g) (h : e.toOption = some e') :
    e'.Sound g := by
  rcases he with rfl | he
  · simp [Expr.toOption] at h
  · cases e with
    | hole => exact absurd he not_false
    | _ =>
      cases h
      exact he

theorem relate_eq {r : Relation} {a b e : Expr} (h : g.relate r a b = some e) :
    ∃ p, e = .cmp p a b := by
  unfold Symbols.relate at h
  split at h
  · exact ⟨_, (Option.some.inj h).symm⟩
  · obtain ⟨ta, -, h⟩ := Option.bind_eq_some_iff.mp h
    split at h
    · obtain ⟨tb, -, h⟩ := Option.bind_eq_some_iff.mp h
      exact ⟨_, (Option.some.inj h).symm⟩
    · exact ⟨_, (Option.some.inj h).symm⟩

theorem Ensures.relate {r : Relation} {a b : Expr} {Q : Expr → Context → Prop}
    (ha : a.Sound c.session.module.symbols) (hb : b.Sound c.session.module.symbols)
    (hq : ∀ e : Expr, e.Sound c.session.module.symbols → Q e c) : Ensures (relate r a b) c Q := by
  simp only [Program.relate, ensures_ops]
  intro e he
  obtain ⟨p, rfl⟩ := relate_eq he
  exact hq _ ⟨ha, hb⟩

/-! ### States -/

theorem Fitted.emit (h : Fitted n c) {st : Statement} (hst : st.Sound c.session.module.symbols) :
    Ensures (emit st) c fun _ => Forward n c := by
  rw [ensures_emit]
  exact h.redraft rfl rfl (h.coded.emit hst) ⟨rfl, rfl, rfl⟩ rfl rfl h.building

theorem Fitted.cut (h : Fitted n c) (f : Reporter → Reporter) :
    Forward n c { c.reported f with draft := c.draft.cut } :=
  h.redraft rfl rfl h.coded.cut ⟨rfl, rfl, rfl⟩ rfl rfl h.building

theorem Forwards.step : Forwards n step := fun _ h => .step fun f _ => h.cut f

theorem Forwards.stepIfWaiting : Forwards n stepIfWaiting := fun c h => by
  simp only [Program.stepIfWaiting, ensures_ops, ensures_ite]
  exact ⟨fun _ => Forwards.step c h, fun _ => .refl h⟩

theorem Fitted.addGoto (h : Fitted n c) (k : Nat) {t : Transition Expr}
    (ht : t.Sound c.session.module.symbols) : Ensures (addGoto k t) c fun _ => Forward n c := by
  rw [ensures_addGoto]
  obtain ⟨fault, hf⟩ := modifyState_eq c.draft.machine k "goto" fun s =>
    { s with gotos := s.gotos ++ [t] }
  refine h.redraft rfl rfl (h.coded.addGoto k ht) ?_ rfl rfl h.building
  rw [Machine.addGoto, hf]
  exact ⟨rfl, rfl, rfl⟩

theorem Fitted.reframe (h : Fitted n c)
    (hf : ∀ fr ∈ frames, ∀ l, fr.loop = some l → ∀ st, l.advance = some st →
      st.Sound c.session.module.symbols) :
    Forward n c { c with draft := { c.draft with frames } } :=
  h.redraft rfl rfl (h.coded.reframe hf) ⟨rfl, rfl, rfl⟩ rfl rfl h.building

theorem Fitted.pushFrame (h : Fitted n c) {fr : Frame}
    (hf : ∀ l, fr.loop = some l → ∀ st, l.advance = some st → st.Sound c.session.module.symbols) :
    Ensures (pushFrame fr) c fun _ => Forward n c := by
  rw [ensures_pushFrame]
  refine h.reframe fun fr' hfr' => ?_
  rcases List.mem_cons.mp hfr' with rfl | hfr'
  · exact hf
  · exact h.coded.advances fr' hfr'

theorem Forwards.popFrame : Forwards n popFrame := fun c h => by
  rw [ensures_popFrame]
  exact h.reframe fun fr hfr => h.coded.advances fr (List.mem_of_mem_tail hfr)

theorem Fitted.modifyTop (h : Fitted n c) {change : Frame → Frame}
    (hc : ∀ fr, (change fr).loop = fr.loop) :
    Ensures (modifyTop change) c fun _ => Forward n c := by
  rw [ensures_modifyTop]
  exact h.redraft rfl rfl (h.coded.modifyHead hc) ⟨rfl, rfl, rfl⟩ rfl rfl h.building

/-! ### Control flow -/

theorem Fitted.ifThen (h : Fitted n c) {test : Expr} (hbody : Forwards n body)
    (ht : test = .hole ∨ test.Sound c.session.module.symbols) :
    Ensures (ifThen test body) c fun _ => Forward n c := by
  simp only [Program.ifThen, ensures_bind]
  refine (Forwards.step c h).mono fun st c₁ h₁ => ?_
  refine (h₁.fitted.pushFrame (by simp)).mono fun _ c₂ h₂ => ?_
  refine (hbody c₂ h₂.fitted).mono fun _ c₃ h₃ => ?_
  refine (Forwards.step c₃ h₃.fitted).mono fun yes c₄ h₄ => ?_
  refine (Forwards.popFrame c₄ h₄.fitted).mono fun _ c₅ h₅ => ?_
  have hk := (((h₁.trans h₂).trans h₃).trans h₄).trans h₅
  have htest : Transition.Sound c₅.session.module.symbols
      ⟨test.toOption, some (.after st), some (.after yes)⟩ :=
    .fork (fun e he => (sound_of_toOption ht he).refit hk.refits) (by simp) (by simp)
  refine (h₅.fitted.addGoto st htest).mono fun _ c₆ h₆ => ?_
  refine (h₆.fitted.modifyTop (by simp)).mono fun _ c₇ h₇ => ?_
  rw [ensures_pure]
  exact (hk.trans h₆).trans h₇

theorem Forwards.orElse (hbody : Forwards n body) : Forwards n (orElse body) := by
  intro c h
  simp only [Program.orElse, ensures_ops]
  split
  · next yes _ _ =>
    simp only [ensures_bind]
    refine (h.modifyTop (by simp)).mono fun _ c₁ h₁ => ?_
    refine (h₁.fitted.pushFrame (by simp)).mono fun _ c₂ h₂ => ?_
    refine (hbody c₂ h₂.fitted).mono fun _ c₃ h₃ => ?_
    refine (Forwards.step c₃ h₃.fitted).mono fun no c₄ h₄ => ?_
    refine (Forwards.popFrame c₄ h₄.fitted).mono fun _ c₅ h₅ => ?_
    refine (h₅.fitted.addGoto yes (.plainJump (by simp))).mono fun _ c₆ h₆ => ?_
    rw [ensures_pure]
    exact ((((h₁.trans h₂).trans h₃).trans h₄).trans h₅).trans h₆
  · simp

theorem loopEdge_sound {test : Option Expr} (ht : ∀ e, test = some e → e.Sound g) (st yes : Nat) :
    (loopEdge test st yes).Sound g := by
  unfold loopEdge
  split
  · exact .plainJump (by simp)
  · next e => exact .fork (fun e' he' => Option.some.inj he' ▸ ht e rfl) (by simp) (by simp)

/-- Transitions that are sound in a table stay so while the table is settled. -/
theorem Fitted.addGotos (h : Fitted n c) (ks : List Nat) {t : Transition Expr}
    (ht : t.Sound c.session.module.symbols) :
    Ensures (ks.forM fun k => Program.addGoto k t) c fun _ => Forward n c := by
  refine Ensures.forM (P := Forward n c) (.refl h) fun k _ c₁ h₁ => ?_
  exact (h₁.fitted.addGoto k (ht.refit h₁.refits)).mono fun _ _ h₂ => h₁.trans h₂

theorem Fitted.loop (h : Fitted n c) {head tail : Option Expr} {advance : Option Statement}
    (hbody : Forwards n body) (hhead : ∀ e, head = some e → e.Sound c.session.module.symbols)
    (htail : ∀ e, tail = some e → e.Sound c.session.module.symbols)
    (hadv : ∀ st, advance = some st → st.Sound c.session.module.symbols) :
    Ensures (loop head tail advance body) c fun _ => Forward n c := by
  simp only [Program.loop, ensures_bind]
  refine (Forwards.step c h).mono fun st c₁ h₁ => ?_
  have hframe : ∀ l, some ({ anchor := st + 1, advance } : LoopFrame) = some l →
      ∀ s, l.advance = some s → s.Sound c₁.session.module.symbols := by
    rintro l hl s hs
    cases hl
    exact (hadv s hs).refit h₁.refits
  refine (h₁.fitted.pushFrame hframe).mono fun _ c₂ h₂ => ?_
  refine (hbody c₂ h₂.fitted).mono fun _ c₃ h₃ => ?_
  have hk₃ := (h₁.trans h₂).trans h₃
  have hemit : Ensures (advance.forM Program.emit) c₃ fun _ c' => Forward n c₃ c' := by
    cases hs : advance with
    | none => exact Forwards.pure _ c₃ h₃.fitted
    | some s => exact h₃.fitted.emit ((hadv s hs).refit hk₃.refits)
  refine hemit.mono fun _ c₄ h₄ => ?_
  refine (Forwards.step c₄ h₄.fitted).mono fun yes c₅ h₅ => ?_
  simp only [ensures_popFrame]
  have h₆ : Forward n c₅ { c₅ with draft := { c₅.draft with frames := c₅.draft.frames.tail } } :=
    h₅.fitted.reframe fun fr hfr => h₅.fitted.coded.advances fr (List.mem_of_mem_tail hfr)
  have hk₆ := ((hk₃.trans h₄).trans h₅).trans h₆
  have hedge : ∀ {e c'}, Forward n c c' → (∀ t, e = some t → t.Sound c.session.module.symbols) →
      (loopEdge e st yes).Sound c'.session.module.symbols := fun hk he =>
    loopEdge_sound (fun t ht => (he t ht).refit hk.refits) st yes
  refine (h₆.fitted.addGoto st (hedge hk₆ hhead)).mono fun _ c₇ h₇ => ?_
  have hk₇ := hk₆.trans h₇
  refine (h₇.fitted.addGoto yes (hedge hk₇ htail)).mono fun _ c₈ h₈ => ?_
  have hk₈ := hk₇.trans h₈
  refine (h₈.fitted.addGotos _ (hedge hk₈ htail)).mono fun _ c₉ h₉ => ?_
  refine (h₉.fitted.addGotos _ (.plainJump (by simp))).mono fun _ c₁₀ h₁₀ => ?_
  rw [ensures_pure]
  exact (hk₈.trans h₉).trans h₁₀

theorem modifyNearest_advance {change : LoopFrame → LoopFrame}
    (hc : ∀ l, (change l).advance = l.advance) {fr : Frame}
    (hfr : fr ∈ modifyNearest change frames) {l : LoopFrame} (hl : fr.loop = some l) :
    ∃ fr' ∈ frames, ∃ l', fr'.loop = some l' ∧ l.advance = l'.advance := by
  induction frames with
  | nil => simp [modifyNearest] at hfr
  | cons top rest ih =>
    rw [modifyNearest] at hfr
    split at hfr
    · next l₀ hl₀ =>
      rcases List.mem_cons.mp hfr with rfl | hfr
      · cases hl
        exact ⟨top, List.mem_cons_self, l₀, hl₀, hc l₀⟩
      · exact ⟨fr, List.mem_cons_of_mem _ hfr, l, hl, rfl⟩
    · split at hfr
      · exact ⟨fr, hfr, l, hl, rfl⟩
      · rcases List.mem_cons.mp hfr with rfl | hfr
        · exact ⟨fr, List.mem_cons_self, l, hl, rfl⟩
        · obtain ⟨fr', hfr', hrest⟩ := ih hfr
          exact ⟨fr', List.mem_cons_of_mem _ hfr', hrest⟩

theorem Fitted.modifyLoop (h : Fitted n c) {change : LoopFrame → LoopFrame}
    (hc : ∀ l, (change l).advance = l.advance) :
    Ensures (modifyLoop change) c fun _ => Forward n c := by
  simp only [Program.modifyLoop, ensures_modifyDraft]
  refine h.reframe fun fr hfr l hl st hst => ?_
  obtain ⟨fr', hfr', l', hl', hadv⟩ := modifyNearest_advance hc hfr hl
  exact h.coded.advances fr' hfr' l' hl' st (hadv ▸ hst)

theorem Forwards.breakLoop : Forwards n breakLoop := fun c h => by
  simp only [Program.breakLoop, ensures_ops]
  refine (Forwards.step c h).mono fun st c₁ h₁ => ?_
  split
  · simp
  · simp only [ensures_bind]
    refine (h₁.fitted.modifyLoop (by simp)).mono fun _ c₂ h₂ => ?_
    rw [ensures_pure]
    exact h₁.trans h₂

theorem nearestLoop_mem {l : LoopFrame} (h : nearestLoop frames = some l) :
    ∃ fr ∈ frames, fr.loop = some l := by
  induction frames with
  | nil => simp [nearestLoop] at h
  | cons top rest ih =>
    rw [nearestLoop] at h
    split at h
    · next l₀ hl₀ =>
      cases h
      exact ⟨top, List.mem_cons_self, hl₀⟩
    · split at h
      · simp at h
      · obtain ⟨fr, hfr, hl⟩ := ih h
        exact ⟨fr, List.mem_cons_of_mem _ hfr, hl⟩

theorem Forwards.nextRound : Forwards n nextRound := fun c h => by
  simp only [Program.nextRound, ensures_ops]
  split
  · simp
  · next l hl =>
    obtain ⟨fr, hfr, hloop⟩ := nearestLoop_mem hl
    split
    · next next hnext =>
      simp only [ensures_bind]
      refine (h.emit (h.coded.advances fr hfr l hloop next hnext)).mono fun _ c₁ h₁ => ?_
      refine (Forwards.step c₁ h₁.fitted).mono fun st c₂ h₂ => ?_
      refine (h₂.fitted.modifyLoop (by simp)).mono fun _ c₃ h₃ => ?_
      rw [ensures_pure]
      exact (h₁.trans h₂).trans h₃
    · simp only [ensures_bind]
      refine (Forwards.step c h).mono fun st c₁ h₁ => ?_
      refine (h₁.fitted.addGoto st (.plainJump (by simp))).mono fun _ c₂ h₂ => ?_
      rw [ensures_pure]
      exact h₁.trans h₂

/-- A state that is left for a known place. -/
theorem Forwards.stepTo {a : Target Expr} (ha : ∀ e, a ≠ .computed e) : Forwards n (do
      let st ← Program.step
      Program.addGoto st (.jump a)
      return st) := fun c h => by
  simp only [ensures_bind]
  refine (Forwards.step c h).mono fun st c₁ h₁ => ?_
  refine (h₁.fitted.addGoto st (.plainJump ha)).mono fun _ c₂ h₂ => ?_
  rw [ensures_pure]
  exact h₁.trans h₂

theorem Forwards.label (name : String) : Forwards n (label name) := fun c h => by
  simp only [Program.label, ensures_ops, ensures_ite, implies_true, true_and]
  intro _
  refine (Forwards.stepIfWaiting c h).mono fun _ c₁ h₁ => h₁.trans ?_
  exact h₁.fitted.redraft rfl rfl { h₁.fitted.coded with } ⟨rfl, rfl, rfl⟩ rfl rfl h₁.fitted.building

end Operations

end Program

end Lockstep
