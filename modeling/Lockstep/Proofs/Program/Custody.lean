import Lockstep.Proofs.Program.Passive

/-!
# States in hand

Elaboration makes a state at the end of the machine and gives it its transition later. Until then the
construct that made it has it in hand, or a frame keeps it for whoever comes next. All that is ever
done to states is to make one, to pass it on, and to give it a transition. What withstands that
withstands every construct, call and command.
-/

namespace Lockstep

/-- A place in a machine of `n` states or right after the last one, or one that `P` holds of. -/
def Target.Lands (P : Int → Prop) (n : Nat) : Target Expr → Prop
  | .state i => (0 ≤ i ∧ i ≤ n) ∨ P i
  | .after k => 0 ≤ k ∧ k < n
  | .named _ | .computed _ => True

/-- The transition goes somewhere whatever its guard says, and only to places that `P` holds of. -/
structure Transition.Total (P : Target Expr → Prop) (t : Transition Expr) : Prop where
  target : ∃ a, t.target = some a ∧ P a
  otherwise : ∀ a, t.otherwise = some a → P a
  both : t.guard.isSome → t.otherwise.isSome

namespace Transition.Total

variable {P : Target Expr → Prop} {a b : Target Expr}

theorem jump (ha : P a) : (Transition.jump a).Total P :=
  ⟨⟨a, rfl, ha⟩, by simp [Transition.jump], by simp [Transition.jump]⟩

theorem split (guard : Option Expr) (ha : P a) (hb : P b) :
    Transition.Total P ⟨guard, some a, some b⟩ :=
  ⟨⟨a, rfl, ha⟩, fun _ h => Option.some.inj h ▸ hb, fun _ => rfl⟩

theorem loopEdge {st yes : Nat} (test : Option Expr) (hst : P (.after st)) (hyes : P (.after yes)) :
    (Program.loopEdge test st yes).Total P := by
  cases test with
  | none => exact .jump hst
  | some e => exact .split (some e) hst hyes

end Transition.Total

namespace Program

/-! ## Passing states on -/

/-- The first states of the loops that are open. -/
def anchors (frames : List Frame) : List Nat := frames.filterMap fun f => f.loop.map LoopFrame.anchor

/-- Held states and frames, before and after some states have passed from one to the other, or have
been let go. No state gets a second holder, and loops stay where they are in a machine of size `n`. -/
structure Passed (n : Nat) (held : List Nat) (frames : List Frame) (held' : List Nat)
    (frames' : List Frame) : Prop where
  count : ∀ k, (held' ++ frames'.flatMap Frame.marks).count k ≤
    (held ++ frames.flatMap Frame.marks).count k
  loops : ∀ a ∈ anchors frames', a ∈ anchors frames ∨ a ≤ n

section

variable {n : Nat} {held held' : List Nat} {frames : List Frame}

theorem Passed.release (h : ∀ k, held'.count k ≤ held.count k) :
    Passed n held frames held' frames := ⟨fun k => by simpa using h k, fun _ ha => .inl ha⟩

theorem Passed.push {f : Frame} (hf : f.marks = [])
    (ha : ∀ l, f.loop = some l → l.anchor ≤ n) : Passed n held frames held (f :: frames) := by
  refine ⟨fun k => by simp [hf], fun a h => ?_⟩
  cases hl : f.loop with
  | none => exact .inl (by simpa [anchors, hl] using h)
  | some l =>
    rw [anchors, List.filterMap_cons_some (by rw [hl]; rfl)] at h
    rcases List.mem_cons.mp h with rfl | h
    · exact .inr (ha l hl)
    · exact .inl h

/-- The states that the innermost frame keeps can be taken from it. -/
theorem Passed.pop (h : ∀ k, held'.count k ≤ ((frames.headD {}).marks ++ held).count k) :
    Passed n held frames held' frames.tail := by
  cases frames with
  | nil => exact ⟨fun k => by simpa [Frame.marks] using h k, fun _ ha => .inl ha⟩
  | cons f rest =>
    refine ⟨fun k => ?_, fun a ha => .inl ?_⟩
    · have := h k
      simp only [List.headD_cons, List.count_append] at this
      simp only [List.tail_cons, List.flatMap_cons, List.count_append]
      omega
    · exact List.Sublist.subset ((List.sublist_cons_self f rest).filterMap _) ha

theorem anchors_modifyHead (o : Option Nat) :
    anchors (frames.modifyHead fun f => { f with closedIf := o }) = anchors frames := by
  cases frames <;> rfl

/-- The innermost frame gets another closed branch. -/
theorem Passed.closed (o : Option Nat) : Passed n (o.toList ++ held) frames held
    (frames.modifyHead fun f => { f with closedIf := o }) := by
  refine ⟨fun k => ?_, fun a ha => .inl (by rwa [anchors_modifyHead] at ha)⟩
  cases frames with
  | nil => simp
  | cons f rest =>
    simp only [List.modifyHead_cons, List.flatMap_cons, Frame.marks, List.count_append]
    omega

/-- The innermost frame gives up its closed branch. -/
theorem Passed.reopen {yes : Nat} (h : frames.head?.bind Frame.closedIf = some yes) :
    Passed n held frames (yes :: held)
      (frames.modifyHead fun f => { f with closedIf := none }) := by
  refine ⟨fun k => ?_, fun a ha => .inl (by rwa [anchors_modifyHead] at ha)⟩
  cases frames with
  | nil => simp at h
  | cons f rest =>
    have hyes : f.closedIf = some yes := h
    simp only [List.modifyHead_cons, List.flatMap_cons, Frame.marks, hyes, List.count_append,
      List.count_cons, Option.toList_none, Option.toList_some, List.count_nil]
    omega

/-- The innermost loop keeps a state. -/
theorem Passed.keep {st : Nat} {change : LoopFrame → LoopFrame}
    (hchange : ∀ l k, ((change l).breaks ++ (change l).continues).count k ≤
      (l.breaks ++ l.continues).count k + [st].count k)
    (hanchor : ∀ l, (change l).anchor = l.anchor) :
    Passed n (st :: held) frames held (modifyNearest change frames) := by
  have hcount : ∀ k, ((modifyNearest change frames).flatMap Frame.marks).count k ≤
      (frames.flatMap Frame.marks).count k + [st].count k ∧
      anchors (modifyNearest change frames) = anchors frames := by
    intro k
    induction frames with
    | nil => simp [modifyNearest]
    | cons f rest ih =>
      unfold modifyNearest
      split
      · next l hl =>
        have := hchange l k
        simp only [List.flatMap_cons, Frame.marks, hl, Option.elim_some, List.count_append] at this ⊢
        exact ⟨by omega, by simp [anchors, hl, hanchor]⟩
      · split
        · exact ⟨Nat.le_add_right _ _, rfl⟩
        · next hl _ =>
          obtain ⟨hle, heq⟩ := ih
          simp only [List.flatMap_cons, List.count_append]
          exact ⟨by omega, by simpa [anchors, hl] using heq⟩
  refine ⟨fun k => ?_, fun a ha => .inl (by rwa [(hcount 0).2] at ha)⟩
  have := (hcount k).1
  simp only [List.count_append, List.count_cons, List.count_nil] at this ⊢
  omega

end

/-- What constructs that are open have in hand: states without a transition, and links of return
addresses without a state. -/
structure Hand where
  states : List Nat
  links : List LinkId

def Hand.hold (H : Hand) (k : Nat) : Hand := { H with states := k :: H.states }

def Hand.await (H : Hand) (l : LinkId) : Hand := { H with links := l :: H.links }

/-- A place to go to: a state or the one after the last, or where a loop or a body starts. -/
def Context.Offers (c : Context) : Target Expr → Prop :=
  Target.Lands (fun i => (∃ a ∈ anchors c.draft.frames, i = (a : Nat)) ∨ c.session.Entered i)
    c.draft.machine.size

/-- The invariant `I` of what is in hand, and of the context, withstands all that is done to states
by programs without `bad` commands. -/
structure Custody (bad : Command → Bool) (I : Hand → Context → Prop) : Prop where
  functions {H : Hand} {c : Context} : I H c → ∀ f ∈ c.session.functions, f.Avoids bad
  lt_size {H : Hand} {c : Context} : I H c → ∀ k ∈ H.states, k < c.draft.machine.size
  aside {H : Hand} {c c' : Context} : I H c → Aside c c' → I H c'
  push {H : Hand} {c : Context} {s : Machine.State} : I H c → s.gotos = [] →
    I (H.hold c.draft.machine.size) { c with draft := { c.draft with
      machine := { c.draft.machine with states := c.draft.machine.states.push s } } }
  reframe {H K : Hand} {c : Context} {frames : List Frame} : I H c →
    Passed c.draft.machine.size H.states c.draft.frames K.states frames → K.links = H.links →
    I K { c with draft := { c.draft with frames } }
  goto {H : Hand} {c : Context} {k : Nat} {t : Transition Expr} : I (H.hold k) c →
    t.Total c.Offers →
    I H { c with draft := { c.draft with machine := c.draft.machine.addGoto k t } }
  body {H : Hand} {c : Context} {k : Nat} {ss : List Statement} : I (H.hold k) c →
    I (H.hold k) { c with draft := { c.draft with machine := c.draft.machine.addBody k ss } }
  link {H : Hand} {c : Context} : I H c → I (H.await c.session.module.symbols.links.size) { c with
    session := { c.session with module := { c.session.module with
      symbols := c.session.module.symbols.newLink.2 } } }
  resume {H : Hand} {c : Context} {l : LinkId} {j : Nat} : I (H.await l) c → 1 ≤ j →
    j ≤ c.draft.machine.size →
    I H { c with draft := { c.draft with resumes := c.draft.resumes ++ [(l, j)] } }
  enter {H : Hand} {c : Context} {k : Nat} (r : InstanceRef) : I (H.hold k) c →
    I (H.hold k) { c with session := { c.session with
      functions := c.session.functions.modify r.function fun f => { f with
        instances := f.instances.modify r.position ({ · with entry := k + 1 }) } } }
  define {H : Hand} {c : Context} {f : Function} : I H c → f.Avoids bad → f.instances = #[] →
    I H { c with session := { c.session with functions := c.session.functions.push f } }

/-- The step takes `P` in hand and leaves `Q`, whatever else is in hand, and takes no state away. -/
def Hands {α : Type} (I : Hand → Context → Prop) (P : Hand → Hand) (x : ElabM α)
    (Q : α → Hand → Hand) : Prop :=
  ∀ H c, I (P H) c → Ensures x c fun a c' =>
    I (Q a H) c' ∧ c.draft.machine.size ≤ c'.draft.machine.size

/-- It leaves in hand what there was. -/
abbrev Heeds {α : Type} (I : Hand → Context → Prop) (x : ElabM α) : Prop := Hands I id x fun _ => id

theorem nearestLoop_anchor {frames : List Frame} {l : LoopFrame} (h : nearestLoop frames = some l) :
    l.anchor ∈ anchors frames := by
  induction frames with
  | nil => simp [nearestLoop] at h
  | cons f rest ih =>
    unfold nearestLoop at h
    split at h
    · next l' hl =>
      cases h
      simp [anchors, hl]
    · next hl =>
      split at h
      · simp at h
      · simpa [anchors, hl] using ih h

section

variable {α β : Type} {I : Hand → Context → Prop} {P : Hand → Hand} {x : ElabM α}

theorem Hands.bind {Q : α → Hand → Hand} {R : β → Hand → Hand} {f : α → ElabM β}
    (hx : Hands I P x Q) (hf : ∀ a, Hands I (Q a) (f a) R) : Hands I P (x >>= f) R := by
  intro H c h
  rw [ensures_bind]
  refine (hx H c h).mono ?_
  rintro a c₁ ⟨h₁, hsize₁⟩
  refine (hf a H c₁ h₁).mono ?_
  rintro b c₂ ⟨h₂, hsize₂⟩
  exact ⟨h₂, hsize₁.trans hsize₂⟩

theorem Hands.pure {Q : α → Hand → Hand} (a : α) (hQ : ∀ H, P H = Q a H) : Hands I P (pure a) Q :=
  fun H _ h => ensures_pure.mpr ⟨hQ H ▸ h, le_refl _⟩

theorem Hands.ite {p : Prop} [Decidable p] {y : ElabM α} {Q : α → Hand → Hand}
    (hx : Hands I P x Q) (hy : Hands I P y Q) : Hands I P (if p then x else y) Q := by
  split
  · exact hx
  · exact hy

theorem Heeds.under (hx : Heeds I x) : Hands I P x fun _ => P := fun H => hx (P H)

end

namespace Custody

variable {α : Type} {bad : Command → Bool} {I : Hand → Context → Prop} {H : Hand} {c : Context}
  {P : Hand → Hand} {k call skip : Nat} {body : ElabM Unit} {link : LinkId}
variable (C : Custody bad I)
include C

/-! ## States and frames -/

theorem passive {x : ElabM α} (hx : Passive x) : Heeds I x := fun _ c h =>
  (hx c).mono fun _ _ ha => ⟨C.aside h ha.toAside, ha.size.ge⟩

theorem emit (st : Statement) : Heeds I (emit st) := fun _ _ h =>
  ensures_emit.mpr ⟨C.aside h (.same rfl rfl rfl rfl rfl), le_refl _⟩

theorem offers_after (h : I H c) {k : Nat} (hk : k ∈ H.states) : c.Offers (.after k) :=
  ⟨by omega, by exact_mod_cast C.lt_size h k hk⟩

theorem release {k : Nat} (h : I (H.hold k) c) : I H c :=
  C.reframe (K := H) h (.release fun j => by simp [Hand.hold, List.count_cons]) rfl

theorem cut (h : I H c) (f : Reporter → Reporter) :
    I (H.hold c.draft.machine.size) { c.reported f with draft := c.draft.cut } := by
  have hpush := C.push (s := { name := c.draft.label, body := c.draft.blocks.outer }) h rfl
  have hforget := C.reframe hpush (.closed none) rfl
  exact C.aside hforget (.same rfl rfl rfl rfl rfl)

theorem step : Hands I id step fun k H => H.hold k := fun _ c h =>
  .step fun f _ => ⟨C.cut h f, by simp [cut_size]⟩

/-- A state that nothing comes back to. -/
theorem stepOn : Heeds I Program.step := fun H c h =>
  (C.step H c h).mono fun _ _ h' => ⟨C.release h'.1, h'.2⟩

theorem stepIfWaiting : Heeds I stepIfWaiting :=
  .bind (C.passive .getDraft) fun _ => .ite (.bind C.stepOn fun _ => .pure _ fun _ => rfl)
    (.pure _ fun _ => rfl)

theorem pushFrame {f : Frame} (hf : f.marks = [])
    (ha : ∀ H c, I (P H) c → ∀ l, f.loop = some l → l.anchor ≤ c.draft.machine.size) :
    Hands I P (pushFrame f) fun _ => P := fun H c h =>
  ensures_pushFrame.mpr ⟨C.reframe h (.push hf (ha H c h)) rfl, le_refl _⟩

theorem gotos {ks : List Nat} {t : Transition Expr} (h : I { H with states := ks ++ H.states } c)
    (ht : ∀ c' : Context, c'.draft.machine.size = c.draft.machine.size → t.Total c'.Offers) :
    Ensures (ks.forM fun k => addGoto k t) c fun _ c' =>
      I H c' ∧ c'.draft.machine.size = c.draft.machine.size := by
  induction ks generalizing c with
  | nil => simpa using h
  | cons k ks ih =>
    rw [List.forM_eq_forM, List.forM_cons, ensures_bind, ensures_addGoto]
    have hgoto := C.goto (H := { H with states := ks ++ H.states }) (k := k) h (ht c rfl)
    refine (ih hgoto fun c' hc' => ht c' ?_).mono ?_
    · simpa [addGoto_size] using hc'
    · rintro _ c' ⟨h', hsize⟩
      exact ⟨h', by simpa [addGoto_size] using hsize⟩

/-! ## Constructs -/

theorem openBranch : Hands I id openBranch fun st H => H.hold st :=
  .bind C.step fun st => .bind (C.pushFrame rfl (by simp)) fun _ => .pure st fun _ => rfl

theorem closeBranch (test : Expr) (st : Nat) :
    Hands I (·.hold st) (closeBranch test st) fun _ => id := by
  intro H c h
  simp only [Program.closeBranch, ensures_ops, ensures_modifyTop]
  refine (C.step _ c h).mono ?_
  rintro yes c₁ ⟨h₁, hsize⟩
  have hpop := C.reframe (K := (H.hold yes).hold st) h₁ (.pop fun k => by
    simp only [Hand.hold, List.count_cons, List.count_append]
    omega) rfl
  have hgoto := C.goto (H := H.hold yes) hpop (.split test.toOption
    (C.offers_after hpop List.mem_cons_self)
    (C.offers_after hpop (by simp [Hand.hold] : yes ∈ ((H.hold yes).hold st).states)))
  exact ⟨C.reframe hgoto (.closed (some yes)) rfl, by simpa [addGoto_size] using hsize⟩

theorem openElse : Hands I id openElse fun yes H => H.hold yes := by
  intro H c h
  simp only [Program.openElse, ensures_ops]
  split
  · next yes hyes _ =>
    simp only [ensures_ops, ensures_modifyTop]
    have hopen := C.reframe (K := H.hold yes) h (.reopen hyes) rfl
    have hpush := C.reframe (K := H.hold yes) hopen (.push (f := {}) rfl (by simp)) rfl
    exact ⟨hpush, le_refl _⟩
  · simp

theorem closeElse (yes : Nat) : Hands I (·.hold yes) (closeElse yes) fun _ => id := by
  intro H c h
  simp only [Program.closeElse, ensures_ops]
  refine (C.step _ c h).mono ?_
  rintro no c₁ ⟨h₁, hsize⟩
  have hpop := C.reframe (K := (H.hold no).hold yes) h₁ (.pop fun k => by
    simp only [Hand.hold, List.count_cons, List.count_append]
    omega) rfl
  have hgoto := C.goto (H := H.hold no) hpop
    (.jump (C.offers_after hpop (by simp [Hand.hold] : no ∈ ((H.hold no).hold yes).states)))
  exact ⟨C.release hgoto, by simpa [addGoto_size] using hsize⟩

theorem openLoop (advance : Option Statement) :
    Hands I id (openLoop advance) fun st H => H.hold st := by
  refine .bind C.step fun st => .bind (C.pushFrame rfl fun H c h l hl => ?_) fun _ =>
    .pure st fun _ => rfl
  cases hl
  exact C.lt_size h st List.mem_cons_self

theorem emitAll (o : Option Statement) : Heeds I (o.forM Program.emit) := by
  cases o with
  | none => exact .pure _ fun _ => rfl
  | some st => exact C.emit st

theorem closeLoop (head tail : Option Expr) (advance : Option Statement)
    (st : Nat) : Hands I (·.hold st) (closeLoop head tail advance st) fun _ => id := by
  intro H c h
  simp only [Program.closeLoop, ensures_ops]
  refine ((C.emitAll advance) _ c h).mono ?_
  rintro _ c₁ ⟨h₁, hsize₁⟩
  refine (C.step _ c₁ h₁).mono ?_
  rintro yes c₂ ⟨h₂, hsize₂⟩
  generalize hl : (c₂.draft.frames.headD {}).loop.getD { anchor := st + 1 } = l
  have hmarks : ∀ k, (l.continues ++ l.breaks).count k ≤
      (c₂.draft.frames.headD {}).marks.count k := by
    intro k
    rw [← hl, Frame.marks]
    cases (c₂.draft.frames.headD {}).loop with
    | none => simp
    | some l =>
      simp only [Option.getD_some, Option.elim_some, List.count_append]
      omega
  have hpop := C.reframe
    (K := { H with states := st :: yes :: (l.continues ++ (l.breaks ++ H.states)) }) h₂
    (.pop fun k => by
      have := hmarks k
      simp only [Hand.hold, List.count_cons, List.count_append] at this ⊢
      omega) rfl
  have hst := C.offers_after hpop (List.mem_cons_self (a := st))
  have hyes := C.offers_after hpop (by simp : yes ∈ _)
  have hback : ∀ test (c' : Context), c'.draft.machine.size = c₂.draft.machine.size →
      (loopEdge test st yes).Total c'.Offers := fun test c' hc' =>
    .loopEdge test ⟨hst.1, by rw [hc']; exact hst.2⟩ ⟨hyes.1, by rw [hc']; exact hyes.2⟩
  have hgotos := C.goto (H := { H with states := l.continues ++ (l.breaks ++ H.states) }) (k := yes)
    (C.goto (H := Hand.hold { H with states := l.continues ++ (l.breaks ++ H.states) } yes) (k := st)
      hpop (hback head _ rfl)) (hback tail _ (addGoto_size ..))
  refine (C.gotos (H := { H with states := l.breaks ++ H.states }) hgotos fun c' hc' =>
    hback tail c' (by simpa [addGoto_size] using hc')).mono ?_
  rintro _ c₃ ⟨h₃, hsize₃⟩
  refine (C.gotos (H := H) (t := .jump (.after yes)) h₃ fun c' hc' => .jump ⟨hyes.1, ?_⟩).mono ?_
  · rw [hc', hsize₃]
    simpa [addGoto_size] using hyes.2
  · rintro _ c₄ ⟨h₄, hsize₄⟩
    refine ⟨h₄, ?_⟩
    rw [hsize₄, hsize₃]
    simpa [addGoto_size] using hsize₁.trans hsize₂

theorem ifThen (hbody : Heeds I body) (test : Expr) : Heeds I (ifThen test body) := by
  rw [ifThen_eq]
  exact C.openBranch.bind fun st => hbody.under.bind fun _ => C.closeBranch test st

theorem orElse (hbody : Heeds I body) : Heeds I (orElse body) := by
  rw [orElse_eq]
  exact C.openElse.bind fun yes => hbody.under.bind fun _ => C.closeElse yes

theorem loop (hbody : Heeds I body) (head tail : Option Expr) (advance : Option Statement) :
    Heeds I (loop head tail advance body) := by
  rw [loop_eq]
  exact (C.openLoop advance).bind fun st => hbody.under.bind fun _ => C.closeLoop head tail advance st

theorem breakLoop : Heeds I breakLoop := by
  refine .bind C.step fun st H c h => ?_
  rw [ensures_bind, ensures_getDraft]
  split
  · simp
  · simp only [modifyLoop, ensures_ops]
    refine ⟨C.reframe (K := H) h (.keep (fun l k => ?_) fun _ => rfl) rfl, le_refl _⟩
    simp only [List.count_append]
    omega

theorem nextRound : Heeds I nextRound := by
  intro H c h
  simp only [Program.nextRound, ensures_ops]
  split
  · simp
  · next l hl =>
    split
    · next next _ =>
      refine Hands.bind (C.emit next) (fun _ => .bind C.step fun st H c h => ?_) H c h
      simp only [modifyLoop, ensures_ops]
      refine ⟨C.reframe (K := H) h (.keep (fun l k => ?_) fun _ => rfl) rfl, le_refl _⟩
      simp only [List.count_append]
      omega
    · rw [ensures_bind]
      refine .step fun f _ => ?_
      simp only [ensures_ops]
      refine ⟨C.goto (C.cut h f) (.jump (.inr (.inl ⟨l.anchor, ?_, rfl⟩))), ?_⟩
      · simpa [Draft.cut, anchors_modifyHead] using nearestLoop_anchor hl
      · simp [addGoto_size, cut_size]

/-- A state that is left by a jump. -/
theorem jump {a : Target Expr} (ha : ∀ c : Context, c.Offers a) : Heeds I (do
      let st ← Program.step
      addGoto st (.jump a)
      return st) :=
  .bind C.step fun st => .bind (fun _ _ h => ensures_addGoto.mpr
    ⟨C.goto h (.jump (ha _)), by simp [addGoto_size]⟩) fun _ => .pure st fun _ => rfl

theorem label (name : String) : Heeds I (label name) := by
  refine .bind (C.passive .getDraft) fun d => .ite (.bind (C.passive (.fail _)) fun _ => ?_) ?_
  all_goals exact .bind C.stepIfWaiting fun _ =>
    fun _ _ h => ensures_modifyDraft.mpr ⟨C.aside h (.same rfl rfl rfl rfl rfl), le_refl _⟩

theorem declareIndex (limit : Expr) : Heeds I (declareIndex limit) := by
  refine .bind C.stepIfWaiting fun _ => C.passive fun c => ?_
  simp only [ensures_ops]
  rintro ⟨type, symbols⟩ hshare
  have hshared : c.session.module.Expands { c.session.module with symbols } :=
    ⟨Symbols.shareType_grows hshare, rfl⟩
  have hlinks := congrArg Array.size (Symbols.shareType_same hshare).2
  exact .retain (.of_expands (hshared.trans (Module.declareAt_expands _ "i" .reg type 0 0))) hlinks

theorem openCount (limit : Expr) : Hands I id (openCount limit) fun k H => H.hold k.state := by
  rw [openCount_eq]
  exact .bind (C.declareIndex limit) fun p => .bind (C.emit _) fun _ =>
    .bind (C.passive (.relate _ _ _)) fun _ => .bind (C.passive (.relate _ _ _)) fun _ =>
      .bind (C.openLoop _) fun st => .pure _ fun _ => rfl

theorem count {body : Expr → ElabM Unit} (hbody : ∀ i, Heeds I (body i))
    (limit : Expr) : Heeds I (count limit body) := by
  rw [count_eq]
  exact (C.openCount limit).bind fun k => (hbody _).under.bind fun _ => C.closeLoop _ _ _ _

/-! ## Calls -/

theorem pushCall (r : InstanceRef) (args : List Expr) :
    Hands I id (pushCall r args) fun l H => H.await l := by
  refine .bind (C.passive .getDraft) fun d => .ite (.bind C.stepOn fun _ => ?_) ?_
  all_goals
    refine .bind (C.passive (.getInstance r)) fun inst => .bind (C.passive (.hasRoom inst))
      fun room H c h => ?_
    simp only [ensures_ops]
    exact ⟨C.aside (C.link h) (.same rfl rfl rfl rfl rfl), le_refl _⟩

theorem makeReturn (r : InstanceRef) (value : Option Expr) (h : I H c) :
    Ensures (makeReturn r value) c fun st c' =>
      I H c' ∧ c.draft.machine.size ≤ c'.draft.machine.size ∧ st < c'.draft.machine.size := by
  have hpop : ∀ (inst : Instance) c₁, I H c₁ ∧ c.draft.machine.size ≤ c₁.draft.machine.size →
      Ensures (do
        let st ← Program.step
        modifyMachine (·.addBody st [.assign inst.sp none (stackTop inst)])
        addGoto st (.jump (.computed (.index inst.returnAddr (stackTop inst))))
        return st) c₁ fun st c' =>
          I H c' ∧ c.draft.machine.size ≤ c'.draft.machine.size ∧ st < c'.draft.machine.size := by
    rintro inst c₁ ⟨h₁, hsize₁⟩
    simp only [ensures_ops]
    refine (C.step H c₁ h₁).mono ?_
    rintro st c₂ ⟨h₂, hsize₂⟩
    have hlt := C.lt_size h₂ st List.mem_cons_self
    refine ⟨C.goto (C.body h₂) (.jump trivial), ?_, ?_⟩
    · simpa [addGoto_size, Machine.addBody_size] using hsize₁.trans hsize₂
    · simpa [addGoto_size, Machine.addBody_size] using hlt
  rw [Program.makeReturn, ensures_bind]
  refine (C.stepOn H c h).mono ?_
  rintro _ c₁ h₁
  rw [ensures_bind]
  refine (Passive.getInstance r c₁).mono fun inst c₂ ha => ?_
  have h₂ : I H c₂ ∧ c.draft.machine.size ≤ c₂.draft.machine.size :=
    ⟨C.aside h₁.1 ha.toAside, ha.size ▸ h₁.2⟩
  cases value with
  | none => exact hpop inst c₂ h₂
  | some value =>
    rw [ensures_bind]
    refine (Passive.resolveReturn r value c₂).mono fun _ c₃ ha₃ => ?_
    rw [ensures_bind, ensures_emit]
    exact hpop inst _ ⟨C.aside (C.aside h₂.1 ha₃.toAside) (.same rfl rfl rfl rfl rfl), ha₃.size ▸ h₂.2⟩

theorem getFunction (h : I H c) (fn : Nat) :
    Ensures (getFunction fn) c fun f c' => f.Avoids bad ∧ c' = c := by
  simp only [Program.getFunction, ensures_ops, and_true]
  cases hf : c.session.functions[fn]? with
  | none =>
    have hnone : (default : Function).overflow = none := rfl
    exact ⟨by simp [Avoids, Command.withinAll, show (default : Function).body = [] from rfl],
      fun handler hh => by simp [hnone] at hh⟩
  | some f => exact C.functions h f (Array.mem_of_getElem? hf)

theorem openBody (r : InstanceRef) (args : List Expr) :
    Hands I id (openBody r args) fun p H => (H.await p.2).hold p.1 := by
  refine .bind (C.pushCall r args) fun link => .bind (fun H c h => C.step (H.await link) c h)
    fun call H c h => ?_
  rw [Program.modifyInstance, Program.modifyFunction]
  simp only [ensures_ops, Program.getInstance, Program.getFunction]
  have hpush := C.reframe (C.enter r h) (.push (f := { isBody := true }) rfl (by simp)) rfl
  exact ⟨C.aside hpush (.same rfl rfl rfl rfl rfl), le_refl _⟩

theorem closeBody (r : InstanceRef) (h : I H c) : Ensures (closeBody r) c fun st c' =>
      I H c' ∧ c.draft.machine.size ≤ c'.draft.machine.size ∧ st < c'.draft.machine.size := by
  simp only [Program.closeBody, ensures_ops]
  refine Ensures.mono (C.makeReturn r none (C.aside h (.same ?_ ?_ ?_ ?_ ?_))) ?_
  any_goals rfl
  rintro last c₁ ⟨h₁, hsize, hlt⟩
  have hpop := C.reframe (K := H) h₁ (.pop fun k => by
    rw [List.count_append]
    omega) rfl
  exact ⟨C.aside hpop (.same rfl rfl rfl rfl rfl), hsize, hlt⟩

omit C in
theorem offers_entry (c : Context) (r : InstanceRef) : c.Offers (.state
    ((c.session.functions[r.function]?.getD default).instances[r.position]?.getD default).entry) := by
  cases hf : c.session.functions[r.function]? with
  | none => exact .inl ⟨le_refl _, by simp [show (default : Function).instances = #[] from rfl,
      show (default : Instance).entry = 0 from rfl]⟩
  | some f =>
    cases hi : f.instances[r.position]? with
    | none => exact .inl (by simp [hi, show (default : Instance).entry = 0 from rfl])
    | some inst =>
      exact .inr (.inr ⟨f, Array.mem_of_getElem? hf, inst, Array.mem_of_getElem? hi, by simp [hi]⟩)

theorem wireCall (r : InstanceRef) {call skip resume : Nat} {link : LinkId}
    (h : I ((H.await link).hold call) c) (hskip : skip ≤ c.draft.machine.size) (hpos : 1 ≤ resume)
    (hresume : resume ≤ c.draft.machine.size) :
    Ensures (wireCall r call link skip resume) c fun _ c' =>
      I H c' ∧ c.draft.machine.size ≤ c'.draft.machine.size := by
  simp only [Program.wireCall, Program.getInstance, Program.getFunction, Program.hasRoom,
    Program.relate, ensures_ops]
  intro room _
  have hres := C.resume (H := H.hold call) h hpos hresume
  exact ⟨C.goto hres (.split _ (offers_entry _ r) (.inl ⟨by omega, by exact_mod_cast hskip⟩)),
    by simp [addGoto_size]⟩

/-- What is left of a call when its handler has been elaborated. -/
theorem endHandler (r : InstanceRef) (h : I ((H.await link).hold call) c)
    (hskip : skip ≤ c.draft.machine.size) : Ensures (do
      let last ← Program.step
      Program.wireCall r call link skip (last + 1)) c fun _ c' =>
        I H c' ∧ c.draft.machine.size ≤ c'.draft.machine.size := by
  rw [ensures_bind]
  refine (C.step _ c h).mono ?_
  rintro last c₁ ⟨h₁, hsize₁⟩
  have hlast := C.lt_size h₁ last List.mem_cons_self
  refine (C.wireCall r (C.release h₁) (by omega) (by omega) hlast).mono ?_
  rintro _ c₂ ⟨h₂, hsize₂⟩
  exact ⟨h₂, by omega⟩

section

variable {run : List Command → ElabM Unit}
variable (hrun : ∀ body, Avoids bad body → Heeds I (run body))
include hrun

theorem finishCall (r : InstanceRef) (h : I ((H.await link).hold call) c) (hpos : 1 ≤ skip)
    (hskip : skip ≤ c.draft.machine.size) : Ensures (finishCall run r call link skip) c fun _ c' =>
      I H c' ∧ c.draft.machine.size ≤ c'.draft.machine.size := by
  rw [finishCall_eq, ensures_bind]
  refine (C.getFunction h r.function).mono ?_
  rintro f c₁ ⟨hf, hc⟩
  obtain rfl := hc
  cases hover : f.overflow with
  | none => exact C.wireCall r h hskip hpos hskip
  | some handler =>
    rw [ensures_bind]
    refine (hrun handler (hf.overflow handler hover) _ _ h).mono ?_
    rintro _ c₂ ⟨h₂, hsize₂⟩
    refine (C.endHandler r h₂ (by omega)).mono ?_
    rintro _ c₃ ⟨h₃, hsize₃⟩
    exact ⟨h₃, by omega⟩

/-- What is left of a first call when its body has been elaborated. -/
theorem endBody (r : InstanceRef) (call : Nat) (link : LinkId) :
    Hands I (fun H => (H.await link).hold call) (do
      let last ← Program.closeBody r
      Program.finishCall run r call link (last + 1)) fun _ => id := by
  intro H c h
  rw [ensures_bind]
  refine (C.closeBody r h).mono ?_
  rintro last c₁ ⟨h₁, hsize₁, hlast⟩
  refine (C.finishCall hrun r h₁ (by omega) hlast).mono ?_
  rintro _ c₂ ⟨h₂, hsize₂⟩
  exact ⟨h₂, by omega⟩

theorem callFirst (r : InstanceRef) (args : List Expr) : Heeds I (callFirst run r args) := by
  rw [callFirst_eq]
  refine .bind (C.openBody r args) ?_
  rintro ⟨call, link⟩ H c h
  rw [ensures_bind]
  refine (C.getFunction h r.function).mono ?_
  rintro f c₁ ⟨hf, hc⟩
  obtain rfl := hc
  exact Hands.bind (hrun f.body hf.body).under (fun _ => C.endBody hrun r call link) H _ h

theorem callExisting (r : InstanceRef) (args : List Expr) : Heeds I (callExisting run r args) := by
  refine .bind (C.pushCall r args) fun link => .bind (fun H c h => C.step (H.await link) c h)
    fun call H c h => ?_
  exact C.finishCall hrun r h (by omega) (C.lt_size h call List.mem_cons_self)

theorem callFunction (fn : Nat) (depth : Int) (args : List Expr) :
    Heeds I (callFunction run fn depth args) := by
  rw [callFunction_eq]
  refine .bind (C.passive (.chooseInstance fn depth args)) ?_
  rintro ⟨r, fresh⟩
  refine .ite (.bind (C.callFirst hrun r args) fun _ => ?_)
    (.bind (C.callExisting hrun r args) fun _ => ?_)
  all_goals exact C.passive (.bind (.getInstance r) fun inst => .pure _)

end

/-! ## Commands -/

section

variable {call : Caller} {x : Command}

theorem recordState {make : ElabM Nat} {Q : Hand → Hand} (hmake : Hands I P make fun _ => Q)
    (command : String) : Hands I P (recordState command make) fun _ => Q :=
  .bind hmake fun _ => (C.passive (.record command _)).under

theorem defineFunction {f : Function} (hf : f.Avoids bad)
    (hnone : f.instances = #[]) : Heeds I (defineFunction f) := by
  intro H c h
  simp only [Program.defineFunction, ensures_ops]
  exact ⟨C.aside (C.define h hf hnone) (.same rfl rfl rfl rfl rfl), le_refl _⟩

theorem newState (name : String) : Heeds I (perform call (.newState name)) := by
  intro H c h
  rw [perform, ensures_bind, ensures_getDraft]
  cases hn : c.draft.machine.newState name with
  | error e => exact C.passive (.record _ _) H c h
  | ok made =>
    obtain ⟨id, machine⟩ := made
    obtain ⟨-, rfl⟩ := newState_ok hn
    rw [ensures_bind, ensures_modifyMachine, ensures_record]
    exact ⟨C.aside (C.release (C.push h rfl)) (.same rfl rfl rfl rfl rfl), by simp [Machine.size]⟩

theorem callNamed (hcall : ∀ fn depth args, Heeds I (call fn depth args))
    (command name : String) (depth : Int) (args : List Script.Term) (result : Option String) :
    Heeds I (callNamed call command name depth args result) := by
  intro H c h
  rw [Program.callNamed, ensures_bind, ensures_get]
  split
  · simp
  · next fn _ =>
    refine Hands.bind (C.passive (.mapM (fun t => .resolve t) args)) (fun args => ?_) H c h
    exact .bind (hcall fn depth args) fun e => C.passive (.bind (.bindVar result e) fun _ =>
      .bind .getSymbols fun _ => .record _ _)

/-- Commands without a body of their own. -/
theorem simple (hcall : ∀ fn depth args, Heeds I (call fn depth args))
    (hraw : ∀ x, x.isRaw = true → Avoids bad [x] → Heeds I (perform call x)) :
    ∀ x : Command, Avoids bad [x] → x.isConstruct = false → Heeds I (perform call x)
  | .assign dest value, _, _ =>
    .bind (C.passive (.resolveSignal dest)) fun i => .bind (C.passive (.resolve value)) fun e =>
      C.emit _
  | .assignAt dest index value, _, _ =>
    .bind (C.passive (.resolveSignal dest)) fun i => .bind (C.passive (.resolve index)) fun j =>
      .bind (C.passive (.resolve value)) fun e => C.emit _
  | .step, _, _ => C.recordState C.stepOn "step"
  | .breakLoop, _, _ => C.recordState C.breakLoop "break"
  | .nextRound, _, _ => C.recordState C.nextRound "continue"
  | .terminate, _, _ =>
    C.recordState (C.jump (a := .state 0) fun _ => .inl ⟨le_refl _, Int.natCast_nonneg _⟩) "terminate"
  | .label name, _, _ => C.label name
  | .goto name, _, _ => C.recordState (C.jump (a := .named name) fun _ => trivial) "goto"
  | .define name depth returns overflow body, h, _ => by
    rw [perform]
    refine C.defineFunction ⟨h.within fun y hy => by simp [Command.within, hy], ?_⟩ rfl
    rintro handler rfl
    exact h.within fun y hy => by simp [Command.within, Command.withinHandler, hy]
  | .call fn args result, _, _ => C.callNamed hcall "call" fn 0 args result
  | .callDepth fn depth args result, _, _ => C.callNamed hcall "calld" fn depth args result
  | .ret value, _, _ => by
    rw [perform]
    refine .bind (C.passive (.resolve value)) fun e => C.recordState
      (.bind (C.passive .getDraft) fun d => ?_) "return"
    split
    · exact C.passive (.fail _)
    · exact fun H c h => (C.makeReturn _ _ h).mono fun _ _ h' => ⟨h'.1, h'.2.1⟩
  | .reg .., _, _ | .memory .., _, _ | .bind .., _, _ | .probe _, _, _ | .resize .., _, _ =>
    C.passive (.perform call rfl)
  | .newState name, _, _ => C.newState name
  | .stateBody .., h, _ | .stateGoto .., h, _ | .buildMachine, h, _ => hraw _ rfl h

theorem walk (hcall : ∀ fn depth args, Heeds I (call fn depth args))
    (hraw : ∀ x, x.isRaw = true → Avoids bad [x] → Heeds I (perform call x)) :
    Walk (ι := Unit) id id (fun _ _ x => Heeds I x) (fun _ x => Avoids bad [x]) call where
  pure _ := .pure () fun _ => rfl
  bind := .bind
  record _ _ _ := C.passive (.record _ _)
  bindVar _ _ _ := C.passive (.bindVar _ _)
  getSymbols _ := C.passive .getSymbols
  resolveSignal _ _ := C.passive (.resolveSignal _)
  exactNumber _ _ := C.passive (.exactNumber _)
  resolve _ _ := C.passive (.resolve _)
  ifThen test hbody := C.ifThen hbody test
  orElse hbody := C.orElse hbody
  loop test hbody := C.loop hbody test test none
  count limit hbody := C.count hbody limit
  choice _ hthn hels := choice_of_emit (P := fun _ x => Heeds I x) .bind (C.passive (.resolve _))
    (fun _ _ h => ensures_openBlock.mpr ⟨C.aside h (.same rfl rfl rfl rfl rfl), le_refl _⟩)
    (fun _ _ h => ensures_closeBlock.mpr ⟨C.aside h (.same rfl rfl rfl rfl rfl), le_refl _⟩) C.emit
    hthn hels
  simple h hx := C.simple hcall hraw _ h hx
  parts h y hy := h.within fun z hz => Command.within_of_parts hy
    (by simpa [Command.withinAll] using hz)

theorem performAll (hcall : ∀ fn depth args, Heeds I (call fn depth args))
    (hraw : ∀ x, x.isRaw = true → Avoids bad [x] → Heeds I (perform call x)) (body : List Command)
    (h : Avoids bad body) : Heeds I (performAll call body) :=
  (C.walk hcall hraw).performAll () body fun x hx => h.of_subset fun y hy =>
    Command.mem_withinAll hx (by simpa [Command.withinAll] using hy)

end

/-- Whatever the budget of nested calls is. -/
theorem callWithin
    (hraw : ∀ n x, x.isRaw = true → Avoids bad [x] → Heeds I (perform (callWithin n) x)) (n : Nat) :
    ∀ fn depth args, Heeds I (callWithin n fn depth args) := by
  induction n with
  | zero => exact fun _ _ _ _ _ _ => by simp [Program.callWithin]
  | succ n ih =>
    exact fun fn depth args => C.callFunction (fun body hbody => C.performAll ih (hraw n) body hbody)
      fn depth args

end Custody

end Program

end Lockstep
