import Lockstep.Proofs.Program.Course
import Lockstep.Proofs.Program.Discipline

/-!
# No statement is lost when states are cut

Statements wait in a draft until a construct cuts them into a state. The text of a draft is what has
been cut, state by state, followed by what waits. Every step of an elaboration adds to the end of
the text just what it emits: a cut moves what waits into a state, and no statement is taken out,
moved to another place or added to a state that was there before. Inside a conditional statement the
same holds of the block that is open. A program may also put statements into a state by hand; they
come after what was cut into it.
-/

namespace Lockstep

/-- The bodies of the states, in the order of the states. -/
def Machine.bodies (f : Machine) : List (List Statement) := f.states.toList.map State.body

theorem Machine.bodies_build (f : Machine) (m : Module) : (f.build m).2.1.bodies = f.bodies := by
  unfold build
  split
  · rfl
  · dsimp only
    split <;> rfl

theorem Machine.bodies_addBody (f : Machine) (id : Int) (body : List Statement) :
    (f.addBody id body).bodies =
      f.bodies.mapIdx fun k ss => ss ++ if id = (k : Nat) then body else [] := by
  apply List.ext_getElem?
  intro k
  unfold addBody modifyState
  simp only [bodies, List.getElem?_mapIdx, List.getElem?_map, Array.getElem?_toList]
  split
  · next hsome =>
    have hid : 0 ≤ id := by
      by_contra hneg
      simp [state?, Int.not_le.mp hneg] at hsome
    rw [Array.getElem?_modify]
    by_cases hk : id = (k : Nat)
    · simp only [hk, Int.toNat_natCast, if_true]
      cases f.states[k]? <;> rfl
    · rw [if_neg (by omega)]
      simp [hk, Function.comp_def]
  · next hnone =>
    have hk (hlt : k < f.states.size) : id ≠ (k : Nat) := by
      rintro rfl
      exact hnone (by simp [state?, hlt])
    by_cases hlt : k < f.states.size
    · simp [hlt, hk hlt]
    · simp [hlt]

theorem Machine.bodies_addGoto (f : Machine) (k : Int) (t : Transition Expr) :
    (f.addGoto k t).bodies = f.bodies := by
  unfold addGoto modifyState
  split
  · apply List.ext_getElem?
    intro j
    simp only [bodies, List.getElem?_map, Array.getElem?_toList, Array.getElem?_modify]
    split
    · cases f.states[j]? <;> rfl
    · rfl
  · rfl

namespace Program

open Script (Term)

/-! ## The text of a draft -/

/-- What has been cut into states, and what waits. -/
def Draft.text (d : Draft) : List Statement := d.machine.bodies.flatten ++ d.blocks.outer

/-- The statements `ss` have been added at the end of the text, or of the innermost open block, and
the states that were there have kept their bodies. -/
structure Appends (d d' : Draft) (ss : List Statement) : Prop where
  bodies : d.machine.bodies <+: d'.machine.bodies
  outer : d.blocks.inner = [] → d'.blocks.inner = [] ∧ d'.text = d.text ++ ss
  inner : ∀ block rest, d.blocks.inner = block :: rest →
    d'.blocks.inner = (block ++ ss) :: rest ∧ d'.text = d.text

namespace Appends

variable {d d' d'' : Draft} {ss ts : List Statement}

/-- Nothing is added while blocks and bodies stay the same. -/
theorem of_eq (hblocks : d'.blocks = d.blocks)
    (hbodies : d'.machine.bodies = d.machine.bodies) : Appends d d' [] := by
  have htext : d'.text = d.text := by rw [Draft.text, Draft.text, hblocks, hbodies]
  constructor
  · rw [hbodies]
  · rw [hblocks, htext]
    simp
  · rw [hblocks, htext]
    simp

theorem trans (h : Appends d d' ss) (h' : Appends d' d'' ts) : Appends d d'' (ss ++ ts) := by
  constructor
  · exact h.bodies.trans h'.bodies
  · intro hd
    obtain ⟨hd', ht'⟩ := h.outer hd
    obtain ⟨hd'', ht''⟩ := h'.outer hd'
    exact ⟨hd'', by rw [ht'', ht', List.append_assoc]⟩
  · intro block rest hd
    obtain ⟨hd', ht'⟩ := h.inner block rest hd
    obtain ⟨hd'', ht''⟩ := h'.inner _ rest hd'
    exact ⟨by rw [hd'', List.append_assoc], ht''.trans ht'⟩

theorem emit (d : Draft) (st : Statement) :
    Appends d { d with blocks := d.blocks.emit st } [st] := by
  refine ⟨List.prefix_rfl, fun hd => ?_, fun block rest hd => ?_⟩
  · simp [Draft.text, Blocks.emit, hd]
  · simp [Draft.text, Blocks.emit, hd]

/-- A state that is declared has an empty body. -/
theorem newState (d : Draft) (name : String) : Appends d { d with machine := { d.machine with
    states := d.machine.states.push { name } } } [] := by
  have hbodies : Machine.bodies { d.machine with states := d.machine.states.push { name } } =
      d.machine.bodies ++ [[]] := by simp [Machine.bodies]
  refine ⟨by rw [hbodies]; exact List.prefix_append _ _, fun hd => ⟨hd, ?_⟩, fun block rest hd => ?_⟩
  · simp [Draft.text, hbodies]
  · simp [Draft.text, hbodies, hd]

/-- A cut moves what waits into a new state. -/
theorem cut (hd : d.blocks.depth = 0) : Appends d d.cut [] := by
  have hinner : d.blocks.inner = [] := List.length_eq_zero_iff.mp hd
  refine ⟨?_, fun _ => ⟨hinner, ?_⟩, fun block rest h => by simp [hinner] at h⟩
  · simp [Machine.bodies, Draft.cut]
  · simp [Draft.text, Machine.bodies, Draft.cut]

/-- A statement that is added to the state of a cut comes after what waited. -/
theorem cut_addBody (hd : d.blocks.depth = 0) (st : Statement) :
    Appends d { d.cut with machine := d.cut.machine.addBody d.machine.size [st] } [st] := by
  have hinner : d.blocks.inner = [] := List.length_eq_zero_iff.mp hd
  have hmodify := modify_push_size d.machine.states { name := d.label, body := d.blocks.outer }
    fun s => { s with body := s.body ++ [st] }
  have hadd : (d.cut.machine.addBody d.machine.size [st]).bodies =
      d.machine.bodies ++ [d.blocks.outer ++ [st]] := by
    simp [Draft.cut, Machine.addBody, Machine.modifyState, Machine.state?, Machine.size,
      Machine.bodies, hmodify]
  refine ⟨?_, fun _ => ⟨hinner, ?_⟩, fun block rest h => by simp [hinner] at h⟩
  · rw [hadd]
    exact List.prefix_append _ _
  · simp only [Draft.text, hadd]
    simp [Draft.cut]

end Appends

/-! ## What a step adds -/

theorem ensures_resolving_draft {α : Type}
    (f : Script.Scope → Option Script.Focus → Script.Resolve α) (c : Context) :
    Ensures (resolving f) c fun _ c' => c'.draft = c.draft := by
  simp only [resolving, ensures_ops]
  split <;> simp

/-- The step adds the statements `ss`, wherever it is taken. -/
def Emits {α : Type} (x : ElabM α) (ss : List Statement) : Prop :=
  ∀ c, Ensures x c fun _ c' => Appends c.draft c'.draft ss

namespace Emits

variable {α β : Type} {ss : List Statement}

theorem lead {x : ElabM α} {f : α → ElabM β} (hx : Emits x []) (hf : ∀ a, Emits (f a) ss) :
    Emits (x >>= f) ss := fun c => ensures_bind.mpr ((hx c).mono fun a c₁ h₁ =>
  (hf a c₁).mono fun _ _ h₂ => h₁.trans h₂)

theorem of_draft {x : ElabM α} (h : ∀ c, Ensures x c fun _ c' => c'.draft = c.draft) : Emits x [] :=
  fun c => (h c).mono fun _ _ hd => .of_eq (by rw [hd]) (by rw [hd])

theorem of_reads {x : ElabM α} (hx : Reads x) : Emits x [] := .of_draft fun c a c' hrun => by
  have hc := hx c
  rw [hrun] at hc
  rw [show c' = c from hc]

theorem passive {x : ElabM α} (hx : Passive x) : Emits x [] := fun c =>
  (hx c).mono fun _ _ h => .of_eq h.blocks (by rw [Machine.bodies, h.states]; rfl)

theorem pure (a : α) : Emits (pure a) [] := .of_reads (.pure a)

theorem fail (e : Error) : Emits (fail (α := α) e) ss := fun _ => by simp

theorem ite {p : Prop} [Decidable p] {x y : ElabM α} (hx : Emits x ss) (hy : Emits y ss) :
    Emits (if p then x else y) ss := by
  split
  · exact hx
  · exact hy

theorem forM {f : α → ElabM Unit} (hf : ∀ a, Emits (f a) []) : ∀ xs : List α, Emits (xs.forM f) []
  | [] => .pure ()
  | x :: xs => .lead (hf x) fun _ => forM hf xs

theorem modifySession (f : Session → Session) : Emits (modifySession f) [] :=
  .of_draft fun _ => ensures_modifySession.mpr rfl

theorem modifyModule (f : Module → Module) : Emits (modifyModule f) [] :=
  .of_draft fun _ => ensures_modifyModule.mpr rfl

theorem modifyScope (f : Script.Scope → Script.Scope) : Emits (modifyScope f) [] :=
  .of_draft fun _ => ensures_modifyScope.mpr rfl

theorem modifyInstance (r : InstanceRef) (f : Instance → Instance) : Emits (modifyInstance r f) [] := by
  unfold Program.modifyInstance modifyFunction
  exact .modifySession _

/-- A change of the draft that leaves blocks and bodies alone. -/
theorem modifyDraft {f : Draft → Draft} (hblocks : ∀ d, (f d).blocks = d.blocks)
    (hbodies : ∀ d, (f d).machine.bodies = d.machine.bodies) : Emits (modifyDraft f) [] :=
  fun c => ensures_modifyDraft.mpr (.of_eq (hblocks c.draft) (hbodies c.draft))

theorem addGoto (k : Nat) (t : Transition Expr) : Emits (addGoto k t) [] :=
  .modifyDraft (f := fun d => { d with machine := d.machine.addGoto k t }) (fun _ => rfl)
    fun d => d.machine.bodies_addGoto k t

theorem note (place message : String) : Emits (note place message) [] :=
  .of_draft fun _ => ensures_note.mpr rfl

theorem resolving (f : Script.Scope → Option Script.Focus → Script.Resolve α) :
    Emits (resolving f) [] := .of_draft (ensures_resolving_draft f)

theorem buildDraft : Emits buildDraft [] := fun c => by
  simp only [Program.buildDraft, ensures_ops]
  exact .of_eq rfl (Machine.bodies_build _ _)

theorem step : Emits step [] := fun _ => .step fun _ hd => .cut hd

theorem stepIfWaiting : Emits stepIfWaiting [] :=
  .lead (.of_reads .getDraft) fun _ => .ite (.lead .step fun _ => .pure _) (.pure _)

theorem enterBody (r : InstanceRef) (call : Nat) : Emits (enterBody r call) [] :=
  .lead (.modifyInstance r _) fun _ => .lead (.modifyDraft (fun _ => rfl) fun _ => rfl) fun _ =>
    .lead (.modifyDraft (fun _ => rfl) fun _ => rfl) fun _ => .lead (.passive (.getInstance r)) fun _ =>
      .modifyScope _

theorem leaveBody : Emits leaveBody [] := .modifyDraft (fun _ => rfl) fun _ => rfl

theorem finishProgram : Emits finishProgram [] := by
  refine .lead (.of_reads .getDraft) fun d => .lead (.forM (fun p => .modifySession _) _) fun _ => ?_
  refine .lead .buildDraft fun e => ?_
  cases e with
  | some e => exact .fail _
  | none => exact .lead (.of_reads .getDraft) fun d => .lead (.of_reads .getSymbols) fun g => .note _ _

end Emits

/-! ## Statements added by hand -/

/-- The statements that are put by hand into state `k`, if it is there. -/
def Point.patch (k : Nat) (p : Point) : List Statement :=
  match p.event with
  | .performs _ (.stateBody id body) =>
    if id = k ∧ k < p.context.draft.machine.size then
      match (resolving fun sc focus => Script.resolveBlock sc focus body).run p.context with
      | .ok ss _ => ss
      | .error .. => []
    else []
  | _ => []

def patched (k : Nat) (t : List Point) : List Statement := t.flatMap (Point.patch k)

theorem patched_append (k : Nat) (t u : List Point) :
    patched k (t ++ u) = patched k t ++ patched k u := List.flatMap_append

/-- The states hold `cuts`, each followed by what was added to it by hand. -/
structure Draft.Holds (d : Draft) (cuts : List (List Statement)) (extra : Nat → List Statement) :
    Prop where
  bodies : d.machine.bodies = cuts.mapIdx fun k ss => ss ++ extra k
  beyond : ∀ k, cuts.length ≤ k → extra k = []

/-- The statements `ss` have been emitted, and the statements `extra` were added by hand. -/
structure Gains (d d' : Draft) (ss : List Statement) (extra : Nat → List Statement) : Prop where
  outer : d.blocks.inner = [] → d'.blocks.inner = []
  inner : ∀ block rest, d.blocks.inner = block :: rest → d'.blocks.inner = (block ++ ss) :: rest
  cuts : ∀ cuts had, d.Holds cuts had → ∃ more,
    d'.Holds (cuts ++ more) (fun k => had k ++ extra k) ∧
      more.flatten ++ d'.blocks.outer = d.blocks.outer ++ if d.blocks.depth = 0 then ss else []

namespace Gains

variable {d d' d'' : Draft} {ss ts : List Statement} {extra extra' : Nat → List Statement}

theorem of_appends (h : Appends d d' ss) : Gains d d' ss fun _ => [] := by
  refine ⟨fun hd => (h.outer hd).1, fun block rest hd => (h.inner block rest hd).1, ?_⟩
  intro cuts had hd
  obtain ⟨more, hmore⟩ := h.bodies
  refine ⟨more, ⟨?_, fun k hk => ?_⟩, ?_⟩
  · have hnone : more.mapIdx (fun k ss => ss ++ had (k + cuts.length)) = more := by
      apply List.ext_getElem?
      intro k
      cases hk : more[k]? <;> simp [hk, hd.beyond (k + cuts.length) (by omega)]
    rw [← hmore, hd.bodies, List.mapIdx_append]
    simp [hnone]
  · rw [hd.beyond k (by simp only [List.length_append] at hk; omega), List.append_nil]
  · have htext : d'.text = d.text ++ if d.blocks.depth = 0 then ss else [] := by
      cases hinner : d.blocks.inner with
      | nil => simpa [Blocks.depth, hinner] using (h.outer hinner).2
      | cons block rest => simpa [Blocks.depth, hinner] using (h.inner block rest hinner).2
    simpa [Draft.text, ← hmore] using htext

theorem depth (h : Gains d d' ss extra) : d'.blocks.depth = d.blocks.depth := by
  unfold Blocks.depth
  cases hd : d.blocks.inner with
  | nil => rw [h.outer hd]
  | cons block rest => rw [h.inner block rest hd]; rfl

theorem trans (h : Gains d d' ss extra) (h' : Gains d' d'' ts extra') :
    Gains d d'' (ss ++ ts) fun k => extra k ++ extra' k := by
  refine ⟨fun hd => h'.outer (h.outer hd), fun block rest hd => ?_, fun cuts had hd => ?_⟩
  · rw [h'.inner _ rest (h.inner block rest hd), List.append_assoc]
  · obtain ⟨more, hholds, houter⟩ := h.cuts cuts had hd
    obtain ⟨more', hholds', houter'⟩ := h'.cuts _ _ hholds
    refine ⟨more ++ more', ?_, ?_⟩
    · simpa only [List.append_assoc] using hholds'
    · rw [List.flatten_append, List.append_assoc, houter', ← List.append_assoc, houter, h.depth]
      split <;> simp

/-- A block that is opened and closed again holds what was emitted in between. -/
theorem block (h : Gains { d with blocks := d.blocks.enter } d' ss extra) :
    d'.blocks.leave.1 = ss ∧ Gains d { d' with blocks := d'.blocks.leave.2 } [] extra := by
  have hinner := h.inner [] d.blocks.inner rfl
  have hleave : d'.blocks.leave = (ss, { d'.blocks with inner := d.blocks.inner }) := by
    simp [Blocks.leave, hinner]
  rw [hleave]
  refine ⟨rfl, fun hd => hd, fun block rest hd => by rw [List.append_nil]; exact hd, ?_⟩
  intro cuts had hd
  obtain ⟨more, hholds, houter⟩ := h.cuts cuts had ⟨hd.bodies, hd.beyond⟩
  refine ⟨more, ⟨hholds.bodies, hholds.beyond⟩, ?_⟩
  rw [ite_self]
  simpa [Blocks.depth, Blocks.enter] using houter

/-- Statements are added to a state that is there. -/
theorem patch (d : Draft) (id : Int) (body : List Statement) :
    Gains d { d with machine := d.machine.addBody id body } [] fun k =>
      if id = k ∧ k < d.machine.size then body else [] := by
  refine ⟨fun hd => hd, fun block rest hd => by rw [List.append_nil]; exact hd, ?_⟩
  intro cuts had hd
  have hsize : d.machine.size = cuts.length := by
    simpa [Machine.bodies, Machine.size] using congrArg List.length hd.bodies
  refine ⟨[], ⟨?_, fun k hk => ?_⟩, by simp⟩
  · rw [Machine.bodies_addBody, hd.bodies]
    apply List.ext_getElem?
    intro k
    rcases Nat.lt_or_ge k cuts.length with hlt | hge
    · simp [hlt, hsize]
    · simp [hge]
  · rw [List.append_nil] at hk
    rw [hd.beyond k hk, if_neg (by omega)]
    rfl

end Gains

/-! ## What an elaboration adds -/

/-- What a step adds is what is emitted at its points, and what is added by hand there. Points of
blocks further out are not passed. -/
def Pours : Judgement := fun _ x c t =>
  (Ensures x c fun _ c' =>
    Gains c.draft c'.draft (emitted c.draft.blocks.depth t) (patched · t)) ∧
    ∀ d < c.draft.blocks.depth, emitted d t = []

theorem emitted_one (d : Nat) (c : Context) (st : Statement) :
    emitted d [⟨.emits st, c⟩] = if c.draft.blocks.depth = d then [st] else [] := by
  by_cases hd : c.draft.blocks.depth = d <;> simp [emitted, Point.emission, hd]

namespace Pours

variable {α β : Type} {c : Context} {t u : List Point}

theorem of_emits {x : ElabM α} (hx : Emits x []) (c : Context) : Pours α x c [] :=
  ⟨(hx c).mono fun _ _ h => .of_appends h, fun _ _ => rfl⟩

/-- Points where nothing is emitted or added. -/
theorem silent {x : ElabM α} (ht : ∀ d, emitted d t = []) (hp : ∀ k, patched k t = [])
    (hu : Pours α x c u) : Pours α x c (t ++ u) := by
  unfold Pours
  simp only [emitted_append, patched_append, ht, hp, List.nil_append]
  exact hu

/-- A step that emits one statement. -/
theorem of_ensures {x : ElabM α} {st : Statement}
    (hx : Ensures x c fun _ c' => Appends c.draft c'.draft [st]) : Pours α x c [⟨.emits st, c⟩] := by
  unfold Pours
  simp only [emitted_one, if_true]
  exact ⟨hx.mono fun _ _ h => .of_appends h, fun d hd => if_neg (by omega)⟩

theorem bind {x : ElabM α} {f : α → ElabM β} {u : α → Context → List Point} (hx : Pours α x c t)
    (hf : ∀ a c', x.run c = .ok a c' → Pours β (f a) c' (u a c')) :
    Pours β (x >>= f) c (t ++ onward x c u) := by
  obtain ⟨hadd, hout⟩ := hx
  constructor
  · rw [ensures_bind]
    intro a c' hrun
    have hd := (hadd a c' hrun).depth
    simp only [onward_of_run hrun, emitted_append, patched_append]
    exact (hf a c' hrun).1.mono fun _ _ h => (hadd a c' hrun).trans (hd ▸ h)
  · intro d hd
    rw [emitted_append, hout d hd, List.nil_append]
    unfold onward
    split
    · next a c' hrun => exact (hf a c' hrun).2 d (by rwa [(hadd a c' hrun).depth])
    · rfl

theorem popState (inst : Instance) (c : Context) :
    Pours Nat (popState inst) c [⟨.emits inst.pop, c⟩] := by
  have happ : Ensures (Program.popState inst) c fun _ c' => Appends c.draft c'.draft [inst.pop] := by
    rw [Program.popState, ensures_bind]
    refine .step fun f hd => ?_
    simp only [ensures_ops]
    exact (Appends.cut_addBody hd inst.pop).trans (.of_eq rfl (Machine.bodies_addGoto _ _ _))
  exact of_ensures happ

/-- A branch of a conditional, in a block of its own. -/
theorem block {x : ElabM Unit} {told : Context → List Point} (hx : ∀ c, Pours Unit x c (told c))
    (c₁ : Context) (hc₁ : c₁ = { c with draft := { c.draft with blocks := c.draft.blocks.enter } }) :
    (Ensures x c₁ fun _ c₂ =>
      c₂.draft.blocks.leave.1 = emitted (c.draft.blocks.depth + 1) (told c₁) ∧
        Gains c.draft { c₂.draft with blocks := c₂.draft.blocks.leave.2 } [] (patched · (told c₁))) ∧
      ∀ d ≤ c.draft.blocks.depth, emitted d (told c₁) = [] := by
  have hdepth : c₁.draft.blocks.depth = c.draft.blocks.depth + 1 := by rw [hc₁]; rfl
  obtain ⟨hadd, hout⟩ := hx c₁
  refine ⟨hadd.mono fun _ c₂ h => ?_, fun d hd => hout d (by omega)⟩
  rw [hdepth, hc₁] at h
  rw [hc₁]
  exact h.block

theorem branch (test : Expr) {thn els : ElabM Unit} {thnTold elsTold : Context → List Point}
    (hthn : ∀ c, Pours Unit thn c (thnTold c)) (hels : ∀ c, Pours Unit els c (elsTold c))
    (c : Context) : Pours Unit (do
      openBlock
      thn
      let thn ← closeBlock
      openBlock
      els
      let els ← closeBlock
      Program.emit (.cond test thn els)) c (branchPoints test thn els thnTold elsTold c) := by
  let c₁ : Context := { c with draft := { c.draft with blocks := c.draft.blocks.enter } }
  have hpoints : branchPoints test thn els thnTold elsTold c = thnTold c₁ ++ onward thn c₁ _ := rfl
  obtain ⟨hadd₁, hnone₁⟩ := block hthn c₁ rfl
  unfold Pours
  simp only [hpoints, ensures_bind, ensures_openBlock, emitted_append, patched_append]
  cases hrun₁ : thn.run c₁ with
  | error e c₂ =>
    have hnil : ∀ k, onward thn c₁ k = [] := fun k => by simp [onward, hrun₁]
    refine ⟨fun u c₂ h => absurd (hrun₁.symm.trans h) (by simp), fun d hd => ?_⟩
    rw [hnil, hnone₁ d (by omega)]
    rfl
  | ok u c₂ =>
    obtain ⟨hblock₁, happ₁⟩ := hadd₁ u c₂ hrun₁
    let cm : Context := { c₂ with draft := { c₂.draft with blocks := c₂.draft.blocks.leave.2 } }
    let c₃ : Context := { cm with draft := { cm.draft with blocks := cm.draft.blocks.enter } }
    have hmid : cm.draft.blocks.depth = c.draft.blocks.depth := happ₁.depth
    have hnext : ∀ k, onward (do let _ ← closeBlock; openBlock) c₂ k = k () c₃ := fun _ => rfl
    obtain ⟨hadd₂, hnone₂⟩ := block hels c₃ rfl
    rw [hmid] at hadd₂ hnone₂
    rw [ensures_of_run hrun₁]
    simp only [ensures_closeBlock, onward_of_run hrun₁, hnext, emitted_append, patched_append]
    cases hrun₂ : els.run c₃ with
    | error e c₄ =>
      have hnil : ∀ k, onward els c₃ k = [] := fun k => by simp [onward, hrun₂]
      refine ⟨fun v c₄ h => absurd (hrun₂.symm.trans h) (by simp), fun d hd => ?_⟩
      rw [hnil, hnone₁ d (by omega), hnone₂ d (by omega)]
      rfl
    | ok v c₄ =>
      obtain ⟨hblock₂, happ₂⟩ := hadd₂ v c₄ hrun₂
      let c₅ : Context := { c₄ with draft := { c₄.draft with blocks := c₄.draft.blocks.leave.2 } }
      have hend : c₅.draft.blocks.depth = c.draft.blocks.depth := (happ₁.trans happ₂).depth
      have hlast : ∀ k, onward closeBlock c₄ k = k c₄.draft.blocks.leave.1 c₅ := fun _ => rfl
      have hone (d : Nat) (st : Statement) :
          emitted d [⟨.emits st, c₅⟩] = if c.draft.blocks.depth = d then [st] else [] :=
        hend ▸ emitted_one d c₅ st
      have hpatch (k : Nat) (st : Statement) : patched k [⟨.emits st, c₅⟩] = [] := rfl
      rw [ensures_of_run hrun₂]
      simp only [ensures_emit, onward_of_run hrun₂, hlast, hone, hpatch]
      refine ⟨?_, fun d hd => ?_⟩
      · rw [hnone₁ _ (Nat.le_refl _), hnone₂ _ (Nat.le_refl _), if_pos trivial, hblock₁, hblock₂]
        have hall (st : Statement) := (happ₁.trans happ₂).trans (.of_appends (.emit c₅.draft st))
        simp only [List.append_assoc] at hall
        exact hall _
      · rw [hnone₁ d (by omega), hnone₂ d (by omega), if_neg (by omega)]
        rfl

theorem alter {n : Nat} {x : Command} (hx : x.alters = true) (c : Context) :
    Pours Unit (perform (callWithin n) x) c [⟨.performs n x, c⟩] := by
  have hsilent (hx : Emits (perform (callWithin n) x) [])
      (hp : ∀ k, Point.patch k ⟨.performs n x, c⟩ = []) :
      Pours Unit (perform (callWithin n) x) c [⟨.performs n x, c⟩] :=
    .silent (t := [_]) (fun _ => rfl) (fun k => by simp [patched, hp]) (.of_emits hx c)
  cases x with
  | define =>
    refine hsilent (.lead (.of_reads fun _ => rfl) fun _ => .lead (.modifySession _) fun _ => ?_)
      fun _ => rfl
    exact .modifyDraft (fun _ => rfl) fun _ => rfl
  | resize name t =>
    refine hsilent (.lead (.resolving _) fun i => ?_) fun _ => rfl
    exact .lead (.of_reads .getSymbols) fun g => .lead (.of_reads (.require _)) fun _ =>
      .modifySession _
  | stateBody id body =>
    refine ⟨?_, fun _ _ => rfl⟩
    rw [perform, ensures_bind]
    intro ss c₁ hrun
    have hdraft : c₁.draft = c.draft := ensures_resolving_draft _ c ss c₁ hrun
    have hpatch (k : Nat) : patched k [⟨.performs n (.stateBody id body), c⟩] =
        if id = k ∧ k < c.draft.machine.size then ss else [] := by
      simp [patched, Point.patch, hrun]
    simp only [ensures_modifyMachine, hpatch, hdraft]
    exact .patch c.draft id ss
  | stateGoto k t =>
    refine hsilent (.lead (.resolving _) fun t => ?_) fun _ => rfl
    exact .modifyDraft (f := fun d => { d with machine := d.machine.addGoto k t }) (fun _ => rfl)
      fun d => d.machine.bodies_addGoto k t
  | newState name =>
    refine hsilent (fun c => ?_) fun _ => rfl
    simp only [Program.perform, ensures_ops]
    split
    · next id f hnew =>
      obtain ⟨rfl, rfl⟩ := newState_ok hnew
      simp only [ensures_ops, ensures_record]
      exact .newState _ name
    · exact ensures_record.mpr (.of_eq rfl rfl)
  | buildMachine => exact hsilent (.lead .buildDraft fun e => .modifySession _) fun _ => rfl
  | _ => cases hx

theorem steps : Steps Pours where
  bind := .bind
  reads hx c := .of_emits (.of_reads hx) c
  step c := .of_emits .step c
  fail _ c := .of_emits (.fail _) c
  record _ _ c := .of_emits (.modifySession _) c
  scope _ c := .of_emits (.modifyScope _) c
  expand {_ c} _ := .of_emits (.modifyModule _) c
  frame {f} hf c := .of_emits (.modifyDraft (fun d => by obtain ⟨_, _, hd⟩ := hf d; rw [hd])
    fun d => by obtain ⟨_, _, hd⟩ := hf d; rw [hd]) c
  addGoto k t c := .of_emits (.addGoto k t) c
  emit st c := .of_ensures (ensures_emit.mpr (.emit c.draft st))
  branch := .branch
  resolveReturn v _ := .silent (t := [_]) (fun _ => rfl) (fun _ => rfl)
    (.of_emits (.passive (.resolveReturn _ v)) _)
  popState := .popState

theorem resume (link : LinkId) (resume : Nat) (c : Context) (_ : True) : Pours Unit
    (modifyDraft fun d => { d with resumes := d.resumes ++ [(link, resume)] }) c [] :=
  .of_emits (fun _ => ensures_modifyDraft.mpr (.of_eq rfl rfl)) c

theorem account : Account Pours where
  toSteps := steps
  endless c := .silent (t := [_]) (fun _ => rfl) (fun _ => rfl) (.of_emits (fun _ => by simp) c)
  sizeStack depth _ := .silent (t := [_]) (fun _ => rfl) (fun _ => rfl)
    (.of_emits (.passive (.sizeStack _ depth)) _)
  existing hrun r args c := steps.callExisting (P := fun _ => True) (fun _ b c _ => hrun b c)
    resume fun _ _ _ => trivial
  missing depth hrun _ _ := steps.callMissing (P := fun _ => True) (fun _ b c _ => hrun b c)
    resume hrun
    (.silent (t := [_]) (fun _ => rfl) (fun _ => rfl) (.of_emits (.passive (.instantiate _ _)) _))
    (fun _ _ _ _ _ _ => trivial)
    (fun _ _ _ _ _ c _ _ _ => .silent (t := [_]) (fun _ => rfl) (fun _ => rfl)
      (.of_emits (.enterBody _ _) c))
    (fun _ c => .silent (t := [_]) (fun _ => rfl) (fun _ => rfl) (.of_emits .leaveBody c)) depth
  parts _ _ _ := trivial
  ordinary {_ x _ _} _ hx h := .silent (t := [_]) (fun _ => rfl)
    (fun k => by cases x <;> first | rfl | cases hx) h
  alter _ := .alter

end Pours

/-! ## Whole programs -/

theorem ensures_elaborate {s : Session} {opts : Options} {body : List Command} :
    Ensures (elaborate opts body) (draft s opts) fun q _ => ∃ cuts : List (List Statement),
      cuts.flatten = emitted 0 (course s opts body) ∧ cuts.head? = some [] ∧
        q.machine.bodies = cuts.mapIdx fun k ss => ss ++ patched k (course s opts body) := by
  rw [elaborate, prepare]
  simp only [ensures_ops]
  -- the end state is there before the first command
  intro _ c₁ hbegin
  obtain ⟨-, -, -, sts, clear, fault, -, -, hc₁⟩ := Ensures.beginProgram opts.start () c₁ hbegin
  have hblocks : c₁.draft.blocks = {} := by rw [hc₁]; rfl
  have hbodies : c₁.draft.machine.bodies = [[]] := by rw [hc₁]; rfl
  have hpoints : course s opts body = pointsOf opts.budget body c₁ := onward_of_run hbegin
  rw [hpoints]
  refine (Pours.account.pointsOf opts.budget body c₁).1.mono fun _ c₂ h₂ => ?_
  refine ((Emits.stepIfWaiting c₂).and (ensures_stepIfWaiting c₂)).mono ?_
  rintro _ c₃ ⟨h₃, houter, -, -⟩
  refine (Emits.passive .settleReturns c₃).mono fun _ c₄ h₄ => ?_
  refine (Emits.finishProgram c₄).mono fun _ c₅ h₅ => ?_
  -- nothing waits once the program is over, so no statement is left out
  obtain ⟨more, hholds, htext⟩ := (h₂.trans (.of_appends h₃)).cuts [[]] (fun _ => [])
    ⟨hbodies, fun _ _ => rfl⟩
  obtain ⟨rest, hholds', htext'⟩ := (Gains.of_appends (h₄.trans h₅)).cuts _ _ hholds
  have hmore : more.flatten = emitted 0 (pointsOf opts.budget body c₁) := by
    simpa [houter, hblocks, Blocks.depth] using htext
  have hrest : rest.flatten ++ c₅.draft.blocks.outer = [] := by
    rw [htext', houter]
    simp
  refine ⟨[[]] ++ more ++ rest, ?_, rfl, ?_⟩
  · simp [hmore, (List.append_eq_nil_iff.mp hrest).1]
  · simpa using hholds'.bodies

/-- The states hold the statements that were emitted, one after the other in the order in which they
were emitted, each state followed by what was added to it by hand. The end state has no statements
but those. -/
theorem build_bodies {s s' : Session} {opts : Options} {body : List Command} {q : Sequencer}
    (hbuild : build s opts body = (.ok q, s')) : (∃ cuts : List (List Statement),
      cuts.flatten = emitted 0 (course s opts body) ∧ cuts.head? = some [] ∧
        q.machine.bodies = cuts.mapIdx fun k ss => ss ++ patched k (course s opts body)) ∧
      ((∀ k, patched k (course s opts body) = []) →
        q.machine.bodies.flatten = emitted 0 (course s opts body) ∧
          q.machine.bodies.head? = some []) := by
  unfold build at hbuild
  split at hbuild
  · next q' c' hrun =>
    obtain rfl := Except.ok.inj (Prod.mk.inj hbuild).1
    obtain ⟨cuts, hflat, hend, hbodies⟩ := ensures_elaborate q' c' hrun
    refine ⟨⟨cuts, hflat, hend, hbodies⟩, fun hnone => ?_⟩
    have hsame : q'.machine.bodies = cuts := by
      rw [hbodies]
      apply List.ext_getElem?
      intro k
      cases hk : cuts[k]? <;> simp [hk, hnone]
    exact ⟨hsame ▸ hflat, hsame ▸ hend⟩
  · simp at hbuild

/-- Counts rounds, adds up the numbers from four down, and clears the sum when the stack is full. -/
def roundsBody : List Command :=
  [.define "sum" 4 none (some [.assign "acc" (.number 0 8)])
    [.ifThen (.relate .gt (.arg 0) (.number 0 8))
      [.assign "acc" (.bin .add (.signal "acc") (.arg 0)),
       .call "sum" [.bin .sub (.arg 0) (.number 1 8)] none]],
   .times 2 (some "i")
    [.when (.relate .gt (.signal "acc") (.number 9 8))
      [.assign "acc" (.number 0 8)] [.assign "acc" (.var "i")],
     .step],
   .label "sums",
   .call "sum" [.number 4 8] none]

/-- The index is cleared and advanced; the argument is pushed by two calls and popped by the return;
and the handler of each call clears the sum. -/
def roundsLines : List (List String) :=
  [[], ["i <= 2'd0"], ["if (acc > 8'd9)", "  acc <= 8'd0", "else", "  acc <= i"],
   ["i <= (i + 2'd1)"],
   ["if (sum_sp < sum_depth)", "  sum_arg0[sum_sp] <= 8'd4", "  sum_ret_addr[sum_sp] <= 4'd13",
    "  sum_sp <= (sum_sp + 3'd1)"],
   [], ["acc <= (acc + sum_arg0[(sum_sp - 3'd1)])"],
   ["if (sum_sp < sum_depth)", "  sum_arg0[sum_sp] <= (sum_arg0[(sum_sp - 3'd1)] - 8'd1)",
    "  sum_ret_addr[sum_sp] <= 4'd9", "  sum_sp <= (sum_sp + 3'd1)"],
   ["acc <= 8'd0"], [], [], ["sum_sp <= (sum_sp - 3'd1)"], ["acc <= 8'd0"]]

theorem roundsBody_bodies : ∃ q s',
    build { module := sumTop } (sumOptions .binary) roundsBody = (.ok q, s') ∧
      (∀ k, patched k (course { module := sumTop } (sumOptions .binary) roundsBody) = []) ∧
      q.machine.bodies.flatten =
        emitted 0 (course { module := sumTop } (sumOptions .binary) roundsBody) ∧
      q.machine.bodies.head? = some [] ∧
      q.machine.bodies.map (s'.module.symbols.blockLines 0) = roundsLines := by
  have hpatch : (course { module := sumTop } (sumOptions .binary) roundsBody).all (fun p =>
      match p.event with
      | .performs _ (.stateBody ..) => false
      | _ => true) = true := by decide +kernel
  have hnone : ∀ k, patched k (course { module := sumTop } (sumOptions .binary) roundsBody) = [] := by
    refine fun k => List.flatMap_eq_nil_iff.mpr fun p hp => ?_
    have hevent := List.all_eq_true.mp hpatch p hp
    unfold Point.patch
    split
    · next he => simp [he] at hevent
    · rfl
  have hlines : builds { module := sumTop } (sumOptions .binary) roundsBody (fun q s' =>
      q.machine.bodies.map (s'.module.symbols.blockLines 0) == roundsLines) = true := by decide +kernel
  obtain ⟨q, s', hbuild, hlines⟩ := exists_of_builds hlines
  obtain ⟨hflat, hend⟩ := (build_bodies hbuild).2 hnone
  exact ⟨q, s', hbuild, hnone, hflat, hend, beq_iff_eq.mp hlines⟩

end Program

end Lockstep
