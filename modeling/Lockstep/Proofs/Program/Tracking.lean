import Lockstep.Proofs.Program.Nesting
import Lockstep.Proofs.Program.Reading

/-!
# Elaboration beside the scan

The scan of the rules of nesting and the elaboration of a program run in step: both go on, or both
stop for the same rule. The flags that the scan keeps are spread over the draft: the frames, the
open blocks, the label that waits and the names of the states.
-/

namespace Lockstep.Program

variable {α β : Type}
variable {body : ElabM Unit} {fs : List Frame} {xs : List Shape} {f : Machine} {k : Nat}
  {name : String} {t : Transition Expr}

/-! ## Elaboration beside the scan -/

/-- Both end well, with `Q` of their ends, or both fail for the same rule. -/
def Tracks (x : ElabM α) (c : Context) (s : Except Rule Scan) (Q : α → Context → Scan → Prop) :
    Prop :=
  match x.run c, s with
  | .ok a c', .ok σ => Q a c' σ
  | .error e _, .error r => e.rule? = some r
  | _, _ => False

namespace Tracks

variable {x : ElabM α} {f : α → ElabM β} {c : Context} {s : Except Rule Scan} {σ : Scan}
variable {k : Scan → Except Rule Scan} {P Q : α → Context → Scan → Prop}

theorem mono (h : Tracks x c s P) (hpq : ∀ a c' σ, P a c' σ → Q a c' σ) : Tracks x c s Q := by
  unfold Tracks at h ⊢
  split at h
  · exact hpq _ _ _ h
  · exact h
  · exact h.elim

theorem bind {Q : β → Context → Scan → Prop}
    (h : Tracks x c s fun a c' σ => Tracks (f a) c' (k σ) Q) : Tracks (x >>= f) c (s >>= k) Q := by
  simp only [Tracks, EStateM.run, Bind.bind, EStateM.bind, Except.bind] at h ⊢
  cases hx : x c <;> cases s <;> simp_all

/-- A step of the elaboration that the scan does not make. -/
theorem skip {Q : β → Context → Scan → Prop} (h : Yields x c fun a c' => Tracks (f a) c' s Q) :
    Tracks (x >>= f) c s Q := by
  simp only [Tracks, Yields, EStateM.run, Bind.bind, EStateM.bind] at h ⊢
  cases hx : x c <;> simp_all

theorem of_yields (h : Yields x c fun a c' => Q a c' σ) : Tracks x c (.ok σ) Q := by
  unfold Tracks Yields at *
  split at h
  · next hx => rw [hx]; exact h
  · exact h.elim

theorem yields (h : Tracks x c (.ok σ) Q) : Yields x c fun a c' => Q a c' σ := by
  unfold Tracks Yields at *
  split at h
  · next hx hs =>
    cases hs
    rw [hx]
    exact h
  · next hs => cases hs
  · exact h.elim

/-- The end of a part that the scan follows, in a larger one. -/
theorem finish {Q : β → Context → Scan → Prop}
    (h : Tracks x c s fun a c' σ => Yields (f a) c' fun b c'' => Q b c'' σ) :
    Tracks (x >>= f) c s Q := by
  rw [← bind_pure s]
  exact bind (h.mono fun a c' σ h' => of_yields h')

theorem fail {e : Error} {r : Rule} (h : e.rule? = some r) {Q : α → Context → Scan → Prop} :
    Tracks (Program.fail e) c (.error r) Q := h

theorem fail_bind {e : Error} {r : Rule} (h : e.rule? = some r) {f : α → ElabM β}
    {Q : β → Context → Scan → Prop} : Tracks (Program.fail e >>= f) c (.error r) Q := h

end Tracks

/-! ## The draft as the scan sees it -/

/-- The states that a frame will lead on from. -/
def Frame.sites (f : Frame) : List Nat :=
  f.closedIf.toList ++ f.loop.toList.flatMap fun l => l.breaks ++ l.continues

/-- Whether a frame is a loop, and whether an `ifThen` in it has been closed. -/
def Frame.outline (f : Frame) : Bool × Bool := (f.loop.isSome, f.closedIf.isSome)

/-- The labels that have been given. -/
def Draft.names (d : Draft) : List String :=
  (d.machine.states.toList.map Machine.State.name ++ [d.label]).filter (· ≠ "")

/-- The target is a state by its number. -/
def IsPlace : Target Expr → Prop
  | .state _ | .after _ => True
  | _ => False

/-- All targets of the transition are states by their number. -/
def Fixed (t : Transition Expr) : Prop :=
  (∃ x, t.target = some x ∧ IsPlace x) ∧ ∀ x, t.otherwise = some x → IsPlace x

theorem Fixed.jump {x : Target Expr} (h : IsPlace x) : Fixed (.jump x) := ⟨⟨x, rfl, h⟩, nofun⟩

/-- Nothing is wrong with the machine but for names that it may not know. -/
structure Routed (names : List String) (f : Machine) : Prop where
  unbuilt : f.built = false
  faultless : f.fault = none
  clocked : (f.clock.bind ClockEvent.signal).isSome = true
  gotos : ∀ s ∈ f.states, ∀ t ∈ s.gotos, Fixed t ∨ ∃ name ∈ names, t = .jump (.named name)
  named : ∀ name ∈ names, ∃ s ∈ f.states, .jump (.named name) ∈ s.gotos

/-- The draft agrees with the scan, `n` branches deep and within the given frames. It has at least
`lo` states. -/
structure View (lo n : Nat) (inner : Bool) (outer : List (Bool × Bool)) (σ : Scan) (d : Draft) :
    Prop where
  least : lo ≤ d.machine.size
  depth : d.blocks.depth = n
  pending : d.blocks.pending = σ.pending
  frames : d.frames.map Frame.outline = (inner, σ.closed) :: outer
  flat : ∀ f ∈ d.frames, f.isBody = false
  sites : ∀ f ∈ d.frames, ∀ k ∈ f.sites, k < d.machine.size
  building : d.building = []
  resumes : d.resumes = []
  functions : d.functions = []
  named : σ.named = (d.label != "")
  names : d.names = σ.labels
  nodup : σ.labels.Nodup
  routed : Routed σ.targets d.machine

/-- One of the frames is a loop. -/
def looped (inner : Bool) (outer : List (Bool × Bool)) : Bool := inner || outer.any (·.1)

variable {lo n : Nat} {inner : Bool} {outer : List (Bool × Bool)} {σ : Scan} {d : Draft}

/-! ## States -/

theorem lookup_isSome (h : name ≠ "") :
    (f.lookup name).isSome = true ↔ name ∈ f.states.toList.map Machine.State.name := by
  rw [Machine.lookup, if_neg h, Array.findIdx?_isSome]
  simp only [Array.any_eq_true, beq_iff_eq, List.mem_map, Array.mem_toList_iff,
    Array.mem_iff_getElem]
  constructor
  · rintro ⟨i, hi, rfl⟩
    exact ⟨_, ⟨i, hi, rfl⟩, rfl⟩
  · rintro ⟨_, ⟨i, hi, rfl⟩, hname⟩
    exact ⟨i, hi, hname⟩

theorem mem_names (h : name ≠ "") :
    name ∈ d.names ↔ (d.machine.lookup name).isSome = true ∨ name = d.label := by
  rw [lookup_isSome h]
  simp [Draft.names, h]

/-- The name that waits for a state is no name of a state yet. -/
theorem View.lookup_label (h : View lo n inner outer σ d) : d.machine.lookup d.label = none := by
  by_cases hl : d.label = ""
  · simp [Machine.lookup, hl]
  · rw [← Option.not_isSome_iff_eq_none, lookup_isSome hl]
    have hnodup := h.names ▸ h.nodup
    rw [Draft.names, List.filter_append, List.nodup_append] at hnodup
    intro hmem
    exact hnodup.2.2 d.label (by simp [hl, hmem]) d.label (by simp [hl]) rfl

theorem View.newState (h : View lo n inner outer σ d) :
    d.machine.newState d.label = .ok (d.machine.size,
      { d.machine with states := d.machine.states.push { name := d.label } }) := by
  rw [Machine.newState, h.lookup_label]
  simp [h.routed.unbuilt]

theorem Routed.push {names : List String} (h : Routed names f) (name : String)
    (body : List Statement) : Routed names { f with states := f.states.push { name, body } } := by
  refine ⟨h.unbuilt, h.faultless, h.clocked, fun s hs t ht => ?_, fun x hx => ?_⟩
  · rcases Array.mem_push.mp hs with hs | rfl
    · exact h.gotos s hs t ht
    · simp at ht
  · obtain ⟨s, hs, ht⟩ := h.named x hx
    exact ⟨s, Array.mem_push.mpr (.inl hs), ht⟩

/-- The draft after a state has been cut. -/
theorem View.cut (h : View lo n inner outer σ d) :
    View (d.machine.size + 1) n inner outer σ.fresh d.cut := by
  refine { h with
    least := (cut_size d).ge, pending := rfl, frames := ?_, flat := fun f hf => ?_,
    sites := fun f hf k hk => ?_, named := (bne_self_eq_false "").symm, names := ?_,
    routed := h.routed.push .. }
  · have hf := h.frames
    cases hd : d.frames <;> simp_all [Draft.cut, Frame.outline, Scan.fresh]
  · have hf' := h.flat
    cases hd : d.frames <;> simp_all [Draft.cut]
    grind
  · have hf' := h.sites
    rw [cut_size]
    cases hd : d.frames <;> simp_all [Draft.cut, Frame.sites]
    grind
  · rw [Scan.fresh_labels, ← h.names]
    by_cases hl : d.label = "" <;> simp [Draft.names, Draft.cut, hl]

/-! ## Operations on the draft -/

theorem View.emit (h : View lo n inner outer σ d) (st : Statement) :
    View lo n inner outer (σ.emit (0 < n)) { d with blocks := d.blocks.emit st } := by
  have hd := h.depth
  have hp := h.pending
  unfold Blocks.depth at hd
  cases hb : d.blocks.inner with
  | nil =>
    obtain rfl : 0 = n := by simpa [hb] using hd
    exact { h with
      depth := by simp [Blocks.depth, Blocks.emit, hb]
      pending := by simp [Blocks.pending, Blocks.emit, hb, Scan.emit] }
  | cons block rest =>
    have hn : 0 < n := by rw [hb] at hd; simp at hd; omega
    simp only [Scan.emit, hn, decide_true, if_true]
    exact { h with
      depth := by simpa [Blocks.depth, Blocks.emit, hb] using hd
      pending := by simpa [Blocks.pending, Blocks.emit, hb] using hp }

theorem View.enter (h : View lo n inner outer σ d) :
    View lo (n + 1) inner outer σ { d with blocks := d.blocks.enter } :=
  { h with depth := by simp [Blocks.depth, Blocks.enter, ← h.depth] }

theorem View.leave (h : View lo (n + 1) inner outer σ d) :
    View lo n inner outer σ { d with blocks := d.blocks.leave.2 } := by
  have hd := h.depth
  have hp := h.pending
  unfold Blocks.depth at hd
  cases hb : d.blocks.inner with
  | nil => simp [hb] at hd
  | cons block rest =>
    refine { h with depth := ?_, pending := ?_ }
    · simpa [Blocks.depth, Blocks.leave, hb] using hd
    · simpa [Blocks.pending, Blocks.leave, hb] using hp

theorem View.push (h : View lo n inner outer σ d) {f : Frame} (hb : f.isBody = false)
    (hs : f.sites = []) : View lo n f.loop.isSome ((inner, σ.closed) :: outer)
      { σ with closed := false } { d with frames := f :: d.frames } := by
  have hclosed : f.closedIf = none := by
    have := (List.append_eq_nil_iff.mp hs).1
    simpa using this
  refine { h with frames := ?_, flat := ?_, sites := ?_ }
  · simp [Frame.outline, hclosed, ← h.frames]
  · simpa [hb] using h.flat
  · simpa [hs] using h.sites

theorem View.pop {within closed : Bool} (h : View lo n within ((inner, closed) :: outer) σ d) :
    View lo n inner outer { σ with closed } { d with frames := d.frames.tail } := by
  have hf := h.frames
  refine { h with
    frames := ?_, flat := fun f hf => h.flat f (List.mem_of_mem_tail hf),
    sites := fun f hf => h.sites f (List.mem_of_mem_tail hf) }
  rw [List.map_tail, hf, List.tail_cons]

/-- The closing state of an `ifThen` is noted or forgotten. -/
theorem View.reclose (h : View lo n inner outer σ d) {o : Option Nat}
    (ho : ∀ k, o = some k → k < d.machine.size) :
    View lo n inner outer { σ with closed := o.isSome }
      { d with frames := d.frames.modifyHead fun f => { f with closedIf := o } } := by
  have hf := h.frames
  have hflat := h.flat
  have hsites := h.sites
  cases hd : d.frames with
  | nil => simp [hd] at hf
  | cons f rest =>
    rw [hd] at hf hflat hsites
    refine { h with frames := ?_, flat := ?_, sites := ?_ }
    · simp only [Frame.outline, List.map_cons, List.cons.injEq, Prod.mk.injEq] at hf
      simp [Frame.outline, hf]
    · simpa using hflat
    · simp only [List.modifyHead_cons, List.mem_cons, forall_eq_or_imp] at hsites ⊢
      refine ⟨fun k hk => ?_, hsites.2⟩
      rw [Frame.sites, List.mem_append] at hk
      rcases hk with hk | hk
      · exact ho k (by simpa using hk)
      · exact hsites.1 k (List.mem_append_right _ hk)

theorem View.top (h : View lo n inner outer σ d) :
    ∃ f rest, d.frames = f :: rest ∧ f.closedIf.isSome = σ.closed := by
  have hf := h.frames
  cases hd : d.frames with
  | nil => simp [hd] at hf
  | cons f rest =>
    rw [hd, List.map_cons, List.cons.injEq] at hf
    exact ⟨f, rest, rfl, congrArg Prod.snd hf.1⟩

/-- The states after one of them got another transition. -/
theorem mem_addGoto {xs : Array Machine.State} {s : Machine.State}
    (hs : s ∈ xs.modify k fun s => { s with gotos := s.gotos ++ [t] }) :
    ∃ s₀ ∈ xs, s = s₀ ∨ s = { s₀ with gotos := s₀.gotos ++ [t] } := by
  obtain ⟨i, hi, rfl⟩ := Array.mem_iff_getElem.mp hs
  rw [Array.size_modify] at hi
  refine ⟨xs[i], Array.getElem_mem hi, ?_⟩
  rw [Array.getElem_modify]
  split
  · exact .inr rfl
  · exact .inl rfl

theorem addGoto_mem {xs : Array Machine.State} (k : Nat) (t : Transition Expr)
    {s : Machine.State} (hs : s ∈ xs) :
    ∃ s' ∈ xs.modify k fun s => { s with gotos := s.gotos ++ [t] }, s.gotos ⊆ s'.gotos := by
  obtain ⟨i, hi, rfl⟩ := Array.mem_iff_getElem.mp hs
  have hi' : i < (xs.modify k fun s => { s with gotos := s.gotos ++ [t] }).size := by simpa using hi
  refine ⟨_, Array.getElem_mem hi', ?_⟩
  rw [Array.getElem_modify]
  split
  · exact List.subset_append_left _ _
  · exact List.Subset.refl _

theorem Routed.addGoto {names names' : List String} (h : Routed names f) (hk : k < f.size)
    (hsub : names ⊆ names') (ht : Fixed t ∨ ∃ name ∈ names', t = .jump (.named name))
    (hnew : ∀ name ∈ names', name ∈ names ∨ t = .jump (.named name)) :
    Routed names' (f.addGoto k t) := by
  rw [addGoto_eq hk]
  refine ⟨h.unbuilt, h.faultless, h.clocked, fun s hs t' ht' => ?_, fun name hname => ?_⟩
  · obtain ⟨s₀, hs₀, rfl | rfl⟩ := mem_addGoto hs
    · exact (h.gotos s hs₀ t' ht').imp_right fun hx => hx.imp fun name hx => ⟨hsub hx.1, hx.2⟩
    · rcases List.mem_append.mp ht' with ht' | ht'
      · exact (h.gotos s₀ hs₀ t' ht').imp_right fun hx => hx.imp fun name hx => ⟨hsub hx.1, hx.2⟩
      · rw [List.mem_singleton.mp ht']
        exact ht
  · rcases hnew name hname with hold | rfl
    · obtain ⟨s, hs, ht⟩ := h.named name hold
      obtain ⟨s', hs', hgotos⟩ := addGoto_mem k t hs
      exact ⟨s', hs', hgotos ht⟩
    · have hk' : k < (f.states.modify k fun s =>
          { s with gotos := s.gotos ++ [.jump (.named name)] }).size := by
        rw [Array.size_modify]
        exact hk
      refine ⟨_, Array.getElem_mem hk', ?_⟩
      rw [Array.getElem_modify, if_pos rfl]
      simp

theorem View.rewire (h : View lo n inner outer σ d) (hk : k < d.machine.size)
    {names : List String} (hsub : σ.targets ⊆ names)
    (ht : Fixed t ∨ ∃ name ∈ names, t = .jump (.named name))
    (hnew : ∀ name ∈ names, name ∈ σ.targets ∨ t = .jump (.named name)) :
    View lo n inner outer { σ with targets := names }
      { d with machine := d.machine.addGoto k t } := by
  have hsize := addGoto_size d.machine k t
  refine { h with
    least := hsize.symm ▸ h.least, sites := fun f hf x hx => hsize ▸ h.sites f hf x hx, names := ?_,
    routed := h.routed.addGoto hk hsub ht hnew }
  rw [← h.names, addGoto_eq hk]
  have hmap : (d.machine.states.modify k fun s => { s with gotos := s.gotos ++ [t] }).toList.map
      Machine.State.name = d.machine.states.toList.map Machine.State.name := by
    apply List.ext_getElem (by simp)
    intro i h₁ h₂
    simp only [List.getElem_map, Array.getElem_toList, Array.getElem_modify]
    split <;> rfl
  simp only [Draft.names, hmap]

theorem View.addGoto (h : View lo n inner outer σ d) (hk : k < d.machine.size) (ht : Fixed t) :
    View lo n inner outer σ { d with machine := d.machine.addGoto k t } :=
  h.rewire hk (List.Subset.refl _) (.inl ht) fun _ hx => .inl hx

theorem View.addNamed (h : View lo n inner outer σ d) (hk : k < d.machine.size) (name : String) :
    View lo n inner outer { σ with targets := σ.targets ++ [name] }
      { d with machine := d.machine.addGoto k (.jump (.named name)) } := by
  refine h.rewire hk (List.subset_append_left _ _) (.inr ⟨name, by simp, rfl⟩) fun x hx => ?_
  rcases List.mem_append.mp hx with hx | hx
  · exact .inl hx
  · rw [List.mem_singleton.mp hx]
    exact .inr rfl

theorem nearestLoop_isSome (hflat : ∀ f ∈ fs, f.isBody = false) :
    (nearestLoop fs).isSome = fs.any (·.loop.isSome) := by
  induction fs with
  | nil => rfl
  | cons f rest ih =>
    rw [nearestLoop, List.any_cons]
    cases hl : f.loop with
    | some l => simp
    | none => simp [hflat f List.mem_cons_self, ih fun g hg => hflat g (List.mem_cons_of_mem _ hg)]

/-- The innermost loop is there if any frame is a loop. -/
theorem View.nearestLoop (h : View lo n inner outer σ d) :
    (nearestLoop d.frames).isSome = looped inner outer := by
  have hany := congrArg (·.any (·.1)) h.frames
  rw [nearestLoop_isSome h.flat, looped]
  simpa [Frame.outline, List.any_map, Function.comp_def] using hany

theorem modifyNearest_outline (change : LoopFrame → LoopFrame) :
    (modifyNearest change fs).map Frame.outline = fs.map Frame.outline := by
  induction fs with
  | nil => rfl
  | cons f rest ih =>
    rw [modifyNearest]
    split
    · next l hl => simp [Frame.outline, hl]
    · split <;> simp [ih]

/-- A frame after a change of the innermost loop is an old one, or that loop changed. -/
theorem mem_modifyNearest {change : LoopFrame → LoopFrame} {f : Frame}
    (hf : f ∈ modifyNearest change fs) :
    ∃ f₀ ∈ fs, f = f₀ ∨ ∃ l, f₀.loop = some l ∧ f = { f₀ with loop := some (change l) } := by
  induction fs with
  | nil => simp [modifyNearest] at hf
  | cons top rest ih =>
    rw [modifyNearest] at hf
    split at hf
    · next l hl =>
      rcases List.mem_cons.mp hf with rfl | hf
      · exact ⟨top, List.mem_cons_self, .inr ⟨l, hl, rfl⟩⟩
      · exact ⟨f, List.mem_cons_of_mem _ hf, .inl rfl⟩
    · split at hf
      · exact ⟨f, hf, .inl rfl⟩
      · rcases List.mem_cons.mp hf with rfl | hf
        · exact ⟨f, List.mem_cons_self, .inl rfl⟩
        · obtain ⟨f₀, hf₀, h⟩ := ih hf
          exact ⟨f₀, List.mem_cons_of_mem _ hf₀, h⟩

/-- A state is added to those that the innermost loop leads on from. -/
theorem View.addSite (h : View lo n inner outer σ d) (hk : k < d.machine.size)
    {change : LoopFrame → LoopFrame} (hc : ∀ l, ∀ x ∈ (change l).breaks ++ (change l).continues,
      x = k ∨ x ∈ l.breaks ++ l.continues) :
    View lo n inner outer σ { d with frames := modifyNearest change d.frames } := by
  refine { h with
    frames := (modifyNearest_outline change).trans h.frames, flat := fun f hf => ?_,
    sites := fun f hf x hx => ?_ }
  · obtain ⟨f₀, hf₀, rfl | ⟨l, -, rfl⟩⟩ := mem_modifyNearest hf
    · exact h.flat f hf₀
    · exact h.flat f₀ hf₀
  · obtain ⟨f₀, hf₀, rfl | ⟨l, hl, rfl⟩⟩ := mem_modifyNearest hf
    · exact h.sites f hf₀ x hx
    · have hold := h.sites f₀ hf₀
      simp only [Frame.sites, hl, Option.toList_some, List.flatMap_singleton,
        List.mem_append] at hx hold
      rcases hx with hx | hx
      · exact hold x (.inl hx)
      · rcases hc l x (List.mem_append.mpr hx) with rfl | hx
        · exact hk
        · exact hold x (.inr (List.mem_append.mp hx))

/-! ## Constructs -/

theorem View.lower {lo' : Nat} (h : View lo n inner outer σ d) (hle : lo' ≤ lo) :
    View lo' n inner outer σ d := { h with least := hle.trans h.least }

theorem View.all (h : View lo n inner outer σ d) : View d.machine.size n inner outer σ d :=
  { h with least := le_refl _ }

theorem Tracks.step {c : Context} (h : View lo n inner outer σ c.draft)
    {Q : Nat → Context → Scan → Prop}
    (hQ : ∀ f, Q c.draft.machine.size { c.reported f with draft := c.draft.cut } σ.fresh) :
    Tracks Program.step c (σ.cut (0 < n)) Q := by
  unfold Program.step
  refine .skip (yields_getDraft.mpr ?_)
  by_cases hn : 0 < n
  · have hdepth : 0 < c.draft.blocks.depth := h.depth ▸ hn
    rw [if_pos hdepth, Scan.cut, decide_eq_true hn, if_pos rfl]
    exact .fail_bind rfl
  · have hdepth : ¬ 0 < c.draft.blocks.depth := h.depth ▸ hn
    rw [if_neg hdepth, Scan.cut, decide_eq_false hn, if_neg Bool.false_ne_true]
    refine .of_yields ?_
    simp only [yields_bind, yields_pure, yields_modifyDraft, Program.newState, yields_getDraft]
    rw [h.newState]
    simp only [yields_bind, yields_modifyMachine, yields_note, yields_pure, yields_modifyDraft,
      modifyTop, Blocks.take, Context.reported, addBody_push]
    exact hQ _

/-- The draft agrees with the scan, and a reading beside it has come to `P`. -/
def Led (lo n : Nat) (inner : Bool) (outer : List (Bool × Bool)) (P : Context → Prop) (c : Context)
    (σ : Scan) : Prop := View lo n inner outer σ c.draft ∧ ∃ r, Beside c r ∧ P r

variable {c r : Context} {P : Context → Prop} {s : Except Rule Scan}

theorem face_addGoto (d : Draft) (k : Nat) (t : Transition Expr) :
    ({ d with machine := d.machine.addGoto k t } : Draft).face = d.face := by
  unfold Machine.addGoto Machine.modifyState
  split <;> rfl

theorem Tracks.recordState {make : ElabM Nat}
    (h : Tracks make c s fun _ c' σ => Led lo n inner outer P c' σ) (command : String) :
    Tracks (recordState command make) c s fun _ c' σ => Led lo n inner outer P c' σ := by
  refine .finish (h.mono fun st c' σ hl => yields_record.mpr ⟨hl.1, ?_⟩)
  obtain ⟨-, r, hb, hP⟩ := hl
  exact ⟨r, hb.redraft rfl rfl rfl, hP⟩

/-- A branch is elaborated in a frame of its own, behind the state that chooses it. -/
theorem Tracks.ifThen (hb : Beside c r) (h : View lo n inner outer σ c.draft)
    (hbody : ∀ lo c, View lo n false ((inner, false) :: outer) σ.fresh c.draft →
      Beside c r → Tracks body c (Shape.scanAll (looped inner outer) (0 < n) σ.fresh xs)
        fun _ c' σ' => Led lo n false ((inner, false) :: outer) P c' σ') (test : Expr) :
    Tracks (Program.ifThen test body) c ((Shape.ifThen xs).scan (looped inner outer) (0 < n) σ)
      fun _ => Led lo n inner outer P := by
  rw [Program.ifThen, Shape.scan]
  refine .bind (.step h fun f => ?_)
  have hv₁ := h.cut.push (f := {}) rfl rfl
  refine .skip (yields_pushFrame.mpr ?_)
  refine .bind (.mono (hbody _ _ hv₁ (hb.redraft rfl rfl rfl)) ?_)
  rintro - c₂ σ₂ ⟨hv₂, r₂, hb₂, hP⟩
  refine .bind (.step hv₂ fun f₂ => .of_yields ?_)
  simp only [yields_bind, yields_popFrame, yields_addGoto, yields_modifyTop, yields_pure]
  have hst : c.draft.machine.size < c₂.draft.cut.machine.size := by
    have := hv₂.least
    rw [cut_size]
    omega
  have hv₃ := (hv₂.cut.pop.addGoto hst (t := ⟨test.toOption, some (.after c.draft.machine.size),
    some (.after c₂.draft.machine.size)⟩) ⟨⟨_, rfl, trivial⟩, by simp [IsPlace]⟩)
  refine ⟨(hv₃.reclose (o := some c₂.draft.machine.size) ?_).lower ?_, r₂, ?_, hP⟩
  · rintro k ⟨⟩
    rw [addGoto_size, cut_size]
    exact Nat.lt_succ_self _
  · have := h.least
    rw [cut_size] at hst
    omega
  · exact hb₂.redraft rfl rfl (face_addGoto ..)

/-- The other branch is elaborated the same way, if there is an `ifThen` to go on from. -/
theorem Tracks.orElse (hb : Beside c r) (h : View lo n inner outer σ c.draft)
    (hbody : ∀ lo c, View lo n false ((inner, false) :: outer) { σ with closed := false } c.draft →
      Beside c r → Tracks body c
        (Shape.scanAll (looped inner outer) (0 < n) { σ with closed := false } xs)
        fun _ c' σ' => Led lo n false ((inner, false) :: outer) P c' σ') :
    Tracks (Program.orElse body) c ((Shape.orElse xs).scan (looped inner outer) (0 < n) σ)
      fun _ => Led lo n inner outer P := by
  rw [Program.orElse, Shape.scan]
  refine .skip (yields_getDraft.mpr ?_)
  obtain ⟨top, rest, hframes, htop⟩ := h.top
  have hhead : c.draft.frames.head?.bind Frame.closedIf = top.closedIf := by rw [hframes]; rfl
  rw [hhead]
  split
  · next yes hyes hpending =>
    have hclosed : (σ.closed && !σ.pending) = true := by
      rw [← htop, ← h.pending, hyes, hpending]
      rfl
    have hlt : yes < c.draft.machine.size :=
      h.sites top (hframes ▸ List.mem_cons_self) yes (by simp [Frame.sites, hyes])
    rw [if_pos hclosed]
    refine .skip (yields_modifyTop.mpr ?_)
    have hv₁ := (h.all.reclose (o := none) nofun).push (f := {}) rfl rfl
    refine .skip (yields_pushFrame.mpr ?_)
    refine .bind (.mono (hbody _ _ hv₁ (hb.redraft rfl rfl rfl)) ?_)
    rintro - c₂ σ₂ ⟨hv₂, r₂, hb₂, hP⟩
    refine .finish (.step hv₂ fun f₂ => ?_)
    simp only [yields_bind, yields_popFrame, yields_addGoto, yields_pure]
    have hle : c.draft.machine.size ≤ c₂.draft.machine.size := hv₂.least
    have hyes' : yes < c₂.draft.cut.machine.size := by
      rw [cut_size]
      omega
    have hjump : Fixed (.jump (.after (c₂.draft.machine.size : Int))) := .jump trivial
    refine ⟨(hv₂.cut.pop.addGoto hyes' hjump).lower ?_, r₂, ?_, hP⟩
    · have := h.least
      omega
    · exact hb₂.redraft rfl rfl (face_addGoto ..)
  · next hnot =>
    have hclosed : ¬ (σ.closed && !σ.pending) = true := by
      rw [← htop, ← h.pending]
      intro hc
      obtain ⟨yes, hyes⟩ := Option.isSome_iff_exists.mp (Bool.and_eq_true_iff.mp hc).1
      exact hnot yes hyes (by simpa using (Bool.and_eq_true_iff.mp hc).2)
    rw [if_neg hclosed]
    exact .fail rfl

theorem loopEdge_fixed (test : Option Expr) (st yes : Nat) : Fixed (loopEdge test st yes) := by
  cases test with
  | none => exact .jump trivial
  | some e => exact ⟨⟨_, rfl, trivial⟩, by simp [loopEdge, Transition.branch, IsPlace]⟩

/-- A state gets a transition, and the rest follows. -/
theorem View.addGoto_then (h : View lo n inner outer σ c.draft) (hb : Beside c r)
    (hk : k < c.draft.machine.size) (ht : Fixed t) {Q : Unit → Context → Prop}
    (hQ : ∀ c', View lo n inner outer σ c'.draft → Beside c' r →
      c'.draft.machine.size = c.draft.machine.size → Q () c') : Yields (Program.addGoto k t) c Q :=
  hQ _ (h.addGoto hk ht) (hb.redraft rfl rfl (face_addGoto ..)) (addGoto_size ..)

theorem View.addGotos_then (ht : Fixed t) {Q : Unit → Context → Prop} :
    ∀ (ks : List Nat) {c : Context}, View lo n inner outer σ c.draft → Beside c r →
      (∀ k ∈ ks, k < c.draft.machine.size) →
      (∀ c', View lo n inner outer σ c'.draft → Beside c' r →
        c'.draft.machine.size = c.draft.machine.size → Q () c') →
      Yields (ks.forM fun k => Program.addGoto k t) c Q
  | [], c, h, hb, _, hQ => hQ c h hb rfl
  | k :: ks, c, h, hb, hks, hQ => by
    rw [List.forM_eq_forM, List.forM_cons, yields_bind]
    refine h.addGoto_then hb (hks k List.mem_cons_self) ht fun c₁ h₁ hb₁ hs₁ => ?_
    refine addGotos_then ht ks h₁ hb₁ (fun x hx => hs₁ ▸ hks x (List.mem_cons_of_mem _ hx))
      fun c₂ h₂ hb₂ hs₂ => ?_
    exact hQ c₂ h₂ hb₂ (hs₂.trans hs₁)

theorem Scan.cut_emit (w : Bool) (σ : Scan) : (σ.emit w).cut w = σ.cut w := by
  cases w <;> rfl

/-- Behind its body a loop is left by the states that its frame has gathered. -/
theorem Tracks.loop (hb : Beside c r) (h : View lo n inner outer σ c.draft)
    (hbody : ∀ lo c, View lo n true ((inner, false) :: outer) σ.fresh c.draft →
      Beside c r → Tracks body c (Shape.scanAll true (0 < n) σ.fresh xs)
        fun _ c' σ' => Led lo n true ((inner, false) :: outer) P c' σ') (head tail : Option Expr)
    (advance : Option Statement) : Tracks (Program.loop head tail advance body) c
      ((Shape.loop xs).scan (looped inner outer) (0 < n) σ)
      fun _ => Led lo n inner outer P := by
  rw [Program.loop, Shape.scan]
  refine .bind (.step h fun f => ?_)
  let frame : Frame := { loop := some { anchor := c.draft.machine.size + 1, advance } }
  have hv₁ := h.cut.push (f := frame) rfl rfl
  refine .skip (yields_pushFrame.mpr ?_)
  refine .bind (.mono (hbody _ _ hv₁ (hb.redraft rfl rfl rfl)) ?_)
  rintro - c₂ σ₂ ⟨hv₂, r₂, hb₂, hP⟩
  have hemit : ∃ c₃ σ₃, Yields (advance.forM emit) c₂ (fun _ c' => c' = c₃) ∧
      View (c.draft.machine.size + 1) n true ((inner, false) :: outer) σ₃ c₃.draft ∧
      σ₃.cut (0 < n) = σ₂.cut (0 < n) ∧ Beside c₃ r₂ := by
    cases advance with
    | none => exact ⟨c₂, σ₂, rfl, hv₂, rfl, hb₂⟩
    | some st => exact ⟨_, _, rfl, hv₂.emit st, Scan.cut_emit .., hb₂.redraft rfl rfl rfl⟩
  obtain ⟨c₃, σ₃, hrun, hv₃, hcut, hb₃⟩ := hemit
  refine .skip (hrun.mono ?_)
  rintro - c₃ rfl
  rw [← hcut]
  refine .finish (.step hv₃ fun f₂ => ?_)
  have hst : c.draft.machine.size < c₃.draft.machine.size := hv₃.least
  obtain ⟨top, rest, hframes, -⟩ := hv₃.cut.top
  have hsites : ∀ k ∈ (top.loop.getD { anchor := c.draft.machine.size + 1 }).breaks ++
      (top.loop.getD { anchor := c.draft.machine.size + 1 }).continues,
      k < c₃.draft.cut.machine.size := by
    intro k hk
    refine hv₃.cut.sites top (hframes ▸ List.mem_cons_self) k ?_
    cases hl : top.loop with
    | none => simp [hl] at hk
    | some l => simp_all [Frame.sites]
  have hyes := cut_size c₃.draft
  have hedge (test : Option Expr) := loopEdge_fixed test c.draft.machine.size c₃.draft.machine.size
  have hjump : Fixed (.jump (.after (c₃.draft.machine.size : Int))) := .jump trivial
  have hlt : c.draft.machine.size < c₃.draft.cut.machine.size := by omega
  have hlo := h.least
  rw [yields_bind, yields_popFrame, yields_bind]
  refine View.addGoto_then hv₃.cut.pop (hb₃.redraft ?_ ?_ ?_) hlt (hedge head) ?_
  iterate 3 rfl
  intro c₄ hv₄ hb₄ (hs₄ : _ = c₃.draft.cut.machine.size)
  rw [yields_bind]
  refine hv₄.addGoto_then hb₄ (by omega) (hedge tail) fun c₅ hv₅ hb₅ hs₅ => ?_
  rw [hs₄] at hs₅
  simp only [yields_bind, yields_pure, hframes, List.headD_cons]
  refine View.addGotos_then (hedge tail) _ hv₅ hb₅ ?_ fun c₆ hv₆ hb₆ hs₆ => ?_
  · exact fun k hk => hs₅.symm ▸ hsites k (List.mem_append_right _ hk)
  · refine View.addGotos_then hjump _ hv₆ hb₆ ?_ fun c₇ hv₇ hb₇ _ => ?_
    · exact fun k hk => (hs₆.trans hs₅).symm ▸ hsites k (List.mem_append_left _ hk)
    · exact ⟨hv₇.lower (by omega), r₂, hb₇, hP⟩

theorem Tracks.cutOnly (hb : Beside c r) (h : View lo n inner outer σ c.draft) (hP : P r) :
    Tracks Program.step c (σ.cut (0 < n)) fun _ => Led lo n inner outer P :=
  .step h fun _ => ⟨h.cut.lower (by have := h.least; omega), r, hb.redraft rfl rfl rfl, hP⟩

/-- A new state jumps to a fixed place. -/
theorem Tracks.jump (hb : Beside c r) (h : View lo n inner outer σ c.draft) (hP : P r)
    (ht : Fixed t) : Tracks (do
      let st ← Program.step
      Program.addGoto st t
      return st) c (σ.cut (0 < n)) fun _ => Led lo n inner outer P := by
  have hlo := h.least
  refine .finish (.step h fun f => ?_)
  rw [yields_bind]
  refine View.addGoto_then (r := r) h.cut ?_ ?_ ht ?_
  · exact hb.redraft rfl rfl rfl
  · exact (cut_size c.draft).symm ▸ Nat.lt_succ_self _
  · exact fun c₂ hv₂ hb₂ _ => ⟨hv₂.lower (by omega), r, hb₂, hP⟩

theorem Tracks.breakLoop (hb : Beside c r) (h : View lo n inner outer σ c.draft) (hP : P r) :
    Tracks Program.breakLoop c (Shape.breakLoop.scan (looped inner outer) (0 < n) σ)
      fun _ => Led lo n inner outer P := by
  rw [Program.breakLoop, Shape.scan]
  refine .bind (.step h fun f => ?_)
  refine .skip (yields_getDraft.mpr ?_)
  have hloop := h.cut.nearestLoop
  have hlo := h.least
  split
  · next hnone =>
    rw [hnone] at hloop
    rw [← hloop]
    exact .fail rfl
  · next l hsome =>
    rw [hsome] at hloop
    rw [← hloop]
    refine .of_yields ?_
    simp only [modifyLoop, yields_bind, yields_modifyDraft, yields_pure]
    refine ⟨(h.cut.addSite (k := c.draft.machine.size) ?_ ?_).lower (by omega), r,
      hb.redraft rfl rfl rfl, hP⟩
    · rw [cut_size]
      exact Nat.lt_succ_self _
    · intro l x hx
      simp only [List.mem_append, List.mem_singleton] at hx ⊢
      tauto

theorem Tracks.nextRound (hb : Beside c r) (h : View lo n inner outer σ c.draft) (hP : P r) :
    Tracks Program.nextRound c (Shape.nextRound.scan (looped inner outer) (0 < n) σ)
      fun _ => Led lo n inner outer P := by
  rw [Program.nextRound, Shape.scan]
  refine .skip (yields_getDraft.mpr ?_)
  have hloop := h.nearestLoop
  have hlo := h.least
  split
  · next hnone =>
    rw [hnone] at hloop
    rw [← hloop]
    exact .fail rfl
  · next l hsome =>
    rw [hsome] at hloop
    rw [← hloop, Option.isSome_some, if_pos rfl]
    split
    · next st hst =>
      refine .skip (yields_emit.mpr ?_)
      rw [← Scan.cut_emit]
      have hv₁ := h.emit st
      refine .finish (.step hv₁ fun f => ?_)
      simp only [modifyLoop, yields_bind, yields_modifyDraft, yields_pure]
      refine ⟨(hv₁.cut.addSite (k := c.draft.machine.size) ?_ ?_).lower (by simp; omega), r,
        hb.redraft rfl rfl rfl, hP⟩
      · rw [cut_size]
        exact Nat.lt_succ_self _
      · intro l x hx
        simp only [List.mem_append, List.mem_singleton] at hx ⊢
        tauto
    · exact .jump hb h hP (.jump trivial)

theorem Tracks.terminate (hb : Beside c r) (h : View lo n inner outer σ c.draft) (hP : P r) :
    Tracks Program.terminate c (Shape.cut.scan (looped inner outer) (0 < n) σ)
      fun _ => Led lo n inner outer P := by
  rw [Program.terminate, Shape.scan]
  exact .jump hb h hP (.jump trivial)

theorem Tracks.goto (hb : Beside c r) (h : View lo n inner outer σ c.draft) (hP : P r)
    (name : String) :
    Tracks (Program.goto name) c ((Shape.goto name).scan (looped inner outer) (0 < n) σ)
      fun _ => Led lo n inner outer P := by
  rw [Program.goto, Shape.scan]
  have hlo := h.least
  refine .bind (.step h fun f => .of_yields ?_)
  have hlt : c.draft.machine.size < c.draft.cut.machine.size :=
    (cut_size c.draft).symm ▸ Nat.lt_succ_self _
  simp only [yields_bind, yields_addGoto, yields_pure]
  exact ⟨(h.cut.addNamed hlt name).lower (by omega), r, hb.redraft rfl rfl (face_addGoto ..), hP⟩

theorem Tracks.flush (hb : Beside c r) (h : View lo n inner outer σ c.draft) :
    Tracks stepIfWaiting c (σ.flush (0 < n)) fun _ c' σ' =>
      View lo n inner outer σ' c'.draft ∧ Beside c' r ∧ σ'.named = false ∧
        σ'.labels = σ.labels := by
  rw [stepIfWaiting, Scan.flush]
  refine .skip (yields_getDraft.mpr ?_)
  have hwait : c.draft.waiting = (σ.pending || σ.named) := by
    rw [Draft.waiting, h.pending, h.named]
  have hlo := h.least
  rw [hwait]
  split
  · refine .finish (.step h fun f => yields_pure.mpr ⟨h.cut.lower (by omega), ?_, rfl, rfl⟩)
    exact hb.redraft rfl rfl rfl
  · next hidle =>
    exact .of_yields (yields_pure.mpr ⟨h, hb, by simp_all, rfl⟩)

/-- A label waits for the next state. -/
theorem View.relabel (h : View lo n inner outer σ d) (hn : σ.named = false) (hne : name ≠ "")
    (hnew : name ∉ σ.labels) :
    View lo n inner outer { σ with named := true, labels := σ.labels ++ [name] }
      { d with label := name } := by
  have hlabel : d.label = "" := by simpa [hn] using h.named
  refine { h with named := ?_, names := ?_, nodup := ?_ }
  · simpa using hne
  · rw [← h.names]
    simp [Draft.names, hlabel, hne]
  · exact List.nodup_append.mpr ⟨h.nodup, List.nodup_singleton name, by grind⟩

theorem Tracks.label (hb : Beside c r) (h : View lo n inner outer σ c.draft) (hP : P r)
    (hne : name ≠ "") :
    Tracks (Program.label name) c ((Shape.label name).scan (looped inner outer) (0 < n) σ)
      fun _ => Led lo n inner outer P := by
  rw [Program.label, Shape.scan]
  refine .skip (yields_getDraft.mpr ?_)
  have hmem : ((c.draft.machine.lookup name).isSome || name = c.draft.label) = true ↔
      name ∈ σ.labels := by
    rw [← h.names, mem_names hne]
    simp
  by_cases hdup : name ∈ σ.labels
  · rw [if_pos (hmem.mpr hdup), if_pos hdup]
    exact .fail_bind rfl
  · rw [if_neg (mt hmem.mp hdup), if_neg hdup]
    refine .bind (.mono (.flush hb h) ?_)
    rintro - c₁ σ₁ ⟨hv₁, hb₁, hn₁, hl₁⟩
    refine .of_yields (yields_modifyDraft.mpr ⟨hv₁.relabel hn₁ hne (hl₁ ▸ hdup), r, ?_, hP⟩)
    exact hb₁.redraft rfl rfl rfl

theorem scan_loop_flush (inLoop inWhen : Bool) (σ : Scan) (xs : List Shape) :
    (do let σ ← σ.flush inWhen; (Shape.loop xs).scan inLoop inWhen (σ.emit inWhen)) =
      (Shape.loop xs).scan inLoop inWhen σ := by
  simp only [Shape.scan, Scan.cut_emit, Scan.flush]
  cases inWhen <;> split <;> rfl

/-- An enumerator sets its index in a state of its own, and is a loop behind it. -/
theorem Tracks.count {body vbody : Expr → ElabM Unit} {limit : Expr} (hb : Beside c r)
    (h : View lo n inner outer σ c.draft)
    (hr : Yields (visitCount limit vbody) r fun _ => P)
    (hbody : ∀ i lo σ c r, View lo n true ((inner, false) :: outer) σ c.draft → Beside c r →
      Yields (vbody i) r (fun _ => P) → Tracks (body i) c (Shape.scanAll true (0 < n) σ xs)
        fun _ c' σ' => Led lo n true ((inner, false) :: outer) P c' σ') :
    Tracks (Program.count limit body) c ((Shape.loop xs).scan (looped inner outer) (0 < n) σ)
      fun _ => Led lo n inner outer P := by
  rw [Program.count, ← scan_loop_flush]
  refine .bind (.mono (.flush hb h) ?_)
  rintro - c₁ σ₁ ⟨hv₁, hb₁, -, -⟩
  simp only [visitCount, yields_bind, yields_getSymbols, yields_require, Program.relate] at hr
  obtain ⟨⟨type, symbols⟩, hshare, hr⟩ := hr
  simp only [yields_modifyModule, yields_declare] at hr
  obtain ⟨head, hhead, tail, htail, hr⟩ := hr
  have hmodule := hb₁.module_eq
  refine .skip (yields_getSymbols.mpr (.skip (yields_require.mpr ⟨(type, symbols), ?_, ?_⟩)))
  · rw [hmodule]
    exact hshare
  refine .skip (yields_modifyModule.mpr (.skip (yields_declare.mpr (.skip (yields_emit.mpr ?_)))))
  simp only [Program.relate, hmodule]
  refine .skip (yields_bind.mpr (yields_getSymbols.mpr (yields_require.mpr ⟨head, hhead, ?_⟩)))
  refine .skip (yields_bind.mpr (yields_getSymbols.mpr (yields_require.mpr ⟨tail, htail, ?_⟩)))
  refine .loop ?_ (hv₁.emit _) (fun lo c hv hb => hbody _ lo _ c _ hv hb hr) _ _ _
  exact { hb₁ with module_eq := rfl }

end Lockstep.Program
