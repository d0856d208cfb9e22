import Lockstep.Proofs.Program.Layout
import Lockstep.Proofs.Program.Visits

/-!
# Rounds of an enumerator

The states that the body of an enumerator makes. Some end a round: the closing state, and one for
each command that starts the next round. They advance the index, and are left by the test for
another round. No other state leads out of the loop, as long as the body calls no function, does not
leave the loop or terminate the program, and jumps to its own labels only.
-/

namespace Lockstep

/-- The target is one of the states after `lo` up to `hi`, or has one of the names. -/
def Target.Within (names : List String) (lo hi : Nat) (a : Target Expr) : Prop :=
  (∃ j : Nat, a.place? = some (j : Int) ∧ lo < j ∧ j ≤ hi) ∨ ∃ name ∈ names, a = .named name

/-- Every way of the transition leads there. -/
def Transition.Within (names : List String) (lo hi : Nat) (t : Transition Expr) : Prop :=
  t.target.isSome = true ∧ ∀ a, t.target = some a ∨ t.otherwise = some a → a.Within names lo hi

section

variable {names : List String} {lo hi hi' : Nat}
variable {a : Target Expr}

theorem Target.Within.mono (h : a.Within names lo hi) (hle : hi ≤ hi') : a.Within names lo hi' := by
  rcases h with ⟨j, hj, hlo, hhi⟩ | h
  · exact .inl ⟨j, hj, hlo, hhi.trans hle⟩
  · exact .inr h

theorem Target.within_after {k : Nat} (hlo : lo ≤ k) (hhi : k < hi) :
    Target.Within names lo hi (.after k) :=
  .inl ⟨k + 1, by simp [Target.place?], by omega, hhi⟩

theorem Target.within_state {k : Nat} (hlo : lo < k) (hhi : k ≤ hi) :
    Target.Within names lo hi (.state k) :=
  .inl ⟨k, rfl, hlo, hhi⟩

theorem Transition.Within.mono {t : Transition Expr} (h : t.Within names lo hi) (hle : hi ≤ hi') :
    t.Within names lo hi' := ⟨h.1, fun a ha => (h.2 a ha).mono hle⟩

theorem Transition.within_both {guard : Option Expr} {b : Target Expr} (ha : a.Within names lo hi)
    (hb : b.Within names lo hi) : Transition.Within names lo hi ⟨guard, some a, some b⟩ := by
  refine ⟨rfl, ?_⟩
  rintro x (hx | hx)
  · exact Option.some.inj hx ▸ ha
  · exact Option.some.inj hx ▸ hb

theorem Transition.within_jump (ha : a.Within names lo hi) :
    Transition.Within names lo hi (.jump a) := by
  refine ⟨rfl, ?_⟩
  rintro x (hx | hx)
  · exact Option.some.inj hx ▸ ha
  · simp [Transition.jump] at hx

end

namespace Program

theorem loopEdge_within {names : List String} {lo hi st yes : Nat} (test : Option Expr)
    (hst : lo ≤ st) (hst' : st < hi) (hyes : lo ≤ yes) (hyes' : yes < hi) :
    Transition.Within names lo hi (loopEdge test st yes) := by
  cases test with
  | none => exact Transition.within_jump (Target.within_after hst hst')
  | some e =>
    exact Transition.within_both (Target.within_after hst hst') (Target.within_after hyes hyes')

/-! ## Bodies -/

mutual

/-- The command calls no function, does not leave the loop around the body or terminate the program,
and jumps only to the labels `names`. `inner` says whether it stands in a loop of the body. -/
def Command.stays (names : List String) : Bool → Command → Bool
  | inner, .when _ thn els => staysAll names inner thn && staysAll names inner els
  | inner, .ifThen _ body | inner, .orElse body => staysAll names inner body
  | _, .whileLoop _ body | _, .loop body | _, .count _ _ body | _, .times _ _ body
  | _, .each _ _ _ body => staysAll names true body
  | inner, .breakLoop => inner
  | _, .goto name => names.contains name
  | _, .terminate | _, .call .. | _, .callDepth .. | _, .ret _ | _, .stateBody .. | _, .stateGoto ..
  | _, .buildMachine => false
  | _, _ => true

def Command.staysAll (names : List String) : Bool → List Command → Bool
  | _, [] => true
  | inner, x :: rest => x.stays names inner && staysAll names inner rest

end

/-- An enumerator whose body is being elaborated. -/
structure Weave where
  /-- The state before the first round. -/
  first : Nat
  header : Machine.State
  /-- Ends every round. -/
  advance : Statement
  /-- The frames around the loop. -/
  outer : List Frame
  /-- The labels of the body. -/
  names : List String

/-- The state is one of the body, and does not end a round. -/
structure Weave.Free (E : Weave) (cs : List Nat) (size k : Nat) : Prop where
  first : E.first < k
  size : k < size
  site : k ∉ cs

/-- The frame of the loop itself. Nothing leaves it, and `cs` go on with the next round. -/
structure Weave.Own (E : Weave) (cs : List Nat) (size : Nat) (f : Frame) : Prop where
  isBody : f.isBody = false
  loop : f.loop = some { anchor := E.first + 1, continues := cs, advance := some E.advance }
  closed : ∀ k ∈ f.closedIf, E.Free cs size k

/-- A frame inside the loop. -/
structure Weave.Inner (E : Weave) (cs : List Nat) (size : Nat) (f : Frame) : Prop where
  isBody : f.isBody = false
  marks : ∀ k ∈ f.marks, E.Free cs size k
  anchor : ∀ l, f.loop = some l → E.first < l.anchor ∧ l.anchor ≤ size

/-- The body as far as it has been elaborated, where `cs` start the next round and `shape` says which
of the frames inside the loop are loops. -/
structure Woven (E : Weave) (cs : List Nat) (shape : List Bool) (c : Context) : Prop where
  begun : E.first < c.draft.machine.size
  header : c.draft.machine.states[E.first]? = some E.header
  nodup : cs.Nodup
  sites : ∀ k ∈ cs, E.first < k ∧ ∃ st block, c.draft.machine.states[k]? = some st ∧
    st.gotos = [] ∧ st.body = block ++ [E.advance]
  others : ∀ k st, E.first < k → k ∉ cs → c.draft.machine.states[k]? = some st →
    ∀ t ∈ st.gotos, t.Within E.names E.first c.draft.machine.size
  frames : ∃ inside own, c.draft.frames = inside ++ own :: E.outer ∧
    inside.map (·.loop.isSome) = shape ∧ E.Own cs c.draft.machine.size own ∧
    ∀ f ∈ inside, E.Inner cs c.draft.machine.size f

/-- The step goes on with the body; the states that it makes to start the next round are new. -/
def Weaves {α : Type} (E : Weave) (shape : List Bool) (x : ElabM α) : Prop :=
  ∀ cs c, Woven E cs shape c → Ensures x c fun _ c' => ∃ cs', Woven E (cs ++ cs') shape c' ∧
    (∀ k ∈ cs', c.draft.machine.size ≤ k) ∧ c.draft.machine.size ≤ c'.draft.machine.size

section

variable {α β : Type} {E : Weave} {cs : List Nat} {shape : List Bool} {c c' : Context}
variable {body : ElabM Unit} {k : Nat}

theorem Woven.lt_size (h : Woven E cs shape c) (hk : k ∈ cs) : k < c.draft.machine.size := by
  obtain ⟨-, st, -, hst, -⟩ := h.sites k hk
  exact (Array.getElem?_eq_some_iff.mp hst).1

theorem Weave.Free.mono {size : Nat} {cs' : List Nat} (h : E.Free cs size k) (size' : Nat)
    (hsize : size ≤ size') (hcs : ∀ j ∈ cs', size ≤ j) : E.Free (cs ++ cs') size' k := by
  refine ⟨h.first, h.size.trans_le hsize, fun hmem => ?_⟩
  rcases List.mem_append.mp hmem with hmem | hmem
  · exact h.site hmem
  · have := hcs k hmem
    have := h.size
    omega

theorem Weaves.pure (a : α) : Weaves E shape (pure a) := by
  intro cs c h
  rw [ensures_pure]
  exact ⟨[], by rwa [List.append_nil], by simp, le_refl _⟩

theorem Weaves.bind {x : ElabM α} {f : α → ElabM β} (hx : Weaves E shape x)
    (hf : ∀ a, Weaves E shape (f a)) : Weaves E shape (x >>= f) := by
  intro cs c h
  rw [ensures_bind]
  refine (hx cs c h).mono ?_
  rintro a c₁ ⟨cs₁, h₁, hnew₁, hsize₁⟩
  refine (hf a (cs ++ cs₁) c₁ h₁).mono ?_
  rintro b c₂ ⟨cs₂, h₂, hnew₂, hsize₂⟩
  refine ⟨cs₁ ++ cs₂, by rwa [← List.append_assoc], fun k hk => ?_, hsize₁.trans hsize₂⟩
  rcases List.mem_append.mp hk with hk | hk
  · exact hnew₁ k hk
  · exact hsize₁.trans (hnew₂ k hk)

/-- Nothing happens to the machine and the frames. -/
theorem Woven.same (h : Woven E cs shape c)
    (hm : c'.draft.machine.states = c.draft.machine.states)
    (hf : c'.draft.frames = c.draft.frames) : Woven E cs shape c' := by
  have hsize : c'.draft.machine.size = c.draft.machine.size := congrArg Array.size hm
  constructor
  · rw [hsize]; exact h.begun
  · rw [hm]; exact h.header
  · exact h.nodup
  · rw [hm]; exact h.sites
  · rw [hm, hsize]; exact h.others
  · rw [hsize, hf]; exact h.frames

theorem Weaves.of_same {x : ElabM α} (hx : ∀ c, Ensures x c fun _ c' =>
    c'.draft.machine.states = c.draft.machine.states ∧ c'.draft.frames = c.draft.frames) :
    Weaves E shape x := by
  intro cs c h
  refine (hx c).mono ?_
  rintro a c' ⟨hm, hf⟩
  refine ⟨[], ?_, by simp, (congrArg Array.size hm).ge⟩
  rw [List.append_nil]
  exact h.same hm hf

theorem Weaves.passive {x : ElabM α} (hx : Passive x) : Weaves E shape x :=
  .of_same fun c => (hx c).mono fun _ _ h => ⟨h.states, h.frames⟩

/-! ## States and frames -/

/-- The innermost frame forgets a closed branch, or takes a new one. -/
theorem Woven.closed (h : Woven E cs shape c) {o : Option Nat}
    (ho : ∀ k ∈ o, E.Free cs c.draft.machine.size k) :
    Woven E cs shape { c with draft := { c.draft with
      frames := c.draft.frames.modifyHead fun f => { f with closedIf := o } } } := by
  refine ⟨h.begun, h.header, h.nodup, h.sites, h.others, ?_⟩
  obtain ⟨inside, own, hframes, hshape, hown, hinside⟩ := h.frames
  cases inside with
  | nil =>
    refine ⟨[], { own with closedIf := o }, ?_, hshape, ⟨hown.isBody, hown.loop, ho⟩, by simp⟩
    simp [hframes]
  | cons f inside =>
    refine ⟨{ f with closedIf := o } :: inside, own, ?_, hshape, hown, fun g hg => ?_⟩
    · simp [hframes]
    · rcases List.mem_cons.mp hg with rfl | hg
      · have hf := hinside f List.mem_cons_self
        refine ⟨hf.isBody, fun k hk => ?_, hf.anchor⟩
        rcases List.mem_append.mp hk with hk | hk
        · exact ho k (by simpa using hk)
        · exact hf.marks k (List.mem_append_right _ hk)
      · exact hinside g (List.mem_cons_of_mem _ hg)

/-- One more state at the end, which leads nowhere yet. -/
theorem Woven.extend (h : Woven E cs shape c) (st : Machine.State) (hst : st.gotos = [])
    (hm : c'.draft.machine = { c.draft.machine with states := c.draft.machine.states.push st })
    (hf : c'.draft.frames = c.draft.frames) : Woven E cs shape c' := by
  have hsize : c'.draft.machine.size = c.draft.machine.size + 1 := by simp [hm, Machine.size]
  have hle : c.draft.machine.size ≤ c'.draft.machine.size := by omega
  have hold : ∀ k, k < c.draft.machine.size →
      c'.draft.machine.states[k]? = c.draft.machine.states[k]? := by
    intro k hk
    have hne : k ≠ c.draft.machine.states.size := Nat.ne_of_lt hk
    simp [hm, Array.getElem?_push, hne]
  have hfree : ∀ k, E.Free cs c.draft.machine.size k → E.Free cs c'.draft.machine.size k :=
    fun k hk => ⟨hk.first, hk.size.trans_le hle, hk.site⟩
  constructor
  · exact h.begun.trans_le hle
  · exact (hold _ h.begun).trans h.header
  · exact h.nodup
  · intro k hk
    obtain ⟨hfirst, st, block, hst, hrest⟩ := h.sites k hk
    exact ⟨hfirst, st, block, (hold k (h.lt_size hk)).trans hst, hrest⟩
  · intro k st' hfirst hk hst' t ht
    by_cases hlt : k < c.draft.machine.size
    · exact (h.others k st' hfirst hk ((hold k hlt).symm.trans hst') t ht).mono hle
    · -- the new state has no transitions
      obtain rfl : k = c.draft.machine.states.size := by
        have hk' := (Array.getElem?_eq_some_iff.mp hst').1
        simp only [hm, Array.size_push] at hk'
        have hdef : c.draft.machine.size = c.draft.machine.states.size := rfl
        omega
      rw [hm, Array.getElem?_push_size, Option.some.injEq] at hst'
      rw [← hst', hst] at ht
      simp at ht
  · obtain ⟨inside, own, hframes, hshape, hown, hinside⟩ := h.frames
    refine ⟨inside, own, hf.trans hframes, hshape, ?_, fun f hf => ?_⟩
    · exact ⟨hown.isBody, hown.loop, fun k hk => hfree k (hown.closed k hk)⟩
    · have hi := hinside f hf
      exact ⟨hi.isBody, fun k hk => hfree k (hi.marks k hk),
        fun l hl => ⟨(hi.anchor l hl).1, (hi.anchor l hl).2.trans hle⟩⟩

/-- The state that is made next is free. -/
theorem Woven.free_size (h : Woven E cs shape c) {size : Nat} (hsize : c.draft.machine.size < size) :
    E.Free cs size c.draft.machine.size :=
  ⟨h.begun, hsize, fun hmem => Nat.lt_irrefl _ (h.lt_size hmem)⟩

/-- A new state, which is free and holds the statements that were pending. -/
theorem Woven.step (h : Woven E cs shape c) : Ensures step c fun k c' =>
    Woven E cs shape c' ∧ E.Free cs c'.draft.machine.size k ∧ k = c.draft.machine.size ∧
      c'.draft.machine.size = c.draft.machine.size + 1 ∧ c.draft.blocks.depth = 0 ∧
      c'.draft.frames = c.draft.frames.modifyHead (fun f => { f with closedIf := none }) ∧
      ∃ name, c'.draft.machine.states =
        c.draft.machine.states.push { name, body := c.draft.blocks.outer } := by
  refine .step fun f hdepth => ?_
  have hsize := cut_size c.draft
  have hcut : Woven E cs shape { c with draft := { c.draft.cut with frames := c.draft.frames } } :=
    h.extend { name := c.draft.label, body := c.draft.blocks.outer } rfl rfl rfl
  refine ⟨(hcut.closed (o := none) (by simp)).same rfl rfl, ?_, rfl, hsize, hdepth, rfl,
    c.draft.label, rfl⟩
  exact h.free_size (hsize ▸ Nat.lt_succ_self _)

theorem Weaves.step : Weaves E shape step := by
  intro cs c h
  refine h.step.mono ?_
  rintro k c' ⟨h', _, _, hsize, _⟩
  refine ⟨[], ?_, by simp, by omega⟩
  rwa [List.append_nil]

theorem Weaves.stepIfWaiting : Weaves E shape stepIfWaiting := by
  intro cs c h
  simp only [Program.stepIfWaiting, ensures_ops, ensures_ite]
  exact ⟨fun _ => Weaves.step cs c h, fun _ => ensures_pure.mp (Weaves.pure () cs c h)⟩

theorem Woven.addGoto (h : Woven E cs shape c) (hk : E.Free cs c.draft.machine.size k)
    {t : Transition Expr} (ht : t.Within E.names E.first c.draft.machine.size) :
    Woven E cs shape { c with draft := { c.draft with machine := c.draft.machine.addGoto k t } } := by
  have hsize := addGoto_size c.draft.machine k t
  constructor
  · rw [hsize]; exact h.begun
  · rw [Machine.addGoto_other _ (Nat.ne_of_lt hk.first)]
    exact h.header
  · exact h.nodup
  · intro j hj
    have hne : j ≠ k := fun he => hk.site (he ▸ hj)
    rw [Machine.addGoto_other _ hne]
    exact h.sites j hj
  · intro j st hfirst hj hst u hu
    rw [hsize]
    by_cases hne : j = k
    · subst hne
      have hlt : j < c.draft.machine.states.size := hk.size
      simp only [addGoto_eq hk.size, Array.getElem?_modify, if_true] at hst
      rw [Array.getElem?_eq_getElem hlt, Option.map_some, Option.some.injEq] at hst
      rw [← hst] at hu
      rcases List.mem_append.mp hu with hu | hu
      · exact h.others j _ hfirst hj (Array.getElem?_eq_getElem hlt) u hu
      · rwa [List.mem_singleton.mp hu]
    · rw [Machine.addGoto_other _ hne] at hst
      exact h.others j st hfirst hj hst u hu
  · rw [hsize]; exact h.frames

theorem Woven.addGotos (h : Woven E cs shape c) {ks : List Nat}
    (hks : ∀ k ∈ ks, E.Free cs c.draft.machine.size k) {t : Transition Expr}
    (ht : t.Within E.names E.first c.draft.machine.size) :
    Ensures (ks.forM fun k => Program.addGoto k t) c fun _ c' =>
      Woven E cs shape c' ∧ c'.draft.machine.size = c.draft.machine.size := by
  refine Ensures.forM ⟨h, rfl⟩ ?_
  rintro k hk c₁ ⟨h₁, hsize₁⟩
  rw [ensures_addGoto]
  refine ⟨h₁.addGoto (hsize₁ ▸ hks k hk) (hsize₁ ▸ ht), ?_⟩
  exact (addGoto_size _ _ _).trans hsize₁

theorem Woven.push (h : Woven E cs shape c) {f : Frame} (hf : E.Inner cs c.draft.machine.size f) :
    Woven E cs (f.loop.isSome :: shape)
      { c with draft := { c.draft with frames := f :: c.draft.frames } } := by
  refine ⟨h.begun, h.header, h.nodup, h.sites, h.others, ?_⟩
  obtain ⟨inside, own, hframes, hshape, hown, hinside⟩ := h.frames
  refine ⟨f :: inside, own, by simp [hframes], by simp [hshape], hown, fun g hg => ?_⟩
  rcases List.mem_cons.mp hg with rfl | hg
  · exact hf
  · exact hinside g hg

theorem Woven.pop {b : Bool} (h : Woven E cs (b :: shape) c) :
    (c.draft.frames.headD {}).loop.isSome = b ∧
      E.Inner cs c.draft.machine.size (c.draft.frames.headD {}) ∧
      Woven E cs shape { c with draft := { c.draft with frames := c.draft.frames.tail } } := by
  obtain ⟨inside, own, hframes, hshape, hown, hinside⟩ := h.frames
  cases inside with
  | nil => simp at hshape
  | cons f inside =>
    obtain ⟨hb, hrest⟩ := List.cons.inj hshape
    rw [hframes]
    refine ⟨hb, hinside f List.mem_cons_self, h.begun, h.header, h.nodup, h.sites, h.others, ?_⟩
    exact ⟨inside, own, rfl, hrest, hown, fun g hg => hinside g (List.mem_cons_of_mem _ hg)⟩

/-! ## Constructs -/

theorem Weaves.ifThen (hbody : Weaves E (false :: shape) body) (test : Expr) :
    Weaves E shape (ifThen test body) := by
  intro cs c h
  simp only [ifThen_eq, openBranch, closeBranch, ensures_ops, ensures_modifyTop]
  refine h.step.mono ?_
  rintro st c₁ ⟨h₁, hfree, hst, hsize₁, _⟩
  refine (hbody cs _ (h₁.push (f := {}) ⟨rfl, by simp [Frame.marks], by simp⟩)).mono ?_
  rintro _ c₂ ⟨cs', h₂, hnew, hsize₂⟩
  refine h₂.step.mono ?_
  rintro yes c₃ ⟨h₃, hyes, hy, hsize₃, _⟩
  dsimp only at hnew hsize₂
  have hst₃ := hfree.mono c₃.draft.machine.size (by omega) hnew
  have hgoto := h₃.pop.2.2.addGoto (t := ⟨test.toOption, some (.after st), some (.after yes)⟩) hst₃
    (Transition.within_both (Target.within_after hst₃.first.le hst₃.size)
      (Target.within_after hyes.first.le hyes.size))
  refine ⟨cs', hgoto.closed (o := some yes) ?_, fun k hk => ?_, ?_⟩
  · simpa [addGoto_size] using hyes
  · have := hnew k hk
    omega
  · simp only [addGoto_size]
    omega

theorem Woven.closedIf (h : Woven E cs shape c) {yes : Nat}
    (hyes : c.draft.frames.head?.bind Frame.closedIf = some yes) :
    E.Free cs c.draft.machine.size yes := by
  obtain ⟨inside, own, hframes, -, hown, hinside⟩ := h.frames
  rw [hframes] at hyes
  cases inside with
  | nil => exact hown.closed yes hyes
  | cons f inside =>
    refine (hinside f List.mem_cons_self).marks yes ?_
    rw [Frame.marks, show f.closedIf = some yes from hyes]
    exact List.mem_cons_self

theorem Weaves.orElse (hbody : Weaves E (false :: shape) body) : Weaves E shape (orElse body) := by
  intro cs c h
  simp only [orElse_eq, openElse, closeElse, ensures_ops]
  split
  · next yes hyes _ =>
    simp only [ensures_ops, ensures_modifyTop]
    have hfree := h.closedIf hyes
    refine (hbody cs _ ((h.closed (o := none) (by simp)).push (f := {})
      ⟨rfl, by simp [Frame.marks], by simp⟩)).mono ?_
    rintro _ c₂ ⟨cs', h₂, hnew, hsize₂⟩
    refine h₂.step.mono ?_
    rintro no c₃ ⟨h₃, hno, hn, hsize₃, _⟩
    dsimp only at hnew hsize₂
    have hyes₃ := hfree.mono c₃.draft.machine.size (by omega) hnew
    refine ⟨cs', h₃.pop.2.2.addGoto hyes₃ ?_, hnew, ?_⟩
    · exact Transition.within_jump (Target.within_after hno.first.le hno.size)
    · simp only [addGoto_size]
      omega
  · simp

theorem Weaves.emit (st : Statement) : Weaves E shape (emit st) :=
  .of_same fun _ => ensures_emit.mpr ⟨rfl, rfl⟩

/-- A loop of the body; what ends its rounds and what leaves it stays within the loop around it. -/
theorem Weaves.loop (hbody : Weaves E (true :: shape) body) (head tail : Option Expr)
    (advance : Option Statement) : Weaves E shape (loop head tail advance body) := by
  intro cs c h
  simp only [loop_eq, openLoop, closeLoop, ensures_ops]
  refine h.step.mono ?_
  rintro st c₁ ⟨h₁, hfree, hst, hsize₁, _⟩
  have hpush := h₁.push (f := { loop := some { anchor := st + 1, advance } })
    ⟨rfl, by simp [Frame.marks], fun l hl => by
      cases hl
      have := hfree.first
      exact ⟨by dsimp only; omega, by dsimp only; omega⟩⟩
  refine (hbody cs _ hpush).mono ?_
  rintro _ c₂ ⟨cs', h₂, hnew, hsize₂⟩
  dsimp only at hnew hsize₂
  refine Ensures.mono (P := fun _ c₃ => Woven E (cs ++ cs') (true :: shape) c₃ ∧
    c₃.draft.machine.size = c₂.draft.machine.size) ?_ ?_
  · cases advance with
    | none => exact ensures_pure.mpr ⟨h₂, rfl⟩
    | some next => exact ensures_emit.mpr ⟨h₂.same rfl rfl, rfl⟩
  rintro _ c₃ ⟨h₃, hsize₃⟩
  refine h₃.step.mono ?_
  rintro yes c₄ ⟨h₄, hyes, _, hsize₄, _⟩
  have hst₄ := hfree.mono c₄.draft.machine.size (by omega) hnew
  obtain ⟨hloop, hinner, hpop⟩ := h₄.pop
  have hedge : ∀ test, Transition.Within E.names E.first c₄.draft.machine.size (loopEdge test st yes) :=
    fun test => loopEdge_within test hst₄.first.le hst₄.size hyes.first.le hyes.size
  have hgotos := (hpop.addGoto hst₄ (hedge head)).addGoto (t := loopEdge tail st yes)
    (by simpa only [addGoto_size] using hyes) (by simpa only [addGoto_size] using hedge tail)
  have hmarks : ∀ k ∈ ((c₄.draft.frames.headD {}).loop.getD { anchor := st + 1 }).breaks ++
      ((c₄.draft.frames.headD {}).loop.getD { anchor := st + 1 }).continues,
      E.Free (cs ++ cs') c₄.draft.machine.size k := by
    intro k hk
    apply hinner.marks
    obtain ⟨l, hl⟩ := Option.isSome_iff_exists.mp hloop
    rw [hl] at hk
    rw [Frame.marks, hl]
    exact List.mem_append_right _ hk
  refine (hgotos.addGotos (fun k hk => ?_) ?_).mono ?_
  · simpa only [addGoto_size] using hmarks k (List.mem_append_right _ hk)
  · simpa only [addGoto_size] using hedge tail
  · rintro _ c₅ ⟨h₅, hsize₅⟩
    simp only [addGoto_size] at hsize₅
    refine (h₅.addGotos (fun k hk => ?_) ?_).mono ?_
    · exact hsize₅ ▸ hmarks k (List.mem_append_left _ hk)
    · exact hsize₅ ▸ Transition.within_jump (Target.within_after hyes.first.le hyes.size)
    · rintro _ c₆ ⟨h₆, hsize₆⟩
      refine ⟨cs', h₆, fun k hk => ?_, by omega⟩
      have := hnew k hk
      omega

/-! ## The nearest loop -/

/-- A loop inside the body is nearer than the one around it. -/
theorem nearest_inside {P : Frame → Prop} (change : LoopFrame → LoopFrame) {inside : List Frame}
    (rest : List Frame)
    (hloop : true ∈ inside.map (·.loop.isSome)) (hbody : ∀ f ∈ inside, f.isBody = false)
    (hP : ∀ f ∈ inside, P f)
    (hchange : ∀ f l, P f → f.loop = some l → P { f with loop := some (change l) }) :
    (∃ f ∈ inside, f.loop = nearestLoop (inside ++ rest)) ∧
      ∃ inside', modifyNearest change (inside ++ rest) = inside' ++ rest ∧
        inside'.map (·.loop.isSome) = inside.map (·.loop.isSome) ∧ ∀ f ∈ inside', P f := by
  induction inside with
  | nil => simp at hloop
  | cons f inside ih =>
    rw [List.cons_append, nearestLoop, modifyNearest]
    cases hf : f.loop with
    | some l =>
      refine ⟨⟨f, List.mem_cons_self, hf⟩, { f with loop := some (change l) } :: inside, rfl,
        by simp [hf], fun g hg => ?_⟩
      rcases List.mem_cons.mp hg with rfl | hg
      · exact hchange f l (hP f List.mem_cons_self) hf
      · exact hP g (List.mem_cons_of_mem _ hg)
    | none =>
      have hin : true ∈ inside.map (·.loop.isSome) := by simpa [hf] using hloop
      obtain ⟨⟨g, hg, hnearest⟩, inside', hmodify, hshape, hP'⟩ := ih hin
        (fun g hg => hbody g (List.mem_cons_of_mem _ hg)) fun g hg => hP g (List.mem_cons_of_mem _ hg)
      simp only [hbody f List.mem_cons_self, Bool.false_eq_true, if_false]
      refine ⟨⟨g, List.mem_cons_of_mem _ hg, hnearest⟩, f :: inside', by simp [hmodify],
        by simp [hshape], fun g hg => ?_⟩
      rcases List.mem_cons.mp hg with rfl | hg
      · exact hP _ List.mem_cons_self
      · exact hP' g hg

/-- Without one, the loop around the body is the nearest. -/
theorem nearest_own (change : LoopFrame → LoopFrame) {inside : List Frame}
    (rest : List Frame) {own : Frame}
    {l : LoopFrame} (hloop : true ∉ inside.map (·.loop.isSome))
    (hbody : ∀ f ∈ inside, f.isBody = false) (hown : own.loop = some l) :
    nearestLoop (inside ++ own :: rest) = some l ∧ modifyNearest change (inside ++ own :: rest) =
      inside ++ { own with loop := some (change l) } :: rest := by
  induction inside with
  | nil => simp [nearestLoop, modifyNearest, hown]
  | cons f inside ih =>
    simp only [List.map_cons, List.mem_cons, not_or] at hloop
    have hf : f.loop = none := by
      cases hf : f.loop with
      | none => rfl
      | some l => exact absurd (by simp [hf]) hloop.1
    obtain ⟨hnearest, hmodify⟩ := ih hloop.2 fun g hg => hbody g (List.mem_cons_of_mem _ hg)
    rw [List.cons_append, nearestLoop, modifyNearest, hf, hnearest, hmodify]
    simp [hbody f List.mem_cons_self]

/-- A free state is kept for a loop inside the body. -/
theorem Woven.keep (h : Woven E cs shape c) (hs : true ∈ shape) {change : LoopFrame → LoopFrame}
    (hanchor : ∀ l, (change l).anchor = l.anchor)
    (hchange : ∀ l, (∀ k ∈ l.breaks ++ l.continues, E.Free cs c.draft.machine.size k) →
      ∀ k ∈ (change l).breaks ++ (change l).continues, E.Free cs c.draft.machine.size k) :
    Woven E cs shape { c with draft := { c.draft with
      frames := modifyNearest change c.draft.frames } } := by
  refine ⟨h.begun, h.header, h.nodup, h.sites, h.others, ?_⟩
  obtain ⟨inside, own, hframes, hshape, hown, hinside⟩ := h.frames
  obtain ⟨-, inside', hmodify, hshape', hinside'⟩ := nearest_inside
    (P := E.Inner cs c.draft.machine.size) change (own :: E.outer) (hshape ▸ hs)
    (fun f hf => (hinside f hf).isBody)
    hinside fun f l hf hl => by
      refine ⟨hf.isBody, fun k hk => ?_, fun l' hl' => ?_⟩
      · rcases List.mem_append.mp hk with hk | hk
        · exact hf.marks k (List.mem_append_left _ hk)
        · refine hchange l (fun j hj => hf.marks j ?_) k hk
          rw [Frame.marks, hl]
          exact List.mem_append_right _ hj
      · cases hl'
        rw [hanchor]
        exact hf.anchor l hl
  rw [hframes]
  exact ⟨inside', own, hmodify, hshape'.trans hshape, hown, hinside'⟩

theorem Woven.anchor (h : Woven E cs shape c) (hs : true ∈ shape) {l : LoopFrame}
    (hl : nearestLoop c.draft.frames = some l) :
    E.first < l.anchor ∧ l.anchor ≤ c.draft.machine.size := by
  obtain ⟨inside, own, hframes, hshape, hown, hinside⟩ := h.frames
  obtain ⟨⟨f, hf, hloop⟩, -⟩ := nearest_inside (P := fun _ => True) id (own :: E.outer)
    (hshape ▸ hs) (fun f hf => (hinside f hf).isBody) (fun _ _ => trivial) fun _ _ _ _ => trivial
  rw [hframes, ← hloop] at hl
  exact (hinside f hf).anchor l hl

theorem Weaves.breakLoop (hs : true ∈ shape) : Weaves E shape breakLoop := by
  intro cs c h
  simp only [Program.breakLoop, ensures_ops]
  refine h.step.mono ?_
  rintro st c₁ ⟨h₁, hfree, _, hsize, _⟩
  split
  · simp
  · simp only [modifyLoop, ensures_ops]
    refine ⟨[], ?_, by simp, by omega⟩
    rw [List.append_nil]
    refine h₁.keep hs (fun _ => rfl) fun l hl k hk => ?_
    simp only [List.mem_append, List.mem_singleton] at hk
    rcases hk with (hk | rfl) | hk
    · exact hl k (List.mem_append_left _ hk)
    · exact hfree
    · exact hl k (List.mem_append_right _ hk)

/-- The next round of a loop inside the body. -/
theorem Woven.nextRound_inside (h : Woven E cs shape c) (hs : true ∈ shape) :
    Ensures nextRound c fun _ c' => Woven E cs shape c' ∧
      c.draft.machine.size ≤ c'.draft.machine.size := by
  simp only [Program.nextRound, ensures_ops]
  split
  · simp
  · next l hl =>
    split
    · next next _ =>
      simp only [ensures_ops, modifyLoop]
      refine Ensures.mono (Woven.step (h.same ?_ ?_ : Woven E cs shape _)) ?_
      any_goals rfl
      rintro st c₁ ⟨h₁, hfree, _, hsize, _⟩
      dsimp only at hsize
      refine ⟨h₁.keep hs (fun _ => rfl) fun l hl k hk => ?_, by omega⟩
      simp only [List.mem_append, List.mem_singleton] at hk
      rcases hk with hk | hk | rfl
      · exact hl k (List.mem_append_left _ hk)
      · exact hl k (List.mem_append_right _ hk)
      · exact hfree
    · obtain ⟨hfirst, hle⟩ := h.anchor hs hl
      simp only [ensures_ops]
      refine h.step.mono ?_
      rintro st c₁ ⟨h₁, hfree, _, hsize, _⟩
      refine ⟨h₁.addGoto hfree (Transition.within_jump (Target.within_state hfirst ?_)), ?_⟩
      · omega
      · rw [addGoto_size]
        omega

theorem outer_emit {b : Blocks} {st : Statement} (hdepth : (b.emit st).depth = 0) :
    (b.emit st).outer = b.outer ++ [st] := by
  cases hi : b.inner with
  | nil => simp [Blocks.emit, hi]
  | cons block rest => simp [Blocks.emit, Blocks.depth, hi] at hdepth

/-- The next round of the enumerator itself: one more state that ends a round. -/
theorem Woven.nextRound_own (h : Woven E cs shape c) (hs : true ∉ shape) :
    Ensures nextRound c fun st c' => Woven E (cs ++ [st]) shape c' ∧ st = c.draft.machine.size ∧
      c.draft.machine.size ≤ c'.draft.machine.size := by
  obtain ⟨inside, own, hframes, hshape, hown, hinside⟩ := h.frames
  have hnearest := (nearest_own id E.outer (hshape ▸ hs) (fun f hf => (hinside f hf).isBody)
    hown.loop).1
  rw [← hframes] at hnearest
  simp only [Program.nextRound, ensures_ops, hnearest, modifyLoop]
  refine Ensures.mono (Woven.step (h.same ?_ ?_ : Woven E cs shape _)) ?_
  any_goals rfl
  rintro st c₁ ⟨h₁, hfree, hst, hsize, hdepth, hframes₁, name, hstates⟩
  dsimp only at hst hsize hdepth hframes₁ hstates
  refine ⟨?_, hst, by omega⟩
  have hold : ∀ k, E.Free cs c.draft.machine.size k →
      E.Free (cs ++ [st]) c₁.draft.machine.size k := fun k hk =>
    hk.mono _ (by omega) (by simp [hst])
  constructor
  · exact h₁.begun
  · exact h₁.header
  · refine List.Nodup.append h₁.nodup (List.nodup_singleton st) ?_
    simpa using hfree.site
  · intro k hk
    rcases List.mem_append.mp hk with hk | hk
    · exact h₁.sites k hk
    · rw [List.mem_singleton.mp hk]
      refine ⟨hfree.first, { name, body := c.draft.blocks.outer ++ [E.advance] },
        c.draft.blocks.outer, ?_, rfl, rfl⟩
      rw [hst, hstates, outer_emit hdepth]
      exact Array.getElem?_push_size
  · intro k st' hfirst hk hst' t ht
    exact h₁.others k st' hfirst (fun hmem => hk (List.mem_append_left _ hmem)) hst' t ht
  · -- the frame of the loop keeps the new state, all others are as before
    obtain ⟨inside, own, hframes, hshape, hown, hinside⟩ := (h.closed (o := none) (by simp)).frames
    dsimp only at hframes hown hinside
    have hmodify := (nearest_own (fun l => { l with continues := l.continues ++ [st] }) E.outer
      (hshape ▸ hs) (fun f hf => (hinside f hf).isBody) hown.loop).2
    refine ⟨inside, _, by rw [hframes₁, hframes, hmodify], hshape, ?_, fun f hf => ?_⟩
    · exact ⟨hown.isBody, rfl, fun k hk => hold k (hown.closed k hk)⟩
    · have hi := hinside f hf
      refine ⟨hi.isBody, fun k hk => hold k (hi.marks k hk), fun l hl => ?_⟩
      exact ⟨(hi.anchor l hl).1, (hi.anchor l hl).2.trans (by dsimp only; omega)⟩

theorem Weaves.nextRound : Weaves E shape nextRound := by
  intro cs c h
  by_cases hs : true ∈ shape
  · refine (h.nextRound_inside hs).mono ?_
    rintro _ c' ⟨h', hsize⟩
    refine ⟨[], ?_, by simp, hsize⟩
    rwa [List.append_nil]
  · refine (h.nextRound_own hs).mono ?_
    rintro st c' ⟨h', hst, hsize⟩
    exact ⟨[st], h', by simp [hst], hsize⟩

theorem Weaves.goto {name : String} (hname : name ∈ E.names) : Weaves E shape (goto name) := by
  intro cs c h
  simp only [Program.goto, ensures_ops]
  refine h.step.mono ?_
  rintro st c₁ ⟨h₁, hfree, _, hsize, _⟩
  refine ⟨[], ?_, by simp, ?_⟩
  · rw [List.append_nil]
    exact h₁.addGoto hfree (Transition.within_jump (.inr ⟨name, hname, rfl⟩))
  · rw [addGoto_size]
    omega

/-! ## Commands -/

theorem Weaves.recordState {make : ElabM Nat} (hmake : Weaves E shape make) (command : String) :
    Weaves E shape (recordState command make) :=
  .bind hmake fun _ => .passive (.record command _)

theorem Weaves.modifyModule (f : Module → Module) : Weaves E shape (modifyModule f) :=
  .of_same fun _ => ensures_modifyModule.mpr ⟨rfl, rfl⟩

theorem Weaves.declare (f : Module → SignalId × Module) : Weaves E shape (declare f) :=
  .of_same fun _ => ensures_declare.mpr ⟨rfl, rfl⟩

theorem Weaves.count {body : Expr → ElabM Unit} (hbody : ∀ i, Weaves E (true :: shape) (body i))
    (limit : Expr) : Weaves E shape (count limit body) := by
  refine .bind .stepIfWaiting fun _ => .bind (.passive .getSymbols) fun g => ?_
  refine .bind (.passive (.require _)) fun shared => .bind (.modifyModule _) fun _ => ?_
  refine .bind (.declare _) fun i => .bind (.emit _) fun _ => ?_
  refine .bind (.passive (.relate _ _ _)) fun head => .bind (.passive (.relate _ _ _)) fun tail => ?_
  exact .loop (hbody _) _ _ _

theorem Weaves.label (name : String) : Weaves E shape (label name) := by
  intro cs c h
  simp only [Program.label, ensures_bind, ensures_getDraft, ensures_ite, ensures_fail, implies_true,
    true_and]
  refine fun _ => (Weaves.stepIfWaiting cs c h).mono ?_
  rintro _ c₁ ⟨cs', h₁, hnew, hsize⟩
  exact ensures_modifyDraft.mpr ⟨cs', h₁.same rfl rfl, hnew, hsize⟩

theorem Weaves.newState (name : String) : Weaves E shape (do
    match (← getDraft).machine.newState name with
    | .ok (id, machine) =>
      modifyMachine fun _ => machine
      Program.record "fsm_state" (.declared (.ok id))
    | .error e => Program.record "fsm_state" (.declared (.error e))) := by
  intro cs c h
  rw [ensures_bind, ensures_getDraft]
  cases hn : c.draft.machine.newState name with
  | error e => exact Weaves.passive (.record _ _) cs c h
  | ok made =>
    obtain ⟨id, machine⟩ := made
    obtain ⟨-, rfl⟩ := newState_ok hn
    rw [ensures_bind, ensures_modifyMachine, ensures_record]
    refine ⟨[], ?_, by simp, by simp [Machine.size]⟩
    rw [List.append_nil]
    exact h.extend { name } rfl rfl rfl

theorem Weaves.simple (call : Caller) : ∀ (shape : List Bool) (x : Command),
    x.stays E.names (shape.contains true) = true → x.isConstruct = false →
    Weaves E shape (perform call x)
  | _, .assign dest value, _, _ =>
    .bind (.passive (.resolveSignal dest)) fun i => .bind (.passive (.resolve value)) fun e => .emit _
  | _, .assignAt dest index value, _, _ =>
    .bind (.passive (.resolveSignal dest)) fun i => .bind (.passive (.resolve index)) fun j =>
      .bind (.passive (.resolve value)) fun e => .emit _
  | _, .step, _, _ => .recordState .step "step"
  | shape, .breakLoop, h, _ => .recordState (.breakLoop (by simpa [Command.stays] using h)) "break"
  | _, .nextRound, _, _ => .recordState .nextRound "continue"
  | _, .label name, _, _ => .label name
  | _, .goto name, h, _ => .recordState (.goto (by simpa [Command.stays] using h)) "goto"
  | _, .define name depth returns overflow body, _, _ => by
    rw [Program.perform]
    refine .of_same fun c => ?_
    simp [defineFunction]
  | _, .reg .., _, _ | _, .memory .., _, _ | _, .bind .., _, _ | _, .probe _, _, _
  | _, .resize .., _, _ => .passive (.perform call rfl)
  | _, .newState name, _, _ => .newState name
  | _, .terminate, h, _ | _, .call .., h, _ | _, .callDepth .., h, _ | _, .ret _, h, _
  | _, .stateBody .., h, _ | _, .stateGoto .., h, _ | _, .buildMachine, h, _ => by
    simp [Command.stays] at h

theorem Command.stays_of_mem {names : List String} {inner : Bool} {body : List Command}
    (h : staysAll names inner body = true) : ∀ x ∈ body, x.stays names inner = true := by
  induction body with
  | nil => simp
  | cons x rest ih =>
    rw [staysAll, Bool.and_eq_true] at h
    exact List.forall_mem_cons.mpr ⟨h.1, ih h.2⟩

theorem Weaves.walk (E : Weave) (call : Caller) : Walk (List.cons false) (List.cons true)
    (fun shape _ x => Weaves E shape x) (fun shape x => x.stays E.names (shape.contains true) = true)
    call where
  pure _ := .pure ()
  bind := .bind
  record _ command fact := .passive (.record command fact)
  bindVar _ name e := .passive (.bindVar name e)
  getSymbols _ := .passive .getSymbols
  resolveSignal _ name := .passive (.resolveSignal name)
  exactNumber _ n := .passive (.exactNumber n)
  resolve _ _ := .passive (.resolve _)
  ifThen test hbody := .ifThen hbody test
  orElse := .orElse
  loop test hbody := .loop hbody test test none
  count limit hbody := .count hbody limit
  choice _ hthn hels := choice_of_emit (P := fun _ x => Weaves E _ x) .bind (.passive (.resolve _))
    (.of_same fun _ => ensures_openBlock.mpr ⟨rfl, rfl⟩)
    (.of_same fun _ => ensures_closeBlock.mpr ⟨rfl, rfl⟩) .emit hthn hels
  simple h hx := .simple call _ _ h hx
  parts {shape x} h := by
    cases x with
    | when test thn els =>
      rw [Command.stays, Bool.and_eq_true] at h
      exact List.forall_mem_append.mpr ⟨Command.stays_of_mem h.1, Command.stays_of_mem h.2⟩
    | ifThen test body | orElse body | whileLoop test body | loop body | count limit index body
    | times n index body | each mem word index body =>
      exact Command.stays_of_mem (by simpa [Command.stays, Command.frames, Command.parts] using h)
    | _ => simp [Command.parts]

theorem Weaves.performAll (call : Caller) (shape : List Bool) (body : List Command)
    (h : Command.staysAll E.names (shape.contains true) body = true) :
    Weaves E shape (performAll call body) :=
  (Weaves.walk E call).performAll shape body (Command.stays_of_mem h)

/-! ## Opening and closing the loop -/

/-- An enumerator in a machine: a state before the first round, states that end a round, and states
that stay within the loop. -/
structure Counter.In (k : Counter) (f : Machine) (names : List String) (last : Nat)
    (sites : List Nat) : Prop where
  header : ∃ name, f.states[k.state]? =
    some { name, body := [k.clear], gotos := [loopEdge (some k.enter) k.state last] }
  after : k.state < last
  closing : last ∈ sites
  ends : ∀ j ∈ sites, k.state < j ∧ j ≤ last ∧ ∃ st block, f.states[j]? = some st ∧
    st.body = block ++ [k.advance] ∧ st.gotos = [loopEdge (some k.again) k.state last]
  others : ∀ j st, k.state < j → j ≤ last → j ∉ sites → f.states[j]? = some st →
    ∀ t ∈ st.gotos, t.Within names k.state last

theorem addGoto_self (f : Machine) (k : Nat) (t : Transition Expr) :
    (f.addGoto k t).states[k]? = f.states[k]?.map fun s => { s with gotos := s.gotos ++ [t] } := by
  by_cases hk : k < f.size
  · rw [addGoto_eq hk]
    simp [Array.getElem?_modify]
  · have hnone : f.states[k]? = none := Array.getElem?_eq_none (Nat.not_lt.mp hk)
    have hsize := addGoto_size f k t
    rw [hnone, Option.map_none]
    exact Array.getElem?_eq_none (by rw [Machine.size] at hsize; rw [hsize]; exact Nat.not_lt.mp hk)

/-- The transition is added to each of the states once. -/
theorem ensures_addGotos (t : Transition Expr) {ks : List Nat} (hnodup : ks.Nodup) (c : Context) :
    Ensures (ks.forM fun k => Program.addGoto k t) c fun _ c' =>
      c'.draft.frames = c.draft.frames ∧ c'.draft.machine.size = c.draft.machine.size ∧
      (∀ j ∉ ks, c'.draft.machine.states[j]? = c.draft.machine.states[j]?) ∧
      ∀ j ∈ ks, c'.draft.machine.states[j]? =
        c.draft.machine.states[j]?.map fun s => { s with gotos := s.gotos ++ [t] } := by
  induction ks generalizing c with
  | nil => exact ensures_pure.mpr ⟨rfl, rfl, fun _ _ => rfl, by simp⟩
  | cons k ks ih =>
    obtain ⟨hk, hks⟩ := List.nodup_cons.mp hnodup
    rw [List.forM_eq_forM, List.forM_cons, ensures_bind, ensures_addGoto]
    refine (ih hks _).mono ?_
    rintro _ c' ⟨hframes, hsize, hother, hown⟩
    refine ⟨hframes, hsize.trans (addGoto_size _ _ _), fun j hj => ?_, fun j hj => ?_⟩
    · rw [hother j fun hmem => hj (List.mem_cons_of_mem _ hmem)]
      have hne : j ≠ k := fun he => hj (he ▸ List.mem_cons_self)
      exact Machine.addGoto_other _ hne t
    · rcases List.mem_cons.mp hj with rfl | hj
      · rw [hother j hk]
        exact addGoto_self _ j t
      · have hne : j ≠ k := fun he => hk (he ▸ hj)
        rw [hown j hj, Machine.addGoto_other _ hne]

/-- Closing the loop wires the state before it and the states that end a round. -/
theorem Woven.closeCount {k : Counter} {name : String} {names : List String} {outer : List Frame}
    (h : Woven ⟨k.state, { name, body := [k.clear] }, k.advance, outer, names⟩ cs [] c) :
    Ensures (closeCount k) c fun last c' => last = c.draft.machine.size ∧
      k.In c'.draft.machine names last (last :: cs) ∧ c'.draft.machine.size = last + 1 ∧
      c'.draft.frames = outer := by
  simp only [Program.closeCount, closeLoop, ensures_ops]
  change Ensures (emit k.advance) c _
  rw [ensures_emit]
  refine Ensures.mono (Woven.step (h.same ?_ ?_ : Woven _ cs [] _)) ?_
  any_goals rfl
  rintro last c₁ ⟨h₁, hfree, hlast, hsize, hdepth, _, name', hstates⟩
  dsimp only at hlast hsize hdepth hstates
  -- the frame of the loop is the innermost one
  obtain ⟨inside, own, hframes, hshape, hown, -⟩ := h₁.frames
  obtain rfl := List.map_eq_nil_iff.mp hshape
  simp only [hframes, List.nil_append, List.headD_cons, hown.loop, Option.getD_some, List.tail_cons]
  refine (ensures_addGotos _ h₁.nodup _).mono ?_
  rintro _ c₂ ⟨hframes₂, hsize₂, hother, hsites⟩
  refine ensures_pure.mpr ⟨hlast, ?_, ?_, hframes₂⟩
  · have hlt : k.state < last := hfree.first
    have hfirst : k.state ∉ cs := fun hmem => Nat.lt_irrefl _ (h₁.sites _ hmem).1
    have hplain : ∀ j, j ≠ k.state → j ≠ last → ((c₁.draft.machine.addGoto k.state
        (loopEdge (some k.enter) k.state last)).addGoto last
        (loopEdge (some k.again) k.state last)).states[j]? = c₁.draft.machine.states[j]? := by
      intro j hj hj'
      rw [Machine.addGoto_other _ hj', Machine.addGoto_other _ hj]
    constructor
    · refine ⟨name, ?_⟩
      rw [hother _ hfirst]
      dsimp only
      rw [Machine.addGoto_other _ (Nat.ne_of_lt hlt), addGoto_self, h₁.header]
      rfl
    · exact hlt
    · exact List.mem_cons_self
    · intro j hj
      rcases List.mem_cons.mp hj with rfl | hj
      · have hclosing : c₂.draft.machine.states[j]? = some ⟨name',
            c.draft.blocks.outer ++ [k.advance], [loopEdge (some k.again) k.state j]⟩ := by
          rw [hother j hfree.site]
          dsimp only
          rw [addGoto_self, Machine.addGoto_other _ (Nat.ne_of_gt hlt), hstates, hlast,
            outer_emit hdepth, show c.draft.machine.size = c.draft.machine.states.size from rfl,
            Array.getElem?_push_size]
          rfl
        exact ⟨hlt, le_refl _, _, _, hclosing, rfl, rfl⟩
      · obtain ⟨hj₁, st, block, hst, hgotos, hbody⟩ := h₁.sites j hj
        have hjl : j ≠ last := fun he => hfree.site (he ▸ hj)
        have hjlt := h₁.lt_size hj
        have hsite : c₂.draft.machine.states[j]? =
            some { st with gotos := st.gotos ++ [loopEdge (some k.again) k.state last] } := by
          rw [hsites j hj]
          dsimp only
          rw [hplain j (Nat.ne_of_gt hj₁) hjl, hst]
          rfl
        exact ⟨hj₁, by omega, _, block, hsite, hbody, by simp [hgotos]⟩
    · intro j st hj hle hmem hst
      obtain ⟨hjl, hjc⟩ := not_or.mp (mt List.mem_cons.mpr hmem)
      rw [hother j hjc] at hst
      dsimp only at hst
      rw [hplain j (Nat.ne_of_gt hj) hjl, hstates, Array.getElem?_push, if_neg] at hst
      · have := h.others j st hj hjc hst
        rwa [← hlast] at this
      · rw [← show c.draft.machine.size = c.draft.machine.states.size from rfl, ← hlast]
        exact hjl
  · rw [hsize₂]
    dsimp only
    rw [addGoto_size, addGoto_size]
    omega

/-- What opening an enumerator in `c` declares. -/
structure Opened (limit : Expr) (c : Context) (k : Counter) (c' : Context) : Prop where
  index : k.index = c.session.module.symbols.signals.size
  state : c.draft.machine.size ≤ k.state
  shared : ∃ g, c.session.module.symbols.shareType limit = some (k.type, g) ∧
    c'.session.module = ({ c.session.module with symbols := g }.declareAt "i" .reg k.type 0 0).2
  enter : c'.session.module.symbols.relate .lt (.const 0 (some k.type)) limit = some k.enter
  again : c'.session.module.symbols.relate .lt k.next limit = some k.again

theorem mem_modifyHead {xs : List α} {f : α → α} {a : α} (h : a ∈ xs.modifyHead f) :
    a ∈ xs ∨ ∃ x ∈ xs, a = f x := by
  cases xs with
  | nil => simp at h
  | cons x xs =>
    rcases List.mem_cons.mp h with rfl | h
    · exact .inr ⟨x, List.mem_cons_self, rfl⟩
    · exact .inl (List.mem_cons_of_mem _ h)

/-- The state before the first round holds nothing but the index being cleared. -/
theorem Opened.of_openCount {r : Context} (h : Sound r c) (limit : Expr) :
    Ensures (openCount limit) c fun k c' => Opened limit c k c' ∧ ∃ name outer,
      (∀ f ∈ outer, ∀ j ∈ f.marks, j < k.state) ∧ ∀ names,
        Woven ⟨k.state, { name, body := [k.clear] }, k.advance, outer, names⟩ [] [] c' := by
  simp only [Program.openCount, openLoop, relate, ensures_ops]
  refine ((Spares.of_heeds (Spared.custody 0 0 r).stepIfWaiting c h).and
    (ensures_stepIfWaiting c)).mono ?_
  rintro _ c₁ ⟨h₁, hblocks, hmodule, hsize⟩
  rintro ⟨type, g⟩ hshare enter henter again hagain
  refine .step fun f hdepth => ?_
  have hbody := (outer_emit hdepth).trans (by rw [hblocks, List.nil_append])
  rw [hmodule] at hshare
  refine ⟨⟨?_, hsize, ⟨g, hshare, ?_⟩, henter, hagain⟩, c₁.draft.label,
    c₁.draft.frames.modifyHead fun f => { f with closedIf := none }, fun f hf j hj => ?_,
      fun names => ?_⟩
  · exact congrArg Array.size (Symbols.shareType_same hshare).1
  · simp only [Context.reported, hmodule]
  · rcases mem_modifyHead hf with hf | ⟨f', hf', rfl⟩
    · exact (h₁.marks f hf j hj).1
    · exact (h₁.marks f' hf' j (by simpa [Frame.marks] using Or.inr hj)).1
  · constructor
    · simp [Draft.cut, Machine.size]
    · simp only [Draft.cut, hbody, Machine.size, Array.getElem?_push_size]
      rfl
    · exact List.nodup_nil
    · simp
    · -- there is no state after the first one yet
      intro j st hj _ hst
      have hlt := (Array.getElem?_eq_some_iff.mp hst).1
      simp only [Draft.cut, Array.size_push] at hlt
      have : c₁.draft.machine.size = c₁.draft.machine.states.size := rfl
      dsimp only at hj
      omega
    · exact ⟨[], _, rfl, rfl, ⟨rfl, rfl, by simp⟩, by simp⟩

end

end Program

end Lockstep
