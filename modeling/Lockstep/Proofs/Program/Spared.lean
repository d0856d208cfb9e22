import Lockstep.Proofs.Program.Custody

/-!
# States that elaboration leaves alone

A range of states that no frame and no open construct points into stays as it is. Every command leaves
such a range alone, but for those that reach past the program into its machine.
-/

namespace Lockstep.Program

section

variable {x : Command} {body rest : List Command}

theorem Regular.within (h : Regular [x]) (hsub : ∀ y ∈ Command.withinAll body, y ∈ x.within) :
    Regular body := Avoids.within h hsub

theorem Regular.head (h : Regular (x :: rest)) : Regular [x] :=
  Avoids.of_subset h fun y hy => by
    simp only [Command.withinAll, List.append_nil] at hy
    simp [Command.withinAll, hy]

theorem Regular.tail (h : Regular (x :: rest)) : Regular rest :=
  Avoids.of_subset h fun y hy => by simp [Command.withinAll, hy]

end

/-- The states from `lo` up to `hi` are those of `r`, and nothing that is open points to them. -/
structure Spared (lo hi : Nat) (r c : Context) : Prop where
  size : hi ≤ c.draft.machine.size
  states : ∀ k, lo ≤ k → k < hi → c.draft.machine.states[k]? = r.draft.machine.states[k]?
  fixed : c.draft.machine.fixed = r.draft.machine.fixed
  marks : ∀ f ∈ c.draft.frames, ∀ k ∈ f.marks, k < c.draft.machine.size ∧ (k < lo ∨ hi ≤ k)
  module : r.session.module.Retains c.session.module
  functions : ∀ f ∈ c.session.functions, f.Avoids Command.isRaw
  clears : r.draft.machine.Clears c.draft.machine

/-- The step keeps that. -/
def Spares {α : Type} (lo hi : Nat) (r : Context) (x : ElabM α) : Prop :=
  ∀ c, Spared lo hi r c → Ensures x c fun _ => Spared lo hi r

/-- What is in hand is outside the range as well. -/
def Spared.Apart (lo hi : Nat) (r : Context) (H : Hand) (c : Context) : Prop :=
  Spared lo hi r c ∧ ∀ k ∈ H.states, k < c.draft.machine.size ∧ (k < lo ∨ hi ≤ k)

section

variable {α β : Type} {lo hi : Nat} {r c c' : Context} {H : Hand} {k : Nat} {x : ElabM α}

theorem Spared.aside (h : Spared lo hi r c) (ha : Aside c c') : Spared lo hi r c' where
  size := ha.size ▸ h.size
  states := ha.states ▸ h.states
  fixed := ha.fixed.trans h.fixed
  marks := by rw [ha.frames, ha.size]; exact h.marks
  module := h.module.trans ha.module
  functions := avoids_of_definitions ha.definitions h.functions
  clears := h.clears.trans ha.clears

/-- A state outside the range changes. -/
theorem Spared.modifyState (h : Spared lo hi r c) (hk : k < lo ∨ hi ≤ k) (what : String)
    (change : Machine.State → Machine.State) : Spared lo hi r { c with draft := { c.draft with
      machine := c.draft.machine.modifyState k what change } } := by
  obtain ⟨fault, hm⟩ := modifyState_eq c.draft.machine k what change
  rw [hm]
  refine ⟨by simpa [Machine.size] using h.size, fun j hlo hhi => ?_, h.fixed,
    by simpa [Machine.size] using h.marks, h.module, h.functions, h.clears⟩
  rw [← h.states j hlo hhi]
  simp [Array.getElem?_modify, show k ≠ j by omega]

theorem Spared.push (h : Spared lo hi r c) (st : Machine.State) :
    Spared lo hi r { c with draft := { c.draft with
      machine := { c.draft.machine with states := c.draft.machine.states.push st } } } := by
  refine ⟨h.size.trans (by simp [Machine.size]), fun k hlo hhi => ?_, h.fixed, fun f hf k hk => ?_,
    h.module, h.functions, h.clears⟩
  · have hne : k ≠ c.draft.machine.states.size := Nat.ne_of_lt (hhi.trans_le h.size)
    rw [← h.states k hlo hhi]
    simp [Array.getElem?_push, hne]
  · obtain ⟨hlt, hclear⟩ := h.marks f hf k hk
    exact ⟨hlt.trans (by simp [Machine.size]), hclear⟩

theorem Spared.redefine (h : Spared lo hi r c) {fs : Array Function}
    (hfs : ∀ f ∈ fs, f.Avoids Command.isRaw) :
    Spared lo hi r { c with session := { c.session with functions := fs } } :=
  ⟨h.size, h.states, h.fixed, h.marks, h.module, hfs, h.clears⟩

theorem Spared.custody (lo hi : Nat) (r : Context) : Custody Command.isRaw (Spared.Apart lo hi r) where
  functions h := h.1.functions
  lt_size h k hk := (h.2 k hk).1
  aside h ha := ⟨h.1.aside ha, fun k hk => ha.size ▸ h.2 k hk⟩
  push {H c st} h _ := by
    refine ⟨h.1.push st, fun k hk => ?_⟩
    rcases List.mem_cons.mp hk with rfl | hk
    · exact ⟨by simp [Machine.size], .inr h.1.size⟩
    · exact ⟨(h.2 k hk).1.trans (by simp [Machine.size]), (h.2 k hk).2⟩
  reframe {H H' c frames} h hpass _ := by
    -- what is held or kept now was held or kept before
    have hold : ∀ k, k ∈ H'.states ++ frames.flatMap Frame.marks →
        k < c.draft.machine.size ∧ (k < lo ∨ hi ≤ k) := by
      intro k hk
      have hmem := List.count_pos_iff.mp ((List.count_pos_iff.mpr hk).trans_le (hpass.count k))
      rcases List.mem_append.mp hmem with hmem | hmem
      · exact h.2 k hmem
      · obtain ⟨f, hf, hkf⟩ := List.mem_flatMap.mp hmem
        exact h.1.marks f hf k hkf
    refine ⟨⟨h.1.size, h.1.states, h.1.fixed, fun f hf k hk => hold k ?_, h.1.module, h.1.functions,
      h.1.clears⟩, fun k hk => hold k (List.mem_append_left _ hk)⟩
    exact List.mem_append_right _ (List.mem_flatMap.mpr ⟨f, hf, hk⟩)
  goto h _ := ⟨h.1.modifyState (h.2 _ List.mem_cons_self).2 _ _, fun k hk => by
    simpa [addGoto_size] using h.2 k (List.mem_cons_of_mem _ hk)⟩
  body h := ⟨h.1.modifyState (h.2 _ List.mem_cons_self).2 _ _, fun k hk => by
    simpa [Machine.addBody_size] using h.2 k hk⟩
  link {H c} h := by
    refine ⟨⟨h.1.size, h.1.states, h.1.fixed, h.1.marks, h.1.module.trans (.of_expands ?_),
      h.1.functions,
      h.1.clears⟩, h.2⟩
    exact ⟨Symbols.newLink_grows _, rfl⟩
  resume h _ _ := ⟨⟨h.1.size, h.1.states, h.1.fixed, h.1.marks, h.1.module, h.1.functions,
    h.1.clears⟩, h.2⟩
  enter s h := ⟨h.1.redefine (avoids_of_definitions
    (definitions_modify _ _ (·.modify s.position _)) h.1.functions), h.2⟩
  define h hf _ := ⟨h.1.redefine fun g hg => (Array.mem_push.mp hg).elim (h.1.functions g)
    fun he => he ▸ hf, h.2⟩

theorem Spares.of_heeds (hx : Heeds (Spared.Apart lo hi r) x) : Spares lo hi r x := fun c h =>
  (hx ⟨[], []⟩ c ⟨h, by simp⟩).mono fun _ _ h' => h'.1.1

theorem Spares.passive (hx : Passive x) : Spares lo hi r x :=
  .of_heeds ((Spared.custody lo hi r).passive hx)

theorem Spares.bind {f : α → ElabM β} (hx : Spares lo hi r x) (hf : ∀ a, Spares lo hi r (f a)) :
    Spares lo hi r (x >>= f) := fun c h =>
  ensures_bind.mpr ((hx c h).mono fun a c' h' => hf a c' h')

/-- A state of another range is in hand. -/
theorem Spared.of_takes (h : Spared lo hi r c) {P : Hand → Hand} {Q : α → Hand → Hand}
    (hP : (P ⟨[], []⟩).states = [k]) (hx : Hands (Spared.Apart lo hi r) P x Q)
    (hk : k < lo) (hsize : k < c.draft.machine.size) : Ensures x c fun _ => Spared lo hi r :=
  (hx ⟨[], []⟩ c ⟨h, by simp [hP, hk, hsize]⟩).mono fun _ _ h' => h'.1.1

theorem Spared.raw {n : Nat} (x : Command) (hx : x.isRaw = true) (h : Avoids Command.isRaw [x]) :
    Heeds (Spared.Apart lo hi r) (perform (callWithin n) x) :=
  absurd (h x (Command.mem_withinAll List.mem_cons_self x.self_mem_within)) (by simp [hx])

/-- Commands that are not raw spare every range. -/
theorem performAll_heeds {n : Nat} (body : List Command) (h : Regular body) :
    Heeds (Spared.Apart lo hi r) (performAll (callWithin n) body) :=
  (Spared.custody lo hi r).performAll ((Spared.custody lo hi r).callWithin (fun _ => Spared.raw) n)
    Spared.raw body h

end

end Lockstep.Program
