import Lockstep.Proofs.Program.Outcome

/-!
# Programs that terminate at their end

Jumps and return addresses may stand for the state that comes next. If the last command of a program
terminates it, that command makes the last state: every place that was left for a state to come has
one, and control never gets past the last state.
-/

namespace Lockstep

/-- The target is one of the first `n` states, or is read while the machine runs. -/
def Target.Below (n : Nat) (a : Target Expr) : Prop :=
  (∃ j : Nat, a.place? = some (j : Int) ∧ j < n) ∨ ∃ code, a = .computed code

/-- Every way of the transition leads to one of the first `n` states. -/
def Transition.Below (n : Nat) (t : Transition Expr) : Prop :=
  t.target.isSome = true ∧ ∀ a, t.target = some a ∨ t.otherwise = some a → a.Below n

theorem Transition.Below.of_both {n : Nat} {guard : Option Expr} {a b : Target Expr}
    (ha : a.Below n) (hb : b.Below n) : Transition.Below n ⟨guard, some a, some b⟩ := by
  refine ⟨rfl, ?_⟩
  rintro x (hx | hx)
  · exact Option.some.inj hx ▸ ha
  · exact Option.some.inj hx ▸ hb

theorem Transition.Below.of_jump {n : Nat} {a : Target Expr} (ha : a.Below n) :
    Transition.Below n (.jump a) := by
  refine ⟨rfl, ?_⟩
  rintro x (hx | hx)
  · exact Option.some.inj hx ▸ ha
  · simp [Transition.jump] at hx

/-- No state leads past the last one: every target is a state, and the last state is left by a
jump. -/
structure Machine.Sealed (f : Machine) : Prop where
  targets : ∀ (k : Nat) st, f.states[k]? = some st → ∀ t ∈ st.gotos, t.Below f.size
  falls : ∀ (k : Nat) st, f.states[k]? = some st →
    k + 1 < f.size ∨ ∃ before a, st.gotos = before ++ [.jump a]

namespace Program

variable {env : Env} {L : List (Site LinkId)} {c : Context}

theorem Lands.below {escapes : Prop} {cur o : Option InstanceRef} {a : Target Expr}
    (h : Lands escapes L cur o a) : a.Below (L.length + 1) := by
  obtain ⟨j, hj, ⟨-, rfl⟩ | hr⟩ := h
  · exact .inl ⟨0, hj, Nat.succ_pos _⟩
  · exact .inl ⟨j, hj, Nat.lt_succ_of_le hr.le⟩

/-- While a program is elaborated, targets may be one place past the last state. -/
theorem Inv.targets_below (h : Inv env L [] c) {k : Nat} {st : Machine.State}
    (hst : c.draft.machine.states[k]? = some st) : ∀ t ∈ st.gotos, t.Below (L.length + 1) := by
  have hlt : k < L.length := h.code.size ▸ (Array.getElem?_eq_some_iff.mp hst).1
  have hs := h.code.sites k _ st (List.getElem?_eq_getElem hlt) hst
  have hplace : ∀ {j : Nat} {o : Option InstanceRef}, Reaches L c.draft.building.head? j o →
      Target.Below (L.length + 1) (.state j) := fun hj => .inl ⟨_, rfl, Nat.lt_succ_of_le hj.le⟩
  intro t ht
  generalize L[k] = site at hs
  obtain ⟨owner, role⟩ := site
  cases role with
  | idle =>
    rw [hs.2.1, List.mem_singleton] at ht
    rw [ht]
    exact .of_both (.inl ⟨k + 1, rfl, Nat.succ_lt_succ hlt⟩) (.inl ⟨k, rfl, Nat.lt_succ_of_lt hlt⟩)
  | plain =>
    obtain ⟨htarget, hlands⟩ := hs.2.2 t ht
    exact ⟨htarget, fun a ha => (hlands a ha).below⟩
  | call r args request link =>
    obtain ⟨inst, -, -, -, -, -, hclosed⟩ := hs
    obtain ⟨entry, skip, resume, hgotos, -, hentry, hskip, -⟩ := hclosed List.not_mem_nil
    rw [hgotos, List.mem_singleton] at ht
    rw [ht]
    exact .of_both (hplace hentry) (hplace hskip)
  | ret =>
    obtain ⟨r, inst, before, -, -, -, -, hgotos⟩ := hs
    rw [hgotos, List.mem_singleton] at ht
    rw [ht]
    exact .of_jump (.inr ⟨_, rfl⟩)

theorem Inv.resumes_le (h : Inv env L [] c) {l : LinkId} {j : Nat}
    (hj : (l, j) ∈ c.draft.resumes) : j ≤ L.length := by
  obtain ⟨k, ⟨owner, r, args, request, hk⟩, -⟩ := h.code.resumes l j hj
  have hlt : k < c.draft.machine.states.size :=
    h.code.size ▸ (List.getElem?_eq_some_iff.mp hk).1
  obtain ⟨inst, -, -, -, -, -, hclosed⟩ :=
    h.code.sites k _ _ hk (Array.getElem?_eq_getElem hlt)
  obtain ⟨entry, skip, resume, -, hmem, -, -, hresume, -⟩ := hclosed List.not_mem_nil
  obtain rfl := h.code.resumes_unique l j resume hj hmem
  exact hresume.le

theorem Ensures.settleReturns_draft :
    Ensures settleReturns c fun _ c' => c'.draft = c.draft := by
  rw [settleReturns, ensures_bind, ensures_getDraft]
  refine Ensures.forM (P := fun c' => c'.draft = c.draft) rfl fun fn _ c₁ h₁ => ?_
  rw [ensures_bind, ensures_getFunction]
  refine Ensures.forM (P := fun c' => c'.draft = c.draft) h₁ fun inst _ c₂ h₂ => ?_
  simp only [settleReturn, ensures_ops, ensures_ite]
  refine ⟨fun _ => ?_, fun _ => h₂⟩
  cases c₂.session.module.symbols.signals[inst.ret]?.bind Signal.type with
  | none | some t => simpa [Option.forM, Context.reported] using h₂

theorem performAll_append (call : Caller) (a b : List Command) :
    performAll call (a ++ b) = performAll call a >>= fun _ => performAll call b := by
  induction a with
  | nil => rfl
  | cons x a ih => rw [List.cons_append, performAll, performAll, ih, bind_assoc]

/-- The state that terminates the program takes the place after all others. -/
theorem Inv.terminate_sealed (h : Inv env L [] c) (call : Caller) :
    Ensures (perform call .terminate) c fun _ c' => c'.draft.waiting = false ∧
      c'.draft.machine.Sealed ∧
      ∀ l j, (l, j) ∈ c'.draft.resumes → j < c'.draft.machine.size := by
  simp only [perform, recordState, terminate, ensures_ops, ensures_record]
  refine .step fun f _ => ⟨by simp [Draft.waiting, Draft.cut, Blocks.pending], ?_, ?_⟩
  · have hstates : (c.draft.cut.machine.addGoto c.draft.machine.size (.jump (.state 0))).states =
        c.draft.machine.states.push
          { name := c.draft.label, body := c.draft.blocks.outer, gotos := [.jump (.state 0)] } := by
      rw [addGoto_states]
      exact modify_push_size ..
    have hsize : (c.draft.cut.machine.addGoto c.draft.machine.size (.jump (.state 0))).size =
        L.length + 1 := by
      rw [Machine.size, hstates, Array.size_push, h.code.size]
    refine ⟨fun k st hst => ?_, fun k st hst => ?_⟩
    · dsimp only at hst ⊢
      rw [hsize]
      rw [hstates, Array.getElem?_push] at hst
      split at hst
      · cases hst
        intro t ht
        rw [List.mem_singleton.mp ht]
        exact .of_jump (.inl ⟨0, rfl, Nat.succ_pos _⟩)
      · exact h.targets_below hst
    · dsimp only at hst ⊢
      rw [hsize]
      rw [hstates, Array.getElem?_push] at hst
      split at hst
      · cases hst
        exact .inr ⟨[], _, rfl⟩
      · have hlt := (Array.getElem?_eq_some_iff.mp hst).1
        rw [h.code.size] at hlt
        exact .inl (by omega)
  · intro l j hj
    have hle := h.resumes_le hj
    dsimp only
    rw [Machine.size, addGoto_states, Array.size_modify]
    simp only [Draft.cut, Array.size_push, h.code.size]
    omega

/-- Where the last command terminates the program, no state leads past the last one, and every
return address stands for a state. -/
theorem Ensures.prepare_sealed {s : Session} (hs : s.Closed) (opts : Options)
    {assignable : String → Prop} {init : List Command}
    (hbody : ∀ x ∈ init ++ [.terminate],
      (Env.start s opts (init ++ [.terminate]) assignable).Tame false x) :
    Ensures (prepare opts (init ++ [.terminate])) (draft s opts) fun _ c =>
      c.draft.machine.Sealed ∧ ∀ l j, (l, j) ∈ c.draft.resumes → j < c.draft.machine.size := by
  simp only [prepare, performAll_append, ensures_bind]
  refine (Inv.start hs opts (init ++ [.terminate]) assignable).mono ?_
  rintro _ c₁ ⟨h₁, -, hb₁, -⟩
  have hinit : ∀ x ∈ init, (Env.start s opts (init ++ [.terminate]) assignable).Tame false x :=
    fun x hx => hbody x (List.mem_append_left _ hx)
  refine ((Keeps.performAll (callWithin_keeps _) _ _ hinit).run h₁ fun _ => hb₁).mono ?_
  rintro _ c₂ ⟨L₂, h₂⟩
  simp only [performAll, ensures_ops]
  refine (h₂.inv.terminate_sealed _).mono ?_
  rintro _ c₃ ⟨hwait, hsealed, hresumes⟩
  simp only [stepIfWaiting, ensures_ops, hwait, Bool.false_eq_true, if_false]
  refine Ensures.settleReturns_draft.mono ?_
  rintro _ c₄ hdraft
  rw [hdraft]
  exact ⟨hsealed, hresumes⟩

end Program

end Lockstep
