import Lockstep.Proofs.Program.Emission
import Lockstep.Proofs.Program.Enumerator
import Lockstep.Proofs.Program.Traces

/-!
# Every state is wired once

A state gets at most one transition, which leads somewhere whatever its guard says. A state that has
one is left by it, so no transition overrides another, and only states without one fall through to
the next. All places that transitions and return addresses name are in the machine, or right after its
last state.

A program can add transitions to states by their index, over those that they have; and a body that
another program elaborated starts in the machine of that program.
-/

namespace Lockstep

namespace Machine

/-- The transitions of a state. -/
def gotosAt (f : Machine) (k : Nat) : Option (List (Transition Expr)) := f.states[k]?.map State.gotos

theorem gotosAt_modify (f : Machine) (k j : Nat) {change : State → State} :
    gotosAt { f with states := f.states.modify k change } j =
      if k = j then f.states[j]?.map (State.gotos ∘ change) else f.gotosAt j := by
  simp only [gotosAt, Array.getElem?_modify]
  split <;> simp

theorem gotosAt_addBody (f : Machine) (id : Int) (ss : List Statement) (j : Nat) :
    (f.addBody id ss).gotosAt j = f.gotosAt j := by
  unfold addBody modifyState
  split
  · rw [gotosAt_modify]
    split <;> rfl
  · rfl

theorem build_states (f : Machine) (m : Module) : (f.build m).2.1.states = f.states := by
  rcases f.build_cases m with ⟨e, m', h, -⟩ | ⟨-, next, -, h⟩ <;> rw [h]

theorem build_links (f : Machine) (m : Module) :
    (f.build m).2.2.symbols.links = m.symbols.links := by
  rcases f.build_symbols m with h | h <;> rw [h]
  rfl

theorem lt_size_of_gotosAt {f : Machine} {k : Nat} {ts : List (Transition Expr)}
    (h : f.gotosAt k = some ts) : k < f.size := by
  obtain ⟨st, hst, -⟩ := Option.map_eq_some_iff.mp h
  exact (Array.getElem?_eq_some_iff.mp hst).1

end Machine

theorem Target.Lands.mono {P Q : Int → Prop} {n m : Nat} (hnm : n ≤ m)
    (hPQ : ∀ i, P i → (0 ≤ i ∧ i ≤ m) ∨ Q i) : ∀ a : Target Expr, a.Lands P n → a.Lands Q m
  | .state _, .inl h => .inl ⟨h.1, h.2.trans (by exact_mod_cast hnm)⟩
  | .state i, .inr h => hPQ i h
  | .after _, h => ⟨h.1, h.2.trans_le (by exact_mod_cast hnm)⟩
  | .named _, _ | .computed _, _ => trivial

theorem Transition.Total.mono {P Q : Target Expr → Prop} {t : Transition Expr} (h : t.Total P)
    (hPQ : ∀ a, P a → Q a) : t.Total Q :=
  ⟨h.target.imp fun _ ha => ⟨ha.1, hPQ _ ha.2⟩, fun a ha => hPQ a (h.otherwise a ha), h.both⟩

namespace Program

/-- The command adds a transition to a state by its index. -/
def Command.wires : Command → Bool
  | .stateGoto .. => true
  | _ => false

/-- The states that were made since the session `s` have one transition at most. Those that are held
or kept have none yet and one holder only; links that are not waited for have a state. -/
structure WiredOnce (s : Session) (H : Hand) (c : Context) : Prop where
  single : ∀ k ts, c.draft.machine.gotosAt k = some ts →
    ts = [] ∨ ∃ t, ts = [t] ∧ t.Total (Target.Lands s.Entered c.draft.machine.size)
  free : ∀ k, (H.states ++ c.draft.frames.flatMap Frame.marks).count k ≤
    if c.draft.machine.gotosAt k = some [] then 1 else 0
  anchors : ∀ a ∈ anchors c.draft.frames, a ≤ c.draft.machine.size
  entries : ∀ i, c.session.Entered i → (0 ≤ i ∧ i ≤ c.draft.machine.size) ∨ s.Entered i
  resumes : ∀ p ∈ c.draft.resumes, 1 ≤ p.2 ∧ p.2 ≤ c.draft.machine.size
  links : ∀ l, s.module.symbols.links.size ≤ l → l < c.session.module.symbols.links.size →
    l ∈ H.links ∨ ∃ j, (l, j) ∈ c.draft.resumes
  functions : ∀ f ∈ c.session.functions, f.Avoids Command.wires

namespace WiredOnce

variable {s : Session} {H : Hand} {c c' : Context} {k : Nat}

theorem free_of_mem (h : WiredOnce s H c) (hk : k ∈ H.states) :
    c.draft.machine.gotosAt k = some [] := by
  have hpos := List.count_pos_iff.mpr (List.mem_append_left (c.draft.frames.flatMap Frame.marks) hk)
  have := h.free k
  split at this
  · assumption
  · omega

theorem congr (h : WiredOnce s H c)
    (hg : ∀ k, c'.draft.machine.gotosAt k = c.draft.machine.gotosAt k)
    (hsize : c'.draft.machine.size = c.draft.machine.size)
    (hf : c'.draft.frames = c.draft.frames) (hr : c'.draft.resumes = c.draft.resumes)
    (hl : c'.session.module.symbols.links.size = c.session.module.symbols.links.size)
    (he : ∀ i, c'.session.Entered i → i = 0 ∨ c.session.Entered i)
    (hfn : ∀ f ∈ c'.session.functions, f.Avoids Command.wires) : WiredOnce s H c' where
  single := by simpa only [hg, hsize] using h.single
  free := by simpa only [hg, hf] using h.free
  anchors := by simpa only [hf, hsize] using h.anchors
  entries i hi := by
    rcases he i hi with rfl | hi
    · exact .inl ⟨le_refl _, Int.natCast_nonneg _⟩
    · exact hsize ▸ h.entries i hi
  resumes := by simpa only [hr, hsize] using h.resumes
  links := by simpa only [hr, hl] using h.links
  functions := hfn

theorem addBody (h : WiredOnce s H c) (id : Int) (ss : List Statement) :
    WiredOnce s H { c with draft := { c.draft with machine := c.draft.machine.addBody id ss } } :=
  h.congr (c.draft.machine.gotosAt_addBody id ss) (c.draft.machine.addBody_size id ss) rfl rfl rfl
    (fun _ => .inr) h.functions

theorem push (h : WiredOnce s H c) {st : Machine.State} (hst : st.gotos = []) :
    WiredOnce s (H.hold c.draft.machine.size) { c with draft := { c.draft with
      machine := { c.draft.machine with states := c.draft.machine.states.push st } } } := by
  have hsize : c.draft.machine.size ≤ (c.draft.machine.states.push st).size := by
    simp [Machine.size]
  have hpush : ∀ k, Machine.gotosAt
      { c.draft.machine with states := c.draft.machine.states.push st } k =
        if k = c.draft.machine.size then some [] else c.draft.machine.gotosAt k := by
    intro k
    rw [Machine.gotosAt, Array.getElem?_push]
    by_cases hk : k = c.draft.machine.size
    · rw [if_pos hk, if_pos (show k = c.draft.machine.states.size from hk), Option.map_some, hst]
    · rw [if_neg hk, if_neg (show ¬k = c.draft.machine.states.size from hk)]
      rfl
  constructor
  · intro k ts hts
    rw [hpush] at hts
    split at hts
    · exact .inl (Option.some.inj hts).symm
    · rcases h.single k ts hts with hnil | ⟨t, ht, htotal⟩
      · exact .inl hnil
      · exact .inr ⟨t, ht, htotal.mono (.mono hsize fun _ => .inr)⟩
  · intro k
    rw [hpush]
    have hold := h.free k
    rw [Hand.hold, List.cons_append, List.count_cons]
    by_cases hk : k = c.draft.machine.size
    · -- nobody has a state that was not there
      have hnone : c.draft.machine.gotosAt k = none := by
        simp [Machine.gotosAt, hk, Machine.size]
      rw [hnone, if_neg (by simp)] at hold
      simpa [hk] using hold
    · simpa [hk, Ne.symm hk] using hold
  · exact fun a ha => (h.anchors a ha).trans hsize
  · exact fun i hi => (h.entries i hi).imp_left fun hle => ⟨hle.1, hle.2.trans (Int.ofNat_le.mpr hsize)⟩
  · exact fun p hp => ⟨(h.resumes p hp).1, (h.resumes p hp).2.trans hsize⟩
  · exact h.links
  · exact h.functions

theorem offers (h : WiredOnce s H c) :
    ∀ a, c.Offers a → a.Lands s.Entered c.draft.machine.size := by
  refine Target.Lands.mono (le_refl _) fun i hi => ?_
  rcases hi with ⟨a, ha, rfl⟩ | hi
  · exact .inl ⟨Int.natCast_nonneg a, Int.ofNat_le.mpr (h.anchors a ha)⟩
  · exact h.entries i hi

theorem goto (h : WiredOnce s (H.hold k) c) {t : Transition Expr} (ht : t.Total c.Offers) :
    WiredOnce s H { c with draft := { c.draft with machine := c.draft.machine.addGoto k t } } := by
  have hfree := h.free_of_mem (List.mem_cons_self (a := k))
  have hsize := addGoto_size c.draft.machine k t
  have hgoto : ∀ j, (c.draft.machine.addGoto k t).gotosAt j =
      if k = j then some [t] else c.draft.machine.gotosAt j := by
    intro j
    rw [addGoto_eq (Machine.lt_size_of_gotosAt hfree), Machine.gotosAt_modify]
    split
    · next hj =>
      obtain ⟨st, hst, hnil⟩ := Option.map_eq_some_iff.mp hfree
      simp [← hj, hst, hnil]
    · rfl
  constructor
  · intro j ts hts
    rw [hgoto] at hts
    split at hts
    · exact .inr ⟨t, (Option.some.inj hts).symm, hsize ▸ ht.mono h.offers⟩
    · exact hsize ▸ h.single j ts hts
  · intro j
    rw [hgoto]
    have hold := h.free j
    simp only [Hand.hold, List.cons_append, List.count_cons] at hold
    split
    · next hj => simp_all
    · next hj => simpa [hj] using hold
  · exact hsize ▸ h.anchors
  · exact hsize ▸ h.entries
  · exact hsize ▸ h.resumes
  · exact h.links
  · exact h.functions

theorem enter (h : WiredOnce s (H.hold k) c) (r : InstanceRef) :
    WiredOnce s (H.hold k) { c with session := { c.session with
      functions := c.session.functions.modify r.function fun f => { f with
        instances := f.instances.modify r.position ({ · with entry := k + 1 }) } } } := by
  have hlt := Machine.lt_size_of_gotosAt (h.free_of_mem (List.mem_cons_self (a := k)))
  refine ⟨h.single, h.free, h.anchors, fun i hi => ?_, h.resumes, h.links,
    avoids_of_definitions (definitions_modify _ _ (·.modify r.position _)) h.functions⟩
  have hentry : ∀ xs : Array Instance, ∀ x' ∈ xs.modify r.position ({ · with entry := k + 1 }),
      x'.entry = k + 1 ∨ ∃ x ∈ xs, x.entry = x'.entry := by
    intro xs x' hx'
    rcases mem_modify hx' with hx' | ⟨x, -, rfl⟩
    · exact .inr ⟨x', hx', rfl⟩
    · exact .inl rfl
  rcases Session.Entered.of_modify (·.modify r.position _) hentry hi with rfl | hi
  · exact .inl ⟨Int.natCast_nonneg _, Int.ofNat_le.mpr hlt⟩
  · exact h.entries i hi

theorem custody (s : Session) : Custody Command.wires (WiredOnce s) where
  functions h := h.functions
  lt_size h k hk := Machine.lt_size_of_gotosAt (h.free_of_mem hk)
  aside h ha := h.congr (fun k => by rw [Machine.gotosAt, ha.states]; rfl) ha.size ha.frames ha.resumes
    ha.links ha.entries (avoids_of_definitions ha.definitions h.functions)
  push h hst := h.push hst
  reframe h hpass hlinks := ⟨h.single, fun k => (hpass.count k).trans (h.free k),
    fun a ha => (hpass.loops a ha).elim (h.anchors a) id, h.entries, h.resumes,
    by rw [hlinks]; exact h.links, h.functions⟩
  goto h ht := h.goto ht
  body h := h.addBody _ _
  link {H c} h := by
    refine ⟨h.single, h.free, h.anchors, h.entries, h.resumes, fun l hlo hhi => ?_, h.functions⟩
    rcases Nat.lt_succ_iff_lt_or_eq.mp (by simpa [Symbols.newLink] using hhi) with hlt | rfl
    · exact (h.links l hlo hlt).imp_left (List.mem_cons_of_mem _)
    · exact .inl List.mem_cons_self
  resume {H c l j} h hpos hle := by
    refine ⟨h.single, h.free, h.anchors, h.entries, fun p hp => ?_, fun l' hlo hhi => ?_, h.functions⟩
    · rcases List.mem_append.mp hp with hp | hp
      · exact h.resumes p hp
      · rw [List.mem_singleton.mp hp]
        exact ⟨hpos, hle⟩
    · rcases h.links l' hlo hhi with hl | ⟨i, hi⟩
      · rcases List.mem_cons.mp hl with rfl | hl
        · exact .inr ⟨j, by simp⟩
        · exact .inl hl
      · exact .inr ⟨i, List.mem_append_left _ hi⟩
  enter r h := h.enter r
  define {H c f} h hf hnone := by
    refine ⟨h.single, h.free, h.anchors, fun i hi => ?_, h.resumes, h.links, fun g hg => ?_⟩
    · obtain ⟨g, hg, inst, hinst, rfl⟩ := hi
      rcases Array.mem_push.mp hg with hg | rfl
      · exact h.entries _ ⟨g, hg, inst, hinst, rfl⟩
      · simp [hnone] at hinst
    · rcases Array.mem_push.mp hg with hg | rfl
      · exact h.functions g hg
      · exact hf

/-- Commands that are raw add no transition, unless they do nothing else. -/
theorem raw (call : Caller) (x : Command) (hx : x.isRaw = true) (h : Avoids Command.wires [x]) :
    Heeds (WiredOnce s) (perform call x) := by
  cases x with
  | stateBody id body =>
    refine .bind ((custody s).passive (.resolving fun sc focus => ?_)) fun ss H c hc => ?_
    · exact Script.resolveBlock_expanding sc focus body
    · rw [ensures_modifyMachine]
      exact ⟨hc.addBody id ss, (c.draft.machine.addBody_size id ss).ge⟩
  | stateGoto id t =>
    have := h _ (Command.mem_withinAll List.mem_cons_self (Command.self_mem_within _))
    cases this
  | buildMachine =>
    refine .bind (fun H c hc => ?_) fun e => (custody s).passive (.record _ _)
    have hstates := c.draft.machine.build_states c.session.module
    have hlinks := c.draft.machine.build_links c.session.module
    have hsize := congrArg Array.size hstates
    rw [ensures_buildDraft]
    refine ⟨hc.congr (fun k => ?_) hsize rfl rfl (congrArg Array.size hlinks) (fun _ => .inr)
      hc.functions, hsize.ge⟩
    rw [Machine.gotosAt, Machine.gotosAt, ← hstates]
    rfl
  | _ => cases hx

end WiredOnce

end Program

namespace Machine

variable {f : Machine} {t : Transition Expr}

theorem Lowers.edge {b : Statement} (h : f.Lowers t b) {e : Edge} (he : e ∈ transitionEdges t) :
    (∃ x, e.target = some (.computed x)) ∨
      ∃ a i, (t.target = some a ∨ t.otherwise = some a) ∧ e.target = some a ∧
        f.targetIndex a = some i := by
  have hassign : ∃ thn, f.assignTarget e.target = .ok thn ∧
      (e.target = t.target ∨ e.target = t.otherwise) := by
    cases h with
    | jump h | guarded h =>
      obtain rfl := List.mem_singleton.mp he
      exact ⟨_, h, .inl rfl⟩
    | branch h h' =>
      rcases List.mem_pair.mp he with rfl | rfl
      · exact ⟨_, h, .inl rfl⟩
      · exact ⟨_, h', .inr rfl⟩
  obtain ⟨thn, hthn, hof⟩ := hassign
  rcases assignTarget_inv hthn with ⟨x, hx, -⟩ | ⟨a, i, ha, hi, -⟩
  · exact .inl ⟨x, hx⟩
  · exact .inr ⟨a, i, by rwa [← ha, eq_comm, eq_comm (a := t.otherwise)], ha, hi⟩

end Machine

namespace Program

/-- The target is computed as the machine runs, or it is a place in the machine or right after it, or
a body starts there that was elaborated before. -/
def Session.Admits (s : Session) (f : Machine) (a : Target Expr) : Prop :=
  (∃ e, a = .computed e) ∨
    ∃ i, f.targetIndex a = some i ∧ ((0 ≤ i ∧ i ≤ f.size) ∨ s.Entered i)

/-- What holds of a state: it has one transition at most, with both ways if it is guarded; its edges
lead to places that the session admits; and it is left by one edge if it has a transition. -/
structure Session.Leaves (s : Session) (f : Machine) (k : Nat) (st : Machine.State) : Prop where
  single : st.gotos.length ≤ 1
  both : ∀ t ∈ st.gotos, t.guard = none ∨ (t.target.isSome ∧ t.otherwise.isSome)
  lands : ∀ e ∈ Machine.stateEdges k st, ∃ a, e.target = some a ∧ s.Admits f a
  taken : ∀ g σ, ((st.gotos.flatMap Machine.transitionEdges).filter (·.guard.taken g σ)).length =
    st.gotos.length

end Program

end Lockstep
