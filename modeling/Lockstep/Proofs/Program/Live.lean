import Lockstep.Proofs.Machine.History
import Lockstep.Proofs.Program.Stack

/-!
# The live activations of a run

The calls that were made and have not returned, as a list that the steps of the machine determine:
a call that finds room adds one, a return takes the newest away, a reset takes all. The main result
says of one step of the machine that it carries the stacks of all instances from the activations
before it to those after it, and that control stays in the body of the newest activation or outside
all bodies.
-/

namespace Lockstep.Program

open Sim Machine

/-- The live activations, the newest first, after the machine has made a step out of `s`. -/
def stepLive (q : Sequencer) (fs : Array Function) (g : Symbols) (L : List (Site Nat))
    (live : List Activation) (s : Sim.State) : List Activation :=
  if q.machine.resets g s then []
  else
    match (q.machine.index? s).bind (L[·]?) with
    | some ⟨_, .call r args _ resume⟩ =>
      match instance? fs r with
      | some inst =>
        if live.countP (·.callee == r) < inst.room g then ⟨r, resume, passed g s inst args⟩ :: live
        else live
      | none => live
    | some ⟨_, .ret⟩ => live.tail
    | _ => live

/-- The live activations after the steps of a history. -/
def liveAfter (q : Sequencer) (fs : Array Function) (g : Symbols) (L : List (Site Nat))
    (past : List Sim.State) : List Activation :=
  past.foldl (stepLive q fs g L) []

/-- The live activations of one instance, the oldest first. -/
def activationsOf (live : List Activation) (r : InstanceRef) : List Activation :=
  (live.filter (·.callee == r)).reverse

@[simp] theorem activationsOf_nil (r : InstanceRef) : activationsOf [] r = [] := rfl

theorem activationsOf_cons_self (a : Activation) (live : List Activation) :
    activationsOf (a :: live) a.callee = activationsOf live a.callee ++ [a] := by
  simp [activationsOf]

theorem activationsOf_cons_other {a : Activation} {r : InstanceRef} (h : a.callee ≠ r)
    (live : List Activation) : activationsOf (a :: live) r = activationsOf live r := by
  simp [activationsOf, h]

theorem length_activationsOf (live : List Activation) (r : InstanceRef) :
    (activationsOf live r).length = live.countP (·.callee == r) := by
  rw [activationsOf, List.length_reverse, List.countP_eq_length_filter]

variable {escapes : Prop}

/-- A place of `o` may be reached while `live` are the activations: it is in the body of the newest
one, or outside all bodies and nothing is live, unless bodies may be left without a return. -/
structure Within (escapes : Prop) (live : List Activation) (o : Option InstanceRef) : Prop where
  body : ∀ r, o = some r → ∃ a rest, live = a :: rest ∧ a.callee = r
  outside : o = none → escapes ∨ live = []

theorem Within.empty : Within escapes [] none := ⟨by simp, fun _ => .inr rfl⟩

theorem Within.escape (he : escapes) (live : List Activation) : Within escapes live none :=
  ⟨by simp, fun _ => .inl he⟩

theorem Within.called (a : Activation) (live : List Activation) :
    Within escapes (a :: live) (some a.callee) :=
  ⟨fun _ hr => ⟨a, live, rfl, Option.some.inj hr⟩, by simp⟩

/-- Every activation comes back to a place of the one below it, or outside all bodies. -/
def Returns (escapes : Prop) (L : List (Site Nat)) : List Activation → Prop
  | [] => True
  | a :: rest => (∃ o, Reaches L none a.resume o ∧ Within escapes rest o) ∧ Returns escapes L rest

/-- The state register holds the code of a place where control may be. -/
def InPlace (escapes : Prop) (f : Machine) (L : List (Site Nat)) (live : List Activation)
    (s : Sim.State) : Prop :=
  ∃ j o, Reaches L none j o ∧ Within escapes live o ∧ s.read f.current = Word.ofUInt64 (f.code j)

/-- The stacks hold the live activations. -/
structure Live (escapes : Prop) (q : Sequencer) (fs : Array Function) (g : Symbols)
    (L : List (Site Nat)) (live : List Activation) (s : Sim.State) : Prop where
  shaped : ∀ r inst, q.Has fs r inst → Shaped g inst s
  holds : ∀ r inst, q.Has fs r inst →
    StackHolds q.machine g inst (activationsOf live r) s
  returns : Returns escapes L live

/-- The place after the last state is outside all bodies. -/
theorem Reaches.last {L : List (Site Nat)} {o : Option InstanceRef}
    (h : Reaches L none L.length o) : o = none := by
  rcases h with ⟨site, hs, -⟩ | ⟨-, ho⟩
  · exact absurd (List.getElem?_eq_some_iff.mp hs).1 (Nat.lt_irrefl _)
  · exact ho.symm

/-! ## Edges of the state table -/

section Edges

variable {q : Sequencer} {fs : Array Function} {M : Module} {L : List (Site Nat)}
variable {e : Edge} {j : Nat} {s : Sim.State} {a : Target Expr}

/-- Codes of places fit the state register. -/
theorem Grounded.code_lt (hg : Grounded q fs M) (hp : Plan escapes q fs M.symbols L)
    (hj : j ≤ L.length) : (q.machine.code j).toNat < 2 ^ q.machine.registerWidth := by
  obtain ⟨others, hi, -⟩ := hg.installed
  have hpos : 0 < q.machine.size := by
    rw [hp.size]
    exact (List.getElem?_eq_some_iff.mp hp.first).1
  rw [← hp.size] at hj
  rcases hj.lt_or_eq with hlt | rfl
  · exact Machine.code_lt hi.sized.countable hlt
  · by_cases he : q.machine.encoding = .oneHot
    · rw [code_size_bit he hg.fallback hpos]
      exact Machine.code_lt hi.sized.countable hpos
    · exact code_size_lt hi.sized.countable he

/-- An edge to a place has the code of the place, or of the end state where it has none. -/
theorem edgeValue_place {f : Machine} {g : Symbols} (he : e.target = some a)
    (ha : a.place? = some (j : Int)) (hj : j < 2 ^ 63) :
    f.edgeValue g s e = Word.ofUInt64 (f.code (f.clamp j)) := by
  have hindex : f.edgeIndex e = j → f.edgeValue g s e = Word.ofUInt64 (f.code (f.clamp j)) := by
    intro hx
    cases a with
    | computed c => simp [Target.place?] at ha
    | state | after | named => simp only [edgeValue, he, hx]
  apply hindex
  cases a with
  | state id =>
    obtain rfl : id = j := by simpa [Target.place?] using ha
    simp [edgeIndex, he, targetIndex]
  | after id =>
    have hid : id + 1 = (j : Int) := by simpa [Target.place?] using ha
    have hw : wrapSigned (id + 1) = (j : Int) := by
      rw [hid]
      exact wrapSigned_of_bounds (by omega) (by omega)
    simp [edgeIndex, he, targetIndex, hw]
  | named name | computed c => simp [Target.place?] at ha

/-- An edge to a place leads there, or to the end state where the place has no code. -/
theorem Grounded.edge_lands (hg : Grounded q fs M) (hp : Plan escapes q fs M.symbols L)
    (he : e.target = some a) (ha : a.place? = some (j : Int)) (hj : j ≤ L.length) :
    ∃ k : Nat, (k = j ∨ (k = 0 ∧ j = L.length)) ∧
      q.machine.edgeValue M.symbols s e = Word.ofUInt64 (q.machine.code k) := by
  obtain ⟨others, hi, -⟩ := hg.installed
  have hcount := hi.sized.countable.index
  rw [hp.size] at hcount
  rw [edgeValue_place he ha (hj.trans_lt hcount)]
  rcases clamp_cases hg.fallback (j : Int) with ⟨i, -, hij, hc⟩ | ⟨hij, -, hc⟩ | ⟨hout, hc⟩
  · exact ⟨j, .inl rfl, by rw [hc, ← hij]⟩
  · exact ⟨j, .inl rfl, by rw [hc, ← hij]⟩
  · have hsize := hp.size
    exact ⟨0, .inr ⟨rfl, by omega⟩, by rw [hc]⟩

/-- Where the edge that is taken lands in the body of `o`, control is in place after it. -/
theorem Grounded.inPlace_of_lands (hg : Grounded q fs M) (hp : Plan escapes q fs M.symbols L)
    {s' : Sim.State} {live : List Activation} {o : Option InstanceRef} (he : e.target = some a)
    (ha : Lands escapes L none o a) (ho : Within escapes live o)
    (hs' : s'.read q.machine.current = q.machine.edgeValue M.symbols s e) :
    InPlace escapes q.machine L live s' := by
  obtain ⟨j, hj, hr⟩ := ha
  have hzero : Reaches L none 0 none := .inl ⟨_, hp.first, rfl⟩
  have hle : j ≤ L.length := by
    rcases hr with ⟨-, rfl⟩ | hr
    · exact Nat.zero_le _
    · exact hr.le
  obtain ⟨k, hk, hval⟩ := hg.edge_lands hp (s := s) he hj hle
  rw [hval] at hs'
  rcases hr with ⟨hesc, rfl⟩ | hr
  · obtain rfl : k = 0 := hk.elim id And.left
    exact ⟨0, none, hzero, .escape hesc live, hs'⟩
  · rcases hk with rfl | ⟨rfl, rfl⟩
    · exact ⟨k, o, hr, ho, hs'⟩
    · rw [hr.last] at ho
      exact ⟨0, none, hzero, ho, hs'⟩

theorem mem_of_lastTaken {g : Symbols} {edges : List Edge} (h : lastTaken g s edges = some e) :
    e ∈ edges ∧ e.guard.taken g s = true :=
  List.mem_filter.mp (List.mem_of_getLast? h)

/-- An edge of a transition leads to one of its targets. -/
theorem mem_transitionEdges {t : Transition Expr} (h : e ∈ transitionEdges t) :
    e.target = t.target ∨ ∃ b, e.target = some b ∧ t.otherwise = some b := by
  unfold transitionEdges at h
  split at h
  · exact .inl (by rw [List.mem_singleton.mp h])
  · exact .inl (by rw [List.mem_singleton.mp h])
  · next g other hguard hother =>
    simp only [List.mem_cons, List.not_mem_nil, or_false] at h
    rcases h with rfl | rfl
    · exact .inl rfl
    · exact .inr ⟨other, rfl, hother⟩

/-- Every edge out of a plain state lands in its body, or in the end state. -/
theorem Leads.edge {owner : Option InstanceRef} {k : Nat} {st : Machine.State}
    (hnext : Reaches L none (k + 1) owner) (hgotos : ∀ t ∈ st.gotos, Leads escapes L none owner t)
    (he : e ∈ stateEdges k st) : ∃ a, e.target = some a ∧ Lands escapes L none owner a := by
  rcases List.mem_cons.mp he with rfl | he
  · exact ⟨.after k, rfl, k + 1, rfl, .inr hnext⟩
  · obtain ⟨t, ht, he⟩ := List.mem_flatMap.mp he
    obtain ⟨htarget, hlands⟩ := hgotos t ht
    rcases mem_transitionEdges he with heq | ⟨b, heq, hb⟩
    · obtain ⟨a, ha⟩ := Option.isSome_iff_exists.mp htarget
      exact ⟨a, heq.trans ha, hlands a (.inl ha)⟩
    · exact ⟨b, heq, hlands b (.inr hb)⟩

end Edges

/-! ## One step -/

section Step

variable {q : Sequencer} {fs : Array Function} {M : Module} {L : List (Site Nat)}
variable {edge : ClockEdge} {s s' : Sim.State} {live : List Activation}
variable {inst : Instance} {r : InstanceRef} {st : Machine.State} {k : Nat}

/-- A step changes the stacks by what the bodies of the states write. -/
theorem Grounded.edge_stack (hg : Grounded q fs M) (he : Strikes M edge s s')
    (hstep : q.machine.stepsOn edge = true) (hi : q.Has fs r inst) {d : SignalId}
    (hd : d ∈ inst.stack) :
    State.SameAt s' (s.storeAll (execBlock M.symbols s q.machine.dispatchBody)) d := by
  obtain ⟨others, hin, hfree⟩ := hg.installed
  obtain ⟨hcur, hnext⟩ := hg.machine_apart r inst hi
  exact hin.edge_body he hstep (fun p hp => hfree p hp d (hi.mem_made hd))
    (fun h => hcur (h ▸ hd)) fun h => hnext (h ▸ hd)

theorem Grounded.body_stack (hg : Grounded q fs M) (he : Strikes M edge s s')
    (hstep : q.machine.stepsOn edge = true) (hr : q.machine.resets M.symbols s = false)
    (hat : q.machine.At s k) (hst : q.machine.states[k]? = some st) (hi : q.Has fs r inst)
    {d : SignalId} (hd : d ∈ inst.stack) :
    State.SameAt s' (s.storeAll (execBlock M.symbols s st.body)) d := by
  obtain ⟨others, hin, -⟩ := hg.installed
  have hsame := hg.edge_stack he hstep hi hd
  rw [hin.body_at hat hst, hr, if_neg Bool.false_ne_true, State.storeAll_append] at hsame
  refine hsame.trans (State.storeAll_sameAt (State.storeAll_other ?_) _)
  exact not_mem_execBlock fun hmem => hg.defaults d hmem (hi.mem_made hd)

/-- A stack that the body of the state does not assign stays as it is. -/
theorem Grounded.stack_kept (hg : Grounded q fs M) (he : Strikes M edge s s')
    (hstep : q.machine.stepsOn edge = true) (hr : q.machine.resets M.symbols s = false)
    (hat : q.machine.At s k) (hst : q.machine.states[k]? = some st) (hi : q.Has fs r inst)
    (hfree : ∀ d ∈ inst.stack, d ∉ Stmt.blockDests st.body) :
    ∀ d ∈ inst.stack, State.SameAt s' s d := fun d hd =>
  (hg.body_stack he hstep hr hat hst hi hd).trans
    (State.storeAll_other (not_mem_execBlock (hfree d hd)))

/-- The register after a step out of a state. -/
theorem Grounded.edge_register (hg : Grounded q fs M) (hs : Resting M s)
    (he : Strikes M edge s s') (hstep : q.machine.stepsOn edge = true)
    (hr : q.machine.resets M.symbols s = false) (hat : q.machine.At s k)
    (hst : q.machine.states[k]? = some st) :
    ∃ e, lastTaken M.symbols s (stateEdges k st) = some e ∧
      s'.read q.machine.current = q.machine.edgeValue M.symbols s e := by
  obtain ⟨others, hin, -⟩ := hg.installed
  obtain ⟨e, htaken, hval⟩ := hin.next_at hs.rest hat hst
  refine ⟨e, htaken, ?_⟩
  rw [hin.edge_current he hstep hs.fits hs.size, hr, if_neg Bool.false_ne_true, hval]

theorem Sequencer.Has.unique {inst' : Instance} (h : q.Has fs r inst) (h' : q.Has fs r inst') :
    inst' = inst :=
  Option.some.inj (h'.2.symm.trans h.2)

theorem exec_clear (g : Symbols) (s : Sim.State) (i : SignalId) (t : Option TypeId) :
    exec g s (.assign i none (.const 0 t)) = [⟨i, none, 0⟩] := by
  have hval : eval g s (.const 0 t) = 0 := by
    simp [Expr.const, eval, Symbols.literal, Word.ofUInt64, Word.truncate]
  rw [exec, assignment, hval, Word.fit_zero]
  rfl

/-- A reset empties every stack, and control is back in the end state. -/
theorem Live.reset (h : Live escapes q fs M.symbols L live s) (hg : Grounded q fs M)
    (hp : Plan escapes q fs M.symbols L) (hs : Resting M s) (he : Strikes M edge s s')
    (hstep : q.machine.stepsOn edge = true) (hr : q.machine.resets M.symbols s = true) :
    Live escapes q fs M.symbols L [] s' ∧ InPlace escapes q.machine L [] s' := by
  obtain ⟨others, hin, -⟩ := hg.installed
  have hbody : execBlock M.symbols s q.machine.dispatchBody =
      execBlock M.symbols s q.machine.onReset := by
    rcases q.machine.at_or_astray s with ⟨k, hat⟩ | hno
    · rw [hin.body_at hat (Array.getElem?_eq_getElem hat.1), hr, if_pos rfl]
    · rw [hin.body_astray hs.fits hno, hr, if_pos rfl]
  have hafter : ∀ r inst, q.Has fs r inst → ∀ d ∈ inst.stack, State.SameAt s'
      (s.storeAll (execBlock M.symbols s q.machine.onReset)) d := by
    intro r inst hi d hd
    rw [← hbody]
    exact hg.edge_stack he hstep hi hd
  have hwrites : ∀ w ∈ execBlock M.symbols s q.machine.onReset,
      w = ⟨w.dest, none, 0⟩ ∧ (w.dest ∉ q.made fs ∨ ∃ r inst, q.Has fs r inst ∧ w.dest = inst.sp) := by
    intro w hw
    rw [execBlock_eq_flatMap] at hw
    obtain ⟨st, hst, hw⟩ := List.mem_flatMap.mp hw
    obtain ⟨i, t, rfl, hi⟩ := hg.zero st hst
    rw [exec_clear, List.mem_singleton] at hw
    subst hw
    exact ⟨rfl, hi⟩
  refine ⟨⟨fun r inst hi => ?_, fun r inst hi => ?_, trivial⟩,
    0, none, .inl ⟨_, hp.first, rfl⟩, .empty, ?_⟩
  · refine (h.shaped r inst hi).storeAll (fun w hw hd => ?_) (hafter r inst hi)
    have hdepth : inst.depth ∈ inst.stack := by simp [Instance.stack]
    rcases (hwrites w hw).2 with hnot | ⟨r', inst', hi', hsp⟩
    · exact hnot (hd ▸ hi.mem_made hdepth)
    · have hsp' : inst'.sp = inst.depth := hsp.symm.trans hd
      obtain rfl := hg.stacks_apart r r' inst inst' hi hi' inst.depth hdepth
        (by simp [Instance.stack, ← hsp'])
      obtain rfl := hi.unique hi'
      have hn := (List.nodup_cons.mp (hg.stacked _ _ hi).nodup).1
      exact hn (by rw [hsp']; exact List.mem_cons_self)
  · refine .empty ?_
    obtain ⟨t, ht⟩ := hg.pointers r inst hi
    rw [(hafter r inst hi inst.sp List.mem_cons_self).read]
    refine State.read_storeAll_const s (fun w hw hd => ?_) ?_ (h.shaped r inst hi).pointer
    · rw [(hwrites w hw).1, hd]
    · rw [execBlock_eq_flatMap]
      exact List.mem_flatMap.mpr ⟨_, ht, by rw [exec_clear]; exact List.mem_singleton_self _⟩
  · rw [hin.edge_current he hstep hs.fits hs.size, hr, if_pos rfl]
    rfl

/-- Outside all states the machine goes to its end state. -/
theorem Grounded.leaves_astray (hg : Grounded q fs M) (hs : Resting M s) (he : Strikes M edge s s')
    (hstep : q.machine.stepsOn edge = true) (hno : q.machine.Astray s) :
    s'.read q.machine.current = Word.ofUInt64 (q.machine.code (0 : Nat)) := by
  obtain ⟨others, hin, -⟩ := hg.installed
  rw [hin.edge_current he hstep hs.fits hs.size, hin.next_astray hs.rest hs.fits hno, hg.fallback]
  split <;> rfl

/-- Outside all states nothing is called, and the machine goes to its end state. -/
theorem Live.astray (h : Live escapes q fs M.symbols L live s) (hg : Grounded q fs M)
    (hp : Plan escapes q fs M.symbols L) (hs : Resting M s) (he : Strikes M edge s s')
    (hstep : q.machine.stepsOn edge = true) (hr : q.machine.resets M.symbols s = false)
    (hno : q.machine.Astray s) (ho : Within escapes live none) :
    Live escapes q fs M.symbols L live s' ∧ InPlace escapes q.machine L live s' := by
  obtain ⟨others, hin, -⟩ := hg.installed
  have hsame : ∀ r inst, q.Has fs r inst → ∀ d ∈ inst.stack, State.SameAt s' s d := by
    intro r inst hi d hd
    have hsame := hg.edge_stack he hstep hi hd
    rw [hin.body_astray hs.fits hno, hr, if_neg Bool.false_ne_true] at hsame
    exact hsame.trans (State.storeAll_other (not_mem_execBlock fun hmem =>
      hg.defaults d hmem (hi.mem_made hd)))
  refine ⟨⟨fun r inst hi => (h.shaped r inst hi).same (hsame r inst hi),
    fun r inst hi => (h.holds r inst hi).same (hsame r inst hi), h.returns⟩,
    0, none, .inl ⟨_, hp.first, rfl⟩, ho, hg.leaves_astray hs he hstep hno⟩

/-- One stack changes, and the others stay as they are. -/
theorem Live.update {g : Symbols} (h : Live escapes q fs g L live s) (hi : q.Has fs r inst)
    {live' : List Activation}
    (hkept : ∀ r' inst', q.Has fs r' inst' → r ≠ r' → ∀ d ∈ inst'.stack, State.SameAt s' s d)
    (hothers : ∀ r', r ≠ r' → activationsOf live' r' = activationsOf live r')
    (hshaped : Shaped g inst s') (hholds : StackHolds q.machine g inst (activationsOf live' r) s')
    (hreturns : Returns escapes L live') : Live escapes q fs g L live' s' where
  shaped r' inst' hi' := by
    by_cases hrr : r = r'
    · subst hrr
      rw [hi.unique hi']
      exact hshaped
    · exact (h.shaped r' inst' hi').same (hkept r' inst' hi' hrr)
  holds r' inst' hi' := by
    by_cases hrr : r = r'
    · subst hrr
      rw [hi.unique hi']
      exact hholds
    · rw [hothers r' hrr]
      exact (h.holds r' inst' hi').same (hkept r' inst' hi' hrr)
  returns := hreturns

section AtState

variable (h : Live escapes q fs M.symbols L live s) (hg : Grounded q fs M)
  (hp : Plan escapes q fs M.symbols L)
variable (hs : Resting M s) (he : Strikes M edge s s') (hstep : q.machine.stepsOn edge = true)
variable (hr : q.machine.resets M.symbols s = false) {k : Nat} (hat : q.machine.At s k)
variable {st : Machine.State} (hst : q.machine.states[k]? = some st)
variable {inst : Instance} {r : InstanceRef} {owner : Option InstanceRef}

include h hg hp hs he hstep hr hat hst

/-- A state that assigns nothing made for the program touches no stack, and stays within its body if
its edges do. -/
theorem Live.stay (hbody : ∀ d ∈ Stmt.blockDests st.body, d ∉ q.made fs)
    (hedges : ∀ e ∈ stateEdges k st, ∃ a, e.target = some a ∧ Lands escapes L none owner a)
    (ho : Within escapes live owner) :
    Live escapes q fs M.symbols L live s' ∧ InPlace escapes q.machine L live s' := by
  have hsame : ∀ r inst, q.Has fs r inst → ∀ d ∈ inst.stack, State.SameAt s' s d :=
    fun r inst hi => hg.stack_kept he hstep hr hat hst hi fun d hd hmem =>
      hbody d hmem (hi.mem_made hd)
  obtain ⟨e, htaken, hval⟩ := hg.edge_register hs he hstep hr hat hst
  obtain ⟨a, hea, hlands⟩ := hedges e (mem_of_lastTaken htaken).1
  exact ⟨⟨fun r inst hi => (h.shaped r inst hi).same (hsame r inst hi),
    fun r inst hi => (h.holds r inst hi).same (hsame r inst hi), h.returns⟩,
    hg.inPlace_of_lands hp hea hlands ho hval⟩

omit hs he hstep hr hat in
/-- The jump of a return state leads to where the newest activation comes back to. -/
theorem Live.leave_value (hk : L[k]? = some ⟨some r, .ret⟩) {a : Activation}
    {rest : List Activation} (hlive : live = a :: rest) (ha : a.callee = r) {e : Edge}
    (htaken : lastTaken M.symbols s (stateEdges k st) = some e) :
    (∃ code, e.target = some (.computed code)) ∧
      q.machine.edgeValue M.symbols s e = Word.ofUInt64 (q.machine.code a.resume) := by
  obtain ⟨others, hin, -⟩ := hg.installed
  obtain ⟨_, inst, before, howner, hi, -, -, hgotos⟩ := hp.sites k _ st hk hst
  cases howner
  subst hlive ha
  have hstk := hg.stacked _ _ hi
  obtain ⟨⟨o, hreach, -⟩, -⟩ := h.returns
  have hholds := h.holds _ _ hi
  rw [activationsOf_cons_self] at hholds
  have hcode := hg.code_lt hp hreach.le
  have hlast : e = ⟨.always, some (.computed (.index inst.returnAddr (stackTop inst)))⟩ := by
    simpa [lastTaken, stateEdges, hgotos, Instance.leave, Transition.jump, transitionEdges,
      Guard.taken, eq_comm] using htaken
  refine ⟨⟨_, by rw [hlast]⟩, ?_⟩
  rw [hlast]
  simp only [edgeValue, Symbols.typeOf, hstk.address_type, hin.sized.type, hin.sized.next,
    hin.sized.registerBits]
  rw [hholds.eval_leave hstk hin.sized hcode, Word.fit_unsigned rfl,
    Word.truncate_of_lt (by simpa using hcode)]

/-- A return takes the newest activation off its stack and goes where it comes back to. -/
theorem Live.ret (hk : L[k]? = some ⟨some r, .ret⟩) {a : Activation} {rest : List Activation}
    (hlive : live = a :: rest) (ha : a.callee = r) :
    (Live escapes q fs M.symbols L rest s' ∧ InPlace escapes q.machine L rest s') ∧
      s'.read q.machine.current = Word.ofUInt64 (q.machine.code a.resume) := by
  obtain ⟨others, hin, -⟩ := hg.installed
  obtain ⟨_, inst, before, howner, hi, hbody, hbefore, hgotos⟩ := hp.sites k _ st hk hst
  cases howner
  -- the register takes over the address on top
  have hregister : s'.read q.machine.current = Word.ofUInt64 (q.machine.code a.resume) := by
    obtain ⟨e, htaken, hval⟩ := hg.edge_register hs he hstep hr hat hst
    rw [hval, (h.leave_value hg hp hst hk hlive ha htaken).2]
  subst hlive ha
  have hstk := hg.stacked _ _ hi
  obtain ⟨⟨o, hreach, ho⟩, hreturns⟩ := h.returns
  have hholds := h.holds _ _ hi
  rw [activationsOf_cons_self] at hholds
  have hafter : ∀ d ∈ inst.stack, State.SameAt s' (s.storeAll (exec M.symbols s inst.pop)) d := by
    intro d hd
    have hsame := hg.body_stack he hstep hr hat hst hi hd
    rw [hbody, execBlock_append, State.storeAll_append, execBlock, execBlock,
      List.append_nil] at hsame
    exact hsame.trans (State.storeAll_sameAt (State.storeAll_other (not_mem_execBlock fun hmem =>
      hbefore d hmem (hi.mem_made hd))) _)
  have hother : ∀ r' inst', q.Has fs r' inst' → a.callee ≠ r' → ∀ d ∈ inst'.stack,
      State.SameAt s' s d := by
    intro r' inst' hi' hne
    refine hg.stack_kept he hstep hr hat hst hi' fun d hd hmem => ?_
    rw [hbody, Stmt.blockDests_append, List.mem_append] at hmem
    rcases hmem with hmem | hmem
    · exact hbefore d hmem (hi'.mem_made hd)
    · have hsp : d = inst.sp := by simpa [Instance.pop, Stmt.blockDests, Stmt.dests] using hmem
      exact hne (hg.stacks_apart _ _ _ _ hi hi' d (by simp [Instance.stack, hsp]) hd)
  refine ⟨⟨h.update hi hother (fun r' hrr => (activationsOf_cons_other hrr rest).symm) ?_
    (hholds.pop hstk (h.shaped _ _ hi) hafter) hreturns, a.resume, o, hreach, ho, hregister⟩,
    hregister⟩
  refine (h.shaped _ _ hi).storeAll (fun w hw => ?_) hafter
  have hdest : w.dest = inst.sp := by
    simpa [Instance.pop, Stmt.dests] using exec_dest _ hw
  rw [hdest]
  exact fun hx => (List.nodup_cons.mp hstk.nodup).1 (hx ▸ List.mem_cons_self)

omit hp in
/-- A call goes to the body of the callee if there is room, and past it if there is none. -/
theorem Live.call_edge (hi : q.Has fs r inst) {entry skip : Nat}
    (hgotos : st.gotos = [.branch inst.roomTest (.state entry) (.state skip)]) :
    ∃ e, s'.read q.machine.current = q.machine.edgeValue M.symbols s e ∧
      e.target = some (.state
        (if live.countP (·.callee == r) < inst.room M.symbols then entry else skip : Nat)) := by
  have hholds := h.holds _ _ hi
  obtain ⟨e, htaken, hval⟩ := hg.edge_register hs he hstep hr hat hst
  have htest := (hg.stacked _ _ hi).roomTest_iff (hholds.pointer.trans_le hholds.bounded)
    (h.shaped _ _ hi).depth
  rw [hholds.pointer, length_activationsOf] at htest
  have halways : Guard.taken M.symbols s .always = true := rfl
  have hholds' : Guard.taken M.symbols s (.holds inst.roomTest) =
      decide (live.countP (·.callee == r) < inst.room M.symbols) := htest
  have hfails : Guard.taken M.symbols s (.fails inst.roomTest) =
      !decide (live.countP (·.callee == r) < inst.room M.symbols) := by
    rw [← htest, Guard.taken, bne, Bool.not_not]
  refine ⟨e, hval, ?_⟩
  rw [lastTaken, stateEdges, hgotos, Transition.branch] at htaken
  simp only [transitionEdges, List.flatMap_cons, List.flatMap_nil, List.append_nil,
    List.filter_cons, List.filter_nil, halways, hholds', hfails] at htaken
  by_cases hroom : live.countP (·.callee == r) < inst.room M.symbols
  · simp only [hroom, decide_true, Bool.not_true, Bool.false_eq_true, if_true, if_false] at htaken ⊢
    cases htaken
    rfl
  · simp only [hroom, decide_false, Bool.not_false, Bool.false_eq_true, if_true, if_false]
      at htaken ⊢
    cases htaken
    rfl

omit hs in
/-- A call without room writes nothing and leaves every stack as it is. -/
theorem Live.call_full {args : List Expr} {request : Int} {resume : Nat}
    (hk : L[k]? = some ⟨owner, .call r args request resume⟩) (hi : q.Has fs r inst)
    (hfull : ¬ live.countP (·.callee == r) < inst.room M.symbols) :
    execBlock M.symbols s st.body = [] ∧
      ∀ r' inst', q.Has fs r' inst' → ∀ d ∈ inst'.stack, State.SameAt s' s d := by
  obtain ⟨inst', link, -, -, hi', -, hbody, -⟩ := hp.sites k _ st hk hst
  obtain rfl := hi'.unique hi
  have hholds := h.holds _ _ hi
  have hsp : (s.read inst.sp).toNat = inst.room M.symbols := by
    have hb := hholds.bounded
    have hcount := length_activationsOf live r
    rw [hholds.pointer]
    omega
  have hnone : execBlock M.symbols s st.body = [] := by
    rw [hbody]
    exact (hg.stacked _ _ hi).execBlock_push_full (h.shaped _ _ hi) hsp args link
  refine ⟨hnone, fun r' inst' hi' d hd => ?_⟩
  have hafter := hg.body_stack he hstep hr hat hst hi' hd
  rw [hnone] at hafter
  exact hafter

/-- A call with room puts a new activation on the stack of the callee. A call without room changes
no stack. -/
theorem Live.call {args : List Expr} {request : Int} {resume : Nat}
    (hk : L[k]? = some ⟨owner, .call r args request resume⟩) (ho : Within escapes live owner)
    (hi : q.Has fs r inst) {live' : List Activation}
    (hlive' : live' = if live.countP (·.callee == r) < inst.room M.symbols
      then ⟨r, resume, passed M.symbols s inst args⟩ :: live else live) :
    Live escapes q fs M.symbols L live' s' ∧ InPlace escapes q.machine L live' s' := by
  obtain ⟨inst', link, entry, skip, hi', hlen, hbody, hlink, hgotos, hentry, hskip, hresume, -⟩ :=
    hp.sites k _ st hk hst
  obtain rfl := hi'.unique hi
  obtain ⟨others, hin, -⟩ := hg.installed
  have hstk := hg.stacked _ _ hi
  have hholds := h.holds _ _ hi
  have hshaped := h.shaped _ _ hi
  have hcount := length_activationsOf live r
  obtain ⟨e, hval, htarget⟩ := h.call_edge hg hs he hstep hr hat hst hi hgotos
  have hkept : ∀ r' inst', q.Has fs r' inst' → r ≠ r' → ∀ d ∈ inst'.stack, State.SameAt s' s d := by
    intro r' inst' hi' hne
    refine hg.stack_kept he hstep hr hat hst hi' fun d hd hmem => hne ?_
    rw [hbody] at hmem
    exact hg.stacks_apart _ _ _ _ hi hi' d (inst.push_dests hmem) hd
  have hafter := fun d hd => hg.body_stack he hstep hr hat hst hi (d := d) hd
  rw [hbody] at hafter
  by_cases hroom : live.countP (·.callee == r) < inst.room M.symbols
  · rw [if_pos hroom] at hlive' htarget
    subst hlive'
    have hsp : (s.read inst.sp).toNat < inst.room M.symbols := by
      rw [hholds.pointer, hcount]
      exact hroom
    rw [hstk.execBlock_push hshaped hsp hin.sized hlink (hg.code_lt hp hresume.le)] at hafter
    refine ⟨h.update hi hkept (fun r' hrr => activationsOf_cons_other hrr live)
      (hshaped.storeAll (depth_not_mem_pushWrites hstk) hafter) ?_
      ⟨⟨owner, hresume, ho⟩, h.returns⟩, ?_⟩
    · rw [activationsOf_cons_self ⟨r, resume, passed M.symbols s inst args⟩]
      exact hholds.push hstk hshaped (hcount ▸ hroom) hlen r resume hafter
    · exact hg.inPlace_of_lands hp htarget ⟨entry, rfl, .inr hentry⟩
        (.called ⟨r, resume, passed M.symbols s inst args⟩ live) hval
  · rw [if_neg hroom] at hlive' htarget
    subst hlive'
    obtain ⟨-, hsame⟩ := h.call_full hg hp he hstep hr hat hst hk hi hroom
    exact ⟨⟨fun r' inst' hi' => (h.shaped r' inst' hi').same (hsame r' inst' hi'),
      fun r' inst' hi' => (h.holds r' inst' hi').same (hsame r' inst' hi'), h.returns⟩,
      hg.inPlace_of_lands hp htarget ⟨skip, rfl, .inr hskip⟩ ho hval⟩

end AtState

/-- Where control may be: in a state of the newest activation or outside all bodies, or in no state
at all. -/
theorem InPlace.cases (hg : Grounded q fs M) (hp : Plan escapes q fs M.symbols L)
    (h : InPlace escapes q.machine L live s) : (∃ k site, q.machine.At s k ∧ L[k]? = some site ∧
      Within escapes live site.owner) ∨ (q.machine.Astray s ∧ Within escapes live none) := by
  obtain ⟨others, hin, -⟩ := hg.installed
  obtain ⟨j, o, hj | ⟨rfl, rfl⟩, ho, hread⟩ := h
  · obtain ⟨site, hsite, rfl⟩ := hj
    have hlt : j < q.machine.size := hp.size ▸ (List.getElem?_eq_some_iff.mp hsite).1
    exact .inl ⟨j, site, ⟨hlt, hread⟩, hsite, ho⟩
  · have hpos : 0 < q.machine.size := by
      rw [hp.size]
      exact (List.getElem?_eq_some_iff.mp hp.first).1
    rw [← hp.size] at hread
    by_cases he : q.machine.encoding = .oneHot
    · -- there is no code for the place after the last state
      rw [code_size_bit he hg.fallback hpos] at hread
      exact .inl ⟨0, _, ⟨hpos, hread⟩, hp.first, ho⟩
    · refine .inr ⟨fun i hi hx => ?_, ho⟩
      rw [hread] at hx
      exact code_size_ne hin.sized.countable he hi (Word.ofUInt64_inj.mp hx)

/-- A step of the machine carries the stacks over to the next live activations. -/
theorem Live.step (h : Live escapes q fs M.symbols L live s) (hg : Grounded q fs M)
    (hp : Plan escapes q fs M.symbols L) (hs : Resting M s) (he : Strikes M edge s s')
    (hstep : q.machine.stepsOn edge = true)
    (hplace : InPlace escapes q.machine L live s ∨ (live = [] ∧ q.machine.Astray s)) :
    Live escapes q fs M.symbols L (stepLive q fs M.symbols L live s) s' ∧
      InPlace escapes q.machine L (stepLive q fs M.symbols L live s) s' := by
  obtain ⟨others, hin, -⟩ := hg.installed
  unfold stepLive
  cases hr : q.machine.resets M.symbols s with
  | true =>
    rw [if_pos rfl]
    exact h.reset hg hp hs he hstep hr
  | false =>
    rw [if_neg Bool.false_ne_true]
    have hcases : (∃ k site, q.machine.At s k ∧ L[k]? = some site ∧
        Within escapes live site.owner) ∨ (q.machine.Astray s ∧ Within escapes live none) := by
      rcases hplace with hplace | ⟨rfl, hno⟩
      · exact hplace.cases hg hp
      · exact .inr ⟨hno, .empty⟩
    rcases hcases with ⟨k, site, hat, hsite, ho⟩ | ⟨hno, ho⟩
    · obtain ⟨st, hst⟩ := hat.exists_state
      rw [hat.index? hin.sized.countable, Option.bind_some, hsite]
      obtain ⟨owner, role⟩ := site
      cases role with
      | idle =>
        obtain ⟨hbody, hgotos, hnext⟩ := hp.sites k _ _ hsite hst
        refine h.stay hg hp hs he hstep hr hat hst (by simp [hbody, Stmt.blockDests]) ?_ ho
        refine fun e he => Leads.edge hnext (fun t ht => ?_) he
        rw [hgotos, List.mem_singleton] at ht
        rw [ht]
        exact .fork _ ⟨k + 1, rfl, .inr hnext⟩ ⟨k, rfl, .inr (.inl ⟨_, hsite, rfl⟩)⟩
      | plain =>
        obtain ⟨hbody, hnext, hgotos⟩ := hp.sites k _ _ hsite hst
        exact h.stay hg hp hs he hstep hr hat hst hbody
          (fun e he => Leads.edge hnext hgotos he) ho
      | call r args request resume =>
        obtain ⟨inst, -, -, -, hi, -⟩ := hp.sites k _ _ hsite hst
        simp only [hi.2]
        exact h.call hg hp hs he hstep hr hat hst hsite ho hi rfl
      | ret =>
        obtain ⟨r, -, -, hr', -⟩ := hp.sites k _ _ hsite hst
        obtain rfl := hr'
        obtain ⟨a, rest, rfl, ha⟩ := ho.body r rfl
        exact (h.ret hg hp hs he hstep hr hat hst hsite rfl ha).1
    · rw [hno.index?, Option.bind_none]
      exact h.astray hg hp hs he hstep hr hno ho

end Step

/-! ## Runs -/

section Runs

variable {q : Sequencer} {fs : Array Function} {M : Module} {L : List (Site Nat)}
variable {s s' : Sim.State} {live : List Activation}

theorem Live.same {g : Symbols} (h : Live escapes q fs g L live s)
    (hsame : ∀ d ∈ q.made fs, d ≠ q.machine.next → State.SameAt s' s d)
    (hnext : ∀ r inst, q.Has fs r inst → q.machine.next ∉ inst.stack) :
    Live escapes q fs g L live s' := by
  have hstack : ∀ r inst, q.Has fs r inst → ∀ d ∈ inst.stack, State.SameAt s' s d :=
    fun r inst hi d hd => hsame d (hi.mem_made hd) fun hx => hnext r inst hi (hx ▸ hd)
  exact ⟨fun r inst hi => (h.shaped r inst hi).same (hstack r inst hi),
    fun r inst hi => (h.holds r inst hi).same (hstack r inst hi), h.returns⟩

/-- Before anything has run all stacks are empty. -/
theorem Live.initial (hg : Grounded q fs M) :
    Live escapes q fs M.symbols L [] (.initial M.symbols) := by
  refine ⟨fun r inst hi => .initial (hg.stacked r inst hi), fun r inst hi => .empty ?_, trivial⟩
  obtain ⟨x, hx, hdecl, hkind, -⟩ := (hg.stacked r inst hi).sp
  simp [State.read, State.scalar, State.initial, hx, hdecl, hkind]

theorem Live.start (hg : Grounded q fs M) (hs : Settles M (.initial M.symbols) s) :
    Live escapes q fs M.symbols L [] s := by
  obtain ⟨others, hin, hfree⟩ := hg.installed
  refine (Live.initial hg).same (fun d hd hne => ?_) fun r inst hi => (hg.machine_apart r inst hi).2
  exact hin.settles_other hs (fun p hp => hfree p hp d hd) hne

/-- A register holds zero before anything has run. -/
theorem read_initial {g : Symbols} {i : SignalId} {x : Signal} (hx : g.signals[i]? = some x)
    (hkind : x.kind = .reg) : (State.initial g).read i = 0 := by
  rw [State.read, State.scalar, State.initial, Array.getElem?_map, hx, Option.map_some,
    Option.join_some, hkind]
  split <;> rfl

/-- Before the first step the register holds zero: the code of the end state, or of no state. -/
theorem Grounded.start_place (hg : Grounded q fs M) (hp : Plan escapes q fs M.symbols L)
    (hs : Settles M (.initial M.symbols) s) :
    InPlace escapes q.machine L [] s ∨ q.machine.Astray s := by
  obtain ⟨others, hin, -⟩ := hg.installed
  have hpos : 0 < q.machine.size := by
    rw [hp.size]
    exact (List.getElem?_eq_some_iff.mp hp.first).1
  have hzero : s.read q.machine.current = 0 := by
    rw [(hin.settles_other hs hin.current_free hin.apart).read]
    obtain ⟨x, hx, hkind⟩ := hg.register
    exact read_initial hx hkind
  by_cases he : q.machine.encoding = .oneHot
  · exact .inr (astray_zero hin.sized.countable he hzero)
  · exact .inl ⟨0, none, .inl ⟨_, hp.first, rfl⟩, .empty, (at_zero he hpos hzero).2⟩

/-- No stimulus sets a signal that was made for the program. -/
def Undriven (q : Sequencer) (fs : Array Function) (M : Module) (stimuli : List Stimulus) : Prop :=
  ∀ name v i, .drive name v ∈ stimuli → drives M name = some i → i ∉ q.made fs

/-- Along every run the stacks hold the live activations, and after the first step control is in
place. -/
theorem Live.run (hg : Grounded q fs M) (hp : Plan escapes q fs M.symbols L)
    {stimuli : List Stimulus} {sim : Sim} (hplay : Sim.play M stimuli = .ok sim)
    (hdrive : Undriven q fs M stimuli) :
    Live escapes q fs M.symbols L (liveAfter q fs M.symbols L (q.machine.history M stimuli)) sim.state ∧
      (InPlace escapes q.machine L
        (liveAfter q fs M.symbols L (q.machine.history M stimuli)) sim.state ∨
        (q.machine.history M stimuli = [] ∧ q.machine.Astray sim.state)) := by
  obtain ⟨others, hin, hfree⟩ := hg.installed
  have hnext : ∀ r inst, q.Has fs r inst → q.machine.next ∉ inst.stack :=
    fun r inst hi => (hg.machine_apart r inst hi).2
  have hcur : q.machine.current ∈ q.made fs := Sequencer.mem_made.mpr (.inl rfl)
  -- what leaves the made signals alone keeps all of it
  have hkeep : ∀ past s s', (∀ d ∈ q.made fs, d ≠ q.machine.next → State.SameAt s' s d) →
      Live escapes q fs M.symbols L (liveAfter q fs M.symbols L past) s ∧
        (InPlace escapes q.machine L (liveAfter q fs M.symbols L past) s ∨
          (past = [] ∧ q.machine.Astray s)) →
      Live escapes q fs M.symbols L (liveAfter q fs M.symbols L past) s' ∧
        (InPlace escapes q.machine L (liveAfter q fs M.symbols L past) s' ∨
          (past = [] ∧ q.machine.Astray s')) := by
    rintro past s s' hsame ⟨hl, hplace⟩
    have hread := (hsame _ hcur hin.apart).read
    refine ⟨hl.same hsame hnext, hplace.imp ?_ ?_⟩
    · rintro ⟨j, o, hj, ho, hx⟩
      exact ⟨j, o, hj, ho, hread.trans hx⟩
    · rintro ⟨hpast, hno⟩
      exact ⟨hpast, fun i hi hx => hno i hi (hread.symm.trans hx)⟩
  refine history_invariant hg.clock (· ∉ q.made fs) (fun past s =>
    Live escapes q fs M.symbols L (liveAfter q fs M.symbols L past) s ∧
      (InPlace escapes q.machine L (liveAfter q fs M.symbols L past) s ∨
        (past = [] ∧ q.machine.Astray s))) ?_ ?_ ?_ ?_ hplay hdrive
  · intro s _ hs
    exact ⟨.start hg hs, (hg.start_place hp hs).imp_right fun hno => ⟨rfl, hno⟩⟩
  · intro i v past s s' hi _ hinv hs
    refine hkeep past s s' (fun d hd hne => ?_) hinv
    exact hin.driven_other hs (fun p hp => hfree p hp d hd) hne fun hx => hi (hx ▸ hd)
  · intro edge past s s' hidle _ hinv he
    refine hkeep past s s' (fun d hd hne => ?_) hinv
    exact hin.edge_idle he.strikes hidle (fun p hp => hfree p hp d hd) hne
  · rintro edge past s s' hstep hs ⟨hl, hplace⟩ he
    have hempty : past = [] ∧ q.machine.Astray s →
        liveAfter q fs M.symbols L past = [] ∧ q.machine.Astray s := by
      rintro ⟨rfl, hno⟩
      exact ⟨rfl, hno⟩
    have hnew := hl.step hg hp hs he.strikes hstep (hplace.imp_right hempty)
    rw [liveAfter, List.foldl_concat]
    exact ⟨hnew.1, .inl hnew.2⟩

end Runs

end Lockstep.Program
