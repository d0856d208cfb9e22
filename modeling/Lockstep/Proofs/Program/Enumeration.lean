import Lockstep.Proofs.AddressMap
import Lockstep.Proofs.Program.Enumerator

/-!
# Enumerators run for each number below their limit

What the simulation of a module does in the loop of an enumerator. The state before the loop clears
the index; a state that ends a round advances it and tests, in the same step, whether there is a next
round; no other state of the loop assigns it or leads out. So the body is entered with the index at
zero, one, and so on, and the loop is left after the last number below the limit, at the top of its
type as anywhere else.
-/

namespace Lockstep

/-! ## Numbers below a limit -/

namespace Word

variable {t : TypeSlot} {v : Word}

theorem reading_lt (h : v.toNat < 2 ^ t.bits) : v.reading t < 2 ^ t.bits := by
  unfold reading
  split
  · have := BitVec.two_mul_toInt_lt (x := v.setWidth t.bits)
    have : (0 : Int) < 2 ^ t.bits := by positivity
    omega
  · exact_mod_cast h

/-- A number that is no larger than one of the type can be read in the type. -/
theorem reading_of_le (limit : Word) (hv : v.toNat < 2 ^ t.bits)
    (hle : (v.toNat : Int) ≤ limit.reading t) : v.reading t = v.toNat := by
  unfold reading at hle ⊢
  split
  · next hs =>
    rw [if_pos hs] at hle
    have hlimit := BitVec.two_mul_toInt_lt (x := limit.setWidth t.bits)
    have hnat : (v.setWidth t.bits).toNat = v.toNat := by
      rw [BitVec.toNat_setWidth, Nat.mod_eq_of_lt hv]
    have hsmall : 2 * (v.setWidth t.bits).toNat < 2 ^ t.bits := by
      rw [hnat]
      zify
      omega
    rw [BitVec.toInt_eq_toNat_of_lt hsmall, hnat]
  · rfl

end Word

namespace Machine

open Sim

variable {f : Machine} {i : SignalId}

/-! ## The steps of a run -/

/-- The register and the signal `i` are in `s'` what the step of the machine out of `s` makes of
them. -/
structure Carries (f : Machine) (m : Module) (i : SignalId) (s s' : Sim.State) : Prop where
  register : s'.read f.current =
    if f.resets m.symbols s then Word.ofUInt64 (f.code 0) else s.read f.next
  signal : State.SameAt s' (s.storeAll (execBlock m.symbols s f.dispatchBody)) i

/-- One step follows another along every run, as long as no stimulus sets the register or the
signal. -/
theorem Installed.carries_history {m : Module} {others : List Process} (h : f.Installed m others)
    (hclock : f.clock.isSome = true) (hi : ∀ p ∈ others, i ∉ Stmt.blockDests p.body)
    (hc : i ≠ f.current) (hn : i ≠ f.next) {stimuli : List Stimulus} {sim : Sim}
    (hplay : play m stimuli = .ok sim)
    (hdrive : ∀ name v j, .drive name v ∈ stimuli → drives m name = some j → j ≠ f.current ∧ j ≠ i) :
    (f.history m stimuli ++ [sim.state]).IsChain (f.Carries m i) ∧
      ∀ s ∈ f.history m stimuli, Resting m s := by
  -- the state after the last step may change, but not in what the step determines
  have hkeep : ∀ past s s', s'.read f.current = s.read f.current → State.SameAt s' s i →
      (past ++ [s]).IsChain (f.Carries m i) → (past ++ [s']).IsChain (f.Carries m i) := by
    intro past s s' hread hsame hchain
    rw [List.isChain_append] at hchain ⊢
    refine ⟨hchain.1, List.isChain_singleton s', fun x hx y hy => ?_⟩
    obtain rfl : s' = y := by simpa using hy
    have hstep := hchain.2.2 x hx s (by simp)
    exact ⟨hread.trans hstep.register, hsame.trans hstep.signal⟩
  refine history_invariant hclock (fun j => j ≠ f.current ∧ j ≠ i) (fun past s =>
    (past ++ [s]).IsChain (f.Carries m i) ∧ ∀ s ∈ past, Resting m s) ?_ ?_ ?_ ?_ hplay hdrive
  · intro s _ _
    exact ⟨List.isChain_singleton s, by simp⟩
  · rintro j v past s s' ⟨hjc, hji⟩ _ ⟨hchain, hrest⟩ hs
    have hread := (h.driven_other hs h.current_free h.apart hjc.symm).read
    exact ⟨hkeep past s s' hread (h.driven_other hs hi hn hji.symm) hchain, hrest⟩
  · rintro edge past s s' hidle _ ⟨hchain, hrest⟩ he
    have hread := (h.edge_idle he.strikes hidle h.current_free h.apart).read
    exact ⟨hkeep past s s' hread (h.edge_idle he.strikes hidle hi hn) hchain, hrest⟩
  · rintro edge past s s' hstep hs ⟨hchain, hrest⟩ he
    constructor
    · rw [List.isChain_append]
      refine ⟨hchain, List.isChain_singleton s', fun x hx y hy => ?_⟩
      obtain rfl : s = x := by simpa using hx
      obtain rfl : s' = y := by simpa using hy
      exact ⟨h.edge_current he.strikes hstep hs.fits hs.size, h.edge_body he.strikes hstep hi hc hn⟩
    · intro x hx
      rcases List.mem_append.mp hx with hx | hx
      · exact hrest x hx
      · exact List.mem_singleton.mp hx ▸ hs

/-- What the body of a state assigns, the body process assigns. -/
theorem mem_dispatchBody {k : Nat} {st : State} (hst : f.states[k]? = some st)
    (hi : i ∈ Stmt.blockDests st.body) : i ∈ Stmt.blockDests f.dispatchBody := by
  have harm := Stmt.mem_armDests (List.mem_of_getElem? (bodyArms_get hst)) hi
  unfold dispatchBody
  split <;> simp [Stmt.blockDests_append, Stmt.blockDests, Stmt.dests, harm]

/-- A signal that only one process assigns, and the bodies of states do, is free of all others. -/
theorem Installed.others_free {m : Module} {others : List Process} (h : f.Installed m others)
    (hsole : m.SoleDriven i) (hi : i ∈ Stmt.blockDests f.dispatchBody) :
    ∀ p ∈ others, i ∉ Stmt.blockDests p.body := by
  obtain ⟨before, after, next, rfl, -, hm⟩ := h.processes
  rw [Module.SoleDriven, hm] at hsole
  simp only [List.countP_append, Machine.processes, List.countP_cons, List.countP_nil, hi, decide_true,
    if_true] at hsole
  have hbefore : before.countP (fun p => i ∈ Stmt.blockDests p.body) = 0 := by omega
  have hafter : after.countP (fun p => i ∈ Stmt.blockDests p.body) = 0 := by omega
  rw [List.countP_eq_zero] at hbefore hafter
  intro p hp
  rcases List.mem_append.mp hp with hp | hp
  · simpa using hbefore p hp
  · simpa using hafter p hp

/-- A register with the code of a state is in the state. -/
theorem index?_of_code (hc : f.Countable) {s : Sim.State} {j : Nat} (hj : j < f.size)
    (hs : s.read f.current = Word.ofUInt64 (f.code (f.clamp j))) : f.index? s = some j := by
  have hclamp : f.clamp j = j := by simp [clamp, hj]
  rw [hclamp] at hs
  exact At.index? hc ⟨hj, hs⟩

end Machine

namespace Program

open Sim Machine

namespace Enumerator

variable {n : Nat} {x : Command} {a : Context}

/-! ## What a trace shows of an enumerator -/

section

variable (E : Enumerator n x a) (f : Machine)

/-- The machine is in the loop. -/
def inside (s : Sim.State) : Bool := (f.index? s).any fun j => E.first < j && j ≤ E.last

/-- The machine is in a state that ends a round. -/
def endsRound (s : Sim.State) : Bool := (f.index? s).any fun j => E.ends.contains j

/-- A step from `s` to `s'` enters the body for a round: from the state before the loop, or at the
end of a round. -/
def enters (s s' : Sim.State) : Bool :=
  (f.index? s == some E.first || E.endsRound f s) && f.index? s' == some (E.first + 1)

/-- The values of the index with which the body is entered along a trace. -/
def entries : List Sim.State → List Nat
  | s :: s' :: rest =>
    (if E.enters f s s' then [(s'.read E.index).toNat] else []) ++ entries (s' :: rest)
  | _ => []

/-- The states that the machine is in until it leaves the loop. -/
def stay (trace : List Sim.State) : List Sim.State := trace.takeWhile (E.inside f)

/-- As long as the trace stays in the loop, every round that is entered comes to its end, and the
machine makes a step from there. -/
def Completes : List Sim.State → Prop
  | s :: s' :: rest =>
    (E.enters f s s' = true → ∃ e ∈ (s' :: rest).dropLast, E.endsRound f e = true) ∧
      (E.inside f s' = true → Completes (s' :: rest))
  | _ => True

instance decidableCompletes : ∀ trace, Decidable (E.Completes f trace)
  | [] | [_] => inferInstanceAs (Decidable True)
  | _ :: s' :: rest =>
    have := decidableCompletes (s' :: rest)
    inferInstanceAs (Decidable ((_ → _) ∧ (_ → _)))

/-- The register leads to the state after the loop. -/
def Leaves (s : Sim.State) : Prop :=
  s.read f.current = Word.ofUInt64 (f.code (f.clamp (E.last + 1 : Nat)))

end

/-- The enumerator in a module `M` that is simulated, where `others` are the processes around the
machine. -/
structure Runs (E : Enumerator n x a) (labels : List String) (f : Machine) (M : Module)
    (others : List Process) : Prop where
  installed : f.Installed M others
  fallback : f.fallback = 0
  rounds : E.counter.In f labels E.last E.ends
  room : E.last < f.size
  labels : ∀ name ∈ labels, ∃ j, f.lookup name = some j ∧ E.first < j ∧ j ≤ E.last
  limit : M.symbols.typeOf E.limit = some E.type
  type : M.symbols.type? (some E.counter.type) = some E.type
  index : M.symbols.signalType E.index = some E.type
  register : E.index < M.symbols.signals.size
  current : E.index ≠ f.current
  next : E.index ≠ f.next
  others : ∀ p ∈ others, E.index ∉ Stmt.blockDests p.body
  defaults : E.index ∉ Stmt.blockDests f.defaults
  body : ∀ j st, E.first < j → j ≤ E.last → f.states[j]? = some st →
    E.index ∉ Stmt.blockDests (if j ∈ E.ends then st.body.dropLast else st.body)
  enter : E.counter.enter = .cmp E.below (.const 0 (some E.counter.type)) E.limit
  again : E.counter.again = .cmp E.below E.counter.next E.limit

section

variable {E : Enumerator n x a} {labels : List String} {f : Machine} {M : Module}
variable {others : List Process} {s s' : Sim.State} {N : Int}
variable {rest : List Sim.State} {st : Machine.State} {i j : Nat}

/-! ## One step -/

/-- The value of the limit. -/
def bound (E : Enumerator n x a) (g : Symbols) (s : Sim.State) : Int :=
  (eval g s E.limit).reading (some E.type)

section

variable (h : E.Runs labels f M others)
include h

theorem Runs.size_lt : f.size < 2 ^ 63 := h.installed.sized.countable.index

theorem Runs.register_step (hs : Resting M s)
    (hstep : f.Carries M E.index s s') (hr : f.resets M.symbols s = false) (hat : f.At s j)
    (hst : f.states[j]? = some st) : ∃ e, lastTaken M.symbols s (stateEdges j st) = some e ∧
      s'.read f.current = f.edgeValue M.symbols s e := by
  obtain ⟨e, htaken, hval⟩ := h.installed.next_at hs.rest hat hst
  refine ⟨e, htaken, ?_⟩
  rw [hstep.register, hr, if_neg Bool.false_ne_true, hval]

theorem Runs.index_step (hstep : f.Carries M E.index s s')
    (hr : f.resets M.symbols s = false) (hat : f.At s j) (hst : f.states[j]? = some st) :
    State.SameAt s' (s.storeAll (execBlock M.symbols s st.body)) E.index := by
  have hsame := hstep.signal
  rw [h.installed.body_at hat hst, hr, if_neg Bool.false_ne_true, State.storeAll_append] at hsame
  exact hsame.trans (State.storeAll_sameAt (State.storeAll_other (not_mem_execBlock h.defaults)) _)

/-- A state with the edge of the loop goes on with the body or leaves, as the test says. -/
theorem Runs.loop_step (hs : Resting M s)
    (hstep : f.Carries M E.index s s') (hr : f.resets M.symbols s = false) (hat : f.At s j)
    (hst : f.states[j]? = some st) {test : Expr}
    (hgotos : st.gotos = [loopEdge (some test) E.first E.last]) :
    if eval M.symbols s test != 0 then f.index? s' = some (E.first + 1) else E.Leaves f s' := by
  obtain ⟨e, htaken, hval⟩ := h.register_step hs hstep hr hat hst
  have hroom := h.room
  have hsize := h.size_lt
  have hafter : E.first < E.last := h.rounds.after
  have hedges : stateEdges j st = [⟨.always, some (.after j)⟩, ⟨.holds test, some (.after E.first)⟩,
      ⟨.fails test, some (.after E.last)⟩] := by
    simp [stateEdges, hgotos, loopEdge, Transition.branch, transitionEdges]
  rw [hedges, lastTaken_branch] at htaken
  have hplace : ∀ k : Nat,
      Target.place? (.after (k : Int) : Target Expr) = some ((k + 1 : Nat) : Int) :=
    fun k => by simp [Target.place?]
  split
  · next htest =>
    rw [if_pos htest] at htaken
    cases htaken
    rw [edgeValue_place rfl (hplace E.first) (by omega)] at hval
    exact index?_of_code h.installed.sized.countable (by omega) hval
  · next htest =>
    rw [if_neg htest] at htaken
    cases htaken
    rwa [edgeValue_place rfl (hplace E.last) (by omega)] at hval

/-- The test compares numbers of the type of the limit. -/
theorem Runs.test_iff (s : Sim.State) {e : Expr} (he : M.symbols.typeOf e = some E.type) :
    (eval M.symbols s (.cmp E.below e E.limit) != 0) = true ↔
      (eval M.symbols s e).reading (some E.type) < E.bound M.symbols s := by
  have hholds : Word.holds E.below (some E.type) (some E.type) (eval M.symbols s e)
      (eval M.symbols s E.limit) = true ↔ _ := Word.holds_iff (t := some E.type) (u := some E.type) rfl
    (he ▸ eval_lt M.symbols s e) (h.limit ▸ eval_lt M.symbols s E.limit) .lt
  rw [eval, he, h.limit]
  split
  · next hp => exact ⟨fun _ => hholds.mp hp, fun _ => by decide⟩
  · next hp => exact ⟨fun hne => absurd hne (by decide), fun hlt => absurd (hholds.mpr hlt) hp⟩

theorem Runs.limit_lt (s : Sim.State) :
    (eval M.symbols s E.limit).toNat < 2 ^ TypeSlot.bits (some E.type) :=
  h.limit ▸ eval_lt M.symbols s E.limit

theorem Runs.typeOf_next : M.symbols.typeOf E.counter.next = some E.type := by
  have hnext := knownType_next h.index h.type
  unfold Symbols.knownType at hnext
  split at hnext
  · exact hnext
  · cases hnext

end

theorem eval_index (hs : Resting M s) : eval M.symbols s (.ref E.index) = s.read E.index := by
  rw [eval, Word.truncate_of_lt (hs.fits.read E.index)]

section

variable (h : E.Runs labels f M others)
include h

/-- Below the limit the next index does not wrap around. -/
theorem Runs.eval_next (hs : Resting M s)
    (hi : (s.read E.index).toNat = i) (hlt : (i : Int) < E.bound M.symbols s) :
    (eval M.symbols s E.counter.next).toNat = i + 1 := by
  have hbound := Word.reading_lt (h.limit_lt s)
  have hfits := hs.fits.read E.index
  rw [h.index] at hfits
  have hindex := eval_index (E := E) hs
  -- a type with a number above zero has room for one
  have hone : (eval M.symbols s (.const 1 (some E.counter.type))).toNat = 1 := by
    have hpow : 1 < 2 ^ TypeSlot.bits (some E.type) := by
      unfold bound at hlt
      zify
      omega
    rw [Expr.const, eval, h.type, Word.toNat_truncate]
    exact Nat.mod_eq_of_lt hpow
  have hx : (eval M.symbols s (.ref E.index)).reading (some E.type) = i := by
    rw [hindex, Word.reading_of_le (eval M.symbols s E.limit) hfits (by rw [hi]; exact hlt.le), hi]
  have hy : (eval M.symbols s (.const 1 (some E.counter.type))).reading (some E.type) = 1 := by
    rw [Word.reading_of_le (eval M.symbols s E.limit) _ _, hone]
    · rfl
    · exact h.type ▸ eval_lt M.symbols s (.const 1 (some E.counter.type))
    · rw [hone]
      unfold bound at hlt
      omega
  have hexact := Word.toNat_binary .add E.type E.type (eval M.symbols s (.ref E.index))
    (eval M.symbols s (.const 1 (some E.counter.type)))
  have hresult : E.type.resultFor .add (some E.type) = E.type := by
    simp [SignalType.resultFor, BinOp.isShift]
  rw [hresult, BinOp.exact, hx, hy, Int.emod_eq_of_lt (by omega)
    (by unfold bound at hlt; omega)] at hexact
  have hleft : M.symbols.typeOf (.ref E.counter.index) = some E.type := h.index
  have hright : M.symbols.typeOf (.const 1 (some E.counter.type)) = some E.type := h.type
  have htype : M.symbols.typeOf (.bin .add (.ref E.counter.index) (.const 1 (some E.counter.type))) =
      some E.type := h.typeOf_next
  rw [Counter.next, Expr.plus, eval, htype, hleft, hright]
  exact_mod_cast hexact

theorem Runs.reading_next (hs : Resting M s)
    (hi : (s.read E.index).toNat = i) (hlt : (i : Int) < E.bound M.symbols s) :
    (eval M.symbols s E.counter.next).reading (some E.type) = i + 1 := by
  have hnext := h.eval_next hs hi hlt
  rw [Word.reading_of_le (eval M.symbols s E.limit) _ _, hnext]
  · rfl
  · exact h.typeOf_next ▸ eval_lt M.symbols s E.counter.next
  · rw [hnext]
    exact hlt

/-- The last write to the index stays. -/
theorem Runs.read_last (hs : Resting M s) (before : List Write)
    {v : Word} (hsame : State.SameAt s' (s.storeAll (before ++ [⟨E.index, none, v⟩])) E.index) :
    s'.read E.index = v := by
  have hlast : (s.storeAll (before ++ [⟨E.index, none, v⟩])).scalar E.index = some v :=
    State.scalar_storeAll_last s (w := ⟨E.index, none, v⟩) rfl (by rw [hs.size]; exact h.register)
      (by simp)
  rw [hsame.read, State.read, hlast, Option.getD_some]

/-- The state before the loop clears the index, and enters the body if the limit is above zero. -/
theorem Runs.first_step (hs : Resting M s)
    (hstep : f.Carries M E.index s s') (hr : f.resets M.symbols s = false)
    (hat : f.index? s = some E.first) : (s'.read E.index).toNat = 0 ∧
      if 0 < E.bound M.symbols s then f.index? s' = some (E.first + 1) else E.Leaves f s' := by
  obtain ⟨name, hst⟩ := h.rounds.header
  have hat := at_of_index? hat
  constructor
  · have hsame := h.index_step hstep hr hat hst
    rw [execBlock, execBlock, List.append_nil, Counter.clear, exec_clear] at hsame
    rw [h.read_last hs [] hsame]
    rfl
  · have hloop := h.loop_step hs hstep hr hat hst rfl
    have hzero : (eval M.symbols s (.const 0 (some E.counter.type))).reading (some E.type) = 0 := by
      simp [Expr.const, eval, Symbols.literal, Word.ofUInt64, Word.truncate, Word.reading]
    have htest := h.test_iff s (e := .const 0 (some E.counter.type)) h.type
    rw [hzero, ← h.enter] at htest
    simpa only [htest] using hloop

/-- A state that ends a round advances the index, and enters the body again if the limit is above the
next index. -/
theorem Runs.end_step (hs : Resting M s)
    (hstep : f.Carries M E.index s s') (hr : f.resets M.symbols s = false)
    (hat : E.endsRound f s = true) (hi : (s.read E.index).toNat = i)
    (hlt : (i : Int) < E.bound M.symbols s) : (s'.read E.index).toNat = i + 1 ∧
      if (i + 1 : Int) < E.bound M.symbols s then f.index? s' = some (E.first + 1)
      else E.Leaves f s' := by
  obtain ⟨j, hj, hmem⟩ := (Option.any_eq_true ..).mp hat
  have hat := at_of_index? hj
  obtain ⟨-, -, st, block, hst, hbody, hgotos⟩ := h.rounds.ends j (by simpa using hmem)
  have hread := h.reading_next hs hi hlt
  constructor
  · have hsame := h.index_step hstep hr hat hst
    rw [hbody, execBlock_append, execBlock, execBlock, List.append_nil] at hsame
    rw [h.read_last hs _ hsame]
    have hfit := Word.toNat_fit (some E.type) (TypeSlot.bits_le (some E.type))
      (eval M.symbols s E.counter.next)
    have hbound := Word.reading_lt (h.limit_lt s)
    rw [hread, Int.emod_eq_of_lt (by omega) (by unfold bound at hlt; omega)] at hfit
    rw [h.typeOf_next, show M.symbols.signalType E.counter.index = some E.type from h.index]
    exact_mod_cast hfit
  · have hloop := h.loop_step hs hstep hr hat hst hgotos
    have htest := h.test_iff s h.typeOf_next
    rw [hread, ← h.again] at htest
    simpa only [htest] using hloop

/-- Any other state of the loop stays in it, and leaves the index alone. -/
theorem Runs.plain_step (hs : Resting M s)
    (hstep : f.Carries M E.index s s') (hr : f.resets M.symbols s = false)
    (hin : E.inside f s = true) (hend : E.endsRound f s = false) :
    E.inside f s' = true ∧ s'.read E.index = s.read E.index := by
  obtain ⟨j, hj, hbounds⟩ := (Option.any_eq_true ..).mp hin
  simp only [Bool.and_eq_true, decide_eq_true_eq] at hbounds
  have hsite : j ∉ E.ends := by simpa [endsRound, hj] using hend
  have hat := at_of_index? hj
  obtain ⟨st, hst⟩ := hat.exists_state
  constructor
  · obtain ⟨e, htaken, hval⟩ := h.register_step hs hstep hr hat hst
    have hroom := h.room
    have hsize := h.size_lt
    have hlast : j ≠ E.last := fun he => hsite (he ▸ h.rounds.closing)
    -- every edge leads to a place in the loop
    have hplace : ∃ k : Nat, E.first < k ∧ k ≤ E.last ∧
        f.edgeValue M.symbols s e = Word.ofUInt64 (f.code (f.clamp k)) := by
      have hwithin : ∀ b : Target Expr, e.target = some b → b.Within labels E.first E.last →
          ∃ k : Nat, E.first < k ∧ k ≤ E.last ∧
            f.edgeValue M.symbols s e = Word.ofUInt64 (f.code (f.clamp k)) := by
        rintro b hb (⟨k, hk, hlo, hhi⟩ | ⟨name, hname, rfl⟩)
        · exact ⟨k, hlo, hhi, edgeValue_place hb hk (by omega)⟩
        · obtain ⟨k, hk, hlo, hhi⟩ := h.labels name hname
          refine ⟨k, hlo, hhi, ?_⟩
          simp [edgeValue, edgeIndex, hb, targetIndex, hk]
      rcases List.mem_cons.mp (mem_of_lastTaken htaken).1 with rfl | he
      · exact ⟨j + 1, by omega, by omega, edgeValue_place rfl (by simp [Target.place?]) (by omega)⟩
      · obtain ⟨t, ht, he⟩ := List.mem_flatMap.mp he
        obtain ⟨htarget, hways⟩ := h.rounds.others j _ hbounds.1 hbounds.2 hsite hst t ht
        rcases mem_transitionEdges he with heq | ⟨b, heq, hb⟩
        · obtain ⟨b, hb⟩ := Option.isSome_iff_exists.mp htarget
          exact hwithin b (heq.trans hb) (hways b (.inl hb))
        · exact hwithin b heq (hways b (.inr hb))
    obtain ⟨k, hlo, hhi, hk⟩ := hplace
    have hindex := index?_of_code h.installed.sized.countable (by omega) (hval.trans hk)
    simp [inside, hindex, hlo, hhi]
  · have hbody := h.body j _ hbounds.1 hbounds.2 hst
    rw [if_neg hsite] at hbody
    exact ((h.index_step hstep hr hat hst).trans (State.storeAll_other (not_mem_execBlock hbody))).read

end

/-! ## The whole loop -/

/-- The state after the loop is not one of its states. -/
theorem Runs.not_inside (h : E.Runs labels f M others) (hs : E.Leaves f s) : E.inside f s = false := by
  by_contra hin
  obtain ⟨j, hj, hbounds⟩ := (Option.any_eq_true ..).mp (Bool.not_eq_false _ ▸ hin)
  simp only [Bool.and_eq_true, decide_eq_true_eq] at hbounds
  have hat := at_of_index? hj
  have hcount := h.installed.sized.countable
  have hfall : f.fallback = (0 : Nat) := h.fallback
  rcases clamp_cases hfall (E.last + 1 : Nat) with
    ⟨k, hk, hlast, hclamp⟩ | ⟨-, he, hclamp⟩ | ⟨-, hclamp⟩
  · rw [Leaves, hclamp] at hs
    have := hat.unique hcount ⟨hk, hs⟩
    omega
  · rw [Leaves, hclamp] at hs
    exact code_size_ne hcount (by simp [he]) hat.1 (Word.ofUInt64_inj.mp (hs.symm.trans hat.2))
  · rw [Leaves, hclamp] at hs
    have := hat.unique hcount ⟨Nat.zero_lt_of_lt hat.1, hs⟩
    omega

theorem stay_cons_inside (hs : E.inside f s = true) :
    E.stay f (s :: rest) = s :: E.stay f rest := List.takeWhile_cons_of_pos hs

theorem Runs.inside_first (h : E.Runs labels f M others) (hs : f.index? s = some (E.first + 1)) :
    E.inside f s = true := by
  have hafter : E.first < E.last := h.rounds.after
  simpa [inside, hs] using hafter

/-- From a round with the index `i` on, the body is entered with each number after `i` that is below
the limit, and then the loop is left. The induction is over the trace: a step stays in the round,
enters the next one, or leaves. -/
theorem Runs.entries_from (h : E.Runs labels f M others)
    (hchain : (s :: rest).IsChain (f.Carries M E.index)) (hrest : ∀ σ ∈ s :: rest, Resting M σ)
    (hin : E.inside f s = true) (hi : (s.read E.index).toNat = i) (hlt : (i : Int) < N)
    (hsteady : ∀ σ ∈ s :: E.stay f rest, f.resets M.symbols σ = false ∧ E.bound M.symbols σ = N)
    (hdone : ∃ e ∈ (s :: rest).dropLast, E.endsRound f e = true)
    (hcomplete : E.Completes f (s :: rest)) :
    E.entries f (s :: E.stay f rest) = List.range' (i + 1) (N.toNat - (i + 1)) ∧
      ∃ exit after, rest = E.stay f rest ++ exit :: after ∧ E.Leaves f exit := by
  induction rest generalizing s i with
  | nil => simp at hdone
  | cons s' rest ih =>
    obtain ⟨hr, hN⟩ := hsteady s List.mem_cons_self
    have hs := hrest s List.mem_cons_self
    rw [List.isChain_cons_cons] at hchain
    obtain ⟨hstep, hchain⟩ := hchain
    have hrest' : ∀ σ ∈ s' :: rest, Resting M σ := fun σ hσ => hrest σ (List.mem_cons_of_mem s hσ)
    cases hend : E.endsRound f s with
    | true =>
      obtain ⟨hi', hnext⟩ := h.end_step hs hstep hr hend hi (hN ▸ hlt)
      rw [hN] at hnext
      by_cases hlt' : (i + 1 : Int) < N
      · -- the next round
        rw [if_pos hlt'] at hnext
        have hin' := h.inside_first hnext
        have henters : E.enters f s s' = true := by simp [enters, hend, hnext]
        rw [stay_cons_inside hin'] at hsteady ⊢
        obtain ⟨hentries, exit, after, hexit, hleaves⟩ := ih hchain hrest' hin' hi'
          (by exact_mod_cast hlt')
          (fun σ hσ => hsteady σ (List.mem_cons_of_mem s hσ)) (hcomplete.1 henters) (hcomplete.2 hin')
        refine ⟨?_, exit, after, congrArg (s' :: ·) hexit, hleaves⟩
        rw [entries, if_pos henters, hentries, hi', List.singleton_append, ← List.range'_succ]
        congr 1
        omega
      · rw [if_neg hlt'] at hnext
        have hout := h.not_inside hnext
        have hstay : E.stay f (s' :: rest) = [] := by simp [stay, hout]
        rw [hstay, show N.toNat - (i + 1) = 0 by omega]
        exact ⟨rfl, s', rest, rfl, hnext⟩
    | false =>
      obtain ⟨hin', hread⟩ := h.plain_step hs hstep hr hin hend
      have henters : E.enters f s s' = false := by
        obtain ⟨j, hj, hbounds⟩ := (Option.any_eq_true ..).mp hin
        simp only [Bool.and_eq_true, decide_eq_true_eq] at hbounds
        have hne : j ≠ E.first := by omega
        simp [enters, hend, hj, hne]
      have hdone' : ∃ e ∈ (s' :: rest).dropLast, E.endsRound f e = true := by
        obtain ⟨e, he, heend⟩ := hdone
        rw [List.dropLast_cons_cons] at he
        rcases List.mem_cons.mp he with rfl | he
        · simp [hend] at heend
        · exact ⟨e, he, heend⟩
      rw [stay_cons_inside hin'] at hsteady ⊢
      obtain ⟨hentries, exit, after, hexit, hleaves⟩ := ih hchain hrest' hin' (hread ▸ hi) hlt
        (fun σ hσ => hsteady σ (List.mem_cons_of_mem s hσ)) hdone' (hcomplete.2 hin')
      refine ⟨?_, exit, after, congrArg (s' :: ·) hexit, hleaves⟩
      rw [entries, henters, if_neg Bool.false_ne_true, List.nil_append, hentries]

/-- From the state before the loop on, the body is entered with each number below the limit. -/
theorem Runs.entries_eq (h : E.Runs labels f M others) (hne : rest ≠ [])
    (hchain : (s :: rest).IsChain (f.Carries M E.index)) (hrest : ∀ σ ∈ s :: rest, Resting M σ)
    (hat : f.index? s = some E.first)
    (hsteady : ∀ σ ∈ s :: E.stay f rest, f.resets M.symbols σ = false ∧ E.bound M.symbols σ = N)
    (hcomplete : E.Completes f (s :: rest)) :
    E.entries f (s :: E.stay f rest) = List.range N.toNat ∧
      ∃ exit after, rest = E.stay f rest ++ exit :: after ∧ E.Leaves f exit := by
  obtain ⟨s', rest, rfl⟩ := List.exists_cons_of_ne_nil hne
  obtain ⟨hr, hN⟩ := hsteady s List.mem_cons_self
  rw [List.isChain_cons_cons] at hchain
  obtain ⟨hi, hnext⟩ := h.first_step (hrest s List.mem_cons_self) hchain.1 hr hat
  rw [hN] at hnext
  by_cases hpos : 0 < N
  · rw [if_pos hpos] at hnext
    have hin := h.inside_first hnext
    have henters : E.enters f s s' = true := by simp [enters, hat, hnext]
    rw [stay_cons_inside hin] at hsteady ⊢
    obtain ⟨hentries, exit, after, hexit, hleaves⟩ := h.entries_from hchain.2
      (fun σ hσ => hrest σ (List.mem_cons_of_mem s hσ)) hin hi hpos
      (fun σ hσ => hsteady σ (List.mem_cons_of_mem s hσ)) (hcomplete.1 henters) (hcomplete.2 hin)
    refine ⟨?_, exit, after, congrArg (s' :: ·) hexit, hleaves⟩
    rw [entries, if_pos henters, hentries, hi, List.singleton_append, ← List.range'_succ,
      List.range_eq_range']
    congr 1
    omega
  · rw [if_neg hpos] at hnext
    have hout := h.not_inside hnext
    have hstay : E.stay f (s' :: rest) = [] := by simp [stay, hout]
    rw [hstay, show N.toNat = 0 by omega]
    exact ⟨rfl, s', rest, rfl, hnext⟩

/-! ## From the program to the simulation -/

/-- The body and the module around it leave the enumerator alone: jumps stay in the loop, only the
enumerator assigns its index, and the types of the limit and the index are what they were. -/
structure Undisturbed (E : Enumerator n x a) (labels : List String) (f : Machine) (M : Module) :
    Prop where
  labels : ∀ name ∈ labels, ∃ j, f.lookup name = some j ∧ E.first < j ∧ j ≤ E.last
  body : ∀ j st, E.first < j → j ≤ E.last → f.states[j]? = some st →
    E.index ∉ Stmt.blockDests (if j ∈ E.ends then st.body.dropLast else st.body)
  limit : M.symbols.typeOf E.limit = some E.type
  index : M.symbols.signalType E.index = some E.type
  sole : M.SoleDriven E.index
  current : M.SoleDriven f.current
  next : M.SoleDriven f.next

theorem Housed.runs {m : Module} (h : E.Housed labels f m)
    (hopened : Opened E.limit E.resolved E.counter E.opened) (hM : m.Grows M)
    (hsize : f.size < 2 ^ 63) (hE : E.Undisturbed labels f M) :
    f.clock.isSome = true ∧ ∃ others, E.Runs labels f M others := by
  obtain ⟨f₀, m₀, hplaced, hfall, hbuild⟩ := h.built
  obtain ⟨hobstacle, hf, -⟩ := build_ok hbuild
  obtain ⟨name, hheader⟩ := h.rounds.header
  obtain ⟨y, hy, hyt⟩ := h.signal
  obtain ⟨henter, hagain⟩ := E.tests hopened
  have hsignal := hM.signal hy
  have hindex := hE.index
  have hroom := h.room
  have hfallback : 0 ≤ f₀.fallback ∧ f₀.fallback < f₀.size := by
    have : f₀.size = f.size := by rw [hf]; rfl
    omega
  obtain ⟨others, hinstalled⟩ : ∃ others, f.Installed M others := by
    have hcur := hE.current
    have hnext := hE.next
    rw [hf] at hsize hcur hnext ⊢
    obtain ⟨others, ho⟩ := installed_of_build hplaced hbuild hM hsize hfallback hcur hnext
    exact ⟨others, ho.withBuilt true⟩
  constructor
  · obtain ⟨⟨event, hclock⟩, -⟩ := obstacle_none hobstacle
    rw [hf]
    exact Option.isSome_iff_exists.mpr ⟨event, hclock⟩
  · refine ⟨others, hinstalled, by rw [hf]; exact hfall, h.rounds, h.room, hE.labels, hE.limit, ?_,
      hindex, (Array.getElem?_eq_some_iff.mp hsignal).1, (Nat.ne_of_lt h.current).symm,
      (Nat.ne_of_lt h.next).symm, ?_, fun hmem => Nat.lt_irrefl _ (h.defaults _ hmem), hE.body, henter,
      hagain⟩
    · rw [Symbols.signalType, hsignal, Option.bind_some, hyt] at hindex
      exact hindex
    · refine hinstalled.others_free hE.sole (mem_dispatchBody hheader ?_)
      simp [Counter.clear, Stmt.blockDests, Stmt.dests, index]

/-! ## Numbers of rounds that are known -/

end

end Enumerator

/-- The number of words of a memory, as it is known in `c`. -/
def wordCount (c : Context) (mem : SignalId) : Int :=
  (c.session.module.symbols.signals[mem]?.map Signal.depth).getD 0

namespace Enumerates

variable {a a' : Context} {limit : Expr} {names : Expr → ElabM Unit} {block body : List Command}
variable {word index : Option String}

theorem times_inv {m : Int} (h : Enumerates (.times m index block) a limit a' names body) :
    (exactNumber (UInt64.ofInt m)).run a = .ok limit a' := by
  cases h with
  | times hv => exact hv

theorem each_inv {name : String} (h : Enumerates (.each name word index block) a limit a' names body) :
    ∃ mem c, (resolveSignal name).run a = .ok mem c ∧
      names = (fun i => do bindVar word (.index mem i); bindVar index i) ∧
      (exactNumber (UInt64.ofInt (wordCount c mem))).run c = .ok limit a' := by
  cases h with
  | each hmem hv => exact ⟨_, _, hmem, rfl, hv⟩

end Enumerates

namespace Enumerator

variable {n : Nat} {x : Command} {a : Context}

section

variable {E : Enumerator n x a} {M : Module}

theorem ensures_exactNumber (v : UInt64) (c : Context) : Ensures (exactNumber v) c fun e c' =>
    ∃ t, e = .const v (some t) ∧
      c'.session.module.symbols.type? (some t) = some (.unsigned (bitsFor v.toNat)) := by
  simp only [exactNumber, ensures_ops]
  exact ⟨_, rfl, by simp [Symbols.number, Symbols.newType, Symbols.type?]⟩

/-- A number that is just wide enough is read as it was written. -/
theorem bound_exactNumber {c : Context} {v : UInt64}
    (hv : (exactNumber v).run c = .ok E.limit E.resolved)
    (hlimit : M.symbols.typeOf E.limit = some E.type) (s : Sim.State) :
    E.bound M.symbols s = v.toNat := by
  obtain ⟨t, he, htype⟩ := ensures_exactNumber v c _ _ hv
  have hknown := E.known
  rw [he] at hknown hlimit
  have hE : E.type = .unsigned (bitsFor v.toNat) := Option.some.inj (hknown.symm.trans htype)
  have hbits : bitsFor v.toNat ≤ 64 := bitsFor_le (by decide) v.toNat_lt
  have hwidth : TypeSlot.bits (some (.unsigned (bitsFor v.toNat))) = bitsFor v.toNat :=
    bits_unsigned (hbits.trans (by decide))
  have htype' : M.symbols.type? (some t) = some (.unsigned (bitsFor v.toNat)) := hE ▸ hlimit
  have heval : eval M.symbols s E.limit = Word.ofUInt64 v := by
    rw [he, Expr.const, eval, htype', hwidth]
    exact Word.truncate_of_lt (by simpa [Symbols.literal] using lt_two_pow_bitsFor v.toNat)
  rw [bound, heval, hE]
  simp [Word.reading, TypeSlot.isSigned, SignalType.unsigned]

theorem toNat_ofInt_of_lt {m : Int} (hm : 0 ≤ m) (hlt : m < 2 ^ 63) :
    ((UInt64.ofInt m).toNat : Int) = m := by
  rw [AddressMap.toNat_ofInt hm, Nat.mod_eq_of_lt (by simp only [UInt64.size]; omega),
    Int.toNat_of_nonneg hm]

theorem bound_times {m : Int} {index : Option String} {block : List Command}
    (hx : x = .times m index block) (hm : 0 ≤ m) (hlt : m < 2 ^ 63)
    (hlimit : M.symbols.typeOf E.limit = some E.type) (s : Sim.State) : E.bound M.symbols s = m := by
  subst hx
  have hv := E.enumerates.times_inv
  rw [bound_exactNumber hv hlimit, toNat_ofInt_of_lt hm hlt]

/-- The word that belongs to the index is bound along with it. -/
theorem bound_each {name : String} {word index : Option String} {block : List Command}
    (hx : x = .each name word index block) (hlimit : M.symbols.typeOf E.limit = some E.type) :
    ∃ mem c, (resolveSignal name).run a = .ok mem c ∧
      E.names = (fun i => do bindVar word (.index mem i); bindVar index i) ∧
      (0 ≤ wordCount c mem → wordCount c mem < 2 ^ 63 →
        ∀ s, E.bound M.symbols s = wordCount c mem) := by
  subst hx
  obtain ⟨mem, c, hmem, hnames, hv⟩ := E.enumerates.each_inv
  refine ⟨mem, c, hmem, hnames, fun hpos hlt s => ?_⟩
  rw [bound_exactNumber hv hlimit, toNat_ofInt_of_lt hpos hlt]

end

/-- In every simulation of a program that was built, from the state before an enumerator on, the body
is entered with the index at each number below the limit, in order and no more, and then the loop is
left. The limit does not change meanwhile, the body keeps to the loop and comes to the end of every
round, and nothing else assigns the index. A count that was given as a number is the limit, and so is
the number of words of a memory, where the body sees the word at the index. -/
theorem entries_eq_range {s s' : Session} {opts : Options} {program : List Command} {q : Sequencer}
    {c₀ : Context} {labels : List String} {M : Module} {stimuli : List Stimulus} {sim : Sim}
    {before rest : List Sim.State} {s₀ : Sim.State} {N : Int}
    (hbuild : build s opts program = (.ok q, s')) (hprogram : Regular program)
    (hfs : ∀ f ∈ s.functions, f.Avoids Command.isRaw) (hsize : q.machine.size < 2 ^ 63)
    (hbegin : (beginProgram opts.start).run (draft s opts) = .ok () c₀)
    (hvisit : Visits opts.budget program c₀ x n a) (E : Enumerator n x a)
    (hstays : Command.staysAll labels false E.body = true) (hM : s'.module.Grows M)
    (hE : E.Undisturbed labels q.machine M) (hplay : Sim.play M stimuli = .ok sim)
    (hdrive : ∀ name v j, .drive name v ∈ stimuli → drives M name = some j →
      j ≠ q.machine.current ∧ j ≠ E.index)
    (htrace : q.machine.history M stimuli ++ [sim.state] = before ++ s₀ :: rest) (hne : rest ≠ [])
    (hat : q.machine.index? s₀ = some E.first)
    (hsteady : ∀ σ ∈ s₀ :: E.stay q.machine rest,
      q.machine.resets M.symbols σ = false ∧ E.bound M.symbols σ = N)
    (hcomplete : E.Completes q.machine (s₀ :: rest)) :
    E.entries q.machine (s₀ :: E.stay q.machine rest) = List.range N.toNat ∧
      (∃ exit after, rest = E.stay q.machine rest ++ exit :: after ∧ E.Leaves q.machine exit) ∧
      (∀ m index block, x = .times m index block → 0 ≤ m → m < 2 ^ 63 → N = m) ∧
      ∀ name word index block, x = .each name word index block →
        ∃ mem c, (resolveSignal name).run a = .ok mem c ∧
          (0 ≤ wordCount c mem → wordCount c mem < 2 ^ 63 → N = wordCount c mem) ∧
          E.names = (fun i => do bindVar word (.index mem i); bindVar index i) ∧
          ∀ σ ∈ s₀ :: rest, eval M.symbols σ (.index mem (.ref E.index)) =
            Word.truncate (M.symbols.signalType mem).bits (σ.word mem (σ.read E.index).toNat) := by
  obtain ⟨hopened, hhoused⟩ := E.housed hbuild hbegin hfs hvisit hprogram hstays
  obtain ⟨hclock, others, hruns⟩ := hhoused.runs hopened hM hsize hE
  obtain ⟨hchain, hresting⟩ := hruns.installed.carries_history hclock hruns.others hruns.current
    hruns.next hplay hdrive
  -- the part of the trace from the state before the loop on
  have hpart : (s₀ :: rest).IsChain (q.machine.Carries M E.index) := by
    rw [htrace, List.isChain_append] at hchain
    exact hchain.2.1
  have hrest : ∀ σ ∈ s₀ :: rest, Resting M σ := by
    intro σ hσ
    have hmem : σ ∈ q.machine.history M stimuli ++ [sim.state] := by
      rw [htrace]
      exact List.mem_append_right before hσ
    rcases List.mem_append.mp hmem with hmem | hmem
    · exact hresting σ hmem
    · exact List.mem_singleton.mp hmem ▸ (Resting.of_play hplay).2
  have hN := (hsteady s₀ List.mem_cons_self).2
  obtain ⟨hentries, hexit⟩ := hruns.entries_eq hne hpart hrest hat hsteady hcomplete
  refine ⟨hentries, hexit, fun m index block hx hm hlt => ?_, fun name word index block hx => ?_⟩
  · rw [← hN, bound_times hx hm hlt hE.limit]
  · obtain ⟨mem, c, hmem, hnames, hcount⟩ := bound_each hx hE.limit
    refine ⟨mem, c, hmem, fun hpos hlt => hN.symm.trans (hcount hpos hlt s₀), hnames, fun σ hσ => ?_⟩
    rw [eval, eval_index (hrest σ hσ)]

end Enumerator

/-! ## A loop over a memory -/

/-- Where a step of elaboration leads. -/
def after {α : Type} (x : ElabM α) (c : Context) : Context :=
  match x.run c with
  | .ok _ c' => c'
  | .error _ c' => c'

def value? {α : Type} (x : ElabM α) (c : Context) : Option α :=
  match x.run c with
  | .ok v _ => some v
  | .error .. => none

theorem run_of_value? {α : Type} {x : ElabM α} {c : Context} {v : α} (h : value? x c = some v) :
    x.run c = .ok v (after x c) := by
  unfold value? at h
  unfold after
  split at h
  · next hrun => rw [hrun, Option.some.inj h]
  · cases h

def tallyTop : Module :=
  let (clk, m) := ({ name := "top" } : Module).addPort "clk" .input .bit
  { m with clock := some { signal := some clk } }

/-- Skips the word with the number one. -/
def tallyRound : List Command :=
  [.ifThen (.relate .eq (.var "i") (.number 1 2)) [.nextRound], .assign "seen" (.var "w")]

def tallyLoop : Command := .each "row" (some "w") (some "i") tallyRound

/-- Looks at the three words of a memory. -/
def tallyBody : List Command := [.memory "row" (.unsigned 4) 3, .reg "seen" (.unsigned 4), tallyLoop]

/-- The program up to its loop. -/
def tallyStart : Context :=
  after (perform (callWithin 1024) (.reg "seen" (.unsigned 4)))
    (after (perform (callWithin 1024) (.memory "row" (.unsigned 4) 3))
      (after (beginProgram .hole) (draft { module := tallyTop } {})))

def tallyCounter : Counter where
  index := 6
  type := 7
  enter := .cmp .ult (.const 0 (some 7)) (.const 3 (some 7))
  again := .cmp .ult (.plus (.ref 6) (.const 1 (some 7))) (.const 3 (some 7))
  state := 1

def tallyNames (i : Expr) : ElabM Unit := do
  bindVar (some "w") (.index 4 i)
  bindVar (some "i") i

def tallyResolved : Context :=
  after (exactNumber (UInt64.ofInt (wordCount (after (resolveSignal "row") tallyStart) 4)))
    (after (resolveSignal "row") tallyStart)

def tallyOpened : Context := after (openCount (.const 3 (some 7))) tallyResolved

def tallyEnumerator : Enumerator 1024 tallyLoop tallyStart where
  limit := .const 3 (some 7)
  type := .unsigned 2
  counter := tallyCounter
  names := tallyNames
  body := tallyRound
  resolved := tallyResolved
  opened := tallyOpened
  ended := after (do tallyNames (.ref 6); performAll (callWithin 1024) tallyRound) tallyOpened
  enumerates := .each (run_of_value? (by decide +kernel)) (run_of_value? (by decide +kernel))
  known := by decide +kernel
  opens := run_of_value? (by decide +kernel)
  runs := run_of_value? (by decide +kernel)

/-- Whether the run comes to the loop after two steps, and nothing disturbs it there. -/
def tallyCheck (q : Sequencer) (s' : Session) (sim : Sim) : Bool :=
  let E := tallyEnumerator
  let g := s'.module.symbols
  (List.range (E.last + 1)).all (fun j => j ≤ E.first || q.machine.states[j]?.all fun st =>
    !(Stmt.blockDests (if j ∈ E.ends then st.body.dropLast else st.body)).contains E.index) &&
  g.typeOf E.limit == some E.type && g.signalType E.index == some E.type &&
  s'.module.SoleDriven E.index && s'.module.SoleDriven q.machine.current &&
  s'.module.SoleDriven q.machine.next &&
  match q.machine.history s'.module (List.replicate 9 .tick) ++ [sim.state] with
  | _ :: _ :: s₀ :: s₁ :: rest => q.machine.index? s₀ == some E.first &&
    (s₀ :: E.stay q.machine (s₁ :: rest)).all (fun σ => !q.machine.resets g σ && E.bound g σ == 3) &&
    E.Completes q.machine (s₀ :: s₁ :: rest)
  | _ => false

/-- The loop sees the words zero, one and two. The number of words is the largest of its type, and the
second round ends early. -/
theorem tally_entries : ∃ q s' sim before s₀ rest,
    build { module := tallyTop } {} tallyBody = (.ok q, s') ∧
      Sim.play s'.module (List.replicate 9 .tick) = .ok sim ∧
      q.machine.history s'.module (List.replicate 9 .tick) ++ [sim.state] = before ++ s₀ :: rest ∧
      tallyEnumerator.entries q.machine (s₀ :: tallyEnumerator.stay q.machine rest) = [0, 1, 2] ∧
      ∃ exit after, rest = tallyEnumerator.stay q.machine rest ++ exit :: after ∧
        tallyEnumerator.Leaves q.machine exit := by
  have hrun : runsInto { module := tallyTop } {} tallyBody (List.replicate 9 .tick)
      tallyCheck = true := by
    decide +kernel
  obtain ⟨q, s', sim, hacc, hplay, -, hc⟩ := exists_of_runsInto hrun
  simp only [tallyCheck, Bool.and_eq_true, List.all_eq_true, beq_iff_eq, decide_eq_true_eq] at hc
  obtain ⟨⟨⟨⟨⟨⟨hbody, hlimit⟩, hindex⟩, hsole⟩, hcur⟩, hnext⟩, hc⟩ := hc
  split at hc
  · next b₀ b₁ s₀ s₁ rest htrace =>
    simp only [Bool.and_eq_true, List.all_eq_true, beq_iff_eq, decide_eq_true_eq,
      Bool.not_eq_true'] at hc
    obtain ⟨⟨hat, hsteady⟩, hcomplete⟩ := hc
    have hE : tallyEnumerator.Undisturbed [] q.machine s'.module := by
      refine ⟨by simp, fun j st hlo hhi hst => ?_, hlimit, hindex, hsole, hcur, hnext⟩
      have hj := hbody j (by simpa using Nat.lt_succ_of_le hhi)
      simpa [Nat.not_le.mpr hlo, hst] using hj
    have hvisit : Visits 1024 tallyBody (after (beginProgram .hole) (draft { module := tallyTop } {}))
        tallyLoop 1024 tallyStart :=
      .next (run_of_value? (by decide +kernel)) (.next (run_of_value? (by decide +kernel)) .here)
    have hbegin : (beginProgram .hole).run (draft { module := tallyTop } {}) = .ok () _ :=
      run_of_value? (by decide +kernel)
    have hgrows : s'.module.Grows s'.module :=
      ⟨List.prefix_refl _, List.prefix_refl _, List.prefix_refl _⟩
    have htrace' : q.machine.history s'.module (List.replicate 9 .tick) ++ [sim.state] =
        [b₀, b₁] ++ s₀ :: s₁ :: rest := htrace
    obtain ⟨hentries, hexit, -⟩ := tallyEnumerator.entries_eq_range hacc.built (by decide +kernel)
      (by simp) hacc.size hbegin hvisit rfl hgrows hE hplay (by simp) htrace' (by simp) hat hsteady
      hcomplete
    exact ⟨q, s', sim, [b₀, b₁], s₀, s₁ :: rest, hacc.built, hplay, htrace, hentries, hexit⟩
  · simp at hc

end Program

end Lockstep
