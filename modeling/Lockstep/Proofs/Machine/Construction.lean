import Lockstep.Machine.Build
import Lockstep.Machine.Table
import Mathlib

/-!
# The order of construction

Between the declaration of its states, a machine is given bodies and transitions in any order. What
it is in the end depends on the order for each state only: the bodies and transitions of different
states can be exchanged with each other and with later declarations. Targets are looked up, and codes
and the width of the register are computed, only when the machine is complete.
-/

namespace Lockstep.Machine

/-- A call that adds to a machine. -/
inductive Call where
  | state (name : String)
  | body (id : Int) (stmts : List Statement)
  | goto (id : Int) (t : Transition Expr)

namespace Call

/-- The state that is given something. -/
def receiver? : Call → Option Int
  | .state _ => none
  | .body id _ | .goto id _ => some id

def declared? : Call → Option String
  | .state name => some name
  | _ => none

def bodyFor? (id : Int) : Call → Option (List Statement)
  | .body i stmts => if i = id then some stmts else none
  | _ => none

def gotoFor? (id : Int) : Call → Option (Transition Expr)
  | .goto i t => if i = id then some t else none
  | _ => none

theorem bodyFor?_eq_none {id : Int} {c : Call} (h : c.receiver? ≠ some id) : c.bodyFor? id = none := by
  cases c <;> simp_all [receiver?, bodyFor?]

theorem gotoFor?_eq_none {id : Int} {c : Call} (h : c.receiver? ≠ some id) : c.gotoFor? id = none := by
  cases c <;> simp_all [receiver?, gotoFor?]

/-- The same states are declared in the same order, and each state is given the same bodies in the
same order and the same transitions in the same order. -/
structure SameByState (cs ds : List Call) : Prop where
  states : cs.filterMap declared? = ds.filterMap declared?
  bodies : ∀ id, cs.filterMap (bodyFor? id) = ds.filterMap (bodyFor? id)
  gotos : ∀ id, cs.filterMap (gotoFor? id) = ds.filterMap (gotoFor? id)

end Call

variable {cs : List Call} {f f' : Machine}

/-- The machine after a call that succeeds and names no state that is not declared yet. -/
def call? (f : Machine) : Call → Option Machine
  | .state name => (f.newState name).toOption.map Prod.snd
  | .body id stmts => if (f.state? id).isSome then some (f.addBody id stmts) else none
  | .goto id t => if (f.state? id).isSome then some (f.addGoto id t) else none

def calls? (f : Machine) (cs : List Call) : Option Machine := cs.foldlM call? f

/-- The table as it is reported, with the texts of the conditions and the indices of the targets. -/
def report (f : Machine) (g : Symbols) :
    List (Nat × UInt64 × String × List (String × Int × String)) :=
  f.table.map fun r => (r.index, r.code, r.name,
    r.edges.map fun e => (e.guard.text g, f.edgeIndex e, f.edgeNote g e))

/-- A state with what the calls give to the state at its index. -/
def State.given (s : State) (n : Nat) (cs : List Call) : State :=
  { s with
    body := s.body ++ (cs.filterMap (Call.bodyFor? n)).flatten
    gotos := s.gotos ++ cs.filterMap (Call.gotoFor? n) }

theorem State.given_of_no_receiver {s : State} {n : Nat}
    (h : ∀ c ∈ cs, c.receiver? ≠ some (n : Int)) : s.given n cs = s := by
  have hbody : cs.filterMap (Call.bodyFor? n) = [] :=
    List.filterMap_eq_nil_iff.mpr fun c hc => Call.bodyFor?_eq_none (h c hc)
  have hgoto : cs.filterMap (Call.gotoFor? n) = [] :=
    List.filterMap_eq_nil_iff.mpr fun c hc => Call.gotoFor?_eq_none (h c hc)
  simp [given, hbody, hgoto]

theorem State.given_concat (s : State) (n : Nat) (cs : List Call) (c : Call) :
    s.given n (cs ++ [c]) = (s.given n cs).given n [c] := by
  simp [given, List.filterMap_append]

/-- The states there were and those that the calls declare, before they are given anything. -/
def bare (f : Machine) (cs : List Call) : Array State :=
  f.states ++ ((cs.filterMap Call.declared?).map fun name => ({ name := name } : State)).toArray

/-- The machine with what the calls add to it. -/
def outcome (f : Machine) (cs : List Call) : Machine :=
  { f with states := (f.bare cs).mapIdx fun n s => s.given n cs }

theorem outcome_concat_state (name : String)
    (h : ∀ c ∈ cs, ∀ id, c.receiver? = some id → id < (f.outcome cs).size) :
    f.outcome (cs ++ [.state name]) =
      { f.outcome cs with states := (f.outcome cs).states.push { name := name } } := by
  have hbare : f.bare (cs ++ [.state name]) = (f.bare cs).push { name := name } := by
    apply Array.toList_inj.mp
    simp [bare, Call.declared?]
  have hgiven : ∀ (n : Nat) (s : State), s.given n (cs ++ [.state name]) = s.given n cs := by
    intro n s
    rw [State.given_concat, State.given_of_no_receiver]
    simp [Call.receiver?]
  have hnew : ({ name := name } : State).given (f.bare cs).size cs = { name := name } :=
    State.given_of_no_receiver fun c hc he => by
      have := h c hc _ he
      simp [outcome, size] at this
  simp [outcome, hbare, hgiven, hnew, Array.mapIdx_push]

theorem outcome_concat_given {c : Call} {n : Nat} (hc : c.receiver? = some (n : Int)) :
    f.outcome (cs ++ [c]) =
      { f.outcome cs with states := (f.outcome cs).states.modify n (·.given n [c]) } := by
  have hbare : f.bare (cs ++ [c]) = f.bare cs := by
    cases c <;> simp_all [bare, Call.receiver?, Call.declared?, List.filterMap_cons]
  have hstates : (f.bare cs).mapIdx (fun i s => s.given i (cs ++ [c])) =
      ((f.bare cs).mapIdx fun i s => s.given i cs).modify n (·.given n [c]) := by
    apply Array.ext_getElem?
    intro i
    rw [Array.getElem?_modify]
    by_cases hi : n = i
    · subst hi
      simp [State.given_concat, Function.comp_def]
    · have hother : ∀ s : State, (s.given i cs).given i [c] = s.given i cs := fun s =>
        State.given_of_no_receiver (by simpa [hc] using hi)
      simp [hi, State.given_concat, hother]
  simp [outcome, hbare, hstates]

theorem call?_state {k : Machine} {name : String} (h : k.call? (.state name) = some f') :
    f' = { k with states := k.states.push { name := name } } := by
  simp only [call?, newState] at h
  split at h
  · simp [Except.toOption] at h
  · split at h
    · simp [Except.toOption] at h
    · simpa [Except.toOption, eq_comm] using h

theorem call?_given {k : Machine} {c : Call} {id : Int} (hc : c.receiver? = some id)
    (h : k.call? c = some f') : ∃ n : Nat, id = n ∧ n < k.size ∧
      f' = { k with states := k.states.modify n (·.given n [c]) } := by
  have hid : (k.state? id).isSome = true → ∃ n : Nat, id = n ∧ n < k.size := by
    intro hsome
    unfold state? at hsome
    split at hsome
    · simp at hsome
    · exact ⟨id.toNat, by omega, by simpa [size] using hsome⟩
  cases c with
  | state name => simp [Call.receiver?] at hc
  | body i stmts =>
    obtain rfl : i = id := by simpa [Call.receiver?] using hc
    obtain ⟨hsome, rfl⟩ : (k.state? i).isSome = true ∧ k.addBody i stmts = f' := by
      simpa [call?] using h
    obtain ⟨n, rfl, hn⟩ := hid hsome
    refine ⟨n, rfl, hn, ?_⟩
    simp [addBody, modifyState, hsome, State.given, Call.bodyFor?, Call.gotoFor?, List.filterMap_cons]
  | goto i t =>
    obtain rfl : i = id := by simpa [Call.receiver?] using hc
    obtain ⟨hsome, rfl⟩ : (k.state? i).isSome = true ∧ k.addGoto i t = f' := by
      simpa [call?] using h
    obtain ⟨n, rfl, hn⟩ := hid hsome
    refine ⟨n, rfl, hn, ?_⟩
    simp [addGoto, modifyState, hsome, State.given, Call.bodyFor?, Call.gotoFor?, List.filterMap_cons]

/-- Calls that succeed lead to their outcome, and every state they name is there in the end. -/
theorem outcome_of_calls (h : f.calls? cs = some f') :
    f' = f.outcome cs ∧ ∀ c ∈ cs, ∀ id, c.receiver? = some id → id < f'.size := by
  induction cs using List.reverseRecOn generalizing f' with
  | nil =>
    obtain rfl : f = f' := by simpa [calls?] using h
    have hstates : f.states.mapIdx (fun n s => s.given n []) = f.states := by
      apply Array.ext_getElem?
      simp [State.given]
    exact ⟨by simp [outcome, bare, hstates], by simp⟩
  | append_singleton cs c ih =>
    obtain ⟨k, hk, hc⟩ : ∃ k, f.calls? cs = some k ∧ k.call? c = some f' := by
      simpa [calls?, List.foldlM_append, Option.bind_eq_some_iff] using h
    obtain ⟨rfl, hold⟩ := ih hk
    cases hr : c.receiver? with
    | none =>
      obtain ⟨name, rfl⟩ : ∃ name, c = .state name := by
        cases c <;> simp_all [Call.receiver?]
      obtain rfl := call?_state hc
      refine ⟨(outcome_concat_state name hold).symm, fun c hc id he => ?_⟩
      rcases List.mem_append.mp hc with hc | hc
      · have := hold c hc id he
        simp [size] at this ⊢
        omega
      · simp [List.mem_singleton.mp hc, Call.receiver?] at he
    | some id =>
      obtain ⟨n, rfl, hn, rfl⟩ := call?_given hr hc
      refine ⟨(outcome_concat_given hr).symm, fun c' hc' id he => ?_⟩
      rw [size, Array.size_modify]
      rcases List.mem_append.mp hc' with hc' | hc'
      · exact hold c' hc' id he
      · obtain rfl := List.mem_singleton.mp hc'
        obtain rfl : (n : Int) = id := by simpa [hr] using he
        exact_mod_cast hn

/-- Two sequences of calls that agree for each state make the same machine of one that they find. So
the tables are the same, and building fails with the same error or leads to the same module, with
the same processes and the same type of the state register, whatever the encoding is. -/
theorem construction_order_irrelevant {f f₁ f₂ : Machine} {cs ds : List Call}
    (h₁ : f.calls? cs = some f₁) (h₂ : f.calls? ds = some f₂) (h : Call.SameByState cs ds) :
    (∀ g, f₁.report g = f₂.report g) ∧ f₁.registerWidth = f₂.registerWidth ∧
    ∀ m, (f₁.build m).1 = (f₂.build m).1 ∧ (f₁.build m).2.2 = (f₂.build m).2.2 := by
  have hgiven : ∀ (n : Nat) (s : State), s.given n cs = s.given n ds := fun n s => by
    simp only [State.given, h.bodies, h.gotos]
  have hsame : f₁ = f₂ := by
    rw [(outcome_of_calls h₁).1, (outcome_of_calls h₂).1]
    simp only [outcome, bare, h.states, hgiven]
  simp [hsame]

/-- A machine with one bit for each state, in a module with a clock. -/
def hopStart : Machine × Module :=
  create (({ name := "top" } : Module).addPort "clk" .input .bit).2
    { clock := some { signal := some 0 }, encoding := .oneHot }

/-- The states `a`, `b` and `c`, with a body in `b` and a goto from `a` to `c`. -/
def hop : Machine :=
  { hopStart.1 with states := #[{ name := "a", gotos := [.jump (.named "c")] },
      { name := "b", body := [.blank] }, { name := "c" }] }

/-- The goto leads to the same table, register and processes if it is recorded before its target is
declared, or after. -/
theorem early_goto_irrelevant :
    let early : List Call :=
      [.state "a", .goto 0 (.jump (.named "c")), .state "b", .state "c", .body 1 [.blank]]
    let late : List Call :=
      [.state "a", .state "b", .body 1 [.blank], .state "c", .goto 0 (.jump (.named "c"))]
    let next (code : UInt64) : Statement := .assign 2 none (.const code (some 1))
    hopStart.1.calls? early = some hop ∧ ∃ f, hopStart.1.calls? late = some f ∧
      f.report hopStart.2.symbols = [(0, 1, "a", [("", 1, ""), ("", 2, "")]),
        (1, 2, "b", [("", 2, "")]), (2, 4, "c", [("", 3, "")])] ∧
      f.registerWidth = 3 ∧ (f.build hopStart.2).1 = none ∧ (f.build hopStart.2).2.2.processes =
        #[⟨"fsm_update", .clocked (some { signal := some 0 }), [.assign 1 none (.ref 2)]⟩,
          ⟨"fsm_body", .clocked (some { signal := some 0 }),
            [.case (.ref 1) [(1, []), (2, [.blank]), (4, [])] []]⟩,
          ⟨"fsm_transitions", .combinational,
            [.case (.ref 1) [(1, [next 2, next 4]), (2, [next 4]), (4, [next 1])] [next 1]]⟩] := by
  intro early late next
  have hsame : Call.SameByState early late := by
    refine ⟨rfl, fun id => ?_, fun id => ?_⟩
    · by_cases h : 1 = id <;> simp [early, late, Call.bodyFor?, List.filterMap_cons, h]
    · by_cases h : 0 = id <;> simp [early, late, Call.gotoFor?, List.filterMap_cons, h]
  have hearly : hopStart.1.calls? early = some hop := by cbv
  have hlate : (hopStart.1.calls? late).isSome = true := by decide +kernel
  obtain ⟨f, hlate⟩ := Option.isSome_iff_exists.mp hlate
  obtain ⟨hreport, hwidth, hbuild⟩ := construction_order_irrelevant hearly hlate hsame
  refine ⟨hearly, f, hlate, ?_, ?_, ?_, ?_⟩
  · rw [← hreport]
    cbv
  · rw [← hwidth]
    cbv
  · rw [← (hbuild _).1]
    cbv
  · rw [← (hbuild _).2]
    cbv

end Lockstep.Machine
