import Lockstep.Proofs.Program.Growth
import Mathlib.Data.List.Nodup

/-!
# Names given out by a module

A name that is asked for is given as it is if no one has it, and else with the smallest number that
makes it a new one. The table does not look for that number from one on: it goes on from the last
number that it tried for the stem. What makes up for it is that names are never given back, so the
numbers up to there are all in use, whoever asked for them.
-/

namespace Lockstep

namespace NameTable

variable {t : NameTable} {given : List String} {stem name : String} {tries n : Nat}

/-! ## Entries -/

theorem numbered_injective (stem : String) : Function.Injective (numbered stem) := by
  intro a b h
  have hchars : (toString a).toList = (toString b).toList := by
    have hlists := congrArg String.toList h
    simpa [numbered] using hlists
  have hdigits : Nat.toDigits 10 a = Nat.toDigits 10 b := by
    simpa only [Nat.toString_eq_repr, Nat.toList_repr] using hchars
  have hparsed := congrArg (fun digits => Nat.ofDigitChars 10 digits 0) hdigits
  simpa using hparsed

theorem taken_iff : t.taken name = true ↔ name ∈ t.entries.map Prod.fst := by
  simp [taken]

theorem taken_reserve (x y : String) :
    (t.reserve x).taken y = true ↔ y = x ∨ t.taken y = true := by
  simp only [taken_iff, reserve, List.map_cons, List.mem_cons]

theorem taken_setCounter (stem : String) (n : Nat) (x : String) :
    (t.setCounter stem n).taken x = t.taken x := by
  have hfst : (t.setCounter stem n).entries.map Prod.fst = t.entries.map Prod.fst := by
    simp only [setCounter, List.map_map]
    refine List.map_congr_left fun e _ => ?_
    simp only [Function.comp_apply]
    split <;> rfl
  rw [Bool.eq_iff_iff, taken_iff, taken_iff, hfst]

theorem lookup_eq_none (h : t.taken name = false) : t.entries.lookup name = none := by
  rw [List.lookup_eq_none_iff]
  intro e he
  simp only [taken, List.any_eq_false, beq_iff_eq] at h
  simpa using Ne.symm (h e he)

theorem counter_reserve (h : t.taken name = false) (x : String) :
    (t.reserve name).counter x = t.counter x := by
  simp only [counter, reserve, List.lookup_cons]
  split
  · next hx => rw [beq_iff_eq.mp hx, lookup_eq_none h]; rfl
  · rfl

theorem counter_setCounter_self (h : t.taken stem = true) (n : Nat) :
    (t.setCounter stem n).counter stem = n := by
  obtain ⟨entries⟩ := t
  induction entries with
  | nil => simp [taken] at h
  | cons e rest ih =>
    obtain ⟨x, k⟩ := e
    by_cases hx : x = stem
    · simp [counter, setCounter, hx]
    · have hne : (stem == x) = false := by simpa using Ne.symm hx
      have hrest : NameTable.taken ⟨rest⟩ stem = true := by simpa [taken, hx] using h
      simpa [counter, setCounter, List.lookup_cons, hx, hne] using ih hrest

theorem counter_setCounter_of_ne {x : String} (h : x ≠ stem) (n : Nat) :
    (t.setCounter stem n).counter x = t.counter x := by
  obtain ⟨entries⟩ := t
  induction entries with
  | nil => rfl
  | cons e rest ih =>
    obtain ⟨y, k⟩ := e
    by_cases hy : y = stem
    · have hne : (x == stem) = false := by simpa using h
      simpa [counter, setCounter, List.lookup_cons, hy, hne] using ih
    · simp only [counter, setCounter, List.map_cons, List.lookup_cons, beq_iff_eq, hy, if_false]
      split
      · rfl
      · simpa [counter, setCounter] using ih

/-! ## The search for a number -/

theorem le_firstFree : n ≤ t.firstFree stem tries n := by
  induction tries generalizing n with
  | zero => exact le_refl n
  | succ tries ih =>
    rw [firstFree]
    split
    · exact (Nat.le_succ n).trans ih
    · exact le_refl n

/-- The numbers that the search passes are all in use. -/
theorem taken_of_lt_firstFree {k : Nat} (hn : n ≤ k) (hk : k < t.firstFree stem tries n) :
    t.taken (numbered stem k) = true := by
  induction tries generalizing n with
  | zero => exact absurd hk (Nat.not_lt.mpr hn)
  | succ tries ih =>
    rw [firstFree] at hk
    split at hk
    · next htaken =>
      rcases Nat.eq_or_lt_of_le hn with rfl | hlt
      · exact htaken
      · exact ih hlt hk
    · exact absurd hk (Nat.not_lt.mpr hn)

/-- A search that ends at a number in use has tried as often as it was allowed to. -/
theorem firstFree_eq_of_taken (h : t.taken (numbered stem (t.firstFree stem tries n)) = true) :
    t.firstFree stem tries n = n + tries := by
  induction tries generalizing n with
  | zero => rfl
  | succ tries ih =>
    rw [firstFree] at h ⊢
    split
    · next htaken =>
      rw [if_pos htaken] at h
      rw [ih h]
      omega
    · next hfree =>
      rw [if_neg hfree] at h
      exact absurd h hfree

/-- There are fewer names than tries, so one of the tries finds a name that is free. -/
theorem firstFree_free (h : t.entries.length < tries) :
    t.taken (numbered stem (t.firstFree stem tries n)) = false := by
  rw [← Bool.not_eq_true]
  intro htaken
  have hall : (List.range' n tries).map (numbered stem) ⊆ t.entries.map Prod.fst := by
    intro x hx
    obtain ⟨k, hk, rfl⟩ := List.mem_map.mp hx
    obtain ⟨hle, hlt⟩ := List.mem_range'_1.mp hk
    rw [← firstFree_eq_of_taken htaken] at hlt
    exact taken_iff.mp (taken_of_lt_firstFree hle hlt)
  have hnodup : ((List.range' n tries).map (numbered stem)).Nodup :=
    List.Nodup.map (numbered_injective stem) (List.nodup_range' ..)
  have hlength := (hnodup.subperm hall).length_le
  simp only [List.length_map, List.length_range'] at hlength
  omega

/-- More tries make no difference: the search ends by itself. -/
theorem firstFree_stable (h : t.entries.length < tries) {more : Nat} (hmore : t.entries.length < more) :
    t.firstFree stem tries n = t.firstFree stem more n := by
  have hle {a b : Nat} (ha : t.entries.length < a) : t.firstFree stem b n ≤ t.firstFree stem a n := by
    by_contra hlt
    have htaken : t.taken (numbered stem (t.firstFree stem a n)) = true :=
      taken_of_lt_firstFree le_firstFree (Nat.lt_of_not_le hlt)
    rw [firstFree_free ha] at htaken
    cases htaken
  exact le_antisymm (hle hmore) (hle h)

/-! ## Claimed names -/

/-- What a wanted name stands for: an empty one is `tmp`. -/
def stemOf (wanted : String) : String := if wanted = "" then "tmp" else wanted

/-- The name to give where those in `used` are in use: the stem itself, or with the smallest number
that is free. -/
inductive IsNext (used : List String) (stem : String) : String → Prop
  | plain : stem ∉ used → IsNext used stem stem
  | numbered {n : Nat} : stem ∈ used → 1 ≤ n → numbered stem n ∉ used →
      (∀ k, 1 ≤ k → k < n → NameTable.numbered stem k ∈ used) →
      IsNext used stem (NameTable.numbered stem n)

theorem IsNext.not_mem (h : IsNext given stem name) : name ∉ given := by
  cases h with
  | plain hfree | numbered _ _ hfree _ => exact hfree

/-- The table has the given names, each once, and numbers up to a counter are in use. -/
structure Records (t : NameTable) (given : List String) : Prop where
  taken : ∀ x, t.taken x = true ↔ x ∈ given
  length : t.entries.length = given.length
  counted : ∀ stem k, 1 ≤ k → k ≤ t.counter stem → numbered stem k ∈ given

theorem Records.reserve (h : t.Records given) (hname : name ∉ given) :
    (t.reserve name).Records (given ++ [name]) where
  taken x := by
    rw [taken_reserve, h.taken, List.mem_append, List.mem_singleton, or_comm]
  length := by simp [NameTable.reserve, h.length]
  counted stem k hpos hk := by
    have hfree : t.taken name = false := by
      rw [← Bool.not_eq_true, h.taken]
      exact hname
    rw [counter_reserve hfree] at hk
    exact List.mem_append_left _ (h.counted stem k hpos hk)

/-- What is given is the next name, and the table remembers it. -/
theorem Records.claim (h : t.Records given) (wanted : String) :
    IsNext given (stemOf wanted) (t.claim wanted).1 ∧
      (t.claim wanted).2.Records (given ++ [(t.claim wanted).1]) := by
  let stem := stemOf wanted
  let n := t.firstFree stem (t.entries.length + 1) (t.counter stem + 1)
  have hclaim : t.claim wanted = if t.taken stem = true then
      (numbered stem n, (t.setCounter stem n).reserve (numbered stem n))
    else (stem, t.reserve stem) := rfl
  by_cases htaken : t.taken stem = true
  · rw [hclaim, if_pos htaken]
    have hfree : numbered stem n ∉ given := by
      rw [← h.taken, Bool.not_eq_true]
      exact firstFree_free (Nat.lt_succ_self _)
    -- below the counter by the invariant, from there on because the search has passed them
    have hbelow : ∀ k, 1 ≤ k → k < n → numbered stem k ∈ given := by
      intro k hpos hk
      rcases Nat.lt_or_ge (t.counter stem) k with hlt | hle
      · exact (h.taken _).mp (taken_of_lt_firstFree hlt hk)
      · exact h.counted stem k hpos hle
    have hpos : 1 ≤ n := (Nat.succ_le_succ (Nat.zero_le _)).trans le_firstFree
    refine ⟨.numbered ((h.taken _).mp htaken) hpos hfree hbelow, ?_⟩
    constructor
    · intro x
      rw [taken_reserve, taken_setCounter, h.taken, List.mem_append, List.mem_singleton, or_comm]
    · simp [NameTable.reserve, setCounter, h.length]
    · intro other k hk hle
      have hfresh : (t.setCounter stem n).taken (numbered stem n) = false := by
        rw [taken_setCounter, ← Bool.not_eq_true, h.taken]
        exact hfree
      rw [counter_reserve hfresh] at hle
      by_cases hother : other = stem
      · subst hother
        rw [counter_setCounter_self htaken] at hle
        rcases Nat.eq_or_lt_of_le hle with rfl | hlt
        · exact List.mem_append_right _ (List.mem_singleton_self _)
        · exact List.mem_append_left _ (hbelow k hk hlt)
      · rw [counter_setCounter_of_ne hother] at hle
        exact List.mem_append_left _ (h.counted other k hk hle)
  · rw [hclaim, if_neg htaken]
    have hfree : stem ∉ given := fun hmem => htaken ((h.taken _).mpr hmem)
    exact ⟨.plain hfree, h.reserve hfree⟩

end NameTable

/-! ## Requests -/

namespace Module

/-- A name that is asked for, alone or for a signal. -/
inductive Request where
  | name (wanted : String)
  | reg (wanted : String) (type : SignalType)
  | wire (wanted : String) (type : SignalType)
  | memory (wanted : String) (type : SignalType) (depth : Int)
  | const (wanted : String) (value : UInt64) (type : SignalType)
  | port (wanted : String) (direction : Direction) (type : SignalType)

namespace Request

def wanted : Request → String
  | name w | reg w _ | wire w _ | memory w _ _ | const w _ _ | port w _ _ => w

/-- The kind, type, value and depth of the signal that is declared. -/
def asked : Request → Option (SignalKind × SignalType × UInt64 × Int)
  | name _ => none
  | reg _ t => some (.reg, t, 0, 0)
  | wire _ t => some (.wire, t, 0, 0)
  | memory _ t depth => some (.memory, t, 0, depth)
  | const _ v t => some (.const, t, v, 0)
  | port _ direction t => some (if direction = .output then .reg else .wire, t, 0, 0)

end Request

/-- The name of a signal that was declared. -/
def naming (p : SignalId × Module) : String × Module := (p.2.symbols.signalName p.1, p.2)

/-- The name that a request is given, and the module after it. -/
def serve (m : Module) : Request → String × Module
  | .name w => m.claimName w
  | .reg w t => naming (m.addReg w t)
  | .wire w t => naming (m.addWire w t)
  | .memory w t depth => naming (m.addMemory w t depth)
  | .const w v t => naming (m.addConst w v t)
  | .port w direction t => naming (m.addPort w direction t)

/-- The names that requests are given one after the other. -/
def serveAll : Module → List Request → List String × Module
  | m, [] => ([], m)
  | m, r :: rest =>
    let served := m.serve r
    let later := served.2.serveAll rest
    (served.1 :: later.1, later.2)

/-- The module gave out these names, and each of its signals is found by its own. -/
structure Named (m : Module) (given : List String) : Prop where
  names : m.names.Records given
  found : ∀ i g, m.symbols.signals[i]? = some g → g.declared = true →
    g.name ∈ given ∧ m.signal? g.name = some i

/-- The signal of this name is declared as it was asked for. -/
def Declares (m : Module) (name : String)
    (signal : SignalKind × SignalType × UInt64 × Int) : Prop :=
  ∃ i g, m.signal? name = some i ∧ m.symbols.signals[i]? = some g ∧ g.name = name ∧
    (g.kind, m.symbols.type? g.type, g.value, g.depth) =
      (signal.1, some signal.2.1, signal.2.2.1, signal.2.2.2)

variable {m : Module} {given : List String}

/-- A signal that is found stays where it is found when more are added. -/
theorem signal?_push {m m' : Module} {g : Signal}
    (h : m'.symbols.signals = m.symbols.signals.push g) {name : String} {i : SignalId}
    (hi : m.signal? name = some i) : m'.signal? name = some i := by
  rw [signal?] at hi ⊢
  rw [h, Array.findIdx?_push, hi]
  rfl

/-- A declaration adds one signal, by a new name. -/
theorem Named.declare (h : m.Named given) (wanted : String) (kind : SignalKind) (type : SignalType)
    (value : UInt64) (depth : Int) :
    let named := naming (m.declare wanted kind type value depth)
    NameTable.IsNext given (NameTable.stemOf wanted) named.1 ∧ named.2.Named (given ++ [named.1]) ∧
      named.2.Declares named.1 (kind, type, value, depth) := by
  intro named
  obtain ⟨hnext, hrecords⟩ := h.names.claim wanted
  let g : Signal := ⟨(m.names.claim wanted).1, some m.symbols.types.size, kind, value, depth, true⟩
  have hsignals : named.2.symbols.signals = m.symbols.signals.push g := rfl
  have htypes : named.2.symbols.types = m.symbols.types.push type := rfl
  have hlast : named.2.symbols.signals[m.symbols.signals.size]? = some g := by
    rw [hsignals, Array.getElem?_push_size]
  have hname : named.1 = g.name := by
    have hget : (m.declare wanted kind type value depth).2.symbols.signals[
        (m.declare wanted kind type value depth).1]? = some g := hlast
    simp only [named, naming, Symbols.signalName, hget, Option.map_some, Option.getD_some]
  -- no signal has the new name, so it is the last one that is found by it
  have hnew : m.signal? g.name = none := by
    rw [signal?, Array.findIdx?_eq_none_iff]
    intro x hx
    obtain ⟨j, hj, rfl⟩ := Array.mem_iff_getElem.mp hx
    rw [← Bool.not_eq_true, Bool.and_eq_true, beq_iff_eq]
    rintro ⟨hdeclared, hsame⟩
    have hmem := (h.found j _ (Array.getElem?_eq_getElem hj) hdeclared).1
    rw [hsame] at hmem
    exact hnext.not_mem hmem
  have hfound : named.2.signal? g.name = some m.symbols.signals.size := by
    rw [signal?] at hnew ⊢
    rw [hsignals, Array.findIdx?_push, hnew]
    simp [g]
  rw [hname]
  refine ⟨hnext, ⟨hrecords, fun i x hi hdeclared => ?_⟩, m.symbols.signals.size, g, hfound, hlast,
    rfl, ?_⟩
  · rw [hsignals, Array.getElem?_push] at hi
    split at hi
    · next hsize =>
      cases hi
      exact ⟨List.mem_append_right _ (List.mem_singleton_self _), hsize ▸ hfound⟩
    · obtain ⟨hmem, hold⟩ := h.found i x hi hdeclared
      exact ⟨List.mem_append_left _ hmem, signal?_push hsignals hold⟩
  · simp [g, Symbols.type?, htypes]

/-- A request is given the next name, and what it asks for is declared by it. -/
theorem Named.serve (h : m.Named given) (r : Request) :
    NameTable.IsNext given (NameTable.stemOf r.wanted) (m.serve r).1 ∧
      (m.serve r).2.Named (given ++ [(m.serve r).1]) ∧
      ∀ signal, r.asked = some signal → (m.serve r).2.Declares (m.serve r).1 signal := by
  have hdeclare (wanted : String) (kind : SignalKind) (type : SignalType) (value : UInt64)
      (depth : Int) (hr : r.wanted = wanted) (hasked : r.asked = some (kind, type, value, depth))
      (hserve : m.serve r = naming (m.declare wanted kind type value depth)) :
      NameTable.IsNext given (NameTable.stemOf r.wanted) (m.serve r).1 ∧
        (m.serve r).2.Named (given ++ [(m.serve r).1]) ∧
        ∀ signal, r.asked = some signal → (m.serve r).2.Declares (m.serve r).1 signal := by
    obtain ⟨hnext, hnamed, hdeclares⟩ := h.declare wanted kind type value depth
    rw [hserve, hr]
    refine ⟨hnext, hnamed, fun signal hsignal => ?_⟩
    cases hasked.symm.trans hsignal
    exact hdeclares
  cases r with
  | name w =>
    obtain ⟨hnext, hrecords⟩ := h.names.claim w
    refine ⟨hnext, ⟨hrecords, fun i g hi hd => ?_⟩, fun _ hasked => nomatch hasked⟩
    exact ⟨List.mem_append_left _ (h.found i g hi hd).1, (h.found i g hi hd).2⟩
  | reg w t => exact hdeclare w .reg t 0 0 rfl rfl rfl
  | wire w t => exact hdeclare w .wire t 0 0 rfl rfl rfl
  | memory w t depth => exact hdeclare w .memory t 0 depth rfl rfl rfl
  | const w v t => exact hdeclare w .const t v 0 rfl rfl rfl
  | port w direction t =>
    -- the port itself is no symbol, and has the name of its signal
    obtain ⟨hnext, hnamed, hdeclares⟩ :=
      h.declare w (if direction = .output then .reg else .wire) t 0 0
    refine ⟨hnext, ⟨hnamed.names, hnamed.found⟩, fun signal hsignal => ?_⟩
    cases hsignal
    exact hdeclares

/-- A request adds nothing to the symbols, or one signal with a type of its own. -/
theorem serve_symbols (m : Module) (r : Request) : (m.serve r).2.symbols = m.symbols ∨
    ∃ g t, (m.serve r).2.symbols.signals = m.symbols.signals.push g ∧
      (m.serve r).2.symbols.types = m.symbols.types.push t := by
  cases r with
  | name w => exact .inl rfl
  | _ => exact .inr ⟨_, _, rfl, rfl⟩

/-- A declaration is not replaced by later ones. -/
theorem Declares.serve {name : String} {signal : SignalKind × SignalType × UInt64 × Int}
    (h : m.Declares name signal) (r : Request) : (m.serve r).2.Declares name signal := by
  obtain ⟨i, g, hi, hg, hname, hsignal⟩ := h
  rcases m.serve_symbols r with hsame | ⟨x, t, hsignals, htypes⟩
  · refine ⟨i, g, ?_, by rw [hsame]; exact hg, hname, by rw [hsame]; exact hsignal⟩
    rw [signal?, hsame]
    exact hi
  · have htype : (m.serve r).2.symbols.type? g.type = m.symbols.type? g.type := by
      simp only [Prod.mk.injEq, Symbols.type?] at hsignal ⊢
      obtain ⟨u, hu, hget⟩ := Option.bind_eq_some_iff.mp hsignal.2.1
      rw [hu, Option.bind_some, Option.bind_some, htypes, Symbols.getElem?_push_of_some hget, hget]
    refine ⟨i, g, signal?_push hsignals hi, ?_, hname, by rw [htype]; exact hsignal⟩
    rw [hsignals]
    exact Symbols.getElem?_push_of_some hg

theorem Declares.serveAll {name : String} {signal : SignalKind × SignalType × UInt64 × Int}
    (h : m.Declares name signal) (requests : List Request) :
    (m.serveAll requests).2.Declares name signal := by
  induction requests generalizing m with
  | nil => exact h
  | cons r rest ih => exact ih (h.serve r)

theorem length_serveAll (m : Module) (requests : List Request) :
    (m.serveAll requests).1.length = requests.length := by
  induction requests generalizing m with
  | nil => rfl
  | cons r rest ih => exact congrArg (· + 1) (ih (m.serve r).2)

/-- What holds of one request holds of each in a row, with the names given before it in use. -/
theorem Named.serveAll (h : m.Named given) (requests : List Request) :
    (m.serveAll requests).2.Named (given ++ (m.serveAll requests).1) ∧
      (given.Nodup → (given ++ (m.serveAll requests).1).Nodup) ∧
      ∀ k r, requests[k]? = some r → ∃ name, (m.serveAll requests).1[k]? = some name ∧
        NameTable.IsNext (given ++ (m.serveAll requests).1.take k) (NameTable.stemOf r.wanted) name ∧
        ∀ signal, r.asked = some signal → (m.serveAll requests).2.Declares name signal := by
  induction requests generalizing m given with
  | nil => simpa [Module.serveAll] using h
  | cons r rest ih =>
    obtain ⟨hnext, hnamed, hdeclares⟩ := h.serve r
    obtain ⟨hall, hnodup, heach⟩ := ih hnamed
    have hcons : m.serveAll (r :: rest) = ((m.serve r).1 :: ((m.serve r).2.serveAll rest).1,
      ((m.serve r).2.serveAll rest).2) := rfl
    rw [List.append_assoc, List.singleton_append] at hall hnodup
    rw [hcons]
    refine ⟨hall, fun hgiven => hnodup ?_, fun k x hk => ?_⟩
    · exact List.nodup_append.mpr ⟨hgiven, List.nodup_singleton _, by
        rintro a ha b hb rfl
        exact hnext.not_mem (List.mem_singleton.mp hb ▸ ha)⟩
    · cases k with
      | zero =>
        cases hk
        refine ⟨_, rfl, by simpa using hnext, fun signal hasked => ?_⟩
        exact (hdeclares signal hasked).serveAll rest
      | succ k =>
        obtain ⟨name, hname, hnext', hdeclares'⟩ := heach k x hk
        refine ⟨name, hname, ?_, hdeclares'⟩
        rwa [List.append_assoc, List.singleton_append] at hnext'

/-- In a new module, all names that are given differ. Each is the one that was wanted, or has the
smallest number that makes it differ from those given before; the search for the number ends after
one more try than there are names, however many it is allowed. What is declared by a name stays
declared, and every signal is found by its own name. -/
theorem names_fresh_and_minimal (title : String) (requests : List Request) :
    let m₀ : Module := { name := title }
    let names := (m₀.serveAll requests).1
    let m := (m₀.serveAll requests).2
    names.Nodup ∧
    (∀ k r, requests[k]? = some r →
      (∃ name, names[k]? = some name ∧
        NameTable.IsNext (names.take k) (NameTable.stemOf r.wanted) name ∧
        ∀ signal, r.asked = some signal → m.Declares name signal) ∧
      let t := (m₀.serveAll (requests.take k)).2.names
      ∀ stem tries, k < tries → t.firstFree stem tries (t.counter stem + 1) =
        t.firstFree stem (k + 1) (t.counter stem + 1)) ∧
    ∀ i g, m.symbols.signals[i]? = some g → g.declared = true → m.signal? g.name = some i := by
  have hempty : ({ name := title } : Module).Named [] := by
    refine ⟨⟨fun x => by simp [NameTable.taken], rfl, fun stem k hpos hk => ?_⟩, fun i g hi => ?_⟩
    · simp only [NameTable.counter, List.lookup_nil, Option.getD_none] at hk
      omega
    · simp at hi
  obtain ⟨hall, hnodup, heach⟩ := hempty.serveAll requests
  refine ⟨by simpa using hnodup, fun k r hk => ⟨by simpa using heach k r hk, ?_⟩,
    fun i g hi hd => (hall.found i g hi hd).2⟩
  intro t stem tries htries
  have hrecords := (hempty.serveAll (requests.take k)).1.names
  have hlength : t.entries.length = k := by
    have hk := (List.getElem?_eq_some_iff.mp hk).1
    rw [hrecords.length, List.nil_append, length_serveAll, List.length_take]
    omega
  exact NameTable.firstFree_stable (hlength ▸ htries) (hlength ▸ Nat.lt_succ_self k)

/-- Names that look like numbered ones are in use like any others. -/
example : (({ name := "top" } : Module).serveAll
    [.name "i", .reg "i_1" .bit, .wire "i" .bit, .name "i", .name ""]).1 =
      ["i", "i_1", "i_2", "i_3", "tmp"] := by decide +kernel

end Module

end Lockstep
