import Lockstep.AddressMap
import Mathlib

/-!
# Address maps hand out consecutive words

An address map is asked for addresses one signal at a time. Whatever is asked, the entries stay a
list of different signals, each right behind the one before it, and a request that fails leaves the
map as it was. All this is arithmetic of 64-bit words, so it says nothing yet about overlap: the sum
of a head and a size may wrap, and so may the number of bits of a memory. Where neither does, the
entries lie in the range and apart from each other.
-/

namespace Lockstep

/-- The number of bits of a signal, as it is; none if it has no type. -/
def Symbols.bitsOf (s : Symbols) (i : SignalId) : Nat :=
  match s.signals[i]? with
  | none => 0
  | some g =>
    match s.type? g.type with
    | none => 0
    | some t =>
      if g.kind = .memory && 1 < g.depth then t.width.toNat * g.depth.toNat else t.width.toNat

namespace AddressMap

variable {a : AddressMap} {i : SignalId} {s : Symbols} {first last : UInt64}

/-! ## Requests -/

inductive Request where
  | allocate (i : SignalId)
  | find (i : SignalId)
  | head
  | entries
deriving DecidableEq, Repr

/-- An entry as it is listed. Its size is computed when it is listed. -/
structure Row where
  name : String
  address : UInt64
  words : UInt64
deriving DecidableEq, Repr

inductive Answer where
  | address (result : Except Error UInt64)
  | found (address : Option UInt64)
  | head (address : UInt64)
  | entries (rows : List Row)

/-- The size of a signal in words. -/
def words (a : AddressMap) (s : Symbols) (i : SignalId) : UInt64 :=
  match a.size s i with
  | .ok n => n
  | .error _ => 0

def rows (a : AddressMap) (s : Symbols) : List Row :=
  a.entries.map fun e => ⟨s.signalName e.signal, e.address, a.words s e.signal⟩

def serve (a : AddressMap) (s : Symbols) : Request → Answer × AddressMap
  | .allocate i => (.address (a.allocate s i).1, (a.allocate s i).2)
  | .find i => (.found (a.find? i), a)
  | .head => (.head a.head, a)
  | .entries => (.entries (a.rows s), a)

def serveAll (s : Symbols) : AddressMap → List Request → List Answer × AddressMap
  | a, [] => ([], a)
  | a, r :: rest =>
    let (answer, b) := a.serve s r
    let (answers, c) := serveAll s b rest
    (answer :: answers, c)

/-- The signal that a request was given an address for. -/
def granted? : Request × Answer → Option SignalId
  | (.allocate i, .address (.ok _)) => some i
  | _ => none

/-- The signals that were given an address, in the order of the requests. -/
def granted (requests : List Request) (answers : List Answer) : List SignalId :=
  (requests.zip answers).filterMap granted?

theorem serveAll_append (s : Symbols) (a : AddressMap) (rs qs : List Request) :
    serveAll s a (rs ++ qs) =
      ((serveAll s a rs).1 ++ (serveAll s (serveAll s a rs).2 qs).1,
        (serveAll s (serveAll s a rs).2 qs).2) := by
  induction rs generalizing a with
  | nil => rfl
  | cons r rs ih => simp [serveAll, ih]

theorem length_serveAll (s : Symbols) (a : AddressMap) (rs : List Request) :
    (serveAll s a rs).1.length = rs.length := by
  induction rs generalizing a with
  | nil => rfl
  | cons r rs ih => simp [serveAll, ih]

/-! ## One allocation -/

/-- What an allocation does: it finds the signal, or adds it at the head, or fails. -/
theorem allocate_cases (a : AddressMap) (s : Symbols) (i : SignalId) :
    (∃ address, a.find? i = some address ∧ a.allocate s i = (.ok address, a)) ∨
    (∃ n, a.find? i = none ∧ (s.signalType i).isUnknown = false ∧ a.size s i = .ok n ∧
      a.head + n ≤ a.last ∧ a.allocate s i = (.ok a.head,
        { a with head := a.head + n, entries := a.entries ++ [⟨i, a.head⟩] })) ∨
    (∃ e, a.find? i = none ∧ a.allocate s i = (.error e, a) ∧
      (e = .unsized (s.signalName i) ∧ (s.signalType i).isUnknown = true ∨
        ∃ n, a.size s i = .ok n ∧ a.last < a.head + n ∧
          e = .exhausted (s.signalName i) n a.head a.last)) := by
  unfold allocate
  cases hf : a.find? i with
  | some address => exact .inl ⟨address, rfl, rfl⟩
  | none =>
    refine .inr ?_
    cases hu : (s.signalType i).isUnknown with
    | true => exact .inr ⟨_, rfl, by simp, .inl ⟨rfl, rfl⟩⟩
    | false =>
      -- a signal with a known type has a size
      obtain ⟨n, hn⟩ : ∃ n, a.size s i = .ok n := by
        unfold Symbols.signalType at hu
        unfold size
        cases hg : s.signals[i]? with
        | none => simp [hg, TypeSlot.isUnknown] at hu
        | some g =>
          cases ht : s.type? g.type with
          | none => simp [hg, ht, TypeSlot.isUnknown] at hu
          | some t => simp [ht]
      by_cases hlast : a.last < a.head + n
      · exact .inr ⟨_, rfl, by simp [hn, hlast], .inr ⟨n, hn, hlast, rfl⟩⟩
      · exact .inl ⟨n, rfl, rfl, hn, UInt64.not_lt.mp hlast, by simp [hn, hlast]⟩

theorem find?_eq_none_iff : a.find? i = none ↔ i ∉ a.entries.map Entry.signal := by
  simp [find?]

/-- The size of a signal depends on the word size alone. -/
theorem words_congr {b : AddressMap} (h : a.wordSize = b.wordSize) (s : Symbols) :
    a.words s = b.words s := by
  funext i
  simp only [words, size, sizeFor, h]

/-! ## Consecutive entries -/

/-- Different signals, one right behind the other from `first` to the head. -/
structure Consecutive (a : AddressMap) (s : Symbols) (first : UInt64) : Prop where
  distinct : (a.entries.map Entry.signal).Nodup
  address : ∀ k (hk : k < a.entries.length), a.entries[k].address =
    first + ((a.entries.take k).map (a.words s ·.signal)).sum
  head : a.head = first + (a.entries.map (a.words s ·.signal)).sum

theorem consecutive_create {wordSize : Int} (h : create wordSize first last = .ok a) (s : Symbols) :
    a.Consecutive s first ∧ a.entries = [] := by
  unfold create at h
  split at h
  · cases h
  · cases h
    exact ⟨⟨by simp, by simp, by simp⟩, rfl⟩

theorem Consecutive.allocate (h : a.Consecutive s first) (i : SignalId) :
    (a.allocate s i).2.Consecutive s first := by
  obtain ⟨_, -, he⟩ | ⟨n, hf, -, hn, -, he⟩ | ⟨_, -, he, -⟩ := a.allocate_cases s i
  · rwa [he]
  · rw [he]
    have hi : i ∉ a.entries.map Entry.signal := find?_eq_none_iff.mp hf
    have hw : a.words s i = n := by simp [words, hn]
    have hcongr := words_congr
      (a := { a with head := a.head + n, entries := a.entries ++ [⟨i, a.head⟩] }) (b := a) rfl s
    refine ⟨?_, ?_, ?_⟩
    · simpa [List.nodup_append, h.distinct] using hi
    · intro k hk
      rw [hcongr]
      by_cases hlt : k < a.entries.length
      · have := h.address k hlt
        simpa [List.getElem_append, hlt, List.take_append_of_le_length hlt.le] using this
      · have hk' : k = a.entries.length := by simp at hk; omega
        subst hk'
        simpa using h.head
    · rw [hcongr]
      simp [hw, h.head, add_assoc]
  · rwa [he]

theorem mem_of_find? {address : UInt64} (h : a.find? i = some address) :
    ⟨i, address⟩ ∈ a.entries := by
  obtain ⟨e, he, rfl⟩ := Option.map_eq_some_iff.mp h
  have hs : e.signal = i := by simpa using List.find?_some he
  subst hs
  exact List.mem_of_find?_eq_some he

theorem Consecutive.find?_of_mem (h : a.Consecutive s first) {e : Entry} (he : e ∈ a.entries) :
    a.find? e.signal = some e.address := by
  cases hf : a.find? e.signal with
  | none => exact absurd (List.mem_map_of_mem he) (find?_eq_none_iff.mp hf)
  | some address =>
    have := List.inj_on_of_nodup_map h.distinct (mem_of_find? hf) he rfl
    rw [← this]

theorem find?_eq_some_iff (h : a.Consecutive s first) {address : UInt64} :
    a.find? i = some address ↔ ⟨i, address⟩ ∈ a.entries :=
  ⟨mem_of_find?, h.find?_of_mem⟩

/-! ## Runs -/

/-- What every allocation keeps, a run keeps: no other request changes the map. -/
theorem serveAll_invariant {P : AddressMap → Prop} (hP : ∀ a i, P a → P (a.allocate s i).2)
    (rs : List Request) (ha : P a) : P (serveAll s a rs).2 := by
  induction rs generalizing a with
  | nil => exact ha
  | cons r rs ih =>
    have hr : P (a.serve s r).2 := by
      cases r with
      | allocate i => exact hP a i ha
      | find i | head | entries => exact ha
    exact ih hr

theorem granted_concat (s : Symbols) (a : AddressMap) (rs : List Request) (r : Request) :
    granted (rs ++ [r]) (serveAll s a (rs ++ [r])).1 =
      granted rs (serveAll s a rs).1 ++
        (granted? (r, ((serveAll s a rs).2.serve s r).1)).toList := by
  rw [serveAll_append, granted, List.zip_append (length_serveAll s a rs).symm]
  cases h : granted? (r, ((serveAll s a rs).2.serve s r).1) <;>
    simp [granted, serveAll, h]

theorem eraseDups_concat {α : Type} [DecidableEq α] (l : List α) (x : α) :
    (l ++ [x]).eraseDups = if x ∈ l then l.eraseDups else l.eraseDups ++ [x] := by
  by_cases h : x ∈ l <;> simp [List.eraseDups_append, List.removeAll, List.eraseDups_cons, h]

/-- The entries are the signals that were given an address, in the order of their first success. -/
theorem entries_eq_granted (ha : a.entries = []) (rs : List Request) :
    (serveAll s a rs).2.entries.map Entry.signal =
      (granted rs (serveAll s a rs).1).eraseDups := by
  induction rs using List.reverseRecOn with
  | nil => simp [serveAll, ha, granted]
  | append_singleton rs r ih =>
    have hmem : ∀ i, i ∈ granted rs (serveAll s a rs).1 ↔
        i ∈ (serveAll s a rs).2.entries.map Entry.signal := by
      intro i
      rw [ih, List.mem_eraseDups]
    rw [granted_concat, serveAll_append]
    generalize serveAll s a rs = run at ih hmem ⊢
    cases r with
    | find i | head | entries => simpa [serveAll, serve, granted?] using ih
    | allocate i =>
      obtain ⟨address, hf, he⟩ | ⟨n, hf, -, -, -, he⟩ | ⟨_, -, he, -⟩ := run.2.allocate_cases s i
      · have hi : i ∈ granted rs run.1 := by
          rw [hmem]
          exact List.mem_map_of_mem (mem_of_find? hf)
        simpa [serveAll, serve, he, granted?, eraseDups_concat, hi] using ih
      · have hi : i ∉ granted rs run.1 := by
          rw [hmem]
          exact find?_eq_none_iff.mp hf
        simp [serveAll, serve, he, granted?, eraseDups_concat, hi, ih]
      · simpa [serveAll, serve, he, granted?] using ih

/-- Addresses are handed out once, in order, and a failed request is as good as none. The addresses
are 64-bit words, so the sums are to be read modulo their number. -/
theorem allocation_is_atomic_bump {wordSize : Int} {first last : UInt64} {a : AddressMap}
    (ha : create wordSize first last = .ok a) (s : Symbols) (requests : List Request) :
    let answers := (serveAll s a requests).1
    let b := (serveAll s a requests).2
    b.entries.map Entry.signal = (granted requests answers).eraseDups ∧
    (b.entries.map Entry.signal).Nodup ∧
    (∀ k (hk : k < b.entries.length), b.entries[k].address =
      first + ((b.entries.take k).map (b.words s ·.signal)).sum) ∧
    b.head = first + (b.entries.map (b.words s ·.signal)).sum ∧
    (∀ i address, b.find? i = some address ↔ ⟨i, address⟩ ∈ b.entries) ∧
    (∀ e ∈ b.entries, b.allocate s e.signal = (.ok e.address, b)) ∧
    ∀ i e, (b.allocate s i).1 = .error e →
      (e = .unsized (s.signalName i) ∨
        ∃ n, e = .exhausted (s.signalName i) n b.head b.last) ∧
      (b.allocate s i).2 = b ∧
      ∀ later,
        serveAll s a (requests ++ later) =
          (answers ++ (serveAll s b later).1, (serveAll s b later).2) ∧
        serveAll s a (requests ++ .allocate i :: later) =
          (answers ++ .address (.error e) :: (serveAll s b later).1, (serveAll s b later).2) := by
  intro answers b
  obtain ⟨hfirst, hnil⟩ := consecutive_create ha s
  have hb : b.Consecutive s first :=
    serveAll_invariant (P := (Consecutive · s first)) (fun _ i h => h.allocate i) requests hfirst
  refine ⟨entries_eq_granted hnil requests, hb.distinct, hb.address, hb.head,
    fun i address => find?_eq_some_iff hb, fun e he => ?_, fun i e he => ?_⟩
  · unfold allocate
    rw [hb.find?_of_mem he]
  · obtain ⟨_, -, h⟩ | ⟨_, -, -, -, -, h⟩ | ⟨_, -, h, hwhy⟩ := b.allocate_cases s i
    · simp [h] at he
    · simp [h] at he
    · obtain rfl : _ = e := by simpa [h] using he
      refine ⟨?_, by rw [h], fun later => ⟨serveAll_append s a requests later, ?_⟩⟩
      · obtain ⟨hu, -⟩ | ⟨n, -, -, hn⟩ := hwhy
        · exact .inl hu
        · exact .inr ⟨n, hn⟩
      · rw [serveAll_append]
        simp [serveAll, serve, b, answers, h]

/-- Two registers, a buffer, and a register whose width is not known yet. -/
def ledger : Symbols where
  types := #[.unsigned 8, .unsigned 40, .unsigned 0]
  signals := #[
    { name := "ctrl", type := some 0, kind := .reg },
    { name := "data", type := some 1, kind := .reg },
    { name := "buf", type := some 0, kind := .memory, depth := 4 },
    { name := "open", type := some 2, kind := .reg }]

theorem ledger_atomic_bump : ∃ a, create 32 256 259 = .ok a ∧
    let requests : List Request := [.allocate 0, .allocate 3, .allocate 1, .find 2, .allocate 0]
    let b := (serveAll ledger a requests).2
    b.entries = [⟨0, 256⟩, ⟨1, 257⟩] ∧
    b.head = 256 + (b.entries.map (b.words ledger ·.signal)).sum ∧
    (b.allocate ledger 2).1 = .error (.exhausted "buf" 1 259 259) ∧
    (b.allocate ledger 2).2 = b ∧
    serveAll ledger a (requests ++ [.allocate 2, .head]) =
      ((serveAll ledger a requests).1 ++ [.address (.error (.exhausted "buf" 1 259 259)),
        .head 259], b) := by
  have ha : create 32 256 259 = .ok ⟨32, 259, 256, []⟩ := rfl
  refine ⟨_, ha, ?_⟩
  intro requests b
  have h := allocation_is_atomic_bump ha ledger requests
  have hfail : (b.allocate ledger 2).1 = .error (.exhausted "buf" 1 259 259) := by decide
  obtain ⟨-, hsame, hlater⟩ := h.2.2.2.2.2.2 2 _ hfail
  exact ⟨by decide, h.2.2.2.1, hfail, hsame, (hlater [.head]).2⟩

/-! ## Ranges -/

/-- The words that some number of bits takes. -/
def wordsFor (bits wordSize : Nat) : Nat := (bits + wordSize - 1) / wordSize

/-- The bits of the signal can be counted, and its words added to `address`, without wrapping. -/
structure Countable (s : Symbols) (wordSize : Nat) (address : UInt64) (i : SignalId) : Prop where
  bits : s.bitsOf i + wordSize ≤ UInt64.size
  words : address.toNat + wordsFor (s.bitsOf i) wordSize < UInt64.size

theorem le_wordsFor_mul {wordSize : Nat} (h : 0 < wordSize) (bits : Nat) :
    bits ≤ wordsFor bits wordSize * wordSize := by
  unfold wordsFor
  have hdiv := Nat.div_add_mod (bits + wordSize - 1) wordSize
  have hmod := Nat.mod_lt (bits + wordSize - 1) h
  rw [Nat.mul_comm] at hdiv
  omega

theorem toNat_ofInt {n : Int} (h : 0 ≤ n) : (UInt64.ofInt n).toNat = n.toNat % UInt64.size := by
  obtain ⟨k, rfl⟩ := Int.eq_ofNat_of_zero_le h
  have hk : (k : Int) % 2 ^ 64 = ((k % 2 ^ 64 : Nat) : Int) := by simp
  unfold UInt64.ofInt
  rw [hk, Int.toNat_natCast, UInt64.toNat_ofNat', Nat.mod_mod]
  rfl

/-- The size of a signal as it is computed. -/
theorem toNat_words (hu : (s.signalType i).isUnknown = false) (hw : 0 < a.wordSize.toNat) :
    (a.words s i).toNat =
      (s.bitsOf i + a.wordSize.toNat - 1) % UInt64.size / a.wordSize.toNat := by
  unfold Symbols.signalType at hu
  unfold words size Symbols.bitsOf
  cases hg : s.signals[i]? with
  | none => simp [hg, TypeSlot.isUnknown] at hu
  | some g =>
    cases ht : s.type? g.type with
    | none => simp [hg, ht, TypeSlot.isUnknown] at hu
    | some t =>
      have hwidth : 0 < t.width := by
        simpa [hg, ht, TypeSlot.isUnknown, SignalType.isUnknown] using hu
      simp only [ht, sizeFor, UInt64.toNat_div]
      congr 1
      -- all sums and products are congruent to the exact ones
      have hone : (1 : UInt64).toNat = 1 := rfl
      have hsize : UInt64.size = 2 ^ 64 := rfl
      rw [UInt64.toNat_sub, UInt64.toNat_add, hone]
      split
      case isTrue hmem =>
        have hdepth : 1 < g.depth := by simp at hmem; exact hmem.2
        rw [UInt64.toNat_mul, toNat_ofInt hwidth.le, toNat_ofInt (by omega)]
        rw [hsize, ← Nat.mul_mod]
        omega
      case isFalse hmem =>
        rw [toNat_ofInt hwidth.le, hsize]
        omega

/-- Where nothing wraps the size is exact, and where something does it is too small. -/
theorem bits_le_words_mul_iff (hu : (s.signalType i).isUnknown = false)
    (hw : 0 < a.wordSize.toNat) :
    s.bitsOf i ≤ (a.words s i).toNat * a.wordSize.toNat ↔
      s.bitsOf i + a.wordSize.toNat ≤ UInt64.size := by
  have hlt := a.wordSize.toNat_lt
  have hsize : UInt64.size = 2 ^ 64 := rfl
  rw [toNat_words hu hw]
  constructor
  · intro h
    have hmul := Nat.div_mul_le_self
      ((s.bitsOf i + a.wordSize.toNat - 1) % UInt64.size) a.wordSize.toNat
    by_contra hwrap
    have hmod : (s.bitsOf i + a.wordSize.toNat - 1) % UInt64.size ≤
        s.bitsOf i + a.wordSize.toNat - 1 - UInt64.size := by
      rw [Nat.mod_eq_sub_mod (by omega)]
      exact Nat.mod_le _ _
    omega
  · intro h
    rw [Nat.mod_eq_of_lt (by omega)]
    exact le_wordsFor_mul hw _

theorem words_exact (hu : (s.signalType i).isUnknown = false) (hw : 0 < a.wordSize.toNat)
    (hroom : s.bitsOf i + a.wordSize.toNat ≤ UInt64.size) :
    (a.words s i).toNat = wordsFor (s.bitsOf i) a.wordSize.toNat := by
  rw [toNat_words hu hw, Nat.mod_eq_of_lt (by omega)]
  rfl

/-- The entries lie behind each other within the range, as numbers. -/
structure Ranged (a : AddressMap) (s : Symbols) (first : UInt64) : Prop where
  lower : first.toNat ≤ a.head.toNat
  entry : ∀ e ∈ a.entries, s.bitsOf e.signal ≤ (a.words s e.signal).toNat * a.wordSize.toNat ∧
    first.toNat ≤ e.address.toNat ∧
    e.address.toNat + (a.words s e.signal).toNat ≤ a.head.toNat ∧ a.head.toNat ≤ a.last.toNat
  ordered : a.entries.Pairwise fun d e =>
    d.address.toNat + (a.words s d.signal).toNat ≤ e.address.toNat

theorem toNat_head_add {n : UInt64} (hi : Countable s a.wordSize.toNat a.head i)
    (hn : n.toNat = wordsFor (s.bitsOf i) a.wordSize.toNat) :
    (a.head + n).toNat = a.head.toNat + n.toNat := by
  have hwords := hi.words
  rw [UInt64.toNat_add]
  exact Nat.mod_eq_of_lt (by rw [hn]; exact hwords)

theorem Ranged.append (h : a.Ranged s first) (hw : 0 < a.wordSize.toNat) {n : UInt64}
    (hu : (s.signalType i).isUnknown = false) (hn : a.size s i = .ok n)
    (hle : a.head + n ≤ a.last) (hi : Countable s a.wordSize.toNat a.head i) :
    Ranged { a with head := a.head + n, entries := a.entries ++ [⟨i, a.head⟩] } s first := by
  have hwords : a.words s i = n := by simp [words, hn]
  have hexact := words_exact hu hw hi.bits
  rw [hwords] at hexact
  have hadd := toNat_head_add hi hexact
  have hlast : a.head.toNat + n.toNat ≤ a.last.toNat := by
    rw [← hadd]
    exact UInt64.le_iff_toNat_le.mp hle
  have hcongr := words_congr
    (a := { a with head := a.head + n, entries := a.entries ++ [⟨i, a.head⟩] }) (b := a) rfl s
  have hlow := h.lower
  refine ⟨?_, ?_, ?_⟩
  · simp only [hadd]
    omega
  · intro e hmem
    rw [hcongr, hadd]
    obtain hold | hnew := List.mem_append.mp hmem
    · obtain ⟨h1, h2, h3, -⟩ := h.entry e hold
      exact ⟨h1, h2, by omega, hlast⟩
    · obtain rfl := List.mem_singleton.mp hnew
      rw [hwords]
      exact ⟨hexact ▸ le_wordsFor_mul hw _, hlow, le_rfl, hlast⟩
  · rw [hcongr]
    refine List.pairwise_append.mpr ⟨h.ordered, List.pairwise_singleton _ _, ?_⟩
    intro d hd e he
    obtain rfl := List.mem_singleton.mp he
    exact (h.entry d hd).2.2.1

/-- Along a run: word size and last address stay, only signals with a known type are listed, and the
entries are in order as long as none of them wraps. -/
structure Filling (a : AddressMap) (s : Symbols) (wordSize : Nat) (first last : UInt64) : Prop where
  size_eq : a.wordSize.toNat = wordSize
  last_eq : a.last = last
  known : ∀ e ∈ a.entries, (s.signalType e.signal).isUnknown = false
  ranged : (∀ e ∈ a.entries, Countable s wordSize e.address e.signal) → a.Ranged s first

theorem filling_create {wordSize : Int} (ha : create wordSize first last = .ok a)
    (hword : wordSize.toNat < UInt64.size) (s : Symbols) :
    0 < wordSize.toNat ∧ a.Filling s wordSize.toNat first last := by
  unfold create at ha
  split at ha
  · cases ha
  · cases ha
    refine ⟨by omega, ?_, rfl, by simp, fun _ => ⟨le_rfl, by simp, by simp⟩⟩
    rw [toNat_ofInt (by omega), Nat.mod_eq_of_lt hword]

theorem Filling.allocate {wordSize : Nat} (h : a.Filling s wordSize first last)
    (hw : 0 < wordSize) (i : SignalId) : (a.allocate s i).2.Filling s wordSize first last := by
  obtain ⟨_, -, he⟩ | ⟨n, -, hu, hn, hle, he⟩ | ⟨_, -, he, -⟩ := a.allocate_cases s i
  · rwa [he]
  · rw [he]
    refine ⟨h.size_eq, h.last_eq, ?_, fun hall => ?_⟩
    · simpa [or_imp, forall_and] using ⟨h.known, hu⟩
    · simp only [List.forall_mem_append, List.forall_mem_singleton] at hall
      exact (h.ranged hall.1).append (h.size_eq ▸ hw) hu hn hle (h.size_eq ▸ hall.2)
  · rwa [he]

/-- The words of an entry. -/
def span (a : AddressMap) (s : Symbols) (e : Entry) : Finset Nat :=
  Finset.Ico e.address.toNat (e.address.toNat + (a.words s e.signal).toNat)

/-- The entries stay within the range and apart from each other exactly as long as none of them was
counted by wrapping; and a signal that does not wrap is refused only if it does not fit. -/
theorem ranges_disjoint_iff {wordSize : Int} {first last : UInt64} {a : AddressMap}
    (hword : wordSize.toNat < UInt64.size) (ha : create wordSize first last = .ok a)
    (s : Symbols) (requests : List Request) :
    let b := (serveAll s a requests).2
    ((∀ e ∈ b.entries, Countable s wordSize.toNat e.address e.signal) ↔
      (∀ e ∈ b.entries, s.bitsOf e.signal ≤ (b.words s e.signal).toNat * wordSize.toNat ∧
        first.toNat ≤ e.address.toNat ∧
        e.address.toNat + (b.words s e.signal).toNat ≤ last.toNat) ∧
      b.entries.Pairwise fun d e => Disjoint (b.span s d) (b.span s e)) ∧
    ∀ i, (s.signalType i).isUnknown = false → b.find? i = none →
      Countable s wordSize.toNat b.head i →
      ((b.allocate s i).1 = .ok b.head ↔
        b.head.toNat + wordsFor (s.bitsOf i) wordSize.toNat ≤ last.toNat) := by
  intro b
  obtain ⟨hw, hstart⟩ := filling_create ha hword s
  obtain ⟨hsize, hlast, hknown, hranged⟩ : b.Filling s wordSize.toNat first last :=
    serveAll_invariant (P := (Filling · s wordSize.toNat first last))
      (fun _ i h => h.allocate hw i) requests hstart
  rw [← hsize] at hw hranged ⊢
  rw [← hlast]
  refine ⟨⟨fun hall => ?_, fun hall e he => ?_⟩, fun i hu hf hi => ?_⟩
  · have hr := hranged hall
    refine ⟨fun e he => ?_, hr.ordered.imp fun {d e} hde => ?_⟩
    · obtain ⟨h1, h2, h3, h4⟩ := hr.entry e he
      exact ⟨h1, h2, h3.trans h4⟩
    · exact (Finset.Ico_disjoint_Ico_consecutive _ _ _).mono_right (Finset.Ico_subset_Ico_left hde)
  · obtain ⟨hbits, -, hle⟩ := hall.1 e he
    have hroom := (bits_le_words_mul_iff (hknown e he) hw).mp hbits
    rw [words_exact (hknown e he) hw hroom] at hle
    exact ⟨hroom, hle.trans_lt b.last.toNat_lt⟩
  · have hexact := words_exact hu hw hi.bits
    obtain ⟨_, hs, -⟩ | ⟨n, -, -, hn, hle, he⟩ | ⟨_, -, he, hwhy⟩ := b.allocate_cases s i
    · simp [hf] at hs
    · have hn' : b.words s i = n := by simp [words, hn]
      rw [hn'] at hexact
      rw [← hexact, ← toNat_head_add hi hexact, he]
      exact iff_of_true rfl (UInt64.le_iff_toNat_le.mp hle)
    · obtain ⟨-, hu'⟩ | ⟨n, hn, hlt, -⟩ := hwhy
      · simp [hu] at hu'
      · have hn' : b.words s i = n := by simp [words, hn]
        rw [hn'] at hexact
        rw [← hexact, ← toNat_head_add hi hexact, he]
        exact iff_of_false (by simp) (Nat.not_le.mpr (UInt64.lt_iff_toNat_lt.mp hlt))

/-- Six words at the very end of the address space. -/
theorem ledger_ranges_disjoint : ∃ a, create 8 0xfffffffffffffff8 0xfffffffffffffffe = .ok a ∧
    let b := (serveAll ledger a [.allocate 0, .allocate 3, .allocate 1]).2
    b.rows ledger = [⟨"ctrl", 0xfffffffffffffff8, 1⟩, ⟨"data", 0xfffffffffffffff9, 5⟩] ∧
    (∀ e ∈ b.entries, Countable ledger 8 e.address e.signal) ∧
    (b.entries.Pairwise fun d e => Disjoint (b.span ledger d) (b.span ledger e)) ∧
    ¬ Countable ledger 8 b.head 2 := by
  have ha : create 8 0xfffffffffffffff8 0xfffffffffffffffe =
      .ok ⟨8, 0xfffffffffffffffe, 0xfffffffffffffff8, []⟩ := rfl
  refine ⟨_, ha, ?_⟩
  intro b
  have h := ranges_disjoint_iff (by decide) ha ledger [.allocate 0, .allocate 3, .allocate 1]
  have hall : ∀ e ∈ b.entries, Countable ledger 8 e.address e.signal := by
    have hb : b.entries = [⟨0, 0xfffffffffffffff8⟩, ⟨1, 0xfffffffffffffff9⟩] := rfl
    rw [hb]
    simp only [List.forall_mem_cons]
    exact ⟨⟨by decide, by decide⟩, ⟨by decide, by decide⟩, by simp⟩
  exact ⟨by decide, hall, (h.1.mp hall).2, fun hbuf => absurd hbuf.words (by decide)⟩

end AddressMap

end Lockstep
