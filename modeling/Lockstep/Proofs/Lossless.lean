import Lockstep.Proofs.Sim.Blocks
import Lockstep.WidthCheck

/-!
# Nothing is lost in a module without findings

A width check without findings is a statement about values: every assignment stores the integer that
its expression stands for, and every case statement compares its selector with the values as they are
written. The check walks over the text of a module once; what it promises holds in every state.
-/

namespace Lockstep

/-- The integer that a value of type `t` stands for. A signed type reads its bits as a two's
complement number. -/
def Word.reading (t : TypeSlot) (v : Word) : Int :=
  if t.isSigned then (v.setWidth t.bits).toInt else v.toNat

/-- A type whose values can be kept in a word. -/
def TypeSlot.isResolved (t : TypeSlot) : Bool :=
  t.any fun t => 0 < t.width && t.width ≤ (maxWidth : Int)

namespace Expr

/-- The types of the literals in an expression. -/
def literalTypes : Expr → List (Option TypeId)
  | .hole | .ref _ => []
  | .lit _ t => [t]
  | .bin _ l r | .cmp _ l r => l.literalTypes ++ r.literalTypes
  | .not e | .index _ e => e.literalTypes

end Expr

namespace Stmt

/-- The signals that a statement itself refers to. -/
def refs (st : Statement) : List SignalId :=
  st.operands.flatMap Expr.reads ++
    match st with
    | .assign dest _ _ => [dest]
    | _ => []

/-- The body of the first arm with exactly the value `n`, else `otherwise`. -/
def armFor (n : Nat) (arms : List (UInt64 × List Statement)) (otherwise : List Statement) :
    List Statement :=
  ((arms.find? fun arm => arm.1.toNat = n).map Prod.snd).getD otherwise

end Stmt

namespace Module

/-- The statements of all processes, at any depth. -/
def statements (m : Module) : List Statement :=
  m.processes.toList.flatMap fun p => Stmt.nestedBlock p.body

/-- Every signal that a statement refers to is declared, and every literal has a resolved type. -/
structure Resolved (m : Module) : Prop where
  signals : ∀ st ∈ m.statements, ∀ i ∈ st.refs, m.symbols.signals[i]?.any Signal.declared = true
  literals : ∀ st ∈ m.statements, ∀ e ∈ st.operands, ∀ t ∈ e.literalTypes,
    (m.symbols.type? t).isResolved = true

end Module

/-- The warnings among the diagnostics. -/
def Reporter.warnings (r : Reporter) : List Diagnostic :=
  r.diagnostics.filter (·.severity == .warning)

/-! ## Values and their types -/

namespace TypeSlot

theorem isResolved_some {t : SignalType} :
    isResolved (some t) = true ↔ 0 < t.width ∧ t.width ≤ maxWidth := by
  simp [isResolved]

theorem bits_le (t : TypeSlot) : t.bits ≤ maxWidth := by
  cases t with
  | none => exact Nat.zero_le _
  | some t => exact Nat.min_le_right _ _

theorem bits_mono {t o : SignalType} (h : t.width ≤ o.width) : bits (some t) ≤ bits (some o) := by
  simp only [bits]
  omega

end TypeSlot

namespace Word

/-- Sign extension to a word, cut to `w` bits, is sign extension to `w` bits. -/
theorem setWidth_truncate_extend {v w : Nat} (hw : w ≤ maxWidth) (a : Word) :
    (truncate w (extend v a)).setWidth w = (a.setWidth v).signExtend w := by
  apply BitVec.eq_of_getLsbD_eq
  intro i hi
  have hi' : i < maxWidth := by omega
  simp [truncate, extend, BitVec.getElem_signExtend, hi, hi']

/-- A value keeps its meaning in a type of the same signedness that is at least as wide. -/
theorem reading_fit {t o : TypeSlot} (hsign : t.isSigned = o.isSigned) (hw : t.bits ≤ o.bits)
    {v : Word} (hv : v.toNat < 2 ^ t.bits) : reading o (fit t o.bits v) = reading t v := by
  unfold reading
  rw [hsign]
  cases ho : o.isSigned with
  | false =>
    have hlt : v.toNat < 2 ^ o.bits := lt_of_lt_of_le hv (Nat.pow_le_pow_right (by decide) hw)
    rw [fit_unsigned (hsign.trans ho), truncate_of_lt hlt]
    rfl
  | true =>
    have hfit : fit t o.bits v = truncate o.bits (extend t.bits v) := by
      simp [fit, hsign.trans ho]
    simp only [if_true]
    rw [hfit, setWidth_truncate_extend o.bits_le, BitVec.toInt_signExtend_of_le hw]

end Word

/-- Signals and literals with resolved types give an expression whose type can be computed a
resolved type. -/
theorem Symbols.isResolved_typeOf {g : Symbols} {e : Expr} (h : g.typed e = true)
    (hs : ∀ i ∈ e.reads, (g.signalType i).isResolved = true)
    (hl : ∀ t ∈ e.literalTypes, (g.type? t).isResolved = true) :
    (g.typeOf e).isResolved = true := by
  induction e with
  | hole => exact absurd h Bool.false_ne_true
  | ref i => exact hs i (by simp [Expr.reads])
  | lit v t => exact hl t (by simp [Expr.literalTypes])
  | cmp p l r => rfl
  | index i e => exact hs i (by simp [Expr.reads])
  | not e ih => exact ih h hs hl
  | bin op l r ihl ihr =>
    simp only [typed, Bool.and_eq_true] at h
    obtain ⟨⟨hl', hr'⟩, -⟩ := h
    have h₁ := ihl hl' (fun i hi => hs i (by simp [Expr.reads, hi]))
      fun t ht => hl t (by simp [Expr.literalTypes, ht])
    have h₂ := ihr hr' (fun i hi => hs i (by simp [Expr.reads, hi]))
      fun t ht => hl t (by simp [Expr.literalTypes, ht])
    cases hlt : g.typeOf l with
    | none => rw [hlt] at h₁; exact absurd h₁ Bool.false_ne_true
    | some t =>
      cases hrt : g.typeOf r with
      | none => rw [hrt] at h₂; exact absurd h₂ Bool.false_ne_true
      | some u =>
        rw [hlt, TypeSlot.isResolved_some] at h₁
        rw [hrt, TypeSlot.isResolved_some] at h₂
        simp only [typeOf, hlt, hrt, Option.map_some, SignalType.resultFor]
        rw [TypeSlot.isResolved_some]
        split
        · exact h₁
        · simp only
          omega

/-! ## What the check has seen -/

namespace WidthCheck

variable {m : Module} {i : SignalId} {g : Symbols}

/-- A statement about which nothing is found, though all types that the check asks for exist. -/
structure Clean (g : Symbols) (name : String) (st : Statement) : Prop where
  found : checkStmt g name st = []
  checkable : checkable g st = true

mutual

variable {st : Statement} {name : String} {g : Symbols}

theorem Clean.of_nested :
    {top : Statement} → checkStmt g name top = [] → WidthCheck.checkable g top = true →
      st ∈ Stmt.nested top → Clean g name st
  | .blank, hf, hc, h | .assign .., hf, hc, h => by
    rw [Stmt.nested, List.mem_singleton] at h
    exact h ▸ ⟨hf, hc⟩
  | .cond test thn els, hf, hc, h => by
    have hf' := hf
    have hc' := hc
    simp only [checkStmt, List.append_eq_nil_iff] at hf'
    simp only [WidthCheck.checkable, Bool.and_eq_true] at hc'
    rw [Stmt.nested, List.mem_cons, List.mem_append] at h
    rcases h with rfl | h | h
    · exact ⟨hf, hc⟩
    · exact Clean.of_block hf'.1.2 hc'.1.2 h
    · exact Clean.of_block hf'.2 hc'.2 h
  | .case selector arms otherwise, hf, hc, h => by
    have hf' := hf
    have hc' := hc
    simp only [checkStmt, List.append_eq_nil_iff] at hf'
    simp only [WidthCheck.checkable, Bool.and_eq_true] at hc'
    rw [Stmt.nested, List.mem_cons, List.mem_append] at h
    rcases h with rfl | h | h
    · exact ⟨hf, hc⟩
    · exact Clean.of_arms hf'.1.2 hc'.1.2 h
    · exact Clean.of_block hf'.2 hc'.2 h

theorem Clean.of_block :
    {body : List Statement} → checkBlock g name body = [] → checkableBlock g body = true →
      st ∈ Stmt.nestedBlock body → Clean g name st
  | [], _, _, h => by simp [Stmt.nestedBlock] at h
  | top :: rest, hf, hc, h => by
    simp only [checkBlock, List.append_eq_nil_iff] at hf
    simp only [checkableBlock, Bool.and_eq_true] at hc
    rw [Stmt.nestedBlock, List.mem_append] at h
    rcases h with h | h
    · exact Clean.of_nested hf.1 hc.1 h
    · exact Clean.of_block hf.2 hc.2 h

theorem Clean.of_arms {selector : Expr} :
    {arms : List (UInt64 × List Statement)} → checkArms g name selector arms = [] →
      checkableArms g arms = true → st ∈ Stmt.nestedArms arms → Clean g name st
  | [], _, _, h => by simp [Stmt.nestedArms] at h
  | (v, body) :: rest, hf, hc, h => by
    simp only [checkArms, List.append_eq_nil_iff] at hf
    simp only [checkableArms, Bool.and_eq_true] at hc
    rw [Stmt.nestedArms, List.mem_append] at h
    rcases h with h | h
    · exact Clean.of_block hf.1.2 hc.1 h
    · exact Clean.of_arms hf.2 hc.2 h

end

theorem isResolved_of_checkSignal {x : Signal} (hi : g.signals[i]? = some x)
    (h : checkSignal g x = []) : (g.signalType i).isResolved = true := by
  have htype : g.signalType i = g.type? x.type := by simp [Symbols.signalType, hi]
  rw [htype]
  unfold checkSignal at h
  cases ht : g.type? x.type with
  | none => simp [ht] at h
  | some t =>
    simp only [ht, SignalType.isUnknown] at h
    rw [TypeSlot.isResolved_some]
    by_cases hu : t.width ≤ 0
    · simp [hu] at h
    · by_cases hw : (maxWidth : Int) < t.width
      · simp [hu, hw] at h
      · omega

theorem mem_declared : i ∈ m.declared ↔ m.symbols.signals[i]?.any Signal.declared = true := by
  rw [Module.declared, List.mem_mergeSort, List.mem_filter, List.mem_range]
  refine ⟨And.right, fun h => ⟨?_, h⟩⟩
  cases hi : m.symbols.signals[i]? with
  | none => rw [hi] at h; exact absurd h Bool.false_ne_true
  | some x => exact (Array.getElem?_eq_some_iff.mp hi).1

/-- The order of the findings does not matter for a module that has none. -/
theorem findings_eq_nil_iff : findings m = [] ↔
    (∀ x ∈ m.symbols.signals.toList, x.declared = true → checkSignal m.symbols x = []) ∧
      ∀ p ∈ m.processes.toList, checkBlock m.symbols m.name p.body = [] := by
  rw [findings, List.append_eq_nil_iff, List.flatMap_eq_nil_iff, List.flatMap_eq_nil_iff]
  refine and_congr_left fun _ => ⟨fun h x hx hd => ?_, fun h i hi => ?_⟩
  · obtain ⟨i, hi⟩ := List.getElem?_of_mem hx
    rw [Array.getElem?_toList] at hi
    have := h i (mem_declared.mpr (by simp [hi, hd]))
    rwa [hi] at this
  · have hd := mem_declared.mp hi
    cases hx : m.symbols.signals[i]? with
    | none => rw [hx] at hd; exact absurd hd Bool.false_ne_true
    | some x =>
      rw [hx] at hd
      exact h x (Array.mem_toList_iff.mpr (Array.mem_of_getElem? hx)) hd

theorem isResolved_of_declared (h : findings m = [])
    (hi : m.symbols.signals[i]?.any Signal.declared = true) :
    (m.symbols.signalType i).isResolved = true := by
  cases hx : m.symbols.signals[i]? with
  | none => rw [hx] at hi; exact absurd hi Bool.false_ne_true
  | some x =>
    rw [hx] at hi
    have hmem : x ∈ m.symbols.signals.toList :=
      Array.mem_toList_iff.mpr (Array.mem_of_getElem? hx)
    exact isResolved_of_checkSignal hx ((findings_eq_nil_iff.mp h).1 x hmem hi)

theorem Clean.of_findings (h : findings m = []) (hc : checkableModule m = true) {st : Statement}
    (hst : st ∈ m.statements) : Clean m.symbols m.name st := by
  obtain ⟨p, hp, hst⟩ := List.mem_flatMap.mp hst
  have hcheckable := Array.all_eq_true_iff_forall_mem.mp hc p (Array.mem_toList_iff.mp hp)
  exact Clean.of_block ((findings_eq_nil_iff.mp h).2 p hp) hcheckable hst

/-- Every finding is an error or a warning. -/
theorem Finding.isError_or_warning (f : Finding) :
    f.isError = true ∨ f.diagnostic.severity = .warning := by
  cases f <;> simp [isError, diagnostic, severity]

theorem diagnostics_foldl_report (fs : List Finding) (r : Reporter) :
    (fs.foldl (fun r f => r.report f.diagnostic) r).diagnostics =
      r.diagnostics ++ fs.map Finding.diagnostic := by
  induction fs generalizing r with
  | nil => simp
  | cons f fs ih => rw [List.foldl_cons, ih]; simp [Reporter.report]

/-- A check without an error that reports no warning has found nothing in any module. -/
theorem findings_of_run {modules : List (Option Module)} {r r' : Reporter}
    (hrun : run (some modules) (some r) = (none, some r')) (hwarn : r'.warnings = r.warnings)
    (hm : some m ∈ modules) : findings m = [] ∧ checkableModule m = true := by
  have hpresent : m ∈ modules.filterMap id := List.mem_filterMap.mpr ⟨some m, hm, rfl⟩
  unfold run at hrun
  simp only [Option.map_some] at hrun
  split at hrun
  case isFalse => simp at hrun
  case isTrue hall =>
    refine ⟨?_, List.all_eq_true.mp hall m hpresent⟩
    obtain ⟨herrors, hr'⟩ := Prod.mk.inj hrun
    cases hr'
    rw [Reporter.warnings, diagnostics_foldl_report, List.filter_append, Reporter.warnings,
      List.append_right_eq_self] at hwarn
    have hzero : (List.flatMap findings (List.filterMap id modules)).countP Finding.isError = 0 := by
      by_contra hne
      rw [if_neg hne] at herrors
      simp at herrors
    -- A finding would be counted as an error or stand among the new warnings.
    rw [List.eq_nil_iff_forall_not_mem]
    intro f hf
    have hmem : f ∈ List.flatMap findings (List.filterMap id modules) :=
      List.mem_flatMap.mpr ⟨m, hpresent, hf⟩
    rcases f.isError_or_warning with herr | hsev
    · exact List.countP_eq_zero.mp hzero f hmem herr
    · have := List.filter_eq_nil_iff.mp hwarn f.diagnostic (List.mem_map_of_mem hmem)
      simp [hsev] at this

/-- What the check has compared when it is silent about storing `value` in `dest`. -/
theorem keeps_of_checkStore {dest : SignalId} {value : Expr} (h : checkStore g dest value = [])
    (hsrc : (g.typeOf value).isResolved = true) (hdst : (g.signalType dest).isResolved = true) :
    (g.typeOf value).isSigned = (g.signalType dest).isSigned ∧
      (g.typeOf value).bits ≤ (g.signalType dest).bits := by
  unfold checkStore at h
  cases hs : g.typeOf value with
  | none => rw [hs] at hsrc; exact absurd hsrc Bool.false_ne_true
  | some src =>
    cases hd : g.signalType dest with
    | none => rw [hd] at hdst; exact absurd hdst Bool.false_ne_true
    | some dst =>
      rw [hs, TypeSlot.isResolved_some] at hsrc
      rw [hd, TypeSlot.isResolved_some] at hdst
      have hsrc' : src.isUnknown = false := by simp [SignalType.isUnknown]; omega
      have hdst' : dst.isUnknown = false := by simp [SignalType.isUnknown]; omega
      simp only [hs, hd, List.append_eq_nil_iff, ite_eq_left_iff, List.cons_ne_nil, imp_false,
        Decidable.not_not] at h
      obtain ⟨hfits, hcompatible⟩ := h
      have hsign : src.signed = dst.signed := by
        simpa [SignalType.signCompatible, hsrc', hdst'] using hcompatible
      have hwidth : src.width ≤ dst.width := by
        cases hsig : dst.signed <;>
          simpa [SignalType.fitsWithin, hsrc', hdst', hsign, hsig] using hfits
      exact ⟨by simp [TypeSlot.isSigned, hsign], TypeSlot.bits_mono hwidth⟩

/-- A value that the check lets pass is not cut to the width of the selector. -/
theorem lt_of_checkArmValue {name : String} {selector : Expr} {v : UInt64}
    (h : checkArmValue g name selector v = []) (hsel : (g.typeOf selector).isResolved = true) :
    v.toNat < 2 ^ (g.typeOf selector).bits := by
  unfold checkArmValue at h
  cases ht : g.typeOf selector with
  | none => rw [ht] at hsel; exact absurd hsel Bool.false_ne_true
  | some t =>
    rw [ht, TypeSlot.isResolved_some] at hsel
    have hbits : TypeSlot.bits (some t) = t.width.toNat := by
      simp only [TypeSlot.bits]
      omega
    rw [hbits]
    by_cases h64 : t.width < 64
    · have hle : 0 ≤ t.width := by omega
      simp only [ht, hle, h64, decide_true, Bool.true_and, bne_iff_ne, ne_eq, ite_eq_right_iff,
        List.cons_ne_nil, imp_false, Decidable.not_not] at h
      exact Nat.lt_of_div_eq_zero (Nat.two_pow_pos _) (by rwa [Nat.shiftRight_eq_div_pow] at h)
    · have h64' : 64 ≤ t.width.toNat := by omega
      exact lt_of_lt_of_le v.toNat_lt (Nat.pow_le_pow_right (by decide) h64')

end WidthCheck

namespace Sim

variable {g : Symbols}

theorem execArms_exact {name : String} {selector : Expr} (s : State)
    (hsel : (g.typeOf selector).isResolved = true) {arms : List (UInt64 × List Statement)}
    (h : WidthCheck.checkArms g name selector arms = []) (sel : Word) (otherwise : List Statement) :
    (execArms g s sel (g.typeOf selector).bits arms).getD (execBlock g s otherwise) =
      execBlock g s (Stmt.armFor sel.toNat arms otherwise) := by
  induction arms with
  | nil => rfl
  | cons arm arms ih =>
    obtain ⟨v, body⟩ := arm
    simp only [WidthCheck.checkArms, List.append_eq_nil_iff] at h
    have hv := WidthCheck.lt_of_checkArmValue h.1.1 hsel
    have hsame : selects sel (g.typeOf selector).bits v = true ↔ v.toNat = sel.toNat := by
      rw [selects_iff hv, ← BitVec.toNat_inj, Word.toNat_ofUInt64]
      exact eq_comm
    by_cases heq : v.toNat = sel.toNat
    · simp [execArms, hsame.mpr heq, Stmt.armFor, heq]
    · have hno : selects sel (g.typeOf selector).bits v = false := by
        rw [Bool.eq_false_iff, ne_eq, hsame]
        exact heq
      have hfind : Stmt.armFor sel.toNat ((v, body) :: arms) otherwise =
          Stmt.armFor sel.toNat arms otherwise := by
        simp [Stmt.armFor, heq]
      rw [execArms, hno, hfind]
      exact ih h.2

theorem assignment_value {s : State} {dest : SignalId} {index : Option Expr} {value : Expr}
    {w : Write} (h : w ∈ (assignment g s dest index value).toList) :
    w.value = Word.fit (g.typeOf value) (g.signalType dest).bits (eval g s value) := by
  rw [Option.mem_toList] at h
  unfold assignment at h
  cases index with
  | none => exact (Option.some.inj h) ▸ rfl
  | some i =>
    simp only at h
    split at h
    · exact (Option.some.inj h) ▸ rfl
    · simp at h

theorem assignment_eq_none_iff {s : State} {dest : SignalId} {index : Option Expr} {value : Expr} :
    assignment g s dest index value = none ↔
      ∃ i, index = some i ∧ (s.words dest).size ≤ (eval g s i).toNat := by
  cases index with
  | none | some i => simp [assignment]

/-- In a module that passes the check in silence, with every signal declared and every literal of a
resolved type, no state makes a statement lose a value. The write of an assignment reads in the
destination's type as its expression does in its own, and is left out only beyond the memory. A
case statement runs the first arm that has the selector's value, or its default. -/
theorem lossless_of_silent {modules : List (Option Module)} {r r' : Reporter} {m : Module}
    (hrun : WidthCheck.run (some modules) (some r) = (none, some r'))
    (hwarn : r'.warnings = r.warnings) (hm : some m ∈ modules) (hres : m.Resolved) (s : State)
    {st : Statement} (hst : st ∈ m.statements) :
    (∀ dest index value, st = .assign dest index value →
      (∀ w ∈ exec m.symbols s st, w.dest = dest ∧
        w.value.reading (m.symbols.signalType dest) =
          (eval m.symbols s value).reading (m.symbols.typeOf value)) ∧
      (exec m.symbols s st = [] ↔
        ∃ i, index = some i ∧ (s.words dest).size ≤ (eval m.symbols s i).toNat)) ∧
    (∀ selector arms otherwise, st = .case selector arms otherwise →
      exec m.symbols s st =
        execBlock m.symbols s (Stmt.armFor (eval m.symbols s selector).toNat arms otherwise)) := by
  obtain ⟨hfound, hcheckable⟩ := WidthCheck.findings_of_run hrun hwarn hm
  have hclean := WidthCheck.Clean.of_findings hfound hcheckable hst
  have hsignals : ∀ i ∈ st.refs, (m.symbols.signalType i).isResolved = true := fun i hi =>
    WidthCheck.isResolved_of_declared hfound (hres.signals st hst i hi)
  have htype : ∀ e ∈ st.operands, m.symbols.typed e = true →
      (m.symbols.typeOf e).isResolved = true := by
    intro e he htyped
    refine Symbols.isResolved_typeOf htyped (fun i hi => hsignals i ?_) (hres.literals st hst e he)
    exact List.mem_append_left _ (List.mem_flatMap.mpr ⟨e, he, hi⟩)
  constructor
  · rintro dest index value rfl
    have hstore : WidthCheck.checkStore m.symbols dest value = [] :=
      (List.append_eq_nil_iff.mp hclean.found).2
    have htyped : m.symbols.typed value = true := by
      have h := hclean.checkable
      simp only [WidthCheck.checkable, Bool.and_eq_true] at h
      exact h.2
    obtain ⟨hsign, hbits⟩ := WidthCheck.keeps_of_checkStore hstore
      (htype value (by simp [Stmt.operands]) htyped) (hsignals dest (by simp [Stmt.refs]))
    refine ⟨fun w hw => ?_, ?_⟩
    · rw [exec] at hw
      refine ⟨assignment_dest hw, ?_⟩
      rw [assignment_value hw]
      exact Word.reading_fit hsign hbits (eval_lt m.symbols s value)
    · rw [exec, Option.toList_eq_nil_iff]
      exact assignment_eq_none_iff
  · rintro selector arms otherwise rfl
    have harms : WidthCheck.checkArms m.symbols m.name selector arms = [] := by
      have h := hclean.found
      simp only [WidthCheck.checkStmt, List.append_eq_nil_iff] at h
      exact h.1.2
    have htyped : m.symbols.typed selector = true := by
      have h := hclean.checkable
      simp only [WidthCheck.checkable, Bool.and_eq_true] at h
      by_contra hno
      simp [Symbols.knownType, hno] at h
    rw [← execArms_exact s (htype selector (by simp [Stmt.operands]) htyped) harms, exec]
    cases execArms m.symbols s (eval m.symbols s selector) (m.symbols.typeOf selector).bits arms <;>
      rfl

/-- A level of four bits and its sign are kept in a wider record, entry by entry. -/
def gauge : Module where
  name := "gauge"
  symbols :=
    { types := #[.unsigned 2, ⟨4, true⟩, ⟨8, true⟩, .unsigned 70]
      signals := #[
        { name := "slot", type := some 0, kind := .wire },
        { name := "level", type := some 1, kind := .wire },
        { name := "total", type := some 2, kind := .reg },
        { name := "record", type := some 2, kind := .memory, depth := 4 },
        { name := "wide", type := some 3, kind := .wire }] }
  processes := #[
    { name := "keep"
      trigger := .combinational
      body := [
        .cond (.cmp .slt (.ref 1) (.lit (.value 0) (some 1)))
          [.case (.ref 0)
            [(0, [.assign 3 (some (.ref 0)) (.bin .add (.ref 1) (.ref 1))]),
             (3, [.assign 2 none (.ref 1)])]
            [.case (.ref 4) [(18446744073709551615, [.assign 2 none (.ref 2)])] []]]
          []] }]

/-- The level is minus three, which four bits write as 13 and eight bits as 253. -/
def gaugeState : State where
  scalars := #[some 3, some 13, some 0, none, some 0]
  memories := #[#[], #[], #[], Array.replicate 4 0, #[]]

theorem gauge_resolved : gauge.Resolved := by
  constructor <;> decide +kernel

theorem gauge_lossless :
    WidthCheck.run (some [some gauge]) (some {}) = (none, some {}) ∧ gauge.Resolved ∧
      ∃ v, exec gauge.symbols gaugeState (.assign 2 none (.ref 1)) = [⟨2, none, v⟩] ∧
        v = 253 ∧ v.reading (gauge.symbols.signalType 2) = -3 := by
  have hfound : WidthCheck.findings gauge = [] :=
    WidthCheck.findings_eq_nil_iff.mpr ⟨by decide +kernel, by decide +kernel⟩
  have hcheckable : WidthCheck.checkableModule gauge = true := by decide +kernel
  have hrun : WidthCheck.run (some [some gauge]) (some {}) = (none, some {}) := by
    simp [WidthCheck.run, hfound, hcheckable]
  have hst : .assign 2 none (.ref 1) ∈ gauge.statements := by
    simp [Module.statements, gauge, Stmt.nestedBlock, Stmt.nested, Stmt.nestedArms]
  have hexec : exec gauge.symbols gaugeState (.assign 2 none (.ref 1)) = [⟨2, none, 253⟩] := by
    decide +kernel
  have h := (lossless_of_silent hrun rfl List.mem_cons_self gauge_resolved gaugeState hst).1 2 none
    (.ref 1) rfl
  refine ⟨hrun, gauge_resolved, 253, hexec, rfl, ?_⟩
  rw [(h.1 ⟨2, none, 253⟩ (by rw [hexec]; exact List.mem_cons_self)).2]
  decide +kernel

end Sim

end Lockstep
