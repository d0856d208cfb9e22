import Lockstep.Program.Elaborate
import Lockstep.Proofs.Word

/-!
# Nesting of control

Which programs are well nested, said of their text alone: the rules that jumps, conditionals, labels
and branches obey, and a scan that finds the first rule that is broken. The scan keeps a few flags
where the rules look at whole bodies; it stops exactly where a rule is broken, and stops with it.

Only the shape of a program counts here. What its expressions say is left out.
-/

namespace Lockstep.Program

/-! ## Shapes -/

/-- What a command is to the nesting of a program. -/
inductive Shape where
  /-- Neither emits a statement nor cuts a state. -/
  | quiet
  | emit
  | when (thn els : List Shape)
  /-- Cuts a state and stands for nothing else. -/
  | cut
  | ifThen (body : List Shape)
  | orElse (body : List Shape)
  | loop (body : List Shape)
  | breakLoop
  | nextRound
  | label (name : String)
  | goto (name : String)
  | ret
deriving Inhabited

mutual

def Command.shape : Command → Shape
  | .assign .. | .assignAt .. => .emit
  | .when _ thn els => .when (shapes thn) (shapes els)
  | .step | .terminate => .cut
  | .ifThen _ body => .ifThen (shapes body)
  | .orElse body => .orElse (shapes body)
  | .whileLoop _ body | .loop body | .count _ _ body | .times _ _ body | .each _ _ _ body =>
    .loop (shapes body)
  | .breakLoop => .breakLoop
  | .nextRound => .nextRound
  | .label name => .label name
  | .goto name => .goto name
  | .ret _ => .ret
  | _ => .quiet

def Command.shapes : List Command → List Shape
  | [] => []
  | c :: rest => c.shape :: shapes rest

end

namespace Shape

mutual

/-- A shape and all shapes in its bodies. -/
def within : Shape → List Shape
  | .when thn els => .when thn els :: (withinAll thn ++ withinAll els)
  | .ifThen body => .ifThen body :: withinAll body
  | .orElse body => .orElse body :: withinAll body
  | .loop body => .loop body :: withinAll body
  | x => [x]

def withinAll : List Shape → List Shape
  | [] => []
  | x :: rest => x.within ++ withinAll rest

end

mutual

/-- The same, not looking into loops. -/
def unlooped : Shape → List Shape
  | .when thn els => .when thn els :: (unloopedAll thn ++ unloopedAll els)
  | .ifThen body => .ifThen body :: unloopedAll body
  | .orElse body => .orElse body :: unloopedAll body
  | x => [x]

def unloopedAll : List Shape → List Shape
  | [] => []
  | x :: rest => x.unlooped ++ unloopedAll rest

end

mutual

/-- All bodies in a shape. -/
def bodies : Shape → List (List Shape)
  | .when thn els => thn :: els :: (bodiesAll thn ++ bodiesAll els)
  | .ifThen body | .orElse body | .loop body => body :: bodiesAll body
  | _ => []

def bodiesAll : List Shape → List (List Shape)
  | [] => []
  | x :: rest => x.bodies ++ bodiesAll rest

end

/-- A shape without a body. -/
def isLeaf : Shape → Bool
  | .when .. | .ifThen _ | .orElse _ | .loop _ => false
  | _ => true

section

variable {x : Shape} {rest body thn els : List Shape}

@[simp] theorem withinAll_nil : withinAll [] = [] := rfl

@[simp] theorem withinAll_cons : withinAll (x :: rest) = x.within ++ withinAll rest := rfl

@[simp] theorem within_when :
    (Shape.when thn els).within = .when thn els :: (withinAll thn ++ withinAll els) := rfl

@[simp] theorem within_ifThen : (Shape.ifThen body).within = .ifThen body :: withinAll body := rfl

@[simp] theorem within_orElse : (Shape.orElse body).within = .orElse body :: withinAll body := rfl

@[simp] theorem within_loop : (Shape.loop body).within = .loop body :: withinAll body := rfl

@[simp] theorem unloopedAll_nil : unloopedAll [] = [] := rfl

@[simp] theorem unloopedAll_cons : unloopedAll (x :: rest) = x.unlooped ++ unloopedAll rest := rfl

@[simp] theorem unlooped_when :
    (Shape.when thn els).unlooped = .when thn els :: (unloopedAll thn ++ unloopedAll els) := rfl

@[simp] theorem unlooped_ifThen :
    (Shape.ifThen body).unlooped = .ifThen body :: unloopedAll body := rfl

@[simp] theorem unlooped_orElse :
    (Shape.orElse body).unlooped = .orElse body :: unloopedAll body := rfl

@[simp] theorem unlooped_loop : (Shape.loop body).unlooped = [.loop body] := rfl

@[simp] theorem bodiesAll_nil : bodiesAll [] = [] := rfl

@[simp] theorem bodiesAll_cons : bodiesAll (x :: rest) = x.bodies ++ bodiesAll rest := rfl

@[simp] theorem bodies_when :
    (Shape.when thn els).bodies = thn :: els :: (bodiesAll thn ++ bodiesAll els) := rfl

@[simp] theorem bodies_ifThen : (Shape.ifThen body).bodies = body :: bodiesAll body := rfl

@[simp] theorem bodies_orElse : (Shape.orElse body).bodies = body :: bodiesAll body := rfl

@[simp] theorem bodies_loop : (Shape.loop body).bodies = body :: bodiesAll body := rfl

/-- Nothing stands in a shape without a body. -/
theorem of_isLeaf (h : x.isLeaf = true) :
    withinAll [x] = [x] ∧ unloopedAll [x] = [x] ∧ bodiesAll [x] = [] := by
  cases x <;> first | exact ⟨rfl, rfl, rfl⟩ | exact absurd h Bool.false_ne_true

theorem mem_within_self (x : Shape) : x ∈ x.within := by
  cases x <;> exact List.mem_cons_self

end

/-- Leaves a loop or starts its next round. -/
def jumps : Shape → Bool
  | .breakLoop | .nextRound => true
  | _ => false

/-- Ends the current state wherever it stands. -/
def cuts : Shape → Bool
  | .cut | .ifThen _ | .orElse _ | .loop _ | .breakLoop | .nextRound | .goto _ | .ret => true
  | _ => false

def label? : Shape → Option String
  | .label name => some name
  | _ => none

def goto? : Shape → Option String
  | .goto name => some name
  | _ => none

/-- Emits nothing, and cuts no state unless a label is waiting. -/
def isIdle : Shape → Bool
  | .quiet | .label _ => true
  | _ => false

def labels (xs : List Shape) : List String := (withinAll xs).filterMap label?

def targets (xs : List Shape) : List String := (withinAll xs).filterMap goto?

end Shape

/-! ## Rules -/

/-- What can be wrong with the nesting of a program. -/
inductive Rule where
  | noLoop
  | outsideFunction
  | elseWithoutIf
  | nestedControl
  | duplicateState
  | unknownState
deriving DecidableEq, Repr

/-- The rule that an error complains about. -/
def Error.rule? : Error → Option Rule
  | .noLoop .. => some .noLoop
  | .outsideFunction .. => some .outsideFunction
  | .elseWithoutIf .. => some .elseWithoutIf
  | .nestedControl .. => some .nestedControl
  | .duplicateLabel .. | .machine (.duplicateState ..) => some .duplicateState
  | .machine (.unknownTarget ..) | .machine (.badReference ..) => some .unknownState
  | _ => none

/-- The shapes end with an `ifThen`, after which nothing was emitted or cut but `n` labels given. -/
def Trails (n : Nat) (before : List Shape) : Prop :=
  ∃ early thn gap, before = early ++ .ifThen thn :: gap ∧ (∀ x ∈ gap, x.isIdle = true) ∧
    (gap.filterMap Shape.label?).length = n

/-- An `ifThen` has been closed, and nothing has been emitted or cut since then. One label may have
been given; a second one cuts the state that waits for the first. -/
def AfterIf (before : List Shape) : Prop := ∃ n ≤ 1, Trails n before

/-- Some `orElse` of a body has no `ifThen` before it. -/
def Dangles (block : List Shape) : Prop :=
  ∃ before els after, block = before ++ .orElse els :: after ∧ ¬ AfterIf before

def Rule.BrokenBy (xs : List Shape) : Rule → Prop
  | .noLoop => ∃ x ∈ Shape.unloopedAll xs, x.jumps = true
  | .outsideFunction => .ret ∈ Shape.withinAll xs
  | .elseWithoutIf => ∃ block ∈ xs :: Shape.bodiesAll xs, Dangles block
  | .nestedControl => ∃ thn els, .when thn els ∈ Shape.withinAll xs ∧
      ∃ x ∈ Shape.withinAll thn ++ Shape.withinAll els, x.cuts = true
  | .duplicateState => ¬ (Shape.labels xs).Nodup
  | .unknownState => ∃ name ∈ Shape.targets xs, name ∉ Shape.labels xs

/-- The labels in the branches of a `when`. -/
def Shape.branchLabels : Shape → List String
  | .when thn els => labels thn ++ labels els
  | _ => []

/-- No label stands in a branch of a `when`. -/
def Shape.LabelsOpen (xs : List Shape) : Prop := ∀ x ∈ withinAll xs, x.branchLabels = []

instance (xs : List Shape) : Decidable (Shape.LabelsOpen xs) :=
  inferInstanceAs (Decidable (∀ x ∈ Shape.withinAll xs, x.branchLabels = []))

/-! ## Distance from the last conditional

The rule about `orElse` looks back for an `ifThen`. Read forwards, it is enough to know how many
labels have been given since the last `ifThen`, as long as nothing else has happened. -/

namespace Shape

/-- The number of labels since the last `ifThen`; none if anything was emitted or cut. -/
def gap (g : Option Nat) : Shape → Option Nat
  | .quiet => g
  | .label _ => g.map (· + 1)
  | .ifThen _ => some 0
  | _ => none

/-- An `orElse` may follow. -/
def Attached (g : Option Nat) : Prop := ∃ n, g = some n ∧ n ≤ 1

theorem not_trails_nil (n : Nat) : ¬ Trails n [] := by
  rintro ⟨early, thn, gap, h, -⟩
  simp at h

theorem trails_concat {n : Nat} {before : List Shape} {x : Shape} :
    Trails n (before ++ [x]) ↔ (∃ thn, x = .ifThen thn ∧ n = 0) ∨
      (x.isIdle = true ∧ ∃ m, Trails m before ∧ n = m + (x.label?.toList).length) := by
  constructor
  · rintro ⟨early, thn, gap, h, hidle, hn⟩
    rcases List.eq_nil_or_concat gap with rfl | ⟨gap, y, rfl⟩
    · have hx := (List.append_inj' h rfl).2
      exact .inl ⟨thn, (List.cons.inj hx).1, by simpa using hn.symm⟩
    · rw [List.concat_eq_append, ← List.cons_append, ← List.append_assoc] at h
      obtain ⟨hbefore, hx⟩ := List.append_inj' h rfl
      obtain rfl := (List.cons.inj hx).1
      refine .inr ⟨hidle x (by simp), _,
        ⟨early, thn, gap, hbefore, fun z hz => hidle z ?_, rfl⟩, ?_⟩
      · simp [hz]
      · rw [← hn, List.concat_eq_append, List.filterMap_append, List.length_append]
        cases x <;> simp [label?]
  · rintro (⟨thn, rfl, rfl⟩ | ⟨hidle, m, ⟨early, thn, gap, rfl, hgap, rfl⟩, rfl⟩)
    · exact ⟨before, thn, [], by simp, by simp, rfl⟩
    · refine ⟨early, thn, gap ++ [x], by simp, fun z hz => ?_, ?_⟩
      · rcases List.mem_append.mp hz with hz | hz
        · exact hgap z hz
        · rw [List.mem_singleton.mp hz]
          exact hidle
      · rw [List.filterMap_append, List.length_append]
        cases x <;> simp [label?]

theorem foldl_gap_eq_some {n : Nat} (before : List Shape) :
    before.foldl gap none = some n ↔ Trails n before := by
  induction before using List.reverseRecOn generalizing n with
  | nil => simp [not_trails_nil]
  | append_singleton before x ih =>
    rw [List.foldl_append, trails_concat]
    cases x <;> simp [gap, isIdle, label?, ← ih, eq_comm]

theorem afterIf_iff (before : List Shape) :
    AfterIf before ↔ Attached (before.foldl gap none) := by
  simp only [AfterIf, Attached, ← foldl_gap_eq_some]
  constructor
  · rintro ⟨n, hn, h⟩
    exact ⟨n, h, hn⟩
  · rintro ⟨n, h, hn⟩
    exact ⟨n, hn, h⟩

/-- Some `orElse` of a body dangles, if the body is entered at the given distance. -/
def DanglesFrom (g : Option Nat) (block : List Shape) : Prop :=
  ∃ before els after, block = before ++ .orElse els :: after ∧ ¬ Attached (before.foldl gap g)

theorem dangles_iff (block : List Shape) : Dangles block ↔ DanglesFrom none block := by
  simp only [Dangles, DanglesFrom, afterIf_iff]

@[simp] theorem not_danglesFrom_nil (g : Option Nat) : ¬ DanglesFrom g [] := by
  rintro ⟨before, els, after, h, -⟩
  simp at h

theorem danglesFrom_cons {g : Option Nat} {x : Shape} {rest : List Shape} :
    DanglesFrom g (x :: rest) ↔
      ((∃ els, x = .orElse els) ∧ ¬ Attached g) ∨ DanglesFrom (gap g x) rest := by
  constructor
  · rintro ⟨before, els, after, h, hg⟩
    cases before with
    | nil => exact .inl ⟨⟨els, (List.cons.inj h).1⟩, hg⟩
    | cons y before =>
      obtain ⟨rfl, hrest⟩ := List.cons.inj h
      exact .inr ⟨before, els, after, hrest, hg⟩
  · rintro (⟨⟨els, rfl⟩, hg⟩ | ⟨before, els, after, rfl, hg⟩)
    · exact ⟨[], els, rest, rfl, hg⟩
    · exact ⟨x :: before, els, after, rfl, hg⟩

end Shape

/-! ## The scan -/

/-- What the scan knows of the program so far. -/
structure Scan where
  /-- An `ifThen` of this body has been closed, and no state has been cut since. -/
  closed : Bool := false
  /-- Statements are waiting for a state. -/
  pending : Bool := false
  /-- A label is waiting for a state. -/
  named : Bool := false
  labels : List String := []
  targets : List String := []

/-- The statements and the label that were waiting have become a state. -/
def Scan.fresh (σ : Scan) : Scan := { σ with closed := false, pending := false, named := false }

@[simp] theorem Scan.fresh_labels (σ : Scan) : σ.fresh.labels = σ.labels := rfl

@[simp] theorem Scan.fresh_targets (σ : Scan) : σ.fresh.targets = σ.targets := rfl

def Scan.cut (inWhen : Bool) (σ : Scan) : Except Rule Scan :=
  if inWhen then .error .nestedControl else .ok σ.fresh

/-- What waits for a state gets one. -/
def Scan.flush (inWhen : Bool) (σ : Scan) : Except Rule Scan :=
  if σ.pending || σ.named then σ.cut inWhen else .ok σ

/-- A statement in a branch does not wait for a state: its `when` does. -/
def Scan.emit (inWhen : Bool) (σ : Scan) : Scan :=
  if inWhen then σ else { σ with pending := true }

mutual

/-- Scans a shape that stands in a loop or not, and in a branch of a `when` or not. -/
def Shape.scan (inLoop inWhen : Bool) (σ : Scan) : Shape → Except Rule Scan
  | .quiet => .ok σ
  | .emit => .ok (σ.emit inWhen)
  | .when thn els => do
    let σ ← scanAll inLoop true σ thn
    let σ ← scanAll inLoop true σ els
    return σ.emit inWhen
  | .cut => σ.cut inWhen
  | .ifThen body => do
    let σ ← σ.cut inWhen
    let σ ← scanAll inLoop inWhen σ body
    let σ ← σ.cut inWhen
    return { σ with closed := true }
  | .orElse body =>
    if σ.closed && !σ.pending then do
      let σ ← scanAll inLoop inWhen { σ with closed := false } body
      σ.cut inWhen
    else .error .elseWithoutIf
  | .loop body => do
    let σ ← σ.cut inWhen
    let σ ← scanAll true inWhen σ body
    σ.cut inWhen
  | .breakLoop => do
    let σ ← σ.cut inWhen
    if inLoop then return σ else .error .noLoop
  | .nextRound => if inLoop then σ.cut inWhen else .error .noLoop
  | .label name =>
    if name ∈ σ.labels then .error .duplicateState
    else do
      let σ ← σ.flush inWhen
      return { σ with named := true, labels := σ.labels ++ [name] }
  | .goto name => do
    let σ ← σ.cut inWhen
    return { σ with targets := σ.targets ++ [name] }
  | .ret => .error .outsideFunction

def Shape.scanAll (inLoop inWhen : Bool) (σ : Scan) : List Shape → Except Rule Scan
  | [] => .ok σ
  | x :: rest => do
    let σ ← x.scan inLoop inWhen σ
    scanAll inLoop inWhen σ rest

end

/-! ## What the scan finds -/

/-- The scan ends well in `ok`, or with a rule in `bad`. -/
def Judged (x : Except Rule Scan) (ok : Scan → Prop) (bad : Rule → Prop) : Prop :=
  match x with
  | .ok σ => ok σ
  | .error r => bad r

section

variable {x : Except Rule Scan} {f : Scan → Except Rule Scan} {σ : Scan} {ok ok' : Scan → Prop}
variable {bad bad' : Rule → Prop} {inWhen : Bool}

@[simp] theorem judged_ok : Judged (.ok σ) ok bad ↔ ok σ := Iff.rfl

@[simp] theorem judged_error {r : Rule} : Judged (.error r) ok bad ↔ bad r := Iff.rfl

@[simp] theorem judged_pure : Judged (pure σ) ok bad ↔ ok σ := Iff.rfl

@[simp] theorem judged_bind :
    Judged (x >>= f) ok bad ↔ Judged x (fun σ => Judged (f σ) ok bad) bad := by
  cases x <;> rfl

theorem Judged.mono (h : Judged x ok bad) (hok : ∀ σ, ok σ → ok' σ) (hbad : ∀ r, bad r → bad' r) :
    Judged x ok' bad' := by
  cases x with
  | ok σ => exact hok σ h
  | error r => exact hbad r h

@[simp] theorem judged_cut : Judged (σ.cut inWhen) ok bad ↔
    (inWhen = true → bad .nestedControl) ∧ (inWhen = false → ok σ.fresh) := by
  cases inWhen <;> simp [Scan.cut]

end

/-- A rule is broken by the shapes that follow, as seen from where they stand: in a loop or not, in
a branch or not, at some distance from an `ifThen`, and after the given labels. -/
def Rule.Ahead (inLoop inWhen : Bool) (g : Option Nat) (given : List String) (xs : List Shape) :
    Rule → Prop
  | .noLoop => inLoop = false ∧ ∃ x ∈ Shape.unloopedAll xs, x.jumps = true
  | .outsideFunction => .ret ∈ Shape.withinAll xs
  | .elseWithoutIf => Shape.DanglesFrom g xs ∨ ∃ block ∈ Shape.bodiesAll xs, Dangles block
  | .nestedControl => (inWhen = true ∧ ∃ x ∈ Shape.withinAll xs, x.cuts = true) ∨
      Rule.nestedControl.BrokenBy xs
  | .duplicateState => ¬ (given ++ Shape.labels xs).Nodup
  | .unknownState => False

namespace Shape

variable {inLoop inWhen : Bool} {g : Option Nat} {given : List String} {r : Rule}
variable {x : Shape} {xs rest body thn els : List Shape}
variable {σ σ' : Scan}

@[simp] theorem labels_nil : labels [] = [] := rfl

theorem labels_cons (x : Shape) (xs : List Shape) : labels (x :: xs) = labels [x] ++ labels xs := by
  simp [labels, withinAll]

@[simp] theorem labels_ifThen : labels [.ifThen body] = labels body := by
  simp [labels, show (Shape.ifThen body).label? = none from rfl]

@[simp] theorem labels_orElse : labels [.orElse body] = labels body := by
  simp [labels, show (Shape.orElse body).label? = none from rfl]

@[simp] theorem labels_loop : labels [.loop body] = labels body := by
  simp [labels, show (Shape.loop body).label? = none from rfl]

@[simp] theorem labels_when : labels [.when thn els] = labels thn ++ labels els := by
  simp [labels, show (Shape.when thn els).label? = none from rfl]

@[simp] theorem targets_nil : targets [] = [] := rfl

theorem targets_cons (x : Shape) (xs : List Shape) :
    targets (x :: xs) = targets [x] ++ targets xs := by
  simp [targets, withinAll]

@[simp] theorem targets_ifThen : targets [.ifThen body] = targets body := by
  simp [targets, show (Shape.ifThen body).goto? = none from rfl]

@[simp] theorem targets_orElse : targets [.orElse body] = targets body := by
  simp [targets, show (Shape.orElse body).goto? = none from rfl]

@[simp] theorem targets_loop : targets [.loop body] = targets body := by
  simp [targets, show (Shape.loop body).goto? = none from rfl]

@[simp] theorem targets_when : targets [.when thn els] = targets thn ++ targets els := by
  simp [targets, show (Shape.when thn els).goto? = none from rfl]

theorem ahead_cons : r.Ahead inLoop inWhen g given (x :: rest) ↔
    r.Ahead inLoop inWhen g given [x] ∨
      r.Ahead inLoop inWhen (gap g x) (given ++ labels [x]) rest := by
  cases r with
  | noLoop => simp only [Rule.Ahead, unloopedAll]; grind
  | outsideFunction => simp [Rule.Ahead, withinAll]
  | elseWithoutIf =>
    simp only [Rule.Ahead, bodiesAll, danglesFrom_cons, List.append_nil, List.mem_append]
    grind [not_danglesFrom_nil]
  | nestedControl => simp only [Rule.Ahead, Rule.BrokenBy, withinAll]; grind
  | duplicateState =>
    rw [Rule.Ahead, Rule.Ahead, Rule.Ahead, labels_cons, ← List.append_assoc]
    constructor
    · exact .inr
    · rintro (h | h)
      · exact fun hn => h (hn.sublist (List.sublist_append_left _ _))
      · exact h
  | unknownState => simp [Rule.Ahead]

/-- Behind the cut that an `ifThen` makes, nothing of its body is told apart by what was before. -/
theorem ahead_ifThen : r.Ahead inLoop inWhen g given [.ifThen body] ↔
    (r = .nestedControl ∧ inWhen = true) ∨ r.Ahead inLoop inWhen none given body := by
  cases r with
  | duplicateState => simp [Rule.Ahead]
  | _ =>
    simp [Rule.Ahead, Rule.BrokenBy, danglesFrom_cons, dangles_iff,
      show (Shape.ifThen body).jumps = false from rfl,
      show (Shape.ifThen body).cuts = true from rfl] <;> grind

theorem ahead_orElse : r.Ahead inLoop inWhen g given [.orElse body] ↔
    (r = .elseWithoutIf ∧ ¬ Attached g) ∨ (r = .nestedControl ∧ inWhen = true) ∨
      r.Ahead inLoop inWhen none given body := by
  cases r with
  | duplicateState => simp [Rule.Ahead]
  | _ =>
    simp [Rule.Ahead, Rule.BrokenBy, danglesFrom_cons, dangles_iff,
      show (Shape.orElse body).jumps = false from rfl,
      show (Shape.orElse body).cuts = true from rfl] <;> grind

theorem ahead_loop : r.Ahead inLoop inWhen g given [.loop body] ↔
    (r = .nestedControl ∧ inWhen = true) ∨ r.Ahead true inWhen none given body := by
  cases r with
  | duplicateState => simp [Rule.Ahead]
  | _ =>
    simp [Rule.Ahead, Rule.BrokenBy, danglesFrom_cons, dangles_iff,
      show (Shape.loop body).jumps = false from rfl,
      show (Shape.loop body).cuts = true from rfl] <;> grind

theorem ahead_when (hthn : labels thn = []) (hels : labels els = []) :
    r.Ahead inLoop inWhen g given [.when thn els] ↔
      r.Ahead inLoop true none given thn ∨ r.Ahead inLoop true none given els := by
  cases r with
  | nestedControl =>
    simp only [Rule.Ahead, Rule.BrokenBy, withinAll_cons, withinAll_nil, within_when,
      List.append_nil, List.mem_cons,
      List.mem_append, true_and]
    constructor
    · rintro (⟨-, y, (rfl | hy | hy), hc⟩ | ⟨t, e, (ht | ht | ht), y, hy, hc⟩)
      · exact absurd hc Bool.false_ne_true
      · exact .inl (.inl ⟨y, hy, hc⟩)
      · exact .inr (.inl ⟨y, hy, hc⟩)
      · obtain ⟨rfl, rfl⟩ := Shape.when.inj ht
        exact hy.imp (fun hy => .inl ⟨y, hy, hc⟩) fun hy => .inl ⟨y, hy, hc⟩
      · exact .inl (.inr ⟨t, e, ht, y, hy, hc⟩)
      · exact .inr (.inr ⟨t, e, ht, y, hy, hc⟩)
    · rintro ((⟨y, hy, hc⟩ | ⟨t, e, ht, h⟩) | (⟨y, hy, hc⟩ | ⟨t, e, ht, h⟩))
      · exact .inr ⟨thn, els, .inl rfl, y, .inl hy, hc⟩
      · exact .inr ⟨t, e, .inr (.inl ht), h⟩
      · exact .inr ⟨thn, els, .inl rfl, y, .inr hy, hc⟩
      · exact .inr ⟨t, e, .inr (.inr ht), h⟩
  | duplicateState => simp [Rule.Ahead, hthn, hels]
  | _ =>
    simp [Rule.Ahead, danglesFrom_cons, dangles_iff,
      show (Shape.when thn els).jumps = false from rfl] <;> grind

/-! The flags of the scan keep the distance: an `orElse` may follow exactly if the closing state of
an `ifThen` is known and nothing waits behind it. In a branch the flags are those of the body around
it, and no `orElse` of the branch has an `ifThen` before it. -/

/-- The flags say how far the last `ifThen` is. -/
def InStep (inWhen : Bool) (σ : Scan) (g : Option Nat) : Prop :=
  if inWhen then g = none
  else
    match g with
    | some 0 => σ.closed = true ∧ σ.pending = false ∧ σ.named = false
    | some 1 => σ.closed = true ∧ σ.pending = false ∧ σ.named = true
    | _ => σ.closed = true → σ.pending = true

theorem inStep_cut (h : σ.closed = false) : InStep inWhen σ none := by
  cases inWhen <;> simp [InStep, h]

theorem inStep_fresh (σ : Scan) : InStep inWhen σ.fresh none := inStep_cut rfl

theorem InStep.attached (h : InStep false σ g) : Attached g ↔ (σ.closed && !σ.pending) = true := by
  unfold InStep at h
  simp only [Bool.false_eq_true, if_false] at h
  split at h
  · simp [Attached, h]
  · simp [Attached, h]
  · next h₀ h₁ =>
    have hg : ¬ Attached g := by
      rintro ⟨n, rfl, hn⟩
      rcases Nat.le_one_iff_eq_zero_or_eq_one.mp hn with rfl | rfl
      · exact h₀ rfl
      · exact h₁ rfl
    cases hc : σ.closed <;> simp_all

/-- A label that cuts leaves no `ifThen` to go on from. -/
theorem InStep.label_cut {name : String} (h : InStep false σ g)
    (hwait : (σ.pending || σ.named) = true) (hσ : σ'.closed = false) :
    InStep false σ' (gap g (.label name)) := by
  unfold InStep at h ⊢
  rcases g with _ | _ | _ | n <;> simp_all [gap]

theorem InStep.label {name : String} (h : InStep false σ g)
    (hidle : σ.pending = false ∧ σ.named = false) (hc : σ'.closed = σ.closed)
    (hp : σ'.pending = σ.pending) (hn : σ'.named = true) :
    InStep false σ' (gap g (.label name)) := by
  unfold InStep at h ⊢
  rcases g with _ | _ | _ | n <;> simp_all [gap]

/-- Labels stand outside of all branches, also of the one that the shapes stand in. -/
def Unhidden (inWhen : Bool) (xs : List Shape) : Prop :=
  (inWhen = true → labels xs = []) ∧ LabelsOpen xs

theorem Unhidden.head (h : Unhidden inWhen (x :: rest)) : Unhidden inWhen [x] := by
  refine ⟨fun hw => ?_, fun y hy => h.2 y ?_⟩
  · exact (List.append_eq_nil_iff.mp (labels_cons x rest ▸ h.1 hw)).1
  · simp only [withinAll, List.append_nil] at hy
    exact List.mem_append_left _ hy

theorem Unhidden.tail (h : Unhidden inWhen (x :: rest)) : Unhidden inWhen rest :=
  ⟨fun hw => (List.append_eq_nil_iff.mp (labels_cons x rest ▸ h.1 hw)).2,
    fun y hy => h.2 y (List.mem_append_right _ hy)⟩

theorem Unhidden.ifThen (h : Unhidden inWhen [.ifThen body]) : Unhidden inWhen body :=
  ⟨fun hw => by simpa using h.1 hw, fun y hy => h.2 y (by simp [hy])⟩

theorem Unhidden.orElse (h : Unhidden inWhen [.orElse body]) : Unhidden inWhen body :=
  ⟨fun hw => by simpa using h.1 hw, fun y hy => h.2 y (by simp [hy])⟩

theorem Unhidden.loop (h : Unhidden inWhen [.loop body]) : Unhidden inWhen body :=
  ⟨fun hw => by simpa using h.1 hw, fun y hy => h.2 y (by simp [hy])⟩

/-- What the scan has seen of the shapes behind it, and that they break no rule. -/
structure Passed (inLoop inWhen : Bool) (g : Option Nat) (σ : Scan) (xs : List Shape) (σ' : Scan) :
    Prop where
  labels_eq : σ'.labels = σ.labels ++ labels xs
  targets_eq : σ'.targets = σ.targets ++ targets xs
  inStep : InStep inWhen σ' (xs.foldl gap g)
  clean : ∀ r : Rule, ¬ r.Ahead inLoop inWhen g σ.labels xs

theorem Passed.nodup (h : Passed inLoop inWhen g σ xs σ') : σ'.labels.Nodup := by
  rw [h.labels_eq]
  exact not_not.mp (h.clean .duplicateState)

theorem Passed.leaf (hx : x.isLeaf = true) (hjump : x.jumps = true → inLoop = true)
    (hret : x ≠ .ret) (hcut : x.cuts = true → inWhen = false)
    (hlabels : σ'.labels = σ.labels ++ x.label?.toList)
    (htargets : σ'.targets = σ.targets ++ x.goto?.toList) (hn : σ'.labels.Nodup)
    (hg : InStep inWhen σ' (gap g x)) : Passed inLoop inWhen g σ [x] σ' := by
  obtain ⟨hwithin, hunlooped, hbodies⟩ := of_isLeaf hx
  have hone : labels [x] = x.label?.toList := by cases h : x.label? <;> simp [labels, hwithin, h]
  refine ⟨hone ▸ hlabels, ?_, hg, fun r hr => ?_⟩
  · rw [htargets]
    cases h : x.goto? <;> simp [targets, hwithin, h]
  cases r with
  | noLoop => simp_all [Rule.Ahead]
  | outsideFunction => exact hret (by simpa [Rule.Ahead, hwithin, eq_comm] using hr)
  | elseWithoutIf =>
    simp only [Rule.Ahead, danglesFrom_cons, not_danglesFrom_nil, hbodies, List.not_mem_nil,
      false_and, exists_false, or_false] at hr
    obtain ⟨⟨els, rfl⟩, -⟩ := hr
    simp [isLeaf] at hx
  | nestedControl =>
    simp only [Rule.Ahead, Rule.BrokenBy, hwithin, List.mem_singleton, exists_eq_left] at hr
    rcases hr with ⟨hw, hc⟩ | ⟨thn, els, rfl, -⟩
    · simp [hcut hc] at hw
    · simp [isLeaf] at hx
  | duplicateState => exact hr (hone ▸ hlabels ▸ hn)
  | unknownState => exact hr

/-- Cutting in a branch breaks the rule about branches. -/
theorem nested_ahead (hw : inWhen = true) (hx : x.cuts = true) :
    Rule.nestedControl.Ahead inLoop inWhen g given [x] :=
  .inl ⟨hw, x, by simp [mem_within_self], hx⟩

mutual

theorem scan_judged : ∀ (x : Shape) {inLoop inWhen : Bool} {σ : Scan} {g : Option Nat},
    InStep inWhen σ g → Unhidden inWhen [x] → σ.labels.Nodup →
      Judged (x.scan inLoop inWhen σ) (Passed inLoop inWhen g σ [x])
        (Rule.Ahead inLoop inWhen g σ.labels [x])
  | .quiet, inLoop, inWhen, σ, g, hg, _, hn => by
    rw [scan, judged_ok]
    exact .leaf rfl nofun nofun nofun (by simp [label?]) (by simp [goto?]) hn hg
  | .emit, inLoop, inWhen, σ, g, _, _, hn => by
    rw [scan, judged_ok]
    have hσ : (σ.emit inWhen).labels = σ.labels ∧ (σ.emit inWhen).targets = σ.targets := by
      cases inWhen <;> exact ⟨rfl, rfl⟩
    refine .leaf rfl nofun nofun nofun (by simp [label?, hσ]) (by simp [goto?, hσ]) (hσ.1 ▸ hn) ?_
    cases inWhen <;> simp [InStep, gap, Scan.emit]
  | .when thn els, inLoop, inWhen, σ, g, _, hx, hn => by
    have hmem : .when thn els ∈ withinAll [.when thn els] := by simp
    obtain ⟨hthn, hels⟩ := List.append_eq_nil_iff.mp (hx.2 _ hmem)
    have hsub : Unhidden true thn ∧ Unhidden true els := by
      refine ⟨⟨fun _ => hthn, fun y hy => hx.2 y ?_⟩, ⟨fun _ => hels, fun y hy => hx.2 y ?_⟩⟩
      all_goals simp [hy]
    have hstart (σ : Scan) : InStep true σ none := rfl
    simp only [scan, judged_bind, judged_pure]
    refine (scanAll_judged thn (hstart σ) hsub.1 hn).mono (fun σ₁ h₁ => ?_) fun r hr =>
      (ahead_when hthn hels).mpr (.inl hr)
    have hlabels : σ₁.labels = σ.labels := by rw [h₁.labels_eq, hthn, List.append_nil]
    refine (scanAll_judged els (hstart σ₁) hsub.2 h₁.nodup).mono (fun σ₂ h₂ => ?_) fun r hr =>
      (ahead_when hthn hels).mpr (.inr (hlabels ▸ hr))
    refine ⟨?_, ?_, ?_, fun r hr => ?_⟩
    · have : (σ₂.emit inWhen).labels = σ₂.labels := by cases inWhen <;> rfl
      rw [this, h₂.labels_eq, h₁.labels_eq, labels_when, List.append_assoc]
    · have : (σ₂.emit inWhen).targets = σ₂.targets := by cases inWhen <;> rfl
      rw [this, h₂.targets_eq, h₁.targets_eq, targets_when, List.append_assoc]
    · cases inWhen <;> simp [InStep, gap, Scan.emit]
    · rcases (ahead_when hthn hels).mp hr with hr | hr
      · exact h₁.clean r hr
      · exact h₂.clean r (hlabels ▸ hr)
  | .cut, inLoop, inWhen, σ, g, _, _, hn => by
    rw [scan, judged_cut]
    refine ⟨fun hw => nested_ahead hw rfl, fun hw => ?_⟩
    exact .leaf rfl nofun nofun (fun _ => hw) (by simp [label?]) (by simp [goto?]) hn
      (inStep_cut rfl)
  | .ifThen body, inLoop, inWhen, σ, g, _, hx, hn => by
    simp only [scan, judged_bind, judged_cut, judged_pure]
    refine ⟨fun hw => nested_ahead hw rfl, fun hw => ?_⟩
    subst hw
    refine (scanAll_judged body (inStep_fresh σ) hx.ifThen hn).mono (fun σ₁ h₁ => ?_) fun r hr =>
      ahead_ifThen.mpr (.inr hr)
    refine ⟨nofun, fun _ => ⟨by simpa using h₁.labels_eq, by simpa using h₁.targets_eq,
      ⟨rfl, rfl, rfl⟩, fun r hr => ?_⟩⟩
    exact h₁.clean r ((ahead_ifThen.mp hr).resolve_left (by simp))
  | .orElse body, inLoop, inWhen, σ, g, hg, hx, hn => by
    rw [scan]
    split
    · next hclosed =>
      simp only [judged_bind, judged_cut]
      have hstart : InStep inWhen { σ with closed := false } none := inStep_cut rfl
      refine (scanAll_judged body hstart hx.orElse hn).mono (fun σ₁ h₁ => ?_) fun r hr =>
        ahead_orElse.mpr (.inr (.inr hr))
      refine ⟨fun hw => nested_ahead hw rfl, fun hw => ?_⟩
      subst hw
      refine ⟨by simpa using h₁.labels_eq, by simpa using h₁.targets_eq, inStep_cut rfl,
        fun r hr => ?_⟩
      rcases ahead_orElse.mp hr with ⟨-, hr⟩ | ⟨-, hr⟩ | hr
      · exact hr (hg.attached.mpr hclosed)
      · simp at hr
      · exact h₁.clean r hr
    · next hclosed =>
      rw [judged_error]
      refine ahead_orElse.mpr (.inl ⟨rfl, ?_⟩)
      cases inWhen with
      | true =>
        obtain rfl : g = none := hg
        rintro ⟨n, h, -⟩
        simp at h
      | false => exact fun h => hclosed (hg.attached.mp h)
  | .loop body, inLoop, inWhen, σ, g, _, hx, hn => by
    simp only [scan, judged_bind, judged_cut]
    refine ⟨fun hw => nested_ahead hw rfl, fun hw => ?_⟩
    subst hw
    refine (scanAll_judged body (inStep_fresh σ) hx.loop hn).mono (fun σ₁ h₁ => ?_) fun r hr =>
      ahead_loop.mpr (.inr hr)
    refine ⟨nofun, fun _ => ⟨by simpa using h₁.labels_eq, by simpa using h₁.targets_eq,
      inStep_cut rfl, fun r hr => ?_⟩⟩
    exact h₁.clean r ((ahead_loop.mp hr).resolve_left (by simp))
  | .breakLoop, inLoop, inWhen, σ, g, _, _, hn => by
    simp only [scan, judged_bind, judged_cut]
    refine ⟨fun hw => nested_ahead hw rfl, fun hw => ?_⟩
    cases inLoop with
    | true =>
      exact .leaf rfl (fun _ => rfl) nofun (fun _ => hw) (by simp [label?]) (by simp [goto?]) hn
        (inStep_cut rfl)
    | false => exact ⟨rfl, .breakLoop, List.mem_cons_self, rfl⟩
  | .nextRound, inLoop, inWhen, σ, g, _, _, hn => by
    rw [scan]
    cases inLoop with
    | true =>
      rw [if_pos rfl, judged_cut]
      refine ⟨fun hw => nested_ahead hw rfl, fun hw => ?_⟩
      exact .leaf rfl (fun _ => rfl) nofun (fun _ => hw) (by simp [label?]) (by simp [goto?]) hn
        (inStep_cut rfl)
    | false => exact ⟨rfl, .nextRound, List.mem_cons_self, rfl⟩
  | .label name, inLoop, inWhen, σ, g, hg, hx, hn => by
    have hw : inWhen = false := by
      cases inWhen with
      | true => exact absurd (hx.1 rfl) (List.cons_ne_nil name [])
      | false => rfl
    subst hw
    rw [scan]
    split
    · next hdup =>
      rw [judged_error]
      simp [Rule.Ahead, labels, within, label?, List.nodup_append, hdup, hn]
    · next hdup =>
      have hn' : (σ.labels ++ [name]).Nodup :=
        List.nodup_append.mpr ⟨hn, List.nodup_singleton name, by grind⟩
      have hleaf {σ' : Scan} (hl : σ'.labels = σ.labels ++ [name]) (ht : σ'.targets = σ.targets)
          (hs : InStep false σ' (gap g (.label name))) :
          Passed inLoop false g σ [.label name] σ' :=
        .leaf rfl nofun nofun nofun hl (by simp [goto?, ht]) (hl ▸ hn') hs
      rw [Scan.flush]
      split
      · next hwait =>
        simp only [Scan.cut, Bool.false_eq_true, if_false, judged_bind, judged_ok, judged_pure]
        exact hleaf rfl rfl (hg.label_cut hwait rfl)
      · next hwait =>
        simp only [judged_bind, judged_ok, judged_pure]
        exact hleaf rfl rfl (hg.label (by simpa using hwait) rfl rfl rfl)
  | .goto name, inLoop, inWhen, σ, g, _, _, hn => by
    simp only [scan, judged_bind, judged_cut, judged_pure]
    refine ⟨fun hw => nested_ahead hw rfl, fun hw => ?_⟩
    exact .leaf rfl nofun nofun (fun _ => hw) (by simp [label?]) (by simp [goto?]) hn
      (inStep_cut rfl)
  | .ret, inLoop, inWhen, σ, g, _, _, _ => by
    rw [scan, judged_error]
    exact List.mem_cons_self

theorem scanAll_judged : ∀ (xs : List Shape) {inLoop inWhen : Bool} {σ : Scan} {g : Option Nat},
    InStep inWhen σ g → Unhidden inWhen xs → σ.labels.Nodup →
      Judged (scanAll inLoop inWhen σ xs) (Passed inLoop inWhen g σ xs)
        (Rule.Ahead inLoop inWhen g σ.labels xs)
  | [], inLoop, inWhen, σ, g, hg, hx, hn => by
    rw [scanAll, judged_ok]
    refine ⟨by simp, by simp, hg, fun r hr => ?_⟩
    cases r <;> simp_all [Rule.Ahead, Rule.BrokenBy, withinAll, unloopedAll, bodiesAll]
  | x :: rest, inLoop, inWhen, σ, g, hg, hx, hn => by
    rw [scanAll, judged_bind]
    refine (scan_judged x hg hx.head hn).mono (fun σ₁ h₁ => ?_) fun r hr => ahead_cons.mpr (.inl hr)
    refine (scanAll_judged rest h₁.inStep hx.tail h₁.nodup).mono (fun σ₂ h₂ => ?_) fun r hr => ?_
    · refine ⟨?_, ?_, h₂.inStep, fun r hr => ?_⟩
      · rw [h₂.labels_eq, h₁.labels_eq, labels_cons x rest, List.append_assoc]
      · rw [h₂.targets_eq, h₁.targets_eq, targets_cons x rest, List.append_assoc]
      · rcases ahead_cons.mp hr with hr | hr
        · exact h₁.clean r hr
        · exact h₂.clean r (h₁.labels_eq ▸ hr)
    · exact ahead_cons.mpr (.inr (h₁.labels_eq ▸ hr))

end

/-- From the start of a program, the rules ahead are all rules but the one about targets. -/
theorem ahead_start : r.Ahead false false none [] xs ↔ r ≠ .unknownState ∧ r.BrokenBy xs := by
  cases r <;> simp [Rule.Ahead, Rule.BrokenBy, dangles_iff]

/-- The scan of a whole program: the names that it jumps to have to be given somewhere. -/
def verdict (xs : List Shape) : Except Rule Scan := do
  let σ ← scanAll false false {} xs
  if ∀ name ∈ σ.targets, name ∈ σ.labels then return σ else .error .unknownState

/-- The scan passes a program that breaks no rule, and stops with a rule that is broken. -/
theorem verdict_judged (h : LabelsOpen xs) :
    Judged (verdict xs) (fun _ => ∀ r : Rule, ¬ r.BrokenBy xs) fun r => r.BrokenBy xs := by
  have hstart : InStep false ({} : Scan) none := inStep_cut rfl
  rw [verdict, judged_bind]
  refine (scanAll_judged xs hstart ⟨nofun, h⟩ .nil).mono (fun σ hσ => ?_) fun r hr =>
    (ahead_start.mp hr).2
  have hlabels : σ.labels = labels xs := hσ.labels_eq
  have htargets : σ.targets = targets xs := hσ.targets_eq
  rw [hlabels, htargets]
  split
  · next hknown =>
    intro r hr
    by_cases hne : r = .unknownState
    · subst hne
      obtain ⟨name, hname, hno⟩ := hr
      exact hno (hknown name hname)
    · exact hσ.clean r (ahead_start.mpr ⟨hne, hr⟩)
  · next hunknown =>
    simpa [Rule.BrokenBy] using hunknown

/-- The rules are decided by the scan. -/
theorem verdict_isOk (h : LabelsOpen xs) :
    (verdict xs).isOk = true ↔ ∀ r : Rule, ¬ r.BrokenBy xs := by
  have hjudged := verdict_judged h
  cases hv : verdict xs with
  | ok σ =>
    rw [hv] at hjudged
    exact ⟨fun _ => hjudged, fun _ => rfl⟩
  | error r =>
    rw [hv] at hjudged
    exact ⟨nofun, fun hclean => absurd hjudged (hclean r)⟩

end Shape

end Lockstep.Program
