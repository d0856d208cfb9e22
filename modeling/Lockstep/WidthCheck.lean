import Lockstep.Diagnostic
import Lockstep.Module.Dump

/-!
# Width check

Findings about the widths of a design: signals without a resolved width, values that lose bits or
change sign when they are assigned, operands that mix signedness. Unresolved or impossible widths
are errors, possible losses are warnings.
-/

namespace Lockstep.WidthCheck

inductive Finding where
  | unresolved (signal : String)
  | tooWide (signal : String) (width : Int)
  | memoryDepth (signal : String) (depth : Int)
  | caseValue (module : String) (value : UInt64) (selector : String)
  | indexedWrite (signal : String)
  | indexedRead (signal : String)
  | truncates (signal value : String) (src dst : SignalType)
  | changesSign (signal value : String) (src dst : SignalType)
  | mixedOperands (module expr : String)
  | mixedCompare (module expr : String)
deriving DecidableEq, Repr, Inhabited

namespace Finding

def severity : Finding → Severity
  | .unresolved _ | .tooWide .. | .memoryDepth .. | .caseValue .. | .indexedWrite _
  | .indexedRead _ => .error
  | .truncates .. | .changesSign .. | .mixedOperands .. | .mixedCompare .. => .warning

def place : Finding → String
  | .unresolved s | .tooWide s _ | .memoryDepth s _ | .caseValue s _ _ | .indexedWrite s
  | .indexedRead s | .truncates s _ _ _ | .changesSign s _ _ _ | .mixedOperands s _
  | .mixedCompare s _ => s

def message : Finding → String
  | .unresolved _ => "width is unresolved"
  | .tooWide _ w => "width " ++ toString w ++ " exceeds " ++ toString maxWidth ++ " bits"
  | .memoryDepth _ d => "memory depth " ++ toString d
  | .caseValue _ v sel => "case value " ++ toString v ++ " does not fit selector " ++ sel
  | .indexedWrite _ => "indexed assignment to a non-memory signal"
  | .indexedRead _ => "indexed read of a non-memory signal"
  | .truncates _ e src dst =>
    "assignment from " ++ e ++ " (" ++ src.describe ++ ") truncates to " ++ dst.describe
  | .changesSign _ e src dst =>
    "assignment from " ++ e ++ " (" ++ src.describe ++ ") changes signedness to " ++
      dst.describe
  | .mixedOperands _ e => "mixed signed/unsigned operands in " ++ e
  | .mixedCompare _ e => "mixed signed/unsigned compare " ++ e

def isError (f : Finding) : Bool := f.severity == .error

def diagnostic (f : Finding) : Diagnostic := ⟨f.severity, f.place, f.message⟩

end Finding

def checkSignal (s : Symbols) (g : Signal) : List Finding :=
  match s.type? g.type with
  | none => [.unresolved g.name]
  | some t =>
    if t.isUnknown then [.unresolved g.name]
    else
      (if (maxWidth : Int) < t.width then [.tooWide g.name t.width] else []) ++
        (if g.kind = .memory && g.depth ≤ 0 then [.memoryDepth g.name g.depth] else [])

section

variable (s : Symbols) (module : String)

def checkExpr : Expr → List Finding
  | .hole | .ref _ | .lit .. => []
  | .bin op l r =>
    checkExpr l ++ checkExpr r ++
      (if op.isShift || (s.typeOf l).signCompatible (s.typeOf r) then []
       else [.mixedOperands module (s.exprText (.bin op l r))])
  | .cmp p l r =>
    checkExpr l ++ checkExpr r ++
      (if (s.typeOf l).signCompatible (s.typeOf r) then []
       else [.mixedCompare module (s.exprText (.cmp p l r))])
  | .not e => checkExpr e
  | .index i e =>
    checkExpr e ++ (if s.isMemory i then [] else [.indexedRead (s.signalName i)])

/-- What is lost when `value` is stored in `dest`. -/
def checkStore (dest : SignalId) (value : Expr) : List Finding :=
  match s.typeOf value, s.signalType dest with
  | some src, some dst =>
    (if src.fitsWithin dst then []
     else [.truncates (s.signalName dest) (s.exprText value) src dst]) ++
      (if src.signCompatible dst then []
       else [.changesSign (s.signalName dest) (s.exprText value) src dst])
  | _, _ => []

def checkAssign (dest : SignalId) (index : Option Expr) (value : Expr) : List Finding :=
  checkExpr s module value ++
    (match index with
     | none => []
     | some i =>
       checkExpr s module i ++
         (if s.isMemory dest then [] else [.indexedWrite (s.signalName dest)])) ++
    checkStore s dest value

/-- A case value that the selector cannot have. -/
def checkArmValue (selector : Expr) (v : UInt64) : List Finding :=
  match s.typeOf selector with
  | some t =>
    if 0 ≤ t.width && t.width < 64 && v.toNat >>> t.width.toNat != 0 then
      [.caseValue module v (s.exprText selector)]
    else []
  | none => []

mutual

def checkStmt : Statement → List Finding
  | .blank => []
  | .assign dest index value => checkAssign s module dest index value
  | .cond test thn els => checkExpr s module test ++ checkBlock thn ++ checkBlock els
  | .case selector arms otherwise =>
    checkExpr s module selector ++ checkArms selector arms ++ checkBlock otherwise

def checkBlock : List Statement → List Finding
  | [] => []
  | st :: rest => checkStmt st ++ checkBlock rest

def checkArms (selector : Expr) : List (UInt64 × List Statement) → List Finding
  | [] => []
  | (v, body) :: rest =>
    checkArmValue s module selector v ++ checkBlock body ++ checkArms selector rest

end

end

/-- The findings about one module: its signals in the order of their names, then its processes. -/
def findings (m : Module) : List Finding :=
  (m.declared.flatMap fun i => checkSignal m.symbols (m.symbols.signals[i]?.getD default)) ++
    m.processes.toList.flatMap fun p => checkBlock m.symbols m.name p.body

section

variable (s : Symbols)

/-- All types that checking the expression asks for can be computed. -/
def checkableExpr : Expr → Bool
  | .hole | .ref _ | .lit .. => true
  | .bin op l r =>
    checkableExpr l && checkableExpr r && (op.isShift || (s.typed l && s.typed r))
  | .cmp _ l r => checkableExpr l && checkableExpr r && s.typed l && s.typed r
  | .not e => checkableExpr e
  | .index _ e => checkableExpr e

mutual

def checkable : Statement → Bool
  | .blank => true
  | .assign _ index value =>
    checkableExpr s value && index.all (checkableExpr s) && s.typed value
  | .cond test thn els => checkableExpr s test && checkableBlock thn && checkableBlock els
  | .case selector arms otherwise =>
    checkableExpr s selector && (s.knownType selector).isSome && checkableArms arms &&
      checkableBlock otherwise

def checkableBlock : List Statement → Bool
  | [] => true
  | st :: rest => checkable st && checkableBlock rest

def checkableArms : List (UInt64 × List Statement) → Bool
  | [] => true
  | (_, body) :: rest => checkableBlock body && checkableArms rest

end

end

def checkableModule (m : Module) : Bool :=
  m.processes.all fun p => checkableBlock m.symbols p.body

inductive Error where
  | noDesign
  | found (errors : Nat)
  /-- The check passed, but errors had been reported before. -/
  | reportedBefore
  /-- A type that the check needs is missing. -/
  | undefined
deriving DecidableEq, Repr, Inhabited

def Error.message : Error → String
  | .noDesign => "width-check: width check requires a non-nil design"
  | .found n => "width-check: width check reported " ++ toString n ++ " error(s)"
  | .reportedBefore => "analysis passes reported errors"
  | .undefined => "width-check: undefined expression"

/-- Checks the modules of a design and reports every finding. A module may be missing. -/
def run (design : Option (List (Option Module))) (reporter : Option Reporter) :
    Option Error × Option Reporter :=
  match design with
  | none => (some .noDesign, reporter)
  | some modules =>
    let present := modules.filterMap id
    if present.all checkableModule then
      let found := present.flatMap findings
      let reporter := reporter.map fun r => found.foldl (fun r f => r.report f.diagnostic) r
      let errors := found.countP Finding.isError
      (if errors = 0 then none else some (.found errors), reporter)
    else (some .undefined, reporter)

/-- Runs the check a number of times, up to the first failure. -/
def runTimes (design : Option (List (Option Module))) :
    Nat → Option Reporter → Option Error × Option Reporter
  | 0, reporter => (none, reporter)
  | n + 1, reporter =>
    match run design reporter with
    | (none, reporter) => runTimes design n reporter
    | (some e, reporter) => (some e, reporter)

/-- The checks that every design passes before it is used: no finding is an error, and none was
reported before. -/
def accept (m : Module) (reporter : Option Reporter) : Option Error × Option Reporter :=
  match run (some [some m]) reporter with
  | (none, reporter) =>
    (if reporter.any Reporter.hasErrors then some .reportedBefore else none, reporter)
  | result => result

end Lockstep.WidthCheck
