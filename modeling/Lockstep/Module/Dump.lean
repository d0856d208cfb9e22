import Lockstep.Module
import Lockstep.Text.Columns

/-!
# Text of a module

A listing of ports, signals in the order of their names, and processes, with expressions in a
compact form: `8'd5` is the number 5 in eight bits.
-/

namespace Lockstep

namespace Symbols

def exprText (s : Symbols) : Expr → String
  | .hole => "<nil>"
  | .ref i => s.signalName i
  | .lit v t =>
    let width := match s.type? t with
      | some t => t.width
      | none => 0
    toString width ++ "'d" ++ toString (s.literal v)
  | .bin op l r => "(" ++ s.exprText l ++ " " ++ op.symbol ++ " " ++ s.exprText r ++ ")"
  | .cmp p l r => "(" ++ s.exprText l ++ " " ++ p.symbol ++ " " ++ s.exprText r ++ ")"
  | .not e => "~" ++ s.exprText e
  | .index i e => s.signalName i ++ "[" ++ s.exprText e ++ "]"

mutual

def stmtLines (s : Symbols) (level : Nat) : Statement → List String
  | .blank => [Text.indent level ++ "<unknown stmt <nil>>"]
  | .assign dest index value =>
    let slot := match index with
      | some i => "[" ++ s.exprText i ++ "]"
      | none => ""
    [Text.indent level ++ s.signalName dest ++ slot ++ " <= " ++ s.exprText value]
  | .cond test thn els =>
    (Text.indent level ++ "if " ++ s.exprText test) :: s.blockLines (level + 1) thn ++
      (if els.isEmpty then []
       else (Text.indent level ++ "else") :: s.blockLines (level + 1) els)
  | .case selector arms otherwise =>
    (Text.indent level ++ "case " ++ s.exprText selector) :: s.armLines level arms ++
      (if otherwise.isEmpty then []
       else (Text.indent (level + 1) ++ "default") :: s.blockLines (level + 2) otherwise)

def blockLines (s : Symbols) (level : Nat) : List Statement → List String
  | [] => []
  | st :: rest => s.stmtLines level st ++ s.blockLines level rest

def armLines (s : Symbols) (level : Nat) :
    List (UInt64 × List Statement) → List String
  | [] => []
  | (v, body) :: rest =>
    (Text.indent (level + 1) ++ "when " ++ toString v) :: s.blockLines (level + 2) body ++
      s.armLines level rest

end

def triggerText (s : Symbols) : Trigger → String
  | .combinational => "combinational"
  | .clocked (some { edge := .rising, signal := some i }) =>
    "sequential posedge " ++ s.signalName i
  | .clocked (some { edge := .falling, signal := some i }) =>
    "sequential negedge " ++ s.signalName i
  | .clocked _ => "sequential"

def signalLine (s : Symbols) (g : Signal) : String :=
  let extra := match g.kind with
    | .const => " = " ++ toString g.value
    | .memory => " [" ++ toString g.depth ++ "]"
    | _ => ""
  "    " ++ Text.padRight 12 g.name ++ " " ++ Text.padRight 6 g.kind.word ++ " " ++
    (s.type? g.type).describe ++ extra

end Symbols

namespace Module

def portLines (m : Module) : List String :=
  if m.ports.isEmpty then []
  else "  ports:" :: m.ports.toList.map fun p =>
    "    " ++ p.direction.word ++ " " ++ p.name ++ " " ++ (m.symbols.type? p.type).describe

def signalLines (m : Module) : List String :=
  match m.declared with
  | [] => []
  | ids => "  signals:" :: ids.map fun i =>
    m.symbols.signalLine (m.symbols.signals[i]?.getD default)

def processLines (m : Module) (n : Nat) (p : Process) : List String :=
  ("  process " ++ toString n ++ " " ++ p.name ++ " (" ++ m.symbols.triggerText p.trigger ++ ")")
    :: m.symbols.blockLines 2 p.body

def dump (m : Module) : String :=
  Text.lines <|
    ("module " ++ m.name) :: m.portLines ++ m.signalLines ++
      (m.processes.toList.zipIdx.flatMap fun (p, n) => m.processLines n p)

end Module

/-- A design is a list of modules, each followed by an empty line. -/
def dumpDesign : Option (List Module) → String
  | none => "<nil design>\n"
  | some ms => ms.foldl (fun acc m => acc ++ m.dump ++ "\n") ""

end Lockstep
