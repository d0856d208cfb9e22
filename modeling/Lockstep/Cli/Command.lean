import Lockstep.AddressMap
import Lockstep.Catalog
import Lockstep.Cli.Flags
import Lockstep.Cli.Host
import Lockstep.Machine.Outline
import Lockstep.Text.Blank
import Lockstep.WidthCheck

/-!
# Commands

The command line over the bundled designs: list them, compile one to a listing, a state table or an
archive, run one to completion, and assign addresses to its registers.
-/

namespace Lockstep.Cli

inductive Error where
  | missingCommand
  | unknownCommand (name : String)
  | flags (e : FlagError)
  | missingDesign (command : String)
  | unknownEncoding (name : String)
  | unknownDesign (name : String)
  | unknownEmit (name : String)
  | allNeedsArchive
  | program (design : String) (e : Program.Error)
  | check (e : WidthCheck.Error)
  | bench (e : Bench.Error)
  | addressMap (e : AddressMap.Error)
  | allocation (design : String) (e : AddressMap.Error)
  | output (e : FileError)
  | expectFile (e : FileError)
  | outputMismatch (expected actual : String)

def Error.message : Error → String
  | .missingCommand => "missing command"
  | .unknownCommand name => "unknown command: " ++ name
  | .flags e => e.message
  | .missingDesign command => command ++ " requires -design"
  | .unknownEncoding name => "unknown encoding: " ++ name
  | .unknownDesign name => "unknown design: " ++ name ++ " (see hdlc list)"
  | .unknownEmit name => "unknown emit format: " ++ name
  | .allNeedsArchive => "-design all requires -emit txtar"
  | .program design e => design ++ ": " ++ e.message
  | .check e => e.message
  | .bench e => e.message
  | .addressMap e => e.message
  | .allocation design e => "alloc " ++ design ++ ": " ++ e.message
  | .output e => e.message
  | .expectFile e => "read expect file: " ++ e.message
  | .outputMismatch expected actual =>
    "simulator output mismatch\nexpected:\n" ++ expected ++ "\nactual:\n" ++ actual

def globalUsage : String :=
  "hdlc sequencer compiler\n\n" ++
  "Usage:\n" ++
  "  hdlc <command> [options]\n\n" ++
  "Commands:\n" ++
  "  list       List the bundled designs\n" ++
  "  compile    Elaborate a design and emit its IR or state table\n" ++
  "  sim        Elaborate a design and run it to completion\n" ++
  "  alloc      Assign register addresses for a design\n"

def outputFlag : Flag := ⟨"o", .text "", "output file path (stdout when omitted)"⟩

def encodingFlag : Flag := ⟨"encoding", .text "binary", "state encoding (binary|onehot)"⟩

def formatFlag : Flag :=
  ⟨"diag-format", .text "text", "diagnostic output format (text|json)"⟩

def designFlag (help : String) : Flag := ⟨"design", .text "", help⟩

def listFlags : List Flag := [outputFlag]

def compileFlags : List Flag :=
  [designFlag "design name, or all (txtar only)",
   formatFlag,
   ⟨"emit", .text "ir", "output format (ir|states|txtar)"⟩,
   encodingFlag,
   outputFlag,
   ⟨"v", .switch false, "print elaboration notes"⟩]

def simFlags : List Flag :=
  [⟨"cycles", .int 1000, "maximum clock cycles to run after start"⟩,
   designFlag "design name",
   formatFlag,
   encodingFlag,
   ⟨"expect", .text "", "path to file containing expected simulator stdout (optional)"⟩,
   outputFlag,
   ⟨"trace", .text "", "comma-separated signals to print after every cycle"⟩]

def allocFlags : List Flag :=
  [designFlag "design name",
   ⟨"first", .uint 0, "first address of the range"⟩,
   ⟨"last", .uint 0xffff, "last address of the range"⟩,
   outputFlag,
   ⟨"word", .int 32, "word size in bits"⟩]

/-- An empty name stands for the binary encoding. -/
def readEncoding (name : String) : Except Error Encoding :=
  if name = "" then .ok .binary
  else
    match Encoding.ofWord? name with
    | some e => .ok e
    | none => .error (.unknownEncoding name)

/-- A design ready for use, or why there is none, with all that was reported. -/
def buildDesign (name : String) (encoding : Encoding) (reporter : Reporter) :
    Except Error Design.Product × Reporter :=
  match Catalog.find? name with
  | none => (.error (.unknownDesign name), reporter)
  | some d =>
    match d.build encoding (some reporter) with
    | (.error e, r) => (.error (.program name e), r.getD reporter)
    | (.ok product, r) =>
      match WidthCheck.accept product.module r with
      | (some e, r) => (.error (.check e), r.getD reporter)
      | (none, r) => (.ok product, r.getD reporter)

/-- Builds designs in order, up to the first that fails. -/
def buildAll (encoding : Encoding) :
    List String → Reporter → Except Error (List Design.Product) × Reporter
  | [], reporter => (.ok [], reporter)
  | name :: rest, reporter =>
    match buildDesign name encoding reporter with
    | (.error e, r) => (.error e, r)
    | (.ok product, r) =>
      let (result, r) := buildAll encoding rest r
      (result.map (product :: ·), r)

/-- The text of the compiled designs in the format asked for. -/
def emitted (emit : String) (encoding : Encoding) (products : List Design.Product) :
    Except Error String :=
  let first := products.headD default
  match emit with
  | "ir" => .ok (dumpDesign (some [first.module]))
  | "states" => .ok (first.sequencer.machine.outline first.module.symbols)
  | "txtar" =>
    .ok (compiledArchive encoding (products.map fun p => (p.module, p.sequencer.machine)))
  | name => .error (.unknownEmit name)

/-- The trace of a run: its text, and the first value that could not be read. -/
structure Trace where
  text : String := ""
  error : Option Sim.Error := none

/-- The values of the traced signals, up to the first that cannot be read. -/
def traceValues (s : Sim) : List String → Trace → Trace
  | [], t => { t with text := t.text ++ "\n" }
  | name :: rest, t =>
    match s.value name with
    | .error e => { t with error := some e }
    | .ok v => traceValues s rest { t with text := t.text ++ " " ++ name ++ "=" ++ toString v.toNat }

def traceCycle (names : List String) (t : Trace) (s : Sim) (n : Nat) : Trace :=
  if names.isEmpty || t.error.isSome then t
  else traceValues s names { t with text := t.text ++ toString n ++ ":" }

/-- One line for each expected output, with its value at the end. -/
def finalValues (s : Sim) : List Bench.Expectation → Except Error String
  | [] => .ok ""
  | e :: rest =>
    match s.get e.signal with
    | .error err => .error (.bench (.sim err))
    | .ok v =>
      (finalValues s rest).map fun t => e.signal ++ "=" ++ toString v ++ "\n" ++ t

/-- Runs a design and gives the report of the run with the simulation at its end. -/
def simulate (p : Design.Product) (cycles : Int) (traced : List String) :
    Except Error (String × Sim) :=
  let outcome := Bench.run (traceCycle traced) p.module cycles {}
  match outcome.error, outcome.seen.error, outcome.sim with
  | some e, _, _ => .error (.bench e)
  | none, some e, _ => .error (.bench (.sim e))
  | none, none, none => .error (.bench (.timeout p.module.name cycles))
  | none, none, some s =>
    (finalValues s p.expect).map fun values =>
      (outcome.seen.text ++ p.module.name ++ " finished after " ++ toString outcome.ticks ++
        " cycles\n" ++ values, s)

/-- The address of every register and memory of a module. -/
def addressText (m : Module) (wordSize : Int) (first last : UInt64) : Except Error String :=
  match AddressMap.create wordSize first last with
  | .error e => .error (.addressMap e)
  | .ok a =>
    let wanted := m.declared.filter fun i =>
      m.symbols.signalKind i = .reg || m.symbols.signalKind i = .memory
    match a.allocateAll m.symbols wanted with
    | .error e => .error (.allocation m.name e)
    | .ok a =>
      let entry (e : AddressMap.Entry) : String :=
        let words := match a.size m.symbols e.signal with
          | .ok n => n
          | .error _ => 0
        Text.padRight 16 (m.symbols.signalName e.signal) ++ " " ++ Text.address e.address.toNat ++
          " " ++ toString words
      .ok (Text.lines (a.entries.map entry ++ ["head " ++ Text.address a.head.toNat]))

section

variable {m : Type → Type} [Monad m] [Host m]

abbrev CommandM (m : Type → Type) := ExceptT Error m

def printError (s : String) : CommandM m Unit := ExceptT.lift (Host.complain s)

/-- Writes the output to a file, or to the screen. -/
def writeOutput (path text : String) : CommandM m Unit := do
  if path = "" || path = "-" then ExceptT.lift (Host.print text)
  else
    match ← ExceptT.lift (Host.save (m := m) path text) with
    | none => return ()
    | some e => throw (.output e)

def parseFlags (command : String) (flags : List Flag) (args : List String) :
    CommandM m Settings := do
  match readFlags { flags } args with
  | .ok s => return s
  | .error e =>
    if e ≠ .help then printError (e.message ++ "\n")
    printError (usage command flags)
    throw (.flags e)

def requireDesign (command : String) (s : Settings) : CommandM m String := do
  let name := s.text "design"
  if name = "" then
    printError (usage command s.flags)
    throw (.missingDesign command)
  return name

def runList (args : List String) : CommandM m Unit := do
  let s ← parseFlags "list" listFlags args
  writeOutput (s.text "o") <|
    Text.lines (Catalog.all.map fun d => Text.padRight 12 d.name ++ " " ++ d.summary)

def runCompile (args : List String) : CommandM m Unit := do
  let s ← parseFlags "compile" compileFlags args
  let name ← requireDesign "compile" s
  let encoding ← MonadExcept.ofExcept (readEncoding (s.text "encoding"))
  let reporter := { Reporter.forFormat (s.text "diag-format") with verbose := s.switch "v" }
  let emit := s.text "emit"
  if name = "all" && emit ≠ "txtar" then throw .allNeedsArchive
  let names := if name = "all" then Catalog.all.map Design.name else [name]
  let (result, reporter) := buildAll encoding names reporter
  printError reporter.printed
  let products ← MonadExcept.ofExcept result
  writeOutput (s.text "o") (← MonadExcept.ofExcept (emitted emit encoding products))

def runSim (args : List String) : CommandM m Unit := do
  let s ← parseFlags "sim" simFlags args
  let name ← requireDesign "sim" s
  let encoding ← MonadExcept.ofExcept (readEncoding (s.text "encoding"))
  let (result, reporter) := buildDesign name encoding (.forFormat (s.text "diag-format"))
  printError reporter.printed
  let product ← MonadExcept.ofExcept result
  let (text, sim) ← MonadExcept.ofExcept
    (simulate product (s.int "cycles") (Text.splitList (s.text "trace")))
  writeOutput (s.text "o") text
  if let some e := Bench.check sim product.expect then throw (.bench e)
  let path := s.text "expect"
  if path ≠ "" then
    match ← ExceptT.lift (Host.load (m := m) path) with
    | .error e => throw (.expectFile e)
    | .ok want =>
      if Text.trim text ≠ Text.trim want then throw (.outputMismatch want text)

def runAlloc (args : List String) : CommandM m Unit := do
  let s ← parseFlags "alloc" allocFlags args
  let name ← requireDesign "alloc" s
  let (result, reporter) := buildDesign name .binary (.forFormat "text")
  printError reporter.printed
  let product ← MonadExcept.ofExcept result
  let text ← MonadExcept.ofExcept (addressText product.module (s.int "word")
    (UInt64.ofNat (s.uint "first")) (UInt64.ofNat (s.uint "last")))
  writeOutput (s.text "o") text

/-- Runs a command line. -/
def run (args : List String) : CommandM m Unit := do
  match args with
  | "list" :: rest => runList rest
  | "compile" :: rest => runCompile rest
  | "sim" :: rest => runSim rest
  | "alloc" :: rest => runAlloc rest
  | [] =>
    printError globalUsage
    throw .missingCommand
  | name :: _ =>
    printError globalUsage
    throw (.unknownCommand name)

end

end Lockstep.Cli
