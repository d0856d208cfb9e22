import Lockstep.Machine.Table

/-!
# Outlines and archives

The state table written out as nested records, one field to a line; and an archive of text files,
each under a line with its name.
-/

namespace Lockstep.Machine

private def edgeOutline (f : Machine) (g : Symbols) (e : Edge) : List String :=
  ["      fsm.Edge\x7b",
   "        Cond: " ++ Text.quoted (e.guard.text g) ++ ",",
   "        To:   " ++ toString (f.edgeIndex e) ++ ",",
   "        Expr: " ++ Text.quoted (f.edgeNote g e) ++ ",",
   "      \x7d,"]

private def rowOutline (f : Machine) (g : Symbols) (r : Row) : List String :=
  ["  fsm.Row\x7b",
   "    Index: " ++ toString r.index ++ ",",
   "    Code:  " ++ toString r.code ++ ",",
   "    Name:  " ++ Text.quoted r.name ++ ",",
   "    Edges: []fsm.Edge\x7b"] ++
    r.edges.flatMap (edgeOutline f g) ++
  ["    \x7d,",
   "  \x7d,"]

/-- The table as nested records. -/
def outline (f : Machine) (g : Symbols) : String :=
  Text.lines (["[]fsm.Row\x7b"] ++ f.table.flatMap (rowOutline f g) ++ ["\x7d"])

end Lockstep.Machine

namespace Lockstep.Text

/-- Text of a file, with its last line ended. -/
def ended (s : String) : String :=
  if s.isEmpty || s.endsWith "\n" then s else s ++ "\n"

/-- A comment, then each file under its name. -/
def archive (comment : String) (files : List (String × String)) : String :=
  files.foldl (fun acc (name, text) => acc ++ "-- " ++ name ++ " --\n" ++ ended text)
    (ended comment)

end Lockstep.Text

namespace Lockstep

/-- The listing and the state table of every module, in one archive. -/
def compiledArchive (encoding : Encoding) (parts : List (Module × Machine)) : String :=
  Text.archive ("hdlc compile -emit txtar -encoding " ++ encoding.word ++ "\n") <|
    parts.flatMap fun (m, f) =>
      [(m.name ++ ".ir", m.dump), (m.name ++ ".states", f.tableText m.symbols)]

end Lockstep
