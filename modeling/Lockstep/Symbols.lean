import Lockstep.Expr

/-!
# Symbols

The types, signals and late constants that expressions refer to, and the type of an
expression under them.

An expression is *typed* when its type can be computed: it is not left out, and no operation
in it has a left operand without a type. It is *defined* when all that its value depends on is
typed as well.
-/

namespace Lockstep

inductive SignalKind where
  | wire | reg | const | memory
  | unknown
deriving DecidableEq, Repr, Inhabited

namespace SignalKind

def ofCode : Int → SignalKind
  | 0 => .wire
  | 1 => .reg
  | 2 => .const
  | 3 => .memory
  | _ => .unknown

def ofWord? : String → Option SignalKind
  | "wire" => some .wire
  | "reg" => some .reg
  | "const" => some .const
  | "mem" => some .memory
  | _ => none

def word : SignalKind → String
  | .wire => "wire"
  | .reg => "reg"
  | .const => "const"
  | .memory => "mem"
  | .unknown => "?"

end SignalKind

structure Signal where
  name : String
  type : Option TypeId
  kind : SignalKind
  /-- The value of a constant. -/
  value : UInt64 := 0
  /-- The number of words of a memory. -/
  depth : Int := 0
  /-- Signals that are not declared can be referred to, but are not part of the module. -/
  declared : Bool := true
deriving Repr, Inhabited

structure Symbols where
  types : Array SignalType := #[]
  signals : Array Signal := #[]
  links : Array UInt64 := #[]
deriving Repr, Inhabited

namespace Symbols

def type? (s : Symbols) (t : Option TypeId) : TypeSlot :=
  t.bind (s.types[·]?)

def signalType (s : Symbols) (i : SignalId) : TypeSlot :=
  s.signals[i]?.bind (s.type? ·.type)

def signalName (s : Symbols) (i : SignalId) : String :=
  (s.signals[i]?.map Signal.name).getD ""

def signalKind (s : Symbols) (i : SignalId) : SignalKind :=
  (s.signals[i]?.map Signal.kind).getD .unknown

def isMemory (s : Symbols) (i : SignalId) : Bool := s.signalKind i == .memory

def literal (s : Symbols) : Literal → UInt64
  | .value v => v
  | .link i => s.links[i]?.getD 0

def typeOf (s : Symbols) : Expr → TypeSlot
  | .hole => none
  | .ref i => s.signalType i
  | .lit _ t => s.type? t
  | .bin op l r => (s.typeOf l).map (·.resultFor op (s.typeOf r))
  | .cmp .. => some .bit
  | .not e => s.typeOf e
  | .index i _ => s.signalType i

def typed (s : Symbols) : Expr → Bool
  | .hole => false
  | .bin _ l r => s.typed l && s.typed r && (s.typeOf l).isSome
  | .not e => s.typed e
  | .ref _ | .lit .. | .cmp .. | .index .. => true

def defined (s : Symbols) : Expr → Bool
  | .hole => false
  | .ref _ | .lit .. => true
  | .bin _ l r => s.defined l && s.defined r && (s.typeOf l).isSome
  | .cmp _ l r => s.defined l && s.defined r
  | .not e => s.defined e
  | .index _ i => s.defined i

/-- The type of `e`, if there is one. -/
def knownType (s : Symbols) (e : Expr) : TypeSlot :=
  if s.typed e then s.typeOf e else none

/-- The comparison of `a` and `b`. An ordering is signed when both operands are, as seen now; the
type of `b` is asked for only if `a` is signed, and a missing one gives no comparison. -/
def relate (s : Symbols) (r : Relation) (a b : Expr) : Option Expr :=
  if r.isEquality then some (.cmp r.unsigned a b)
  else do
    let ta ← s.knownType a
    if ta.signed then
      let tb ← s.knownType b
      return .cmp (if tb.signed then r.signed else r.unsigned) a b
    else
      return .cmp r.unsigned a b

def newType (s : Symbols) (t : SignalType) : TypeId × Symbols :=
  (s.types.size, { s with types := s.types.push t })

def newSignal (s : Symbols) (g : Signal) : SignalId × Symbols :=
  (s.signals.size, { s with signals := s.signals.push g })

def newLink (s : Symbols) : LinkId × Symbols :=
  (s.links.size, { s with links := s.links.push 0 })

def setLink (s : Symbols) (i : LinkId) (v : UInt64) : Symbols :=
  { s with links := s.links.setIfInBounds i v }

def setType (s : Symbols) (i : TypeId) (t : SignalType) : Symbols :=
  { s with types := s.types.setIfInBounds i t }

def setWidth (s : Symbols) (i : TypeId) (w : Int) : Symbols :=
  { s with types := s.types.modify i ({ · with width := w }) }

def modifySignal (s : Symbols) (i : SignalId) (f : Signal → Signal) : Symbols :=
  { s with signals := s.signals.modify i f }

/-- Changes the type of a signal in place, for all that share it. -/
def resize (s : Symbols) (i : SignalId) (t : SignalType) : Option Symbols :=
  (s.signals[i]?.bind Signal.type).map (s.setType · t)

/-- An unsigned number of the given width, with a type of its own. -/
def number (s : Symbols) (v : UInt64) (width : Int) : Expr × Symbols :=
  let (t, s) := s.newType (.unsigned width)
  (.const v t, s)

/-- The place of the type of `e`, to be shared with it. An operation or comparison has no type of
its own to share, so a new one is made. -/
def shareType (s : Symbols) : Expr → Option (TypeId × Symbols)
  | .hole => none
  | .ref i | .index i _ => (s.signals[i]?.bind Signal.type).map (·, s)
  | .lit _ t => t.map (·, s)
  | .not e => s.shareType e
  | e@(.bin ..) | e@(.cmp ..) => (s.knownType e).map s.newType

end Symbols

end Lockstep
