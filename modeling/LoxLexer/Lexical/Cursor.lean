import LoxLexer.Lexical.Piece
import LoxLexer.Event

namespace LoxLexer

structure Cursor where
  ahead : List Piece
  pending : Array Diagnostic
  lastLine : Nat

structure Scan where
  tokens : List Token
  diagnostics : List Diagnostic
  deriving DecidableEq

namespace Cursor

def ofSource (source : Text) : Cursor := ⟨pieces 1 source, #[], 1 + source.lineFeeds⟩

def nextFrom (lastLine : Nat) (pending : Array Diagnostic) : List Piece → Option Item × Cursor
  | [] => (none, ⟨[], pending, lastLine⟩)
  | p :: rest =>
    match p.item? with
    | some item => (some item, ⟨rest, pending ++ p.warnings, lastLine⟩)
    | none => nextFrom lastLine (pending ++ p.warnings) rest

def next (c : Cursor) : Option Item × Cursor := nextFrom c.lastLine c.pending c.ahead

def items (c : Cursor) : List Item × Cursor :=
  (c.ahead.filterMap Piece.item?, ⟨[], c.pending ++ c.ahead.flatMap Piece.warnings, c.lastLine⟩)

def finish (c : Cursor) : Scan where
  tokens := c.ahead.filterMap Piece.token? ++ [.endOfInput c.lastLine]
  diagnostics := c.pending.toList ++ c.ahead.flatMap Piece.diagnostics

def itemEvent : Item → Event
  | .token t => .scanned t
  | .fault f => .reported (.ofFault f)

def alarm (p : Piece) : List Event :=
  if p.shape = .openComment then [.ranOut p.line] else []

/-- Warnings are reported together, just before the next item or at the end. A comment that runs out
is told of before them. -/
def eventsOnto (told : Array Event) (pending : Array Diagnostic) : List Piece → Array Event
  | [] => told ++ pending.map Event.reported
  | p :: rest =>
    let pending := pending ++ p.warnings
    match p.item? with
    | some item =>
      eventsOnto ((told ++ alarm p ++ pending.map Event.reported).push (itemEvent item)) #[] rest
    | none => eventsOnto told pending rest

def events (c : Cursor) : Array Event :=
  (eventsOnto #[] c.pending c.ahead).push (.finished c.finish.tokens.length c.lastLine)

end Cursor

def scan (source : Text) : Scan := (Cursor.ofSource source).finish

def scanEvents (source : Text) : Array Event := (Cursor.ofSource source).events

end LoxLexer
