import LoxLexer.Token
import LoxLexer.Diagnostic

namespace LoxLexer

inductive Level
  | trace
  | debug
  | info
  deriving DecidableEq

def Level.name : Level → String
  | .trace => "TRACE"
  | .debug => "DEBUG"
  | .info => "INFO"

inductive Event
  | scanned (t : Token)
  | ranOut (openedOn : Nat)
  | finished (tokens lines : Nat)
  | reported (d : Diagnostic)
  | opening (path : String)
  | exiting
  deriving DecidableEq

namespace Event

def level : Event → Level
  | .scanned _ => .trace
  | .opening _ => .info
  | _ => .debug

def target : Event → String
  | .scanned _ | .ranOut _ | .finished .. => "lox_scan::scanner"
  | .reported _ => "lox_scan::diagnostics"
  | .opening _ | .exiting => "lox_scan::lox"

def text : Event → String
  | .scanned _ => "token"
  | .ranOut _ => "block comment runs to end of input"
  | .finished .. => "scan finished"
  | .reported _ => "diagnostic reported"
  | .opening _ => "scanning file"
  | .exiting => "exit command received"

def details : Event → List (String × String)
  | .scanned t =>
    [("kind", t.kind.name), ("line", toString t.line), ("lexeme", String.ofList t.lexeme)]
  | .ranOut openedOn => [("opened_on", toString openedOn)]
  | .finished tokens lines => [("tokens", toString tokens), ("lines", toString lines)]
  | .reported d =>
    [("line", toString d.line), ("severity", d.severity.label), ("message", d.message)]
  | .opening path => [("path", path)]
  | .exiting => []

def fields (e : Event) : List (String × String) := ("message", e.text) :: e.details

/-- A character that can steer a terminal is written out, for a log shows text it did not choose. -/
def disarm (c : Char) : Text :=
  let hex := Nat.toDigits 16 c.toNat
  if c ∈ ['\x07', '\x08', '\x0c', '\x1b', '\x7f'] then '\\' :: 'x' :: hex.leftpad 2 '0'
  else if 0x80 ≤ c.toNat ∧ c.toNat ≤ 0x9f then '\\' :: 'u' :: '{' :: hex ++ ['}']
  else [c]

def logField : String × String → String
  | (name, value) =>
    if name = "message" then String.ofList (value.toList.flatMap disarm) else s!"{name}={value}"

def logLine (e : Event) : String :=
  let shown := " ".intercalate (e.fields.map logField)
  s!"{e.level.name} {e.target}: {shown}"

def isLogged (e : Event) : Bool := e.level ≠ .trace

end Event

end LoxLexer
