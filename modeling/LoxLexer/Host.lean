import LoxLexer.Session.Prompt

/-!
What a run of the program comes to. How arguments are read, how a path is shown and read, and which
events are let through to the error output is up to the host that the program runs on.
-/

namespace LoxLexer

structure Options (Path : Type) where
  verbose : Bool := false
  noColor : Bool := false
  scripts : List Path := []
  deriving DecidableEq

inductive Status
  | success
  | misuse
  | usage
  | dataError
  | ioError
  deriving DecidableEq

namespace Status

def code : Status → Nat
  | .success => 0
  | .misuse => 2
  | .usage => 64
  | .dataError => 65
  | .ioError => 74

def ofResult : Except IoFault Bool → Status
  | .ok false => .success
  | .ok true => .dataError
  | .error _ => .ioError

end Status

/-- What comes on the error output: a byte, or an event as a line of the log. -/
inductive Note
  | byte (b : UInt8)
  | logged (e : Event)
  deriving DecidableEq

namespace Note

def ofBytes (bytes : ByteArray) : List Note := bytes.data.toList.map .byte

def ofResult : Except IoFault α → List Note
  | .ok _ => []
  | .error fault => ofBytes ((Fault.io fault).render ++ "\n").toUTF8

def byte? : Note → Option UInt8
  | .byte b => some b
  | .logged _ => none

def line? : Note → Option String
  | .byte _ => none
  | .logged e => some e.logLine

def bytes (notes : List Note) : ByteArray := ⟨(notes.filterMap byte?).toArray⟩

end Note

structure Outcome where
  status : Status
  out : ByteArray := .empty
  notes : List Note := []

namespace Outcome

def err (o : Outcome) : ByteArray := Note.bytes o.notes

def log (o : Outcome) : List String := o.notes.filterMap Note.line?

def usageText : String := "Usage: lox-scan [script]\n"

def usage : Outcome := { status := .usage, out := usageText.toUTF8 }

end Outcome

/-- What the program does not decide itself. -/
structure Host (Arg Path : Type) where
  /-- The options that arguments stand for, or what is left behind by a reader that goes no further.
  -/
  parse : List Arg → Except Outcome (Options Path)
  display : Path → String
  read : Path → Except IoFault ByteArray
  /-- The events that the environment asks for, if it asks for any. -/
  filter? : Option (Event → Bool) := none
  terminal : Bool := false

namespace Host

variable {Arg Path : Type} (host : Host Arg Path) (o : Options Path)

def logs (e : Event) : Bool :=
  match host.filter? with
  | some filter => filter e
  | none => o.verbose && e.isLogged

def session : Session := { colored := host.terminal && !o.noColor }

def notes (part : Handed) : List Note :=
  (part.events.filter (host.logs o)).map .logged ++ Note.ofBytes part.err

def outcome (parts : List Handed) (result : Except IoFault Bool) : Outcome where
  status := .ofResult result
  out := (Handed.join parts).out
  notes := parts.flatMap (host.notes o) ++ Note.ofResult result

/-- Errors in what is typed at the prompt do not count. -/
def perform (input : Input) : Outcome :=
  match o.scripts with
  | [] =>
    let (parts, result) := (host.session o).converseInRounds input.reads
    host.outcome o parts (result.map fun _ => false)
  | [script] =>
    let (s, result) := (host.session o).runFile (host.display script) (host.read script)
    host.outcome o [s.handed] result
  | _ => .usage

def execute (args : List Arg) (input : Input) : Outcome :=
  match host.parse args with
  | .ok o => host.perform o input
  | .error outcome => outcome

end Host

end LoxLexer
