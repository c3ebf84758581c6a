import LoxLexer.Session

/-!
The interactive session: a prompt, a line, its tokens, and again. Every line is scanned on its own,
with a report that holds the diagnostics of that line alone. Blank lines are passed over, and the
exit command or the end of input ends the session. So does input that cannot be read.
-/

namespace LoxLexer

/-- What comes of reading a line. The end of input is the end of the list of reads. -/
inductive Read
  | line (text : Text)
  | failed (fault : IoFault)
  deriving DecidableEq

def byteLines (bytes : List UInt8) : List (List UInt8) :=
  bytes.foldr
    (fun b lines =>
      if b = 10 then [b] :: lines
      else match lines with
        | [] => [[b]]
        | line :: lines => (b :: line) :: lines)
    []

@[simp] theorem flatten_byteLines (bytes : List UInt8) : (byteLines bytes).flatten = bytes := by
  induction bytes with
  | nil => rfl
  | cons b bytes ih =>
    rw [byteLines, List.foldr_cons, ← byteLines]
    split
    · simp [ih]
    · split
      next h => simpa [h] using ih
      next h => simpa [h] using ih

def Read.ofLine (bytes : List UInt8) : Read :=
  match decodeText bytes.toByteArray with
  | .ok text => .line text
  | .error fault => .failed fault

structure Input where
  bytes : ByteArray
  failure : Option IoFault := none

/-- A failing input takes the unfinished last line with it. -/
def Input.reads (input : Input) : List Read :=
  let lines := byteLines input.bytes.toList
  match input.failure with
  | none => lines.map .ofLine
  | some fault => (lines.filter (·.getLast? = some 10)).map .ofLine ++ [.failed fault]

namespace Prompt

def sign : String := "#> "

def exitCommand : Text := ['L', 'o', 'x', 'E', 'x', 'i', 't']

def isExit (command : Text) : Bool := command.map Char.toLower = exitCommand.map Char.toLower

def command (line : Text) : Text :=
  (line.reverse.dropWhile fun c => c = '\n' || c = '\r').reverse

end Prompt

open Prompt

namespace Session

def invite (s : Session) : Session × Except IoFault Unit :=
  match s.print sign with
  | (s, .error fault) => (s, .error fault)
  | (s, .ok ()) => (s, s.out.flush)

def hear (s : Session) : Read → Session × Except IoFault Bool
  | .failed fault => (s, .error fault)
  | .line text =>
    if (command text).isEmpty then (s, .ok true)
    else if isExit (command text) then (s.tell .exiting, .ok false)
    else match { s with report := {} }.run (command text) with
      | (s, .error fault) => (s, .error fault)
      | (s, .ok ()) => (s, .ok true)

def converse (s : Session) : List Read → Session × Except IoFault Unit
  | [] => s.invite
  | read :: reads =>
    match s.invite with
    | (s, .error fault) => (s, .error fault)
    | (s, .ok ()) =>
      match s.hear read with
      | (s, .error fault) => (s, .error fault)
      | (s, .ok false) => (s, .ok ())
      | (s, .ok true) => s.converse reads

def runPrompt (s : Session) (input : Input) : Session × Except IoFault Unit :=
  s.converse input.reads

end Session

/-- What a session hands over. Nothing is told any more once something is complained of. -/
structure Handed where
  out : ByteArray
  events : List Event
  err : ByteArray

namespace Handed

def append (a b : Handed) : Handed := ⟨a.out ++ b.out, a.events ++ b.events, a.err ++ b.err⟩

def join (parts : List Handed) : Handed := parts.foldr append ⟨.empty, [], .empty⟩

end Handed

namespace Session

def handed (s : Session) : Handed := ⟨s.out.written, s.log.toList, s.err.written⟩

def emptied (s : Session) : Session :=
  { s with out := s.out.emptied, err := s.err.emptied, log := #[] }

/-- A line and the next prompt. Answers how the session ends, if it does. -/
def round (s : Session) (read : Read) : Session × Option (Except IoFault Unit) :=
  match s.hear read with
  | (s, .error fault) => (s, some (.error fault))
  | (s, .ok false) => (s, some (.ok ()))
  | (s, .ok true) =>
    match s.invite with
    | (s, .error fault) => (s, some (.error fault))
    | (s, .ok ()) => (s, none)

def rounds (s : Session) : List Read → List Handed × Except IoFault Unit
  | [] => ([], .ok ())
  | read :: reads =>
    match s.round read with
    | (s, some result) => ([s.handed], result)
    | (s, none) =>
      let (later, result) := s.emptied.rounds reads
      (s.handed :: later, result)

def converseInRounds (s : Session) (reads : List Read) : List Handed × Except IoFault Unit :=
  match s.invite with
  | (s, .error fault) => ([s.handed], .error fault)
  | (s, .ok ()) =>
    let (later, result) := s.emptied.rounds reads
    (s.handed :: later, result)

end Session

end LoxLexer
