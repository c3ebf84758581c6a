import LoxLexer.Report
import LoxLexer.Sink

namespace LoxLexer

structure Session where
  out : Sink := {}
  err : Sink := {}
  colored : Bool := false
  report : Report := {}
  log : Array Event := #[]

def Severity.color : Severity → String
  | .error => "\x1b[31m"
  | .warning => "\x1b[33m"

def defaultColor : String := "\x1b[39m"

def Diagnostic.shown (colored : Bool) (d : Diagnostic) : String :=
  (if colored then d.severity.color ++ d.render ++ defaultColor else d.render) ++ "\n"

def decodeText (bytes : ByteArray) : Except IoFault Text :=
  match String.fromUTF8? bytes with
  | some s => .ok s.toList
  | none => .error .invalidText

namespace Session

def tell (s : Session) (event : Event) : Session := { s with log := s.log.push event }

def print (s : Session) (text : String) : Session × Except IoFault Unit :=
  let (out, result) := s.out.write text
  ({ s with out }, result)

def complain (s : Session) (text : String) : Session × Except IoFault Unit :=
  let (err, result) := s.err.write text
  ({ s with err }, result)

def record (s : Session) (source : Text) : Session :=
  { s with
    report := s.report.addAll (scan source).diagnostics
    log := s.log ++ scanEvents source }

def run (s : Session) (source : Text) : Session × Except IoFault Unit :=
  let found := scan source
  match (s.record source).print (String.ofList (Token.listing found.tokens)) with
  | (s, .error fault) => (s, .error fault)
  | (s, .ok ()) => s.complain (String.join (found.diagnostics.map (Diagnostic.shown s.colored)))

/-- Runs the contents of a file, if it has any that are text. Answers whether the report holds an
error, be it of this file or from before. -/
def runFile (s : Session) (path : String) (contents : Except IoFault ByteArray) :
    Session × Except IoFault Bool :=
  let s := s.tell (.opening path)
  match contents >>= decodeText with
  | .error fault => (s, .error fault)
  | .ok source =>
    match s.run source with
    | (s, .error fault) => (s, .error fault)
    | (s, .ok ()) => (s, .ok s.report.hasErrors)

end Session

end LoxLexer
