import LoxLexer.Fault

namespace LoxLexer

inductive Severity
  | error
  | warning
  deriving DecidableEq

def Severity.label : Severity → String
  | .error => "Error"
  | .warning => "Warning"

structure Diagnostic where
  severity : Severity
  line : Nat
  message : String
  location : String := ""
  deriving DecidableEq

namespace Diagnostic

def render (d : Diagnostic) : String :=
  s!"[line {d.line}] {d.severity.label}{d.location}: {d.message}"

def error (line : Nat) (message : String) : Diagnostic := ⟨.error, line, message, ""⟩

def warning (line : Nat) (message : String) : Diagnostic := ⟨.warning, line, message, ""⟩

/-- A fault without a line is reported on line 0. -/
def ofFault (f : Fault) : Diagnostic := error (f.line?.getD 0) f.message

def nestedComment (line : Nat) : Diagnostic :=
  warning line "Nested block comments are not supported; the first '*/' closes the comment."

theorem render_ofFault_lexical (line : Nat) (cause : LexicalFault) :
    (ofFault (.lexical line cause)).render = (Fault.lexical line cause).render := by
  apply String.toList_inj.1
  simp [render, ofFault, error, Fault.render, Fault.line?, Severity.label, toString]

end Diagnostic

end LoxLexer
