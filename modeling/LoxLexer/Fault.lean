namespace LoxLexer

inductive LexicalFault
  | unexpectedCharacter (c : Char)
  | unterminatedString
  | unterminatedComment
  deriving DecidableEq

def LexicalFault.message : LexicalFault → String
  | .unexpectedCharacter c => s!"Unexpected character '{c}'."
  | .unterminatedString => "Unterminated string."
  | .unterminatedComment => "Unterminated comment."

namespace LexicalFault

theorem toList_message_unexpectedCharacter (c : Char) :
    (unexpectedCharacter c).message.toList =
      "Unexpected character '".toList ++ c :: "'.".toList := by
  have letter : (toString c).toList = [c] := String.toList_singleton c
  change ("Unexpected character '" ++ toString c ++ "'.").toList = _
  rw [String.toList_append, String.toList_append, letter, List.append_assoc]
  rfl

theorem length_message (cause : LexicalFault) : cause.message.toList.length =
    match cause with
    | .unexpectedCharacter _ => 25
    | .unterminatedString => 20
    | .unterminatedComment => 21 := by
  cases cause with
  | unexpectedCharacter c =>
    rw [toList_message_unexpectedCharacter]
    rfl
  | unterminatedString => rfl
  | unterminatedComment => rfl

theorem message_inj {a b : LexicalFault} : a.message = b.message ↔ a = b := by
  refine ⟨fun same => ?_, congrArg message⟩
  have letters := congrArg String.toList same
  have sizes := congrArg List.length letters
  rw [length_message, length_message] at sizes
  cases a <;> cases b <;> cases sizes
  case unexpectedCharacter.unexpectedCharacter.refl c d =>
    simpa [toList_message_unexpectedCharacter] using letters
  all_goals rfl

end LexicalFault

inductive IoFault
  | notFound
  | isDirectory
  | notDirectory
  | nameTooLong
  | nulInPath
  | invalidText
  | other (message : String)
  deriving DecidableEq

def IoFault.sinkFull : IoFault := .other "sink full"

def IoFault.flushFailed : IoFault := .other "flush failed"

def IoFault.message : IoFault → String
  | .notFound => "No such file or directory (os error 2)"
  | .isDirectory => "Is a directory (os error 21)"
  | .notDirectory => "Not a directory (os error 20)"
  | .nameTooLong => "File name too long (os error 36)"
  | .nulInPath => "file name contained an unexpected NUL byte"
  | .invalidText => "stream did not contain valid UTF-8"
  | .other message => message

inductive Fault
  | lexical (line : Nat) (cause : LexicalFault)
  | io (cause : IoFault)
  deriving DecidableEq

namespace Fault

def message : Fault → String
  | .lexical _ cause => cause.message
  | .io cause => cause.message

def line? : Fault → Option Nat
  | .lexical line _ => some line
  | .io _ => none

def render (f : Fault) : String :=
  match f.line? with
  | some line => s!"[line {line}] Error: {f.message}"
  | none => s!"Error: {f.message}"

end Fault

end LoxLexer
