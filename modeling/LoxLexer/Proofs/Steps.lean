import LoxLexer.Session.Prompt

namespace LoxLexer

open Prompt

/-- What a session is asked to do, with all that it comes to read. -/
inductive Step
  | run (source : Text)
  | file (path : String) (contents : Except IoFault ByteArray)
  | prompt (input : Input)

namespace Session

def andThen (x : Session × Except IoFault α) (go : Session → α → Session × Except IoFault β) :
    Session × Except IoFault β :=
  match x with
  | (s, .ok a) => go s a
  | (s, .error fault) => (s, .error fault)

def perform (s : Session) : Step → Session × Except IoFault (Option Bool)
  | .run source => andThen (s.run source) fun s _ => (s, .ok none)
  | .file path contents => andThen (s.runFile path contents) fun s errors => (s, .ok (some errors))
  | .prompt input => andThen (s.runPrompt input) fun s _ => (s, .ok none)

theorem andThen_cases (x : Session × Except IoFault α)
    (go : Session → α → Session × Except IoFault β) :
    (∃ fault, x.2 = .error fault ∧ andThen x go = (x.1, .error fault)) ∨
      ∃ a, x.2 = .ok a ∧ andThen x go = go x.1 a := by
  obtain ⟨s, result⟩ := x
  cases result with
  | ok a => exact .inr ⟨a, rfl, rfl⟩
  | error fault => exact .inl ⟨fault, rfl, rfl⟩

theorem fst_andThen (x : Session × Except IoFault α) (answer : Session → α → Except IoFault β) :
    (andThen x fun s a => (s, answer s a)).1 = x.1 := by
  rcases andThen_cases x fun s a => (s, answer s a) with ⟨_, -, same⟩ | ⟨_, -, same⟩ <;> rw [same]

variable (s : Session)

theorem run_eq_andThen (source : Text) :
    s.run source = andThen
      ((s.record source).print (String.ofList (Token.listing (scan source).tokens))) fun s _ =>
        s.complain (String.join ((scan source).diagnostics.map (Diagnostic.shown s.colored))) := by
  rw [run]
  split
  next h => rw [h]; rfl
  next h => rw [h]; rfl

theorem runFile_of_error (path : String) {contents : Except IoFault ByteArray} {fault : IoFault}
    (h : contents >>= decodeText = .error fault) :
    s.runFile path contents = (s.tell (.opening path), .error fault) := by
  simp only [runFile, h]

theorem runFile_of_ok (path : String) {contents : Except IoFault ByteArray} {source : Text}
    (h : contents >>= decodeText = .ok source) :
    s.runFile path contents =
      andThen ((s.tell (.opening path)).run source) fun s _ => (s, .ok s.report.hasErrors) := by
  simp only [runFile, h]
  split
  next h => rw [h]; rfl
  next h => rw [h]; rfl

theorem invite_eq_andThen : s.invite = andThen (s.print sign) fun s _ => (s, s.out.flush) := by
  rw [invite]
  split
  next h => rw [h]; rfl
  next h => rw [h]; rfl

theorem hear_blank {line : Text} (blank : (command line).isEmpty) :
    s.hear (.line line) = (s, .ok true) := if_pos blank

theorem hear_exit {line : Text} (exit : isExit (command line)) :
    s.hear (.line line) = (s.tell .exiting, .ok false) := by
  have words : (command line).isEmpty = false := by
    rw [List.isEmpty_eq_false_iff]
    intro none
    rw [none] at exit
    exact absurd exit (by decide)
  rw [hear, words, exit]
  rfl

theorem hear_words {line : Text} (words : (command line).isEmpty = false)
    (goesOn : isExit (command line) = false) :
    s.hear (.line line) =
      andThen ({ s with report := {} }.run (command line)) fun s _ => (s, .ok true) := by
  simp only [hear, words, goesOn, Bool.false_eq_true, if_false]
  split
  next h => rw [h]; rfl
  next h => rw [h]; rfl

theorem converse_cons (read : Read) (reads : List Read) :
    s.converse (read :: reads) = andThen s.invite fun s _ =>
      andThen (s.hear read) fun s goesOn => if goesOn then s.converse reads else (s, .ok ()) := by
  rw [converse]
  split
  next h => rw [h]; rfl
  next invited h =>
    rw [h]
    change _ = andThen (invited.hear read) _
    split
    next h => rw [h]; rfl
    next h => rw [h]; rfl
    next h => rw [h]; rfl

end Session

end LoxLexer
