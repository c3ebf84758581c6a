import LoxLexer.Proofs.Transcript

namespace LoxLexer

open Prompt Session

/-- Input of which the next line cannot be read: it is no text, or the reader fails before the line
is over. -/
inductive Interrupts : List UInt8 → Option IoFault → IoFault → Prop
  | garbled : 10 ∉ body → Garbled (body ++ [10]).toByteArray →
      Interrupts (body ++ 10 :: more) failure .invalidText
  | garbledLast : 10 ∉ line → Garbled line.toByteArray → Interrupts line none .invalidText
  | reader : 10 ∉ part → Interrupts part (some fault) fault

def encodeLines (bodies : List Text) : List UInt8 := Text.encode (bodies.flatMap (· ++ ['\n']))

variable {s : Session} {lines bodies : List Text} {rest : List UInt8} {failure : Option IoFault}
  {fault : IoFault}

theorem encodeLines_cons (body : Text) (bodies : List Text) :
    encodeLines (body :: bodies) = body.encode ++ 10 :: encodeLines bodies := by
  simp only [encodeLines, List.flatMap_cons, Text.encode, List.flatMap_append, List.append_assoc]
  rfl

theorem encode_line (body : Text) : Text.encode (body ++ ['\n']) = body.encode ++ [10] :=
  List.flatMap_append

theorem Input.reads_encodeLines (clean : ∀ body ∈ bodies, '\n' ∉ body) (rest : List UInt8)
    (failure : Option IoFault) : Input.reads ⟨(encodeLines bodies ++ rest).toByteArray, failure⟩ =
      (bodies.map (· ++ ['\n'])).map .line ++ Input.reads ⟨rest.toByteArray, failure⟩ := by
  induction bodies with
  | nil => rfl
  | cons body bodies ih =>
    obtain ⟨first, clean⟩ := List.forall_mem_cons.1 clean
    rw [encodeLines_cons, List.append_assoc, List.cons_append,
      reads_line (lineFeed_not_mem_encode first), ih clean, ← encode_line, Read.ofLine_encode]
    rfl

theorem Interrupts.reads_eq (h : Interrupts rest failure fault) :
    ∃ later, Input.reads ⟨rest.toByteArray, failure⟩ = .failed fault :: later := by
  cases h with
  | garbled clean garbled =>
    rw [Input.reads_line clean, Read.ofLine_of_garbled garbled]
    exact ⟨_, rfl⟩
  | garbledLast clean garbled =>
    have some : rest ≠ [] := by
      rintro rfl
      exact garbled "" rfl
    simp only [Input.reads, toList_toByteArray, byteLines_of_clean some clean, List.map_cons,
      Read.ofLine_of_garbled garbled, List.map_nil]
    exact ⟨_, rfl⟩
  | reader clean =>
    have unfinished : (byteLines rest).filter (·.getLast? = some 10) = [] := by
      by_cases none : rest = []
      · rw [none]
        rfl
      · rw [byteLines_of_clean none clean, List.filter_eq_nil_iff]
        intro line hl
        rw [List.mem_singleton.1 hl, decide_eq_true_eq]
        exact fun last => clean (List.mem_of_getLast? last)
    simp only [Input.reads, toList_toByteArray, unfinished]
    exact ⟨_, rfl⟩

theorem Session.Unfailing.converse_failed (h : s.Unfailing) (fault : IoFault) (reads : List Read) :
    s.converse (.failed fault :: reads) = (s.invited, .error fault) := by
  rw [Session.converse_cons, h.invite_eq]
  rfl

theorem Session.Unfailing.exists_answered (h : s.Unfailing)
    (goesOn : ∀ line ∈ lines, isExit (command line) = false) :
    ∃ after, s.converse (lines.map .line) = (after, .ok ()) ∧
      (∀ fault later, s.converse (lines.map .line ++ .failed fault :: later) =
        (after, .error fault)) ∧
      Told s after (String.join (lines.map turn) ++ sign)
        (lines.flatMap fun line => (scan (command line)).diagnostics) ∧
      after.report = s.report.replay (changes (sources lines)) := by
  have heard : heed (lines.map .line) = (lines, .ok ()) := by
    rw [heed_lines, List.takeWhile_eq_self_iff.2]
    intro line hl
    rw [goesOn line hl]
    rfl
  have answers := (h.told_lines lines).unfailing
  obtain ⟨after, converses, told, report⟩ := h.converse_eq (lines.map .line)
  simp only [heard] at converses told report
  have ends := h.converse_lines goesOn []
  rw [List.append_nil, converses, Session.converse, answers.invite_eq] at ends
  obtain ⟨same, -⟩ := Prod.ext_iff.1 ends
  refine ⟨after, converses, ?_, told, report⟩
  intro fault later
  rw [h.converse_lines goesOn, answers.converse_failed]
  exact Prod.ext same.symm rfl

/-- Where the input cannot be read any further the session is what it would be if the input ended
there, and the fault is all that is left of the line that could not be read. -/
theorem runPrompt_interrupted (s : Session) (unfailing : s.Unfailing) (bodies : List Text)
    (clean : ∀ body ∈ bodies, '\n' ∉ body) (stays : ∀ body ∈ bodies, ¬ Leaves (command body)) :
    ∃ after, s.runPrompt ⟨(encodeLines bodies).toByteArray, none⟩ = (after, .ok ()) ∧
      Transcript s after (bodies.map command) ∧
      (∀ rest failure fault, Interrupts rest failure fault →
        s.runPrompt ⟨(encodeLines bodies ++ rest).toByteArray, failure⟩ = (after, .error fault)) ∧
      IoFault.invalidText.message = "stream did not contain valid UTF-8" := by
  have commands : (bodies.map (· ++ ['\n'])).map command = bodies.map command := by
    rw [List.map_map]
    exact List.map_congr_left fun body _ => command_append_lineFeed body
  have goesOn : ∀ line ∈ bodies.map (· ++ ['\n']), isExit (command line) = false := by
    intro line hl
    obtain ⟨body, hb, rfl⟩ := List.mem_map.1 hl
    rw [command_append_lineFeed, isExit_eq_leaves, decide_eq_false_iff_not]
    exact stays body hb
  obtain ⟨after, converses, fails, told, report⟩ := unfailing.exists_answered goesOn
  refine ⟨after, ?_, ?_, ?_, rfl⟩
  · have reads := Input.reads_encodeLines clean [] none
    have nothing : Input.reads ⟨[].toByteArray, none⟩ = [] := by
      simp only [Input.reads, toList_toByteArray]
      rfl
    rw [List.append_nil, nothing, List.append_nil] at reads
    rw [runPrompt, reads, converses]
  · rw [← commands]
    refine told.transcript report ?_
    intro line hl
    obtain ⟨body, hb, rfl⟩ := List.mem_map.1 hl
    rw [command_append_lineFeed]
    exact lineFeed_not_mem_command (clean body hb)
  · intro rest failure fault interrupts
    obtain ⟨later, reads⟩ := interrupts.reads_eq
    rw [runPrompt, Input.reads_encodeLines clean, reads, fails]

theorem runPrompt_interrupted_before_exit :
    let bodies : List Text := [['@', '\r'], []]
    let s : Session := {}
    let exit : List UInt8 := Text.encode exitCommand
    s.Unfailing ∧ (∀ body ∈ bodies, '\n' ∉ body) ∧ (∀ body ∈ bodies, ¬ Leaves (command body)) ∧
      Interrupts (255 :: 10 :: exit) none .invalidText ∧
      Interrupts exit (some (.other "lost")) (.other "lost") ∧
      ∃ after, s.runPrompt ⟨(encodeLines bodies).toByteArray, none⟩ = (after, .ok ()) ∧
        Transcript s after [['@'], []] ∧
        s.runPrompt ⟨(encodeLines bodies ++ 255 :: 10 :: exit).toByteArray, none⟩ =
          (after, .error .invalidText) ∧
        s.runPrompt ⟨(encodeLines bodies ++ exit).toByteArray, some (.other "lost")⟩ =
          (after, .error (.other "lost")) := by
  intro bodies s exit
  have unfailing : s.Unfailing := ⟨rfl, rfl, rfl⟩
  have garbled : Interrupts ([255] ++ 10 :: exit) none .invalidText :=
    .garbled (by decide) ((garbled_iff _).2 (by decide))
  have reader : Interrupts exit (some (.other "lost")) (.other "lost") := .reader (by decide)
  obtain ⟨after, ends, transcript, fails, -⟩ :=
    runPrompt_interrupted s unfailing bodies (by decide) (by decide)
  exact ⟨unfailing, by decide, by decide, garbled, reader, after, ends, transcript,
    fails _ _ _ garbled, fails _ _ _ reader⟩

end LoxLexer
