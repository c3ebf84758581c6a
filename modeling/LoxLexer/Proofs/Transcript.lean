import LoxLexer.Proofs.History
import LoxLexer.Proofs.LineByLine
import LoxLexer.Proofs.Steps

namespace LoxLexer

open Prompt Session

namespace Prompt

/-- The lines that are answered, and how the session ends: with the input, with the exit command, or
with a line that cannot be read. -/
def heed : List Read → List Text × Except IoFault Unit
  | [] => ([], .ok ())
  | .failed fault :: _ => ([], .error fault)
  | .line line :: reads =>
    if isExit (command line) then ([], .ok ())
    else (line :: (heed reads).1, (heed reads).2)

def sources (lines : List Text) : List Text := (lines.map command).filter (· ≠ [])

def changes (sources : List Text) : List Report.Change :=
  sources.flatMap fun source => [.clear, .scan source]

def Leaves (command : Text) : Prop :=
  command.map Char.toLower = ['l', 'o', 'x', 'e', 'x', 'i', 't']

instance (command : Text) : Decidable (Leaves command) := inferInstanceAs (Decidable (_ = _))

def exchange (command : Text) : String :=
  "#> " ++ if command = [] then ""
    else String.ofList ((scan command).tokens.flatMap fun t => t.render ++ ['\n'])

end Prompt

namespace Session

/-- What a session at the prompt does that is told these commands before it is told to exit or the
input ends. -/
structure Transcript (before after : Session) (commands : List Text) : Prop where
  out : after.out.written =
    before.out.written ++ (String.join (commands.map exchange) ++ "#> ").toUTF8
  err : after.err.written = before.err.written ++
    (String.join (((commands.filter (· ≠ [])).flatMap fun c => (scan c).diagnostics).map
      (Diagnostic.shown before.colored))).toUTF8
  lines : ∀ c ∈ commands,
    (∀ t ∈ (scan c).tokens, t.line = 1) ∧ ∀ d ∈ (scan c).diagnostics, d.line = 1
  report : after.report = match (commands.filter (· ≠ [])).getLast? with
    | none => before.report
    | some c => .holding (scan c).diagnostics

end Session

variable {s after : Session} {lines : List Text}

theorem heed_lines (lines : List Text) :
    heed (lines.map .line) = (lines.takeWhile fun line => !isExit (command line), .ok ()) := by
  induction lines with
  | nil => rfl
  | cons line lines ih =>
    rw [List.map_cons, heed, ih, List.takeWhile_cons]
    cases isExit (command line) <;> rfl

theorem sources_cons (line : Text) (lines : List Text) : sources (line :: lines) =
    if command line = [] then sources lines else command line :: sources lines := by
  rw [sources, List.map_cons, List.filter_cons]
  by_cases blank : command line = []
  · simp [blank, sources]
  · simp [blank, sources]

theorem isExit_eq_leaves (command : Text) : isExit command = decide (Leaves command) := rfl

theorem takeWhile_commands (lines : List Text) :
    (lines.map command).takeWhile (fun c => ¬ Leaves c) =
      (lines.takeWhile fun line => !isExit (command line)).map command := by
  have same : (fun line => !isExit (command line)) =
      (fun c => decide (¬ Leaves c)) ∘ command := by
    funext line
    rw [isExit_eq_leaves, ← decide_not]
    rfl
  rw [same, List.takeWhile_map]

theorem flatMap_diagnostics_sources (lines : List Text) :
    (sources lines).flatMap (fun source => (scan source).diagnostics) =
      lines.flatMap fun line => (scan (command line)).diagnostics := by
  induction lines with
  | nil => rfl
  | cons line lines ih =>
    rw [sources_cons, List.flatMap_cons, ← ih]
    split
    next blank => rw [blank]; rfl
    next => rfl

theorem replay_changes_append (r : Report) (earlier : List Text) (source : Text)
    (later : List Text) : r.replay (changes (earlier ++ source :: later)) =
      (Report.holding (scan source).diagnostics).replay (changes later) := by
  rw [changes, List.flatMap_append, Report.replay_append, List.flatMap_cons, Report.replay_append,
    ← List.nil_append (scan source).diagnostics, ← Report.addAll_holding]
  rfl

theorem replay_changes (r : Report) (sources : List Text) :
    r.replay (changes sources) = match sources.getLast? with
      | none => r
      | some source => .holding (scan source).diagnostics := by
  obtain rfl | ⟨front, last, rfl⟩ := List.eq_nil_or_concat sources
  · rfl
  · rw [List.concat_eq_append, List.getLast?_concat, replay_changes_append]
    rfl

theorem replay_answered (s : Session) (line : Text) (lines : List Text) :
    (s.answered line).report.replay (changes (sources lines)) =
      s.report.replay (changes (sources (line :: lines))) := by
  rw [answered, sources_cons]
  by_cases blank : command line = []
  · rw [if_pos blank, if_pos (List.isEmpty_iff.2 blank)]
    rfl
  · have scanned : (ran { s.invited with report := {} } (command line)).report =
        .holding (scan (command line)).diagnostics := Report.addAll_holding [] _
    rw [if_neg blank, if_neg (mt List.isEmpty_iff.1 blank), scanned]
    exact (replay_changes_append s.report [] _ _).symm

theorem Session.Unfailing.converse_eq (h : s.Unfailing) (reads : List Read) :
    ∃ after, s.converse reads = (after, (heed reads).2) ∧
      Told s after (String.join ((heed reads).1.map turn) ++ sign)
        ((heed reads).1.flatMap fun line => (scan (command line)).diagnostics) ∧
      after.report = s.report.replay (changes (sources (heed reads).1)) := by
  induction reads generalizing s with
  | nil => exact ⟨s.invited, h.invite_eq, h.told_invited, rfl⟩
  | cons read reads ih =>
    cases read with
    | failed fault =>
      refine ⟨s.invited, ?_, h.told_invited, rfl⟩
      rw [Session.converse_cons, h.invite_eq]
      rfl
    | line line =>
      cases exit : isExit (command line) with
      | true =>
        have leaves : Told s.invited (s.invited.tell .exiting) "" [] :=
          h.told_invited.unfailing.told_tell rfl
        have told := h.told_invited.trans leaves
        simp only [heed, exit, if_true]
        refine ⟨_, ?_, told, rfl⟩
        rw [Session.converse_cons, h.invite_eq, andThen, hear_exit _ exit]
        rfl
      | false =>
        have told := h.told_answered line
        obtain ⟨after, converses, later, report⟩ := ih told.unfailing
        simp only [heed, exit, Bool.false_eq_true, if_false]
        refine ⟨after, ?_, ?_, ?_⟩
        · rw [h.converse_cons exit, converses]
        · have both := told.trans later
          rwa [← String.append_assoc, ← String.join_cons] at both
        · rw [report, replay_answered]

theorem converse_append_of_exit (s : Session) (exit : ∃ line ∈ lines, isExit (command line))
    (more : List Read) : s.converse (lines.map .line ++ more) = s.converse (lines.map .line) := by
  induction lines generalizing s with
  | nil => simp at exit
  | cons line lines ih =>
    rw [List.map_cons, List.cons_append, Session.converse_cons, Session.converse_cons]
    congr 1
    funext s _
    by_cases last : isExit (command line)
    · rw [hear_exit _ last]
      rfl
    · have exit : ∃ line ∈ lines, isExit (command line) := by simpa [last] using exit
      simp only [ih _ exit]

theorem turn_eq_exchange (line : Text) : turn line = exchange (command line) := by
  rw [turn, exchange, ← listing_scan]
  by_cases blank : command line = []
  · rw [if_pos blank, if_pos (List.isEmpty_iff.2 blank)]
    rfl
  · rw [if_neg blank, if_neg (mt List.isEmpty_iff.1 blank)]
    rfl

theorem Session.Told.transcript
    (told : Told s after (String.join (lines.map turn) ++ sign)
      (lines.flatMap fun line => (scan (command line)).diagnostics))
    (report : after.report = s.report.replay (changes (sources lines)))
    (clean : ∀ line ∈ lines, '\n' ∉ command line) : Transcript s after (lines.map command) where
  out := by
    rw [told.out, List.map_map, List.map_congr_left fun line _ => turn_eq_exchange line]
    rfl
  err := by
    rw [told.err, ← flatMap_diagnostics_sources]
    rfl
  lines := by
    intro c hc
    obtain ⟨line, hl, rfl⟩ := List.mem_map.1 hc
    constructor
    · intro t ht
      exact line_of_mem_tokens (clean line hl) ht
    · intro d hd
      exact line_of_mem_diagnostics (clean line hl) hd
  report := by
    rw [report, replay_changes]
    rfl

/-- A session at the prompt is its transcript: it answers the lines of its input one by one up to
the exit command, and whatever follows that is never looked at. -/
theorem runPrompt_transcript (s : Session) (unfailing : s.Unfailing) (input : ByteArray)
    (text : Text) (valid : decodeText input = .ok text) :
    Lines text text.lines ∧ (∀ line ∈ text.lines, Stripped line (command line)) ∧
      ∃ after, s.runPrompt ⟨input, none⟩ = (after, .ok ()) ∧
        Transcript s after ((text.lines.map command).takeWhile fun c => ¬ Leaves c) ∧
        ∀ head rest, text = head ++ rest → head.getLast? = some '\n' →
          (∃ line ∈ head.lines, Leaves (command line)) → ∀ bytes failure,
            s.runPrompt ⟨(head.encode ++ bytes).toByteArray, failure⟩ = (after, .ok ()) := by
  obtain ⟨after, converses, told, report⟩ := unfailing.converse_eq (text.lines.map .line)
  rw [heed_lines] at converses told report
  have clean : ∀ line ∈ text.lines.takeWhile fun line => !isExit (command line),
      '\n' ∉ command line := by
    intro line hl
    exact (lines_lines text).lineFeed_not_mem line ((List.takeWhile_sublist _).subset hl)
  have transcript := told.transcript report clean
  have reads := Input.reads_of_decodeText valid
  refine ⟨lines_lines text, fun line _ => stripped_command line, after, ?_, ?_, ?_⟩
  · rw [runPrompt, reads, converses]
  · rw [takeWhile_commands]
    exact transcript
  · intro head rest parts ended leaves bytes failure
    have exit : ∃ line ∈ head.lines, isExit (command line) := by
      obtain ⟨line, hl, leaves⟩ := leaves
      exact ⟨line, hl, decide_eq_true leaves⟩
    have whole := Input.reads_of_decodeText (decodeText_encode text)
    rw [parts, Text.encode, List.flatMap_append, ← Text.encode, ← Text.encode,
      Input.reads_append ended, ← parts] at whole
    rw [runPrompt, Input.reads_append ended, converse_append_of_exit s exit, ← converses, ← whole,
      converse_append_of_exit s exit]

theorem runPrompt_transcript_up_to_exit :
    let head : Text := ['/', '*', '/', '*', '*', '/', '\n', '\r', '\n', '@', '\r', '\r', '\n', '\n',
      'l', 'O', 'X', 'e', 'x', 'i', 't', '\r', '\n']
    let text : Text := head ++ ['"', '\n']
    let s : Session := {}
    s.Unfailing ∧ decodeText text.encode.toByteArray = .ok text ∧
      ∃ after, s.runPrompt ⟨text.encode.toByteArray, none⟩ = (after, .ok ()) ∧
        Transcript s after [['/', '*', '/', '*', '*', '/'], [], ['@'], []] ∧
        ∀ bytes failure,
          s.runPrompt ⟨(head.encode ++ bytes).toByteArray, failure⟩ = (after, .ok ()) := by
  intro head text s
  have unfailing : s.Unfailing := ⟨rfl, rfl, rfl⟩
  have valid := decodeText_encode text
  obtain ⟨-, -, after, runs, transcript, rest⟩ := runPrompt_transcript s unfailing _ text valid
  refine ⟨unfailing, valid, after, runs, transcript, ?_⟩
  exact rest head _ rfl rfl ⟨['l', 'O', 'X', 'e', 'x', 'i', 't', '\r', '\n'], by decide, by decide⟩

end LoxLexer
