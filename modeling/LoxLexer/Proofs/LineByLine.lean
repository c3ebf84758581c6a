import LoxLexer.Proofs.Concat
import LoxLexer.Proofs.Conversation
import LoxLexer.Proofs.Lines
import LoxLexer.Proofs.Reading

namespace LoxLexer

open Prompt

/-- Nothing that a later line could close. -/
def Scan.closed (s : Scan) : Prop :=
  s.reports .unterminatedString = false ∧ s.reports .unterminatedComment = false

instance (s : Scan) : Decidable s.closed := inferInstanceAs (Decidable (_ ∧ _))

def Diagnostic.onLine (n : Nat) (d : Diagnostic) : Diagnostic := { d with line := n }

variable {line : Nat} {a b gap text : Text} {ps : List Piece} {lines : List Text}

theorem upToBlank_carriageReturns (returns : ∀ c ∈ gap, c = '\r')
    (stop : b.startsWith (· ≠ '\n') = false) : UpToBlank [] (gap ++ b) := by
  cases gap with
  | nil =>
    cases b with
    | nil => exact .nil
    | cons c b =>
      obtain rfl : c = '\n' := by simpa using stop
      exact .blank (by decide)
  | cons c gap =>
    obtain rfl := returns c List.mem_cons_self
    exact .blank (by decide)

theorem Cut.append_carriageReturns {shape : Shape} {text after : Text} (h : Cut shape text after)
    (ends : shape.takesBlanks = false) (returns : ∀ c ∈ gap, c = '\r')
    (stop : b.startsWith (· ≠ '\n') = false) : Cut shape text (after ++ (gap ++ b)) := by
  have goes := (upToBlank_carriageReturns returns stop).append_left after
  rw [List.append_nil] at goes
  exact h.upToBlank ends goes

theorem lineFeed_not_mem_of_carriageReturns (returns : ∀ c ∈ gap, c = '\r') : '\n' ∉ gap := by
  intro hm
  exact absurd (returns _ hm) (by decide)

theorem lineFeeds_of_carriageReturns (returns : ∀ c ∈ gap, c = '\r') : gap.lineFeeds = 0 :=
  Text.lineFeeds_eq_zero (lineFeed_not_mem_of_carriageReturns returns)

theorem telling_carriageReturns (returns : ∀ c ∈ gap, c = '\r') (line : Nat) (b : Text) :
    telling (pieces line (gap ++ b)) = telling (pieces line b) := by
  have blank : ∀ c ∈ gap, isBlank c := by
    intro c hc
    rw [returns c hc]
    rfl
  rw [telling_blanks blank, lineFeeds_of_carriageReturns returns, Nat.add_zero]

theorem Cut.telling_pieces {shape : Shape} {text after : Text} (h : Cut shape text after)
    (string : shape ≠ .openString) (comment : shape ≠ .openComment)
    (returns : ∀ c ∈ gap, c = '\r') (stop : b.startsWith (· ≠ '\n') = false) (line : Nat) :
    telling (pieces line (text ++ (after ++ (gap ++ b)))) =
      telling [⟨shape, text, line⟩] ++
        telling (pieces (line + text.lineFeeds) (after ++ (gap ++ b))) := by
  -- Only a line comment takes in the carriage returns behind it, and it tells nothing of them.
  by_cases lineComment : shape = .lineComment
  · subst lineComment
    cases h with
    | @lineComment body _ clean stop' =>
      cases after with
      | nil =>
        have clean' : '\n' ∉ body ++ gap := by
          rw [List.mem_append, not_or]
          exact ⟨clean, lineFeed_not_mem_of_carriageReturns returns⟩
        have cut : Cut .lineComment (('/' :: '/' :: body) ++ gap) b := .lineComment clean' stop
        rw [List.nil_append, telling_carriageReturns returns, ← List.append_assoc, cut.pieces_eq,
          telling_cons, Text.lineFeeds_append, lineFeeds_of_carriageReturns returns, Nat.add_zero]
        rfl
      | cons c after =>
        have cut : Cut .lineComment ('/' :: '/' :: body) (c :: after ++ (gap ++ b)) :=
          .lineComment clean stop'
        rw [cut.pieces_eq, telling_cons]
  · have ends : shape.takesBlanks = false := by cases shape <;> trivial
    rw [(h.append_carriageReturns ends returns stop).pieces_eq, telling_cons]

theorem Cuts.telling_append (h : Cuts line a ps)
    (closed : ∀ p ∈ ps, p.shape ≠ .openString ∧ p.shape ≠ .openComment)
    (returns : ∀ c ∈ gap, c = '\r') (stop : b.startsWith (· ≠ '\n') = false) :
    telling (pieces line (a ++ (gap ++ b))) =
      telling ps ++ telling (pieces (line + a.lineFeeds) b) := by
  induction h with
  | nil => exact telling_carriageReturns returns _ b
  | @cons shape text after line ps cut later ih =>
    obtain ⟨⟨string, comment⟩, closed⟩ := List.forall_mem_cons.1 closed
    rw [List.append_assoc, cut.telling_pieces string comment returns stop, ih closed,
      telling_cons _ ps, List.append_assoc, Text.lineFeeds_append, Nat.add_assoc]

theorem closed_pieces (closed : (scan a).closed) (n : Nat) :
    ∀ p ∈ pieces (1 + n) a, p.shape ≠ .openString ∧ p.shape ≠ .openComment := by
  intro p hp
  rw [pieces_add] at hp
  obtain ⟨q, hq, rfl⟩ := List.mem_map.1 hp
  exact closed_of_reports closed.1 closed.2 q hq

theorem telling_body {body : Text} (clean : '\n' ∉ body) (closed : (scan (command body)).closed)
    (stop : b.startsWith (· ≠ '\n') = false) (n : Nat) :
    telling (pieces (1 + n) (body ++ b)) =
      telling (pieces (1 + n) (command body)) ++ telling (pieces (1 + n) b) := by
  obtain ⟨gap, parts, returns⟩ := exists_carriageReturns clean
  have none := Text.lineFeeds_eq_zero (lineFeed_not_mem_command clean)
  have split : body ++ b = command body ++ (gap ++ b) := by rw [← List.append_assoc, ← parts]
  rw [split, (cuts_pieces _ _).telling_append (closed_pieces closed n) returns stop, none,
    Nat.add_zero]

theorem Lines.telling_pieces (h : Lines text lines)
    (closed : ∀ line ∈ lines, (scan (command line)).closed) (n : Nat) :
    telling (pieces (1 + n) text) =
      (lines.zipIdx n).flatMap fun (line, k) => telling (pieces (1 + k) (command line)) := by
  induction h generalizing n with
  | nil => rfl
  | last _ clean =>
    have whole := telling_body clean (closed _ List.mem_cons_self) (Text.startsWith_nil _) n
    simpa using whole
  | @cons line rest lines clean later ih =>
    obtain ⟨first, closed⟩ := List.forall_mem_cons.1 closed
    rw [command_append_lineFeed] at first
    have lineFeed : telling (pieces (1 + n) ('\n' :: rest)) = telling (pieces (1 + (n + 1)) rest) :=
      @telling_blanks ['\n'] (by simp [isBlank]) (1 + n) rest
    rw [telling_body clean first (by simp) n, lineFeed, ih closed, List.zipIdx_cons,
      List.flatMap_cons, ← command_append_lineFeed line]

theorem filterMap_token?_command (k : Nat) (source : Text) :
    (telling (pieces (1 + k) source)).filterMap Piece.token? =
      ((scan source).tokens.filter (·.kind ≠ .eof)).map (.shift k) := by
  rw [filterMap_token?_telling, pieces_add, filterMap_token?_shift, filter_tokens_scan]

theorem flatMap_diagnostics_command (k : Nat) (source : Text) :
    (telling (pieces (1 + k) source)).flatMap Piece.diagnostics =
      (scan source).diagnostics.map (.shift k) := by
  rw [flatMap_diagnostics_telling, pieces_add, flatMap_diagnostics_shift, diagnostics_scan]

theorem tokens_scan_lines (closed : ∀ line ∈ text.lines, (scan (command line)).closed) :
    (scan text).tokens.filter (·.kind ≠ .eof) = text.lines.zipIdx.flatMap fun (line, k) =>
      ((scan (command line)).tokens.filter (·.kind ≠ .eof)).map (.shift k) := by
  have told := (lines_lines text).telling_pieces closed 0
  rw [filter_tokens_scan, ← filterMap_token?_telling, told, List.filterMap_flatMap]
  congr 1
  funext next
  exact filterMap_token?_command next.2 (command next.1)

theorem diagnostics_scan_lines (closed : ∀ line ∈ text.lines, (scan (command line)).closed) :
    (scan text).diagnostics = text.lines.zipIdx.flatMap fun (line, k) =>
      (scan (command line)).diagnostics.map (.shift k) := by
  have told := (lines_lines text).telling_pieces closed 0
  rw [diagnostics_scan, ← flatMap_diagnostics_telling, told, List.flatMap_assoc]
  congr 1
  funext next
  exact flatMap_diagnostics_command next.2 (command next.1)

theorem line_of_mem_tokens {source : Text} {t : Token} (clean : '\n' ∉ source)
    (ht : t ∈ (scan source).tokens) : t.line = 1 := by
  have rises := (cuts_pieces 1 source).rises _ fun p _ => p.rises_token
  rw [← List.map_flatMap, ← List.filterMap_eq_flatMap_toList, Text.lineFeeds_eq_zero clean] at rises
  rw [tokens_scan, Text.lineFeeds_eq_zero clean, List.mem_append, List.mem_singleton] at ht
  rcases ht with inside | rfl
  · obtain ⟨low, high⟩ := rises.2 t.line (List.mem_map_of_mem inside)
    exact Nat.le_antisymm high low
  · rfl

theorem line_of_mem_diagnostics {source : Text} {d : Diagnostic} (clean : '\n' ∉ source)
    (hd : d ∈ (scan source).diagnostics) : d.line = 1 := by
  have rises := (cuts_pieces 1 source).rises _ fun p _ => p.rises_diagnostics
  rw [← List.map_flatMap, ← diagnostics_scan, Text.lineFeeds_eq_zero clean] at rises
  obtain ⟨low, high⟩ := rises.2 d.line (List.mem_map_of_mem hd)
  exact Nat.le_antisymm high low

theorem Lines.lineFeed_not_mem (h : Lines text lines) :
    ∀ line ∈ lines, '\n' ∉ command line := by
  induction h with
  | nil => exact List.forall_mem_nil _
  | last _ clean => exact List.forall_mem_singleton.2 (lineFeed_not_mem_command clean)
  | @cons line _ _ clean _ ih =>
    refine List.forall_mem_cons.2 ⟨?_, ih⟩
    rw [command_append_lineFeed]
    exact lineFeed_not_mem_command clean

def turns (text : Text) : List Scan := text.lines.map fun line => scan (command line)

/-- Scans of single lines that agree with one scan of them all, but for the lines of diagnostics. -/
structure LineByLine (turns : List Scan) (whole : Scan) : Prop where
  words : turns.flatMap Scan.words = whole.words
  diagnostics : (turns.flatMap Scan.diagnostics).map (fun d => (d.severity, d.message)) =
    whole.diagnostics.map fun d => (d.severity, d.message)
  alone : ∀ found ∈ turns, ∀ d ∈ found.diagnostics, d.line = 1
  together : whole.diagnostics =
    (turns.zipIdx 1).flatMap fun (found, k) => found.diagnostics.map (.onLine k)

theorem flatMap_fst_zipIdx {α β : Type} (f : α → List β) (l : List α) (n : Nat) :
    ((l.zipIdx n).flatMap fun next => f next.1) = l.flatMap f := by
  rw [← @List.flatMap_map _ _ _ Prod.fst f, List.zipIdx_map_fst]

theorem flatMap_words_turns (closed : ∀ line ∈ text.lines, (scan (command line)).closed) :
    (turns text).flatMap Scan.words = (scan text).words := by
  rw [Scan.words, tokens_scan_lines closed, List.map_flatMap, turns, List.flatMap_map,
    ← flatMap_fst_zipIdx _ text.lines 0]
  congr 1
  funext next
  rw [List.map_map]
  rfl

theorem line_of_mem_turns : ∀ found ∈ turns text, ∀ d ∈ found.diagnostics, d.line = 1 := by
  intro found hf d hd
  obtain ⟨line, hl, rfl⟩ := List.mem_map.1 hf
  exact line_of_mem_diagnostics ((lines_lines text).lineFeed_not_mem line hl) hd

theorem diagnostics_scan_turns (closed : ∀ line ∈ text.lines, (scan (command line)).closed) :
    (scan text).diagnostics =
      ((turns text).zipIdx 1).flatMap fun (found, k) => found.diagnostics.map (.onLine k) := by
  rw [diagnostics_scan_lines closed, turns, List.zipIdx_map, List.zipIdx_succ, List.map_map,
    List.flatMap_map]
  apply List.flatMap_congr
  rintro ⟨line, k⟩ hl
  have member : scan (command line) ∈ turns text :=
    List.mem_map_of_mem (List.fst_mem_of_mem_zipIdx hl)
  apply List.map_congr_left
  intro d hd
  have first : d.line + k = k + 1 := by rw [line_of_mem_turns _ member d hd, Nat.add_comm]
  exact congrArg (fun n => d.onLine n) first

theorem lineByLine (closed : ∀ line ∈ text.lines, (scan (command line)).closed) :
    LineByLine (turns text) (scan text) where
  words := flatMap_words_turns closed
  diagnostics := by
    rw [diagnostics_scan_turns closed, ← flatMap_fst_zipIdx _ (turns text) 1, List.map_flatMap,
      List.map_flatMap]
    congr 1
    funext next
    rw [List.map_map]
    rfl
  alone := line_of_mem_turns
  together := diagnostics_scan_turns closed

open Session

/-- A conversation over the lines of a text, none of them the exit command, writes the tokens and
reports the diagnostics of one run of the text. -/
theorem prompt_agrees_with_run (s : Session) (unfailing : s.Unfailing) (input : ByteArray)
    (valid : decodeText input = .ok text)
    (goesOn : ∀ line ∈ text.lines, isExit (command line) = false)
    (closed : ∀ line ∈ text.lines, (scan (command line)).closed) :
    ∃ talked ran, s.runPrompt ⟨input, none⟩ = (talked, .ok ()) ∧ s.run text = (ran, .ok ()) ∧
      Told s talked (String.join (text.lines.map turn) ++ sign)
        ((turns text).flatMap Scan.diagnostics) ∧
      Told s ran (scan text).listing (scan text).diagnostics ∧
      LineByLine (turns text) (scan text) := by
  have lines := unfailing.told_lines text.lines
  have last := lines.unfailing.told_invited
  have talks : s.runPrompt ⟨input, none⟩ = ((text.lines.foldl answered s).invited, .ok ()) := by
    have converses := unfailing.converse_lines goesOn []
    rw [List.append_nil] at converses
    rw [runPrompt, Input.reads_of_decodeText valid, converses]
    exact lines.unfailing.invite_eq
  have told := lines.trans last
  rw [List.append_nil] at told
  rw [turns, List.flatMap_map]
  exact ⟨_, _, talks, unfailing.run_eq text, told, unfailing.told_ran text, lineByLine closed⟩

theorem prompt_agrees_with_run_on_four_lines :
    let text : Text := ['1', '.', '\r', '\r', '\n', '\n', '/', '*', '/', '*', '*', '/', '@', '\n',
      '/', '/', '"', '\r']
    let s : Session := {}
    s.Unfailing ∧ decodeText text.encode.toByteArray = .ok text ∧
      (∀ line ∈ text.lines, isExit (command line) = false) ∧
      (∀ line ∈ text.lines, (scan (command line)).closed) ∧
      ∃ talked ran, s.runPrompt ⟨text.encode.toByteArray, none⟩ = (talked, .ok ()) ∧
        s.run text = (ran, .ok ()) ∧
        Told s talked (String.join (text.lines.map turn) ++ sign)
          ((turns text).flatMap Scan.diagnostics) ∧
        Told s ran (scan text).listing (scan text).diagnostics ∧
        LineByLine (turns text) (scan text) :=
  ⟨⟨rfl, rfl, rfl⟩, decodeText_encode _, by decide, by decide,
    prompt_agrees_with_run {} ⟨rfl, rfl, rfl⟩ _ (decodeText_encode _) (by decide) (by decide)⟩

end LoxLexer
