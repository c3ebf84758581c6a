import LoxLexer.Proofs.Tiling
import LoxLexer.Proofs.Walker

namespace LoxLexer

def Phase.uncounted : Phase → Nat
  | .began c => Text.lineFeeds [c]
  | .taking (.string lineFeeds) => lineFeeds
  | _ => 0

def Phase.toWarn (p : Piece) (line : Nat) (more : Text) : Phase → List Diagnostic
  | .commenting _ => (openers line more).map .nestedComment
  | .began _ => p.warnings
  | _ => []

def Phase.rank : Phase → Nat
  | .began _ => 2
  | .taking _ => 1
  | _ => 0

inductive Left : Stretch → Shape → Text → Text → Text → Prop
  | lineComment : Left .lineComment .lineComment lexeme [] after
  | string : Left (.string lineFeeds) .string lexeme ['"'] after
  | openString : Left (.string lineFeeds) .openString lexeme [] []
  | whole : fraction after = 0 → Left .whole .number lexeme [] after
  | fractional : d.isDigit → (∀ e ∈ places, e.isDigit) → after.startsWith Char.isDigit = false →
      Left .whole .number lexeme ('.' :: d :: places) after
  | places : Left .places .number lexeme [] after
  | word : Left .word (.plain (.ofWord lexeme)) lexeme [] after

/-- What is left of a piece of a shape with a lexeme taken, and what is behind the piece, if the
piece begins on `line`. -/
inductive Remains (line : Nat) : Phase → Shape → Text → Text → Text → Prop
  | began : Cut shape (c :: more) after → Remains line (.began c) shape [c] more after
  | taking : (∀ c ∈ run, stretch.goesOn c) → (rest ++ after).startsWith stretch.goesOn = false →
      Left stretch shape (lexeme ++ run) rest after →
      Remains line (.taking stretch) shape lexeme (run ++ rest) after
  | blockComment : ClosesOnce body →
      Remains line (.commenting line) .blockComment lexeme (body ++ ['*', '/']) after
  | openComment : NeverCloses body → Remains line (.commenting line) .openComment lexeme body []
  | closing : Remains line .closing .blockComment lexeme ['/'] after
  | plain : Remains line (.ending (.plain kind)) (.plain kind) lexeme [] after
  | word : Remains line (.ending .word) (.plain (.ofWord lexeme)) lexeme [] after
  | number : Remains line (.ending .number) .number lexeme [] after
  | string : Remains line (.ending .string) .string lexeme [] after

variable {line : Nat}

theorem Remains.run {stretch : Stretch} {shape : Shape} {lexeme run after : Text}
    (inside : ∀ c ∈ run, stretch.goesOn c) (stop : after.startsWith stretch.goesOn = false)
    (left : Left stretch shape (lexeme ++ run) [] after) :
    Remains line (.taking stretch) shape lexeme run after := by
  rw [← List.nil_append after] at stop
  have remains : Remains line (.taking stretch) shape lexeme (run ++ []) after :=
    .taking inside stop left
  rwa [List.append_nil] at remains

theorem uncounted_past {stretch : Stretch} {x : Char} (goes : stretch.goesOn x) :
    (Phase.taking (stretch.past x)).uncounted =
      (Phase.taking stretch).uncounted + Text.lineFeeds [x] := by
  have count : Text.lineFeeds [x] = if x = '\n' then 1 else 0 := by simp
  cases stretch with
  | string n =>
    rw [count]
    simp only [Stretch.past, Phase.uncounted]
    split <;> rfl
  | _ =>
    have other : x ≠ '\n' := by
      rintro rfl
      exact absurd goes (by decide)
    rw [count, if_neg other]
    rfl

theorem goesOn_past (x : Char) (stretch : Stretch) : (stretch.past x).goesOn = stretch.goesOn := by
  cases stretch <;> rfl

theorem Left.past {stretch : Stretch} {shape : Shape} {lexeme more after : Text}
    (h : Left stretch shape lexeme more after) (x : Char) :
    Left (stretch.past x) shape lexeme more after := by
  cases h with
  | lineComment => exact .lineComment
  | string => exact .string
  | openString => exact .openString
  | whole stop => exact .whole stop
  | fractional digit digits stop => exact .fractional digit digits stop
  | places => exact .places
  | word => exact .word

theorem Remains.warnings_eq_nil {stretch : Stretch} {p : Piece} {lexeme more after : Text}
    (h : Remains line (.taking stretch) p.shape lexeme more after) : p.warnings = [] := by
  generalize shape : p.shape = s at h
  cases h with
  | taking _ _ left => cases left <;> simp [Piece.warnings, shape]

theorem exists_cut (c : Char) (rest : Text) :
    ∃ shape more after, rest = more ++ after ∧ Cut shape (c :: more) after :=
  ⟨_, _, _, (List.take_append_drop ..).symm, cut_munch c rest⟩

theorem Remains.lexeme_eq {shape : Shape} {c : Char} {lexeme more after : Text}
    (h : Remains line (.began c) shape lexeme more after) : lexeme = [c] := by
  cases h
  rfl

theorem Remains.more_eq_nil {shape : Shape} {taken : Taken} {lexeme more after : Text}
    (h : Remains line (.ending taken) shape lexeme more after) : more = [] := by
  cases h <;> rfl

theorem Cut.isNumeral {lexeme after : Text} (h : Cut .number lexeme after) : IsNumeral lexeme := by
  cases h with
  | whole first digits _ _ => exact .whole (isDigits_cons.2 ⟨first, digits⟩)
  | fractional first digits point digits' _ =>
    exact .fractional (isDigits_cons.2 ⟨first, digits⟩) (isDigits_cons.2 ⟨point, digits'⟩)

def Cursor.atPiece (source : Text) (p : Piece) (after : Text) (kept : Array Diagnostic) : Cursor :=
  ⟨p :: pieces p.lastLine after, kept, 1 + source.lineFeeds⟩

def Cursor.alarms (c : Cursor) : List Event :=
  ((c.ahead.find? (·.item?.isSome)).map alarm).getD []

theorem Cursor.alarm_of_token {p : Piece} {t : Token} (h : p.item? = some (.token t)) :
    alarm p = [] := by
  refine if_neg fun comment => ?_
  simp [Piece.item?, Piece.token?, Piece.fault?, Piece.cause?, comment] at h

namespace Walker

variable {F : Feed}

structure At (w : Walker F) (source before lexeme ahead : Text) : Prop where
  split : source = before ++ (lexeme ++ ahead)
  start : w.start = before.bytes
  current : w.current = Text.bytes (before ++ lexeme)
  unread : F.Yields w.chars (ahead.indexed w.current)

inductive Rests (source : Text) : Cursor → Walker F → Prop
  | mk : w.phase = .between → w.At source before lexeme ahead →
      w.line = 1 + Text.lineFeeds (before ++ lexeme) →
      Rests source ⟨pieces w.line ahead, w.pending, 1 + source.lineFeeds⟩ w

/-- In the middle of the piece, with `more` of it ahead. -/
structure Inside (source before lexeme more after : Text) (p : Piece) (kept : Array Diagnostic)
    (w : Walker F) : Prop where
  place : w.At source before lexeme (more ++ after)
  line : w.line + w.phase.uncounted = 1 + Text.lineFeeds (before ++ lexeme)
  cut : Cut p.shape p.text after
  text : p.text = lexeme ++ more
  first : p.line = 1 + before.lineFeeds
  remains : Remains p.line w.phase p.shape lexeme more after
  warned : w.pending ++ w.phase.toWarn p w.line more = kept ++ p.warnings

inductive Tracks (source : Text) : Cursor → Walker F → Prop
  | rests : Rests source c w → Tracks source c w
  | inside : Inside source before lexeme more after p kept w →
      Tracks source (.atPiece source p after kept) w

def Progresses (w w' : Walker F) : Prop :=
  F.Consumes w.chars w'.chars ∨
    w'.phase.rank < w.phase.rank ∧ ∃ items, F.Yields w.chars items ∧ F.Yields w'.chars items

structure Nears (d c : Cursor) : Prop where
  next : d.next = c.next
  alarms : d.alarms = c.alarms
  ahead : d.ahead <:+ c.ahead

/-- What the cursor does with its next item the step does too, or it gets nearer to it. -/
inductive Follows (source : Text) (c : Cursor) (w : Walker F) : Move F → Prop
  | on : Tracks source d w' → Nears d c → w.Progresses w' → Follows source c w (.on w')
  | give : Rests source d w' → c.next = (some item, d) → told = c.alarms →
      Follows source c w (.give told item w')
  | halt : Rests source d w' → c.next = (none, d) → Follows source c w (.halt w')

variable {source before before' lexeme lexeme' ahead more after : Text} {c d : Cursor} {p : Piece}
  {kept : Array Diagnostic} {w w' : Walker F} {x : Char}

@[simp] theorem line_advance (w : Walker F) : w.advance.2.line = w.line := by
  rw [advance]; split <;> rfl

@[simp] theorem pending_advance (w : Walker F) : w.advance.2.pending = w.pending := by
  rw [advance]; split <;> rfl

@[simp] theorem phase_advance (w : Walker F) : w.advance.2.phase = w.phase := by
  rw [advance]; split <;> rfl

@[simp] theorem line_peek (w : Walker F) : w.peek.2.line = w.line := rfl

@[simp] theorem pending_peek (w : Walker F) : w.peek.2.pending = w.pending := rfl

@[simp] theorem phase_peek (w : Walker F) : w.peek.2.phase = w.phase := rfl

@[simp] theorem line_peekSecond (w : Walker F) : w.peekSecond.2.line = w.line := rfl

@[simp] theorem pending_peekSecond (w : Walker F) : w.peekSecond.2.pending = w.pending := rfl

@[simp] theorem phase_peekSecond (w : Walker F) : w.peekSecond.2.phase = w.phase := rfl

@[simp] theorem line_restart (w : Walker F) : w.restart.line = w.line := rfl

@[simp] theorem pending_restart (w : Walker F) : w.restart.pending = w.pending := rfl

@[simp] theorem phase_restart (w : Walker F) : w.restart.phase = w.phase := rfl

@[simp] theorem line_enter (w : Walker F) (phase : Phase) : (w.enter phase).line = w.line := rfl

@[simp] theorem pending_enter (w : Walker F) (phase : Phase) :
    (w.enter phase).pending = w.pending := rfl

@[simp] theorem phase_enter (w : Walker F) (phase : Phase) : (w.enter phase).phase = phase := rfl

namespace At

theorem enter (h : w.At source before lexeme ahead) (phase : Phase) :
    (w.enter phase).At source before lexeme ahead := ⟨h.split, h.start, h.current, h.unread⟩

theorem advance_eq (h : w.At source before lexeme (x :: ahead)) :
    w.advance = (some x, w.advance.2) := by
  have next := h.unread.fst_next
  rw [advance]
  cases hn : F.next w.chars with
  | mk item chars =>
    rw [hn] at next
    cases next
    rfl

theorem advance (h : w.At source before lexeme (x :: ahead)) :
    w.advance.2.At source before (lexeme ++ [x]) ahead := by
  have next := h.unread.fst_next
  have later := h.unread.snd_next
  have current : w.current + x.utf8Size = Text.bytes (before ++ (lexeme ++ [x])) := by
    rw [h.current]
    simp
    omega
  rw [Walker.advance]
  cases hn : F.next w.chars with
  | mk item chars =>
    rw [hn] at next later
    cases next
    exact ⟨by simp [h.split], h.start, current, later⟩

theorem advance_nil (faithful : F.Faithful) (h : w.At source before lexeme []) :
    w.advance = (none, w.advance.2) ∧ w.advance.2.At source before lexeme [] := by
  have next := h.unread.fst_next
  have later := faithful.fused h.unread
  rw [Walker.advance]
  cases hn : F.next w.chars with
  | mk item chars =>
    rw [hn] at next later
    cases next
    exact ⟨rfl, h.split, h.start, h.current, later⟩

theorem peek_eq (faithful : F.Faithful) (h : w.At source before lexeme ahead) :
    w.peek = (ahead.head?, w.peek.2) := by
  rw [Walker.peek, (faithful.peek h.unread).1]
  cases ahead <;> rfl

theorem peek (faithful : F.Faithful) (h : w.At source before lexeme ahead) :
    w.peek.2.At source before lexeme ahead :=
  ⟨h.split, h.start, h.current, (faithful.peek h.unread).2⟩

theorem peekSecond_eq (faithful : F.Faithful) (h : w.At source before lexeme ahead) :
    w.peekSecond = (ahead[1]?, w.peekSecond.2) := by
  rw [Walker.peekSecond, (faithful.peekSecond h.unread).1]
  match ahead with
  | [] => rfl
  | [_] => rfl
  | _ :: _ :: _ => rfl

theorem peekSecond (faithful : F.Faithful) (h : w.At source before lexeme ahead) :
    w.peekSecond.2.At source before lexeme ahead :=
  ⟨h.split, h.start, h.current, (faithful.peekSecond h.unread).2⟩

theorem takes_of_eq (faithful : F.Faithful) (h : w.At source before lexeme (x :: ahead)) :
    w.takes x = (true, w.peek.2.advance.2) ∧
      w.peek.2.advance.2.At source before (lexeme ++ [x]) ahead := by
  rw [takes, h.peek_eq faithful]
  exact ⟨if_pos rfl, (h.peek faithful).advance⟩

theorem takes_of_ne (faithful : F.Faithful) (h : w.At source before lexeme ahead)
    (other : ahead.head? ≠ some x) :
    w.takes x = (false, w.peek.2) := by
  rw [takes, h.peek_eq faithful]
  exact if_neg other

theorem current_eq (h : w.At source before lexeme ahead) {passed : Text}
    (split : source = passed ++ ahead) : w.current = passed.bytes := by
  have same : (before ++ lexeme) ++ ahead = passed ++ ahead := by
    rw [List.append_assoc, ← h.split, split]
  rw [h.current, List.append_cancel_right same]

theorem consumes (h : w.At source before lexeme (x :: ahead))
    (h' : w'.At source before' lexeme' ahead) : F.Consumes w.chars w'.chars := by
  have split : source = (before ++ lexeme ++ [x]) ++ ahead := by simp [h.split]
  have current : w'.current = w.current + x.utf8Size := by
    rw [h'.current_eq split, Text.bytes_append, ← h.current]
    rfl
  exact ⟨_, _, h.unread, current ▸ h'.unread⟩

theorem unread_both (h : w.At source before lexeme ahead)
    (h' : w'.At source before' lexeme' ahead) :
    ∃ items, F.Yields w.chars items ∧ F.Yields w'.chars items := by
  have split : source = (before ++ lexeme) ++ ahead := by rw [List.append_assoc, ← h.split]
  have current : w'.current = w.current := by rw [h'.current_eq split, h.current]
  exact ⟨_, h.unread, current ▸ h'.unread⟩

end At

theorem Nears.refl (c : Cursor) : Nears c c := ⟨rfl, rfl, List.suffix_rfl⟩

theorem nears_of_skipped (skipped : p.item? = none) (ps : List Piece) (kept : Array Diagnostic)
    (lastLine : Nat) : Nears ⟨ps, kept ++ p.warnings, lastLine⟩ ⟨p :: ps, kept, lastLine⟩ where
  next := (Cursor.next_cons_of_none skipped ps kept lastLine).symm
  alarms := by simp [Cursor.alarms, skipped]
  ahead := List.suffix_cons p ps

namespace Inside

theorem stay (h : Inside source before lexeme (x :: more) after p kept w)
    (place : w'.At source before (lexeme ++ [x]) (more ++ after))
    (line : w'.line + w'.phase.uncounted = w.line + w.phase.uncounted + Text.lineFeeds [x])
    (remains : Remains p.line w'.phase p.shape (lexeme ++ [x]) more after)
    (warned : w'.pending ++ w'.phase.toWarn p w'.line more =
      w.pending ++ w.phase.toWarn p w.line (x :: more)) :
    Follows source (.atPiece source p after kept) w (.on w') := by
  refine .on (.inside ⟨place, ?_, h.cut, ?_, h.first, remains, warned.trans h.warned⟩) (.refl _)
    (.inl (h.place.consumes place))
  · rw [line, h.line, Nat.add_assoc, ← Text.lineFeeds_append, List.append_assoc]
  · rw [h.text, List.append_assoc, List.singleton_append]

theorem turn (h : Inside source before lexeme more after p kept w)
    (place : w'.At source before lexeme (more ++ after))
    (line : w'.line + w'.phase.uncounted = w.line + w.phase.uncounted)
    (remains : Remains p.line w'.phase p.shape lexeme more after)
    (warned : w'.pending ++ w'.phase.toWarn p w'.line more =
      w.pending ++ w.phase.toWarn p w.line more)
    (rank : w'.phase.rank < w.phase.rank) :
    Follows source (.atPiece source p after kept) w (.on w') :=
  .on (.inside ⟨place, line.trans h.line, h.cut, h.text, h.first, remains, warned.trans h.warned⟩)
    (.refl _) (.inr ⟨rank, h.place.unread_both place⟩)

theorem rests (h : Inside source before lexeme more after p kept w)
    (place : w'.At source before (lexeme ++ more) after) (phase : w'.phase = .between)
    (line : w'.line = p.lastLine) (pending : w'.pending = kept ++ p.warnings) :
    Rests source ⟨pieces p.lastLine after, kept ++ p.warnings, 1 + source.lineFeeds⟩ w' := by
  rw [← line, ← pending]
  refine .mk phase place ?_
  rw [line, Piece.lastLine, h.first, h.text, Nat.add_assoc, ← Text.lineFeeds_append]

theorem lastLine_eq (h : Inside source before lexeme [] after p kept w) :
    p.lastLine = w.line + w.phase.uncounted := by
  rw [Piece.lastLine, h.first, h.text, h.line, List.append_nil, Nat.add_assoc,
    ← Text.lineFeeds_append]

theorem line_eq (h : Inside source before lexeme [] after p kept w)
    (counted : w.phase.uncounted = 0) : w.line = p.lastLine := by
  rw [h.lastLine_eq, counted, Nat.add_zero]

theorem pending_eq (h : Inside source before lexeme more after p kept w)
    (quiet : w.phase.toWarn p w.line more = []) : w.pending = kept ++ p.warnings := by
  have warned := h.warned
  rwa [quiet, Array.appendList_nil] at warned

theorem give {item : Item} {told : List Event}
    (h : Inside source before lexeme [] after p kept w)
    (place : w'.At source before lexeme after) (phase : w'.phase = .between)
    (line : w'.line = p.lastLine) (pending : w'.pending = kept ++ p.warnings)
    (given : p.item? = some item) (alarm : told = Cursor.alarm p) :
    Follows source (.atPiece source p after kept) w (.give told item w') := by
  have rests := h.rests ((List.append_nil lexeme).symm ▸ place) phase line pending
  refine .give rests (Cursor.next_cons_of_some given ..) ?_
  simp [Cursor.alarms, Cursor.atPiece, given, alarm]

theorem fault {cause : LexicalFault} {told : List Event}
    (h : Inside source before lexeme [] after p kept w)
    (place : w'.At source before lexeme after) (line : w'.line = p.lastLine)
    (pending : w'.pending = kept ++ p.warnings) (sense : p.shape.sense p.text = .fault cause)
    (alarm : told = Cursor.alarm p) :
    Follows source (.atPiece source p after kept) w (w'.fault told cause) := by
  refine h.give (place.enter _) rfl line pending ?_ alarm
  rw [p.item?_eq, sense, line]
  rfl

theorem skip (h : Inside source before lexeme more after p kept w)
    (place : w'.At source before (lexeme ++ more) after) (phase : w'.phase = .between)
    (line : w'.line = p.lastLine) (pending : w'.pending = kept ++ p.warnings)
    (skipped : p.item? = none) (progresses : w.Progresses w') :
    Follows source (.atPiece source p after kept) w (.on w') :=
  .on (.rests (h.rests place phase line pending)) (nears_of_skipped skipped ..) progresses

end Inside

end Walker

end LoxLexer
