import LoxLexer.Proofs.Walks

namespace LoxLexer

/-- The walker stands between `behind` and `ahead`. -/
structure Walker.InStep {F : Feed} (source behind ahead : Text) (w : Walker F) : Prop where
  split : source = behind ++ ahead
  current : w.current = (String.ofList behind).utf8ByteSize
  start_le : w.start ≤ w.current
  current_le : w.current ≤ (String.ofList source).utf8ByteSize
  start_valid : String.Pos.Raw.IsValid (String.ofList source) ⟨w.start⟩
  current_valid : String.Pos.Raw.IsValid (String.ofList source) ⟨w.current⟩
  unread : F.Yields w.chars (ahead.indexed w.current)
  peek : F.Yields (F.peek w.chars).2 (ahead.indexed w.current)
  peekSecond : F.Yields (F.peekSecond (F.peek w.chars).2).2 (ahead.indexed w.current)
  lexeme : ∃ lexeme, w.lexeme? source = some lexeme
  value : w.phase = .ending .string → 1 ≤ w.current ∧ w.start + 1 ≤ w.current - 1 ∧
    String.Pos.Raw.IsValid (String.ofList source) ⟨w.start + 1⟩ ∧
    String.Pos.Raw.IsValid (String.ofList source) ⟨w.current - 1⟩ ∧
    ∃ value, w.value? source = some value
  step : w.step source ≠ .fail
  line_le : w.line + w.phase.uncounted ≤ 1 + behind.length
  line_lt : (String.ofList source).utf8ByteSize < 2 ^ 63 → w.line + w.phase.uncounted < 2 ^ 64

namespace Walker

variable {F : Feed} {source before lexeme ahead more after : Text} {c : Cursor} {p : Piece}
  {kept : Array Diagnostic} {w : Walker F}

theorem length_le_bytes (text : Text) : text.length ≤ text.bytes := by
  induction text with
  | nil => exact Nat.le_refl 0
  | cons c text ih =>
    have := c.utf8Size_pos
    rw [List.length_cons, Text.bytes_cons]
    omega

theorem Tracks.exists_at (h : Tracks source c w) : ∃ before lexeme ahead,
    w.At source before lexeme ahead ∧
      w.line + w.phase.uncounted = 1 + Text.lineFeeds (before ++ lexeme) := by
  cases h with
  | rests h =>
    cases h with
    | mk phase place line => exact ⟨_, _, _, place, by rw [phase]; exact line⟩
  | inside h => exact ⟨_, _, _, h.place, h.line⟩

theorem Inside.exists_string (h : Inside source before lexeme more after p kept w)
    (phase : w.phase = .ending .string) :
    more = [] ∧ ∃ value, lexeme = '"' :: (value ++ ['"']) := by
  have remains := phase ▸ h.remains
  have cut := h.text ▸ h.cut
  generalize p.shape = shape at remains cut
  cases remains
  rw [List.append_nil] at cut
  cases cut
  exact ⟨rfl, _, rfl⟩

theorem isValid_of_split {a b : Text} {offset : Nat} (split : source = a ++ b)
    (bytes : offset = a.bytes) : String.Pos.Raw.IsValid (String.ofList source) ⟨offset⟩ :=
  split ▸ bytes ▸ Text.isValid_bytes a b

theorem At.between_quotes {value : Text} (h : w.At source before ('"' :: (value ++ ['"'])) ahead) :
    1 ≤ w.current ∧ w.start + 1 ≤ w.current - 1 ∧
      String.Pos.Raw.IsValid (String.ofList source) ⟨w.start + 1⟩ ∧
      String.Pos.Raw.IsValid (String.ofList source) ⟨w.current - 1⟩ ∧
      ∃ value, w.value? source = some value := by
  obtain ⟨start, current, split⟩ := h.quotes
  have size := Text.bytes_append (before ++ ['"']) value
  refine ⟨by omega, by omega, isValid_of_split split start, ?_, value, h.value?_eq⟩
  have split' : source = (before ++ ['"'] ++ value) ++ '"' :: ahead := by
    rw [split, List.append_assoc (before ++ ['"'])]
  exact isValid_of_split split' (by omega)

theorem Tracks.between_quotes (h : Tracks source c w) (phase : w.phase = .ending .string) :
    1 ≤ w.current ∧ w.start + 1 ≤ w.current - 1 ∧
      String.Pos.Raw.IsValid (String.ofList source) ⟨w.start + 1⟩ ∧
      String.Pos.Raw.IsValid (String.ofList source) ⟨w.current - 1⟩ ∧
      ∃ value, w.value? source = some value := by
  cases h with
  | rests h =>
    cases h with
    | mk between _ _ => cases phase.symm.trans between
  | inside h =>
    obtain ⟨rfl, value, rfl⟩ := h.exists_string phase
    exact h.place.between_quotes

theorem Tracks.step_ne_fail (faithful : F.Faithful) (h : Tracks source c w) :
    w.step source ≠ .fail := by
  intro fail
  have follows := fail ▸ h.step faithful
  cases follows

theorem Tracks.inStep (faithful : F.Faithful) (h : Tracks source c w) :
    ∃ behind ahead, w.InStep source behind ahead := by
  obtain ⟨before, lexeme, ahead, place, line⟩ := h.exists_at
  have split : source = (before ++ lexeme) ++ ahead := by rw [place.split, List.append_assoc]
  have size : (String.ofList source).utf8ByteSize = w.current + ahead.bytes := by
    rw [← Text.bytes_eq, split, Text.bytes_append, ← place.current]
  have start_le : w.start ≤ w.current := by
    rw [place.start, place.current, Text.bytes_append]
    exact Nat.le_add_right ..
  have peek := (faithful.peek place.unread).2
  have line_le : w.line + w.phase.uncounted ≤ 1 + (before ++ lexeme).length := by
    rw [line]
    exact Nat.add_le_add_left List.count_le_length 1
  have length_le := length_le_bytes (before ++ lexeme)
  rw [← place.current] at length_le
  refine ⟨before ++ lexeme, ahead, ?_⟩
  constructor
  case split => exact split
  case current => exact place.current.trans (Text.bytes_eq _)
  case start_le => exact start_le
  case current_le => exact size ▸ Nat.le_add_right ..
  case start_valid => exact isValid_of_split place.split place.start
  case current_valid => exact isValid_of_split split place.current
  case unread => exact place.unread
  case peek => exact peek
  case peekSecond => exact (faithful.peekSecond peek).2
  case lexeme => exact ⟨lexeme, place.lexeme?_eq⟩
  case value => exact h.between_quotes
  case step => exact h.step_ne_fail faithful
  case line_le => exact line_le
  case line_lt =>
    intro fits
    omega

/-- In every state the offsets are in step with the feed, no slice that is taken fails, and what the
calls for items come to is the scan. -/
theorem walker_never_fails {F : Feed} (faithful : F.Faithful) (source : Text) :
    (∀ w : Walker F, Reached source w → ∃ behind ahead, w.InStep source behind ahead) ∧
      ∀ tokens diagnostics events,
        Scans source 0 (ofSource source : Walker F) tokens diagnostics events ↔
          scan source = ⟨tokens, diagnostics⟩ ∧ (scanEvents source).toList = events := by
  refine ⟨?_, scans_iff faithful source⟩
  intro w reached
  obtain ⟨c, tracks, -⟩ := reached.tracks faithful
  exact tracks.inStep faithful

theorem walker_never_fails_in_string :
    let source := "\"\u00e9\"".toList
    let w : Walker Feed.buffered := ⟨Buffer.mk [] [], 0, 4, 1, #[], .ending .string⟩
    Feed.buffered.Faithful ∧ Reached source w ∧ ∃ behind ahead, w.InStep source behind ahead := by
  have reached : Reached "\"\u00e9\"".toList
      (⟨Buffer.mk [] [], 0, 4, 1, #[], .ending .string⟩ : Walker Feed.buffered) :=
    .on (.on (.on (.on .start rfl) rfl) rfl) rfl
  exact ⟨Feed.faithful_buffered, reached, (walker_never_fails Feed.faithful_buffered _).1 _ reached⟩

end Walker

end LoxLexer
