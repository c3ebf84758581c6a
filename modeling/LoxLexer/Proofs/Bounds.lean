import LoxLexer.Proofs.Walks

namespace LoxLexer

/-- What keeps a walker from walking on for ever: where it may go round, it takes a character. -/
structure Walker.Terminates {F : Feed} (source : Text) (w : Walker F) : Prop where
  returns : ∃ item? told w', w.Next source item? told w'
  lexeme : w.phase = .between → ∀ w', w.step source = .on w' → F.Consumes w.chars w'.chars
  run : ∀ stretch, w.phase = .taking stretch → ∀ w', w.step source = .on w' →
    F.Consumes w.chars w'.chars ∨ ∀ other, w'.phase ≠ .taking other
  comment : ∀ openedOn, w.phase = .commenting openedOn → ∀ w', w.step source = .on w' →
    F.Consumes w.chars w'.chars

variable {source text after : Text} {shape : Shape} {line : Nat} {ps : List Piece} {p : Piece}

theorem length_openers_le (line : Nat) (text : Text) :
    (openers line text).length ≤ text.length := by
  induction text generalizing line with
  | nil => exact Nat.le_refl 0
  | cons c rest ih =>
    rw [openers_cons, List.length_append, List.length_cons]
    have := ih (if c = '\n' then line + 1 else line)
    split <;> simp <;> omega

theorem length_warnings_le (p : Piece) : p.warnings.length ≤ p.text.length - 2 := by
  have openers := length_openers_le p.line (p.text.drop 2)
  rw [List.length_drop] at openers
  rw [Piece.warnings]
  split
  · rwa [List.length_map]
  · rwa [List.length_map]
  · exact Nat.zero_le _

theorem length_token?_add_fault?_le (p : Piece) :
    p.token?.toList.length + p.fault?.toList.length ≤ 1 := by
  obtain ⟨shape, text, line⟩ := p
  cases shape <;> simp [Piece.token?, Piece.fault?, Piece.cause?]

theorem Cut.length_le (h : Cut p.shape p.text after) :
    p.token?.toList.length + p.diagnostics.length ≤ p.text.length := by
  -- The first character is charged with the token or the fault, each warning with its slash.
  have nonempty := List.length_pos_of_ne_nil h.ne_nil
  have warnings := length_warnings_le p
  have one := length_token?_add_fault?_le p
  rw [Piece.diagnostics, List.length_append, Option.toList_map, List.length_map]
  omega

theorem Cuts.length_le (h : Cuts line source ps) :
    (ps.filterMap Piece.token?).length + (ps.flatMap Piece.diagnostics).length ≤ source.length := by
  induction h with
  | nil => exact Nat.le_refl 0
  | @cons shape text after line ps cut later ih =>
    have first : _ ≤ text.length := Cut.length_le (p := ⟨shape, text, line⟩) cut
    rw [List.flatMap_cons, List.length_append, List.length_append]
    cases token : Piece.token? ⟨shape, text, line⟩ with
    | none =>
      rw [token, Option.toList_none, List.length_nil] at first
      rw [List.filterMap_cons_none token]
      omega
    | some t =>
      rw [token, Option.toList_some, List.length_singleton] at first
      rw [List.filterMap_cons_some token, List.length_cons]
      omega

theorem length_scan_le (source : Text) :
    (scan source).tokens.length + (scan source).diagnostics.length ≤ source.length + 1 := by
  have found := (cuts_pieces 1 source).length_le
  rw [tokens_scan, diagnostics_scan, List.length_append, List.length_singleton]
  omega

namespace Walker

variable {F : Feed} {c : Cursor} {w w' : Walker F}

theorem Tracks.progresses (faithful : F.Faithful) (h : Tracks source c w)
    (step : w.step source = .on w') : w.Progresses w' := by
  have follows := step ▸ h.step faithful
  cases follows with
  | on _ _ progresses => exact progresses

theorem Progresses.consumes (h : w.Progresses w') (rank : w.phase.rank = 0) :
    F.Consumes w.chars w'.chars := by
  rcases h with consumes | ⟨less, -⟩
  · exact consumes
  · omega

theorem Tracks.terminates (faithful : F.Faithful) (h : Tracks source c w) :
    w.Terminates source := by
  constructor
  case returns =>
    obtain ⟨w', next, -⟩ := h.exists_next faithful
    exact ⟨_, _, w', next⟩
  case lexeme =>
    intro phase w' step
    exact (h.progresses faithful step).consumes (phase ▸ rfl)
  case comment =>
    intro openedOn phase w' step
    exact (h.progresses faithful step).consumes (phase ▸ rfl)
  case run =>
    intro stretch phase w' step
    rcases h.progresses faithful step with consumes | ⟨less, -⟩
    · exact .inl consumes
    · right
      intro other taking
      rw [phase, taking] at less
      exact absurd less (Nat.lt_irrefl 1)

/-- Every call for an item returns, no loop goes round without taking a character, and scanning
gives at most one token, error or warning for each character, beside the end of input. -/
theorem walker_terminates {F : Feed} (faithful : F.Faithful) (source : Text) :
    (∀ w : Walker F, Reached source w → w.Terminates source) ∧
      (∀ tokens diagnostics events,
        Scans source 0 (ofSource source : Walker F) tokens diagnostics events ↔
          scan source = ⟨tokens, diagnostics⟩ ∧ (scanEvents source).toList = events) ∧
      (scan source).tokens.length + (scan source).diagnostics.length ≤ source.length + 1 := by
  refine ⟨?_, scans_iff faithful source, length_scan_le source⟩
  intro w reached
  obtain ⟨c, tracks, -⟩ := reached.tracks faithful
  exact tracks.terminates faithful

theorem walker_terminates_in_open_comment :
    let source := "/*/*".toList
    let w : Walker Feed.buffered :=
      ⟨Buffer.mk [(3, '*')] [], 0, 3, 1, #[.nestedComment 1], .commenting 1⟩
    Feed.buffered.Faithful ∧ Reached source w ∧ w.Terminates source := by
  have reached : Reached (F := Feed.buffered) "/*/*".toList
      ⟨Buffer.mk [(3, '*')] [], 0, 3, 1, #[.nestedComment 1], .commenting 1⟩ :=
    .on (.on (.on .start rfl) rfl) rfl
  exact ⟨Feed.faithful_buffered, reached, (walker_terminates Feed.faithful_buffered _).1 _ reached⟩

end Walker

end LoxLexer
