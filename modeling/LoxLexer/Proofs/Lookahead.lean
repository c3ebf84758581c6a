import LoxLexer.Proofs.Tiling

namespace LoxLexer

variable {shape : Shape} {text rest after source : Text} {line : Nat} {c d : Char}
  {front back : List Piece}

theorem Cut.of_two_ahead (h : Cut shape text (c :: d :: rest)) (other : Text) :
    Cut shape text (c :: d :: other) := by
  cases h with
  | symbol hk stop => exact .symbol hk stop
  | operator hk hw => exact .operator hk hw
  | word hc parts stop => exact .word hc parts stop
  | whole hc digits stop hf =>
    refine .whole hc digits stop ?_
    -- Whether a fraction follows hangs on a point and the one character behind it.
    rw [fraction_eq_zero_iff] at hf ⊢
    rintro e more same
    obtain ⟨rfl, rfl, -⟩ : c = '.' ∧ d = e ∧ other = more := by simpa using same
    exact hf d rest rfl
  | fractional hc digits hd digits' stop => exact .fractional hc digits hd digits' stop
  | string clean => exact .string clean
  | blank hc => exact .blank hc
  | lineComment clean stop => exact .lineComment clean stop
  | blockComment once => exact .blockComment once
  | stray slash quote blank digit word none => exact .stray slash quote blank digit word none

theorem Cut.append (h : Cut shape text after) (ahead : 2 ≤ after.length) (more : Text) :
    Cut shape text (after ++ more) := by
  match after with
  | [] => simp at ahead
  | [_] => simp at ahead
  | c :: d :: rest => exact h.of_two_ahead (rest ++ more)

theorem Cuts.pieces_append (h : Cuts line source (front ++ back))
    (ahead : 2 ≤ (back.flatMap Piece.text).length) (more : Text) :
    pieces line (source ++ more) = front ++
      pieces (line + Text.lineFeeds (front.flatMap Piece.text))
        (back.flatMap Piece.text ++ more) := by
  induction front generalizing line source with
  | nil =>
    obtain rfl := h.flatMap_text
    rfl
  | cons p front ih =>
    rw [List.cons_append] at h
    cases h with
    | @cons shape text after _ _ cut later =>
      have far : 2 ≤ after.length := by
        rw [← later.flatMap_text, List.flatMap_append, List.length_append]
        omega
      rw [List.append_assoc, (cut.append far more).pieces_eq, ih later, List.flatMap_cons,
        Text.lineFeeds_append, Nat.add_assoc, List.cons_append]

/-- Text put behind a source changes nothing of what was scanned two characters before its end: the
longer source begins with the same pieces, so that the same items are handed out for them and the
same diagnostics told. -/
theorem pieces_settled_two_ahead {before after : List Piece} {p : Piece}
    (reached : pieces 1 source = before ++ p :: after)
    (ahead : 2 ≤ (after.flatMap Piece.text).length) (more : Text) :
    ∃ later, pieces 1 (source ++ more) = before ++ p :: later ∧
      later.flatMap Piece.text = after.flatMap Piece.text ++ more ∧
      (Cursor.ofSource source).Yields ((before ++ p :: after).filterMap Piece.item?) ∧
      (Cursor.ofSource (source ++ more)).Yields ((before ++ p :: later).filterMap Piece.item?) ∧
      (scan source).diagnostics = (before ++ p :: after).flatMap Piece.diagnostics ∧
      (scan (source ++ more)).diagnostics = (before ++ p :: later).flatMap Piece.diagnostics := by
  have run := cuts_pieces 1 source
  rw [reached, List.append_cons] at run
  have longer := run.pieces_append ahead more
  rw [List.append_assoc, List.singleton_append] at longer
  refine ⟨_, longer, flatMap_text_pieces _ _, ?_, ?_, ?_, ?_⟩
  · rw [← reached]
    exact Cursor.yields_ahead _ _ _
  · rw [← longer]
    exact Cursor.yields_ahead _ _ _
  · rw [← reached, diagnostics_scan]
  · rw [← longer, diagnostics_scan]

theorem pieces_settled_two_behind_numeral :
    let source : Text := ['/', '*', '/', '*', '*', '/', '1', '.', 'x']
    let before : List Piece := [⟨.blockComment, ['/', '*', '/', '*', '*', '/'], 1⟩]
    let p : Piece := ⟨.number, ['1'], 1⟩
    let after : List Piece := [⟨.plain .dot, ['.'], 1⟩, ⟨.plain .identifier, ['x'], 1⟩]
    let more : Text := ['5', '"']
    pieces 1 source = before ++ p :: after ∧ 2 ≤ (after.flatMap Piece.text).length ∧
      ∃ later, pieces 1 (source ++ more) = before ++ p :: later ∧
        later.flatMap Piece.text = after.flatMap Piece.text ++ more ∧
        (Cursor.ofSource source).Yields ((before ++ p :: after).filterMap Piece.item?) ∧
        (Cursor.ofSource (source ++ more)).Yields ((before ++ p :: later).filterMap Piece.item?) ∧
        (scan source).diagnostics = (before ++ p :: after).flatMap Piece.diagnostics ∧
        (scan (source ++ more)).diagnostics = (before ++ p :: later).flatMap Piece.diagnostics :=
  ⟨by decide, by decide, pieces_settled_two_ahead (by decide) (by decide) ['5', '"']⟩

example : pieces 1 ['1', '.'] = [⟨.number, ['1'], 1⟩, ⟨.plain .dot, ['.'], 1⟩] ∧
    pieces 1 ['1', '.', '5'] = [⟨.number, ['1', '.', '5'], 1⟩] := by decide

end LoxLexer
