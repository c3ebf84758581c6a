import LoxLexer.Proofs.Cut

namespace LoxLexer

theorem Cut.ne_nil {shape : Shape} {text after : Text} (h : Cut shape text after) : text ≠ [] := by
  cases h <;> simp

theorem Cut.pieces_eq {shape : Shape} {text after : Text} (h : Cut shape text after) (line : Nat) :
    pieces line (text ++ after) =
      ⟨shape, text, line⟩ :: pieces (line + Text.lineFeeds text) after := by
  cases text with
  | nil => exact absurd rfl h.ne_nil
  | cons c more => simp [pieces_cons, h.munch_eq]

theorem Cut.unique {shape shape' : Shape} {text text' after after' : Text}
    (h : Cut shape text after) (h' : Cut shape' text' after')
    (same : text ++ after = text' ++ after') :
    shape = shape' ∧ text = text' ∧ after = after' := by
  have pieces := h.pieces_eq 1
  rw [same, h'.pieces_eq 1] at pieces
  obtain ⟨rfl, rfl, -⟩ := Piece.mk.inj (List.cons.inj pieces).1
  exact ⟨rfl, rfl, List.append_cancel_left same⟩

theorem tokens_scan (source : Text) : (scan source).tokens =
    (pieces 1 source).filterMap Piece.token? ++ [.endOfInput (1 + source.lineFeeds)] := rfl

theorem diagnostics_scan (source : Text) :
    (scan source).diagnostics = (pieces 1 source).flatMap Piece.diagnostics := rfl

theorem drop_pieces {line : Nat} {source : Text} {before after : List Piece}
    (h : pieces line source = before ++ after) :
    source.drop (before.flatMap Piece.text).length = after.flatMap Piece.text := by
  rw [← flatMap_text_pieces line source, h, List.flatMap_append, List.drop_left]

/-- Pieces end to end, from `line` on. -/
inductive Cuts : Nat → Text → List Piece → Prop
  | nil : Cuts line [] []
  | cons : Cut shape text after → Cuts (line + Text.lineFeeds text) after ps →
      Cuts line (text ++ after) (⟨shape, text, line⟩ :: ps)

theorem cuts_pieces (line : Nat) (source : Text) : Cuts line source (pieces line source) := by
  induction h : source.length using Nat.strongRecOn generalizing line source with
  | ind n ih =>
    cases source with
    | nil => exact .nil
    | cons c rest =>
      have cut := cut_munch c rest
      have split : c :: rest =
          (c :: rest.take (Shape.munch c rest).2) ++ rest.drop (Shape.munch c rest).2 := by simp
      have shorter : (rest.drop (Shape.munch c rest).2).length < n := by
        simp only [← h, List.length_drop, List.length_cons]
        omega
      rw [split, cut.pieces_eq]
      exact .cons cut (ih _ shorter _ _ rfl)

namespace Cuts

variable {line : Nat} {source : Text} {p : Piece} {before after ps : List Piece}

theorem pieces_eq (h : Cuts line source ps) : pieces line source = ps := by
  induction h with
  | nil => rfl
  | cons cut _ ih => rw [cut.pieces_eq, ih]

theorem flatMap_text (h : Cuts line source ps) : ps.flatMap Piece.text = source := by
  rw [← h.pieces_eq, flatMap_text_pieces]

theorem cons_inv (h : Cuts line source (p :: ps)) : p.line = line ∧
    Cut p.shape p.text (ps.flatMap Piece.text) ∧ Cuts p.lastLine (ps.flatMap Piece.text) ps := by
  cases h with
  | cons cut later => exact ⟨rfl, later.flatMap_text ▸ cut, later.flatMap_text ▸ later⟩

theorem rest (h : Cuts line source (before ++ after)) :
    Cuts (line + Text.lineFeeds (before.flatMap Piece.text)) (after.flatMap Piece.text) after := by
  induction before generalizing line source with
  | nil =>
    obtain rfl := h.flatMap_text
    simpa using h
  | cons p before ih =>
    obtain ⟨rfl, -, later⟩ := h.cons_inv
    simpa [Piece.lastLine, Nat.add_assoc] using ih later

theorem cut (h : Cuts line source (before ++ p :: after)) :
    Cut p.shape p.text (after.flatMap Piece.text) := h.rest.cons_inv.2.1

theorem line_eq (h : Cuts line source (before ++ p :: after)) :
    p.line = line + Text.lineFeeds (before.flatMap Piece.text) := h.rest.cons_inv.1

theorem cut_of_mem (h : Cuts line source ps) (hp : p ∈ ps) : ∃ after, Cut p.shape p.text after := by
  obtain ⟨before, after, rfl⟩ := List.append_of_mem hp
  exact ⟨_, h.cut⟩

end Cuts

end LoxLexer
