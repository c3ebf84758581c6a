import Mathlib.Data.List.Basic
import LoxLexer.Proofs.Tiling

namespace LoxLexer

/-- The line of what is handed out for a piece that stands behind `start`. -/
structure LineExact (source start : Text) (p : Piece) : Prop where
  token : ∀ t, p.item? = some (.token t) → t.line = 1 + (start ++ p.text).lineFeeds
  otherToken : ∀ t, p.item? = some (.token t) → t.kind ≠ .string → t.line = 1 + start.lineFeeds
  string : ∀ t, p.item? = some (.token t) → t.kind = .string →
    ∃ value, p.text = '"' :: (value ++ ['"']) ∧ t.line = 1 + (start ++ '"' :: value).lineFeeds
  stray : ∀ line c, p.item? = some (.fault (.lexical line (.unexpectedCharacter c))) →
    line = 1 + start.lineFeeds
  unfinished : ∀ line cause, p.item? = some (.fault (.lexical line cause)) →
    cause = .unterminatedString ∨ cause = .unterminatedComment → line = 1 + source.lineFeeds

/-- Numbers in order, from `low` on and up to `high`, or below it where the order is strict. -/
def Ascends (r : Nat → Nat → Prop) (low high : Nat) (ns : List Nat) : Prop :=
  ns.Pairwise r ∧ ∀ n ∈ ns, low ≤ n ∧ r n high

variable {r : Nat → Nat → Prop} {line low mid high : Nat} {ns : List Nat} {source text : Text}
  {ps : List Piece}

theorem Text.lineFeeds_eq_zero (h : '\n' ∉ text) : text.lineFeeds = 0 := List.count_eq_zero.2 h

theorem Cuts.lineExact {before after : List Piece} {p : Piece}
    (h : Cuts 1 source (before ++ p :: after)) :
    LineExact source (before.flatMap Piece.text) p := by
  have mem : p ∈ before ++ p :: after := by simp
  have begins : p.line = 1 + Text.lineFeeds (before.flatMap Piece.text) := h.line_eq
  have ends : p.lastLine = 1 + Text.lineFeeds (before.flatMap Piece.text ++ p.text) := by
    rw [Piece.lastLine, begins, Text.lineFeeds_append, Nat.add_assoc]
  constructor
  case token =>
    intro t item
    rw [(h.wellFormed mem item).2.2, ends]
  case otherToken =>
    intro t item other
    obtain ⟨wf, lexeme, line⟩ := h.wellFormed mem item
    have clean := wf.lineFeed_not_mem other
    rw [line, ends, Text.lineFeeds_append, ← lexeme, Text.lineFeeds_eq_zero clean, Nat.add_zero]
  case string =>
    intro t item string
    obtain ⟨wf, lexeme, line⟩ := h.wellFormed mem item
    rw [string] at wf
    obtain ⟨value, quoted, -, -⟩ := wf.string_inv
    refine ⟨value, lexeme ▸ quoted, ?_⟩
    rw [line, ends, ← lexeme, quoted]
    simp
  case stray =>
    intro line c item
    obtain ⟨rfl, fits⟩ := h.matches_fault item
    obtain ⟨text, nothing⟩ := fits.stray_inv
    rw [ends, text]
    simp [nothing.ne_lineFeed]
  case unfinished =>
    intro line cause item hc
    obtain ⟨rfl, fits⟩ := h.matches_fault item
    have tiled := h.flatMap_text
    rw [List.flatMap_append, List.flatMap_cons, fits.after_eq_nil hc, List.append_nil] at tiled
    rw [ends, tiled]

theorem ascends_nil : Ascends r low high [] := by simp [Ascends]

theorem ascends_singleton {n : Nat} (low_le : low ≤ n) (le_high : r n high) :
    Ascends r low high [n] := by
  simp [Ascends, low_le, le_high]

theorem Ascends.append [Trans r (· ≤ ·) r] (low_le : low ≤ mid) (le_high : mid ≤ high)
    {ms : List Nat} (hm : Ascends r low mid ms) (hn : Ascends r mid high ns) :
    Ascends r low high (ms ++ ns) := by
  constructor
  · apply List.pairwise_append.2
    refine ⟨hm.1, hn.1, ?_⟩
    intro m first n later
    exact Trans.trans (hm.2 m first).2 (hn.2 n later).1
  · intro n mem
    cases List.mem_append.1 mem with
    | inl first => exact ⟨(hm.2 n first).1, Trans.trans (hm.2 n first).2 le_high⟩
    | inr later => exact ⟨Nat.le_trans low_le (hn.2 n later).1, (hn.2 n later).2⟩

theorem Ascends.mono [Trans r (· ≤ ·) r] (h : Ascends r low mid ns) {low' : Nat}
    (low_le : low' ≤ low) (le_high : mid ≤ high) : Ascends r low' high ns :=
  ⟨h.1, fun n hn => ⟨Nat.le_trans low_le (h.2 n hn).1, Trans.trans (h.2 n hn).2 le_high⟩⟩

theorem Cuts.rises (h : Cuts line source ps) (f : Piece → List Nat)
    (hf : ∀ p ∈ ps, Ascends (· ≤ ·) p.line p.lastLine (f p)) :
    Ascends (· ≤ ·) line (line + source.lineFeeds) (ps.flatMap f) := by
  induction h with
  | nil => simp [Ascends]
  | @cons shape text after line ps cut later ih =>
    rw [List.flatMap_cons, Text.lineFeeds_append, ← Nat.add_assoc]
    refine .append ?_ ?_ (hf _ List.mem_cons_self) ?_
    · exact Nat.le_add_right ..
    · exact Nat.le_add_right ..
    · apply ih
      intro p hp
      exact hf p (List.mem_cons_of_mem _ hp)

theorem rises_openers (line : Nat) (text : Text) :
    Ascends (· ≤ ·) line (line + text.lineFeeds) (openers line text) := by
  induction text generalizing line with
  | nil => simp [Ascends]
  | cons c rest ih =>
    have size : line + (Text.lineFeeds rest + if c = '\n' then 1 else 0) =
        (if c = '\n' then line + 1 else line) + Text.lineFeeds rest := by split <;> omega
    have next : line ≤ if c = '\n' then line + 1 else line := by split <;> omega
    rw [openers_cons, Text.lineFeeds_cons, size]
    refine .append next (Nat.le_add_right ..) ?_ (ih _)
    by_cases opener : c = '/' ∧ rest.head? = some '*'
    · rw [if_pos opener]
      simpa [Ascends] using next
    · rw [if_neg opener]
      simp [Ascends]

theorem Piece.line_of_token? {p : Piece} {t : Token} (h : p.token? = some t) :
    t.line = p.lastLine := by
  obtain ⟨shape, text, line⟩ := p
  cases shape <;> simp only [token?, Option.some.injEq, reduceCtorEq] at h <;> subst h <;> rfl

theorem Piece.rises_token (p : Piece) :
    Ascends (· ≤ ·) p.line p.lastLine (p.token?.toList.map Token.line) := by
  have bound : p.line ≤ p.lastLine := Nat.le_add_right ..
  cases h : p.token? with
  | none => simp [Ascends]
  | some t => simpa [Ascends, p.line_of_token? h] using bound

theorem Piece.rises_warnings (p : Piece) :
    Ascends (· ≤ ·) p.line p.lastLine (p.warnings.map Diagnostic.line) := by
  have inner := rises_openers p.line (p.text.drop 2)
  have fewer : Text.lineFeeds (p.text.drop 2) ≤ p.text.lineFeeds :=
    (List.drop_sublist 2 _).count_le _
  have lines : ((openers p.line (p.text.drop 2)).map Diagnostic.nestedComment).map Diagnostic.line =
      openers p.line (p.text.drop 2) := by
    rw [List.map_map]
    exact List.map_id _
  rw [warnings]
  split
  · rw [lines]; exact inner.mono (Nat.le_refl _) (Nat.add_le_add_left fewer _)
  · rw [lines]; exact inner.mono (Nat.le_refl _) (Nat.add_le_add_left fewer _)
  · simp [Ascends]

theorem Piece.rises_diagnostics (p : Piece) :
    Ascends (· ≤ ·) p.line p.lastLine (p.diagnostics.map Diagnostic.line) := by
  rw [diagnostics, List.map_append]
  refine .append ?_ (Nat.le_refl p.lastLine) p.rises_warnings ?_
  · exact Nat.le_add_right ..
  · cases h : p.cause? with
    | none => simp [fault?, h, Ascends]
    | some cause => simp [fault?, h, Ascends, Diagnostic.ofFault, Diagnostic.error, Fault.line?]

/-- The line of all that a scan finds, and in which order these lines come. -/
theorem scan_lines_exact (source : Text) :
    (Cursor.ofSource source).Yields ((pieces 1 source).filterMap Piece.item?) ∧
    (∀ before p after, pieces 1 source = before ++ p :: after →
      LineExact source (before.flatMap Piece.text) p) ∧
    (scan source).tokens.getLast? = some (.endOfInput (1 + source.lineFeeds)) ∧
    ((scan source).tokens.map Token.line).Pairwise (· ≤ ·) ∧
    ((scan source).diagnostics.map Diagnostic.line).Pairwise (· ≤ ·) := by
  have run := cuts_pieces 1 source
  refine ⟨Cursor.yields_ahead _ _ _, ?_, ?_, ?_, ?_⟩
  · intro before p after same
    exact (same ▸ run).lineExact
  · rw [tokens_scan, List.getLast?_concat]
  · have tokens := run.rises _ fun p _ => p.rises_token
    rw [← List.map_flatMap, ← List.filterMap_eq_flatMap_toList] at tokens
    have last : Ascends (· ≤ ·) (1 + source.lineFeeds) (1 + source.lineFeeds)
        ([.endOfInput (1 + source.lineFeeds)].map Token.line) := by
      simp [Ascends, Token.endOfInput, Token.plain]
    rw [tokens_scan, List.map_append]
    exact (tokens.append (Nat.le_add_right ..) (Nat.le_refl _) last).1
  · rw [diagnostics_scan, List.map_flatMap]
    exact (run.rises _ fun p _ => p.rises_diagnostics).1

end LoxLexer
