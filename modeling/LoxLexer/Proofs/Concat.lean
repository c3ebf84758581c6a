import LoxLexer.Proofs.Blanks
import LoxLexer.Proofs.Tiling

namespace LoxLexer

def Piece.shift (n : Nat) (p : Piece) : Piece := { p with line := p.line + n }

def Token.shift (n : Nat) (t : Token) : Token := { t with line := t.line + n }

def Diagnostic.shift (n : Nat) (d : Diagnostic) : Diagnostic := { d with line := d.line + n }

def Scan.reports (s : Scan) (cause : LexicalFault) : Bool :=
  s.diagnostics.any fun d => d.severity = .error && d.message = cause.message

variable {shape : Shape} {text after source a : Text} {line : Nat} {ps : List Piece} {p : Piece}

theorem Cut.append_lineFeed (h : Cut shape text after) (string : shape ≠ .openString)
    (comment : shape ≠ .openComment) (b : Text) : Cut shape text (after ++ '\n' :: b) := by
  by_cases line : shape = .lineComment
  · subst line
    cases h with
    | lineComment clean stop =>
      refine .lineComment clean ?_
      cases after with
      | nil => rfl
      | cons c after => exact stop
  · have ends : shape.takesBlanks = false := by cases shape <;> trivial
    exact h.upToBlank ends (.append (by decide) after b)

theorem pieces_append_lineFeed (h : Cuts line a ps)
    (closed : ∀ p ∈ ps, p.shape ≠ .openString ∧ p.shape ≠ .openComment) (b : Text) :
    pieces line (a ++ '\n' :: b) =
      ps ++ ⟨.blank, ['\n'], line + a.lineFeeds⟩ :: pieces (line + a.lineFeeds + 1) b := by
  induction h with
  | nil => exact (Cut.blank (by decide)).pieces_eq _
  | cons cut _ ih =>
    obtain ⟨⟨string, comment⟩, closed⟩ := List.forall_mem_cons.1 closed
    rw [List.append_assoc, (cut.append_lineFeed string comment b).pieces_eq, ih closed,
      Text.lineFeeds_append, List.cons_append, Nat.add_assoc]

theorem Cuts.shift (h : Cuts line source ps) (n : Nat) :
    Cuts (line + n) source (ps.map (Piece.shift n)) := by
  induction h with
  | nil => exact .nil
  | cons cut _ ih =>
    rw [Nat.add_right_comm] at ih
    exact .cons cut ih

theorem pieces_add (line n : Nat) (source : Text) :
    pieces (line + n) source = (pieces line source).map (Piece.shift n) :=
  ((cuts_pieces line source).shift n).pieces_eq

theorem openers_add (line n : Nat) (text : Text) :
    openers (line + n) text = (openers line text).map (· + n) := by
  induction text generalizing line with
  | nil => rfl
  | cons c rest ih =>
    have next : (if c = '\n' then line + n + 1 else line + n) =
        (if c = '\n' then line + 1 else line) + n := by split <;> omega
    rw [openers_cons, openers_cons, List.map_append, next, ih]
    congr 1
    split <;> rfl

theorem Piece.lastLine_shift (n : Nat) (p : Piece) : (p.shift n).lastLine = p.lastLine + n :=
  Nat.add_right_comm ..

theorem Piece.token?_shift (n : Nat) (p : Piece) :
    (p.shift n).token? = p.token?.map (Token.shift n) := by
  obtain ⟨shape, text, line⟩ := p
  cases shape <;> simp [token?, lastLine_shift] <;> rfl

theorem Piece.warnings_shift (n : Nat) (p : Piece) :
    (p.shift n).warnings = p.warnings.map (Diagnostic.shift n) := by
  obtain ⟨shape, text, line⟩ := p
  have comment : (openers (line + n) (text.drop 2)).map Diagnostic.nestedComment =
      ((openers line (text.drop 2)).map Diagnostic.nestedComment).map (Diagnostic.shift n) := by
    rw [openers_add, List.map_map, List.map_map]
    rfl
  cases shape with
  | blockComment => exact comment
  | openComment => exact comment
  | _ => rfl

theorem Piece.diagnostics_shift (n : Nat) (p : Piece) :
    (p.shift n).diagnostics = p.diagnostics.map (Diagnostic.shift n) := by
  have cause : (p.shift n).cause? = p.cause? := rfl
  rw [diagnostics, diagnostics, List.map_append, warnings_shift, fault?, fault?, lastLine_shift,
    cause]
  cases p.cause? <;> rfl

theorem reports_of_mem {cause : LexicalFault} (hp : p ∈ pieces 1 source)
    (h : p.cause? = some cause) : (scan source).reports cause = true := by
  apply List.any_eq_true.2
  refine ⟨.ofFault (.lexical p.lastLine cause), ?_, ?_⟩
  · rw [diagnostics_scan, List.mem_flatMap]
    exact ⟨p, hp, by simp [Piece.diagnostics, Piece.fault?, h]⟩
  · simp [Diagnostic.ofFault, Diagnostic.error, Fault.message]

theorem closed_of_reports (string : (scan a).reports .unterminatedString = false)
    (comment : (scan a).reports .unterminatedComment = false) :
    ∀ p ∈ pieces 1 a, p.shape ≠ .openString ∧ p.shape ≠ .openComment := by
  intro p hp
  constructor
  · intro h
    have cause : p.cause? = some .unterminatedString := by rw [Piece.cause?, h]
    simp [reports_of_mem hp cause] at string
  · intro h
    have cause : p.cause? = some .unterminatedComment := by rw [Piece.cause?, h]
    simp [reports_of_mem hp cause] at comment

theorem Piece.item?_of_token? {t : Token} (h : p.token? = some t) : p.item? = some (.token t) := by
  rw [item?, h]
  rfl

theorem filter_tokens_scan (source : Text) :
    (scan source).tokens.filter (·.kind ≠ .eof) = (pieces 1 source).filterMap Piece.token? := by
  have others : ((pieces 1 source).filterMap Piece.token?).filter (·.kind ≠ .eof) =
      (pieces 1 source).filterMap Piece.token? := by
    apply List.filter_eq_self.2
    intro t ht
    apply decide_eq_true
    obtain ⟨p, hp, ht⟩ := List.mem_filterMap.1 ht
    exact ((cuts_pieces 1 source).wellFormed hp (Piece.item?_of_token? ht)).1.kind_ne_eof
  rw [tokens_scan, List.filter_append, others]
  exact List.append_nil _

theorem filterMap_token?_shift (n : Nat) (ps : List Piece) :
    (ps.map (Piece.shift n)).filterMap Piece.token? =
      (ps.filterMap Piece.token?).map (Token.shift n) := by
  rw [List.filterMap_map, List.map_filterMap]
  congr 1
  funext p
  exact p.token?_shift n

theorem flatMap_diagnostics_shift (n : Nat) (ps : List Piece) :
    (ps.map (Piece.shift n)).flatMap Piece.diagnostics =
      (ps.flatMap Piece.diagnostics).map (Diagnostic.shift n) := by
  rw [List.flatMap_map, List.map_flatMap]
  congr 1
  funext p
  exact p.diagnostics_shift n

/-- What stands before a line feed is scanned as if it were all, and what stands behind it as if it
began there, lines apart. -/
theorem scan_append_lineFeed (string : (scan a).reports .unterminatedString = false)
    (comment : (scan a).reports .unterminatedComment = false) (b : Text) :
    scan (a ++ '\n' :: b) =
      ⟨(scan a).tokens.filter (·.kind ≠ .eof) ++ (scan b).tokens.map (.shift (a.lineFeeds + 1)),
        (scan a).diagnostics ++ (scan b).diagnostics.map (.shift (a.lineFeeds + 1))⟩ := by
  have split := pieces_append_lineFeed (cuts_pieces 1 a) (closed_of_reports string comment) b
  rw [Nat.add_assoc, pieces_add] at split
  have tokens : (scan (a ++ '\n' :: b)).tokens =
      (scan a).tokens.filter (·.kind ≠ .eof) ++ (scan b).tokens.map (.shift (a.lineFeeds + 1)) := by
    have last : 1 + Text.lineFeeds (a ++ '\n' :: b) = 1 + b.lineFeeds + (a.lineFeeds + 1) := by
      rw [Text.lineFeeds_append, Text.lineFeeds_cons, if_pos rfl]
      omega
    rw [tokens_scan, split, filter_tokens_scan, tokens_scan b, last, List.filterMap_append,
      List.filterMap_cons_none rfl, filterMap_token?_shift, List.map_append, List.append_assoc]
    rfl
  have diagnostics : (scan (a ++ '\n' :: b)).diagnostics =
      (scan a).diagnostics ++ (scan b).diagnostics.map (.shift (a.lineFeeds + 1)) := by
    rw [diagnostics_scan, split, diagnostics_scan a, diagnostics_scan b, List.flatMap_append,
      List.flatMap_cons, flatMap_diagnostics_shift]
    rfl
  rw [← tokens, ← diagnostics]

theorem scan_append_lineFeed_behind_point :
    let a : Text := ['/', '*', '/', '*', ' ', '*', '/', '1', '.']
    let b : Text := ['5']
    (scan a).reports .unterminatedString = false ∧
      (scan a).reports .unterminatedComment = false ∧
      scan (a ++ '\n' :: b) =
        ⟨(scan a).tokens.filter (·.kind ≠ .eof) ++ (scan b).tokens.map (.shift (a.lineFeeds + 1)),
          (scan a).diagnostics ++ (scan b).diagnostics.map (.shift (a.lineFeeds + 1))⟩ :=
  ⟨by decide, by decide, scan_append_lineFeed (by decide) (by decide) ['5']⟩

end LoxLexer
