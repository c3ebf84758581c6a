import LoxLexer.Proofs.Blanks
import LoxLexer.Proofs.Tiling

namespace LoxLexer

def Text.fade (text : Text) : Text := text.map fun c => if c = '\n' then c else ' '

def Shape.fades : Shape → Bool
  | .lineComment | .blockComment | .openComment | .stray _ => true
  | _ => false

def Piece.blankOut (p : Piece) : Text := if p.shape.fades then p.text.fade else p.text

/-- The source with a space for every character of a comment and every stray character. -/
def Text.blankOut (source : Text) : Text := (pieces 1 source).flatMap Piece.blankOut

def Diagnostic.isError (cause : LexicalFault) (d : Diagnostic) : Bool :=
  d.severity = .error && d.message = cause.message

variable {line : Nat} {source : Text} {ps : List Piece} {p : Piece}

theorem Text.isBlank_of_mem_fade {text : Text} {c : Char} (h : c ∈ text.fade) : isBlank c := by
  obtain ⟨d, -, rfl⟩ := List.mem_map.1 h
  by_cases hd : d = '\n' <;> simp [hd, isBlank]

theorem Text.lineFeeds_fade (text : Text) : text.fade.lineFeeds = text.lineFeeds := by
  induction text with
  | nil => rfl
  | cons c text ih =>
    have same : (if c = '\n' then c else ' ') = '\n' ↔ c = '\n' := by
      by_cases hc : c = '\n' <;> simp [hc]
    rw [fade, List.map_cons, ← fade, lineFeeds_cons, lineFeeds_cons, ih]
    simp only [same]

theorem Piece.lineFeeds_blankOut (p : Piece) : p.blankOut.lineFeeds = p.text.lineFeeds := by
  rw [blankOut]
  split
  · exact p.text.lineFeeds_fade
  · rfl

theorem lineFeeds_flatMap_blankOut (ps : List Piece) :
    Text.lineFeeds (ps.flatMap Piece.blankOut) = Text.lineFeeds (ps.flatMap Piece.text) := by
  induction ps with
  | nil => rfl
  | cons p ps ih =>
    rw [List.flatMap_cons, List.flatMap_cons, Text.lineFeeds_append, Text.lineFeeds_append, ih,
      p.lineFeeds_blankOut]

theorem upToBlank_blankOut (ps : List Piece) :
    UpToBlank (ps.flatMap Piece.text) (ps.flatMap Piece.blankOut) := by
  induction ps with
  | nil => exact .nil
  | cons p ps ih =>
    rw [List.flatMap_cons, List.flatMap_cons, Piece.blankOut]
    split
    · cases p.text with
      | nil => exact ih
      | cons c text =>
        apply UpToBlank.blank
        exact Text.isBlank_of_mem_fade (show _ ∈ Text.fade (c :: text) from List.mem_cons_self)
    · exact .append_left p.text ih

def lasting (ps : List Piece) : List Piece := (telling ps).filter (!·.shape.fades)

theorem lasting_cons (p : Piece) (ps : List Piece) :
    lasting (p :: ps) = lasting [p] ++ lasting ps := by
  rw [lasting, telling_cons, List.filter_append]
  rfl

theorem lasting_of_fades (h : p.shape.fades = true) : lasting [p] = [] := by
  cases tells : p.tells <;> simp [lasting, telling, tells, h]

theorem lasting_of_kept (h : p.shape.fades = false) : lasting [p] = telling [p] := by
  cases tells : p.tells <;> simp [lasting, telling, tells, h]

theorem Cut.kept {shape : Shape} {text after other : Text} (h : Cut shape text after)
    (kept : shape.fades = false) (goes : UpToBlank after other) (ends : after = [] → other = []) :
    Cut shape text other := by
  by_cases string : shape = .openString
  · subst string
    cases h with
    | openString clean =>
      rw [ends rfl]
      exact .openString clean
  · have ends : shape.takesBlanks = false := by
      cases shape <;> simp_all [Shape.takesBlanks, Shape.fades]
    exact h.upToBlank ends goes

theorem Cuts.telling_blankOut (h : Cuts line source ps) :
    telling (pieces line (ps.flatMap Piece.blankOut)) = lasting ps := by
  induction h with
  | nil => rfl
  | @cons shape text after line ps cut later ih =>
    rw [List.flatMap_cons]
    cases fades : shape.fades with
    | true =>
      have blank : ∀ c ∈ text.fade, isBlank c := fun _ => Text.isBlank_of_mem_fade
      rw [Piece.blankOut, if_pos fades, telling_blanks blank, text.lineFeeds_fade, ih,
        lasting_cons, lasting_of_fades fades, List.nil_append]
    | false =>
      have goes := upToBlank_blankOut ps
      rw [later.flatMap_text] at goes
      have ends : after = [] → ps.flatMap Piece.blankOut = [] := by
        rintro rfl
        rw [later.eq_nil]
        rfl
      rw [Piece.blankOut, if_neg (by simp [fades]), (cut.kept fades goes ends).pieces_eq,
        telling_cons, ih, lasting_cons, lasting_of_kept fades]

theorem filterMap_token?_lasting (ps : List Piece) :
    (lasting ps).filterMap Piece.token? = ps.filterMap Piece.token? := by
  rw [lasting, List.filterMap_filter, ← filterMap_token?_telling]
  congr 1
  funext p
  obtain ⟨shape, text, line⟩ := p
  cases shape <;> rfl

theorem Piece.filter_warnings (cause : LexicalFault) (p : Piece) :
    p.warnings.filter (Diagnostic.isError cause) = [] := by
  apply List.filter_eq_nil_iff.2
  intro d hd
  simp [Diagnostic.isError, severity_of_mem_warnings hd]

theorem Diagnostic.isError_ofFault (line : Nat) (cause other : LexicalFault) :
    isError cause (ofFault (.lexical line other)) = decide (other = cause) :=
  decide_eq_decide.2 LexicalFault.message_inj

theorem Piece.filter_diagnostics (p : Piece) :
    p.diagnostics.filter (Diagnostic.isError .unterminatedString) =
      if p.shape.fades then [] else p.diagnostics := by
  obtain ⟨shape, text, line⟩ := p
  cases shape with
  | blockComment =>
    simp [diagnostics, filter_warnings, fault?, cause?, Shape.fades]
  | openComment =>
    simp [diagnostics, List.filter_append, filter_warnings, fault?, cause?, Shape.fades,
      Diagnostic.isError_ofFault]
  | stray c =>
    simp [diagnostics, List.filter_append, filter_warnings, fault?, cause?, Shape.fades,
      Diagnostic.isError_ofFault]
  | openString =>
    simp [diagnostics, warnings, fault?, cause?, Shape.fades, Diagnostic.isError_ofFault]
  | _ => rfl

theorem flatMap_diagnostics_lasting (ps : List Piece) :
    (lasting ps).flatMap Piece.diagnostics =
      (ps.flatMap Piece.diagnostics).filter (Diagnostic.isError .unterminatedString) := by
  rw [lasting, ← flatMap_diagnostics_telling ps]
  induction telling ps with
  | nil => rfl
  | cons p ps ih =>
    rw [List.flatMap_cons, List.filter_append, p.filter_diagnostics, ← ih]
    cases h : p.shape.fades with
    | true => simp [h]
    | false => simp [h]

theorem Cuts.length_unterminatedString_le (h : Cuts line source ps) :
    ((ps.flatMap Piece.diagnostics).filter
      (Diagnostic.isError .unterminatedString)).length ≤ 1 := by
  induction h with
  | nil => exact Nat.zero_le 1
  | cons cut later ih =>
    rw [List.flatMap_cons, List.filter_append, Piece.filter_diagnostics]
    cases cut with
    | openString _ =>
      rw [later.eq_nil]
      exact Nat.le_refl 1
    | _ => exact ih

/-- A comment or a stray character does to the tokens around it what spaces do. -/
theorem scan_blankOut (source : Text) :
    scan source.blankOut =
      ⟨(scan source).tokens,
        (scan source).diagnostics.filter (Diagnostic.isError .unterminatedString)⟩ ∧
      ((scan source).diagnostics.filter (Diagnostic.isError .unterminatedString)).length ≤ 1 := by
  have run := cuts_pieces 1 source
  have lines : source.blankOut.lineFeeds = source.lineFeeds := by
    rw [Text.blankOut, lineFeeds_flatMap_blankOut, run.flatMap_text]
  constructor
  · rw [scan_eq_telling source.blankOut, lines, Text.blankOut, run.telling_blankOut,
      filterMap_token?_lasting, flatMap_diagnostics_lasting, tokens_scan, diagnostics_scan]
  · exact run.length_unterminatedString_le

example : Text.blankOut ['=', '@', '=', '/', '/', '='] = ['=', ' ', '=', ' ', ' ', ' '] := by decide

end LoxLexer
