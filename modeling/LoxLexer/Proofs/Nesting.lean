import Mathlib.Data.List.Induction
import LoxLexer.Proofs.Events

namespace LoxLexer

/-- The offsets between longest matches, taken one behind the other from the front of the source. -/
inductive Boundary (source : Text) : Nat → Prop
  | start : Boundary source 0
  | step : Boundary source n → source.drop n = text ++ after → LongestMatch sense text after →
      Boundary source (n + text.length)

structure OpensAt (source : Text) (n : Nat) : Prop where
  boundary : Boundary source n
  opener : ['/', '*'] <+: source.drop n

/-- Of a comment that begins at `n` the first `*/`, which shares no star with the opener. -/
structure ClosesAt (source : Text) (n j : Nat) : Prop where
  behind : n + 2 ≤ j
  closer : ['*', '/'] <+: source.drop j
  first : ∀ k, n + 2 ≤ k → ['*', '/'] <+: source.drop k → j ≤ k

def StaysOpen (source : Text) (n : Nat) : Prop :=
  ∀ j, n + 2 ≤ j → ¬ ['*', '/'] <+: source.drop j

/-- A `/*` in the comment that begins at `n`. Its star may be that of the `*/`. -/
structure NestedAt (source : Text) (n i : Nat) : Prop where
  opens : OpensAt source n
  behind : n + 2 ≤ i
  opener : ['/', '*'] <+: source.drop i
  before : ∀ j, ClosesAt source n j → i < j

inductive Skips (source : Text) (n : Nat) (p : Piece) : Prop
  | closed : ClosesAt source n j → p.text = (source.drop n).take (j + 2 - n) → p.item? = none →
      Skips source n p
  | unclosed : StaysOpen source n → p.text = source.drop n →
      p.item? = some (.fault (.lexical (1 + source.lineFeeds) .unterminatedComment)) →
      Skips source n p

structure WarnsAt (source : Text) (offsets : List Nat) : Prop where
  rises : offsets.Pairwise (· < ·)
  nested : ∀ i, i ∈ offsets ↔ ∃ n, NestedAt source n i
  warnings : (scan source).diagnostics.filter (·.severity = .warning) =
    offsets.map fun i => .nestedComment (1 + Text.lineFeeds (source.take i))

inductive CommentCut : Shape → Text → Text → Prop
  | closed : ClosesOnce body → CommentCut .blockComment ('/' :: '*' :: (body ++ ['*', '/'])) after
  | unclosed : NeverCloses body → CommentCut .openComment ('/' :: '*' :: body) []

namespace Piece

def nested (start : Nat) (p : Piece) : List Nat :=
  match p.shape with
  | .blockComment | .openComment => Text.openings (start + 2) (p.text.drop 2)
  | _ => []

def nestedFrom (start : Nat) : List Piece → List Nat
  | [] => []
  | p :: ps => p.nested start ++ nestedFrom (start + p.text.length) ps

end Piece

variable {source text after body : Text} {shape : Shape} {sense : Sense} {line start n m i j : Nat}
  {before ps : List Piece} {p : Piece} {c d : Char}

theorem boundary_of_pieces (h : pieces 1 source = before ++ ps) :
    Boundary source (before.flatMap Piece.text).length := by
  induction before using List.reverseRecOn generalizing ps with
  | nil => exact .start
  | append_singleton before p ih =>
    rw [List.append_assoc] at h
    have cut := (h ▸ cuts_pieces 1 source).cut
    rw [List.flatMap_append, List.flatMap_singleton, List.length_append]
    exact .step (ih h) (drop_pieces h) cut.longestMatch

theorem exists_piece_of_longestMatch (h : pieces 1 source = before ++ ps)
    (ahead : source.drop (before.flatMap Piece.text).length = text ++ after)
    (longest : LongestMatch sense text after) : ∃ p later, ps = p :: later ∧ p.text = text := by
  rw [drop_pieces h] at ahead
  cases ps with
  | nil => exact absurd (List.append_eq_nil_iff.1 ahead.symm).1 longest.fits.ne_nil
  | cons p later =>
    have cut := (h ▸ cuts_pieces 1 source).cut
    exact ⟨p, later, rfl, cut.longestMatch.unique longest ahead⟩

theorem exists_pieces_of_boundary (h : Boundary source n) :
    ∃ before ps, pieces 1 source = before ++ ps ∧ n = (before.flatMap Piece.text).length := by
  induction h with
  | start => exact ⟨[], pieces 1 source, rfl, rfl⟩
  | @step n text after sense _ ahead longest ih =>
    obtain ⟨before, ps, split, rfl⟩ := ih
    obtain ⟨p, later, rfl, rfl⟩ := exists_piece_of_longestMatch split ahead longest
    refine ⟨before ++ [p], later, ?_, ?_⟩
    · rw [split, List.append_assoc]
      rfl
    · rw [List.flatMap_append, List.flatMap_singleton, List.length_append]

theorem prefix_drop_iff (text : Text) (m : Nat) : [c, d] <+: text.drop m ↔
    ∃ before after, text = before ++ c :: d :: after ∧ before.length = m := by
  constructor
  · rintro ⟨after, split⟩
    have inside : m ≤ text.length := by
      by_contra beyond
      rw [List.drop_eq_nil_of_le (by omega)] at split
      simp at split
    have whole := List.take_append_drop m text
    rw [← split] at whole
    exact ⟨text.take m, after, whole.symm, List.length_take_of_le inside⟩
  · rintro ⟨before, after, rfl, rfl⟩
    rw [List.drop_left]
    exact ⟨after, rfl⟩

theorem drop_inside (h : source.drop n = c :: d :: text) (m : Nat) :
    source.drop (n + 2 + m) = text.drop m := by
  rw [Nat.add_assoc, ← List.drop_drop, h, Nat.add_comm]
  rfl

theorem opener_iff (c : Char) (rest : Text) :
    ['/', '*'] <+: c :: rest ↔ c = '/' ∧ rest.head? = some '*' := by
  cases rest with
  | nil => simp
  | cons d rest => simp [List.cons_prefix_cons, eq_comm]

theorem mem_openings : i ∈ Text.openings start text ↔
    ∃ m, i = start + m ∧ ['/', '*'] <+: text.drop m := by
  induction text generalizing start with
  | nil => simp [Text.openings]
  | cons c rest ih =>
    have first : i ∈ (if c = '/' ∧ rest.head? = some '*' then [start] else []) ↔
        i = start ∧ ['/', '*'] <+: c :: rest := by
      rw [opener_iff]
      split
      next here => simp [here]
      next nothing => simp [nothing]
    rw [Text.openings, List.mem_append, first, ih]
    constructor
    · rintro (⟨rfl, here⟩ | ⟨m, rfl, later⟩)
      · exact ⟨0, rfl, here⟩
      · exact ⟨m + 1, by omega, later⟩
    · rintro ⟨m, rfl, stands⟩
      cases m with
      | zero => exact .inl ⟨rfl, stands⟩
      | succ m => exact .inr ⟨m, by omega, stands⟩

theorem closesAt_of_closesOnce (once : ClosesOnce body)
    (h : source.drop n = '/' :: '*' :: (body ++ ['*', '/']) ++ after) :
    ClosesAt source n (n + 2 + body.length) where
  behind := Nat.le_add_right ..
  closer := by
    rw [drop_inside h, prefix_drop_iff]
    exact ⟨body, after, List.append_assoc .., rfl⟩
  first := by
    intro k behind closer
    obtain ⟨m, rfl⟩ := Nat.exists_eq_add_of_le behind
    rw [drop_inside h, prefix_drop_iff] at closer
    obtain ⟨before, more, split, rfl⟩ := closer
    have whole : (body ++ ['*', '/']) ++ after = (before ++ ['*', '/']) ++ more := by
      simpa using split
    rcases List.append_eq_append_iff.1 whole with ⟨between, longer, -⟩ | ⟨between, whole, -⟩
    · have size := congrArg List.length longer
      simp only [List.length_append] at size
      omega
    · rw [List.append_assoc] at whole
      have size := congrArg List.length whole
      rw [once before between whole] at size
      simp only [List.length_append, List.length_nil] at size
      omega

theorem staysOpen_of_neverCloses (never : NeverCloses body)
    (h : source.drop n = '/' :: '*' :: body) : StaysOpen source n := by
  intro j behind closer
  obtain ⟨m, rfl⟩ := Nat.exists_eq_add_of_le behind
  rw [drop_inside h, prefix_drop_iff] at closer
  obtain ⟨before, after, split, -⟩ := closer
  exact never before after split

theorem ClosesAt.unique {k : Nat} (h : ClosesAt source n j) (h' : ClosesAt source n k) : j = k :=
  Nat.le_antisymm (h.first k h'.behind h'.closer) (h'.first j h.behind h.closer)

theorem Cut.comment (h : Cut shape text after) (opener : ['/', '*'] <+: text ++ after) :
    CommentCut shape text after := by
  obtain ⟨rest, split⟩ := opener
  have split : text ++ after = '/' :: '*' :: rest := split.symm
  cases found : closing? 1 rest with
  | none =>
    have never := (closing?_eq_none_iff 1 rest).1 found
    have cut : Cut .openComment ('/' :: '*' :: rest) [] := .openComment never
    obtain ⟨rfl, rfl, rfl⟩ := h.unique cut (split.trans (List.append_nil _).symm)
    exact .unclosed never
  | some size =>
    obtain ⟨body, after', rfl, once, -⟩ := exists_of_closing? found
    have cut : Cut .blockComment ('/' :: '*' :: (body ++ ['*', '/'])) after' := .blockComment once
    obtain ⟨rfl, rfl, rfl⟩ := h.unique cut (by simpa using split)
    exact .closed once

theorem Cut.comment_of_shape (h : Cut shape text after)
    (comment : shape = .blockComment ∨ shape = .openComment) : CommentCut shape text after := by
  cases h with
  | blockComment once => exact .closed once
  | openComment never => exact .unclosed never
  | _ => simp at comment

theorem opener_inside_iff (body after : Text) (m : Nat) :
    ['/', '*'] <+: (body ++ ['*', '/']).drop m ↔
      m < body.length ∧ ['/', '*'] <+: (body ++ ['*', '/'] ++ after).drop m := by
  constructor
  · intro opener
    have inside : m < body.length := by
      by_contra behind
      obtain ⟨k, rfl⟩ := Nat.exists_eq_add_of_le (Nat.le_of_not_lt behind)
      rw [List.drop_length_add_append] at opener
      match k with
      | 0 => simp at opener
      | 1 => simp at opener
      | k + 2 => simp at opener
    refine ⟨inside, ?_⟩
    rw [List.drop_append_of_le_length (by rw [List.length_append]; omega)]
    exact opener.trans (List.prefix_append _ _)
  · rintro ⟨inside, opener⟩
    rw [List.drop_append_of_le_length (by rw [List.length_append]; omega)] at opener
    refine List.prefix_of_prefix_length_le opener (List.prefix_append _ _) ?_
    simp only [List.length_drop, List.length_append, List.length_cons, List.length_nil]
    omega

namespace CommentCut

theorem opener (h : CommentCut shape text after) : ['/', '*'] <+: text := by
  cases h with
  | closed | unclosed => exact ⟨_, rfl⟩

theorem nested_eq (h : CommentCut shape text after) (start line : Nat) :
    Piece.nested start ⟨shape, text, line⟩ = Text.openings (start + 2) (text.drop 2) := by
  cases h with
  | closed | unclosed => rfl

theorem ends (h : CommentCut shape text after) (ahead : source.drop n = text ++ after) :
    (shape = .blockComment ∧ ∃ j, ClosesAt source n j ∧ j + 2 - n = text.length) ∨
      shape = .openComment ∧ StaysOpen source n ∧ after = [] := by
  cases h with
  | @closed body _ once =>
    refine .inl ⟨rfl, _, closesAt_of_closesOnce once ahead, ?_⟩
    simp only [List.length_cons, List.length_append, List.length_nil]
    omega
  | unclosed never =>
    exact .inr ⟨rfl, staysOpen_of_neverCloses never (ahead.trans (List.append_nil _)), rfl⟩

theorem staysOpen_iff (h : CommentCut shape text after) (ahead : source.drop n = text ++ after) :
    StaysOpen source n ↔ shape = .openComment := by
  rcases h.ends ahead with ⟨shape, j, closes, -⟩ | ⟨shape, staysOpen, -⟩
  · exact iff_of_false (fun staysOpen => staysOpen j closes.behind closes.closer) (by simp [shape])
  · exact iff_of_true staysOpen shape

theorem mem_openings_iff (h : CommentCut shape text after) (ahead : source.drop n = text ++ after) :
    i ∈ Text.openings (n + 2) (text.drop 2) ↔
      n + 2 ≤ i ∧ ['/', '*'] <+: source.drop i ∧ ∀ j, ClosesAt source n j → i < j := by
  rw [mem_openings]
  cases h with
  | @closed body _ once =>
    have closes := closesAt_of_closesOnce once ahead
    constructor
    · rintro ⟨m, rfl, opener⟩
      obtain ⟨inside, opener⟩ := (opener_inside_iff body after m).1 opener
      refine ⟨Nat.le_add_right .., drop_inside ahead m ▸ opener, ?_⟩
      intro j closes'
      rw [closes'.unique closes]
      exact Nat.add_lt_add_left inside _
    · rintro ⟨behind, opener, before⟩
      obtain ⟨m, rfl⟩ := Nat.exists_eq_add_of_le behind
      have inside : m < body.length := Nat.lt_of_add_lt_add_left (before _ closes)
      rw [drop_inside ahead] at opener
      exact ⟨m, rfl, (opener_inside_iff body after m).2 ⟨inside, opener⟩⟩
  | @unclosed body never =>
    have ahead : source.drop n = '/' :: '*' :: body := ahead.trans (List.append_nil _)
    constructor
    · rintro ⟨m, rfl, opener⟩
      refine ⟨Nat.le_add_right .., drop_inside ahead m ▸ opener, ?_⟩
      intro j closes
      exact absurd closes.closer (staysOpen_of_neverCloses never ahead j closes.behind)
    · rintro ⟨behind, opener, -⟩
      obtain ⟨m, rfl⟩ := Nat.exists_eq_add_of_le behind
      exact ⟨m, rfl, drop_inside ahead m ▸ opener⟩

end CommentCut

theorem Piece.shape_of_mem_nested (h : i ∈ p.nested start) :
    p.shape = .blockComment ∨ p.shape = .openComment := by
  rw [nested] at h
  split at h
  next shape => exact .inl shape
  next shape => exact .inr shape
  next => exact absurd h List.not_mem_nil

theorem opensAt_of_comment (h : pieces 1 source = before ++ p :: ps)
    (comment : CommentCut p.shape p.text (ps.flatMap Piece.text)) :
    OpensAt source (before.flatMap Piece.text).length where
  boundary := boundary_of_pieces h
  opener := by
    rw [drop_pieces h, List.flatMap_cons]
    exact comment.opener.trans (List.prefix_append _ _)

theorem mem_nested_iff (h : pieces 1 source = before ++ p :: ps) :
    i ∈ p.nested (before.flatMap Piece.text).length ↔
      NestedAt source (before.flatMap Piece.text).length i := by
  have cut := (h ▸ cuts_pieces 1 source).cut
  have ahead := drop_pieces h
  rw [List.flatMap_cons] at ahead
  constructor
  · intro nested
    have comment := cut.comment_of_shape (p.shape_of_mem_nested nested)
    rw [comment.nested_eq _ p.line, comment.mem_openings_iff ahead] at nested
    obtain ⟨behind, opener, first⟩ := nested
    exact ⟨opensAt_of_comment h comment, behind, opener, first⟩
  · intro nested
    have comment := cut.comment (ahead ▸ nested.opens.opener)
    rw [comment.nested_eq _ p.line, comment.mem_openings_iff ahead]
    exact ⟨nested.behind, nested.opener, nested.before⟩

theorem mem_nestedFrom : i ∈ Piece.nestedFrom start ps ↔ ∃ before p after,
    ps = before ++ p :: after ∧ i ∈ p.nested (start + (before.flatMap Piece.text).length) := by
  induction ps generalizing start with
  | nil => simp [Piece.nestedFrom]
  | cons p ps ih =>
    rw [Piece.nestedFrom, List.mem_append, ih]
    constructor
    · rintro (here | ⟨before, q, after, rfl, later⟩)
      · exact ⟨[], p, ps, rfl, here⟩
      · refine ⟨p :: before, q, after, rfl, ?_⟩
        rw [List.flatMap_cons, List.length_append, ← Nat.add_assoc]
        exact later
    · rintro ⟨before, q, after, split, stands⟩
      cases before with
      | nil =>
        obtain ⟨rfl, rfl⟩ := List.cons.inj split
        exact .inl stands
      | cons first before =>
        obtain ⟨rfl, rfl⟩ := List.cons.inj split
        rw [List.flatMap_cons, List.length_append, ← Nat.add_assoc] at stands
        exact .inr ⟨before, q, after, rfl, stands⟩

theorem Cut.ascends_nested (h : Cut shape text after) (start line : Nat) :
    Ascends (· < ·) start (start + text.length) (Piece.nested start ⟨shape, text, line⟩) := by
  cases h with
  | blockComment | openComment => exact ascends_inside start _
  | _ => exact ascends_nil

theorem Cuts.ascends_nestedFrom (h : Cuts line source ps) (start : Nat) :
    Ascends (· < ·) start (start + source.length) (Piece.nestedFrom start ps) := by
  induction h generalizing start with
  | nil => exact ascends_nil
  | @cons shape text after line ps cut later ih =>
    rw [Piece.nestedFrom, List.length_append, ← Nat.add_assoc]
    exact .append (Nat.le_add_right ..) (Nat.le_add_right ..) (cut.ascends_nested start line) (ih _)

theorem openers_eq_map (line start : Nat) (text : Text) : openers line text =
    (text.openings start).map fun i => line + Text.lineFeeds (text.take (i - start)) := by
  rw [← List.forall₂_eq_eq_eq, List.forall₂_map_right_iff]
  apply (forall₂_openings line start text).imp
  rintro n k ⟨inside, more, rfl, rfl, rfl⟩
  rw [Nat.add_sub_cancel_left, List.take_left]

theorem Piece.filter_warnings_diagnostics (p : Piece) :
    p.diagnostics.filter (·.severity = .warning) = p.warnings := by
  have warnings : p.warnings.filter (·.severity = .warning) = p.warnings := by
    rw [List.filter_eq_self]
    intro d hd
    exact decide_eq_true (p.severity_of_mem_warnings hd)
  rw [diagnostics, List.filter_append, warnings]
  cases p.fault? with
  | none => exact List.append_nil _
  | some f => exact List.append_nil _

theorem warnings_of_comment (h : pieces 1 source = before ++ p :: ps)
    (same : p.text = '/' :: '*' :: body) : (openers p.line body).map Diagnostic.nestedComment =
      (body.openings ((before.flatMap Piece.text).length + 2)).map fun i =>
        .nestedComment (1 + Text.lineFeeds (source.take i)) := by
  have begins : p.line = 1 + Text.lineFeeds (before.flatMap Piece.text) :=
    (h ▸ cuts_pieces 1 source).line_eq
  have whole := flatMap_text_pieces 1 source
  rw [h, List.flatMap_append, List.flatMap_cons, same] at whole
  rw [openers_eq_map p.line ((before.flatMap Piece.text).length + 2), List.map_map]
  apply List.map_congr_left
  intro i hi
  obtain ⟨m, rfl, opener⟩ := mem_openings.1 hi
  have inside : m ≤ body.length := by
    have size := opener.length_le
    rw [List.length_drop] at size
    simp only [List.length_cons] at size
    omega
  have ahead : source.take ((before.flatMap Piece.text).length + 2 + m) =
      before.flatMap Piece.text ++ '/' :: '*' :: body.take m := by
    rw [← whole, Nat.add_assoc, List.take_length_add_append, Nat.add_comm 2, List.cons_append,
      List.cons_append, List.take_succ_cons, List.take_succ_cons,
      List.take_append_of_le_length inside]
  rw [Function.comp_apply, ahead, Nat.add_sub_cancel_left, begins]
  simp [Nat.add_assoc]

theorem Piece.warnings_eq_map (h : pieces 1 source = before ++ p :: ps) :
    p.warnings = (p.nested (before.flatMap Piece.text).length).map fun i =>
      .nestedComment (1 + Text.lineFeeds (source.take i)) := by
  have cut := (h ▸ cuts_pieces 1 source).cut
  generalize ps.flatMap Piece.text = after at cut
  obtain ⟨shape, text, line⟩ := p
  cases cut with
  | blockComment | openComment => exact warnings_of_comment h rfl
  | _ => rfl

theorem flatMap_warnings_eq_map (h : pieces 1 source = before ++ ps) :
    ps.flatMap Piece.warnings =
      (Piece.nestedFrom (before.flatMap Piece.text).length ps).map fun i =>
        .nestedComment (1 + Text.lineFeeds (source.take i)) := by
  induction ps generalizing before with
  | nil => rfl
  | cons p ps ih =>
    have later := @ih (before ++ [p]) (by rw [h, List.append_assoc]; rfl)
    rw [List.flatMap_append, List.flatMap_singleton, List.length_append] at later
    rw [List.flatMap_cons, Piece.nestedFrom, List.map_append, Piece.warnings_eq_map h, later]

theorem filter_warnings_scan (source : Text) :
    (scan source).diagnostics.filter (·.severity = .warning) =
      (pieces 1 source).flatMap Piece.warnings := by
  rw [diagnostics_scan, List.filter_flatMap]
  congr 1
  funext p
  exact p.filter_warnings_diagnostics

theorem OpensAt.exists_piece (h : OpensAt source n) : ∃ before p after,
    pieces 1 source = before ++ p :: after ∧ (before.flatMap Piece.text).length = n ∧
      CommentCut p.shape p.text (after.flatMap Piece.text) := by
  obtain ⟨before, ps, split, rfl⟩ := exists_pieces_of_boundary h.boundary
  have opener := h.opener
  rw [drop_pieces split] at opener
  cases ps with
  | nil => simp at opener
  | cons p after =>
    have cut := (split ▸ cuts_pieces 1 source).cut
    exact ⟨before, p, after, split, rfl, cut.comment opener⟩

theorem lastLine_eq (h : pieces 1 source = before ++ [p]) : p.lastLine = 1 + source.lineFeeds := by
  have begins : p.line = 1 + Text.lineFeeds (before.flatMap Piece.text) :=
    (h ▸ cuts_pieces 1 source).line_eq
  rw [Piece.lastLine, begins, ← flatMap_text_pieces 1 source, h]
  simp [Nat.add_assoc]

theorem skips_of_comment (h : pieces 1 source = before ++ p :: ps)
    (comment : CommentCut p.shape p.text (ps.flatMap Piece.text)) :
    Skips source (before.flatMap Piece.text).length p := by
  have ahead := drop_pieces h
  rw [List.flatMap_cons] at ahead
  rcases comment.ends ahead with ⟨shape, j, closes, size⟩ | ⟨shape, staysOpen, rest⟩
  · refine .closed closes ?_ ?_
    · rw [ahead, size, List.take_left]
    · simp [Piece.item?, Piece.token?, Piece.fault?, Piece.cause?, shape]
  · obtain rfl := (h ▸ cuts_pieces 1 source).eq_nil_of_openComment shape
    refine .unclosed staysOpen ?_ ?_
    · rw [ahead, rest, List.append_nil]
    · rw [Piece.item?_of_openComment shape, lastLine_eq h]

theorem OpensAt.exists_skips (h : OpensAt source n) : ∃ before p after,
    pieces 1 source = before ++ p :: after ∧ (before.flatMap Piece.text).length = n ∧
      Skips source n p := by
  obtain ⟨before, p, after, split, rfl, comment⟩ := h.exists_piece
  exact ⟨before, p, after, split, rfl, skips_of_comment split comment⟩

theorem reports_iff_staysOpen (source : Text) : (scan source).reports .unterminatedComment ↔
    ∃ n, OpensAt source n ∧ StaysOpen source n := by
  rw [reports_unterminatedComment_iff]
  constructor
  · rintro ⟨p, hp, shape⟩
    obtain ⟨before, ps, split⟩ := List.append_of_mem hp
    have comment := (split ▸ cuts_pieces 1 source).cut.comment_of_shape (.inr shape)
    exact ⟨_, opensAt_of_comment split comment, (comment.staysOpen_iff (drop_pieces split)).2 shape⟩
  · rintro ⟨n, opens, staysOpen⟩
    obtain ⟨before, p, ps, split, rfl, comment⟩ := opens.exists_piece
    exact ⟨p, by simp [split], (comment.staysOpen_iff (drop_pieces split)).1 staysOpen⟩

theorem Cuts.mem_nested (h : Cuts line source (before ++ p :: ps))
    (nested : i ∈ Piece.nestedFrom start (before ++ p :: ps))
    (low : start + (before.flatMap Piece.text).length ≤ i)
    (high : i < start + (before.flatMap Piece.text).length + p.text.length) :
    i ∈ p.nested (start + (before.flatMap Piece.text).length) := by
  induction before generalizing start line source with
  | nil =>
    obtain ⟨-, -, later⟩ := h.cons_inv
    rcases List.mem_append.1 nested with here | behind
    · exact here
    · exact absurd high (Nat.not_lt.2 ((later.ascends_nestedFrom _).2 i behind).1)
  | cons q before ih =>
    obtain ⟨-, cut, later⟩ := h.cons_inv
    rw [List.flatMap_cons, List.length_append, ← Nat.add_assoc] at low high ⊢
    rcases List.mem_append.1 nested with earlier | nested
    · have bound := ((cut.ascends_nested start q.line).2 i earlier).2
      omega
    · exact ih later nested low high

theorem opener_of_mem_nested (h : pieces 1 source = before ++ p :: ps)
    (nested : i ∈ p.nested (before.flatMap Piece.text).length) :
    ['/', '*'] <+: p.text ∧ (before.flatMap Piece.text).length + 2 ≤ i := by
  have inside := (mem_nested_iff h).1 nested
  have opener := inside.opens.opener
  rw [drop_pieces h] at opener
  exact ⟨((h ▸ cuts_pieces 1 source).cut.comment opener).opener, inside.behind⟩

/-- Warnings are raised for the `/*` inside block comments, each on its line and in their order, and
for no other. Strings, line comments and the opener's own star raise none, and a comment closes
where it would without them. -/
theorem warnings_exact (source : Text) : ∃ offsets, WarnsAt source offsets ∧
    (∀ n text after sense, Boundary source n → source.drop n = text ++ after →
      LongestMatch sense text after → ∀ i ∈ offsets, n ≤ i → i < n + text.length →
        ['/', '*'] <+: text ∧ n + 2 ≤ i) ∧
    (∀ n, OpensAt source n → ∃ before p after, pieces 1 source = before ++ p :: after ∧
      (before.flatMap Piece.text).length = n ∧ Skips source n p) ∧
    ((scan source).reports .unterminatedComment ↔ ∃ n, OpensAt source n ∧ StaysOpen source n) := by
  have run := cuts_pieces 1 source
  refine ⟨Piece.nestedFrom 0 (pieces 1 source), ⟨(run.ascends_nestedFrom 0).1, ?_, ?_⟩, ?_,
    fun n opens => opens.exists_skips, reports_iff_staysOpen source⟩
  · intro i
    rw [mem_nestedFrom]
    constructor
    · rintro ⟨before, p, after, split, nested⟩
      rw [Nat.zero_add] at nested
      exact ⟨_, (mem_nested_iff split).1 nested⟩
    · rintro ⟨n, nested⟩
      obtain ⟨before, p, after, split, rfl, -⟩ := nested.opens.exists_skips
      refine ⟨before, p, after, split, ?_⟩
      rw [Nat.zero_add]
      exact (mem_nested_iff split).2 nested
  · rw [filter_warnings_scan]
    exact flatMap_warnings_eq_map (List.nil_append _).symm
  · intro n text after sense boundary ahead longest i nested low high
    obtain ⟨before, ps, split, rfl⟩ := exists_pieces_of_boundary boundary
    obtain ⟨p, later, rfl, rfl⟩ := exists_piece_of_longestMatch split ahead longest
    rw [split] at run nested
    have here := run.mem_nested nested (by rwa [Nat.zero_add]) (by rwa [Nat.zero_add])
    rw [Nat.zero_add] at here
    exact opener_of_mem_nested split here

example : scan ['/', '*', '/', '\n', '/', '*', '/', '*'] =
    ⟨[.plain .star ['*'] 2, .endOfInput 2], [.nestedComment 2]⟩ := by decide

end LoxLexer
