import Mathlib.Data.List.Forall2
import LoxLexer.Proofs.Lines
import LoxLexer.Proofs.Progress

namespace LoxLexer

namespace Event

def seen (e : Event) : Level × List (String × String) := (e.level, e.fields)

def isItem : Event → Bool
  | .scanned _ => true
  | .reported d => d.severity = .error
  | _ => false

end Event

/-- The offset in the source of what an event tells of: of a token its begin, of a stray character
the character, of a warning its `/*`, of an open string or comment the end of the source. -/
inductive TellsOf (source : Text) : Event → Nat → Prop
  | token : pieces 1 source = before ++ p :: after → p.item? = some (.token t) →
      TellsOf source (.scanned t) (before.flatMap Piece.text).length
  | stray : pieces 1 source = before ++ p :: after →
      p.item? = some (.fault (.lexical line (.unexpectedCharacter c))) →
      TellsOf source (.reported (.ofFault (.lexical line (.unexpectedCharacter c))))
        (before.flatMap Piece.text).length
  | unfinished : pieces 1 source = before ++ [p] →
      p.item? = some (.fault (.lexical line cause)) →
      cause = .unterminatedString ∨ cause = .unterminatedComment →
      TellsOf source (.reported (.ofFault (.lexical line cause))) source.length
  | warning : pieces 1 source = before ++ p :: after →
      p.shape = .blockComment ∨ p.shape = .openComment →
      p.text = '/' :: '*' :: (inside ++ '/' :: '*' :: more) →
      TellsOf source
        (.reported (.nestedComment
          (1 + Text.lineFeeds (before.flatMap Piece.text ++ '/' :: '*' :: inside))))
        (before.flatMap Piece.text ++ '/' :: '*' :: inside).length

/-- Where it is told that a block comment runs to the end of input. -/
structure AlarmAt (source : Text) (before : List Event) (line : Nat) (after : List Event) :
    Prop where
  seen : (Event.ranOut line).seen =
    (.debug, [("message", "block comment runs to end of input"), ("opened_on", toString line)])
  opened : ∃ passed p, pieces 1 source = passed ++ [p] ∧ p.cause? = some .unterminatedComment ∧
    line = 1 + Text.lineFeeds (passed.flatMap Piece.text)
  behind : before = [] ∨ ∃ e ∈ before.getLast?, e.isItem
  ahead : ∃ warnings : List Diagnostic, (∀ w ∈ warnings, w.severity = .warning) ∧
    after = warnings.map .reported ++
      [.reported (.ofFault (.lexical (1 + source.lineFeeds) .unterminatedComment)),
        .finished (scan source).tokens.length (1 + source.lineFeeds)]

structure Linear (source : Text) (events : List Event) : Prop where
  tokens : (events.filter (·.text = "token")).map Event.seen =
    ((scan source).tokens.filter (·.kind ≠ .eof)).map fun t =>
      (.trace, [("message", "token"), ("kind", t.kind.name), ("line", toString t.line),
        ("lexeme", String.ofList t.lexeme)])
  diagnostics : (events.filter (·.text = "diagnostic reported")).map Event.seen =
    (scan source).diagnostics.map fun d =>
      (.debug, [("message", "diagnostic reported"), ("line", toString d.line),
        ("severity", d.severity.label), ("message", d.message)])
  finished : ∃ told line, events = told ++ [.finished (scan source).tokens.length line] ∧
    (Event.finished (scan source).tokens.length line).seen =
      (.debug, [("message", "scan finished"), ("tokens", toString (scan source).tokens.length),
        ("lines", toString line)]) ∧
    (scan source).tokens.getLast? = some (.endOfInput line) ∧
    ∀ e ∈ told, e.finds ∨ e.isAlarm
  ordered : ∃ places : List Nat, List.Forall₂ (TellsOf source) (events.filter Event.finds) places ∧
    places.Pairwise (· < ·)
  alarmOnce : (events.filter Event.isAlarm).length ≤ 1
  alarm_iff : (∃ line, .ranOut line ∈ events) ↔ (scan source).reports .unterminatedComment
  alarm : ∀ before line after, events = before ++ .ranOut line :: after →
    AlarmAt source before line after

def Text.openings (start : Nat) : Text → List Nat
  | [] => []
  | c :: rest =>
    (if c = '/' ∧ rest.head? = some '*' then [start] else []) ++ Text.openings (start + 1) rest

namespace Piece

def places (start : Nat) (p : Piece) : List Nat :=
  match p.shape with
  | .blank | .lineComment => []
  | .blockComment => Text.openings (start + 2) (p.text.drop 2)
  | .openComment => Text.openings (start + 2) (p.text.drop 2) ++ [start + p.text.length]
  | .openString => [start + p.text.length]
  | .plain _ | .number | .string | .stray _ => [start]

def placesFrom (start : Nat) : List Piece → List Nat
  | [] => []
  | p :: ps => p.places start ++ placesFrom (start + p.text.length) ps

end Piece

/-- There was no alarm, what was told last is an item, and only warnings are still to be told. -/
structure Progress.Settled (s : Progress) : Prop where
  finds : ∀ e ∈ s.told, e.finds
  last : s.told = [] ∨ ∃ e ∈ s.told.getLast?, e.isItem
  pending : ∀ d ∈ s.pending, d.severity = .warning

variable {low mid high start line : Nat} {source text : Text} {ps : List Piece} {p : Piece}

theorem Text.ascends_openings (start : Nat) (text : Text) :
    Ascends (· < ·) start (start + text.length) (text.openings start) := by
  induction text generalizing start with
  | nil => exact ascends_nil
  | cons c rest ih =>
    have size : start + (c :: rest).length = start + 1 + rest.length := by
      rw [List.length_cons, Nat.add_right_comm, Nat.add_assoc]
    rw [openings, size]
    refine .append (Nat.le_succ start) (Nat.le_add_right ..) ?_ (ih (start + 1))
    split
    · exact ascends_singleton (Nat.le_refl start) (Nat.lt_succ_self start)
    · exact ascends_nil

theorem ascends_inside (start : Nat) (body : Text) :
    Ascends (· < ·) start (start + ('/' :: '*' :: body).length)
      (Text.openings (start + 2) body) := by
  refine (Text.ascends_openings (start + 2) body).mono (Nat.le_add_right start 2) (Nat.le_of_eq ?_)
  rw [List.length_cons, List.length_cons, Nat.add_assoc, Nat.add_comm 2]

theorem Cut.ascends_places {shape : Shape} {after : Text} (h : Cut shape text after)
    (start line : Nat) :
    Ascends (· < ·) start (start + text.length) (Piece.places start ⟨shape, text, line⟩) ∨
      after = [] ∧
        Ascends (· < ·) start (start + text.length + 1)
          (Piece.places start ⟨shape, text, line⟩) := by
  have begins : Ascends (· < ·) start (start + text.length) [start] :=
    ascends_singleton (Nat.le_refl start)
      (Nat.lt_add_of_pos_right (List.length_pos_iff.2 h.ne_nil))
  have low_le : start ≤ start + text.length := Nat.le_add_right ..
  have ends :
      Ascends (· < ·) (start + text.length) (start + text.length + 1) [start + text.length] :=
    ascends_singleton (Nat.le_refl _) (Nat.lt_succ_self _)
  cases h with
  | symbol | operator | word | whole | fractional | string | stray => exact .inl begins
  | blank | lineComment => exact .inl ascends_nil
  | blockComment _ => exact .inl (ascends_inside start _)
  | openString _ => exact .inr ⟨rfl, ends.mono low_le (Nat.le_refl _)⟩
  | openComment _ =>
    exact .inr ⟨rfl, .append low_le (Nat.le_succ _) (ascends_inside start _) ends⟩

theorem Cuts.ascends_placesFrom (h : Cuts line source ps) (start : Nat) :
    Ascends (· < ·) start (start + source.length + 1) (Piece.placesFrom start ps) := by
  induction h generalizing start with
  | nil => exact ascends_nil
  | @cons shape text after line ps cut later ih =>
    rw [Piece.placesFrom, List.length_append, ← Nat.add_assoc]
    rcases cut.ascends_places start line with ascends | ⟨rfl, ascends⟩
    · exact .append (Nat.le_add_right ..) (by omega) ascends (ih _)
    · rw [later.eq_nil]
      simpa [Piece.placesFrom] using ascends

theorem forall₂_openings (line start : Nat) (text : Text) :
    List.Forall₂ (fun n k => ∃ inside more, text = inside ++ '/' :: '*' :: more ∧
        n = line + Text.lineFeeds inside ∧ k = start + inside.length)
      (openers line text) (text.openings start) := by
  induction text generalizing line start with
  | nil => exact .nil
  | cons c rest ih =>
    rw [openers_cons, Text.openings]
    apply List.rel_append
    · split
      next h =>
        refine .cons ⟨[], rest.tail, ?_, rfl, rfl⟩ .nil
        rw [List.nil_append, h.1, List.cons_head?_tail h.2]
      next => exact .nil
    · apply (ih _ (start + 1)).imp
      rintro n k ⟨inside, more, rfl, rfl, rfl⟩
      refine ⟨c :: inside, more, rfl, ?_, ?_⟩
      · rw [Text.lineFeeds_cons]
        split <;> omega
      · rw [List.length_cons]
        omega

variable {before after : List Piece}

theorem forall₂_warnings (h : pieces 1 source = before ++ p :: after)
    (comment : p.shape = .blockComment ∨ p.shape = .openComment) {body : Text}
    (same : p.text = '/' :: '*' :: body) :
    List.Forall₂ (TellsOf source) (p.warnings.map .reported)
      (body.openings ((before.flatMap Piece.text).length + 2)) := by
  have begins : p.line = 1 + Text.lineFeeds (before.flatMap Piece.text) :=
    (h ▸ cuts_pieces 1 source).line_eq
  have warnings : p.warnings = (openers p.line body).map .nestedComment := by
    rcases comment with comment | comment <;> rw [Piece.warnings, comment, same] <;> rfl
  rw [warnings, List.map_map, List.forall₂_map_left_iff]
  apply (forall₂_openings p.line _ body).imp
  rintro n k ⟨inside, more, rfl, rfl, rfl⟩
  have told := TellsOf.warning h comment same
  have place : (before.flatMap Piece.text ++ '/' :: '*' :: inside).length =
      (before.flatMap Piece.text).length + 2 + inside.length := by
    rw [List.length_append, List.length_cons, List.length_cons]
    omega
  have line : 1 + Text.lineFeeds (before.flatMap Piece.text ++ '/' :: '*' :: inside) =
      p.line + Text.lineFeeds inside := by
    simp [begins, Nat.add_assoc]
  rw [place, line] at told
  exact told

theorem TellsOf.of_last (h : pieces 1 source = before ++ p :: after) {line : Nat}
    {cause : LexicalFault} (item : p.item? = some (.fault (.lexical line cause)))
    (last : cause = .unterminatedString ∨ cause = .unterminatedComment) :
    TellsOf source (.reported (.ofFault (.lexical line cause)))
      ((before.flatMap Piece.text).length + p.text.length) := by
  have tiling := (cuts_pieces 1 source).tiling
  obtain rfl := tiling.last _ _ _ _ _ h item last
  have size : source.length = (before.flatMap Piece.text).length + p.text.length := by
    rw [← List.length_append, ← tiling.joined, h, List.flatMap_append, List.flatMap_singleton]
  rw [← size]
  exact .unfinished h item last

theorem Piece.forall₂_events (h : pieces 1 source = before ++ p :: after) :
    List.Forall₂ (TellsOf source) p.events (p.places (before.flatMap Piece.text).length) := by
  have mem : p ∈ pieces 1 source := by simp [h]
  obtain ⟨rest, cut⟩ := (cuts_pieces 1 source).cut_of_mem mem
  obtain ⟨shape, text, line⟩ := p
  cases cut with
  | symbol | operator | word | whole | fractional | string => exact .cons (.token h rfl) .nil
  | stray => exact .cons (.stray h rfl) .nil
  | blank | lineComment => exact .nil
  | openString _ => exact .cons (.of_last h rfl (.inl rfl)) .nil
  | blockComment _ =>
    have told := forall₂_warnings h (.inl rfl) rfl
    rw [← List.append_nil (List.map _ _)] at told
    exact told
  | openComment _ =>
    apply List.rel_append (forall₂_warnings h (.inr rfl) rfl)
    exact .cons (.of_last h rfl (.inr rfl)) .nil

theorem forall₂_placesFrom (h : pieces 1 source = before ++ ps) :
    List.Forall₂ (TellsOf source) (ps.flatMap Piece.events)
      (Piece.placesFrom (before.flatMap Piece.text).length ps) := by
  induction ps generalizing before with
  | nil => exact .nil
  | cons p ps ih =>
    have later := @ih (before ++ [p]) (by rw [h, List.append_assoc]; rfl)
    rw [List.flatMap_append, List.flatMap_singleton, List.length_append] at later
    exact List.rel_append (Piece.forall₂_events h) later

namespace Progress

theorem Settled.tell {s : Progress} (h : s.Settled) (goesOn : p.shape ≠ .openComment) :
    (s.tell p).Settled := by
  have alarm : Cursor.alarm p = [] := if_neg goesOn
  have warnings : ∀ d ∈ s.pending ++ p.warnings, d.severity = .warning := by
    intro d hd
    cases List.mem_append.1 hd with
    | inl hd => exact h.pending d hd
    | inr hd => exact p.severity_of_mem_warnings hd
  rw [Progress.tell]
  cases p.item? with
  | none => exact ⟨h.finds, h.last, warnings⟩
  | some item =>
    rw [alarm, List.append_nil]
    refine ⟨?_, .inr ⟨Cursor.itemEvent item, ?_, ?_⟩, List.forall_mem_nil _⟩
    · intro e he
      rcases List.mem_append.1 he with he | he
      · rcases List.mem_append.1 he with he | he
        · exact h.finds e he
        · obtain ⟨d, -, rfl⟩ := List.mem_map.1 he
          rfl
      · obtain rfl := List.mem_singleton.1 he
        cases item <;> rfl
    · rw [List.getLast?_concat]
      rfl
    · cases item <;> rfl

theorem Settled.foldl_tell {s : Progress} (h : s.Settled)
    (goesOn : ∀ p ∈ ps, p.shape ≠ .openComment) : (ps.foldl Progress.tell s).Settled := by
  induction ps generalizing s with
  | nil => exact h
  | cons p ps ih =>
    obtain ⟨first, goesOn⟩ := List.forall_mem_cons.1 goesOn
    exact ih (h.tell first) goesOn

theorem settled_nil : Settled ⟨[], []⟩ :=
  ⟨List.forall_mem_nil _, .inl rfl, List.forall_mem_nil _⟩

theorem Settled.finds_of_mem_events {s : Progress} (h : s.Settled) : ∀ e ∈ s.events, e.finds := by
  intro e he
  cases List.mem_append.1 he with
  | inl he => exact h.finds e he
  | inr he =>
    obtain ⟨d, -, rfl⟩ := List.mem_map.1 he
    rfl

end Progress

theorem Piece.item?_of_openComment (comment : p.shape = .openComment) :
    p.item? = some (.fault (.lexical p.lastLine .unterminatedComment)) := by
  simp [item?, token?, fault?, cause?, comment]

theorem Cuts.eq_nil_of_openComment {before after : List Piece}
    (h : Cuts line source (before ++ p :: after)) (comment : p.shape = .openComment) :
    after = [] :=
  h.tiling.last _ _ _ _ _ rfl (Piece.item?_of_openComment comment) (.inr rfl)

theorem Cuts.openComment_or (h : Cuts line source ps) : (∀ p ∈ ps, p.shape ≠ .openComment) ∨
    ∃ passed p, ps = passed ++ [p] ∧ p.shape = .openComment ∧
      ∀ q ∈ passed, q.shape ≠ .openComment := by
  by_cases some : ∃ p ∈ ps, p.shape = .openComment
  · obtain ⟨p, hp, comment⟩ := some
    obtain ⟨passed, after, rfl⟩ := List.append_of_mem hp
    obtain rfl := h.eq_nil_of_openComment comment
    refine .inr ⟨passed, p, rfl, comment, ?_⟩
    intro q hq comment
    obtain ⟨before, between, rfl⟩ := List.append_of_mem hq
    rw [List.append_assoc] at h
    have none := h.eq_nil_of_openComment comment
    simp at none
  · exact .inl fun p hp comment => some ⟨p, hp, comment⟩

theorem Progress.tell_openComment (s : Progress) (comment : p.shape = .openComment) :
    (s.tell p).events = s.told ++ .ranOut p.line :: ((s.pending ++ p.warnings).map .reported ++
      [.reported (.ofFault (.lexical p.lastLine .unterminatedComment))]) := by
  simp [tell, Piece.item?_of_openComment comment, events, Cursor.alarm, comment, Cursor.itemEvent]

theorem Piece.cause?_of_mem_diagnostics {d : Diagnostic} (h : d ∈ p.diagnostics)
    (error : d.severity = .error) : ∃ cause, p.cause? = some cause ∧ d.message = cause.message := by
  cases List.mem_append.1 h with
  | inl h => simp [p.severity_of_mem_warnings h] at error
  | inr h =>
    cases hc : p.cause? with
    | none => simp [fault?, hc] at h
    | some cause =>
      obtain rfl : d = .ofFault (.lexical p.lastLine cause) := by simpa [fault?, hc] using h
      exact ⟨cause, rfl, rfl⟩

theorem Piece.shape_of_cause? (h : p.cause? = some .unterminatedComment) :
    p.shape = .openComment := by
  obtain ⟨shape, text, line⟩ := p
  cases shape with
  | openComment => rfl
  | _ => simp [cause?] at h

theorem reports_unterminatedComment_iff (source : Text) :
    (scan source).reports .unterminatedComment ↔ ∃ p ∈ pieces 1 source, p.shape = .openComment := by
  constructor
  · intro h
    obtain ⟨d, hd, error⟩ := List.any_eq_true.1 h
    rw [Bool.and_eq_true, decide_eq_true_eq, decide_eq_true_eq] at error
    rw [diagnostics_scan, List.mem_flatMap] at hd
    obtain ⟨p, hp, hd⟩ := hd
    obtain ⟨cause, hc, message⟩ := Piece.cause?_of_mem_diagnostics hd error.1
    rw [error.2, LexicalFault.message_inj] at message
    exact ⟨p, hp, Piece.shape_of_cause? (message ▸ hc)⟩
  · rintro ⟨p, hp, comment⟩
    exact reports_of_mem hp (by rw [Piece.cause?, comment])

theorem isAlarm_of_finds {events : List Event} (h : ∀ e ∈ events, e.finds) :
    ∀ e ∈ events, e.isAlarm = false := by
  intro e he
  have finds := h e he
  cases e with
  | ranOut => simp [Event.finds] at finds
  | _ => rfl

structure Alarmed (source : Text) (p : Piece) (before after : List Event) : Prop where
  told : (scanEvents source).toList = before ++ .ranOut p.line :: after
  alarm : AlarmAt source before p.line after
  before : ∀ e ∈ before, e.isAlarm = false
  after : ∀ e ∈ after, e.isAlarm = false

theorem exists_alarmed {passed : List Piece} (split : pieces 1 source = passed ++ [p])
    (comment : p.shape = .openComment) (calm : ∀ q ∈ passed, q.shape ≠ .openComment) :
    ∃ before after, Alarmed source p before after := by
  -- All before the comment is settled, so the alarm comes first of what is told of the last piece.
  have settled := Progress.settled_nil.foldl_tell calm
  generalize told : passed.foldl Progress.tell ⟨[], []⟩ = s at settled
  have cuts := split ▸ cuts_pieces 1 source
  have begins : p.line = 1 + Text.lineFeeds (passed.flatMap Piece.text) := cuts.line_eq
  have ends : p.lastLine = 1 + source.lineFeeds := by
    rw [Piece.lastLine, begins, ← cuts.flatMap_text, List.flatMap_append, List.flatMap_singleton,
      Text.lineFeeds_append, Nat.add_assoc]
  have warnings : ∀ d ∈ s.pending ++ p.warnings, d.severity = .warning := by
    intro d hd
    cases List.mem_append.1 hd with
    | inl hd => exact settled.pending d hd
    | inr hd => exact p.severity_of_mem_warnings hd
  refine ⟨s.told, (s.pending ++ p.warnings).map .reported ++
      [.reported (.ofFault (.lexical p.lastLine .unterminatedComment)),
        .finished (scan source).tokens.length (1 + source.lineFeeds)], ?_, ?_, ?_, ?_⟩
  · rw [toList_scanEvents, toldBy, split, List.foldl_concat, told, s.tell_openComment comment]
    simp
  · refine ⟨rfl, ⟨passed, p, split, ?_, begins⟩, settled.last, _, warnings, ?_⟩
    · rw [Piece.cause?, comment]
    · rw [ends]
  · exact isAlarm_of_finds settled.finds
  · rw [List.forall_mem_append]
    refine ⟨?_, by simp [Event.isAlarm]⟩
    intro e he
    obtain ⟨d, -, rfl⟩ := List.mem_map.1 he
    rfl

theorem scanEvents_cases (source : Text) :
    (∀ p ∈ pieces 1 source, p.shape ≠ .openComment) ∧
      (∀ e ∈ (scanEvents source).toList, e.isAlarm = false) ∨
    ∃ p ∈ pieces 1 source, p.shape = .openComment ∧
      ∃ before after, Alarmed source p before after := by
  rcases (cuts_pieces 1 source).openComment_or with calm | ⟨passed, p, split, comment, calm⟩
  · refine .inl ⟨calm, ?_⟩
    have settled := Progress.settled_nil.foldl_tell calm
    rw [toList_scanEvents]
    intro e he
    cases List.mem_append.1 he with
    | inl he => exact isAlarm_of_finds settled.finds_of_mem_events e he
    | inr he => rw [List.mem_singleton.1 he]; rfl
  · exact .inr ⟨p, by simp [split], comment, exists_alarmed split comment calm⟩

theorem ranOut_mem_scanEvents_iff (source : Text) :
    (∃ line, .ranOut line ∈ (scanEvents source).toList) ↔
      (scan source).reports .unterminatedComment := by
  rw [reports_unterminatedComment_iff]
  rcases scanEvents_cases source with ⟨calm, none⟩ | ⟨p, hp, comment, before, after, alarmed⟩
  · refine iff_of_false ?_ ?_
    · rintro ⟨line, hm⟩
      exact absurd (none _ hm) (by simp [Event.isAlarm])
    · rintro ⟨p, hp, comment⟩
      exact calm p hp comment
  · refine iff_of_true ⟨p.line, ?_⟩ ⟨p, hp, comment⟩
    rw [alarmed.told]
    exact List.mem_append_right before List.mem_cons_self

theorem alarmAt_of_eq {before after : List Event} {line : Nat}
    (h : (scanEvents source).toList = before ++ .ranOut line :: after) :
    AlarmAt source before line after := by
  rcases scanEvents_cases source with ⟨-, none⟩ | ⟨p, -, -, before', after', alarmed⟩
  · have alarm := none (.ranOut line) (by simp [h])
    simp [Event.isAlarm] at alarm
  · have quiet {events : List Event} (h : ∀ e ∈ events, e.isAlarm = false) :
        .ranOut line ∉ events := fun hm => by simpa [Event.isAlarm] using h _ hm
    have same := alarmed.told.symm.trans h
    obtain ⟨rfl, alarm, rfl⟩ :=
      (List.append_cons_inj_of_notMem (quiet alarmed.before) (quiet alarmed.after)).1 same
    exact Event.ranOut.inj alarm ▸ alarmed.alarm

theorem length_filter_isAlarm_le (source : Text) :
    ((scanEvents source).toList.filter Event.isAlarm).length ≤ 1 := by
  have none {events : List Event} (h : ∀ e ∈ events, e.isAlarm = false) :
      events.filter Event.isAlarm = [] := by
    apply List.filter_eq_nil_iff.2
    simpa using h
  rcases scanEvents_cases source with ⟨-, calm⟩ | ⟨p, -, -, before, after, alarmed⟩
  · simp [none calm]
  · rw [alarmed.told, List.filter_append, none alarmed.before, List.filter_cons, none alarmed.after]
    exact Nat.le_refl 1

/-- Events come in the order of what they tell of, but for the alarm. -/
theorem scanEvents_linear (source : Text) : Linear source (scanEvents source).toList where
  tokens := by
    rw [filter_token_scanEvents, List.map_map]
    rfl
  diagnostics := by
    rw [filter_diagnostic_scanEvents, List.map_map]
    rfl
  finished := by
    refine ⟨toldBy source, 1 + source.lineFeeds, toList_scanEvents source, rfl, ?_, ?_⟩
    · rw [tokens_scan, List.getLast?_concat]
    · exact Progress.tells_foldl_tell _ (List.forall_mem_nil _) (pieces 1 source)
  ordered := by
    rw [filter_finds_scanEvents]
    exact ⟨_, @forall₂_placesFrom source (pieces 1 source) [] rfl,
      ((cuts_pieces 1 source).ascends_placesFrom 0).1⟩
  alarmOnce := length_filter_isAlarm_le source
  alarm_iff := ranOut_mem_scanEvents_iff source
  alarm := fun _ _ _ => alarmAt_of_eq

end LoxLexer
