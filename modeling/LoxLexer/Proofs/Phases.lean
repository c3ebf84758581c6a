import LoxLexer.Proofs.Walking

namespace LoxLexer.Walker

variable {F : Feed} {source before lexeme ahead more after : Text} {c : Cursor} {p : Piece}
  {kept : Array Diagnostic} {w : Walker F} {x : Char} {n : Nat}

theorem begin_blank (w : Walker F) (h : isBlank x) :
    w.begin x = .on ({ w with line := w.line + Text.lineFeeds [x] }.enter .between) := by
  rcases (isBlank_iff x).1 h with rfl | rfl | rfl | rfl <;> rfl

theorem begin_of_none (w : Walker F) (slash : x ≠ '/') (blank : isBlank x = false)
    (none : Kind.ofChar? x = none) : w.begin x =
      if x = '"' then .on (w.enter (.taking (.string 0)))
      else if x.isDigit then .on (w.enter (.taking .whole))
      else if isWordStart x then .on (w.enter (.taking .word))
      else w.fault [] (.unexpectedCharacter x) := by
  have visible := mt (isBlank_iff x).2 (Bool.eq_false_iff.1 blank)
  rw [begin, if_neg slash, none]
  simp only [not_or] at visible
  simp [visible]

theorem ne_lineFeed (blank : isBlank x = false) : x ≠ '\n' := by
  rintro rfl
  exact absurd blank (by decide)

theorem ofChar?_eq_none (h : isBlank x ∨ x.isDigit ∨ isWordStart x) : Kind.ofChar? x = none := by
  cases hk : Kind.ofChar? x with
  | none => rfl
  | some kind =>
    obtain ⟨-, blank, digit, word⟩ := Kind.ne_of_ofChar? hk
    simp [blank, digit, word] at h

namespace Inside

variable {shape : Shape} {kind longer : Kind} {body : Text}

theorem line_began (h : Inside source before [x] more after p kept w) (phase : w.phase = .began x) :
    w.line = p.line := by
  have line := h.line
  rw [phase, Phase.uncounted, Text.lineFeeds_append, ← Nat.add_assoc, ← h.first] at line
  exact Nat.add_right_cancel line

theorem begin_slash (faithful : F.Faithful) (h : Inside source before ['/'] [] after p kept w)
    (phase : w.phase = .began '/') (shape : p.shape = .plain .slash)
    (stop : after.startsWith (Kind.goesOn .slash) = false) :
    Follows source (.atPiece source p after kept) w w.beginSlash := by
  have line : after.head? ≠ some '/' := by
    intro head
    simp [Text.startsWith, head, Kind.goesOn] at stop
  have block : after.head? ≠ some '*' := by
    intro head
    simp [Text.startsWith, head, Kind.goesOn] at stop
  have place := h.place.peek faithful
  rw [beginSlash, h.place.takes_of_ne faithful line]
  simp only [Bool.false_eq_true, if_false, place.takes_of_ne faithful block]
  exact h.turn ((place.peek faithful).enter _) (by simp [phase, Phase.uncounted])
    (shape ▸ .plain) (by simp [phase, Phase.toWarn, Piece.warnings, shape])
    (by simp [phase, Phase.rank])

theorem begin_symbol (faithful : F.Faithful) (h : Inside source before [x] [] after p kept w)
    (phase : w.phase = .began x) (shape : p.shape = .plain kind) (hx : x ≠ '\n')
    (stop : after.startsWith kind.goesOn = false) :
    Follows source (.atPiece source p after kept) w (w.beginSymbol kind) := by
  rw [beginSymbol]
  cases hk : kind.withEqual? with
  | none =>
    exact h.turn (h.place.enter _) (by simp [phase, Phase.uncounted, hx]) (shape ▸ .plain)
      (by simp [phase, Phase.toWarn, Piece.warnings, shape]) (by simp [phase, Phase.rank])
  | some longer =>
    have equal : after.head? ≠ some '=' := by
      intro head
      simp [Text.startsWith, head, Kind.goesOn, hk] at stop
    simp only [h.place.takes_of_ne faithful equal]
    exact h.turn ((h.place.peek faithful).enter _) (by simp [phase, Phase.uncounted, hx])
      (shape ▸ .plain) (by simp [phase, Phase.toWarn, Piece.warnings, shape])
      (by simp [phase, Phase.rank])

theorem begin_operator (faithful : F.Faithful) (h : Inside source before [x] ['='] after p kept w)
    (phase : w.phase = .began x) (shape : p.shape = .plain longer) (hx : x ≠ '\n')
    (hk : kind.withEqual? = some longer) :
    Follows source (.atPiece source p after kept) w (w.beginSymbol kind) := by
  obtain ⟨takes, place⟩ := h.place.takes_of_eq faithful
  rw [beginSymbol, hk]
  simp only [takes]
  exact h.stay (place.enter _) (by simp [phase, Phase.uncounted, hx]) (shape ▸ .plain)
    (by simp [phase, Phase.toWarn, Piece.warnings, shape])

theorem begin_run (h : Inside source before [x] more after p kept w) (phase : w.phase = .began x)
    {stretch : Stretch} (hx : x ≠ '\n') (fresh : (Phase.taking stretch).uncounted = 0)
    (remains : Remains p.line (.taking stretch) p.shape [x] more after) :
    Follows source (.atPiece source p after kept) w (.on (w.enter (.taking stretch))) := by
  refine h.turn (h.place.enter _) ?_ remains ?_ (by simp [phase, Phase.rank])
  · rw [phase, phase_enter, fresh]
    simp [Phase.uncounted, hx]
  · simp [phase, Phase.toWarn, remains.warnings_eq_nil]

theorem begin_lineComment (faithful : F.Faithful)
    (h : Inside source before ['/'] ('/' :: body) after p kept w) (phase : w.phase = .began '/')
    (shape : p.shape = .lineComment) (clean : '\n' ∉ body)
    (stop : after.startsWith (· ≠ '\n') = false) :
    Follows source (.atPiece source p after kept) w w.beginSlash := by
  obtain ⟨takes, place⟩ := h.place.takes_of_eq faithful
  rw [beginSlash, takes]
  exact h.stay (place.enter _) (by simp [phase, Phase.uncounted])
    (shape ▸ .run (forall_ne_iff.2 clean) stop .lineComment)
    (by simp [phase, Phase.toWarn, Piece.warnings, shape])

theorem begin_comment (faithful : F.Faithful)
    (h : Inside source before ['/'] ('*' :: body) after p kept w) (phase : w.phase = .began '/')
    (shape : p.shape = .blockComment ∨ p.shape = .openComment)
    (remains : Remains p.line (.commenting p.line) p.shape ['/', '*'] body after) :
    Follows source (.atPiece source p after kept) w w.beginSlash := by
  have line : (('*' :: body) ++ after).head? ≠ some '/' := by simp
  obtain ⟨takes, place⟩ := (h.place.peek faithful).takes_of_eq faithful
  have warnings : p.warnings = (openers w.line body).map .nestedComment := by
    rw [h.line_began phase]
    rcases shape with shape | shape <;> simp [Piece.warnings, shape, h.text]
  rw [beginSlash, h.place.takes_of_ne faithful line]
  simp only [Bool.false_eq_true, if_false, takes, if_true, line_advance, line_peek]
  rw [h.line_began phase]
  exact h.stay (place.enter _) (by simp [phase, Phase.uncounted]) remains
    (by simp [phase, Phase.toWarn, warnings])

theorem pending_began (h : Inside source before [x] more after p kept w)
    (phase : w.phase = .began x) (quiet : p.warnings = []) : w.pending = kept ++ p.warnings :=
  h.pending_eq (by rw [phase, Phase.toWarn, quiet])

theorem begin_skipped (h : Inside source before [x] [] after p kept w) (phase : w.phase = .began x)
    (shape : p.shape = .blank) (hx : isBlank x) :
    Follows source (.atPiece source p after kept) w (w.begin x) := by
  have lastLine : w.line + Text.lineFeeds [x] = p.lastLine := by
    rw [h.lastLine_eq, phase]
    rfl
  have place : At { w with line := w.line + Text.lineFeeds [x] } source before [x] after :=
    ⟨h.place.split, h.place.start, h.place.current, h.place.unread⟩
  rw [begin_blank w hx]
  refine h.skip (place.enter _) rfl lastLine (h.pending_began phase ?_) ?_
    (.inr ⟨?_, h.place.unread_both (place.enter .between)⟩)
  · simp [Piece.warnings, shape]
  · rw [Piece.item?_eq, shape]
    rfl
  · simp [phase, Phase.rank]

theorem begin_stray (h : Inside source before [x] [] after p kept w) (phase : w.phase = .began x)
    (shape : p.shape = .stray x) (hx : x ≠ '\n') :
    Follows source (.atPiece source p after kept) w (w.fault [] (.unexpectedCharacter x)) := by
  have lastLine : w.line = p.lastLine := by
    simp [h.lastLine_eq, phase, Phase.uncounted, hx]
  refine h.fault h.place lastLine (h.pending_began phase ?_) (shape ▸ rfl) ?_
  · simp [Piece.warnings, shape]
  · simp [Cursor.alarm, shape]

theorem begin (faithful : F.Faithful) (h : Inside source before [x] more after p kept w)
    (phase : w.phase = .began x) :
    Follows source (.atPiece source p after kept) w (w.begin x) := by
  -- What a cut says of its first character decides which way the walker goes.
  have cut := h.text ▸ h.cut
  generalize shape : p.shape = s at cut
  cases cut with
  | symbol hk stop =>
    by_cases slash : x = '/'
    · subst slash
      cases Kind.ofChar?_slash.symm.trans hk
      exact h.begin_slash faithful phase shape stop
    · rw [Walker.begin, if_neg slash, hk]
      exact h.begin_symbol faithful phase shape (ne_lineFeed (Kind.ne_of_ofChar? hk).2.1) stop
  | operator hk hw =>
    have slash : x ≠ '/' := by
      rintro rfl
      cases Kind.ofChar?_slash.symm.trans hk
      cases hw
    rw [Walker.begin, if_neg slash, hk]
    exact h.begin_operator faithful phase shape (ne_lineFeed (Kind.ne_of_ofChar? hk).2.1) hw
  | word hx parts stop =>
    obtain ⟨slash, quote, blank, digit⟩ := Shape.ne_of_isWordStart hx
    rw [begin_of_none w slash blank (ofChar?_eq_none (.inr (.inr hx))), if_neg quote, digit,
      if_pos hx]
    exact h.begin_run phase (ne_lineFeed blank) rfl (shape ▸ .run parts stop .word)
  | whole hx digits stop hf =>
    obtain ⟨slash, quote, blank⟩ := Shape.ne_of_isDigit hx
    rw [begin_of_none w slash blank (ofChar?_eq_none (.inr (.inl hx))), if_neg quote, if_pos hx]
    exact h.begin_run phase (ne_lineFeed blank) rfl (shape ▸ .run digits stop (.whole hf))
  | fractional hx digits hd digits' stop =>
    obtain ⟨slash, quote, blank⟩ := Shape.ne_of_isDigit hx
    rw [begin_of_none w slash blank (ofChar?_eq_none (.inr (.inl hx))), if_neg quote, if_pos hx]
    exact h.begin_run phase (ne_lineFeed blank) rfl
      (shape ▸ .taking digits rfl (.fractional hd digits' stop))
  | string clean =>
    exact h.begin_run phase (by decide) rfl (shape ▸ .taking (forall_ne_iff.2 clean) rfl .string)
  | openString clean =>
    exact h.begin_run phase (by decide) rfl (shape ▸ .run (forall_ne_iff.2 clean) rfl .openString)
  | blank hx => exact h.begin_skipped phase shape hx
  | lineComment clean stop => exact h.begin_lineComment faithful phase shape clean stop
  | blockComment once =>
    exact h.begin_comment faithful phase (.inl shape) (shape ▸ .blockComment once)
  | openComment never =>
    exact h.begin_comment faithful phase (.inr shape) (shape ▸ .openComment never)
  | stray slash quote blank digit word none =>
    rw [begin_of_none w slash blank none, if_neg quote, digit, word]
    exact h.begin_stray phase shape (ne_lineFeed blank)

end Inside

namespace Inside

variable {stretch : Stretch} {shape : Shape} {run rest : Text}

theorem take_cons (faithful : F.Faithful)
    (h : Inside source before lexeme (x :: run ++ rest) after p kept w)
    (phase : w.phase = .taking stretch) (goes : stretch.goesOn x)
    (inside : ∀ c ∈ run, stretch.goesOn c)
    (stop : (rest ++ after).startsWith stretch.goesOn = false)
    (left : Left stretch p.shape (lexeme ++ x :: run) rest after) :
    Follows source (.atPiece source p after kept) w (w.take stretch) := by
  have place := h.place
  have peek := place.peek_eq faithful
  rw [Walker.take, peek]
  simp only [List.cons_append, List.head?_cons, goes, if_true]
  refine h.stay (((place.peek faithful).advance).enter _) ?_ ?_ ?_
  · simp [phase, uncounted_past goes, Nat.add_assoc]
  · rw [phase_enter]
    refine .taking (goesOn_past x stretch ▸ inside) (goesOn_past x stretch ▸ stop) ?_
    rw [List.append_assoc]
    exact left.past x
  · simp [phase, Phase.toWarn]

theorem take_nil (faithful : F.Faithful) (place : w.At source before lexeme ahead)
    (stop : ahead.startsWith stretch.goesOn = false) : w.take stretch = w.peek.2.leave stretch := by
  rw [Walker.take, place.peek_eq faithful]
  cases ahead with
  | nil => rfl
  | cons c ahead =>
    rw [Text.startsWith_cons] at stop
    simp [stop]

theorem leaveString (faithful : F.Faithful)
    (h : Inside source before lexeme more after p kept w) (phase : w.phase = .taking (.string n))
    (left : Left (.string n) p.shape lexeme more after) :
    Follows source (.atPiece source p after kept) w
      (Walker.leaveString { w.peek.2 with line := w.line + n }) := by
  have peek := h.place.peek faithful
  have place : At { w.peek.2 with line := w.line + n } source before lexeme (more ++ after) :=
    ⟨peek.split, peek.start, peek.current, peek.unread⟩
  have pending := h.pending_eq (phase ▸ rfl)
  rw [Walker.leaveString]
  generalize shape : p.shape = s at left
  cases left with
  | string =>
    rw [place.advance_eq]
    refine h.stay (place.advance.enter _) ?_ (shape ▸ .string) ?_
    · simp [phase, Phase.uncounted]
    · simp [phase, Phase.toWarn]
  | openString =>
    obtain ⟨advance, last⟩ := place.advance_nil faithful
    have lastLine : w.line + n = p.lastLine := by
      rw [h.lastLine_eq, phase]
      rfl
    rw [advance]
    refine h.fault last ?_ ?_ (shape ▸ rfl) ?_
    · simp [lastLine]
    · simp [pending]
    · simp [Cursor.alarm, shape]

theorem leaveWhole_eq (faithful : F.Faithful) (place : w.At source before lexeme ahead) :
    w.leaveWhole =
      if ahead.head? = some '.' then
        if ahead[1]?.any Char.isDigit then
          .on (w.peek.2.peekSecond.2.advance.2.enter (.taking .places))
        else .on (w.peek.2.peekSecond.2.enter (.ending .number))
      else .on (w.peek.2.enter (.ending .number)) := by
  rw [Walker.leaveWhole, place.peek_eq faithful]
  dsimp only
  rw [(place.peek faithful).peekSecond_eq faithful]

theorem second_of_fraction_eq_zero (none : fraction after = 0) (point : after.head? = some '.') :
    ¬ after[1]?.any Char.isDigit := by
  cases after with
  | nil => cases point
  | cons c rest =>
    cases point
    cases rest with
    | nil => simp
    | cons d rest => simpa using (fraction_eq_zero_iff _).1 none d rest rfl

theorem leaveWhole (faithful : F.Faithful)
    (h : Inside source before lexeme more after p kept w) (phase : w.phase = .taking .whole)
    (left : Left .whole p.shape lexeme more after) :
    Follows source (.atPiece source p after kept) w w.peek.2.leaveWhole := by
  have place := h.place.peek faithful
  have again := place.peek faithful
  rw [leaveWhole_eq faithful place]
  generalize shape : p.shape = s at left
  cases left with
  | fractional digit digits stop =>
    simp only [List.cons_append, List.head?_cons, List.getElem?_cons_succ, List.getElem?_cons_zero,
      Option.any_some, digit, if_true]
    refine h.stay ((again.peekSecond faithful).advance.enter _) ?_ ?_ ?_
    · simp [phase, Phase.uncounted]
    · exact shape ▸ .run (List.forall_mem_cons.2 ⟨digit, digits⟩) stop .places
    · simp [phase, Phase.toWarn]
  | whole stop =>
    have turn (w' : Walker F) (place : w'.At source before lexeme ([] ++ after))
        (line : w'.line = w.line) (pending : w'.pending = w.pending) :
        Follows source (.atPiece source p after kept) w (.on (w'.enter (.ending .number))) :=
      h.turn (place.enter _) (by simp [phase, Phase.uncounted, line]) (shape ▸ .number)
        (by simp [phase, Phase.toWarn, pending]) (by simp [phase, Phase.rank])
    rw [List.nil_append]
    split
    -- A point without a digit behind it has been looked past, and is not taken.
    next point =>
      rw [if_neg (second_of_fraction_eq_zero stop point)]
      exact turn _ (again.peekSecond faithful) rfl rfl
    next => exact turn _ again rfl rfl

theorem leave (faithful : F.Faithful) (h : Inside source before lexeme rest after p kept w)
    (phase : w.phase = .taking stretch) (left : Left stretch p.shape lexeme rest after) :
    Follows source (.atPiece source p after kept) w (w.peek.2.leave stretch) := by
  have place := h.place.peek faithful
  have pending := h.pending_eq (phase ▸ rfl)
  cases stretch with
  | string n => exact h.leaveString faithful phase left
  | whole => exact h.leaveWhole faithful phase left
  | lineComment =>
    generalize shape : p.shape = s at left
    cases left
    refine h.skip ((List.append_nil lexeme).symm ▸ place.enter _) rfl (h.line_eq (phase ▸ rfl))
      pending ?_
      (.inr ⟨?_, h.place.unread_both (place.enter .between)⟩)
    · rw [Piece.item?_eq, shape]
      rfl
    · simp [phase, Phase.rank]
  | places =>
    generalize shape : p.shape = s at left
    cases left
    exact h.turn (place.enter _) (by simp [phase, Phase.uncounted]) (shape ▸ .number)
      (by simp [phase, Phase.toWarn]) (by simp [phase, Phase.rank])
  | word =>
    generalize shape : p.shape = s at left
    cases left
    exact h.turn (place.enter _) (by simp [phase, Phase.uncounted]) (shape ▸ .word)
      (by simp [phase, Phase.toWarn]) (by simp [phase, Phase.rank])

theorem take (faithful : F.Faithful) (h : Inside source before lexeme more after p kept w)
    (phase : w.phase = .taking stretch) :
    Follows source (.atPiece source p after kept) w (w.take stretch) := by
  have remains := phase ▸ h.remains
  generalize shape : p.shape = s at remains
  cases remains with
  | @taking run _ rest _ _ _ inside stop left =>
    subst shape
    cases run with
    | nil =>
      rw [List.append_nil] at left
      rw [take_nil faithful h.place stop]
      exact h.leave faithful phase left
    | cons x run =>
      obtain ⟨goes, inside⟩ := List.forall_mem_cons.1 inside
      exact h.take_cons faithful phase goes inside stop left

end Inside

namespace At

theorem comment_nil (faithful : F.Faithful) (place : w.At source before lexeme []) :
    w.comment n = w.peek.2.fault [.ranOut n] .unterminatedComment := by
  rw [Walker.comment, place.peek_eq faithful]
  rfl

theorem comment_cons (faithful : F.Faithful) (place : w.At source before lexeme (x :: ahead)) :
    w.comment n = w.peek.2.passInside n x := by
  rw [Walker.comment, place.peek_eq faithful]
  rfl

theorem passInside_star (faithful : F.Faithful) (place : w.At source before lexeme (x :: ahead)) :
    w.passInside n '*' = .on (w.peekSecond.2.advance.2.enter
      (if ahead.head? = some '/' then .closing else .commenting n)) := by
  rw [passInside, if_pos rfl, place.peekSecond_eq faithful, List.getElem?_cons_succ,
    ← List.head?_eq_getElem?]

theorem passInside_slash (faithful : F.Faithful) (place : w.At source before lexeme (x :: ahead)) :
    w.passInside n '/' = .on
      (if ahead.head? = some '*' then w.peekSecond.2.warn else w.peekSecond.2).advance.2 := by
  rw [passInside, if_neg (by decide), if_pos rfl, place.peekSecond_eq faithful,
    List.getElem?_cons_succ, ← List.head?_eq_getElem?]

theorem passInside (faithful : F.Faithful) (place : w.At source before lexeme (x :: ahead))
    (phase : w.phase = .commenting n) (goes : ¬(x = '*' ∧ ahead.head? = some '/')) :
    ∃ w', w.passInside n x = .on w' ∧ w'.At source before (lexeme ++ [x]) ahead ∧
      w'.phase = .commenting n ∧ w'.line = w.line + Text.lineFeeds [x] ∧
      w'.pending = w.pending ++
        (if x = '/' ∧ ahead.head? = some '*' then [Diagnostic.nestedComment w.line] else []) := by
  have second := place.peekSecond faithful
  by_cases star : x = '*'
  · subst star
    have other : ¬ ahead.head? = some '/' := fun head => goes ⟨rfl, head⟩
    exact ⟨_, place.passInside_star faithful, second.advance.enter _, by simp [other], by simp,
      by simp⟩
  by_cases slash : x = '/'
  · subst slash
    refine ⟨_, place.passInside_slash faithful, ?_⟩
    split
    next opener =>
      have warned : w.peekSecond.2.warn.At source before lexeme ('/' :: ahead) :=
        ⟨second.split, second.start, second.current, second.unread⟩
      exact ⟨warned.advance, by simp [warn, phase], by simp [warn], by simp [warn, opener]⟩
    next other => exact ⟨second.advance, by simp [phase], by simp, by simp [other]⟩
  rw [Walker.passInside, if_neg star, if_neg slash]
  by_cases lineFeed : x = '\n'
  · have counted : At { w with line := w.line + 1 } source before lexeme (x :: ahead) :=
      ⟨place.split, place.start, place.current, place.unread⟩
    rw [if_pos lineFeed]
    exact ⟨_, rfl, counted.advance, by simp [phase], by simp [lineFeed], by simp [slash]⟩
  · rw [if_neg lineFeed]
    exact ⟨_, rfl, place.advance, by simp [phase], by simp [lineFeed], by simp [slash]⟩

end At

namespace Inside

theorem comment_cons (faithful : F.Faithful)
    (h : Inside source before lexeme (x :: more) after p kept w) (phase : w.phase = .commenting n)
    (goes : ¬(x = '*' ∧ more.head? = some '/')) (same : (more ++ after).head? = more.head?)
    (remains : Remains p.line (.commenting n) p.shape (lexeme ++ [x]) more after) :
    Follows source (.atPiece source p after kept) w (w.comment n) := by
  have place : w.At source before lexeme (x :: (more ++ after)) := h.place
  obtain ⟨w', comment, place', phase', line, pending⟩ :=
    (place.peek faithful).passInside faithful phase (same ▸ goes)
  rw [place.comment_cons faithful, comment]
  refine h.stay place' ?_ (phase' ▸ remains) ?_
  · simp [phase, phase', line, Phase.uncounted]
  -- The warnings still due are those told now and those of the rest, from its line on.
  · have next : w.line + Text.lineFeeds [x] = if x = '\n' then w.line + 1 else w.line := by
      by_cases lineFeed : x = '\n' <;> simp [lineFeed]
    rw [phase, phase', pending, same, line]
    simp only [Phase.toWarn, openers_cons, line_peek, pending_peek, next]
    split <;> simp

theorem closes (faithful : F.Faithful)
    (h : Inside source before lexeme ['*', '/'] after p kept w) (phase : w.phase = .commenting n)
    (shape : p.shape = .blockComment) :
    Follows source (.atPiece source p after kept) w (w.comment n) := by
  have place := h.place.peek faithful
  rw [h.place.comment_cons faithful, place.passInside_star faithful]
  refine h.stay ((place.peekSecond faithful).advance.enter _) ?_ (shape ▸ .closing) ?_
  · simp [phase, Phase.uncounted]
  · simp [phase, Phase.toWarn, openers_cons]

theorem runsOut (faithful : F.Faithful) (h : Inside source before lexeme [] [] p kept w)
    (phase : w.phase = .commenting p.line) (shape : p.shape = .openComment) :
    Follows source (.atPiece source p [] kept) w (w.comment p.line) := by
  rw [h.place.comment_nil faithful]
  refine h.fault (h.place.peek faithful) (h.line_eq (phase ▸ rfl)) (h.pending_eq (phase ▸ rfl))
    (shape ▸ rfl) ?_
  simp [Cursor.alarm, shape]

theorem comment (faithful : F.Faithful) (h : Inside source before lexeme more after p kept w)
    (phase : w.phase = .commenting n) :
    Follows source (.atPiece source p after kept) w (w.comment n) := by
  have remains := phase ▸ h.remains
  generalize shape : p.shape = s at remains
  cases remains with
  | @blockComment body _ _ once =>
    cases body with
    | nil => exact h.closes faithful phase shape
    | cons x body =>
      obtain ⟨goes, once⟩ := (closesOnce_cons x body).1 once
      -- The closer ends the piece, so nothing behind the piece is looked at.
      refine h.comment_cons faithful phase ?_ (by cases body <;> rfl) (shape ▸ .blockComment once)
      cases body with
      | nil => simp
      | cons d body => exact goes
  | openComment never =>
    cases more with
    | nil => exact h.runsOut faithful phase shape
    | cons x more =>
      obtain ⟨goes, never⟩ := (neverCloses_cons x more).1 never
      exact h.comment_cons faithful phase goes (by rw [List.append_nil])
        (shape ▸ .openComment never)

end Inside

namespace At

theorem lexeme?_eq (h : w.At source before lexeme ahead) : w.lexeme? source = some lexeme := by
  rw [lexeme?, h.start, h.current, h.split, Text.slice?_bytes]

theorem quotes {value : Text} (h : w.At source before ('"' :: (value ++ ['"'])) ahead) :
    w.start + 1 = Text.bytes (before ++ ['"']) ∧
      w.current = Text.bytes (before ++ ['"'] ++ value) + 1 ∧
      source = (before ++ ['"']) ++ (value ++ '"' :: ahead) := by
  have quote : '"'.utf8Size = 1 := by decide
  refine ⟨by simp [h.start, quote], ?_, by simp [h.split]⟩
  simp [h.current, quote]
  omega

theorem value?_eq {value : Text} (h : w.At source before ('"' :: (value ++ ['"'])) ahead) :
    w.value? source = some value := by
  obtain ⟨start, current, split⟩ := h.quotes
  rw [value?, if_neg (by omega), start, current, Nat.add_sub_cancel, split, Text.slice?_bytes]

end At

namespace Inside

theorem close (h : Inside source before lexeme more after p kept w) (phase : w.phase = .closing) :
    Follows source (.atPiece source p after kept) w (.on (w.advance.2.enter .between)) := by
  have remains := phase ▸ h.remains
  generalize shape : p.shape = s at remains
  cases remains
  have place := h.place.advance.enter .between
  have lastLine : w.line = p.lastLine := by
    rw [Piece.lastLine, h.first, h.text]
    simpa [phase, Phase.uncounted, Nat.add_assoc] using h.line
  refine h.skip place rfl ?_ ?_ ?_ (.inl (h.place.consumes place))
  · simp [lastLine]
  · simp [h.pending_eq (phase ▸ rfl)]
  · rw [Piece.item?_eq, shape]
    rfl

theorem token?_eq {taken : Taken} (h : Inside source before lexeme [] after p kept w)
    (remains : Remains p.line (.ending taken) p.shape lexeme [] after)
    (lastLine : w.line = p.lastLine) :
    ∃ t, w.token? source taken = some t ∧ p.item? = some (.token t) := by
  have cut : Cut p.shape lexeme after := List.append_nil lexeme ▸ h.text ▸ h.cut
  have text : p.text = lexeme := h.text.trans (List.append_nil _)
  have lexeme_eq := h.place.lexeme?_eq
  generalize shape : p.shape = s at remains cut
  cases remains with
  | @plain kind =>
    refine ⟨.plain kind lexeme w.line, ?_, ?_⟩
    · simp [token?, lexeme_eq]
    · simp [Piece.item?, Piece.token?, shape, text, lastLine]
  | word =>
    refine ⟨.plain (.ofWord lexeme) lexeme w.line, ?_, ?_⟩
    · simp [token?, lexeme_eq]
    · simp [Piece.item?, Piece.token?, shape, text, lastLine]
  | number =>
    refine ⟨.number lexeme (.ofDecimal (.ofNumeral lexeme)) w.line, ?_, ?_⟩
    · simp [token?, lexeme_eq, Binary64.read?_of_isNumeral cut.isNumeral]
    · simp [Piece.item?, Piece.token?, shape, text, lastLine]
  | string =>
    cases cut with
    | @string value _ clean =>
      refine ⟨.string ('"' :: (value ++ ['"'])) value w.line, ?_, ?_⟩
      · simp [token?, lexeme_eq, h.place.value?_eq]
      · simp [Piece.item?, Piece.token?, shape, text, lastLine]

theorem finish {taken : Taken} (h : Inside source before lexeme more after p kept w)
    (phase : w.phase = .ending taken) :
    Follows source (.atPiece source p after kept) w (w.step source) := by
  have remains := phase ▸ h.remains
  obtain rfl := remains.more_eq_nil
  have lastLine := h.line_eq (phase ▸ rfl)
  obtain ⟨t, token, item⟩ := h.token?_eq remains lastLine
  rw [step, phase]
  dsimp only
  rw [token]
  exact h.give (h.place.enter _) rfl lastLine (h.pending_eq (phase ▸ rfl)) item
    (Cursor.alarm_of_token item).symm

theorem step (faithful : F.Faithful) (h : Inside source before lexeme more after p kept w) :
    Follows source (.atPiece source p after kept) w (w.step source) := by
  cases phase : w.phase with
  | between =>
    have remains := phase ▸ h.remains
    cases remains
  | began c =>
    have remains := phase ▸ h.remains
    obtain rfl := remains.lexeme_eq
    rw [Walker.step, phase]
    exact h.begin faithful phase
  | taking stretch =>
    rw [Walker.step, phase]
    exact h.take faithful phase
  | commenting n =>
    rw [Walker.step, phase]
    exact h.comment faithful phase
  | closing =>
    rw [Walker.step, phase]
    exact h.close phase
  | ending taken => exact h.finish phase

end Inside

theorem Rests.step (faithful : F.Faithful) (h : Rests source c w) :
    Follows source c w (w.step source) := by
  cases h with
  | @mk before lexeme ahead _ phase place line =>
    have start : w.restart.At source (before ++ lexeme) [] ahead :=
      ⟨by simp [place.split], place.current, by simp [restart, place.current], place.unread⟩
    rw [Walker.step, phase]
    cases ahead with
    | nil =>
      obtain ⟨advance, last⟩ := start.advance_nil faithful
      rw [advance]
      have rests : Rests source _ w.restart.advance.2 :=
        .mk (by simp [phase]) last (by simp [line])
      rw [line_advance, pending_advance] at rests
      exact .halt rests rfl
    | cons x rest =>
      -- The first piece of what is ahead is the one the walker is in from here on.
      obtain ⟨shape, more, after, rfl, cut⟩ := exists_cut x rest
      have first := start.advance.enter (.began x)
      rw [start.advance_eq, ← List.cons_append, cut.pieces_eq]
      have inside : Inside source (before ++ lexeme) [x] more after ⟨shape, x :: more, w.line⟩
          w.pending (w.restart.advance.2.enter (.began x)) := by
        refine ⟨first, ?_, cut, rfl, line, .began cut, ?_⟩
        · simp [Phase.uncounted, line, Nat.add_assoc]
        · simp [Phase.toWarn]
      exact .on (.inside inside) (.refl _) (.inl (place.consumes first))

theorem Tracks.step (faithful : F.Faithful) (h : Tracks source c w) :
    Follows source c w (w.step source) := by
  cases h with
  | rests h => exact h.step faithful
  | inside h => exact h.step faithful

end LoxLexer.Walker
