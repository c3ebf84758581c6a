import LoxLexer.Proofs.Collecting
import LoxLexer.Proofs.Phases

namespace LoxLexer

namespace Cursor

variable {c d : Cursor}

theorem scanInto_empty (c : Cursor) :
    c.finish = ⟨(c.scanInto {}).1, (c.scanInto {}).2.entries.toList⟩ := by
  rw [scanInto_eq, Report.toList_entries_addAll]
  rfl

theorem scanInto_of_none (h : c.next = (none, d)) (r : Report) :
    c.scanInto r = ([.endOfInput d.lastLine], r.addAll d.pending.toList) := by
  rw [scanInto]
  grind

theorem finish_of_none (h : c.next = (none, d)) :
    c.finish = ⟨[.endOfInput d.lastLine], d.pending.toList⟩ := by
  rw [scanInto_empty, scanInto_of_none h]
  simp [Report.toList_entries_addAll]

theorem ahead_of_none (h : c.next = (none, d)) : d.ahead = [] := by
  obtain ⟨passed, ahead, -, left, -, ended⟩ := c.next_eq
  simp only [rest, h] at left ended
  rw [left]
  exact ended trivial

theorem finish_of_token {t : Token} (h : c.next = (some (.token t), d)) :
    c.finish =
      ⟨t :: d.flushed.finish.tokens, d.pending.toList ++ d.flushed.finish.diagnostics⟩ := by
  rw [scanInto_empty, scanInto_of_token h]
  simp [scanInto_eq, Report.toList_entries_addAll]

theorem finish_of_fault {f : Fault} (h : c.next = (some (.fault f), d)) :
    c.finish = ⟨d.flushed.finish.tokens,
      d.pending.toList ++ .ofFault f :: d.flushed.finish.diagnostics⟩ := by
  rw [scanInto_empty, scanInto_of_fault h]
  simp [scanInto_eq, Report.toList_entries_addAll]

def tells (n : Nat) (c : Cursor) : List Event :=
  (eventsOnto #[] c.pending c.ahead).toList ++ [.finished (n + c.finish.tokens.length) c.lastLine]

theorem suffix_of_next {item? : Option Item} (h : c.next = (item?, d)) : d.ahead <:+ c.ahead := by
  obtain ⟨passed, ahead, split, left, -⟩ := c.next_eq
  simp only [rest, h] at left
  rw [left]
  exact ⟨passed, split.symm⟩

theorem tells_ofSource (source : Text) :
    (ofSource source).tells 0 = (scanEvents source).toList := by
  rw [tells, scanEvents, events, Array.toList_push, Nat.zero_add]

theorem toList_eventsOnto (told : Array Event) (pending : Array Diagnostic) (ps : List Piece) :
    (eventsOnto told pending ps).toList = told.toList ++ (eventsOnto #[] pending ps).toList := by
  induction ps generalizing told pending with
  | nil => simp [eventsOnto]
  | cons p ps ih =>
    rw [eventsOnto, eventsOnto]
    cases p.item? with
    | none => exact ih told _
    | some item =>
      dsimp only
      rw [ih, ih (Array.push _ _)]
      simp

theorem toList_eventsOnto_of_some {item : Item} (h : c.next = (some item, d)) :
    (eventsOnto #[] c.pending c.ahead).toList =
      c.alarms ++ d.pending.toList.map .reported ++
        itemEvent item :: (eventsOnto #[] #[] d.ahead).toList := by
  obtain ⟨ps, pending, lastLine⟩ := c
  induction ps generalizing pending with
  | nil => cases h
  | cons p ps ih =>
    cases hp : p.item? with
    | none =>
      rw [next_cons_of_none hp] at h
      have alarms := (Walker.nears_of_skipped hp ps pending lastLine).alarms
      rw [eventsOnto, hp, ← alarms]
      exact ih _ h
    | some found =>
      rw [next_cons_of_some hp] at h
      cases h
      rw [eventsOnto, hp]
      dsimp only
      rw [toList_eventsOnto]
      simp [alarms, hp]

theorem eventsOnto_of_none (h : c.next = (none, d)) :
    c.alarms = [] ∧
      (eventsOnto #[] c.pending c.ahead).toList = d.pending.toList.map .reported := by
  obtain ⟨ps, pending, lastLine⟩ := c
  induction ps generalizing pending with
  | nil =>
    cases h
    simp [alarms, eventsOnto]
  | cons p ps ih =>
    cases hp : p.item? with
    | none =>
      rw [next_cons_of_none hp] at h
      have alarms := (Walker.nears_of_skipped hp ps pending lastLine).alarms
      rw [eventsOnto, hp, ← alarms]
      exact ih _ h
    | some item =>
      rw [next_cons_of_some hp] at h
      cases h

theorem lastLine_of_next {item? : Option Item} (h : c.next = (item?, d)) :
    d.lastLine = c.lastLine := by
  obtain ⟨passed, ahead, -, left, -⟩ := c.next_eq
  simp only [rest, h] at left
  rw [left]
  rfl

theorem tells_of_token {t : Token} (h : c.next = (some (.token t), d)) (n : Nat) :
    c.tells n = c.alarms ++ d.pending.toList.map .reported ++
      .scanned t :: d.flushed.tells (n + 1) := by
  rw [tells, tells, toList_eventsOnto_of_some h, finish_of_token h, ← lastLine_of_next h]
  simp [itemEvent, flushed, Nat.add_assoc, Nat.add_comm 1]

theorem tells_of_fault {f : Fault} (h : c.next = (some (.fault f), d)) (n : Nat) :
    c.tells n = c.alarms ++ d.pending.toList.map .reported ++
      .reported (.ofFault f) :: d.flushed.tells n := by
  rw [tells, tells, toList_eventsOnto_of_some h, finish_of_fault h, ← lastLine_of_next h]
  simp [itemEvent, flushed]

theorem tells_of_none (h : c.next = (none, d)) (n : Nat) :
    c.tells n =
      c.alarms ++ d.pending.toList.map .reported ++ [.finished (n + 1) d.lastLine] := by
  obtain ⟨alarms, events⟩ := eventsOnto_of_none h
  rw [tells, events, alarms, finish_of_none h, lastLine_of_next h]
  rfl

end Cursor

namespace Walker

variable {F : Feed} {source : Text} {c : Cursor} {w w' : Walker F}

theorem rests_ofSource (faithful : F.Faithful) (source : Text) :
    Rests source (.ofSource source) (ofSource source : Walker F) := by
  have place : At (ofSource source : Walker F) source [] [] source :=
    ⟨rfl, rfl, rfl, faithful.wrap _⟩
  exact .mk rfl place rfl

theorem Rests.flush (h : Rests source c w) :
    Rests source c.flushed { w with pending := #[] } := by
  cases h with
  | @mk before lexeme ahead _ phase place line =>
    have place : At { w with pending := #[] } source before lexeme ahead :=
      ⟨place.split, place.start, place.current, place.unread⟩
    exact .mk (w := { w with pending := #[] }) phase place line

theorem Tracks.rests_of_between (h : Tracks source c w) (phase : w.phase = .between) :
    Rests source c w := by
  cases h with
  | rests h => exact h
  | inside h =>
    have remains := phase ▸ h.remains
    cases remains

theorem Reached.tracks (faithful : F.Faithful) (h : Reached source w) :
    ∃ c, Tracks source c w ∧ c.ahead <:+ pieces 1 source := by
  induction h with
  | start => exact ⟨_, .rests (rests_ofSource faithful source), List.suffix_rfl⟩
  | on _ step ih =>
    obtain ⟨c, tracks, suffix⟩ := ih
    have follows := step ▸ tracks.step faithful
    cases follows with
    | on tracks nears _ => exact ⟨_, tracks, nears.ahead.trans suffix⟩
  | give _ step ih =>
    obtain ⟨c, tracks, suffix⟩ := ih
    have follows := step ▸ tracks.step faithful
    cases follows with
    | give rests next _ => exact ⟨_, .rests rests, (Cursor.suffix_of_next next).trans suffix⟩
  | halt _ step ih =>
    obtain ⟨c, tracks, suffix⟩ := ih
    have follows := step ▸ tracks.step faithful
    cases follows with
    | halt rests next => exact ⟨_, .rests rests, (Cursor.suffix_of_next next).trans suffix⟩
  | flush _ phase ih =>
    obtain ⟨c, tracks, suffix⟩ := ih
    exact ⟨_, .rests (tracks.rests_of_between phase).flush, suffix⟩

/-- Between two iterations a walker stands where a piece ends, and at the line that begins there. -/
theorem Reached.at_boundary (faithful : F.Faithful) (h : Reached source w)
    (phase : w.phase = .between) : ∃ passed ahead, pieces 1 source = passed ++ ahead ∧
      w.current = Text.bytes (passed.flatMap Piece.text) ∧
      w.line = 1 + Text.lineFeeds (passed.flatMap Piece.text) := by
  obtain ⟨c, tracks, suffix⟩ := h.tracks faithful
  obtain ⟨passed, split⟩ := suffix
  cases tracks.rests_of_between phase with
  | @mk before lexeme ahead _ _ place line =>
    have joined := congrArg (List.flatMap Piece.text) split
    rw [List.flatMap_append, flatMap_text_pieces, flatMap_text_pieces] at joined
    rw [place.split, ← List.append_assoc] at joined
    have same : before ++ lexeme = passed.flatMap Piece.text :=
      (List.append_cancel_right joined).symm
    exact ⟨passed, _, split.symm, same ▸ place.current, same ▸ line⟩

theorem Tracks.unread (h : Tracks source c w) : ∃ items, F.Yields w.chars items := by
  cases h with
  | rests h =>
    cases h with
    | mk _ place _ => exact ⟨_, place.unread⟩
  | inside h => exact ⟨_, h.place.unread⟩

theorem rank_le (phase : Phase) : phase.rank ≤ 2 := by
  cases phase <;> simp [Phase.rank]

theorem Progresses.shrinks (h : w.Progresses w') {items : List (Nat × Char)}
    (unread : F.Yields w.chars items) : ∃ rest, F.Yields w'.chars rest ∧
      3 * rest.length + w'.phase.rank < 3 * items.length + w.phase.rank := by
  -- No phase has a rank above two, so three steps for a character leave room for those without one.
  rcases h with ⟨item, rest, taken, left⟩ | ⟨rank, rest, kept, left⟩
  · obtain rfl := unread.unique taken
    have := rank_le w'.phase
    refine ⟨rest, left, ?_⟩
    rw [List.length_cons]
    omega
  · obtain rfl := unread.unique kept
    exact ⟨items, left, Nat.add_lt_add_left rank _⟩

theorem Tracks.exists_next (faithful : F.Faithful) (h : Tracks source c w) :
    ∃ w', Next source w c.next.1 c.alarms w' ∧ Rests source c.next.2 w' := by
  obtain ⟨items, unread⟩ := h.unread
  induction size : 3 * items.length + w.phase.rank using Nat.strongRecOn
    generalizing c w items with
  | ind n ih =>
    have follows := h.step faithful
    cases step : w.step source with
    | fail =>
      rw [step] at follows
      cases follows
    | give told item w' =>
      rw [step] at follows
      cases follows with
      | give rests next alarms => exact ⟨w', next ▸ alarms ▸ .give step, next ▸ rests⟩
    | halt w' =>
      rw [step] at follows
      cases follows with
      | halt rests next =>
        exact ⟨w', next ▸ (Cursor.eventsOnto_of_none next).1 ▸ .halt step, next ▸ rests⟩
    | on w' =>
      rw [step] at follows
      cases follows with
      | on tracks nears progresses =>
        obtain ⟨rest, unread', less⟩ := progresses.shrinks unread
        obtain ⟨w'', next, rests⟩ := ih _ (size ▸ less) tracks rest unread' rfl
        rw [nears.next] at next rests
        rw [nears.alarms] at next
        exact ⟨w'', .on step next, rests⟩

theorem Rests.pending_eq (h : Rests source c w) : w.pending = c.pending := by
  cases h
  rfl

theorem Rests.line_eq (h : Rests source c w) (ended : c.ahead = []) : w.line = c.lastLine := by
  cases h with
  | @mk before lexeme ahead _ phase place line =>
    have ended : pieces w.line ahead = [] := ended
    have none : ahead = [] := by rw [← flatMap_text_pieces w.line ahead, ended, List.flatMap_nil]
    rw [line, place.split, none, List.append_nil]

theorem Rests.scans (faithful : F.Faithful) (h : Rests source c w) (n : Nat) :
    Scans source n w c.finish.tokens c.finish.diagnostics (c.tells n) := by
  induction size : c.ahead.length using Nat.strongRecOn generalizing c w n with
  | ind _ ih =>
    obtain ⟨w', next, rests⟩ := (Tracks.rests h).exists_next faithful
    have pending := congrArg Array.toList rests.pending_eq
    cases found : c.next with
    | mk item? d =>
      rw [found] at next rests pending
      match item? with
      | none =>
        rw [Cursor.finish_of_none found, Cursor.tells_of_none found, ← pending,
          ← rests.line_eq (Cursor.ahead_of_none found)]
        exact .ended next
      | some (.token t) =>
        rw [Cursor.finish_of_token found, Cursor.tells_of_token found, ← pending]
        exact .token next (ih _ (size ▸ Cursor.length_of_next found) rests.flush _ rfl)
      | some (.fault f) =>
        rw [Cursor.finish_of_fault found, Cursor.tells_of_fault found, ← pending]
        exact .fault next (ih _ (size ▸ Cursor.length_of_next found) rests.flush _ rfl)

theorem Next.unique {item? other? : Option Item} {told told' : List Event} {w'' : Walker F}
    (h : Next source w item? told w') (h' : Next source w other? told' w'') :
    item? = other? ∧ told = told' ∧ w' = w'' := by
  induction h with
  | on step _ ih =>
    cases h' with
    | on step' later => cases step.symm.trans step'; exact ih later
    | give step' => cases step.symm.trans step'
    | halt step' => cases step.symm.trans step'
  | give step =>
    cases h' with
    | on step' _ => cases step.symm.trans step'
    | give step' => cases step.symm.trans step'; exact ⟨rfl, rfl, rfl⟩
    | halt step' => cases step.symm.trans step'
  | halt step =>
    cases h' with
    | on step' _ => cases step.symm.trans step'
    | give step' => cases step.symm.trans step'
    | halt step' => cases step.symm.trans step'; exact ⟨rfl, rfl, rfl⟩

theorem Scans.unique {n : Nat} {tokens tokens' : List Token}
    {diagnostics diagnostics' : List Diagnostic} {events events' : List Event}
    (h : Scans source n w tokens diagnostics events)
    (h' : Scans source n w tokens' diagnostics' events') :
    tokens = tokens' ∧ diagnostics = diagnostics' ∧ events = events' := by
  induction h generalizing tokens' diagnostics' events' with
  | token next _ ih =>
    cases h' with
    | token next' later =>
      obtain ⟨same, rfl, rfl⟩ := next.unique next'
      cases same
      obtain ⟨rfl, rfl, rfl⟩ := ih later
      exact ⟨rfl, rfl, rfl⟩
    | fault next' _ => cases (next.unique next').1
    | ended next' => cases (next.unique next').1
  | fault next _ ih =>
    cases h' with
    | token next' _ => cases (next.unique next').1
    | fault next' later =>
      obtain ⟨same, rfl, rfl⟩ := next.unique next'
      cases same
      obtain ⟨rfl, rfl, rfl⟩ := ih later
      exact ⟨rfl, rfl, rfl⟩
    | ended next' => cases (next.unique next').1
  | ended next =>
    cases h' with
    | token next' _ => cases (next.unique next').1
    | fault next' _ => cases (next.unique next').1
    | ended next' =>
      obtain ⟨-, rfl, rfl⟩ := next.unique next'
      exact ⟨rfl, rfl, rfl⟩

theorem scans_iff (faithful : F.Faithful) (source : Text) (tokens : List Token)
    (diagnostics : List Diagnostic) (events : List Event) :
    Scans source 0 (ofSource source : Walker F) tokens diagnostics events ↔
      scan source = ⟨tokens, diagnostics⟩ ∧ (scanEvents source).toList = events := by
  have scans := (rests_ofSource faithful source).scans faithful 0
  rw [Cursor.tells_ofSource] at scans
  constructor
  · intro h
    obtain ⟨rfl, rfl, rfl⟩ := h.unique scans
    exact ⟨rfl, rfl⟩
  · rintro ⟨same, rfl⟩
    have finish : (Cursor.ofSource source).finish = ⟨tokens, diagnostics⟩ := same
    rwa [finish] at scans

end Walker

end LoxLexer
