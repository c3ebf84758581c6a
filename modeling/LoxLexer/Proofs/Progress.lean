import Mathlib.Data.List.Basic
import LoxLexer.Proofs.Concat

namespace LoxLexer

namespace Event

def diagnostic? : Event → Option Diagnostic
  | .reported d => some d
  | _ => none

def finds : Event → Bool
  | .scanned _ | .reported _ => true
  | _ => false

def isAlarm : Event → Bool
  | .ranOut _ => true
  | _ => false

end Event

def Piece.events (p : Piece) : List Event :=
  p.warnings.map .reported ++ (p.item?.map Cursor.itemEvent).toList

/-- What has been told behind some of the pieces, and the warnings that are still to be told. -/
structure Progress where
  told : List Event
  pending : List Diagnostic

namespace Progress

def events (s : Progress) : List Event := s.told ++ s.pending.map .reported

def tell (s : Progress) (p : Piece) : Progress :=
  match p.item? with
  | some item =>
    ⟨s.told ++ Cursor.alarm p ++ (s.pending ++ p.warnings).map .reported ++
      [Cursor.itemEvent item], []⟩
  | none => ⟨s.told, s.pending ++ p.warnings⟩

end Progress

def toldBy (source : Text) : List Event := ((pieces 1 source).foldl Progress.tell ⟨[], []⟩).events

namespace Progress

theorem events_foldl_tell (told : Array Event) (pending : Array Diagnostic) (ps : List Piece) :
    (ps.foldl tell ⟨told.toList, pending.toList⟩).events =
      (Cursor.eventsOnto told pending ps).toList := by
  induction ps generalizing told pending with
  | nil => simp [Cursor.eventsOnto, events]
  | cons p ps ih =>
    rw [Cursor.eventsOnto, List.foldl_cons, tell]
    cases p.item? with
    | none =>
      rw [← ih]
      simp
    | some item =>
      rw [← ih]
      simp

theorem filter_finds_tell (s : Progress) (p : Piece) :
    (s.tell p).events.filter Event.finds = s.events.filter Event.finds ++ p.events := by
  have alarm : (Cursor.alarm p).filter Event.finds = [] := by
    rw [Cursor.alarm]
    split <;> rfl
  have item (item : Item) : (Cursor.itemEvent item).finds := by cases item <;> rfl
  have reports (ds : List Diagnostic) :
      (ds.map Event.reported).filter Event.finds = ds.map .reported := by
    apply List.filter_eq_self.2
    simp [Event.finds]
  rw [tell, Piece.events]
  cases p.item? with
  | none => simp [events, reports]
  | some found => simp [events, reports, alarm, item]

theorem filter_finds_foldl_tell (s : Progress) (ps : List Piece) :
    (ps.foldl tell s).events.filter Event.finds =
      s.events.filter Event.finds ++ ps.flatMap Piece.events := by
  induction ps generalizing s with
  | nil => simp
  | cons p ps ih =>
    rw [List.foldl_cons, ih, filter_finds_tell, List.flatMap_cons, List.append_assoc]

theorem tells_tell (s : Progress) (h : ∀ e ∈ s.events, e.finds ∨ e.isAlarm) (p : Piece) :
    ∀ e ∈ (s.tell p).events, e.finds ∨ e.isAlarm := by
  have alarm : ∀ e ∈ Cursor.alarm p, e.finds ∨ e.isAlarm := by
    rw [Cursor.alarm]
    split <;> simp [Event.isAlarm]
  have reports (ds : List Diagnostic) : ∀ e ∈ ds.map Event.reported, e.finds ∨ e.isAlarm := by
    simp [Event.finds]
  have told := (List.forall_mem_append.1 h).1
  rw [tell]
  cases p.item? with
  | none => exact List.forall_mem_append.2 ⟨told, reports _⟩
  | some item =>
    have last : ∀ e ∈ [Cursor.itemEvent item], e.finds ∨ e.isAlarm := by
      cases item <;> simp [Cursor.itemEvent, Event.finds]
    simp only [events, List.forall_mem_append]
    exact ⟨⟨⟨⟨told, alarm⟩, reports _⟩, last⟩, reports []⟩

theorem tells_foldl_tell (s : Progress) (h : ∀ e ∈ s.events, e.finds ∨ e.isAlarm)
    (ps : List Piece) : ∀ e ∈ (ps.foldl tell s).events, e.finds ∨ e.isAlarm := by
  induction ps generalizing s with
  | nil => exact h
  | cons p ps ih => exact ih (s.tell p) (s.tells_tell h p)

end Progress

theorem toList_scanEvents (source : Text) : (scanEvents source).toList =
    toldBy source ++ [.finished (scan source).tokens.length (1 + source.lineFeeds)] := by
  rw [scanEvents, Cursor.events, Array.toList_push, toldBy, ← Progress.events_foldl_tell]
  rfl

theorem filter_finds_scanEvents (source : Text) :
    (scanEvents source).toList.filter Event.finds = (pieces 1 source).flatMap Piece.events := by
  rw [toList_scanEvents, List.filter_append, toldBy, Progress.filter_finds_foldl_tell]
  exact List.append_nil _

theorem filter_text_eq (events : List Event) (text : String)
    (h : ∀ e : Event, e.text = text → e.finds) :
    events.filter (·.text = text) = (events.filter Event.finds).filter (·.text = text) := by
  rw [List.filter_filter]
  apply List.filter_congr
  intro e _
  by_cases same : e.text = text <;> simp [same, h]

theorem Piece.filter_token_events (p : Piece) :
    p.events.filter (·.text = "token") = p.token?.toList.map .scanned := by
  have warnings : (p.warnings.map Event.reported).filter (·.text = "token") = [] := by
    apply List.filter_eq_nil_iff.2
    simp [Event.text]
  rw [events, List.filter_append, warnings]
  obtain ⟨shape, text, line⟩ := p
  cases shape <;> simp [item?, token?, fault?, cause?, Cursor.itemEvent, Event.text]

theorem Piece.filter_diagnostic_events (p : Piece) :
    p.events.filter (·.text = "diagnostic reported") = p.diagnostics.map .reported := by
  have warnings : (p.warnings.map Event.reported).filter (·.text = "diagnostic reported") =
      p.warnings.map .reported := by
    apply List.filter_eq_self.2
    simp [Event.text]
  rw [events, List.filter_append, warnings, diagnostics, List.map_append]
  congr 1
  obtain ⟨shape, text, line⟩ := p
  cases shape <;> simp [item?, token?, fault?, cause?, Cursor.itemEvent, Event.text]

theorem filter_token_scanEvents (source : Text) :
    (scanEvents source).toList.filter (·.text = "token") =
      ((scan source).tokens.filter (·.kind ≠ .eof)).map .scanned := by
  have finds : ∀ e : Event, e.text = "token" → e.finds := by
    intro e
    cases e <;> simp [Event.text, Event.finds]
  rw [filter_text_eq _ _ finds, filter_finds_scanEvents, List.filter_flatMap, filter_tokens_scan,
    List.filterMap_eq_flatMap_toList, List.map_flatMap]
  congr 1
  funext p
  exact p.filter_token_events

theorem filter_diagnostic_scanEvents (source : Text) :
    (scanEvents source).toList.filter (·.text = "diagnostic reported") =
      (scan source).diagnostics.map .reported := by
  have finds : ∀ e : Event, e.text = "diagnostic reported" → e.finds := by
    intro e
    cases e <;> simp [Event.text, Event.finds]
  rw [filter_text_eq _ _ finds, filter_finds_scanEvents, List.filter_flatMap, diagnostics_scan,
    List.map_flatMap]
  congr 1
  funext p
  exact p.filter_diagnostic_events

theorem filterMap_diagnostic?_scanEvents (source : Text) :
    (scanEvents source).toList.filterMap Event.diagnostic? = (scan source).diagnostics := by
  have told : (scanEvents source).toList.filterMap Event.diagnostic? =
      ((scanEvents source).toList.filter (·.text = "diagnostic reported")).filterMap
        Event.diagnostic? := by
    rw [List.filterMap_filter]
    apply List.filterMap_congr
    intro e _
    cases e <;> rfl
  rw [told, filter_diagnostic_scanEvents, List.filterMap_map]
  exact List.filterMap_some

end LoxLexer
