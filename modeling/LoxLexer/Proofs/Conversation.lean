import LoxLexer.Proofs.Progress
import LoxLexer.Session.Prompt

namespace LoxLexer

open Prompt

def Sink.put (s : Sink) (text : String) : Sink := { s with written := s.written ++ text.toUTF8 }

def Scan.words (s : Scan) : List Text := (s.tokens.filter (·.kind ≠ .eof)).map Token.render

def Scan.listing (s : Scan) : String :=
  String.ofList (s.words.flatMap (· ++ ['\n']) ++ ['E', 'O', 'F', ' ', ' ', '\n'])

def Prompt.turn (line : Text) : String :=
  sign ++ if (command line).isEmpty then "" else (scan (command line)).listing

namespace Session

def reported (s : Session) : List Diagnostic := s.log.toList.filterMap Event.diagnostic?

structure Unfailing (s : Session) : Prop where
  out : s.out.capacity = none
  err : s.err.capacity = none
  flush : s.out.flushFault = none

/-- What a step has written and reported, in a session that never fails before it or after it. -/
structure Told (before after : Session) (text : String) (found : List Diagnostic) : Prop where
  out : after.out.written = before.out.written ++ text.toUTF8
  err : after.err.written =
    before.err.written ++ (String.join (found.map (Diagnostic.shown before.colored))).toUTF8
  reported : after.reported = before.reported ++ found
  colored : after.colored = before.colored
  unfailing : after.Unfailing

def ran (s : Session) (source : Text) : Session :=
  { s.record source with
    out := s.out.put (scan source).listing
    err := s.err.put (String.join ((scan source).diagnostics.map (Diagnostic.shown s.colored))) }

def invited (s : Session) : Session := { s with out := s.out.put sign }

def answered (s : Session) (line : Text) : Session :=
  if (command line).isEmpty then s.invited
  else ran { s.invited with report := {} } (command line)

end Session

variable {s before middle after : Session} {lines : List Text}

theorem listing_endOfInput (line : Nat) :
    Token.listing [.endOfInput line] = ['E', 'O', 'F', ' ', ' ', '\n'] := by
  simp [Token.listing, Token.endOfInput, Token.plain, Token.render, Kind.name]

theorem listing_scan (source : Text) :
    String.ofList (Token.listing (scan source).tokens) = (scan source).listing := by
  rw [Scan.listing, Scan.words, filter_tokens_scan, tokens_scan, Token.listing_append,
    listing_endOfInput, List.flatMap_map]
  rfl

theorem Sink.write_of_unlimited {s : Sink} (h : s.capacity = none) (text : String) :
    s.write text = (s.put text, .ok ()) := by
  rw [write]
  simp only [room_of_unlimited h, ByteArray.extract_zero_size, if_true]
  rfl

theorem toUTF8_append (s t : String) : (s ++ t).toUTF8 = s.toUTF8 ++ t.toUTF8 := by
  simp only [String.toUTF8_eq_toByteArray, String.toByteArray_append]

namespace Session

theorem Told.trans {text text' : String} {found found' : List Diagnostic}
    (h : Told before middle text found) (h' : Told middle after text' found') :
    Told before after (text ++ text') (found ++ found') where
  out := by rw [h'.out, h.out, toUTF8_append, ByteArray.append_assoc]
  err := by
    rw [h'.err, h.err, h.colored, List.map_append, String.join_append, toUTF8_append,
      ByteArray.append_assoc]
  reported := by rw [h'.reported, h.reported, List.append_assoc]
  colored := h'.colored.trans h.colored
  unfailing := h'.unfailing

theorem Unfailing.told_nothing {s : Session} (h : s.Unfailing) : Told s s "" [] where
  out := by simp
  err := by simp
  reported := (List.append_nil _).symm
  colored := rfl
  unfailing := h

theorem Unfailing.told_invited {s : Session} (h : s.Unfailing) : Told s s.invited sign [] where
  out := rfl
  err := by simp [invited]
  reported := (List.append_nil _).symm
  colored := rfl
  unfailing := ⟨h.out, h.err, h.flush⟩

theorem Unfailing.told_tell {s : Session} (h : s.Unfailing) {event : Event}
    (quiet : event.diagnostic? = none) : Told s (s.tell event) "" [] where
  out := by simp [tell]
  err := by simp [tell]
  reported := by simp [reported, tell, quiet]
  colored := rfl
  unfailing := ⟨h.out, h.err, h.flush⟩

theorem Unfailing.told_ran {s : Session} (h : s.Unfailing) (source : Text) :
    Told s (s.ran source) (scan source).listing (scan source).diagnostics where
  out := rfl
  err := rfl
  reported := by
    rw [reported, ran, record, Array.toList_append, List.filterMap_append,
      filterMap_diagnostic?_scanEvents]
    rfl
  colored := rfl
  unfailing := ⟨h.out, h.err, h.flush⟩

theorem Unfailing.told_answered {s : Session} (h : s.Unfailing) (line : Text) :
    Told s (s.answered line) (turn line) (scan (command line)).diagnostics := by
  have invited := h.told_invited
  rw [answered, turn]
  split
  next blank =>
    rw [String.append_empty, List.isEmpty_iff.1 blank]
    exact invited
  next =>
    have cleared : Told s { s.invited with report := {} } sign [] :=
      ⟨invited.out, invited.err, invited.reported, invited.colored, h.out, h.err, h.flush⟩
    exact cleared.trans (cleared.unfailing.told_ran (command line))

theorem Unfailing.told_lines {s : Session} (h : s.Unfailing) (lines : List Text) :
    Told s (lines.foldl answered s) (String.join (lines.map turn))
      (lines.flatMap fun line => (scan (command line)).diagnostics) := by
  induction lines generalizing s with
  | nil => exact h.told_nothing
  | cons line lines ih =>
    have first := h.told_answered line
    rw [List.map_cons, String.join_cons, List.flatMap_cons]
    exact first.trans (ih first.unfailing)

theorem Unfailing.run_eq {s : Session} (h : s.Unfailing) (source : Text) :
    s.run source = (s.ran source, .ok ()) := by
  have out : (s.record source).out.capacity = none := h.out
  have err : (s.record source).err.capacity = none := h.err
  simp only [run, print, complain, listing_scan, Sink.write_of_unlimited out,
    Sink.write_of_unlimited err]
  rfl

theorem Unfailing.invite_eq {s : Session} (h : s.Unfailing) : s.invite = (s.invited, .ok ()) := by
  have flush : (s.out.put sign).flush = .ok () := by
    rw [Sink.flush, Sink.put, h.flush]
  simp only [invite, print, Sink.write_of_unlimited h.out, flush]
  rfl

theorem Unfailing.converse_cons {s : Session} (h : s.Unfailing) {line : Text}
    (goesOn : isExit (command line) = false) (reads : List Read) :
    s.converse (.line line :: reads) = (s.answered line).converse reads := by
  have cleared : Unfailing { s.invited with report := {} } := ⟨h.out, h.err, h.flush⟩
  rw [converse, h.invite_eq]
  simp only [hear, answered]
  by_cases blank : (command line).isEmpty
  · simp only [blank, if_true]
  · simp only [blank, goesOn, cleared.run_eq]
    rfl

theorem Unfailing.converse_lines {s : Session} (h : s.Unfailing)
    (goesOn : ∀ line ∈ lines, isExit (command line) = false) (reads : List Read) :
    s.converse (lines.map .line ++ reads) = (lines.foldl answered s).converse reads := by
  induction lines generalizing s with
  | nil => rfl
  | cons line lines ih =>
    obtain ⟨first, goesOn⟩ := List.forall_mem_cons.1 goesOn
    rw [List.map_cons, List.cons_append, h.converse_cons first,
      ih (h.told_answered line).unfailing goesOn]
    rfl

end Session

end LoxLexer
