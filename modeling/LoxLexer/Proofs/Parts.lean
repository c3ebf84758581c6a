import LoxLexer.Proofs.Collecting
import LoxLexer.Proofs.Conversation
import LoxLexer.Proofs.Steps

namespace LoxLexer

def Sink.writeAll (s : Sink) : List String → Sink × Except IoFault Unit
  | [] => (s, .ok ())
  | text :: texts =>
    match s.write text with
    | (s, .error fault) => (s, .error fault)
    | (s, .ok ()) => s.writeAll texts

namespace Session

def printAll (s : Session) : List String → Session × Except IoFault Unit
  | [] => (s, .ok ())
  | text :: texts => andThen (s.print text) fun s _ => s.printAll texts

def complainAll (s : Session) : List String → Session × Except IoFault Unit
  | [] => (s, .ok ())
  | text :: texts => andThen (s.complain text) fun s _ => s.complainAll texts

/-- A run, line by line. Of the report it shows what has come since it began. -/
def runByLine (s : Session) (source : Text) : Session × Except IoFault Unit :=
  let alreadyReported := s.report.entries.size
  let (tokens, report) := (Cursor.ofSource source).scanInto s.report
  let scanned := { s with report, log := s.log ++ scanEvents source }
  andThen (scanned.printAll (tokens.map fun t => String.ofList (t.render ++ ['\n']))) fun s _ =>
    s.complainAll
      ((s.report.entries.toList.drop alreadyReported).map (Diagnostic.shown s.colored))

end Session

theorem Sink.room_put (s : Sink) {text : String} (fits : s.room text.toUTF8.size = text.toUTF8.size)
    (more : Nat) :
    s.room (text.toUTF8.size + more) = text.toUTF8.size + (s.put text).room more := by
  have size : (s.put text).written.size = s.written.size + text.toUTF8.size := ByteArray.size_append
  have capacity : (s.put text).capacity = s.capacity := rfl
  rw [room, room, size, capacity]
  rw [room] at fits
  cases h : s.capacity with
  | none => rfl
  | some c =>
    simp only [h] at fits ⊢
    omega

theorem Sink.room_of_full (s : Sink) {size : Nat} (full : s.room size ≠ size) (more : Nat) :
    s.room (size + more) = s.room size := by
  rw [room, room]
  rw [room] at full
  cases h : s.capacity with
  | none => simp [h] at full
  | some c =>
    simp only [h] at full ⊢
    omega

theorem Sink.write_append (s : Sink) (text more : String) :
    s.write (text ++ more) =
      match s.write text with
      | (s, .error fault) => (s, .error fault)
      | (s, .ok ()) => s.write more := by
  have le := s.room_le text.toUTF8.size
  simp only [write, toUTF8_append, ByteArray.size_append, ByteArray.extract_append]
  -- Either the first part fits and leaves the room it does not take, or nothing more is written.
  by_cases fits : s.room text.toUTF8.size = text.toUTF8.size
  · have put : s.written ++ text.toUTF8 = (s.put text).written := rfl
    have whole : text.toUTF8.extract 0 (text.toUTF8.size + (s.put text).room more.toUTF8.size) =
        text.toUTF8 := by
      apply ByteArray.ext
      simp
    simp only [s.room_put fits, fits, if_true, ByteArray.extract_zero_size, whole,
      Nat.add_sub_cancel_left, Nat.zero_sub, Nat.add_left_cancel_iff, ← ByteArray.append_assoc, put]
    rfl
  · have full := s.room_of_full fits more.toUTF8.size
    have fails : s.room text.toUTF8.size ≠ text.toUTF8.size + more.toUTF8.size := by omega
    have nothing : s.room text.toUTF8.size - text.toUTF8.size = 0 := by omega
    simp only [full, fits, fails, if_false, nothing, Nat.zero_sub, ByteArray.extract_same,
      ByteArray.append_empty]

theorem Sink.write_join (s : Sink) (texts : List String) :
    s.write (String.join texts) = s.writeAll texts := by
  induction texts generalizing s with
  | nil =>
    have nothing : s.room 0 = 0 := Nat.le_zero.1 (s.room_le 0)
    have empty : (String.join []).toUTF8 = .empty := rfl
    simp only [write, empty, ByteArray.size_empty, nothing, ByteArray.extract_same,
      ByteArray.append_empty, if_true]
    rfl
  | cons text texts ih =>
    rw [String.join_cons, write_append, writeAll]
    simp only [ih]

theorem Sink.write_listing (s : Sink) (tokens : List Token) :
    s.write (String.ofList (Token.listing tokens)) =
      s.writeAll (tokens.map fun t => String.ofList (t.render ++ ['\n'])) := by
  have lines : Token.listing tokens =
      (String.join (tokens.map fun t => String.ofList (t.render ++ ['\n']))).toList := by
    rw [String.toList_join, List.flatMap_map, Token.listing]
    simp only [String.toList_ofList]
  rw [← write_join, lines, String.ofList_toList]

namespace Session

variable (s : Session) (texts : List String)

theorem printAll_eq : s.printAll texts =
    ({ s with out := (s.out.writeAll texts).1 }, (s.out.writeAll texts).2) := by
  induction texts generalizing s with
  | nil => rfl
  | cons text texts ih =>
    rw [printAll, print, Sink.writeAll]
    obtain ⟨out, result⟩ := s.out.write text
    cases result with
    | error fault => rfl
    | ok _ => exact ih _

theorem complain_join : s.complain (String.join texts) = s.complainAll texts := by
  have whole : s.complainAll texts =
      ({ s with err := (s.err.writeAll texts).1 }, (s.err.writeAll texts).2) := by
    induction texts generalizing s with
    | nil => rfl
    | cons text texts ih =>
      rw [complainAll, complain, Sink.writeAll]
      obtain ⟨err, result⟩ := s.err.write text
      cases result with
      | error fault => rfl
      | ok _ => exact ih _
  rw [whole, complain, Sink.write_join]

theorem drop_entries_addAll (r : Report) (ds : List Diagnostic) :
    (r.addAll ds).entries.toList.drop r.entries.size = ds := by
  rw [Report.toList_entries_addAll, ← Array.length_toList, List.drop_left]

theorem run_eq_runByLine (source : Text) : s.run source = s.runByLine source := by
  have found : (Cursor.ofSource source).scanInto s.report =
      ((scan source).tokens, s.report.addAll (scan source).diagnostics) := Cursor.scanInto_eq _ _
  rw [run_eq_andThen, runByLine, found, print, Sink.write_listing]
  dsimp only
  rw [printAll_eq, record]
  dsimp only
  cases (s.out.writeAll _).2 with
  | error fault => rfl
  | ok _ =>
    simp only [andThen, complain_join, drop_entries_addAll]

end Session

end LoxLexer
