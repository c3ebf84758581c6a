import LoxLexer.Proofs.Steps

/-!
A session that hands over what it has gathered after every round, and goes on without it, says and
does what it would have said and done at once.
-/

namespace LoxLexer

open Prompt

/-- The two sinks have the same to come, and one of them has held so many bytes before. -/
structure Sink.Resumes (before : ByteArray) (whole rest : Sink) : Prop where
  written : whole.written = before ++ rest.written
  free : whole.capacity.map (· - whole.written.size) = rest.capacity.map (· - rest.written.size)
  flushFault : whole.flushFault = rest.flushFault

structure Session.Resumes (earlier : Handed) (whole rest : Session) : Prop where
  out : whole.out.Resumes earlier.out rest.out
  err : whole.err.Resumes earlier.err rest.err
  log : whole.log.toList = earlier.events ++ rest.log.toList
  colored : whole.colored = rest.colored
  report : whole.report = rest.report

def Continues (step : Session → Session × α) : Prop :=
  ∀ earlier whole rest, Session.Resumes earlier whole rest →
    Session.Resumes earlier (step whole).1 (step rest).1 ∧ (step whole).2 = (step rest).2

namespace Handed

theorem append_assoc (a b c : Handed) : (a.append b).append c = a.append (b.append c) := by
  simp [append, ByteArray.append_assoc]

theorem append_empty (a : Handed) : a.append ⟨.empty, [], .empty⟩ = a := by
  simp [append]

end Handed

def Session.goOn (s : Session) : List Read → Session × Except IoFault Unit
  | [] => (s, .ok ())
  | read :: reads =>
    match s.round read with
    | (s, some result) => (s, result)
    | (s, none) => s.goOn reads

variable {α β : Type} {earlier : Handed} {before : ByteArray} {whole rest : Session} {sink : Sink}

namespace Sink

theorem room_eq (sink : Sink) (size : Nat) :
    sink.room size = (sink.capacity.map (· - sink.written.size)).elim size (min size) := by
  rw [room]
  cases sink.capacity <;> rfl

theorem resumes_emptied (sink : Sink) : sink.Resumes sink.written sink.emptied where
  written := ByteArray.append_empty.symm
  free := by
    rw [emptied]
    cases sink.capacity <;> rfl
  flushFault := rfl

theorem Resumes.trans {more : ByteArray} {whole middle rest : Sink}
    (h : whole.Resumes before middle) (h' : middle.Resumes more rest) :
    whole.Resumes (before ++ more) rest where
  written := by rw [h.written, h'.written, ByteArray.append_assoc]
  free := h.free.trans h'.free
  flushFault := h.flushFault.trans h'.flushFault

theorem Resumes.write {whole rest : Sink} (h : whole.Resumes before rest) (text : String) :
    (whole.write text).1.Resumes before (rest.write text).1 ∧
      (whole.write text).2 = (rest.write text).2 := by
  have room : whole.room text.toUTF8.size = rest.room text.toUTF8.size := by
    rw [room_eq, room_eq, h.free]
  have free : (whole.write text).1.capacity.map (· - (whole.write text).1.written.size) =
      (rest.write text).1.capacity.map (· - (rest.write text).1.written.size) := by
    have size (sink : Sink) : (sink.write text).1.written.size =
        sink.written.size + min (sink.room text.toUTF8.size) text.toUTF8.size := by
      simp [Sink.write]
    have minus (sink : Sink) : sink.capacity.map (· - (sink.write text).1.written.size) =
        (sink.capacity.map (· - sink.written.size)).map
          (· - min (sink.room text.toUTF8.size) text.toUTF8.size) := by
      rw [size, Option.map_map]
      congr 1
      funext n
      exact Nat.sub_add_eq ..
    rw [capacity_write, capacity_write, minus, minus, h.free, room]
  refine ⟨⟨?_, free, h.flushFault⟩, ?_⟩
  · simp only [Sink.write, room, h.written, ByteArray.append_assoc]
  · simp only [Sink.write, room]

end Sink

namespace Continues

theorem andThen {step : Session → Session × Except IoFault α}
    {go : Session → α → Session × Except IoFault β} (first : Continues step)
    (later : ∀ x, Continues fun s => go s x) :
    Continues fun s => Session.andThen (step s) go := by
  intro earlier whole rest h
  obtain ⟨resumes, same⟩ := first earlier whole rest h
  dsimp only
  generalize step whole = w, step rest = r at resumes same
  obtain ⟨w, result⟩ := w
  obtain ⟨r, _⟩ := r
  cases same
  cases result with
  | ok x => exact later x earlier w r resumes
  | error fault => exact ⟨resumes, rfl⟩

theorem answer (value : α) : Continues fun s => (s, value) := fun _ _ _ h => ⟨h, rfl⟩

theorem tell (event : Event) (value : α) : Continues fun s => (s.tell event, value) := by
  intro earlier whole rest h
  refine ⟨⟨h.out, h.err, ?_, h.colored, h.report⟩, rfl⟩
  simp [Session.tell, h.log]

theorem print (text : String) : Continues fun s => s.print text := by
  intro earlier whole rest h
  obtain ⟨out, same⟩ := h.out.write text
  exact ⟨⟨out, h.err, h.log, h.colored, h.report⟩, same⟩

theorem complain (text : Bool → String) : Continues fun s => s.complain (text s.colored) := by
  intro earlier whole rest h
  obtain ⟨err, same⟩ := h.err.write (text rest.colored)
  simp only [h.colored]
  exact ⟨⟨h.out, err, h.log, h.colored, h.report⟩, same⟩

theorem record (source : Text) (value : α) : Continues fun s => (s.record source, value) := by
  intro earlier whole rest h
  refine ⟨⟨h.out, h.err, ?_, h.colored, ?_⟩, rfl⟩
  · simp [Session.record, h.log]
  · simp [Session.record, h.report]

theorem clear (value : α) : Continues fun s => ({ s with report := {} }, value) :=
  fun _ _ _ h => ⟨⟨h.out, h.err, h.log, h.colored, rfl⟩, rfl⟩

theorem run (source : Text) : Continues fun s => s.run source := by
  simp only [Session.run_eq_andThen]
  exact ((record source (.ok ())).andThen fun _ => print _).andThen fun _ =>
    complain fun colored =>
      String.join ((scan source).diagnostics.map (Diagnostic.shown colored))

theorem invite : Continues Session.invite := by
  simp only [funext Session.invite_eq_andThen]
  refine (print sign).andThen fun _ => ?_
  intro earlier whole rest h
  refine ⟨h, ?_⟩
  simp only [Sink.flush, h.out.flushFault]

theorem hear (read : Read) : Continues fun s => s.hear read := by
  cases read with
  | failed fault => exact answer _
  | line line =>
    cases blank : (command line).isEmpty with
    | true =>
      simp only [Session.hear_blank _ blank]
      exact answer _
    | false =>
      cases exit : isExit (command line) with
      | true =>
        simp only [Session.hear_exit _ exit]
        exact tell .exiting _
      | false =>
        simp only [Session.hear_words _ blank exit]
        exact ((clear (.ok ())).andThen fun _ => run (command line)).andThen fun _ => answer _

theorem round (read : Read) : Continues fun s => s.round read := by
  intro earlier whole rest h
  obtain ⟨resumes, same⟩ := hear read earlier whole rest h
  simp only [Session.round]
  dsimp only at resumes same
  generalize whole.hear read = w, rest.hear read = r at resumes same
  obtain ⟨w, result⟩ := w
  obtain ⟨r, _⟩ := r
  cases same
  cases result with
  | error fault => exact ⟨resumes, rfl⟩
  | ok goesOn =>
    cases goesOn with
    | false => exact ⟨resumes, rfl⟩
    | true =>
      obtain ⟨resumes, same⟩ := invite earlier w r resumes
      dsimp only
      generalize w.invite = w, r.invite = r at resumes same
      obtain ⟨w, result⟩ := w
      obtain ⟨r, _⟩ := r
      cases same
      cases result with
      | error fault => exact ⟨resumes, rfl⟩
      | ok _ => exact ⟨resumes, rfl⟩

end Continues

namespace Session

theorem resumes_emptied (s : Session) : s.Resumes s.handed s.emptied where
  out := s.out.resumes_emptied
  err := s.err.resumes_emptied
  log := by simp [handed, emptied]
  colored := rfl
  report := rfl

namespace Resumes

theorem handed_eq (h : whole.Resumes earlier rest) : whole.handed = earlier.append rest.handed := by
  simp [handed, Handed.append, h.out.written, h.err.written, h.log]

theorem handOver (h : whole.Resumes earlier rest) :
    whole.Resumes (earlier.append rest.handed) rest.emptied where
  out := h.out.trans rest.out.resumes_emptied
  err := h.err.trans rest.err.resumes_emptied
  log := by simp [h.log, Handed.append, handed, emptied]
  colored := h.colored
  report := h.report

theorem goOn_eq (h : whole.Resumes earlier rest.emptied) (reads : List Read) :
    (whole.goOn reads).1.handed = earlier.append (.join (rest.emptied.rounds reads).1) ∧
      (whole.goOn reads).2 = (rest.emptied.rounds reads).2 := by
  induction reads generalizing whole rest earlier with
  | nil => exact ⟨h.handed_eq, rfl⟩
  | cons read reads ih =>
    obtain ⟨resumes, same⟩ := Continues.round read earlier _ _ h
    rw [goOn, rounds]
    dsimp only at resumes same
    generalize whole.round read = w, rest.emptied.round read = r at resumes same
    obtain ⟨w, ended?⟩ := w
    obtain ⟨r, _⟩ := r
    cases same
    cases ended? with
    | some result =>
      have last : Handed.join [r.handed] = r.handed := Handed.append_empty _
      exact ⟨last.symm ▸ resumes.handed_eq, rfl⟩
    -- What is handed over joins what was before, and the rest begins empty again.
    | none =>
      obtain ⟨handed, result⟩ := ih resumes.handOver
      exact ⟨handed.trans (Handed.append_assoc ..), result⟩

end Resumes

theorem converse_eq_goOn (s : Session) (reads : List Read) :
    s.converse reads = andThen s.invite fun s _ => s.goOn reads := by
  induction reads generalizing s with
  | nil =>
    rw [converse]
    obtain ⟨invited, result⟩ := s.invite
    cases result <;> rfl
  | cons read reads ih =>
    rw [converse_cons]
    congr 1
    funext invited _
    rw [goOn, round]
    obtain ⟨heard, result⟩ := invited.hear read
    cases result with
    | error fault => rfl
    | ok goesOn =>
      cases goesOn with
      | false => rfl
      | true =>
        rw [andThen, if_pos rfl, ih]
        dsimp only
        obtain ⟨again, result⟩ := heard.invite
        cases result <;> rfl

/-- To hand over round by round comes to the same as to keep everything to the end. -/
theorem converse_eq_converseInRounds (s : Session) (reads : List Read) :
    (s.converse reads).1.handed = .join (s.converseInRounds reads).1 ∧
      (s.converse reads).2 = (s.converseInRounds reads).2 := by
  rw [converse_eq_goOn, converseInRounds]
  obtain ⟨invited, result⟩ := s.invite
  cases result with
  | error fault => exact ⟨(Handed.append_empty _).symm, rfl⟩
  | ok _ => exact invited.resumes_emptied.goOn_eq reads

end Session

end LoxLexer
