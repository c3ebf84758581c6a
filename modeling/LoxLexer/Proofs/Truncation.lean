import LoxLexer.Proofs.Conversation
import LoxLexer.Proofs.Steps

/-!
A sink that is full cuts a step short, and does nothing else to it: what was written until then is
what would have been written, and the step ends there.
-/

namespace LoxLexer

open Prompt

def Sink.limit (s : Sink) (size : Nat) : Sink := { s with capacity := some size }

def Sink.unlimited (s : Sink) : Sink := { s with capacity := none }

namespace Session

def limit (s : Session) (a e : Nat) : Session :=
  { s with out := s.out.limit a, err := s.err.limit e }

def withRoom (s : Session) (a e : Nat) : Session :=
  s.limit (s.out.written.size + a) (s.err.written.size + e)

def unlimited (s : Session) : Session :=
  { s with out := s.out.unlimited, err := s.err.unlimited }

structure Wrote (before after : Session) (out err : ByteArray) : Prop where
  out : after.out.written = before.out.written ++ out
  err : after.err.written = before.err.written ++ err

structure Fits (s : Session) (a e : Nat) : Prop where
  out : s.out.capacity = none
  err : s.err.capacity = none
  size_out : s.out.written.size ≤ a
  size_err : s.err.written.size ≤ e

end Session

open Session

/-- How a step ends with unlimited sinks, and how with sinks of `a` and `e` bytes. -/
inductive Truncated (a e : Nat) : Session × Except IoFault α → Session × Except IoFault α → Prop
  | fits : whole.Fits a e → Truncated a e (whole, result) (whole.limit a e, result)
  | full : cut.Wrote whole more moreErr →
      a < whole.out.written.size ∨ e < whole.err.written.size →
      cut.out.written.size = a ∨ cut.err.written.size = e →
      Truncated a e (whole, result) (cut, .error .sinkFull)

structure Truncates (a e : Nat) (step : Session → Session × Except IoFault α) : Prop where
  truncated : ∀ s : Session, s.Fits a e → Truncated a e (step s) (step (s.limit a e))
  grows : ∀ s : Session, ∃ out err, s.Wrote (step s).1 out err

/-- What a step comes to with room for `a` and `e` more bytes, if it wrote `out` and `err` with room
for all. -/
structure CutShort (before : Session) (a e : Nat) (whole cut : Session × Except IoFault α)
    (out err : ByteArray) : Prop where
  room : out.size ≤ a → err.size ≤ e → before.Wrote cut.1 out err ∧ cut.2 = whole.2
  full : a < out.size ∨ e < err.size → cut.2 = .error .sinkFull ∧
    ∃ outCut errCut, before.Wrote cut.1 outCut errCut ∧
      (∃ more, out = outCut ++ more) ∧ (∃ more, err = errCut ++ more) ∧
      (outCut.size = a ∨ errCut.size = e)

variable {a e : Nat} {α β : Type}

theorem Session.Wrote.trans {before middle after : Session} {out err out' err' : ByteArray}
    (h : before.Wrote middle out err) (h' : middle.Wrote after out' err') :
    before.Wrote after (out ++ out') (err ++ err') where
  out := by rw [h'.out, h.out, ByteArray.append_assoc]
  err := by rw [h'.err, h.err, ByteArray.append_assoc]

theorem Session.Wrote.of_eq {before after : Session} (out : after.out = before.out)
    (err : after.err = before.err) : before.Wrote after .empty .empty where
  out := by rw [out, ByteArray.append_empty]
  err := by rw [err, ByteArray.append_empty]

theorem Session.Wrote.le {before after : Session} {out err : ByteArray}
    (h : before.Wrote after out err) : before.out.written.size ≤ after.out.written.size ∧
      before.err.written.size ≤ after.err.written.size := by
  rw [h.out, h.err, ByteArray.size_append, ByteArray.size_append]
  exact ⟨Nat.le_add_right .., Nat.le_add_right ..⟩

namespace Truncates

theorem andThen {step : Session → Session × Except IoFault α}
    {go : Session → α → Session × Except IoFault β} (first : Truncates a e step)
    (later : ∀ x, Truncates a e fun s => go s x) :
    Truncates a e fun s => Session.andThen (step s) go where
  truncated := by
    intro s fits
    have ends := first.truncated s fits
    generalize step s = whole, step (s.limit a e) = cut at ends
    obtain ⟨whole, result⟩ := whole
    cases ends with
    | fits fits =>
      cases result with
      | ok x => exact (later x).truncated whole fits
      | error fault => exact .fits fits
    -- The one with full sinks has stopped, and all that the other goes on to write is cut off too.
    | full wrote beyond full =>
      cases result with
      | ok x =>
        obtain ⟨_, _, more⟩ := (later x).grows whole
        refine .full (wrote.trans more) ?_ full
        exact beyond.imp (Nat.lt_of_lt_of_le · more.le.1) (Nat.lt_of_lt_of_le · more.le.2)
      | error fault => exact .full wrote beyond full
  grows := by
    intro s
    obtain ⟨out, err, wrote⟩ := first.grows s
    generalize step s = after at wrote
    obtain ⟨after, result⟩ := after
    cases result with
    | error fault => exact ⟨out, err, wrote⟩
    | ok x =>
      obtain ⟨out', err', more⟩ := (later x).grows after
      exact ⟨_, _, wrote.trans more⟩

theorem of_quiet (go : Session → Session) (result : Session → Except IoFault α)
    (out : ∀ s, (go s).out = s.out := by exact fun _ => rfl)
    (err : ∀ s, (go s).err = s.err := by exact fun _ => rfl)
    (limit : ∀ s, go (s.limit a e) = (go s).limit a e := by exact fun _ => rfl)
    (same : ∀ s, result (s.limit a e) = result s := by exact fun _ => rfl) :
    Truncates a e fun s => (go s, result s) where
  truncated := by
    intro s fits
    simp only [limit, same]
    exact .fits ⟨(out s).symm ▸ fits.out, (err s).symm ▸ fits.err, (out s).symm ▸ fits.size_out,
      (err s).symm ▸ fits.size_err⟩
  grows := fun s => ⟨_, _, .of_eq (out s) (err s)⟩

end Truncates

variable {s : Session}

theorem Sink.write_limit {sink : Sink} (fits : sink.written.size ≤ a) (text : String) :
    (sink.put text).written.size ≤ a ∧
      (sink.limit a).write text = ((sink.put text).limit a, .ok ()) ∨
    a < (sink.put text).written.size ∧ ∃ cut more,
      (sink.limit a).write text = (cut, .error .sinkFull) ∧
      (sink.put text).written = cut.written ++ more ∧ cut.written.size = a := by
  have size : (sink.put text).written.size = sink.written.size + text.toUTF8.size :=
    ByteArray.size_append
  have kept : (sink.limit a).room text.toUTF8.size =
      min text.toUTF8.size (a - sink.written.size) := rfl
  rw [size, write]
  rcases Nat.lt_or_ge a (sink.written.size + text.toUTF8.size) with full | room
  · rw [Nat.min_eq_right (by omega)] at kept
    simp only [kept]
    refine .inr ⟨full, _, text.toUTF8.extract (a - sink.written.size) text.toUTF8.size,
      Prod.ext rfl (if_neg (by omega)), ?_, ?_⟩
    · rw [ByteArray.append_assoc, ByteArray.extract_append_extract, Nat.zero_min,
        Nat.max_eq_right (by omega), ByteArray.extract_zero_size]
      rfl
    · rw [ByteArray.size_append, ByteArray.size_extract]
      simp only [limit]
      omega
  · rw [Nat.min_eq_left (by omega)] at kept
    simp only [kept, ByteArray.extract_zero_size]
    exact .inl ⟨room, by simp only [if_true]; rfl⟩

theorem truncates_print (text : String) : Truncates a e fun s => s.print text where
  truncated := by
    intro s fits
    have whole : s.print text = ({ s with out := s.out.put text }, .ok ()) := by
      rw [print, Sink.write_of_unlimited fits.out]
    rw [whole, print]
    rcases Sink.write_limit fits.size_out text with
      ⟨room, write⟩ | ⟨beyond, cut, more, write, split, full⟩
    · simp only [limit, write]
      exact .fits ⟨fits.out, fits.err, room, fits.size_err⟩
    · simp only [limit, write]
      exact .full ⟨split, ByteArray.append_empty.symm⟩ (.inl beyond) (.inl full)
  grows := fun s => ⟨_, _, rfl, ByteArray.append_empty.symm⟩

theorem truncates_complain (text : Bool → String) :
    Truncates a e fun s => s.complain (text s.colored) where
  truncated := by
    intro s fits
    have whole : s.complain (text s.colored) =
        ({ s with err := s.err.put (text s.colored) }, .ok ()) := by
      rw [complain, Sink.write_of_unlimited fits.err]
    rw [whole, complain]
    rcases Sink.write_limit fits.size_err (text s.colored) with
      ⟨room, write⟩ | ⟨beyond, cut, more, write, split, full⟩
    · simp only [limit, write]
      exact .fits ⟨fits.out, fits.err, fits.size_out, room⟩
    · simp only [limit, write]
      exact .full ⟨ByteArray.append_empty.symm, split⟩ (.inr beyond) (.inr full)
  grows := fun s => ⟨_, _, ByteArray.append_empty.symm, rfl⟩

theorem truncates_run (source : Text) : Truncates a e fun s => s.run source := by
  have recorded : Truncates a e fun s : Session => (s.record source, .ok ()) :=
    .of_quiet _ _
  simp only [run_eq_andThen]
  exact (recorded.andThen fun _ => truncates_print _).andThen fun _ =>
    truncates_complain fun colored =>
      String.join ((scan source).diagnostics.map (Diagnostic.shown colored))

theorem truncates_runFile (path : String) (contents : Except IoFault ByteArray) :
    Truncates a e fun s => s.runFile path contents := by
  cases h : contents >>= decodeText with
  | error fault =>
    simp only [runFile_of_error _ path h]
    exact .of_quiet _ _
  | ok source =>
    have opened : Truncates a e fun s : Session => (s.tell (.opening path), .ok ()) :=
      .of_quiet _ _
    simp only [runFile_of_ok _ path h]
    exact (opened.andThen fun _ => truncates_run source).andThen fun _ =>
      .of_quiet _ _

theorem truncates_invite : Truncates a e invite := by
  have flush : Truncates a e fun s : Session => (s, s.out.flush) :=
    .of_quiet _ _
  simp only [funext invite_eq_andThen]
  exact (truncates_print sign).andThen fun _ => flush

theorem truncates_hear (read : Read) : Truncates a e fun s => s.hear read := by
  cases read with
  | failed fault => exact .of_quiet _ _
  | line line =>
    cases blank : (command line).isEmpty with
    | true =>
      simp only [hear_blank _ blank]
      exact .of_quiet _ _
    | false =>
      cases exit : isExit (command line) with
      | true =>
        simp only [hear_exit _ exit]
        exact .of_quiet _ _
      | false =>
        have cleared : Truncates a e fun s : Session => ({ s with report := {} }, .ok ()) :=
          .of_quiet _ _
        simp only [hear_words _ blank exit]
        exact (cleared.andThen fun _ => truncates_run (command line)).andThen fun _ =>
          .of_quiet _ _

theorem truncates_converse (reads : List Read) : Truncates a e fun s => s.converse reads := by
  induction reads with
  | nil => exact truncates_invite
  | cons read reads ih =>
    simp only [converse_cons]
    refine truncates_invite.andThen fun _ => (truncates_hear read).andThen fun goesOn => ?_
    cases goesOn with
    | true => exact ih
    | false => exact .of_quiet _ _

theorem truncates_perform (step : Step) : Truncates a e fun s => s.perform step := by
  have answer (value : Option Bool) : Truncates a e fun s : Session => (s, .ok value) :=
    .of_quiet _ _
  cases step with
  | run source => exact (truncates_run source).andThen fun _ => answer _
  | file path contents => exact (truncates_runFile path contents).andThen fun _ => answer _
  | prompt input => exact (truncates_converse input.reads).andThen fun _ => answer _

structure OutFirst (a : Nat) (before whole cut : Session) : Prop where
  err : a < whole.out.written.size → cut.err.written = before.err.written
  report : cut.report = whole.report

theorem Session.report_run (s : Session) (source : Text) :
    (s.run source).1.report = s.report.addAll (scan source).diagnostics := by
  rw [run_eq_andThen]
  rcases andThen_cases ((s.record source).print _) _ with ⟨_, -, same⟩ | ⟨_, -, same⟩ <;>
    · rw [same]
      rfl

theorem Session.out_run {s : Session} (unlimited : s.out.capacity = none) (source : Text) :
    (s.run source).1.out = s.out.put (String.ofList (Token.listing (scan source).tokens)) := by
  have free : (s.record source).out.capacity = none := unlimited
  rw [run_eq_andThen, print, Sink.write_of_unlimited free]
  rfl

theorem outFirst_run {s : Session} (fits : s.Fits a e) (source : Text) :
    OutFirst a s (s.run source).1 ((s.limit a e).run source).1 where
  err := by
    rw [out_run fits.out, run_eq_andThen]
    intro beyond
    have start : ((s.limit a e).record source).out = s.out.limit a := rfl
    rw [print, start]
    rcases Sink.write_limit fits.size_out (String.ofList (Token.listing (scan source).tokens)) with
      ⟨room, -⟩ | ⟨-, cut, more, write, -, -⟩
    · exact absurd room (Nat.not_le.2 beyond)
    · rw [write]
      rfl
  report := by
    rw [report_run, report_run]
    rfl

theorem outFirst_perform {s : Session} (fits : s.Fits a e) {step : Step}
    (other : ∀ input, step ≠ .prompt input) :
    OutFirst a s (s.perform step).1 ((s.limit a e).perform step).1 := by
  cases step with
  | run source =>
    rw [perform, perform, fst_andThen, fst_andThen]
    exact outFirst_run fits source
  | file path contents =>
    rw [perform, perform, fst_andThen, fst_andThen]
    cases h : contents >>= decodeText with
    | error fault =>
      rw [runFile_of_error _ path h, runFile_of_error _ path h]
      exact ⟨fun _ => rfl, rfl⟩
    | ok source =>
      rw [runFile_of_ok _ path h, runFile_of_ok _ path h, fst_andThen, fst_andThen]
      have opened : (s.tell (.opening path)).Fits a e :=
        ⟨fits.out, fits.err, fits.size_out, fits.size_err⟩
      obtain ⟨err, report⟩ := outFirst_run opened source
      exact ⟨err, report⟩
  | prompt input => exact absurd rfl (other input)

theorem Truncated.cutShort {s : Session} {whole cut : Session × Except IoFault α}
    {out err outCut errCut : ByteArray}
    (h : Truncated (s.out.written.size + a) (s.err.written.size + e) whole cut)
    (wrote : s.Wrote whole.1 out err) (wroteCut : s.Wrote cut.1 outCut errCut) :
    CutShort s a e whole cut out err := by
  have size : whole.1.out.written.size = s.out.written.size + out.size := by
    rw [wrote.out, ByteArray.size_append]
  have sizeErr : whole.1.err.written.size = s.err.written.size + err.size := by
    rw [wrote.err, ByteArray.size_append]
  cases h with
  | fits fits =>
    refine ⟨fun _ _ => ⟨⟨wrote.out, wrote.err⟩, rfl⟩, fun beyond => absurd beyond ?_⟩
    have le := size ▸ fits.size_out
    have leErr := sizeErr ▸ fits.size_err
    omega
  | full more beyond full =>
    rw [size, sizeErr] at beyond
    refine ⟨by omega, fun _ => ⟨rfl, outCut, errCut, wroteCut, ?_, ?_, ?_⟩⟩
    · have same := wrote.out.symm.trans more.out
      rw [wroteCut.out, ByteArray.append_assoc, ByteArray.append_right_inj] at same
      exact ⟨_, same⟩
    · have same := wrote.err.symm.trans more.err
      rw [wroteCut.err, ByteArray.append_assoc, ByteArray.append_right_inj] at same
      exact ⟨_, same⟩
    · rw [wroteCut.out, wroteCut.err, ByteArray.size_append, ByteArray.size_append] at full
      exact full.imp Nat.add_left_cancel Nat.add_left_cancel

/-- A full sink cuts a step short and does no more than that. -/
theorem perform_truncates (s : Session) (step : Step) (a e : Nat) :
    let whole := s.unlimited.perform step
    let cut := (s.withRoom a e).perform step
    ∃ out err, s.Wrote whole.1 out err ∧ CutShort s a e whole cut out err ∧
      ((∀ input, step ≠ .prompt input) →
        (a < out.size → cut.1.err.written = s.err.written) ∧ cut.1.report = whole.1.report) := by
  have fits : s.unlimited.Fits (s.out.written.size + a) (s.err.written.size + e) :=
    ⟨rfl, rfl, Nat.le_add_right .., Nat.le_add_right ..⟩
  have truncates := @truncates_perform (s.out.written.size + a) (s.err.written.size + e) step
  obtain ⟨out, err, wrote⟩ := truncates.grows s.unlimited
  obtain ⟨outCut, errCut, wroteCut⟩ := truncates.grows (s.withRoom a e)
  replace wrote : s.Wrote (s.unlimited.perform step).1 out err := ⟨wrote.out, wrote.err⟩
  replace wroteCut : s.Wrote ((s.withRoom a e).perform step).1 outCut errCut :=
    ⟨wroteCut.out, wroteCut.err⟩
  refine ⟨out, err, wrote, (truncates.truncated _ fits).cutShort wrote wroteCut, ?_⟩
  intro other
  obtain ⟨quiet, report⟩ := outFirst_perform fits other
  refine ⟨fun beyond => quiet ?_, report⟩
  rw [wrote.out, ByteArray.size_append]
  exact Nat.add_lt_add_left beyond _

end LoxLexer
