import LoxLexer.Proofs.Transcript

namespace LoxLexer

open Prompt Session

def Diagnostic.painted (colored : Bool) (d : Diagnostic) : String :=
  match colored, d.severity with
  | false, _ => d.render
  | true, .error => "\x1b[31m" ++ d.render ++ "\x1b[39m"
  | true, .warning => "\x1b[33m" ++ d.render ++ "\x1b[39m"

namespace Step

def changes : Step → List Report.Change
  | .run source => [.scan source]
  | .file _ contents =>
    match contents >>= decodeText with
    | .ok source => [.scan source]
    | .error _ => []
  | .prompt input => Prompt.changes (sources (heed input.reads).1)

def output : Step → String
  | .run source => (scan source).listing
  | .file _ contents =>
    match contents >>= decodeText with
    | .ok source => (scan source).listing
    | .error _ => ""
  | .prompt input => String.join ((heed input.reads).1.map turn) ++ sign

def answer (report : Report) : Step → Except IoFault (Option Bool)
  | .run _ => .ok none
  | .file _ contents => (contents >>= decodeText).map fun _ => some report.hasErrors
  | .prompt input => (heed input.reads).2.map fun _ => none

def answers (report : Report) : List Step → List (Except IoFault (Option Bool))
  | [] => []
  | step :: steps =>
    let report := report.replay step.changes
    step.answer report :: answers report steps

end Step

namespace Session

def fresh (colored : Bool) : Session := { colored }

def performAll (s : Session) : List Step → Session × List (Except IoFault (Option Bool))
  | [] => (s, [])
  | step :: steps =>
    let (s, result) := s.perform step
    let (s, results) := s.performAll steps
    (s, result :: results)

/-- All that a session has to say of its diagnostics, behind these changes of its report. -/
structure Account (colored : Bool) (history : List Report.Change) (s : Session) : Prop where
  reported : s.reported = history.flatMap Report.Change.diagnostics
  err : s.err.written = (String.join (s.reported.map fun d => d.painted colored ++ "\n")).toUTF8
  report : s.report = .holding (Report.sinceClear history)

end Session

variable {s after : Session}

theorem Diagnostic.shown_eq_painted (colored : Bool) (d : Diagnostic) :
    d.shown colored = d.painted colored ++ "\n" := by
  obtain ⟨severity, _, _, _⟩ := d
  cases colored <;> cases severity <;> rfl

theorem flatMap_diagnostics_changes (sources : List Text) :
    (Prompt.changes sources).flatMap Report.Change.diagnostics =
      sources.flatMap fun source => (scan source).diagnostics := by
  rw [Prompt.changes, List.flatMap_assoc]
  congr 1
  funext source
  exact List.append_nil _

theorem Session.Unfailing.perform_eq (h : s.Unfailing) (step : Step) :
    ∃ after, s.perform step = (after, step.answer (s.report.replay step.changes)) ∧
      Told s after step.output (step.changes.flatMap Report.Change.diagnostics) ∧
      after.report = s.report.replay step.changes := by
  cases step with
  | run source =>
    refine ⟨s.ran source, ?_, ?_, rfl⟩
    · rw [perform, h.run_eq]
      rfl
    · rw [Step.changes, List.flatMap_singleton]
      exact h.told_ran source
  | file path contents =>
    have opened := h.told_tell (rfl : (Event.opening path).diagnostic? = none)
    cases read : contents >>= decodeText with
    | error fault =>
      simp only [Step.answer, Step.output, Step.changes, read]
      refine ⟨s.tell (.opening path), ?_, opened, rfl⟩
      rw [perform, runFile_of_error _ _ read]
      rfl
    | ok source =>
      have told := opened.trans (opened.unfailing.told_ran source)
      simp only [Step.answer, Step.output, Step.changes, read, List.flatMap_singleton]
      refine ⟨_, ?_, told, rfl⟩
      rw [perform, runFile_of_ok _ _ read, opened.unfailing.run_eq]
      rfl
  | prompt input =>
    obtain ⟨after, converses, told, report⟩ := h.converse_eq input.reads
    refine ⟨after, ?_, ?_, report⟩
    · rw [perform, runPrompt, converses, Step.answer]
      cases (heed input.reads).2 <;> rfl
    · rw [Step.changes, flatMap_diagnostics_changes, flatMap_diagnostics_sources]
      exact told

theorem Session.Unfailing.performAll_eq (h : s.Unfailing) (steps : List Step) :
    ∃ after, s.performAll steps = (after, Step.answers s.report steps) ∧
      Told s after (String.join (steps.map Step.output))
        ((steps.flatMap Step.changes).flatMap Report.Change.diagnostics) ∧
      after.report = s.report.replay (steps.flatMap Step.changes) := by
  induction steps generalizing s with
  | nil => exact ⟨s, rfl, h.told_nothing, rfl⟩
  | cons step steps ih =>
    obtain ⟨middle, performs, told, report⟩ := h.perform_eq step
    obtain ⟨after, goesOn, later, last⟩ := ih told.unfailing
    rw [report] at goesOn last
    refine ⟨after, ?_, ?_, ?_⟩
    · simp only [performAll, performs, goesOn]
      rfl
    · rw [List.map_cons, String.join_cons, List.flatMap_cons, List.flatMap_append]
      exact told.trans later
    · rw [last, List.flatMap_cons, Report.replay_append]

theorem unfailing_fresh (colored : Bool) : (fresh colored).Unfailing := ⟨rfl, rfl, rfl⟩

theorem Session.Told.account {text : String} {colored : Bool} {history : List Report.Change}
    (told : Told (fresh colored) after text (history.flatMap Report.Change.diagnostics))
    (report : after.report = (fresh colored).report.replay history) :
    Account colored history after where
  reported := told.reported
  err := by
    rw [told.reported, told.err, ← funext (Diagnostic.shown_eq_painted colored)]
    exact ByteArray.empty_append
  report := report.trans (Report.replay_empty history)

/-- Every diagnostic of a session is written exactly once, and colors change how it is written and
nothing else. Files are answered by the errors since the report was last cleared, if they can be
read, and else leave no trace but in the log. -/
theorem performAll_accounts (colored : Bool) (steps : List Step) :
    let history := steps.flatMap Step.changes
    let (after, results) := (fresh colored).performAll steps
    Account colored history after ∧
      (∀ other, let (after', results') := (fresh other).performAll steps
        after'.out.written = after.out.written ∧ after'.report = after.report ∧
          results' = results) ∧
      ∀ path contents, let (last, result) := after.perform (.file path contents)
        match contents >>= decodeText with
        | .error fault => result = .error fault ∧
          last.out = after.out ∧ last.err = after.err ∧ last.report = after.report
        | .ok source => result =
          .ok (some ((Report.sinceClear (history ++ [.scan source])).any (·.severity = .error))) := by
  obtain ⟨after, performs, told, report⟩ := (unfailing_fresh colored).performAll_eq steps
  simp only [performs]
  refine ⟨told.account report, ?_, ?_⟩
  · intro other
    obtain ⟨after', performs', told', report'⟩ := (unfailing_fresh other).performAll_eq steps
    simp only [performs']
    exact ⟨told'.out.trans told.out.symm, report'.trans report.symm, rfl⟩
  · intro path contents
    cases read : contents >>= decodeText with
    | error fault =>
      rw [perform, runFile_of_error _ _ read]
      exact ⟨rfl, rfl, rfl, rfl⟩
    | ok source =>
      obtain ⟨last, performs, -, -⟩ := told.unfailing.perform_eq (.file path contents)
      have replayed : after.report.replay [.scan source] =
          .holding (Report.sinceClear (steps.flatMap Step.changes ++ [.scan source])) := by
        rw [report, ← Report.replay_append]
        exact Report.replay_empty _
      rw [performs]
      simp only [Step.answer, Step.changes, read, replayed]
      rfl

end LoxLexer
