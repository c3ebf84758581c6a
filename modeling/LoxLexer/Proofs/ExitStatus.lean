import LoxLexer.CommandLine
import LoxLexer.FileTree
import LoxLexer.Proofs.Handover
import LoxLexer.Proofs.Transcript

namespace LoxLexer

open Prompt Session

def Exits (line : List UInt8) : Prop := ∃ text : Text, line = text.encode ∧ Leaves (command text)

inductive Stop
  | ended
  | exit
  | garbled
  deriving DecidableEq

/-- The lines that are answered until the input ends, or the exit command comes, or a line that is
no text. -/
inductive Heard : List (List UInt8) → List Text → Stop → Prop
  | ended : Heard [] [] .ended
  | exit : Leaves (command text) → Heard (text.encode :: lines) [] .exit
  | garbled : Garbled line.toByteArray → Heard (line :: lines) [] .garbled
  | line : ¬ Leaves (command text) → Heard lines heard stop →
      Heard (text.encode :: lines) (text :: heard) stop

inductive Unread : Except IoFault ByteArray → IoFault → Prop
  | missing : Unread (.error fault) fault
  | garbled : Garbled bytes → Unread (.ok bytes) .invalidText

def Diagnostic.listing (ds : List Diagnostic) : String :=
  String.join (ds.map fun d => d.render ++ "\n")

namespace Note

variable (logs : Event → Bool)

def ofEvents (events : List Event) : List Note := (events.filter logs).map .logged

/-- What a scan tells while it goes on, and the diagnostics once it is over. -/
def ofScan (source : Text) : List Note :=
  ofEvents logs (scanEvents source).toList ++
    ofBytes (Diagnostic.listing (scan source).diagnostics).toUTF8

def ofCommand (command : Text) : List Note := if command = [] then [] else ofScan logs command

def ofStop : Stop → List Note
  | .ended => []
  | .exit => ofEvents logs [.exiting]
  | .garbled => ofBytes "Error: stream did not contain valid UTF-8\n".toUTF8

end Note

namespace Outcome

variable (logs : Event → Bool)

/-- What is left behind by a session at the prompt over these lines. -/
structure OfPrompt (lines : List (List UInt8)) (o : Outcome) : Prop where
  broken_iff : o.status.code = 74 ↔ ∃ before line after, lines = before ++ line :: after ∧
    Garbled line.toByteArray ∧ ∀ other ∈ before, ¬ Exits other
  whole : o.status.code ≠ 74 → o.status.code = 0
  told : ∃ heard stop, Heard lines heard stop ∧
    o.out = (String.join (heard.map fun text => exchange (command text)) ++ "#> ").toUTF8 ∧
    o.notes = heard.flatMap (fun text => Note.ofCommand logs (command text)) ++
      Note.ofStop logs stop ∧
    o.err = (Diagnostic.listing (heard.flatMap fun text => (scan (command text)).diagnostics) ++
      if o.status.code = 74 then "Error: stream did not contain valid UTF-8\n" else "").toUTF8

structure OfScan (script : String) (source : Text) (o : Outcome) : Prop where
  error_iff : o.status.code = 65 ↔ ∃ d ∈ (scan source).diagnostics, d.severity = .error
  success_iff : o.status.code = 0 ↔ ∀ d ∈ (scan source).diagnostics, d.severity = .warning
  out : o.out = (String.ofList ((scan source).tokens.flatMap fun t => t.render ++ ['\n'])).toUTF8
  last : (scan source).tokens.getLast? = some (.endOfInput (1 + source.lineFeeds))
  notes : o.notes = Note.ofEvents logs [.opening script] ++ Note.ofScan logs source
  err : o.err = (Diagnostic.listing (scan source).diagnostics).toUTF8

/-- What is left behind by a run of a file with these contents. -/
structure OfFile (script : String) (contents : Except IoFault ByteArray) (o : Outcome) : Prop where
  unread_iff : o.status.code = 74 ↔ ∃ fault, Unread contents fault
  unread : ∀ fault, Unread contents fault → o.out = .empty ∧
    o.notes = Note.ofEvents logs [.opening script] ++
      Note.ofBytes ("Error: " ++ fault.message ++ "\n").toUTF8 ∧
    o.err = ("Error: " ++ fault.message ++ "\n").toUTF8
  read : ∀ source : String, contents = .ok source.toUTF8 → o.OfScan logs script source.toList

structure OfUsage (o : Outcome) : Prop where
  status : o.status.code = 64
  out : o.out = "Usage: lox-scan [script]\n".toUTF8
  notes : o.notes = []

end Outcome

variable {lines : List (List UInt8)} {heard : List Text} {stop : Stop}

namespace Stop

def result : Stop → Except IoFault Unit
  | .ended | .exit => .ok ()
  | .garbled => .error .invalidText

theorem code_eq (stop : Stop) : (Status.ofResult (stop.result.map fun _ => false)).code =
    if stop = .garbled then 74 else 0 := by
  cases stop <;> rfl

end Stop

namespace Heard

theorem broken_iff (h : Heard lines heard stop) : stop = .garbled ↔
    ∃ before line after, lines = before ++ line :: after ∧ Garbled line.toByteArray ∧
      ∀ other ∈ before, ¬ Exits other := by
  have encoded (text : Text) : ¬ Garbled text.encode.toByteArray :=
    fun garbled => garbled _ (toByteArray_encode text).symm
  induction h with
  | ended => simp
  | @exit text lines leaves =>
    refine iff_of_false (by simp) ?_
    rintro ⟨before, line, after, split, garbled, stays⟩
    cases before with
    | nil => exact encoded text ((List.cons.inj split).1 ▸ garbled)
    | cons first before =>
      obtain ⟨rfl, -⟩ := List.cons.inj split
      exact stays _ List.mem_cons_self ⟨text, rfl, leaves⟩
  | @garbled line lines garbled =>
    exact iff_of_true rfl ⟨[], line, lines, rfl, garbled, List.forall_mem_nil _⟩
  | @line text lines heard stop stays later ih =>
    refine ih.trans ⟨?_, ?_⟩
    · rintro ⟨before, line, after, rfl, garbled, others⟩
      refine ⟨text.encode :: before, line, after, rfl, garbled, List.forall_mem_cons.2 ⟨?_, others⟩⟩
      rintro ⟨other, same, leaves⟩
      exact stays (eq_of_encode_eq same ▸ leaves)
    · rintro ⟨before, line, after, split, garbled, others⟩
      cases before with
      | nil => exact absurd ((List.cons.inj split).1 ▸ garbled) (encoded text)
      | cons first before =>
        obtain ⟨rfl, rfl⟩ := List.cons.inj split
        exact ⟨before, line, after, rfl, garbled, (List.forall_mem_cons.1 others).2⟩

end Heard

namespace Note

@[simp] theorem bytes_append (a b : List Note) : bytes (a ++ b) = bytes a ++ bytes b := by
  apply ByteArray.ext
  simp [bytes]

theorem ofEvents_append (logs : Event → Bool) (a b : List Event) :
    ofEvents logs (a ++ b) = ofEvents logs a ++ ofEvents logs b := by
  simp [ofEvents]

@[simp] theorem bytes_ofEvents (logs : Event → Bool) (events : List Event) :
    bytes (ofEvents logs events) = .empty := by
  apply ByteArray.ext
  simp [bytes, ofEvents, Function.comp_def, byte?]

@[simp] theorem bytes_ofBytes (content : ByteArray) : bytes (ofBytes content) = content := by
  apply ByteArray.ext
  simp [bytes, ofBytes, Function.comp_def, byte?]

@[simp] theorem ofBytes_append (a b : ByteArray) : ofBytes (a ++ b) = ofBytes a ++ ofBytes b := by
  simp [ofBytes]

theorem ofBytes_bytes_ofResult {α : Type} (result : Except IoFault α) :
    ofBytes (bytes (ofResult result)) = ofResult result := by
  cases result with
  | ok _ => rfl
  | error fault => rw [ofResult, bytes_ofBytes]

end Note

namespace Host

variable {Arg Path : Type} (host : Host Arg Path) (o : Options Path) (parts : List Handed)
  (result : Except IoFault Bool)

theorem notes_eq (part : Handed) :
    host.notes o part = Note.ofEvents (host.logs o) part.events ++ Note.ofBytes part.err := rfl

theorem err_outcome :
    (host.outcome o parts result).err =
      (Handed.join parts).err ++ Note.bytes (Note.ofResult result) := by
  have joined : Note.bytes (parts.flatMap (host.notes o)) = (Handed.join parts).err := by
    induction parts with
    | nil => rfl
    | cons part parts ih => simp [notes_eq, ih, Handed.join, Handed.append]
  rw [← joined, ← Note.bytes_append]
  rfl

theorem notes_outcome_of_quiet (quiet : ∀ e, host.logs o e = false) :
    (host.outcome o parts result).notes = Note.ofBytes (host.outcome o parts result).err := by
  have joined : parts.flatMap (host.notes o) = Note.ofBytes (Handed.join parts).err := by
    induction parts with
    | nil => rfl
    | cons part parts ih => simp [notes_eq, Note.ofEvents, quiet, ih, Handed.join, Handed.append]
  rw [err_outcome, Note.ofBytes_append, Note.ofBytes_bytes_ofResult, ← joined]
  rfl

variable {host o}

theorem session_eq (plain : host.terminal = false) : host.session o = {} := by
  rw [session, plain]
  rfl

end Host

def Session.waiting (report : Report) : Session := { report }

theorem unfailing_waiting (report : Report) : (waiting report).Unfailing := ⟨rfl, rfl, rfl⟩

theorem round_failed (report : Report) (fault : IoFault) :
    (waiting report).round (.failed fault) = (waiting report, some (.error fault)) := rfl

theorem round_exit (report : Report) {line : Text} (exit : isExit (command line)) :
    (waiting report).round (.line line) =
      ((waiting report).tell .exiting, some (.ok ())) := by
  rw [Session.round, hear_exit _ exit]

theorem round_blank (report : Report) {line : Text} (blank : (command line).isEmpty) :
    (waiting report).round (.line line) = ((waiting report).invited, none) := by
  rw [Session.round, hear_blank _ blank]
  simp only [(unfailing_waiting report).invite_eq]

theorem round_words (report : Report) {line : Text} (words : (command line).isEmpty = false)
    (goesOn : isExit (command line) = false) :
    (waiting report).round (.line line) =
      (((waiting {}).ran (command line)).invited, none) := by
  have cleared := unfailing_waiting {}
  have ran := cleared.told_ran (command line)
  have scanned : { waiting report with report := {} } = waiting {} := rfl
  rw [Session.round, hear_words _ words goesOn, scanned, cleared.run_eq]
  simp only [andThen, ran.unfailing.invite_eq]

section

variable {Arg Path : Type} (host : Host Arg Path) (o : Options Path)

theorem notes_ran {s : Session} (silent : s.err.written = .empty) (plain : s.colored = false)
    (source : Text) : host.notes o (s.ran source).handed =
      Note.ofEvents (host.logs o) s.log.toList ++ Note.ofScan (host.logs o) source := by
  have listing : (s.ran source).err.written =
      (Diagnostic.listing (scan source).diagnostics).toUTF8 := by
    have written : (s.ran source).err.written = s.err.written ++
        (String.join ((scan source).diagnostics.map (Diagnostic.shown s.colored))).toUTF8 := rfl
    rw [written, silent, plain]
    exact ByteArray.empty_append
  have events : (s.ran source).handed.events = s.log.toList ++ (scanEvents source).toList := by
    simp [handed, ran, record]
  rw [Note.ofScan, ← listing, Host.notes_eq, events, Note.ofEvents_append, List.append_assoc]
  rfl

theorem notes_invited (s : Session) : host.notes o s.invited.handed = host.notes o s.handed := rfl

theorem exists_round (report : Report) {line : Text} (goesOn : isExit (command line) = false) :
    ∃ s later, (waiting report).round (.line line) = (s, none) ∧ s.emptied = waiting later ∧
      host.notes o s.handed = Note.ofCommand (host.logs o) (command line) := by
  cases blank : (command line).isEmpty with
  | true =>
    refine ⟨(waiting report).invited, report, round_blank report blank, rfl, ?_⟩
    rw [List.isEmpty_iff.1 blank]
    rfl
  | false =>
    refine ⟨_, _, round_words report blank goesOn, rfl, ?_⟩
    rw [Note.ofCommand, if_neg (List.isEmpty_eq_false_iff.1 blank), notes_invited,
      notes_ran host o rfl rfl]
    rfl

theorem exists_heard (report : Report) (lines : List (List UInt8)) :
    ∃ heard stop, Heard lines heard stop ∧
      heed (lines.map .ofLine) = (heard, stop.result) ∧
      ((waiting report).rounds (lines.map .ofLine)).1.flatMap (host.notes o) ++
          Note.ofResult stop.result =
        heard.flatMap (fun text => Note.ofCommand (host.logs o) (command text)) ++
          Note.ofStop (host.logs o) stop := by
  -- A round leaves nothing behind but a report, so the induction is over all reports.
  induction lines generalizing report with
  | nil => exact ⟨[], .ended, .ended, rfl, rfl⟩
  | cons line lines ih =>
    rw [List.map_cons]
    rcases encode_or_garbled line with ⟨text, rfl⟩ | garbled
    · rw [Read.ofLine_encode, heed]
      cases exit : isExit (command text) with
      | true =>
        refine ⟨[], .exit, .exit (of_decide_eq_true exit), rfl, ?_⟩
        rw [rounds, round_exit report exit]
        simp [Host.notes_eq, handed, waiting, Session.tell, Note.ofStop, Note.ofBytes,
          Note.ofResult, Stop.result]
      | false =>
        have stays : ¬ Leaves (command text) := of_decide_eq_false exit
        obtain ⟨s, later, round, again, told⟩ := exists_round host o report exit
        obtain ⟨heard, stop, hears, heeds, notes⟩ := ih later
        refine ⟨text :: heard, stop, .line stays hears, by simp [heeds], ?_⟩
        rw [rounds, round]
        dsimp only
        rw [again, List.flatMap_cons, List.flatMap_cons, told, List.append_assoc, notes,
          List.append_assoc]
    · rw [Read.ofLine_of_garbled garbled, heed]
      refine ⟨[], .garbled, .garbled garbled, rfl, ?_⟩
      rw [rounds, round_failed]
      simp only [List.flatMap_singleton, List.flatMap_nil, List.nil_append]
      rfl

end

theorem Session.Told.written {report : Report} {after : Session} {text : String}
    {ds : List Diagnostic} (told : Told (waiting report) after text ds) :
    after.out.written = text.toUTF8 ∧ after.err.written = (Diagnostic.listing ds).toUTF8 :=
  ⟨told.out.trans ByteArray.empty_append, told.err.trans ByteArray.empty_append⟩

theorem converseInRounds_waiting (report : Report) (reads : List Read) :
    (waiting report).converseInRounds reads =
      ((waiting report).invited.handed :: ((waiting report).rounds reads).1,
        ((waiting report).rounds reads).2) := by
  have again : (waiting report).invited.emptied = waiting report := rfl
  rw [converseInRounds, (unfailing_waiting report).invite_eq]
  dsimp only
  rw [again]

section

variable {Arg Path : Type} {host : Host Arg Path} {o : Options Path}

theorem ofPrompt_perform (plain : host.terminal = false) (prompt : o.scripts = [])
    (stdin : ByteArray) :
    (host.perform o ⟨stdin, none⟩).OfPrompt (host.logs o) (byteLines stdin.toList) := by
  obtain ⟨heard, stop, hears, heeds, notes⟩ := exists_heard host o {} (byteLines stdin.toList)
  obtain ⟨after, converses, told, -⟩ :=
    (unfailing_waiting {}).converse_eq ((byteLines stdin.toList).map .ofLine)
  have joined := (waiting {}).converse_eq_converseInRounds ((byteLines stdin.toList).map .ofLine)
  rw [heeds] at converses told
  rw [converses, converseInRounds_waiting] at joined
  obtain ⟨handed, result⟩ := joined
  obtain ⟨out, err⟩ := told.written
  rw [List.map_congr_left fun line _ => turn_eq_exchange line] at out
  have performed : host.perform o ⟨stdin, none⟩ = host.outcome o
      ((waiting {}).invited.handed ::
        ((waiting {}).rounds ((byteLines stdin.toList).map .ofLine)).1)
      (stop.result.map fun _ => false) := by
    have rounds := converseInRounds_waiting {} ((byteLines stdin.toList).map .ofLine)
    rw [← result] at rounds
    rw [Host.perform, prompt, Host.session_eq plain]
    exact congrArg (fun ended => host.outcome o ended.1 (ended.2.map fun _ => false)) rounds
  have code : (host.perform o ⟨stdin, none⟩).status.code = if stop = .garbled then 74 else 0 := by
    rw [performed]
    exact stop.code_eq
  have last : Note.bytes (Note.ofResult (stop.result.map fun _ => false)) =
      (if stop = .garbled then "Error: stream did not contain valid UTF-8\n" else "").toUTF8 := by
    cases stop with
    | ended | exit => rfl
    | garbled => exact Note.bytes_ofBytes _
  constructor
  case broken_iff =>
    rw [code, ← hears.broken_iff]
    split <;> simp [*]
  case whole =>
    rw [code]
    split <;> simp
  case told =>
    refine ⟨heard, stop, hears, ?_, ?_, ?_⟩
    · rw [performed]
      exact (congrArg Handed.out handed).symm.trans out
    · rw [performed, ← notes]
      cases stop <;> rfl
    · rw [code, performed, Host.err_outcome, ← handed, last, toUTF8_append, ← err]
      split <;> simp [*, Session.handed]

end

theorem unread_iff (contents : Except IoFault ByteArray) (fault : IoFault) :
    Unread contents fault ↔ contents >>= decodeText = .error fault := by
  constructor
  · intro h
    cases h with
    | missing => rfl
    | garbled garbled => exact (garbled_iff _).1 garbled
  · intro h
    cases contents with
    | error other =>
      cases h
      exact .missing
    | ok bytes =>
      have read : decodeText bytes = .error fault := h
      obtain rfl := invalidText_of_decodeText read
      exact .garbled ((garbled_iff _).2 read)

namespace Status

theorem code_eq_dataError (errors : Bool) :
    (ofResult (.ok errors)).code = 65 ↔ errors = true := by cases errors <;> decide

theorem code_eq_success (errors : Bool) :
    (ofResult (.ok errors)).code = 0 ↔ errors = false := by cases errors <;> decide

theorem code_ne_ioError (errors : Bool) : (ofResult (.ok errors)).code ≠ 74 := by
  cases errors <;> decide

end Status

section

variable {Arg Path : Type} (host : Host Arg Path) (o : Options Path)

theorem ofScan_outcome (script : String) (source : Text) :
    (host.outcome o [(((waiting {}).tell (.opening script)).ran source).handed]
      (.ok ((scan source).diagnostics.any (·.severity = .error)))).OfScan
        (host.logs o) script source := by
  have warning (d : Diagnostic) : d.severity ≠ .error ↔ d.severity = .warning := by
    cases d.severity <;> decide
  have opened := (unfailing_waiting {}).told_tell
    (rfl : (Event.opening script).diagnostic? = none)
  obtain ⟨out, err⟩ := (opened.trans (opened.unfailing.told_ran source)).written
  rw [String.empty_append] at out
  have single (part : Handed) : Handed.join [part] = part := Handed.append_empty part
  constructor
  case error_iff =>
    refine (Status.code_eq_dataError _).trans ?_
    simp
  case success_iff =>
    refine (Status.code_eq_success _).trans ?_
    simp [warning]
  case out =>
    rw [Host.outcome, single, ← Token.listing, listing_scan]
    exact out
  case last => rw [tokens_scan, List.getLast?_concat]
  case notes =>
    rw [Host.outcome, Note.ofResult, List.append_nil, List.flatMap_singleton,
      notes_ran host o rfl rfl]
    rfl
  case err =>
    rw [Host.err_outcome, single, Note.ofResult]
    exact ByteArray.append_empty.trans err

theorem ofFile_of_unread {contents : Except IoFault ByteArray} {fault : IoFault}
    (h : contents >>= decodeText = .error fault) (script : String) :
    (host.outcome o [((waiting {}).tell (.opening script)).handed] (.error fault)).OfFile
      (host.logs o) script contents := by
  have message : Note.ofResult (.error fault : Except IoFault Bool) =
      Note.ofBytes ("Error: " ++ fault.message ++ "\n").toUTF8 := rfl
  refine ⟨iff_of_true rfl ⟨fault, (unread_iff _ _).2 h⟩, ?_, ?_⟩
  · intro other unread
    obtain rfl := Except.error.inj (h.symm.trans ((unread_iff _ _).1 unread))
    refine ⟨rfl, ?_, ?_⟩
    · rw [Host.outcome, message, List.flatMap_singleton]
      exact congrArg (· ++ _) (List.append_nil _)
    · rw [Host.err_outcome, message, Note.bytes_ofBytes]
      exact ByteArray.empty_append
  · rintro source rfl
    have read : decodeText source.toUTF8 = .error fault := h
    rw [decodeText_toUTF8] at read
    contradiction

theorem ofFile_of_scan {contents : Except IoFault ByteArray} {source : Text}
    (h : contents >>= decodeText = .ok source) (script : String) :
    (host.outcome o [(((waiting {}).tell (.opening script)).ran source).handed]
      (.ok ((scan source).diagnostics.any (·.severity = .error)))).OfFile
        (host.logs o) script contents := by
  have readable (fault : IoFault) : ¬ Unread contents fault := by
    rw [unread_iff, h]
    exact nofun
  refine ⟨iff_of_false (Status.code_ne_ioError _) (not_exists.2 readable), ?_, ?_⟩
  · intro fault unread
    exact absurd unread (readable fault)
  · rintro text rfl
    obtain rfl := Except.ok.inj ((decodeText_toUTF8 text).symm.trans h)
    exact ofScan_outcome host o script text.toList

theorem ofFile_perform (plain : host.terminal = false) {script : Path} (file : o.scripts = [script])
    (input : Input) :
    (host.perform o input).OfFile (host.logs o) (host.display script) (host.read script) := by
  have start : ({} : Session) = waiting {} := rfl
  rw [Host.perform, file, Host.session_eq plain]
  dsimp only
  cases h : host.read script >>= decodeText with
  | error fault =>
    rw [runFile_of_error _ _ h]
    exact ofFile_of_unread host o h _
  | ok source =>
    have opened := (unfailing_waiting {}).told_tell
      (rfl : (Event.opening (host.display script)).diagnostic? = none)
    have report : (((waiting {}).tell (.opening (host.display script))).ran source).report =
        .holding (scan source).diagnostics := Report.addAll_holding [] _
    rw [runFile_of_ok _ _ h, start, opened.unfailing.run_eq]
    simp only [andThen, report]
    exact ofFile_of_scan host o h _

end

/-- What the program leaves behind tells how its run has gone, on whatever host. Only the prompt
looks at the input and only a single script at a file. Without events that are asked for, the error
output holds nothing but diagnostics and the fault that ends the run. -/
theorem execute_classified {Arg Path : Type} (host : Host Arg Path) (args : List Arg)
    (o : Options Path) (accepted : host.parse args = .ok o) (plain : host.terminal = false)
    (stdin : ByteArray) :
    let outcome := host.execute args ⟨stdin, none⟩
    ByteLines stdin.toList (byteLines stdin.toList) ∧
      (match o.scripts with
        | [] => outcome.OfPrompt (host.logs o) (byteLines stdin.toList)
        | [script] => outcome.OfFile (host.logs o) (host.display script) (host.read script)
        | _ :: _ :: _ => outcome.OfUsage ∧
          ∀ read input, { host with read }.execute args input = outcome) ∧
      (o.verbose = false → host.filter? = none → outcome.notes = Note.ofBytes outcome.err) := by
  have performed (input : Input) : host.execute args input = host.perform o input := by
    rw [Host.execute, accepted]
  refine ⟨byteLines_byteLines _, ?_, ?_⟩
  · cases scripts : o.scripts with
    | nil =>
      rw [performed]
      exact ofPrompt_perform plain scripts stdin
    | cons script others =>
      cases others with
      | nil =>
        rw [performed]
        exact ofFile_perform host o plain scripts _
      | cons _ _ =>
        have usage (read : Path → Except IoFault ByteArray) (input : Input) :
            { host with read }.execute args input = .usage := by
          have accepted' : { host with read }.parse args = .ok o := accepted
          rw [Host.execute, accepted']
          simp only [Host.perform, scripts]
        have same := usage host.read ⟨stdin, none⟩
        refine ⟨?_, fun read input => (usage read input).trans same.symm⟩
        rw [same]
        exact ⟨rfl, rfl, rfl⟩
  · intro silent unfiltered
    have quiet (e : Event) : host.logs o e = false := by
      rw [Host.logs, unfiltered, silent]
      rfl
    rw [performed, Host.perform]
    split
    next => exact Host.notes_outcome_of_quiet _ _ _ _ quiet
    next => exact Host.notes_outcome_of_quiet _ _ _ _ quiet
    next => rfl

theorem execute_classified_by_scripts :
    let files := FileTree.ofNames [] [("nested", "/*/**/".toUTF8)]
    let host := Host.ofText false files.read
    let stdin : ByteArray := [64, 10, 255].toByteArray
    host.parse ["-v"] = .ok ⟨true, false, []⟩ ∧
      host.parse ["nested"] = .ok ⟨false, false, ["nested"]⟩ ∧
      host.parse ["--", "nested", "-v"] = .ok ⟨false, false, ["nested", "-v"]⟩ ∧
      host.terminal = false ∧
      (execute ["-v"] false files.read ⟨stdin, none⟩).status.code = 74 ∧
      (execute ["nested"] false files.read ⟨stdin, none⟩).status.code = 0 ∧
      (execute ["nested"] false files.read ⟨stdin, none⟩).notes =
        Note.ofBytes (Diagnostic.listing [.nestedComment 1]).toUTF8 ∧
      (execute ["--", "nested", "-v"] false files.read ⟨stdin, none⟩).OfUsage := by
  intro files host stdin
  have nobody : host.parse ["-v"] = .ok ⟨true, false, []⟩ := rfl
  have one : host.parse ["nested"] = .ok ⟨false, false, ["nested"]⟩ := rfl
  have two : host.parse ["--", "nested", "-v"] = .ok ⟨false, false, ["nested", "-v"]⟩ := rfl
  have contents : host.read "nested" = .ok "/*/**/".toUTF8 := rfl
  have prompt := (execute_classified host _ _ nobody rfl stdin).2.1
  obtain ⟨-, file, quiet⟩ := execute_classified host _ _ one rfl stdin
  have read := file.read "/*/**/" contents
  refine ⟨nobody, one, two, rfl, ?_, ?_, ?_, (execute_classified host _ _ two rfl stdin).2.1.1⟩
  · have lines : byteLines stdin.toList = [[64, 10], [255]] := by
      rw [toList_toByteArray]
      rfl
    have garbled : Garbled [255].toByteArray := (garbled_iff _).2 (by decide)
    refine prompt.broken_iff.2 ⟨[[64, 10]], [255], [], lines, garbled, ?_⟩
    intro other hother
    obtain rfl := List.mem_singleton.1 hother
    rintro ⟨text, encoded, leaves⟩
    obtain rfl : ['@', '\n'] = text := eq_of_encode_eq encoded
    exact absurd leaves (by decide)
  · refine read.success_iff.2 ?_
    decide
  · have found : (scan "/*/**/".toList).diagnostics = [.nestedComment 1] := by decide
    have told := quiet rfl rfl
    rwa [read.err, found] at told

/-- With a log that is asked for, the error output is not the diagnostics alone. -/
theorem verbose_tells_more :
    let files := FileTree.ofNames [] [("a.lox", "@".toUTF8)]
    let host := Host.ofText false files.read
    host.parse ["-v", "a.lox"] = .ok ⟨true, false, ["a.lox"]⟩ ∧ host.terminal = false ∧
      host.read "a.lox" = .ok "@".toUTF8 ∧
      (execute ["-v", "a.lox"] false files.read ⟨.empty, none⟩).notes ≠
        Note.ofBytes (Diagnostic.listing (scan "@".toList).diagnostics).toUTF8 := by
  intro files host
  have contents : host.read "a.lox" = .ok "@".toUTF8 := rfl
  have performed : execute ["-v", "a.lox"] false files.read ⟨.empty, none⟩ =
      host.perform ⟨true, false, ["a.lox"]⟩ ⟨.empty, none⟩ := rfl
  have file := ofFile_perform host ⟨true, false, ["a.lox"]⟩ rfl rfl ⟨.empty, none⟩
  refine ⟨rfl, rfl, contents, ?_⟩
  rw [performed, (file.read "@" contents).notes]
  intro same
  have opening := same ▸ List.mem_append_left _ List.mem_cons_self
  obtain ⟨byte, -, logged⟩ := List.mem_map.1 opening
  cases logged

end LoxLexer
