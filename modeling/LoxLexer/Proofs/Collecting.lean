import LoxLexer.Proofs.History
import LoxLexer.Proofs.Taking

namespace LoxLexer

namespace Cursor

def flushed (c : Cursor) : Cursor := { c with pending := #[] }

theorem length_of_next {c rest : Cursor} {item : Item} (h : c.next = (some item, rest)) :
    rest.flushed.ahead.length < c.ahead.length := by
  obtain ⟨passed, ahead, split, left, items, -⟩ := c.next_eq
  simp only [Cursor.rest, h] at left items
  have some : passed ≠ [] := by
    rintro rfl
    cases items
  rw [left, split, List.length_append]
  exact Nat.lt_add_of_pos_left (List.length_pos_of_ne_nil some)

def scanInto (c : Cursor) (r : Report) : List Token × Report :=
  match _h : c.next with
  | (none, rest) => ([.endOfInput rest.lastLine], r.addAll rest.pending.toList)
  | (some (.token t), rest) =>
    let (tokens, r) := rest.flushed.scanInto (r.addAll rest.pending.toList)
    (t :: tokens, r)
  | (some (.fault f), rest) =>
    rest.flushed.scanInto ((r.addAll rest.pending.toList).add (.ofFault f))
termination_by c.ahead.length
decreasing_by all_goals exact length_of_next _h

end Cursor

namespace Report

def carryOut (r : Report) : Change → List Token × Report
  | .error line message => ([], r.add (.error line message))
  | .warning line message => ([], r.add (.warning line message))
  | .fault f => ([], r.add (.ofFault f))
  | .entry d => ([], r.add d)
  | .scan source => (Cursor.ofSource source).scanInto r
  | .clear => ([], {})

def collect (history : List Change) : Report :=
  history.foldl (fun r change => (r.carryOut change).2) {}

inductive Adds : Change → List Diagnostic → Prop
  | error : Adds (.error line message) [⟨.error, line, message, ""⟩]
  | warning : Adds (.warning line message) [⟨.warning, line, message, ""⟩]
  | lexical : Adds (.fault (.lexical line cause)) [⟨.error, line, cause.message, ""⟩]
  | io : Adds (.fault (.io cause)) [⟨.error, 0, cause.message, ""⟩]
  | entry : Adds (.entry d) [d]
  | scan : Adds (.scan source) (scan source).diagnostics

inductive Parted : List Diagnostic → List Diagnostic → List Diagnostic → Prop
  | nil : Parted [] [] []
  | error : d.severity = .error → Parted ds es ws → Parted (d :: ds) (d :: es) ws
  | warning : d.severity = .warning → Parted ds es ws → Parted (d :: ds) es (d :: ws)

/-- The report holds what was added behind the last change that clears, if any does, and no more. -/
structure Recounts (r : Report) (history : List Change) : Prop where
  entries : ∃ before recent parts, history = before ++ recent ∧
    (before = [] ∨ before.getLast? = some .clear) ∧ .clear ∉ recent ∧
    List.Forall₂ Adds recent parts ∧ r.entries.toList = parts.flatten
  hasErrors : r.hasErrors = true ↔ ∃ d ∈ r.entries.toList, d.severity = .error
  parted : Parted r.entries.toList r.errors r.warnings

end Report

namespace Cursor

variable {c d : Cursor}

theorem scanInto_congr (same : c.next = d.next) (r : Report) : c.scanInto r = d.scanInto r := by
  rw [scanInto, scanInto]
  grind

theorem scanInto_of_token {t : Token} (h : c.next = (some (.token t), d)) (r : Report) :
    c.scanInto r = (t :: (d.flushed.scanInto (r.addAll d.pending.toList)).1,
      (d.flushed.scanInto (r.addAll d.pending.toList)).2) := by
  rw [scanInto]
  grind

theorem scanInto_of_fault {f : Fault} (h : c.next = (some (.fault f), d)) (r : Report) :
    c.scanInto r = d.flushed.scanInto ((r.addAll d.pending.toList).add (.ofFault f)) := by
  rw [scanInto]
  grind

theorem scanInto_eq (c : Cursor) (r : Report) :
    c.scanInto r = (c.finish.tokens, r.addAll c.finish.diagnostics) := by
  obtain ⟨ps, pending, lastLine⟩ := c
  induction ps generalizing pending r with
  | nil =>
    rw [scanInto]
    simp [next, nextFrom, finish]
  | cons p ps ih =>
    have token := p.token?_eq
    have fault := p.bind_fault?
    cases h : p.item? with
    | none =>
      rw [h] at token fault
      rw [scanInto_congr (next_cons_of_none h ps pending lastLine), ih]
      simp [finish, Piece.diagnostics, token, ← fault]
    | some item =>
      rw [h] at token fault
      have next := next_cons_of_some h ps pending lastLine
      cases item with
      | token t =>
        have token : p.token? = some t := token
        have fault : p.fault? = none := fault.symm
        rw [scanInto_of_token next, flushed, ih]
        simp [finish, Piece.diagnostics, Report.addAll, token, fault]
      | fault f =>
        have token : p.token? = none := token
        have fault : p.fault? = some f := fault.symm
        rw [scanInto_of_fault next, flushed, ih]
        simp [finish, Piece.diagnostics, Report.addAll, token, fault]

end Cursor

namespace Report

variable {change : Change}

theorem carryOut_eq (r : Report) (change : Change) :
    r.carryOut change = (change.tokens, r.apply change) := by
  cases change with
  | scan source => exact Cursor.scanInto_eq _ r
  | _ => rfl

theorem collect_eq_replay (history : List Change) : collect history = replay {} history := by
  simp only [collect, carryOut_eq]
  rfl

theorem adds_diagnostics (h : change ≠ .clear) : Adds change change.diagnostics := by
  cases change with
  | error => exact .error
  | warning => exact .warning
  | fault f =>
    cases f with
    | lexical => exact .lexical
    | io => exact .io
  | entry => exact .entry
  | scan => exact .scan
  | clear => contradiction

theorem exists_sinceClear (history : List Change) :
    ∃ before recent parts, history = before ++ recent ∧
      (before = [] ∨ before.getLast? = some .clear) ∧ .clear ∉ recent ∧
      List.Forall₂ Adds recent parts ∧ sinceClear history = parts.flatten := by
  induction history using List.reverseRecOn with
  | nil => exact ⟨[], [], [], rfl, .inl rfl, List.not_mem_nil, .nil, rfl⟩
  | append_singleton history change ih =>
    rw [sinceClear_concat]
    by_cases clears : change = .clear
    · refine ⟨history ++ [change], [], [], (List.append_nil _).symm, .inr ?_, List.not_mem_nil,
        .nil, if_pos clears⟩
      rw [List.getLast?_concat, clears]
    · obtain ⟨before, recent, parts, rfl, last, none, adds, found⟩ := ih
      refine ⟨before, recent ++ [change], parts ++ [change.diagnostics], List.append_assoc .., last,
        ?_, ?_, ?_⟩
      · rw [List.mem_append, List.mem_singleton, not_or]
        exact ⟨none, Ne.symm clears⟩
      · exact List.rel_append adds (.cons (adds_diagnostics clears) .nil)
      · rw [if_neg clears, found, List.flatten_append, List.flatten_singleton]

theorem parted_filter (ds : List Diagnostic) :
    Parted ds (ds.filter (·.severity = .error)) (ds.filter (·.severity = .warning)) := by
  induction ds with
  | nil => exact .nil
  | cons d ds ih =>
    cases h : d.severity with
    | error => simpa [h] using ih.error h
    | warning => simpa [h] using ih.warning h

theorem recounts_collect (history : List Change) : (collect history).Recounts history := by
  rw [collect_eq_replay, replay_empty]
  refine ⟨exists_sinceClear history, ?_, parted_filter _⟩
  rw [holding, List.any_eq_true]
  simp only [decide_eq_true_eq]

end Report

/-- A report is the history of its changes since it was last cleared, however scans and other
changes take turns. A scan finds the same in it as in an empty report. -/
theorem collect_recounts (history : List Report.Change) :
    let r := Report.collect history
    r.Recounts history ∧ r = Report.replay {} history ∧
      ∀ source, let (tokens, after) := r.carryOut (.scan source)
        let (alone, fresh) := ({} : Report).carryOut (.scan source)
        tokens = alone ∧ after.entries.toList = r.entries.toList ++ fresh.entries.toList ∧
          scan source = ⟨alone, fresh.entries.toList⟩ := by
  refine ⟨Report.recounts_collect history, Report.collect_eq_replay history, ?_⟩
  intro source
  have adds (r : Report) : (r.apply (.scan source)).entries.toList =
      r.entries.toList ++ (scan source).diagnostics := Report.toList_entries_addAll r _
  have fresh := adds {}
  rw [Report.carryOut_eq, Report.carryOut_eq]
  refine ⟨rfl, ?_, ?_⟩
  · rw [adds, fresh]
    rfl
  · rw [fresh]
    rfl

end LoxLexer
