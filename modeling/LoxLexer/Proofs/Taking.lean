import Mathlib.Data.List.Forall2
import Mathlib.Logic.Function.Iterate
import LoxLexer.Proofs.Tiling

namespace LoxLexer

def Item.fault? : Item → Option Fault
  | .token _ => none
  | .fault f => some f

def Cursor.rest (c : Cursor) : Cursor := c.next.2

def Cursor.take (c : Cursor) : Nat → List Item × Cursor
  | 0 => ([], c)
  | n + 1 =>
    match c.next.1 with
    | none => ([], c.rest)
    | some item => (item :: (c.rest.take n).1, (c.rest.take n).2)

structure Fault.Entry (f : Fault) (d : Diagnostic) : Prop where
  severity : d.severity = .error
  line : f.line? = some d.line
  message : d.message = f.message
  render : d.render = f.render

/-- `kept` is `ds` without the entries of the faults, which are the first errors of `ds`. -/
inductive Without : List Fault → List Diagnostic → List Diagnostic → Prop
  | nil : Without [] ds ds
  | fault : f.Entry d → Without fs ds kept → Without (f :: fs) (d :: ds) kept
  | warning : d.severity = .warning → Without fs ds kept → Without fs (d :: ds) (d :: kept)

variable {c : Cursor} {ds kept : List Diagnostic} {fs : List Fault} {p : Piece}

namespace Cursor

def past (c : Cursor) (passed ahead : List Piece) : Cursor :=
  ⟨ahead, c.pending ++ passed.flatMap Piece.warnings, c.lastLine⟩

theorem past_past (c : Cursor) (passed more between ahead : List Piece) :
    (c.past passed between).past more ahead = c.past (passed ++ more) ahead := by
  rw [past, past, past, List.flatMap_append]
  congr 1
  apply Array.toList_inj.1
  simp

theorem next_eq (c : Cursor) : ∃ passed ahead, c.ahead = passed ++ ahead ∧
    c.rest = c.past passed ahead ∧ passed.filterMap Piece.item? = c.next.1.toList ∧
    (c.next.1 = none → ahead = []) := by
  obtain ⟨ps, pending, lastLine⟩ := c
  induction ps generalizing pending with
  | nil => exact ⟨[], [], rfl, by simp [rest, next, nextFrom, past], rfl, fun _ => rfl⟩
  | cons p ps ih =>
    cases hp : p.item? with
    | none =>
      obtain ⟨passed, ahead, split, left, items, ended⟩ := ih (pending ++ p.warnings)
      have same := next_cons_of_none hp ps pending lastLine
      have first : (⟨ps, pending ++ p.warnings, lastLine⟩ : Cursor) =
          past ⟨p :: ps, pending, lastLine⟩ [p] ps := by simp [past]
      refine ⟨p :: passed, ahead, congrArg (p :: ·) split, ?_, ?_, same ▸ ended⟩
      · rw [rest, same, ← rest, left, first, past_past]
        rfl
      · rw [same, List.filterMap_cons_none hp, items]
    | some item =>
      have found := next_cons_of_some hp ps pending lastLine
      rw [rest, found]
      refine ⟨[p], ps, rfl, by simp [past], List.filterMap_cons_some hp, ?_⟩
      intro none
      contradiction

theorem take_eq (n : Nat) (c : Cursor) : ∃ passed ahead, c.ahead = passed ++ ahead ∧
    c.take n = (passed.filterMap Piece.item?, c.past passed ahead) ∧
    passed.filterMap Piece.item? = (c.ahead.filterMap Piece.item?).take n ∧
    ahead.filterMap Piece.item? = (c.ahead.filterMap Piece.item?).drop n := by
  induction n generalizing c with
  | zero => exact ⟨[], c.ahead, rfl, by simp [take, past], rfl, rfl⟩
  | succ n ih =>
    -- A call passes over the pieces without an item, so no number of pieces goes with `n`.
    obtain ⟨passed, between, split, left, items, ended⟩ := c.next_eq
    cases h : c.next.1 with
    | none =>
      obtain rfl := ended h
      rw [h] at items
      refine ⟨passed, [], split, ?_, ?_, ?_⟩
      · rw [take, h, left, items]
        rfl
      · rw [split, List.append_nil, items]
        rfl
      · rw [split, List.append_nil, items]
        rfl
    | some item =>
      obtain ⟨more, ahead, split', taken, front, back⟩ := ih c.rest
      rw [h] at items
      rw [left] at split' taken front back
      refine ⟨passed ++ more, ahead, ?_, ?_, ?_, ?_⟩
      · rw [split, List.append_assoc, ← split']
        rfl
      · rw [take, h, left, taken, past_past, List.filterMap_append, items]
        rfl
      · rw [split, List.filterMap_append, List.filterMap_append, items, front]
        rfl
      · rw [split, List.filterMap_append, items, back]
        rfl

theorem next_rest_of_ended (ended : c.next.1 = none) : c.rest.next = (none, c.rest) := by
  obtain ⟨passed, ahead, -, left, -, nil⟩ := c.next_eq
  rw [left, nil ended]
  rfl

theorem next_iterate_of_ended (ended : c.next.1 = none) (n : Nat) :
    (rest^[n] c).next.1 = none := by
  cases n with
  | zero => exact ended
  | succ n =>
    have fixed : rest^[n] c.rest = c.rest :=
      Function.iterate_fixed (congrArg Prod.snd (next_rest_of_ended ended)) n
    rw [Function.iterate_succ_apply, fixed, next_rest_of_ended ended]

end Cursor

theorem Piece.bind_fault? (p : Piece) : p.item?.bind Item.fault? = p.fault? := by
  obtain ⟨shape, text, line⟩ := p
  cases shape <;> rfl

theorem filterMap_fault?_items (ps : List Piece) :
    (ps.filterMap Piece.item?).filterMap Item.fault? = ps.filterMap Piece.fault? := by
  rw [List.filterMap_filterMap]
  congr 1
  funext p
  exact p.bind_fault?

theorem Piece.entry_of_fault? {f : Fault} (h : p.fault? = some f) : f.Entry (.ofFault f) := by
  obtain ⟨cause, -, rfl⟩ := Option.map_eq_some_iff.1 h
  exact ⟨rfl, rfl, rfl, Diagnostic.render_ofFault_lexical p.lastLine cause⟩

theorem Without.warnings {ws : List Diagnostic} (all : ∀ d ∈ ws, d.severity = .warning)
    (h : Without fs ds kept) : Without fs (ws ++ ds) (ws ++ kept) := by
  induction ws with
  | nil => exact h
  | cons d ws ih =>
    obtain ⟨hd, all⟩ := List.forall_mem_cons.1 all
    exact .warning hd (ih all)

theorem without_faults (ps : List Piece) (ds : List Diagnostic) :
    Without (ps.filterMap Piece.fault?) (ps.flatMap Piece.diagnostics ++ ds)
      (ps.flatMap Piece.warnings ++ ds) := by
  induction ps with
  | nil => exact .nil
  | cons p ps ih =>
    rw [List.flatMap_cons, List.flatMap_cons, Piece.diagnostics, List.append_assoc,
      List.append_assoc, List.append_assoc]
    apply Without.warnings fun _ => p.severity_of_mem_warnings
    cases h : p.fault? with
    | none =>
      rw [List.filterMap_cons_none h]
      exact ih
    | some f =>
      rw [List.filterMap_cons_some h]
      exact .fault (p.entry_of_fault? h) ih

theorem filter_errors_eq_nil {ws : List Diagnostic} (all : ∀ d ∈ ws, d.severity = .warning) :
    ws.filter (·.severity = .error) = [] := by
  apply List.filter_eq_nil_iff.2
  intro d hd
  simp [all d hd]

theorem forall₂_entry_errors (ps : List Piece) : List.Forall₂ Fault.Entry
    (ps.filterMap Piece.fault?) ((ps.flatMap Piece.diagnostics).filter (·.severity = .error)) := by
  induction ps with
  | nil => exact .nil
  | cons p ps ih =>
    rw [List.flatMap_cons, List.filter_append, Piece.diagnostics, List.filter_append,
      filter_errors_eq_nil fun _ => p.severity_of_mem_warnings, List.nil_append]
    cases h : p.fault? with
    | none =>
      rw [List.filterMap_cons_none h]
      exact ih
    | some f =>
      rw [List.filterMap_cons_some h]
      exact .cons (p.entry_of_fault? h) ih

/-- Items that are taken first are those that come first, and a scan of what is left gives the rest:
the tokens behind those taken, and all diagnostics but the entries of the faults taken. -/
theorem take_then_finish (source : Text) (n : Nat) :
    let taken := (Cursor.ofSource source).take n
    (∃ items, (Cursor.ofSource source).Yields items ∧ taken.1 = items.take n ∧
      taken.2.Yields (items.drop n) ∧
      List.Forall₂ Fault.Entry ((items.drop n).filterMap Item.fault?)
        (taken.2.finish.diagnostics.filter (·.severity = .error))) ∧
    taken.1.filterMap Item.token? ++ taken.2.finish.tokens = (scan source).tokens ∧
    Without (taken.1.filterMap Item.fault?) (scan source).diagnostics
      taken.2.finish.diagnostics ∧
    ∀ k, n ≤ k → (Cursor.rest^[n] (Cursor.ofSource source)).next.1 = none →
      (Cursor.rest^[k] (Cursor.ofSource source)).next.1 = none := by
  obtain ⟨passed, ahead, split, taken, front, back⟩ := Cursor.take_eq n (Cursor.ofSource source)
  have whole : pieces 1 source = passed ++ ahead := split
  have diagnostics : ((Cursor.ofSource source).past passed ahead).finish.diagnostics =
      passed.flatMap Piece.warnings ++ ahead.flatMap Piece.diagnostics := by
    simp [Cursor.finish, Cursor.past, Cursor.ofSource]
  rw [taken]
  refine ⟨⟨(Cursor.ofSource source).ahead.filterMap Piece.item?, Cursor.yields_ahead _ _ _, front,
    ?_, ?_⟩, ?_, ?_, ?_⟩
  · rw [← back]
    exact Cursor.yields_ahead _ _ _
  · have warnings : ∀ d ∈ passed.flatMap Piece.warnings, d.severity = .warning := by
      intro d hd
      obtain ⟨p, -, hd⟩ := List.mem_flatMap.1 hd
      exact p.severity_of_mem_warnings hd
    rw [← back, filterMap_fault?_items, diagnostics, List.filter_append,
      filter_errors_eq_nil warnings]
    exact forall₂_entry_errors ahead
  · rw [filterMap_token?_items, tokens_scan, whole, List.filterMap_append, List.append_assoc]
    rfl
  · rw [filterMap_fault?_items, diagnostics, diagnostics_scan, whole, List.flatMap_append]
    exact without_faults passed _
  · intro k later ended
    obtain ⟨more, rfl⟩ := Nat.exists_eq_add_of_le later
    rw [Nat.add_comm, Function.iterate_add_apply]
    exact Cursor.next_iterate_of_ended ended more

end LoxLexer
