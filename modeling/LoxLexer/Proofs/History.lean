import Mathlib.Data.List.DropRight
import LoxLexer.Report

namespace LoxLexer.Report

def holding (ds : List Diagnostic) : Report := ⟨ds.toArray, ds.any (·.severity = .error)⟩

def replay (r : Report) (history : List Change) : Report := history.foldl apply r

def sinceClear (history : List Change) : List Diagnostic :=
  (history.rtakeWhile (· ≠ .clear)).flatMap Change.diagnostics

theorem addAll_holding (ds more : List Diagnostic) :
    (holding ds).addAll more = holding (ds ++ more) := by
  induction more generalizing ds with
  | nil => rw [List.append_nil]; rfl
  | cons d more ih =>
    have first : (holding ds).add d = holding (ds ++ [d]) := by simp [holding, add]
    rw [List.append_cons, ← ih, ← first]
    rfl

theorem apply_of_ne_clear {change : Change} (h : change ≠ .clear) (r : Report) :
    r.apply change = r.addAll change.diagnostics := by
  cases change with
  | clear => contradiction
  | _ => rfl

theorem replay_append (r : Report) (earlier later : List Change) :
    r.replay (earlier ++ later) = (r.replay earlier).replay later := List.foldl_append

theorem sinceClear_concat (history : List Change) (change : Change) :
    sinceClear (history ++ [change]) =
      if change = .clear then [] else sinceClear history ++ change.diagnostics := by
  rw [sinceClear, List.rtakeWhile_concat]
  by_cases h : change = .clear <;> simp [h, sinceClear]

theorem replay_empty (history : List Change) :
    replay {} history = holding (sinceClear history) := by
  induction history using List.reverseRecOn with
  | nil => rfl
  | append_singleton history change ih =>
    rw [replay_append, ih, sinceClear_concat]
    change (holding (sinceClear history)).apply change = _
    split
    next h => rw [h]; rfl
    next h => rw [apply_of_ne_clear h, addAll_holding]

end LoxLexer.Report
