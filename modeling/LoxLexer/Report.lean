import LoxLexer.Lexical.Cursor

namespace LoxLexer

structure Report where
  entries : Array Diagnostic := #[]
  hasErrors : Bool := false
  deriving DecidableEq

namespace Report

def add (r : Report) (d : Diagnostic) : Report :=
  ⟨r.entries.push d, r.hasErrors || d.severity = .error⟩

def addAll (r : Report) (ds : List Diagnostic) : Report := ds.foldl add r

def isEmpty (r : Report) : Bool := r.entries.isEmpty

def errors (r : Report) : List Diagnostic := r.entries.toList.filter (·.severity = .error)

def warnings (r : Report) : List Diagnostic := r.entries.toList.filter (·.severity = .warning)

@[simp] theorem toList_entries_add (r : Report) (d : Diagnostic) :
    (r.add d).entries.toList = r.entries.toList ++ [d] := by simp [add]

@[simp] theorem toList_entries_addAll (r : Report) (ds : List Diagnostic) :
    (r.addAll ds).entries.toList = r.entries.toList ++ ds := by
  induction ds generalizing r with
  | nil => simp [addAll]
  | cons d ds ih => simpa [addAll] using ih (r.add d)

inductive Change
  | error (line : Nat) (message : String)
  | warning (line : Nat) (message : String)
  | fault (f : Fault)
  | entry (d : Diagnostic)
  | scan (source : Text)
  | clear
  deriving DecidableEq

namespace Change

def diagnostics : Change → List Diagnostic
  | .error line message => [.error line message]
  | .warning line message => [.warning line message]
  | .fault f => [.ofFault f]
  | .entry d => [d]
  | .scan source => (LoxLexer.scan source).diagnostics
  | .clear => []

def tokens : Change → List Token
  | .scan source => (LoxLexer.scan source).tokens
  | _ => []

def events : Change → Array Event
  | .scan source => scanEvents source
  | change => (change.diagnostics.map Event.reported).toArray

end Change

def apply (r : Report) : Change → Report
  | .clear => {}
  | change => r.addAll change.diagnostics

end Report

end LoxLexer
