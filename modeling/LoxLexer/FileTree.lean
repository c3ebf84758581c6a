import LoxLexer.Fault

namespace LoxLexer

structure FileTree where
  directories : List (List String) := []
  files : List (List String × ByteArray) := []

inductive Place
  | inside (path : List String)
  | above
  deriving DecidableEq

def Place.parent : Place → Place
  | .above | .inside [] => .above
  | .inside (name :: path) => .inside (name :: path).dropLast

inductive Node
  | directory
  | file (contents : ByteArray)

namespace FileTree

/-- The components of a path. An empty one, as at either end or between two slashes, stands for the
directory it is in. -/
def components (path : String) : List String :=
  (path.toList.splitOn '/').map String.ofList

def ofNames (directories : List String) (files : List (String × ByteArray)) : FileTree :=
  let named (name : String) := (components name).filter (! ·.isEmpty)
  ⟨directories.map named, files.map fun (name, contents) => (named name, contents)⟩

def isDirectory (t : FileTree) (path : List String) : Bool :=
  path.isEmpty || t.directories.any path.isPrefixOf || t.files.any (path.isPrefixOf ·.1)

def node? (t : FileTree) : Place → Option Node
  | .above => some .directory
  | .inside path =>
    match t.files.lookup path with
    | some contents => some (.file contents)
    | none => if t.isDirectory path then some .directory else none

def maxName : Nat := 255

/-- One byte more than the longest path, which a NUL follows. -/
def pathLimit : Nat := 4096

def lookUp (t : FileTree) (place : Place) (name : String) : Except IoFault Place :=
  if maxName < name.utf8ByteSize then .error .nameTooLong
  else match place with
    | .above => .error .notFound
    | .inside path =>
      match t.node? (.inside (path ++ [name])) with
      | none => .error .notFound
      | some _ => .ok (.inside (path ++ [name]))

def enter (t : FileTree) (place : Place) (name : String) : Except IoFault Place :=
  match t.node? place with
  | none => .error .notFound
  | some (.file _) => .error .notDirectory
  | some .directory =>
    if name = "" ∨ name = "." then .ok place
    else if name = ".." then .ok (place.parent)
    else t.lookUp place name

def resolve (t : FileTree) (path : String) : Except IoFault Place :=
  (components path).foldlM t.enter (if path.toList.head? = some '/' then .above else .inside [])

def read (t : FileTree) (path : String) : Except IoFault ByteArray :=
  if path.toList.contains '\x00' then .error .nulInPath
  else if path.isEmpty then .error .notFound
  else if pathLimit ≤ path.utf8ByteSize then .error .nameTooLong
  else do
    match t.node? (← t.resolve path) with
    | none => .error .notFound
    | some .directory => .error .isDirectory
    | some (.file contents) => .ok contents

structure IsName (name : String) : Prop where
  slash : '/' ∉ name.toList
  nul : '\x00' ∉ name.toList
  special : name ∉ ["", ".", ".."]
  short : name.utf8ByteSize ≤ maxName

def contents (t : FileTree) (path : List String) : Except IoFault ByteArray :=
  match t.node? (.inside path) with
  | none => .error .notFound
  | some .directory => .error .isDirectory
  | some (.file contents) => .ok contents

theorem components_of_isName {name : String} (h : IsName name) : components name = [name] := by
  rw [components, List.splitOn_eq_singleton h.slash]
  simp

theorem read_of_isName (t : FileTree) (root : t.files.lookup [] = none) {name : String}
    (h : IsName name) : t.read name = t.contents [name] := by
  have special := h.special
  have short := h.short
  simp only [List.mem_cons, List.not_mem_nil, or_false, not_or] at special
  have nonempty : name.isEmpty = false := by simpa using special.1
  have fits : ¬ pathLimit ≤ name.utf8ByteSize := by simp [pathLimit, maxName] at short ⊢; omega
  have first : name.toList.head? ≠ some '/' := fun head => h.slash (List.mem_of_head? head)
  have start : t.node? (.inside []) = some .directory := by
    simp [node?, root, isDirectory]
  have entered : t.enter (.inside []) name =
      match t.node? (.inside [name]) with
      | none => .error .notFound
      | some _ => .ok (.inside [name]) := by
    simp only [enter, start, special, lookUp, or_self, if_false, if_neg (Nat.not_lt.2 short)]
    rfl
  rw [read, if_neg (by simpa using h.nul), if_neg (by simp [nonempty]), if_neg fits, resolve,
    components_of_isName h, if_neg first, List.foldlM_cons, entered, contents]
  cases found : t.node? (.inside [name]) with
  | none => rfl
  | some node =>
    change (match t.node? (.inside [name]) with
      | none => Except.error IoFault.notFound
      | some .directory => .error .isDirectory
      | some (.file contents) => .ok contents) = _
    rw [found]

end FileTree

end LoxLexer
