import LoxLexer.Lexical.Shape
import LoxLexer.Token
import LoxLexer.Diagnostic

/-!
A source falls into pieces that lie end to end and together are the source. A piece is a token, or
something skipped, or a fault; a block comment also raises a warning at every `/*` inside it.

A token or fault has the line on which its piece ends, which is where scanning stood when it was
recognised. A warning has the line of its `/*`.
-/

namespace LoxLexer

inductive Item
  | token (t : Token)
  | fault (f : Fault)
  deriving DecidableEq

structure Piece where
  shape : Shape
  text : Text
  line : Nat
  deriving DecidableEq

/-- The lines of all places at which `/*` stands, also where its star belongs to a `*/`. -/
def openersOnto (found : List Nat) (line : Nat) : Text → List Nat
  | [] => found.reverse
  | c :: rest =>
    openersOnto (if c = '/' ∧ rest.head? = some '*' then line :: found else found)
      (if c = '\n' then line + 1 else line) rest

def openers (line : Nat) (text : Text) : List Nat := openersOnto [] line text

theorem openersOnto_eq (found : List Nat) (line : Nat) (text : Text) :
    openersOnto found line text = found.reverse ++ openers line text := by
  induction text generalizing found line with
  | nil => simp [openers, openersOnto]
  | cons c rest ih =>
    simp only [openers, openersOnto]
    rw [ih, ih (if c = '/' ∧ rest.head? = some '*' then [line] else [])]
    split <;> simp

@[simp] theorem openers_nil (line : Nat) : openers line [] = [] := rfl

theorem openers_cons (line : Nat) (c : Char) (rest : Text) :
    openers line (c :: rest) =
      (if c = '/' ∧ rest.head? = some '*' then [line] else []) ++
        openers (if c = '\n' then line + 1 else line) rest := by
  rw [openers, openersOnto, openersOnto_eq]
  split <;> rfl

namespace Piece

def lastLine (p : Piece) : Nat := p.line + p.text.lineFeeds

def token? (p : Piece) : Option Token :=
  match p.shape with
  | .plain kind => some (.plain kind p.text p.lastLine)
  | .number => some (.number p.text (.ofDecimal (.ofNumeral p.text)) p.lastLine)
  | .string => some (.string p.text p.text.tail.dropLast p.lastLine)
  | _ => none

def cause? (p : Piece) : Option LexicalFault :=
  match p.shape with
  | .stray c => some (.unexpectedCharacter c)
  | .openString => some .unterminatedString
  | .openComment => some .unterminatedComment
  | _ => none

def fault? (p : Piece) : Option Fault := p.cause?.map (.lexical p.lastLine)

def item? (p : Piece) : Option Item := p.token?.map .token <|> p.fault?.map .fault

def warnings (p : Piece) : List Diagnostic :=
  match p.shape with
  | .blockComment | .openComment => (openers p.line (p.text.drop 2)).map .nestedComment
  | _ => []

def diagnostics (p : Piece) : List Diagnostic :=
  p.warnings ++ (p.fault?.map .ofFault).toList

end Piece

/-- The first `skip` characters belong to the piece before. -/
def piecesOnto (done : List Piece) (line skip : Nat) : Text → List Piece
  | [] => done.reverse
  | c :: rest =>
    match skip with
    | skip + 1 => piecesOnto done line skip rest
    | 0 =>
      let (shape, more) := Shape.munch c rest
      let text : Text := c :: rest.take more
      piecesOnto (⟨shape, text, line⟩ :: done) (line + text.lineFeeds) more rest

def pieces (line : Nat) (source : Text) : List Piece := piecesOnto [] line 0 source

theorem piecesOnto_eq (done : List Piece) (line skip : Nat) (source : Text) :
    piecesOnto done line skip source = done.reverse ++ pieces line (source.drop skip) := by
  induction source generalizing done line skip with
  | nil => simp [pieces, piecesOnto]
  | cons c rest ih =>
    cases skip with
    | succ skip => simp [piecesOnto, ih]
    | zero =>
      simp only [pieces, piecesOnto, List.drop_zero]
      rw [ih, ih [_]]
      simp

@[simp] theorem pieces_nil (line : Nat) : pieces line [] = [] := rfl

theorem pieces_cons (line : Nat) (c : Char) (rest : Text) :
    pieces line (c :: rest) =
      let (shape, more) := Shape.munch c rest
      let text : Text := c :: rest.take more
      ⟨shape, text, line⟩ :: pieces (line + text.lineFeeds) (rest.drop more) := by
  simp only [pieces, piecesOnto]
  rw [piecesOnto_eq]
  rfl

@[simp] theorem flatMap_text_pieces (line : Nat) (source : Text) :
    (pieces line source).flatMap Piece.text = source := by
  induction h : source.length using Nat.strongRecOn generalizing line source with
  | ind n ih =>
    cases source with
    | nil => rfl
    | cons c rest =>
      rw [pieces_cons, List.flatMap_cons, ih _ _ _ _ rfl]
      · simp
      · simp only [List.length_drop, List.length_cons] at h ⊢
        omega

end LoxLexer
