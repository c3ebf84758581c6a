import LoxLexer.Proofs.Feed
import LoxLexer.Proofs.Numerals

/-!
Scanning character by character. A walker keeps its place twice, as byte offsets into the source and
in the feed it takes the characters from, and cuts lexemes out of the source at the offsets. Each
step takes one character at most, so every place between two advances is a state.
-/

namespace LoxLexer

inductive Stretch
  | lineComment
  | string (lineFeeds : Nat)
  | whole
  | places
  | word
  deriving DecidableEq

namespace Stretch

def goesOn : Stretch → Char → Bool
  | .lineComment, c => c ≠ '\n'
  | .string _, c => c ≠ '"'
  | .whole, c => c.isDigit
  | .places, c => c.isDigit
  | .word, c => isWordPart c

def past (c : Char) : Stretch → Stretch
  | .string lineFeeds => .string (if c = '\n' then lineFeeds + 1 else lineFeeds)
  | stretch => stretch

end Stretch

inductive Taken
  | plain (kind : Kind)
  | word
  | number
  | string
  deriving DecidableEq

inductive Phase
  | between
  | began (c : Char)
  | taking (stretch : Stretch)
  | commenting (openedOn : Nat)
  | closing
  | ending (taken : Taken)
  deriving DecidableEq

structure Walker (F : Feed) where
  chars : F.State
  start : Nat
  current : Nat
  line : Nat
  pending : Array Diagnostic
  phase : Phase

/-- What a step leads to. A lexeme that cannot be cut out is a failure. Something is told only on
the way to an item. -/
inductive Move (F : Feed)
  | on (w : Walker F)
  | give (told : List Event) (item : Item) (w : Walker F)
  | halt (w : Walker F)
  | fail

variable {F : Feed}

namespace Walker

def ofSource (source : Text) : Walker F := ⟨F.wrap (Text.indexed 0 source), 0, 0, 1, #[], .between⟩

def advance (w : Walker F) : Option Char × Walker F :=
  match F.next w.chars with
  | (none, chars) => (none, { w with chars })
  | (some (offset, c), chars) => (some c, { w with chars, current := offset + c.utf8Size })

def peek (w : Walker F) : Option Char × Walker F :=
  ((F.peek w.chars).1.map Prod.snd, { w with chars := (F.peek w.chars).2 })

def peekSecond (w : Walker F) : Option Char × Walker F :=
  ((F.peekSecond w.chars).1.map Prod.snd, { w with chars := (F.peekSecond w.chars).2 })

def takes (w : Walker F) (c : Char) : Bool × Walker F :=
  let (next?, w) := w.peek
  if next? = some c then (true, w.advance.2) else (false, w)

def restart (w : Walker F) : Walker F := { w with start := w.current }

def enter (w : Walker F) (phase : Phase) : Walker F := { w with phase }

def lexeme? (w : Walker F) (source : Text) : Option Text := source.slice? w.start w.current

def fault (w : Walker F) (told : List Event) (cause : LexicalFault) : Move F :=
  .give told (.fault (.lexical w.line cause)) (w.enter .between)

def beginSlash (w : Walker F) : Move F :=
  let (line, w) := w.takes '/'
  if line then .on (w.enter (.taking .lineComment))
  else
    let (block, w) := w.takes '*'
    .on (w.enter (if block then .commenting w.line else .ending (.plain .slash)))

def beginSymbol (w : Walker F) (kind : Kind) : Move F :=
  match kind.withEqual? with
  | none => .on (w.enter (.ending (.plain kind)))
  | some longer =>
    let (equal, w) := w.takes '='
    .on (w.enter (.ending (.plain (if equal then longer else kind))))

def begin (w : Walker F) (c : Char) : Move F :=
  if c = '/' then w.beginSlash
  else match Kind.ofChar? c with
    | some kind => w.beginSymbol kind
    | none =>
      if c = ' ' ∨ c = '\r' ∨ c = '\t' then .on (w.enter .between)
      else if c = '\n' then .on ({ w with line := w.line + 1 }.enter .between)
      else if c = '"' then .on (w.enter (.taking (.string 0)))
      else if c.isDigit then .on (w.enter (.taking .whole))
      else if isWordStart c then .on (w.enter (.taking .word))
      else w.fault [] (.unexpectedCharacter c)

def leaveWhole (w : Walker F) : Move F :=
  let (next?, w) := w.peek
  if next? = some '.' then
    let (second?, w) := w.peekSecond
    if second?.any Char.isDigit then .on (w.advance.2.enter (.taking .places))
    else .on (w.enter (.ending .number))
  else .on (w.enter (.ending .number))

def leaveString (w : Walker F) : Move F :=
  match w.advance with
  | (none, w) => w.fault [] .unterminatedString
  | (some _, w) => .on (w.enter (.ending .string))

def leave (w : Walker F) : Stretch → Move F
  | .lineComment => .on (w.enter .between)
  | .string lineFeeds => leaveString { w with line := w.line + lineFeeds }
  | .whole => w.leaveWhole
  | .places => .on (w.enter (.ending .number))
  | .word => .on (w.enter (.ending .word))

def take (w : Walker F) (stretch : Stretch) : Move F :=
  match w.peek with
  | (none, w) => w.leave stretch
  | (some c, w) =>
    if stretch.goesOn c then .on (w.advance.2.enter (.taking (stretch.past c))) else w.leave stretch

def warn (w : Walker F) : Walker F :=
  { w with pending := w.pending.push (.nestedComment w.line) }

def passInside (w : Walker F) (openedOn : Nat) (c : Char) : Move F :=
  if c = '*' then
    let (second?, w) := w.peekSecond
    .on (w.advance.2.enter (if second? = some '/' then .closing else .commenting openedOn))
  else if c = '/' then
    let (second?, w) := w.peekSecond
    .on (if second? = some '*' then w.warn else w).advance.2
  else if c = '\n' then .on { w with line := w.line + 1 }.advance.2
  else .on w.advance.2

def comment (w : Walker F) (openedOn : Nat) : Move F :=
  match w.peek with
  | (none, w) => w.fault [.ranOut openedOn] .unterminatedComment
  | (some c, w) => w.passInside openedOn c

def value? (w : Walker F) (source : Text) : Option Text :=
  if w.current = 0 then none else source.slice? (w.start + 1) (w.current - 1)

def token? (w : Walker F) (source : Text) : Taken → Option Token
  | .plain kind => return .plain kind (← w.lexeme? source) w.line
  | .word => do
    let lexeme ← w.lexeme? source
    return .plain (.ofWord lexeme) lexeme w.line
  | .number => do
    let lexeme ← w.lexeme? source
    return .number lexeme ((Binary64.read? lexeme).getD .zero) w.line
  | .string => do
    let value ← w.value? source
    return .string (← w.lexeme? source) value w.line

def step (source : Text) (w : Walker F) : Move F :=
  match w.phase with
  | .between =>
    match w.restart.advance with
    | (none, w) => .halt w
    | (some c, w) => .on (w.enter (.began c))
  | .began c => w.begin c
  | .taking stretch => w.take stretch
  | .commenting openedOn => w.comment openedOn
  | .closing => .on (w.advance.2.enter .between)
  | .ending taken =>
    match w.token? source taken with
    | none => .fail
    | some t => .give [] (.token t) (w.enter .between)

/-- The states of all runs. Warnings are handed over between two items. -/
inductive Reached (source : Text) : Walker F → Prop
  | start : Reached source (ofSource source)
  | on : Reached source w → w.step source = .on w' → Reached source w'
  | give : Reached source w → w.step source = .give told item w' → Reached source w'
  | halt : Reached source w → w.step source = .halt w' → Reached source w'
  | flush : Reached source w → w.phase = .between → Reached source { w with pending := #[] }

inductive Next (source : Text) : Walker F → Option Item → List Event → Walker F → Prop
  | on : w.step source = .on w' → Next source w' item? told w'' → Next source w item? told w''
  | give : w.step source = .give told item w' → Next source w (some item) told w'
  | halt : w.step source = .halt w' → Next source w none [] w'

/-- Calls until there are no more items, with so many tokens found before. The warnings kept are
handed over before each item, and at the end; each diagnostic is told of as it is handed over. -/
inductive Scans (source : Text) :
    Nat → Walker F → List Token → List Diagnostic → List Event → Prop
  | token : Next source w (some (.token t)) told w' →
      Scans source (n + 1) { w' with pending := #[] } tokens diagnostics events →
      Scans source n w (t :: tokens) (w'.pending.toList ++ diagnostics)
        (told ++ w'.pending.toList.map .reported ++ .scanned t :: events)
  | fault : Next source w (some (.fault f)) told w' →
      Scans source n { w' with pending := #[] } tokens diagnostics events →
      Scans source n w tokens (w'.pending.toList ++ .ofFault f :: diagnostics)
        (told ++ w'.pending.toList.map .reported ++ .reported (.ofFault f) :: events)
  | ended : Next source w none told w' →
      Scans source n w [.endOfInput w'.line] w'.pending.toList
        (told ++ w'.pending.toList.map .reported ++ [.finished (n + 1) w'.line])

end Walker

end LoxLexer
