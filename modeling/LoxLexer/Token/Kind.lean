import LoxLexer.Text

namespace LoxLexer

inductive Kind
  | leftParen | rightParen | leftBrace | rightBrace
  | comma | dot | minus | plus | semicolon | slash | star
  | bang | bangEqual | equal | equalEqual
  | greater | greaterEqual | less | lessEqual
  | identifier | string | number
  | andWord | classWord | elseWord | falseWord | funWord | forWord | ifWord | nilWord | orWord
  | printWord | returnWord | superWord | thisWord | trueWord | varWord | whileWord
  | eof
  deriving DecidableEq

namespace Kind

def all : List Kind :=
  [.leftParen, .rightParen, .leftBrace, .rightBrace,
    .comma, .dot, .minus, .plus, .semicolon, .slash, .star,
    .bang, .bangEqual, .equal, .equalEqual, .greater, .greaterEqual, .less, .lessEqual,
    .identifier, .string, .number,
    .andWord, .classWord, .elseWord, .falseWord, .funWord, .forWord, .ifWord, .nilWord, .orWord,
    .printWord, .returnWord, .superWord, .thisWord, .trueWord, .varWord, .whileWord,
    .eof]

def name : Kind → String
  | .leftParen => "LEFT_PAREN"
  | .rightParen => "RIGHT_PAREN"
  | .leftBrace => "LEFT_BRACE"
  | .rightBrace => "RIGHT_BRACE"
  | .comma => "COMMA"
  | .dot => "DOT"
  | .minus => "MINUS"
  | .plus => "PLUS"
  | .semicolon => "SEMICOLON"
  | .slash => "SLASH"
  | .star => "STAR"
  | .bang => "BANG"
  | .bangEqual => "BANG_EQUAL"
  | .equal => "EQUAL"
  | .equalEqual => "EQUAL_EQUAL"
  | .greater => "GREATER"
  | .greaterEqual => "GREATER_EQUAL"
  | .less => "LESS"
  | .lessEqual => "LESS_EQUAL"
  | .identifier => "IDENTIFIER"
  | .string => "STRING"
  | .number => "NUMBER"
  | .andWord => "AND"
  | .classWord => "CLASS"
  | .elseWord => "ELSE"
  | .falseWord => "FALSE"
  | .funWord => "FUN"
  | .forWord => "FOR"
  | .ifWord => "IF"
  | .nilWord => "NIL"
  | .orWord => "OR"
  | .printWord => "PRINT"
  | .returnWord => "RETURN"
  | .superWord => "SUPER"
  | .thisWord => "THIS"
  | .trueWord => "TRUE"
  | .varWord => "VAR"
  | .whileWord => "WHILE"
  | .eof => "EOF"

def spelling? : Kind → Option Text
  | .leftParen => some ['(']
  | .rightParen => some [')']
  | .leftBrace => some ['{']
  | .rightBrace => some ['}']
  | .comma => some [',']
  | .dot => some ['.']
  | .minus => some ['-']
  | .plus => some ['+']
  | .semicolon => some [';']
  | .slash => some ['/']
  | .star => some ['*']
  | .bang => some ['!']
  | .bangEqual => some ['!', '=']
  | .equal => some ['=']
  | .equalEqual => some ['=', '=']
  | .greater => some ['>']
  | .greaterEqual => some ['>', '=']
  | .less => some ['<']
  | .lessEqual => some ['<', '=']
  | .identifier | .string | .number | .eof => none
  | .andWord => some ['a', 'n', 'd']
  | .classWord => some ['c', 'l', 'a', 's', 's']
  | .elseWord => some ['e', 'l', 's', 'e']
  | .falseWord => some ['f', 'a', 'l', 's', 'e']
  | .funWord => some ['f', 'u', 'n']
  | .forWord => some ['f', 'o', 'r']
  | .ifWord => some ['i', 'f']
  | .nilWord => some ['n', 'i', 'l']
  | .orWord => some ['o', 'r']
  | .printWord => some ['p', 'r', 'i', 'n', 't']
  | .returnWord => some ['r', 'e', 't', 'u', 'r', 'n']
  | .superWord => some ['s', 'u', 'p', 'e', 'r']
  | .thisWord => some ['t', 'h', 'i', 's']
  | .trueWord => some ['t', 'r', 'u', 'e']
  | .varWord => some ['v', 'a', 'r']
  | .whileWord => some ['w', 'h', 'i', 'l', 'e']

def keywords : List (Text × Kind) :=
  [(['a', 'n', 'd'], .andWord),
    (['c', 'l', 'a', 's', 's'], .classWord),
    (['e', 'l', 's', 'e'], .elseWord),
    (['f', 'a', 'l', 's', 'e'], .falseWord),
    (['f', 'o', 'r'], .forWord),
    (['f', 'u', 'n'], .funWord),
    (['i', 'f'], .ifWord),
    (['n', 'i', 'l'], .nilWord),
    (['o', 'r'], .orWord),
    (['p', 'r', 'i', 'n', 't'], .printWord),
    (['r', 'e', 't', 'u', 'r', 'n'], .returnWord),
    (['s', 'u', 'p', 'e', 'r'], .superWord),
    (['t', 'h', 'i', 's'], .thisWord),
    (['t', 'r', 'u', 'e'], .trueWord),
    (['v', 'a', 'r'], .varWord),
    (['w', 'h', 'i', 'l', 'e'], .whileWord)]

def ofWord (word : Text) : Kind := (keywords.lookup word).getD .identifier

def ofChar? : Char → Option Kind
  | '(' => some .leftParen
  | ')' => some .rightParen
  | '{' => some .leftBrace
  | '}' => some .rightBrace
  | ',' => some .comma
  | '.' => some .dot
  | '-' => some .minus
  | '+' => some .plus
  | ';' => some .semicolon
  | '*' => some .star
  | '!' => some .bang
  | '=' => some .equal
  | '<' => some .less
  | '>' => some .greater
  | '/' => some .slash
  | _ => none

def withEqual? : Kind → Option Kind
  | .bang => some .bangEqual
  | .equal => some .equalEqual
  | .greater => some .greaterEqual
  | .less => some .lessEqual
  | _ => none

theorem spelling_withEqual? {k longer : Kind} (h : k.withEqual? = some longer) :
    longer.spelling? = k.spelling?.map (· ++ ['=']) := by
  cases k <;> simp [withEqual?] at h <;> subst h <;> rfl

end Kind

end LoxLexer
