/-! Kinds of tokens, the spellings that decide them, and the groups of operators. -/
namespace Reckon

inductive Kind where
  | leftParen | rightParen | leftBrace | rightBrace | comma | dot | minus | plus | semicolon
  | slash | star
  | bang | bangEqual | equal | equalEqual | greater | greaterEqual | less | lessEqual
  | identifier | string | number
  | andWord | classWord | elseWord | falseWord | funWord | forWord | ifWord | nilWord | orWord
  | printWord | returnWord | superWord | thisWord | trueWord | varWord | whileWord
  | eof | unknown
deriving DecidableEq, Repr

namespace Kind

def all : List Kind :=
  [leftParen, rightParen, leftBrace, rightBrace, comma, dot, minus, plus, semicolon, slash, star,
   bang, bangEqual, equal, equalEqual, greater, greaterEqual, less, lessEqual,
   identifier, string, number,
   andWord, classWord, elseWord, falseWord, funWord, forWord, ifWord, nilWord, orWord,
   printWord, returnWord, superWord, thisWord, trueWord, varWord, whileWord, eof, unknown]

def name : Kind → String
  | leftParen => "LEFT_PAREN"
  | rightParen => "RIGHT_PAREN"
  | leftBrace => "LEFT_BRACE"
  | rightBrace => "RIGHT_BRACE"
  | comma => "COMMA"
  | dot => "DOT"
  | minus => "MINUS"
  | plus => "PLUS"
  | semicolon => "SEMICOLON"
  | slash => "SLASH"
  | star => "STAR"
  | bang => "BANG"
  | bangEqual => "BANG_EQUAL"
  | equal => "EQUAL"
  | equalEqual => "EQUAL_EQUAL"
  | greater => "GREATER"
  | greaterEqual => "GREATER_EQUAL"
  | less => "LESS"
  | lessEqual => "LESS_EQUAL"
  | identifier => "IDENTIFIER"
  | string => "STRING_LITERAL"
  | number => "NUMBER_LITERAL"
  | andWord => "AND"
  | classWord => "CLASS"
  | elseWord => "ELSE"
  | falseWord => "FALSE"
  | funWord => "FUN"
  | forWord => "FOR"
  | ifWord => "IF"
  | nilWord => "NIL"
  | orWord => "OR"
  | printWord => "PRINT"
  | returnWord => "RETURN"
  | superWord => "SUPER"
  | thisWord => "THIS"
  | trueWord => "TRUE"
  | varWord => "VAR"
  | whileWord => "WHILE"
  | eof => "EOF"
  | unknown => "UNKNOWN"

def ofName? (s : String) : Option Kind :=
  all.find? (·.name == s)

def punctuation : List (Char × Kind) :=
  [('(', leftParen), (')', rightParen), ('*', star), ('+', plus), (',', comma), ('-', minus),
   ('.', dot), ('/', slash), (';', semicolon), ('\x7b', leftBrace), ('\x7d', rightBrace)]

/-- Characters that are tokens and join a following `=`: the kind alone, then the kind joined. -/
def joinable : List (Char × Kind × Kind) :=
  [('!', bang, bangEqual), ('<', less, lessEqual), ('=', equal, equalEqual),
   ('>', greater, greaterEqual)]

def reserved : List (String × Kind) :=
  [("and", andWord), ("class", classWord), ("else", elseWord), ("false", falseWord),
   ("for", forWord), ("fun", funWord), ("if", ifWord), ("nil", nilWord), ("or", orWord),
   ("print", printWord), ("return", returnWord), ("super", superWord), ("this", thisWord),
   ("true", trueWord), ("var", varWord), ("while", whileWord)]

def ofWord (s : String) : Kind :=
  (reserved.lookup s).getD identifier

def signs : List Kind := [plus, minus]

def sums : List Kind := [plus, minus]

def products : List Kind := [star, slash]

def arithmetic : List Kind := sums ++ products

def equalities : List Kind := [bangEqual, equalEqual]

def comparisons : List Kind := [greater, greaterEqual, less, lessEqual]

end Kind
end Reckon
