import Lox.Decimal.Layout

namespace Lox

inductive TokenKind where
  | leftParen | rightParen | leftBrace | rightBrace
  | comma | dot | minus | plus | semicolon | slash | star
  | bang | bangEqual | equal | equalEqual | greater | greaterEqual | less | lessEqual
  | identifier | string | number
  | andWord | classWord | elseWord | falseWord | funWord | forWord | ifWord | nilWord | orWord
  | printWord | returnWord | superWord | thisWord | trueWord | varWord | whileWord
  | eof
  deriving DecidableEq, Inhabited, Repr

namespace TokenKind

def names : List (TokenKind × String) :=
  [(leftParen, "LEFT_PAREN"), (rightParen, "RIGHT_PAREN"), (leftBrace, "LEFT_BRACE"),
   (rightBrace, "RIGHT_BRACE"), (comma, "COMMA"), (dot, "DOT"), (minus, "MINUS"), (plus, "PLUS"),
   (semicolon, "SEMICOLON"), (slash, "SLASH"), (star, "STAR"), (bang, "BANG"),
   (bangEqual, "BANG_EQUAL"), (equal, "EQUAL"), (equalEqual, "EQUAL_EQUAL"),
   (greater, "GREATER"), (greaterEqual, "GREATER_EQUAL"), (less, "LESS"),
   (lessEqual, "LESS_EQUAL"), (identifier, "IDENTIFIER"), (string, "STRING"),
   (number, "NUMBER"), (andWord, "AND"), (classWord, "CLASS"), (elseWord, "ELSE"),
   (falseWord, "FALSE"), (funWord, "FUN"), (forWord, "FOR"), (ifWord, "IF"), (nilWord, "NIL"),
   (orWord, "OR"), (printWord, "PRINT"), (returnWord, "RETURN"), (superWord, "SUPER"),
   (thisWord, "THIS"), (trueWord, "TRUE"), (varWord, "VAR"), (whileWord, "WHILE"),
   (eof, "EOF")]

def name (kind : TokenKind) : String := (names.lookup kind).getD ""

def ofName? (name : String) : Option TokenKind := (names.find? (·.2 == name)).map (·.1)

def keywords : List (String × TokenKind) :=
  [("and", andWord), ("class", classWord), ("else", elseWord), ("false", falseWord),
   ("fun", funWord), ("for", forWord), ("if", ifWord), ("nil", nilWord), ("or", orWord),
   ("print", printWord), ("return", returnWord), ("super", superWord), ("this", thisWord),
   ("true", trueWord), ("var", varWord), ("while", whileWord)]

def ofWord (word : String) : TokenKind := (keywords.lookup word).getD identifier

theorem ofName?_name (kind : TokenKind) : ofName? kind.name = some kind := by
  cases kind <;> decide

end TokenKind

inductive Literal where
  | number (value : Float)
  | string (text : String)
  deriving Inhabited, Repr

def Literal.text : Literal → String
  | .number value => NumberStyle.inToken.write value
  | .string text => text

/-- A piece of source text with its kind and the line on which it ends. -/
structure Token where
  kind : TokenKind
  lexeme : String
  literal? : Option Literal
  line : Nat
  deriving Inhabited, Repr

def Token.text (token : Token) : String :=
  token.kind.name ++ " " ++ token.lexeme ++ " " ++ (token.literal?.map Literal.text).getD "null"

end Lox
