import Lox.Token.Basic

namespace Lox

/-- The most parameters of a function and the most arguments of a call. -/
def maxArity : Nat := 8

inductive LexicalError.Cause where
  | unexpectedCharacter (shown : String)
  | unterminatedString
  deriving DecidableEq, Repr

structure LexicalError where
  cause : LexicalError.Cause
  line : Nat
  deriving DecidableEq, Repr

def LexicalError.Cause.message : LexicalError.Cause → String
  | .unexpectedCharacter shown => "Unexpected character: " ++ shown
  | .unterminatedString => "Unterminated string."

inductive CallableKind where
  | function
  | method
  deriving DecidableEq, Repr

def CallableKind.word : CallableKind → String
  | .function => "function"
  | .method => "method"

inductive SyntaxError.Cause where
  | className | superclassName | classBodyStart | classBodyEnd
  | callableName (kind : CallableKind)
  | parametersStart (kind : CallableKind)
  | parameterName | parametersEnd | tooManyParameters
  | callableBodyStart (kind : CallableKind)
  | variableName | variableEnd
  | forStart | forConditionEnd | forClausesEnd
  | ifStart | ifConditionEnd
  | printEnd | returnEnd
  | whileStart | whileConditionEnd
  | blockEnd | expressionStatementEnd
  | assignmentTarget
  | propertyName | argumentsEnd | tooManyArguments
  | superDot | superMethodName
  | groupEnd | expression | literalValue
  | inputEnd | expressionEnd
  deriving DecidableEq, Repr

def SyntaxError.Cause.message : SyntaxError.Cause → String
  | className => "Expect class name."
  | superclassName => "Expect superclass name."
  | classBodyStart => "Expect '\x7b' before class body."
  | classBodyEnd => "Expect '\x7d' after class body."
  | callableName kind => "Expect " ++ kind.word ++ " name."
  | parametersStart kind => "Expect '(' after " ++ kind.word ++ " name."
  | parameterName => "Expect parameter name."
  | parametersEnd => "Expect ')' after parameters."
  | tooManyParameters => "Cannot have more than " ++ Nat.repr maxArity ++ " parameters."
  | callableBodyStart kind => "Expect '\x7b' before " ++ kind.word ++ " body."
  | variableName => "Expect variable name."
  | variableEnd => "Expect ';' after variable declaration."
  | forStart => "Expect '(' after 'for'."
  | forConditionEnd => "Expect ';' after loop condition."
  | forClausesEnd => "Expect ')' after for clauses."
  | ifStart => "Expect '(' after 'if'."
  | ifConditionEnd => "Expect ')' after if condition."
  | printEnd => "Expect ';' after value."
  | returnEnd => "Expect ';' after return value."
  | whileStart => "Expect '(' after 'while'."
  | whileConditionEnd => "Expect ')' after condition."
  | blockEnd => "Expect '\x7d' after block."
  | expressionStatementEnd => "Expect ';' after expression."
  | assignmentTarget => "Invalid assignment target."
  | propertyName => "Expect property name after '.'."
  | argumentsEnd => "Expect ')' after arguments."
  | tooManyArguments => "Cannot have more than " ++ Nat.repr maxArity ++ " arguments."
  | superDot => "Expect '.' after 'super'."
  | superMethodName => "Expect superclass method name."
  | groupEnd => "Expect ')' after expression."
  | expression => "Expect expression."
  | literalValue => "Literal token without a value."
  | inputEnd => "Expect end of input."
  | expressionEnd => "Expect end of expression."

structure SyntaxError where
  cause : SyntaxError.Cause
  token : Token
  deriving Repr

inductive BindingError.Cause where
  | alreadyDeclared
  | readInOwnInitializer
  | returnOutsideFunction
  | returnFromInitializer
  | thisOutsideClass
  | superOutsideClass
  | superWithoutSuperclass
  | inheritsFromItself
  deriving DecidableEq, Repr

def BindingError.Cause.message : BindingError.Cause → String
  | alreadyDeclared => "Already a variable with this name in this scope."
  | readInOwnInitializer => "Cannot read local variable in its own initializer."
  | returnOutsideFunction => "Cannot return from top-level code."
  | returnFromInitializer => "Cannot return a value from an initializer."
  | thisOutsideClass => "Cannot use 'this' outside of a class."
  | superOutsideClass => "Cannot use 'super' outside of a class."
  | superWithoutSuperclass => "Cannot use 'super' in a class with no superclass."
  | inheritsFromItself => "A class cannot inherit from itself."

structure BindingError where
  cause : BindingError.Cause
  token : Token
  deriving Repr

inductive StaticError where
  | lexical (error : LexicalError)
  | grammatical (error : SyntaxError)
  | binding (error : BindingError)
  deriving Repr

def Token.place (token : Token) : String :=
  if token.kind = .eof then " at end" else " at '" ++ token.lexeme ++ "'"

namespace StaticError

def message : StaticError → String
  | lexical error => error.cause.message
  | grammatical error => error.cause.message
  | binding error => error.cause.message

def line : StaticError → Nat
  | lexical error => error.line
  | grammatical error => error.token.line
  | binding error => error.token.line

def place : StaticError → String
  | lexical _ => ""
  | grammatical error => error.token.place
  | binding error => error.token.place

def text (error : StaticError) : String :=
  "[line " ++ Nat.repr error.line ++ "] Error" ++ error.place ++ ": " ++ error.message

end StaticError
end Lox
