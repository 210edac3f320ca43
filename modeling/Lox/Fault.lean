import Lox.Value

namespace Lox

inductive Fault.Cause where
  | undefinedVariable (name : String)
  | undefinedProperty (name : String)
  | operandNotNumber
  | operandsNotNumbers
  | operandsNotAddable
  | invalidOperator (lexeme : String)
  | notCallable
  | wrongArity (expected got : Nat)
  | noProperties
  | noFields
  | superclassNotClass
  | superOutsideClass
  | superOutsideMethod
  deriving DecidableEq, Repr

def Fault.Cause.message : Fault.Cause → String
  | undefinedVariable name => "Undefined variable '" ++ name ++ "'."
  | undefinedProperty name => "Undefined property '" ++ name ++ "'."
  | operandNotNumber => "Operand must be a number."
  | operandsNotNumbers => "Operands must be numbers."
  | operandsNotAddable => "Operands must be two numbers or two strings."
  | invalidOperator lexeme => "Invalid operator '" ++ lexeme ++ "'."
  | notCallable => "Can only call functions and classes."
  | wrongArity expected got =>
    "Expected " ++ Nat.repr expected ++ " arguments but got " ++ Nat.repr got ++ "."
  | noProperties => "Only instances have properties."
  | noFields => "Only instances have fields."
  | superclassNotClass => "Superclass must be a class."
  | superOutsideClass => "Can't use 'super' outside of a class."
  | superOutsideMethod => "Can't use 'super' outside of a method."

/-- A fault ends the run: the program breaks a rule, calls nest too deeply, or the output takes no
    more. -/
inductive Fault where
  | broken (cause : Fault.Cause) (line : Nat)
  | stackOverflow (line : Nat)
  | outputFull
  deriving DecidableEq, Repr

namespace Fault

def message : Fault → String
  | broken cause _ => cause.message
  | stackOverflow _ => "Stack overflow."
  | outputFull => "output full"

def line? : Fault → Option Nat
  | broken _ line => some line
  | stackOverflow line => some line
  | outputFull => none

def text (fault : Fault) : String :=
  match fault.line? with
  | some line => fault.message ++ "\n[line " ++ Nat.repr line ++ "]"
  | none => fault.message

end Fault
end Lox
