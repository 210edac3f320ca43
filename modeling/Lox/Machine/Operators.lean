import Lox.Fault

namespace Lox

def invalidOperator (operator : Token) : Fault :=
  .broken (.invalidOperator operator.lexeme) operator.line

def applyUnary (operator : Token) (right : Value) : Except Fault Value :=
  match operator.kind with
  | .minus =>
    match right with
    | .number n => .ok (.number (-n))
    | _ => .error (.broken .operandNotNumber operator.line)
  | .bang => .ok (.bool !right.isTruthy)
  | _ => .error (invalidOperator operator)

def applyNumeric (operator : Token) (a b : Float) : Except Fault Value :=
  match operator.kind with
  | .minus => .ok (.number (a - b))
  | .star => .ok (.number (a * b))
  | .slash => .ok (.number (a / b))
  | .greater => .ok (.bool (decide (a > b)))
  | .greaterEqual => .ok (.bool (decide (a ≥ b)))
  | .less => .ok (.bool (decide (a < b)))
  | .lessEqual => .ok (.bool (decide (a ≤ b)))
  | _ => .error (invalidOperator operator)

/-- Applies an operator to two operands. Equality takes any operands, addition two numbers or two
    strings, everything else two numbers; operands are checked before the operator is. -/
def applyBinary (operator : Token) (left right : Value) : Except Fault Value :=
  match operator.kind with
  | .equalEqual => .ok (.bool (left.equals right))
  | .bangEqual => .ok (.bool !left.equals right)
  | .plus =>
    match left, right with
    | .number a, .number b => .ok (.number (a + b))
    | .string a, .string b => .ok (.string (a ++ b))
    | _, _ => .error (.broken .operandsNotAddable operator.line)
  | _ =>
    match left, right with
    | .number a, .number b => applyNumeric operator a b
    | _, _ => .error (.broken .operandsNotNumbers operator.line)

/-- Whether the left operand alone decides a logical expression. Everything but `or` counts as
    `and`. -/
def decidesAlone (operator : Token) (left : Value) : Bool :=
  match operator.kind with
  | .orWord => left.isTruthy
  | _ => !left.isTruthy

end Lox
