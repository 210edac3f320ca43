import Lox.Token.Scan
import Lox.Tree.Parse
import Lox.Tree.Resolve
import Lox.Fault

namespace Lox

inductive RunError where
  | static (errors : List StaticError)
  | runtime (fault : Fault)
  deriving Repr

namespace RunError

def staticStatus : Nat := 65

def runtimeStatus : Nat := 70

def status : RunError → Nat
  | static _ => staticStatus
  | runtime _ => runtimeStatus

def text : RunError → String
  | static errors => String.intercalate "\n" (errors.map StaticError.text)
  | runtime fault => fault.text

end RunError

/-- The syntax tree of a source. Errors in the characters do not keep the rest from being checked,
    but they come first. -/
def parseProgram (source : List UInt8) : Except (List StaticError) (List Stmt) :=
  let (tokens, lexical) := scanTokens source
  let lexical := lexical.map StaticError.lexical
  match parse tokens, lexical with
  | .ok program, [] => .ok program
  | .ok _, _ :: _ => .error lexical
  | .error errors, _ => .error (lexical ++ errors.map StaticError.grammatical)

def compileTree (program : List Stmt) : Except (List StaticError) (List Stmt) :=
  match resolve program with
  | (program, []) => .ok program
  | (_, errors) => .error (errors.map StaticError.binding)

def compile (source : List UInt8) : Except (List StaticError) (List Stmt) := do
  compileTree (← parseProgram source)

def compileExpressionTree (e : Expr) : Except (List StaticError) Expr :=
  match resolveExpression e with
  | (e, []) => .ok e
  | (_, errors) => .error (errors.map StaticError.binding)

/-- The resolved tree of a source that is one expression. After errors in the characters nothing
    else is checked. -/
def compileExpression (source : List UInt8) : Except (List StaticError) Expr :=
  match scanTokens source with
  | (tokens, []) =>
    match parseExpression tokens with
    | .ok e => compileExpressionTree e
    | .error errors => .error (errors.map StaticError.grammatical)
  | (_, lexical) => .error (lexical.map StaticError.lexical)

end Lox
