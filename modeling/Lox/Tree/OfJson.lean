import Lox.Tree.Json
import Lox.Json.Numeral

namespace Lox

def Json.float? : Json → Option Float
  | .number numeral => (Numeral.ofText? numeral).map Numeral.toFloat
  | _ => none

def Json.nat? : Json → Option Nat
  | .number numeral => (Numeral.ofText? numeral).bind Numeral.toNat?
  | _ => none

def Json.text? : Json → Option String
  | .string text => some text
  | _ => none

def Json.option? {α : Type} (read? : Json → Option α) : Json → Option (Option α)
  | .null => some none
  | value => (read? value).map some

def Literal.ofJson? : Json → Option Literal
  | .object [("Number", value)] => value.float?.map .number
  | .object [("Str", .string text)] => some (.string text)
  | _ => none

def Token.ofJson? : Json → Option Token
  | .object fields => do
    let kind ← TokenKind.ofName? (← (Json.get fields "token_type").text?)
    let lexeme ← (Json.get fields "lexeme").text?
    let literal? ← (Json.get fields "literal").option? Literal.ofJson?
    let line ← (Json.get fields "line").nat?
    some ⟨kind, lexeme, literal?, line⟩
  | _ => none

def Constant.ofJson? : Json → Option Constant
  | .object [("Number", value)] => value.float?.map .number
  | .object [("Str", .string text)] => some (.string text)
  | .string "True" => some (.bool true)
  | .string "False" => some (.bool false)
  | .string "Nil" => some .nil
  | _ => none

def Distance.ofJson? : Json → Option Distance := Json.option? Json.nat?

def Token.allOfJson? : Json → Option (List Token)
  | .array items => items.mapM Token.ofJson?
  | _ => none

namespace Expr

mutual

def ofJson? : Json → Option Expr
  | .object [("Literal", value)] => (Constant.ofJson? value).map .literal
  | .object [("Unary", .object fields)] => do
    let operator ← Token.ofJson? (Json.get fields "operator")
    some (.unary operator (← ofJson? (Json.get fields "right")))
  | .object [("Binary", .object fields)] => do
    let left ← ofJson? (Json.get fields "left")
    let operator ← Token.ofJson? (Json.get fields "operator")
    some (.binary left operator (← ofJson? (Json.get fields "right")))
  | .object [("Logical", .object fields)] => do
    let left ← ofJson? (Json.get fields "left")
    let operator ← Token.ofJson? (Json.get fields "operator")
    some (.logical left operator (← ofJson? (Json.get fields "right")))
  | .object [("Grouping", inner)] => do some (.grouping (← ofJson? inner))
  | .object [("Variable", .object fields)] => do
    let name ← Token.ofJson? (Json.get fields "name")
    some (.variable name (← Distance.ofJson? (Json.get fields "depth")))
  | .object [("Assign", .object fields)] => do
    let name ← Token.ofJson? (Json.get fields "name")
    let value ← ofJson? (Json.get fields "value")
    some (.assign name value (← Distance.ofJson? (Json.get fields "depth")))
  | .object [("Call", .object fields)] => do
    let callee ← ofJson? (Json.get fields "callee")
    let paren ← Token.ofJson? (Json.get fields "paren")
    some (.call callee paren (← argumentsOfJson? (Json.get fields "arguments")))
  | .object [("Get", .object fields)] => do
    let object ← ofJson? (Json.get fields "object")
    some (.get object (← Token.ofJson? (Json.get fields "name")))
  | .object [("Set", .object fields)] => do
    let object ← ofJson? (Json.get fields "object")
    let name ← Token.ofJson? (Json.get fields "name")
    some (.set object name (← ofJson? (Json.get fields "value")))
  | .object [("This", .object fields)] => do
    let keyword ← Token.ofJson? (Json.get fields "keyword")
    some (.this keyword (← Distance.ofJson? (Json.get fields "depth")))
  | .object [("Super", .object fields)] => do
    let keyword ← Token.ofJson? (Json.get fields "keyword")
    let method ← Token.ofJson? (Json.get fields "method")
    some (.super keyword method (← Distance.ofJson? (Json.get fields "depth")))
  | _ => none
termination_by json => sizeOf json
decreasing_by
  all_goals first
    | (simp only [Json.object.sizeOf_spec, List.cons.sizeOf_spec, Prod.mk.sizeOf_spec]; omega)
    | exact Nat.lt_of_lt_of_le (Json.sizeOf_get_lt fields _) (by
        simp only [Json.object.sizeOf_spec, List.cons.sizeOf_spec, Prod.mk.sizeOf_spec]; omega)

def argumentsOfJson? : Json → Option (List Expr)
  | .array items => allOfJson? items
  | _ => none
termination_by json => sizeOf json

def allOfJson? : List Json → Option (List Expr)
  | [] => some []
  | item :: rest => do
    let first ← ofJson? item
    some (first :: (← allOfJson? rest))
termination_by items => sizeOf items

end

end Expr

namespace Stmt

mutual

def ofJson? : Json → Option Stmt
  | .object [("Expression", value)] => (Expr.ofJson? value).map .expression
  | .object [("Print", value)] => (Expr.ofJson? value).map .print
  | .object [("Var", .object fields)] => do
    let name ← Token.ofJson? (Json.get fields "name")
    some (.varDecl name (← (Json.get fields "initializer").option? Expr.ofJson?))
  | .object [("Block", .array items)] => do some (.block (← allOfJson? items))
  | .object [("If", .object fields)] => do
    let condition ← Expr.ofJson? (Json.get fields "condition")
    let thenBranch ← ofJson? (Json.get fields "then_branch")
    some (.branch condition thenBranch (← optionOfJson? (Json.get fields "else_branch")))
  | .object [("While", .object fields)] => do
    let condition ← Expr.ofJson? (Json.get fields "condition")
    some (.loop condition (← ofJson? (Json.get fields "body")))
  | .object [("Function", declaration)] => do
    some (.functionDecl (← functionOfJson? declaration))
  | .object [("Return", .object fields)] => do
    let keyword ← Token.ofJson? (Json.get fields "keyword")
    some (.returns keyword (← (Json.get fields "value").option? Expr.ofJson?))
  | .object [("Class", .object fields)] => do
    let name ← Token.ofJson? (Json.get fields "name")
    let superclass? ← (Json.get fields "superclass").option? Expr.ofJson?
    some (.classDecl name superclass? (← methodsOfJson? (Json.get fields "methods")))
  | _ => none
termination_by json => 2 * sizeOf json
decreasing_by
  all_goals first
    | (simp only [Json.object.sizeOf_spec, Json.array.sizeOf_spec, List.cons.sizeOf_spec,
        Prod.mk.sizeOf_spec]; omega)
    | (have otherBranch := Json.sizeOf_get_lt fields "else_branch"
       have thenBranch := Json.sizeOf_get_lt fields "then_branch"
       have body := Json.sizeOf_get_lt fields "body"
       have methods := Json.sizeOf_get_lt fields "methods"
       simp only [Json.object.sizeOf_spec, List.cons.sizeOf_spec, Prod.mk.sizeOf_spec] at *
       omega)

def optionOfJson? : Json → Option (Option Stmt)
  | .null => some none
  | value => do some (some (← ofJson? value))
termination_by json => 2 * sizeOf json + 1

def methodsOfJson? : Json → Option (List FunctionDecl)
  | .array items => functionsOfJson? items
  | _ => none
termination_by json => 2 * sizeOf json

def allOfJson? : List Json → Option (List Stmt)
  | [] => some []
  | item :: rest => do
    let first ← ofJson? item
    some (first :: (← allOfJson? rest))
termination_by items => 2 * sizeOf items

def functionsOfJson? : List Json → Option (List FunctionDecl)
  | [] => some []
  | item :: rest => do
    let first ← functionOfJson? item
    some (first :: (← functionsOfJson? rest))
termination_by items => 2 * sizeOf items

def functionOfJson? : Json → Option FunctionDecl
  | .object fields => do
    let name ← Token.ofJson? (Json.get fields "name")
    let params ← Token.allOfJson? (Json.get fields "params")
    some (.mk name params (← bodyOfJson? (Json.get fields "body")))
  | _ => none
termination_by json => 2 * sizeOf json
decreasing_by
  have := Json.sizeOf_get_lt fields "body"
  simp only [Json.object.sizeOf_spec] at *
  omega

def bodyOfJson? : Json → Option (List Stmt)
  | .array items => allOfJson? items
  | _ => none
termination_by json => 2 * sizeOf json

end

def programOfJson? : Json → Option (List Stmt)
  | .array items => allOfJson? items
  | _ => none

end Stmt
end Lox
