import Lox.Tree.Basic

namespace Lox

def Constant.text : Constant → String
  | .number value => NumberStyle.inTree.write value
  | .string text => text
  | .bool true => "true"
  | .bool false => "false"
  | .nil => "nil"

namespace Expr

mutual

def printOnto (out : String) : Expr → String
  | .literal value => out ++ value.text
  | .unary operator right => (printOnto (out ++ "(" ++ operator.lexeme ++ " ") right).push ')'
  | .binary left operator right | .logical left operator right =>
    let opened := printOnto (out ++ "(" ++ operator.lexeme ++ " ") left
    (printOnto (opened.push ' ') right).push ')'
  | .grouping inner => (printOnto (out ++ "(group ") inner).push ')'
  | .variable name _ => out ++ name.lexeme
  | .assign name value _ => (printOnto (out ++ "(= " ++ name.lexeme ++ " ") value).push ')'
  | .call callee _ arguments =>
    (printArgumentsOnto (printOnto (out ++ "(call ") callee) arguments).push ')'
  | .get object name => printOnto (out ++ "(. ") object ++ " " ++ name.lexeme ++ ")"
  | .set object name value =>
    let opened := printOnto (out ++ "(= (. ") object ++ " " ++ name.lexeme ++ ") "
    (printOnto opened value).push ')'
  | .this _ _ => out ++ "this"
  | .super _ method _ => out ++ "(super " ++ method.lexeme ++ ")"

def printArgumentsOnto (out : String) : List Expr → String
  | [] => out
  | argument :: rest => printArgumentsOnto (printOnto (out.push ' ') argument) rest

end

def printed (e : Expr) : String := printOnto "" e

end Expr

namespace Stmt

mutual

def printOnto (out : String) : Stmt → String
  | .expression value => (value.printOnto (out ++ "(; ")).push ')'
  | .print value => (value.printOnto (out ++ "(print ")).push ')'
  | .varDecl name none => out ++ "(var " ++ name.lexeme ++ ")"
  | .varDecl name (some value) =>
    (value.printOnto (out ++ "(var " ++ name.lexeme ++ " ")).push ')'
  | .block statements => (printAllOnto (out ++ "(block") statements).push ')'
  | .branch condition thenBranch none =>
    let opened := condition.printOnto (out ++ "(if ")
    (printOnto (opened.push ' ') thenBranch).push ')'
  | .branch condition thenBranch (some elseBranch) =>
    let opened := condition.printOnto (out ++ "(if-else ")
    (printOnto ((printOnto (opened.push ' ') thenBranch).push ' ') elseBranch).push ')'
  | .loop condition body =>
    (printOnto ((condition.printOnto (out ++ "(while ")).push ' ') body).push ')'
  | .functionDecl declaration => printFunctionOnto out declaration
  | .returns _ none => out ++ "(return)"
  | .returns _ (some value) => (value.printOnto (out ++ "(return ")).push ')'
  | .classDecl name superclass? methods =>
    let named := out ++ "(class " ++ name.lexeme
    let headed :=
      match superclass? with
      | none => named
      | some superclass => superclass.printOnto (named ++ " < ")
    (printMethodsOnto headed methods).push ')'

def printAllOnto (out : String) : List Stmt → String
  | [] => out
  | statement :: rest => printAllOnto (printOnto (out.push ' ') statement) rest

def printMethodsOnto (out : String) : List FunctionDecl → String
  | [] => out
  | method :: rest => printMethodsOnto (printFunctionOnto (out.push ' ') method) rest

def printFunctionOnto (out : String) : FunctionDecl → String
  | .mk name params body =>
    let params := String.intercalate " " (params.map Token.lexeme)
    (printAllOnto (out ++ "(fun " ++ name.lexeme ++ "(" ++ params ++ ") (body") body) ++ "))"

end

def printed (s : Stmt) : String := printOnto "" s

end Stmt
end Lox
