import Lox.Tree.Basic
import Lox.Json.Basic

namespace Lox

def Literal.toJson : Literal → Json
  | .number value => .object [("Number", .number (NumberStyle.json.write value))]
  | .string text => .object [("Str", .string text)]

def Token.toJson (token : Token) : Json :=
  .object
    [("token_type", .string token.kind.name), ("lexeme", .string token.lexeme),
     ("literal", .ofOption Literal.toJson token.literal?), ("line", .nat token.line)]

def Constant.toJson : Constant → Json
  | .number value => .object [("Number", .number (NumberStyle.json.write value))]
  | .string text => .object [("Str", .string text)]
  | .bool true => .string "True"
  | .bool false => .string "False"
  | .nil => .string "Nil"

def Json.node (kind : String) (content : Json) : Json := .object [(kind, content)]

def Distance.toJson (distance : Distance) : Json := .ofOption .nat distance

namespace Expr

mutual

def toJson : Expr → Json
  | .literal value => .node "Literal" value.toJson
  | .unary operator right =>
    .node "Unary" (.object [("operator", operator.toJson), ("right", toJson right)])
  | .binary left operator right =>
    .node "Binary" (.object
      [("left", toJson left), ("operator", operator.toJson), ("right", toJson right)])
  | .logical left operator right =>
    .node "Logical" (.object
      [("left", toJson left), ("operator", operator.toJson), ("right", toJson right)])
  | .grouping inner => .node "Grouping" (toJson inner)
  | .variable name distance =>
    .node "Variable" (.object [("name", name.toJson), ("depth", distance.toJson)])
  | .assign name value distance =>
    .node "Assign" (.object
      [("name", name.toJson), ("value", toJson value), ("depth", distance.toJson)])
  | .call callee paren arguments =>
    .node "Call" (.object
      [("callee", toJson callee), ("paren", paren.toJson),
       ("arguments", .array (argumentsToJson arguments))])
  | .get object name =>
    .node "Get" (.object [("object", toJson object), ("name", name.toJson)])
  | .set object name value =>
    .node "Set" (.object
      [("object", toJson object), ("name", name.toJson), ("value", toJson value)])
  | .this keyword distance =>
    .node "This" (.object [("keyword", keyword.toJson), ("depth", distance.toJson)])
  | .super keyword method distance =>
    .node "Super" (.object
      [("keyword", keyword.toJson), ("method", method.toJson), ("depth", distance.toJson)])

def argumentsToJson : List Expr → List Json
  | [] => []
  | argument :: rest => toJson argument :: argumentsToJson rest

end

end Expr

namespace Stmt

mutual

def toJson : Stmt → Json
  | .expression value => .node "Expression" value.toJson
  | .print value => .node "Print" value.toJson
  | .varDecl name initializer? =>
    .node "Var" (.object
      [("name", name.toJson), ("initializer", .ofOption Expr.toJson initializer?)])
  | .block statements => .node "Block" (.array (allToJson statements))
  | .branch condition thenBranch none =>
    .node "If" (.object
      [("condition", condition.toJson), ("then_branch", toJson thenBranch),
       ("else_branch", .null)])
  | .branch condition thenBranch (some elseBranch) =>
    .node "If" (.object
      [("condition", condition.toJson), ("then_branch", toJson thenBranch),
       ("else_branch", toJson elseBranch)])
  | .loop condition body =>
    .node "While" (.object [("condition", condition.toJson), ("body", toJson body)])
  | .functionDecl declaration => .node "Function" (functionToJson declaration)
  | .returns keyword value? =>
    .node "Return" (.object
      [("keyword", keyword.toJson), ("value", .ofOption Expr.toJson value?)])
  | .classDecl name superclass? methods =>
    .node "Class" (.object
      [("name", name.toJson), ("superclass", .ofOption Expr.toJson superclass?),
       ("methods", .array (methodsToJson methods))])

def allToJson : List Stmt → List Json
  | [] => []
  | statement :: rest => toJson statement :: allToJson rest

def methodsToJson : List FunctionDecl → List Json
  | [] => []
  | method :: rest => functionToJson method :: methodsToJson rest

def functionToJson : FunctionDecl → Json
  | .mk name params body =>
    .object
      [("name", name.toJson), ("params", .array (params.map Token.toJson)),
       ("body", .array (allToJson body))]

end

def programToJson (program : List Stmt) : Json := .array (allToJson program)

end Stmt
end Lox
