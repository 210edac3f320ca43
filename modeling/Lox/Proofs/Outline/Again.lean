import Lox.Tree.Resolve

namespace Lox

namespace Resolve

variable (context : Context) (scopes : List Names)

theorem bind_bind (name : Token) (slot : Distance) :
    bind scopes name (bind scopes name slot) = bind scopes name slot := by
  unfold bind
  cases distance? scopes name.lexeme <;> rfl

mutual

theorem expression_again : (e : Expr) →
    expression context scopes (expression context scopes e).1 = expression context scopes e
  | .literal _ => rfl
  | .grouping inner => by
    simp only [expression, expression_again inner]
  | .unary _ right => by
    simp only [expression, expression_again right]
  | .binary left _ right | .logical left _ right => by
    simp only [expression, expression_again left, expression_again right]
  | .variable name slot => by
    simp only [expression, bind_bind]
  | .assign name value slot => by
    simp only [expression, expression_again value, bind_bind]
  | .call callee _ arguments => by
    simp only [expression, expression_again callee, expressions_again arguments]
  | .get object _ => by
    simp only [expression, expression_again object]
  | .set object _ value => by
    simp only [expression, expression_again object, expression_again value]
  | .this keyword slot => by
    cases around : context.enclosing <;> simp only [expression, around, bind_bind]
  | .super keyword method slot => by
    cases around : context.enclosing <;> simp only [expression, around, superErrors, bind_bind]

theorem expressions_again : (es : List Expr) →
    expressions context scopes (expressions context scopes es).1 = expressions context scopes es
  | [] => rfl
  | e :: rest => by
    simp only [expressions, expression_again e, expressions_again rest]

end

theorem optionalExpression_again (e? : Option Expr) :
    optionalExpression context scopes (optionalExpression context scopes e?).1 =
      optionalExpression context scopes e? := by
  cases e? with
  | none => rfl
  | some e => simp only [optionalExpression, expression_again]

theorem isSome_optionalExpression (e? : Option Expr) :
    (optionalExpression context scopes e?).1.isSome = e?.isSome := by
  cases e? <;> rfl

theorem inheritanceErrors_again (name : Token) (superclass : Expr) :
    inheritanceErrors name (expression context scopes superclass).1 =
      inheritanceErrors name superclass := by
  cases superclass with
  | this => cases around : context.enclosing <;> simp only [expression, around, inheritanceErrors]
  | super =>
    cases around : context.enclosing <;>
      simp only [expression, around, superErrors, inheritanceErrors]
  | _ => rfl

mutual

theorem statement_again (context : Context) (scopes : List Names) : (s : Stmt) →
    statement context scopes (statement context scopes s).tree = statement context scopes s
  | .expression value => by simp only [statement, expression_again]
  | .print value => by simp only [statement, expression_again]
  | .varDecl name initializer? => by simp only [statement, optionalExpression_again]
  | .block body => by simp only [statement, statements_again context _ body]
  | .branch condition thenBranch none => by
    simp only [statement, expression_again, statement_again context scopes thenBranch]
  | .branch condition thenBranch (some elseBranch) => by
    simp only [statement, expression_again, statement_again context scopes thenBranch,
      statement_again context _ elseBranch]
  | .loop condition body => by
    simp only [statement, expression_again, statement_again context scopes body]
  | .functionDecl (.mk name params body) => by
    simp only [statement, function, statements_again _ _ body]
  | .returns keyword value? => by
    simp only [statement, optionalExpression_again, isSome_optionalExpression]
  | .classDecl name none declared => by
    simp only [statement, methods_again _ _ declared]
  | .classDecl name (some superclass) declared => by
    simp only [statement, expression_again, inheritanceErrors_again, methods_again _ _ declared]

theorem statements_again (context : Context) (scopes : List Names) : (ss : List Stmt) →
    statements context scopes (statements context scopes ss).tree = statements context scopes ss
  | [] => rfl
  | s :: rest => by
    simp only [statements, statement_again context scopes s, statements_again context _ rest]

theorem methods_again (context : Context) (scopes : List Names) : (declared : List FunctionDecl) →
    methods context scopes (methods context scopes declared).1 = methods context scopes declared
  | [] => rfl
  | .mk name params body :: rest => by
    simp only [methods, function, statements_again _ _ body, methods_again context scopes rest]

end

end Resolve

/-- Resolving a program a second time changes no slot and reports the same errors. -/
theorem resolve_again (program : List Stmt) : resolve (resolve program).1 = resolve program := by
  unfold resolve
  rw [Resolve.statements_again]

end Lox
