import Mathlib.Logic.Basic
import Lox.Proofs.Rewording.Trees
import Lox.Proofs.Syntax.Grammar
import Lox.Tree.Resolve

namespace Lox

namespace Rewording

theorem named_onLines (line : Nat → Nat) (t : Token) :
    (onLines line).named t = (onLines line).token t := rfl

section after

variable (f g : Nat → Nat)

mutual

theorem expression_after : (e : Expr) →
    (onLines g).expression ((onLines f).expression e) = (onLines (g ∘ f)).expression e
  | .literal _ | .variable _ _ | .this _ _ | .super _ _ _ => rfl
  | .unary _ right => congrArg (Expr.unary _) (expression_after right)
  | .binary left _ right =>
    congrArg₂ (Expr.binary · _ ·) (expression_after left) (expression_after right)
  | .logical left _ right =>
    congrArg₂ (Expr.logical · _ ·) (expression_after left) (expression_after right)
  | .grouping inner => congrArg Expr.grouping (expression_after inner)
  | .assign _ value _ => congrArg (Expr.assign _ · _) (expression_after value)
  | .call callee _ arguments =>
    congrArg₂ (Expr.call · _ ·) (expression_after callee) (expressions_after arguments)
  | .get object _ => congrArg (Expr.get · _) (expression_after object)
  | .set object _ value =>
    congrArg₂ (Expr.set · _ ·) (expression_after object) (expression_after value)

theorem expressions_after : (es : List Expr) →
    (onLines g).expressions ((onLines f).expressions es) = (onLines (g ∘ f)).expressions es
  | [] => rfl
  | e :: rest => congrArg₂ List.cons (expression_after e) (expressions_after rest)

end

theorem option_after (e? : Option Expr) :
    (e?.map (onLines f).expression).map (onLines g).expression =
      e?.map (onLines (g ∘ f)).expression := by
  cases e? with
  | none => rfl
  | some e => exact congrArg some (expression_after f g e)

theorem map_named_after (params : List Token) :
    (params.map (onLines f).named).map (onLines g).named = params.map (onLines (g ∘ f)).named :=
  List.map_map

mutual

theorem statement_after : (s : Stmt) →
    (onLines g).statement ((onLines f).statement s) = (onLines (g ∘ f)).statement s
  | .expression value => congrArg Stmt.expression (expression_after f g value)
  | .print value => congrArg Stmt.print (expression_after f g value)
  | .varDecl _ initializer? => congrArg (Stmt.varDecl _) (option_after f g initializer?)
  | .block body => congrArg Stmt.block (statements_after body)
  | .branch condition thenBranch none =>
    congrArg₂ (Stmt.branch · · none) (expression_after f g condition) (statement_after thenBranch)
  | .branch condition thenBranch (some elseBranch) => by
    simp only [statement, expression_after f g condition, statement_after thenBranch,
      statement_after elseBranch]
  | .loop condition body =>
    congrArg₂ Stmt.loop (expression_after f g condition) (statement_after body)
  | .functionDecl declaration => congrArg Stmt.functionDecl (function_after declaration)
  | .returns _ value? => congrArg (Stmt.returns _) (option_after f g value?)
  | .classDecl _ superclass? methods =>
    congrArg₂ (Stmt.classDecl _) (option_after f g superclass?) (functions_after methods)

theorem statements_after : (ss : List Stmt) →
    (onLines g).statements ((onLines f).statements ss) = (onLines (g ∘ f)).statements ss
  | [] => rfl
  | s :: rest => congrArg₂ List.cons (statement_after s) (statements_after rest)

theorem function_after : (declaration : FunctionDecl) →
    (onLines g).function ((onLines f).function declaration) = (onLines (g ∘ f)).function declaration
  | .mk _ params body =>
    congrArg₂ (FunctionDecl.mk _) (map_named_after f g params) (statements_after body)

theorem functions_after : (declarations : List FunctionDecl) →
    (onLines g).functions ((onLines f).functions declarations) =
      (onLines (g ∘ f)).functions declarations
  | [] => rfl
  | declaration :: rest =>
    congrArg₂ List.cons (function_after declaration) (functions_after rest)

end

end after

end Rewording

namespace Grammar

open Rewording (onLines)
open Parse (Level)

variable (line : Nat → Nat)

theorem operation_onLines (level : Level) (left right : Expr) (operator : Token) :
    (onLines line).expression ((operation level).tree left operator right) =
      (operation level).tree ((onLines line).expression left) ((onLines line).token operator)
        ((onLines line).expression right) := by
  cases level <;> rfl

mutual

theorem Expression.onLines {ts : List Token} {e : Expr} : Expression ts e →
    Expression (ts.map (onLines line).token) ((onLines line).expression e)
  | .assign named assigns right => .assign named assigns right.onLines
  | .set owner dotted named assigns right => by
    rw [List.map_append]
    exact .set owner.onLines dotted named assigns right.onLines
  | .plain chained => .plain chained.onLines

theorem Chain.onLines {level : Level} {ts : List Token} {e : Expr} : Chain level ts e →
    Chain level (ts.map (onLines line).token) ((onLines line).expression e)
  | .one single => .one single.onLines
  | .more before applied last => by
    rw [List.map_append, operation_onLines]
    exact .more before.onLines applied last.onLines

theorem Operand.onLines {level : Level} {ts : List Token} {e : Expr} : Operand level ts e →
    Operand level (ts.map (onLines line).token) ((onLines line).expression e)
  | .chain tighter chained => .chain tighter chained.onLines
  | .unary tightest single => .unary tightest single.onLines

theorem Unary.onLines {ts : List Token} {e : Expr} : Unary ts e →
    Unary (ts.map (onLines line).token) ((onLines line).expression e)
  | .operator sign operand => .operator sign operand.onLines
  | .call called => .call called.onLines

theorem Call.onLines {ts : List Token} {e : Expr} : Call ts e →
    Call (ts.map (onLines line).token) ((onLines line).expression e)
  | .primary atom => .primary atom.onLines
  | @Call.call _ _ _ _ _ arguments called opens given few closes => by
    rw [List.map_append, List.map_cons, List.map_append]
    have few' : ((onLines line).expressions arguments).length ≤ 8 := by
      rwa [Rewording.expressions_eq, List.length_map]
    exact .call called.onLines opens given.onLines few' closes
  | .get owner dotted named => by
    rw [List.map_append]
    exact .get owner.onLines dotted named

theorem Arguments.onLines {ts : List Token} {es : List Expr} : Arguments ts es →
    Arguments (ts.map (onLines line).token) ((onLines line).expressions es)
  | .none => .none
  | .some given => .some given.onLines

theorem ArgumentList.onLines {ts : List Token} {es : List Expr} : ArgumentList ts es →
    ArgumentList (ts.map (onLines line).token) ((onLines line).expressions es)
  | .one given => .one given.onLines
  | .more given separated others => by
    rw [List.map_append]
    exact .more given.onLines separated others.onLines

theorem Primary.onLines {ts : List Token} {e : Expr} : Primary ts e →
    Primary (ts.map (onLines line).token) ((onLines line).expression e)
  | .no kind => .no kind
  | .yes kind => .yes kind
  | .nil kind => .nil kind
  | .literal kind valued => .literal kind valued
  | .super kind dotted named => .super kind dotted named
  | .this kind => .this kind
  | .variable kind => .variable kind
  | .grouping opens within closes => by
    rw [List.map_cons, List.map_append]
    exact .grouping opens within.onLines closes

end

section clauses

variable {line} {ts : List Token}

theorem Optional.onLines {e? : Option Expr} (given : Optional ts e?) :
    Optional (ts.map (onLines line).token) (e?.map (onLines line).expression) := by
  cases given with
  | none => exact .none
  | some given => exact .some (given.onLines line)

theorem Variable.onLines {s : Stmt} (declared : Variable ts s) :
    Variable (ts.map (onLines line).token) ((onLines line).statement s) := by
  cases declared with
  | bare kind named ends => exact .bare kind named ends
  | initialized kind named assigns right ends =>
    simp only [List.map_cons, List.map_append]
    exact .initialized kind named assigns (right.onLines line) ends

theorem ParameterList.onLines {params : List Token} (given : ParameterList ts params) :
    ParameterList (ts.map (onLines line).token) (params.map (onLines line).token) := by
  induction given with
  | one named => exact .one named
  | more named separated _ ih => exact .more named separated ih

theorem Parameters.onLines {params : List Token} (given : Parameters ts params) :
    Parameters (ts.map (onLines line).token) (params.map (onLines line).token) := by
  cases given with
  | none => exact .none
  | some given => exact .some given.onLines

theorem Initializer.onLines {initializer? : Option Stmt} (initial : Initializer ts initializer?) :
    Initializer (ts.map (onLines line).token) (initializer?.map (onLines line).statement) := by
  cases initial with
  | none ends => exact .none ends
  | «variable» declared => exact .variable declared.onLines
  | expression given ends =>
    rw [List.map_append]
    exact .expression (given.onLines line) ends

theorem desugared_onLines (initializer? : Option Stmt) (condition? increment? : Option Expr)
    (body : Stmt) : (onLines line).statement (desugared initializer? condition? increment? body) =
      desugared (initializer?.map (onLines line).statement)
        (condition?.map (onLines line).expression) (increment?.map (onLines line).expression)
        ((onLines line).statement body) := by
  cases initializer? <;> cases condition? <;> cases increment? <;> rfl

end clauses

variable {nearest : Prop}

mutual

theorem Declaration.onLines {ts : List Token} {s : Stmt} : Declaration nearest ts s →
    Declaration nearest (ts.map (onLines line).token) ((onLines line).statement s)
  | .class kind named opens inside closes => by
    simp only [List.map_cons, List.map_append]
    exact .class kind named opens inside.onLines closes
  | .subclass kind named extends' above opens inside closes => by
    simp only [List.map_cons, List.map_append]
    exact .subclass kind named extends' above opens inside.onLines closes
  | .function kind declared => .function kind declared.onLines
  | .variable declared => .variable declared.onLines
  | .statement plain => .statement plain.onLines

theorem Declarations.onLines {ts : List Token} {ss : List Stmt} : Declarations nearest ts ss →
    Declarations nearest (ts.map (onLines line).token) ((onLines line).statements ss)
  | .nil => .nil
  | .cons first others => by
    rw [List.map_append]
    exact .cons first.onLines others.onLines

theorem Methods.onLines {ts : List Token} {methods : List FunctionDecl} :
    Methods nearest ts methods →
      Methods nearest (ts.map (onLines line).token) ((onLines line).functions methods)
  | .nil => .nil
  | .cons first others => by
    rw [List.map_append]
    exact .cons first.onLines others.onLines

theorem Function.onLines {ts : List Token} {declaration : FunctionDecl} :
    Function nearest ts declaration →
      Function nearest (ts.map (onLines line).token) ((onLines line).function declaration)
  | @Function.mk _ _ _ _ _ _ _ _ params _ named opens given few closes starts inside finishes => by
    simp only [List.map_cons, List.map_append]
    have few' : (params.map (onLines line).token).length ≤ 8 := by rwa [List.length_map]
    exact .mk named opens given.onLines few' closes starts inside.onLines finishes

theorem Statement.onLines {dangling : Bool} {ts : List Token} {s : Stmt} :
    Statement nearest dangling ts s →
      Statement nearest dangling (ts.map (onLines line).token) ((onLines line).statement s)
  | .expression given ends => by
    rw [List.map_append]
    exact .expression (given.onLines line) ends
  | .print kind given ends => by
    rw [List.map_cons, List.map_append]
    exact .print kind (given.onLines line) ends
  | .returns kind given ends => by
    rw [List.map_cons, List.map_append]
    exact .returns kind given.onLines ends
  | .loop kind opens tested closes repeated => by
    simp only [List.map_cons, List.map_append]
    exact .loop kind opens (tested.onLines line) closes repeated.onLines
  | .block opens inside closes => by
    rw [List.map_cons, List.map_append]
    exact .block opens inside.onLines closes
  | .forLoop kind opens initial tested ends counted closes repeated => by
    simp only [List.map_cons, List.map_append, desugared_onLines]
    exact .forLoop kind opens initial.onLines tested.onLines ends counted.onLines closes
      repeated.onLines
  | .branch kind opens tested closes first => by
    simp only [List.map_cons, List.map_append]
    exact .branch kind opens (tested.onLines line) closes first.onLines
  | .choice kind opens tested closes first whole otherwise second => by
    simp only [List.map_cons, List.map_append]
    exact .choice kind opens (tested.onLines line) closes first.onLines whole otherwise
      second.onLines

end

end Grammar

namespace Resolve

open Rewording (onLines)

variable (line : Nat → Nat)

def errorOnLines (error : BindingError) : BindingError :=
  { error with token := (onLines line).token error.token }

variable (context : Context) (scopes : List Names)

theorem readErrors_onLines (name : Token) : readErrors scopes ((onLines line).token name) =
    (readErrors scopes name).map (errorOnLines line) := by
  unfold readErrors
  cases scopes with
  | nil => rfl
  | cons names outer =>
    by_cases own : names.lookup name.lexeme = some false <;> simp [own, errorOnLines]

mutual

theorem expression_onLines : (e : Expr) → expression context scopes ((onLines line).expression e) =
    ((onLines line).expression (expression context scopes e).1,
      (expression context scopes e).2.map (errorOnLines line))
  | .literal _ => rfl
  | .grouping inner => by
    simp only [Rewording.expression, expression, expression_onLines inner]
  | .unary operator right => by
    simp only [Rewording.expression, expression, expression_onLines right]
  | .binary left operator right | .logical left operator right => by
    simp only [Rewording.expression, expression, expression_onLines left, expression_onLines right,
      List.map_append]
  | .variable name slot => congrArg (Prod.mk _) (readErrors_onLines line scopes name)
  | .assign name value slot => by
    simp only [Rewording.expression, expression, expression_onLines value]
    rfl
  | .call callee paren arguments => by
    simp only [Rewording.expression, expression, expression_onLines callee,
      expressions_onLines arguments, List.map_append]
  | .get object name => by
    simp only [Rewording.expression, expression, expression_onLines object]
  | .set object name value => by
    simp only [Rewording.expression, expression, expression_onLines object,
      expression_onLines value, List.map_append]
  | .this keyword slot => by
    simp only [Rewording.expression, expression]
    split <;> rfl
  | .super keyword method slot => by
    simp only [Rewording.expression, expression]
    cases context.enclosing <;> rfl

theorem expressions_onLines : (es : List Expr) →
    expressions context scopes ((onLines line).expressions es) =
      ((onLines line).expressions (expressions context scopes es).1,
        (expressions context scopes es).2.map (errorOnLines line))
  | [] => rfl
  | e :: rest => by
    simp only [Rewording.expressions, expressions, expression_onLines e, expressions_onLines rest,
      List.map_append]

end

theorem optionalExpression_onLines (e? : Option Expr) :
    optionalExpression context scopes (e?.map (onLines line).expression) =
      ((optionalExpression context scopes e?).1.map (onLines line).expression,
        (optionalExpression context scopes e?).2.map (errorOnLines line)) := by
  cases e? with
  | none => rfl
  | some e => simp only [Option.map_some, optionalExpression, expression_onLines]

theorem declare_onLines (name : Token) : declare scopes ((onLines line).token name) =
    ((declare scopes name).1, (declare scopes name).2.map (errorOnLines line)) := by
  cases scopes with
  | nil => rfl
  | cons names outer =>
    by_cases again : names.declares name.lexeme <;> simp [declare, again, errorOnLines]

theorem introduce_onLines (name : Token) : introduce scopes ((onLines line).token name) =
    ((introduce scopes name).1, (introduce scopes name).2.map (errorOnLines line)) := by
  unfold introduce
  rw [declare_onLines]
  rfl

theorem introduceAll_onLines (names : List Token) :
    introduceAll scopes (names.map (onLines line).named) =
      ((introduceAll scopes names).1,
        (introduceAll scopes names).2.map (errorOnLines line)) := by
  induction names generalizing scopes with
  | nil => rfl
  | cons name rest ih =>
    simp only [List.map_cons, introduceAll, Rewording.named_onLines, introduce_onLines, ih,
      List.map_append]

theorem returnErrors_onLines (inside : FunctionContext) (keyword : Token) (hasValue : Bool) :
    returnErrors inside ((onLines line).token keyword) hasValue =
      (returnErrors inside keyword hasValue).map (errorOnLines line) := by
  cases inside <;> cases hasValue <;> rfl

theorem inheritanceErrors_onLines (name : Token) (superclass : Expr) :
    inheritanceErrors ((onLines line).token name) ((onLines line).expression superclass) =
      (inheritanceErrors name superclass).map (errorOnLines line) := by
  cases superclass with
  | «variable» parent _ =>
    by_cases same : parent.lexeme = name.lexeme <;>
      simp [Rewording.expression, Rewording.named_onLines, inheritanceErrors, same, errorOnLines]
  | literal _ | unary _ _ | binary _ _ _ | logical _ _ _ | grouping _ | assign _ _ _ | call _ _ _
  | get _ _ | set _ _ _ | this _ _ | «super» _ _ _ => rfl

mutual

theorem statement_onLines (context : Context) (scopes : List Names) : (s : Stmt) →
    statement context scopes ((onLines line).statement s) =
      ⟨(onLines line).statement (statement context scopes s).tree,
        (statement context scopes s).scopes,
        (statement context scopes s).errors.map (errorOnLines line)⟩
  | .expression value | .print value => by
    simp only [Rewording.statement, statement, expression_onLines]
  | .varDecl name initializer? => by
    simp only [Rewording.statement, statement, Rewording.named_onLines, declare_onLines,
      optionalExpression_onLines, List.map_append]
    rfl
  | .block body => by simp only [Rewording.statement, statement, statements_onLines context _ body]
  | .branch condition thenBranch none => by
    simp only [Rewording.statement, statement, expression_onLines,
      statement_onLines context _ thenBranch, List.map_append]
  | .branch condition thenBranch (some elseBranch) => by
    simp only [Rewording.statement, statement, expression_onLines,
      statement_onLines context _ thenBranch, statement_onLines context _ elseBranch,
      List.map_append]
  | .loop condition body => by
    simp only [Rewording.statement, statement, expression_onLines,
      statement_onLines context _ body, List.map_append]
  | .functionDecl (.mk name params body) => by
    have inner := function_onLines { context with function := .function }
      (introduce scopes name).1 (.mk name params body)
    simp only [Rewording.function] at inner
    simp only [Rewording.statement, Rewording.function, statement, introduce_onLines, inner,
      List.map_append]
  | .returns keyword value? => by
    simp only [Rewording.statement, statement, optionalExpression_onLines, returnErrors_onLines,
      Option.isSome_map, List.map_append]
  | .classDecl name none methods => by
    simp only [Rewording.statement, Option.map_none, statement, introduce_onLines,
      methods_onLines _ _ methods, List.map_append]
  | .classDecl name (some superclass) methods => by
    simp only [Rewording.statement, Option.map_some, statement, introduce_onLines,
      inheritanceErrors_onLines, expression_onLines, methods_onLines _ _ methods, List.map_append]

theorem statements_onLines (context : Context) (scopes : List Names) : (ss : List Stmt) →
    statements context scopes ((onLines line).statements ss) =
      ⟨(onLines line).statements (statements context scopes ss).tree,
        (statements context scopes ss).scopes,
        (statements context scopes ss).errors.map (errorOnLines line)⟩
  | [] => rfl
  | s :: rest => by
    simp only [Rewording.statements, statements, statement_onLines context scopes s,
      statements_onLines context _ rest, List.map_append]

theorem methods_onLines (context : Context) (scopes : List Names) : (ds : List FunctionDecl) →
    methods context scopes ((onLines line).functions ds) =
      ((onLines line).functions (methods context scopes ds).1,
        (methods context scopes ds).2.map (errorOnLines line))
  | [] => rfl
  | .mk name params body :: rest => by
    have inner := function_onLines { context with function := methodContext name } scopes
      (.mk name params body)
    simp only [Rewording.function] at inner
    have same : methodContext ((onLines line).token name) = methodContext name := rfl
    simp only [Rewording.functions, Rewording.function, methods, same, inner,
      methods_onLines context scopes rest, List.map_append]

theorem function_onLines (context : Context) (scopes : List Names) : (d : FunctionDecl) →
    function context scopes ((onLines line).function d) =
      ((onLines line).function (function context scopes d).1,
        (function context scopes d).2.map (errorOnLines line))
  | .mk name params body => by
    simp only [Rewording.function, function, introduceAll_onLines,
      statements_onLines context _ body, List.map_append]

end

end Resolve
end Lox
