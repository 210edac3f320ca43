import Lox.Tree.Parsed

namespace Lox

namespace Parse

/-- The operators of two operands, from the loosest to the tightest. -/
inductive Level where
  | or | and | equality | comparison | term | factor
  deriving DecidableEq, Repr

namespace Level

def operators : Level → List TokenKind
  | or => [.orWord]
  | and => [.andWord]
  | equality => [.bangEqual, .equalEqual]
  | comparison => [.greater, .greaterEqual, .less, .lessEqual]
  | term => [.minus, .plus]
  | factor => [.slash, .star]

/-- The level whose expressions are the operands; none if they are unary expressions. -/
def tighter? : Level → Option Level
  | or => some and
  | and => some equality
  | equality => some comparison
  | comparison => some term
  | term => some factor
  | factor => none

def rank : Level → Nat
  | or => 5
  | and => 4
  | equality => 3
  | comparison => 2
  | term => 1
  | factor => 0

def join : Level → Expr → Token → Expr → Expr
  | or | and => .logical
  | _ => .binary

theorem rank_le (level : Level) : level.rank ≤ 5 := by cases level <;> decide

theorem rank_of_tighter? {level next : Level} (h : level.tighter? = some next) :
    next.rank + 1 = level.rank := by
  cases level <;> cases h <;> rfl

end Level

variable (eof : Token)

def expect (kind : TokenKind) (cause : SyntaxError.Cause) (s : List Token) :
    Parsed Token s.length :=
  match s with
  | [] => .error ⟨cause, eof⟩ [] [] (Nat.le_refl _)
  | token :: rest =>
    if token.kind = kind then .ok token rest [] (Nat.lt_succ_self _)
    else .error ⟨cause, token⟩ (token :: rest) [] (Nat.le_refl _)

def arityErrors (count : Nat) (cause : SyntaxError.Cause) (s : List Token) : List SyntaxError :=
  if maxArity ≤ count then [⟨cause, s.headD eof⟩] else []

def assignTo (target : Expr) (equals : Token) (value : Expr) : Expr × List SyntaxError :=
  match target with
  | .variable name _ => (.assign name value none, [])
  | .get object name => (.set object name value, [])
  | other => (other, [⟨.assignmentTarget, equals⟩])

def constant? (token : Token) : Option Constant :=
  match token.kind, token.literal? with
  | .falseWord, _ => some (.bool false)
  | .trueWord, _ => some (.bool true)
  | .nilWord, _ => some .nil
  | .number, some (.number value) | .string, some (.number value) => some (.number value)
  | .number, some (.string text) | .string, some (.string text) => some (.string text)
  | _, _ => none

-- The measure is the number of tokens; what is added to it orders the rules that call each other
-- before they have taken one, from `expression` through the levels down to `primary`.
mutual

/-- `expression → target "=" expression | or` -/
def expression (s : List Token) : Parsed Expr s.length :=
  (chain .or s).extend fun target rest _ => assignment target rest
termination_by 32 * s.length + 15
decreasing_by all_goals (try simp only [Level.rank]); omega

def assignment (target : Expr) (s : List Token) : Parsed Expr (s.length + 1) :=
  match s with
  | [] => .ok target [] [] (Nat.lt_succ_self _)
  | equals :: rest =>
    if equals.kind = .equal then ((expression rest).mapNoting (assignTo target equals)).after.after
    else .ok target (equals :: rest) [] (Nat.lt_succ_self _)
termination_by 32 * s.length + 16

def chain (level : Level) (s : List Token) : Parsed Expr s.length :=
  (operand level s).extend fun left rest _ => chainTail level left rest
termination_by 32 * s.length + 4 + 2 * level.rank

def chainTail (level : Level) (left : Expr) (s : List Token) : Parsed Expr (s.length + 1) :=
  match s with
  | [] => .ok left [] [] (Nat.lt_succ_self _)
  | operator :: rest =>
    if operator.kind ∈ level.operators then
      have := level.rank_le
      ((operand level rest).extend fun right rest _ =>
        chainTail level (level.join left operator right) rest).after.after
    else .ok left (operator :: rest) [] (Nat.lt_succ_self _)
termination_by 32 * s.length + 16

def operand (level : Level) (s : List Token) : Parsed Expr s.length :=
  match h : level.tighter? with
  | some next =>
    have := Level.rank_of_tighter? h
    chain next s
  | none => unary s
termination_by 32 * s.length + 3 + 2 * level.rank

/-- `unary → ("!" | "-") unary | call` -/
def unary (s : List Token) : Parsed Expr s.length :=
  match s with
  | [] => call []
  | operator :: rest =>
    if operator.kind = .bang ∨ operator.kind = .minus then
      ((unary rest).map (.unary operator)).after
    else call (operator :: rest)
termination_by 32 * s.length + 2

/-- `call → primary ("(" arguments ")" | "." name)*` -/
def call (s : List Token) : Parsed Expr s.length :=
  (primary s).extend fun callee rest _ => callTail callee rest
termination_by 32 * s.length + 1

def callTail (left : Expr) (s : List Token) : Parsed Expr (s.length + 1) :=
  match s with
  | [] => .ok left [] [] (Nat.lt_succ_self _)
  | token :: rest =>
    if token.kind = .leftParen then
      ((arguments rest).extend fun (arguments, paren) rest _ =>
        callTail (.call left paren arguments) rest).after.after
    else if token.kind = .dot then
      ((expect eof .identifier .propertyName rest).extend fun name rest _ =>
        callTail (.get left name) rest).after.after
    else .ok left (token :: rest) [] (Nat.lt_succ_self _)
termination_by 32 * s.length + 16

def arguments (s : List Token) : Parsed (List Expr × Token) s.length :=
  match s with
  | [] => argumentList 0 []
  | paren :: rest =>
    if paren.kind = .rightParen then .ok ([], paren) rest [] (Nat.lt_succ_self _)
    else argumentList 0 (paren :: rest)
termination_by 32 * s.length + 17

def argumentList (count : Nat) (s : List Token) : Parsed (List Expr × Token) s.length :=
  -- The error stands at the first token of the argument that is one too many.
  ((expression s).noting (arityErrors eof count .tooManyArguments s)).bind fun argument rest _ =>
    match rest with
    | [] => (expect eof .rightParen .argumentsEnd []).map fun paren => ([argument], paren)
    | comma :: more =>
      if comma.kind = .comma then
        ((argumentList (count + 1) more).map fun (arguments, paren) =>
          (argument :: arguments, paren)).after
      else
        (expect eof .rightParen .argumentsEnd (comma :: more)).map fun paren => ([argument], paren)
termination_by 32 * s.length + 16
decreasing_by all_goals (try simp only [List.length_cons] at *); omega

/-- `primary → literal | "super" "." name | "this" | name | "(" expression ")"` -/
def primary (s : List Token) : Parsed Expr s.length :=
  match s with
  | [] => .error ⟨.expression, eof⟩ [] [] (Nat.le_refl _)
  | token :: rest =>
    match token.kind with
    | .falseWord | .trueWord | .nilWord | .number | .string =>
      match constant? token with
      | some value => .ok (.literal value) rest [] (Nat.lt_succ_self _)
      -- The token is taken although it has no value, so recovery starts behind it.
      | none => .error ⟨.literalValue, token⟩ rest [] (Nat.le_succ _)
    | .superWord =>
      ((expect eof .dot .superDot rest).bind fun _ rest _ =>
        (expect eof .identifier .superMethodName rest).map fun method =>
          .super token method none).after
    | .thisWord => .ok (.this token none) rest [] (Nat.lt_succ_self _)
    | .identifier => .ok (.variable token none) rest [] (Nat.lt_succ_self _)
    | .leftParen =>
      ((expression rest).bind fun inner rest _ =>
        (expect eof .rightParen .groupEnd rest).map fun _ => .grouping inner).after
    | _ => .error ⟨.expression, token⟩ (token :: rest) [] (Nat.le_refl _)
termination_by 32 * s.length

end

def expressionEnding (cause : SyntaxError.Cause) (s : List Token) : Parsed Expr s.length :=
  (expression eof s).bind fun value rest _ =>
    (expect eof .semicolon cause rest).map fun _ => value

def optionalExpression (kind : TokenKind) (cause : SyntaxError.Cause) (s : List Token) :
    Parsed (Option Expr) s.length :=
  match s with
  | [] => (expression eof []).map some
  | token :: rest =>
    if token.kind = kind then .ok none rest [] (Nat.lt_succ_self _)
    else
      (expression eof (token :: rest)).bind fun value rest _ =>
        (expect eof kind cause rest).map fun _ => some value

/-- `variable → name ("=" expression)? ";"`, the keyword before it already taken. -/
def varDeclaration (s : List Token) : Parsed Stmt s.length :=
  (expect eof .identifier .variableName s).bind fun name rest _ =>
    match rest with
    | [] => (expect eof .semicolon .variableEnd []).map fun _ => .varDecl name none
    | equals :: value =>
      if equals.kind = .equal then
        ((expressionEnding eof .variableEnd value).map fun value =>
          Stmt.varDecl name (some value)).after
      else
        (expect eof .semicolon .variableEnd (equals :: value)).map fun _ => .varDecl name none

def parameterList (count : Nat) (s : List Token) : Parsed (List Token) s.length :=
  ((expect eof .identifier .parameterName s).noting
      (arityErrors eof count .tooManyParameters s)).bind fun param rest _ =>
    match rest with
    | [] => (expect eof .rightParen .parametersEnd []).map fun _ => [param]
    | comma :: more =>
      if comma.kind = .comma then ((parameterList (count + 1) more).map (param :: ·)).after
      else (expect eof .rightParen .parametersEnd (comma :: more)).map fun _ => [param]
termination_by s.length
decreasing_by simp at *; omega

def parameters (s : List Token) : Parsed (List Token) s.length :=
  match s with
  | [] => parameterList eof 0 []
  | paren :: rest =>
    if paren.kind = .rightParen then .ok [] rest [] (Nat.lt_succ_self _)
    else parameterList eof 0 (paren :: rest)

/-- A loop with an initializer and an increment as a loop without them. The initializer gets a scope
    of its own around the whole loop; the increment follows each run of the body. -/
def forLoop (initializer? : Option Stmt) (condition? increment? : Option Expr) (body : Stmt) :
    Stmt :=
  let body :=
    match increment? with
    | none => body
    | some increment => .block [body, .expression increment]
  let loop := .loop (condition?.getD (.literal (.bool true))) body
  match initializer? with
  | none => loop
  | some initializer => .block [initializer, loop]

def forInitializer (s : List Token) : Parsed (Option Stmt) s.length :=
  match s with
  | [] => (expressionEnding eof .expressionStatementEnd []).map fun value =>
      some (.expression value)
  | token :: rest =>
    if token.kind = .semicolon then .ok none rest [] (Nat.lt_succ_self _)
    else if token.kind = .varWord then ((varDeclaration eof rest).map some).after
    else
      (expressionEnding eof .expressionStatementEnd (token :: rest)).map fun value =>
        some (.expression value)

def parenthesized (start finish : SyntaxError.Cause) (s : List Token) : Parsed Expr s.length :=
  (expect eof .leftParen start s).bind fun _ rest _ =>
    (expression eof rest).bind fun condition rest _ =>
      (expect eof .rightParen finish rest).map fun _ => condition

mutual

/-- `declaration → class | function | variable | statement`, with no recovery from errors. -/
def declaration (s : List Token) : Parsed Stmt s.length :=
  match s with
  | [] => statement []
  | token :: rest =>
    match token.kind with
    | .classWord => (classDeclaration rest).after
    | .funWord => ((function .function rest).map .functionDecl).after
    | .varWord => (varDeclaration eof rest).after
    | _ => statement (token :: rest)
termination_by 16 * s.length + 1

/-- `class → name ("<" name)? body`, the keyword before it already taken. -/
def classDeclaration (s : List Token) : Parsed Stmt s.length :=
  (expect eof .identifier .className s).bind fun name rest _ =>
    match rest with
    | [] => (classBody []).map (.classDecl name none)
    | less :: more =>
      if less.kind = .less then
        ((expect eof .identifier .superclassName more).bind fun superclass rest _ =>
          (classBody rest).map (.classDecl name (some (.variable superclass none)))).after
      else (classBody (less :: more)).map (.classDecl name none)
termination_by 16 * s.length + 1
decreasing_by all_goals simp only [List.length_cons, List.length_nil] at *; omega

def classBody (s : List Token) : Parsed (List FunctionDecl) s.length :=
  (expect eof .leftBrace .classBodyStart s).bind fun _ rest _ => methods rest
termination_by 16 * s.length

def methods (s : List Token) : Parsed (List FunctionDecl) s.length :=
  match s with
  | [] => .error ⟨.classBodyEnd, eof⟩ [] [] (Nat.le_refl _)
  | token :: rest =>
    if token.kind = .rightBrace then .ok [] rest [] (Nat.lt_succ_self _)
    else
      (function .method (token :: rest)).bind fun method rest _ =>
        (methods rest).map (method :: ·)
termination_by 16 * s.length + 1
decreasing_by all_goals simp only [List.length_cons] at *; omega

/-- `function → name "(" parameters ")" block` -/
def function (kind : CallableKind) (s : List Token) : Parsed FunctionDecl s.length :=
  (expect eof .identifier (.callableName kind) s).bind fun name rest _ =>
    (expect eof .leftParen (.parametersStart kind) rest).bind fun _ rest _ =>
      (parameters eof rest).bind fun params rest _ =>
        (expect eof .leftBrace (.callableBodyStart kind) rest).bind fun _ rest _ =>
          (block rest).map (.mk name params)
termination_by 16 * s.length

/-- `statement → for | if | print | return | while | block | expression ";"` -/
def statement (s : List Token) : Parsed Stmt s.length :=
  match s with
  | [] => (expressionEnding eof .expressionStatementEnd []).map .expression
  | token :: rest =>
    match token.kind with
    | .forWord => (forStatement rest).after
    | .ifWord => (ifStatement rest).after
    | .printWord => ((expressionEnding eof .printEnd rest).map .print).after
    | .returnWord =>
      ((optionalExpression eof .semicolon .returnEnd rest).map (.returns token)).after
    | .whileWord =>
      ((parenthesized eof .whileStart .whileConditionEnd rest).bind fun condition rest _ =>
        (statement rest).map (.loop condition)).after
    | .leftBrace => ((block rest).map .block).after
    | _ => (expressionEnding eof .expressionStatementEnd (token :: rest)).map .expression
termination_by 16 * s.length

def forStatement (s : List Token) : Parsed Stmt s.length :=
  (expect eof .leftParen .forStart s).bind fun _ rest _ =>
    (forInitializer eof rest).bind fun initializer? rest _ =>
      (optionalExpression eof .semicolon .forConditionEnd rest).bind fun condition? rest _ =>
        (optionalExpression eof .rightParen .forClausesEnd rest).bind fun increment? rest _ =>
          (statement rest).map (forLoop initializer? condition? increment?)
termination_by 16 * s.length

def ifStatement (s : List Token) : Parsed Stmt s.length :=
  (parenthesized eof .ifStart .ifConditionEnd s).bind fun condition rest _ =>
    (statement rest).extend fun thenBranch rest _ =>
      (elseBranch rest).map (.branch condition thenBranch)
termination_by 16 * s.length

def elseBranch (s : List Token) : Parsed (Option Stmt) (s.length + 1) :=
  match s with
  | [] => .ok none [] [] (Nat.lt_succ_self _)
  | token :: rest =>
    if token.kind = .elseWord then ((statement rest).map some).after.after
    else .ok none (token :: rest) [] (Nat.lt_succ_self _)
termination_by 16 * s.length

/-- Declarations and the brace that closes them. A declaration at fault is left out. -/
def block (s : List Token) : Parsed (List Stmt) s.length :=
  match s with
  | [] => .error ⟨.blockEnd, eof⟩ [] [] (Nat.le_refl _)
  | token :: rest =>
    if token.kind = .rightBrace then .ok [] rest [] (Nat.lt_succ_self _)
    else
      ((declaration (token :: rest)).recover (Nat.succ_pos _)).bind fun statement? rest _ =>
        (block rest).map (statement?.toList ++ ·)
termination_by 16 * s.length + 2

end

def declarations (s : List Token) : List Stmt × List SyntaxError :=
  match s with
  | [] => ([], [])
  | token :: rest =>
    match (declaration eof (token :: rest)).recover (Nat.succ_pos _) with
    | .ok statement? rest noted _ =>
      let (statements, errors) := declarations rest
      (statement?.toList ++ statements, noted ++ errors)
    -- Never met: what has recovered does not fail.
    | .error cause _ noted _ => ([], noted ++ [cause])
termination_by s.length

/-- The tokens before the first end of input, and that end. The last token has to be one. -/
def untilEnd (tokens : List Token) : Except SyntaxError (List Token × Token) :=
  match tokens.getLast? with
  | none => .error ⟨.inputEnd, ⟨.eof, "", none, 1⟩⟩
  | some last =>
    if last.kind = .eof then
      let (before, after) := tokens.span (·.kind ≠ .eof)
      .ok (before, after.headD last)
    else .error ⟨.inputEnd, ⟨.eof, "", none, last.line⟩⟩

end Parse

def parse (tokens : List Token) : Except (List SyntaxError) (List Stmt) :=
  match Parse.untilEnd tokens with
  | .error cause => .error [cause]
  | .ok (before, eof) =>
    match Parse.declarations eof before with
    | (statements, []) => .ok statements
    | (_, errors) => .error errors

def parseExpression (tokens : List Token) : Except (List SyntaxError) Expr :=
  match Parse.untilEnd tokens with
  | .error cause => .error [cause]
  | .ok (before, eof) =>
    match Parse.expression eof before with
    | .error cause _ noted _ => .error (noted ++ [cause])
    | .ok value [] [] _ => .ok value
    | .ok _ (token :: _) [] _ => .error [⟨.expressionEnd, token⟩]
    | .ok _ _ noted _ => .error noted

end Lox
