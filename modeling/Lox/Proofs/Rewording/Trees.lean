import Lox.Proofs.Machine.Points

namespace Lox

/-- Lines and variable names that take the place of others. The names that only the evaluator binds
    stand for themselves. -/
structure Rewording where
  line : Nat → Nat
  name : String → String
  this_iff : ∀ key, name key = "this" ↔ key = "this"
  super_iff : ∀ key, name key = "super" ↔ key = "super"

namespace Rewording

def onLines (line : Nat → Nat) : Rewording := ⟨line, fun name => name, fun _ => .rfl, fun _ => .rfl⟩

def later (lines : Nat) : Rewording := onLines (· + lines)

variable (w : Rewording)

theorem name_this : w.name "this" = "this" := (w.this_iff "this").mpr rfl

theorem name_super : w.name "super" = "super" := (w.super_iff "super").mpr rfl

section tree

def token (t : Token) : Token := { t with line := w.line t.line }

def named (t : Token) : Token := { t with lexeme := w.name t.lexeme, line := w.line t.line }

mutual

def expression : Expr → Expr
  | .literal value => .literal value
  | .unary operator right => .unary (w.token operator) (expression right)
  | .binary left operator right => .binary (expression left) (w.token operator) (expression right)
  | .logical left operator right =>
    .logical (expression left) (w.token operator) (expression right)
  | .grouping inner => .grouping (expression inner)
  | .variable name distance => .variable (w.named name) distance
  | .assign name value distance => .assign (w.named name) (expression value) distance
  | .call callee paren arguments =>
    .call (expression callee) (w.token paren) (expressions arguments)
  | .get object name => .get (expression object) (w.token name)
  | .set object name value => .set (expression object) (w.token name) (expression value)
  | .this keyword distance => .this (w.named keyword) distance
  | .super keyword method distance => .super (w.token keyword) (w.token method) distance

def expressions : List Expr → List Expr
  | [] => []
  | first :: rest => expression first :: expressions rest

end

mutual

def statement : Stmt → Stmt
  | .expression value => .expression (w.expression value)
  | .print value => .print (w.expression value)
  | .varDecl name initializer? => .varDecl (w.named name) (initializer?.map w.expression)
  | .block body => .block (statements body)
  | .branch condition thenBranch none => .branch (w.expression condition) (statement thenBranch) none
  | .branch condition thenBranch (some elseBranch) =>
    .branch (w.expression condition) (statement thenBranch) (some (statement elseBranch))
  | .loop condition body => .loop (w.expression condition) (statement body)
  | .functionDecl declaration => .functionDecl (function declaration)
  | .returns keyword value? => .returns (w.token keyword) (value?.map w.expression)
  | .classDecl name superclass? methods =>
    .classDecl (w.token name) (superclass?.map w.expression) (functions methods)

def statements : List Stmt → List Stmt
  | [] => []
  | first :: rest => statement first :: statements rest

def function : FunctionDecl → FunctionDecl
  | .mk name params body => .mk (w.token name) (params.map w.named) (statements body)

def functions : List FunctionDecl → List FunctionDecl
  | [] => []
  | first :: rest => function first :: functions rest

end

end tree

section value

def closure (c : Closure) : Closure := { c with declaration := w.function c.declaration }

def methods (declared : List (String × Closure)) : List (String × Closure) :=
  declared.map fun (name, method) => (name, w.closure method)

def type : Class → Class
  | .mk identity name none declared => .mk identity name none (w.methods declared)
  | .mk identity name (some superclass) declared =>
    .mk identity name (some (type superclass)) (w.methods declared)

def value : Value → Value
  | .closure function => .closure (w.closure function)
  | .class type => .class (w.type type)
  | .instance id type => .instance id (w.type type)
  | v => v

def bindings (rename : String → String) (bound : Bindings) : Bindings :=
  bound.map fun (key, v) => (rename key, w.value v)

def fields (bound : Bindings) : Bindings := w.bindings (fun key => key) bound

/-- The name under which a scope binds what it binds as `name` before. Globals keep their names. -/
def key (globals id : ScopeId) (name : String) : String := if id = globals then name else w.name name

def scope (globals id : ScopeId) (s : Scope) : Scope :=
  { s with bindings := w.bindings (w.key globals id) s.bindings }

def flow : Flow → Flow
  | .normal => .normal
  | .returned v => .returned (w.value v)

def cause : Fault.Cause → Fault.Cause
  | .undefinedVariable name => .undefinedVariable (w.name name)
  | other => other

def fault : Fault → Fault
  | .broken cause line => .broken (w.cause cause) (w.line line)
  | .stackOverflow line => .stackOverflow (w.line line)
  | .outputFull => .outputFull

end value

section lemmas

@[simp] theorem token_kind (t : Token) : (w.token t).kind = t.kind := rfl
@[simp] theorem token_lexeme (t : Token) : (w.token t).lexeme = t.lexeme := rfl
@[simp] theorem token_line (t : Token) : (w.token t).line = w.line t.line := rfl
@[simp] theorem named_lexeme (t : Token) : (w.named t).lexeme = w.name t.lexeme := rfl
@[simp] theorem named_line (t : Token) : (w.named t).line = w.line t.line := rfl

@[simp] theorem function_name (declaration : FunctionDecl) :
    (w.function declaration).name = w.token declaration.name := by
  cases declaration
  rfl

@[simp] theorem function_params (declaration : FunctionDecl) :
    (w.function declaration).params = declaration.params.map w.named := by
  cases declaration
  rfl

@[simp] theorem function_body (declaration : FunctionDecl) :
    (w.function declaration).body = w.statements declaration.body := by
  cases declaration
  rfl

@[simp] theorem closure_scope (c : Closure) : (w.closure c).scope = c.scope := rfl
@[simp] theorem closure_isInitializer (c : Closure) :
    (w.closure c).isInitializer = c.isInitializer := rfl
@[simp] theorem closure_identity (c : Closure) : (w.closure c).identity = c.identity := rfl

@[simp] theorem closure_name (c : Closure) : (w.closure c).name = c.name := by
  unfold Closure.name closure
  rw [function_name]
  rfl

@[simp] theorem closure_arity (c : Closure) : (w.closure c).arity = c.arity := by
  unfold Closure.arity closure
  rw [function_params, List.length_map]

@[simp] theorem type_identity (c : Class) : (w.type c).identity = c.identity := by
  obtain ⟨identity, name, _ | superclass, methods⟩ := c <;> rfl

@[simp] theorem type_name (c : Class) : (w.type c).name = c.name := by
  obtain ⟨identity, name, _ | superclass, methods⟩ := c <;> rfl

theorem type_mk (identity : Nat) (name : String) (superclass? : Option Class)
    (declared : List (String × Closure)) : w.type (.mk identity name superclass? declared) =
      .mk identity name (superclass?.map w.type) (w.methods declared) := by
  cases superclass? <;> rfl

theorem lookup_methods (declared : List (String × Closure)) (name : String) :
    (w.methods declared).lookup name = (declared.lookup name).map w.closure := by
  induction declared with
  | nil => rfl
  | cons entry rest ih =>
    unfold methods at ih ⊢
    rw [List.map_cons, List.lookup_cons, List.lookup_cons]
    split
    · rfl
    · exact ih

theorem findMethod?_type (c : Class) (name : String) :
    (w.type c).findMethod? name = (c.findMethod? name).map w.closure := by
  induction c using Class.findMethod?.induct name with
  | case1 identity declared methods =>
    simp only [type, Class.findMethod?, lookup_methods]
  | case2 identity declared superclass methods method found =>
    simp only [type, Class.findMethod?, lookup_methods, found, Option.map_some]
  | case3 identity declared superclass methods missing ih =>
    simp only [type, Class.findMethod?, lookup_methods, missing, Option.map_none, ih]

@[simp] theorem type_arity (c : Class) : (w.type c).arity = c.arity := by
  unfold Class.arity
  rw [findMethod?_type]
  cases c.findMethod? initializerName with
  | none => rfl
  | some method => exact w.closure_arity method

@[simp] theorem value_isTruthy (v : Value) : (w.value v).isTruthy = v.isTruthy := by
  cases v <;> rfl

@[simp] theorem value_text (v : Value) : (w.value v).text = v.text := by
  cases v with
  | closure function => exact congrArg (fun name => "<fn " ++ name ++ ">") (w.closure_name function)
  | «class» type => exact congrArg (fun name => "<class " ++ name ++ ">") (w.type_name type)
  | «instance» id type =>
    exact congrArg (fun name => "<" ++ name ++ " instance>") (w.type_name type)
  | nil | bool _ | number _ | string _ | native _ => rfl

@[simp] theorem value_equals (a b : Value) : (w.value a).equals (w.value b) = a.equals b := by
  cases a <;> cases b <;> simp [value, Value.equals]

@[simp] theorem value_ofConstant (constant : Constant) :
    w.value (.ofConstant constant) = .ofConstant constant := by
  cases constant <;> rfl

@[simp] theorem flow_result (f : Flow) : (w.flow f).result = w.value f.result := by
  cases f <;> rfl

theorem expressions_eq (es : List Expr) : w.expressions es = es.map w.expression := by
  induction es with
  | nil => rfl
  | cons e rest ih => rw [expressions, ih, List.map_cons]

theorem statements_eq (ss : List Stmt) : w.statements ss = ss.map w.statement := by
  induction ss with
  | nil => rfl
  | cons s rest ih => rw [statements, ih, List.map_cons]

theorem statement_branch (condition : Expr) (thenBranch : Stmt) (elseBranch? : Option Stmt) :
    w.statement (.branch condition thenBranch elseBranch?) =
      .branch (w.expression condition) (w.statement thenBranch) (elseBranch?.map w.statement) := by
  cases elseBranch? <;> rfl

theorem superclassLine_eq (name : Token) (superclass : Expr) :
    Eval.superclassLine (w.token name) (w.expression superclass) =
      w.line (Eval.superclassLine name superclass) := by
  cases superclass <;> rfl

end lemmas

section operators

def attempt {α : Type} (f : α → α) : Except Fault α → Except Fault α
  | .ok a => .ok (f a)
  | .error fault => .error (w.fault fault)

theorem applyUnary_eq (operator : Token) (right : Value) :
    applyUnary (w.token operator) (w.value right) =
      w.attempt w.value (applyUnary operator right) := by
  unfold applyUnary
  rw [token_kind, value_isTruthy]
  split
  · cases right <;> rfl
  · rfl
  · rfl

theorem applyNumeric_eq (operator : Token) (a b : Float) :
    applyNumeric (w.token operator) a b = w.attempt w.value (applyNumeric operator a b) := by
  unfold applyNumeric
  rw [token_kind]
  split <;> rfl

theorem applyBinary_eq (operator : Token) (left right : Value) :
    applyBinary (w.token operator) (w.value left) (w.value right) =
      w.attempt w.value (applyBinary operator left right) := by
  unfold applyBinary
  rw [token_kind, value_equals]
  split
  · rfl
  · rfl
  · cases left <;> cases right <;> rfl
  · cases left with
    | number a =>
      cases right with
      | number b => exact w.applyNumeric_eq operator a b
      | nil | bool _ | string _ | native _ | closure _ | «class» _ | «instance» _ _ => rfl
    | nil | bool _ | string _ | native _ | closure _ | «class» _ | «instance» _ _ =>
      cases right <;> rfl

theorem decidesAlone_eq (operator : Token) (left : Value) :
    decidesAlone (w.token operator) (w.value left) = decidesAlone operator left := by
  unfold decidesAlone
  rw [token_kind, value_isTruthy]

end operators

end Rewording
end Lox
