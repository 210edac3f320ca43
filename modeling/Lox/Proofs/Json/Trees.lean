import Mathlib
import Lox.Tree.Json
import Lox.Tree.Resolve
import Lox.Proofs.Json.Reading

namespace Lox

def Literal.numbers : Literal → List Float
  | .number value => [value]
  | .string _ => []

def Token.numbers (token : Token) : List Float := token.literal?.elim [] Literal.numbers

def Constant.numbers : Constant → List Float
  | .number value => [value]
  | _ => []

namespace Expr

mutual

def numbers : Expr → List Float
  | .literal value => value.numbers
  | .unary operator right => operator.numbers ++ numbers right
  | .binary left operator right => numbers left ++ operator.numbers ++ numbers right
  | .logical left operator right => numbers left ++ operator.numbers ++ numbers right
  | .grouping inner => numbers inner
  | .variable name _ => name.numbers
  | .assign name value _ => name.numbers ++ numbers value
  | .call callee paren arguments => numbers callee ++ paren.numbers ++ argumentsNumbers arguments
  | .get object name => numbers object ++ name.numbers
  | .set object name value => numbers object ++ name.numbers ++ numbers value
  | .this keyword _ => keyword.numbers
  | .super keyword method _ => keyword.numbers ++ method.numbers

def argumentsNumbers : List Expr → List Float
  | [] => []
  | argument :: rest => numbers argument ++ argumentsNumbers rest

end

end Expr

namespace Stmt

mutual

def numbers : Stmt → List Float
  | .expression value => value.numbers
  | .print value => value.numbers
  | .varDecl name initializer? => name.numbers ++ initializer?.elim [] Expr.numbers
  | .block statements => allNumbers statements
  | .branch condition thenBranch none => condition.numbers ++ numbers thenBranch
  | .branch condition thenBranch (some elseBranch) =>
    condition.numbers ++ numbers thenBranch ++ numbers elseBranch
  | .loop condition body => condition.numbers ++ numbers body
  | .functionDecl declaration => functionNumbers declaration
  | .returns keyword value? => keyword.numbers ++ value?.elim [] Expr.numbers
  | .classDecl name superclass? methods =>
    name.numbers ++ superclass?.elim [] Expr.numbers ++ methodsNumbers methods

def allNumbers : List Stmt → List Float
  | [] => []
  | statement :: rest => numbers statement ++ allNumbers rest

def methodsNumbers : List FunctionDecl → List Float
  | [] => []
  | method :: rest => functionNumbers method ++ methodsNumbers rest

def functionNumbers : FunctionDecl → List Float
  | .mk name params body => name.numbers ++ params.flatMap Token.numbers ++ allNumbers body

end

end Stmt

def AllFinite (numbers : List Float) : Prop := ∀ x ∈ numbers, x.isFinite = true

@[simp] theorem allFinite_append {left right : List Float} :
    AllFinite (left ++ right) ↔ AllFinite left ∧ AllFinite right := List.forall_mem_append

@[simp] theorem allFinite_singleton {x : Float} : AllFinite [x] ↔ x.isFinite = true :=
  List.forall_mem_singleton

@[simp] theorem allFinite_elim {α : Type} {a? : Option α} {numbers : α → List Float} :
    AllFinite (a?.elim [] numbers) ↔ ∀ a ∈ a?, AllFinite (numbers a) := by
  cases a? <;> simp [AllFinite]

@[simp] theorem allFinite_flatMap {α : Type} {row : List α} {numbers : α → List Float} :
    AllFinite (row.flatMap numbers) ↔ ∀ a ∈ row, AllFinite (numbers a) := by
  simp only [AllFinite, List.mem_flatMap, forall_exists_index, and_imp]
  exact ⟨fun all a here x => all x a here, fun each x a here => each a here x⟩

namespace Json

@[simp] theorem node_inj {kind kind' : String} {content content' : Json} :
    node kind content = node kind' content' ↔ kind = kind' ∧ content = content' := by
  simp [node]

theorem Proper.node {kind : String} {content : Json} (proper : Proper content) :
    Proper (node kind content) := .object (by simpa using proper)

theorem Proper.ofOption {α : Type} {write : α → Json} {a? : Option α}
    (each : ∀ a ∈ a?, Proper (write a)) : Proper (ofOption write a?) := by
  cases a? with
  | none => exact .null
  | some a => exact each a rfl

theorem ofOption_injective {α : Type} {write : α → Json} {a? b? : Option α}
    (filled : ∀ a, write a ≠ .null) (each : ∀ a ∈ a?, ∀ b ∈ b?, write a = write b → a = b)
    (same : ofOption write a? = ofOption write b?) : a? = b? := by
  cases a? with
  | none =>
    cases b? with
    | none => rfl
    | some b => exact absurd same.symm (filled b)
  | some a =>
    cases b? with
    | none => exact absurd same (filled a)
    | some b => rw [each a rfl b rfl same]

theorem nat_injective {n m : Nat} (same : Json.nat n = .nat m) : n = m := by
  simp only [nat, number.injEq] at same
  exact Nat.repr_inj.mp same

end Json

theorem TokenKind.name_injective {kind other : TokenKind} (same : kind.name = other.name) :
    kind = other := by
  have read := ofName?_name kind
  rw [same, ofName?_name] at read
  exact (Option.some.inj read).symm

theorem Distance.toJson_proper (distance : Distance) : (Distance.toJson distance).Proper :=
  .ofOption fun d _ => .nat d

theorem Distance.toJson_injective {distance other : Distance}
    (same : Distance.toJson distance = Distance.toJson other) : distance = other :=
  Json.ofOption_injective (fun _ => Json.noConfusion) (fun _ _ _ _ => Json.nat_injective) same

theorem Literal.toJson_proper {literal : Literal} (finite : AllFinite literal.numbers) :
    literal.toJson.Proper := by
  cases literal with
  | number value =>
    exact .node (.number (NumberStyle.json_write_isSome (finite value List.mem_cons_self)))
  | string text => exact .node (.string text)

theorem Literal.toJson_injective {literal other : Literal} (finite : AllFinite literal.numbers)
    (finite' : AllFinite other.numbers) (same : literal.toJson = other.toJson) : literal = other := by
  cases literal with
  | number value =>
    cases other with
    | number value' =>
      simp only [numbers, allFinite_singleton] at finite finite'
      have written : NumberStyle.json.write value = NumberStyle.json.write value' := by
        simpa [toJson] using same
      rw [NumberStyle.json_write_injective finite finite' written]
    | string text' => simp [toJson] at same
  | string text =>
    cases other with
    | number value' => simp [toJson] at same
    | string text' => simpa [toJson] using same

theorem Constant.toJson_proper {constant : Constant} (finite : AllFinite constant.numbers) :
    constant.toJson.Proper := by
  cases constant with
  | number value =>
    exact .node (.number (NumberStyle.json_write_isSome (finite value List.mem_cons_self)))
  | string text => exact .node (.string text)
  | bool value => cases value <;> exact .string _
  | nil => exact .string _

theorem Constant.toJson_injective {constant other : Constant} (finite : AllFinite constant.numbers)
    (finite' : AllFinite other.numbers) (same : constant.toJson = other.toJson) : constant = other := by
  cases constant with
  | number value =>
    cases other with
    | number value' =>
      simp only [numbers, allFinite_singleton] at finite finite'
      have written : NumberStyle.json.write value = NumberStyle.json.write value' := by
        simpa [toJson] using same
      rw [NumberStyle.json_write_injective finite finite' written]
    | bool value' => cases value' <;> simp [toJson] at same
    | _ => simp [toJson] at same
  | string text =>
    cases other with
    | string text' => simpa [toJson] using same
    | bool value' => cases value' <;> simp [toJson] at same
    | _ => simp [toJson] at same
  | bool value =>
    cases other with
    | bool value' => cases value <;> cases value' <;> simp [toJson] at same ⊢
    | _ => cases value <;> simp [toJson] at same
  | nil =>
    cases other with
    | bool value' => cases value' <;> simp [toJson] at same
    | nil => rfl
    | _ => simp [toJson] at same

theorem Literal.toJson_ne_null (literal : Literal) : literal.toJson ≠ .null := by
  cases literal <;> exact Json.noConfusion

theorem Token.toJson_proper {token : Token} (finite : AllFinite token.numbers) :
    token.toJson.Proper := by
  simp only [numbers, allFinite_elim] at finite
  have literal : (Json.ofOption Literal.toJson token.literal?).Proper :=
    .ofOption fun literal here => Literal.toJson_proper (finite literal here)
  exact .object (by simp [literal, Json.Proper.nat, Json.Proper.string])

theorem Token.toJson_injective {token other : Token} (finite : AllFinite token.numbers)
    (finite' : AllFinite other.numbers) (same : token.toJson = other.toJson) : token = other := by
  obtain ⟨kind, lexeme, literal?, line⟩ := token
  obtain ⟨kind', lexeme', literal'?, line'⟩ := other
  simp only [numbers, allFinite_elim] at finite finite'
  obtain ⟨kinds, lexemes, literals, lines⟩ : kind.name = kind'.name ∧ lexeme = lexeme' ∧
      Json.ofOption Literal.toJson literal? = Json.ofOption Literal.toJson literal'? ∧
        Json.nat line = Json.nat line' := by
    simpa [toJson] using same
  have equal : literal? = literal'? := Json.ofOption_injective Literal.toJson_ne_null
    (fun a here b there => Literal.toJson_injective (finite a here) (finite' b there)) literals
  rw [TokenKind.name_injective kinds, lexemes, equal, Json.nat_injective lines]

theorem Token.map_toJson_injective : ∀ {row other : List Token},
    (∀ token ∈ row, AllFinite token.numbers) → (∀ token ∈ other, AllFinite token.numbers) →
      row.map Token.toJson = other.map Token.toJson → row = other
  | [], other, _, _, same => by simpa using same.symm
  | token :: rest, [], _, _, same => by simp at same
  | token :: rest, token' :: rest', finite, finite', same => by
    obtain ⟨head, tail⟩ := List.cons_eq_cons.mp same
    rw [List.forall_mem_cons] at finite finite'
    rw [toJson_injective finite.1 finite'.1 head, map_toJson_injective finite.2 finite'.2 tail]

namespace Expr

theorem toJson_ne_null (value : Expr) : value.toJson ≠ .null := by
  cases value <;> simp [toJson, Json.node]

mutual

theorem toJson_proper : ∀ value : Expr, AllFinite value.numbers → value.toJson.Proper
  | .literal _, finite => .node (Constant.toJson_proper finite)
  | .unary operator right, finite => by
    simp only [numbers, allFinite_append] at finite
    exact .node (.object (by simp [Token.toJson_proper finite.1, toJson_proper right finite.2]))
  | .binary left operator right, finite => by
    simp only [numbers, allFinite_append] at finite
    exact .node (.object (by simp [toJson_proper left finite.1.1,
      Token.toJson_proper finite.1.2, toJson_proper right finite.2]))
  | .logical left operator right, finite => by
    simp only [numbers, allFinite_append] at finite
    exact .node (.object (by simp [toJson_proper left finite.1.1,
      Token.toJson_proper finite.1.2, toJson_proper right finite.2]))
  | .grouping inner, finite => .node (toJson_proper inner finite)
  | .variable name distance, finite =>
    .node (.object (by simp [Token.toJson_proper finite, distance.toJson_proper]))
  | .assign name value distance, finite => by
    simp only [numbers, allFinite_append] at finite
    exact .node (.object (by simp [Token.toJson_proper finite.1, toJson_proper value finite.2,
      distance.toJson_proper]))
  | .call callee paren arguments, finite => by
    simp only [numbers, allFinite_append] at finite
    have row : (Json.array (argumentsToJson arguments)).Proper :=
      .array (argumentsToJson_proper arguments finite.2)
    exact .node (.object (by simp [toJson_proper callee finite.1.1,
      Token.toJson_proper finite.1.2, row]))
  | .get object name, finite => by
    simp only [numbers, allFinite_append] at finite
    exact .node (.object (by simp [toJson_proper object finite.1, Token.toJson_proper finite.2]))
  | .set object name value, finite => by
    simp only [numbers, allFinite_append] at finite
    exact .node (.object (by simp [toJson_proper object finite.1.1,
      Token.toJson_proper finite.1.2, toJson_proper value finite.2]))
  | .this keyword distance, finite =>
    .node (.object (by simp [Token.toJson_proper finite, distance.toJson_proper]))
  | .super keyword method distance, finite => by
    simp only [numbers, allFinite_append] at finite
    exact .node (.object (by simp [Token.toJson_proper finite.1, Token.toJson_proper finite.2,
      distance.toJson_proper]))

theorem argumentsToJson_proper : ∀ arguments : List Expr, AllFinite (argumentsNumbers arguments) →
    ∀ item ∈ argumentsToJson arguments, item.Proper
  | [], _ => by simp [argumentsToJson]
  | argument :: rest, finite => by
    simp only [argumentsNumbers, allFinite_append] at finite
    exact List.forall_mem_cons.mpr
      ⟨toJson_proper argument finite.1, argumentsToJson_proper rest finite.2⟩

end

-- By induction on the first tree, and for each kind of node by the kind of the other: different kinds
-- have different names in the JSON, and nodes of one kind agree in each field.
mutual

theorem toJson_injective : ∀ value other : Expr, AllFinite value.numbers → AllFinite other.numbers →
    value.toJson = other.toJson → value = other
  | .literal constant, other, finite, finite', same => by
    cases other with
    | literal constant' =>
      have content : constant.toJson = constant'.toJson := by simpa [toJson] using same
      rw [Constant.toJson_injective finite finite' content]
    | _ => simp [toJson] at same
  | .unary operator right, other, finite, finite', same => by
    cases other with
    | unary operator' right' =>
      simp only [numbers, allFinite_append] at finite finite'
      obtain ⟨first, second⟩ : operator.toJson = operator'.toJson ∧ right.toJson = right'.toJson := by
        simpa [toJson] using same
      rw [Token.toJson_injective finite.1 finite'.1 first,
        toJson_injective right right' finite.2 finite'.2 second]
    | _ => simp [toJson] at same
  | .binary left operator right, other, finite, finite', same => by
    cases other with
    | binary left' operator' right' =>
      simp only [numbers, allFinite_append] at finite finite'
      obtain ⟨first, second, third⟩ : left.toJson = left'.toJson ∧
          operator.toJson = operator'.toJson ∧ right.toJson = right'.toJson := by
        simpa [toJson] using same
      rw [toJson_injective left left' finite.1.1 finite'.1.1 first,
        Token.toJson_injective finite.1.2 finite'.1.2 second,
        toJson_injective right right' finite.2 finite'.2 third]
    | _ => simp [toJson] at same
  | .logical left operator right, other, finite, finite', same => by
    cases other with
    | logical left' operator' right' =>
      simp only [numbers, allFinite_append] at finite finite'
      obtain ⟨first, second, third⟩ : left.toJson = left'.toJson ∧
          operator.toJson = operator'.toJson ∧ right.toJson = right'.toJson := by
        simpa [toJson] using same
      rw [toJson_injective left left' finite.1.1 finite'.1.1 first,
        Token.toJson_injective finite.1.2 finite'.1.2 second,
        toJson_injective right right' finite.2 finite'.2 third]
    | _ => simp [toJson] at same
  | .grouping inner, other, finite, finite', same => by
    cases other with
    | grouping inner' =>
      have content : inner.toJson = inner'.toJson := by simpa [toJson] using same
      rw [toJson_injective inner inner' finite finite' content]
    | _ => simp [toJson] at same
  | .variable name distance, other, finite, finite', same => by
    cases other with
    | «variable» name' distance' =>
      obtain ⟨first, second⟩ : name.toJson = name'.toJson ∧
          Distance.toJson distance = Distance.toJson distance' := by
        simpa [toJson] using same
      rw [Token.toJson_injective finite finite' first, Distance.toJson_injective second]
    | _ => simp [toJson] at same
  | .assign name value distance, other, finite, finite', same => by
    cases other with
    | assign name' value' distance' =>
      simp only [numbers, allFinite_append] at finite finite'
      obtain ⟨first, second, third⟩ : name.toJson = name'.toJson ∧ value.toJson = value'.toJson ∧
          Distance.toJson distance = Distance.toJson distance' := by
        simpa [toJson] using same
      rw [Token.toJson_injective finite.1 finite'.1 first,
        toJson_injective value value' finite.2 finite'.2 second, Distance.toJson_injective third]
    | _ => simp [toJson] at same
  | .call callee paren arguments, other, finite, finite', same => by
    cases other with
    | call callee' paren' arguments' =>
      simp only [numbers, allFinite_append] at finite finite'
      obtain ⟨first, second, third⟩ : callee.toJson = callee'.toJson ∧ paren.toJson = paren'.toJson ∧
          argumentsToJson arguments = argumentsToJson arguments' := by
        simpa [toJson] using same
      rw [toJson_injective callee callee' finite.1.1 finite'.1.1 first,
        Token.toJson_injective finite.1.2 finite'.1.2 second,
        argumentsToJson_injective arguments arguments' finite.2 finite'.2 third]
    | _ => simp [toJson] at same
  | .get object name, other, finite, finite', same => by
    cases other with
    | get object' name' =>
      simp only [numbers, allFinite_append] at finite finite'
      obtain ⟨first, second⟩ : object.toJson = object'.toJson ∧ name.toJson = name'.toJson := by
        simpa [toJson] using same
      rw [toJson_injective object object' finite.1 finite'.1 first,
        Token.toJson_injective finite.2 finite'.2 second]
    | _ => simp [toJson] at same
  | .set object name value, other, finite, finite', same => by
    cases other with
    | set object' name' value' =>
      simp only [numbers, allFinite_append] at finite finite'
      obtain ⟨first, second, third⟩ : object.toJson = object'.toJson ∧ name.toJson = name'.toJson ∧
          value.toJson = value'.toJson := by
        simpa [toJson] using same
      rw [toJson_injective object object' finite.1.1 finite'.1.1 first,
        Token.toJson_injective finite.1.2 finite'.1.2 second,
        toJson_injective value value' finite.2 finite'.2 third]
    | _ => simp [toJson] at same
  | .this keyword distance, other, finite, finite', same => by
    cases other with
    | this keyword' distance' =>
      obtain ⟨first, second⟩ : keyword.toJson = keyword'.toJson ∧
          Distance.toJson distance = Distance.toJson distance' := by
        simpa [toJson] using same
      rw [Token.toJson_injective finite finite' first, Distance.toJson_injective second]
    | _ => simp [toJson] at same
  | .super keyword method distance, other, finite, finite', same => by
    cases other with
    | super keyword' method' distance' =>
      simp only [numbers, allFinite_append] at finite finite'
      obtain ⟨first, second, third⟩ : keyword.toJson = keyword'.toJson ∧
          method.toJson = method'.toJson ∧ Distance.toJson distance = Distance.toJson distance' := by
        simpa [toJson] using same
      rw [Token.toJson_injective finite.1 finite'.1 first,
        Token.toJson_injective finite.2 finite'.2 second, Distance.toJson_injective third]
    | _ => simp [toJson] at same

theorem argumentsToJson_injective : ∀ arguments other : List Expr,
    AllFinite (argumentsNumbers arguments) → AllFinite (argumentsNumbers other) →
      argumentsToJson arguments = argumentsToJson other → arguments = other
  | [], [], _, _, _ => rfl
  | [], _ :: _, _, _, same => by simp [argumentsToJson] at same
  | _ :: _, [], _, _, same => by simp [argumentsToJson] at same
  | argument :: rest, argument' :: rest', finite, finite', same => by
    simp only [argumentsNumbers, allFinite_append] at finite finite'
    obtain ⟨head, tail⟩ := List.cons_eq_cons.mp same
    rw [toJson_injective argument argument' finite.1 finite'.1 head,
      argumentsToJson_injective rest rest' finite.2 finite'.2 tail]

end

theorem ofOption_proper {value? : Option Expr} (finite : ∀ value ∈ value?, AllFinite value.numbers) :
    (Json.ofOption toJson value?).Proper :=
  .ofOption fun value here => toJson_proper value (finite value here)

theorem ofOption_injective {value? other? : Option Expr}
    (finite : ∀ value ∈ value?, AllFinite value.numbers)
    (finite' : ∀ other ∈ other?, AllFinite other.numbers)
    (same : Json.ofOption toJson value? = Json.ofOption toJson other?) : value? = other? :=
  Json.ofOption_injective toJson_ne_null
    (fun value here other there => toJson_injective value other (finite value here) (finite' other there))
    same

end Expr

namespace Stmt

theorem toJson_branch (condition : Expr) (thenBranch : Stmt) (elseBranch? : Option Stmt) :
    toJson (.branch condition thenBranch elseBranch?) = .node "If" (.object
      [("condition", condition.toJson), ("then_branch", thenBranch.toJson),
       ("else_branch", .ofOption toJson elseBranch?)]) := by
  cases elseBranch? <;> rfl

theorem toJson_ne_null (statement : Stmt) : statement.toJson ≠ .null := by
  cases statement <;> simp [toJson, toJson_branch, Json.node]

mutual

theorem toJson_proper : ∀ statement : Stmt, AllFinite statement.numbers → statement.toJson.Proper
  | .expression value, finite => .node (value.toJson_proper finite)
  | .print value, finite => .node (value.toJson_proper finite)
  | .varDecl name initializer?, finite => by
    simp only [numbers, allFinite_append, allFinite_elim] at finite
    exact .node (.object (by simp [Token.toJson_proper finite.1, Expr.ofOption_proper finite.2]))
  | .block statements, finite => .node (.array (allToJson_proper statements finite))
  | .branch condition thenBranch none, finite => by
    simp only [numbers, allFinite_append] at finite
    exact .node (.object (by simp [condition.toJson_proper finite.1,
      toJson_proper thenBranch finite.2, Json.Proper.null]))
  | .branch condition thenBranch (some elseBranch), finite => by
    simp only [numbers, allFinite_append] at finite
    exact .node (.object (by simp [condition.toJson_proper finite.1.1,
      toJson_proper thenBranch finite.1.2, toJson_proper elseBranch finite.2]))
  | .loop condition body, finite => by
    simp only [numbers, allFinite_append] at finite
    exact .node (.object (by simp [condition.toJson_proper finite.1, toJson_proper body finite.2]))
  | .functionDecl declaration, finite => .node (functionToJson_proper declaration finite)
  | .returns keyword value?, finite => by
    simp only [numbers, allFinite_append, allFinite_elim] at finite
    exact .node (.object (by simp [Token.toJson_proper finite.1, Expr.ofOption_proper finite.2]))
  | .classDecl name superclass? methods, finite => by
    simp only [numbers, allFinite_append, allFinite_elim] at finite
    have row : (Json.array (methodsToJson methods)).Proper :=
      .array (methodsToJson_proper methods finite.2)
    exact .node (.object (by simp [Token.toJson_proper finite.1.1,
      Expr.ofOption_proper finite.1.2, row]))

theorem allToJson_proper : ∀ statements : List Stmt, AllFinite (allNumbers statements) →
    ∀ item ∈ allToJson statements, item.Proper
  | [], _ => by simp [allToJson]
  | statement :: rest, finite => by
    simp only [allNumbers, allFinite_append] at finite
    exact List.forall_mem_cons.mpr
      ⟨toJson_proper statement finite.1, allToJson_proper rest finite.2⟩

theorem methodsToJson_proper : ∀ methods : List FunctionDecl, AllFinite (methodsNumbers methods) →
    ∀ item ∈ methodsToJson methods, item.Proper
  | [], _ => by simp [methodsToJson]
  | method :: rest, finite => by
    simp only [methodsNumbers, allFinite_append] at finite
    exact List.forall_mem_cons.mpr
      ⟨functionToJson_proper method finite.1, methodsToJson_proper rest finite.2⟩

theorem functionToJson_proper : ∀ declaration : FunctionDecl,
    AllFinite (functionNumbers declaration) → (functionToJson declaration).Proper
  | .mk name params body, finite => by
    simp only [functionNumbers, allFinite_append, allFinite_flatMap] at finite
    have names : (Json.array (params.map Token.toJson)).Proper :=
      .array (List.forall_mem_map.mpr fun token here => Token.toJson_proper (finite.1.2 token here))
    have row : (Json.array (allToJson body)).Proper := .array (allToJson_proper body finite.2)
    exact .object (by simp [Token.toJson_proper finite.1.1, names, row])

end

-- As for expressions. A branch without an alternative is apart from one with it, because no statement
-- is written as null.
mutual

theorem toJson_injective : ∀ statement other : Stmt, AllFinite statement.numbers →
    AllFinite other.numbers → statement.toJson = other.toJson → statement = other
  | .expression value, other, finite, finite', same => by
    cases other with
    | expression value' =>
      have content : value.toJson = value'.toJson := by simpa [toJson] using same
      rw [Expr.toJson_injective value value' finite finite' content]
    | _ => simp [toJson, toJson_branch] at same
  | .print value, other, finite, finite', same => by
    cases other with
    | print value' =>
      have content : value.toJson = value'.toJson := by simpa [toJson] using same
      rw [Expr.toJson_injective value value' finite finite' content]
    | _ => simp [toJson, toJson_branch] at same
  | .varDecl name initializer?, other, finite, finite', same => by
    cases other with
    | varDecl name' initializer'? =>
      simp only [numbers, allFinite_append, allFinite_elim] at finite finite'
      obtain ⟨first, second⟩ : name.toJson = name'.toJson ∧
          Json.ofOption Expr.toJson initializer? = Json.ofOption Expr.toJson initializer'? := by
        simpa [toJson] using same
      rw [Token.toJson_injective finite.1 finite'.1 first,
        Expr.ofOption_injective finite.2 finite'.2 second]
    | _ => simp [toJson, toJson_branch] at same
  | .block statements, other, finite, finite', same => by
    cases other with
    | block statements' =>
      have content : allToJson statements = allToJson statements' := by simpa [toJson] using same
      rw [allToJson_injective statements statements' finite finite' content]
    | _ => simp [toJson, toJson_branch] at same
  | .branch condition thenBranch none, other, finite, finite', same => by
    cases other with
    | branch condition' thenBranch' elseBranch'? =>
      cases elseBranch'? with
      | none =>
        simp only [numbers, allFinite_append] at finite finite'
        obtain ⟨first, second⟩ : condition.toJson = condition'.toJson ∧
            thenBranch.toJson = thenBranch'.toJson := by
          simpa [toJson] using same
        rw [Expr.toJson_injective condition condition' finite.1 finite'.1 first,
          toJson_injective thenBranch thenBranch' finite.2 finite'.2 second]
      | some elseBranch' =>
        simp only [toJson, Json.node_inj, Json.object.injEq, List.cons.injEq, Prod.mk.injEq] at same
        exact absurd same.2.2.2.1.2.symm (toJson_ne_null elseBranch')
    | _ => simp [toJson] at same
  | .branch condition thenBranch (some elseBranch), other, finite, finite', same => by
    cases other with
    | branch condition' thenBranch' elseBranch'? =>
      cases elseBranch'? with
      | none =>
        simp only [toJson, Json.node_inj, Json.object.injEq, List.cons.injEq, Prod.mk.injEq] at same
        exact absurd same.2.2.2.1.2 (toJson_ne_null elseBranch)
      | some elseBranch' =>
        simp only [numbers, allFinite_append] at finite finite'
        obtain ⟨first, second, third⟩ : condition.toJson = condition'.toJson ∧
            thenBranch.toJson = thenBranch'.toJson ∧ elseBranch.toJson = elseBranch'.toJson := by
          simpa [toJson] using same
        rw [Expr.toJson_injective condition condition' finite.1.1 finite'.1.1 first,
          toJson_injective thenBranch thenBranch' finite.1.2 finite'.1.2 second,
          toJson_injective elseBranch elseBranch' finite.2 finite'.2 third]
    | _ => simp [toJson] at same
  | .loop condition body, other, finite, finite', same => by
    cases other with
    | loop condition' body' =>
      simp only [numbers, allFinite_append] at finite finite'
      obtain ⟨first, second⟩ : condition.toJson = condition'.toJson ∧ body.toJson = body'.toJson := by
        simpa [toJson] using same
      rw [Expr.toJson_injective condition condition' finite.1 finite'.1 first,
        toJson_injective body body' finite.2 finite'.2 second]
    | _ => simp [toJson, toJson_branch] at same
  | .functionDecl declaration, other, finite, finite', same => by
    cases other with
    | functionDecl declaration' =>
      have content : functionToJson declaration = functionToJson declaration' := by
        simpa [toJson] using same
      rw [functionToJson_injective declaration declaration' finite finite' content]
    | _ => simp [toJson, toJson_branch] at same
  | .returns keyword value?, other, finite, finite', same => by
    cases other with
    | returns keyword' value'? =>
      simp only [numbers, allFinite_append, allFinite_elim] at finite finite'
      obtain ⟨first, second⟩ : keyword.toJson = keyword'.toJson ∧
          Json.ofOption Expr.toJson value? = Json.ofOption Expr.toJson value'? := by
        simpa [toJson] using same
      rw [Token.toJson_injective finite.1 finite'.1 first,
        Expr.ofOption_injective finite.2 finite'.2 second]
    | _ => simp [toJson, toJson_branch] at same
  | .classDecl name superclass? methods, other, finite, finite', same => by
    cases other with
    | classDecl name' superclass'? methods' =>
      simp only [numbers, allFinite_append, allFinite_elim] at finite finite'
      obtain ⟨first, second, third⟩ : name.toJson = name'.toJson ∧
          Json.ofOption Expr.toJson superclass? = Json.ofOption Expr.toJson superclass'? ∧
            methodsToJson methods = methodsToJson methods' := by
        simpa [toJson] using same
      rw [Token.toJson_injective finite.1.1 finite'.1.1 first,
        Expr.ofOption_injective finite.1.2 finite'.1.2 second,
        methodsToJson_injective methods methods' finite.2 finite'.2 third]
    | _ => simp [toJson, toJson_branch] at same

theorem allToJson_injective : ∀ statements other : List Stmt, AllFinite (allNumbers statements) →
    AllFinite (allNumbers other) → allToJson statements = allToJson other → statements = other
  | [], [], _, _, _ => rfl
  | [], _ :: _, _, _, same => by simp [allToJson] at same
  | _ :: _, [], _, _, same => by simp [allToJson] at same
  | statement :: rest, statement' :: rest', finite, finite', same => by
    simp only [allNumbers, allFinite_append] at finite finite'
    obtain ⟨head, tail⟩ := List.cons_eq_cons.mp same
    rw [toJson_injective statement statement' finite.1 finite'.1 head,
      allToJson_injective rest rest' finite.2 finite'.2 tail]

theorem methodsToJson_injective : ∀ methods other : List FunctionDecl,
    AllFinite (methodsNumbers methods) → AllFinite (methodsNumbers other) →
      methodsToJson methods = methodsToJson other → methods = other
  | [], [], _, _, _ => rfl
  | [], _ :: _, _, _, same => by simp [methodsToJson] at same
  | _ :: _, [], _, _, same => by simp [methodsToJson] at same
  | method :: rest, method' :: rest', finite, finite', same => by
    simp only [methodsNumbers, allFinite_append] at finite finite'
    obtain ⟨head, tail⟩ := List.cons_eq_cons.mp same
    rw [functionToJson_injective method method' finite.1 finite'.1 head,
      methodsToJson_injective rest rest' finite.2 finite'.2 tail]

theorem functionToJson_injective : ∀ declaration other : FunctionDecl,
    AllFinite (functionNumbers declaration) → AllFinite (functionNumbers other) →
      functionToJson declaration = functionToJson other → declaration = other
  | .mk name params body, .mk name' params' body', finite, finite', same => by
    simp only [functionNumbers, allFinite_append, allFinite_flatMap] at finite finite'
    obtain ⟨first, second, third⟩ : name.toJson = name'.toJson ∧
        params.map Token.toJson = params'.map Token.toJson ∧ allToJson body = allToJson body' := by
      simpa [functionToJson] using same
    rw [Token.toJson_injective finite.1.1 finite'.1.1 first,
      Token.map_toJson_injective finite.1.2 finite'.1.2 second,
      allToJson_injective body body' finite.2 finite'.2 third]

end

theorem programToJson_proper {program : List Stmt} (finite : AllFinite (allNumbers program)) :
    (programToJson program).Proper := .array (allToJson_proper program finite)

/-- Programs that are written alike, compact or indented, are the same, with every token and every
    distance, as long as all their numbers are finite. -/
theorem eq_of_written {program other : List Stmt} (finite : AllFinite (allNumbers program))
    (finite' : AllFinite (allNumbers other))
    (same : (programToJson program).compact = (programToJson other).compact ∨
      (programToJson program).pretty = (programToJson other).pretty) : program = other := by
  have value : programToJson program = programToJson other :=
    (programToJson_proper finite).eq_of_text (programToJson_proper finite') same
  exact allToJson_injective program other finite finite' (Json.array.inj value)

-- Without finiteness an infinity and an invalid result are written alike.
example : (programToJson [.print (.literal (.number (1 / 0)))]).compact =
    (programToJson [.print (.literal (.number (0 / 0)))]).compact := by decide +kernel

namespace Shown

def name : Token := ⟨.identifier, "a", none, 1⟩

def program (distance : Distance) : List Stmt :=
  [.block [.varDecl name (some (.literal (.number 0.5))), .print (.variable name distance)]]

/-- The text of a resolved program tells that the use of a name was resolved. -/
theorem resolved_eq_of_written :
    AllFinite (allNumbers (resolve (program none)).1) ∧ AllFinite (allNumbers (program (some 0))) ∧
      (programToJson (resolve (program none)).1).pretty = (programToJson (program (some 0))).pretty ∧
        (resolve (program none)).1 = program (some 0) := by
  have half : AllFinite [0.5] := allFinite_singleton.mpr (by decide +kernel)
  have finite : AllFinite (allNumbers (resolve (program none)).1) := half
  have finite' : AllFinite (allNumbers (program (some 0))) := half
  have same : (programToJson (resolve (program none)).1).pretty =
      (programToJson (program (some 0))).pretty := by decide +kernel
  exact ⟨finite, finite', same, eq_of_written finite finite' (.inr same)⟩

end Shown

end Stmt

end Lox
