import Mathlib.Data.List.TakeDrop
import Lox.Proofs.Source.Words
import Lox.Proofs.Syntax.Soundness
import Lox.Proofs.Syntax.Unresolved

namespace Lox

inductive Expr.Written : Expr → Prop where
  | literal {value : Constant} : Written (.literal value)
  | unary {operator : Token} {right : Expr} (operand : Written right) :
      Written (.unary operator right)
  | binary {left right : Expr} {operator : Token} (first : Written left) (second : Written right) :
      Written (.binary left operator right)
  | logical {left right : Expr} {operator : Token} (first : Written left) (second : Written right) :
      Written (.logical left operator right)
  | grouping {inner : Expr} (within : Written inner) : Written (.grouping inner)
  | variable {name : Token} (plain : name.Plain) : Written (.variable name none)
  | assign {name : Token} {value : Expr} (plain : name.Plain) (assigned : Written value) :
      Written (.assign name value none)
  | call {callee : Expr} {paren : Token} {arguments : List Expr} (called : Written callee)
      (given : ∀ e ∈ arguments, Written e) : Written (.call callee paren arguments)
  | get {object : Expr} {name : Token} (owner : Written object) : Written (.get object name)
  | set {object value : Expr} {name : Token} (owner : Written object) (assigned : Written value) :
      Written (.set object name value)
  | this {keyword : Token} (spelled : keyword.lexeme = "this") : Written (.this keyword none)
  | super {keyword method : Token} (spelled : keyword.lexeme = "super") :
      Written (.super keyword method none)

def Stmt.declares : Stmt → Bool
  | varDecl _ _ | functionDecl _ | classDecl _ _ _ => true
  | expression _ | print _ | block _ | branch _ _ _ | loop _ _ | returns _ _ => false

inductive Stmt.Written : Stmt → Prop where
  | expression {value : Expr} (evaluated : value.Written) : Written (.expression value)
  | print {value : Expr} (printed : value.Written) : Written (.print value)
  | varDecl {name : Token} {initializer? : Option Expr} (plain : name.Plain)
      (initial : ∀ e ∈ initializer?, e.Written) : Written (.varDecl name initializer?)
  | block {body : List Stmt} (inside : ∀ s ∈ body, Written s) : Written (.block body)
  | branch {condition : Expr} {thenBranch : Stmt} {elseBranch? : Option Stmt}
      (tested : condition.Written) (first : Written thenBranch)
      (bare : thenBranch.declares = false) (second : ∀ s ∈ elseBranch?, Written s)
      (others : ∀ s ∈ elseBranch?, s.declares = false) :
      Written (.branch condition thenBranch elseBranch?)
  | loop {condition : Expr} {body : Stmt} (tested : condition.Written) (repeated : Written body)
      (bare : body.declares = false) : Written (.loop condition body)
  | functionDecl {name : Token} {params : List Token} {body : List Stmt} (plain : name.Plain)
      (named : ∀ param ∈ params, param.Plain) (inside : ∀ s ∈ body, Written s) :
      Written (.functionDecl (.mk name params body))
  | returns {keyword : Token} {value? : Option Expr} (returned : ∀ e ∈ value?, e.Written) :
      Written (.returns keyword value?)
  | classDecl {name : Token} {superclass? : Option Expr} {methods : List FunctionDecl}
      (plain : name.Plain)
      (above : ∀ e ∈ superclass?, ∃ parent : Token, parent.Plain ∧ e = .variable parent none)
      (named : ∀ method ∈ methods, ∀ param ∈ method.params, param.Plain)
      (inside : ∀ method ∈ methods, ∀ s ∈ method.body, Written s) :
      Written (.classDecl name superclass? methods)

structure FunctionDecl.Written (declaration : FunctionDecl) : Prop where
  plain : declaration.name.Plain
  named : ∀ param ∈ declaration.params, param.Plain
  inside : ∀ s ∈ declaration.body, s.Written

namespace Grammar

open Parse (Level)

theorem operation_written (level : Level) {left right : Expr} (operator : Token)
    (first : left.Written) (second : right.Written) :
    ((operation level).tree left operator right).Written := by
  cases level with
  | or | and => exact .logical first second
  | equality | comparison | term | factor => exact .binary first second

mutual

theorem Expression.written {ts : List Token} {e : Expr} :
    Expression ts e → Spelled ts → e.Written
  | .assign named _ right, spelled => by
    simp only [Spelled, List.forall_mem_cons] at spelled
    exact .assign (spelled.1.plain named) (right.written spelled.2.2)
  | .set owner _ _ _ right, spelled => by
    simp only [Spelled, List.forall_mem_append, List.forall_mem_cons] at spelled
    exact .set (owner.written spelled.1) (right.written spelled.2.2.2.2)
  | .plain chained, spelled => chained.written spelled

theorem Chain.written {level : Level} {ts : List Token} {e : Expr} :
    Chain level ts e → Spelled ts → e.Written
  | .one single, spelled => single.written spelled
  | .more before _ last, spelled => by
    simp only [Spelled, List.forall_mem_append, List.forall_mem_cons] at spelled
    exact operation_written level _ (before.written spelled.1) (last.written spelled.2.2)

theorem Operand.written {level : Level} {ts : List Token} {e : Expr} :
    Operand level ts e → Spelled ts → e.Written
  | .chain _ chained, spelled => chained.written spelled
  | .unary _ single, spelled => single.written spelled

theorem Unary.written {ts : List Token} {e : Expr} : Unary ts e → Spelled ts → e.Written
  | .operator _ operand, spelled => .unary (operand.written spelled.tail)
  | .call called, spelled => called.written spelled

theorem Call.written {ts : List Token} {e : Expr} : Call ts e → Spelled ts → e.Written
  | .primary atom, spelled => atom.written spelled
  | .call called _ given _ _, spelled => by
    simp only [Spelled, List.forall_mem_append, List.forall_mem_cons] at spelled
    exact .call (called.written spelled.1) (given.written spelled.2.2.1)
  | .get owner _ _, spelled => by
    simp only [Spelled, List.forall_mem_append] at spelled
    exact .get (owner.written spelled.1)

theorem Arguments.written {ts : List Token} {es : List Expr} :
    Arguments ts es → Spelled ts → ∀ e ∈ es, e.Written
  | .none, _ => nofun
  | .some given, spelled => given.written spelled

theorem ArgumentList.written {ts : List Token} {es : List Expr} :
    ArgumentList ts es → Spelled ts → ∀ e ∈ es, e.Written
  | .one given, spelled => List.forall_mem_singleton.mpr (given.written spelled)
  | .more given _ others, spelled => by
    simp only [Spelled, List.forall_mem_append, List.forall_mem_cons] at spelled
    exact List.forall_mem_cons.mpr ⟨given.written spelled.1, others.written spelled.2.2⟩

theorem Primary.written {ts : List Token} {e : Expr} : Primary ts e → Spelled ts → e.Written
  | .no _, _ | .yes _, _ | .nil _, _ | .literal _ _, _ => .literal
  | .super kind _ _, spelled => .super (spelled.head.super kind)
  | .this kind, spelled => .this (spelled.head.this kind)
  | .variable kind, spelled => .variable (spelled.head.plain kind)
  | .grouping _ within _, spelled => by
    simp only [Spelled, List.forall_mem_append, List.forall_mem_cons] at spelled
    exact .grouping (within.written spelled.2.1)

end

variable {ts : List Token}

theorem Optional.written {e? : Option Expr} (given : Optional ts e?) (spelled : Spelled ts) :
    ∀ e ∈ e?, e.Written := by
  cases given with
  | none => exact fun e same => absurd same (Option.not_mem_none e)
  | some given => exact fun e same => Option.some.inj same ▸ given.written spelled

theorem Variable.written {s : Stmt} (declared : Variable ts s) (spelled : Spelled ts) :
    s.Written := by
  cases declared with
  | bare _ named _ =>
    exact .varDecl (spelled.tail.head.plain named) fun e same => absurd same (Option.not_mem_none e)
  | initialized _ named _ right =>
    simp only [Spelled, List.forall_mem_append, List.forall_mem_cons] at spelled
    exact .varDecl (spelled.2.1.plain named) fun e same =>
      Option.some.inj same ▸ right.written spelled.2.2.2.1

theorem ParameterList.plain {params : List Token} (given : ParameterList ts params)
    (spelled : Spelled ts) : ∀ param ∈ params, param.Plain := by
  induction given with
  | one named => exact List.forall_mem_singleton.mpr (spelled.head.plain named)
  | more named _ _ ih =>
    exact List.forall_mem_cons.mpr ⟨spelled.head.plain named, ih spelled.tail.tail⟩

theorem Parameters.plain {params : List Token} (given : Parameters ts params)
    (spelled : Spelled ts) : ∀ param ∈ params, param.Plain := by
  cases given with
  | none => exact nofun
  | some given => exact given.plain spelled

theorem Initializer.written {initializer? : Option Stmt} (initial : Initializer ts initializer?)
    (spelled : Spelled ts) : ∀ s ∈ initializer?, s.Written := by
  cases initial with
  | none => exact fun s same => absurd same (Option.not_mem_none s)
  | «variable» declared => exact fun s same => Option.some.inj same ▸ declared.written spelled
  | expression given =>
    simp only [Spelled, List.forall_mem_append] at spelled
    exact fun s same => Option.some.inj same ▸ .expression (given.written spelled.1)

/-- A statement of the grammar that is no declaration. -/
def Body (s : Stmt) : Prop := s.Written ∧ s.declares = false

theorem pair_written {first second : Stmt} (one : first.Written) (two : second.Written) :
    Body (.block [first, second]) := by
  refine ⟨.block fun s member => ?_, rfl⟩
  rcases List.mem_cons.mp member with rfl | later
  · exact one
  · exact List.mem_singleton.mp later ▸ two

variable {nearest : Prop}

mutual

theorem Declaration.written {ts : List Token} {s : Stmt} :
    Declaration nearest ts s → Spelled ts → s.Written
  | .class _ named _ inside _, spelled => by
    simp only [Spelled, List.forall_mem_append, List.forall_mem_cons] at spelled
    have methods := inside.written spelled.2.2.2.1
    exact .classDecl (spelled.2.1.plain named) nofun (fun method member => (methods method member).named)
      fun method member => (methods method member).inside
  | .subclass _ named _ above _ inside _, spelled => by
    simp only [Spelled, List.forall_mem_append, List.forall_mem_cons] at spelled
    obtain ⟨-, own, -, parent, -, body, -⟩ := spelled
    have methods := inside.written body
    exact .classDecl (own.plain named)
      (fun e same => ⟨_, parent.plain above, (Option.some.inj same).symm⟩)
      (fun method member => (methods method member).named)
      fun method member => (methods method member).inside
  | @Declaration.function _ _ _ (.mk _ _ _) _ declared, spelled => by
    have function := declared.written spelled.tail
    exact .functionDecl function.plain function.named function.inside
  | .variable declared, spelled => declared.written spelled
  | .statement whole, spelled => (whole.written spelled).1

theorem Declarations.written {ts : List Token} {ss : List Stmt} :
    Declarations nearest ts ss → Spelled ts → ∀ s ∈ ss, s.Written
  | .nil, _ => nofun
  | .cons first others, spelled => by
    simp only [Spelled, List.forall_mem_append] at spelled
    exact List.forall_mem_cons.mpr ⟨first.written spelled.1, others.written spelled.2⟩

theorem Methods.written {ts : List Token} {methods : List FunctionDecl} :
    Methods nearest ts methods → Spelled ts → ∀ method ∈ methods, method.Written
  | .nil, _ => nofun
  | .cons first others, spelled => by
    simp only [Spelled, List.forall_mem_append] at spelled
    exact List.forall_mem_cons.mpr ⟨first.written spelled.1, others.written spelled.2⟩

theorem Function.written {ts : List Token} {declaration : FunctionDecl} :
    Function nearest ts declaration → Spelled ts → declaration.Written
  | .mk named _ given _ _ _ inside _, spelled => by
    simp only [Spelled, List.forall_mem_append, List.forall_mem_cons] at spelled
    exact ⟨spelled.1.plain named, given.plain spelled.2.2.1, inside.written spelled.2.2.2.2.2.1⟩

theorem Statement.written {dangling : Bool} {ts : List Token} {s : Stmt} :
    Statement nearest dangling ts s → Spelled ts → Body s
  | .expression given _, spelled => by
    simp only [Spelled, List.forall_mem_append] at spelled
    exact ⟨.expression (given.written spelled.1), rfl⟩
  | .print _ given _, spelled => by
    simp only [Spelled, List.forall_mem_append, List.forall_mem_cons] at spelled
    exact ⟨.print (given.written spelled.2.1), rfl⟩
  | .returns _ given _, spelled => by
    simp only [Spelled, List.forall_mem_append, List.forall_mem_cons] at spelled
    exact ⟨.returns (given.written spelled.2.1), rfl⟩
  | .loop _ _ tested _ repeated, spelled => by
    simp only [Spelled, List.forall_mem_append, List.forall_mem_cons] at spelled
    have body := repeated.written spelled.2.2.2.2
    exact ⟨.loop (tested.written spelled.2.2.1) body.1 body.2, rfl⟩
  | .block _ inside _, spelled => by
    simp only [Spelled, List.forall_mem_append, List.forall_mem_cons] at spelled
    exact ⟨.block (inside.written spelled.2.1), rfl⟩
  | .forLoop _ _ initial tested _ counted _ repeated, spelled => by
    simp only [Spelled, List.forall_mem_append, List.forall_mem_cons] at spelled
    obtain ⟨-, -, first, second, -, third, -, fourth⟩ := spelled
    exact desugared_of .literal (fun _ _ test body => ⟨.loop test body.1 body.2, rfl⟩)
      (fun _ _ inside again => pair_written inside.1 (.expression again))
      (fun _ _ starts loop => pair_written starts loop.1) (initial.written first)
      (tested.written second) (counted.written third) (repeated.written fourth)
  | .branch _ _ tested _ first, spelled => by
    simp only [Spelled, List.forall_mem_append, List.forall_mem_cons] at spelled
    have thenPart := first.written spelled.2.2.2.2
    exact ⟨.branch (tested.written spelled.2.2.1) thenPart.1 thenPart.2 nofun nofun, rfl⟩
  | .choice _ _ tested _ first _ _ second, spelled => by
    simp only [Spelled, List.forall_mem_append, List.forall_mem_cons] at spelled
    obtain ⟨-, -, condition, -, here, -, there⟩ := spelled
    have thenPart := first.written here
    have elsePart := second.written there
    exact ⟨.branch (tested.written condition) thenPart.1 thenPart.2
      (fun s same => Option.some.inj same ▸ elsePart.1)
      fun s same => Option.some.inj same ▸ elsePart.2, rfl⟩

end

end Grammar

theorem Parse.untilEnd_spelled {tokens before : List Token} {eof : Token}
    (cut : untilEnd tokens = .ok (before, eof)) (spelled : Spelled tokens) : Spelled before := by
  unfold untilEnd at cut
  split at cut
  · cases cut
  · split at cut
    · rw [List.span_eq_takeWhile_dropWhile] at cut
      cases cut
      exact fun token member => spelled token ((List.takeWhile_sublist _).subset member)
    · cases cut

theorem parse_written {tokens : List Token} {program : List Stmt}
    (parsed : parse tokens = .ok program) (spelled : Spelled tokens) : ∀ s ∈ program, s.Written := by
  obtain ⟨before, eof, cut, derived⟩ := Parse.derived_of_parse True parsed
  exact derived.written (Parse.untilEnd_spelled cut spelled)

theorem parseExpression_written {tokens : List Token} {e : Expr}
    (parsed : parseExpression tokens = .ok e) (spelled : Spelled tokens) : e.Written := by
  obtain ⟨before, eof, cut, derived⟩ := Parse.derived_of_parseExpression parsed
  exact derived.written (Parse.untilEnd_spelled cut spelled)

theorem parseProgram_eq_ok {source : List UInt8} {program : List Stmt} :
    parseProgram source = .ok program ↔
      parse (scanTokens source).1 = .ok program ∧ (scanTokens source).2 = [] := by
  unfold parseProgram
  dsimp only
  cases parse (scanTokens source).1 <;> cases (scanTokens source).2 <;> simp

/-- A source is compiled to its tree with the names resolved, if there are no errors. -/
theorem compile_eq_ok {source : List UInt8} {program : List Stmt} :
    compile source = .ok program ↔
      ∃ tree, parseProgram source = .ok tree ∧ resolve tree = (program, []) := by
  unfold compile
  cases parseProgram source with
  | error errors => exact ⟨nofun, fun ⟨tree, parsed, _⟩ => nomatch parsed⟩
  | ok tree =>
    refine ⟨fun compiled => ⟨tree, rfl, ?_⟩, ?_⟩
    · replace compiled : compileTree tree = .ok program := compiled
      unfold compileTree at compiled
      split at compiled <;> cases compiled
      assumption
    · rintro ⟨_, ⟨⟩, resolved⟩
      show compileTree tree = .ok program
      rw [compileTree, resolved]

theorem parseProgram_written {source : List UInt8} {program : List Stmt}
    (parsed : parseProgram source = .ok program) : ∀ s ∈ program, s.Written :=
  parse_written (parseProgram_eq_ok.mp parsed).1 (scanTokens_spelled source)

/-- A source is compiled as an expression if its characters, its grammar and its names are right. -/
theorem compileExpression_eq_ok {source : List UInt8} {e : Expr} :
    compileExpression source = .ok e ↔ (scanTokens source).2 = [] ∧
      ∃ tree, parseExpression (scanTokens source).1 = .ok tree ∧
        resolveExpression tree = (e, []) := by
  unfold compileExpression
  rcases scanTokens source with ⟨tokens, _ | ⟨error, errors⟩⟩
  · dsimp only
    cases parseExpression tokens with
    | error errors => exact ⟨nofun, fun ⟨_, _, parsed, _⟩ => nomatch parsed⟩
    | ok tree =>
      refine ⟨fun compiled => ⟨rfl, tree, rfl, ?_⟩, ?_⟩
      · dsimp only [compileExpressionTree] at compiled
        split at compiled <;> cases compiled
        assumption
      · rintro ⟨-, _, ⟨⟩, resolved⟩
        dsimp only
        rw [compileExpressionTree, resolved]
  · exact ⟨nofun, fun ⟨clean, _⟩ => nomatch clean⟩

theorem compileExpression_written {source : List UInt8} {e : Expr}
    (compiled : compileExpression source = .ok e) :
    ∃ tree : Expr, tree.Written ∧ resolveExpression tree = (e, []) := by
  obtain ⟨_, tree, parsed, resolved⟩ := compileExpression_eq_ok.mp compiled
  exact ⟨tree, parseExpression_written parsed (scanTokens_spelled source), resolved⟩

end Lox
