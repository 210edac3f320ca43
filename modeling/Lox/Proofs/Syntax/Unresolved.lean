import Lox.Proofs.Syntax.Grammar

namespace Lox

/-- An expression whose tokens are all from a given stock, and whose names are not resolved. -/
inductive Expr.Unresolved (stock : Token → Prop) : Expr → Prop where
  | literal {value : Constant} : Unresolved stock (.literal value)
  | unary {operator : Token} {right : Expr} (sign : stock operator)
      (operand : Unresolved stock right) : Unresolved stock (.unary operator right)
  | binary {left right : Expr} {operator : Token} (first : Unresolved stock left)
      (applied : stock operator) (second : Unresolved stock right) :
      Unresolved stock (.binary left operator right)
  | logical {left right : Expr} {operator : Token} (first : Unresolved stock left)
      (applied : stock operator) (second : Unresolved stock right) :
      Unresolved stock (.logical left operator right)
  | grouping {inner : Expr} (within : Unresolved stock inner) : Unresolved stock (.grouping inner)
  | variable {name : Token} (named : stock name) : Unresolved stock (.variable name none)
  | assign {name : Token} {value : Expr} (named : stock name) (right : Unresolved stock value) :
      Unresolved stock (.assign name value none)
  | call {callee : Expr} {paren : Token} {arguments : List Expr} (called : Unresolved stock callee)
      (closes : stock paren) (given : ∀ e ∈ arguments, Unresolved stock e) :
      Unresolved stock (.call callee paren arguments)
  | get {object : Expr} {name : Token} (owner : Unresolved stock object) (named : stock name) :
      Unresolved stock (.get object name)
  | set {object value : Expr} {name : Token} (owner : Unresolved stock object) (named : stock name)
      (right : Unresolved stock value) : Unresolved stock (.set object name value)
  | this {keyword : Token} (here : stock keyword) : Unresolved stock (.this keyword none)
  | super {keyword method : Token} (here : stock keyword) (named : stock method) :
      Unresolved stock (.super keyword method none)

inductive Stmt.Unresolved (stock : Token → Prop) : Stmt → Prop where
  | expression {value : Expr} (evaluated : value.Unresolved stock) :
      Unresolved stock (.expression value)
  | print {value : Expr} (printed : value.Unresolved stock) : Unresolved stock (.print value)
  | varDecl {name : Token} {initializer? : Option Expr} (named : stock name)
      (initial : ∀ e ∈ initializer?, e.Unresolved stock) :
      Unresolved stock (.varDecl name initializer?)
  | block {body : List Stmt} (inside : ∀ s ∈ body, Unresolved stock s) :
      Unresolved stock (.block body)
  | branch {condition : Expr} {thenBranch : Stmt} {elseBranch? : Option Stmt}
      (tested : condition.Unresolved stock) (first : Unresolved stock thenBranch)
      (second : ∀ s ∈ elseBranch?, Unresolved stock s) :
      Unresolved stock (.branch condition thenBranch elseBranch?)
  | loop {condition : Expr} {body : Stmt} (tested : condition.Unresolved stock)
      (repeated : Unresolved stock body) : Unresolved stock (.loop condition body)
  | functionDecl {name : Token} {params : List Token} {body : List Stmt} (named : stock name)
      (given : ∀ param ∈ params, stock param) (inside : ∀ s ∈ body, Unresolved stock s) :
      Unresolved stock (.functionDecl (.mk name params body))
  | returns {keyword : Token} {value? : Option Expr} (here : stock keyword)
      (returned : ∀ e ∈ value?, e.Unresolved stock) : Unresolved stock (.returns keyword value?)
  | classDecl {name : Token} {superclass? : Option Expr} {methods : List FunctionDecl}
      (named : stock name) (above : ∀ e ∈ superclass?, e.Unresolved stock)
      (called : ∀ method ∈ methods, stock method.name)
      (given : ∀ method ∈ methods, ∀ param ∈ method.params, stock param)
      (inside : ∀ method ∈ methods, ∀ s ∈ method.body, Unresolved stock s) :
      Unresolved stock (.classDecl name superclass? methods)

structure FunctionDecl.Unresolved (stock : Token → Prop) (declaration : FunctionDecl) : Prop where
  named : stock declaration.name
  given : ∀ param ∈ declaration.params, stock param
  inside : ∀ s ∈ declaration.body, s.Unresolved stock

/-- The tree of a loop with clauses has what loops, and blocks of two statements, get from their parts. -/
theorem Grammar.desugared_of {simple : Expr → Prop} {start whole : Stmt → Prop}
    (endless : simple (.literal (.bool true)))
    (loop : ∀ condition body, simple condition → whole body → whole (.loop condition body))
    (again : ∀ body increment, whole body → simple increment →
      whole (.block [body, .expression increment]))
    (block : ∀ initializer loop, start initializer → whole loop → whole (.block [initializer, loop]))
    {initializer? : Option Stmt} {condition? increment? : Option Expr} {body : Stmt}
    (initial : ∀ s ∈ initializer?, start s) (tested : ∀ e ∈ condition?, simple e)
    (counted : ∀ e ∈ increment?, simple e) (repeated : whole body) :
    whole (desugared initializer? condition? increment? body) := by
  have condition : simple (condition?.getD (.literal (.bool true))) := by
    cases condition? with
    | none => exact endless
    | some condition => exact tested condition rfl
  have looping {body : Stmt} (inside : whole body) := loop _ body condition inside
  cases increment? with
  | none =>
    cases initializer? with
    | none => exact looping repeated
    | some initializer => exact block _ _ (initial initializer rfl) (looping repeated)
  | some increment =>
    have round := looping (again _ _ repeated (counted increment rfl))
    cases initializer? with
    | none => exact round
    | some initializer => exact block _ _ (initial initializer rfl) round

namespace Grammar

open Parse (Level)

variable {stock : Token → Prop}

theorem operation_unresolved {level : Level} {left right : Expr} {operator : Token}
    (first : left.Unresolved stock) (applied : stock operator) (second : right.Unresolved stock) :
    ((operation level).tree left operator right).Unresolved stock := by
  cases level with
  | or | and => exact .logical first applied second
  | equality | comparison | term | factor => exact .binary first applied second

mutual

theorem Expression.unresolved {ts : List Token} {e : Expr} : Expression ts e →
    (∀ token ∈ ts, stock token) → e.Unresolved stock
  | .assign _ _ right, all => by
    simp only [List.forall_mem_cons] at all
    exact .assign all.1 (right.unresolved all.2.2)
  | .set owner _ _ _ right, all => by
    simp only [List.forall_mem_append, List.forall_mem_cons] at all
    exact .set (owner.unresolved all.1) all.2.2.1 (right.unresolved all.2.2.2.2)
  | .plain chained, all => chained.unresolved all

theorem Chain.unresolved {level : Level} {ts : List Token} {e : Expr} : Chain level ts e →
    (∀ token ∈ ts, stock token) → e.Unresolved stock
  | .one single, all => single.unresolved all
  | .more before _ last, all => by
    simp only [List.forall_mem_append, List.forall_mem_cons] at all
    exact operation_unresolved (before.unresolved all.1) all.2.1 (last.unresolved all.2.2)

theorem Operand.unresolved {level : Level} {ts : List Token} {e : Expr} : Operand level ts e →
    (∀ token ∈ ts, stock token) → e.Unresolved stock
  | .chain _ chained, all => chained.unresolved all
  | .unary _ single, all => single.unresolved all

theorem Unary.unresolved {ts : List Token} {e : Expr} : Unary ts e →
    (∀ token ∈ ts, stock token) → e.Unresolved stock
  | .operator _ operand, all => by
    simp only [List.forall_mem_cons] at all
    exact .unary all.1 (operand.unresolved all.2)
  | .call called, all => called.unresolved all

theorem Call.unresolved {ts : List Token} {e : Expr} : Call ts e →
    (∀ token ∈ ts, stock token) → e.Unresolved stock
  | .primary atom, all => atom.unresolved all
  | .call called _ given _ _, all => by
    simp only [List.forall_mem_append, List.forall_mem_cons] at all
    exact .call (called.unresolved all.1) all.2.2.2.1 (given.unresolved all.2.2.1)
  | .get owner _ _, all => by
    simp only [List.forall_mem_append, List.forall_mem_cons] at all
    exact .get (owner.unresolved all.1) all.2.2.1

theorem Arguments.unresolved {ts : List Token} {es : List Expr} : Arguments ts es →
    (∀ token ∈ ts, stock token) → ∀ e ∈ es, e.Unresolved stock
  | .none, _ => nofun
  | .some given, all => given.unresolved all

theorem ArgumentList.unresolved {ts : List Token} {es : List Expr} : ArgumentList ts es →
    (∀ token ∈ ts, stock token) → ∀ e ∈ es, e.Unresolved stock
  | .one given, all => List.forall_mem_singleton.mpr (given.unresolved all)
  | .more given _ others, all => by
    simp only [List.forall_mem_append, List.forall_mem_cons] at all
    exact List.forall_mem_cons.mpr ⟨given.unresolved all.1, others.unresolved all.2.2⟩

theorem Primary.unresolved {ts : List Token} {e : Expr} : Primary ts e →
    (∀ token ∈ ts, stock token) → e.Unresolved stock
  | .no _, _ | .yes _, _ | .nil _, _ | .literal _ _, _ => .literal
  | .super _ _ _, all => by
    simp only [List.forall_mem_cons] at all
    exact .super all.1 all.2.2.1
  | .this _, all => .this (all _ List.mem_cons_self)
  | .variable _, all => .variable (all _ List.mem_cons_self)
  | .grouping _ within _, all => by
    simp only [List.forall_mem_append, List.forall_mem_cons] at all
    exact .grouping (within.unresolved all.2.1)

end

variable {ts : List Token}

theorem Optional.unresolved {e? : Option Expr} (given : Optional ts e?)
    (all : ∀ token ∈ ts, stock token) : ∀ e ∈ e?, e.Unresolved stock := by
  cases given with
  | none => exact nofun
  | some given => exact fun e same => Option.some.inj same ▸ given.unresolved all

theorem Variable.unresolved {s : Stmt} (declared : Variable ts s)
    (all : ∀ token ∈ ts, stock token) : s.Unresolved stock := by
  cases declared with
  | bare => exact .varDecl (all _ (by simp)) nofun
  | initialized _ _ _ right =>
    simp only [List.forall_mem_append, List.forall_mem_cons] at all
    exact .varDecl all.2.1 fun e same => Option.some.inj same ▸ right.unresolved all.2.2.2.1

theorem ParameterList.subset {params : List Token} (given : ParameterList ts params) :
    params ⊆ ts := by
  induction given with
  | one => exact List.Subset.refl _
  | more _ _ _ ih => exact List.cons_subset_cons _ (List.subset_cons_of_subset _ ih)

theorem Parameters.subset {params : List Token} (given : Parameters ts params) : params ⊆ ts := by
  cases given with
  | none => exact List.Subset.refl _
  | some given => exact given.subset

theorem Initializer.unresolved {initializer? : Option Stmt} (initial : Initializer ts initializer?)
    (all : ∀ token ∈ ts, stock token) : ∀ s ∈ initializer?, s.Unresolved stock := by
  cases initial with
  | none => exact nofun
  | «variable» declared => exact fun s same => Option.some.inj same ▸ declared.unresolved all
  | expression given =>
    simp only [List.forall_mem_append] at all
    exact fun s same => Option.some.inj same ▸ .expression (given.unresolved all.1)

theorem pair_unresolved {first second : Stmt} (one : first.Unresolved stock)
    (two : second.Unresolved stock) : (Stmt.block [first, second]).Unresolved stock := by
  refine .block fun s member => ?_
  rcases List.mem_cons.mp member with rfl | later
  · exact one
  · exact List.mem_singleton.mp later ▸ two

variable {nearest : Prop}

mutual

theorem Declaration.unresolved {ts : List Token} {s : Stmt} : Declaration nearest ts s →
    (∀ token ∈ ts, stock token) → s.Unresolved stock
  | .class _ _ _ inside _, all => by
    simp only [List.forall_mem_append, List.forall_mem_cons] at all
    have methods := inside.unresolved all.2.2.2.1
    exact .classDecl all.2.1 nofun (fun method member => (methods method member).named)
      (fun method member => (methods method member).given)
      fun method member => (methods method member).inside
  | .subclass _ _ _ _ _ inside _, all => by
    simp only [List.forall_mem_append, List.forall_mem_cons] at all
    have methods := inside.unresolved all.2.2.2.2.2.1
    exact .classDecl all.2.1 (fun e same => Option.some.inj same ▸ .variable all.2.2.2.1)
      (fun method member => (methods method member).named)
      (fun method member => (methods method member).given)
      fun method member => (methods method member).inside
  | @Declaration.function _ _ _ (.mk _ _ _) _ declared, all => by
    simp only [List.forall_mem_cons] at all
    have function := declared.unresolved all.2
    exact .functionDecl function.named function.given function.inside
  | .variable declared, all => declared.unresolved all
  | .statement whole, all => whole.unresolved all

theorem Declarations.unresolved {ts : List Token} {ss : List Stmt} : Declarations nearest ts ss →
    (∀ token ∈ ts, stock token) → ∀ s ∈ ss, s.Unresolved stock
  | .nil, _ => nofun
  | .cons first others, all => by
    simp only [List.forall_mem_append] at all
    exact List.forall_mem_cons.mpr ⟨first.unresolved all.1, others.unresolved all.2⟩

theorem Methods.unresolved {ts : List Token} {methods : List FunctionDecl} :
    Methods nearest ts methods → (∀ token ∈ ts, stock token) →
      ∀ method ∈ methods, method.Unresolved stock
  | .nil, _ => nofun
  | .cons first others, all => by
    simp only [List.forall_mem_append] at all
    exact List.forall_mem_cons.mpr ⟨first.unresolved all.1, others.unresolved all.2⟩

theorem Function.unresolved {ts : List Token} {declaration : FunctionDecl} :
    Function nearest ts declaration → (∀ token ∈ ts, stock token) → declaration.Unresolved stock
  | .mk _ _ given _ _ _ inside _, all => by
    simp only [List.forall_mem_append, List.forall_mem_cons] at all
    exact ⟨all.1, fun param member => all.2.2.1 param (given.subset member),
      inside.unresolved all.2.2.2.2.2.1⟩

theorem Statement.unresolved {dangling : Bool} {ts : List Token} {s : Stmt} :
    Statement nearest dangling ts s → (∀ token ∈ ts, stock token) → s.Unresolved stock
  | .expression given _, all => by
    simp only [List.forall_mem_append] at all
    exact .expression (given.unresolved all.1)
  | .print _ given _, all => by
    simp only [List.forall_mem_append, List.forall_mem_cons] at all
    exact .print (given.unresolved all.2.1)
  | .returns _ given _, all => by
    simp only [List.forall_mem_append, List.forall_mem_cons] at all
    exact .returns all.1 (given.unresolved all.2.1)
  | .loop _ _ tested _ repeated, all => by
    simp only [List.forall_mem_append, List.forall_mem_cons] at all
    exact .loop (tested.unresolved all.2.2.1) (repeated.unresolved all.2.2.2.2)
  | .block _ inside _, all => by
    simp only [List.forall_mem_append, List.forall_mem_cons] at all
    exact .block (inside.unresolved all.2.1)
  | .forLoop _ _ initial tested _ counted _ repeated, all => by
    simp only [List.forall_mem_append, List.forall_mem_cons] at all
    obtain ⟨-, -, first, second, -, third, -, fourth⟩ := all
    exact desugared_of .literal (fun _ _ => .loop) (fun _ _ inside again => pair_unresolved inside (.expression again))
      (fun _ _ => pair_unresolved) (initial.unresolved first) (tested.unresolved second)
      (counted.unresolved third) (repeated.unresolved fourth)
  | .branch _ _ tested _ first, all => by
    simp only [List.forall_mem_append, List.forall_mem_cons] at all
    exact .branch (tested.unresolved all.2.2.1) (first.unresolved all.2.2.2.2) nofun
  | .choice _ _ tested _ first _ _ second, all => by
    simp only [List.forall_mem_append, List.forall_mem_cons] at all
    obtain ⟨-, -, condition, -, thenPart, -, elsePart⟩ := all
    exact .branch (tested.unresolved condition) (first.unresolved thenPart)
      fun s same => Option.some.inj same ▸ second.unresolved elsePart

end

end Grammar
end Lox
