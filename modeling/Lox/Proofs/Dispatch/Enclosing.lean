import Lox.Proofs.Scoping.Visibility
import Lox.Proofs.Scoping.Walk
import Lox.Proofs.Session.Grammatical

namespace Lox

open Resolve

namespace Resolve

def errors (context : Context) (scopes : List Names) : Task → List BindingError
  | .expression e => (expression context scopes e).2
  | .expressions es => (expressions context scopes es).2
  | .statement s => (statement context scopes s).errors
  | .statements ss => (statements context scopes ss).errors
  | .loop condition body =>
    (expression context scopes condition).2 ++ (statement context scopes body).errors
  | .call _ _ _ | .apply _ _ _ => []

end Resolve

def Work.errors : Work → List BindingError
  | program ss | statements ss => (resolve ss).2
  | expression e => (resolveExpression e).2

variable {source : Work} {context : Context} {scopes : List Names} {constructs : List Construct}
  {node : Task}

theorem Expr.Part.clean {e x : Expr} (part : e.Part x)
    (clean : (Resolve.expression context scopes e).2 = []) :
    (Resolve.expression context scopes x).2 = [] := by
  cases part with
  | grouping | unary | assigned | getObject => exact clean
  | binaryLeft | logicalLeft | callee | setValue => exact (List.append_eq_nil_iff.mp clean).1
  | binaryRight | logicalRight | setObject => exact (List.append_eq_nil_iff.mp clean).2

theorem Resolve.methods_clean {declared : List FunctionDecl}
    (clean : (methods context scopes declared).2 = []) {declaration : FunctionDecl}
    (member : declaration ∈ declared) :
    (function { context with function := methodContext declaration.name } scopes declaration).2 =
      [] := by
  induction declared with
  | nil => cases member
  | cons method rest ih =>
    cases method
    obtain ⟨first, others⟩ := List.append_eq_nil_iff.mp clean
    rcases List.mem_cons.mp member with rfl | later
    · exact first
    · exact ih others later

theorem Visits.clean (visited : Visits source context scopes constructs node)
    (whole : source.errors = []) : Resolve.errors context scopes node = [] := by
  induction visited with
  | program same | statements same | expression same =>
    subst same
    exact whole
  | first _ ih | head _ ih => exact (List.append_eq_nil_iff.mp ih).1
  | others _ ih | tail _ ih => exact (List.append_eq_nil_iff.mp ih).2
  | part _ part ih => exact part.clean ih
  | arguments _ ih => exact (List.append_eq_nil_iff.mp ih).2
  | @evaluated _ _ _ _ _ _ evaluates ih =>
    cases evaluates with
    | expression | print => exact ih
    | @branch condition thenBranch elseBranch? =>
      cases elseBranch? with
      | none => exact (List.append_eq_nil_iff.mp ih).1
      | some elseBranch =>
        exact (List.append_eq_nil_iff.mp (List.append_eq_nil_iff.mp ih).1).1
    | returns => exact (List.append_eq_nil_iff.mp ih).2
  | initializer _ ih => exact (List.append_eq_nil_iff.mp ih).2
  | superclass _ ih => exact (List.append_eq_nil_iff.mp (List.append_eq_nil_iff.mp ih).1).2
  | block _ ih | loop _ ih => exact ih
  | @thenBranch _ _ _ _ _ elseBranch? _ ih =>
    cases elseBranch? with
    | none => exact (List.append_eq_nil_iff.mp ih).2
    | some elseBranch => exact (List.append_eq_nil_iff.mp (List.append_eq_nil_iff.mp ih).1).2
  | elseBranch _ ih => exact (List.append_eq_nil_iff.mp ih).2
  | condition _ ih => exact (List.append_eq_nil_iff.mp ih).1
  | repeated _ ih => exact (List.append_eq_nil_iff.mp ih).2
  | @function _ _ _ declaration _ ih =>
    cases declaration
    exact (List.append_eq_nil_iff.mp (List.append_eq_nil_iff.mp ih).2).2
  | @method context scopes _ name superclass? declared declaration _ member ih =>
    have inside : (Resolve.function
        { classContext context superclass?.isSome with function := methodContext declaration.name }
        (classScopes (introduce scopes name).1 superclass?.isSome) declaration).2 = [] := by
      cases superclass? <;> exact methods_clean (List.append_eq_nil_iff.mp ih).2 member
    cases declaration
    exact (List.append_eq_nil_iff.mp inside).2

theorem Expr.Part.written {e x : Expr} (part : e.Part x) (written : e.cleared.Written) :
    x.cleared.Written := by
  cases part <;> cases written <;> assumption

theorem Visits.written (visited : Visits source context scopes constructs node)
    (whole : source.Written) : node.Written := by
  induction visited with
  | program same | statements same | expression same =>
    subst same
    exact whole
  | first _ ih | head _ ih => exact (List.forall_mem_cons.mp ih).1
  | others _ ih | tail _ ih => exact (List.forall_mem_cons.mp ih).2
  | part _ part ih => exact part.written ih
  | arguments _ ih => cases ih with | call _ given => exact given
  | evaluated _ evaluates ih =>
    cases evaluates with
    | expression => cases ih with | expression evaluated => exact evaluated
    | print => cases ih with | print printed => exact printed
    | @branch condition thenBranch elseBranch? =>
      cases elseBranch? <;> cases ih with | branch tested => exact tested
    | returns => cases ih with | returns returned => exact returned _ rfl
  | initializer _ ih => cases ih with | varDecl _ initial => exact initial _ rfl
  | superclass _ ih => exact Stmt.Written.superclass ih
  | block _ ih => cases ih with | block inside => exact inside
  | thenBranch _ ih => exact (Stmt.Written.branches ih).1
  | elseBranch _ ih => exact (Stmt.Written.branches ih).2 _ rfl
  | loop _ ih => cases ih with | loop tested repeated => exact ⟨tested, repeated⟩
  | condition _ ih => exact ih.1
  | repeated _ ih => exact ih.2
  | @function _ _ _ declaration _ ih =>
    cases declaration
    cases ih with | functionDecl _ _ inside => exact inside
  | method _ member ih => exact Stmt.Written.method ih member

def Resolve.Names.Bare (names : Names) : Prop :=
  names.lookup "this" = none ∧ names.lookup "super" = none

/-- What opens a scope inside the methods of a class. -/
def Construct.IsLocal : Construct → Prop
  | block _ | call _ => True
  | receiver _ _ | inheritance _ _ => False

/-- The scopes that are open at a place, with what opened them, where the nearest class is as told. -/
inductive Enclosed : ClassContext → List Names → List Construct → Prop where
  | globals : Enclosed .none [] []
  | inner {nearest : ClassContext} {names : Names} {scopes : List Names} {construct : Construct}
      {constructs : List Construct} (outer : Enclosed nearest scopes constructs) (bare : names.Bare)
      (local' : construct.IsLocal) : Enclosed nearest (names :: scopes) (construct :: constructs)
  | method {nearest : ClassContext} {names : Names} {scopes : List Names}
      {constructs : List Construct} {name : Token} {methods : List FunctionDecl}
      {declaration : FunctionDecl} (hasSuperclass : Bool)
      (outer : Enclosed nearest scopes constructs) (bare : names.Bare)
      (member : declaration ∈ methods) :
      Enclosed (if hasSuperclass then .subclass else .base)
        (names :: classScopes scopes hasSuperclass)
        (.call declaration :: classConstructs constructs name hasSuperclass methods)

namespace Enclosed

variable {nearest : ClassContext} {names : Names}

theorem head (enclosed : Enclosed nearest (names :: scopes) constructs) {names' : Names}
    (bare : names.Bare → names'.Bare) : Enclosed nearest (names' :: scopes) constructs := by
  cases enclosed with
  | inner outer free local' => exact .inner outer (bare free) local'
  | method hasSuperclass outer free member => exact .method hasSuperclass outer (bare free) member

theorem declare (enclosed : Enclosed nearest scopes constructs) {name : Token} (plain : name.Plain) :
    Enclosed nearest (declare scopes name).1 constructs := by
  cases scopes with
  | nil => exact enclosed
  | cons names scopes =>
    obtain ⟨names', same, others, _⟩ := declare_cons names scopes name
    rw [same]
    exact enclosed.head fun bare =>
      ⟨(others _ plain.1.symm).trans bare.1, (others _ plain.2.symm).trans bare.2⟩

theorem introduce (enclosed : Enclosed nearest scopes constructs) {name : Token}
    (plain : name.Plain) : Enclosed nearest (introduce scopes name).1 constructs := by
  cases scopes with
  | nil => exact enclosed
  | cons names scopes =>
    obtain ⟨names', same, _, others⟩ := introduce_cons names scopes name
    rw [same]
    exact enclosed.head fun bare =>
      ⟨(others _ plain.1.symm).trans bare.1, (others _ plain.2.symm).trans bare.2⟩

theorem bare_parameters (scopes : List Names) {params : List Token}
    (plain : ∀ param ∈ params, param.Plain) :
    ∃ names, names.Bare ∧ (introduceAll ([] :: scopes) params).1 = names :: scopes := by
  obtain ⟨names, same, found⟩ := Visibility.introduceAll_cons [] scopes params
  have unlisted : ∀ key, (∀ param ∈ params, param.lexeme ≠ key) → names.lookup key = none := by
    intro key other
    rw [found, if_neg]
    · rfl
    · intro listed
      obtain ⟨param, member, named⟩ := List.mem_map.mp listed
      exact other param member named
  exact ⟨names, ⟨unlisted _ fun param member => (plain param member).1,
    unlisted _ fun param member => (plain param member).2⟩, same⟩

theorem statement : ∀ (s : Stmt) {scopes : List Names}, Enclosed nearest scopes constructs →
    s.cleared.Written → Enclosed nearest (statement context scopes s).scopes constructs
  | .expression _, _, enclosed, _ | .print _, _, enclosed, _ | .block _, _, enclosed, _
  | .returns _ _, _, enclosed, _ => enclosed
  | .varDecl _ _, _, enclosed, written => by
    cases written with | varDecl plain _ => exact enclosed.introduce plain
  | .branch _ thenBranch none, _, enclosed, written =>
    statement thenBranch enclosed written.branches.1
  | .branch _ thenBranch (some elseBranch), _, enclosed, written =>
    statement elseBranch (statement thenBranch enclosed written.branches.1)
      (written.branches.2 _ rfl)
  | .loop _ body, _, enclosed, written => by
    cases written with | loop _ repeated => exact statement body enclosed repeated
  | .functionDecl (.mk _ _ _), _, enclosed, written => by
    cases written with | functionDecl plain _ _ => exact enclosed.introduce plain
  | .classDecl _ none _, _, enclosed, written | .classDecl _ (some _) _, _, enclosed, written => by
    cases written with | classDecl plain _ _ _ => exact enclosed.introduce plain

end Enclosed

theorem Resolve.mem_methods {declared : List FunctionDecl} {declaration : FunctionDecl}
    (member : declaration ∈ declared) :
    (function { context with function := methodContext declaration.name } scopes declaration).1 ∈
      (methods context scopes declared).1 := by
  induction declared with
  | nil => cases member
  | cons method rest ih =>
    cases method
    rcases List.mem_cons.mp member with rfl | later
    · exact List.mem_cons_self
    · exact List.mem_cons_of_mem _ (ih later)

theorem Stmt.Written.parameters {name : Token} {superclass? : Option Expr}
    {methods : List FunctionDecl}
    (written : (Stmt.classDecl name superclass? methods).cleared.Written) {declaration : FunctionDecl}
    (member : declaration ∈ methods) : ∀ param ∈ declaration.params, param.Plain := by
  cases written with
  | classDecl _ _ named _ =>
    have listed : declaration.cleared ∈ FunctionDecl.clearedAll methods := by
      rw [FunctionDecl.clearedAll_eq]
      exact List.mem_map_of_mem member
    have plain := named _ listed
    cases declaration
    exact plain

/-- The walk knows the nearest class and its scopes, but where it visits the name of a superclass: it
    does so as if inside the subclass. -/
theorem Visits.enclosed (visited : Visits source context scopes constructs node)
    (whole : source.Written) : Enclosed context.enclosing scopes constructs ∨
      ∃ name slot, node = .expression (.variable name slot) := by
  induction visited with
  | program | statements | expression => exact .inl .globals
  | first _ ih | head _ ih | tail _ ih | arguments _ ih | evaluated _ _ ih | thenBranch _ ih
  | loop _ ih | condition _ ih | repeated _ ih => exact .inl (ih.resolve_right (by simp))
  | part _ part ih =>
    refine .inl (ih.resolve_right ?_)
    rintro ⟨name, slot, same⟩
    cases same
    cases part
  | others visited ih =>
    have written := (List.forall_mem_cons.mp (visited.written whole)).1
    exact .inl ((ih.resolve_right (by simp)).statement _ written)
  | initializer visited ih =>
    cases visited.written whole with
    | varDecl plain _ => exact .inl ((ih.resolve_right (by simp)).declare plain)
  -- The only place where the walk is in a class before its scopes are open.
  | @superclass _ _ _ _ superclass _ visited ih =>
    cases visited.written whole with
    | classDecl _ above _ _ =>
      obtain ⟨parent, _, same⟩ := above _ rfl
      cases superclass with
      | «variable» name slot => exact .inr ⟨name, slot, rfl⟩
      | _ => cases same
  | block _ ih => exact .inl (.inner (ih.resolve_right (by simp)) ⟨rfl, rfl⟩ trivial)
  | elseBranch visited ih =>
    exact .inl ((ih.resolve_right (by simp)).statement _
      (Stmt.Written.branches (visited.written whole)).1)
  | @function _ scopes _ declaration visited ih =>
    obtain ⟨name, params, body⟩ := declaration
    cases visited.written whole with
    | functionDecl plain named _ =>
      obtain ⟨names, bare, same⟩ := Enclosed.bare_parameters (introduce scopes name).1 named
      refine .inl ?_
      show Enclosed _ (introduceAll ([] :: (introduce scopes name).1) params).1 _
      rw [same]
      exact .inner ((ih.resolve_right (by simp)).introduce plain) bare trivial
  | @method context scopes constructs name superclass? declared declaration visited member ih =>
    have written := visited.written whole
    have outer : Enclosed context.enclosing (introduce scopes name).1 constructs := by
      cases written with
      | classDecl plain _ _ _ => exact (ih.resolve_right (by simp)).introduce plain
    obtain ⟨names, bare, same⟩ := Enclosed.bare_parameters
      (classScopes (introduce scopes name).1 superclass?.isSome) (Stmt.Written.parameters written member)
    refine .inl ?_
    rw [bodyScopes, same]
    exact .method superclass?.isSome outer bare (mem_methods member)

/-- Inside a method of a class with a superclass, `super` is found right outside `this`. -/
theorem Enclosed.subclass {nearest : ClassContext} (enclosed : Enclosed nearest scopes constructs)
    (here : nearest = .subclass) : ∃ inside declaration name methods outer,
      constructs = inside ++ .call declaration :: .receiver name methods ::
        .inheritance name methods :: outer ∧
      declaration ∈ methods ∧ (∀ construct ∈ inside, construct.IsLocal) ∧
      distance? scopes "super" = some (inside.length + 2) := by
  induction enclosed with
  | globals => cases here
  | @inner _ names scopes construct constructs outer bare local' ih =>
    obtain ⟨inside, declaration, name, methods, around, rfl, member, locals, found⟩ := ih here
    refine ⟨construct :: inside, declaration, name, methods, around, rfl, member,
      List.forall_mem_cons.mpr ⟨local', locals⟩, ?_⟩
    rw [distance?_cons, Names.declares, bare.2, found]
    rfl
  | @method _ names scopes constructs name methods declaration hasSuperclass outer bare member ih =>
    cases hasSuperclass with
    | false => cases here
    | true =>
      refine ⟨[], declaration, name, methods, constructs, rfl, member, by simp, ?_⟩
      rw [distance?_cons, Names.declares, bare.2]
      rfl

/-- A `super` stands in a method of a class with a superclass, and its distance leads out of that
    method, past `this`. -/
theorem Visits.super_enclosed {keyword method : Token} {slot : Distance}
    (visited : Visits source context scopes constructs node) (whole : source.Written)
    (clean : source.errors = [])
    (same : .expression (.super keyword method slot) = resolved context scopes node) :
    ∃ inside declaration name methods outer,
      constructs = inside ++ .call declaration :: .receiver name methods ::
        .inheritance name methods :: outer ∧
      declaration ∈ methods ∧ (∀ construct ∈ inside, construct.IsLocal) ∧
      slot = some (inside.length + 2) := by
  have accepted := visited.clean clean
  have written := visited.written whole
  have enclosed := visited.enclosed whole
  cases node <;> try cases same
  rename_i e
  cases e with
  | super keyword' method' slot' =>
    cases nearest : context.enclosing with
    | none | base =>
      rw [errors, Resolve.expression, nearest] at accepted
      cases accepted
    | subclass =>
      have around := enclosed.resolve_right (by simp)
      obtain ⟨inside, declaration, name, methods, outer, split, member, locals, found⟩ :=
        around.subclass nearest
      rw [resolved, Resolve.expression, nearest] at same
      cases same
      cases written with
      | super spelled =>
        refine ⟨inside, declaration, name, methods, outer, split, member, locals, ?_⟩
        rw [Resolve.bind, spelled, found, Option.some_or]
  | this keyword' slot' =>
    rw [resolved, Resolve.expression] at same
    split at same <;> cases same
  | _ => cases same

end Lox
