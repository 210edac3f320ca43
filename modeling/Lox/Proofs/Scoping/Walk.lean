import Lox.Proofs.Session.Turns
import Lox.Proofs.Syntax.Unresolved

namespace Lox

open Resolve

/-- What opens a scope, with its tree after resolution. -/
inductive Construct where
  | block (body : List Stmt)
  | call (declaration : FunctionDecl)
  /-- The scope of `this` around the methods of a class. -/
  | receiver (name : Token) (methods : List FunctionDecl)
  /-- The scope of `super` around the methods of a class. -/
  | inheritance (name : Token) (methods : List FunctionDecl)

inductive Expr.Part : Expr → Expr → Prop where
  | grouping {inner : Expr} : Part (.grouping inner) inner
  | unary {operator : Token} {right : Expr} : Part (.unary operator right) right
  | binaryLeft {left right : Expr} {operator : Token} : Part (.binary left operator right) left
  | binaryRight {left right : Expr} {operator : Token} : Part (.binary left operator right) right
  | logicalLeft {left right : Expr} {operator : Token} : Part (.logical left operator right) left
  | logicalRight {left right : Expr} {operator : Token} : Part (.logical left operator right) right
  | assigned {name : Token} {value : Expr} {distance : Distance} :
      Part (.assign name value distance) value
  | callee {callee : Expr} {paren : Token} {arguments : List Expr} :
      Part (.call callee paren arguments) callee
  | getObject {object : Expr} {name : Token} : Part (.get object name) object
  | setObject {object value : Expr} {name : Token} : Part (.set object name value) object
  | setValue {object value : Expr} {name : Token} : Part (.set object name value) value

inductive Stmt.Evaluates : Stmt → Expr → Prop where
  | expression {value : Expr} : Evaluates (.expression value) value
  | print {value : Expr} : Evaluates (.print value) value
  | branch {condition : Expr} {thenBranch : Stmt} {elseBranch? : Option Stmt} :
      Evaluates (.branch condition thenBranch elseBranch?) condition
  | returns {keyword : Token} {value : Expr} : Evaluates (.returns keyword (some value)) value

namespace Resolve

def classContext (context : Context) (hasSuperclass : Bool) : Context :=
  { context with enclosing := if hasSuperclass then .subclass else .base }

def functionContext (context : Context) : Context := { context with function := .function }

def classMethods (context : Context) (scopes : List Names) (name : Token) (hasSuperclass : Bool)
    (declared : List FunctionDecl) : List FunctionDecl :=
  (methods (classContext context hasSuperclass)
    (classScopes (introduce scopes name).1 hasSuperclass) declared).1

def classConstructs (constructs : List Construct) (name : Token) (hasSuperclass : Bool)
    (declared : List FunctionDecl) : List Construct :=
  .receiver name declared ::
    if hasSuperclass then .inheritance name declared :: constructs else constructs

def bodyScopes (scopes : List Names) (declaration : FunctionDecl) : List Names :=
  (introduceAll ([] :: scopes) declaration.params).1

def resolved (context : Context) (scopes : List Names) : Task → Task
  | .expression e => .expression (expression context scopes e).1
  | .expressions es => .expressions (expressions context scopes es).1
  | .statement s => .statement (statement context scopes s).tree
  | .statements ss => .statements (statements context scopes ss).tree
  | .loop condition body =>
    .loop (expression context scopes condition).1 (statement context scopes body).tree
  | .call callee line arguments => .call callee line arguments
  | .apply function line arguments => .apply function line arguments

end Resolve

def Work.resolved : Work → Work
  | program ss => .program (resolve ss).1
  | expression e => .expression (resolveExpression e).1
  | statements ss => .statements (resolve ss).1

/-- The walk over some work visits a part of it, in a context, with some scopes open, which some
    constructs have opened. -/
inductive Visits (source : Work) :
    Context → List Names → List Construct → Task → Prop where
  | program {ss : List Stmt} (whole : source = .program ss) :
      Visits source .topLevel [] [] (.statements ss)
  | statements {ss : List Stmt} (whole : source = .statements ss) :
      Visits source .topLevel [] [] (.statements ss)
  | expression {e : Expr} (whole : source = .expression e) :
      Visits source .topLevel [] [] (.expression e)
  | first {context : Context} {scopes : List Names} {constructs : List Construct} {s : Stmt}
      {rest : List Stmt} (visited : Visits source context scopes constructs (.statements (s :: rest))) :
      Visits source context scopes constructs (.statement s)
  | others {context : Context} {scopes : List Names} {constructs : List Construct} {s : Stmt}
      {rest : List Stmt} (visited : Visits source context scopes constructs (.statements (s :: rest))) :
      Visits source context (statement context scopes s).scopes constructs (.statements rest)
  | part {context : Context} {scopes : List Names} {constructs : List Construct} {e e' : Expr}
      (visited : Visits source context scopes constructs (.expression e)) (part : e.Part e') :
      Visits source context scopes constructs (.expression e')
  | arguments {context : Context} {scopes : List Names} {constructs : List Construct} {callee : Expr}
      {paren : Token} {arguments : List Expr}
      (visited : Visits source context scopes constructs (.expression (.call callee paren arguments))) :
      Visits source context scopes constructs (.expressions arguments)
  | head {context : Context} {scopes : List Names} {constructs : List Construct} {e : Expr}
      {rest : List Expr} (visited : Visits source context scopes constructs (.expressions (e :: rest))) :
      Visits source context scopes constructs (.expression e)
  | tail {context : Context} {scopes : List Names} {constructs : List Construct} {e : Expr}
      {rest : List Expr} (visited : Visits source context scopes constructs (.expressions (e :: rest))) :
      Visits source context scopes constructs (.expressions rest)
  | evaluated {context : Context} {scopes : List Names} {constructs : List Construct} {s : Stmt}
      {e : Expr} (visited : Visits source context scopes constructs (.statement s))
      (evaluates : s.Evaluates e) : Visits source context scopes constructs (.expression e)
  | initializer {context : Context} {scopes : List Names} {constructs : List Construct} {name : Token}
      {value : Expr}
      (visited : Visits source context scopes constructs (.statement (.varDecl name (some value)))) :
      Visits source context (declare scopes name).1 constructs (.expression value)
  | superclass {context : Context} {scopes : List Names} {constructs : List Construct} {name : Token}
      {superclass : Expr} {declared : List FunctionDecl} (visited :
        Visits source context scopes constructs (.statement (.classDecl name (some superclass) declared))) :
      Visits source (classContext context true) (introduce scopes name).1 constructs
        (.expression superclass)
  | block {context : Context} {scopes : List Names} {constructs : List Construct} {body : List Stmt}
      (visited : Visits source context scopes constructs (.statement (.block body))) :
      Visits source context ([] :: scopes)
        (.block (statements context ([] :: scopes) body).tree :: constructs) (.statements body)
  | thenBranch {context : Context} {scopes : List Names} {constructs : List Construct}
      {condition : Expr} {thenBranch : Stmt} {elseBranch? : Option Stmt} (visited :
        Visits source context scopes constructs (.statement (.branch condition thenBranch elseBranch?))) :
      Visits source context scopes constructs (.statement thenBranch)
  | elseBranch {context : Context} {scopes : List Names} {constructs : List Construct}
      {condition : Expr} {thenBranch elseBranch : Stmt} (visited : Visits source context scopes constructs
        (.statement (.branch condition thenBranch (some elseBranch)))) :
      Visits source context (statement context scopes thenBranch).scopes constructs
        (.statement elseBranch)
  | loop {context : Context} {scopes : List Names} {constructs : List Construct} {condition : Expr}
      {body : Stmt} (visited : Visits source context scopes constructs (.statement (.loop condition body))) :
      Visits source context scopes constructs (.loop condition body)
  | condition {context : Context} {scopes : List Names} {constructs : List Construct}
      {condition : Expr} {body : Stmt}
      (visited : Visits source context scopes constructs (.loop condition body)) :
      Visits source context scopes constructs (.expression condition)
  | repeated {context : Context} {scopes : List Names} {constructs : List Construct}
      {condition : Expr} {body : Stmt}
      (visited : Visits source context scopes constructs (.loop condition body)) :
      Visits source context scopes constructs (.statement body)
  | function {context : Context} {scopes : List Names} {constructs : List Construct}
      {declaration : FunctionDecl}
      (visited : Visits source context scopes constructs (.statement (.functionDecl declaration))) :
      Visits source (functionContext context)
        (bodyScopes (introduce scopes declaration.name).1 declaration)
        (.call (function (functionContext context) (introduce scopes declaration.name).1
          declaration).1 :: constructs)
        (.statements declaration.body)
  | method {context : Context} {scopes : List Names} {constructs : List Construct} {name : Token}
      {superclass? : Option Expr} {declared : List FunctionDecl} {declaration : FunctionDecl}
      (visited : Visits source context scopes constructs (.statement (.classDecl name superclass? declared)))
      (member : declaration ∈ declared) :
      Visits source
        { classContext context superclass?.isSome with function := methodContext declaration.name }
        (bodyScopes (classScopes (introduce scopes name).1 superclass?.isSome) declaration)
        (.call (function
            { classContext context superclass?.isSome with
              function := methodContext declaration.name }
            (classScopes (introduce scopes name).1 superclass?.isSome) declaration).1 ::
          classConstructs constructs name superclass?.isSome
            (classMethods context scopes name superclass?.isSome declared))
        (.statements declaration.body)

namespace Resolve

theorem length_declare (scopes : List Names) (name : Token) :
    (declare scopes name).1.length = scopes.length := by
  unfold declare
  split
  · rfl
  · split <;> rfl

theorem length_define (scopes : List Names) (name : Token) :
    (define scopes name).length = scopes.length := by
  unfold define
  split <;> rfl

theorem length_introduce (scopes : List Names) (name : Token) :
    (introduce scopes name).1.length = scopes.length :=
  (length_define _ name).trans (length_declare scopes name)

theorem length_introduceAll (params : List Token) (scopes : List Names) :
    (introduceAll scopes params).1.length = scopes.length := by
  induction params generalizing scopes with
  | nil => rfl
  | cons param rest ih => exact (ih _).trans (length_introduce scopes param)

theorem length_statement (context : Context) (scopes : List Names) :
    ∀ s : Stmt, (statement context scopes s).scopes.length = scopes.length
  | .expression _ | .print _ | .block _ | .returns _ _ => rfl
  | .varDecl name _ => length_introduce scopes name
  | .branch _ thenBranch none => length_statement context scopes thenBranch
  | .branch _ thenBranch (some elseBranch) =>
    (length_statement context _ elseBranch).trans (length_statement context scopes thenBranch)
  | .loop _ body => length_statement context scopes body
  | .functionDecl (.mk name _ _) => length_introduce scopes name
  | .classDecl name none _ | .classDecl name (some _) _ => length_introduce scopes name

end Resolve

variable {source : Work} {context : Context} {scopes : List Names} {constructs : List Construct}
  {node : Task}

theorem Visits.length_eq (visited : Visits source context scopes constructs node) :
    scopes.length = constructs.length := by
  induction visited with
  | program | statements | expression => rfl
  | first _ ih | part _ _ ih | arguments _ ih | head _ ih | tail _ ih | evaluated _ _ ih
  | thenBranch _ ih | loop _ ih | condition _ ih | repeated _ ih => exact ih
  | others _ ih | elseBranch _ ih => exact (length_statement _ _ _).trans ih
  | initializer _ ih => exact (length_declare _ _).trans ih
  | superclass _ ih => exact (length_introduce _ _).trans ih
  | block _ ih => exact congrArg (· + 1) ih
  | function _ ih =>
    exact (length_introduceAll _ _).trans (congrArg (· + 1) ((length_introduce _ _).trans ih))
  | @method _ _ _ name superclass? _ declaration _ _ ih =>
    have outside := (length_introduce _ name).trans ih
    refine (length_introduceAll _ _).trans (congrArg (· + 1) ?_)
    cases superclass? with
    | none => exact congrArg (· + 1) outside
    | some superclass => exact congrArg (· + 2) outside

def Work.Unresolved (stock : Token → Prop) : Work → Prop
  | program ss | statements ss => ∀ s ∈ ss, s.Unresolved stock
  | expression e => e.Unresolved stock

def Task.Unresolved (stock : Token → Prop) : Task → Prop
  | expression e => e.Unresolved stock
  | expressions es => ∀ e ∈ es, e.Unresolved stock
  | statement s => s.Unresolved stock
  | statements ss => ∀ s ∈ ss, s.Unresolved stock
  | loop condition body => condition.Unresolved stock ∧ body.Unresolved stock
  | call _ _ _ | apply _ _ _ => True

theorem Expr.Part.unresolved {stock : Token → Prop} {e x : Expr} (part : e.Part x)
    (unresolved : e.Unresolved stock) : x.Unresolved stock := by
  cases part <;> cases unresolved <;> assumption

theorem Visits.unresolved {stock : Token → Prop}
    (visited : Visits source context scopes constructs node) (whole : source.Unresolved stock) :
    node.Unresolved stock := by
  induction visited with
  | program same | statements same | expression same =>
    subst same
    exact whole
  | first _ ih | head _ ih => exact ih _ List.mem_cons_self
  | others _ ih | tail _ ih => exact fun s member => ih s (List.mem_cons_of_mem _ member)
  | part _ part ih => exact part.unresolved ih
  | arguments _ ih =>
    cases ih with
    | call _ _ given => exact given
  | evaluated _ evaluates ih =>
    cases evaluates <;> cases ih
    · assumption
    · assumption
    · assumption
    · rename_i returned
      exact returned _ rfl
  | initializer _ ih =>
    cases ih with
    | varDecl _ initial => exact initial _ rfl
  | superclass _ ih =>
    cases ih with
    | classDecl _ above => exact above _ rfl
  | block _ ih =>
    cases ih with
    | block inside => exact inside
  | thenBranch _ ih =>
    cases ih with
    | branch _ first _ => exact first
  | elseBranch _ ih =>
    cases ih with
    | branch _ _ second => exact second _ rfl
  | loop _ ih =>
    cases ih with
    | loop tested repeated => exact ⟨tested, repeated⟩
  | condition _ ih => exact ih.1
  | repeated _ ih => exact ih.2
  | function _ ih =>
    cases ih with
    | functionDecl _ _ inside => exact inside
  | method _ member ih =>
    cases ih with
    | classDecl _ _ _ _ inside => exact inside _ member

def Expr.Resolves (d : Nat) (name : String) : Expr → Prop
  | .variable token slot | .assign token _ slot | .this token slot | .super token _ slot =>
    slot = some d ∧ token.lexeme = name
  | _ => False

namespace Resolve

variable {e x' callee' : Expr} {s : Stmt}

theorem distance?_of_bind {token : Token} {d : Nat} {name : String}
    (bound : bind scopes token none = some d ∧ token.lexeme = name) :
    distance? scopes name = some d := by
  obtain ⟨found, rfl⟩ := bound
  rwa [bind, Option.or_none] at found

/-- A distance leads to the innermost scope that has declared the name. -/
theorem distance?_of_resolves {stock : Token → Prop} {d : Nat} {name : String}
    (unresolved : e.Unresolved stock) (resolves : (expression context scopes e).1.Resolves d name) :
    distance? scopes name = some d := by
  cases unresolved with
  | «variable» named => exact distance?_of_bind resolves
  | assign named right => exact distance?_of_bind resolves
  | this here =>
    rw [expression] at resolves
    split at resolves
    · cases resolves.1
    · exact distance?_of_bind resolves
  | super here named =>
    rw [expression] at resolves
    split at resolves
    · exact distance?_of_bind resolves
    · cases resolves.1
  | _ => exact resolves.elim

theorem distance?_lt {d : Nat} {name : String} (found : distance? scopes name = some d) :
    d < scopes.length :=
  (List.findIdx?_eq_some_iff_getElem.mp found).1

theorem part_of_resolved (part : (expression context scopes e).1.Part x') :
    ∃ x, e.Part x ∧ x' = (expression context scopes x).1 := by
  cases e with
  | literal => cases part
  | grouping inner =>
    cases part
    exact ⟨inner, .grouping, rfl⟩
  | unary operator right =>
    cases part
    exact ⟨right, .unary, rfl⟩
  | binary left operator right =>
    cases part with
    | binaryLeft => exact ⟨left, .binaryLeft, rfl⟩
    | binaryRight => exact ⟨right, .binaryRight, rfl⟩
  | logical left operator right =>
    cases part with
    | logicalLeft => exact ⟨left, .logicalLeft, rfl⟩
    | logicalRight => exact ⟨right, .logicalRight, rfl⟩
  | «variable» => cases part
  | assign name value slot =>
    cases part
    exact ⟨value, .assigned, rfl⟩
  | call callee paren arguments =>
    cases part
    exact ⟨callee, .callee, rfl⟩
  | get object name =>
    cases part
    exact ⟨object, .getObject, rfl⟩
  | set object name value =>
    cases part with
    | setObject => exact ⟨object, .setObject, rfl⟩
    | setValue => exact ⟨value, .setValue, rfl⟩
  | this keyword slot =>
    rw [expression] at part
    split at part <;> cases part
  | super keyword method slot =>
    rw [expression] at part
    split at part <;> cases part

theorem call_of_resolved {paren : Token} {arguments' : List Expr}
    (same : (expression context scopes e).1 = .call callee' paren arguments') :
    ∃ callee arguments, e = .call callee paren arguments ∧
      arguments' = (expressions context scopes arguments).1 := by
  cases e with
  | call callee paren arguments =>
    cases same
    exact ⟨callee, arguments, rfl, rfl⟩
  | this keyword slot =>
    rw [expression] at same
    split at same <;> cases same
  | super keyword method slot =>
    rw [expression] at same
    split at same <;> cases same
  | _ => cases same

theorem cons_of_resolved {node : Task} {rest' : List Expr}
    (same : Task.expressions (x' :: rest') = resolved context scopes node) :
    ∃ x rest, node = .expressions (x :: rest) ∧ x' = (expression context scopes x).1 ∧
      rest' = (expressions context scopes rest).1 := by
  cases node with
  | expressions es =>
    cases es with
    | nil => cases same
    | cons x rest =>
      cases same
      exact ⟨x, rest, rfl, rfl, rfl⟩
  | _ => cases same

/-- What a resolved statement evaluates is what the statement evaluates, resolved. -/
theorem evaluates_of_resolved (evaluates : (statement context scopes s).tree.Evaluates x') :
    ∃ x, s.Evaluates x ∧ x' = (expression context scopes x).1 := by
  cases s with
  | expression value =>
    cases evaluates
    exact ⟨value, .expression, rfl⟩
  | print value =>
    cases evaluates
    exact ⟨value, .print, rfl⟩
  | branch condition thenBranch elseBranch? =>
    cases elseBranch? <;> cases evaluates <;> exact ⟨condition, .branch, rfl⟩
  | returns keyword value? =>
    cases value? with
    | none => cases evaluates
    | some value =>
      cases evaluates
      exact ⟨value, .returns, rfl⟩
  | functionDecl declaration =>
    cases declaration
    cases evaluates
  | classDecl name superclass? declared => cases superclass? <;> cases evaluates
  | _ => cases evaluates

theorem varDecl_of_resolved {name : Token} {value' : Expr}
    (same : (statement context scopes s).tree = .varDecl name (some value')) :
    ∃ value, s = .varDecl name (some value) ∧
      value' = (expression context (declare scopes name).1 value).1 := by
  cases s with
  | varDecl name initializer? =>
    cases initializer? with
    | none => cases same
    | some value =>
      cases same
      exact ⟨value, rfl, rfl⟩
  | branch _ _ elseBranch? => cases elseBranch? <;> cases same
  | functionDecl declaration =>
    cases declaration
    cases same
  | classDecl _ superclass? _ => cases superclass? <;> cases same
  | _ => cases same

theorem block_of_resolved {body' : List Stmt}
    (same : (statement context scopes s).tree = .block body') :
    ∃ body, s = .block body ∧ body' = (statements context ([] :: scopes) body).tree := by
  cases s with
  | block body =>
    cases same
    exact ⟨body, rfl, rfl⟩
  | branch _ _ elseBranch? => cases elseBranch? <;> cases same
  | functionDecl declaration =>
    cases declaration
    cases same
  | classDecl _ superclass? _ => cases superclass? <;> cases same
  | _ => cases same

theorem branch_of_resolved {condition' : Expr} {thenBranch' : Stmt} {elseBranch'? : Option Stmt}
    (same : (statement context scopes s).tree = .branch condition' thenBranch' elseBranch'?) :
    ∃ condition thenBranch elseBranch?, s = .branch condition thenBranch elseBranch? ∧
      thenBranch' = (statement context scopes thenBranch).tree ∧
      ∀ elseBranch' ∈ elseBranch'?, ∃ elseBranch, elseBranch? = some elseBranch ∧
        elseBranch' =
          (statement context (statement context scopes thenBranch).scopes elseBranch).tree := by
  cases s with
  | branch condition thenBranch elseBranch? =>
    cases elseBranch? with
    | none =>
      cases same
      exact ⟨condition, thenBranch, none, rfl, rfl, by simp⟩
    | some elseBranch =>
      cases same
      refine ⟨condition, thenBranch, some elseBranch, rfl, rfl, fun _ chosen => ?_⟩
      cases chosen
      exact ⟨elseBranch, rfl, rfl⟩
  | functionDecl declaration =>
    cases declaration
    cases same
  | classDecl _ superclass? _ => cases superclass? <;> cases same
  | _ => cases same

theorem loop_of_resolved {condition' : Expr} {body' : Stmt}
    (same : (statement context scopes s).tree = .loop condition' body') :
    ∃ condition body, s = .loop condition body ∧
      .loop condition' body' = resolved context scopes (.loop condition body) := by
  cases s with
  | loop condition body =>
    cases same
    exact ⟨condition, body, rfl, rfl⟩
  | branch _ _ elseBranch? => cases elseBranch? <;> cases same
  | functionDecl declaration =>
    cases declaration
    cases same
  | classDecl _ superclass? _ => cases superclass? <;> cases same
  | _ => cases same

theorem functionDecl_of_resolved {declaration' : FunctionDecl}
    (same : (statement context scopes s).tree = .functionDecl declaration') :
    ∃ declaration, s = .functionDecl declaration ∧ declaration' =
      (function (functionContext context) (introduce scopes declaration.name).1 declaration).1 := by
  cases s with
  | functionDecl declaration =>
    cases declaration
    cases same
    exact ⟨_, rfl, rfl⟩
  | branch _ _ elseBranch? => cases elseBranch? <;> cases same
  | classDecl _ superclass? _ => cases superclass? <;> cases same
  | _ => cases same

theorem classDecl_of_resolved {name : Token} {superclass'? : Option Expr}
    {declared' : List FunctionDecl}
    (same : (statement context scopes s).tree = .classDecl name superclass'? declared') :
    ∃ superclass? declared, s = .classDecl name superclass? declared ∧
      superclass?.isSome = superclass'?.isSome ∧
      declared' = classMethods context scopes name superclass?.isSome declared ∧
      ∀ superclass' ∈ superclass'?, ∃ superclass, superclass? = some superclass ∧ superclass' =
        (expression (classContext context true) (introduce scopes name).1 superclass).1 := by
  cases s with
  | classDecl name superclass? declared =>
    cases superclass? with
    | none =>
      cases same
      exact ⟨none, declared, rfl, rfl, rfl, by simp⟩
    | some superclass =>
      cases same
      refine ⟨some superclass, declared, rfl, rfl, rfl, fun _ above => ?_⟩
      cases above
      exact ⟨superclass, rfl, rfl⟩
  | branch _ _ elseBranch? => cases elseBranch? <;> cases same
  | functionDecl declaration =>
    cases declaration
    cases same
  | _ => cases same

theorem body_resolved (declaration : FunctionDecl) :
    (function context scopes declaration).1.body =
      (statements context (bodyScopes scopes declaration) declaration.body).tree := by
  cases declaration
  rfl

theorem mem_of_resolved {declared : List FunctionDecl} {method' : FunctionDecl}
    (member : method' ∈ (methods context scopes declared).1) : ∃ method ∈ declared, method' =
      (function { context with function := methodContext method.name } scopes method).1 := by
  induction declared with
  | nil => cases member
  | cons method rest ih =>
    cases method
    rcases List.mem_cons.mp member with rfl | later
    · exact ⟨_, List.mem_cons_self, rfl⟩
    · obtain ⟨other, inside, same⟩ := ih later
      exact ⟨other, List.mem_cons_of_mem _ inside, same⟩

end Resolve
end Lox
