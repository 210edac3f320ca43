import Lox.Tree.Resolve

namespace Lox

inductive Use.Kind where
  | read
  | write
  | this
  | super
  deriving DecidableEq, Repr

structure Use where
  kind : Use.Kind
  token : Token
  slot : Distance
  deriving Repr

inductive ScopeKind where
  | block
  | function
  | method (name : Token)
  /-- The scope of `this`, around the methods of a class. -/
  | receiver (hasSuperclass : Bool)
  /-- The scope of `super`, around the scope of `this` of a subclass. -/
  | inheritance
  deriving Repr

inductive OutlineEntry where
  | declares (name : Token)
  /-- A use, with the variable in whose initializer it stands if it stands in one. -/
  | use (owner? : Option Token) (use : Use)
  | returns (keyword : Token) (hasValue : Bool)
  /-- A class and the variable that it takes its superclass from. -/
  | inherits (name parent : Token)
  | scope (kind : ScopeKind) (inside : List OutlineEntry)

section outline

mutual

/-- The uses in an expression. The value of an assignment comes before what is assigned to. -/
def Expr.uses : Expr → List Use
  | .literal _ => []
  | .unary _ right => right.uses
  | .binary left _ right | .logical left _ right => left.uses ++ right.uses
  | .grouping inner => inner.uses
  | .variable name slot => [⟨.read, name, slot⟩]
  | .assign name value slot => value.uses ++ [⟨.write, name, slot⟩]
  | .call callee _ arguments => callee.uses ++ usesAll arguments
  | .get object _ => object.uses
  | .set object _ value => value.uses ++ object.uses
  | .this keyword slot => [⟨.this, keyword, slot⟩]
  | .super keyword _ slot => [⟨.super, keyword, slot⟩]

def Expr.usesAll : List Expr → List Use
  | [] => []
  | first :: rest => first.uses ++ Expr.usesAll rest

end

def Expr.entries (owner? : Option Token) (e : Expr) : List OutlineEntry := e.uses.map (.use owner?)

def Expr.entries? (owner? : Option Token) (e? : Option Expr) : List OutlineEntry :=
  e?.elim [] (Expr.entries owner?)

def Expr.inheritance (name : Token) : Expr → List OutlineEntry
  | .variable parent _ => [.inherits name parent]
  | _ => []

mutual

def Stmt.entries : Stmt → List OutlineEntry
  | .expression value | .print value => value.entries none
  | .varDecl name initializer? => .declares name :: Expr.entries? (some name) initializer?
  | .block body => [.scope .block (entriesAll body)]
  | .branch condition thenBranch none => condition.entries none ++ thenBranch.entries
  | .branch condition thenBranch (some elseBranch) =>
    condition.entries none ++ thenBranch.entries ++ elseBranch.entries
  | .loop condition body => condition.entries none ++ body.entries
  | .functionDecl (.mk name params body) =>
    [.declares name, .scope .function (params.map .declares ++ entriesAll body)]
  | .returns keyword value? => .returns keyword value?.isSome :: Expr.entries? none value?
  | .classDecl name none methods =>
    [.declares name, .scope (.receiver false) (Stmt.methodEntries methods)]
  | .classDecl name (some superclass) methods =>
    .declares name :: (superclass.inheritance name ++ superclass.entries none ++
      [.scope .inheritance [.scope (.receiver true) (Stmt.methodEntries methods)]])

def Stmt.entriesAll : List Stmt → List OutlineEntry
  | [] => []
  | first :: rest => first.entries ++ Stmt.entriesAll rest

def Stmt.methodEntries : List FunctionDecl → List OutlineEntry
  | [] => []
  | .mk name params body :: rest =>
    .scope (.method name) (params.map .declares ++ Stmt.entriesAll body) ::
      Stmt.methodEntries rest

end

abbrev outline (program : List Stmt) : List OutlineEntry := Stmt.entriesAll program

end outline

namespace Outline

/-- The entry that a path leads to: each number is a position in a scope. -/
def entryAt? : List OutlineEntry → List Nat → Option OutlineEntry
  | _, [] => none
  | entries, [i] => entries[i]?
  | entries, i :: j :: path =>
    match entries[i]? with
    | some (.scope _ inside) => entryAt? inside (j :: path)
    | _ => none

def declared? : OutlineEntry → Option String
  | .declares name => some name.lexeme
  | _ => none

def keyword? : ScopeKind → Option String
  | .receiver _ => some "this"
  | .inheritance => some "super"
  | .block | .function | .method _ => none

/-- A scope around an entry, with the names that it has declared before the walk gets to the
    entry. -/
structure Layer where
  kind : ScopeKind
  declared : List String
  deriving Repr

def Layer.after (kind : ScopeKind) (before : List OutlineEntry) : Layer :=
  ⟨kind, (keyword? kind).toList ++ before.filterMap declared?⟩

/-- The scopes around the entry that a path leads to, the innermost one first. The outermost
    declarations are globals, which are in no scope. -/
def layers : List OutlineEntry → List Nat → List Layer
  | entries, i :: j :: path =>
    match entries[i]? with
    | some (.scope kind inside) => layers inside (j :: path) ++ [.after kind (inside.take j)]
    | _ => []
  | _, _ => []

/-- The innermost scope that has declared `name` has `distance` scopes inside it. -/
structure Found (layers : List Layer) (name : String) (distance : Nat) : Prop where
  here : ∃ layer, layers[distance]? = some layer ∧ name ∈ layer.declared
  innermost : ∀ layer ∈ layers.take distance, name ∉ layer.declared

def nearest (layers : List Layer) : List String := (layers.head?.map Layer.declared).getD []

def function? (layers : List Layer) : Option ScopeKind :=
  (layers.map Layer.kind).find? fun | .function | .method _ => true | _ => false

/-- Whether the nearest class around an entry has a superclass, if there is a class. -/
def class? (layers : List Layer) : Option Bool :=
  (layers.map Layer.kind).findSome? fun | .receiver hasSuperclass => some hasSuperclass | _ => none

inductive Violation (layers : List Layer) : OutlineEntry → BindingError → Prop where
  | alreadyDeclared {name : Token} (before : name.lexeme ∈ nearest layers) :
      Violation layers (.declares name) ⟨.alreadyDeclared, name⟩
  /-- The variable is local, and its own declaration is the only one of its name so far. -/
  | readInOwnInitializer {owner name : Token} {slot : Distance}
      (own : owner.lexeme = name.lexeme) (single : (nearest layers).count name.lexeme = 1) :
      Violation layers (.use (some owner) ⟨.read, name, slot⟩) ⟨.readInOwnInitializer, name⟩
  | returnOutsideFunction {keyword : Token} {hasValue : Bool} (outside : function? layers = none) :
      Violation layers (.returns keyword hasValue) ⟨.returnOutsideFunction, keyword⟩
  | returnFromInitializer {keyword name : Token} (inside : function? layers = some (.method name))
      (initializer : name.lexeme = initializerName) :
      Violation layers (.returns keyword true) ⟨.returnFromInitializer, keyword⟩
  | thisOutsideClass {owner? : Option Token} {keyword : Token} {slot : Distance}
      (outside : class? layers = none) :
      Violation layers (.use owner? ⟨.this, keyword, slot⟩) ⟨.thisOutsideClass, keyword⟩
  | superOutsideClass {owner? : Option Token} {keyword : Token} {slot : Distance}
      (outside : class? layers = none) :
      Violation layers (.use owner? ⟨.super, keyword, slot⟩) ⟨.superOutsideClass, keyword⟩
  | superWithoutSuperclass {owner? : Option Token} {keyword : Token} {slot : Distance}
      (inside : class? layers = some false) :
      Violation layers (.use owner? ⟨.super, keyword, slot⟩) ⟨.superWithoutSuperclass, keyword⟩
  | inheritsFromItself {name parent : Token} (same : parent.lexeme = name.lexeme) :
      Violation layers (.inherits name parent) ⟨.inheritsFromItself, parent⟩

def Violates (entries : List OutlineEntry) (path : List Nat) (error : BindingError) : Prop :=
  ∃ entry, entryAt? entries path = some entry ∧ Violation (layers entries path) entry error

end Outline
end Lox
