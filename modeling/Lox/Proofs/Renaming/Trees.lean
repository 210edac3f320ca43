import Lox.Tree.Basic

namespace Lox

def Token.renamed (old new : String) (t : Token) : Token :=
  if t.lexeme = old then { t with lexeme := new } else t

section cleared

mutual

def Expr.cleared : Expr → Expr
  | .literal value => .literal value
  | .unary operator right => .unary operator right.cleared
  | .binary left operator right => .binary left.cleared operator right.cleared
  | .logical left operator right => .logical left.cleared operator right.cleared
  | .grouping inner => .grouping inner.cleared
  | .variable name _ => .variable name none
  | .assign name value _ => .assign name value.cleared none
  | .call callee paren arguments => .call callee.cleared paren (clearedAll arguments)
  | .get object name => .get object.cleared name
  | .set object name value => .set object.cleared name value.cleared
  | .this keyword _ => .this keyword none
  | .super keyword method _ => .super keyword method none

def Expr.clearedAll : List Expr → List Expr
  | [] => []
  | first :: rest => first.cleared :: Expr.clearedAll rest

end

mutual

def Stmt.cleared : Stmt → Stmt
  | .expression value => .expression value.cleared
  | .print value => .print value.cleared
  | .varDecl name initializer? => .varDecl name (initializer?.map Expr.cleared)
  | .block body => .block (Stmt.clearedAll body)
  | .branch condition thenBranch none => .branch condition.cleared thenBranch.cleared none
  | .branch condition thenBranch (some elseBranch) =>
    .branch condition.cleared thenBranch.cleared (some elseBranch.cleared)
  | .loop condition body => .loop condition.cleared body.cleared
  | .functionDecl declaration => .functionDecl declaration.cleared
  | .returns keyword value? => .returns keyword (value?.map Expr.cleared)
  | .classDecl name superclass? methods =>
    .classDecl name (superclass?.map Expr.cleared) (FunctionDecl.clearedAll methods)

def Stmt.clearedAll : List Stmt → List Stmt
  | [] => []
  | first :: rest => first.cleared :: Stmt.clearedAll rest

def FunctionDecl.cleared : FunctionDecl → FunctionDecl
  | .mk name params body => .mk name params (Stmt.clearedAll body)

def FunctionDecl.clearedAll : List FunctionDecl → List FunctionDecl
  | [] => []
  | first :: rest => first.cleared :: FunctionDecl.clearedAll rest

end

end cleared

section names

mutual

def Expr.names : Expr → List String
  | .literal _ | .super _ _ _ => []
  | .unary _ right => right.names
  | .binary left _ right | .logical left _ right => left.names ++ right.names
  | .grouping inner => inner.names
  | .variable name _ | .this name _ => [name.lexeme]
  | .assign name value _ => name.lexeme :: value.names
  | .call callee _ arguments => callee.names ++ namesAll arguments
  | .get object _ => object.names
  | .set object _ value => object.names ++ value.names

def Expr.namesAll : List Expr → List String
  | [] => []
  | first :: rest => first.names ++ Expr.namesAll rest

end

mutual

def Stmt.names : Stmt → List String
  | .expression value | .print value => value.names
  | .varDecl name initializer? => name.lexeme :: initializer?.elim [] Expr.names
  | .block body => Stmt.namesAll body
  | .branch condition thenBranch none => condition.names ++ thenBranch.names
  | .branch condition thenBranch (some elseBranch) =>
    condition.names ++ thenBranch.names ++ elseBranch.names
  | .loop condition body => condition.names ++ body.names
  | .functionDecl declaration => declaration.names
  | .returns _ value? => value?.elim [] Expr.names
  | .classDecl name superclass? methods =>
    name.lexeme :: superclass?.elim [] Expr.names ++ FunctionDecl.namesAll methods

def Stmt.namesAll : List Stmt → List String
  | [] => []
  | first :: rest => first.names ++ Stmt.namesAll rest

def FunctionDecl.names : FunctionDecl → List String
  | .mk name params body => name.lexeme :: params.map Token.lexeme ++ Stmt.namesAll body

def FunctionDecl.namesAll : List FunctionDecl → List String
  | [] => []
  | first :: rest => first.names ++ FunctionDecl.namesAll rest

end

def Stmt.made : Stmt → List String
  | .functionDecl declaration => [declaration.name.lexeme]
  | .classDecl name _ _ => [name.lexeme]
  | .branch _ thenBranch none => thenBranch.made
  | .branch _ thenBranch (some elseBranch) => thenBranch.made ++ elseBranch.made
  | .loop _ body => body.made
  | .expression _ | .print _ | .varDecl _ _ | .block _ | .returns _ _ => []

theorem Stmt.made_subset : (s : Stmt) → s.made ⊆ s.names
  | .functionDecl (.mk _ _ _), _, member => by
    cases List.mem_singleton.mp member
    exact List.mem_cons_self
  | .classDecl _ _ _, _, member => by
    cases List.mem_singleton.mp member
    exact List.mem_cons_self
  | .branch _ thenBranch none, _, member => List.mem_append_right _ (thenBranch.made_subset member)
  | .branch _ thenBranch (some elseBranch), _, member => by
    rcases List.mem_append.mp member with first | second
    · exact List.mem_append_left _ (List.mem_append_right _ (thenBranch.made_subset first))
    · exact List.mem_append_right _ (elseBranch.made_subset second)
  | .loop _ body, _, member => List.mem_append_right _ (body.made_subset member)
  | .expression _, _, member | .print _, _, member | .varDecl _ _, _, member
  | .block _, _, member | .returns _ _, _, member => nomatch member

theorem Stmt.names_subset {s : Stmt} :
    {ss : List Stmt} → s ∈ ss → s.names ⊆ Stmt.namesAll ss
  | _ :: _, .head _ => List.subset_append_left _ _
  | _ :: _, .tail _ later => List.subset_append_of_subset_right _ (Stmt.names_subset later)

end names

section renamed

variable (old new : String)

mutual

/-- An expression in which what the scope so far out binds as `old` is called otherwise. -/
def Expr.renamed (depth : Nat) : Expr → Expr
  | .literal value => .literal value
  | .unary operator right => .unary operator (right.renamed depth)
  | .binary left operator right => .binary (left.renamed depth) operator (right.renamed depth)
  | .logical left operator right => .logical (left.renamed depth) operator (right.renamed depth)
  | .grouping inner => .grouping (inner.renamed depth)
  | .variable name distance =>
    .variable (if distance = some depth then name.renamed old new else name) distance
  | .assign name value distance =>
    .assign (if distance = some depth then name.renamed old new else name) (value.renamed depth)
      distance
  | .call callee paren arguments => .call (callee.renamed depth) paren (renamedAll depth arguments)
  | .get object name => .get (object.renamed depth) name
  | .set object name value => .set (object.renamed depth) name (value.renamed depth)
  | .this keyword distance => .this keyword distance
  | .super keyword method distance => .super keyword method distance

def Expr.renamedAll (depth : Nat) : List Expr → List Expr
  | [] => []
  | first :: rest => first.renamed depth :: Expr.renamedAll depth rest

end

mutual

/-- A statement in which what the scope so far out binds as `old` is called otherwise; a variable
    that it declares in that scope itself is, too. -/
def Stmt.renamed (depth : Nat) : Stmt → Stmt
  | .expression value => .expression (value.renamed old new depth)
  | .print value => .print (value.renamed old new depth)
  | .varDecl name initializer? =>
    .varDecl (if depth = 0 then name.renamed old new else name)
      (initializer?.map (Expr.renamed old new depth))
  | .block body => .block (Stmt.renamedAll (depth + 1) body)
  | .branch condition thenBranch none =>
    .branch (condition.renamed old new depth) (thenBranch.renamed depth) none
  | .branch condition thenBranch (some elseBranch) =>
    .branch (condition.renamed old new depth) (thenBranch.renamed depth)
      (some (elseBranch.renamed depth))
  | .loop condition body => .loop (condition.renamed old new depth) (body.renamed depth)
  | .functionDecl declaration => .functionDecl (declaration.renamed depth)
  | .returns keyword value? => .returns keyword (value?.map (Expr.renamed old new depth))
  | .classDecl name superclass? methods =>
    .classDecl name (superclass?.map (Expr.renamed old new depth))
      (FunctionDecl.renamedAll (depth + if superclass?.isSome then 2 else 1) methods)

def Stmt.renamedAll (depth : Nat) : List Stmt → List Stmt
  | [] => []
  | first :: rest => first.renamed depth :: Stmt.renamedAll depth rest

def FunctionDecl.renamed (depth : Nat) : FunctionDecl → FunctionDecl
  | .mk name params body => .mk name params (Stmt.renamedAll (depth + 1) body)

def FunctionDecl.renamedAll (depth : Nat) : List FunctionDecl → List FunctionDecl
  | [] => []
  | first :: rest => first.renamed depth :: FunctionDecl.renamedAll depth rest

end

end renamed

section places

variable (old : String)

def DeclaresVariable (body : List Stmt) : Prop :=
  ∃ name initializer?, .varDecl name initializer? ∈ body ∧ name.lexeme = old

mutual

/-- A scope that opens inside a statement has a variable called `old`. The statement is given for
    each name that this variable can have instead. -/
inductive Stmt.Renames : Stmt → (String → Stmt) → Prop where
  | block {body : List Stmt} (declares : DeclaresVariable old body) :
      Stmt.Renames (.block body) fun new => .block (Stmt.renamedAll old new 0 body)
  | inside {body : List Stmt} {rename : String → List Stmt} (one : Stmt.RenamesOne body rename) :
      Stmt.Renames (.block body) fun new => .block (rename new)
  | thenBranch {condition : Expr} {thenBranch : Stmt} {elseBranch? : Option Stmt}
      {rename : String → Stmt} (one : Stmt.Renames thenBranch rename) :
      Stmt.Renames (.branch condition thenBranch elseBranch?)
        fun new => .branch condition (rename new) elseBranch?
  | elseBranch {condition : Expr} {thenBranch elseBranch : Stmt} {rename : String → Stmt}
      (one : Stmt.Renames elseBranch rename) :
      Stmt.Renames (.branch condition thenBranch (some elseBranch))
        fun new => .branch condition thenBranch (some (rename new))
  | loop {condition : Expr} {body : Stmt} {rename : String → Stmt}
      (one : Stmt.Renames body rename) :
      Stmt.Renames (.loop condition body) fun new => .loop condition (rename new)
  | function {declaration : FunctionDecl} {rename : String → FunctionDecl}
      (one : FunctionDecl.Renames declaration rename) :
      Stmt.Renames (.functionDecl declaration) fun new => .functionDecl (rename new)
  | method {name : Token} {superclass? : Option Expr} {methods : List FunctionDecl}
      {rename : String → List FunctionDecl} (one : FunctionDecl.RenamesOne methods rename) :
      Stmt.Renames (.classDecl name superclass? methods)
        fun new => .classDecl name superclass? (rename new)

inductive Stmt.RenamesOne : List Stmt → (String → List Stmt) → Prop where
  | head {s : Stmt} {rest : List Stmt} {rename : String → Stmt} (one : Stmt.Renames s rename) :
      Stmt.RenamesOne (s :: rest) fun new => rename new :: rest
  | tail {s : Stmt} {rest : List Stmt} {rename : String → List Stmt}
      (one : Stmt.RenamesOne rest rename) : Stmt.RenamesOne (s :: rest) fun new => s :: rename new

inductive FunctionDecl.Renames : FunctionDecl → (String → FunctionDecl) → Prop where
  | own {name : Token} {params : List Token} {body : List Stmt}
      (declares : old ∈ params.map Token.lexeme ∨ DeclaresVariable old body) :
      FunctionDecl.Renames (.mk name params body) fun new =>
        .mk name (params.map (Token.renamed old new)) (Stmt.renamedAll old new 0 body)
  | inside {name : Token} {params : List Token} {body : List Stmt} {rename : String → List Stmt}
      (one : Stmt.RenamesOne body rename) :
      FunctionDecl.Renames (.mk name params body) fun new => .mk name params (rename new)

inductive FunctionDecl.RenamesOne :
    List FunctionDecl → (String → List FunctionDecl) → Prop where
  | head {declaration : FunctionDecl} {rest : List FunctionDecl} {rename : String → FunctionDecl}
      (one : FunctionDecl.Renames declaration rename) :
      FunctionDecl.RenamesOne (declaration :: rest) fun new => rename new :: rest
  | tail {declaration : FunctionDecl} {rest : List FunctionDecl}
      {rename : String → List FunctionDecl} (one : FunctionDecl.RenamesOne rest rename) :
      FunctionDecl.RenamesOne (declaration :: rest) fun new => declaration :: rename new

end

variable {old} in
theorem FunctionDecl.Renames.name {declaration : FunctionDecl} {rename : String → FunctionDecl}
    (renames : declaration.Renames old rename) (new : String) :
    (rename new).name = declaration.name := by
  cases renames <;> rfl

end places

section fixed

variable {old new : String}

def Leaves (old new : String) (names : List String) : Prop :=
  ∀ name ∈ names, name = old → new = old

theorem Token.renamed_fixed {t : Token} (leaves : Leaves old new [t.lexeme]) :
    t.renamed old new = t := by
  unfold Token.renamed
  split
  · rename_i same
    rw [leaves _ List.mem_cons_self same, ← same]
  · rfl

theorem Leaves.cons {name : String} {names : List String}
    (leaves : Leaves old new (name :: names)) :
    Leaves old new [name] ∧ Leaves old new names :=
  ⟨fun _ same => leaves _ (List.mem_singleton.mp same ▸ List.mem_cons_self),
    fun _ later => leaves _ (List.mem_cons_of_mem _ later)⟩

theorem Leaves.append {first second : List String} (leaves : Leaves old new (first ++ second)) :
    Leaves old new first ∧ Leaves old new second := List.forall_mem_append.mp leaves

mutual

theorem Expr.renamed_fixed (depth : Nat) :
    (e : Expr) → Leaves old new e.names → e.renamed old new depth = e
  | .literal _, _ | .this _ _, _ | .super _ _ _, _ => by simp only [Expr.renamed]
  | .unary _ right, leaves => congrArg _ (right.renamed_fixed depth leaves)
  | .binary left _ right, leaves => by
    obtain ⟨first, second⟩ := leaves.append
    simp only [Expr.renamed, left.renamed_fixed depth first, right.renamed_fixed depth second]
  | .logical left _ right, leaves => by
    obtain ⟨first, second⟩ := leaves.append
    simp only [Expr.renamed, left.renamed_fixed depth first, right.renamed_fixed depth second]
  | .grouping inner, leaves => congrArg _ (inner.renamed_fixed depth leaves)
  | .variable _ _, leaves => by simp only [Expr.renamed, Token.renamed_fixed leaves, ite_self]
  | .assign _ value _, leaves => by
    obtain ⟨own, assigned⟩ := leaves.cons
    simp only [Expr.renamed, Token.renamed_fixed own, value.renamed_fixed depth assigned, ite_self]
  | .call callee _ arguments, leaves => by
    obtain ⟨called, given⟩ := leaves.append
    simp only [Expr.renamed, callee.renamed_fixed depth called,
      Expr.renamedAll_fixed depth arguments given]
  | .get object _, leaves => by simp only [Expr.renamed, object.renamed_fixed depth leaves]
  | .set object _ value, leaves => by
    obtain ⟨owner, assigned⟩ := leaves.append
    simp only [Expr.renamed, object.renamed_fixed depth owner, value.renamed_fixed depth assigned]

theorem Expr.renamedAll_fixed (depth : Nat) :
    (es : List Expr) → Leaves old new (Expr.namesAll es) → Expr.renamedAll old new depth es = es
  | [], _ => rfl
  | e :: rest, leaves => by
    obtain ⟨first, others⟩ := leaves.append
    simp only [Expr.renamedAll, e.renamed_fixed depth first,
      Expr.renamedAll_fixed depth rest others]

end

theorem Expr.map_renamed_fixed (depth : Nat) (e? : Option Expr)
    (leaves : Leaves old new (e?.elim [] Expr.names)) :
    e?.map (Expr.renamed old new depth) = e? := by
  cases e? with
  | none => rfl
  | some e => exact congrArg some (e.renamed_fixed depth leaves)

mutual

/-- Renaming changes no statement in which the new name takes the place of none. -/
theorem Stmt.renamed_fixed (depth : Nat) :
    (s : Stmt) → Leaves old new s.names → s.renamed old new depth = s
  | .expression value, leaves | .print value, leaves => by
    simp only [Stmt.renamed, value.renamed_fixed depth leaves]
  | .varDecl _ initializer?, leaves => by
    obtain ⟨own, initial⟩ := leaves.cons
    simp only [Stmt.renamed, Token.renamed_fixed own, ite_self,
      Expr.map_renamed_fixed depth initializer? initial]
  | .block body, leaves => by simp only [Stmt.renamed, Stmt.renamedAll_fixed _ body leaves]
  | .branch condition thenBranch none, leaves => by
    obtain ⟨tested, first⟩ := leaves.append
    simp only [Stmt.renamed, condition.renamed_fixed depth tested,
      thenBranch.renamed_fixed depth first]
  | .branch condition thenBranch (some elseBranch), leaves => by
    obtain ⟨before, second⟩ := leaves.append
    obtain ⟨tested, first⟩ := before.append
    simp only [Stmt.renamed, condition.renamed_fixed depth tested,
      thenBranch.renamed_fixed depth first, elseBranch.renamed_fixed depth second]
  | .loop condition body, leaves => by
    obtain ⟨tested, repeated⟩ := leaves.append
    simp only [Stmt.renamed, condition.renamed_fixed depth tested,
      body.renamed_fixed depth repeated]
  | .functionDecl declaration, leaves => by
    simp only [Stmt.renamed, declaration.renamed_fixed depth leaves]
  | .returns _ value?, leaves => by
    simp only [Stmt.renamed, Expr.map_renamed_fixed depth value? leaves]
  | .classDecl _ superclass? methods, leaves => by
    obtain ⟨before, within⟩ := leaves.append
    obtain ⟨_, above⟩ := before.cons
    simp only [Stmt.renamed, Expr.map_renamed_fixed depth superclass? above,
      FunctionDecl.renamedAll_fixed _ methods within]

theorem Stmt.renamedAll_fixed (depth : Nat) :
    (ss : List Stmt) → Leaves old new (Stmt.namesAll ss) → Stmt.renamedAll old new depth ss = ss
  | [], _ => rfl
  | s :: rest, leaves => by
    obtain ⟨first, others⟩ := leaves.append
    simp only [Stmt.renamedAll, s.renamed_fixed depth first,
      Stmt.renamedAll_fixed depth rest others]

theorem FunctionDecl.renamed_fixed (depth : Nat) : (declaration : FunctionDecl) →
    Leaves old new declaration.names → declaration.renamed old new depth = declaration
  | .mk _ _ body, leaves => by
    simp only [FunctionDecl.renamed, Stmt.renamedAll_fixed _ body leaves.append.2]

theorem FunctionDecl.renamedAll_fixed (depth : Nat) : (declarations : List FunctionDecl) →
    Leaves old new (FunctionDecl.namesAll declarations) →
    FunctionDecl.renamedAll old new depth declarations = declarations
  | [], _ => rfl
  | declaration :: rest, leaves => by
    obtain ⟨first, others⟩ := leaves.append
    simp only [FunctionDecl.renamedAll, declaration.renamed_fixed depth first,
      FunctionDecl.renamedAll_fixed depth rest others]

end

theorem map_renamed_self (old : String) (params : List Token) :
    params.map (Token.renamed old old) = params := by
  have same : Token.renamed old old = id := funext fun _ => Token.renamed_fixed fun _ _ _ => rfl
  rw [same, List.map_id]

end fixed

section self

variable {old : String}

mutual

theorem Stmt.Renames.self : (s : Stmt) → {rename : String → Stmt} → s.Renames old rename →
    rename old = s
  | .expression _, _, renames | .print _, _, renames | .varDecl _ _, _, renames
  | .returns _ _, _, renames => nomatch renames
  | .block body, _, .block _ =>
    congrArg Stmt.block (Stmt.renamedAll_fixed 0 body fun _ _ _ => rfl)
  | .block body, _, .inside one => congrArg Stmt.block (Stmt.RenamesOne.self body one)
  | .branch condition thenBranch none, _, .thenBranch one =>
    congrArg (Stmt.branch condition · none) (Stmt.Renames.self thenBranch one)
  | .branch condition thenBranch (some elseBranch), _, .thenBranch one =>
    congrArg (Stmt.branch condition · (some elseBranch)) (Stmt.Renames.self thenBranch one)
  | .branch condition thenBranch (some elseBranch), _, .elseBranch one =>
    congrArg (Stmt.branch condition thenBranch ∘ some) (Stmt.Renames.self elseBranch one)
  | .loop condition body, _, .loop one =>
    congrArg (Stmt.loop condition) (Stmt.Renames.self body one)
  | .functionDecl declaration, _, .function one =>
    congrArg Stmt.functionDecl (FunctionDecl.Renames.self declaration one)
  | .classDecl name superclass? methods, _, .method one =>
    congrArg (Stmt.classDecl name superclass?) (FunctionDecl.RenamesOne.self methods one)

theorem Stmt.RenamesOne.self : (ss : List Stmt) → {rename : String → List Stmt} →
    Stmt.RenamesOne old ss rename → rename old = ss
  | s :: rest, _, .head one => congrArg (· :: rest) (Stmt.Renames.self s one)
  | s :: rest, _, .tail one => congrArg (s :: ·) (Stmt.RenamesOne.self rest one)

theorem FunctionDecl.Renames.self : (declaration : FunctionDecl) →
    {rename : String → FunctionDecl} → declaration.Renames old rename →
    rename old = declaration
  | .mk name params body, _, .own _ => by
    show FunctionDecl.mk name (params.map (Token.renamed old old)) _ = _
    rw [map_renamed_self, Stmt.renamedAll_fixed 0 body fun _ _ _ => rfl]
  | .mk name params body, _, .inside one =>
    congrArg (FunctionDecl.mk name params) (Stmt.RenamesOne.self body one)

theorem FunctionDecl.RenamesOne.self : (declarations : List FunctionDecl) →
    {rename : String → List FunctionDecl} → FunctionDecl.RenamesOne old declarations rename →
    rename old = declarations
  | declaration :: rest, _, .head one =>
    congrArg (· :: rest) (FunctionDecl.Renames.self declaration one)
  | declaration :: rest, _, .tail one =>
    congrArg (declaration :: ·) (FunctionDecl.RenamesOne.self rest one)

end

end self

end Lox
