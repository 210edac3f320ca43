import Mathlib.Logic.Basic
import Lox.Proofs.Renaming.Trees

namespace Lox

section distances

mutual

def Expr.slots : Expr → List Distance
  | .literal _ => []
  | .unary _ right => right.slots
  | .binary left _ right | .logical left _ right => left.slots ++ right.slots
  | .grouping inner => inner.slots
  | .variable _ distance | .this _ distance | .super _ _ distance => [distance]
  | .assign _ value distance => distance :: value.slots
  | .call callee _ arguments => callee.slots ++ slotsAll arguments
  | .get object _ => object.slots
  | .set object _ value => object.slots ++ value.slots

def Expr.slotsAll : List Expr → List Distance
  | [] => []
  | first :: rest => first.slots ++ Expr.slotsAll rest

end

mutual

def Stmt.slots : Stmt → List Distance
  | .expression value | .print value => value.slots
  | .varDecl _ initializer? => initializer?.elim [] Expr.slots
  | .block body => Stmt.slotsAll body
  | .branch condition thenBranch none => condition.slots ++ thenBranch.slots
  | .branch condition thenBranch (some elseBranch) =>
    condition.slots ++ thenBranch.slots ++ elseBranch.slots
  | .loop condition body => condition.slots ++ body.slots
  | .functionDecl declaration => declaration.slots
  | .returns _ value? => value?.elim [] Expr.slots
  | .classDecl _ superclass? methods =>
    superclass?.elim [] Expr.slots ++ FunctionDecl.slotsAll methods

def Stmt.slotsAll : List Stmt → List Distance
  | [] => []
  | first :: rest => first.slots ++ Stmt.slotsAll rest

def FunctionDecl.slots : FunctionDecl → List Distance
  | .mk _ _ body => Stmt.slotsAll body

def FunctionDecl.slotsAll : List FunctionDecl → List Distance
  | [] => []
  | first :: rest => first.slots ++ FunctionDecl.slotsAll rest

end

end distances

variable {old : String} (new : String)

section renamed

mutual

theorem Expr.slots_renamed (depth : Nat) : (e : Expr) → (e.renamed old new depth).slots = e.slots
  | .literal _ | .variable _ _ | .this _ _ | .super _ _ _ => rfl
  | .unary _ right => slots_renamed depth right
  | .binary left _ right | .logical left _ right =>
    congrArg₂ (· ++ ·) (slots_renamed depth left) (slots_renamed depth right)
  | .grouping inner => slots_renamed depth inner
  | .assign _ value _ => congrArg (List.cons _) (slots_renamed depth value)
  | .call callee _ arguments =>
    congrArg₂ (· ++ ·) (slots_renamed depth callee) (slotsAll_renamed depth arguments)
  | .get object _ => slots_renamed depth object
  | .set object _ value =>
    congrArg₂ (· ++ ·) (slots_renamed depth object) (slots_renamed depth value)

theorem Expr.slotsAll_renamed (depth : Nat) : (es : List Expr) →
    Expr.slotsAll (Expr.renamedAll old new depth es) = Expr.slotsAll es
  | [] => rfl
  | e :: rest => congrArg₂ (· ++ ·) (Expr.slots_renamed depth e) (Expr.slotsAll_renamed depth rest)

end

theorem Expr.slots_optional (depth : Nat) (e? : Option Expr) :
    (e?.map (Expr.renamed old new depth)).elim [] Expr.slots = e?.elim [] Expr.slots := by
  cases e? with
  | none => rfl
  | some e => exact e.slots_renamed new depth

mutual

theorem Stmt.slots_renamed (depth : Nat) :
    (s : Stmt) → (s.renamed old new depth).slots = s.slots
  | .expression value | .print value => value.slots_renamed new depth
  | .varDecl _ initializer? => Expr.slots_optional new depth initializer?
  | .block body => Stmt.slotsAll_renamed (depth + 1) body
  | .branch condition thenBranch none =>
    congrArg₂ (· ++ ·) (condition.slots_renamed new depth) (thenBranch.slots_renamed depth)
  | .branch condition thenBranch (some elseBranch) =>
    congrArg₂ (· ++ ·) (congrArg₂ (· ++ ·) (condition.slots_renamed new depth)
      (thenBranch.slots_renamed depth)) (elseBranch.slots_renamed depth)
  | .loop condition body =>
    congrArg₂ (· ++ ·) (condition.slots_renamed new depth) (body.slots_renamed depth)
  | .functionDecl declaration => declaration.slots_renamed depth
  | .returns _ value? => Expr.slots_optional new depth value?
  | .classDecl _ superclass? methods =>
    congrArg₂ (· ++ ·) (Expr.slots_optional new depth superclass?)
      (FunctionDecl.slotsAll_renamed _ methods)

theorem Stmt.slotsAll_renamed (depth : Nat) : (ss : List Stmt) →
    Stmt.slotsAll (Stmt.renamedAll old new depth ss) = Stmt.slotsAll ss
  | [] => rfl
  | s :: rest => congrArg₂ (· ++ ·) (s.slots_renamed depth) (Stmt.slotsAll_renamed depth rest)

theorem FunctionDecl.slots_renamed (depth : Nat) : (declaration : FunctionDecl) →
    (declaration.renamed old new depth).slots = declaration.slots
  | .mk _ _ body => Stmt.slotsAll_renamed (depth + 1) body

theorem FunctionDecl.slotsAll_renamed (depth : Nat) : (declarations : List FunctionDecl) →
    FunctionDecl.slotsAll (FunctionDecl.renamedAll old new depth declarations) =
      FunctionDecl.slotsAll declarations
  | [] => rfl
  | declaration :: rest =>
    congrArg₂ (· ++ ·) (declaration.slots_renamed depth) (FunctionDecl.slotsAll_renamed depth rest)

end

end renamed

section renames

mutual

theorem Stmt.Renames.slots : (s : Stmt) → {rename : String → Stmt} →
    s.Renames old rename → (rename new).slots = s.slots
  | .expression _, _, renames | .print _, _, renames | .varDecl _ _, _, renames
  | .returns _ _, _, renames => nomatch renames
  | .block body, _, .block _ => Stmt.slotsAll_renamed new 0 body
  | .block body, _, .inside one => Stmt.RenamesOne.slots body one
  | .branch condition thenBranch none, _, .thenBranch one =>
    congrArg (condition.slots ++ ·) (Stmt.Renames.slots thenBranch one)
  | .branch condition thenBranch (some elseBranch), _, .thenBranch one =>
    congrArg (condition.slots ++ · ++ elseBranch.slots) (Stmt.Renames.slots thenBranch one)
  | .branch condition thenBranch (some elseBranch), _, .elseBranch one =>
    congrArg (condition.slots ++ thenBranch.slots ++ ·) (Stmt.Renames.slots elseBranch one)
  | .loop condition body, _, .loop one =>
    congrArg (condition.slots ++ ·) (Stmt.Renames.slots body one)
  | .functionDecl declaration, _, .function one => FunctionDecl.Renames.slots declaration one
  | .classDecl _ superclass? methods, _, .method one =>
    congrArg (superclass?.elim [] Expr.slots ++ ·) (FunctionDecl.RenamesOne.slots methods one)

theorem Stmt.RenamesOne.slots : (ss : List Stmt) → {rename : String → List Stmt} →
    Stmt.RenamesOne old ss rename → Stmt.slotsAll (rename new) = Stmt.slotsAll ss
  | s :: rest, _, .head one => congrArg (· ++ Stmt.slotsAll rest) (Stmt.Renames.slots s one)
  | s :: rest, _, .tail one => congrArg (s.slots ++ ·) (Stmt.RenamesOne.slots rest one)

theorem FunctionDecl.Renames.slots : (declaration : FunctionDecl) →
    {rename : String → FunctionDecl} → declaration.Renames old rename →
    (rename new).slots = declaration.slots
  | .mk _ _ body, _, .own _ => Stmt.slotsAll_renamed new 0 body
  | .mk _ _ body, _, .inside one => Stmt.RenamesOne.slots body one

theorem FunctionDecl.RenamesOne.slots : (declarations : List FunctionDecl) →
    {rename : String → List FunctionDecl} → FunctionDecl.RenamesOne old declarations rename →
    FunctionDecl.slotsAll (rename new) = FunctionDecl.slotsAll declarations
  | declaration :: rest, _, .head one =>
    congrArg (· ++ FunctionDecl.slotsAll rest) (FunctionDecl.Renames.slots declaration one)
  | declaration :: rest, _, .tail one =>
    congrArg (declaration.slots ++ ·) (FunctionDecl.RenamesOne.slots rest one)

end

end renames

end Lox
