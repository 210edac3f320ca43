import Lox.Proofs.Rewording.Trees
import Lox.Proofs.Renaming.Trees

namespace Lox

/-- A name that occurs in no program, and the one that it stands for. -/
structure Marking where
  mark : String
  name : String
  distinct : mark ≠ name
  mark_plain : mark ≠ "this" ∧ mark ≠ "super"
  name_plain : name ≠ "this" ∧ name ≠ "super"

namespace Marking

variable (k : Marking)

def meant (name : String) : String := if name = k.mark then k.name else name

theorem meant_mark : k.meant k.mark = k.name := if_pos rfl

theorem meant_of_ne {name : String} (unmarked : name ≠ k.mark) : k.meant name = name :=
  if_neg unmarked

theorem meant_iff {word : String} (mark : k.mark ≠ word) (name : k.name ≠ word)
    (other : String) : k.meant other = word ↔ other = word := by
  unfold meant
  split
  · rename_i same
    rw [same]
    exact ⟨fun impossible => absurd impossible name, fun impossible => absurd impossible mark⟩
  · rfl

def rewording : Rewording :=
  ⟨fun line => line, k.meant, k.meant_iff k.mark_plain.1 k.name_plain.1,
    k.meant_iff k.mark_plain.2 k.name_plain.2⟩

def Absent (names : List String) : Prop := ∀ name ∈ names, name ≠ k.mark

variable {k}

theorem Absent.append {first second : List String} (absent : k.Absent (first ++ second)) :
    k.Absent first ∧ k.Absent second := List.forall_mem_append.mp absent

theorem Absent.cons {name : String} {names : List String} (absent : k.Absent (name :: names)) :
    name ≠ k.mark ∧ k.Absent names := List.forall_mem_cons.mp absent

theorem Absent.leaves {names : List String} (absent : k.Absent names) (new : String) :
    Leaves k.mark new names := fun name member same => absurd same (absent name member)

theorem named_of_ne {t : Token} (unmarked : t.lexeme ≠ k.mark) : k.rewording.named t = t := by
  unfold Rewording.named
  rw [show k.rewording.name t.lexeme = t.lexeme from k.meant_of_ne unmarked]
  rfl

/-- A marked token is read as the renamed one. -/
theorem named_renamed (old : String) {t : Token} (unmarked : t.lexeme ≠ k.mark) :
    k.rewording.named (t.renamed old k.mark) = t.renamed old k.name := by
  unfold Token.renamed
  split
  · unfold Rewording.named
    rw [show k.rewording.name k.mark = k.name from k.meant_mark]
    rfl
  · exact named_of_ne unmarked

theorem named_ite (old : String) {t : Token} (unmarked : t.lexeme ≠ k.mark) (here : Prop)
    [Decidable here] : k.rewording.named (if here then t.renamed old k.mark else t) =
      if here then t.renamed old k.name else t := by
  split
  · exact named_renamed old unmarked
  · exact named_of_ne unmarked

theorem named_params {params : List Token} (absent : k.Absent (params.map Token.lexeme)) :
    params.map k.rewording.named = params :=
  (List.map_congr_left fun _ member => named_of_ne (absent _ (List.mem_map_of_mem member))).trans
    (List.map_id params)

section reworded

variable (old : String)

mutual

theorem expression_renamed (depth : Nat) : (e : Expr) → k.Absent e.names →
    k.rewording.expression (e.renamed old k.mark depth) = e.renamed old k.name depth
  | .literal _, _ => rfl
  | .super _ _ _, _ => rfl
  | .unary operator right, absent => by
    rw [Expr.renamed, Rewording.expression, expression_renamed depth right absent, Expr.renamed]
    rfl
  | .binary left _ right, absent => by
    obtain ⟨first, second⟩ := absent.append
    rw [Expr.renamed, Rewording.expression, expression_renamed depth left first,
      expression_renamed depth right second, Expr.renamed]
    rfl
  | .logical left _ right, absent => by
    obtain ⟨first, second⟩ := absent.append
    rw [Expr.renamed, Rewording.expression, expression_renamed depth left first,
      expression_renamed depth right second, Expr.renamed]
    rfl
  | .grouping inner, absent => by
    rw [Expr.renamed, Rewording.expression, expression_renamed depth inner absent, Expr.renamed]
  | .variable name _, absent => by
    rw [Expr.renamed, Rewording.expression, named_ite old absent.cons.1, Expr.renamed]
  | .assign name value _, absent => by
    obtain ⟨own, assigned⟩ := absent.cons
    rw [Expr.renamed, Rewording.expression, named_ite old own,
      expression_renamed depth value assigned, Expr.renamed]
  | .call callee _ arguments, absent => by
    obtain ⟨called, given⟩ := absent.append
    rw [Expr.renamed, Rewording.expression, expression_renamed depth callee called,
      expressions_renamed depth arguments given, Expr.renamed]
    rfl
  | .get object _, absent => by
    rw [Expr.renamed, Rewording.expression, expression_renamed depth object absent, Expr.renamed]
    rfl
  | .set object _ value, absent => by
    obtain ⟨owner, assigned⟩ := absent.append
    rw [Expr.renamed, Rewording.expression, expression_renamed depth object owner,
      expression_renamed depth value assigned, Expr.renamed]
    rfl
  | .this keyword _, absent => by
    rw [Expr.renamed, Rewording.expression, named_of_ne absent.cons.1, Expr.renamed]

theorem expressions_renamed (depth : Nat) : (es : List Expr) → k.Absent (Expr.namesAll es) →
    k.rewording.expressions (Expr.renamedAll old k.mark depth es) =
      Expr.renamedAll old k.name depth es
  | [], _ => rfl
  | e :: rest, absent => by
    obtain ⟨first, others⟩ := absent.append
    rw [Expr.renamedAll, Rewording.expressions, expression_renamed depth e first,
      expressions_renamed depth rest others, Expr.renamedAll]

end

theorem optional_renamed (depth : Nat) (e? : Option Expr)
    (absent : k.Absent (e?.elim [] Expr.names)) :
    (e?.map (Expr.renamed old k.mark depth)).map k.rewording.expression =
      e?.map (Expr.renamed old k.name depth) := by
  cases e? with
  | none => rfl
  | some e => exact congrArg some (expression_renamed old depth e absent)

mutual

theorem statement_renamed (depth : Nat) : (s : Stmt) → k.Absent s.names →
    k.rewording.statement (s.renamed old k.mark depth) = s.renamed old k.name depth
  | .expression value, absent | .print value, absent => by
    rw [Stmt.renamed, Rewording.statement, expression_renamed old depth value absent, Stmt.renamed]
  | .varDecl name initializer?, absent => by
    obtain ⟨own, initial⟩ := absent.cons
    rw [Stmt.renamed, Rewording.statement, named_ite old own,
      optional_renamed old depth initializer? initial, Stmt.renamed]
  | .block body, absent => by
    rw [Stmt.renamed, Rewording.statement, statements_renamed _ body absent, Stmt.renamed]
  | .branch condition thenBranch none, absent => by
    obtain ⟨tested, first⟩ := absent.append
    rw [Stmt.renamed, Rewording.statement, expression_renamed old depth condition tested,
      statement_renamed depth thenBranch first, Stmt.renamed]
  | .branch condition thenBranch (some elseBranch), absent => by
    obtain ⟨before, second⟩ := absent.append
    obtain ⟨tested, first⟩ := before.append
    rw [Stmt.renamed, Rewording.statement, expression_renamed old depth condition tested,
      statement_renamed depth thenBranch first, statement_renamed depth elseBranch second,
      Stmt.renamed]
  | .loop condition body, absent => by
    obtain ⟨tested, repeated⟩ := absent.append
    rw [Stmt.renamed, Rewording.statement, expression_renamed old depth condition tested,
      statement_renamed depth body repeated, Stmt.renamed]
  | .functionDecl declaration, absent => by
    rw [Stmt.renamed, Rewording.statement, function_renamed depth declaration absent, Stmt.renamed]
  | .returns _ value?, absent => by
    rw [Stmt.renamed, Rewording.statement, optional_renamed old depth value? absent, Stmt.renamed]
    rfl
  | .classDecl _ superclass? methods, absent => by
    obtain ⟨before, within⟩ := absent.append
    rw [Stmt.renamed, Rewording.statement, optional_renamed old depth superclass? before.cons.2,
      functions_renamed _ methods within, Stmt.renamed]
    rfl

theorem statements_renamed (depth : Nat) : (ss : List Stmt) → k.Absent (Stmt.namesAll ss) →
    k.rewording.statements (Stmt.renamedAll old k.mark depth ss) =
      Stmt.renamedAll old k.name depth ss
  | [], _ => rfl
  | s :: rest, absent => by
    obtain ⟨first, others⟩ := absent.append
    rw [Stmt.renamedAll, Rewording.statements, statement_renamed depth s first,
      statements_renamed depth rest others, Stmt.renamedAll]

theorem function_renamed (depth : Nat) : (declaration : FunctionDecl) →
    k.Absent declaration.names → k.rewording.function (declaration.renamed old k.mark depth) =
      declaration.renamed old k.name depth
  | .mk name params body, absent => by
    obtain ⟨before, inside⟩ := absent.append
    rw [FunctionDecl.renamed, Rewording.function, named_params before.cons.2,
      statements_renamed _ body inside, FunctionDecl.renamed]
    rfl

theorem functions_renamed (depth : Nat) : (declarations : List FunctionDecl) →
    k.Absent (FunctionDecl.namesAll declarations) →
    k.rewording.functions (FunctionDecl.renamedAll old k.mark depth declarations) =
      FunctionDecl.renamedAll old k.name depth declarations
  | [], _ => rfl
  | declaration :: rest, absent => by
    obtain ⟨first, others⟩ := absent.append
    rw [FunctionDecl.renamedAll, Rewording.functions, function_renamed depth declaration first,
      functions_renamed depth rest others, FunctionDecl.renamedAll]

end

theorem expression_fixed {e : Expr} (absent : k.Absent e.names) : k.rewording.expression e = e := by
  have marked := expression_renamed k.mark 0 e absent
  rwa [e.renamed_fixed 0 (absent.leaves _), e.renamed_fixed 0 (absent.leaves _)] at marked

theorem optional_fixed {e? : Option Expr} (absent : k.Absent (e?.elim [] Expr.names)) :
    e?.map k.rewording.expression = e? := by
  cases e? with
  | none => rfl
  | some e => exact congrArg some (expression_fixed absent)

theorem statement_fixed {s : Stmt} (absent : k.Absent s.names) : k.rewording.statement s = s := by
  have marked := statement_renamed k.mark 0 s absent
  rwa [s.renamed_fixed 0 (absent.leaves _), s.renamed_fixed 0 (absent.leaves _)] at marked

theorem statements_fixed {ss : List Stmt} (absent : k.Absent (Stmt.namesAll ss)) :
    k.rewording.statements ss = ss := by
  have marked := statements_renamed k.mark 0 ss absent
  rwa [Stmt.renamedAll_fixed 0 ss (absent.leaves _),
    Stmt.renamedAll_fixed 0 ss (absent.leaves _)] at marked

theorem function_fixed {declaration : FunctionDecl} (absent : k.Absent declaration.names) :
    k.rewording.function declaration = declaration := by
  have marked := function_renamed k.mark 0 declaration absent
  rwa [declaration.renamed_fixed 0 (absent.leaves _),
    declaration.renamed_fixed 0 (absent.leaves _)] at marked

theorem functions_fixed {declarations : List FunctionDecl}
    (absent : k.Absent (FunctionDecl.namesAll declarations)) :
    k.rewording.functions declarations = declarations := by
  have marked := functions_renamed k.mark 0 declarations absent
  rwa [FunctionDecl.renamedAll_fixed 0 declarations (absent.leaves _),
    FunctionDecl.renamedAll_fixed 0 declarations (absent.leaves _)] at marked

end reworded

end Marking

variable {k : Marking} {old : String}

mutual

theorem Stmt.Renames.reworded : (s : Stmt) → {rename : String → Stmt} →
    s.Renames old rename → k.Absent s.names →
    k.rewording.statement (rename k.mark) = rename k.name
  | .expression _, _, renames, _ | .print _, _, renames, _ | .varDecl _ _, _, renames, _
  | .returns _ _, _, renames, _ => nomatch renames
  | .block body, _, .block _, absent =>
    congrArg Stmt.block (Marking.statements_renamed old 0 body absent)
  | .block body, _, .inside one, absent =>
    congrArg Stmt.block (Stmt.RenamesOne.reworded body one absent)
  | .branch condition thenBranch none, _, .thenBranch one, absent => by
    obtain ⟨tested, first⟩ := absent.append
    rw [Rewording.statement, Marking.expression_fixed tested,
      Stmt.Renames.reworded thenBranch one first]
  | .branch condition thenBranch (some elseBranch), _, .thenBranch one, absent => by
    obtain ⟨before, second⟩ := absent.append
    obtain ⟨tested, first⟩ := before.append
    rw [Rewording.statement, Marking.expression_fixed tested,
      Stmt.Renames.reworded thenBranch one first, Marking.statement_fixed second]
  | .branch condition thenBranch (some elseBranch), _, .elseBranch one, absent => by
    obtain ⟨before, second⟩ := absent.append
    obtain ⟨tested, first⟩ := before.append
    rw [Rewording.statement, Marking.expression_fixed tested,
      Stmt.Renames.reworded elseBranch one second, Marking.statement_fixed first]
  | .loop condition body, _, .loop one, absent => by
    obtain ⟨tested, repeated⟩ := absent.append
    rw [Rewording.statement, Marking.expression_fixed tested,
      Stmt.Renames.reworded body one repeated]
  | .functionDecl declaration, _, .function one, absent =>
    congrArg Stmt.functionDecl (FunctionDecl.Renames.reworded declaration one absent)
  | .classDecl name superclass? methods, _, .method one, absent => by
    obtain ⟨before, within⟩ := absent.append
    rw [Rewording.statement, Marking.optional_fixed before.cons.2,
      FunctionDecl.RenamesOne.reworded methods one within]
    rfl

theorem Stmt.RenamesOne.reworded : (ss : List Stmt) → {rename : String → List Stmt} →
    Stmt.RenamesOne old ss rename → k.Absent (Stmt.namesAll ss) →
    k.rewording.statements (rename k.mark) = rename k.name
  | s :: rest, _, .head one, absent => by
    obtain ⟨first, others⟩ := absent.append
    rw [Rewording.statements, Stmt.Renames.reworded s one first, Marking.statements_fixed others]
  | s :: rest, _, .tail one, absent => by
    obtain ⟨first, others⟩ := absent.append
    rw [Rewording.statements, Stmt.RenamesOne.reworded rest one others,
      Marking.statement_fixed first]

theorem FunctionDecl.Renames.reworded : (declaration : FunctionDecl) →
    {rename : String → FunctionDecl} → declaration.Renames old rename →
    k.Absent declaration.names → k.rewording.function (rename k.mark) = rename k.name
  | .mk name params body, _, .own _, absent => by
    obtain ⟨before, inside⟩ := absent.append
    have named : (params.map (Token.renamed old k.mark)).map k.rewording.named =
        params.map (Token.renamed old k.name) := by
      rw [List.map_map]
      exact List.map_congr_left fun param member =>
        Marking.named_renamed old (before.cons.2 _ (List.mem_map_of_mem member))
    rw [Rewording.function, named, Marking.statements_renamed old 0 body inside]
    rfl
  | .mk name params body, _, .inside one, absent => by
    obtain ⟨before, inside⟩ := absent.append
    rw [Rewording.function, Marking.named_params before.cons.2,
      Stmt.RenamesOne.reworded body one inside]
    rfl

theorem FunctionDecl.RenamesOne.reworded : (declarations : List FunctionDecl) →
    {rename : String → List FunctionDecl} → FunctionDecl.RenamesOne old declarations rename →
    k.Absent (FunctionDecl.namesAll declarations) →
    k.rewording.functions (rename k.mark) = rename k.name
  | declaration :: rest, _, .head one, absent => by
    obtain ⟨first, others⟩ := absent.append
    rw [Rewording.functions, FunctionDecl.Renames.reworded declaration one first,
      Marking.functions_fixed others]
  | declaration :: rest, _, .tail one, absent => by
    obtain ⟨first, others⟩ := absent.append
    rw [Rewording.functions, FunctionDecl.RenamesOne.reworded rest one others,
      Marking.function_fixed first]

end

end Lox
