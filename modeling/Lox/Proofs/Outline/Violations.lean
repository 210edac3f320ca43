import Lox.Program
import Lox.Proofs.Outline.Paths

namespace Lox

namespace Outline

variable {layers : List Layer} {entries : List OutlineEntry}

theorem Violation.unique {entry : OutlineEntry} {error other : BindingError}
    (one : Violation layers entry error) (two : Violation layers entry other) : error = other :=
  Option.some.inj (one.found.symm.trans two.found)

theorem Violates.unique {path : List Nat} {error other : BindingError}
    (one : Violates entries path error) (two : Violates entries path other) : error = other := by
  obtain ⟨entry, here, first⟩ := one
  obtain ⟨entry', here', second⟩ := two
  cases here.symm.trans here'
  exact first.unique second

end Outline

theorem compileTree_eq_ok {program : List Stmt} :
    (∃ tree, compileTree program = .ok tree) ↔ (resolve program).2 = [] := by
  unfold compileTree
  cases resolve program with
  | mk tree errors => cases errors <;> simp

open Outline

/-- The resolver accepts a parsed program exactly if nothing in its outline breaks a rule. Otherwise
    it reports one error for each entry that breaks one, in the order of the walk, which is the
    order of the paths. -/
theorem resolve_reports {tokens : List Token} {program : List Stmt}
    (parsed : parse tokens = .ok program) :
    ((∃ tree, compileTree program = .ok tree) ↔
      ∀ path error, ¬ Violates (outline program) path error) ∧
    (∀ path error other, Violates (outline program) path error →
      Violates (outline program) path other → error = other) ∧
    ∃ paths : List (List Nat), paths.Pairwise (· < ·) ∧
      (∀ path, path ∈ paths ↔ ∃ error, Violates (outline program) path error) ∧
      List.Forall₂ (Violates (outline program)) paths (resolve program).2 := by
  have reported := (program_outlined parsed).reported
  refine ⟨?_, fun path error other => Violates.unique, ?_⟩
  · rw [compileTree_eq_ok, reported, List.eq_nil_iff_forall_not_mem]
    simp only [mem_reports_iff, not_exists]
    exact forall_comm
  · refine ⟨(faultsFrom [] 0 (outline program)).map Prod.fst, ?_, fun path => ?_, ?_⟩
    · exact List.pairwise_map.mpr (sorted_faultsFrom [] 0 (outline program))
    · rw [List.mem_map]
      constructor
      · rintro ⟨⟨path, error⟩, member, rfl⟩
        exact ⟨error, mem_faults_iff.mp member⟩
      · rintro ⟨error, violates⟩
        exact ⟨(path, error), mem_faults_iff.mpr violates, rfl⟩
    · rw [reported, ← map_snd_faultsFrom [] 0, List.forall₂_map_left_iff,
        List.forall₂_map_right_iff, List.forall₂_same]
      exact fun fault member => mem_faults_iff.mp member

namespace SelfInheritance

def name : Token := ⟨.identifier, "A", none, 1⟩

def initializer : Token := ⟨.identifier, "init", none, 1⟩

def keyword : Token := ⟨.returnWord, "return", none, 1⟩

def tokens : List Token :=
  let word (kind : TokenKind) : Token := ⟨kind, "", none, 1⟩
  [word .classWord, name, word .less, name, word .leftBrace,
    initializer, word .leftParen, word .rightParen, word .leftBrace,
    word .funWord, name, word .leftParen, word .rightParen, word .leftBrace,
    keyword, word .nilWord, word .semicolon, word .rightBrace, word .rightBrace, word .rightBrace,
    word .eof]

def program : List Stmt :=
  [.classDecl name (some (.variable name none))
    [.mk initializer [] [.functionDecl (.mk name [] [.returns keyword (some (.literal .nil))])]]]

/-- The program is not accepted, for its superclass alone. -/
theorem reported_once : parse tokens = .ok program ∧
    ¬ (∃ tree, compileTree program = .ok tree) ∧
    (resolve program).2 = [⟨.inheritsFromItself, name⟩] := by
  have parsed : parse tokens = .ok program := by cbv
  obtain ⟨accepted, -, -⟩ := resolve_reports parsed
  have violates : Violates (outline program) [1] ⟨.inheritsFromItself, name⟩ :=
    ⟨_, rfl, .inheritsFromItself rfl⟩
  exact ⟨parsed, fun tree => accepted.mp tree _ _ violates, rfl⟩

end SelfInheritance
end Lox
