import Mathlib
import Lox.Proofs.Outline.Again
import Lox.Proofs.Outline.Paths

namespace Lox

namespace Outline

def UseAt (entries : List OutlineEntry) (path : List Nat) (use : Use) : Prop :=
  ∃ owner?, entryAt? entries path = some (.use owner? use)

def Rejected (entries : List OutlineEntry) (path : List Nat) (use : Use) : Prop :=
  (use.kind = .this ∨ use.kind = .super) ∧ ∃ error, Violates entries path error

variable {layers : List Layer}

theorem misplaced_iff (owner? : Option Token) {use : Use} :
    Misplaced layers use ↔ (use.kind = .this ∨ use.kind = .super) ∧
      ∃ error, Violation layers (.use owner? use) error := by
  obtain ⟨kind, token, slot⟩ := use
  constructor
  · rintro (⟨rfl, outside⟩ | ⟨rfl, outside⟩)
    · exact ⟨.inl rfl, _, .thisOutsideClass outside⟩
    · refine ⟨.inr rfl, ?_⟩
      cases around : class? layers with
      | none => exact ⟨_, .superOutsideClass around⟩
      | some hasSuperclass =>
        cases hasSuperclass with
        | false => exact ⟨_, .superWithoutSuperclass around⟩
        | true => exact absurd around outside
  · rintro ⟨keyword, error, violation⟩
    cases violation with
    | readInOwnInitializer => simp at keyword
    | thisOutsideClass outside => exact .inl ⟨rfl, outside⟩
    | superOutsideClass outside => exact .inr ⟨rfl, by simp [outside]⟩
    | superWithoutSuperclass inside => exact .inr ⟨rfl, by simp [inside]⟩

theorem distance?_eq_some {name : String} {d : Nat} :
    distance? layers name = some d ↔ Found layers name d := by
  unfold distance?
  rw [List.findIdx?_eq_some_iff_getElem]
  constructor
  · rintro ⟨inside, here, before⟩
    refine ⟨⟨layers[d], List.getElem?_eq_getElem inside, of_decide_eq_true here⟩, ?_⟩
    intro layer member
    obtain ⟨i, less, rfl⟩ := List.mem_take_iff_getElem.mp member
    have absent := before i (by omega)
    simpa using absent
  · rintro ⟨⟨layer, here, declared⟩, innermost⟩
    obtain ⟨inside, rfl⟩ := List.getElem?_eq_some_iff.mp here
    refine ⟨inside, decide_eq_true declared, fun i less => ?_⟩
    have absent := innermost layers[i] (List.mem_take_iff_getElem.mpr ⟨i, by omega, rfl⟩)
    simpa using absent

variable {tokens : List Token} {program : List Stmt}

theorem entryAt?_resolved (parsed : parse tokens = .ok program) (path : List Nat) :
    entryAt? (outline (resolve program).1) path =
      (entryAt? (outline program) path).map (fill (Outline.layers (outline program) path)) := by
  rw [(program_outlined parsed).filled, entryAt?_fillAll, reach_globals]

theorem use_of_fill {entry : OutlineEntry} {owner? : Option Token} {use : Use}
    (filled : fill layers entry = .use owner? use) :
    ∃ slot, entry = .use owner? { use with slot := slot } ∧ use.slot =
      if Misplaced layers use then none else distance? layers use.token.lexeme := by
  cases entry with
  | use =>
    cases filled
    exact ⟨_, rfl, rfl⟩
  | declares | returns | inherits | scope => cases filled

theorem rejected_iff {path : List Nat} {owner? : Option Token} {use : Use} {slot : Distance}
    (here : entryAt? (outline program) path = some (.use owner? { use with slot := slot })) :
    Rejected (outline program) path use ↔
      Misplaced (Outline.layers (outline program) path) use := by
  have same : Misplaced (Outline.layers (outline program) path) use ↔
      Misplaced (Outline.layers (outline program) path) { use with slot := slot } := Iff.rfl
  rw [same, misplaced_iff owner?]
  refine and_congr_right fun _ => exists_congr fun error => ?_
  unfold Violates
  rw [here]
  simp

end Outline

open Outline

/-- In a parsed program that has been resolved, a `this` or `super` that was reported has an empty
    slot. Any other slot tells how many scopes lie inside the innermost one that has declared the
    name before the walk gets there, and is empty if none has. Nothing changes when the program is
    resolved again. -/
theorem resolve_slots {tokens : List Token} {program : List Stmt}
    (parsed : parse tokens = .ok program) :
    (∀ path use, UseAt (outline program) path use →
      ∃ slot, UseAt (outline (resolve program).1) path { use with slot := slot }) ∧
    (∀ path use, UseAt (outline (resolve program).1) path use →
      (∃ slot, UseAt (outline program) path { use with slot := slot }) ∧
      (Rejected (outline program) path use → use.slot = none) ∧
      (¬ Rejected (outline program) path use → ∀ d,
        use.slot = some d ↔ Found (layers (outline program) path) use.token.lexeme d)) ∧
    (∀ path error, Violates (outline program) path error → error ∈ (resolve program).2) ∧
    resolve (resolve program).1 = resolve program := by
  refine ⟨?_, ?_, ?_, resolve_again program⟩
  · rintro path use ⟨owner?, here⟩
    have there := entryAt?_resolved parsed path
    rw [here] at there
    exact ⟨_, owner?, there⟩
  · rintro path use ⟨owner?, there⟩
    rw [entryAt?_resolved parsed] at there
    obtain ⟨entry, here, filled⟩ := Option.map_eq_some_iff.mp there
    obtain ⟨slot, rfl, given⟩ := use_of_fill filled
    rw [rejected_iff here, given]
    refine ⟨⟨slot, owner?, here⟩, fun misplaced => if_pos misplaced, fun placed d => ?_⟩
    rw [if_neg placed, distance?_eq_some]
  · intro path error violates
    rw [(program_outlined parsed).reported]
    exact mem_reports_iff.mpr ⟨path, violates⟩

namespace NestedScopes

def name : Token := ⟨.identifier, "a", none, 1⟩

def keyword : Token := ⟨.thisWord, "this", none, 1⟩

def tokens : List Token :=
  let word (kind : TokenKind) : Token := ⟨kind, "", none, 1⟩
  [word .leftBrace, word .varWord, name, word .semicolon, word .leftBrace, name, word .equal,
    keyword, word .semicolon, word .rightBrace, word .rightBrace, word .eof]

def program : List Stmt :=
  [.block [.varDecl name none, .block [.expression (.assign name (.this keyword none) none)]]]

/-- The `this` is reported and keeps an empty slot; the variable is one scope out. -/
theorem slots_filled : parse tokens = .ok program ∧
    UseAt (outline (resolve program).1) [0, 1, 0] ⟨.this, keyword, none⟩ ∧
    UseAt (outline (resolve program).1) [0, 1, 1] ⟨.write, name, some 1⟩ := by
  have parsed : parse tokens = .ok program := by cbv
  obtain ⟨kept, filled, -⟩ := resolve_slots parsed
  refine ⟨parsed, ?_, ?_⟩
  · obtain ⟨slot, there⟩ := kept [0, 1, 0] ⟨.this, keyword, none⟩ ⟨none, rfl⟩
    have rejected : Rejected (outline program) [0, 1, 0] ⟨.this, keyword, slot⟩ :=
      ⟨.inl rfl, _, _, rfl, .thisOutsideClass rfl⟩
    cases (filled _ _ there).2.1 rejected
    exact there
  · obtain ⟨slot, there⟩ := kept [0, 1, 1] ⟨.write, name, none⟩ ⟨none, rfl⟩
    have plain : ¬ Rejected (outline program) [0, 1, 1] ⟨.write, name, slot⟩ := by
      simp [Rejected]
    have found : Found (layers (outline program) [0, 1, 1]) name.lexeme 1 :=
      ⟨⟨_, rfl, List.mem_singleton.mpr rfl⟩, fun layer member => by
        cases List.mem_singleton.mp member
        exact List.not_mem_nil⟩
    cases ((filled _ _ there).2.2 plain 1).mpr found
    exact there

end NestedScopes
end Lox
