import Lox.Proofs.Joined.Scanning
import Lox.Proofs.Rewording.Lines
import Lox.Proofs.Scoping.Walk
import Lox.Proofs.Source.Written
import Lox.Proofs.Syntax.Language

namespace Lox

open Rewording (onLines later)

structure Accepted where
  source : List UInt8
  program : List Stmt
  compiled : compile source = .ok program

namespace Accepted

def joined (pieces : List Accepted) : List UInt8 :=
  List.intercalate [Scan.newline] (pieces.map source)

/-- The programs one after the other, each on lines that depend on how many line feeds there are
    before its source. -/
def programs (place : Nat → Nat → Nat) (before : Nat) : List Accepted → List Stmt
  | [] => []
  | piece :: rest =>
    (onLines (place before)).statements piece.program ++
      programs place (before + piece.source.count Scan.newline + 1) rest

theorem joined_cons (piece next : Accepted) (rest : List Accepted) :
    joined (piece :: next :: rest) = piece.source ++ Scan.newline :: joined (next :: rest) := by
  simp [joined, List.intercalate]

theorem programs_after (place : Nat → Nat → Nat) (line : Nat → Nat) (before : Nat)
    (pieces : List Accepted) : (onLines line).statements (programs place before pieces) =
      programs (fun before => line ∘ place before) before pieces := by
  induction pieces generalizing before with
  | nil => rfl
  | cons piece rest ih =>
    rw [programs, programs, ← ih, ← Rewording.statements_after, Rewording.statements_eq,
      List.map_append, ← Rewording.statements_eq, ← Rewording.statements_eq]

end Accepted

theorem Grammar.Declarations.append {nearest : Prop} {ts us : List Token} {first second : List Stmt}
    (one : Declarations nearest ts first) (two : Declarations nearest us second) :
    Declarations nearest (ts ++ us) (first ++ second) := by
  cases one with
  | nil => exact two
  | cons declared others =>
    rw [List.append_assoc, List.cons_append]
    exact .cons declared (others.append two)

namespace Resolve

variable (context : Context)

theorem statements_append (scopes : List Names) (first second : List Stmt) :
    statements context scopes (first ++ second) =
      ⟨(statements context scopes first).tree ++
          (statements context (statements context scopes first).scopes second).tree,
        (statements context (statements context scopes first).scopes second).scopes,
        (statements context scopes first).errors ++
          (statements context (statements context scopes first).scopes second).errors⟩ := by
  induction first generalizing scopes with
  | nil => rfl
  | cons s rest ih => simp only [List.cons_append, statements, ih, List.append_assoc]

theorem statements_topLevel (ss : List Stmt) : (statements context [] ss).scopes = [] := by
  induction ss with
  | nil => rfl
  | cons s rest ih =>
    have outside := List.eq_nil_of_length_eq_zero (length_statement context [] s)
    rw [statements, outside]
    exact ih

end Resolve

namespace Accepted

/-- What a source is accepted for: it has no errors, its tokens make up a program, and the names of
    that are resolved. -/
theorem reads (piece : Accepted) : ∃ tokens tree, Scan.Reads 1 piece.source tokens ∧
    Grammar.Program True tokens tree ∧
    Resolve.statements .topLevel [] tree = ⟨piece.program, [], []⟩ := by
  obtain ⟨tree, accepted, resolved⟩ := compile_eq_ok.mp piece.compiled
  obtain ⟨parsed, clean⟩ := parseProgram_eq_ok.mp accepted
  obtain ⟨tokens, last, reads, scanned⟩ := exists_reads clean
  rw [scanned] at parsed
  refine ⟨tokens, tree, reads, program_of_parse rfl reads.inside True parsed, ?_⟩
  have outside := Resolve.statements_topLevel .topLevel tree
  obtain ⟨same, none⟩ := Prod.mk.inj resolved
  cases walked : Resolve.statements .topLevel [] tree with
  | mk program scopes errors =>
    rw [walked] at same none outside
    dsimp only at same none outside
    rw [same, none, outside]

theorem joined_reads (pieces : List Accepted) (before : Nat) : ∃ tokens tree last,
    (∀ token ∈ tokens, token.kind ≠ .eof) ∧
    Scan.scanFrom (1 + before) [] (joined pieces) =
      tokens.map .ok ++ [.ok ⟨.eof, "", none, last⟩] ∧
    Grammar.Program True tokens tree ∧
    Resolve.statements .topLevel [] tree =
      ⟨programs (fun before line => line + before) before pieces, [], []⟩ := by
  -- `before` counts the line feeds before the pieces that are left.
  induction pieces generalizing before with
  | nil => exact ⟨[], [], _, nofun, (Scan.Reads.nil 1).alone before, .nil, rfl⟩
  | cons piece rest ih =>
    obtain ⟨tokens, tree, reads, derived, resolved⟩ := piece.reads
    have inside : ∀ token ∈ tokens.map (later before).token, token.kind ≠ .eof := by
      intro token member
      obtain ⟨other, here, rfl⟩ := List.mem_map.mp member
      exact reads.inside other here
    have resolved' := Resolve.statements_onLines (· + before) .topLevel [] tree
    rw [resolved] at resolved'
    cases rest with
    | nil =>
      have single : joined [piece] = piece.source := by simp [joined]
      refine ⟨_, _, _, inside, single ▸ reads.alone before, derived.onLines _, ?_⟩
      rw [programs, programs, List.append_nil]
      exact resolved'
    | cons next rest =>
      obtain ⟨tokens', tree', last, inside', scanned, derived', resolved''⟩ :=
        ih (before + piece.source.count Scan.newline + 1)
      refine ⟨_ ++ tokens', _ ++ tree', last, List.forall_mem_append.mpr ⟨inside, inside'⟩, ?_,
        (derived.onLines (· + before)).append derived', ?_⟩
      · rw [joined_cons, reads.followed, List.map_append, List.append_assoc, ← scanned]
        congr 2
        omega
      · rw [Resolve.statements_append, resolved']
        dsimp only
        rw [resolved'', programs]
        rfl

theorem compile_joined (pieces : List Accepted) : compile (joined pieces) =
    .ok (programs (fun before line => line + before) 0 pieces) := by
  obtain ⟨tokens, tree, last, inside, scanned, derived, resolved⟩ := joined_reads pieces 0
  have read := scanTokens_eq scanned
  refine compile_eq_ok.mpr ⟨tree, parseProgram_eq_ok.mpr ?_, ?_⟩
  · rw [read]
    exact ⟨parse_of_program rfl inside derived, rfl⟩
  · rw [resolve, resolved]

end Accepted

end Lox
