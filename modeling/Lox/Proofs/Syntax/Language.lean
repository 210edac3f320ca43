import Mathlib.Data.List.TakeDrop
import Lox.Proofs.Syntax.Soundness
import Lox.Proofs.Syntax.Completeness
import Lox.Proofs.Syntax.Unresolved

namespace Lox

namespace Grammar

variable {nearest : Prop}

theorem Statement.of_eq {dangling : Bool} {ts us : List Token} {s : Stmt}
    (whole : Statement nearest dangling ts s) (same : ts = us) : Statement nearest dangling us s :=
  same ▸ whole

/-- An `else` after a statement that is left dangling belongs to the nearest choice. -/
theorem Statement.attach {open' dangling : Bool} {ts vs : List Token} {s elseBranch : Stmt}
    {word : Token} (otherwise : word.kind = .elseWord)
    (second : Statement True dangling vs elseBranch) : Statement True open' ts s → open' = true →
      ∃ after whole, Statement True after (ts ++ word :: vs) whole
  | .expression _ _, closed | .print _ _ _, closed | .returns _ _ _, closed
  | .block _ _ _, closed => nomatch closed
  | .loop kind opens tested closes repeated, left => by
    obtain ⟨after, whole, attached⟩ := Statement.attach otherwise second repeated left
    exact ⟨_, _, (Statement.loop kind opens tested closes attached).of_eq (by simp)⟩
  | .forLoop kind opens initial tested ends counted closes repeated, left => by
    obtain ⟨after, whole, attached⟩ := Statement.attach otherwise second repeated left
    exact ⟨_, _, (Statement.forLoop kind opens initial tested ends counted closes attached).of_eq
      (by simp)⟩
  | @Statement.branch _ inner _ _ _ _ _ _ _ kind opens tested closes first, _ => by
    have deeper := Statement.attach otherwise second first
    cases inner with
    | false =>
      exact ⟨_, _, (Statement.choice kind opens tested closes first (fun _ => rfl) otherwise
        second).of_eq (by simp)⟩
    | true =>
      obtain ⟨after, whole, attached⟩ := deeper rfl
      exact ⟨_, _, (Statement.branch kind opens tested closes attached).of_eq (by simp)⟩
  | .choice kind opens tested closes first whole otherwise' last, left => by
    obtain ⟨after, _, attached⟩ := Statement.attach otherwise second last left
    exact ⟨_, _, (Statement.choice kind opens tested closes first whole otherwise' attached).of_eq
      (by simp)⟩

mutual

/-- Tokens that make up a declaration do so with every `else` belonging to the nearest choice. -/
theorem Declaration.attached {ts : List Token} {s : Stmt} : Declaration nearest ts s →
    ∃ s, Declaration True ts s
  | .class kind named opens inside closes => by
    obtain ⟨methods, inside⟩ := inside.attached
    exact ⟨_, .class kind named opens inside closes⟩
  | .subclass kind named extends' above opens inside closes => by
    obtain ⟨methods, inside⟩ := inside.attached
    exact ⟨_, .subclass kind named extends' above opens inside closes⟩
  | .function kind declared => by
    obtain ⟨declaration, declared⟩ := declared.attached
    exact ⟨_, .function kind declared⟩
  | .variable declared => ⟨_, .variable declared⟩
  | .statement whole => by
    obtain ⟨dangling, s, whole⟩ := whole.attached
    exact ⟨s, .statement whole⟩

theorem Declarations.attached {ts : List Token} {ss : List Stmt} : Declarations nearest ts ss →
    ∃ ss, Declarations True ts ss
  | .nil => ⟨[], .nil⟩
  | .cons first others => by
    obtain ⟨s, first⟩ := first.attached
    obtain ⟨ss, others⟩ := others.attached
    exact ⟨s :: ss, .cons first others⟩

theorem Methods.attached {ts : List Token} {methods : List FunctionDecl} :
    Methods nearest ts methods → ∃ methods, Methods True ts methods
  | .nil => ⟨[], .nil⟩
  | .cons first others => by
    obtain ⟨method, first⟩ := first.attached
    obtain ⟨methods, others⟩ := others.attached
    exact ⟨method :: methods, .cons first others⟩

theorem Function.attached {ts : List Token} {declaration : FunctionDecl} :
    Function nearest ts declaration → ∃ declaration, Function True ts declaration
  | .mk named opens given few closes starts inside finishes => by
    obtain ⟨body, inside⟩ := inside.attached
    exact ⟨_, .mk named opens given few closes starts inside finishes⟩

theorem Statement.attached {dangling : Bool} {ts : List Token} {s : Stmt} :
    Statement nearest dangling ts s → ∃ dangling s, Statement True dangling ts s
  | .expression given ends => ⟨_, _, .expression given ends⟩
  | .print kind given ends => ⟨_, _, .print kind given ends⟩
  | .returns kind given ends => ⟨_, _, .returns kind given ends⟩
  | .loop kind opens tested closes repeated => by
    obtain ⟨dangling, body, repeated⟩ := repeated.attached
    exact ⟨_, _, .loop kind opens tested closes repeated⟩
  | .block opens inside closes => by
    obtain ⟨body, inside⟩ := inside.attached
    exact ⟨_, _, .block opens inside closes⟩
  | .forLoop kind opens initial tested ends counted closes repeated => by
    obtain ⟨dangling, body, repeated⟩ := repeated.attached
    exact ⟨_, _, .forLoop kind opens initial tested ends counted closes repeated⟩
  | .branch kind opens tested closes first => by
    obtain ⟨dangling, thenBranch, first⟩ := first.attached
    exact ⟨_, _, .branch kind opens tested closes first⟩
  | .choice kind opens tested closes first _ otherwise second => by
    obtain ⟨inner, thenBranch, first⟩ := first.attached
    obtain ⟨dangling, elseBranch, second⟩ := second.attached
    cases inner with
    | false => exact ⟨_, _, .choice kind opens tested closes first (fun _ => rfl) otherwise second⟩
    | true =>
      obtain ⟨after, whole, attached⟩ := Statement.attach otherwise second first rfl
      exact ⟨_, _, .branch kind opens tested closes attached⟩

end

def Program (nearest : Prop) (ts : List Token) (program : List Stmt) : Prop :=
  Declarations nearest ts program

end Grammar

namespace Parse

open Grammar

theorem declarations_given (eof : Token) {ts : List Token} {program : List Stmt}
    (given : Declarations True ts program) : declarations eof ts = (program, []) := by
  cases given with
  | nil => rw [declarations]
  | @cons ts us s ss first others =>
    have after : NoElse us := by
      have none : NoElse [] := by simp [NoElse]
      have := others.noElse none
      rwa [List.append_nil] at this
    have later := declarations_given eof others
    obtain ⟨token, ts', rfl, -⟩ := first.starts
    have gives : (declaration eof (token :: (ts' ++ us))).Gives s us := first.given eof us after
    obtain ⟨lt, read⟩ := gives
    rw [List.cons_append, declarations, read, Parsed.recover]
    simp only [later, Option.toList, List.singleton_append, List.nil_append]

theorem untilEnd_last {before : List Token} {eof : Token} (ends : eof.kind = .eof)
    (only : ∀ token ∈ before, token.kind ≠ .eof) :
    untilEnd (before ++ [eof]) = .ok (before, eof) := by
  have here : ∀ token ∈ before, decide (token.kind ≠ .eof) = true := fun token member =>
    decide_eq_true (only token member)
  unfold untilEnd
  rw [List.getLast?_concat]
  simp only [if_pos ends, List.span_eq_takeWhile_dropWhile]
  rw [List.takeWhile_append_of_pos here, List.dropWhile_append_of_pos here]
  simp [ends]

end Parse

variable {before : List Token} {eof : Token}

theorem program_of_parse (ends : eof.kind = .eof) (only : ∀ token ∈ before, token.kind ≠ .eof)
    (nearest : Prop) {program : List Stmt} (parsed : parse (before ++ [eof]) = .ok program) :
    Grammar.Program nearest before program := by
  obtain ⟨_, _, cut, derived⟩ := Parse.derived_of_parse nearest parsed
  rw [Parse.untilEnd_last ends only] at cut
  cases cut
  exact derived

theorem expression_of_parse (ends : eof.kind = .eof) (only : ∀ token ∈ before, token.kind ≠ .eof)
    {e : Expr} (parsed : parseExpression (before ++ [eof]) = .ok e) :
    Grammar.Expression before e := by
  obtain ⟨_, _, cut, derived⟩ := Parse.derived_of_parseExpression parsed
  rw [Parse.untilEnd_last ends only] at cut
  cases cut
  exact derived

theorem parse_of_program (ends : eof.kind = .eof) (only : ∀ token ∈ before, token.kind ≠ .eof)
    {program : List Stmt} (derived : Grammar.Program True before program) :
    parse (before ++ [eof]) = .ok program := by
  unfold parse
  rw [Parse.untilEnd_last ends only]
  simp only [Parse.declarations_given eof derived]

/-- The parser accepts the tokens before the end exactly if they make up a program, wherever its
    alternatives belong. It then yields the tree in which each of them belongs to the nearest
    choice, the only such tree, made of tokens of the source, with no name resolved. -/
theorem parse_exact (ends : eof.kind = .eof) (only : ∀ token ∈ before, token.kind ≠ .eof) :
    ((∃ program, parse (before ++ [eof]) = .ok program) ↔
      ∃ program, Grammar.Program False before program) ∧
    ∀ program, (parse (before ++ [eof]) = .ok program ↔ Grammar.Program True before program) ∧
      (parse (before ++ [eof]) = .ok program → ∀ s ∈ program, s.Unresolved (· ∈ before)) := by
  refine ⟨⟨?_, ?_⟩, fun program => ⟨⟨?_, ?_⟩, ?_⟩⟩
  · rintro ⟨program, parsed⟩
    exact ⟨program, program_of_parse ends only False parsed⟩
  · rintro ⟨program, derived⟩
    obtain ⟨program, attached⟩ := Grammar.Declarations.attached derived
    exact ⟨program, parse_of_program ends only attached⟩
  · exact program_of_parse ends only True
  · exact parse_of_program ends only
  · intro parsed
    have derived := program_of_parse ends only True parsed
    exact Grammar.Declarations.unresolved derived fun token member => member

/-- Operators of one level group from the left, and tighter ones first; the alternative of a choice
    inside a choice belongs to the inner one. -/
theorem parse_nested_choice :
    let word (kind : TokenKind) : Token := ⟨kind, "", none, 1⟩
    let zero := word .nilWord
    let nothing : Expr := .literal .nil
    let difference := [zero, word .minus, zero, word .star, zero, word .minus, zero]
    let either := [zero, word .orWord, zero, word .andWord, zero]
    let choice (condition : List Token) :=
      [word .ifWord, word .leftParen] ++ condition ++ [word .rightParen]
    let empty := [word .leftBrace, word .rightBrace]
    parse (choice difference ++ choice either ++ empty ++ [word .elseWord] ++ empty ++ [word .eof]) =
      .ok [.branch
        (.binary (.binary nothing (word .minus) (.binary nothing (word .star) nothing))
          (word .minus) nothing)
        (.branch (.logical nothing (word .orWord) (.logical nothing (word .andWord) nothing))
          (.block []) (some (.block [])))
        none] := by
  intro word zero nothing difference either choice empty
  have spelled (kind : TokenKind) : (word kind).kind = kind := rfl
  have applied (level : Parse.Level) (kind : TokenKind)
      (listed : kind ∈ (Grammar.operation level).operators) :
      (word kind).kind ∈ (Grammar.operation level).operators := listed
  have atom : Grammar.Unary [zero] nothing := .call (.primary (.nil rfl))
  have factor : Grammar.Chain .factor [zero] nothing := .one (.unary rfl atom)
  have term : Grammar.Operand .term [zero] nothing := .chain rfl factor
  have product := Grammar.Chain.more factor (applied .factor .star (by decide)) (.unary rfl atom)
  have first := Grammar.Chain.more (.one term) (applied .term .minus (by decide)) (.chain rfl product)
  have second := Grammar.Chain.more first (applied .term .minus (by decide)) term
  have numeric : Grammar.Expression difference _ :=
    .plain (.one (.chain rfl (.one (.chain rfl (.one (.chain rfl (.one (.chain rfl second))))))))
  have equality : Grammar.Chain .equality [zero] nothing :=
    .one (.chain rfl (.one (.chain rfl (.one term))))
  have both := Grammar.Chain.more (.one (.chain rfl equality)) (applied .and .andWord (by decide))
    (.chain rfl equality)
  have logical : Grammar.Expression either _ :=
    .plain (.more (.one (.chain rfl (.one (.chain rfl equality)))) (applied .or .orWord (by decide))
      (.chain rfl both))
  have body : Grammar.Statement True false empty (.block []) := .block rfl .nil rfl
  have inner := Grammar.Statement.choice (spelled .ifWord) (spelled .leftParen) logical
    (spelled .rightParen) body (fun _ => rfl) (spelled .elseWord) body
  have outer := Grammar.Statement.branch (spelled .ifWord) (spelled .leftParen) numeric
    (spelled .rightParen) inner
  have program := Grammar.Declarations.cons (.statement outer) .nil
  exact ((parse_exact rfl (by decide)).2 _).1.mpr program

end Lox
