import Lox.Proofs.Syntax.Tracking

namespace Lox

open Phrase (row oneOf token tokens rule many optional)

def Always (_ : Language TokenKind) : Prop := True

/-- No operator may come next that prolongs phrases that are less loose than `n`. -/
def Apart (n : Nat) : Language TokenKind → Prop := Heads (n ≤ ·.looseness)

def Otherwise (K : Language TokenKind) : Prop :=
  ∀ w, .elseWord :: w ∈ K → w ∈ (rule .statement).language * K

def Elseless : Language TokenKind → Prop := Heads (· ≠ .elseWord)

theorem Elseless.otherwise (K : Language TokenKind) (elseless : Elseless K) : Otherwise K :=
  fun w member => absurd rfl (elseless .elseWord w member)

theorem Apart.mono {m n : Nat} {K : Language TokenKind} (apart : Apart n K) (le : m ≤ n) :
    Apart m K :=
  fun kind w member => Nat.le_trans le (apart kind w member)

theorem Apart.not_mem {n : Nat} {K : Language TokenKind} {kind : TokenKind} (apart : Apart n K)
    (lt : kind.looseness < n) (w : List TokenKind) : kind :: w ∉ K :=
  fun member => Nat.not_le_of_lt lt (apart kind w member)

def Parse.Level.operand (level : Parse.Level) : Rule :=
  match level.tighter? with
  | some next => .level next
  | none => .unary

namespace Phrase

def assigned : Phrase := optional (row [token .equal, rule .expression])

theorem language_assigned :
    (seq (rule (.level .or)) assigned).language = (rule .expression).language := by
  have right : (rule .expression).language = (rule .assignment).language := language_rule _
  have whole : (rule .assignment).language = (either (row [rule (.level .or), token .equal,
    rule .assignment]) (rule (.level .or))).language := language_rule _
  rw [right, whole]
  simp only [assigned, optional, row, language_seq, language_either, language_empty, right, mul_add,
    mul_one]

def operated (level : Parse.Level) : Phrase :=
  many (row [tokens level.operators, rule level.operand])

/-- The parser's tables say what the rules say. -/
theorem language_level (level : Parse.Level) :
    (rule (.level level)).language = (seq (rule level.operand) (operated level)).language := by
  have same : (Rule.level level).body = seq (rule level.operand) (operated level) := by
    cases level <;> rfl
  rw [language_rule, same]

@[simp] theorem starts_operated (level : Parse.Level) :
    (operated level).starts = level.operators := List.append_nil _

def suffixes : List Phrase :=
  [row [token .leftParen, optional (rule .arguments), token .rightParen],
    row [token .dot, token .identifier]]

@[simp] theorem starts_suffixes : (oneOf suffixes).starts = [.leftParen, .dot] := rfl

def literals : List TokenKind :=
  [.number, .string, .trueWord, .falseWord, .nilWord, .thisWord, .identifier]

def initializers : List Phrase :=
  [rule .variableDeclaration, rule .expressionStatement, token .semicolon]

def inherited : Phrase := optional (row [token .less, token .identifier])

def alternative : Phrase := optional (row [token .elseWord, rule .statement])

def listTail (item : Phrase) : Phrase :=
  seq (many (row [token .comma, item])) (token .rightParen)

def closed (item : Phrase) : Phrase := seq (many item) (token .rightBrace)

end Phrase

open Phrase (assigned operated suffixes literals initializers inherited alternative listTail closed)

variable {allowed : Language TokenKind → Prop} {kind : TokenKind} {p : Phrase}

/-- Of the alternatives of a rule it must be the one that starts with the kind. -/
theorem Narrows.choice {name : Rule} {ps : List Phrase} {first : TokenKind} (here : kind = first)
    (body : name.body = Phrase.oneOf ps)
    (chosen : p ∈ ps ∧ ∀ q ∈ ps, q = p ∨ first ∉ q.starts ∧ q.nullable = false) :
    Narrows allowed kind p (.rule name) := by
  subst here
  have same : (Phrase.oneOf ps).language = (Phrase.rule name).language := by
    rw [Phrase.language_rule, body]
  exact .trans (.oneOf chosen.1 chosen.2) (.of_eq same)

/-- What is not left out must be there. -/
theorem Narrows.some (other : ∀ K, allowed K → ∀ w, kind :: w ∉ K) :
    Narrows allowed kind p (optional p) :=
  .left fun K may w member => other K may w (Phrase.mem_empty_mul.mp member)

/-- One more item of a list, after a comma. -/
theorem Narrows.item {item : Phrase} :
    Narrows allowed .comma (.seq (token .comma) (.seq item (listTail item))) (listTail item) := by
  have same : (Phrase.seq (token .comma) (.seq item (listTail item))).language =
      (Phrase.seq (.seq (row [token .comma, item]) (many (row [token .comma, item])))
        (token .rightParen)).language := by
    simp only [listTail, row, Phrase.language_seq, mul_assoc]
  refine .trans (.of_eq same) (.seq (.more fun K avoids => avoids) ?_)
  exact fun K _ => Phrase.not_mem_token_mul (by decide) K

/-- A list that is not left out, with the parenthesis after it. -/
theorem Narrows.list {name : Rule} {item : Phrase}
    (body : name.body = row [item, many (row [token .comma, item])]) (other : kind ≠ .rightParen) :
    Narrows allowed kind (.seq item (listTail item))
      (.seq (optional (Phrase.rule name)) (token .rightParen)) := by
  have same : (Phrase.seq item (listTail item)).language =
      (Phrase.seq (Phrase.rule name) (token .rightParen)).language := by
    simp only [listTail, row, Phrase.language_seq, Phrase.language_rule, body, mul_assoc]
  refine .trans (.of_eq same) (.seq (.some fun K avoids => avoids) ?_)
  exact fun K _ => Phrase.not_mem_token_mul other K

/-- One more call or property. -/
theorem Narrows.suffix {first : TokenKind} (here : kind = first) (tight : first.looseness < 1)
    (chosen : Phrase.seq (token first) p ∈ suffixes ∧ ∀ q ∈ suffixes,
      q = .seq (token first) p ∨ first ∉ q.starts ∧ q.nullable = false) :
    Narrows (Apart 1) kind (.seq (token first) (.seq p (many (Phrase.oneOf suffixes))))
      (many (Phrase.oneOf suffixes)) := by
  subst here
  have one : Narrows Always kind (.seq (token kind) p) (Phrase.oneOf suffixes) :=
    .oneOf chosen.1 chosen.2
  refine .trans (.of_eq Phrase.language_seq_assoc.symm)
    (.trans (one.seq fun _ _ => trivial) (.more fun K apart => ?_))
  exact Apart.not_mem apart tight

/-- An expression that a loop starts with. -/
theorem Narrows.initializer (other : kind ∉ [TokenKind.semicolon, .varWord]) :
    Narrows allowed kind (row [Phrase.rule .expression, token .semicolon])
      (Phrase.oneOf initializers) := by
  simp only [List.mem_cons, List.not_mem_nil, or_false, not_or] at other
  refine .trans (.rule .expressionStatement) (.oneOf (by decide) ?_)
  simp [initializers, Phrase.starts, Phrase.nullable, Rule.starts, other]

/-- A statement that starts with no word of another one. -/
theorem Narrows.expressionStatement (other : kind ∉ [TokenKind.forWord, .ifWord, .printWord,
    .returnWord, .whileWord, .leftBrace]) : Narrows allowed kind
      (row [Phrase.rule .expression, token .semicolon]) (Phrase.rule .statement) := by
  simp only [List.mem_cons, List.not_mem_nil, or_false, not_or] at other
  refine .trans (.rule .expressionStatement) (.choice rfl rfl ⟨by decide, ?_⟩)
  simp [Phrase.starts, Phrase.nullable, Rule.starts, other]

/-- A declaration that starts with no word of another one. -/
theorem Narrows.statement (other : kind ∉ [TokenKind.classWord, .funWord, .varWord]) :
    Narrows allowed kind (Phrase.rule .statement) (Phrase.rule .declaration) := by
  simp only [List.mem_cons, List.not_mem_nil, or_false, not_or] at other
  refine .choice rfl rfl ⟨by decide, ?_⟩
  simp [Phrase.starts, Phrase.nullable, Rule.starts, other]

theorem mem_alternative_mul {K : Language TokenKind} {w : List TokenKind} :
    w ∈ alternative.language * K ↔
      w ∈ (Phrase.seq (token .elseWord) (rule .statement)).language * K ∨ w ∈ K := by
  rw [alternative, Phrase.language_either, add_mul, Language.mem_add, Phrase.mem_empty_mul]
  rfl

/-- An `else` after a choice without one may be its own. -/
theorem Otherwise.choice {K : Language TokenKind} (otherwise : Otherwise K) :
    Otherwise (alternative.language * K) := by
  intro w member
  have inside : w ∈ (rule .statement).language * K := by
    rcases mem_alternative_mul.mp member with own | later
    · exact Phrase.mem_of_cons_mem own
    · exact otherwise w later
  obtain ⟨v, derives, u, later, whole⟩ := Language.mem_mul.mp inside
  exact Language.mem_mul.mpr ⟨v, derives, u, mem_alternative_mul.mpr (.inr later), whole⟩

/-- An `else` belongs to the choice before it. -/
theorem Narrows.alternative : Narrows Otherwise .elseWord
    (.seq (token .elseWord) (Phrase.rule .statement)) Phrase.alternative := by
  refine ⟨fun w member => .first member, fun K otherwise w member => ?_⟩
  rcases mem_alternative_mul.mp member with own | later
  · exact own
  · rw [Phrase.language_seq, mul_assoc]
    have word : [.elseWord] ∈ (token .elseWord).language := .token List.mem_cons_self
    exact Language.mem_mul.mpr ⟨_, word, w, otherwise w later, rfl⟩

/-- One more phrase in braces. -/
theorem Narrows.inside {item : Phrase} (other : kind ≠ .rightBrace) :
    Narrows allowed kind (.seq item (closed item)) (closed item) := by
  have same : (Phrase.seq item (closed item)).language =
      (Phrase.seq (.seq item (many item)) (token .rightBrace)).language :=
    Phrase.language_seq_assoc.symm
  refine .trans (.of_eq same) (.seq (.more fun K avoids => avoids) ?_)
  exact fun K _ => Phrase.not_mem_token_mul other K

namespace Parse

variable {eof : Token}

theorem arityErrors_fine (eof : Token) (count : Nat) (cause : SyntaxError.Cause) (s : List Token)
    (fine : cause.isStructural = false) :
    ∀ e ∈ arityErrors eof count cause s, e.isStructural = false := by
  unfold arityErrors
  split
  · exact List.forall_mem_singleton.mpr fine
  · exact List.forall_mem_nil _

theorem assignTo_fine (target : Expr) (equals : Token) (value : Expr) :
    ∀ e ∈ (assignTo target equals value).2, e.isStructural = false := by
  unfold assignTo
  split
  · exact List.forall_mem_nil _
  · exact List.forall_mem_nil _
  · exact List.forall_mem_singleton.mpr rfl

theorem constant?_ne_none {token : Token}
    (literal : token.kind ∈ [.falseWord, .trueWord, .nilWord, .number, .string])
    (valued : token.kind = .number ∨ token.kind = .string → token.literal?.isSome = true) :
    constant? token ≠ none := by
  simp only [List.mem_cons, List.not_mem_nil, or_false] at literal
  unfold constant?
  rcases literal with kind | kind | kind | kind | kind <;> rw [kind] at valued ⊢
  · simp
  · simp
  · simp
  all_goals
    obtain ⟨value, found⟩ := Option.isSome_iff_exists.mp (valued (by decide))
    rw [found]
    cases value <;> simp

theorem expect_tracks (ends : eof.kind = .eof) (kind : TokenKind) (cause : SyntaxError.Cause)
    (s : List Token) (other : kind ≠ .eof) (fault : cause.isStructural = true) :
    (expect eof kind cause s).Tracks eof Always (token kind) s := by
  unfold expect
  split
  · refine .fails fault rfl ?_ rfl rfl
    exact fun member => other (ends ▸ (List.mem_singleton.mp member).symm)
  · rename_i token rest
    split
    · rename_i here
      exact .token (List.mem_singleton.mpr here)
    · rename_i away
      exact .fails fault rfl (fun member => away (List.mem_singleton.mp member)) rfl rfl

/-- What comes after a list: one more item, or the parenthesis. -/
theorem listEnd_tracks (ends : eof.kind = .eof) {cause : SyntaxError.Cause}
    (fault : cause.isStructural = true) (item : Phrase) (s : List Token)
    (away : (s.headD eof).kind ≠ .comma) :
    (expect eof .rightParen cause s).Tracks eof Always (listTail item) s :=
  (expect_tracks ends .rightParen cause s (by decide) fault).narrow
    (.skip (fun member => away (List.mem_singleton.mp member)) .none)

theorem narrows_call {kind : TokenKind} (unsigned : ¬ (kind = .bang ∨ kind = .minus)) :
    Narrows allowed kind (rule .call) (rule .unary) := by
  have signs : kind ∉ (row [tokens [.bang, .minus], rule .unary]).starts :=
    fun member => unsigned (by simpa [row, Phrase.starts, Phrase.nullable] using member)
  refine .choice rfl rfl ⟨by decide, ?_⟩
  exact List.forall_mem_cons.mpr ⟨.inr ⟨signs, rfl⟩, List.forall_mem_singleton.mpr (.inl rfl)⟩

theorem apart_operated (level : Level) (K : Language TokenKind) (apart : Apart (level.rank + 2) K) :
    Apart (level.rank + 1) ((operated level).language * K) := by
  refine Phrase.heads_mul (fun kind member => ?_) fun _ => Apart.mono apart (Nat.le_succ _)
  rw [Phrase.starts_operated] at member
  exact Nat.le_of_eq (Level.looseness_of_mem member).symm

mutual

theorem expression_tracks (ends : eof.kind = .eof) (s : List Token) :
    (expression eof s).Tracks eof (Apart 8) (rule .expression) s := by
  rw [expression]
  have whole := (chain_tracks ends .or s).extend (q := assigned) (by decide)
    (fun K apart => Phrase.heads_mul (by decide) fun _ => Apart.mono apart (by decide))
    fun target rest _ => assignment_tracks ends target rest
  exact whole.same Phrase.language_assigned
termination_by 32 * s.length + 15
decreasing_by all_goals (try simp only [Level.rank]); omega

theorem assignment_tracks (ends : eof.kind = .eof) (target : Expr) (s : List Token) :
    (assignment eof target s).Tracks eof (Apart 8) assigned s := by
  rw [assignment.eq_def]
  split
  · exact .nothing (by rw [List.headD_nil, ends]; decide) (.second .empty)
  · rename_i equals rest
    split
    · rename_i here
      have value := (expression_tracks ends rest).mapNoting (assignTo_fine target equals)
      have whole := value.after (List.mem_singleton.mpr here) (by decide)
      refine (whole.narrow (.some fun K apart => ?_)).within
      exact Apart.not_mem apart (by rw [List.headD_cons, here]; decide)
    · rename_i away
      exact .nothing (fun member => away (List.mem_singleton.mp member)) (.second .empty)
termination_by 32 * s.length + 16

/-- An operator of the level would be taken as well, so what comes after starts with none. -/
theorem chain_tracks (ends : eof.kind = .eof) (level : Level) (s : List Token) :
    (chain eof level s).Tracks eof (Apart (level.rank + 2)) (rule (.level level)) s := by
  rw [chain]
  have whole := (operand_tracks ends level s).extend (q := operated level) rfl
    (apart_operated level) fun left rest _ => chainTail_tracks ends level left rest
  exact whole.same (Phrase.language_level level).symm
termination_by 32 * s.length + 4 + 2 * level.rank

theorem chainTail_tracks (ends : eof.kind = .eof) (level : Level) (left : Expr) (s : List Token) :
    (chainTail eof level left s).Tracks eof (Apart (level.rank + 2)) (operated level) s := by
  rw [chainTail.eq_def]
  split
  · exact .nothing (by rw [List.headD_nil, ends]; cases level <;> decide) .none
  · rename_i operator rest
    split
    · rename_i applied
      have := level.rank_le
      have loose := Level.looseness_of_mem applied
      have longer := (operand_tracks ends level rest).extend (q := operated level) rfl
        (apart_operated level) fun right rest _ =>
          chainTail_tracks ends level (level.join left operator right) rest
      -- The operator belongs to this chain: what comes after is too loose to start with it.
      have whole := longer.after applied (by cases level <;> decide)
      refine ((whole.same Phrase.language_seq_assoc.symm).narrow (.more fun K apart => ?_)).within
      exact Apart.not_mem apart (by rw [List.headD_cons]; omega)
    · rename_i away
      exact .nothing (by rwa [Phrase.starts_operated]) .none
termination_by 32 * s.length + 16
decreasing_by all_goals (subst_vars; simp only [List.length_cons]; omega)

theorem operand_tracks (ends : eof.kind = .eof) (level : Level) (s : List Token) :
    (operand eof level s).Tracks eof (Apart (level.rank + 1)) (rule level.operand) s := by
  rw [operand.eq_def]
  split
  · rename_i next tighter
    have rank := Level.rank_of_tighter? tighter
    have same : level.operand = .level next := by rw [Level.operand, tighter]
    rw [same]
    exact (chain_tracks ends next s).mono fun K apart => Apart.mono apart (by omega)
  · rename_i tightest
    have same : level.operand = .unary := by rw [Level.operand, tightest]
    rw [same]
    exact (unary_tracks ends s).mono fun K apart => Apart.mono apart (by omega)
termination_by 32 * s.length + 3 + 2 * level.rank

theorem unary_tracks (ends : eof.kind = .eof) (s : List Token) :
    (unary eof s).Tracks eof (Apart 1) (rule .unary) s := by
  rw [unary.eq_def]
  split
  · exact (call_tracks ends []).narrow (narrows_call (by rw [List.headD_nil, ends]; decide))
  · rename_i operator rest
    split
    · rename_i sign
      have member : operator.kind ∈ [TokenKind.bang, .minus] := by simpa using sign
      refine ((unary_tracks ends rest).map.after member (by decide)).narrow ?_
      rcases sign with here | here
      · exact .choice here rfl (by decide)
      · exact .choice here rfl (by decide)
    · rename_i unsigned
      exact (call_tracks ends (operator :: rest)).narrow (narrows_call unsigned)
termination_by 32 * s.length + 2

theorem call_tracks (ends : eof.kind = .eof) (s : List Token) :
    (call eof s).Tracks eof (Apart 1) (rule .call) s := by
  rw [call]
  have whole := (primary_tracks ends s).extend (q := many (oneOf suffixes)) rfl (fun _ _ => trivial)
    fun callee rest _ => callTail_tracks ends callee rest
  exact whole.same (Phrase.language_rule .call).symm
termination_by 32 * s.length + 1

theorem callTail_tracks (ends : eof.kind = .eof) (left : Expr) (s : List Token) :
    (callTail eof left s).Tracks eof (Apart 1) (many (oneOf suffixes)) s := by
  rw [callTail.eq_def]
  split
  · exact .nothing (by rw [List.headD_nil, ends]; decide) .none
  · rename_i token rest
    split
    · rename_i here
      refine ((((arguments_tracks ends rest).extend (q := many (oneOf suffixes)) rfl
        (fun _ _ => trivial) fun _ rest _ => callTail_tracks ends _ rest).after
        (List.mem_singleton.mpr here) (by decide)).narrow ?_).within
      exact .suffix here (by decide) (by decide)
    · split
      · rename_i here
        refine ((((expect_tracks ends .identifier .propertyName rest (by decide) rfl).extend
          (q := many (oneOf suffixes)) rfl (fun _ _ => trivial)
          fun _ rest _ => callTail_tracks ends _ rest).after (List.mem_singleton.mpr here)
          (by decide)).narrow ?_).within
        exact .suffix here (by decide) (by decide)
      · rename_i away away'
        exact .nothing (by simp [Phrase.starts, away, away']) .none
termination_by 32 * s.length + 16
decreasing_by all_goals (subst_vars; simp only [List.length_cons]; omega)

theorem arguments_tracks (ends : eof.kind = .eof) (s : List Token) :
    (arguments eof s).Tracks eof Always
      (.seq (optional (rule .arguments)) (token .rightParen)) s := by
  rw [arguments.eq_def]
  split
  · exact (argumentList_tracks ends 0 []).narrow
      (.list rfl (by rw [List.headD_nil, ends]; decide))
  · rename_i paren rest
    split
    · rename_i here
      exact .closes here (by decide) (.second .empty)
    · rename_i away
      exact (argumentList_tracks ends 0 (paren :: rest)).narrow (.list rfl away)
termination_by 32 * s.length + 17

theorem argumentList_tracks (ends : eof.kind = .eof) (count : Nat) (s : List Token) :
    (argumentList eof count s).Tracks eof Always
      (.seq (rule .expression) (listTail (rule .expression))) s := by
  rw [argumentList]
  have first := (expression_tracks ends s).noting
    (arityErrors_fine eof count .tooManyArguments s rfl)
  refine first.bind (by decide) (Phrase.heads (by decide) rfl) fun argument rest lt => ?_
  split
  · exact (listEnd_tracks ends rfl _ [] (by rw [List.headD_nil, ends]; decide)).map
  · rename_i comma more _
    split
    · rename_i here
      refine ((argumentList_tracks ends (count + 1) more).map.after (List.mem_singleton.mpr here)
        (by decide)).narrow ?_
      rw [List.headD_cons, here]
      exact .item
    · rename_i away
      exact (listEnd_tracks ends rfl _ (comma :: more) away).map
termination_by 32 * s.length + 16
decreasing_by
  · omega
  · subst_vars
    simp only [List.length_cons] at lt
    omega

theorem primary_tracks (ends : eof.kind = .eof) (s : List Token) :
    (primary eof s).Tracks eof Always (rule .primary) s := by
  rw [primary.eq_def]
  split
  · exact .fails rfl rfl (by rw [List.headD_nil, ends]; decide) rfl (by decide)
  · rename_i token rest
    split
    iterate 5
      rename_i here
      split
      · exact .narrow (p := tokens literals) (.token (by rw [here]; decide))
          (.choice here rfl (by decide))
      · rename_i none
        intro valued
        exact absurd none (constant?_ne_none (by rw [here]; decide)
          (valued token List.mem_cons_self))
    · rename_i here
      refine .narrow (p := row [Phrase.token .superWord, Phrase.token .dot,
        Phrase.token .identifier]) ?_ (.choice here rfl (by decide))
      refine .after ?_ (List.mem_singleton.mpr here) (by decide)
      exact (expect_tracks ends .dot .superDot rest (by decide) rfl).bind (by decide)
        (fun _ _ => trivial) fun _ rest _ =>
          (expect_tracks ends .identifier .superMethodName rest (by decide) rfl).map
    iterate 2
      rename_i here
      exact .narrow (p := tokens literals) (.token (by rw [here]; decide))
        (.choice here rfl (by decide))
    · rename_i here
      refine .narrow (p := row [Phrase.token .leftParen, rule .expression,
        Phrase.token .rightParen]) ?_ (.choice here rfl (by decide))
      refine .after ?_ (List.mem_singleton.mpr here) (by decide)
      exact (expression_tracks ends rest).bind (by decide) (Phrase.heads (by decide) rfl)
        fun inner rest _ => (expect_tracks ends .rightParen .groupEnd rest (by decide) rfl).map
    · refine .fails rfl rfl ?_ rfl (by decide)
      simp_all [Phrase.starts, Rule.starts, Rule.primaryStarts]
termination_by 32 * s.length

end

theorem expressionEnding_tracks (ends : eof.kind = .eof) (cause : SyntaxError.Cause)
    (s : List Token) (fault : cause.isStructural = true) :
    (expressionEnding eof cause s).Tracks eof Always
      (row [rule .expression, token .semicolon]) s := by
  unfold expressionEnding
  exact (expression_tracks ends s).bind (by decide) (Phrase.heads (by decide) rfl)
    fun value rest _ => (expect_tracks ends .semicolon cause rest (by decide) fault).map

theorem optionalExpression_tracks (ends : eof.kind = .eof) (kind : TokenKind)
    (cause : SyntaxError.Cause) (s : List Token) (closes : kind = .semicolon ∨ kind = .rightParen)
    (fault : cause.isStructural = true) : (optionalExpression eof kind cause s).Tracks eof Always
      (.seq (optional (rule .expression)) (token kind)) s := by
  have closer : kind ≠ .eof ∧ 8 ≤ kind.looseness ∧ kind ∉ (optional (rule .expression)).starts := by
    rcases closes with rfl | rfl <;> decide
  obtain ⟨other, loose, apart⟩ := closer
  have apart' : ∀ K, Always K → Apart 8 ((token kind).language * K) :=
    Phrase.heads (List.forall_mem_singleton.mpr loose) rfl
  unfold optionalExpression
  split
  · refine .narrow (p := .seq (rule .expression) (token kind)) ?_
      (.seq (.some fun K avoids => avoids) fun K _ => ?_)
    · exact (expression_tracks ends []).map.bare rfl rfl apart'
    · rw [List.headD_nil, ends]
      exact Phrase.not_mem_token_mul other.symm K
  · rename_i token rest
    split
    · rename_i here
      exact .closes here apart (.second .empty)
    · rename_i away
      refine .narrow (p := .seq (rule .expression) (Phrase.token kind)) ?_
        (.seq (.some fun K avoids => avoids) fun K _ => ?_)
      · exact (expression_tracks ends (token :: rest)).bind rfl apart'
          fun value rest _ => (expect_tracks ends kind cause rest other fault).map
      · exact Phrase.not_mem_token_mul away K

theorem varDeclaration_tracks (ends : eof.kind = .eof) (s : List Token) :
    (varDeclaration eof s).Tracks eof Always
      (row [token .identifier, assigned, token .semicolon]) s := by
  have bare (name : Token) (rest : List Token) (away : (rest.headD eof).kind ≠ .equal) :
      ((expect eof .semicolon .variableEnd rest).map fun _ => Stmt.varDecl name none).Tracks eof
        Always (row [assigned, token .semicolon]) rest :=
    (expect_tracks ends .semicolon .variableEnd rest (by decide) rfl).map.narrow
      (.skip (fun member => away (List.mem_singleton.mp member)) (.second .empty))
  unfold varDeclaration
  refine (expect_tracks ends .identifier .variableName s (by decide) rfl).bind (by decide)
    (fun _ _ => trivial) fun name rest _ => ?_
  split
  · exact bare name [] (by rw [List.headD_nil, ends]; decide)
  · rename_i equals value _
    split
    · rename_i here
      have whole := (expressionEnding_tracks ends .variableEnd value rfl).map (f := fun value =>
        Stmt.varDecl name (some value))
      refine ((whole.after (List.mem_singleton.mpr here) (by decide)).same
        Phrase.language_seq_assoc.symm).narrow (.seq (.some fun K avoids => avoids) fun K _ => ?_)
      rw [List.headD_cons, here]
      exact Phrase.not_mem_token_mul (by decide) K
    · rename_i away
      exact bare name (equals :: value) away

theorem parameterList_tracks (ends : eof.kind = .eof) (count : Nat) (s : List Token) :
    (parameterList eof count s).Tracks eof Always
      (.seq (token .identifier) (listTail (token .identifier))) s := by
  rw [parameterList]
  have first := (expect_tracks ends .identifier .parameterName s (by decide) rfl).noting
    (arityErrors_fine eof count .tooManyParameters s rfl)
  refine first.bind (by decide) (fun _ _ => trivial) fun param rest lt => ?_
  split
  · exact (listEnd_tracks ends rfl _ [] (by rw [List.headD_nil, ends]; decide)).map
  · rename_i comma more _
    split
    · rename_i here
      refine ((parameterList_tracks ends (count + 1) more).map.after (List.mem_singleton.mpr here)
        (by decide)).narrow ?_
      rw [List.headD_cons, here]
      exact .item
    · rename_i away
      exact (listEnd_tracks ends rfl _ (comma :: more) away).map
termination_by s.length
decreasing_by
  subst_vars
  simp only [List.length_cons] at lt
  omega

theorem parameters_tracks (ends : eof.kind = .eof) (s : List Token) :
    (parameters eof s).Tracks eof Always
      (.seq (optional (rule .parameters)) (token .rightParen)) s := by
  unfold parameters
  split
  · exact (parameterList_tracks ends 0 []).narrow
      (.list rfl (by rw [List.headD_nil, ends]; decide))
  · rename_i paren rest
    split
    · rename_i here
      exact .closes here (by decide) (.second .empty)
    · rename_i away
      exact (parameterList_tracks ends 0 (paren :: rest)).narrow (.list rfl away)

theorem forInitializer_tracks (ends : eof.kind = .eof) (s : List Token) :
    (forInitializer eof s).Tracks eof Always (oneOf initializers) s := by
  unfold forInitializer
  split
  · refine (expressionEnding_tracks ends .expressionStatementEnd [] rfl).map.narrow
      (.initializer ?_)
    rw [List.headD_nil, ends]
    decide
  · rename_i token rest
    split
    · rename_i here
      refine .narrow (p := Phrase.token .semicolon) (.token (List.mem_singleton.mpr here)) ?_
      rw [List.headD_cons, here]
      exact .oneOf (by decide) (by decide)
    · rename_i away
      split
      · rename_i here
        refine ((varDeclaration_tracks ends rest).map.after (List.mem_singleton.mpr here)
          (by decide)).narrow (.trans (.rule .variableDeclaration) ?_)
        rw [List.headD_cons, here]
        exact .oneOf (by decide) (by decide)
      · rename_i away'
        exact (expressionEnding_tracks ends .expressionStatementEnd (token :: rest) rfl).map.narrow
          (.initializer (by simp [away, away']))

theorem parenthesized_tracks (ends : eof.kind = .eof) (start finish : SyntaxError.Cause)
    (s : List Token) (fault : start.isStructural = true) (fault' : finish.isStructural = true) :
    (parenthesized eof start finish s).Tracks eof Always
      (row [token .leftParen, rule .expression, token .rightParen]) s := by
  unfold parenthesized
  refine (expect_tracks ends .leftParen start s (by decide) fault).bind (by decide)
    (fun _ _ => trivial) fun _ rest _ => ?_
  exact (expression_tracks ends rest).bind (by decide) (Phrase.heads (by decide) rfl)
    fun condition rest _ => (expect_tracks ends .rightParen finish rest (by decide) fault').map

mutual

theorem declaration_tracks (ends : eof.kind = .eof) (s : List Token) :
    (declaration eof s).Tracks eof Elseless (rule .declaration) s := by
  rw [declaration.eq_def]
  split
  · refine ((statement_tracks ends []).mono Elseless.otherwise).narrow (.statement ?_)
    rw [List.headD_nil, ends]
    decide
  · rename_i token rest
    split
    · rename_i here
      exact (((classDeclaration_tracks ends rest).after (List.mem_singleton.mpr here)
        (by decide)).mono fun _ _ => trivial).narrow
        (.trans (.rule .classDeclaration) (.choice here rfl (by decide)))
    · rename_i here
      exact (((function_tracks ends .function rest).map.after (List.mem_singleton.mpr here)
        (by decide)).mono fun _ _ => trivial).narrow
        (.trans (.rule .functionDeclaration) (.choice here rfl (by decide)))
    · rename_i here
      exact (((varDeclaration_tracks ends rest).after (List.mem_singleton.mpr here)
        (by decide)).mono fun _ _ => trivial).narrow
        (.trans (.rule .variableDeclaration) (.choice here rfl (by decide)))
    · rename_i notClass notFun notVar
      refine ((statement_tracks ends (token :: rest)).mono Elseless.otherwise).narrow
        (.statement ?_)
      simp only [List.mem_cons, List.not_mem_nil, or_false, not_or]
      exact ⟨notClass, notFun, notVar⟩
termination_by 16 * s.length + 1

theorem classDeclaration_tracks (ends : eof.kind = .eof) (s : List Token) :
    (classDeclaration eof s).Tracks eof Always
      (row [token .identifier, inherited, token .leftBrace, closed (rule .function)]) s := by
  rw [classDeclaration]
  refine (expect_tracks ends .identifier .className s (by decide) rfl).bind (by decide)
    (fun _ _ => trivial) fun name rest lt => ?_
  split
  · refine (classBody_tracks ends []).map.narrow (.skip ?_ (.second .empty))
    rw [List.headD_nil, ends]
    decide
  · rename_i less more _
    split
    · rename_i here
      refine .narrow (p := .seq (row [token .less, token .identifier]) (row [token .leftBrace,
        closed (rule .function)])) ?_ (.seq (.some fun K avoids => avoids) fun K _ => ?_)
      · refine .same (p := row [token .less, token .identifier, token .leftBrace,
          closed (rule .function)]) ?_ Phrase.language_seq_assoc.symm
        refine .after ?_ (List.mem_singleton.mpr here) (by decide)
        refine (expect_tracks ends .identifier .superclassName more (by decide) rfl).bind
          (by decide) (fun _ _ => trivial) fun superclass rest _ => ?_
        exact (classBody_tracks ends rest).map
      · rw [List.headD_cons, here]
        exact Phrase.not_mem_mul (by decide) rfl K
    · rename_i away
      exact (classBody_tracks ends (less :: more)).map.narrow
        (.skip (fun member => away (List.mem_singleton.mp member)) (.second .empty))
termination_by 16 * s.length + 1
decreasing_by all_goals subst_vars; simp only [List.length_cons, List.length_nil] at *; omega

theorem classBody_tracks (ends : eof.kind = .eof) (s : List Token) :
    (classBody eof s).Tracks eof Always (row [token .leftBrace, closed (rule .function)]) s := by
  rw [classBody]
  exact (expect_tracks ends .leftBrace .classBodyStart s (by decide) rfl).bind (by decide)
    (fun _ _ => trivial) fun _ rest _ => methods_tracks ends rest
termination_by 16 * s.length

theorem methods_tracks (ends : eof.kind = .eof) (s : List Token) :
    (methods eof s).Tracks eof Always (closed (rule .function)) s := by
  rw [methods.eq_def]
  split
  · exact .fails rfl rfl (by rw [List.headD_nil, ends]; decide) rfl (by decide)
  · rename_i token rest
    split
    · rename_i here
      exact .closes here (by decide) .none
    · rename_i away
      refine .narrow (p := .seq (rule .function) (closed (rule .function))) ?_ (.inside away)
      exact (function_tracks ends .method (token :: rest)).bind (by decide) (fun _ _ => trivial)
        fun method rest lt => (methods_tracks ends rest).map
termination_by 16 * s.length + 1
decreasing_by all_goals subst_vars; simp only [List.length_cons] at *; omega

theorem function_tracks (ends : eof.kind = .eof) (kind : CallableKind) (s : List Token) :
    (function eof kind s).Tracks eof Always (rule .function) s := by
  rw [function]
  refine .same (p := row [token .identifier, token .leftParen,
    .seq (optional (rule .parameters)) (token .rightParen), token .leftBrace,
    closed (rule .declaration)]) ?_ ?_
  · refine (expect_tracks ends .identifier (.callableName kind) s (by decide) rfl).bind (by decide)
      (fun _ _ => trivial) fun name rest _ => ?_
    refine (expect_tracks ends .leftParen (.parametersStart kind) rest (by decide) rfl).bind
      (by decide) (fun _ _ => trivial) fun _ rest _ => ?_
    refine (parameters_tracks ends rest).bind (by decide) (fun _ _ => trivial)
      fun params rest _ => ?_
    refine (expect_tracks ends .leftBrace (.callableBodyStart kind) rest (by decide) rfl).bind
      (by decide) (fun _ _ => trivial) fun _ rest _ => ?_
    exact (block_tracks ends rest).map
  · simp only [Phrase.language_rule, Rule.body, row, closed, Phrase.language_seq, mul_assoc]
termination_by 16 * s.length

theorem statement_tracks (ends : eof.kind = .eof) (s : List Token) :
    (statement eof s).Tracks eof Otherwise (rule .statement) s := by
  rw [statement.eq_def]
  split
  · refine ((expressionEnding_tracks ends .expressionStatementEnd [] rfl).map.mono
      fun _ _ => trivial).narrow (.expressionStatement ?_)
    rw [List.headD_nil, ends]
    decide
  · rename_i token rest
    split
    · rename_i here
      exact ((forStatement_tracks ends rest).after (List.mem_singleton.mpr here)
        (by decide)).narrow (.trans (.rule .forStatement) (.choice here rfl (by decide)))
    · rename_i here
      exact ((ifStatement_tracks ends rest).after (List.mem_singleton.mpr here)
        (by decide)).narrow (.trans (.rule .ifStatement) (.choice here rfl (by decide)))
    · rename_i here
      exact (((expressionEnding_tracks ends .printEnd rest rfl).map.after
        (List.mem_singleton.mpr here) (by decide)).mono fun _ _ => trivial).narrow
        (.trans (.rule .printStatement) (.choice here rfl (by decide)))
    · rename_i here
      exact (((optionalExpression_tracks ends .semicolon .returnEnd rest (.inl rfl) rfl).map.after
        (List.mem_singleton.mpr here) (by decide)).mono fun _ _ => trivial).narrow
        (.trans (.rule .returnStatement) (.choice here rfl (by decide)))
    · rename_i here
      refine .narrow (p := row [Phrase.token .whileWord, row [Phrase.token .leftParen,
        rule .expression, Phrase.token .rightParen], rule .statement]) ?_
        (.trans (.of_eq ?_) (.trans (.rule .whileStatement) (.choice here rfl (by decide))))
      · refine .after ?_ (List.mem_singleton.mpr here) (by decide)
        refine (parenthesized_tracks ends .whileStart .whileConditionEnd rest rfl rfl).bind
          (by decide) (fun _ _ => trivial) fun condition rest _ => ?_
        exact (statement_tracks ends rest).map
      · simp only [Rule.body, row, Phrase.language_seq, mul_assoc]
    · rename_i here
      exact (((block_tracks ends rest).map.after (List.mem_singleton.mpr here)
        (by decide)).mono fun _ _ => trivial).narrow
        (.trans (.rule .block) (.choice here rfl (by decide)))
    · rename_i notFor notIf notPrint notReturn notWhile notBlock
      refine ((expressionEnding_tracks ends .expressionStatementEnd (token :: rest) rfl).map.mono
        fun _ _ => trivial).narrow (.expressionStatement ?_)
      simp only [List.mem_cons, List.not_mem_nil, or_false, not_or]
      exact ⟨notFor, notIf, notPrint, notReturn, notWhile, notBlock⟩
termination_by 16 * s.length
decreasing_by all_goals subst_vars; simp only [List.length_cons]; omega

theorem forStatement_tracks (ends : eof.kind = .eof) (s : List Token) :
    (forStatement eof s).Tracks eof Otherwise (row [token .leftParen, oneOf initializers,
      optional (rule .expression), token .semicolon, optional (rule .expression),
      token .rightParen, rule .statement]) s := by
  rw [forStatement]
  refine .same (p := row [token .leftParen, oneOf initializers,
    .seq (optional (rule .expression)) (token .semicolon),
    .seq (optional (rule .expression)) (token .rightParen), rule .statement]) ?_ ?_
  · refine (expect_tracks ends .leftParen .forStart s (by decide) rfl).bind (by decide)
      (fun _ _ => trivial) fun _ rest _ => ?_
    refine (forInitializer_tracks ends rest).bind (by decide) (fun _ _ => trivial)
      fun initializer? rest _ => ?_
    refine (optionalExpression_tracks ends .semicolon .forConditionEnd rest (.inl rfl) rfl).bind
      (by decide) (fun _ _ => trivial) fun condition? rest _ => ?_
    refine (optionalExpression_tracks ends .rightParen .forClausesEnd rest (.inr rfl) rfl).bind
      (by decide) (fun _ _ => trivial) fun increment? rest _ => ?_
    exact (statement_tracks ends rest).map
  · simp only [row, Phrase.language_seq, mul_assoc]
termination_by 16 * s.length

/-- What comes after the first branch is the other one, so the branch may be followed by an `else`
    even if the whole choice may not. -/
theorem ifStatement_tracks (ends : eof.kind = .eof) (s : List Token) :
    (ifStatement eof s).Tracks eof Otherwise (row [token .leftParen, rule .expression,
      token .rightParen, rule .statement, alternative]) s := by
  rw [ifStatement]
  refine .same (p := row [row [token .leftParen, rule .expression, token .rightParen],
    rule .statement, alternative]) ?_ ?_
  · refine (parenthesized_tracks ends .ifStart .ifConditionEnd s rfl rfl).bind (by decide)
      (fun _ _ => trivial) fun condition rest _ => ?_
    exact (statement_tracks ends rest).extend (by decide) (fun K may => may.choice)
      fun thenBranch rest _ => (elseBranch_tracks ends rest).map
  · simp only [row, Phrase.language_seq, mul_assoc]
termination_by 16 * s.length

theorem elseBranch_tracks (ends : eof.kind = .eof) (s : List Token) :
    (elseBranch eof s).Tracks eof Otherwise alternative s := by
  rw [elseBranch.eq_def]
  split
  · exact .nothing (by rw [List.headD_nil, ends]; decide) (.second .empty)
  · rename_i token rest
    split
    · rename_i here
      refine (((statement_tracks ends rest).map.after (List.mem_singleton.mpr here)
        (by decide)).narrow ?_).within
      rw [List.headD_cons, here]
      exact .alternative
    · rename_i away
      exact .nothing (fun member => away (List.mem_singleton.mp member)) (.second .empty)
termination_by 16 * s.length

theorem block_tracks (ends : eof.kind = .eof) (s : List Token) :
    (block eof s).Tracks eof Always (closed (rule .declaration)) s := by
  rw [block.eq_def]
  split
  · exact .fails rfl rfl (by rw [List.headD_nil, ends]; decide) rfl (by decide)
  · rename_i token rest
    split
    · rename_i here
      exact .closes here (by decide) .none
    · rename_i away
      -- After an error the loop goes on, but the declaration has been the first to get stuck.
      refine .narrow (p := .seq (rule .declaration) (closed (rule .declaration))) ?_ (.inside away)
      exact (declaration_tracks ends (token :: rest)).recover.bind (by decide)
        (Phrase.heads (by decide) rfl) fun statement? rest lt => (block_tracks ends rest).map
termination_by 16 * s.length + 2

end

end Parse

end Lox
