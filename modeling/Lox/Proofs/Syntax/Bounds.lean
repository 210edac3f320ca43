import Mathlib.Data.List.TakeWhile
import Lox.Proofs.Syntax.Language

namespace Lox

theorem synchronize_suffix (s : List Token) : synchronize s <:+ s := by
  fun_induction synchronize s with
  | case1 => exact List.suffix_rfl
  | case2 => exact List.suffix_cons _ _
  | case3 => exact List.nil_suffix
  | case4 => exact List.suffix_cons _ _
  | case5 token _ next after _ ih => exact ih.trans (List.suffix_cons _ _)

theorem headD_mem (eof : Token) (s : List Token) : s.headD eof ∈ s ++ [eof] := by
  cases s <;> exact List.mem_cons_self

theorem mem_of_suffix {eof token : Token} {s rest : List Token} (member : token ∈ rest ++ [eof])
    (left : rest <:+ s) : token ∈ s ++ [eof] := by
  rcases List.mem_append.mp member with inside | ends
  · exact List.mem_append_left _ (left.subset inside)
  · exact List.mem_append_right _ ends

namespace Parsed

variable {α β : Type} {n : Nat}

def rest : Parsed α n → List Token
  | ok _ rest _ _ | error _ rest _ _ => rest

def errors : Parsed α n → List SyntaxError
  | ok _ _ noted _ => noted
  | error cause _ noted _ => noted ++ [cause]

/-- The errors noted and the tokens left are fewer than `bound`. A rule that fails may have noted
    nothing instead. -/
def Few (bound : Nat) : Parsed α n → Prop
  | ok _ rest noted _ => noted.length + rest.length < bound
  | error _ rest noted _ => noted = [] ∨ noted.length + rest.length < bound

/-- A rule for `s` leaves some end of `s`, finds errors only at tokens of `s` or at the end, and few
    of them. -/
structure Bounded (eof : Token) (s : List Token) (bound : Nat) (p : Parsed α n) : Prop where
  left : p.rest <:+ s
  inside : ∀ e ∈ p.errors, e.token ∈ s ++ [eof]
  few : p.Few bound

variable {eof token : Token} {s : List Token} {bound : Nat} {p : Parsed α n}

theorem Bounded.mono {bound' : Nat} (bounded : p.Bounded eof s bound) (le : bound ≤ bound') :
    p.Bounded eof s bound' := by
  refine ⟨bounded.left, bounded.inside, ?_⟩
  have few := bounded.few
  cases p with
  | ok value rest noted lt => exact Nat.lt_of_lt_of_le few le
  | error cause rest noted at_most => exact few.imp_right fun fewer => Nat.lt_of_lt_of_le fewer le

theorem Bounded.within {m : Nat} {h : n ≤ m} (bounded : p.Bounded eof s bound) :
    (p.within h).Bounded eof s bound := by
  obtain ⟨left, inside, few⟩ := bounded
  cases p <;> exact ⟨left, inside, few⟩

theorem Bounded.map {f : α → β} (bounded : p.Bounded eof s bound) :
    (p.map f).Bounded eof s bound := by
  obtain ⟨left, inside, few⟩ := bounded
  cases p <;> exact ⟨left, inside, few⟩

/-- A rule for the end of `s`. -/
theorem Bounded.onward {rest : List Token} (bounded : p.Bounded eof rest bound)
    (left : rest <:+ s) : p.Bounded eof s bound :=
  ⟨bounded.left.trans left, fun e member => mem_of_suffix (bounded.inside e member) left,
    bounded.few⟩

theorem Bounded.after (bounded : p.Bounded eof s bound) :
    p.after.Bounded eof (token :: s) bound :=
  bounded.within.onward (List.suffix_cons token s)

theorem Bounded.quiet {value : α} {rest : List Token} {lt : rest.length < n} (left : rest <:+ s)
    (fewer : rest.length < bound) : (ok value rest [] lt).Bounded eof s bound :=
  ⟨left, List.forall_mem_nil _, by simpa [Few] using fewer⟩

theorem Bounded.fails {cause : SyntaxError.Cause} {rest : List Token} {le : rest.length ≤ n}
    (left : rest <:+ s) (here : token ∈ s ++ [eof]) :
    (error ⟨cause, token⟩ rest [] le : Parsed α n).Bounded eof s bound :=
  ⟨left, List.forall_mem_singleton.mpr here, .inl rfl⟩

theorem errors_noting (before : List SyntaxError) (p : Parsed α n) :
    (p.noting before).errors = before ++ p.errors := by
  cases p with
  | ok => rfl
  | error => exact List.append_assoc _ _ _

theorem rest_noting (before : List SyntaxError) (p : Parsed α n) :
    (p.noting before).rest = p.rest := by
  cases p <;> rfl

theorem Few.noting {before : List SyntaxError} {bound' : Nat} (few : p.Few bound)
    (inside : before.length + bound ≤ bound') (left : before.length + p.rest.length < bound') :
    (p.noting before).Few bound' := by
  cases p with
  | ok value rest noted lt =>
    simp only [Few, Parsed.noting, List.length_append] at few ⊢
    omega
  | error cause rest noted le =>
    right
    simp only [Few, Parsed.rest] at few left
    rw [List.length_append]
    rcases few with rfl | few
    · simp only [List.length_nil]
      omega
    · omega

/-- An error is noted before the rule begins. -/
theorem Bounded.noting {before : List SyntaxError} (bounded : p.Bounded eof s s.length)
    (single : before.length ≤ 1) (here : ∀ e ∈ before, e.token ∈ s ++ [eof]) :
    (p.noting before).Bounded eof s (s.length + 2) := by
  obtain ⟨left, inside, few⟩ := bounded
  have fewer := left.length_le
  refine ⟨rest_noting before p ▸ left, ?_, few.noting (by omega) (by omega)⟩
  rw [errors_noting]
  exact List.forall_mem_append.mpr ⟨here, inside⟩

theorem Bounded.mapNoting {f : α → β × List SyntaxError} (bounded : p.Bounded eof s bound)
    (single : ∀ a, (f a).2.length ≤ 1) (here : ∀ a, ∀ e ∈ (f a).2, e.token ∈ s ++ [eof]) :
    (p.mapNoting f).Bounded eof s (bound + 1) := by
  obtain ⟨left, inside, few⟩ := bounded
  cases p with
  | ok value rest noted lt =>
    refine ⟨left, List.forall_mem_append.mpr ⟨inside, here value⟩, ?_⟩
    have := single value
    simp only [Few, Parsed.mapNoting, List.length_append] at few ⊢
    omega
  | error cause rest noted le =>
    exact ⟨left, inside, few.imp_right fun fewer => Nat.lt_of_lt_of_le fewer (Nat.le_succ _)⟩

/-- One rule has been passed, and another one goes on with what it left. -/
theorem Bounded.passed {m extra : Nat} {rest : List Token} {noted : List SyntaxError}
    {q : Parsed β m} (left : rest <:+ s) (inside : ∀ e ∈ noted, e.token ∈ s ++ [eof])
    (few : noted.length + rest.length < bound)
    (later : q.Bounded eof rest (rest.length + 1 + extra)) :
    (q.noting noted).Bounded eof s (bound + extra) := by
  obtain ⟨left', inside', few'⟩ := later.onward left
  have fewer := later.left.length_le
  refine ⟨rest_noting noted q ▸ left', ?_, few'.noting (by omega) (by omega)⟩
  rw [errors_noting]
  exact List.forall_mem_append.mpr ⟨inside, inside'⟩

theorem Bounded.bind (extra : Nat)
    {next : α → (rest : List Token) → rest.length < n → Parsed β rest.length}
    (bounded : p.Bounded eof s bound)
    (then' : ∀ a rest lt, (next a rest lt).Bounded eof rest (rest.length + 1 + extra)) :
    (p.bind next).Bounded eof s (bound + extra) := by
  obtain ⟨left, inside, few⟩ := bounded
  cases p with
  | ok value rest noted lt => exact .passed left inside few (then' value rest lt).within
  | error cause rest noted le =>
    exact ⟨left, inside, few.imp_right fun fewer => Nat.lt_of_lt_of_le fewer (Nat.le_add_right _ _)⟩

theorem Bounded.extend
    {next : α → (rest : List Token) → rest.length < n → Parsed β (rest.length + 1)}
    (bounded : p.Bounded eof s bound)
    (then' : ∀ a rest lt, (next a rest lt).Bounded eof rest (rest.length + 1)) :
    (p.extend next).Bounded eof s bound := by
  obtain ⟨left, inside, few⟩ := bounded
  cases p with
  | ok value rest noted lt =>
    have later : (next value rest lt).Bounded eof rest (rest.length + 1 + 0) := then' value rest lt
    exact .passed left inside few later.within
  | error cause rest noted le => exact ⟨left, inside, few⟩

/-- The token at fault is passed over and pays for the error. -/
theorem Bounded.recover {h : 0 < n} (bounded : p.Bounded eof s s.length) (some : 0 < s.length) :
    (p.recover h).Bounded eof s (s.length + 1) := by
  obtain ⟨left, inside, few⟩ := bounded
  cases p with
  | ok value rest noted lt => exact ⟨left, inside, Nat.lt_of_lt_of_le few (Nat.le_succ _)⟩
  | error cause rest noted le =>
    have shorter := length_synchronize_le rest
    have fewer := left.length_le
    refine ⟨(synchronize_suffix rest).trans left, inside, ?_⟩
    simp only [Few, Parsed.recover, Parsed.rest, List.length_append, List.length_singleton]
      at few fewer ⊢
    rcases few with rfl | few
    · simp only [List.length_nil]
      omega
    · omega

end Parsed

namespace Parse

variable (eof : Token)

theorem expect_bounded (kind : TokenKind) (cause : SyntaxError.Cause) (s : List Token) :
    (expect eof kind cause s).Bounded eof s s.length := by
  unfold expect
  split
  · exact .fails List.suffix_rfl List.mem_cons_self
  · rename_i token rest
    split
    · exact .quiet (List.suffix_cons _ _) (Nat.lt_succ_self _)
    · exact .fails List.suffix_rfl List.mem_cons_self

theorem length_arityErrors_le (count : Nat) (cause : SyntaxError.Cause) (s : List Token) :
    (arityErrors eof count cause s).length ≤ 1 := by
  unfold arityErrors
  split <;> simp

theorem arityErrors_inside (count : Nat) (cause : SyntaxError.Cause) (s : List Token) :
    ∀ e ∈ arityErrors eof count cause s, e.token ∈ s ++ [eof] := by
  unfold arityErrors
  split
  · exact List.forall_mem_singleton.mpr (headD_mem eof s)
  · exact List.forall_mem_nil _

theorem assignTo_errors (target : Expr) (equals : Token) (value : Expr) :
    (assignTo target equals value).2.length ≤ 1 ∧
      ∀ e ∈ (assignTo target equals value).2, e.token = equals := by
  unfold assignTo
  split <;> simp

mutual

theorem expression_bounded (s : List Token) : (expression eof s).Bounded eof s s.length := by
  rw [expression]
  exact (chain_bounded .or s).extend fun target rest _ => assignment_bounded target rest
termination_by 32 * s.length + 15
decreasing_by all_goals (try simp only [Level.rank]); omega

theorem assignment_bounded (target : Expr) (s : List Token) :
    (assignment eof target s).Bounded eof s (s.length + 1) := by
  rw [assignment.eq_def]
  split
  · exact .quiet List.suffix_rfl (Nat.lt_succ_self _)
  · rename_i equals rest
    split
    · have value := (expression_bounded rest).onward (List.suffix_cons equals rest)
      have told := fun value => assignTo_errors target equals value
      refine ((value.mapNoting (fun value => (told value).1) ?_).mono (Nat.le_succ _)).within.within
      exact fun value e member => (told value).2 e member ▸ List.mem_cons_self
    · exact .quiet List.suffix_rfl (Nat.lt_succ_self _)
termination_by 32 * s.length + 16

theorem chain_bounded (level : Level) (s : List Token) :
    (chain eof level s).Bounded eof s s.length := by
  rw [chain]
  exact (operand_bounded level s).extend fun left rest _ => chainTail_bounded level left rest
termination_by 32 * s.length + 4 + 2 * level.rank

theorem chainTail_bounded (level : Level) (left : Expr) (s : List Token) :
    (chainTail eof level left s).Bounded eof s (s.length + 1) := by
  rw [chainTail.eq_def]
  split
  · exact .quiet List.suffix_rfl (Nat.lt_succ_self _)
  · rename_i operator rest
    split
    · have := level.rank_le
      have longer := (operand_bounded level rest).extend fun right rest _ =>
        chainTail_bounded level (level.join left operator right) rest
      exact (longer.after.within).mono (by rw [List.length_cons]; omega)
    · exact .quiet List.suffix_rfl (Nat.lt_succ_self _)
termination_by 32 * s.length + 16
decreasing_by all_goals (subst_vars; simp only [List.length_cons]; omega)

theorem operand_bounded (level : Level) (s : List Token) :
    (operand eof level s).Bounded eof s s.length := by
  rw [operand.eq_def]
  split
  · rename_i next tighter
    have := Level.rank_of_tighter? tighter
    exact chain_bounded next s
  · exact unary_bounded s
termination_by 32 * s.length + 3 + 2 * level.rank

theorem unary_bounded (s : List Token) : (unary eof s).Bounded eof s s.length := by
  rw [unary.eq_def]
  split
  · exact call_bounded []
  · rename_i operator rest
    split
    · exact (unary_bounded rest).map.after.mono (Nat.le_succ _)
    · exact call_bounded (operator :: rest)
termination_by 32 * s.length + 2

theorem call_bounded (s : List Token) : (call eof s).Bounded eof s s.length := by
  rw [call]
  exact (primary_bounded s).extend fun callee rest _ => callTail_bounded callee rest
termination_by 32 * s.length + 1

theorem callTail_bounded (left : Expr) (s : List Token) :
    (callTail eof left s).Bounded eof s (s.length + 1) := by
  rw [callTail.eq_def]
  split
  · exact .quiet List.suffix_rfl (Nat.lt_succ_self _)
  · rename_i token rest
    split
    · exact ((arguments_bounded rest).extend fun given rest _ =>
        callTail_bounded _ rest).after.within
    · split
      · have property := (expect_bounded eof .identifier .propertyName rest).extend
          fun name rest _ => callTail_bounded (.get left name) rest
        exact property.after.within.mono (by rw [List.length_cons]; omega)
      · exact .quiet List.suffix_rfl (Nat.lt_succ_self _)
termination_by 32 * s.length + 16
decreasing_by all_goals (subst_vars; simp only [List.length_cons]; omega)

theorem arguments_bounded (s : List Token) :
    (arguments eof s).Bounded eof s (s.length + 2) := by
  rw [arguments.eq_def]
  split
  · exact argumentList_bounded 0 []
  · rename_i paren rest
    split
    · exact .quiet (List.suffix_cons _ _) (by rw [List.length_cons]; omega)
    · exact argumentList_bounded 0 (paren :: rest)
termination_by 32 * s.length + 17

theorem argumentList_bounded (count : Nat) (s : List Token) :
    (argumentList eof count s).Bounded eof s (s.length + 2) := by
  rw [argumentList]
  have first := (expression_bounded s).noting
    (length_arityErrors_le eof count .tooManyArguments s) (arityErrors_inside eof count _ s)
  refine first.bind 0 fun argument rest lt => ?_
  split
  · exact (expect_bounded eof .rightParen .argumentsEnd []).map.mono (Nat.le_succ _)
  · rename_i comma more _
    split
    · exact (argumentList_bounded (count + 1) more).map.after
    · exact (expect_bounded eof .rightParen .argumentsEnd _).map.mono (Nat.le_succ _)
termination_by 32 * s.length + 16
decreasing_by
  · omega
  · subst_vars
    simp only [List.length_cons] at lt
    omega

theorem primary_bounded (s : List Token) : (primary eof s).Bounded eof s s.length := by
  rw [primary.eq_def]
  split
  · exact .fails List.suffix_rfl List.mem_cons_self
  · rename_i token rest
    split
    iterate 5
      split
      · exact .quiet (List.suffix_cons _ _) (Nat.lt_succ_self _)
      · exact .fails (List.suffix_cons _ _) List.mem_cons_self
    · refine ((expect_bounded eof .dot .superDot rest).bind 0
        fun _ rest _ => ?_).after.mono (Nat.le_succ _)
      exact (expect_bounded eof .identifier .superMethodName rest).map.mono (Nat.le_succ _)
    · exact .quiet (List.suffix_cons _ _) (Nat.lt_succ_self _)
    · exact .quiet (List.suffix_cons _ _) (Nat.lt_succ_self _)
    · refine ((expression_bounded rest).bind 0 fun inner rest _ => ?_).after.mono (Nat.le_succ _)
      exact (expect_bounded eof .rightParen .groupEnd rest).map.mono (Nat.le_succ _)
    · exact .fails List.suffix_rfl List.mem_cons_self
termination_by 32 * s.length

end

theorem expressionEnding_bounded (cause : SyntaxError.Cause) (s : List Token) :
    (expressionEnding eof cause s).Bounded eof s s.length := by
  unfold expressionEnding
  exact (expression_bounded eof s).bind 0 fun value rest _ =>
    (expect_bounded eof .semicolon cause rest).map.mono (Nat.le_succ _)

theorem optionalExpression_bounded (kind : TokenKind) (cause : SyntaxError.Cause)
    (s : List Token) : (optionalExpression eof kind cause s).Bounded eof s s.length := by
  unfold optionalExpression
  split
  · exact (expression_bounded eof []).map
  · rename_i token rest
    split
    · exact .quiet (List.suffix_cons _ _) (Nat.lt_succ_self _)
    · exact (expression_bounded eof (token :: rest)).bind 0 fun value rest _ =>
        (expect_bounded eof kind cause rest).map.mono (Nat.le_succ _)

theorem varDeclaration_bounded (s : List Token) :
    (varDeclaration eof s).Bounded eof s s.length := by
  unfold varDeclaration
  refine (expect_bounded eof .identifier .variableName s).bind 0 fun name rest _ => ?_
  have bare (rest : List Token) : ((expect eof .semicolon .variableEnd rest).map
      fun _ => Stmt.varDecl name none).Bounded eof rest (rest.length + 1) :=
    (expect_bounded eof .semicolon .variableEnd rest).map.mono (Nat.le_succ _)
  split
  · exact bare []
  · rename_i equals value _
    split
    · exact (expressionEnding_bounded eof .variableEnd value).map.after.mono
        (by rw [List.length_cons]; omega)
    · exact bare (equals :: value)

theorem parameterList_bounded (count : Nat) (s : List Token) :
    (parameterList eof count s).Bounded eof s (s.length + 2) := by
  rw [parameterList]
  have first := (expect_bounded eof .identifier .parameterName s).noting
    (length_arityErrors_le eof count .tooManyParameters s) (arityErrors_inside eof count _ s)
  refine first.bind 0 fun param rest lt => ?_
  split
  · exact (expect_bounded eof .rightParen .parametersEnd []).map.mono (Nat.le_succ _)
  · rename_i comma more _
    split
    · exact (parameterList_bounded (count + 1) more).map.after
    · exact (expect_bounded eof .rightParen .parametersEnd _).map.mono (Nat.le_succ _)
termination_by s.length
decreasing_by
  subst_vars
  simp only [List.length_cons] at lt
  omega

theorem parameters_bounded (s : List Token) :
    (parameters eof s).Bounded eof s (s.length + 2) := by
  unfold parameters
  split
  · exact parameterList_bounded eof 0 []
  · rename_i paren rest
    split
    · exact .quiet (List.suffix_cons _ _) (by rw [List.length_cons]; omega)
    · exact parameterList_bounded eof 0 (paren :: rest)

theorem forInitializer_bounded (s : List Token) :
    (forInitializer eof s).Bounded eof s s.length := by
  unfold forInitializer
  split
  · exact (expressionEnding_bounded eof .expressionStatementEnd []).map
  · rename_i token rest
    split
    · exact .quiet (List.suffix_cons _ _) (Nat.lt_succ_self _)
    · split
      · exact (varDeclaration_bounded eof rest).map.after.mono (Nat.le_succ _)
      · exact (expressionEnding_bounded eof .expressionStatementEnd (token :: rest)).map

theorem parenthesized_bounded (start finish : SyntaxError.Cause) (s : List Token) :
    (parenthesized eof start finish s).Bounded eof s s.length := by
  unfold parenthesized
  refine (expect_bounded eof .leftParen start s).bind 0 fun _ rest _ => ?_
  refine ((expression_bounded eof rest).bind 0 fun condition rest _ => ?_).mono (Nat.le_succ _)
  exact (expect_bounded eof .rightParen finish rest).map.mono (Nat.le_succ _)

mutual

theorem declaration_bounded (s : List Token) : (declaration eof s).Bounded eof s s.length := by
  rw [declaration.eq_def]
  split
  · exact statement_bounded []
  · rename_i token rest
    split
    · exact (classDeclaration_bounded rest).after.mono (Nat.le_succ _)
    · exact (function_bounded .function rest).map.after.mono (Nat.le_succ _)
    · exact (varDeclaration_bounded eof rest).after.mono (Nat.le_succ _)
    · exact statement_bounded (token :: rest)
termination_by 16 * s.length + 1

theorem classDeclaration_bounded (s : List Token) :
    (classDeclaration eof s).Bounded eof s s.length := by
  rw [classDeclaration]
  refine (expect_bounded eof .identifier .className s).bind 0 fun name rest lt => ?_
  split
  · exact (classBody_bounded []).map.mono (Nat.le_succ _)
  · rename_i less more _
    split
    · refine ((expect_bounded eof .identifier .superclassName more).bind 0
        fun superclass rest _ => ?_).after.mono (by rw [List.length_cons]; omega)
      exact (classBody_bounded rest).map.mono (Nat.le_succ _)
    · exact (classBody_bounded (less :: more)).map.mono (Nat.le_succ _)
termination_by 16 * s.length + 1
decreasing_by all_goals subst_vars; simp only [List.length_cons, List.length_nil] at *; omega

theorem classBody_bounded (s : List Token) : (classBody eof s).Bounded eof s s.length := by
  rw [classBody]
  exact (expect_bounded eof .leftBrace .classBodyStart s).bind 0 fun _ rest _ =>
    (methods_bounded rest).mono (Nat.le_succ _)
termination_by 16 * s.length

theorem methods_bounded (s : List Token) : (methods eof s).Bounded eof s s.length := by
  rw [methods.eq_def]
  split
  · exact .fails List.suffix_rfl List.mem_cons_self
  · rename_i token rest
    split
    · exact .quiet (List.suffix_cons _ _) (Nat.lt_succ_self _)
    · exact (function_bounded .method (token :: rest)).bind 0 fun method rest lt =>
        (methods_bounded rest).map.mono (Nat.le_succ _)
termination_by 16 * s.length + 1
decreasing_by all_goals subst_vars; simp only [List.length_cons] at *; omega

theorem function_bounded (kind : CallableKind) (s : List Token) :
    (function eof kind s).Bounded eof s s.length := by
  rw [function]
  refine (expect_bounded eof .identifier (.callableName kind) s).bind 0 fun name rest _ => ?_
  -- What follows the parenthesis may cost one token more than it has; the parenthesis is that token.
  refine (expect_bounded eof .leftParen (.parametersStart kind) rest).bind 1 fun _ rest _ => ?_
  refine (parameters_bounded eof rest).bind 0 fun params rest _ => ?_
  refine ((expect_bounded eof .leftBrace (.callableBodyStart kind) rest).bind 0
    fun _ rest _ => ?_).mono (Nat.le_succ _)
  exact (block_bounded rest).map
termination_by 16 * s.length

theorem statement_bounded (s : List Token) : (statement eof s).Bounded eof s s.length := by
  rw [statement.eq_def]
  split
  · exact (expressionEnding_bounded eof .expressionStatementEnd []).map
  · rename_i token rest
    split
    · exact (forStatement_bounded rest).after.mono (Nat.le_succ _)
    · exact (ifStatement_bounded rest).after.mono (Nat.le_succ _)
    · exact (expressionEnding_bounded eof .printEnd rest).map.after.mono (Nat.le_succ _)
    · exact (optionalExpression_bounded eof .semicolon .returnEnd rest).map.after.mono
        (Nat.le_succ _)
    · refine ((parenthesized_bounded eof .whileStart .whileConditionEnd rest).bind 0
        fun condition rest _ => ?_).after.mono (Nat.le_succ _)
      exact (statement_bounded rest).map.mono (Nat.le_succ _)
    · exact (block_bounded rest).map.after
    · exact (expressionEnding_bounded eof .expressionStatementEnd (token :: rest)).map
termination_by 16 * s.length
decreasing_by all_goals subst_vars; simp only [List.length_cons]; omega

theorem forStatement_bounded (s : List Token) : (forStatement eof s).Bounded eof s s.length := by
  rw [forStatement]
  refine (expect_bounded eof .leftParen .forStart s).bind 0 fun _ rest _ => ?_
  refine ((forInitializer_bounded eof rest).bind 0 fun initializer? rest _ => ?_).mono
    (Nat.le_succ _)
  refine ((optionalExpression_bounded eof .semicolon .forConditionEnd rest).bind 0
    fun condition? rest _ => ?_).mono (Nat.le_succ _)
  refine ((optionalExpression_bounded eof .rightParen .forClausesEnd rest).bind 0
    fun increment? rest _ => ?_).mono (Nat.le_succ _)
  exact (statement_bounded rest).map.mono (Nat.le_succ _)
termination_by 16 * s.length

theorem ifStatement_bounded (s : List Token) : (ifStatement eof s).Bounded eof s s.length := by
  rw [ifStatement]
  refine (parenthesized_bounded eof .ifStart .ifConditionEnd s).bind 0 fun condition rest _ => ?_
  exact ((statement_bounded rest).extend fun thenBranch rest _ =>
    (elseBranch_bounded rest).map).mono (Nat.le_succ _)
termination_by 16 * s.length

theorem elseBranch_bounded (s : List Token) :
    (elseBranch eof s).Bounded eof s (s.length + 1) := by
  rw [elseBranch.eq_def]
  split
  · exact .quiet List.suffix_rfl (Nat.lt_succ_self _)
  · rename_i token rest
    split
    · exact (statement_bounded rest).map.after.within.mono (by rw [List.length_cons]; omega)
    · exact .quiet List.suffix_rfl (Nat.lt_succ_self _)
termination_by 16 * s.length

/-- The error of a block without an end is not paid for inside of it but by the brace before. -/
theorem block_bounded (s : List Token) : (block eof s).Bounded eof s (s.length + 1) := by
  rw [block.eq_def]
  split
  · exact .fails List.suffix_rfl List.mem_cons_self
  · rename_i token rest
    split
    · exact .quiet (List.suffix_cons _ _) (by rw [List.length_cons]; omega)
    · exact ((declaration_bounded (token :: rest)).recover (Nat.succ_pos _)).bind 0
        fun statement? rest lt => (block_bounded rest).map
termination_by 16 * s.length + 2

end

/-- A loop over declarations reads `s` up to `last`. Each of its turns reads a declaration, or passes
    over one that is at fault, and leaves some end of what comes after the first token. -/
inductive Loops (eof : Token) : List Token → List Token → List Stmt → List SyntaxError → Prop where
  | stop {s : List Token} : Loops eof s s [] []
  | turn {token : Token} {rest after last : List Token} {statement? : Option Stmt}
      {statements : List Stmt} {noted errors : List SyntaxError}
      {lt : after.length < (token :: rest).length}
      (ended : (declaration eof (token :: rest)).recover (Nat.succ_pos _) =
        .ok statement? after noted lt)
      (forward : after <:+ rest) (later : Loops eof after last statements errors) :
      Loops eof (token :: rest) last (statement?.toList ++ statements) (noted ++ errors)

/-- What the loop over the declarations of a block leaves: it ends at a closing brace, or else only
    where the tokens end. -/
def LoopsInside (eof : Token) (s : List Token) {n : Nat} : Parsed (List Stmt) n → Prop
  | .ok body rest noted _ =>
    ∃ closing, closing.kind = .rightBrace ∧ Loops eof s (closing :: rest) body noted
  | .error cause rest noted _ =>
    cause = ⟨.blockEnd, eof⟩ ∧ rest = [] ∧ ∃ body, Loops eof s [] body noted

variable {eof}

/-- Every turn of a loop over declarations ends, and further on than it began. -/
theorem exists_turn (eof token : Token) (rest : List Token) : ∃ statement? after noted lt,
    (declaration eof (token :: rest)).recover (Nat.succ_pos _) = .ok statement? after noted lt ∧
      after <:+ rest := by
  have bounded := (declaration_bounded eof (token :: rest)).recover (h := Nat.succ_pos _)
    (Nat.succ_pos _)
  have left := bounded.left
  cases turn : (declaration eof (token :: rest)).recover (Nat.succ_pos _) with
  | ok statement? after noted lt =>
    rw [turn] at left
    refine ⟨statement?, after, noted, lt, rfl, ?_⟩
    rcases List.suffix_cons_iff.mp left with same | shorter
    · exact absurd (congrArg List.length same) (Nat.ne_of_lt lt)
    · exact shorter
  | error cause after noted le =>
    cases read : declaration eof (token :: rest) <;> rw [read] at turn <;> cases turn

theorem declarations_loops (eof : Token) (s : List Token) :
    Loops eof s [] (declarations eof s).1 (declarations eof s).2 := by
  rw [declarations.eq_def]
  split
  · exact .stop
  · rename_i token rest
    obtain ⟨statement?, after, noted, lt, ended, forward⟩ := exists_turn eof token rest
    rw [ended]
    exact .turn ended forward (declarations_loops eof after)
termination_by s.length

theorem block_loops (s : List Token) : LoopsInside eof s (block eof s) := by
  rw [block.eq_def]
  split
  · exact ⟨rfl, rfl, [], .stop⟩
  · rename_i token rest
    split
    · rename_i closes
      exact ⟨token, closes, .stop⟩
    · obtain ⟨statement?, after, noted, lt, ended, forward⟩ := exists_turn eof token rest
      rw [ended]
      have later := block_loops after
      unfold Parsed.bind
      dsimp only
      cases inner : block eof after with
      | ok body rest' noted' lt' =>
        rw [inner] at later
        obtain ⟨closing, closes, loops⟩ := later
        exact ⟨closing, closes, .turn ended forward loops⟩
      | error cause rest' noted' le =>
        rw [inner] at later
        obtain ⟨same, none, body, loops⟩ := later
        exact ⟨same, none, _, .turn ended forward loops⟩
termination_by s.length

/-- Each turn takes at least as many tokens as it finds errors, and so does the loop. -/
theorem Loops.few {s last : List Token} {statements : List Stmt} {errors : List SyntaxError}
    (loops : Loops eof s last statements errors) : errors.length + last.length ≤ s.length ∧
      ∀ e ∈ errors, e.token ∈ s ++ [eof] := by
  induction loops with
  | stop => exact ⟨by simp, List.forall_mem_nil _⟩
  | @turn token rest after last statement? statements noted errors lt ended forward later ih =>
    obtain ⟨fewer, inside⟩ := ih
    have bounded := (declaration_bounded eof (token :: rest)).recover (h := Nat.succ_pos _)
      (Nat.succ_pos _)
    rw [ended] at bounded
    obtain ⟨left, here, few⟩ := bounded
    constructor
    · simp only [Parsed.Few, List.length_append] at few ⊢
      omega
    · exact List.forall_mem_append.mpr
        ⟨here, fun e member => mem_of_suffix (inside e member) left⟩

def Ended (tokens : List Token) : Prop := ∃ last ∈ tokens.getLast?, last.kind = .eof

theorem untilEnd_of_ended {tokens : List Token} (ended : Ended tokens) :
    ∃ before eof after, tokens = before ++ eof :: after ∧ eof.kind = .eof ∧
      (∀ token ∈ before, token.kind ≠ .eof) ∧ untilEnd tokens = .ok (before, eof) := by
  obtain ⟨last, found, kind⟩ := ended
  have before : ∀ token ∈ tokens.takeWhile (·.kind ≠ .eof), token.kind ≠ .eof := by
    intro token member
    have other := List.mem_takeWhile_imp member
    exact of_decide_eq_true other
  have split := tokens.takeWhile_append_dropWhile (p := (·.kind ≠ .eof))
  have first := tokens.head?_dropWhile_not (·.kind ≠ .eof)
  have read : untilEnd tokens = .ok (tokens.takeWhile (·.kind ≠ .eof),
      (tokens.dropWhile (·.kind ≠ .eof)).headD last) := by
    unfold untilEnd
    rw [Option.mem_def.mp found]
    simp only [if_pos kind, List.span_eq_takeWhile_dropWhile]
  cases here : tokens.dropWhile (·.kind ≠ .eof) with
  | nil =>
    rw [here, List.append_nil] at split
    have member := List.mem_of_getLast? found
    rw [← split] at member
    exact absurd kind (before last member)
  | cons eof after =>
    rw [here] at first read split
    have ends : eof.kind = .eof := by simpa using first
    exact ⟨_, eof, after, split.symm, ends, before, read⟩

def missingEnd (tokens : List Token) : SyntaxError :=
  ⟨.inputEnd, ⟨.eof, "", none, (tokens.getLast?.map (·.line)).getD 1⟩⟩

theorem untilEnd_of_not_ended {tokens : List Token} (open' : ¬ Ended tokens) :
    untilEnd tokens = .error (missingEnd tokens) := by
  unfold untilEnd missingEnd
  cases found : tokens.getLast? with
  | none => rfl
  | some last => exact if_neg fun kind => open' ⟨last, found, kind⟩

end Parse

open Parse (Ended Loops LoopsInside untilEnd_of_ended untilEnd_of_not_ended untilEnd_last)

theorem parse_of_untilEnd {tokens before : List Token} {eof : Token}
    (read : Parse.untilEnd tokens = .ok (before, eof)) : parse tokens =
      if (Parse.declarations eof before).2 = [] then .ok (Parse.declarations eof before).1
      else .error (Parse.declarations eof before).2 := by
  unfold parse
  rw [read]
  dsimp only
  rcases Parse.declarations eof before with ⟨statements, _ | ⟨error, errors⟩⟩ <;> rfl

theorem parseExpression_inside {tokens before : List Token} {eof : Token}
    (read : Parse.untilEnd tokens = .ok (before, eof)) {errors : List SyntaxError}
    (failed : parseExpression tokens = .error errors) :
    ∀ e ∈ errors, e.token ∈ before ++ [eof] := by
  obtain ⟨left, inside, -⟩ := Parse.expression_bounded eof before
  unfold parseExpression at failed
  rw [read] at failed
  dsimp only at failed
  cases given : Parse.expression eof before with
  | error cause rest noted le =>
    rw [given] at failed inside
    cases failed
    exact inside
  | ok value rest noted lt =>
    rw [given] at failed inside left
    cases noted with
    | cons error more =>
      cases rest <;> cases failed <;> exact inside
    | nil =>
      cases rest with
      | nil => cases failed
      | cons token rest =>
        cases failed
        exact List.forall_mem_singleton.mpr
          (List.mem_append_left _ (left.subset List.mem_cons_self))

/-- Whatever the tokens are, they are parsed, and no rule looks beyond them. If the last one is no
    end of input, that is the only error. Otherwise nothing after the first end counts; every turn of
    a loop over declarations goes on with less than it began with, at the top as well as in blocks;
    and all errors are at tokens up to that end, no more of them than there are tokens before it. -/
theorem parse_bounded (tokens : List Token) :
    (¬ Ended tokens → parse tokens = .error [Parse.missingEnd tokens] ∧
      parseExpression tokens = .error [Parse.missingEnd tokens]) ∧
    (Ended tokens → ∃ before eof after, tokens = before ++ eof :: after ∧ eof.kind = .eof ∧
      (∀ token ∈ before, token.kind ≠ .eof) ∧
      parse tokens = parse (before ++ [eof]) ∧
      parseExpression tokens = parseExpression (before ++ [eof]) ∧
      (∃ statements errors, Loops eof before [] statements errors ∧
        parse tokens = (if errors = [] then .ok statements else .error errors) ∧
        errors.length ≤ before.length ∧ ∀ e ∈ errors, e.token ∈ before ++ [eof]) ∧
      (∀ s, LoopsInside eof s (Parse.block eof s) ∧
        (Parse.declaration eof s).Bounded eof s s.length ∧
        (Parse.expression eof s).Bounded eof s s.length) ∧
      ∀ errors, parseExpression tokens = .error errors →
        ∀ e ∈ errors, e.token ∈ before ++ [eof]) := by
  constructor
  · intro open'
    have read := untilEnd_of_not_ended open'
    constructor
    · rw [parse, read]
    · rw [parseExpression, read]
  · intro ended
    obtain ⟨before, eof, after, whole, kind, only, read⟩ := untilEnd_of_ended ended
    have same := untilEnd_last kind only
    have loops := Parse.declarations_loops eof before
    obtain ⟨fewer, inside⟩ := loops.few
    refine ⟨before, eof, after, whole, kind, only, ?_, ?_,
      ⟨_, _, loops, parse_of_untilEnd read, fewer, inside⟩, fun s => ⟨Parse.block_loops s,
        Parse.declaration_bounded eof s, Parse.expression_bounded eof s⟩,
      fun errors failed => parseExpression_inside read failed⟩
    · rw [parse, parse, read, same]
    · rw [parseExpression, parseExpression, read, same]

private def unclosed : List Token :=
  [.leftBrace, .leftBrace, .eof, .rightBrace, .eof].map fun kind => ⟨kind, "", none, 1⟩

/-- Each of the blocks is an error, and the brace after the end of input does not count. Without an
    end of input the blocks are not even looked at. -/
theorem parse_unclosed : Ended unclosed ∧
    parse unclosed = .error (.replicate 2 ⟨.blockEnd, ⟨.eof, "", none, 1⟩⟩) ∧
    (∃ before eof after, unclosed = before ++ eof :: after ∧ eof.kind = .eof ∧
      (∀ token ∈ before, token.kind ≠ .eof) ∧ parse unclosed = parse (before ++ [eof]) ∧
      ∃ statements errors, Loops eof before [] statements errors ∧ errors.length ≤ before.length) ∧
    ¬ Ended (unclosed.take 2) ∧
    parse (unclosed.take 2) = .error [Parse.missingEnd (unclosed.take 2)] := by
  have ended : Ended unclosed := ⟨⟨.eof, "", none, 1⟩, rfl, rfl⟩
  have open' : ¬ Ended (unclosed.take 2) := by
    rintro ⟨last, found, kind⟩
    cases found
    cases kind
  obtain ⟨before, eof, after, whole, kind, only, same, -, bounds, -⟩ :=
    (parse_bounded unclosed).2 ended
  obtain ⟨statements, errors, loops, -, few, -⟩ := bounds
  refine ⟨ended, ?_,
    ⟨before, eof, after, whole, kind, only, same, statements, errors, loops, few⟩,
    open', ((parse_bounded (unclosed.take 2)).1 open').1⟩
  unfold unclosed
  cbv

end Lox
