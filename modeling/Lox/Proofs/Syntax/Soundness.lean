import Lox.Proofs.Syntax.Grammar

namespace Lox

namespace Parsed

/-- If the rule yields a value and notes no error, it has taken the first tokens of `s`, and these,
    the value and the tokens that are left fit together. -/
def Reads {α : Type} {n : Nat} (s : List Token) (good : List Token → α → List Token → Prop) :
    Parsed α n → Prop
  | ok value rest noted _ => noted = [] → ∃ ts, s = ts ++ rest ∧ good ts value rest
  | error _ _ _ _ => True

variable {α β : Type} {n : Nat} {s : List Token} {good : List Token → α → List Token → Prop}
  {better : List Token → β → List Token → Prop} {p : Parsed α n}

theorem Reads.mono {good' : List Token → α → List Token → Prop} (reads : p.Reads s good)
    (weaker : ∀ ts a rest, good ts a rest → good' ts a rest) : p.Reads s good' := by
  cases p with
  | ok value rest noted lt =>
    intro none
    obtain ⟨ts, whole, fits⟩ := reads none
    exact ⟨ts, whole, weaker ts value rest fits⟩
  | error => trivial

theorem Reads.within {m : Nat} {h : n ≤ m} (reads : p.Reads s good) : (p.within h).Reads s good := by
  cases p <;> exact reads

theorem Reads.nothing {value : α} {lt : s.length < n} (fits : good [] value s) :
    (ok value s [] lt).Reads s good := fun _ => ⟨[], rfl, fits⟩

theorem Reads.token {token : Token} {value : α} {lt : s.length < n} (fits : good [token] value s) :
    (ok value s [] lt).Reads (token :: s) good := fun _ => ⟨[token], rfl, fits⟩

theorem Reads.after {token : Token} (reads : p.Reads s fun ts => good (token :: ts)) :
    p.after.Reads (token :: s) good := by
  cases p with
  | ok value rest noted lt =>
    intro none
    obtain ⟨ts, whole, fits⟩ := reads none
    exact ⟨token :: ts, congrArg (token :: ·) whole, fits⟩
  | error => trivial

theorem Reads.noting {before : List SyntaxError} (reads : before = [] → p.Reads s good) :
    (p.noting before).Reads s good := by
  cases p with
  | ok value rest noted lt =>
    intro none
    obtain ⟨first, second⟩ := List.append_eq_nil_iff.mp none
    exact reads first second
  | error => trivial

theorem Reads.map {f : α → β} (reads : p.Reads s good)
    (keeps : ∀ ts a rest, good ts a rest → better ts (f a) rest) : (p.map f).Reads s better := by
  cases p with
  | ok value rest noted lt =>
    intro none
    obtain ⟨ts, whole, fits⟩ := reads none
    exact ⟨ts, whole, keeps ts value rest fits⟩
  | error => trivial

theorem Reads.mapNoting {f : α → β × List SyntaxError} (reads : p.Reads s good)
    (keeps : ∀ ts a rest, good ts a rest → (f a).2 = [] → better ts (f a).1 rest) :
    (p.mapNoting f).Reads s better := by
  cases p with
  | ok value rest noted lt =>
    intro none
    obtain ⟨first, second⟩ := List.append_eq_nil_iff.mp none
    obtain ⟨ts, whole, fits⟩ := reads first
    exact ⟨ts, whole, keeps ts value rest fits second⟩
  | error => trivial

theorem Reads.onward {ts rest : List Token} (whole : s = ts ++ rest)
    (reads : p.Reads rest fun us => good (ts ++ us)) : p.Reads s good := by
  cases p with
  | ok value rest' noted lt =>
    intro none
    obtain ⟨us, more, fits⟩ := reads none
    exact ⟨ts ++ us, by rw [whole, more, List.append_assoc], fits⟩
  | error => trivial

theorem Reads.bind
    {next : α → (rest : List Token) → rest.length < n → Parsed β rest.length}
    (reads : p.Reads s good)
    (then' : ∀ ts a rest lt, good ts a rest →
      (next a rest lt).Reads rest fun us => better (ts ++ us)) :
    (p.bind next).Reads s better := by
  cases p with
  | ok value rest noted lt =>
    refine .noting fun none => ?_
    obtain ⟨ts, whole, fits⟩ := reads none
    exact (then' ts value rest lt fits).within.onward whole
  | error => trivial

theorem Reads.extend
    {next : α → (rest : List Token) → rest.length < n → Parsed β (rest.length + 1)}
    (reads : p.Reads s good)
    (then' : ∀ ts a rest lt, good ts a rest →
      (next a rest lt).Reads rest fun us => better (ts ++ us)) :
    (p.extend next).Reads s better := by
  cases p with
  | ok value rest noted lt =>
    refine .noting fun none => ?_
    obtain ⟨ts, whole, fits⟩ := reads none
    exact (then' ts value rest lt fits).within.onward whole
  | error => trivial

/-- A declaration without errors needs no recovery. -/
theorem Reads.recover {h : 0 < n} (reads : p.Reads s good) :
    (p.recover h).Reads s fun ts value? rest => ∃ a, value? = some a ∧ good ts a rest := by
  cases p with
  | ok value rest noted lt =>
    intro none
    obtain ⟨ts, whole, fits⟩ := reads none
    exact ⟨ts, whole, value, rfl, fits⟩
  | error cause rest noted le =>
    intro none
    exact absurd none (List.append_ne_nil_of_right_ne_nil noted (List.cons_ne_nil cause []))

end Parsed

namespace Grammar

open Parse (Level)

def IsTarget : Expr → Prop
  | .variable _ _ | .get _ _ => True
  | _ => False

/-- A chain with the tree of a target has no operators. -/
theorem Chain.target {level : Level} {ts : List Token} {e : Expr} (chained : Chain level ts e)
    (target : IsTarget e) : Call ts e := by
  induction rank : level.rank using Nat.strongRecOn generalizing level with
  | ind n ih =>
    cases chained with
    | one single =>
      cases single with
      | @chain _ next _ _ tighter chained =>
        rw [operation_eq] at tighter
        have := Level.rank_of_tighter? tighter
        exact ih next.rank (by omega) chained rfl
      | unary _ single =>
        cases single with
        | operator => exact target.elim
        | call called => exact called
    | more => cases level <;> exact target.elim

/-- An operator of the parser's table joins its operands as the rule says. -/
theorem Chain.joined {level : Level} {ts us : List Token} {operator : Token} {left right : Expr}
    (before : Chain level ts left) (applied : operator.kind ∈ level.operators)
    (last : Operand level us right) :
    Chain level (ts ++ operator :: us) (level.join left operator right) := by
  have listed : operator.kind ∈ (operation level).operators := by rwa [operation_eq]
  have whole := Chain.more before listed last
  rwa [operation_eq] at whole

end Grammar

namespace Parse

open Grammar

variable (eof : Token)

theorem expect_reads (kind : TokenKind) (cause : SyntaxError.Cause) (s : List Token) :
    (expect eof kind cause s).Reads s fun ts token _ => ts = [token] ∧ token.kind = kind := by
  unfold expect
  split
  · trivial
  · split
    · rename_i token rest here
      exact .token ⟨rfl, here⟩
    · trivial

theorem few_of_arityErrors {count : Nat} {cause : SyntaxError.Cause} {s : List Token}
    (none : arityErrors eof count cause s = []) : count < maxArity := by
  unfold arityErrors at none
  split at none
  · cases none
  · omega

theorem primary_of_constant? {token : Token} {value : Constant}
    (found : constant? token = some value) : Primary [token] (.literal value) := by
  unfold constant? at found
  split at found
  · cases found
    exact .no ‹_›
  · cases found
    exact .yes ‹_›
  · cases found
    exact .nil ‹_›
  · cases found
    exact .literal (.inl ‹_›) ‹_›
  · cases found
    exact .literal (.inr ‹_›) ‹_›
  · cases found
    exact .literal (.inl ‹_›) ‹_›
  · cases found
    exact .literal (.inr ‹_›) ‹_›
  · cases found

theorem assignTo_reads {ts us : List Token} {target value : Expr} {equals : Token}
    (left : Chain .or ts target) (assigns : equals.kind = .equal) (right : Expression us value)
    (fine : (assignTo target equals value).2 = []) :
    Expression (ts ++ equals :: us) (assignTo target equals value).1 := by
  cases target with
  | «variable» name distance =>
    cases left.target trivial with
    | primary atom =>
      cases atom with
      | «variable» named => exact .assign named assigns right
  | get object name =>
    cases left.target trivial with
    | primary atom => cases atom
    | get owner dotted named =>
      rw [List.append_assoc]
      exact .set owner dotted named assigns right
  | _ => cases fine

mutual

theorem expression_reads (s : List Token) :
    (expression eof s).Reads s fun ts e _ => Expression ts e := by
  rw [expression]
  exact (chain_reads .or s).extend fun ts target rest _ before => assignment_reads target rest before
termination_by 32 * s.length + 15
decreasing_by all_goals (try simp only [Level.rank]); omega

theorem assignment_reads (target : Expr) (s : List Token) {before : List Token}
    (left : Chain .or before target) :
    (assignment eof target s).Reads s fun ts e _ => Expression (before ++ ts) e := by
  have alone : Expression (before ++ []) target := by
    rw [List.append_nil]
    exact .plain left
  rw [assignment.eq_def]
  split
  · exact .nothing alone
  · rename_i equals rest
    split
    · rename_i assigns
      exact ((expression_reads rest).mapNoting fun ts value _ right =>
        assignTo_reads left assigns right).within.after
    · exact .nothing alone
termination_by 32 * s.length + 16

theorem chain_reads (level : Level) (s : List Token) :
    (chain eof level s).Reads s fun ts e _ => Chain level ts e := by
  rw [chain]
  exact (operand_reads level s).extend fun ts left rest _ single =>
    chainTail_reads level left rest (.one single)
termination_by 32 * s.length + 4 + 2 * level.rank

theorem chainTail_reads (level : Level) (left : Expr) (s : List Token) {before : List Token}
    (first : Chain level before left) :
    (chainTail eof level left s).Reads s fun ts e _ => Chain level (before ++ ts) e := by
  have alone : Chain level (before ++ []) left := by
    rw [List.append_nil]
    exact first
  rw [chainTail.eq_def]
  split
  · exact .nothing alone
  · rename_i operator rest
    split
    · rename_i applied
      have := level.rank_le
      refine ((operand_reads level rest).extend fun ts right rest _ last => ?_).within.after
      have longer := chainTail_reads level _ rest (.joined first applied last)
      refine longer.mono fun us e _ chained => ?_
      rw [← List.cons_append, ← List.append_assoc]
      exact chained
    · exact .nothing alone
termination_by 32 * s.length + 16
decreasing_by all_goals (subst_vars; simp only [List.length_cons]; omega)

theorem operand_reads (level : Level) (s : List Token) :
    (operand eof level s).Reads s fun ts e _ => Operand level ts e := by
  rw [operand.eq_def]
  split
  · rename_i next tighter
    have := Level.rank_of_tighter? tighter
    exact (chain_reads next s).mono fun ts e _ => .chain (operation_eq level ▸ tighter)
  · rename_i tightest
    exact (unary_reads s).mono fun ts e _ => .unary (operation_eq level ▸ tightest)
termination_by 32 * s.length + 3 + 2 * level.rank

theorem unary_reads (s : List Token) : (unary eof s).Reads s fun ts e _ => Unary ts e := by
  rw [unary.eq_def]
  split
  · exact (call_reads []).mono fun ts e _ => .call
  · rename_i operator rest
    split
    · rename_i sign
      exact ((unary_reads rest).map fun ts e _ => .operator sign).after
    · exact (call_reads (operator :: rest)).mono fun ts e _ => .call
termination_by 32 * s.length + 2

theorem call_reads (s : List Token) : (call eof s).Reads s fun ts e _ => Call ts e := by
  rw [call]
  exact (primary_reads s).extend fun ts callee rest _ atom =>
    callTail_reads callee rest (.primary atom)
termination_by 32 * s.length + 1

theorem callTail_reads (left : Expr) (s : List Token) {before : List Token}
    (first : Call before left) :
    (callTail eof left s).Reads s fun ts e _ => Call (before ++ ts) e := by
  have alone : Call (before ++ []) left := by
    rw [List.append_nil]
    exact first
  rw [callTail.eq_def]
  split
  · exact .nothing alone
  · rename_i token rest
    split
    · rename_i opens
      refine ((arguments_reads rest).extend fun ts given rest _ read => ?_).within.after
      obtain ⟨us, listed, few, rfl, closes⟩ := read
      refine (callTail_reads _ rest (.call first opens listed few closes)).mono fun vs e _ called => ?_
      simpa using called
    · split
      · rename_i dotted
        refine ((expect_reads eof _ _ rest).extend fun ts name rest _ read => ?_).within.after
        obtain ⟨rfl, named⟩ := read
        refine (callTail_reads _ rest (.get first dotted named)).mono fun vs e _ called => ?_
        simpa using called
      · exact .nothing alone
termination_by 32 * s.length + 16
decreasing_by all_goals (subst_vars; simp only [List.length_cons]; omega)

theorem arguments_reads (s : List Token) :
    (arguments eof s).Reads s fun ts given _ => ∃ us, Arguments us given.1 ∧
      given.1.length ≤ maxArity ∧ ts = us ++ [given.2] ∧ given.2.kind = .rightParen := by
  have listed {s : List Token} (reads : (argumentList eof 0 s).Reads s fun ts given _ => ∃ us,
      ArgumentList us given.1 ∧ 0 + given.1.length ≤ maxArity ∧ ts = us ++ [given.2] ∧
        given.2.kind = .rightParen) :
      (argumentList eof 0 s).Reads s fun ts given _ => ∃ us, Arguments us given.1 ∧
        given.1.length ≤ maxArity ∧ ts = us ++ [given.2] ∧ given.2.kind = .rightParen :=
    reads.mono fun ts given _ ⟨us, list, few, rest⟩ =>
      ⟨us, .some list, by rwa [Nat.zero_add] at few, rest⟩
  rw [arguments.eq_def]
  split
  · exact listed (argumentList_reads 0 [])
  · rename_i paren rest
    split
    · rename_i closes
      exact .token ⟨[], .none, Nat.zero_le _, rfl, closes⟩
    · exact listed (argumentList_reads 0 (paren :: rest))
termination_by 32 * s.length + 17

theorem argumentList_reads (count : Nat) (s : List Token) :
    (argumentList eof count s).Reads s fun ts given _ => ∃ us, ArgumentList us given.1 ∧
      count + given.1.length ≤ maxArity ∧ ts = us ++ [given.2] ∧ given.2.kind = .rightParen := by
  rw [argumentList]
  have first : ((expression eof s).noting (arityErrors eof count .tooManyArguments s)).Reads s
      fun ts e _ => Expression ts e ∧ count < maxArity := .noting fun none =>
    (expression_reads s).mono fun ts e _ given => ⟨given, few_of_arityErrors eof none⟩
  refine first.bind fun ts argument rest lt ⟨given, few⟩ => ?_
  have alone (rest : List Token) : ((expect eof .rightParen .argumentsEnd rest).map
      fun paren => ([argument], paren)).Reads rest fun vs given _ => ∃ us,
        ArgumentList us given.1 ∧ count + given.1.length ≤ maxArity ∧
          ts ++ vs = us ++ [given.2] ∧ given.2.kind = .rightParen :=
    (expect_reads eof _ _ rest).map fun vs paren _ ⟨same, closes⟩ =>
      ⟨ts, .one given, few, by rw [same], closes⟩
  split
  · exact alone []
  · rename_i comma more _
    split
    · rename_i separated
      refine ((argumentList_reads (count + 1) more).map fun vs list _ read => ?_).after
      obtain ⟨us, others, room, rfl, closes⟩ := read
      refine ⟨ts ++ comma :: us, .more given separated others, ?_, by simp, closes⟩
      rw [List.length_cons]
      omega
    · exact alone (comma :: more)
termination_by 32 * s.length + 16
decreasing_by
  · omega
  · subst_vars
    simp only [List.length_cons] at lt
    omega

theorem primary_reads (s : List Token) :
    (primary eof s).Reads s fun ts e _ => Primary ts e := by
  rw [primary.eq_def]
  split
  · trivial
  · rename_i token rest
    split
    iterate 5
      split
      · rename_i found
        exact .token (primary_of_constant? found)
      · trivial
    · rename_i kind
      refine ((expect_reads eof _ _ rest).bind fun ts dot rest _ read => ?_).after
      obtain ⟨rfl, dotted⟩ := read
      refine (expect_reads eof _ _ rest).map fun us method _ read => ?_
      obtain ⟨rfl, named⟩ := read
      exact .super kind dotted named
    · rename_i kind
      exact .token (.this kind)
    · rename_i kind
      exact .token (.variable kind)
    · rename_i opens
      refine ((expression_reads rest).bind fun ts inner rest _ within => ?_).after
      refine (expect_reads eof _ _ rest).map fun us closing _ read => ?_
      obtain ⟨rfl, closes⟩ := read
      exact .grouping opens within closes
    · trivial
termination_by 32 * s.length

end

theorem expression_nil : expression eof [] = .error ⟨.expression, eof⟩ [] [] (Nat.le_refl _) := by
  simp only [expression, chain, operand, Level.tighter?, unary, call, primary, Parsed.extend]

theorem expressionEnding_reads (cause : SyntaxError.Cause) (s : List Token) :
    (expressionEnding eof cause s).Reads s fun ts e _ => ∃ us semicolon, ts = us ++ [semicolon] ∧
      Expression us e ∧ semicolon.kind = .semicolon := by
  unfold expressionEnding
  refine (expression_reads eof s).bind fun us value rest _ given => ?_
  refine (expect_reads eof _ _ rest).map fun ts semicolon _ read => ?_
  obtain ⟨rfl, ends⟩ := read
  exact ⟨us, semicolon, rfl, given, ends⟩

theorem optionalExpression_reads (kind : TokenKind) (cause : SyntaxError.Cause) (s : List Token) :
    (optionalExpression eof kind cause s).Reads s fun ts e? _ => ∃ us finish, ts = us ++ [finish] ∧
      Optional us e? ∧ finish.kind = kind := by
  unfold optionalExpression
  split
  · rw [expression_nil]
    trivial
  · rename_i token rest
    split
    · rename_i ends
      exact .token ⟨[], token, rfl, .none, ends⟩
    · refine (expression_reads eof _).bind fun us value rest _ given => ?_
      refine (expect_reads eof _ _ rest).map fun ts finish _ read => ?_
      obtain ⟨rfl, ends⟩ := read
      exact ⟨us, finish, rfl, .some given, ends⟩

theorem varDeclaration_reads {keyword : Token} (kind : keyword.kind = .varWord) (s : List Token) :
    (varDeclaration eof s).Reads s fun ts declared _ => Variable (keyword :: ts) declared := by
  unfold varDeclaration
  refine (expect_reads eof _ _ s).bind fun ts name rest _ read => ?_
  obtain ⟨rfl, named⟩ := read
  have bare (rest : List Token) : ((expect eof .semicolon .variableEnd rest).map
      fun _ => Stmt.varDecl name none).Reads rest fun us declared _ =>
        Variable (keyword :: ([name] ++ us)) declared :=
    (expect_reads eof _ _ rest).map fun us semicolon _ ⟨same, ends⟩ =>
      same ▸ .bare kind named ends
  split
  · exact bare []
  · split
    · rename_i assigns
      refine ((expressionEnding_reads eof _ _).map fun us value _ read => ?_).after
      obtain ⟨ts, semicolon, rfl, given, ends⟩ := read
      exact .initialized kind named assigns given ends
    · exact bare _

theorem parameterList_reads (count : Nat) (s : List Token) :
    (parameterList eof count s).Reads s fun ts params _ => ∃ us paren, ts = us ++ [paren] ∧
      ParameterList us params ∧ count + params.length ≤ maxArity ∧ paren.kind = .rightParen := by
  rw [parameterList]
  have first : ((expect eof .identifier .parameterName s).noting
      (arityErrors eof count .tooManyParameters s)).Reads s
      fun ts param _ => ts = [param] ∧ param.kind = .identifier ∧ count < maxArity := .noting
    fun none => (expect_reads eof _ _ s).mono fun ts param _ ⟨taken, named⟩ =>
      ⟨taken, named, few_of_arityErrors eof none⟩
  refine first.bind fun ts param rest lt read => ?_
  obtain ⟨rfl, named, few⟩ := read
  have alone (rest : List Token) : ((expect eof .rightParen .parametersEnd rest).map
      fun _ => [param]).Reads rest fun vs params _ => ∃ us paren, [param] ++ vs = us ++ [paren] ∧
        ParameterList us params ∧ count + params.length ≤ maxArity ∧ paren.kind = .rightParen :=
    (expect_reads eof _ _ rest).map fun vs paren _ ⟨same, closes⟩ =>
      ⟨[param], paren, by rw [same], .one named, few, closes⟩
  split
  · exact alone []
  · rename_i comma more _
    split
    · rename_i separated
      refine ((parameterList_reads (count + 1) more).map fun vs params _ read => ?_).after
      obtain ⟨us, paren, rfl, others, room, closes⟩ := read
      refine ⟨param :: comma :: us, paren, rfl, .more named separated others, ?_, closes⟩
      rw [List.length_cons]
      omega
    · exact alone (comma :: more)
termination_by s.length
decreasing_by
  subst_vars
  simp only [List.length_cons] at lt
  omega

theorem parameters_reads (s : List Token) :
    (parameters eof s).Reads s fun ts params _ => ∃ us paren, ts = us ++ [paren] ∧
      Parameters us params ∧ params.length ≤ maxArity ∧ paren.kind = .rightParen := by
  have listed (s : List Token) : (parameterList eof 0 s).Reads s fun ts params _ => ∃ us paren,
      ts = us ++ [paren] ∧ Parameters us params ∧ params.length ≤ maxArity ∧
        paren.kind = .rightParen :=
    (parameterList_reads eof 0 s).mono fun ts params _ ⟨us, paren, whole, given, few, closes⟩ =>
      ⟨us, paren, whole, .some given, by rwa [Nat.zero_add] at few, closes⟩
  unfold parameters
  split
  · exact listed []
  · rename_i paren rest
    split
    · rename_i closes
      exact .token ⟨[], paren, rfl, .none, Nat.zero_le _, closes⟩
    · exact listed (paren :: rest)

theorem forInitializer_reads (s : List Token) :
    (forInitializer eof s).Reads s fun ts initializer? _ => Initializer ts initializer? := by
  have plain (s : List Token) : ((expressionEnding eof .expressionStatementEnd s).map
      fun value => some (Stmt.expression value)).Reads s fun ts initializer? _ =>
        Initializer ts initializer? :=
    (expressionEnding_reads eof _ s).map fun ts value _ ⟨us, semicolon, whole, given, ends⟩ =>
      whole ▸ .expression given ends
  unfold forInitializer
  split
  · exact plain []
  · rename_i token rest
    split
    · rename_i ends
      exact .token (.none ends)
    · split
      · rename_i kind
        exact ((varDeclaration_reads eof kind rest).map fun ts s _ => .variable).after
      · exact plain (token :: rest)

theorem parenthesized_reads (start finish : SyntaxError.Cause) (s : List Token) :
    (parenthesized eof start finish s).Reads s fun ts e _ => ∃ opening us closing,
      ts = opening :: (us ++ [closing]) ∧ opening.kind = .leftParen ∧ Expression us e ∧
        closing.kind = .rightParen := by
  unfold parenthesized
  refine (expect_reads eof _ _ s).bind fun ts opening rest _ read => ?_
  obtain ⟨rfl, opens⟩ := read
  refine (expression_reads eof rest).bind fun us condition rest _ given => ?_
  refine (expect_reads eof _ _ rest).map fun ts closing _ read => ?_
  obtain ⟨rfl, closes⟩ := read
  exact ⟨opening, us, closing, rfl, opens, given, closes⟩

/-- What a statement reads: after one that is left dangling there is no alternative. -/
def Whole (nearest : Prop) (ts : List Token) (s : Stmt) (rest : List Token) : Prop :=
  ∃ dangling, Statement nearest dangling ts s ∧
    (dangling = true → ∀ token ∈ rest.head?, token.kind ≠ .elseWord)

variable (nearest : Prop)

mutual

theorem declaration_reads (s : List Token) :
    (declaration eof s).Reads s fun ts s _ => Declaration nearest ts s := by
  have plain {s : List Token} (reads : (statement eof s).Reads s (Whole nearest)) :
      (statement eof s).Reads s fun ts s _ => Declaration nearest ts s :=
    reads.mono fun ts s _ ⟨_, whole, _⟩ => .statement whole
  rw [declaration.eq_def]
  split
  · exact plain (statement_reads [])
  · rename_i token rest
    split
    · rename_i kind
      exact (classDeclaration_reads kind rest).after
    · rename_i kind
      exact ((function_reads .function rest).map fun ts declaration _ => .function kind).after
    · rename_i kind
      exact ((varDeclaration_reads eof kind rest).mono fun ts s _ => .variable).after
    · exact plain (statement_reads _)
termination_by 16 * s.length + 1

theorem classDeclaration_reads {keyword : Token} (kind : keyword.kind = .classWord)
    (s : List Token) : (classDeclaration eof s).Reads s fun ts declared _ =>
      Declaration nearest (keyword :: ts) declared := by
  rw [classDeclaration]
  refine (expect_reads eof _ _ s).bind fun ts name rest lt read => ?_
  obtain ⟨rfl, named⟩ := read
  have alone {rest : List Token} (reads : (classBody eof rest).Reads rest fun ts methods _ =>
      ∃ opening us closing, ts = opening :: (us ++ [closing]) ∧ opening.kind = .leftBrace ∧
        Methods nearest us methods ∧ closing.kind = .rightBrace) :
      ((classBody eof rest).map (Stmt.classDecl name none)).Reads rest fun us declared _ =>
        Declaration nearest (keyword :: ([name] ++ us)) declared :=
    reads.map fun ts methods _ ⟨opening, us, closing, whole, opens, inside, closes⟩ =>
      whole ▸ .class kind named opens inside closes
  split
  · exact alone (classBody_reads [])
  · rename_i less more _
    split
    · rename_i extends'
      refine ((expect_reads eof _ _ more).bind fun ts superclass rest _ read => ?_).after
      obtain ⟨rfl, above⟩ := read
      refine (classBody_reads rest).map fun ts methods _ read => ?_
      obtain ⟨opening, us, closing, rfl, opens, inside, closes⟩ := read
      exact .subclass kind named extends' above opens inside closes
    · exact alone (classBody_reads _)
termination_by 16 * s.length + 1
decreasing_by all_goals subst_vars; simp only [List.length_cons, List.length_nil] at *; omega

theorem classBody_reads (s : List Token) :
    (classBody eof s).Reads s fun ts methods _ => ∃ opening us closing,
      ts = opening :: (us ++ [closing]) ∧ opening.kind = .leftBrace ∧
        Methods nearest us methods ∧ closing.kind = .rightBrace := by
  rw [classBody]
  refine (expect_reads eof _ _ s).bind fun ts opening rest _ read => ?_
  obtain ⟨rfl, opens⟩ := read
  refine (methods_reads rest).mono fun ts methods _ read => ?_
  obtain ⟨us, closing, rfl, inside, closes⟩ := read
  exact ⟨opening, us, closing, rfl, opens, inside, closes⟩
termination_by 16 * s.length

theorem methods_reads (s : List Token) :
    (methods eof s).Reads s fun ts methods _ => ∃ us closing, ts = us ++ [closing] ∧
      Methods nearest us methods ∧ closing.kind = .rightBrace := by
  rw [methods.eq_def]
  split
  · trivial
  · rename_i token rest
    split
    · rename_i closes
      exact .token ⟨[], token, rfl, .nil, closes⟩
    · refine (function_reads .method _).bind fun ts method rest lt first => ?_
      refine (methods_reads rest).map fun vs methods _ read => ?_
      obtain ⟨us, closing, rfl, others, closes⟩ := read
      exact ⟨ts ++ us, closing, (List.append_assoc ..).symm, .cons first others, closes⟩
termination_by 16 * s.length + 1
decreasing_by all_goals subst_vars; simp only [List.length_cons] at *; omega

theorem function_reads (kind : CallableKind) (s : List Token) :
    (function eof kind s).Reads s fun ts declaration _ => Function nearest ts declaration := by
  rw [function]
  refine (expect_reads eof _ _ s).bind fun ts name rest _ read => ?_
  obtain ⟨rfl, named⟩ := read
  refine (expect_reads eof _ _ rest).bind fun ts opening rest _ read => ?_
  obtain ⟨rfl, opens⟩ := read
  refine (parameters_reads eof rest).bind fun ts params rest _ read => ?_
  obtain ⟨ps, closing, rfl, given, few, closes⟩ := read
  refine (expect_reads eof _ _ rest).bind fun ts brace rest _ read => ?_
  obtain ⟨rfl, starts⟩ := read
  refine (block_reads rest).map fun ts body _ read => ?_
  obtain ⟨us, finish, rfl, inside, finishes⟩ := read
  simpa using Function.mk named opens given few closes starts inside finishes
termination_by 16 * s.length

theorem statement_reads (s : List Token) : (statement eof s).Reads s (Whole nearest) := by
  have plain (s : List Token) : ((expressionEnding eof .expressionStatementEnd s).map
      Stmt.expression).Reads s (Whole nearest) :=
    (expressionEnding_reads eof _ s).map fun ts value _ ⟨us, semicolon, whole, given, ends⟩ =>
      ⟨false, whole ▸ .expression given ends, nofun⟩
  rw [statement.eq_def]
  split
  · exact plain []
  · rename_i token rest
    split
    · rename_i kind
      exact (forStatement_reads kind rest).after
    · rename_i kind
      exact (ifStatement_reads kind rest).after
    · rename_i kind
      refine ((expressionEnding_reads eof _ rest).map fun ts value _ read => ?_).after
      obtain ⟨us, semicolon, rfl, given, ends⟩ := read
      exact ⟨false, .print kind given ends, nofun⟩
    · rename_i kind
      refine ((optionalExpression_reads eof _ _ rest).map fun ts value? _ read => ?_).after
      obtain ⟨us, semicolon, rfl, given, ends⟩ := read
      exact ⟨false, .returns kind given ends, nofun⟩
    · rename_i kind
      refine ((parenthesized_reads eof _ _ rest).bind fun ts condition rest _ read => ?_).after
      obtain ⟨opening, us, closing, rfl, opens, tested, closes⟩ := read
      refine (statement_reads rest).map fun vs body _ ⟨dangling, repeated, follow⟩ => ?_
      refine ⟨dangling, ?_, follow⟩
      simpa using Statement.loop kind opens tested closes repeated
    · rename_i opens
      refine ((block_reads rest).map fun ts body _ read => ?_).after
      obtain ⟨us, closing, rfl, inside, closes⟩ := read
      exact ⟨false, .block opens inside closes, nofun⟩
    · exact plain (token :: rest)
termination_by 16 * s.length
decreasing_by all_goals subst_vars; simp only [List.length_cons]; omega

theorem forStatement_reads {keyword : Token} (kind : keyword.kind = .forWord) (s : List Token) :
    (forStatement eof s).Reads s fun ts => Whole nearest (keyword :: ts) := by
  rw [forStatement]
  refine (expect_reads eof _ _ s).bind fun ts opening rest _ read => ?_
  obtain ⟨rfl, opens⟩ := read
  refine (forInitializer_reads eof rest).bind fun is initializer? rest _ initial => ?_
  refine (optionalExpression_reads eof _ _ rest).bind fun ts condition? rest _ read => ?_
  obtain ⟨cs, semicolon, rfl, tested, ends⟩ := read
  refine (optionalExpression_reads eof _ _ rest).bind fun ts increment? rest _ read => ?_
  obtain ⟨ns, closing, rfl, counted, closes⟩ := read
  refine (statement_reads rest).map fun us body _ ⟨dangling, repeated, follow⟩ => ?_
  refine ⟨dangling, ?_, follow⟩
  rw [forLoop_eq]
  simpa using Statement.forLoop kind opens initial tested ends counted closes repeated
termination_by 16 * s.length

theorem ifStatement_reads {keyword : Token} (kind : keyword.kind = .ifWord) (s : List Token) :
    (ifStatement eof s).Reads s fun ts => Whole nearest (keyword :: ts) := by
  rw [ifStatement]
  refine (parenthesized_reads eof _ _ s).bind fun ts condition rest _ read => ?_
  obtain ⟨opening, us, closing, rfl, opens, tested, closes⟩ := read
  refine (statement_reads rest).extend fun vs thenBranch rest _ ⟨inner, first, follow⟩ => ?_
  refine (elseBranch_reads rest).map fun ws elseBranch? rest' read => ?_
  rcases read with ⟨rfl, rfl, none⟩ | ⟨word, us', elseBranch, here, rfl, otherwise, rfl, second⟩
  · refine ⟨true, ?_, fun _ => none⟩
    simpa using Statement.branch kind opens tested closes first
  · obtain ⟨dangling, second, follow'⟩ := second
    have whole : inner = false := by
      cases inner with
      | false => rfl
      | true => exact absurd otherwise (follow rfl word here)
    refine ⟨dangling, ?_, follow'⟩
    simpa using Statement.choice kind opens tested closes first (fun _ => whole) otherwise second
termination_by 16 * s.length

theorem elseBranch_reads (s : List Token) :
    (elseBranch eof s).Reads s fun ts elseBranch? rest =>
      (ts = [] ∧ elseBranch? = none ∧ ∀ token ∈ rest.head?, token.kind ≠ .elseWord) ∨
      ∃ word us elseBranch, s.head? = some word ∧ ts = word :: us ∧ word.kind = .elseWord ∧
        elseBranch? = some elseBranch ∧ Whole nearest us elseBranch rest := by
  rw [elseBranch.eq_def]
  split
  · exact .nothing (.inl ⟨rfl, rfl, nofun⟩)
  · rename_i word rest
    split
    · rename_i otherwise
      exact ((statement_reads rest).map fun us s _ second =>
        .inr ⟨word, us, s, rfl, rfl, otherwise, rfl, second⟩).within.after
    · rename_i other
      refine .nothing (.inl ⟨rfl, rfl, fun token here => ?_⟩)
      cases here
      exact other
termination_by 16 * s.length

theorem block_reads (s : List Token) :
    (block eof s).Reads s fun ts body _ => ∃ us closing, ts = us ++ [closing] ∧
      Declarations nearest us body ∧ closing.kind = .rightBrace := by
  rw [block.eq_def]
  split
  · trivial
  · rename_i token rest
    split
    · rename_i closes
      exact .token ⟨[], token, rfl, .nil, closes⟩
    · refine (declaration_reads _).recover.bind fun ts s? rest lt read => ?_
      obtain ⟨s, rfl, first⟩ := read
      refine (block_reads rest).map fun vs body _ read => ?_
      obtain ⟨us, closing, rfl, others, closes⟩ := read
      exact ⟨ts ++ us, closing, (List.append_assoc ..).symm, .cons first others, closes⟩
termination_by 16 * s.length + 2

end

/-- Declarations that are read without errors are the program that the tokens make up. -/
theorem declarations_reads (s : List Token) (fine : (declarations eof s).2 = []) :
    Declarations nearest s (declarations eof s).1 := by
  rw [declarations.eq_def] at fine ⊢
  split
  · exact .nil
  · rename_i token rest
    have reads := (declaration_reads eof nearest (token :: rest)).recover (h := Nat.succ_pos _)
    split
    · rename_i s? rest' noted lt read
      rw [read] at reads
      simp only [read, List.append_eq_nil_iff] at fine
      obtain ⟨ts, whole, s, rfl, first⟩ := reads fine.1
      rw [whole]
      exact .cons first (declarations_reads rest' fine.2)
    · rename_i read
      simp [read] at fine
termination_by s.length

/-- What is parsed without errors are declarations of the grammar, up to the end of the tokens. -/
theorem derived_of_parse {tokens : List Token} {program : List Stmt}
    (parsed : parse tokens = .ok program) : ∃ before eof, untilEnd tokens = .ok (before, eof) ∧
      Declarations nearest before program := by
  unfold parse at parsed
  split at parsed
  · cases parsed
  · rename_i before eof ended
    have derived := declarations_reads eof nearest before
    split at parsed
    · rename_i statements read
      cases parsed
      rw [read] at derived
      exact ⟨before, eof, ended, derived rfl⟩
    · cases parsed

theorem derived_of_parseExpression {tokens : List Token} {e : Expr}
    (parsed : parseExpression tokens = .ok e) :
    ∃ before eof, untilEnd tokens = .ok (before, eof) ∧ Expression before e := by
  unfold parseExpression at parsed
  split at parsed
  · cases parsed
  · rename_i before eof ended
    have reads := expression_reads eof before
    cases read : expression eof before with
    | error cause rest noted le =>
      rw [read] at parsed
      cases parsed
    | ok value rest noted lt =>
      rw [read] at parsed reads
      cases rest <;> cases noted <;> cases parsed
      obtain ⟨ts, whole, derived⟩ := reads rfl
      rw [List.append_nil] at whole
      exact ⟨before, eof, ended, whole ▸ derived⟩

end Parse
end Lox
