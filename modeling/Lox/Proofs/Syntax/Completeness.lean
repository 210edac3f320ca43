import Lox.Proofs.Syntax.Grammar

namespace Lox

namespace Parsed

def Gives {α : Type} {n : Nat} (value : α) (rest : List Token) (p : Parsed α n) : Prop :=
  ∃ lt, p = .ok value rest [] lt

variable {α β : Type} {n : Nat} {a : α} {b : β} {rest rest' : List Token} {p : Parsed α n}

theorem Gives.within {m : Nat} {h : n ≤ m} (gives : p.Gives a rest) : (p.within h).Gives a rest := by
  obtain ⟨lt, rfl⟩ := gives
  exact ⟨Nat.lt_of_lt_of_le lt h, rfl⟩

theorem Gives.after (gives : p.Gives a rest) : p.after.Gives a rest := gives.within

theorem Gives.noting {before : List SyntaxError} (none : before = []) (gives : p.Gives a rest) :
    (p.noting before).Gives a rest := by
  obtain ⟨lt, rfl⟩ := gives
  subst none
  exact ⟨lt, rfl⟩

theorem Gives.map (f : α → β) (gives : p.Gives a rest) : (p.map f).Gives (f a) rest := by
  obtain ⟨lt, rfl⟩ := gives
  exact ⟨lt, rfl⟩

theorem Gives.mapNoting {f : α → β × List SyntaxError} (gives : p.Gives a rest)
    (fine : f a = (b, [])) : (p.mapNoting f).Gives b rest := by
  obtain ⟨lt, rfl⟩ := gives
  refine ⟨lt, ?_⟩
  simp only [Parsed.mapNoting, fine, List.append_nil]

theorem Gives.bind {next : α → (rest : List Token) → rest.length < n → Parsed β rest.length}
    (gives : p.Gives a rest) (then' : ∀ lt, (next a rest lt).Gives b rest') :
    (p.bind next).Gives b rest' := by
  obtain ⟨lt, rfl⟩ := gives
  exact (then' lt).within.noting rfl

theorem Gives.extend
    {next : α → (rest : List Token) → rest.length < n → Parsed β (rest.length + 1)}
    (gives : p.Gives a rest) (then' : ∀ lt, (next a rest lt).Gives b rest') :
    (p.extend next).Gives b rest' := by
  obtain ⟨lt, rfl⟩ := gives
  exact (then' lt).within.noting rfl

theorem Gives.recover {h : 0 < n} (gives : p.Gives a rest) :
    (p.recover h).Gives (some a) rest := by
  obtain ⟨lt, rfl⟩ := gives
  exact ⟨lt, rfl⟩

end Parsed

namespace TokenKind

def startsPrimary (kind : TokenKind) : Bool :=
  kind ∈ [falseWord, trueWord, nilWord, number, string, superWord, thisWord, identifier, leftParen]

def startsExpression (kind : TokenKind) : Bool :=
  kind = bang || kind = minus || kind.startsPrimary

def startsBody (kind : TokenKind) : Bool :=
  kind ∈ [forWord, ifWord, printWord, returnWord, whileWord, leftBrace] || kind.startsExpression

def startsDeclaration (kind : TokenKind) : Bool :=
  kind ∈ [classWord, funWord, varWord] || kind.startsBody

/-- How far out an operator of this kind is from the operands to its left: it prolongs all phrases
    that are at least as loose. -/
def looseness : TokenKind → Nat
  | leftParen | dot => 0
  | slash | star => 1
  | minus | plus => 2
  | greater | greaterEqual | less | lessEqual => 3
  | bangEqual | equalEqual => 4
  | andWord => 5
  | orWord => 6
  | equal => 7
  | _ => 8

end TokenKind

/-- The next token prolongs no phrase that is less loose than `n`. -/
def Loose (n : Nat) (s : List Token) : Prop := ∀ token ∈ s.head?, n ≤ token.kind.looseness

theorem Loose.mono {m n : Nat} {s : List Token} (loose : Loose n s) (le : m ≤ n) : Loose m s :=
  fun token here => Nat.le_trans le (loose token here)

theorem loose_cons {n : Nat} {token : Token} {kind : TokenKind} (s : List Token)
    (same : token.kind = kind) (loose : n ≤ kind.looseness) : Loose n (token :: s) := by
  intro other here
  cases here
  rwa [same]

namespace Parse

theorem Level.looseness_of_mem {level : Level} {kind : TokenKind}
    (member : kind ∈ level.operators) : kind.looseness = level.rank + 1 := by
  cases level <;> cases kind <;> revert member <;> decide

end Parse

namespace Grammar

open Parse (Level)

def Starts (kinds : TokenKind → Bool) (ts : List Token) : Prop :=
  ∃ token rest, ts = token :: rest ∧ kinds token.kind = true

variable {ts : List Token} {e : Expr} {kinds : TokenKind → Bool}

theorem Starts.append (starts : Starts kinds ts) (us : List Token) : Starts kinds (ts ++ us) := by
  obtain ⟨token, rest, rfl, kind⟩ := starts
  exact ⟨token, rest ++ us, rfl, kind⟩

theorem starts_cons {token : Token} {rest : List Token} {kind : TokenKind}
    (same : token.kind = kind) (kind' : kinds kind = true) : Starts kinds (token :: rest) :=
  ⟨token, rest, rfl, by rwa [same]⟩

theorem Primary.starts (atom : Primary ts e) : Starts TokenKind.startsPrimary ts := by
  cases atom with
  | literal kind => rcases kind with kind | kind <;> exact starts_cons kind rfl
  | no kind | yes kind | nil kind | super kind | this kind | «variable» kind | grouping kind =>
    exact starts_cons kind rfl

theorem Call.starts {ts : List Token} {e : Expr} :
    Call ts e → Starts TokenKind.startsPrimary ts
  | .primary atom => atom.starts
  | .call called _ _ _ _ => called.starts.append _
  | .get owner _ _ => owner.starts.append _

theorem Unary.starts (single : Unary ts e) : Starts TokenKind.startsExpression ts := by
  cases single with
  | operator sign => rcases sign with sign | sign <;> exact starts_cons sign rfl
  | call called =>
    obtain ⟨token, rest, rfl, kind⟩ := called.starts
    exact ⟨token, rest, rfl, by simp [TokenKind.startsExpression, kind]⟩

mutual

theorem Chain.starts {level : Level} {ts : List Token} {e : Expr} :
    Chain level ts e → Starts TokenKind.startsExpression ts
  | .one single => single.starts
  | .more before _ _ => before.starts.append _

theorem Operand.starts {level : Level} {ts : List Token} {e : Expr} :
    Operand level ts e → Starts TokenKind.startsExpression ts
  | .chain _ chained => chained.starts
  | .unary _ single => single.starts

end

theorem Expression.starts (given : Expression ts e) : Starts TokenKind.startsExpression ts := by
  cases given with
  | assign named => exact starts_cons named rfl
  | set owner => exact (Unary.call owner).starts.append _
  | plain chained => exact chained.starts

theorem ArgumentList.starts {es : List Expr} (given : ArgumentList ts es) :
    Starts TokenKind.startsExpression ts := by
  cases given with
  | one given => exact given.starts
  | more given => exact given.starts.append _

end Grammar

namespace Parse

open Grammar

variable (eof : Token)

theorem expect_gives {kind : TokenKind} {token : Token} (cause : SyntaxError.Cause)
    (rest : List Token) (same : token.kind = kind) :
    (expect eof kind cause (token :: rest)).Gives token rest := by
  rw [expect, if_pos same]
  exact ⟨_, rfl⟩

theorem arityErrors_of_few {count : Nat} (few : count < maxArity) (cause : SyntaxError.Cause)
    (s : List Token) : arityErrors eof count cause s = [] :=
  if_neg (Nat.not_le_of_lt few)

/-- No operator of the level follows. -/
theorem chainTail_gives {level : Level} {s : List Token} (e : Expr)
    (loose : Loose (level.rank + 2) s) : (chainTail eof level e s).Gives e s := by
  rw [chainTail.eq_def]
  split
  · exact ⟨_, rfl⟩
  · rename_i operator rest
    split
    · rename_i applied
      have exact' := Level.looseness_of_mem applied
      have := loose operator rfl
      omega
    · exact ⟨_, rfl⟩

theorem callTail_gives {s : List Token} (e : Expr) (loose : Loose 1 s) :
    (callTail eof e s).Gives e s := by
  rw [callTail.eq_def]
  split
  · exact ⟨_, rfl⟩
  · rename_i token rest
    have := loose token rfl
    split
    · rename_i opens
      rw [opens] at this
      cases this
    · split
      · rename_i dotted
        rw [dotted] at this
        cases this
      · exact ⟨_, rfl⟩

theorem assignment_gives {s : List Token} (e : Expr) (loose : Loose 8 s) :
    (assignment eof e s).Gives e s := by
  rw [assignment.eq_def]
  split
  · exact ⟨_, rfl⟩
  · rename_i equals rest
    have := loose equals rfl
    split
    · rename_i assigns
      rw [assigns] at this
      exact absurd this (by decide)
    · exact ⟨_, rfl⟩

theorem unary_gives {s rest : List Token} {e : Expr} (starts : Starts TokenKind.startsPrimary s)
    (gives : (call eof s).Gives e rest) : (unary eof s).Gives e rest := by
  obtain ⟨token, s, rfl, kind⟩ := starts
  rw [unary, if_neg]
  · exact gives
  · rintro (sign | sign) <;> rw [sign] at kind <;> cases kind

theorem name_gives {name : Token} (rest : List Token) (named : name.kind = .identifier) :
    (primary eof (name :: rest)).Gives (.variable name none) rest := by
  simp only [primary, named]
  exact ⟨_, rfl⟩

theorem literal_gives {token : Token} {value : Literal} (rest : List Token)
    (kind : token.kind = .number ∨ token.kind = .string) (valued : token.literal? = some value) :
    (primary eof (token :: rest)).Gives (.literal (constant value)) rest := by
  have found : constant? token = some (constant value) := by
    unfold constant?
    rw [valued]
    rcases kind with kind | kind <;> rw [kind] <;> cases value <;> rfl
  rcases kind with kind | kind <;> simp only [primary, kind, found] <;> exact ⟨_, rfl⟩

theorem chain_gives {level : Level} {s rest : List Token} {e : Expr}
    (gives : (unary eof s).Gives e rest) (loose : Loose (level.rank + 2) rest) :
    (chain eof level s).Gives e rest := by
  induction rank : level.rank using Nat.strongRecOn generalizing level with
  | ind n ih =>
    rw [chain, operand.eq_def]
    refine .extend ?_ fun _ => chainTail_gives eof e loose
    split
    · rename_i next tighter
      have := Level.rank_of_tighter? tighter
      exact ih next.rank (by omega) (loose.mono (by omega)) rfl
    · exact gives

end Parse

namespace Grammar

open Parse

variable (eof : Token)

mutual

theorem Expression.given {ts : List Token} {e : Expr} : Expression ts e → ∀ rest, Loose 8 rest →
    (expression eof (ts ++ rest)).Gives e rest
  | @Expression.assign name equals ts value named assigns right, rest, loose => by
    have less : Loose 7 (equals :: (ts ++ rest)) := loose_cons _ assigns (by decide)
    have target : (call eof (name :: equals :: (ts ++ rest))).Gives (.variable name none)
        (equals :: (ts ++ rest)) := by
      rw [call]
      exact (name_gives eof _ named).extend fun _ => callTail_gives eof _ (less.mono (by decide))
    have left : (chain eof .or _).Gives _ _ :=
      chain_gives eof (unary_gives eof (starts_cons named rfl) target) less
    rw [expression]
    refine left.extend fun _ => ?_
    rw [assignment, if_pos assigns]
    exact ((right.given rest loose).mapNoting rfl).after.after
  | @Expression.set ts us dot name equals object value owner dotted named assigns right, rest,
      loose => by
    have less : Loose 7 (equals :: (us ++ rest)) := loose_cons _ assigns (by decide)
    have target : (call eof (ts ++ dot :: name :: equals :: (us ++ rest))).Gives
        (.get object name) (equals :: (us ++ rest)) := by
      refine owner.given _ _ _ ?_
      rw [callTail, if_neg (by rw [dotted]; decide), if_pos dotted]
      exact ((expect_gives eof _ _ named).extend fun _ =>
        callTail_gives eof _ (less.mono (by decide))).after.after
    have left : (chain eof .or _).Gives _ _ :=
      chain_gives eof (unary_gives eof (owner.starts.append _) target) less
    rw [expression, List.append_assoc]
    refine left.extend fun _ => ?_
    rw [assignment, if_pos assigns]
    exact ((right.given rest loose).mapNoting rfl).after.after
  | .plain chained, rest, loose => by
    rw [expression]
    exact (chained.given rest _ _ (loose.mono (by decide))
      (chainTail_gives eof _ (loose.mono (by decide)))).extend fun _ => assignment_gives eof _ loose

theorem Chain.given {level : Level} {ts : List Token} {e : Expr} : Chain level ts e →
    ∀ rest v r, Loose (level.rank + 1) rest → (chainTail eof level e rest).Gives v r →
      (chain eof level (ts ++ rest)).Gives v r
  | .one single, rest, v, r, loose, gives => by
    rw [chain]
    exact (single.given rest loose).extend fun _ => gives
  | @Chain.more level ts us operator left right before applied last, rest, v, r, loose, gives => by
    rw [operation_eq] at applied gives
    have less : Loose (level.rank + 1) (operator :: (us ++ rest)) :=
      loose_cons _ rfl (Nat.le_of_eq (Level.looseness_of_mem applied).symm)
    rw [List.append_assoc]
    refine before.given (operator :: (us ++ rest)) v r less ?_
    rw [chainTail, if_pos applied]
    refine ((last.given rest loose).extend fun _ => ?_).after.after
    exact gives

theorem Operand.given {level : Level} {ts : List Token} {e : Expr} : Operand level ts e →
    ∀ rest, Loose (level.rank + 1) rest → (operand eof level (ts ++ rest)).Gives e rest
  | @Operand.chain level next ts e tighter chained, rest, loose => by
    rw [operation_eq] at tighter
    have rank := Level.rank_of_tighter? tighter
    rw [operand.eq_def]
    split
    · rename_i other same
      cases tighter.symm.trans same
      exact chained.given rest e rest (loose.mono (by omega))
        (chainTail_gives eof e (loose.mono (by omega)))
    · rename_i tightest
      cases tighter.symm.trans tightest
  | .unary tightest single, rest, loose => by
    rw [operation_eq] at tightest
    rw [operand.eq_def]
    split
    · rename_i tighter
      cases tightest.symm.trans tighter
    · exact single.given rest (loose.mono (by omega))

theorem Unary.given {ts : List Token} {e : Expr} : Unary ts e → ∀ rest, Loose 1 rest →
    (unary eof (ts ++ rest)).Gives e rest
  | .operator sign operand, rest, loose => by
    rw [List.cons_append, unary, if_pos sign]
    exact ((operand.given rest loose).map _).after
  | .call called, rest, loose =>
    unary_gives eof (called.starts.append rest)
      (called.given rest _ _ (callTail_gives eof _ loose))

theorem Call.given {ts : List Token} {e : Expr} : Call ts e → ∀ rest v r,
    (callTail eof e rest).Gives v r → (call eof (ts ++ rest)).Gives v r
  | .primary atom, rest, v, r, gives => by
    rw [call]
    exact (atom.given rest).extend fun _ => gives
  | @Call.call ts us opening paren callee arguments called opens given few closes, rest, v, r,
      gives => by
    rw [List.append_assoc, List.cons_append, List.append_assoc, List.singleton_append]
    refine called.given (opening :: (us ++ paren :: rest)) v r ?_
    rw [callTail, if_pos opens]
    refine ((given.given paren rest few closes).extend fun _ => ?_).after.after
    exact gives
  | @Call.get ts dot name object owner dotted named, rest, v, r, gives => by
    rw [List.append_assoc]
    refine owner.given (dot :: name :: rest) v r ?_
    rw [callTail, if_neg (by rw [dotted]; decide), if_pos dotted]
    refine ((expect_gives eof _ rest named).extend fun _ => ?_).after.after
    exact gives

theorem Arguments.given {ts : List Token} {es : List Expr} : Arguments ts es →
    ∀ paren rest, es.length ≤ maxArity → paren.kind = .rightParen →
      (arguments eof (ts ++ paren :: rest)).Gives (es, paren) rest
  | .none, paren, rest, few, closes => by
    rw [List.nil_append, arguments, if_pos closes]
    exact ⟨_, rfl⟩
  | .some given, paren, rest, few, closes => by
    have list := given.given 0 paren rest (by omega) closes
    obtain ⟨token, us, same, kind⟩ := given.starts
    rw [same, List.cons_append, arguments, if_neg (by rintro closes; rw [closes] at kind; cases kind)]
    rwa [same] at list

theorem ArgumentList.given {ts : List Token} {es : List Expr} : ArgumentList ts es →
    ∀ count paren rest, count + es.length ≤ maxArity → paren.kind = .rightParen →
      (argumentList eof count (ts ++ paren :: rest)).Gives (es, paren) rest
  | .one given, count, paren, rest, few, closes => by
    have first := given.given (paren :: rest) (loose_cons rest closes (by decide))
    rw [argumentList]
    refine (first.noting (arityErrors_of_few eof few _ _)).bind fun _ => ?_
    simp only [closes, reduceCtorEq, if_false]
    exact (expect_gives eof _ rest closes).map _
  | @ArgumentList.more ts us comma e es given separated others, count, paren, rest, few,
      closes => by
    rw [List.length_cons] at few
    rw [List.append_assoc, List.cons_append]
    have first := given.given (comma :: (us ++ paren :: rest))
      (loose_cons _ separated (by decide))
    rw [argumentList]
    refine (first.noting (arityErrors_of_few eof (by omega) _ _)).bind fun _ => ?_
    simp only [separated, if_true]
    exact ((others.given (count + 1) paren rest (by omega) closes).map _).after

theorem Primary.given {ts : List Token} {e : Expr} : Primary ts e → ∀ rest,
    (primary eof (ts ++ rest)).Gives e rest
  | .no kind, rest | .yes kind, rest | .nil kind, rest => by
    simp only [List.singleton_append, primary, kind, constant?]
    exact ⟨_, rfl⟩
  | .literal kind valued, rest => literal_gives eof rest kind valued
  | .super kind dotted named, rest => by
    simp only [List.cons_append, List.nil_append, primary, kind]
    exact ((expect_gives eof _ _ dotted).bind fun _ => (expect_gives eof _ _ named).map _).after
  | .this kind, rest | .variable kind, rest => by
    simp only [List.singleton_append, primary, kind]
    exact ⟨_, rfl⟩
  | @Primary.grouping opening closing ts inner opens within closes, rest => by
    have inside := within.given (closing :: rest) (loose_cons rest closes (by decide))
    rw [List.cons_append, List.append_assoc, List.singleton_append]
    simp only [primary, opens]
    exact (inside.bind fun _ => (expect_gives eof _ _ closes).map _).after

end

def NoElse (s : List Token) : Prop := ∀ token ∈ s.head?, token.kind ≠ .elseWord

theorem noElse_cons {token : Token} {kind : TokenKind} (s : List Token) (same : token.kind = kind)
    (other : kind ≠ .elseWord) : NoElse (token :: s) := by
  intro first here
  cases here
  rwa [same]

theorem Starts.noElse {s : List Token} (starts : Starts TokenKind.startsDeclaration s) :
    NoElse s := by
  obtain ⟨token, rest, rfl, kind⟩ := starts
  refine noElse_cons rest rfl fun otherwise => ?_
  rw [otherwise] at kind
  cases kind

theorem Starts.mono {kinds kinds' : TokenKind → Bool} {s : List Token} (starts : Starts kinds s)
    (weaker : ∀ kind, kinds kind = true → kinds' kind = true) : Starts kinds' s := by
  obtain ⟨token, rest, same, kind⟩ := starts
  exact ⟨token, rest, same, weaker _ kind⟩

theorem Starts.body {s : List Token} (starts : Starts TokenKind.startsExpression s) :
    Starts TokenKind.startsBody s :=
  starts.mono fun kind starts => by simp [TokenKind.startsBody, starts]

theorem Starts.declaration {s : List Token} (starts : Starts TokenKind.startsBody s) :
    Starts TokenKind.startsDeclaration s :=
  starts.mono fun kind starts => by simp [TokenKind.startsDeclaration, starts]

variable {nearest : Prop} {ts : List Token}

theorem Statement.starts {dangling : Bool} {s : Stmt} (whole : Statement nearest dangling ts s) :
    Starts TokenKind.startsBody ts := by
  cases whole with
  | expression given => exact (given.starts.append _).body
  | print kind | returns kind | loop kind | block kind | forLoop kind | branch kind | choice kind =>
    exact starts_cons kind rfl

theorem Variable.starts {s : Stmt} (declared : Variable ts s) :
    Starts TokenKind.startsDeclaration ts := by
  cases declared with
  | bare kind | initialized kind => exact starts_cons kind rfl

theorem Declaration.starts {s : Stmt} (declared : Declaration nearest ts s) :
    Starts TokenKind.startsDeclaration ts := by
  cases declared with
  | «class» kind | subclass kind | function kind => exact starts_cons kind rfl
  | «variable» declared => exact declared.starts
  | statement whole => exact whole.starts.declaration

theorem Declarations.noElse {ss : List Stmt} {rest : List Token}
    (inside : Declarations nearest ts ss) (after : NoElse rest) : NoElse (ts ++ rest) := by
  cases inside with
  | nil => exact after
  | cons first => exact ((first.starts.append _).append _).noElse

variable (eof : Token)

theorem ending_gives {e : Expr} {semicolon : Token} (cause : SyntaxError.Cause) (rest : List Token)
    (given : Expression ts e) (ends : semicolon.kind = .semicolon) :
    (expressionEnding eof cause (ts ++ semicolon :: rest)).Gives e rest := by
  unfold expressionEnding
  refine (given.given eof _ (loose_cons rest ends (by decide))).bind fun _ => ?_
  exact (expect_gives eof cause rest ends).map _

theorem Optional.given {e? : Option Expr} {finish : Token} {kind : TokenKind}
    (cause : SyntaxError.Cause) (rest : List Token) (given : Optional ts e?)
    (ends : finish.kind = kind) (loose : 8 ≤ kind.looseness)
    (other : kind.startsExpression = false) :
    (optionalExpression eof kind cause (ts ++ finish :: rest)).Gives e? rest := by
  cases given with
  | none =>
    rw [List.nil_append, optionalExpression, if_pos ends]
    exact ⟨_, rfl⟩
  | some given =>
    have inside := given.given eof (finish :: rest) (loose_cons rest ends loose)
    obtain ⟨token, us, same, starts⟩ := given.starts
    rw [same] at inside ⊢
    rw [List.cons_append, optionalExpression, if_neg]
    · refine inside.bind fun _ => ?_
      exact (expect_gives eof cause rest ends).map _
    · intro here
      rw [here, other] at starts
      cases starts

theorem Variable.given {keyword : Token} {s : Stmt} (declared : Variable (keyword :: ts) s)
    (rest : List Token) : (varDeclaration eof (ts ++ rest)).Gives s rest := by
  cases declared with
  | @bare _ name semicolon kind named ends =>
    show (varDeclaration eof (name :: semicolon :: rest)).Gives _ _
    refine (expect_gives eof _ _ named).bind fun _ => ?_
    simp only [ends, reduceCtorEq, if_false]
    exact (expect_gives eof _ _ ends).map _
  | @initialized _ name equals semicolon ts value kind named assigns right ends =>
    rw [List.cons_append, List.cons_append, List.append_assoc, List.singleton_append]
    refine (expect_gives eof _ _ named).bind fun _ => ?_
    simp only [assigns, if_true]
    exact ((ending_gives eof _ rest right ends).map _).after

theorem ParameterList.given {params : List Token} {paren : Token} (rest : List Token)
    (given : ParameterList ts params) (closes : paren.kind = .rightParen) (count : Nat)
    (few : count + params.length ≤ maxArity) :
    (parameterList eof count (ts ++ paren :: rest)).Gives params rest := by
  induction given generalizing count with
  | @one param named =>
    show (parameterList eof count (param :: paren :: rest)).Gives _ _
    rw [parameterList]
    refine ((expect_gives eof _ _ named).noting (arityErrors_of_few eof few _ _)).bind fun _ => ?_
    simp only [closes, reduceCtorEq, if_false]
    exact (expect_gives eof _ _ closes).map _
  | @more param comma ts params named separated others ih =>
    rw [List.length_cons] at few
    show (parameterList eof count (param :: comma :: (ts ++ paren :: rest))).Gives _ _
    rw [parameterList]
    refine ((expect_gives eof _ _ named).noting
      (arityErrors_of_few eof (by omega) _ _)).bind fun _ => ?_
    simp only [separated, if_true]
    exact ((ih (count + 1) (by omega)).map _).after

theorem Parameters.given {params : List Token} {paren : Token} (rest : List Token)
    (given : Parameters ts params) (closes : paren.kind = .rightParen)
    (few : params.length ≤ maxArity) :
    (parameters eof (ts ++ paren :: rest)).Gives params rest := by
  cases given with
  | none =>
    rw [List.nil_append, parameters, if_pos closes]
    exact ⟨_, rfl⟩
  | some given =>
    have list := given.given eof rest closes 0 (by omega)
    cases given with
    | one named | more named =>
      rw [List.cons_append, parameters, if_neg (by rw [named]; decide)]
      exact list

theorem Initializer.given {initializer? : Option Stmt} (rest : List Token)
    (initial : Initializer ts initializer?) :
    (forInitializer eof (ts ++ rest)).Gives initializer? rest := by
  cases initial with
  | none ends =>
    rw [List.singleton_append, forInitializer, if_pos ends]
    exact ⟨_, rfl⟩
  | «variable» declared =>
    obtain ⟨keyword, us, rfl, kind⟩ : ∃ keyword us, ts = keyword :: us ∧ keyword.kind = .varWord := by
      cases declared with
      | bare kind | initialized kind => exact ⟨_, _, rfl, kind⟩
    rw [List.cons_append, forInitializer, if_neg (by rw [kind]; decide), if_pos kind]
    exact ((declared.given eof rest).map _).after
  | @expression ts e semicolon given ends =>
    have inside := ending_gives eof .expressionStatementEnd rest given ends
    obtain ⟨token, us, same, starts⟩ := given.starts
    rw [List.append_assoc, List.singleton_append]
    rw [same] at inside ⊢
    rw [List.cons_append, forInitializer, if_neg, if_neg]
    · exact inside.map _
    · intro kind
      rw [kind] at starts
      cases starts
    · intro kind
      rw [kind] at starts
      cases starts

theorem parenthesized_gives {opening closing : Token} {condition : Expr}
    (start finish : SyntaxError.Cause) (rest : List Token) (opens : opening.kind = .leftParen)
    (tested : Expression ts condition) (closes : closing.kind = .rightParen) :
    (parenthesized eof start finish (opening :: (ts ++ closing :: rest))).Gives condition rest := by
  unfold parenthesized
  refine (expect_gives eof _ _ opens).bind fun _ => ?_
  refine (tested.given eof _ (loose_cons rest closes (by decide))).bind fun _ => ?_
  exact (expect_gives eof _ rest closes).map _

/-- A statement that starts with an expression. -/
theorem statement_gives {s : List Token} {e : Expr} {rest : List Token}
    (starts : Starts TokenKind.startsExpression s)
    (gives : (expressionEnding eof .expressionStatementEnd s).Gives e rest) :
    (statement eof s).Gives (.expression e) rest := by
  obtain ⟨token, us, rfl, kind⟩ := starts
  rw [statement.eq_def]
  simp only
  split
  iterate 6
    rename_i other
    rw [other] at kind
    cases kind
  exact gives.map _

theorem declaration_gives {s : List Token} {whole : Stmt} {rest : List Token}
    (starts : Starts TokenKind.startsBody s) (gives : (statement eof s).Gives whole rest) :
    (declaration eof s).Gives whole rest := by
  obtain ⟨token, us, rfl, kind⟩ := starts
  rw [declaration.eq_def]
  simp only
  split
  iterate 3
    rename_i other
    rw [other] at kind
    cases kind
  exact gives

theorem elseBranch_gives_none {s : List Token} (after : NoElse s) :
    (elseBranch eof s).Gives none s := by
  rw [elseBranch.eq_def]
  split
  · exact ⟨_, rfl⟩
  · rename_i token rest
    rw [if_neg (after token rfl)]
    exact ⟨_, rfl⟩

theorem classBody_gives {opening : Token} {s : List Token} {methods : List FunctionDecl}
    {rest : List Token} (opens : opening.kind = .leftBrace)
    (gives : (Parse.methods eof s).Gives methods rest) :
    (classBody eof (opening :: s)).Gives methods rest := by
  rw [classBody]
  exact (expect_gives eof _ _ opens).bind fun _ => gives

mutual

theorem Declaration.given {ts : List Token} {s : Stmt} : Declaration True ts s → ∀ rest,
    NoElse rest → (declaration eof (ts ++ rest)).Gives s rest
  | @Declaration.class _ keyword name opening closing ts methods kind named opens inside closes,
      rest, after => by
    have body := classBody_gives eof opens (inside.given closing rest closes)
    rw [List.cons_append, List.cons_append, List.cons_append, List.append_assoc,
      List.singleton_append]
    rw [declaration]
    simp only [kind]
    rw [classDeclaration]
    refine ((expect_gives eof _ _ named).bind fun _ => ?_).after
    simp only [opens, reduceCtorEq, if_false]
    exact body.map _
  | @Declaration.subclass _ keyword name less superclass opening closing ts methods kind named
      extends' above opens inside closes, rest, after => by
    have body := classBody_gives eof opens (inside.given closing rest closes)
    rw [List.cons_append, List.cons_append, List.cons_append, List.cons_append, List.cons_append,
      List.append_assoc, List.singleton_append]
    rw [declaration]
    simp only [kind]
    rw [classDeclaration]
    refine ((expect_gives eof _ _ named).bind fun _ => ?_).after
    simp only [extends', if_true]
    exact ((expect_gives eof _ _ above).bind fun _ => body.map _).after
  | .function kind declared, rest, after => by
    rw [List.cons_append, declaration]
    simp only [kind]
    exact ((declared.given .function rest).map _).after
  | .variable declared, rest, after => by
    obtain ⟨keyword, us, rfl, kind⟩ : ∃ keyword us, ts = keyword :: us ∧ keyword.kind = .varWord := by
      cases declared with
      | bare kind | initialized kind => exact ⟨_, _, rfl, kind⟩
    rw [List.cons_append, declaration]
    simp only [kind]
    exact (declared.given eof rest).after
  | .statement whole, rest, after =>
    declaration_gives eof (whole.starts.append rest) (whole.given rest fun _ => after)

theorem Declarations.given {ts : List Token} {ss : List Stmt} : Declarations True ts ss →
    ∀ closing rest, closing.kind = .rightBrace →
      (block eof (ts ++ closing :: rest)).Gives ss rest
  | .nil, closing, rest, closes => by
    rw [List.nil_append, block, if_pos closes]
    exact ⟨_, rfl⟩
  | @Declarations.cons _ ts us s ss first others, closing, rest, closes => by
    have after : NoElse (us ++ closing :: rest) :=
      others.noElse (noElse_cons rest closes (by decide))
    have here := first.given (us ++ closing :: rest) after
    have later := others.given closing rest closes
    obtain ⟨token, ts', same, kind⟩ := first.starts
    rw [List.append_assoc]
    rw [same] at here ⊢
    rw [List.cons_append, block, if_neg]
    · exact here.recover.bind fun _ => later.map _
    · intro closes
      rw [closes] at kind
      cases kind

theorem Methods.given {ts : List Token} {methods : List FunctionDecl} : Methods True ts methods →
    ∀ closing rest, closing.kind = .rightBrace →
      (Parse.methods eof (ts ++ closing :: rest)).Gives methods rest
  | .nil, closing, rest, closes => by
    rw [List.nil_append, Parse.methods, if_pos closes]
    exact ⟨_, rfl⟩
  | @Methods.cons _ ts us method methods first others, closing, rest, closes => by
    have here := first.given .method (us ++ closing :: rest)
    have later := others.given closing rest closes
    obtain ⟨name, ts', same, named⟩ : ∃ name ts', ts = name :: ts' ∧ name.kind = .identifier := by
      cases first with
      | mk named => exact ⟨_, _, rfl, named⟩
    rw [List.append_assoc]
    rw [same] at here ⊢
    rw [List.cons_append, Parse.methods, if_neg (by rw [named]; decide)]
    exact here.bind fun _ => later.map _

theorem Function.given {ts : List Token} {declaration : FunctionDecl} :
    Function True ts declaration → ∀ kind rest, (function eof kind (ts ++ rest)).Gives declaration rest
  | @Function.mk _ name opening closing brace finish ps ts params body named opens given few closes
      starts inside finishes, kind, rest => by
    have body := inside.given finish rest finishes
    rw [List.cons_append, List.cons_append, List.append_assoc, List.cons_append, List.cons_append,
      List.append_assoc, List.singleton_append]
    rw [function]
    refine (expect_gives eof _ _ named).bind fun _ => ?_
    refine (expect_gives eof _ _ opens).bind fun _ => ?_
    refine (given.given eof _ closes few).bind fun _ => ?_
    refine (expect_gives eof _ _ starts).bind fun _ => ?_
    exact body.map _

theorem Statement.given {dangling : Bool} {ts : List Token} {s : Stmt} :
    Statement True dangling ts s → ∀ rest, (dangling = true → NoElse rest) →
      (statement eof (ts ++ rest)).Gives s rest
  | @Statement.expression _ ts semicolon value given ends, rest, after => by
    rw [List.append_assoc]
    exact statement_gives eof (given.starts.append _) (ending_gives eof _ rest given ends)
  | .print kind given ends, rest, after => by
    rw [List.cons_append, List.append_assoc, List.singleton_append]
    rw [statement]
    simp only [kind]
    exact ((ending_gives eof _ rest given ends).map _).after
  | .returns kind given ends, rest, after => by
    rw [List.cons_append, List.append_assoc, List.singleton_append]
    rw [statement]
    simp only [kind]
    exact ((given.given eof _ rest ends (by decide) (by decide)).map _).after
  | .loop kind opens tested closes repeated, rest, after => by
    have body := repeated.given rest after
    rw [List.cons_append, List.cons_append, List.append_assoc, List.cons_append]
    rw [statement]
    simp only [kind]
    exact ((parenthesized_gives eof _ _ _ opens tested closes).bind fun _ => body.map _).after
  | @Statement.block _ opening closing ts body opens inside closes, rest, after => by
    have inside := inside.given closing rest closes
    rw [List.cons_append, List.append_assoc, List.singleton_append]
    rw [statement]
    simp only [opens]
    exact (inside.map _).after
  | .forLoop kind opens initial tested ends counted closes repeated, rest, after => by
    have body := repeated.given rest after
    rw [List.cons_append, List.cons_append, List.append_assoc, List.append_assoc, List.cons_append,
      List.append_assoc, List.cons_append]
    rw [statement]
    simp only [kind]
    rw [forStatement]
    refine ((expect_gives eof _ _ opens).bind fun _ => ?_).after
    refine (initial.given eof _).bind fun _ => ?_
    refine (tested.given eof _ _ ends (by decide) (by decide)).bind fun _ => ?_
    refine (counted.given eof _ _ closes (by decide) (by decide)).bind fun _ => ?_
    rw [← forLoop_eq]
    exact body.map _
  | .branch kind opens tested closes first, rest, after => by
    have inside := first.given rest fun _ => after rfl
    rw [List.cons_append, List.cons_append, List.append_assoc, List.cons_append]
    rw [statement]
    simp only [kind]
    rw [ifStatement]
    refine ((parenthesized_gives eof _ _ _ opens tested closes).bind fun _ => ?_).after
    exact inside.extend fun _ => (elseBranch_gives_none eof (after rfl)).map _
  | @Statement.choice _ inner dangling keyword opening closing word ts us vs condition thenBranch
      elseBranch kind opens tested closes first whole otherwise second, rest, after => by
    have inside := first.given (word :: (vs ++ rest)) fun open' => by
      rw [whole trivial] at open'
      cases open'
    have other := second.given rest after
    rw [List.cons_append, List.cons_append, List.append_assoc, List.cons_append, List.append_assoc,
      List.cons_append]
    rw [statement]
    simp only [kind]
    rw [ifStatement]
    refine ((parenthesized_gives eof _ _ _ opens tested closes).bind fun _ => ?_).after
    refine inside.extend fun _ => ?_
    rw [Parse.elseBranch, if_pos otherwise]
    exact ((other.map some).after.after).map _

end

end Grammar
end Lox
