import Lox.Proofs.Scoping.Visibility
import Lox.Proofs.Rewording.Runs
import Lox.Proofs.Renaming.Marks

namespace Lox

open Resolve

namespace Marking

variable (k : Marking)

/-- A scope may bind the name: one that has the mark does not bind what the mark stands for, and the
    others do not bind the mark. -/
def Allows (marked : Bool) (name : String) : Prop := name ≠ if marked then k.name else k.mark

variable {k} {marked : Bool} {name other : String}

/-- What one scope may bind is told apart. -/
theorem meant_inj (here : k.Allows marked name) (there : k.Allows marked other)
    (same : k.meant other = k.meant name) : other = name := by
  unfold Allows at here there
  unfold meant at same
  cases marked <;> split at same <;> split at same <;> simp_all

end Marking

section obeys

variable (k : Marking)

inductive Expr.Obeys : Expr → Prop where
  | literal {value : Constant} : Obeys (.literal value)
  | unary {operator : Token} {right : Expr} (operand : Obeys right) : Obeys (.unary operator right)
  | binary {left right : Expr} {operator : Token} (first : Obeys left) (second : Obeys right) :
      Obeys (.binary left operator right)
  | logical {left right : Expr} {operator : Token} (first : Obeys left) (second : Obeys right) :
      Obeys (.logical left operator right)
  | grouping {inner : Expr} (within : Obeys inner) : Obeys (.grouping inner)
  | variable {name : Token} {distance : Distance}
      (outside : distance = none → k.Allows false name.lexeme) : Obeys (.variable name distance)
  | assign {name : Token} {value : Expr} {distance : Distance} (assigned : Obeys value)
      (outside : distance = none → k.Allows false name.lexeme) :
      Obeys (.assign name value distance)
  | call {callee : Expr} {paren : Token} {arguments : List Expr} (called : Obeys callee)
      (given : ∀ e ∈ arguments, Obeys e) : Obeys (.call callee paren arguments)
  | get {object : Expr} {name : Token} (owner : Obeys object) : Obeys (.get object name)
  | set {object value : Expr} {name : Token} (owner : Obeys object) (assigned : Obeys value) :
      Obeys (.set object name value)
  | this {keyword : Token} {distance : Distance}
      (outside : distance = none → k.Allows false keyword.lexeme) : Obeys (.this keyword distance)
  | super {keyword method : Token} {distance : Distance} : Obeys (.super keyword method distance)

mutual

inductive Stmt.Obeys : Bool → Stmt → Prop where
  | expression {marked : Bool} {value : Expr} (evaluated : value.Obeys k) :
      Stmt.Obeys marked (.expression value)
  | print {marked : Bool} {value : Expr} (printed : value.Obeys k) :
      Stmt.Obeys marked (.print value)
  | varDecl {marked : Bool} {name : Token} {initializer? : Option Expr}
      (allowed : k.Allows marked name.lexeme) (initial : ∀ e ∈ initializer?, e.Obeys k) :
      Stmt.Obeys marked (.varDecl name initializer?)
  | block {marked inner : Bool} {body : List Stmt} (within : ∀ s ∈ body, Stmt.Obeys inner s) :
      Stmt.Obeys marked (.block body)
  | branch {marked : Bool} {condition : Expr} {thenBranch : Stmt} {elseBranch? : Option Stmt}
      (tested : condition.Obeys k) (first : Stmt.Obeys marked thenBranch)
      (second : ∀ s ∈ elseBranch?, Stmt.Obeys marked s) :
      Stmt.Obeys marked (.branch condition thenBranch elseBranch?)
  | loop {marked : Bool} {condition : Expr} {body : Stmt} (tested : condition.Obeys k)
      (repeated : Stmt.Obeys marked body) : Stmt.Obeys marked (.loop condition body)
  | functionDecl {marked : Bool} {declaration : FunctionDecl}
      (allowed : k.Allows marked declaration.name.lexeme)
      (plain : k.Allows false declaration.name.lexeme) (within : FunctionDecl.Obeys declaration) :
      Stmt.Obeys marked (.functionDecl declaration)
  | returns {marked : Bool} {keyword : Token} {value? : Option Expr}
      (returned : ∀ e ∈ value?, e.Obeys k) : Stmt.Obeys marked (.returns keyword value?)
  | classDecl {marked : Bool} {name : Token} {superclass? : Option Expr}
      {methods : List FunctionDecl} (allowed : k.Allows marked name.lexeme)
      (plain : k.Allows false name.lexeme) (above : ∀ e ∈ superclass?, e.Obeys k)
      (within : ∀ method ∈ methods, FunctionDecl.Obeys method) :
      Stmt.Obeys marked (.classDecl name superclass? methods)

inductive FunctionDecl.Obeys : FunctionDecl → Prop where
  | intro {inner : Bool} {name : Token} {params : List Token} {body : List Stmt}
      (named : ∀ param ∈ params, k.Allows inner param.lexeme)
      (within : ∀ s ∈ body, Stmt.Obeys inner s) : FunctionDecl.Obeys (.mk name params body)

end

def Task.Obeys (marked : Bool) : Task → Prop
  | expression e => e.Obeys k
  | expressions es => ∀ e ∈ es, e.Obeys k
  | call _ _ _ | apply _ _ _ => True
  | statement s => s.Obeys k marked
  | statements ss => ∀ s ∈ ss, s.Obeys k marked
  | loop condition body => condition.Obeys k ∧ body.Obeys k marked

variable {k}

theorem Task.Obeys.inner {config : Config} {p q : Point} {marked : Bool}
    (obeys : p.task.Obeys k marked) (inner : Inner config p q) : q.task.Obeys k marked := by
  cases inner with
  | grouping =>
    cases obeys with
    | grouping within => exact within
  | unary =>
    cases obeys with
    | unary operand => exact operand
  | binaryLeft =>
    cases obeys with
    | binary first second => exact first
  | binaryRight _ =>
    cases obeys with
    | binary first second => exact second
  | logicalLeft =>
    cases obeys with
    | logical first second => exact first
  | logicalRight _ _ =>
    cases obeys with
    | logical first second => exact second
  | assigned =>
    cases obeys with
    | assign assigned outside => exact assigned
  | callee =>
    cases obeys with
    | call called given => exact called
  | arguments _ =>
    cases obeys with
    | call called given => exact given
  | getObject =>
    cases obeys with
    | get owner => exact owner
  | setObject =>
    cases obeys with
    | set owner assigned => exact owner
  | setValue _ =>
    cases obeys with
    | set owner assigned => exact assigned
  | head => exact obeys _ List.mem_cons_self
  | tail _ => exact fun e member => obeys e (List.mem_cons_of_mem _ member)
  | call _ _ | function _ _ | initializer _ _ _ => trivial
  | expression =>
    cases obeys with
    | expression evaluated => exact evaluated
  | print =>
    cases obeys with
    | print printed => exact printed
  | condition =>
    cases obeys with
    | branch tested first second => exact tested
  | returned =>
    cases obeys with
    | returns returned => exact returned _ rfl
  | loopCondition => exact obeys.1

end obeys

namespace Marking

variable {k : Marking}

section obeys

variable {old : String}

theorem allows_ite {name : Token} {depth : Nat} {distance : Distance}
    (unmarked : name.lexeme ≠ k.mark) (outside : distance = none) :
    k.Allows false (if distance = some depth then name.renamed old k.mark else name).lexeme := by
  subst outside
  exact unmarked

/-- The name that the mark stands for is not needed for anything else in the scope where statements
    stand: it is the old one or a new one, and no function or class has it. -/
structure Free (k : Marking) (old : String) (names made : List String) : Prop where
  known : k.name = old ∨ k.name ∉ names
  other : k.name ∉ made

theorem Free.part {names made names' made' : List String} (free : k.Free old names made)
    (inside : names' ⊆ names) (inside' : made' ⊆ made) : k.Free old names' made' :=
  ⟨free.known.imp_right fun absent member => absent (inside member),
    fun member => free.other (inside' member)⟩

theorem allows_declared {name : Token} {depth : Nat} (unmarked : name.lexeme ≠ k.mark)
    (known : depth = 0 → k.name = old ∨ k.name ≠ name.lexeme) :
    k.Allows (depth == 0) (if depth = 0 then name.renamed old k.mark else name).lexeme := by
  unfold Allows
  cases depth with
  | succ depth => exact unmarked
  | zero =>
    show (name.renamed old k.mark).lexeme ≠ k.name
    unfold Token.renamed
    split
    · exact k.distinct
    · rename_i other
      rcases known rfl with same | differs
      · exact fun equal => other (equal.trans same)
      · exact differs.symm

theorem allows_made {name : String} {depth : Nat} (unmarked : name ≠ k.mark)
    (other : depth = 0 → k.name ≠ name) : k.Allows (depth == 0) name := by
  unfold Allows
  cases depth with
  | succ depth => exact unmarked
  | zero => exact (other rfl).symm

end obeys

section obeys

variable (old : String)

mutual

theorem expression_obeys (depth : Nat) : (e : Expr) → k.Absent e.names →
    (e.renamed old k.mark depth).Obeys k
  | .literal _, _ => .literal
  | .super _ _ _, _ => .super
  | .unary _ right, absent => .unary (expression_obeys depth right absent)
  | .binary left _ right, absent =>
    .binary (expression_obeys depth left absent.append.1)
      (expression_obeys depth right absent.append.2)
  | .logical left _ right, absent =>
    .logical (expression_obeys depth left absent.append.1)
      (expression_obeys depth right absent.append.2)
  | .grouping inner, absent => .grouping (expression_obeys depth inner absent)
  | .variable _ _, absent => .variable (allows_ite absent.cons.1)
  | .assign _ value _, absent =>
    .assign (expression_obeys depth value absent.cons.2) (allows_ite absent.cons.1)
  | .call callee _ arguments, absent =>
    .call (expression_obeys depth callee absent.append.1)
      (expressions_obey depth arguments absent.append.2)
  | .get object _, absent => .get (expression_obeys depth object absent)
  | .set object _ value, absent =>
    .set (expression_obeys depth object absent.append.1)
      (expression_obeys depth value absent.append.2)
  | .this _ _, absent => .this fun _ => absent.cons.1

theorem expressions_obey (depth : Nat) : (es : List Expr) → k.Absent (Expr.namesAll es) →
    ∀ e ∈ Expr.renamedAll old k.mark depth es, e.Obeys k
  | [], _ => nofun
  | e :: rest, absent =>
    List.forall_mem_cons.mpr ⟨expression_obeys depth e absent.append.1,
      expressions_obey depth rest absent.append.2⟩

end

theorem optional_obeys (depth : Nat) {e? : Option Expr}
    (absent : k.Absent (e?.elim [] Expr.names)) :
    ∀ e ∈ e?.map (Expr.renamed old k.mark depth), e.Obeys k := by
  cases e? with
  | none => exact nofun
  | some e =>
    rintro _ ⟨⟩
    exact expression_obeys old depth e absent

mutual

/-- A statement in which the variable has the mark keeps to what the scopes may bind. The scope with
    the mark is so far out. -/
theorem statement_obeys (depth : Nat) : (s : Stmt) → k.Absent s.names →
    (depth = 0 → k.Free old s.names s.made) → (s.renamed old k.mark depth).Obeys k (depth == 0)
  | .expression value, absent, _ => .expression (expression_obeys old depth value absent)
  | .print value, absent, _ => .print (expression_obeys old depth value absent)
  | .varDecl _ _, absent, free =>
    .varDecl (allows_declared absent.cons.1 fun here =>
      (free here).known.imp_right fun absent => List.ne_of_not_mem_cons absent)
      (optional_obeys old depth absent.cons.2)
  | .block body, absent, _ => .block (statements_obey (depth + 1) body absent nofun)
  | .branch condition thenBranch none, absent, free => by
    obtain ⟨tested, first⟩ := absent.append
    refine .branch (expression_obeys old depth condition tested)
      (statement_obeys depth thenBranch first fun here => ?_) nofun
    exact (free here).part (List.subset_append_right _ _) fun _ member => member
  | .branch condition thenBranch (some elseBranch), absent, free => by
    obtain ⟨before, second⟩ := absent.append
    obtain ⟨tested, first⟩ := before.append
    refine .branch (expression_obeys old depth condition tested)
      (statement_obeys depth thenBranch first fun here => (free here).part ?_ ?_) ?_
    · exact fun _ member => List.mem_append_left _ (List.mem_append_right _ member)
    · exact List.subset_append_left _ _
    · rintro _ ⟨⟩
      refine statement_obeys depth elseBranch second fun here => (free here).part ?_ ?_
      · exact List.subset_append_right _ _
      · exact List.subset_append_right _ _
  | .loop condition body, absent, free => by
    obtain ⟨tested, repeated⟩ := absent.append
    refine .loop (expression_obeys old depth condition tested)
      (statement_obeys depth body repeated fun here => ?_)
    exact (free here).part (List.subset_append_right _ _) fun _ member => member
  | .functionDecl (.mk name params body), absent, free =>
    .functionDecl (allows_made absent.append.1.cons.1 fun here equal =>
        (free here).other (List.mem_singleton.mpr equal))
      absent.append.1.cons.1 (function_obeys depth (.mk name params body) absent)
  | .returns _ _, absent, _ => .returns (optional_obeys old depth absent)
  | .classDecl _ _ methods, absent, free =>
    .classDecl (allows_made absent.append.1.cons.1 fun here equal =>
        (free here).other (List.mem_singleton.mpr equal))
      absent.append.1.cons.1 (optional_obeys old depth absent.append.1.cons.2)
      (functions_obey _ methods absent.append.2)

theorem statements_obey (depth : Nat) : (ss : List Stmt) → k.Absent (Stmt.namesAll ss) →
    (depth = 0 → ∀ s ∈ ss, k.Free old s.names s.made) →
    ∀ s ∈ Stmt.renamedAll old k.mark depth ss, s.Obeys k (depth == 0)
  | [], _, _ => nofun
  | s :: rest, absent, free =>
    List.forall_mem_cons.mpr
      ⟨statement_obeys depth s absent.append.1 fun here => free here s List.mem_cons_self,
        statements_obey depth rest absent.append.2 fun here s member =>
          free here s (List.mem_cons_of_mem _ member)⟩

theorem function_obeys (depth : Nat) : (declaration : FunctionDecl) →
    k.Absent declaration.names → (declaration.renamed old k.mark depth).Obeys k
  | .mk _ params body, absent => by
    have named : ∀ param ∈ params, k.Allows (depth + 1 == 0) param.lexeme := fun param member =>
      absent.append.1.cons.2 _ (List.mem_map_of_mem member)
    exact .intro named (statements_obey (depth + 1) body absent.append.2 nofun)

theorem functions_obey (depth : Nat) : (declarations : List FunctionDecl) →
    k.Absent (FunctionDecl.namesAll declarations) →
    ∀ declaration ∈ FunctionDecl.renamedAll old k.mark depth declarations, declaration.Obeys k
  | [], _ => nofun
  | declaration :: rest, absent =>
    List.forall_mem_cons.mpr ⟨function_obeys depth declaration absent.append.1,
      functions_obey depth rest absent.append.2⟩

end

end obeys

theorem expression_unmarked {e : Expr} (absent : k.Absent e.names) : e.Obeys k := by
  have obeys := expression_obeys k.mark 0 e absent
  rwa [e.renamed_fixed 0 (absent.leaves _)] at obeys

theorem statement_unmarked {s : Stmt} (absent : k.Absent s.names) : s.Obeys k false := by
  have obeys := statement_obeys k.mark 1 s absent nofun
  rwa [s.renamed_fixed 1 (absent.leaves _)] at obeys

theorem statements_unmarked {ss : List Stmt} (absent : k.Absent (Stmt.namesAll ss)) :
    ∀ s ∈ ss, s.Obeys k false := by
  have obeys := statements_obey k.mark 1 ss absent nofun
  rwa [Stmt.renamedAll_fixed 1 ss (absent.leaves _)] at obeys

theorem function_unmarked {declaration : FunctionDecl} (absent : k.Absent declaration.names) :
    declaration.Obeys k := by
  have obeys := function_obeys k.mark 1 declaration absent
  rwa [declaration.renamed_fixed 1 (absent.leaves _)] at obeys

theorem functions_unmarked {declarations : List FunctionDecl}
    (absent : k.Absent (FunctionDecl.namesAll declarations)) :
    ∀ declaration ∈ declarations, declaration.Obeys k := by
  have obeys := functions_obey k.mark 1 declarations absent
  rwa [FunctionDecl.renamedAll_fixed 1 declarations (absent.leaves _)] at obeys

end Marking

end Lox
