import Lox.Proofs.Syntax.Soundness
import Lox.Proofs.Syntax.Unresolved

namespace Lox

abbrev Expr.Unbound (e : Expr) : Prop := e.Unresolved fun _ => True

inductive Stmt.Regular : Stmt → Prop where
  | expression {value : Expr} (evaluated : value.Unbound) : Regular (.expression value)
  | print {value : Expr} (printed : value.Unbound) : Regular (.print value)
  | varDecl {name : Token} {initializer? : Option Expr} (initial : ∀ e ∈ initializer?, e.Unbound) :
      Regular (.varDecl name initializer?)
  | block {body : List Stmt} (inside : ∀ s ∈ body, Regular s) : Regular (.block body)
  | branch {condition : Expr} {thenBranch : Stmt} {elseBranch? : Option Stmt}
      (tested : condition.Unbound) (first : Regular thenBranch)
      (second : ∀ s ∈ elseBranch?, Regular s) : Regular (.branch condition thenBranch elseBranch?)
  | loop {condition : Expr} {body : Stmt} (tested : condition.Unbound) (repeated : Regular body) :
      Regular (.loop condition body)
  | functionDecl {name : Token} {params : List Token} {body : List Stmt}
      (inside : ∀ s ∈ body, Regular s) : Regular (.functionDecl (.mk name params body))
  | returns {keyword : Token} {value? : Option Expr} (returned : ∀ e ∈ value?, e.Unbound) :
      Regular (.returns keyword value?)
  | classDecl {name : Token} {superclass? : Option Expr} {methods : List FunctionDecl}
      (above : ∀ e ∈ superclass?, ∃ parent : Token, e = .variable parent none)
      (inside : ∀ method ∈ methods, ∀ s ∈ method.body, Regular s) :
      Regular (.classDecl name superclass? methods)

namespace Grammar

theorem Expression.unbound {ts : List Token} {e : Expr} (given : Expression ts e) : e.Unbound :=
  given.unresolved fun _ _ => trivial

theorem Optional.unbound {ts : List Token} {e? : Option Expr} (given : Optional ts e?) :
    ∀ e ∈ e?, e.Unbound :=
  given.unresolved fun _ _ => trivial

theorem Variable.regular {ts : List Token} {s : Stmt} (declared : Variable ts s) : s.Regular := by
  cases declared with
  | bare => exact .varDecl fun e same => absurd same (Option.not_mem_none e)
  | initialized _ _ _ right => exact .varDecl fun e same => Option.some.inj same ▸ right.unbound

theorem Initializer.regular {ts : List Token} {initializer? : Option Stmt}
    (initial : Initializer ts initializer?) : ∀ s ∈ initializer?, s.Regular := by
  cases initial with
  | none => exact fun s same => absurd same (Option.not_mem_none s)
  | «variable» declared => exact fun s same => Option.some.inj same ▸ declared.regular
  | expression given => exact fun s same => Option.some.inj same ▸ .expression given.unbound

theorem pair_regular {first second : Stmt} (one : first.Regular) (two : second.Regular) :
    (Stmt.block [first, second]).Regular :=
  .block (List.forall_mem_cons.mpr ⟨one, List.forall_mem_singleton.mpr two⟩)

variable {nearest : Prop}

mutual

theorem Declaration.regular {ts : List Token} {s : Stmt} : Declaration nearest ts s → s.Regular
  | .class _ _ _ inside _ => .classDecl nofun inside.regular
  | .subclass _ _ _ _ _ inside _ =>
    .classDecl (fun _ same => ⟨_, (Option.some.inj same).symm⟩) inside.regular
  | @Declaration.function _ _ _ (.mk _ _ _) _ declared => .functionDecl declared.regular
  | .variable declared => declared.regular
  | .statement whole => whole.regular

theorem Declarations.regular {ts : List Token} {ss : List Stmt} :
    Declarations nearest ts ss → ∀ s ∈ ss, s.Regular
  | .nil => nofun
  | .cons first others => List.forall_mem_cons.mpr ⟨first.regular, others.regular⟩

theorem Methods.regular {ts : List Token} {methods : List FunctionDecl} :
    Methods nearest ts methods → ∀ method ∈ methods, ∀ s ∈ method.body, s.Regular
  | .nil => nofun
  | .cons first others => List.forall_mem_cons.mpr ⟨first.regular, others.regular⟩

theorem Function.regular {ts : List Token} {declaration : FunctionDecl} :
    Function nearest ts declaration → ∀ s ∈ declaration.body, s.Regular
  | .mk _ _ _ _ _ _ inside _ => inside.regular

theorem Statement.regular {dangling : Bool} {ts : List Token} {s : Stmt} :
    Statement nearest dangling ts s → s.Regular
  | .expression given _ => .expression given.unbound
  | .print _ given _ => .print given.unbound
  | .returns _ given _ => .returns given.unbound
  | .loop _ _ tested _ repeated => .loop tested.unbound repeated.regular
  | .block _ inside _ => .block inside.regular
  | .forLoop _ _ initial tested _ counted _ repeated =>
    desugared_of .literal (fun _ _ => .loop) (fun _ _ inside again => pair_regular inside (.expression again))
      (fun _ _ => pair_regular) initial.regular tested.unbound counted.unbound repeated.regular
  | .branch _ _ tested _ first => .branch tested.unbound first.regular nofun
  | .choice _ _ tested _ first _ _ second =>
    .branch tested.unbound first.regular fun _ same => Option.some.inj same ▸ second.regular

end

end Grammar

/-- Whatever the tokens, what the parser yields is regular. -/
theorem parse_regular {tokens : List Token} {program : List Stmt}
    (parsed : parse tokens = .ok program) : ∀ s ∈ program, s.Regular := by
  obtain ⟨_, _, _, derived⟩ := Parse.derived_of_parse True parsed
  exact derived.regular

end Lox
