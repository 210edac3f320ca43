import Mathlib
import Lox.Proofs.Calls.Course
import Lox.Proofs.Source.Written

namespace Lox

open Resolve

/-- A statement with no `return` outside the functions in it. -/
inductive Stmt.Returnless : Stmt → Prop where
  | expression {value : Expr} : Returnless (.expression value)
  | print {value : Expr} : Returnless (.print value)
  | varDecl {name : Token} {initializer? : Option Expr} : Returnless (.varDecl name initializer?)
  | block {body : List Stmt} (inside : ∀ s ∈ body, Returnless s) : Returnless (.block body)
  | branch {condition : Expr} {thenBranch : Stmt} {elseBranch? : Option Stmt}
      (first : Returnless thenBranch) (second : ∀ s ∈ elseBranch?, Returnless s) :
      Returnless (.branch condition thenBranch elseBranch?)
  | loop {condition : Expr} {body : Stmt} (repeated : Returnless body) :
      Returnless (.loop condition body)
  | functionDecl {declaration : FunctionDecl} : Returnless (.functionDecl declaration)
  | classDecl {name : Token} {superclass? : Option Expr} {methods : List FunctionDecl} :
      Returnless (.classDecl name superclass? methods)

namespace Resolve

variable {context : Context}

mutual

/-- The resolver accepts no `return` where there is no function around. -/
theorem returnless_statement (outside : context.function = .none) (scopes : List Names) :
    (s : Stmt) → (statement context scopes s).errors = [] →
      (statement context scopes s).tree.Returnless
  | .expression _, _ => .expression
  | .print _, _ => .print
  | .varDecl _ _, _ => .varDecl
  | .block body, accepted => .block (returnless_statements outside ([] :: scopes) body accepted)
  | .branch condition thenBranch none, accepted =>
    .branch (returnless_statement outside scopes thenBranch (List.append_eq_nil_iff.mp accepted).2)
      nofun
  | .branch condition thenBranch (some elseBranch), accepted => by
    obtain ⟨first, second⟩ := List.append_eq_nil_iff.mp accepted
    refine .branch (returnless_statement outside scopes thenBranch
      (List.append_eq_nil_iff.mp first).2) fun s same => ?_
    cases same
    exact returnless_statement outside _ elseBranch second
  | .loop condition body, accepted =>
    .loop (returnless_statement outside scopes body (List.append_eq_nil_iff.mp accepted).2)
  | .functionDecl (.mk _ _ _), _ => .functionDecl
  | .returns keyword value?, accepted => by
    have none := (List.append_eq_nil_iff.mp accepted).1
    rw [outside] at none
    cases none
  | .classDecl _ none _, _ | .classDecl _ (some _) _, _ => .classDecl

theorem returnless_statements (outside : context.function = .none) (scopes : List Names) :
    (ss : List Stmt) → (statements context scopes ss).errors = [] →
      ∀ s ∈ (statements context scopes ss).tree, s.Returnless
  | [], _ => nofun
  | first :: rest, accepted => by
    obtain ⟨here, later⟩ := List.append_eq_nil_iff.mp accepted
    exact List.forall_mem_cons.mpr ⟨returnless_statement outside scopes first here,
      returnless_statements outside _ rest later⟩

end

end Resolve

theorem returnless_of_compile {source : List UInt8} {program : List Stmt}
    (compiled : compile source = .ok program) : ∀ s ∈ program, s.Returnless := by
  obtain ⟨tree, _, resolved⟩ := compile_eq_ok.mp compiled
  obtain ⟨same, accepted⟩ := Prod.mk.inj resolved
  exact same ▸ returnless_statements rfl [] tree accepted

def Task.Returnless : Task → Prop
  | statement s => s.Returnless
  | statements ss => ∀ s ∈ ss, s.Returnless
  | loop _ body => body.Returnless
  | expression _ | expressions _ | call _ _ _ | apply _ _ _ => True

variable {config : Config} {p q : Point}

theorem Calls.returnless (calls : Calls config p q) (own : p.task.proceeds = true)
    (returnless : p.task.Returnless) : q.task.Returnless := by
  cases calls with
  | inner inner => cases inner <;> trivial
  | initial | superclass => trivial
  | block =>
    cases returnless with
    | block inside => exact inside
  | body => cases own
  | thenBranch =>
    cases returnless with
    | branch first _ => exact first
  | elseBranch =>
    cases returnless with
    | branch _ second => exact second _ rfl
  | loop =>
    cases returnless with
    | loop repeated => exact repeated
  | loopBody | loopAgain => exact returnless
  | first => exact returnless _ List.mem_cons_self
  | others => exact fun s member => returnless s (List.mem_cons_of_mem _ member)

theorem Point.Proceeds.returnless (proceeds : Point.Proceeds config p q)
    (returnless : p.task.Returnless) : ¬q.Returns := by
  induction proceeds with
  | refl =>
    rintro ⟨keyword, value?, task⟩
    rw [task] at returnless
    cases returnless
  | step own calls _ ih => exact ih (calls.returnless own returnless)

/-- What holds no `return` outside the functions in it ends normally. -/
theorem Concludes.normal_of_returnless {flow : Flow} {m : Machine}
    (concludes : Concludes config (p.course config) flow m) (returnless : p.task.Returnless) :
    flow = .normal := by
  generalize whole : p.course config = course at concludes
  cases concludes with
  | normal => rfl
  | @returned before after q v _ _ _ yields =>
    have member : q ∈ p.course config := whole ▸ List.mem_append_right before List.mem_cons_self
    have returns : q.Returns := by
      cases yields with
      | nothing task => exact ⟨_, _, task⟩
      | value _ task _ => exact ⟨_, _, task⟩
    exact absurd returns ((Point.mem_course.mp member).returnless returnless)

open Plan Eval in
theorem yields_of_call {steps : Nat} {held : List Root} {function : Closure} {line : Nat}
    {arguments : List Value} {m m' : Machine} {value : Value} (plain : function.isInitializer = false)
    (ended : call config steps held (.closure function) line arguments m = .done value m') :
    ∃ active body flow m₁, Calls config ⟨steps, held, .call (.closure function) line arguments, m⟩ active ∧
      active.task = .apply function line arguments ∧ Calls config active body ∧
      body.task = .statements function.declaration.body ∧
      Concludes config (body.course config) flow m₁ ∧ value = flow.result ∧
      m' = { m₁ with depth := m₁.depth - 1 } := by
  cases steps with
  | zero => cases ended
  | succ n =>
    rw [← run_planCallee] at ended
    obtain ⟨arity, room, inside⟩ := run_planCall_eq_done ended
    obtain ⟨v, m₁, applied, later⟩ := run_calls_eq_done inside
    cases later
    cases n with
    | zero => cases applied
    | succ n =>
      replace applied : Lox.apply config (n + 1) held function line arguments _ = _ := applied
      rw [← run_planBody] at applied
      obtain ⟨flow, m₂, carried, later⟩ := run_calls_eq_done applied
      simp only [plain, Bool.false_eq_true, if_false] at later
      cases later
      exact ⟨_, _, flow, _, .inner (.function arity room), rfl, .body, rfl,
        ((concluding config n).executeAll carried).leave _ _, rfl, rfl⟩

/-- A `return` never leaves more than the activation that carries it out. In a program that compiles
    no statement at the top level returns. And a call of a function that is no initializer yields what
    the first `return` carried out by its activation yields, or nil if there is none; after that
    statement, which evaluates its own expression, the activation carries out nothing more: the
    machine is what that leaves, but for the scopes and the call that are left. -/
theorem returns_end_activations (config : Config) :
    (∀ source program, compile source = .ok program → ∀ s ∈ program, ∀ steps held m flow m',
      execute config steps held s m = .done flow m' → flow = .normal) ∧
    ∀ steps held function line arguments m value m', function.isInitializer = false →
      call config steps held (.closure function) line arguments m = .done value m' →
      ∃ active body, Calls config ⟨steps, held, .call (.closure function) line arguments, m⟩ active ∧
        active.task = .apply function line arguments ∧ Calls config active body ∧
        body.task = .statements function.declaration.body ∧
        (∀ p, p ∈ body.course config ↔ body.Proceeds config p) ∧
        ((Quiet (body.course config) ∧ value = .nil) ∨
          ∃ before p after m₁ m₂, body.course config = before ++ p :: after ∧ Quiet before ∧
            p.Yields config after value m₁ ∧ Exits config m₁ m₂ ∧
            m' = { m₂ with depth := m₂.depth - 1 }) := by
  refine ⟨fun source program compiled s member steps held m flow m' ended => ?_, ?_⟩
  · have concludes := (concluding config steps).execute ended
    exact concludes.normal_of_returnless (returnless_of_compile compiled s member)
  · intro steps held function line arguments m value m' plain ended
    obtain ⟨active, body, flow, m₂, called, applies, entered, carries, concludes, rfl, inactive⟩ :=
      yields_of_call plain ended
    refine ⟨active, body, called, applies, entered, carries, fun p => Point.mem_course, ?_⟩
    generalize body.course config = course at concludes
    cases concludes with
    | normal quiet => exact .inl ⟨quiet, rfl⟩
    | returned quiet yields exits =>
      exact .inr ⟨_, _, _, _, m₂, rfl, quiet, yields, exits, inactive⟩

private def returning : Closure :=
  ⟨0, .mk ⟨.identifier, "f", none, 1⟩ []
    [.returns ⟨.returnWord, "return", none, 1⟩ (some (.literal (.bool true))),
      .print (.literal .nil)], ⟨0⟩, false⟩

private def declaring : List UInt8 := "fun f() { return true; print nil; }".toUTF8.toList

/-- The function yields what it returns and carries out nothing after that; where it is declared,
    nothing is returned. -/
theorem returning_ends :
    compile declaring = .ok [.functionDecl returning.declaration] ∧
    (∃ m', execute .standard 2 [] (.functionDecl returning.declaration) .start = .done .normal m') ∧
    returning.isInitializer = false ∧
    ∃ m', call .standard 5 [] (.closure returning) 1 [] .start = .done (.bool true) m' ∧
      ∃ active body, Calls .standard ⟨5, [], .call (.closure returning) 1 [], .start⟩ active ∧
        Calls .standard active body ∧
        ∃ before p after m₁ m₂, body.course .standard = before ++ p :: after ∧ Quiet before ∧
          p.Yields .standard after (.bool true) m₁ ∧ Exits .standard m₁ m₂ ∧
          m' = { m₂ with depth := m₂.depth - 1 } := by
  have compiled : compile declaring = .ok [.functionDecl returning.declaration] := by
    unfold declaring returning
    cbv
  obtain ⟨top, calls⟩ := returns_end_activations .standard
  refine ⟨compiled, ?_, rfl, _, rfl, ?_⟩
  · obtain ⟨flow, m', ended⟩ : ∃ flow m',
        execute .standard 2 [] (.functionDecl returning.declaration) .start = .done flow m' :=
      ⟨_, _, rfl⟩
    obtain rfl := top declaring _ compiled _ List.mem_cons_self _ _ _ _ _ ended
    exact ⟨m', ended⟩
  · obtain ⟨active, body, called, _, entered, _, _, ⟨_, impossible⟩ | returned⟩ :=
      calls 5 [] returning 1 [] .start (.bool true) _ rfl rfl
    · cases impossible
    · exact ⟨active, body, called, entered, returned⟩

end Lox
