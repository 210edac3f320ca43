import Lox.Proofs.Machine.Changes

namespace Lox

open Outcome Plan Eval

@[reducible]
def Point.lengthened (p : Point) : Point := { p with steps := p.steps + 1 }

inductive Plan.Lengthened {α : Type} : Plan α → Plan α → Prop where
  | ends (outcome : Outcome α) : Lengthened (ends outcome) (ends outcome)
  | calls {q : Point} {resume resume' : q.task.Result → Machine → Plan α} (unwinding : Unwinding)
      (rest : ∀ value m, Lengthened (resume value m) (resume' value m)) :
      Lengthened (calls q resume unwinding) (calls q.lengthened resume' unwinding)

namespace Plan.Lengthened

variable {config : Config} {α : Type} {n : Nat} {held : List Root} {m : Machine} {q : Point}

theorem done {value : α} {m : Machine} : (Plan.done value m).Lengthened (Plan.done value m) := .ends _

theorem ask {resume resume' : q.task.Result → Machine → Plan α}
    (rest : ∀ value m, (resume value m).Lengthened (resume' value m)) :
    (Plan.ask q resume).Lengthened (Plan.ask q.lengthened resume') := .calls .nothing rest

theorem last : (Plan.ask q Plan.done).Lengthened (Plan.ask q.lengthened Plan.done) :=
  ask fun _ _ => done

theorem active {yield : q.task.Result → Value} :
    (planActive q yield).Lengthened (planActive q.lengthened yield) := .calls .counted fun _ _ => done

/-- A plan that ends does so in the same way if all that it calls does. -/
theorem run {plan plan' : Plan α} (longer : plan.Lengthened plan')
    (parts : ∀ q : Point, q ∈ plan.asked config → q.outcome config ≠ .unfinished →
      q.lengthened.outcome config = q.outcome config)
    (ended : plan.run config ≠ .unfinished) : plan'.run config = plan.run config := by
  induction longer with
  | ends outcome => rfl
  | @calls q resume resume' unwinding rest ih =>
    rw [Plan.run] at ended
    have finished : q.outcome config ≠ .unfinished := by
      intro cut
      rw [cut] at ended
      exact ended rfl
    have same := parts q (mem_asked_calls.mpr (.inl rfl)) finished
    rw [Plan.run, Plan.run, same]
    cases called : q.outcome config with
    | done value m =>
      rw [called] at ended
      exact ih value m (fun r asked => parts r (mem_asked_calls.mpr (.inr ⟨value, m, called, asked⟩)))
        ended
    | failed fault m => rfl
    | unfinished => exact absurd called finished

theorem planExpression (e : Expr) :
    (Eval.planExpression n held m e).Lengthened (Eval.planExpression (n + 1) held m e) := by
  cases e with
  | literal value => exact done
  | grouping inner => exact last
  | unary operator right => exact ask fun _ _ => .ends _
  | binary left operator right => exact ask fun _ _ => ask fun _ _ => .ends _
  | logical left operator right =>
    refine ask fun left m => ?_
    cases decidesAlone operator left with
    | true => exact done
    | false => exact last
  | «variable» name distance => exact .ends _
  | assign name value distance => exact ask fun _ _ => .ends _
  | call callee paren arguments => exact ask fun _ _ => ask fun _ _ => last
  | get object name =>
    refine ask fun object m => ?_
    cases object <;> exact .ends _
  | set object name value =>
    refine ask fun object m => ?_
    cases object with
    | «instance» id type => exact ask fun _ _ => done
    | _ => exact .ends _
  | this keyword distance => exact .ends _
  | super keyword method distance => exact .ends _

theorem planExpressions (es : List Expr) :
    (Eval.planExpressions n held m es).Lengthened (Eval.planExpressions (n + 1) held m es) := by
  cases es with
  | nil => exact done
  | cons e rest => exact ask fun _ _ => ask fun _ _ => done

theorem planActivity (line : Nat) (arguments : List Value) (callee : Value) :
    (Eval.planActivity config n held m line arguments callee).Lengthened
      (Eval.planActivity config (n + 1) held m line arguments callee) := by
  cases callee with
  | native function =>
    cases function
    exact .ends _
  | closure function => exact active
  | «class» type =>
    cases declared : type.findMethod? initializerName with
    | none =>
      simp only [Eval.planActivity, declared]
      exact done
    | some method =>
      simp only [Eval.planActivity, declared]
      exact active
  | _ => exact .ends _

theorem planCallee (line : Nat) (arguments : List Value) (callee : Value) :
    (Eval.planCallee config n held m line arguments callee).Lengthened
      (Eval.planCallee config (n + 1) held m line arguments callee) := by
  unfold Eval.planCallee
  cases callee.arity? with
  | none => exact .ends _
  | some arity =>
    unfold Eval.planCall
    dsimp only
    by_cases fits : arguments.length = arity
    · rw [if_pos fits, if_pos fits]
      by_cases room : m.depth < config.maxDepth
      · rw [if_pos room, if_pos room]
        exact planActivity line arguments callee
      · rw [if_neg room, if_neg room]
        exact .ends _
    · rw [if_neg fits, if_neg fits]
      exact .ends _

theorem planBody (function : Closure) (line : Nat) (arguments : List Value) :
    (Eval.planBody config n held m function line arguments).Lengthened
      (Eval.planBody config (n + 1) held m function line arguments) := by
  refine .calls _ fun flow m' => ?_
  dsimp only
  split
  · exact .ends _
  · exact done

theorem planStatement (s : Stmt) :
    (Eval.planStatement config n held m s).Lengthened (Eval.planStatement config (n + 1) held m s) := by
  cases s with
  | expression value => exact ask fun _ _ => done
  | print value => exact ask fun _ _ => .ends _
  | varDecl name initializer? =>
    cases initializer? with
    | none => exact .ends _
    | some initializer => exact ask fun _ _ => .ends _
  | block body => exact .calls _ fun _ _ => done
  | branch condition thenBranch elseBranch? =>
    refine ask fun value m => ?_
    cases value.isTruthy with
    | true => exact last
    | false =>
      cases elseBranch? with
      | none => exact done
      | some elseBranch => exact last
  | loop condition body => exact last
  | functionDecl declaration => exact .ends _
  | returns keyword value? =>
    cases value? with
    | none => exact done
    | some value => exact ask fun _ _ => done
  | classDecl name superclass? methods =>
    cases superclass? with
    | none => exact .ends _
    | some superclass =>
      refine ask fun above m => ?_
      cases above <;> exact .ends _

theorem planStatements (ss : List Stmt) :
    (Eval.planStatements n held m ss).Lengthened (Eval.planStatements (n + 1) held m ss) := by
  cases ss with
  | nil => exact done
  | cons s rest =>
    refine ask fun flow m => ?_
    cases flow with
    | normal => exact last
    | returned value => exact done

theorem planLoop (condition : Expr) (body : Stmt) :
    (Eval.planLoop n held m condition body).Lengthened
      (Eval.planLoop (n + 1) held m condition body) := by
  refine ask fun value m => ?_
  cases value.isTruthy with
  | true =>
    refine ask fun flow m => ?_
    cases flow with
    | normal => exact last
    | returned value => exact done
  | false => exact done

theorem plan (config : Config) (p : Point) (positive : 0 < p.steps) :
    (p.plan config).Lengthened (p.lengthened.plan config) := by
  obtain ⟨steps, held, task, m⟩ := p
  cases steps with
  | zero => exact absurd positive (Nat.lt_irrefl 0)
  | succ n =>
    cases task with
    | expression e => exact planExpression e
    | expressions es => exact planExpressions es
    | call callee line arguments => exact planCallee line arguments callee
    | apply function line arguments => exact planBody function line arguments
    | statement s => exact planStatement s
    | statements ss => exact planStatements ss
    | loop condition body => exact planLoop condition body

end Plan.Lengthened

namespace Point

variable {config : Config}

theorem outcome_lengthened {p : Point} (ended : p.outcome config ≠ .unfinished) :
    p.lengthened.outcome config = p.outcome config := by
  induction steps : p.steps generalizing p with
  | zero =>
    obtain ⟨n, held, task, m⟩ := p
    obtain rfl : n = 0 := steps
    cases task <;> exact absurd rfl ended
  | succ n ih =>
    have longer := Plan.Lengthened.plan config p (by omega)
    have same := longer.run (fun q asked finished => ih finished
      (by have := (calls_of_mem_parts asked).steps_eq; omega))
      (by rwa [run_plan])
    rwa [run_plan, run_plan] at same

end Point

/-- What ends, ends in the same way with more steps. -/
theorem Point.outcome_of_le {config : Config} {n k : Nat} {held : List Root} {task : Task} {m : Machine}
    (ended : Point.outcome config ⟨n, held, task, m⟩ ≠ .unfinished) (more : n ≤ k) :
    Point.outcome config ⟨k, held, task, m⟩ = Point.outcome config ⟨n, held, task, m⟩ := by
  induction more with
  | refl => rfl
  | @step k more ih =>
    have same := outcome_lengthened (p := ⟨k, held, task, m⟩) (ih ▸ ended)
    exact same.trans ih

end Lox
