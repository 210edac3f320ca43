import Lox.Proofs.Machine.Plans

namespace Lox

open Plan Eval

def Point.unwinding (p : Point) : Unwinding :=
  match p.task with
  | .statement (.block _) => .back p.held p.machine.scope
  | .apply function _ _ => .back (.scope function.scope :: p.held) p.machine.scope
  | .call _ _ _ => .counted
  | .expression _ | .expressions _ | .statement _ | .statements _ | .loop _ _ => .nothing

/-- Whichever of the points that it calls ends in a fault, the plan has the same left to do. -/
def Plan.Unwinds {α : Type} (unwinding : Unwinding) : Plan α → Prop
  | .ends _ => True
  | .calls _ resume here => here = unwinding ∧ ∀ value m, (resume value m).Unwinds unwinding

namespace Plan

variable {config : Config} {α : Type} {n : Nat} {held : List Root} {m : Machine}

theorem unwinds_last {q : Point} : (ask q done).Unwinds .nothing := ⟨rfl, fun _ _ => trivial⟩

theorem unwinds_ask {q : Point} {resume : q.task.Result → Machine → Plan α}
    (rest : ∀ value m, (resume value m).Unwinds .nothing) : (ask q resume).Unwinds .nothing :=
  ⟨rfl, rest⟩

theorem unwinds_active {q : Point} {yield : q.task.Result → Value} :
    (planActive q yield).Unwinds .counted := ⟨rfl, fun _ _ => trivial⟩

theorem unwinds_planExpression (e : Expr) : (planExpression n held m e).Unwinds .nothing := by
  cases e with
  | literal | «variable» | this | super => trivial
  | grouping inner => exact unwinds_last
  | unary operator right => exact unwinds_ask fun _ _ => trivial
  | binary left operator right => exact unwinds_ask fun _ _ => unwinds_ask fun _ _ => trivial
  | logical left operator right =>
    refine unwinds_ask fun left m => ?_
    split
    · trivial
    · exact unwinds_last
  | assign name value distance => exact unwinds_ask fun _ _ => trivial
  | call callee paren arguments =>
    exact unwinds_ask fun _ _ => unwinds_ask fun _ _ => unwinds_last
  | get object name =>
    refine unwinds_ask fun object m => ?_
    cases object <;> trivial
  | set object name value =>
    refine unwinds_ask fun object m => ?_
    cases object with
    | «instance» id type => exact unwinds_ask fun _ _ => trivial
    | _ => trivial

theorem unwinds_planCallee {line : Nat} {arguments : List Value} {callee : Value} :
    (planCallee config n held m line arguments callee).Unwinds .counted := by
  have active : (planActivity config n held m line arguments callee).Unwinds .counted := by
    cases callee with
    | native function => cases function; trivial
    | closure function => exact unwinds_active
    | «class» type =>
      simp only [planActivity]
      cases type.findMethod? initializerName with
      | some method => exact unwinds_active
      | none => trivial
    | _ => trivial
  unfold planCallee planCall
  split
  · split
    · split
      · exact active
      · trivial
    · trivial
  · trivial

theorem unwinds_planBody {function : Closure} {line : Nat} {arguments : List Value} :
    (planBody config n held m function line arguments).Unwinds
      (.back (.scope function.scope :: held) m.scope) := by
  refine ⟨rfl, fun flow m' => ?_⟩
  simp only
  split <;> trivial

theorem unwinds_planStatement (s : Stmt) : (planStatement config n held m s).Unwinds
    (Point.unwinding ⟨n + 1, held, .statement s, m⟩) := by
  cases s with
  | expression | print => exact unwinds_ask fun _ _ => trivial
  | varDecl name initializer? =>
    cases initializer? with
    | none => trivial
    | some initializer => exact unwinds_ask fun _ _ => trivial
  | block body => exact ⟨rfl, fun _ _ => trivial⟩
  | branch condition thenBranch elseBranch? =>
    refine unwinds_ask fun value m => ?_
    split
    · exact unwinds_last
    · cases elseBranch? with
      | none => trivial
      | some elseBranch => exact unwinds_last
  | loop condition body => exact unwinds_last
  | functionDecl declaration => trivial
  | returns keyword value? =>
    cases value? with
    | none => trivial
    | some value => exact unwinds_ask fun _ _ => trivial
  | classDecl name superclass? methods =>
    cases superclass? with
    | none => trivial
    | some superclass =>
      refine unwinds_ask fun above m => ?_
      cases above <;> trivial

theorem unwinds_planStatements (ss : List Stmt) : (planStatements n held m ss).Unwinds .nothing := by
  cases ss with
  | nil => trivial
  | cons s rest =>
    refine unwinds_ask fun flow m => ?_
    cases flow with
    | normal => exact unwinds_last
    | returned value => trivial

theorem unwinds_planLoop (condition : Expr) (body : Stmt) :
    (planLoop n held m condition body).Unwinds .nothing := by
  refine unwinds_ask fun value m => ?_
  split
  · refine unwinds_ask fun flow m => ?_
    cases flow with
    | normal => exact unwinds_last
    | returned value => trivial
  · trivial

/-- The fault of a point that a plan calls ends the plan, once the rest is unwound. -/
theorem run_of_asked {fault : Fault} {plan : Plan α} {unwinding : Unwinding} {q : Point}
    (unwinds : plan.Unwinds unwinding) (asked : q ∈ plan.asked config)
    (failed : q.outcome config = .failed fault m) :
    plan.run config = .failed fault (unwinding.run config m) := by
  induction plan with
  | ends outcome => exact absurd asked List.not_mem_nil
  | calls p resume here ih =>
    obtain ⟨rfl, rest⟩ := unwinds
    rw [run]
    rcases mem_asked_calls.mp asked with rfl | ⟨value, m₁, ended, later⟩
    · rw [failed]
    · rw [ended]
      exact ih value m₁ (rest value m₁) later

end Plan

namespace Point

variable {config : Config} {p q : Point} {fault : Fault} {m : Machine}

theorem unwinds_plan (config : Config) (p : Point) : (p.plan config).Unwinds p.unwinding := by
  obtain ⟨steps, held, task, m⟩ := p
  cases steps with
  | zero => cases task <;> trivial
  | succ n =>
    cases task with
    | expression e => exact unwinds_planExpression e
    | expressions es =>
      cases es with
      | nil => trivial
      | cons e rest => exact unwinds_ask fun _ _ => unwinds_ask fun _ _ => trivial
    | call callee line arguments => exact unwinds_planCallee
    | apply function line arguments => exact unwinds_planBody
    | statement s => exact unwinds_planStatement s
    | statements ss => exact unwinds_planStatements ss
    | loop condition body => exact unwinds_planLoop condition body

theorem unwound_of_calls (calls : Calls config p q) (failed : q.outcome config = .failed fault m) :
    p.outcome config = .failed fault (p.unwinding.run config m) := by
  rw [← run_plan]
  exact Plan.run_of_asked (p.unwinds_plan config) (mem_parts.mpr calls) failed

end Point

end Lox
