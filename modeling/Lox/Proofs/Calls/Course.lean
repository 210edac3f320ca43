import Lox.Proofs.Machine.Plans

namespace Lox

/-- What such a task calls is carried out by the same activation. An expression is one step of it,
    whatever it calls. -/
def Task.proceeds : Task → Bool
  | statement _ | statements _ | loop _ _ => true
  | expression _ | expressions _ | call _ _ _ | apply _ _ _ => false

namespace Point

variable (config : Config)

def courseWithin : Nat → Point → List Point
  | 0, p => [p]
  | n + 1, p => p :: if p.task.proceeds then (p.parts config).flatMap (courseWithin n) else []

def course (p : Point) : List Point := p.courseWithin config p.steps

/-- An activation that carries out `start` carries out another point for it. -/
inductive Proceeds : Point → Point → Prop where
  | refl {p : Point} : Proceeds p p
  | step {p q r : Point} (own : p.task.proceeds = true) (calls : Calls config p q)
      (later : Proceeds q r) : Proceeds p r

def Returns (p : Point) : Prop := ∃ keyword value?, p.task = .statement (.returns keyword value?)

/-- What a `return` statement yields, and what is carried out for it: its expression, if it has one.
    The machine is then as the expression has left it. -/
inductive Yields (p : Point) : List Point → Value → Machine → Prop where
  | nothing {keyword : Token} (task : p.task = .statement (.returns keyword none)) :
      Yields p [] .nil p.machine
  | value {n : Nat} {keyword : Token} {e : Expr} {v : Value} {m : Machine}
      (steps : p.steps = n + 1) (task : p.task = .statement (.returns keyword (some e)))
      (ended : evaluate config n p.held e p.machine = .done v m) :
      Yields p [⟨n, p.held, .expression e, p.machine⟩] v m

end Point

def Quiet (course : List Point) : Prop := ∀ p ∈ course, ¬p.Returns

inductive Exits (config : Config) (m : Machine) : Machine → Prop where
  | refl : Exits config m m
  | leave {m' : Machine} (before : Exits config m m') (held : List Root) (previous : ScopeId) :
      Exits config m (m'.leave config held previous)

/-- How the statements of a course end. -/
inductive Concludes (config : Config) : List Point → Flow → Machine → Prop where
  | normal {course : List Point} {m : Machine} (quiet : Quiet course) :
      Concludes config course .normal m
  | returned {before after : List Point} {p : Point} {v : Value} {m m' : Machine}
      (quiet : Quiet before) (yields : p.Yields config after v m) (exits : Exits config m m') :
      Concludes config (before ++ p :: after) (.returned v) m'

namespace Point

variable {config : Config} {p q : Point}

theorem course_succ {n : Nat} (steps : p.steps = n + 1) (own : p.task.proceeds = true) :
    p.course config = p :: (p.parts config).flatMap (courseWithin config n) := by
  rw [course, steps, courseWithin, if_pos own]

theorem proceeds_of_mem_courseWithin {n : Nat} (member : q ∈ p.courseWithin config n) :
    Proceeds config p q := by
  induction n generalizing p with
  | zero =>
    obtain rfl := List.mem_singleton.mp member
    exact .refl
  | succ n ih =>
    rw [courseWithin] at member
    rcases List.mem_cons.mp member with rfl | later
    · exact .refl
    · split at later
      · rename_i own
        obtain ⟨part, inside, deeper⟩ := List.mem_flatMap.mp later
        exact .step own (mem_parts.mp inside) (ih deeper)
      · cases later

theorem mem_course_of_proceeds (proceeds : Proceeds config p q) : q ∈ p.course config := by
  induction proceeds with
  | @refl p =>
    unfold course
    cases p.steps <;> exact List.mem_cons_self
  | step own calls _ ih =>
    rw [course_succ calls.steps_eq own]
    exact List.mem_cons_of_mem _ (List.mem_flatMap.mpr ⟨_, mem_parts.mpr calls, ih⟩)

/-- The course from a point on holds just what the activation carries out for it. -/
theorem mem_course : q ∈ p.course config ↔ Proceeds config p q :=
  ⟨proceeds_of_mem_courseWithin, mem_course_of_proceeds⟩

theorem not_returns {n : Nat} {held : List Root} {m : Machine} {e : Expr} :
    ¬Returns ⟨n, held, .expression e, m⟩ := by
  rintro ⟨_, _, impossible⟩
  cases impossible

end Point

namespace Concludes

variable {config : Config} {course before : List Point} {flow : Flow} {p : Point} {m : Machine}

theorem prepend (quiet : Quiet before) (concludes : Concludes config course flow m) :
    Concludes config (before ++ course) flow m := by
  cases concludes with
  | normal rest =>
    exact .normal fun p member => (List.mem_append.mp member).elim (quiet p) (rest p)
  | @returned middle after p v m m' silent yields exits =>
    rw [← List.append_assoc]
    exact .returned (fun p member => (List.mem_append.mp member).elim (quiet p) (silent p)) yields
      exits

theorem cons (own : ¬p.Returns) (concludes : Concludes config course flow m) :
    Concludes config (p :: course) flow m :=
  have quiet : Quiet [p] := fun _ member => List.mem_singleton.mp member ▸ own
  concludes.prepend quiet

theorem quiet (concludes : Concludes config course .normal m) : Quiet course := by
  cases concludes
  assumption

theorem leave (concludes : Concludes config course flow m) (held : List Root)
    (previous : ScopeId) : Concludes config course flow (m.leave config held previous) := by
  cases concludes with
  | normal quiet => exact .normal quiet
  | returned quiet yields exits => exact .returned quiet yields (exits.leave held previous)

end Concludes

namespace Plan

variable {config : Config} {α : Type} {n : Nat} {q : Point} {v : α} {m : Machine}
  {resume : q.task.Result → Machine → Plan α}

def course (config : Config) (n : Nat) (plan : Plan α) : List Point :=
  (plan.asked config).flatMap (Point.courseWithin config n)

/-- A plan that ends with a value goes on after each point that it calls. -/
theorem run_calls_eq_done {unwinding : Unwinding}
    (ended : (calls q resume unwinding).run config = .done v m) :
    ∃ w m', q.outcome config = .done w m' ∧ (resume w m').run config = .done v m := by
  rw [run] at ended
  cases called : q.outcome config with
  | done w m' =>
    rw [called] at ended
    exact ⟨w, m', rfl, ended⟩
  | failed fault m' =>
    rw [called] at ended
    cases ended
  | unfinished =>
    rw [called] at ended
    cases ended

/-- A call yields a value only if it takes the arguments and may be active beside the others. -/
theorem run_planCall_eq_done {line arity count : Nat} {active : Plan Value} {v : Value}
    {m m' : Machine}
    (ended : (Eval.planCall config m line arity count active).run config = .done v m') :
    count = arity ∧ m.depth < config.maxDepth ∧ active.run config = .done v m' := by
  unfold Eval.planCall at ended
  split at ended
  · rename_i arity
    split at ended
    · rename_i room
      exact ⟨arity, room, ended⟩
    · cases ended
  · cases ended

theorem course_calls {unwinding : Unwinding} {w : q.task.Result} {m' : Machine}
    (called : q.outcome config = .done w m') :
    (calls q resume unwinding).course config n =
      q.courseWithin config n ++ (resume w m').course config n := by
  unfold course
  rw [asked, called, List.flatMap_cons]

theorem course_ask {w : q.task.Result} {m' : Machine} (called : q.outcome config = .done w m') :
    (ask q resume).course config n =
      q.courseWithin config n ++ (resume w m').course config n :=
  course_calls called

theorem concludes_ask {held : List Root} {e : Expr} {m m' : Machine} {flow : Flow}
    {resume : Value → Machine → Plan Flow}
    (ended : (ask ⟨n, held, .expression e, m⟩ resume).run config = .done flow m')
    (rest : ∀ w m'', evaluate config n held e m = .done w m'' →
      (resume w m'').run config = .done flow m' →
      Concludes config ((resume w m'').course config n) flow m') :
    Concludes config ((ask ⟨n, held, .expression e, m⟩ resume).course config n) flow m' := by
  obtain ⟨w, m'', called, later⟩ := run_calls_eq_done ended
  rw [course_ask called]
  refine (rest w m'' called later).prepend fun p member => ?_
  have only : p = ⟨n, held, .expression e, m⟩ := by
    cases n <;> exact List.mem_singleton.mp member
  rw [only]
  exact Point.not_returns

/-- A plan that calls nothing more concludes normally, if it yields no value. -/
theorem concludes_ends {outcome : Outcome Flow} {flow : Flow} {m : Machine}
    (normal : ∀ flow m, outcome = .done flow m → flow = .normal)
    (ended : (ends outcome).run config = .done flow m) :
    Concludes config ((ends outcome).course config n) flow m := by
  rw [normal flow m ended]
  exact .normal fun _ member => nomatch member

theorem concludes_normal {flow : Flow} {m m' : Machine}
    (ended : (done Flow.normal m').run config = .done flow m) :
    Concludes config ((done Flow.normal m').course config n) flow m :=
  concludes_ends (fun _ _ same => by cases same; rfl) ended

theorem concludes_andThen {β : Type} {x : Eval β} {flow : Flow} {m m' : Machine}
    (ended : (ends (Eval.andThen x (fun _ => Eval.result Flow.normal) m)).run config =
      .done flow m') : Concludes config
      ((ends (Eval.andThen x (fun _ => Eval.result Flow.normal) m)).course config n) flow m' := by
  refine concludes_ends (fun flow' m'' same => ?_) ended
  unfold Eval.andThen at same
  split at same <;> cases same
  rfl

end Plan

structure Concluding (config : Config) (n : Nat) : Prop where
  execute : ∀ {held : List Root} {s : Stmt} {m m' : Machine} {flow : Flow},
    execute config n held s m = .done flow m' →
      Concludes config (Point.course config ⟨n, held, .statement s, m⟩) flow m'
  executeAll : ∀ {held : List Root} {ss : List Stmt} {m m' : Machine} {flow : Flow},
    executeAll config n held ss m = .done flow m' →
      Concludes config (Point.course config ⟨n, held, .statements ss, m⟩) flow m'
  repeatWhile : ∀ {held : List Root} {condition : Expr} {body : Stmt} {m m' : Machine} {flow : Flow},
    repeatWhile config n held condition body m = .done flow m' →
      Concludes config (Point.course config ⟨n, held, .loop condition body, m⟩) flow m'

namespace Concluding

open Plan Eval

variable {config : Config} {n : Nat} {held : List Root} {m m' : Machine} {flow : Flow}

theorem zero (config : Config) : Concluding config 0 where
  execute impossible := nomatch impossible
  executeAll impossible := nomatch impossible
  repeatWhile impossible := nomatch impossible

/-- Statements that are carried out last conclude a plan. -/
theorem last {q : Point} {resume : q.task.Result → Machine → Plan Flow} {w : q.task.Result}
    {unwinding : Unwinding} {m₁ m' : Machine}
    (called : q.outcome config = .done w m₁) (silent : (resume w m₁).course config n = [])
    (sooner : Concludes config (q.courseWithin config n) flow m') :
    Concludes config ((calls q resume unwinding).course config n) flow m' := by
  rw [course_calls called, silent, List.append_nil]
  exact sooner

/-- Statements that are carried out next are followed by the rest of a plan, unless they return. -/
theorem next {q : Point} {resume : q.task.Result → Machine → Plan Flow} {w : q.task.Result}
    {m₁ m₂ m' : Machine} (called : q.outcome config = .done w m₁)
    (sooner : Concludes config (q.courseWithin config n) .normal m₂)
    (later : Concludes config ((resume w m₁).course config n) flow m') :
    Concludes config ((ask q resume).course config n) flow m' := by
  rw [course_ask called]
  exact later.prepend sooner.quiet

theorem course_statement (s : Stmt) : Point.course config ⟨n + 1, held, .statement s, m⟩ =
    ⟨n + 1, held, .statement s, m⟩ :: (planStatement config n held m s).course config n := rfl

theorem statement (below : Concluding config n) {s : Stmt}
    (ended : Lox.execute config (n + 1) held s m = .done flow m') :
    Concludes config (Point.course config ⟨n + 1, held, .statement s, m⟩) flow m' := by
  rw [← run_planStatement] at ended
  -- All statements but a `return` conclude as what they carry out.
  have plan (other : ∀ keyword value?, s ≠ .returns keyword value?)
      (concludes : Concludes config ((planStatement config n held m s).course config n) flow m') :
      Concludes config (Point.course config ⟨n + 1, held, .statement s, m⟩) flow m' := by
    rw [course_statement]
    refine concludes.cons ?_
    rintro ⟨keyword, value?, same⟩
    exact other keyword value? (Task.statement.inj same)
  cases s with
  | expression value => exact plan (fun _ _ => Stmt.noConfusion) (concludes_ask ended fun _ _ _ => concludes_normal)
  | print value => exact plan (fun _ _ => Stmt.noConfusion) (concludes_ask ended fun _ _ _ => concludes_andThen)
  | varDecl name initializer? =>
    cases initializer? with
    | none => exact plan (fun _ _ => Stmt.noConfusion) (concludes_normal ended)
    | some initializer => exact plan (fun _ _ => Stmt.noConfusion) (concludes_ask ended fun _ _ _ => concludes_normal)
  | block body =>
    obtain ⟨inside, m'', called, later⟩ := run_calls_eq_done ended
    cases later
    exact plan (fun _ _ => Stmt.noConfusion) (last called rfl ((below.executeAll called).leave _ _))
  | branch condition thenBranch elseBranch? =>
    refine plan (fun _ _ => Stmt.noConfusion) (concludes_ask ended fun value m₁ _ later => ?_)
    cases truth : value.isTruthy with
    | true =>
      rw [truth] at later
      obtain ⟨inside, m₂, called, rest⟩ := run_calls_eq_done later
      cases rest
      exact last called rfl (below.execute called)
    | false =>
      rw [truth] at later
      cases elseBranch? with
      | none => exact concludes_normal later
      | some elseBranch =>
        obtain ⟨inside, m₂, called, rest⟩ := run_calls_eq_done later
        cases rest
        exact last called rfl (below.execute called)
  | loop condition body =>
    obtain ⟨inside, m'', called, later⟩ := run_calls_eq_done ended
    cases later
    exact plan (fun _ _ => Stmt.noConfusion) (last called rfl (below.repeatWhile called))
  | functionDecl declaration => exact plan (fun _ _ => Stmt.noConfusion) (concludes_normal ended)
  | returns keyword value? =>
    cases value? with
    | none =>
      cases ended
      have silent : Quiet [] := nofun
      exact .returned silent (.nothing rfl) .refl
    | some value =>
      obtain ⟨v, m'', called, later⟩ := run_calls_eq_done ended
      cases later
      have single : (planStatement config n held m (.returns keyword (some value))).course config n =
          [⟨n, held, .expression value, m⟩] := by
        refine (course_ask called).trans ?_
        cases n <;> rfl
      rw [course_statement, single]
      have silent : Quiet [] := nofun
      exact .returned silent (.value rfl rfl called) .refl
  | classDecl name superclass? methods =>
    cases superclass? with
    | none => exact plan (fun _ _ => Stmt.noConfusion) (concludes_andThen ended)
    | some superclass =>
      refine plan (fun _ _ => Stmt.noConfusion) (concludes_ask ended fun above m₁ _ later => ?_)
      cases above with
      | «class» type => exact concludes_andThen later
      | _ => cases later

theorem statements (below : Concluding config n) {ss : List Stmt}
    (ended : Lox.executeAll config (n + 1) held ss m = .done flow m') :
    Concludes config (Point.course config ⟨n + 1, held, .statements ss, m⟩) flow m' := by
  rw [← run_planStatements] at ended
  have own : ¬Point.Returns ⟨n + 1, held, .statements ss, m⟩ := nofun
  refine Concludes.cons own ?_
  cases ss with
  | nil => exact concludes_normal ended
  | cons s rest =>
    obtain ⟨inside, m₁, called, later⟩ := run_calls_eq_done ended
    cases inside with
    | normal =>
      obtain ⟨_, m₂, others, end'⟩ := run_calls_eq_done later
      cases end'
      exact next called (below.execute called) (last others rfl (below.executeAll others))
    | returned value =>
      cases later
      exact last called rfl (below.execute called)

theorem loop (below : Concluding config n) {condition : Expr} {body : Stmt}
    (ended : Lox.repeatWhile config (n + 1) held condition body m = .done flow m') :
    Concludes config (Point.course config ⟨n + 1, held, .loop condition body, m⟩) flow m' := by
  rw [← run_planLoop] at ended
  have own : ¬Point.Returns ⟨n + 1, held, .loop condition body, m⟩ := nofun
  refine Concludes.cons own (concludes_ask ended fun value m₁ _ later => ?_)
  cases truth : value.isTruthy with
  | true =>
    rw [truth] at later
    obtain ⟨inside, m₂, called, again⟩ := run_calls_eq_done later
    cases inside with
    | normal =>
      obtain ⟨_, m₃, others, end'⟩ := run_calls_eq_done again
      cases end'
      exact next called (below.execute called) (last others rfl (below.repeatWhile others))
    | returned value =>
      cases again
      exact last called rfl (below.execute called)
  | false =>
    rw [truth] at later
    exact concludes_normal later

end Concluding

/-- However many steps there are, statements conclude as their course says. -/
theorem concluding (config : Config) (n : Nat) : Concluding config n := by
  induction n with
  | zero => exact .zero config
  | succ n ih => exact ⟨ih.statement, ih.statements, ih.loop⟩

end Lox
