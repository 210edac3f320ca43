import Lox.Proofs.Loops.Machines

namespace Lox

open Outcome Plan Eval

def Task.results : (task : Task) → task.Result → List Root
  | expression _, v | call _ _ _, v | apply _ _ _, v => [.value v]
  | expressions _, vs => vs.map .value
  | statement _, flow | statements _, flow | loop _ _, flow => flow.roots

/-- The program can go on with what a point yields. -/
theorem Steady.sound {config : Config} {p : Point} (steady : Steady config p) :
    (p.outcome config).Sat (fun v n => n.Sound (p.task.results v ++ p.held)) fun _ => True := by
  obtain ⟨steps, held, task, m⟩ := p
  obtain ⟨layers, after, ready⟩ := steady
  have ends := (Discipline.unrestricted config).preserves steps ready
  cases task with
  | expression e => exact Sat.mono ends (fun _ _ left => left.safe) fun _ _ => trivial
  | expressions es => exact Sat.mono ends (fun _ _ left => left.safe) fun _ _ => trivial
  | call callee line arguments => exact Sat.mono ends (fun _ _ left => left.safe) fun _ _ => trivial
  | apply f line arguments => exact Sat.mono ends (fun _ _ left => left.safe) fun _ _ => trivial
  | statement s =>
    exact Sat.mono ends (fun _ _ (left : DisciplineData.Finished _ _ _ _ _ _) => left.safe)
      fun _ _ => trivial
  | statements ss =>
    exact Sat.mono ends (fun _ _ (left : DisciplineData.Finished _ _ _ _ _ _) => left.safe)
      fun _ _ => trivial
  | loop condition body =>
    exact Sat.mono ends (fun _ _ (left : DisciplineData.Finished _ _ _ _ _ _) => left.safe)
      fun _ _ => trivial

theorem Machine.Sound.weaken (config : Config) {m : Machine} {held held' : List Root}
    (sound : m.Sound held) (fewer : held' ⊆ held) : m.Sound held' :=
  DisciplineData.Safe.weaken (D := Discipline.unrestricted config) sound
    (DisciplineData.roots_subset fewer)

namespace World

/-- The first task is the second one, below an additional scope. -/
inductive Tasks (w : World) (depth : Depth) : Task → Task → Prop where
  | expression {e e' : Expr} (code : e.Deepened depth e') : Tasks w depth (.expression e) (.expression e')
  | expressions {es es' : List Expr} (code : List.Forall₂ (Expr.Deepened depth) es es') :
      Tasks w depth (.expressions es) (.expressions es')
  | call {callee callee' : Value} {line : Nat} {arguments arguments' : List Value}
      (called : w.Values callee callee') (given : List.Forall₂ w.Values arguments arguments') :
      Tasks w depth (.call callee line arguments) (.call callee' line arguments')
  | apply {f f' : Closure} {line : Nat} {arguments arguments' : List Value} (code : w.Closures 0 f f')
      (given : List.Forall₂ w.Values arguments arguments') :
      Tasks w depth (.apply f line arguments) (.apply f' line arguments')
  | statement {s s' : Stmt} (code : s.Deepened depth s') : Tasks w depth (.statement s) (.statement s')
  | statements {ss ss' : List Stmt} (code : Stmts.Deepened depth ss ss') :
      Tasks w depth (.statements ss) (.statements ss')
  | loop {condition condition' : Expr} {body body' : Stmt} (tested : condition.Deepened depth condition')
      (repeated : body.Deepened depth body') :
      Tasks w depth (.loop condition body) (.loop condition' body')

def Results (w : World) : (t t' : Task) → t.Result → t'.Result → Prop
  | .expression _, .expression _, v, v' | .call _ _ _, .call _ _ _, v, v'
  | .apply _ _ _, .apply _ _ _, v, v' => w.Values v v'
  | .expressions _, .expressions _, vs, vs' => List.Forall₂ w.Values vs vs'
  | .statement _, .statement _, flow, flow' | .statements _, .statements _, flow, flow'
  | .loop _ _, .loop _ _, flow, flow' => w.Flows flow flow'
  | _, _, _, _ => False

structure Points (w : World) (depth : Depth) (p p' : Point) : Prop where
  steps : p.steps = p'.steps
  tasks : w.Tasks depth p.task p'.task
  machines : w.Machines depth p.machine p'.machine

inductive Plans {α α' : Type} (config : Config) (depth : Depth) (related : World → α → α' → Prop) :
    World → Plan α → Plan α' → Prop where
  | ends {w : World} {o : Outcome α} {o' : Outcome α'} (outcomes : w.Outcomes depth related o o') :
      Plans config depth related w (.ends o) (.ends o')
  | calls {w w' : World} {inner : Depth} {q q' : Point} {resume : q.task.Result → Machine → Plan α}
      {resume' : q'.task.Result → Machine → Plan α'} {unwinding unwinding' : Unwinding}
      (after : w.Later w') (points : w'.Points inner q q')
      (rest : ∀ {w'' v v' n n'}, w'.Later w'' → w''.Results q.task q'.task v v' →
        w''.Machines inner n n' → n.Sound (q.task.results v ++ q.held) →
        Plans config depth related w'' (resume v n) (resume' v' n'))
      (back : ∀ {w'' n n'}, w'.Later w'' → w''.Machines inner n n' →
        w''.Machines depth (unwinding.run config n) (unwinding'.run config n')) :
      Plans config depth related w (.calls q resume unwinding) (.calls q' resume' unwinding')

variable {w w' : World} {depth : Depth} {config : Config} {n : Nat} {held held' : List Root}
  {m m' : Machine}

theorem attempts_atom {attempt : Except Fault Value} (atom : ∀ v, attempt = .ok v → v.objects = []) :
    Attempts w.Values attempt attempt := by
  cases attempt with
  | ok v => exact .ok (.atom (atom v rfl))
  | error fault => exact .error

abbrev Yields (t t' : Task) (w : World) : t.Result → t'.Result → Prop := w.Results t t'

namespace Plans

variable {α α' : Type} {related : World → α → α' → Prop}

theorem run {plan : Plan α} {plan' : Plan α'} (plans : Plans config depth related w plan plan')
    (parts : ∀ q ∈ plan.asked config, ∀ {w : World} {inner : Depth} {q' : Point}, w.Points inner q q' →
      w.Outcomes inner (Yields q.task q'.task) (q.outcome config) (q'.outcome config))
    (steady : ∀ q ∈ plan.asked config, Steady config q) :
    w.Outcomes depth related (plan.run config) (plan'.run config) := by
  induction plans with
  | ends outcomes => exact outcomes
  | @calls w w' inner q q' resume resume' unwinding unwinding' after points rest back ih =>
    have member : q ∈ (Plan.calls q resume unwinding).asked config := mem_asked_calls.mpr (.inl rfl)
    have called := parts q member points
    have safe := (steady q member).sound
    rw [Plan.run, Plan.run]
    generalize ended : q.outcome config = o at called safe
    generalize q'.outcome config = o' at called
    cases called with
    | @done w'' v v' n n' later value machines =>
      have asked : ∀ r ∈ (resume v n).asked config, r ∈ (Plan.calls q resume unwinding).asked config :=
        fun r asked => mem_asked_calls.mpr (.inr ⟨v, n, ended, asked⟩)
      exact (ih later value machines safe (fun r member => parts r (asked r member))
        fun r member => steady r (asked r member)).later (after.trans later)
    | failed later machines => exact .failed (after.trans later) (back later machines)
    | unfinished => exact .unfinished

theorem done {v : α} {v' : α'} (value : related w v v') (machines : w.Machines depth m m') :
    Plans config depth related w (Plan.done v m) (Plan.done v' m') :=
  .ends (.done (.refl w) value machines)

theorem ask {q q' : Point} {resume : q.task.Result → Machine → Plan α}
    {resume' : q'.task.Result → Machine → Plan α'} (points : w.Points depth q q')
    (rest : ∀ {w' v v' n n'}, w.Later w' → w'.Results q.task q'.task v v' → w'.Machines depth n n' →
      n.Sound (q.task.results v ++ q.held) →
      Plans config depth related w' (resume v n) (resume' v' n')) :
    Plans config depth related w (Plan.ask q resume) (Plan.ask q' resume') :=
  .calls (.refl w) points rest fun _ machines => machines

theorem planExpression {e e' : Expr} (code : e.Deepened depth e') (machines : w.Machines depth m m')
    (sound : m.Sound held) :
    Plans config depth World.Values w (Eval.planExpression n held m e)
      (Eval.planExpression n held' m' e') := by
  cases code with
  | literal => exact done (.ofConstant _) machines
  | unary operand =>
    refine ask ⟨rfl, .expression operand, machines⟩ fun {w₁ v v' _ _} _ value machines _ => .ends ?_
    change w₁.Values v v' at value
    rw [value.applyUnary]
    exact .ofExcept machines (attempts_atom fun _ ok => applyUnary_atom ok)
  | binary first second =>
    refine ask ⟨rfl, .expression first, machines⟩ fun {w₁ u u' _ _} _ left machines _ => ?_
    refine ask ⟨rfl, .expression second, machines⟩ fun {w₂ v v' _ _} after right machines _ => .ends ?_
    -- What stood for the left operand before the right one was evaluated still does.
    have left' : w₂.Values u u' := Values.later after left
    rw [left'.applyBinary machines.stores.sharp right]
    exact .ofExcept machines (attempts_atom fun _ ok => applyBinary_atom ok)
  | @logical left left' right right' operator first second =>
    refine ask ⟨rfl, .expression first, machines⟩ fun {w₁ u u' _ _} _ value machines _ => ?_
    change w₁.Values u u' at value
    dsimp only
    rw [value.decidesAlone operator]
    split
    · exact done value machines
    · exact ask ⟨rfl, .expression second, machines⟩ fun _ value machines _ => done value machines
  | grouping within => exact ask ⟨rfl, .expression within, machines⟩ fun _ value machines _ => done value machines
  | «variable» => exact .ends (machines.lookUp sound _ _)
  | assign assigned =>
    refine ask ⟨rfl, .expression assigned, machines⟩ fun {w₁ v v' n n'} _ value machines safe => .ends ?_
    have sound' : n.Sound held := safe.weaken config (List.subset_cons_self _ _)
    exact .andThen_result (machines.assign sound' _ _ value) fun after => Values.later after value
  | call called given =>
    refine ask ⟨rfl, .expression called, machines⟩ fun _ callee machines _ => ?_
    refine ask ⟨rfl, .expressions given, machines⟩ fun after values machines _ => ?_
    exact ask ⟨rfl, .call (Values.later after callee) values, machines⟩ fun _ value machines _ => done value machines
  | get owner =>
    refine ask ⟨rfl, .expression owner, machines⟩ fun {w₁ v v' n n'} _ value machines safe => ?_
    change w₁.Values v v' at value
    cases value with
    | «instance» same code => exact .ends (machines.property safe (.instance same code) _)
    | _ => exact .ends (.failed (.refl _) machines)
  | set owner assigned =>
    refine ask ⟨rfl, .expression owner, machines⟩ fun {w₁ v v' n n'} _ value machines safe => ?_
    change w₁.Values v v' at value
    cases value with
    | «instance» same code =>
      refine ask ⟨rfl, .expression assigned, machines⟩ fun after value machines _ => ?_
      exact done value (machines.replace (.refl _)
        (machines.stores.setField (after.pairs same) _ value))
    | _ => exact .ends (.failed (.refl _) machines)
  | this => exact .ends (machines.lookUp sound _ _)
  | super apart => exact .ends (machines.superMethod sound _ _ _ apart)

theorem planExpressions {es es' : List Expr} (code : List.Forall₂ (Expr.Deepened depth) es es')
    (machines : w.Machines depth m m') :
    Plans config depth (fun w => List.Forall₂ w.Values) w (Eval.planExpressions n held m es)
      (Eval.planExpressions n held' m' es') := by
  cases code with
  | nil => exact done .nil machines
  | cons first others =>
    refine ask ⟨rfl, .expression first, machines⟩ fun _ value machines _ => ?_
    refine ask ⟨rfl, .expressions others, machines⟩ fun after values machines _ => ?_
    exact done (.cons (Values.later after value) values) machines

theorem planActivity {callee callee' : Value} {arguments arguments' : List Value} (line : Nat)
    (called : w.Values callee callee') (given : List.Forall₂ w.Values arguments arguments')
    (machines : w.Machines depth m m') (sound : m.Sound (.value callee :: held)) :
    Plans config depth World.Values w (Eval.planActivity config n held m line arguments callee)
      (Eval.planActivity config n held' m' line arguments' callee') := by
  cases called with
  | @native function =>
    cases function
    exact .ends (machines.deepen.readClock config).asCall
  | closure code =>
    refine .calls (.refl w) ⟨rfl, .apply code given, machines.deepen⟩ ?_ fun _ inside => inside.surface
    exact fun _ value inside _ => done value inside.surface
  | @«class» type type' code =>
    have after := later_number w m.store.next m'.store.next
    have made : (w.number m.store.next m'.store.next).Values
        (.instance m.store.newInstance.1 type) (.instance m'.store.newInstance.1 type') :=
      .instance (.inl ⟨rfl, rfl⟩) (code.later after)
    have inherited := code.findMethod? initializerName
    unfold Eval.planActivity
    dsimp only
    generalize declared : type.findMethod? initializerName = method? at inherited ⊢
    generalize type'.findMethod? initializerName = method'? at inherited ⊢
    cases inherited with
    | none => exact .ends (.done after made machines.withInstance.surface)
    | some closures =>
      obtain ⟨w', later, bound, inside⟩ := machines.withInitializer sound code closures declared
      have given' := given.imp fun _ _ values => (values.later after).later later
      refine .calls (after.trans later) ⟨rfl, .apply bound given', inside⟩ ?_
        fun _ inside => inside.surface
      exact fun further _ inside _ => done ((made.later later).later further) inside.surface
  | _ => exact .ends (.failed (.refl w) machines)

theorem planCallee {callee callee' : Value} {arguments arguments' : List Value} (line : Nat)
    (called : w.Values callee callee') (given : List.Forall₂ w.Values arguments arguments')
    (machines : w.Machines depth m m') (sound : m.Sound (.value callee :: held)) :
    Plans config depth World.Values w (Eval.planCallee config n held m line arguments callee)
      (Eval.planCallee config n held' m' line arguments' callee') := by
  unfold Eval.planCallee Eval.planCall
  rw [called.arity?, given.length_eq, machines.active]
  cases callee'.arity? with
  | none => exact .ends (.failed (.refl w) machines)
  | some arity =>
    dsimp only
    split
    · split
      · exact planActivity line called given machines sound
      · exact .ends (.failed (.refl w) machines)
    · exact .ends (.failed (.refl w) machines)

/-- The body runs in a scope of its own, and both runs go back to where the call was. -/
theorem planBody (idle : config.Idle) {f f' : Closure} {arguments arguments' : List Value} (line : Nat)
    (code : w.Closures 0 f f') (given : List.Forall₂ w.Values arguments arguments')
    (machines : w.Machines depth m m') :
    Plans config depth World.Values w (Eval.planBody config n held m f line arguments)
      (Eval.planBody config n held' m' f' line arguments') := by
  obtain ⟨w', inner, after, body, matched, entered⟩ := machines.enterFunction code given
  refine .calls after ⟨rfl, .statements body, entered⟩ ?_ fun later inside =>
    inside.leave idle _ _ matched ((after.trans later).places machines.scope)
  intro w'' flow flow' n n' later flows inside _
  change w''.Flows flow flow' at flows
  have outside := inside.leave idle (flow.roots ++ .scope f.scope :: held)
    (flow'.roots ++ .scope f'.scope :: held') matched ((after.trans later).places machines.scope)
  obtain ⟨outer, place, regular, _⟩ := code.placed
  dsimp only
  rw [code.isInitializer]
  split
  · exact .ends (.ofExcept outside (outside.stores.readAt_self
      ((after.trans later).places place) regular "this" line))
  · exact done flows.result outside

theorem planStatement (idle : config.Idle) {s s' : Stmt} (code : s.Deepened depth s')
    (machines : w.Machines depth m m') (sound : m.Sound held) :
    Plans config depth World.Flows w (Eval.planStatement config n held m s)
      (Eval.planStatement config n held' m' s') := by
  cases code with
  | expression evaluated =>
    exact ask ⟨rfl, .expression evaluated, machines⟩ fun _ _ machines _ => done .normal machines
  | print printed =>
    refine ask ⟨rfl, .expression printed, machines⟩ fun {w₁ v v' _ _} _ value machines _ => .ends ?_
    change w₁.Values v v' at value
    rw [value.text]
    exact .andThen_result (machines.write config _) fun _ => .normal
  | varDecl declaring initial =>
    cases initial with
    | none => exact .ends (.andThen_result (machines.define declaring _ .nil) fun _ => .normal)
    | some initial =>
      refine ask ⟨rfl, .expression initial, machines⟩ fun _ value machines _ => .ends ?_
      exact .andThen_result (machines.define declaring _ value) fun _ => .normal
  | block inside =>
    obtain ⟨w', after, entered⟩ := machines.enterBlock sound
    have matched := depth.inside_ne_zero 0
    refine .calls after ⟨rfl, .statements inside, entered⟩ ?_ fun later inside =>
      inside.leave idle _ _ matched ((after.trans later).places machines.scope)
    exact fun later flows inside _ => done flows
      (inside.leave idle _ _ matched ((after.trans later).places machines.scope))
  | branch tested first =>
    refine ask ⟨rfl, .expression tested, machines⟩ fun {w₁ v v' _ _} _ value machines _ => ?_
    change w₁.Values v v' at value
    dsimp only
    rw [value.isTruthy]
    split
    · exact ask ⟨rfl, .statement first, machines⟩ fun _ flows machines _ => done flows machines
    · exact done .normal machines
  | choice tested first second =>
    refine ask ⟨rfl, .expression tested, machines⟩ fun {w₁ v v' _ _} _ value machines _ => ?_
    change w₁.Values v v' at value
    dsimp only
    rw [value.isTruthy]
    split
    · exact ask ⟨rfl, .statement first, machines⟩ fun _ flows machines _ => done flows machines
    · exact ask ⟨rfl, .statement second, machines⟩ fun _ flows machines _ => done flows machines
  | loop tested repeated =>
    exact ask ⟨rfl, .loop tested repeated, machines⟩ fun _ flows machines _ => done flows machines
  | @functionDecl _ declaration declaration' declaring within =>
    have code : declaration.Deepened (depth.inside 0) declaration' := by rwa [Depth.inside_zero]
    refine .ends (.andThen (machines.close machines.scope declaring (stands_scope sound) code false)
      fun _ _ closures machines => ?_)
    rw [within.name]
    exact .andThen_result (machines.define declaring _ (.closure closures)) fun _ => .normal
  | returns returned =>
    cases returned with
    | none => exact done (.returned .nil) machines
    | some returned =>
      exact ask ⟨rfl, .expression returned, machines⟩ fun _ value machines _ =>
        done (.returned value) machines
  | classDecl declaring within =>
    exact .ends (.andThen_result (machines.declareClass sound declaring _ .none within) fun _ => .normal)
  | subclass declaring line above within =>
    refine ask ⟨rfl, .expression above, machines⟩ fun {w₁ v v' n n'} _ value machines safe => ?_
    change w₁.Values v v' at value
    have sound' : n.Sound held := safe.weaken config (List.subset_cons_self _ _)
    cases value with
    | «class» code =>
      exact .ends (.andThen_result (machines.declareClass sound' declaring _ (.some code) within)
        fun _ => .normal)
    | _ =>
      dsimp only
      rw [line]
      exact .ends (.failed (.refl _) machines)

theorem planStatements {ss ss' : List Stmt} (code : Stmts.Deepened depth ss ss')
    (machines : w.Machines depth m m') :
    Plans config depth World.Flows w (Eval.planStatements n held m ss)
      (Eval.planStatements n held' m' ss') := by
  cases code with
  | nil => exact done .normal machines
  | cons first others =>
    refine ask ⟨rfl, .statement first, machines⟩ fun {w₁ flow flow' _ _} _ flows machines _ => ?_
    change w₁.Flows flow flow' at flows
    cases flows with
    | normal =>
      exact ask ⟨rfl, .statements others, machines⟩ fun _ flows machines _ => done flows machines
    | returned values => exact done (.returned values) machines

theorem planLoop {condition condition' : Expr} {body body' : Stmt}
    (tested : condition.Deepened depth condition') (repeated : body.Deepened depth body')
    (machines : w.Machines depth m m') :
    Plans config depth World.Flows w (Eval.planLoop n held m condition body)
      (Eval.planLoop n held' m' condition' body') := by
  refine ask ⟨rfl, .expression tested, machines⟩ fun {w₁ v v' _ _} _ value machines _ => ?_
  change w₁.Values v v' at value
  dsimp only
  rw [value.isTruthy]
  split
  · refine ask ⟨rfl, .statement repeated, machines⟩ fun {w₂ flow flow' _ _} _ flows machines _ => ?_
    change w₂.Flows flow flow' at flows
    cases flows with
    | normal =>
      exact ask ⟨rfl, .loop tested repeated, machines⟩ fun _ flows machines _ => done flows machines
    | returned values => exact done (.returned values) machines
  · exact done .normal machines

end Plans

namespace Points

variable {p p' : Point}

theorem plan (idle : config.Idle) (points : w.Points depth p p')
    (sound : p.machine.Sound (p.task.inputs ++ p.held)) :
    Plans config depth (Yields p.task p'.task) w (p.plan config) (p'.plan config) := by
  obtain ⟨steps, held, task, m⟩ := p
  obtain ⟨steps', held', task', m'⟩ := p'
  obtain ⟨rfl, tasks, machines⟩ := points
  cases steps with
  | zero => cases tasks <;> exact .ends .unfinished
  | succ n =>
    cases tasks with
    | expression code => exact Plans.planExpression code machines sound
    | expressions code => exact Plans.planExpressions code machines
    | call called given =>
      refine Plans.planCallee _ called given machines (sound.weaken config ?_)
      exact List.cons_subset_cons _ (List.subset_append_right _ _)
    | apply code given => exact Plans.planBody idle _ code given machines
    | statement code => exact Plans.planStatement idle code machines sound
    | statements code => exact Plans.planStatements code machines
    | loop tested repeated => exact Plans.planLoop tested repeated machines

theorem outcomes (idle : config.Idle) (points : w.Points depth p p') (steady : Steady config p) :
    w.Outcomes depth (Yields p.task p'.task) (p.outcome config) (p'.outcome config) := by
  induction steps : p.steps using Nat.strongRecOn generalizing w depth p p' with
  | ind n ih =>
    obtain ⟨layers, after, ready⟩ := steady
    have calls : ∀ q ∈ (p.plan config).asked config, Calls config p q := fun q asked =>
      Point.calls_of_mem_parts asked
    have whole := (points.plan idle ready.safe).run (fun q asked w inner q' points => by
      have fewer := (calls q asked).steps_eq
      exact ih q.steps (by omega) points (Steady.next ⟨layers, after, ready⟩ (calls q asked)) rfl)
      fun q asked => Steady.next ⟨layers, after, ready⟩ (calls q asked)
    rwa [Point.run_plan, Point.run_plan] at whole

end Points
end World
end Lox
