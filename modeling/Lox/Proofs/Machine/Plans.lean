import Lox.Proofs.Machine.Reachable

namespace Lox

def Value.arity? : Value → Option Nat
  | native function => some function.arity
  | closure function => some function.arity
  | .class type => some type.arity
  | nil | bool _ | number _ | string _ | .instance _ _ => none

@[reducible]
def Task.Result : Task → Type
  | expression _ | call _ _ _ | apply _ _ _ => Value
  | expressions _ => List Value
  | statement _ | statements _ | loop _ _ => Flow

def Point.outcome (config : Config) : (p : Point) → Outcome p.task.Result
  | ⟨n, held, .expression e, m⟩ => evaluate config n held e m
  | ⟨n, held, .expressions es, m⟩ => evaluateAll config n held es m
  | ⟨n, held, .call callee line arguments, m⟩ => call config n held callee line arguments m
  | ⟨n, held, .apply function line arguments, m⟩ => apply config n held function line arguments m
  | ⟨n, held, .statement s, m⟩ => execute config n held s m
  | ⟨n, held, .statements ss, m⟩ => executeAll config n held ss m
  | ⟨n, held, .loop condition body, m⟩ => repeatWhile config n held condition body m

/-- What is left to do after a fault in a point that has been called. -/
inductive Unwinding where
  | nothing
  | counted
  | back (held : List Root) (previous : ScopeId)

def Unwinding.run (config : Config) : Unwinding → Machine → Machine
  | nothing, m => m
  | counted, m => { m with depth := m.depth - 1 }
  | back held previous, m => m.leave config held previous

/-- What a point does: it ends, or it calls another one and goes on from what that one yields. -/
inductive Plan (α : Type) where
  | ends (outcome : Outcome α)
  | calls (q : Point) (resume : q.task.Result → Machine → Plan α) (unwinding : Unwinding)

namespace Plan

variable {α : Type}

/-- Calls a point whose end, if it is a fault, is also the end of the plan. -/
def ask (q : Point) (resume : q.task.Result → Machine → Plan α) : Plan α :=
  .calls q resume .nothing

def done (value : α) (m : Machine) : Plan α := .ends (.done value m)

def run (config : Config) : Plan α → Outcome α
  | ends outcome => outcome
  | calls q resume unwinding =>
    match q.outcome config with
    | .done value m => (resume value m).run config
    | .failed fault m => .failed fault (unwinding.run config m)
    | .unfinished => .unfinished

def asked (config : Config) : Plan α → List Point
  | ends _ => []
  | calls q resume _ =>
    q :: match q.outcome config with
      | .done value m => (resume value m).asked config
      | .failed _ _ | .unfinished => []

end Plan

namespace Eval

open Plan

variable (config : Config) (n : Nat) (held : List Root) (m : Machine)

def planCall (line arity count : Nat) (active : Plan Value) : Plan Value :=
  if count = arity then
    if m.depth < config.maxDepth then active else .ends (.failed (.stackOverflow line) m)
  else .ends (broken (.wrongArity arity count) line m)

def planActive (q : Point) (yield : q.task.Result → Value) : Plan Value :=
  .calls q (fun value m => .done (yield value) { m with depth := m.depth - 1 }) .counted

def planExpression : Expr → Plan Value
  | .literal value => .done (.ofConstant value) m
  | .grouping inner => .ask ⟨n, held, .expression inner, m⟩ .done
  | .unary operator right =>
    .ask ⟨n, held, .expression right, m⟩ fun right m =>
    .ends (ofExcept (applyUnary operator right) m)
  | .binary left operator right =>
    .ask ⟨n, held, .expression left, m⟩ fun left m =>
    .ask ⟨n, .value left :: held, .expression right, m⟩ fun right m =>
    .ends (ofExcept (applyBinary operator left right) m)
  | .logical left operator right =>
    .ask ⟨n, held, .expression left, m⟩ fun left m =>
    if decidesAlone operator left then .done left m
    else .ask ⟨n, held, .expression right, m⟩ .done
  | .variable name distance => .ends (lookUp name distance m)
  | .assign name value distance =>
    .ask ⟨n, held, .expression value, m⟩ fun value m =>
    .ends (andThen (Eval.assign name distance value) (fun _ => result value) m)
  | .call callee paren arguments =>
    .ask ⟨n, held, .expression callee, m⟩ fun callee m =>
    .ask ⟨n, .value callee :: held, .expressions arguments, m⟩ fun arguments m =>
    .ask ⟨n, .value callee :: held, .call callee paren.line arguments, m⟩ .done
  | .get object name =>
    .ask ⟨n, held, .expression object, m⟩ fun object m =>
    match object with
    | .instance id type => .ends (property id type name m)
    | _ => .ends (broken .noProperties name.line m)
  | .set object name value =>
    .ask ⟨n, held, .expression object, m⟩ fun object m =>
    match object with
    | .instance id type =>
      .ask ⟨n, .value (.instance id type) :: held, .expression value, m⟩ fun value m =>
      .done value { m with store := m.store.setField id name.lexeme value }
    | _ => .ends (broken .noFields name.line m)
  | .this keyword distance => .ends (lookUp keyword distance m)
  | .super keyword method distance => .ends (superMethod keyword method distance m)

def planExpressions : List Expr → Plan (List Value)
  | [] => .done [] m
  | e :: rest =>
    .ask ⟨n, held, .expression e, m⟩ fun value m =>
    .ask ⟨n, .value value :: held, .expressions rest, m⟩ fun values m =>
    .done (value :: values) m

def planActivity (line : Nat) (arguments : List Value) : Value → Plan Value
  | .native .clock => .ends (asCall (readClock config) m)
  | .closure function =>
    planActive ⟨n, held, .apply function line arguments, { m with depth := m.depth + 1 }⟩ id
  | .class type =>
    match type.findMethod? initializerName with
    | some method =>
      planActive ⟨n, .value (.instance m.store.newInstance.1 type) :: held,
        .apply (m.store.newInstance.2.bind method m.store.newInstance.1 type).1 line arguments,
        m.withInitializer method type⟩ fun _ => .instance m.store.newInstance.1 type
    | none =>
      .done (.instance m.store.newInstance.1 type)
        { m.withInstance with depth := m.withInstance.depth - 1 }
  | _ => .ends (broken .notCallable line m)

def planCallee (line : Nat) (arguments : List Value) (callee : Value) : Plan Value :=
  match callee.arity? with
  | some arity =>
    planCall config m line arity arguments.length
      (planActivity config n held m line arguments callee)
  | none => .ends (broken .notCallable line m)

def planBody (function : Closure) (line : Nat) (arguments : List Value) : Plan Value :=
  .calls ⟨n, .scope m.scope :: .scope function.scope :: held,
      .statements function.declaration.body, m.enterFunction function arguments⟩
    (fun flow m' =>
      let m' := m'.leave config (flow.roots ++ .scope function.scope :: held) m.scope
      if function.isInitializer then
        .ends (ofExcept (m'.store.readAt function.scope 0 "this" line) m')
      else .done flow.result m')
    (.back (.scope function.scope :: held) m.scope)

def planStatement : Stmt → Plan Flow
  | .expression value => .ask ⟨n, held, .expression value, m⟩ fun _ m => .done .normal m
  | .print value =>
    .ask ⟨n, held, .expression value, m⟩ fun value m =>
    .ends (andThen (Machine.write config (value.text.push '\n').toUTF8)
      (fun _ => result .normal) m)
  | .varDecl name none => .ends (andThen (define name .nil) (fun _ => result .normal) m)
  | .varDecl name (some initializer) =>
    .ask ⟨n, held, .expression initializer, m⟩ fun value m =>
    .ends (andThen (define name value) (fun _ => result .normal) m)
  | .block body =>
    .calls ⟨n, .scope m.scope :: held, .statements body, m.enterBlock⟩
      (fun flow m' => .done flow (m'.leave config (flow.roots ++ held) m.scope))
      (.back held m.scope)
  | .branch condition thenBranch elseBranch? =>
    .ask ⟨n, held, .expression condition, m⟩ fun condition m =>
    if condition.isTruthy then .ask ⟨n, held, .statement thenBranch, m⟩ .done
    else
      match elseBranch? with
      | some elseBranch => .ask ⟨n, held, .statement elseBranch, m⟩ .done
      | none => .done .normal m
  | .loop condition body => .ask ⟨n, held, .loop condition body, m⟩ .done
  | .functionDecl declaration =>
    .ends (andThen (close m.scope declaration false)
      (fun function => andThen (define declaration.name (.closure function))
        fun _ => result .normal) m)
  | .returns _ none => .done (.returned .nil) m
  | .returns _ (some value) =>
    .ask ⟨n, held, .expression value, m⟩ fun value m => .done (.returned value) m
  | .classDecl name none methods =>
    .ends (andThen (declareClass name none methods) (fun _ => result .normal) m)
  | .classDecl name (some superclass) methods =>
    .ask ⟨n, held, .expression superclass, m⟩ fun above m =>
    match above with
    | .class type =>
      .ends (andThen (declareClass name (some type) methods) (fun _ => result .normal) m)
    | _ => .ends (broken .superclassNotClass (superclassLine name superclass) m)

def planStatements : List Stmt → Plan Flow
  | [] => .done .normal m
  | s :: rest =>
    .ask ⟨n, held, .statement s, m⟩ fun flow m =>
    match flow with
    | .normal => .ask ⟨n, held, .statements rest, m⟩ .done
    | .returned value => .done (.returned value) m

def planLoop (condition : Expr) (body : Stmt) : Plan Flow :=
  .ask ⟨n, held, .expression condition, m⟩ fun value m =>
  if value.isTruthy then
    .ask ⟨n, held, .statement body, m⟩ fun flow m =>
    match flow with
    | .normal => .ask ⟨n, held, .loop condition body, m⟩ .done
    | .returned value => .done (.returned value) m
  else .done .normal m

end Eval

def Point.plan (config : Config) : (p : Point) → Plan p.task.Result
  | ⟨0, _, _, _⟩ => .ends .unfinished
  | ⟨n + 1, held, .expression e, m⟩ => Eval.planExpression n held m e
  | ⟨n + 1, held, .expressions es, m⟩ => Eval.planExpressions n held m es
  | ⟨n + 1, held, .call callee line arguments, m⟩ =>
    Eval.planCallee config n held m line arguments callee
  | ⟨n + 1, held, .apply function line arguments, m⟩ =>
    Eval.planBody config n held m function line arguments
  | ⟨n + 1, held, .statement s, m⟩ => Eval.planStatement config n held m s
  | ⟨n + 1, held, .statements ss, m⟩ => Eval.planStatements n held m ss
  | ⟨n + 1, held, .loop condition body, m⟩ => Eval.planLoop n held m condition body

namespace Plan

variable {config : Config} {α : Type}

theorem run_ask {q : Point} {resume : q.task.Result → Machine → Plan α} {x : Eval q.task.Result}
    {next : q.task.Result → Eval α} {m : Machine} (called : q.outcome config = x m)
    (rest : ∀ value m', (resume value m').run config = next value m') :
    (ask q resume).run config = (x >>= next) m := by
  show (ask q resume).run config = Eval.andThen x next m
  unfold ask run Eval.andThen
  rw [called]
  cases x m with
  | done value m' => exact rest value m'
  | failed fault m' => rfl
  | unfinished => rfl

theorem run_ask_done (q : Point) : (ask q done).run config = q.outcome config := by
  unfold ask run
  cases q.outcome config <;> rfl

theorem run_planCall {line arity count : Nat} {m : Machine} {active : Plan Value}
    {body : Eval Value} (inside : active.run config = Eval.asCall body m) :
    (Eval.planCall config m line arity count active).run config =
      Eval.invoke config line arity count body m := by
  rw [Discipline.invoke_eq]
  unfold Eval.planCall
  split
  · split
    · exact inside
    · rfl
  · rfl

theorem run_planActive {m m' : Machine} {q : Point} {yield : q.task.Result → Value}
    {x : Eval q.task.Result} {body : Eval Value} (called : q.outcome config = x m')
    (same : body { m with depth := m.depth + 1 } =
      (x >>= fun value => pure (yield value)) m') :
    (Eval.planActive q yield).run config = Eval.asCall body m := by
  change body { m with depth := m.depth + 1 } =
    Eval.andThen x (fun value => Eval.result (yield value)) m' at same
  unfold Eval.planActive run Eval.asCall
  rw [same, called]
  unfold Eval.andThen
  cases x m' <;> rfl

end Plan

namespace Eval

variable (config : Config) (n : Nat) (held : List Root) (m : Machine)

theorem andThen_result {α : Type} (x : Eval α) (m : Machine) :
    (x >>= fun value => pure value) m = x m := by
  show andThen x result m = x m
  unfold andThen
  cases x m <;> rfl

theorem run_activation {α : Type} (ss : List Stmt) (scope : ScopeId)
    {resume : Flow → Machine → Plan α} {next : Flow → Eval α}
    (rest : ∀ flow m', (resume flow m').run config =
      next flow (m'.leave config (flow.roots ++ held) m.scope)) :
    (Plan.calls ⟨n, .scope m.scope :: held, .statements ss, { m with scope := scope }⟩ resume
      (.back held m.scope)).run config =
      (activation config held scope (fun held => executeAll config n held ss) >>= next) m := by
  show _ = andThen _ next m
  unfold Plan.run activation andThen
  simp only [Point.outcome]
  cases executeAll config n (.scope m.scope :: held) ss { m with scope := scope } with
  | done flow m' => exact rest flow m'
  | failed fault m' => rfl
  | unfinished => rfl

theorem run_planExpression (e : Expr) :
    (planExpression n held m e).run config = evaluate config (n + 1) held e m := by
  cases e with
  | literal value => rfl
  | grouping inner => exact Plan.run_ask_done _
  | unary operator right => exact Plan.run_ask rfl fun _ _ => rfl
  | binary left operator right =>
    exact Plan.run_ask rfl fun _ _ => Plan.run_ask rfl fun _ _ => rfl
  | logical left operator right =>
    refine Plan.run_ask rfl fun left m => ?_
    cases decidesAlone operator left with
    | true => rfl
    | false => exact Plan.run_ask_done _
  | «variable» name distance => rfl
  | assign name value distance => exact Plan.run_ask rfl fun _ _ => rfl
  | call callee paren arguments =>
    exact Plan.run_ask rfl fun _ _ => Plan.run_ask rfl fun _ _ => Plan.run_ask_done _
  | get object name =>
    refine Plan.run_ask rfl fun object m => ?_
    cases object <;> rfl
  | set object name value =>
    refine Plan.run_ask rfl fun object m => ?_
    cases object with
    | «instance» id type => exact Plan.run_ask rfl fun _ _ => rfl
    | _ => rfl
  | this keyword distance => rfl
  | super keyword method distance => rfl

theorem run_planExpressions (es : List Expr) :
    (planExpressions n held m es).run config = evaluateAll config (n + 1) held es m := by
  cases es with
  | nil => rfl
  | cons e rest => exact Plan.run_ask rfl fun _ _ => Plan.run_ask rfl fun _ _ => rfl

theorem run_planCallee (line : Nat) (arguments : List Value) (callee : Value) :
    (planCallee config n held m line arguments callee).run config =
      call config (n + 1) held callee line arguments m := by
  cases callee with
  | native function =>
    cases function
    exact Plan.run_planCall rfl
  | closure function =>
    refine Plan.run_planCall (Plan.run_planActive rfl ?_)
    exact (andThen_result _ _).symm
  | «class» type =>
    refine Plan.run_planCall ?_
    cases declared : type.findMethod? initializerName with
    | none =>
      simp only [planActivity, declared]
      rfl
    | some method =>
      simp only [planActivity, declared]
      exact Plan.run_planActive rfl rfl
  | _ => rfl

theorem run_planBody (function : Closure) (line : Nat) (arguments : List Value) :
    (planBody config n held m function line arguments).run config =
      apply config (n + 1) held function line arguments m := by
  refine run_activation config n (.scope function.scope :: held)
    { m with store := (m.enterFunction function arguments).store } _ _ fun flow m' => ?_
  show (if function.isInitializer then _ else _ : Plan Value).run config =
    (if function.isInitializer then _ else _ : Eval Value) _
  split <;> rfl

theorem run_planStatement (s : Stmt) :
    (planStatement config n held m s).run config = execute config (n + 1) held s m := by
  cases s with
  | expression value => exact Plan.run_ask rfl fun _ _ => rfl
  | print value => exact Plan.run_ask rfl fun _ _ => rfl
  | varDecl name initializer? =>
    cases initializer? with
    | none => rfl
    | some initializer => exact Plan.run_ask rfl fun _ _ => rfl
  | block body =>
    exact (run_activation config n held { m with store := m.enterBlock.store } _ _
      fun _ _ => rfl).trans (andThen_result _ _)
  | branch condition thenBranch elseBranch? =>
    refine Plan.run_ask rfl fun value m => ?_
    cases value.isTruthy with
    | true => exact Plan.run_ask_done _
    | false =>
      cases elseBranch? with
      | none => rfl
      | some elseBranch => exact Plan.run_ask_done _
  | loop condition body => exact Plan.run_ask_done _
  | functionDecl declaration => rfl
  | returns keyword value? =>
    cases value? with
    | none => rfl
    | some value => exact Plan.run_ask rfl fun _ _ => rfl
  | classDecl name superclass? methods =>
    cases superclass? with
    | none => rfl
    | some superclass =>
      refine Plan.run_ask rfl fun above m => ?_
      cases above <;> rfl

theorem run_planStatements (ss : List Stmt) :
    (planStatements n held m ss).run config = executeAll config (n + 1) held ss m := by
  cases ss with
  | nil => rfl
  | cons s rest =>
    refine Plan.run_ask rfl fun flow m => ?_
    cases flow with
    | normal => exact Plan.run_ask_done _
    | returned value => rfl

theorem run_planLoop (condition : Expr) (body : Stmt) :
    (planLoop n held m condition body).run config =
      repeatWhile config (n + 1) held condition body m := by
  refine Plan.run_ask rfl fun value m => ?_
  cases value.isTruthy with
  | true =>
    refine Plan.run_ask rfl fun flow m => ?_
    cases flow with
    | normal => exact Plan.run_ask_done _
    | returned value => rfl
  | false => rfl

end Eval

/-- A point ends as its plan does when it is carried out. -/
theorem Point.run_plan (config : Config) (p : Point) :
    (p.plan config).run config = p.outcome config := by
  obtain ⟨steps, held, task, m⟩ := p
  cases steps with
  | zero => cases task <;> rfl
  | succ n =>
    cases task with
    | expression e => exact Eval.run_planExpression config n held m e
    | expressions es => exact Eval.run_planExpressions config n held m es
    | call callee line arguments => exact Eval.run_planCallee config n held m line arguments callee
    | apply function line arguments =>
      exact Eval.run_planBody config n held m function line arguments
    | statement s => exact Eval.run_planStatement config n held m s
    | statements ss => exact Eval.run_planStatements config n held m ss
    | loop condition body => exact Eval.run_planLoop config n held m condition body

def Point.parts (config : Config) (p : Point) : List Point := (p.plan config).asked config

namespace Plan

variable {config : Config} {α : Type} {p q : Point} {resume : p.task.Result → Machine → Plan α}

theorem mem_asked_calls {unwinding : Unwinding} :
    q ∈ (calls p resume unwinding).asked config ↔ q = p ∨
      ∃ value m, p.outcome config = .done value m ∧ q ∈ (resume value m).asked config := by
  rw [asked, List.mem_cons]
  refine or_congr_right ?_
  cases p.outcome config with
  | done value m =>
    constructor
    · exact fun later => ⟨value, m, rfl, later⟩
    · rintro ⟨_, _, same, later⟩
      cases same
      exact later
  | failed fault m => simp
  | unfinished => simp

theorem mem_asked_ask : q ∈ (ask p resume).asked config ↔ q = p ∨
    ∃ value m, p.outcome config = .done value m ∧ q ∈ (resume value m).asked config :=
  mem_asked_calls

theorem mem_asked_ends {outcome : Outcome α} : q ∈ (ends outcome : Plan α).asked config ↔ False :=
  List.mem_nil_iff q

theorem mem_asked_done {value : α} {m : Machine} : q ∈ (done value m).asked config ↔ False :=
  List.mem_nil_iff q

/-- What is called last is all that is called from then on. -/
theorem mem_asked_last : q ∈ (ask p done).asked config ↔ q = p := by
  simp only [mem_asked_ask, mem_asked_done, and_false, exists_false, or_false]

theorem mem_asked_active {yield : p.task.Result → Value} :
    q ∈ (Eval.planActive p yield).asked config ↔ q = p := by
  simp only [Eval.planActive, mem_asked_calls, mem_asked_done, and_false, exists_false, or_false]

theorem mem_asked_planCall {line arity count : Nat} {m : Machine} {active : Plan Value} :
    q ∈ (Eval.planCall config m line arity count active).asked config ↔
      count = arity ∧ m.depth < config.maxDepth ∧ q ∈ active.asked config := by
  unfold Eval.planCall
  split
  · split
    · simp [*]
    · simp [*, mem_asked_ends]
  · simp [*, mem_asked_ends]

end Plan

theorem Class.arity_eq {type : Class} {method : Closure}
    (declared : type.findMethod? initializerName = some method) : type.arity = method.arity := by
  simp only [Class.arity, declared]

namespace Eval

open Plan

variable {config : Config} {n : Nat} {held : List Root} {m : Machine} {q : Point}

theorem calls_of_planExpression {e : Expr}
    (asked : q ∈ (planExpression n held m e).asked config) :
    Calls config ⟨n + 1, held, .expression e, m⟩ q := by
  cases e with
  | literal value => cases asked
  | grouping inner =>
    obtain rfl := mem_asked_last.mp asked
    exact .inner .grouping
  | unary operator right =>
    rcases mem_asked_ask.mp asked with rfl | ⟨_, _, _, later⟩
    · exact .inner .unary
    · cases later
  | binary left operator right =>
    rcases mem_asked_ask.mp asked with rfl | ⟨_, _, first, later⟩
    · exact .inner .binaryLeft
    · rcases mem_asked_ask.mp later with rfl | ⟨_, _, _, later⟩
      · exact .inner (.binaryRight first)
      · cases later
  | logical left operator right =>
    rcases mem_asked_ask.mp asked with rfl | ⟨value, _, first, later⟩
    · exact .inner .logicalLeft
    · cases decided : decidesAlone operator value with
      | true =>
        rw [decided] at later
        cases later
      | false =>
        rw [decided] at later
        obtain rfl := mem_asked_last.mp later
        exact .inner (.logicalRight first decided)
  | «variable» name distance => cases asked
  | assign name value distance =>
    rcases mem_asked_ask.mp asked with rfl | ⟨_, _, _, later⟩
    · exact .inner .assigned
    · cases later
  | call callee paren arguments =>
    rcases mem_asked_ask.mp asked with rfl | ⟨_, _, first, later⟩
    · exact .inner .callee
    · rcases mem_asked_ask.mp later with rfl | ⟨_, _, second, later⟩
      · exact .inner (.arguments first)
      · obtain rfl := mem_asked_last.mp later
        exact .inner (.call first second)
  | get object name =>
    rcases mem_asked_ask.mp asked with rfl | ⟨value, _, _, later⟩
    · exact .inner .getObject
    · cases value <;> cases later
  | set object name value =>
    rcases mem_asked_ask.mp asked with rfl | ⟨receiver, _, first, later⟩
    · exact .inner .setObject
    · cases receiver with
      | «instance» id type =>
        rcases mem_asked_ask.mp later with rfl | ⟨_, _, _, later⟩
        · exact .inner (.setValue first)
        · cases later
      | _ => cases later
  | this keyword distance => cases asked
  | super keyword method distance => cases asked

theorem calls_of_planExpressions {es : List Expr}
    (asked : q ∈ (planExpressions n held m es).asked config) :
    Calls config ⟨n + 1, held, .expressions es, m⟩ q := by
  cases es with
  | nil => cases asked
  | cons e rest =>
    rcases mem_asked_ask.mp asked with rfl | ⟨_, _, first, later⟩
    · exact .inner .head
    · rcases mem_asked_ask.mp later with rfl | ⟨_, _, _, later⟩
      · exact .inner (.tail first)
      · cases later

theorem mem_asked_planCallee {line : Nat} {arguments : List Value} {callee : Value} :
    q ∈ (planCallee config n held m line arguments callee).asked config ↔
      callee.arity? = some arguments.length ∧ m.depth < config.maxDepth ∧
        q ∈ (planActivity config n held m line arguments callee).asked config := by
  unfold planCallee
  cases callee.arity? with
  | none => simp [mem_asked_ends]
  | some arity => simp only [mem_asked_planCall, Option.some.injEq, eq_comm]

theorem calls_of_planCallee {line : Nat} {arguments : List Value} {callee : Value}
    (asked : q ∈ (planCallee config n held m line arguments callee).asked config) :
    Calls config ⟨n + 1, held, .call callee line arguments, m⟩ q := by
  obtain ⟨arity, room, inside⟩ := mem_asked_planCallee.mp asked
  cases callee with
  | native function =>
    cases function
    cases inside
  | closure function =>
    obtain rfl := mem_asked_active.mp inside
    exact .inner (.function (Option.some.inj arity).symm room)
  | «class» type =>
    cases declared : type.findMethod? initializerName with
    | none =>
      simp only [planActivity, declared] at inside
      cases inside
    | some method =>
      simp only [planActivity, declared] at inside
      obtain rfl := mem_asked_active.mp inside
      have same := (Option.some.inj arity).symm.trans (Class.arity_eq declared)
      exact .inner (.initializer declared same room)
  | _ => cases arity

theorem calls_of_planBody {function : Closure} {line : Nat} {arguments : List Value}
    (asked : q ∈ (planBody config n held m function line arguments).asked config) :
    Calls config ⟨n + 1, held, .apply function line arguments, m⟩ q := by
  rcases mem_asked_calls.mp asked with rfl | ⟨_, _, _, later⟩
  · exact .body
  · simp only at later
    split at later <;> cases later

theorem calls_of_planStatement {s : Stmt}
    (asked : q ∈ (planStatement config n held m s).asked config) :
    Calls config ⟨n + 1, held, .statement s, m⟩ q := by
  cases s with
  | expression value =>
    rcases mem_asked_ask.mp asked with rfl | ⟨_, _, _, later⟩
    · exact .inner .expression
    · cases later
  | print value =>
    rcases mem_asked_ask.mp asked with rfl | ⟨_, _, _, later⟩
    · exact .inner .print
    · cases later
  | varDecl name initializer? =>
    cases initializer? with
    | none => cases asked
    | some initializer =>
      rcases mem_asked_ask.mp asked with rfl | ⟨_, _, _, later⟩
      · exact .initial
      · cases later
  | block body =>
    rcases mem_asked_calls.mp asked with rfl | ⟨_, _, _, later⟩
    · exact .block
    · cases later
  | branch condition thenBranch elseBranch? =>
    rcases mem_asked_ask.mp asked with rfl | ⟨value, _, first, later⟩
    · exact .inner .condition
    · cases truth : value.isTruthy with
      | true =>
        rw [truth] at later
        obtain rfl := mem_asked_last.mp later
        exact .thenBranch first truth
      | false =>
        rw [truth] at later
        cases elseBranch? with
        | none => cases later
        | some elseBranch =>
          obtain rfl := mem_asked_last.mp later
          exact .elseBranch first truth
  | loop condition body =>
    obtain rfl := mem_asked_last.mp asked
    exact .loop
  | functionDecl declaration => cases asked
  | returns keyword value? =>
    cases value? with
    | none => cases asked
    | some value =>
      rcases mem_asked_ask.mp asked with rfl | ⟨_, _, _, later⟩
      · exact .inner .returned
      · cases later
  | classDecl name superclass? methods =>
    cases superclass? with
    | none => cases asked
    | some superclass =>
      rcases mem_asked_ask.mp asked with rfl | ⟨value, _, _, later⟩
      · exact .superclass
      · cases value <;> cases later

theorem calls_of_planStatements {ss : List Stmt}
    (asked : q ∈ (planStatements n held m ss).asked config) :
    Calls config ⟨n + 1, held, .statements ss, m⟩ q := by
  cases ss with
  | nil => cases asked
  | cons s rest =>
    rcases mem_asked_ask.mp asked with rfl | ⟨flow, _, first, later⟩
    · exact .first
    · cases flow with
      | normal =>
        obtain rfl := mem_asked_last.mp later
        exact .others first
      | returned value => cases later

theorem calls_of_planLoop {condition : Expr} {body : Stmt}
    (asked : q ∈ (planLoop n held m condition body).asked config) :
    Calls config ⟨n + 1, held, .loop condition body, m⟩ q := by
  rcases mem_asked_ask.mp asked with rfl | ⟨value, _, first, later⟩
  · exact .inner .loopCondition
  · cases truth : value.isTruthy with
    | true =>
      rw [truth] at later
      rcases mem_asked_ask.mp later with rfl | ⟨flow, _, second, later⟩
      · exact .loopBody first truth
      · cases flow with
        | normal =>
          obtain rfl := mem_asked_last.mp later
          exact .loopAgain first truth second
        | returned value => cases later
    | false =>
      rw [truth] at later
      cases later

end Eval

namespace Point

open Plan

variable {config : Config} {p q : Point}

theorem calls_of_mem_parts (part : q ∈ p.parts config) : Calls config p q := by
  obtain ⟨steps, held, task, m⟩ := p
  cases steps with
  | zero => cases task <;> cases part
  | succ n =>
    cases task with
    | expression e => exact Eval.calls_of_planExpression part
    | expressions es => exact Eval.calls_of_planExpressions part
    | call callee line arguments => exact Eval.calls_of_planCallee part
    | apply function line arguments => exact Eval.calls_of_planBody part
    | statement s => exact Eval.calls_of_planStatement part
    | statements ss => exact Eval.calls_of_planStatements part
    | loop condition body => exact Eval.calls_of_planLoop part

theorem parts_call {n : Nat} {held : List Root} {callee : Value} {line : Nat}
    {arguments : List Value} {m : Machine} :
    parts config ⟨n + 1, held, .call callee line arguments, m⟩ =
      (Eval.planCallee config n held m line arguments callee).asked config := rfl

theorem mem_parts_of_calls (calls : Calls config p q) : q ∈ p.parts config := by
  cases calls with
  | inner inner =>
    cases inner with
    | grouping => exact mem_asked_last.mpr rfl
    | unary | binaryLeft | logicalLeft | assigned | callee | getObject | setObject | head
    | expression | print | condition | returned | loopCondition => exact mem_asked_ask.mpr (.inl rfl)
    | binaryRight first | arguments first | tail first =>
      exact mem_asked_ask.mpr (.inr ⟨_, _, first, mem_asked_ask.mpr (.inl rfl)⟩)
    | logicalRight first undecided =>
      refine mem_asked_ask.mpr (.inr ⟨_, _, first, ?_⟩)
      rw [undecided]
      exact mem_asked_last.mpr rfl
    | call first second =>
      exact mem_asked_ask.mpr (.inr ⟨_, _, first, mem_asked_ask.mpr (.inr ⟨_, _, second,
        mem_asked_last.mpr rfl⟩)⟩)
    | setValue first => exact mem_asked_ask.mpr (.inr ⟨_, _, first, mem_asked_ask.mpr (.inl rfl)⟩)
    | function arity room =>
      rw [parts_call]
      refine Eval.mem_asked_planCallee.mpr ⟨?_, room, ?_⟩
      · exact congrArg some arity.symm
      · exact mem_asked_active.mpr rfl
    | initializer declared arity room =>
      rw [parts_call]
      refine Eval.mem_asked_planCallee.mpr ⟨?_, room, ?_⟩
      · exact congrArg some ((Class.arity_eq declared).trans arity.symm)
      · simp only [Eval.planActivity, declared]
        exact mem_asked_active.mpr rfl
  | initial | superclass | first => exact mem_asked_ask.mpr (.inl rfl)
  | block | body => exact mem_asked_calls.mpr (.inl rfl)
  | thenBranch first truthy | elseBranch first truthy =>
    refine mem_asked_ask.mpr (.inr ⟨_, _, first, ?_⟩)
    rw [truthy]
    exact mem_asked_last.mpr rfl
  | loop => exact mem_asked_last.mpr rfl
  | loopBody first truthy =>
    refine mem_asked_ask.mpr (.inr ⟨_, _, first, ?_⟩)
    rw [truthy]
    exact mem_asked_ask.mpr (.inl rfl)
  | loopAgain first truthy second =>
    refine mem_asked_ask.mpr (.inr ⟨_, _, first, ?_⟩)
    rw [truthy]
    exact mem_asked_ask.mpr (.inr ⟨_, _, second, mem_asked_last.mpr rfl⟩)
  | others first =>
    exact mem_asked_ask.mpr (.inr ⟨_, _, first, mem_asked_last.mpr rfl⟩)

theorem mem_parts : q ∈ p.parts config ↔ Calls config p q :=
  ⟨calls_of_mem_parts, mem_parts_of_calls⟩

end Point

theorem Calls.steps_eq {config : Config} {p q : Point} (calls : Calls config p q) :
    p.steps = q.steps + 1 := by
  cases calls with
  | inner inner => cases inner <;> rfl
  | _ => rfl

theorem Reaches.head {config : Config} {p q r : Point} (reaches : Reaches config q r)
    (calls : Calls config p q) : Reaches config p r := by
  induction reaches with
  | refl => exact .step .refl calls
  | step _ later ih => exact .step ih later

theorem Reaches.cases_head {config : Config} {p q : Point} (reaches : Reaches config p q) :
    p = q ∨ ∃ r, Calls config p r ∧ Reaches config r q := by
  induction reaches with
  | refl => exact .inl rfl
  | step _ calls ih =>
    rcases ih with rfl | ⟨r, first, later⟩
    · exact .inr ⟨_, calls, .refl⟩
    · exact .inr ⟨r, first, .step later calls⟩

end Lox
