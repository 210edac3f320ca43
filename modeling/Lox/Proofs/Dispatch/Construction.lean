import Lox.Proofs.Dispatch.Methods

namespace Lox

open Outcome Eval

variable {config : Config}

/-- The fault of a call arises in the body of the function that it runs. -/
def FailsInBody (config : Config) (p : Point) (fault : Fault) : Prop :=
  ∃ q r, Calls config p q ∧ Calls config q r ∧ ∃ n held body m m',
    r = ⟨n, held, .statements body, m⟩ ∧ executeAll config n held body m = .failed fault m'

namespace Eval

variable {α : Type} {n : Nat} {held : List Root} {m m' : Machine} {line : Nat}
  {arguments : List Value} {fault : Fault} {value : Value}

theorem call_eq (callee : Value) : call config (n + 1) held callee line arguments m =
    match callee.arity? with
    | some arity =>
      if arguments.length = arity then
        if m.depth < config.maxDepth then
          (planActivity config n held m line arguments callee).run config
        else .failed (.stackOverflow line) m
      else .failed (.broken (.wrongArity arity arguments.length) line) m
    | none => .failed (.broken .notCallable line) m := by
  rw [← run_planCallee]
  unfold planCallee planCall
  cases callee.arity? with
  | none => rfl
  | some arity =>
    simp only
    split
    · split <;> rfl
    · rfl

theorem run_active {q : Point} {yield : q.task.Result → Value} :
    (∀ v m', (planActive q yield).run config = .done v m' →
      ∃ value m₁, q.outcome config = .done value m₁ ∧ v = yield value) ∧
    ∀ fault m', (planActive q yield).run config = .failed fault m' →
      ∃ m₁, q.outcome config = .failed fault m₁ := by
  unfold planActive Plan.run
  cases q.outcome config with
  | done value m₁ =>
    refine ⟨fun v m' same => ?_, fun _ _ impossible => (by cases impossible)⟩
    cases same
    exact ⟨value, m₁, rfl, rfl⟩
  | failed fault m₁ =>
    refine ⟨fun _ _ impossible => (by cases impossible), fun fault' m' same => ?_⟩
    cases same
    exact ⟨m₁, rfl⟩
  | unfinished => constructor <;> intro _ _ impossible <;> cases impossible

/-- A call of a function runs its body in a scope of its own; an initializer then reads `this`. -/
theorem apply_eq (function : Closure) :
    apply config (n + 1) held function line arguments m =
      match executeAll config n (.scope m.scope :: .scope function.scope :: held)
        function.declaration.body (m.enterFunction function arguments) with
      | .done flow m₁ =>
        let m₂ := m₁.leave config (flow.roots ++ .scope function.scope :: held) m.scope
        if function.isInitializer then ofExcept (m₂.store.readAt function.scope 0 "this" line) m₂
        else .done flow.result m₂
      | .failed fault m₁ => .failed fault (m₁.leave config (.scope function.scope :: held) m.scope)
      | .unfinished => .unfinished := by
  rw [← run_planBody]
  unfold planBody Plan.run
  simp only [Point.outcome]
  cases executeAll config n (.scope m.scope :: .scope function.scope :: held)
      function.declaration.body (m.enterFunction function arguments) with
  | done flow m₁ =>
    simp only
    split <;> rfl
  | failed fault m₁ => rfl
  | unfinished => rfl

theorem bound_after {turns : List Turn} {function : Closure} {layers after : List Resolve.Names}
    (ready : (Discipline.visibility config turns).Ready
      ⟨n + 1, held, .apply function line arguments, m⟩ layers after)
    (initializes : function.isInitializer = true) {flow : Flow} {m₁ : Machine}
    (ran : executeAll config n (.scope m.scope :: .scope function.scope :: held)
      function.declaration.body (m.enterFunction function arguments) = .done flow m₁) :
    ∃ value m₂, apply config (n + 1) held function line arguments m = .done value m₂ ∧
      m₂.store.local? function.scope "this" = some value ∧ function.scope.index < m₂.store.next := by
  have activated : activation config (.scope function.scope :: held) ⟨m.store.next⟩
      (fun held => executeAll config n held function.declaration.body)
      { m with store := (m.enterFunction function arguments).store } = .done flow
        (m₁.leave config (flow.roots ++ .scope function.scope :: held) m.scope) := by
    unfold activation
    show (match executeAll config n (.scope m.scope :: .scope function.scope :: held)
      function.declaration.body (m.enterFunction function arguments) with
      | .done flow m' => _ | .failed fault m' => _ | .unfinished => _) = _
    rw [ran]
  have left := (Discipline.activation_left
    ((Discipline.visibility config turns).preserves n) ready).done_of_eq activated
  generalize same : m₁.leave config (flow.roots ++ .scope function.scope :: held) m.scope = m₂ at left
  obtain ⟨scope, found, _⟩ := (left.safe.stands function.scope (by simp [Machine.roots])).exists
  have old := left.safe.sound.numbered function.scope scope found
  -- The scope bound `this` when the function was called, and a scope never loses a name.
  obtain ⟨⟨_, layers, chain, _, seated⟩, standing⟩ := Discipline.function_stands ready
  have bound : scope.Binds "this" := by
    obtain ⟨names, rest, rfl⟩ : ∃ names rest, layers = names :: rest := by
      cases layers with
      | nil => cases seated initializes
      | cons names rest => exact ⟨names, rest, rfl⟩
    cases seated initializes
    obtain ⟨_, before, atStart, _, holds, _⟩ := chain.split
    obtain ⟨_, atSame, grows, _⟩ := left.later.since.scopes function.scope scope
      (ready.safe.sound.numbered function.scope before atStart) found
    cases atStart.symm.trans atSame
    exact grows.binds "this" (holds "this" rfl)
  obtain ⟨value, listed⟩ := bound
  have settled : m₂.store.local? function.scope "this" = some value :=
    (Store.local?_of_scope? found).trans listed
  refine ⟨value, m₂, ?_, settled, old⟩
  rw [apply_eq, ran]
  simp only [same, initializes, if_true]
  rw [Store.readAt_of_local? (by rw [Store.ancestor?]) settled]
  rfl

end Eval

namespace Eval

theorem lookup_foldl_put (pairs : List (Token × Value)) (bound : Bindings) (name : String) :
    (pairs.foldl (fun bound pair => Bindings.put pair.1.lexeme pair.2 bound) bound).lookup name =
      ((pairs.findRev? (·.1.lexeme == name)).map (·.2)).or (bound.lookup name) := by
  induction pairs generalizing bound with
  | nil => rfl
  | cons pair rest ih =>
    rw [List.foldl_cons, ih, Bindings.lookup_put, List.findRev?]
    cases rest.findRev? (·.1.lexeme == name) with
    | some later => rfl
    | none =>
      by_cases own : name = pair.1.lexeme
      · subst own
        simp
      · simp [own, Ne.symm own]

theorem lookup_parameterBindings (params : List Token) (arguments : List Value) (name : String) :
    (parameterBindings params arguments).lookup name =
      ((params.zip arguments).findRev? (·.1.lexeme == name)).map (·.2) :=
  (lookup_foldl_put (params.zip arguments) [] name).trans (Option.or_none)

end Eval

/-- At the start of a function's body the scope binds each parameter to its argument, and nothing
    else. Of the parameters with one name the last one counts. -/
structure BindsArguments (function : Closure) (arguments : List Value) (m : Machine) : Prop where
  fst : (function.declaration.params.zip arguments).map Prod.fst = function.declaration.params
  snd : (function.declaration.params.zip arguments).map Prod.snd = arguments
  lookup : ∀ name, m.store.local? m.scope name =
    ((function.declaration.params.zip arguments).findRev? (·.1.lexeme == name)).map (·.2)

/-- The body that a call runs has as many parameters as the call is checked for, and finds them
    bound. -/
theorem body_of_call {n : Nat} {held : List Root} {callee : Value} {line : Nat}
    {arguments : List Value} {m : Machine} {q : Point}
    (calls : Calls config ⟨n, held, .call callee line arguments, m⟩ q) :
    ∃ function, q.task = .apply function line arguments ∧
      callee.arity? = some function.declaration.params.length ∧
      ∀ r, Calls config q r → r.task = .statements function.declaration.body ∧
        BindsArguments function arguments r.machine := by
  have runs {function : Closure} (same : arguments.length = function.declaration.params.length)
      {n : Nat} {held : List Root} {m : Machine} :
      ∀ r, Calls config ⟨n, held, .apply function line arguments, m⟩ r →
        r.task = .statements function.declaration.body ∧ BindsArguments function arguments r.machine := by
    intro r calls
    cases calls with
    | inner inner => cases inner
    | body =>
      refine ⟨rfl, List.map_fst_zip (Nat.le_of_eq same.symm), List.map_snd_zip (Nat.le_of_eq same),
        fun name => ?_⟩
      rw [← lookup_parameterBindings]
      exact Store.local?_of_scope? (Store.scope?_newScope_self _ _ _)
  cases calls with
  | inner inner =>
    cases inner with
    | function arity room => exact ⟨_, rfl, rfl, runs arity⟩
    | @initializer _ _ _ type _ _ method declared arity room =>
      have same : type.arity = method.arity := Class.arity_eq declared
      have given : arguments.length =
        (m.store.newInstance.2.bind method m.store.newInstance.1 type).1.declaration.params.length := arity
      exact ⟨_, rfl, congrArg some same, runs given⟩

inductive Initializes (config : Config) (turns : List Turn) : Closure → InstanceId → Class → Prop where
  | intro {turn : Turn} {p : Point} {s : Store} {method : Closure} {id : InstanceId} {type : Class}
      (member : turn ∈ turns) (passes : turn.Passes config p)
      (binds : BindsMethod config p s method id type) (initializer : method.isInitializer = true) :
      Initializes config turns (s.bind method id type).1 id type

theorem Initializes.moment {turns : List Turn} {function : Closure} {id : InstanceId} {type : Class}
    (initializes : Initializes config turns function id type) :
    function.isInitializer = true ∧ ∃ turn ∈ turns, ∃ m, turn.Moment config m ∧
      function.scope.index < m.store.next ∧
      m.store.local? function.scope "this" = some (.instance id type) := by
  cases initializes with
  | intro member passes binds initializer => exact ⟨initializer, _, member, binds.moment passes⟩

namespace Session

variable {turns : List Turn} {turn : Turn} {held : List Root}

section

variable (past : Past config turns turn.machine held) (fewer : turn.held ⊆ held)
  (sources : ∀ each ∈ turn :: turns, ∃ request : Request, request.work = .ok each.work)
include past fewer sources

/-- A call of an initializer yields the instance that it is bound to, or its body fails. -/
theorem initializer_applied {n : Nat} {kept : List Root} {function : Closure} {line : Nat}
    {arguments : List Value} {m : Machine} {id : InstanceId} {type : Class}
    (passes : turn.Passes config ⟨n, kept, .apply function line arguments, m⟩)
    (initializes : Initializes config (turn :: turns) function id type) :
    (∀ v m', apply config n kept function line arguments m = .done v m' → v = .instance id type) ∧
      ∀ fault m', apply config n kept function line arguments m = .failed fault m' →
        ∃ r, Calls config ⟨n, kept, .apply function line arguments, m⟩ r ∧ ∃ n held body m m',
          r = ⟨n, held, .statements body, m⟩ ∧ executeAll config n held body m = .failed fault m' := by
  obtain ⟨layers, after, ready⟩ :=
    Visibility.ready_of_passes past fewer (sees_of_sources sources) List.mem_cons_self passes
  obtain ⟨initializer, each, member, m₀, moment, old, bound⟩ := initializes.moment
  cases n with
  | zero => exact ⟨nofun, nofun⟩
  | succ n =>
    cases ran : executeAll config n (.scope m.scope :: .scope function.scope :: kept)
        function.declaration.body (m.enterFunction function arguments) with
    | done flow m₁ =>
      obtain ⟨value, m₂, ended, settled, young⟩ := bound_after ready initializer ran
      rw [ended]
      refine ⟨fun v m' same => ?_, nofun⟩
      cases same
      obtain ⟨start, starts, reaches⟩ := passes
      exact keyword_settled past fewer sources member ⟨start, starts, .ended reaches (.inl ⟨_, ended⟩)⟩
        moment (.inl rfl) young old settled bound
    | failed fault m₁ =>
      rw [apply_eq, ran]
      refine ⟨nofun, fun fault' m' same => ?_⟩
      cases same
      exact ⟨_, .body, _, _, _, _, _, rfl, ran⟩
    | unfinished =>
      rw [apply_eq, ran]
      exact ⟨nofun, nofun⟩

theorem initializer_called {n : Nat} {kept : List Root} {function : Closure} {line : Nat}
    {arguments : List Value} {m : Machine} {id : InstanceId} {type : Class}
    (passes : turn.Passes config ⟨n, kept, .call (.closure function) line arguments, m⟩)
    (initializes : Initializes config (turn :: turns) function id type)
    (arity : arguments.length = function.arity) :
    (∀ v m', call config n kept (.closure function) line arguments m = .done v m' →
      v = .instance id type) ∧
    ∀ fault m', call config n kept (.closure function) line arguments m = .failed fault m' →
      m.depth < config.maxDepth →
      FailsInBody config ⟨n, kept, .call (.closure function) line arguments, m⟩ fault := by
  cases n with
  | zero => exact ⟨nofun, nofun⟩
  | succ n =>
    rw [call_eq, Value.arity?]
    simp only [arity, if_true]
    by_cases room : m.depth < config.maxDepth
    · have calls : Calls config ⟨n + 1, kept, .call (.closure function) line arguments, m⟩ _ :=
        .inner (.function arity room)
      obtain ⟨start, starts, reaches⟩ := passes
      obtain ⟨yields, fails⟩ := initializer_applied past fewer sources
        ⟨start, starts, reaches.step calls⟩ initializes
      rw [if_pos room]
      refine ⟨fun v m' ended => ?_, fun fault m' ended _ => ?_⟩
      · obtain ⟨value, m₁, ended, same⟩ := run_active.1 v m' ended
        exact same.trans (yields value m₁ ended)
      · obtain ⟨m₁, ended⟩ := run_active.2 fault m' ended
        obtain ⟨r, calls', inside⟩ := fails fault m₁ ended
        exact ⟨_, r, calls, calls', inside⟩
    · rw [if_neg room]
      exact ⟨nofun, fun _ _ _ here => absurd here room⟩

theorem class_called {n : Nat} {kept : List Root} {type : Class} {line : Nat}
    {arguments : List Value} {m : Machine}
    (passes : turn.Passes config ⟨n, kept, .call (.class type) line arguments, m⟩)
    (arity : arguments.length = type.arity) :
    (∀ v m', call config n kept (.class type) line arguments m = .done v m' →
      v = .instance ⟨m.store.next⟩ type) ∧
    ∀ fault m', call config n kept (.class type) line arguments m = .failed fault m' →
      m.depth < config.maxDepth →
      FailsInBody config ⟨n, kept, .call (.class type) line arguments, m⟩ fault := by
  cases n with
  | zero => exact ⟨nofun, nofun⟩
  | succ n =>
    rw [call_eq, Value.arity?]
    simp only [arity, if_true]
    by_cases room : m.depth < config.maxDepth
    · rw [if_pos room]
      cases declared : type.findMethod? initializerName with
      | none =>
        simp only [planActivity, declared]
        refine ⟨fun v m' same => ?_, fun _ _ impossible => (by cases impossible)⟩
        cases same
        rfl
      | some method =>
        simp only [planActivity, declared]
        -- The class takes as many arguments as its initializer.
        have same := arity.trans (Class.arity_eq declared)
        have calls : Calls config ⟨n + 1, kept, .call (.class type) line arguments, m⟩ _ :=
          .inner (.initializer declared same room)
        have occurs : .class type ∈ m.store.objects ((Task.call (.class type) line arguments).inputs ++ kept) :=
          Store.occurs_of_root List.mem_cons_self
            (show .class type ∈ (Root.value (.class type)).objects from type.mem_objects)
        have formed := fun each inside => (made_of_state past fewer (.point passes) occurs each inside).formed
        have initializes : Initializes config (turn :: turns) _ _ type :=
          .intro List.mem_cons_self passes (.initializer declared same room)
            (by rw [(Class.findMethod?_named formed declared).2, beq_self_eq_true])
        obtain ⟨start, starts, reaches⟩ := passes
        obtain ⟨_, fails⟩ := initializer_applied past fewer sources
          ⟨start, starts, reaches.step calls⟩ initializes
        refine ⟨fun v m' ended => ?_, fun fault m' ended _ => ?_⟩
        · obtain ⟨value, m₁, ended, rfl⟩ := run_active.1 v m' ended
          rfl
        · obtain ⟨m₁, ended⟩ := run_active.2 fault m' ended
          obtain ⟨r, calls', inside⟩ := fails fault m₁ ended
          exact ⟨_, r, calls, calls', inside⟩
    · rw [if_neg room]
      exact ⟨fun _ _ impossible => (by cases impossible), fun _ _ _ here => absurd here room⟩

theorem instance_new {n : Nat} {kept : List Root} {type : Class} {line : Nat}
    {arguments : List Value} {m : Machine}
    (passes : turn.Passes config ⟨n, kept, .call (.class type) line arguments, m⟩) :
    m.store.fields? ⟨m.store.next⟩ = none ∧
      (∀ other, .instance ⟨m.store.next⟩ other ∉
        m.store.objects ((Task.call (.class type) line arguments).inputs ++ kept)) ∧
      ∀ v m', call config n kept (.class type) line arguments m = .done v m' →
        v = .instance ⟨m.store.next⟩ type → ∃ fields, m'.store.fields? ⟨m.store.next⟩ = some fields := by
  have sound := (safe_of_state past fewer sources (.point passes)).sound
  refine ⟨?_, fun other occurs => ?_, fun v m' ended same => ?_⟩
  · cases found : m.store.fields? ⟨m.store.next⟩ with
    | none => rfl
    | some fields => exact absurd (sound.fields_lt _ fields found) (Nat.lt_irrefl _)
  · exact absurd (sound.bounded _ (.occurs occurs)) (Nat.lt_irrefl _)
  · obtain ⟨layers, after, ready⟩ := written_of_passes past fewer sources List.mem_cons_self passes
    have left : (Discipline.written config).Left m kept nowhere [.value v] m' :=
      Sat.done_of_eq ((Discipline.written config).preserves n ready) ended
    subst same
    have root : .value (.instance ⟨m.store.next⟩ type) ∈
        m'.roots ([.value (.instance ⟨m.store.next⟩ type)] ++ kept) := by
      simp [Machine.roots]
    exact left.safe.sound.stored _ type (Store.occurs_of_root root List.mem_cons_self)

end

/-- Classes, their methods and their instances in all states of a session. The classes above a class
    are ever older ones, each made by a declaration that has been carried out, and a method is the last
    one that the nearest of these classes declares under its name. A call of a class yields a new
    instance of exactly that class, and a call of a bound initializer the instance that it is bound
    to, unless too many calls are active or a fault arises in the body. And whatever is called, the
    body that is run has as many parameters as the call was checked for, each bound to its argument. -/
theorem classes_instantiated (past : Past config turns turn.machine held) (fewer : turn.held ⊆ held)
    (sources : ∀ each ∈ turn :: turns, ∃ request : Request, request.work = .ok each.work) :
    (∀ s roots type, turn.State config s roots → .class type ∈ s.objects roots →
      (type.lineage.Pairwise fun lower upper => upper.identity < lower.identity) ∧
      (∀ each ∈ type.lineage, each.Made config (turn :: turns)) ∧
      ∀ name,
        (type.findMethod? name).map (·.declaration) =
          type.lineage.findSome? (fun each => each.declared.findRev? (·.name.lexeme == name)) ∧
        ∀ method, type.findMethod? name = some method →
          method.isInitializer = (name == initializerName)) ∧
    ∀ n kept callee line arguments m,
      turn.Passes config ⟨n, kept, .call callee line arguments, m⟩ →
      (∀ type, callee = .class type → arguments.length = type.arity →
        (m.store.fields? ⟨m.store.next⟩ = none ∧
          ∀ other, .instance ⟨m.store.next⟩ other ∉
            m.store.objects ((Task.call callee line arguments).inputs ++ kept)) ∧
        (∀ v m', call config n kept callee line arguments m = .done v m' →
          v = .instance ⟨m.store.next⟩ type ∧
            ∃ fields, m'.store.fields? ⟨m.store.next⟩ = some fields) ∧
        ∀ fault m', call config n kept callee line arguments m = .failed fault m' →
          m.depth < config.maxDepth →
          FailsInBody config ⟨n, kept, .call callee line arguments, m⟩ fault) ∧
      (∀ function id type, callee = .closure function →
        Initializes config (turn :: turns) function id type → arguments.length = function.arity →
        (∀ v m', call config n kept callee line arguments m = .done v m' → v = .instance id type) ∧
        ∀ fault m', call config n kept callee line arguments m = .failed fault m' →
          m.depth < config.maxDepth →
          FailsInBody config ⟨n, kept, .call callee line arguments, m⟩ fault) ∧
      (∀ arity, callee.arity? = some arity → arguments.length ≠ arity → 0 < n →
        call config n kept callee line arguments m =
          .failed (.broken (.wrongArity arity arguments.length) line) m) ∧
      ∀ q, Calls config ⟨n, kept, .call callee line arguments, m⟩ q →
        ∃ function, q.task = .apply function line arguments ∧
          callee.arity? = some function.declaration.params.length ∧
          ∀ r, Calls config q r → r.task = .statements function.declaration.body ∧
            BindsArguments function arguments r.machine := by
  refine ⟨fun s roots type state occurs => ?_,
    fun n kept callee line arguments m passes => ⟨?_, ?_, ?_, ?_⟩⟩
  · have made := made_of_state past fewer state occurs
    have formed := fun each inside => (made each inside).formed
    exact ⟨(safe_of_state past fewer sources state).sound.lineage_older occurs, made, fun name =>
      ⟨Class.findMethod?_declared formed name, fun method found =>
        (Class.findMethod?_named formed found).2⟩⟩
  · rintro type rfl arity
    obtain ⟨missing, unknown, stands⟩ := instance_new past fewer sources passes
    obtain ⟨yields, fails⟩ := class_called past fewer sources passes arity
    exact ⟨⟨missing, unknown⟩, fun v m' ended =>
      ⟨yields v m' ended, stands v m' ended (yields v m' ended)⟩, fails⟩
  · rintro function id type rfl initializes arity
    exact initializer_called past fewer sources passes initializes arity
  · intro arity takes differs positive
    obtain ⟨n, rfl⟩ := Nat.exists_eq_add_of_lt positive
    rw [Nat.zero_add, call_eq, takes]
    exact if_neg differs
  · exact fun q calls => body_of_call calls

end Session

namespace InheritedInitializer

private def word (lexeme : String) : Token := ⟨.identifier, lexeme, none, 1⟩

private def paren : Token := ⟨.rightParen, ")", none, 1⟩

private def source : List UInt8 := "class A{init(x){return;}}class B<A{}B(nil);".toUTF8.toList

private def base : Stmt := .classDecl (word "A") none
  [.mk (word "init") [word "x"] [.returns ⟨.returnWord, "return", none, 1⟩ none]]
private def derived : Stmt := .classDecl (word "B") (some (.variable (word "A") none)) []
private def making : Stmt :=
  .expression (.call (.variable (word "B") none) paren [.literal .nil])

private def turn : Turn := ⟨12, [], .program [base, derived, making], .start⟩

private def after? (s : Stmt) (m : Machine) : Option Machine :=
  match execute .standard 12 [] s m with
  | .done .normal m' => some m'
  | _ => none

private theorem execute_of_after? {s : Stmt} {m m' : Machine} (ended : after? s m = some m') :
    execute .standard 12 [] s m = .done .normal m' := by
  unfold after? at ended
  split at ended
  · cases ended
    assumption
  · cases ended

private def called? (m : Machine) : Option (Class × Machine) :=
  match evaluate .standard 10 [] (.variable (word "B") none) m with
  | .done (.class type) m' =>
    match call .standard 10 [.value (.class type)] (.class type) 1 [.nil] m' with
    | .done _ _ => some (type, m')
    | _ => none
  | _ => none

private theorem call_of_called? {m m' : Machine} {type : Class} (called : called? m = some (type, m')) :
    evaluate .standard 10 [] (.variable (word "B") none) m = .done (.class type) m' ∧
      ∃ v m₁, call .standard 10 [.value (.class type)] (.class type) 1 [.nil] m' = .done v m₁ := by
  unfold called? at called
  split at called
  · rename_i done
    split at called
    · rename_i ended
      cases called
      exact ⟨done, _, _, ended⟩
    · cases called
  · cases called

private theorem shown :
    (((after? base Machine.start.atRest).bind (after? derived)).bind called?).map
      (fun (type, _) => (type.lineage.map Class.name, type.arity)) = some (["B", "A"], 1) := by
  decide +kernel

private theorem made : ∃ m type v m₁, type.lineage.map Class.name = ["B", "A"] ∧ type.arity = 1 ∧
    turn.Passes .standard ⟨10, [.value (.class type)], .call (.class type) 1 [.nil], m⟩ ∧
    call .standard 10 [.value (.class type)] (.class type) 1 [.nil] m = .done v m₁ := by
  obtain ⟨⟨type, m⟩, found, same⟩ := Option.map_eq_some_iff.mp shown
  obtain ⟨m₂, declared, called⟩ := Option.bind_eq_some_iff.mp found
  obtain ⟨m₁, first, second⟩ := Option.bind_eq_some_iff.mp declared
  obtain ⟨names, arity⟩ := Prod.mk.inj same
  obtain ⟨callee, v, m', ended⟩ := call_of_called? called
  have launches : turn.Starts .standard ⟨12, [], .statement making, m₂⟩ :=
    .program (.others (execute_of_after? first) (.others (execute_of_after? second) .first))
  have calls : Calls .standard
      ⟨11, [], .expression (.call (.variable (word "B") none) paren [.literal .nil]), m₂⟩
      ⟨10, [.value (.class type)], .call (.class type) paren.line [.nil], m⟩ :=
    .inner (.call callee rfl)
  exact ⟨m, type, v, m', names, arity,
    ⟨_, launches, (Reaches.refl.step (.inner .expression)).step calls⟩, ended⟩

/-- The call yields a new instance of the subclass, though the initializer returns early and is
    declared in the class above. -/
theorem new_instance_of_subclass : ∃ m type m',
    compile source = .ok [base, derived, making] ∧
    turn.Passes .standard ⟨10, [.value (.class type)], .call (.class type) 1 [.nil], m⟩ ∧
    type.lineage.map Class.name = ["B", "A"] ∧
    m.store.fields? ⟨m.store.next⟩ = none ∧
    call .standard 10 [.value (.class type)] (.class type) 1 [.nil] m =
      .done (.instance ⟨m.store.next⟩ type) m' := by
  have compiled : compile source = .ok [base, derived, making] := by
    unfold source base derived making
    cbv
  obtain ⟨m, type, v, m', names, arity, passes, ended⟩ := made
  have sources : ∀ each ∈ [turn], ∃ request : Session.Request, request.work = .ok each.work := by
    intro each member
    obtain rfl := List.mem_singleton.mp member
    exact ⟨.run source, congrArg (Except.map Work.program) compiled⟩
  obtain ⟨calls, _⟩ :=
    (Session.classes_instantiated .start (List.Subset.refl []) sources).2 _ _ _ _ _ _ passes
  obtain ⟨⟨missing, _⟩, yields, _⟩ := calls type rfl arity.symm
  obtain ⟨rfl, _⟩ := yields v m' ended
  exact ⟨m, type, m', compiled, passes, names, missing, ended⟩

end InheritedInitializer
end Lox
