import Lox.Proofs.Machine.Reachable
import Lox.Proofs.Agreement.Machines

namespace Lox

def DisciplineData.unrestricted : DisciplineData where
  Layer := Unit
  holds _ _ _ := True
  limits _ _ := True
  globals := Machine.start.globals
  fits _ layers after := after = layers
  function _ _ := True
  method _ _ := True

namespace Discipline

theorem unrestricted_defines (name : String) (layers : List Unit) :
    DisciplineData.unrestricted.Defines name layers layers := by
  cases layers with
  | nil => exact .inl ⟨rfl, rfl⟩
  | cons layer outer =>
    exact .inr ⟨layer, layer, outer, rfl, rfl, fun _ _ _ => trivial, fun _ _ => trivial⟩

def unrestricted (config : Config) : Discipline config where
  toDisciplineData := DisciplineData.unrestricted
  holds_mono _ _ _ _ _ _ := trivial
  limits_mono _ _ _ _ _ := trivial
  limits_globals _ := trivial
  inner _ _ := rfl
  initial _ := ⟨_, .refl _ _, rfl⟩
  initialized := by
    rintro n held m name initializer? layers _ rfl
    exact unrestricted_defines _ _
  declared := by
    rintro n held m declaration layers _ rfl
    exact ⟨unrestricted_defines _ _, fun _ => trivial⟩
  superclass _ := ⟨_, .refl _ _, rfl⟩
  named := by
    rintro n held m name superclass? methods layers _ rfl
    exact unrestricted_defines _ _
  methods _ _ _ _ := trivial
  inherited _ _ := ⟨(), trivial, fun _ _ _ => trivial⟩
  bound _ _ _ _ := ⟨(), trivial, trivial⟩
  block := by
    rintro n held m body layers _ rfl _
    exact ⟨.refl _ _, (), _, trivial, trivial, rfl⟩
  body _ _ _ := ⟨(), _, fun _ _ => ⟨trivial, trivial⟩, rfl⟩
  plain := by
    rintro n held m s layers _ rfl _
    exact .refl _ _
  thenBranch := by
    rintro n held m m' condition thenBranch elseBranch? value layers _ rfl _ _
    exact ⟨_, .refl _ _, rfl⟩
  elseBranch := by
    rintro n held m m' condition thenBranch elseBranch value layers _ rfl _ _
    exact ⟨_, .refl _ _, rfl⟩
  skipped := by
    rintro n held m condition thenBranch layers _ rfl
    exact .refl _ _
  loop fits := fits
  loopBody := by
    rintro n held m m' condition body value layers _ rfl _ _
    exact ⟨_, .refl _ _, rfl⟩
  loopAgain fits _ _ _ := fits
  loopEnd := by
    rintro n held m condition body layers _ rfl
    exact .refl _ _
  first := by
    rintro n held m s rest layers _ rfl
    exact ⟨_, rfl, fun _ _ => rfl⟩
  last := by
    rintro n held m layers _ rfl
    exact .refl _ _

end Discipline

/-- The configurations differ at most in when to collect. -/
structure Config.Alike (config config' : Config) : Prop where
  maxDepth : config.maxDepth = config'.maxDepth
  capacity : config.capacity? = config'.capacity?
  clock : config.clock = config'.clock

def Steady (config : Config) (p : Point) : Prop :=
  ∃ layers after, (Discipline.unrestricted config).Ready p layers after

theorem Steady.next {config : Config} {p q : Point} (steady : Steady config p)
    (calls : Calls config p q) : Steady config q := by
  obtain ⟨layers, after, ready⟩ := steady
  exact Discipline.ready_of_calls ready calls

/-- One task on two machines that agree. -/
structure Twins (config config' : Config) (n : Nat) (held : List Root) (task : Task)
    (m m' : Machine) : Prop where
  left : Steady config ⟨n, held, task, m⟩
  right : Steady config' ⟨n, held, task, m'⟩
  agree : m.Agree (task.inputs ++ held) m'

def EndsAlike (config config' : Config) (n : Nat) (held : List Root) (task : Task)
    (m m' : Machine) : Prop :=
  match task with
  | .expression e =>
    Outcome.Agree (fun v => [.value v]) held (evaluate config n held e m)
      (evaluate config' n held e m')
  | .expressions es =>
    Outcome.Agree (fun vs => vs.map .value) held (evaluateAll config n held es m)
      (evaluateAll config' n held es m')
  | .call callee line arguments =>
    Outcome.Agree (fun v => [.value v]) held (call config n held callee line arguments m)
      (call config' n held callee line arguments m')
  | .apply function line arguments =>
    Outcome.Agree (fun v => [.value v]) held (apply config n held function line arguments m)
      (apply config' n held function line arguments m')
  | .statement s =>
    Outcome.Agree Flow.roots held (execute config n held s m) (execute config' n held s m')
  | .statements ss =>
    Outcome.Agree Flow.roots held (executeAll config n held ss m) (executeAll config' n held ss m')
  | .loop condition body =>
    Outcome.Agree Flow.roots held (repeatWhile config n held condition body m)
      (repeatWhile config' n held condition body m')

def Mirrors (config config' : Config) (n : Nat) : Prop :=
  ∀ {held : List Root} {task : Task} {m m' : Machine}, Twins config config' n held task m m' →
    EndsAlike config config' n held task m m'

variable {config config' : Config} {n : Nat} {held extra : List Root} {task : Task}
  {m m' m₁ m₁' : Machine}

theorem Twins.start (twins : Twins config config' n held task m m') : m.Agree held m' :=
  twins.agree.weaken (List.subset_append_right _ _)

namespace Mirrors

theorem evaluate (ih : Mirrors config config' n) {e : Expr}
    (twins : Twins config config' (n + 1) held task m m') (agree : m₁.Agree (extra ++ held) m₁')
    (left : Calls config ⟨n + 1, held, task, m⟩ ⟨n, extra ++ held, .expression e, m₁⟩)
    (right : Calls config' ⟨n + 1, held, task, m'⟩ ⟨n, extra ++ held, .expression e, m₁'⟩) :
    Outcome.Agree (fun v => .value v :: extra) held (Lox.evaluate config n (extra ++ held) e m₁)
      (Lox.evaluate config' n (extra ++ held) e m₁') := by
  have next : Twins config config' n (extra ++ held) (.expression e) m₁ m₁' :=
    ⟨twins.left.next left, twins.right.next right, agree⟩
  exact Outcome.Agree.mono (ih next) (List.subset_append_right _ _) fun _ => List.Subset.refl _

theorem evaluateAll (ih : Mirrors config config' n) {es : List Expr}
    (twins : Twins config config' (n + 1) held task m m') (agree : m₁.Agree (extra ++ held) m₁')
    (left : Calls config ⟨n + 1, held, task, m⟩ ⟨n, extra ++ held, .expressions es, m₁⟩)
    (right : Calls config' ⟨n + 1, held, task, m'⟩ ⟨n, extra ++ held, .expressions es, m₁'⟩) :
    Outcome.Agree (fun vs => vs.map .value ++ extra) held
      (Lox.evaluateAll config n (extra ++ held) es m₁)
      (Lox.evaluateAll config' n (extra ++ held) es m₁') := by
  have next : Twins config config' n (extra ++ held) (.expressions es) m₁ m₁' :=
    ⟨twins.left.next left, twins.right.next right, agree⟩
  refine Outcome.Agree.mono (ih next) (List.subset_append_right _ _) fun values => ?_
  rw [List.append_assoc]
  exact List.Subset.refl _

theorem expression (ih : Mirrors config config' n) {e : Expr}
    (twins : Twins config config' (n + 1) held (.expression e) m m') :
    EndsAlike config config' (n + 1) held (.expression e) m m' := by
  have start : m.Agree ([] ++ held) m' := twins.start
  dsimp only [EndsAlike]
  cases e with
  | literal value =>
    rw [Lox.evaluate, Lox.evaluate]
    exact .done (start.hold (by cases value <;> rfl))
  | grouping inner =>
    rw [Lox.evaluate, Lox.evaluate]
    exact ih.evaluate twins start (.inner .grouping) (.inner .grouping)
  | unary operator right =>
    rw [Lox.evaluate, Lox.evaluate]
    refine .bind (ih.evaluate twins start (.inner .unary) (.inner .unary))
      fun right m₁ m₁' _ _ agree₁ => ?_
    have after : m₁.Agree held m₁' := agree₁.weaken (List.subset_append_right _ _)
    exact .ofExcept after fun v ok => after.hold (applyUnary_atom ok)
  | binary left operator right =>
    rw [Lox.evaluate, Lox.evaluate]
    refine .bind (ih.evaluate twins start (.inner .binaryLeft) (.inner .binaryLeft))
      fun left m₁ m₁' first first' agree₁ => ?_
    refine .bind (ih.evaluate twins agree₁ (.inner (.binaryRight first))
      (.inner (.binaryRight first'))) fun right m₂ m₂' _ _ agree₂ => ?_
    have after : m₂.Agree held m₂' := agree₂.weaken (List.subset_append_right _ _)
    exact .ofExcept after fun v ok => after.hold (applyBinary_atom ok)
  | logical left operator right =>
    rw [Lox.evaluate, Lox.evaluate]
    refine .bind (ih.evaluate twins start (.inner .logicalLeft) (.inner .logicalLeft))
      fun left m₁ m₁' first first' agree₁ => ?_
    cases decided : decidesAlone operator left with
    | true => exact .done agree₁
    | false =>
      have after : m₁.Agree held m₁' := agree₁.weaken (List.subset_append_right _ _)
      exact ih.evaluate twins after (.inner (.logicalRight first decided))
        (.inner (.logicalRight first' decided))
  | «variable» name distance =>
    rw [Lox.evaluate, Lox.evaluate]
    exact start.lookUp name distance
  | assign name value distance =>
    rw [Lox.evaluate, Lox.evaluate]
    refine .bind (ih.evaluate twins start (.inner .assigned) (.inner .assigned))
      fun value m₁ m₁' _ _ agree₁ => ?_
    exact .bind (agree₁.assign name distance) fun _ _ _ _ _ agree₂ => .done agree₂
  | call callee paren arguments =>
    rw [Lox.evaluate, Lox.evaluate]
    refine .bind (ih.evaluate twins start (.inner .callee) (.inner .callee))
      fun callee m₁ m₁' first first' agree₁ => ?_
    refine .bind (ih.evaluateAll twins agree₁ (.inner (.arguments first))
      (.inner (.arguments first'))) fun values m₂ m₂' second second' agree₂ => ?_
    -- The callee is held twice: since before the arguments, and as what the call is given.
    have next : Twins config config' n (.value callee :: held) (.call callee paren.line values) m₂
        m₂' := by
      refine ⟨twins.left.next (.inner (.call first second)),
        twins.right.next (.inner (.call first' second')), agree₂.weaken fun root member => ?_⟩
      simp only [Task.inputs, List.mem_append, List.mem_cons, List.not_mem_nil, or_false] at member ⊢
      rcases member with (same | given) | same | old
      · exact .inl (.inr same)
      · exact .inl (.inl given)
      · exact .inl (.inr same)
      · exact .inr old
    exact Outcome.Agree.mono (ih next) (List.subset_cons_self _ _)
      fun _ => List.cons_subset_cons _ (List.subset_cons_self _ _)
  | get object name =>
    rw [Lox.evaluate, Lox.evaluate]
    refine .bind (ih.evaluate twins start (.inner .getObject) (.inner .getObject))
      fun object m₁ m₁' _ _ agree₁ => ?_
    cases object with
    | «instance» id type => exact agree₁.property name
    | nil | bool _ | number _ | string _ | native _ | closure _ | «class» _ =>
      exact .failed (agree₁.weaken (List.subset_append_right _ _))
  | set object name value =>
    rw [Lox.evaluate, Lox.evaluate]
    refine .bind (ih.evaluate twins start (.inner .setObject) (.inner .setObject))
      fun object m₁ m₁' first first' agree₁ => ?_
    cases object with
    | «instance» id type =>
      refine .bind (ih.evaluate twins agree₁ (.inner (.setValue first)) (.inner (.setValue first')))
        fun value m₂ m₂' _ _ agree₂ => ?_
      exact .onStore rfl (agree₂.setField name.lexeme)
    | nil | bool _ | number _ | string _ | native _ | closure _ | «class» _ =>
      exact .failed (agree₁.weaken (List.subset_append_right _ _))
  | this keyword distance =>
    rw [Lox.evaluate, Lox.evaluate]
    exact start.lookUp keyword distance
  | super keyword method distance =>
    rw [Lox.evaluate, Lox.evaluate]
    exact start.superMethod keyword method distance

theorem expressions (ih : Mirrors config config' n) {es : List Expr}
    (twins : Twins config config' (n + 1) held (.expressions es) m m') :
    EndsAlike config config' (n + 1) held (.expressions es) m m' := by
  have start : m.Agree ([] ++ held) m' := twins.start
  dsimp only [EndsAlike]
  cases es with
  | nil =>
    rw [Lox.evaluateAll, Lox.evaluateAll]
    exact .done start
  | cons e rest =>
    rw [Lox.evaluateAll, Lox.evaluateAll]
    refine .bind (ih.evaluate twins start (.inner .head) (.inner .head))
      fun value m₁ m₁' first first' agree₁ => ?_
    refine .bind (ih.evaluateAll twins agree₁ (.inner (.tail first)) (.inner (.tail first')))
      fun values m₂ m₂' _ _ agree₂ => ?_
    refine .done (agree₂.weaken fun root member => ?_)
    simp only [List.map_cons, List.mem_append, List.mem_cons, List.not_mem_nil, or_false] at member ⊢
    rcases member with (same | later) | old
    · exact .inl (.inr same)
    · exact .inl (.inl later)
    · exact .inr old

theorem initializer (ih : Mirrors config config' n) {type : Class} {line : Nat}
    {arguments : List Value} {method : Closure}
    (twins : Twins config config' (n + 1) held (.call (.class type) line arguments) m m')
    (declared : type.findMethod? initializerName = some method)
    (arity : arguments.length = method.arity) (room : m.depth < config.maxDepth)
    (room' : m'.depth < config'.maxDepth)
    (agree : m.withInstance.Agree (.value (.instance m.store.newInstance.1 type) ::
      ((.value (.class type) :: arguments.map .value) ++ held)) m'.withInstance) :
    Outcome.Agree (fun v => [.value v]) (.value (.instance m.store.newInstance.1 type) :: held)
      (Lox.apply config n (.value (.instance m.store.newInstance.1 type) :: held)
        (m.store.newInstance.2.bind method m.store.newInstance.1 type).1 line arguments
        (m.withInitializer method type))
      (Lox.apply config' n (.value (.instance m'.store.newInstance.1 type) :: held)
        (m'.store.newInstance.2.bind method m'.store.newInstance.1 type).1 line arguments
        (m'.withInitializer method type)) := by
  obtain ⟨_, before, _⟩ := twins.agree.store
  have fresh : m.store.newInstance.1 = m'.store.newInstance.1 := congrArg InstanceId.mk before.next
  obtain ⟨within, same, inside⟩ := agree.store
  have receiver : (Value.instance m.store.newInstance.1 type).Inside within :=
    Machine.Agree.held_inside inside List.mem_cons_self
  obtain ⟨equal, bound⟩ := agree.bind same inside (Class.Inside.method receiver.type declared) receiver
  have left := twins.left.next (.inner (.initializer declared arity room))
  have right := twins.right.next (.inner (.initializer declared arity room'))
  unfold Machine.withInitializer at *
  rw [← fresh] at right ⊢
  rw [show (m'.store.newInstance.2.bind method m.store.newInstance.1 type).1 =
    (m.store.newInstance.2.bind method m.store.newInstance.1 type).1 from equal.symm] at right ⊢
  refine ih ⟨left, right, bound.weaken fun root member => ?_⟩
  simp only [Task.inputs, List.mem_append, List.mem_cons] at member ⊢
  rcases member with (same | given) | same | old
  · exact .inl same
  · exact .inr (.inr (.inl (.inr given)))
  · exact .inr (.inl same)
  · exact .inr (.inr (.inr old))

theorem call (ih : Mirrors config config' n) (alike : config.Alike config') {callee : Value}
    {line : Nat} {arguments : List Value}
    (twins : Twins config config' (n + 1) held (.call callee line arguments) m m') :
    EndsAlike config config' (n + 1) held (.call callee line arguments) m m' := by
  have start : m.Agree ([] ++ held) m' := twins.start
  dsimp only [EndsAlike]
  cases callee with
  | native function =>
    cases function
    rw [Lox.call, Lox.call]
    exact start.invoke alike.maxDepth fun _ _ _ => start.deepen.readClock alike.clock
  | closure function =>
    rw [Lox.call, Lox.call]
    refine start.invoke alike.maxDepth fun arity room room' => ?_
    exact ih ⟨twins.left.next (.inner (.function arity room)),
      twins.right.next (.inner (.function arity room')), twins.agree.deepen⟩
  | «class» type =>
    rw [Lox.call, Lox.call]
    refine start.invoke alike.maxDepth fun arity room room' => ?_
    have known : Root.value (.class type) ∈
        (Task.call (.class type) line arguments).inputs ++ held := List.mem_cons_self
    have made := twins.agree.withInstance known
    -- Both stores have given out the same numbers, whatever has been collected in between.
    have fresh : m.store.newInstance.1 = m'.store.newInstance.1 := by
      obtain ⟨_, before, _⟩ := start.store
      exact congrArg InstanceId.mk before.next
    refine .of_done rfl rfl ?_
    cases declared : type.findMethod? initializerName with
    | none =>
      show Outcome.Agree _ _ (.done (Value.instance m.store.newInstance.1 type) m.withInstance)
        (.done (Value.instance m'.store.newInstance.1 type) m'.withInstance)
      rw [← fresh]
      exact .done (made.weaken (List.cons_subset_cons _ (List.subset_append_right _ _)))
    | some method =>
      have arity' : arguments.length = method.arity := by
        rw [Class.arity, declared] at arity
        exact arity
      have bound := ih.initializer twins declared arity' room room' made
      have kept : Outcome.Agree (fun _ => [.value (.instance m.store.newInstance.1 type)]) held _ _ :=
        bound.mono (List.subset_cons_self _ _) fun _ => List.subset_cons_self _ _
      refine .of_done rfl rfl (.bind kept fun _ n n' _ _ agree => ?_)
      show Outcome.Agree _ _ (.done (Value.instance m.store.newInstance.1 type) n)
        (.done (Value.instance m'.store.newInstance.1 type) n')
      rw [← fresh]
      exact .done agree
  | nil | bool _ | number _ | string _ | «instance» _ _ =>
    rw [Lox.call, Lox.call]
    · exact .failed start
    all_goals simp

theorem within_of_steady {body : List Stmt} {id : ScopeId}
    (steady : Steady config ⟨n, held, .statements body, m⟩) (inside : m.scope = id) :
    (executeAll config n held body m).Sat (fun flow => Machine.Within id (flow.roots ++ held))
      (Machine.Within id held) := by
  obtain ⟨layers, after, ready⟩ := steady
  exact Outcome.Sat.mono ((Discipline.unrestricted config).preserves n ready)
    (fun _ _ (done : DisciplineData.Finished _ _ _ _ _ _) =>
      ⟨done.later.scope.trans inside, done.safe.sound⟩)
    fun _ broken => ⟨broken.later.scope.trans inside, broken.safe.sound⟩

theorem apply (ih : Mirrors config config' n) {function : Closure} {line : Nat}
    {arguments : List Value}
    (twins : Twins config config' (n + 1) held (.apply function line arguments) m m') :
    EndsAlike config config' (n + 1) held (.apply function line arguments) m m' := by
  dsimp only [EndsAlike]
  rw [Lox.apply, Lox.apply]
  have known : Root.value (.closure function) ∈
      (Task.apply function line arguments).inputs ++ held := List.mem_cons_self
  have agree := twins.agree.holdScope known
  obtain ⟨equal, made⟩ := agree.newScope function.scope
    (Eval.parameterBindings function.declaration.params arguments)
    (List.mem_cons_of_mem _ (List.mem_cons_of_mem _ List.mem_cons_self))
    fun entry member => by
      simp only [Task.inputs, List.mem_append, List.mem_cons, List.mem_map]
      exact .inr (.inl (.inr ⟨_, Discipline.mem_parameterBindings member, rfl⟩))
  have entered : Machine.Agree (.scope m.scope :: .scope function.scope :: held)
      (m.enterFunction function arguments) (m'.enterFunction function arguments) := by
    have inside :=
      made.enter (List.mem_cons_of_mem _ (List.mem_cons_of_mem _ List.mem_cons_self))
    unfold Machine.enterFunction
    rw [← equal]
    refine inside.weaken (List.cons_subset_cons _ ?_)
    exact List.subset_cons_of_subset _ (List.cons_subset_cons _ (List.subset_append_right _ _))
  have left := twins.left.next .body
  have right := twins.right.next .body
  have same : m.scope = m'.scope := twins.agree.scope
  have body : EndsAlike config config' n (.scope m.scope :: .scope function.scope :: held)
      (.statements function.declaration.body) (m.enterFunction function arguments)
      (m'.enterFunction function arguments) := ih ⟨left, same ▸ right, entered⟩
  refine .of_done rfl rfl (.bind (Outcome.Agree.mono (Machine.Agree.activation same equal ?_
    (within_of_steady left rfl) (within_of_steady right rfl)) (List.subset_cons_self _ _)
    fun flow => ?_) fun flow n n' _ _ (agree₁ :
      n.Agree ((flow.roots ++ [.scope function.scope]) ++ held) n') => ?_)
  · rw [← same]
    exact body
  · rw [List.append_assoc]
    exact List.Subset.refl _
  have after : n.Agree held n' := agree₁.weaken (List.subset_append_right _ _)
  cases function.isInitializer with
  | true =>
    -- An initializer yields `this`, whatever its body returns.
    obtain ⟨within, stores, inside⟩ := agree₁.store
    have scope : within (.scope function.scope) := Machine.Agree.held_inside inside
      (List.mem_append_left _ (List.mem_append_right _ (List.mem_singleton_self _)))
    obtain ⟨alike, found⟩ := stores.readAt scope 0 "this" line
    refine .of_done rfl rfl ?_
    rw [← alike]
    refine .ofExcept after fun v ok => ?_
    exact (agree₁.found stores inside (found v ok)).weaken
      (List.cons_subset_cons _ (List.subset_append_right _ _))
  | false =>
    cases flow with
    | normal => exact .done (after.hold rfl)
    | returned value =>
      exact .done (agree₁.weaken (List.cons_subset_cons _ (List.subset_cons_self _ _)))

theorem block (ih : Mirrors config config' n) {body : List Stmt}
    (twins : Twins config config' (n + 1) held (.statement (.block body)) m m') :
    EndsAlike config config' (n + 1) held (.statement (.block body)) m m' := by
  have start : m.Agree ([] ++ held) m' := twins.start
  have same : m.scope = m'.scope := start.scope
  obtain ⟨equal, made⟩ := start.newScope m.scope [] (List.mem_cons_of_mem _ List.mem_cons_self)
    (by simp)
  have entered : m.enterBlock.Agree (.scope m.scope :: held) m'.enterBlock := by
    have inside :=
      made.enter (List.mem_cons_of_mem _ (List.mem_cons_of_mem _ List.mem_cons_self))
    unfold Machine.enterBlock
    rw [← same, ← equal]
    exact inside.weaken (List.cons_subset_cons _ (List.subset_cons_self _ _))
  have left := twins.left.next .block
  have right := twins.right.next .block
  have ends : Outcome.Agree Flow.roots (.scope m.scope :: held)
      (executeAll config n (.scope m.scope :: held) body m.enterBlock)
      (executeAll config' n (.scope m'.scope :: held) body m'.enterBlock) := by
    rw [← same] at right ⊢
    exact ih ⟨left, right, entered⟩
  dsimp only [EndsAlike]
  rw [execute, execute]
  exact .of_done rfl rfl (Machine.Agree.activation same equal ends (within_of_steady left rfl)
    (within_of_steady right rfl))

theorem statement (ih : Mirrors config config' n) (alike : config.Alike config') {s : Stmt}
    (twins : Twins config config' (n + 1) held (.statement s) m m') :
    EndsAlike config config' (n + 1) held (.statement s) m m' := by
  have start : m.Agree ([] ++ held) m' := twins.start
  have first : ∀ {v : Value} {m₁ m₁' : Machine}, m₁.Agree ([.value v] ++ held) m₁' →
      m₁.Agree held m₁' := fun agree => agree.weaken (List.subset_append_right _ _)
  cases s with
  | block body => exact ih.block twins
  | expression value =>
    dsimp only [EndsAlike]
    rw [execute, execute]
    exact .bind (ih.evaluate twins start (.inner .expression) (.inner .expression))
      fun value m₁ m₁' _ _ agree₁ => .done (first agree₁)
  | print value =>
    dsimp only [EndsAlike]
    rw [execute, execute]
    refine .bind (ih.evaluate twins start (.inner .print) (.inner .print))
      fun value m₁ m₁' _ _ agree₁ => ?_
    exact .bind ((first agree₁).write alike.capacity _) fun _ _ _ _ _ agree₂ => .done agree₂
  | varDecl name initializer? =>
    dsimp only [EndsAlike]
    cases initializer? with
    | none =>
      rw [execute, execute]
      exact .bind ((start.hold (v := .nil) rfl).define name) fun _ _ _ _ _ agree₁ => .done agree₁
    | some initializer =>
      rw [execute, execute]
      refine .bind (ih.evaluate twins start .initial .initial) fun value m₁ m₁' _ _ agree₁ => ?_
      exact .bind (agree₁.define name) fun _ _ _ _ _ agree₂ => .done agree₂
  | branch condition thenBranch elseBranch? =>
    dsimp only [EndsAlike]
    rw [Discipline.execute_branch, Discipline.execute_branch]
    refine .bind (ih.evaluate twins start (.inner .condition) (.inner .condition))
      fun value m₁ m₁' ended ended' agree₁ => ?_
    cases truthy : value.isTruthy with
    | true =>
      exact ih ⟨twins.left.next (.thenBranch ended truthy),
        twins.right.next (.thenBranch ended' truthy), first agree₁⟩
    | false =>
      cases elseBranch? with
      | none => exact .done (first agree₁)
      | some elseBranch =>
        exact ih ⟨twins.left.next (.elseBranch ended truthy),
          twins.right.next (.elseBranch ended' truthy), first agree₁⟩
  | loop condition body =>
    dsimp only [EndsAlike]
    rw [execute, execute]
    exact ih ⟨twins.left.next .loop, twins.right.next .loop, start⟩
  | functionDecl declaration =>
    dsimp only [EndsAlike]
    rw [execute, execute]
    refine .of_done rfl rfl ?_
    rw [← start.scope]
    refine .bind (start.close (List.mem_cons_of_mem _ List.mem_cons_self) declaration false)
      fun function m₁ m₁' _ _ agree₁ => ?_
    exact .bind (agree₁.define declaration.name) fun _ _ _ _ _ agree₂ => .done agree₂
  | returns keyword value? =>
    dsimp only [EndsAlike]
    cases value? with
    | none =>
      rw [execute, execute]
      exact .done (start.hold rfl)
    | some value =>
      rw [execute, execute]
      exact .bind (ih.evaluate twins start (.inner .returned) (.inner .returned))
        fun value m₁ m₁' _ _ agree₁ => .done agree₁
  | classDecl name superclass? methods =>
    dsimp only [EndsAlike]
    cases superclass? with
    | none =>
      rw [execute, execute]
      exact .bind (start.declareClass name none methods (by simp))
        fun _ _ _ _ _ agree₁ => .done agree₁
    | some superclass =>
      rw [execute, execute]
      refine .bind (ih.evaluate twins start .superclass .superclass)
        fun value m₁ m₁' _ _ agree₁ => ?_
      cases value with
      | «class» type =>
        have declared := agree₁.declareClass name (some type) methods fun superclass same => by
          cases same
          exact List.mem_cons_self
        have kept : Outcome.Agree (fun _ => []) held _ _ :=
          declared.mono (List.subset_append_right _ _) fun _ => List.subset_append_right _ _
        exact .bind kept fun _ _ _ _ _ agree₂ => .done agree₂
      | nil | bool _ | number _ | string _ | native _ | closure _ | «instance» _ _ =>
        exact .failed (first agree₁)

theorem statements (ih : Mirrors config config' n) {ss : List Stmt}
    (twins : Twins config config' (n + 1) held (.statements ss) m m') :
    EndsAlike config config' (n + 1) held (.statements ss) m m' := by
  have start : m.Agree ([] ++ held) m' := twins.start
  dsimp only [EndsAlike]
  cases ss with
  | nil =>
    rw [executeAll, executeAll]
    exact .done start
  | cons s rest =>
    rw [executeAll, executeAll]
    have first : EndsAlike config config' n held (.statement s) m m' :=
      ih ⟨twins.left.next .first, twins.right.next .first, start⟩
    refine .bind first fun flow m₁ m₁' ended ended' agree₁ => ?_
    cases flow with
    | returned value => exact .done agree₁
    | normal =>
      exact ih ⟨twins.left.next (.others ended), twins.right.next (.others ended'), agree₁⟩

theorem loop (ih : Mirrors config config' n) {condition : Expr} {body : Stmt}
    (twins : Twins config config' (n + 1) held (.loop condition body) m m') :
    EndsAlike config config' (n + 1) held (.loop condition body) m m' := by
  have start : m.Agree ([] ++ held) m' := twins.start
  dsimp only [EndsAlike]
  rw [repeatWhile, repeatWhile]
  refine .bind (ih.evaluate twins start (.inner .loopCondition) (.inner .loopCondition))
    fun value m₁ m₁' ended ended' agree₁ => ?_
  have after : m₁.Agree held m₁' := agree₁.weaken (List.subset_append_right _ _)
  cases truthy : value.isTruthy with
  | false => exact .done after
  | true =>
    have once : EndsAlike config config' n held (.statement body) m₁ m₁' :=
      ih ⟨twins.left.next (.loopBody ended truthy), twins.right.next (.loopBody ended' truthy), after⟩
    refine .bind once fun flow m₂ m₂' second second' agree₂ => ?_
    cases flow with
    | returned value => exact .done agree₂
    | normal =>
      exact ih ⟨twins.left.next (.loopAgain ended truthy second),
        twins.right.next (.loopAgain ended' truthy second'), agree₂⟩

end Mirrors

/-- Runs that differ in when they collect end in the same way. -/
theorem Config.Alike.mirrors (alike : config.Alike config') (n : Nat) :
    Mirrors config config' n := by
  induction n with
  | zero =>
    intro held task m m' twins
    cases task <;> exact .unfinished
  | succ n ih =>
    intro held task m m' twins
    cases task with
    | expression e => exact ih.expression twins
    | expressions es => exact ih.expressions twins
    | call callee line arguments => exact ih.call alike twins
    | apply function line arguments => exact ih.apply twins
    | statement s => exact ih.statement alike twins
    | statements ss => exact ih.statements twins
    | loop condition body => exact ih.loop twins

end Lox
