import Lox.Proofs.Rewording.Machines
import Lox.Proofs.Machine.Reachable

namespace Lox

def Expr.used? : Expr → Option (Token × Distance)
  | .variable name distance | .assign name _ distance | .this name distance => some (name, distance)
  | _ => none

def Stmt.declared? : Stmt → Option Token
  | .varDecl name _ | .classDecl name _ _ => some name
  | .functionDecl declaration => some declaration.name
  | _ => none

def Stmt.called? : Stmt → Option Token
  | .classDecl name _ _ => some name
  | .functionDecl declaration => some declaration.name
  | _ => none

structure DisciplineData.Amid (D : DisciplineData) (w : Rewording) (m : Machine)
    (layers : List D.Layer) : Prop extends D.Around m layers where
  globals : m.globals = D.globals
  nested : m.store.Nested
  outermost : ∀ scope, m.store.scope? m.globals = some scope → scope.enclosing? = none
  told : m.store.Told w m.globals

/-- What a discipline knows is enough to tell names apart, wherever one is looked up or bound. -/
structure Discipline.Separates {config : Config} (D : Discipline config) (w : Rewording) : Prop where
  used : ∀ {n held e name distance layers after} {m m' : Machine},
    D.fits ⟨n + 1, held, .expression e, m⟩ layers after → e.used? = some (name, distance) →
    D.Amid w m' layers → m'.Apart w distance name.lexeme
  declared : ∀ {n held s name layers after} {m m' : Machine},
    D.fits ⟨n + 1, held, .statement s, m⟩ layers after → s.declared? = some name →
    D.Amid w m' layers → m'.store.Apart w m'.globals m'.scope name.lexeme
  called : ∀ {n held s name m layers after},
    D.fits ⟨n + 1, held, .statement s, m⟩ layers after → s.called? = some name →
    w.name name.lexeme = name.lexeme
  parameters : ∀ {n held function' line arguments m layers after around},
    D.fits ⟨n + 1, held, .apply function' line arguments, m⟩ layers after →
    D.function function' around →
    ∀ param ∈ function'.declaration.params, ∀ other ∈ function'.declaration.params,
      w.name param.lexeme = w.name other.lexeme → param.lexeme = other.lexeme

section bindings

variable {w : Rewording}

theorem Bindings.key_put {name : String} {v : Value} {bound : Bindings} {entry : String × Value}
    (member : entry ∈ Bindings.put name v bound) :
    entry.1 = name ∨ ∃ old ∈ bound, old.1 = entry.1 := by
  induction bound with
  | nil =>
    cases List.mem_singleton.mp member
    exact .inl rfl
  | cons first rest ih =>
    obtain ⟨key, old⟩ := first
    rw [Bindings.put] at member
    split at member
    · rename_i same
      rcases List.mem_cons.mp member with rfl | later
      · exact .inl same
      · exact .inr ⟨entry, List.mem_cons_of_mem _ later, rfl⟩
    · rcases List.mem_cons.mp member with rfl | later
      · exact .inr ⟨_, List.mem_cons_self, rfl⟩
      · rcases ih later with same | ⟨other, inside, same⟩
        · exact .inl same
        · exact .inr ⟨other, List.mem_cons_of_mem _ inside, same⟩

theorem parameterBindings_reworded (params : List Token) (arguments : List Value)
    (apart : ∀ param ∈ params, ∀ other ∈ params,
      w.name param.lexeme = w.name other.lexeme → param.lexeme = other.lexeme) :
    Eval.parameterBindings (params.map w.named) (arguments.map w.value) =
      w.bindings w.name (Eval.parameterBindings params arguments) := by
  -- All that is bound so far is bound to parameters, which are told apart.
  have folded : ∀ (pairs : List (Token × Value)) (bound : Bindings),
      (∀ pair ∈ pairs, pair.1 ∈ params) →
      (∀ entry ∈ bound, ∃ param ∈ params, entry.1 = param.lexeme) →
      (pairs.map (Prod.map w.named w.value)).foldl
        (fun bound pair => Bindings.put pair.1.lexeme pair.2 bound) (w.bindings w.name bound) =
      w.bindings w.name (pairs.foldl
        (fun bound pair => Bindings.put pair.1.lexeme pair.2 bound) bound) := by
    intro pairs
    induction pairs with
    | nil => exact fun bound _ _ => rfl
    | cons pair rest ih =>
      intro bound inside known
      have here := inside pair List.mem_cons_self
      have put : Bindings.put (w.name pair.1.lexeme) (w.value pair.2) (w.bindings w.name bound) =
          w.bindings w.name (Bindings.put pair.1.lexeme pair.2 bound) := by
        refine w.put_bindings pair.2 fun entry member same => ?_
        obtain ⟨param, given, equal⟩ := known entry member
        rw [equal] at same ⊢
        exact apart param given pair.1 here same
      rw [List.map_cons, List.foldl_cons, List.foldl_cons]
      show List.foldl _ (Bindings.put (w.name pair.1.lexeme) (w.value pair.2)
        (w.bindings w.name bound)) _ = _
      rw [put]
      refine ih _ (fun other member => inside other (List.mem_cons_of_mem _ member)) ?_
      intro entry member
      rcases Bindings.key_put member with same | ⟨old, before, same⟩
      · exact ⟨pair.1, here, same⟩
      · exact same ▸ known old before
  unfold Eval.parameterBindings
  rw [List.zip_map]
  exact folded (params.zip arguments) [] (fun pair member => (List.of_mem_zip member).1) (by simp)

theorem parameterBindings_tells {params : List Token} (arguments : List Value)
    (apart : ∀ param ∈ params, ∀ other ∈ params,
      w.name param.lexeme = w.name other.lexeme → param.lexeme = other.lexeme) :
    w.Tells (Eval.parameterBindings params arguments) := by
  have named : ∀ entry ∈ Eval.parameterBindings params arguments,
      ∃ param ∈ params, entry.1 = param.lexeme := by
    unfold Eval.parameterBindings
    refine List.foldlRecOn (motive := fun bound : Bindings => ∀ entry ∈ bound,
      ∃ param ∈ params, entry.1 = param.lexeme) _ _ nofun fun bound known pair member => ?_
    intro entry inside
    rcases Bindings.key_put inside with same | ⟨old, before, same⟩
    · exact ⟨pair.1, (List.of_mem_zip member).1, same⟩
    · exact same ▸ known old before
  intro name other v v' first second same
  obtain ⟨param, given, rfl⟩ := named (name, v) (mem_of_lookup first)
  obtain ⟨param', given', rfl⟩ := named (other, v') (mem_of_lookup second)
  exact apart param' given' param given same

end bindings

def EndsReworded (config : Config) (w : Rewording) (n : Nat) (held held' : List Root) (task : Task)
    (m m' : Machine) : Prop :=
  match task with
  | .expression e =>
    Outcome.Reworded w w.value (evaluate config n held e m)
      (evaluate config n held' (w.expression e) m')
  | .expressions es =>
    Outcome.Reworded w (List.map w.value) (evaluateAll config n held es m)
      (evaluateAll config n held' (w.expressions es) m')
  | .call callee line arguments =>
    Outcome.Reworded w w.value (call config n held callee line arguments m)
      (call config n held' (w.value callee) (w.line line) (arguments.map w.value) m')
  | .apply function line arguments =>
    Outcome.Reworded w w.value (apply config n held function line arguments m)
      (apply config n held' (w.closure function) (w.line line) (arguments.map w.value) m')
  | .statement s =>
    Outcome.Reworded w w.flow (execute config n held s m) (execute config n held' (w.statement s) m')
  | .statements ss =>
    Outcome.Reworded w w.flow (executeAll config n held ss m)
      (executeAll config n held' (w.statements ss) m')
  | .loop condition body =>
    Outcome.Reworded w w.flow (repeatWhile config n held condition body m)
      (repeatWhile config n held' (w.expression condition) (w.statement body) m')

namespace Discipline

variable {config : Config} {D : Discipline config} {w : Rewording} {n : Nat}
  {held held' held₁ held₁' : List Root} {task : Task} {m m' m₁ m₁' : Machine}
  {layers after : List D.Layer}

def Rewords (D : Discipline config) (w : Rewording) (n : Nat) : Prop :=
  ∀ {held held' : List Root} {task : Task} {m m' : Machine} {layers after : List D.Layer},
    D.Ready ⟨n, held, task, m⟩ layers after → m.Reworded w m' →
    EndsReworded config w n held held' task m m'

/-- A task that is called by another one. -/
theorem Rewords.calls (ih : D.Rewords w n) {task' : Task}
    (ready : D.Ready ⟨n + 1, held, task, m⟩ layers after) (same : m₁.Reworded w m₁')
    (calls : Calls config ⟨n + 1, held, task, m⟩ ⟨n, held₁, task', m₁⟩) :
    EndsReworded config w n held₁ held₁' task' m₁ m₁' := by
  obtain ⟨_, _, there⟩ := ready_of_calls ready calls
  exact ih there same

theorem amid_of_left {results : List Root} (left : D.Left m held nowhere results m₁)
    (ready : D.Ready ⟨n + 1, held, task, m⟩ layers after) (same : m₁.Reworded w m₁') :
    D.Amid w m₁ layers :=
  ⟨left.around ready.safe.sound.numbered ready.around, left.later.globals.trans ready.globals,
    left.safe.sound.nested, same.store.outermost, same.store.told⟩

theorem left_of_first {e : Expr} {value : Value}
    (ready : D.Ready ⟨n + 1, held, task, m⟩ layers after)
    (calls : Calls config ⟨n + 1, held, task, m⟩ ⟨n, held, .expression e, m⟩)
    (ended : evaluate config n held e m = .done value m₁) :
    D.Left m held nowhere [.value value] m₁ := by
  obtain ⟨_, _, there⟩ := ready_of_calls ready calls
  have ends : D.Ends config ⟨n, held, .expression e, m⟩ _ := D.preserves n there
  exact Outcome.Sat.done_of_eq ends ended

theorem Rewords.expression (ih : D.Rewords w n) (separates : D.Separates w) {e : Expr}
    (ready : D.Ready ⟨n + 1, held, .expression e, m⟩ layers after) (same : m.Reworded w m') :
    EndsReworded config w (n + 1) held held' (.expression e) m m' := by
  have used : ∀ {name distance}, e.used? = some (name, distance) →
      m.Apart w distance name.lexeme := fun found =>
    separates.used ready.fits found (amid_of_left ready.start ready same)
  dsimp only [EndsReworded]
  cases e with
  | literal value =>
    rw [Lox.evaluate, Rewording.expression, Lox.evaluate]
    have ends : Outcome.Reworded w w.value (.done (.ofConstant value) m)
        (.done (w.value (.ofConstant value)) m') := .done same
    rwa [w.value_ofConstant] at ends
  | grouping inner =>
    rw [Lox.evaluate, Rewording.expression, Lox.evaluate]
    exact ih.calls ready same (.inner .grouping)
  | unary operator right =>
    rw [Lox.evaluate, Rewording.expression, Lox.evaluate]
    exact .bind (ih.calls ready same (.inner .unary)) fun right m₁ m₁' _ same₁ =>
      .ofExcept same₁ (w.applyUnary_eq operator right)
  | binary left operator right =>
    rw [Lox.evaluate, Rewording.expression, Lox.evaluate]
    refine .bind (ih.calls ready same (.inner .binaryLeft)) fun left m₁ m₁' first same₁ => ?_
    exact .bind (ih.calls ready same₁ (.inner (.binaryRight first))) fun right m₂ m₂' _ same₂ =>
      .ofExcept same₂ (w.applyBinary_eq operator left right)
  | logical left operator right =>
    rw [Lox.evaluate, Rewording.expression, Lox.evaluate]
    refine .bind (ih.calls ready same (.inner .logicalLeft)) fun left m₁ m₁' first same₁ => ?_
    rw [w.decidesAlone_eq]
    cases decided : decidesAlone operator left with
    | true => exact .done same₁
    | false => exact ih.calls ready same₁ (.inner (.logicalRight first decided))
  | «variable» name distance =>
    rw [Lox.evaluate, Rewording.expression, Lox.evaluate]
    exact same.lookUp (used rfl)
  | assign name value distance =>
    rw [Lox.evaluate, Rewording.expression, Lox.evaluate]
    refine .bind (ih.calls ready same (.inner .assigned)) fun value m₁ m₁' first same₁ => ?_
    -- The names have to be apart where the assignment takes place, not where the value begins.
    have left := left_of_first ready (.inner .assigned) first
    have apart : m₁.Apart w distance name.lexeme :=
      separates.used ready.fits rfl (amid_of_left left ready same₁)
    exact .bind (same₁.assign apart value) fun _ _ _ _ same₂ => .done same₂
  | call callee paren arguments =>
    rw [Lox.evaluate, Rewording.expression, Lox.evaluate]
    refine .bind (ih.calls ready same (.inner .callee)) fun callee m₁ m₁' first same₁ => ?_
    refine .bind (ih.calls ready same₁ (.inner (.arguments first)))
      fun values m₂ m₂' second same₂ => ?_
    exact ih.calls ready same₂ (.inner (.call first second))
  | get object name =>
    rw [Lox.evaluate, Rewording.expression, Lox.evaluate]
    refine .bind (ih.calls ready same (.inner .getObject)) fun object m₁ m₁' _ same₁ => ?_
    cases object with
    | «instance» id type => exact same₁.property id type name
    | nil | bool _ | number _ | string _ | native _ | closure _ | «class» _ => exact .failed same₁
  | set object name value =>
    rw [Lox.evaluate, Rewording.expression, Lox.evaluate]
    refine .bind (ih.calls ready same (.inner .setObject)) fun object m₁ m₁' first same₁ => ?_
    cases object with
    | «instance» id type =>
      refine .bind (ih.calls ready same₁ (.inner (.setValue first)))
        fun value m₂ m₂' _ same₂ => ?_
      exact same₂.setField id name.lexeme value
    | nil | bool _ | number _ | string _ | native _ | closure _ | «class» _ => exact .failed same₁
  | this keyword distance =>
    rw [Lox.evaluate, Rewording.expression, Lox.evaluate]
    exact same.lookUp (used rfl)
  | super keyword method distance =>
    rw [Lox.evaluate, Rewording.expression, Lox.evaluate]
    exact same.superMethod keyword method distance

theorem Rewords.expressions (ih : D.Rewords w n) {es : List Expr}
    (ready : D.Ready ⟨n + 1, held, .expressions es, m⟩ layers after) (same : m.Reworded w m') :
    EndsReworded config w (n + 1) held held' (.expressions es) m m' := by
  dsimp only [EndsReworded]
  cases es with
  | nil =>
    rw [Lox.evaluateAll, Rewording.expressions, Lox.evaluateAll]
    exact .done same
  | cons e rest =>
    rw [Lox.evaluateAll, Rewording.expressions, Lox.evaluateAll]
    refine .bind (ih.calls ready same (.inner .head)) fun value m₁ m₁' first same₁ => ?_
    exact .bind (ih.calls ready same₁ (.inner (.tail first))) fun values m₂ m₂' _ same₂ =>
      .done same₂

theorem Rewords.call (ih : D.Rewords w n) {callee : Value} {line : Nat} {arguments : List Value}
    (ready : D.Ready ⟨n + 1, held, .call callee line arguments, m⟩ layers after)
    (same : m.Reworded w m') :
    EndsReworded config w (n + 1) held held' (.call callee line arguments) m m' := by
  dsimp only [EndsReworded]
  cases callee with
  | native function =>
    cases function
    rw [Lox.call, Rewording.value, Lox.call, List.length_map]
    · exact same.invoke fun _ _ => same.deepen.readClock
    all_goals simp
  | closure function =>
    rw [Lox.call, Rewording.value, Lox.call, List.length_map, w.closure_arity]
    exact same.invoke fun arity room => ih.calls ready same.deepen (.inner (.function arity room))
  | «class» type =>
    rw [Lox.call, Rewording.value, Lox.call, List.length_map, w.type_arity]
    refine same.invoke fun arity room => ?_
    refine .bind same.deepen.newInstance fun id m₁ m₁' made same₁ => ?_
    rw [w.findMethod?_type]
    cases made
    cases declared : type.findMethod? initializerName with
    | none => exact .done same₁
    | some method =>
      have arity' : arguments.length = method.arity := by
        rw [Class.arity, declared] at arity
        exact arity
      refine .bind (same₁.bind method _ type) fun bound m₂ m₂' ended same₂ => ?_
      cases ended
      refine .bind (f := w.value) ?_ fun _ _ _ _ same₃ => .done same₃
      exact ih.calls ready same₂ (.inner (.initializer declared arity' room))
  | nil | bool _ | number _ | string _ | «instance» _ _ =>
    rw [Lox.call, Rewording.value, Lox.call]
    · exact .failed same
    all_goals simp

theorem Rewords.apply (ih : D.Rewords w n) (idle : config.Idle) (separates : D.Separates w)
    {function : Closure} {line : Nat} {arguments : List Value}
    (ready : D.Ready ⟨n + 1, held, .apply function line arguments, m⟩ layers after)
    (same : m.Reworded w m') :
    EndsReworded config w (n + 1) held held' (.apply function line arguments) m m' := by
  have closed : D.Closed D.function m.store function :=
    ready.safe.admits (.closure function) (.inr (.inr (DisciplineData.held_subset List.mem_cons_self)))
  obtain ⟨_, around, _, fit⟩ := closed
  have bound := parameterBindings_reworded function.declaration.params arguments
    (separates.parameters ready.fits fit)
  -- The other call with everything in terms of this one: its scope binds the renamed parameters.
  have there : Lox.apply config (n + 1) held' (w.closure function) (w.line line)
      (arguments.map w.value) = (do
        let scope ← Eval.onStore (·.newScope (some function.scope)
          (w.bindings w.name (Eval.parameterBindings function.declaration.params arguments)))
        let flow ← Eval.activation config (.scope function.scope :: held') scope fun held =>
          executeAll config n held (w.statements function.declaration.body)
        if function.isInitializer then do
          let m ← Eval.get
          Eval.ofExcept (m.store.readAt function.scope 0 "this" (w.line line))
        else pure flow.result) := by
    rw [Lox.apply, ← bound, ← w.function_params, ← w.function_body]
    rfl
  dsimp only [EndsReworded]
  rw [Lox.apply, there]
  have tells := parameterBindings_tells arguments (separates.parameters ready.fits fit)
  refine .bind (same.newScope (some function.scope) tells) fun id m₁ m₁' made same₁ => ?_
  cases made
  refine .bind (f := w.flow) (Machine.Reworded.activation idle same₁ ?_)
    fun flow m₂ m₂' _ same₂ => ?_
  · exact ih.calls ready (same₁.enter _) .body
  · cases function.isInitializer with
    | true =>
      refine .of_done rfl rfl (.ofExcept same₂ ?_)
      exact same₂.readReserved w.this_iff function.scope 0 line
    | false =>
      have ends : Outcome.Reworded w w.value (.done flow.result m₂)
          (.done (w.value flow.result) m₂') := .done same₂
      rwa [← w.flow_result] at ends

end Discipline

section classes

variable {w : Rewording} {config : Config} {m m' : Machine} {name : String}

structure Machine.Names (w : Rewording) (m : Machine) (name : String) : Prop where
  apart : m.store.Apart w m.globals m.scope name
  bound : ∃ scope, m.store.scope? m.scope = some scope ∧ scope.Binds name
  old : m.scope.index < m.store.next

/-- A change of the store that leaves what is bound. -/
theorem Machine.Names.change (names : m.Names w name) {s : Store} (le : m.store.next ≤ s.next)
    (kept : (s.scope? m.scope).map Scope.bindings = (m.store.scope? m.scope).map Scope.bindings) :
    Machine.Names w { m with store := s } name := by
  refine ⟨names.apart.change kept, ?_, Nat.lt_of_lt_of_le names.old le⟩
  obtain ⟨before, atScope, binds⟩ := names.bound
  rw [atScope] at kept
  obtain ⟨scope, found, equal⟩ := Option.map_eq_some_iff.mp kept
  refine ⟨scope, found, ?_⟩
  unfold Scope.Binds at binds ⊢
  rwa [equal]

theorem Machine.Names.newScope (names : m.Names w name) (enclosing? : Option ScopeId)
    (bound : Bindings) :
    Machine.Names w { m with store := (m.store.newScope enclosing? bound).2 } name := by
  refine names.change (Nat.le_succ _) ?_
  rw [Store.scope?_newScope, if_neg (Nat.ne_of_lt names.old)]

theorem Machine.Names.close (names : m.Names w name) (id : ScopeId) (declaration : FunctionDecl)
    (isInitializer : Bool) :
    Machine.Names w { m with store := (m.store.close id declaration isInitializer).2 } name := by
  have next : (m.store.newIdentity.2.capture id).next = m.store.next + 1 :=
    Store.next_capture _ id
  refine names.change ?_ (m.store.bindings_close id m.scope declaration isInitializer)
  exact Nat.le_trans (Nat.le_succ _) (Nat.le_of_eq next.symm)

theorem Machine.Names.closeMethods (names : m.Names w name) (id : ScopeId)
    (methods : List FunctionDecl) (found made : List (String × Closure)) {n : Machine}
    (ended : Eval.closeMethods id found methods m = .done made n) : n.Names w name := by
  induction methods generalizing found m with
  | nil =>
    cases ended
    exact names
  | cons method rest ih =>
    exact ih (names.close id method (method.name.lexeme == initializerName)) _ ended

theorem Machine.Reworded.closeMethods (same : m.Reworded w m') (id : ScopeId)
    (methods : List FunctionDecl) (found : List (String × Closure)) :
    Outcome.Reworded w w.methods (Eval.closeMethods id found methods m)
      (Eval.closeMethods id (w.methods found) (w.functions methods) m') := by
  induction methods generalizing found m m' with
  | nil => exact .done same
  | cons method rest ih =>
    unfold Eval.closeMethods Rewording.functions
    simp only [Rewording.function_name, Rewording.token_lexeme]
    exact .bind (same.close id method _) fun closure n n' _ same₁ => ih same₁ _

theorem Machine.Reworded.makeClass (same : m.Reworded w m') {name : Token}
    (names : m.Names w name.lexeme) (called : w.name name.lexeme = name.lexeme)
    (id : ScopeId) (superclass? : Option Class) (methods : List FunctionDecl) :
    Outcome.Reworded w (fun u => u)
      ((do
        let methods ← Eval.closeMethods id [] methods
        let identity ← Eval.onStore Store.newIdentity
        let m ← Eval.get
        Eval.setStore (m.store.assign m.scope name.lexeme
          (.class (.mk identity name.lexeme superclass? methods)) name.line) : Eval Unit) m)
      ((do
        let methods ← Eval.closeMethods id [] (w.functions methods)
        let identity ← Eval.onStore Store.newIdentity
        let m ← Eval.get
        Eval.setStore (m.store.assign m.scope name.lexeme
          (.class (.mk identity name.lexeme (superclass?.map w.type) methods))
          (w.line name.line)) : Eval Unit) m') := by
  refine .bind (same.closeMethods id methods []) fun made n n' ended same₁ => ?_
  have there := names.closeMethods id methods [] made ended
  have numbered : Outcome.Reworded w (fun identity => identity)
      (Eval.onStore Store.newIdentity n) (Eval.onStore Store.newIdentity n') :=
    same₁.onStore same₁.store.next same₁.store.newIdentity
  refine .bind numbered fun identity k k' reserved same₂ => ?_
  cases reserved
  have here : Machine.Names w { n with store := n.store.newIdentity.2 } name.lexeme :=
    there.change (Nat.le_succ _) rfl
  obtain ⟨scope, atScope, value, bound⟩ := here.bound
  have binds : (n.store.newIdentity.2.local? n.scope name.lexeme).isSome :=
    Option.isSome_iff_exists.mpr ⟨value, Option.bind_eq_some_iff.mpr ⟨scope, atScope, bound⟩⟩
  have assigned := same₂.store.assign here.apart (.inl binds)
    (.class (.mk n.store.next name.lexeme superclass? made)) name.line
  rw [called, Rewording.value, w.type_mk] at assigned
  refine .of_done rfl rfl (same₂.setStore ?_)
  rw [same₂.scope]
  exact assigned

theorem Machine.Reworded.declareClass (same : m.Reworded w m') {name : Token}
    (apart : m.store.Apart w m.globals m.scope name.lexeme)
    (called : w.name name.lexeme = name.lexeme)
    (present : ∃ scope, m.store.scope? m.scope = some scope)
    (old : m.scope.index < m.store.next) (superclass? : Option Class)
    (methods : List FunctionDecl) :
    Outcome.Reworded w (fun u => u) (Eval.declareClass name superclass? methods m)
      (Eval.declareClass (w.token name) (superclass?.map w.type) (w.functions methods) m') := by
  unfold Eval.declareClass
  refine .bind (same.define apart called.symm .nil) fun _ n n' named same₁ => ?_
  have names : n.Names w name.lexeme := by
    cases named
    obtain ⟨scope, found⟩ := present
    have defined : (m.store.define m.scope name.lexeme .nil).scope? m.scope =
        some { scope with bindings := Bindings.put name.lexeme .nil scope.bindings } := by
      rw [Store.scope?_define, found, Option.map_some, if_pos rfl]
    refine ⟨⟨apart.1, ?_⟩, ⟨_, defined, Scope.binds_put.mpr (.inl rfl)⟩, old⟩
    intro other atScope key bound equal
    rw [defined] at atScope
    cases atScope
    rcases Scope.binds_put.mp bound with new | before
    · exact new
    · exact apart.2 scope found key before equal
  refine .of_done rfl rfl ?_
  cases superclass? with
  | none =>
    refine .of_done rfl rfl ?_
    rw [same₁.scope]
    exact same₁.makeClass names called n.scope none methods
  | some superclass =>
    have held : w.bindings w.name [("super", .class superclass)] =
        [("super", .class (w.type superclass))] := by
      unfold Rewording.bindings
      simp only [List.map_cons, List.map_nil, w.name_super, Rewording.value]
    have made := same₁.innerScope (w.tells_singleton "super" (.class superclass))
    rw [held] at made
    refine .bind made fun id k k' opened same₂ => ?_
    cases opened
    exact same₂.makeClass (names.newScope _ _) called _ (some superclass) methods

end classes

namespace Discipline

variable {config : Config} {D : Discipline config} {w : Rewording} {n : Nat}
  {held held' : List Root} {m m' m₁ m₁' : Machine} {layers after : List D.Layer}

theorem Rewords.block (ih : D.Rewords w n) (idle : config.Idle) {body : List Stmt}
    (ready : D.Ready ⟨n + 1, held, .statement (.block body), m⟩ layers after)
    (same : m.Reworded w m') :
    EndsReworded config w (n + 1) held held' (.statement (.block body)) m m' := by
  dsimp only [EndsReworded]
  rw [execute, Rewording.statement, execute]
  refine .bind (same.innerScope w.tells_nil) fun id m₁ m₁' made same₁ => ?_
  cases made
  exact Machine.Reworded.activation idle same₁ (ih.calls ready (same₁.enter _) .block)

/-- What is known of the scope in which a statement binds a name, once its first part has been
    evaluated. -/
theorem declares {s : Stmt} {name : Token} {changed : List Root} (separates : D.Separates w)
    (ready : D.Ready ⟨n + 1, held, .statement s, m⟩ layers after) (binds : s.declared? = some name)
    (left : D.Left m held nowhere changed m₁) (same : m₁.Reworded w m₁') :
    m₁.store.Apart w m₁.globals m₁.scope name.lexeme ∧
      (∃ scope, m₁.store.scope? m₁.scope = some scope) ∧ m₁.scope.index < m₁.store.next := by
  have stands := left.safe.stands m₁.scope (List.mem_cons_of_mem _ List.mem_cons_self)
  obtain ⟨scope, found, _⟩ := stands.exists
  exact ⟨separates.declared ready.fits binds (amid_of_left left ready same), ⟨scope, found⟩,
    left.safe.sound.numbered _ scope found⟩

theorem Rewords.statement (ih : D.Rewords w n) (idle : config.Idle) (separates : D.Separates w)
    {s : Stmt} (ready : D.Ready ⟨n + 1, held, .statement s, m⟩ layers after)
    (same : m.Reworded w m') : EndsReworded config w (n + 1) held held' (.statement s) m m' := by
  have start : D.Left m held nowhere [] m := ready.start
  cases s with
  | block body => exact ih.block idle ready same
  | expression value =>
    dsimp only [EndsReworded]
    rw [execute, Rewording.statement, execute]
    exact .bind (ih.calls ready same (.inner .expression)) fun _ _ _ _ same₁ => .done same₁
  | print value =>
    dsimp only [EndsReworded]
    rw [execute, Rewording.statement, execute]
    refine .bind (ih.calls ready same (.inner .print)) fun value m₁ m₁' _ same₁ => ?_
    rw [w.value_text]
    exact .bind (same₁.write _) fun _ _ _ _ same₂ => .done same₂
  | varDecl name initializer? =>
    dsimp only [EndsReworded]
    cases initializer? with
    | none =>
      rw [execute, Rewording.statement, Option.map_none, execute]
      obtain ⟨apart, _⟩ := declares separates ready rfl start same
      exact .bind (same.define apart rfl .nil) fun _ _ _ _ same₁ => .done same₁
    | some initializer =>
      rw [execute, Rewording.statement, Option.map_some, execute]
      refine .bind (ih.calls ready same .initial) fun value m₁ m₁' first same₁ => ?_
      obtain ⟨apart, _⟩ := declares separates ready rfl (left_of_first ready .initial first)
        same₁
      exact .bind (same₁.define apart rfl value) fun _ _ _ _ same₂ => .done same₂
  | branch condition thenBranch elseBranch? =>
    dsimp only [EndsReworded]
    rw [w.statement_branch, execute_branch, execute_branch]
    refine .bind (ih.calls ready same (.inner .condition)) fun value m₁ m₁' first same₁ => ?_
    rw [w.value_isTruthy]
    cases truthy : value.isTruthy with
    | true => exact ih.calls ready same₁ (.thenBranch first truthy)
    | false =>
      cases elseBranch? with
      | none => exact .done same₁
      | some elseBranch => exact ih.calls ready same₁ (.elseBranch first truthy)
  | loop condition body =>
    dsimp only [EndsReworded]
    rw [execute, Rewording.statement, execute]
    exact ih.calls ready same .loop
  | functionDecl declaration =>
    dsimp only [EndsReworded]
    rw [execute, Rewording.statement, execute]
    refine .of_done rfl rfl ?_
    rw [same.scope]
    obtain ⟨apart, _⟩ := declares separates ready rfl start same
    have called := separates.called ready.fits rfl
    -- To close over a scope binds nothing, so the name is still apart afterwards.
    have closed := apart.change (m.store.bindings_close m.scope m.scope declaration false)
    refine .bind (same.close m.scope declaration false) fun function m₁ m₁' made same₁ => ?_
    have there : m₁.store.Apart w m₁.globals m₁.scope declaration.name.lexeme := by
      cases made
      exact closed
    have kept : (w.function declaration).name.lexeme = w.name declaration.name.lexeme := by
      rw [w.function_name]
      exact called.symm
    exact .bind (same₁.define there kept (.closure function)) fun _ _ _ _ same₂ => .done same₂
  | returns keyword value? =>
    dsimp only [EndsReworded]
    cases value? with
    | none =>
      rw [execute, Rewording.statement, Option.map_none, execute]
      exact .done same
    | some value =>
      rw [execute, Rewording.statement, Option.map_some, execute]
      exact .bind (ih.calls ready same (.inner .returned)) fun _ _ _ _ same₁ => .done same₁
  | classDecl name superclass? methods =>
    have called := separates.called ready.fits rfl
    dsimp only [EndsReworded]
    cases superclass? with
    | none =>
      rw [execute, Rewording.statement, Option.map_none, execute]
      obtain ⟨apart, present, old⟩ := declares separates ready rfl start same
      exact .bind (same.declareClass apart called present old none methods)
        fun _ _ _ _ same₁ => .done same₁
    | some superclass =>
      rw [execute, Rewording.statement, Option.map_some, execute]
      refine .bind (ih.calls ready same .superclass) fun value m₁ m₁' first same₁ => ?_
      -- Looked at only now: evaluating the superclass may have bound names.
      obtain ⟨apart, present, old⟩ := declares separates ready rfl
        (left_of_first ready .superclass first) same₁
      cases value with
      | «class» type =>
        exact .bind (same₁.declareClass apart called present old (some type) methods)
          fun _ _ _ _ same₂ => .done same₂
      | nil | bool _ | number _ | string _ | native _ | closure _ | «instance» _ _ =>
        rw [w.superclassLine_eq]
        exact .failed same₁

theorem Rewords.statements (ih : D.Rewords w n) {ss : List Stmt}
    (ready : D.Ready ⟨n + 1, held, .statements ss, m⟩ layers after) (same : m.Reworded w m') :
    EndsReworded config w (n + 1) held held' (.statements ss) m m' := by
  dsimp only [EndsReworded]
  cases ss with
  | nil =>
    rw [executeAll, Rewording.statements, executeAll]
    exact .done same
  | cons s rest =>
    rw [executeAll, Rewording.statements, executeAll]
    refine .bind (ih.calls ready same .first) fun flow m₁ m₁' first same₁ => ?_
    cases flow with
    | returned value => exact .done same₁
    | normal => exact ih.calls ready same₁ (.others first)

theorem Rewords.loop (ih : D.Rewords w n) {condition : Expr} {body : Stmt}
    (ready : D.Ready ⟨n + 1, held, .loop condition body, m⟩ layers after)
    (same : m.Reworded w m') :
    EndsReworded config w (n + 1) held held' (.loop condition body) m m' := by
  dsimp only [EndsReworded]
  rw [repeatWhile, repeatWhile]
  refine .bind (ih.calls ready same (.inner .loopCondition)) fun value m₁ m₁' first same₁ => ?_
  rw [w.value_isTruthy]
  cases truthy : value.isTruthy with
  | false => exact .done same₁
  | true =>
    refine .bind (ih.calls ready same₁ (.loopBody first truthy)) fun flow m₂ m₂' second same₂ => ?_
    cases flow with
    | returned value => exact .done same₂
    | normal => exact ih.calls ready same₂ (.loopAgain first truthy second)

/-- Whatever the evaluator is asked to do, it does the same with the reworded program. -/
theorem Separates.rewords (separates : D.Separates w) (idle : config.Idle) (n : Nat) :
    D.Rewords w n := by
  induction n with
  | zero =>
    intro held held' task m m' layers after _ _
    cases task <;> exact .unfinished
  | succ n ih =>
    intro held held' task m m' layers after ready same
    cases task with
    | expression e => exact ih.expression separates ready same
    | expressions es => exact ih.expressions ready same
    | call callee line arguments => exact ih.call ready same
    | apply function line arguments => exact ih.apply idle separates ready same
    | statement s => exact ih.statement idle separates ready same
    | statements ss => exact ih.statements ready same
    | loop condition body => exact ih.loop ready same

end Discipline
end Lox
