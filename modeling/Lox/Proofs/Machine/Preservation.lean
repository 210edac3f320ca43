import Lox.Proofs.Machine.Primitives

namespace Lox

theorem applyUnary_atom {operator : Token} {right v : Value}
    (applied : applyUnary operator right = .ok v) : v.objects = [] := by
  unfold applyUnary at applied
  split at applied
  · split at applied
    · cases applied
      rfl
    · cases applied
  · cases applied
    rfl
  · cases applied

theorem applyNumeric_atom {operator : Token} {a b : Float} {v : Value}
    (applied : applyNumeric operator a b = .ok v) : v.objects = [] := by
  unfold applyNumeric at applied
  split at applied <;> cases applied <;> rfl

theorem applyBinary_atom {operator : Token} {left right v : Value}
    (applied : applyBinary operator left right = .ok v) : v.objects = [] := by
  unfold applyBinary at applied
  split at applied
  · cases applied
    rfl
  · cases applied
    rfl
  · split at applied <;> cases applied <;> rfl
  · split at applied
    · exact applyNumeric_atom applied
    · cases applied

def Discipline.Preserves {config : Config} (D : Discipline config) (n : Nat) : Prop :=
  ∀ {held : List Root} {task : Task} {m : Machine} {layers after : List D.Layer},
    D.Ready ⟨n, held, task, m⟩ layers after → D.Ends config ⟨n, held, task, m⟩ after

namespace DisciplineData

variable {config : Config} {D : Discipline config} {n : Nat} {m m' m'' : Machine}
  {held extra : List Root} {task : Task} {layers after : List D.Layer}

theorem Ready.start (ready : D.Ready ⟨n, held, task, m⟩ layers after) :
    D.Left m held nowhere [] m :=
  .start (ready.safe.weaken (roots_subset (List.subset_append_right _ _)))

/-- A point that is called next is ready, if what it is given and holds is at hand. -/
theorem Ready.next {task' : Task} {held' results : List Root}
    (ready : D.Ready ⟨n + 1, held, task, m⟩ layers after)
    (left : D.Left m held nowhere results m')
    (inner : Inner config ⟨n + 1, held, task, m⟩ ⟨n, held', task', m'⟩)
    (given : task'.inputs ++ held' ⊆ results ++ held) :
    D.Ready ⟨n, held', task', m'⟩ layers layers where
  globals := left.later.globals.trans ready.globals
  safe := left.safe.weaken (roots_subset given)
  around := left.around ready.safe.sound.numbered ready.around
  fits := D.inner ready.fits inner

theorem Left.collect_results {results results' : List Root}
    (first : D.Left m held nowhere extra m')
    (second : D.Left m' (extra ++ held) nowhere results m'') (fewer : results' ⊆ results ++ extra) :
    D.Left m held nowhere results' m'' := by
  refine first.trans second ?_
  intro root member
  rcases List.mem_append.mp member with new | old
  · rcases List.mem_append.mp (fewer new) with result | before
    · exact List.mem_append_left _ result
    · exact List.mem_append_right _ (List.mem_append_left _ before)
  · exact List.mem_append_right _ (List.mem_append_right _ old)

theorem Left.failed (first : D.Left m held nowhere extra m')
    (second : D.Left m' (extra ++ held) nowhere [] m'') : D.Left m held nowhere [] m'' :=
  first.collect_results second (List.nil_subset _)

theorem Left.fresh {s : Store} {held' results : List Root} (since : m.store.Since s nowhere)
    (left : D.Left { m with store := s } held' (· = ⟨m.store.next⟩) results m')
    (fewer : held ⊆ held') : D.Left m held nowhere results m' := by
  have later : m.store.Since m'.store (· = ⟨m.store.next⟩) :=
    (since.mono fun _ _ impossible => impossible.elim).trans left.later.since
  refine ⟨⟨left.later.globals, left.later.scope, left.later.depth, later.mono ?_⟩,
    left.safe.weaken (roots_subset ?_)⟩
  · rintro id older rfl
    exact Nat.lt_irrefl _ older
  · intro root member
    rcases List.mem_append.mp member with new | old
    · exact List.mem_append_left _ new
    · exact List.mem_append_right _ (fewer old)

theorem Left.forget {held' results : List Root} (left : D.Left m held' nowhere results m')
    (fewer : results ++ held ⊆ results ++ held') : D.Left m held nowhere results m' :=
  ⟨left.later, left.safe.weaken (roots_subset fewer)⟩

end DisciplineData

namespace Discipline

variable {config : Config} {D : Discipline config} {n : Nat} {m m' m'' : Machine}
  {held extra : List Root} {task : Task} {layers after : List D.Layer}

theorem Preserves.evaluate (ih : D.Preserves n) {e : Expr}
    (ready : D.Ready ⟨n + 1, held, task, m⟩ layers after) (left : D.Left m held nowhere extra m')
    (inner : Inner config ⟨n + 1, held, task, m⟩ ⟨n, extra ++ held, .expression e, m'⟩) :
    (evaluate config n (extra ++ held) e m').Sat
      (fun value => D.Left m held nowhere (.value value :: extra)) (D.Left m held nowhere []) := by
  have ends := ih (ready.next left inner (List.Subset.refl _))
  exact Outcome.Sat.mono ends
    (fun value m'' done => left.collect_results done (List.Subset.refl _))
    (fun m'' broken => left.failed broken)

theorem Preserves.evaluateAll (ih : D.Preserves n) {es : List Expr}
    (ready : D.Ready ⟨n + 1, held, task, m⟩ layers after) (left : D.Left m held nowhere extra m')
    (inner : Inner config ⟨n + 1, held, task, m⟩ ⟨n, extra ++ held, .expressions es, m'⟩) :
    (evaluateAll config n (extra ++ held) es m').Sat
      (fun values => D.Left m held nowhere (values.map .value ++ extra))
      (D.Left m held nowhere []) := by
  have ends := ih (ready.next left inner (List.Subset.refl _))
  exact Outcome.Sat.mono ends
    (fun values m'' done => left.collect_results done (List.Subset.refl _))
    (fun m'' broken => left.failed broken)

/-- The functions of a class that a value is, or is an instance of, are methods that can be bound. -/
theorem method_closed (left : D.Left m held nowhere extra m') {v : Value} {type : Class}
    (carries : m'.store.Carries (m'.roots (extra ++ held)) v)
    (kind : v = .class type ∨ ∃ id, v = .instance id type) {name : String} {method : Closure}
    (declared : type.findMethod? name = some method) : D.Closed D.method m'.store method := by
  have member := Class.closure_mem_of_findMethod? declared
  have admits := left.safe.admits v carries
  rcases kind with rfl | ⟨id, rfl⟩
  · exact admits method member
  · exact admits method member

theorem Preserves.property (ready : D.Ready ⟨n + 1, held, task, m⟩ layers after)
    {id : InstanceId} {type : Class}
    (left : D.Left m held nowhere [.value (.instance id type)] m') (name : Token)
    (binds : ∀ method, (m'.store.fields? id).bind (·.lookup name.lexeme) = none →
      type.findMethod? name.lexeme = some method →
      BindsMethod config ⟨n + 1, held, task, m⟩ m'.store method id type) :
    (Eval.property id type name m').Sat (fun value => D.Left m held nowhere [.value value])
      (D.Left m held nowhere []) := by
  have carries : m'.store.Carries (m'.roots ([.value (.instance id type)] ++ held))
      (.instance id type) := .inr (.inr (DisciplineData.held_subset (List.mem_singleton_self _)))
  unfold Eval.property Store.property
  cases field : (m'.store.fields? id).bind (·.lookup name.lexeme) with
  | some value =>
    obtain ⟨fields, found, bound⟩ := Option.bind_eq_some_iff.mp field
    exact left.carried (.inr (.inl ⟨id, fields, name.lexeme, found, mem_of_lookup bound⟩))
  | none =>
    cases declared : type.findMethod? name.lexeme with
    | none => exact left.none
    | some method =>
      have bound := left.bindMethod
        (method_closed left carries (.inr ⟨id, rfl⟩) declared) carries
        (fun around fits chain => D.bound ready.fits (binds method field declared) fits chain)
      refine bound.replace fun root member => .inl ?_
      rw [List.mem_singleton.mp member]
      exact List.mem_cons_self

theorem superMethod_sat {keyword method : Token} {distance : Distance}
    (ready : D.Ready ⟨n + 1, held, .expression (.super keyword method distance), m⟩ layers after) :
    (Eval.superMethod keyword method distance m).Sat
      (fun value => D.Left m held nowhere [.value value]) (D.Left m held nowhere []) := by
  have start : D.Left m held nowhere [] m := ready.start
  unfold Eval.superMethod
  cases distance with
  | none => exact start
  | some distance =>
    refine .of_done rfl (.bind_ofExcept (fun superValue above => ?_) start)
    cases superValue with
    | «class» superclass =>
      refine .bind_ofExcept (fun receiver found => ?_) start
      cases receiver with
      | «instance» id type =>
        cases declared : superclass.findMethod? method.lexeme with
        | none => exact start
        | some inherited =>
          have closed := method_closed start (Store.carries_of_readAt above) (.inl rfl) declared
          exact start.bindMethod closed (Store.carries_of_readAt found) fun around fits chain =>
            D.bound ready.fits (.super above found declared) fits chain
      | nil | bool _ | number _ | string _ | native _ | closure _ | «class» _ => exact start
    | nil | bool _ | number _ | string _ | native _ | closure _ | «instance» _ _ => exact start

theorem Preserves.expression (ih : D.Preserves n) {e : Expr}
    (ready : D.Ready ⟨n + 1, held, .expression e, m⟩ layers after) :
    (Lox.evaluate config (n + 1) held e m).Sat
      (fun value => D.Left m held nowhere [.value value]) (D.Left m held nowhere []) := by
  have start : D.Left m held nowhere [] m := ready.start
  have safe : D.Safe m.store (m.roots held) := ready.safe
  cases e with
  | literal value =>
    rw [Lox.evaluate]
    exact start.atom (by cases value <;> rfl)
  | grouping inner =>
    rw [Lox.evaluate]
    exact ih.evaluate ready start .grouping
  | unary operator right =>
    rw [Lox.evaluate]
    refine .bind (ih.evaluate ready start .unary) fun right m₁ _ left₁ => ?_
    exact .ofExcept (fun value applied => left₁.atom (applyUnary_atom applied)) left₁.none
  | binary left operator right =>
    rw [Lox.evaluate]
    refine .bind (ih.evaluate ready start .binaryLeft) fun left m₁ first left₁ => ?_
    refine .bind (ih.evaluate ready left₁ (.binaryRight first)) fun right m₂ _ left₂ => ?_
    exact .ofExcept (fun value applied => left₂.atom (applyBinary_atom applied)) left₂.none
  | logical left operator right =>
    rw [Lox.evaluate]
    refine .bind (ih.evaluate ready start .logicalLeft) fun left m₁ first left₁ => ?_
    cases decided : decidesAlone operator left with
    | true => exact left₁
    | false => exact ih.evaluate ready left₁.none (.logicalRight first decided)
  | «variable» name distance =>
    rw [Lox.evaluate]
    exact DisciplineData.lookUp_sat safe name distance
  | assign name value distance =>
    rw [Lox.evaluate]
    refine .bind (ih.evaluate ready start .assigned) fun value m₁ _ left₁ => ?_
    exact .bind (DisciplineData.assign_sat left₁ name distance) fun _ m₂ _ left₂ => left₂
  | call callee paren arguments =>
    rw [Lox.evaluate]
    refine .bind (ih.evaluate ready start .callee) fun callee m₁ first left₁ => ?_
    refine .bind (ih.evaluateAll ready left₁ (.arguments first)) fun values m₂ second left₂ => ?_
    have ends := ih (ready.next left₂ (.call first second) (by
      intro root member
      simp only [Task.inputs, List.mem_append, List.mem_cons, List.not_mem_nil, or_false] at member ⊢
      rcases member with (same | given) | same | old
      · exact .inl (.inr same)
      · exact .inl (.inl given)
      · exact .inl (.inr same)
      · exact .inr old))
    refine Outcome.Sat.mono ends (fun value m₃ done => left₂.trans done ?_)
      (fun m₃ broken => left₂.trans broken (List.subset_cons_self _ _))
    exact List.cons_subset_cons _ (List.subset_cons_self _ _)
  | get object name =>
    rw [Lox.evaluate]
    refine .bind (ih.evaluate ready start .getObject) fun object m₁ first left₁ => ?_
    cases object with
    | «instance» id type =>
      exact Preserves.property ready left₁ name fun method noField declared =>
        .property first noField declared
    | nil | bool _ | number _ | string _ | native _ | closure _ | «class» _ => exact left₁.none
  | set object name value =>
    rw [Lox.evaluate]
    refine .bind (ih.evaluate ready start .setObject) fun object m₁ first left₁ => ?_
    cases object with
    | «instance» id type =>
      refine .bind (ih.evaluate ready left₁ (.setValue first)) fun value m₂ _ left₂ => ?_
      have stored := left₂.setField List.mem_cons_self id name.lexeme
      refine stored.replace fun root member => .inl ?_
      rw [List.mem_singleton.mp member]
      exact List.mem_cons_self
    | nil | bool _ | number _ | string _ | native _ | closure _ | «class» _ => exact left₁.none
  | this keyword distance =>
    rw [Lox.evaluate]
    exact DisciplineData.lookUp_sat safe keyword distance
  | super keyword method distance =>
    rw [Lox.evaluate]
    exact superMethod_sat ready

theorem Preserves.expressions (ih : D.Preserves n) {es : List Expr}
    (ready : D.Ready ⟨n + 1, held, .expressions es, m⟩ layers after) :
    (Lox.evaluateAll config (n + 1) held es m).Sat
      (fun values => D.Left m held nowhere (values.map .value)) (D.Left m held nowhere []) := by
  have start : D.Left m held nowhere [] m := ready.start
  cases es with
  | nil =>
    rw [Lox.evaluateAll]
    exact start
  | cons e rest =>
    rw [Lox.evaluateAll]
    refine .bind (ih.evaluate ready start .head) fun value m₁ first left₁ => ?_
    refine .bind (ih.evaluateAll ready left₁ (.tail first)) fun values m₂ _ left₂ => ?_
    refine left₂.replace fun root member => .inl ?_
    rcases List.mem_cons.mp member with rfl | later
    · exact List.mem_append_right _ List.mem_cons_self
    · exact List.mem_append_left _ later

theorem invoke_eq (line arity count : Nat) (body : Eval Value) (m : Machine) :
    Eval.invoke config line arity count body m =
      if count = arity then
        if m.depth < config.maxDepth then Eval.asCall body m else .failed (.stackOverflow line) m
      else .failed (.broken (.wrongArity arity count) line) m := by
  by_cases matching : count = arity
  · exact (congrFun (if_pos matching) m).trans (if_pos matching).symm
  · exact (congrFun (if_neg matching) m).trans (if_neg matching).symm

theorem invoke_sat {line arity count : Nat} {body : Eval Value}
    (start : D.Left m held nowhere [] m)
    (sat : count = arity → m.depth < config.maxDepth →
      (body { m with depth := m.depth + 1 }).Sat
        (fun value => D.Left { m with depth := m.depth + 1 } held nowhere [.value value])
        (D.Left { m with depth := m.depth + 1 } held nowhere [])) :
    (Eval.invoke config line arity count body m).Sat
      (fun value => D.Left m held nowhere [.value value]) (D.Left m held nowhere []) := by
  have back : ∀ {results : List Root} {m' : Machine},
      D.Left { m with depth := m.depth + 1 } held nowhere results m' →
      D.Left m held nowhere results { m' with depth := m'.depth - 1 } := fun left =>
    ⟨⟨left.later.globals, left.later.scope, congrArg (· - 1) left.later.depth, left.later.since⟩,
      left.safe⟩
  rw [invoke_eq]
  split
  · rename_i matching
    split
    · rename_i room
      have inside := sat matching room
      unfold Eval.asCall
      cases ended : body { m with depth := m.depth + 1 } with
      | done value m' =>
        rw [ended] at inside
        exact back inside
      | failed fault m' =>
        rw [ended] at inside
        exact back inside
      | unfinished => trivial
    · exact start
  · exact start

theorem function_ready {function : Closure} {line : Nat} {arguments : List Value}
    (ready : D.Ready ⟨n + 1, held, .call (.closure function) line arguments, m⟩ layers after)
    (arity : arguments.length = function.arity) (room : m.depth < config.maxDepth) :
    D.Ready ⟨n, held, .apply function line arguments, { m with depth := m.depth + 1 }⟩ layers
      layers :=
  ⟨ready.globals, ready.safe, ⟨ready.around.chain, ready.around.limits⟩,
    D.inner ready.fits (.function arity room)⟩

theorem instance_left {type : Class} {line : Nat} {arguments : List Value}
    (ready : D.Ready ⟨n + 1, held, .call (.class type) line arguments, m⟩ layers after) :
    D.Left { m with depth := m.depth + 1 } held nowhere
      (.value (.instance m.store.newInstance.1 type) :: .value (.class type) ::
        arguments.map .value) m.withInstance := by
  have safe : D.Safe m.store (m.roots ((.value (.class type) :: arguments.map .value) ++ held)) :=
    ready.safe
  have carries : m.store.Carries (m.roots ((.value (.class type) :: arguments.map .value) ++ held))
      (.class type) := .inr (.inr (DisciplineData.held_subset List.mem_cons_self))
  exact ⟨⟨rfl, rfl, rfl, m.store.since_newInstance nowhere⟩,
    (safe.newInstance carries).weaken Machine.roots_cons_subset⟩

theorem initializer_left {type : Class} {line : Nat} {arguments : List Value} {method : Closure}
    (ready : D.Ready ⟨n + 1, held, .call (.class type) line arguments, m⟩ layers after)
    (declared : type.findMethod? initializerName = some method)
    (arity : arguments.length = method.arity) (room : m.depth < config.maxDepth) :
    D.Left { m with depth := m.depth + 1 } held nowhere
      (.value (.closure (m.store.newInstance.2.bind method m.store.newInstance.1 type).1) ::
        .value (.instance m.store.newInstance.1 type) :: .value (.class type) ::
          arguments.map .value) (m.withInitializer method type) := by
  have made := instance_left ready
  exact made.bindMethod
    (method_closed made (.inr (.inr (DisciplineData.held_subset List.mem_cons_self)))
      (.inr ⟨_, rfl⟩) declared)
    (.inr (.inr (DisciplineData.held_subset List.mem_cons_self)))
    (fun around fits chain => D.bound ready.fits (.initializer declared arity room) fits chain)

theorem initializer_ready {type : Class} {line : Nat} {arguments : List Value} {method : Closure}
    (ready : D.Ready ⟨n + 1, held, .call (.class type) line arguments, m⟩ layers after)
    (declared : type.findMethod? initializerName = some method)
    (arity : arguments.length = method.arity) (room : m.depth < config.maxDepth) :
    D.Ready ⟨n, .value (.instance m.store.newInstance.1 type) :: held,
      .apply (m.store.newInstance.2.bind method m.store.newInstance.1 type).1 line arguments,
      m.withInitializer method type⟩ layers layers := by
  have bound := initializer_left ready declared arity room
  refine ⟨ready.globals, bound.safe.weaken (DisciplineData.roots_subset ?_), ?_,
    D.inner ready.fits (.initializer declared arity room)⟩
  · intro root member
    simp only [Task.inputs, List.mem_append, List.mem_cons] at member ⊢
    rcases member with (same | argument) | same | old
    · exact .inl (.inl same)
    · exact .inl (.inr (.inr (.inr argument)))
    · exact .inl (.inr (.inl same))
    · exact .inr old
  · exact bound.around ready.safe.sound.numbered ⟨ready.around.chain, ready.around.limits⟩

theorem Preserves.call (ih : D.Preserves n) {callee : Value} {line : Nat} {arguments : List Value}
    (ready : D.Ready ⟨n + 1, held, .call callee line arguments, m⟩ layers after) :
    (Lox.call config (n + 1) held callee line arguments m).Sat
      (fun value => D.Left m held nowhere [.value value]) (D.Left m held nowhere []) := by
  have start : D.Left m held nowhere [] m := ready.start
  cases callee with
  | native function =>
    cases function
    rw [Lox.call]
    refine invoke_sat start fun _ _ => ?_
    exact ⟨⟨rfl, rfl, rfl, .refl _ _⟩, (start.atom (v := .number _) rfl).safe⟩
  | closure function =>
    rw [Lox.call]
    refine invoke_sat start fun arity room => ?_
    exact ih (function_ready ready arity room)
  | «class» type =>
    rw [Lox.call]
    refine invoke_sat start fun arity room => .of_done rfl ?_
    cases declared : type.findMethod? initializerName with
    | none =>
      refine (instance_left ready).replace fun root member => .inl ?_
      rw [List.mem_singleton.mp member]
      exact List.mem_cons_self
    | some method =>
      have arity' : arguments.length = method.arity := by
        rw [Class.arity, declared] at arity
        exact arity
      have bound := initializer_left ready declared arity' room
      refine .of_done rfl (.bind (Outcome.Sat.mono
        (ih (initializer_ready ready declared arity' room)) (fun _ _ done => done) ?_) ?_)
      · exact fun m' broken => bound.trans broken (List.subset_cons_self _ _)
      · exact fun value m' _ done => bound.trans done (List.subset_cons_self _ _)
  | nil | bool _ | number _ | string _ | «instance» _ _ =>
    rw [Lox.call]
    · exact start
    all_goals simp

theorem mem_parameterBindings {params : List Token} {arguments : List Value}
    {entry : String × Value} (member : entry ∈ Eval.parameterBindings params arguments) :
    entry.2 ∈ arguments := by
  have folded : ∀ (pairs : List (Token × Value)) (bound : Bindings),
      entry ∈ pairs.foldl (fun bound pair => Bindings.put pair.1.lexeme pair.2 bound) bound →
      entry ∈ pairs.map (fun pair => (pair.1.lexeme, pair.2)) ∨ (∃ key, (key, entry.2) ∈ bound) ∨
        ∃ pair ∈ pairs, entry.2 = pair.2 := by
    intro pairs
    induction pairs with
    | nil => exact fun bound inside => .inr (.inl ⟨entry.1, inside⟩)
    | cons pair rest ih =>
      intro bound inside
      rcases ih _ inside with later | ⟨key, old⟩ | ⟨other, later, same⟩
      · exact .inl (List.mem_cons_of_mem _ later)
      · rcases Store.mem_put old with kept | new
        · exact .inr (.inl kept)
        · exact .inr (.inr ⟨pair, List.mem_cons_self, new⟩)
      · exact .inr (.inr ⟨other, List.mem_cons_of_mem _ later, same⟩)
  rcases folded _ [] member with mapped | ⟨key, impossible⟩ | ⟨pair, inside, same⟩
  · obtain ⟨pair, inside, rfl⟩ := List.mem_map.mp mapped
    exact (List.of_mem_zip inside).2
  · cases impossible
  · rw [same]
    exact (List.of_mem_zip inside).2

/-- What a body leaves in a new scope is left in the scope around it, without new names. -/
theorem activation_fresh {s : Store} {held' : List Root} {body : List Root → Eval Flow}
    (since : m.store.Since s nowhere)
    (older : ∀ other, .scope other ∈ m.roots held' → other.index < m.store.next)
    (fewer : held ⊆ held')
    (sat : (body (.scope m.scope :: held') { m with store := s, scope := ⟨m.store.next⟩ }).Sat
      (fun flow => D.Left { m with store := s, scope := ⟨m.store.next⟩ } (.scope m.scope :: held')
        (· = ⟨m.store.next⟩) flow.roots)
      (D.Left { m with store := s, scope := ⟨m.store.next⟩ } (.scope m.scope :: held')
        (· = ⟨m.store.next⟩) [])) :
    (Eval.activation config held' ⟨m.store.next⟩ body { m with store := s }).Sat
      (fun flow => D.Left m held' nowhere flow.roots) (D.Left m held nowhere []) := by
  have inside : (Eval.activation config held' ⟨m.store.next⟩ body { m with store := s }).Sat
      (fun flow => D.Left { m with store := s } held' (· = ⟨m.store.next⟩) flow.roots)
      (D.Left { m with store := s } held' (· = ⟨m.store.next⟩) []) :=
    DisciplineData.activation_sat older sat
  exact inside.mono (fun flow m' left => left.fresh since (List.Subset.refl _))
    fun m' left => left.fresh since fewer

theorem function_stands {function : Closure} {line : Nat} {arguments : List Value}
    (ready : D.Ready ⟨n, held, .apply function line arguments, m⟩ layers after) :
    D.Closed D.function m.store function ∧
      ∀ id, .scope id ∈ m.roots (.scope function.scope :: held) → m.store.Stands id := by
  have safe : D.Safe m.store
      (m.roots ((.value (.closure function) :: arguments.map .value) ++ held)) := ready.safe
  have closed := safe.admits (.closure function)
    (.inr (.inr (DisciplineData.held_subset List.mem_cons_self)))
  refine ⟨closed, fun id member => ?_⟩
  simp only [Machine.roots, List.mem_cons, Root.scope.injEq] at member
  rcases member with rfl | rfl | rfl | old
  · exact safe.stands _ List.mem_cons_self
  · exact safe.stands _ (List.mem_cons_of_mem _ List.mem_cons_self)
  · exact safe.closed.stands safe.sound.nested closed.1
  · exact safe.stands _ (List.mem_cons_of_mem _ (List.mem_cons_of_mem _
      (List.mem_append_right _ old)))

theorem enterFunction_ready {function : Closure} {line : Nat} {arguments : List Value}
    (ready : D.Ready ⟨n + 1, held, .apply function line arguments, m⟩ layers after) :
    ∃ inside after', D.Ready ⟨n, .scope m.scope :: .scope function.scope :: held,
      .statements function.declaration.body, m.enterFunction function arguments⟩ inside after' := by
  have safe : D.Safe m.store
      (m.roots ((.value (.closure function) :: arguments.map .value) ++ held)) := ready.safe
  obtain ⟨⟨captured, around, chain, fits⟩, standing⟩ := function_stands ready
  obtain ⟨layer, after', known, fitsBody⟩ := D.body ready.fits fits chain
  have entered := safe.newScope (some function.scope)
    (Eval.parameterBindings function.declaration.params arguments)
    (fun parent same => by
      cases same
      exact safe.closed.stands safe.sound.nested captured)
    (fun entry member => .inl (.inr (.inr (DisciplineData.held_subset
      (List.mem_cons_of_mem _ (List.mem_map_of_mem (mem_parameterBindings member)))))))
  have extend := Store.extends_newScope safe.sound.numbered (some function.scope)
    (Eval.parameterBindings function.declaration.params arguments)
  have here := m.store.scope?_newScope_self (some function.scope)
    (Eval.parameterBindings function.declaration.params arguments)
  have inner : ∀ root ∈ (m.enterFunction function arguments).roots
      (.scope m.scope :: .scope function.scope :: held), root = .scope ⟨m.store.next⟩ ∨
      root ∈ m.roots (.scope function.scope :: held) := by
    intro root member
    simp only [Machine.roots, List.mem_cons] at member ⊢
    rcases member with same | same | same | same | old
    · exact .inr (.inl same)
    · exact .inl same
    · exact .inr (.inr (.inl same))
    · exact .inr (.inr (.inr (.inl same)))
    · exact .inr (.inr (.inr (.inr old)))
  refine ⟨layer :: around, after', ready.globals, entered.hold ?_ ?_, ⟨?_, ?_⟩, fitsBody⟩
  · intro id member
    rcases inner _ member with same | old
    · cases same
      exact entered.stands _ List.mem_cons_self
    · exact (standing id old).extend extend
  · intro v member
    refine .inl (.inr (.inr (List.mem_cons_of_mem _ ?_)))
    simp only [Machine.roots, Task.inputs, List.nil_append, List.mem_cons, List.mem_append,
      reduceCtorEq, false_or] at member ⊢
    exact .inr member
  · exact .inner here rfl (known _ fun _ => Iff.rfl).1 (D.chain_extend chain extend)
  · refine (known _ fun name => ?_).2
    constructor
    · rintro ⟨scope, found, bound⟩
      rw [show (m.enterFunction function arguments).store.scope?
        (m.enterFunction function arguments).scope = _ from here] at found
      cases found
      exact bound
    · exact fun bound => ⟨_, here, bound⟩

/-- When the body of a function has been carried out, the scope that the function closes over is still
    held. -/
theorem activation_left (ih : D.Preserves n) {function : Closure} {line : Nat}
    {arguments : List Value}
    (ready : D.Ready ⟨n + 1, held, .apply function line arguments, m⟩ layers after) :
    (Eval.activation config (.scope function.scope :: held) ⟨m.store.next⟩
      (fun held => executeAll config n held function.declaration.body)
      { m with store := (m.enterFunction function arguments).store }).Sat
      (fun flow => D.Left m (.scope function.scope :: held) nowhere flow.roots)
      (D.Left m held nowhere []) := by
  obtain ⟨inside, after', body⟩ := enterFunction_ready ready
  have older : ∀ other, .scope other ∈ m.roots (.scope function.scope :: held) →
      other.index < m.store.next := by
    intro other member
    obtain ⟨scope, found, _⟩ := ((function_stands ready).2 other member).exists
    exact ready.safe.sound.numbered other scope found
  exact activation_fresh (m.store.since_newScope _ _ nowhere) older (List.subset_cons_self _ held)
    (Outcome.Sat.mono (ih body) (fun _ _ done => done.toLeft) fun _ broken => broken)

theorem Preserves.apply (ih : D.Preserves n) {function : Closure} {line : Nat}
    {arguments : List Value}
    (ready : D.Ready ⟨n + 1, held, .apply function line arguments, m⟩ layers after) :
    (Lox.apply config (n + 1) held function line arguments m).Sat
      (fun value => D.Left m held nowhere [.value value]) (D.Left m held nowhere []) := by
  rw [Lox.apply]
  refine .of_done rfl (.bind (activation_left ih ready) fun flow m₂ _ left => ?_)
  have forget : ∀ {v : Value}, D.Left m (.scope function.scope :: held) nowhere [.value v] m₂ →
      D.Left m held nowhere [.value v] m₂ :=
    fun kept => kept.forget (List.cons_subset_cons _ (List.subset_cons_self _ _))
  cases initializes : function.isInitializer with
  | true =>
    refine .of_done rfl (.ofExcept (fun value found => ?_) ?_)
    · exact forget (left.carried (Store.carries_of_readAt found))
    · exact left.none.forget (List.subset_cons_self _ _)
  | false =>
    cases flow with
    | normal => exact forget (left.atom rfl)
    | returned value => exact forget left

/-- A point in other layers, which the layers known so far imply. -/
theorem Ready.enter {task' : Task} {inside after' : List D.Layer} {results held' : List Root}
    (ready : D.Ready ⟨n + 1, held, task, m⟩ layers after)
    (left : D.Left m held nowhere results m') (weakens : D.Weakens layers inside)
    (fits : D.fits ⟨n, held', task', m'⟩ inside after')
    (given : task'.inputs ++ held' ⊆ results ++ held) :
    D.Ready ⟨n, held', task', m'⟩ inside after' := by
  have around := left.around ready.safe.sound.numbered ready.around
  exact ⟨left.later.globals.trans ready.globals,
    left.safe.weaken (DisciplineData.roots_subset given),
    ⟨weakens.chain _ _ around.chain, weakens.limits _ around.limits⟩, fits⟩

theorem finished_plain (ready : D.Ready ⟨n + 1, held, task, m⟩ layers after)
    (left : D.Left m held nowhere [] m') (weakens : D.Weakens layers after) :
    D.Finished m held after .normal m' := by
  have around := left.around ready.safe.sound.numbered ready.around
  exact ⟨left.quiet, fun _ => ⟨weakens.chain _ _ around.chain, weakens.limits _ around.limits⟩⟩

theorem finished_returned {v : Value} (left : D.Left m held nowhere [.value v] m') :
    D.Finished m held after (.returned v) m' := ⟨left.quiet, fun impossible => by cases impossible⟩

theorem write_sat {bytes : ByteArray} {done : Unit → Machine → Prop} {failed : Machine → Prop}
    (good : ∀ output, done () { m with output := output })
    (bad : ∀ output, failed { m with output := output }) :
    (Machine.write config bytes m).Sat done failed := by
  unfold Machine.write
  split
  · exact good _
  · simp only
    split
    · exact good _
    · exact bad _

theorem finished_define {v : Value} {name : String}
    (ready : D.Ready ⟨n + 1, held, task, m⟩ layers after)
    (left : D.Left m held nowhere [.value v] m') (defines : D.Defines name layers after) :
    D.Finished m held after .normal
      { m' with store := m'.store.define m'.scope name v } :=
  ⟨(left.define List.mem_cons_self name).none, fun _ =>
    (left.around ready.safe.sound.numbered ready.around).define defines v⟩

theorem quiet_sat {α : Type} {outcome : Outcome α} {done : α → Machine → Prop}
    {changing : ScopeId → Prop} (sat : outcome.Sat done (D.Left m held nowhere [])) :
    outcome.Sat done (D.Left m held changing []) :=
  sat.mono (fun _ _ kept => kept) fun _ left => left.quiet

theorem finished_last {results : List Root} {inside : List D.Layer} {flow : Flow}
    (left : D.Left m held nowhere results m') (finished : D.Finished m' held inside flow m'')
    (weakens : D.Weakens inside after) : D.Finished m held after flow m'' := by
  have later : m'.Later (· = m.scope) m'' :=
    finished.later.mono fun _ same => same.trans left.later.scope
  refine ⟨⟨left.quiet.later.trans later, finished.safe⟩, fun normal => ?_⟩
  have around := finished.around normal
  exact ⟨weakens.chain _ _ around.chain, weakens.limits _ around.limits⟩

theorem failed_last {results : List Root} (left : D.Left m held nowhere results m')
    (failed : D.Left m' held (· = m'.scope) [] m'') : D.Left m held (· = m.scope) [] m'' := by
  have later : m'.Later (· = m.scope) m'' :=
    failed.later.mono fun _ same => same.trans left.later.scope
  exact ⟨left.quiet.later.trans later, failed.safe⟩

theorem carry_on {results results' : List Root}
    (first : D.Left m held (· = m.scope) results m')
    (second : D.Left m' held (· = m'.scope) results' m'') :
    D.Left m held (· = m.scope) results' m'' :=
  ⟨first.later.trans (second.later.mono fun _ same => same.trans first.later.scope), second.safe⟩

theorem enterBlock_ready {body : List Stmt} {layer : D.Layer} {inside : List D.Layer}
    (ready : D.Ready ⟨n + 1, held, .statement (.block body), m⟩ layers after)
    (holds : D.holds layer ⟨m.store.next⟩ fun _ => False)
    (limits : D.limits (layer :: layers) fun _ => False)
    (fits : D.fits ⟨n, .scope m.scope :: held, .statements body, m.enterBlock⟩ (layer :: layers)
      inside) :
    D.Ready ⟨n, .scope m.scope :: held, .statements body, m.enterBlock⟩ (layer :: layers) inside := by
  have safe : D.Safe m.store (m.roots held) := ready.safe
  have here := m.store.scope?_newScope_self (some m.scope) []
  have entered := safe.newScope (some m.scope) [] (fun parent same => by
    cases same
    exact safe.stands _ (List.mem_cons_of_mem _ List.mem_cons_self)) (by simp)
  have extend := Store.extends_newScope safe.sound.numbered (some m.scope) []
  refine ⟨ready.globals, entered.weaken ?_, ⟨.inner here rfl ?_
    (D.chain_extend ready.around.chain extend), ?_⟩, fits⟩
  · intro root member
    simp only [Machine.roots, Task.inputs, List.nil_append, List.mem_cons] at member ⊢
    rcases member with same | same | same | old
    · exact .inr (.inl same)
    · exact .inl same
    · exact .inr (.inr (.inl same))
    · exact .inr (.inr (.inr old))
  · exact D.holds_mono _ _ _ _ (fun _ impossible => impossible.elim) holds
  · refine D.limits_mono _ _ _ ?_ limits
    rintro name ⟨scope, found, value, bound⟩
    rw [show m.enterBlock.store.scope? m.enterBlock.scope = _ from here] at found
    cases found
    cases bound

/-- A declared function closes over a scope that binds its own name by the time it is kept. -/
theorem declareFunction_finished {declaration : FunctionDecl}
    (ready : D.Ready ⟨n + 1, held, .statement (.functionDecl declaration), m⟩ layers after) :
    D.Finished m held after .normal
      { m with
        store := (m.store.close m.scope declaration false).2.define m.scope
          declaration.name.lexeme (.closure (m.store.close m.scope declaration false).1) } := by
  have safe : D.Safe m.store (m.roots held) := ready.safe
  have stands : m.store.Stands m.scope :=
    safe.stands _ (List.mem_cons_of_mem _ List.mem_cons_self)
  obtain ⟨defines, function⟩ := D.declared ready.fits
  obtain ⟨closed, captured⟩ := safe.close stands declaration false
  have left : D.Left m held nowhere []
      { m with store := (m.store.close m.scope declaration false).2 } :=
    ⟨⟨rfl, rfl, rfl, m.store.since_close m.scope declaration false nowhere⟩, closed⟩
  have around := (left.around safe.sound.numbered ready.around).define defines
    (.closure (m.store.close m.scope declaration false).1)
  have extend := Store.extends_define m.scope declaration.name.lexeme
    (.closure (m.store.close m.scope declaration false).1)
    (s := (m.store.close m.scope declaration false).2)
  have kept := closed.define (safe.sound.close declaration false (.occurs stands.occurs)) m.scope
    declaration.name.lexeme ⟨captured.extend extend, after, around.chain, function _⟩
  refine ⟨⟨left.quiet.later.trans ⟨rfl, rfl, rfl, ?_⟩, kept⟩, fun _ => around⟩
  exact Store.since_define _ _ _ (.inl rfl)

theorem nameClass {results : List Root} {name : Token}
    (ready : D.Ready ⟨n + 1, held, task, m⟩ layers after)
    (left : D.Left m held nowhere results m') (defines : D.Defines name.lexeme layers after) :
    D.Left m held (· = m.scope) results
        { m' with store := m'.store.define m'.scope name.lexeme .nil } ∧
      D.Around { m' with store := m'.store.define m'.scope name.lexeme .nil } after := by
  have atom : D.Left m held nowhere (.value .nil :: results) m' := by
    refine left.replace fun root member => ?_
    rcases List.mem_cons.mp member with rfl | old
    · exact .inr ⟨_, rfl, rfl⟩
    · exact .inl old
  refine ⟨(atom.define List.mem_cons_self name.lexeme).replace
    fun root member => .inl (List.mem_cons_of_mem _ member), ?_⟩
  exact (left.around ready.safe.sound.numbered ready.around).define defines .nil

theorem finished_class {results : List Root} {held' : List Root}
    (named : D.Left m held (· = m.scope) results m') (around : D.Around m' after)
    (left : D.Left m' held' nowhere [] m'') (fewer : held ⊆ held') :
    D.Finished m held after .normal m'' :=
  ⟨named.trans left.quiet fewer, fun _ => left.around named.safe.sound.numbered around⟩

theorem declareClass_sat {name : Token} {methods : List FunctionDecl}
    (ready : D.Ready ⟨n + 1, held, .statement (.classDecl name none methods), m⟩ layers after) :
    (Eval.declareClass name none methods m).Sat (fun _ => D.Finished m held after .normal)
      (D.Left m held (· = m.scope) []) := by
  obtain ⟨named, around⟩ := nameClass ready ready.start (D.named ready.fits)
  have stands := named.safe.stands m.scope (List.mem_cons_of_mem _ List.mem_cons_self)
  have fits := D.methods ready.fits
  unfold Eval.declareClass
  refine .of_done rfl (.of_done rfl (.of_done rfl ?_))
  exact Outcome.Sat.mono
    (DisciplineData.makeClass_sat named.safe stands around.chain fits (by simp))
    (fun _ _ left => finished_class named around left (List.Subset.refl _))
    fun _ left => (finished_class named around left (List.Subset.refl _)).toLeft

theorem declareSubclass_sat {name : Token} {superclass : Expr} {methods : List FunctionDecl}
    {type : Class}
    (ready : D.Ready ⟨n + 1, held, .statement (.classDecl name (some superclass) methods), m⟩ layers
      after)
    (left : D.Left m held nowhere [.value (.class type)] m')
    (first : evaluate config n held superclass m = .done (.class type) m') :
    (Eval.declareClass name (some type) methods m').Sat
      (fun _ => D.Finished m held after .normal) (D.Left m held (· = m.scope) []) := by
  obtain ⟨named, around⟩ := nameClass ready left (D.named ready.fits)
  -- The methods close over one more scope, the one that holds `super`.
  obtain ⟨layer, holds, fits⟩ := D.inherited ready.fits first
  have stands := named.safe.stands m'.scope (List.mem_cons_of_mem _ List.mem_cons_self)
  have entered := named.safe.newScope (some m'.scope) [("super", .class type)]
    (fun parent same => by cases same; exact stands)
    (fun entry member => by
      cases List.mem_singleton.mp member
      exact .inl (.inr (.inr (DisciplineData.held_subset List.mem_cons_self))))
  have extend := Store.extends_newScope named.safe.sound.numbered (some m'.scope)
    [("super", .class type)]
  have here := (m'.store.define m'.scope name.lexeme .nil).scope?_newScope_self (some m'.scope)
    [("super", .class type)]
  have chain := Store.Chain.inner here rfl
    (D.holds_mono _ _ _ _ (by rintro other rfl; exact ⟨_, rfl⟩) holds)
    (D.chain_extend around.chain extend)
  have opened : D.Left { m' with store := m'.store.define m'.scope name.lexeme .nil } held nowhere
      [.value (.class type)]
      { m' with
        store := ((m'.store.define m'.scope name.lexeme .nil).newScope (some m'.scope)
          [("super", .class type)]).2 } :=
    ⟨⟨rfl, rfl, rfl, Store.since_newScope _ _ nowhere⟩,
      entered.weaken (List.subset_cons_self _ _)⟩
  have around' := opened.around named.safe.sound.numbered around
  have named' : D.Left m held (· = m.scope) [.value (.class type)] _ :=
    named.trans opened.quiet (List.Subset.refl _)
  unfold Eval.declareClass
  refine .of_done rfl (.of_done rfl (.of_done rfl ?_))
  exact Outcome.Sat.mono
    (DisciplineData.makeClass_sat opened.safe (entered.stands _ List.mem_cons_self) chain fits
      (by simp))
    (fun _ _ left => finished_class named' around' left (List.subset_cons_self _ _))
    fun _ left => (finished_class named' around' left (List.subset_cons_self _ _)).toLeft

theorem execute_branch (condition : Expr) (thenBranch : Stmt) (elseBranch? : Option Stmt) :
    execute config (n + 1) held (.branch condition thenBranch elseBranch?) = (do
      let condition ← evaluate config n held condition
      if condition.isTruthy then execute config n held thenBranch
      else
        match elseBranch? with
        | some elseBranch => execute config n held elseBranch
        | none => pure .normal) := rfl

theorem Preserves.statement (ih : D.Preserves n) {s : Stmt}
    (ready : D.Ready ⟨n + 1, held, .statement s, m⟩ layers after) :
    (execute config (n + 1) held s m).Sat (D.Finished m held after)
      (D.Left m held (· = m.scope) []) := by
  have start : D.Left m held nowhere [] m := ready.start
  cases s with
  | expression value =>
    rw [execute]
    refine .bind (quiet_sat (ih.evaluate ready start .expression)) fun value m₁ _ left₁ => ?_
    exact finished_plain ready left₁.none (D.plain ready.fits (.inl ⟨_, .inl rfl⟩))
  | print value =>
    rw [execute]
    refine .bind (quiet_sat (ih.evaluate ready start .print)) fun value m₁ _ left₁ => ?_
    have plain := finished_plain ready left₁.none (D.plain ready.fits (.inl ⟨_, .inr rfl⟩))
    refine .bind (write_sat (fun output => ?_) fun output => ?_) fun _ m₂ _ finished => finished
    · exact ⟨⟨⟨plain.later.globals, plain.later.scope, plain.later.depth, plain.later.since⟩,
        plain.safe⟩, fun same => ⟨(plain.around same).chain, (plain.around same).limits⟩⟩
    · exact ⟨⟨plain.later.globals, plain.later.scope, plain.later.depth, plain.later.since⟩,
        plain.safe⟩
  | varDecl name initializer? =>
    cases initializer? with
    | none =>
      rw [execute]
      exact finished_define ready (start.atom rfl) (D.initialized ready.fits)
    | some initializer =>
      rw [execute]
      obtain ⟨inside, weakens, fits⟩ := D.initial ready.fits
      have initial := Ready.enter ready start weakens fits (List.Subset.refl _)
      refine .bind (quiet_sat (ih initial)) fun value m₁ _ left₁ => ?_
      exact finished_define ready left₁ (D.initialized ready.fits)
  | block body =>
    rw [execute]
    obtain ⟨weakens, layer, inside, holds, limits, fits⟩ := D.block ready.fits ready.around.chain
    have body := enterBlock_ready ready holds limits fits
    -- The scope of the block goes at its end; nothing that is held is as new.
    have older : ∀ other, .scope other ∈ m.roots held → other.index < m.store.next := by
      intro other member
      obtain ⟨scope, found, _⟩ := (start.safe.stands other member).exists
      exact start.safe.sound.numbered other scope found
    refine .of_done rfl (Outcome.Sat.mono (activation_fresh (m.store.since_newScope _ _ nowhere)
      older (List.Subset.refl held) (Outcome.Sat.mono (ih body) (fun _ _ done => done.toLeft)
        fun _ broken => broken)) ?_ fun _ broken => broken.quiet)
    intro flow m' left
    have around := left.around ready.safe.sound.numbered ready.around
    exact ⟨left.quiet, fun _ =>
      ⟨weakens.chain _ _ around.chain, weakens.limits _ around.limits⟩⟩
  | branch condition thenBranch elseBranch? =>
    rw [execute_branch]
    refine .bind (quiet_sat (ih.evaluate ready start .condition)) fun value m₁ first left₁ => ?_
    cases truthy : value.isTruthy with
    | true =>
      obtain ⟨inside, weakens, fits⟩ := D.thenBranch ready.fits first truthy
      have branch := Ready.enter ready left₁ (.refl _ _) fits (List.subset_cons_self _ _)
      exact Outcome.Sat.mono (ih branch) (fun _ _ done => finished_last left₁ done weakens)
        fun _ broken => failed_last left₁ broken
    | false =>
      cases elseBranch? with
      | none => exact finished_plain ready left₁.none (D.skipped ready.fits)
      | some elseBranch =>
        obtain ⟨inside, weakens, fits⟩ := D.elseBranch ready.fits first truthy
        have branch := Ready.enter ready left₁ weakens fits (List.subset_cons_self _ _)
        exact Outcome.Sat.mono (ih branch) (fun _ _ done => finished_last left₁ done (.refl _ _))
          fun _ broken => failed_last left₁ broken
  | loop condition body =>
    rw [execute]
    exact ih (Ready.enter ready start (.refl _ _) (D.loop ready.fits) (List.Subset.refl _))
  | functionDecl declaration =>
    rw [execute]
    exact declareFunction_finished ready
  | returns keyword value? =>
    cases value? with
    | none =>
      rw [execute]
      exact finished_returned (start.atom rfl)
    | some value =>
      rw [execute]
      refine .bind (quiet_sat (ih.evaluate ready start .returned)) fun value m₁ _ left₁ => ?_
      exact finished_returned left₁
  | classDecl name superclass? methods =>
    cases superclass? with
    | none =>
      rw [execute]
      exact .bind (declareClass_sat ready) fun _ m' _ finished => finished
    | some superclass =>
      rw [execute]
      obtain ⟨inside, weakens, fits⟩ := D.superclass ready.fits
      have inherited := Ready.enter ready start weakens fits (List.Subset.refl _)
      refine .bind (quiet_sat (ih inherited)) fun value m₁ first left₁ => ?_
      cases value with
      | «class» type =>
        exact .bind (declareSubclass_sat ready left₁ first) fun _ m' _ finished => finished
      | nil | bool _ | number _ | string _ | native _ | closure _ | «instance» _ _ =>
        exact left₁.none.quiet

theorem Preserves.statements (ih : D.Preserves n) {ss : List Stmt}
    (ready : D.Ready ⟨n + 1, held, .statements ss, m⟩ layers after) :
    (executeAll config (n + 1) held ss m).Sat (D.Finished m held after)
      (D.Left m held (· = m.scope) []) := by
  have start : D.Left m held nowhere [] m := ready.start
  cases ss with
  | nil =>
    rw [executeAll]
    exact finished_plain ready start (D.last ready.fits)
  | cons s rest =>
    rw [executeAll]
    obtain ⟨middle, fits, fitsRest⟩ := D.first ready.fits
    have first := Ready.enter ready start (.refl _ _) fits (List.Subset.refl _)
    refine .bind (ih first) fun flow m₁ ended (finished : D.Finished m held middle flow m₁) => ?_
    cases flow with
    | returned value =>
      exact ⟨finished.toLeft, fun impossible => by cases impossible⟩
    | normal =>
      have others : D.Ready ⟨n, held, .statements rest, m₁⟩ middle after :=
        ⟨finished.later.globals.trans ready.globals, finished.safe, finished.around rfl,
          fitsRest m₁ ended⟩
      refine Outcome.Sat.mono (ih others) (fun flow m₂ done => ?_) fun m₂ broken => ?_
      · have left := carry_on finished.toLeft done.toLeft
        exact ⟨left, done.around⟩
      · exact carry_on finished.toLeft broken

theorem Preserves.loop (ih : D.Preserves n) {condition : Expr} {body : Stmt}
    (ready : D.Ready ⟨n + 1, held, .loop condition body, m⟩ layers after) :
    (repeatWhile config (n + 1) held condition body m).Sat (D.Finished m held after)
      (D.Left m held (· = m.scope) []) := by
  have start : D.Left m held nowhere [] m := ready.start
  rw [repeatWhile]
  refine .bind (quiet_sat (ih.evaluate ready start .loopCondition)) fun value m₁ first left₁ => ?_
  cases truthy : value.isTruthy with
  | false => exact finished_plain ready left₁.none (D.loopEnd ready.fits)
  | true =>
    obtain ⟨inside, weakens, fits⟩ := D.loopBody ready.fits first truthy
    have around := Ready.enter ready left₁ (.refl _ _) fits (List.subset_cons_self _ _)
    refine .bind (Outcome.Sat.mono (ih around) (fun _ _ done => finished_last left₁ done weakens)
      fun _ broken => failed_last left₁ broken) fun flow m₂ second finished => ?_
    cases flow with
    | returned value => exact ⟨finished.toLeft, fun impossible => by cases impossible⟩
    | normal =>
      have again : D.Ready ⟨n, held, .loop condition body, m₂⟩ layers after :=
        ⟨finished.later.globals.trans ready.globals, finished.safe, finished.around rfl,
          D.loopAgain ready.fits first truthy second⟩
      refine Outcome.Sat.mono (ih again) (fun flow m₃ done => ?_) fun m₃ broken => ?_
      · exact ⟨carry_on finished.toLeft done.toLeft, done.around⟩
      · exact carry_on finished.toLeft broken

/-- What a computation leaves does not depend on how many steps it may take. -/
theorem preserves (D : Discipline config) (n : Nat) : D.Preserves n := by
  induction n with
  | zero =>
    intro held task m layers after _
    cases task <;> trivial
  | succ n ih =>
    intro held task m layers after ready
    cases task with
    | expression e => exact Preserves.expression ih ready
    | expressions es => exact Preserves.expressions ih ready
    | call callee line arguments => exact Preserves.call ih ready
    | apply function line arguments => exact Preserves.apply ih ready
    | statement s => exact Preserves.statement ih ready
    | statements ss => exact Preserves.statements ih ready
    | loop condition body => exact Preserves.loop ih ready

end Discipline
end Lox
