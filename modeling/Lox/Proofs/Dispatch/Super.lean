import Lox.Proofs.Dispatch.Enclosing
import Lox.Proofs.Dispatch.Keywords
import Lox.Proofs.Dispatch.Origins
import Lox.Proofs.Scoping.Distances

namespace Lox

open Resolve

namespace Class

def lineage : Class → List Class
  | mk identity name none methods => [mk identity name none methods]
  | mk identity name (some superclass) methods =>
    mk identity name (some superclass) methods :: lineage superclass

theorem findMethod?_eq (name : String) : ∀ type : Class,
    type.findMethod? name = type.lineage.findSome? (·.methods.lookup name)
  | mk identity own none methods => by
    rw [findMethod?, lineage, List.findSome?_cons, List.findSome?_nil, Class.methods]
    cases methods.lookup name <;> rfl
  | mk identity own (some superclass) methods => by
    rw [findMethod?, lineage, List.findSome?_cons, Class.methods, ← findMethod?_eq name superclass]
    cases methods.lookup name <;> rfl

end Class

def Session.Request.Resolves : Session.Request → Prop
  | run _ | evaluate _ => True
  | runUnresolved _ => False
  | execute resolved _ => resolved = true

structure Work.Accepted (source : Work) : Prop where
  written : source.Written
  clean : source.errors = []

theorem accepted_of_compile {source : List UInt8} {program : List Stmt}
    (compiled : compile source = .ok program) :
    ∃ tree, (∀ s ∈ Stmt.clearedAll tree, s.Written) ∧ resolve tree = (program, []) := by
  obtain ⟨tree, parsed, resolved⟩ := compile_eq_ok.mp compiled
  exact ⟨tree, parsed_written parsed, resolved⟩

theorem Session.Request.work_accepted {request : Session.Request} {work : Work}
    (resolves : request.Resolves) (compiled : request.work = .ok work) :
    ∃ source : Work, source.Accepted ∧ work = source.resolved := by
  cases request with
  | run source =>
    obtain ⟨program, found, rfl⟩ := exists_of_map_ok compiled
    obtain ⟨tree, written, resolved⟩ := accepted_of_compile found
    exact ⟨.program tree, ⟨written, congrArg Prod.snd resolved⟩,
      congrArg (Work.program ∘ Prod.fst) resolved.symm⟩
  | runUnresolved source => exact resolves.elim
  | evaluate source =>
    obtain ⟨e, found, rfl⟩ := exists_of_map_ok compiled
    obtain ⟨tree, written, resolved⟩ := compileExpression_written found
    refine ⟨.expression tree, ⟨?_, congrArg Prod.snd resolved⟩,
      congrArg (Work.expression ∘ Prod.fst) resolved.symm⟩
    show tree.cleared.Written
    exact written.cleared.symm ▸ written
  | execute resolved source =>
    cases resolves
    obtain ⟨ss, found, rfl⟩ := exists_of_map_ok compiled
    obtain ⟨tree, written, resolved⟩ := accepted_of_compile found
    exact ⟨.statements tree, ⟨written, congrArg Prod.snd resolved⟩,
      congrArg (Work.statements ∘ Prod.fst) resolved.symm⟩

theorem Mirror.super_placed {frames : List Frame} {keyword method : Token} {slot : Distance}
    (placed : Placed Work.Accepted (constructsOf frames) (.expression (.super keyword method slot))) :
    ∃ inside declaration activation name methods receiver inheritance outer,
      frames = inside ++ ⟨.call declaration, activation⟩ :: ⟨.receiver name methods, receiver⟩ ::
        ⟨.inheritance name methods, inheritance⟩ :: outer ∧
      (declaration ∈ methods ∧ ∀ frame ∈ inside, frame.construct.IsLocal) ∧
      slot = some (inside.length + 2) := by
  obtain ⟨source, context, scopes, node, accepted, visited, same⟩ := placed
  obtain ⟨before, declaration, name, methods, around, split, member, locals, rfl⟩ :=
    visited.super_enclosed accepted.written accepted.clean same
  obtain ⟨inside, rest, rfl, rfl, method⟩ := List.map_eq_append_iff.mp split
  obtain ⟨⟨_, activation⟩, rest, rfl, rfl, this⟩ := List.map_eq_cons_iff.mp method
  obtain ⟨⟨_, receiver⟩, rest, rfl, rfl, super'⟩ := List.map_eq_cons_iff.mp this
  obtain ⟨⟨_, inheritance⟩, outer, rfl, rfl, rfl⟩ := List.map_eq_cons_iff.mp super'
  exact ⟨inside, _, activation, _, _, receiver, inheritance, outer, rfl,
    ⟨member, List.forall_mem_map.mp locals⟩, by rw [List.length_map]⟩

theorem Mirror.ancestor?_one {s : Store} {id : ScopeId} {inside outer : List Frame}
    {frame next : Frame} (chain : Store.Chain (fun (frame : Frame) id (_ : String → Prop) =>
      id = frame.scope) s Machine.start.globals id (inside ++ frame :: next :: outer))
    (nested : s.Nested) : s.ancestor? frame.scope 1 = some next.scope := by
  have inner : inside.length ≤ (inside ++ frame :: next :: outer).length := by simp
  obtain ⟨owner, reached, around⟩ := chain.ancestor? nested inner
  have here := (ancestors_of_chain chain nested).1 inside.length frame (by simp)
  cases reached.symm.trans here.1
  rw [List.drop_left] at around
  exact ((ancestors_of_chain around nested).1 1 next rfl).1

theorem Store.readAt_of_local? {s : Store} {id owner : ScopeId} {d : Nat} {name : String}
    {value : Value} (hops : s.ancestor? id d = some owner) (bound : s.local? owner name = some value)
    (line : Nat) : s.readAt id d name line = .ok value := by
  unfold readAt ownerAt?
  rw [hops, Option.bind_some, bound, Option.map_some, Option.bind_some, bound]

namespace Session

variable {config : Config} {turns : List Turn} {turn : Turn} {held : List Root} {p : Point}

section ready

variable (past : Past config turns turn.machine held) (fewer : turn.held ⊆ held)
  (sources : ∀ each ∈ turn :: turns, ∃ request : Request, request.work = .ok each.work)

include past fewer sources

theorem written_of_passes {each : Turn} (member : each ∈ turn :: turns)
    (passes : each.Passes config p) :
    ∃ layers after, (Discipline.written config).Ready p layers after :=
  Discipline.ready_of_session (D := Discipline.written config) rfl past fewer
    (Grammatical.fits_of_sources config sources) member passes

theorem plain_of_inherits {name : Token} {methods : List FunctionDecl} {above : Class}
    {scope : ScopeId} {outer : List Frame}
    (inherits : Inherits config (turn :: turns) name methods above scope outer) : name.Plain := by
  cases inherits with
  | intro runs task _ _ =>
    obtain ⟨each, member, passes⟩ := runs.passes
    obtain ⟨layers, after, ready⟩ := written_of_passes past fewer sources member passes
    have written := ready.fits.2
    rw [task] at written
    exact written.binds .classDecl

/-- A scope that binds `this` or `super` at two moments binds it to one value. -/
theorem keyword_settled {each : Turn} (member : each ∈ turn :: turns) {m m' : Machine}
    (first : turn.Moment config m) (second : each.Moment config m') {scope : ScopeId}
    {name : String} {value value' : Value} (keyword : name = "this" ∨ name = "super")
    (old : scope.index < m.store.next) (old' : scope.index < m'.store.next)
    (here : m.store.local? scope name = some value)
    (there : m'.store.local? scope name = some value') : value = value' := by
  have ok : ∀ each ∈ turn :: turns, ∀ p, each.Starts config p → (Passage.keywords config).ok p :=
    fun other listed p starts => written_of_passes past fewer sources listed ⟨p, starts, .refl⟩
  -- Whichever of the two moments comes first, the later one has no other value for a keyword.
  exact Store.Retains.agree (moments_comparable past ok member first second) old old' keyword here there

theorem local?_of_moment {each : Turn} (member : each ∈ turn :: turns) {m : Machine}
    (moment : each.Moment config m) {scope : ScopeId} {name : String} {value : Value}
    (keyword : name = "this" ∨ name = "super") (old : scope.index < m.store.next)
    (here : m.store.local? scope name = some value) (passes : turn.Passes config p) {d : Nat}
    (hops : p.machine.store.ancestor? p.machine.scope d = some scope)
    (binds : p.machine.store.BindsAt p.machine.scope d name) :
    p.machine.store.local? scope name = some value := by
  obtain ⟨owner, found, hops', atOwner, value', listed⟩ := binds
  cases hops.symm.trans hops'
  have there : p.machine.store.local? scope name = some value' :=
    (Store.local?_of_scope? atOwner).trans listed
  obtain ⟨layers, after, ready⟩ :=
    written_of_passes past fewer sources List.mem_cons_self passes
  have old' : scope.index < p.machine.store.next := ready.safe.sound.bounded (.scope scope)
    (.occurs (Store.scope_mem_objects_iff.mpr ⟨found, atOwner⟩))
  obtain ⟨start, starts, reaches⟩ := passes
  rw [there, keyword_settled past fewer sources member ⟨start, starts, .start reaches⟩ moment keyword old'
    old there here]

theorem local?_of_inherits {name : Token} {methods : List FunctionDecl} {above : Class}
    {scope : ScopeId} {outer : List Frame}
    (inherits : Inherits config (turn :: turns) name methods above scope outer)
    (passes : turn.Passes config p) {d : Nat}
    (hops : p.machine.store.ancestor? p.machine.scope d = some scope)
    (binds : p.machine.store.BindsAt p.machine.scope d "super") :
    p.machine.store.local? scope "super" = some (.class above) := by
  obtain ⟨each, member, m, moment, old, bound⟩ :=
    inherits.moment (plain_of_inherits past fewer sources inherits)
  exact local?_of_moment past fewer sources member moment (.inr rfl) old bound passes hops binds

theorem local?_of_receives {name : Token} {methods : List FunctionDecl} {id : InstanceId}
    {type : Class} {scope : ScopeId} {outer : List Frame}
    (receives : Receives config (turn :: turns) name methods id type scope outer)
    (passes : turn.Passes config p) {d : Nat}
    (hops : p.machine.store.ancestor? p.machine.scope d = some scope)
    (binds : p.machine.store.BindsAt p.machine.scope d "this") :
    p.machine.store.local? scope "this" = some (.instance id type) := by
  obtain ⟨each, member, m, moment, old, bound⟩ := receives.moment
  exact local?_of_moment past fewer sources member moment (.inl rfl) old bound passes hops binds

end ready

/-- What a `super` yields is settled where its class is declared. It stands in a method of a class
    with a superclass; the activation of the method lies inside the scope of `this`, made when the
    method was bound, and that lies inside the scope of `super`, made when the class was declared.
    The first class that declares the method, from the value of the superclass expression in that
    declaration on, provides it, bound to the instance that is `this` in the enclosing method. Only
    the lack of such a class is a fault. -/
theorem super_dispatched (past : Past config turns turn.machine held) (fewer : turn.held ⊆ held)
    (sources : ∀ each ∈ turn :: turns,
      ∃ request : Request, request.Resolves ∧ request.work = .ok each.work)
    {n : Nat} {kept : List Root} {keyword method : Token} {slot : Distance} {m : Machine}
    (passes : turn.Passes config ⟨n + 1, kept, .expression (.super keyword method slot), m⟩) :
    ∃ inside declaration activation name methods receiver inheritance outer above id type,
      Runs config (turn :: turns) ⟨n + 1, kept, .expression (.super keyword method slot), m⟩
        (inside ++ ⟨.call declaration, activation⟩ :: ⟨.receiver name methods, receiver⟩ ::
          ⟨.inheritance name methods, inheritance⟩ :: outer) ∧
      (declaration ∈ methods ∧ ∀ frame ∈ inside, frame.construct.IsLocal) ∧
      Inherits config (turn :: turns) name methods above inheritance outer ∧
      Receives config (turn :: turns) name methods id type receiver
        (⟨.inheritance name methods, inheritance⟩ :: outer) ∧
      slot = some (inside.length + 2) ∧
      (∀ line, m.store.readAt m.scope (inside.length + 2) "super" line = .ok (.class above)) ∧
      (∀ line, m.store.readAt m.scope (inside.length + 1) "this" line = .ok (.instance id type)) ∧
      (∀ line, m.store.readAt activation 1 "this" line = .ok (.instance id type)) ∧
      Lox.evaluate config (n + 1) kept (.super keyword method slot) m =
        match above.lineage.findSome? (·.methods.lookup method.lexeme) with
        | some found => .done (.closure (m.store.bind found id type).1)
            { m with store := (m.store.bind found id type).2 }
        | none => .failed (.broken (.undefinedProperty method.lexeme) method.line) m := by
  have compiled : ∀ each ∈ turn :: turns, ∃ request : Request, request.work = .ok each.work := by
    intro each member
    obtain ⟨request, _, same⟩ := sources each member
    exact ⟨request, same⟩
  -- Where the node stands in the source is known from the walk of the resolver, and what has opened
  -- the scopes around it from the run.
  obtain ⟨frames, after, ready⟩ := Discipline.ready_of_passes
    (D := Discipline.mirror config (turn :: turns) Work.Accepted) rfl past fewer
    (fun each member p starts => by
      obtain ⟨request, resolves, same⟩ := sources each member
      obtain ⟨source, accepted, resolved⟩ := request.work_accepted resolves same
      exact Mirror.fits_of_starts member accepted resolved starts) passes
  have runs := ready.fits.2.1
  obtain ⟨inside, declaration, activation, name, methods, receiver, inheritance, outer, rfl, within,
    rfl⟩ := Mirror.super_placed (ready.fits.2.2 trivial)
  obtain ⟨id, type, receives⟩ : ∃ id type, Receives config (turn :: turns) name methods id type
      receiver (⟨.inheritance name methods, inheritance⟩ :: outer) :=
    runs.receives ⟨inside ++ [⟨.call declaration, activation⟩], by simp⟩
  obtain ⟨above, inherits⟩ := receives.inherits
  have nested := ready.safe.sound.nested
  obtain ⟨hops, _⟩ := Mirror.ancestors_of_chain ready.around.chain nested
  have toReceiver := (hops (inside.length + 1) ⟨.receiver name methods, receiver⟩ (by simp)).1
  have toInheritance :=
    (hops (inside.length + 2) ⟨.inheritance name methods, inheritance⟩ (by simp)).1
  have fromActivation : m.store.ancestor? activation 1 = some receiver :=
    Mirror.ancestor?_one ready.around.chain nested
  obtain ⟨scopes, _, visible⟩ :=
    Visibility.ready_of_passes past fewer (sees_of_sources compiled) List.mem_cons_self passes
  -- What the two scopes held when they were made they hold now.
  have parent : m.store.local? inheritance "super" = some (.class above) :=
    local?_of_inherits past fewer compiled inherits passes toInheritance
      (Visibility.bindsAt_of_reads visible rfl .super)
  have this : m.store.local? receiver "this" = some (.instance id type) :=
    local?_of_receives past fewer compiled receives passes toReceiver
      (Visibility.bindsAt_of_reads visible rfl .receiver)
  refine ⟨inside, declaration, activation, name, methods, receiver, inheritance, outer, above, id,
    type, runs, within, inherits, receives, rfl, Store.readAt_of_local? toInheritance parent,
    Store.readAt_of_local? toReceiver this, Store.readAt_of_local? fromActivation this, ?_⟩
  rw [← Class.findMethod?_eq]
  exact Eval.evaluate_super (Store.readAt_of_local? toInheritance parent keyword.line)
    (Store.readAt_of_local? toReceiver this keyword.line)

end Session

namespace SuperCall

private def word (lexeme : String) : Token := ⟨.identifier, lexeme, none, 1⟩

private def paren : Token := ⟨.rightParen, ")", none, 1⟩

private def source : List UInt8 := "class A{x(){}}class B<A{init(){super.x;}}B();".toUTF8.toList

private def parent : Expr := .super ⟨.superWord, "super", none, 1⟩ (word "x") (some 2)

private def base : Stmt := .classDecl (word "A") none [.mk (word "x") [] []]
private def derived : Stmt :=
  .classDecl (word "B") (some (.variable (word "A") none)) [.mk (word "init") [] [.expression parent]]
private def making : Stmt := .expression (.call (.variable (word "B") none) paren [])

private def turn : Turn := ⟨9, [], .program [base, derived, making], .start⟩

private def after? (s : Stmt) (m : Machine) : Option Machine :=
  match execute .standard 9 [] s m with
  | .done .normal m' => some m'
  | _ => none

private theorem execute_of_after? {s : Stmt} {m m' : Machine} (ended : after? s m = some m') :
    execute .standard 9 [] s m = .done .normal m' := by
  unfold after? at ended
  split at ended
  · cases ended
    assumption
  · cases ended

private def called? (m : Machine) : Option (Class × Closure × Machine) :=
  match evaluate .standard 7 [] (.variable (word "B") none) m with
  | .done (.class type) m' => (type.findMethod? initializerName).map (type, ·, m')
  | _ => none

private theorem declares_of_called? {m m' : Machine} {type : Class} {method : Closure}
    (called : called? m = some (type, method, m')) :
    evaluate .standard 7 [] (.variable (word "B") none) m = .done (.class type) m' ∧
      type.findMethod? initializerName = some method := by
  unfold called? at called
  split at called
  · rename_i done
    obtain ⟨_, declares, same⟩ := Option.map_eq_some_iff.mp called
    cases same
    exact ⟨done, declares⟩
  · cases called

private theorem shown :
    (((after? base Machine.start.atRest).bind (after? derived)).bind called?).map
      (fun (_, method, m) => (method.arity, method.declaration.body, m.depth)) =
      some (0, [.expression parent], 0) := by
  unfold parent
  cbv

private theorem passes : ∃ kept m, turn.Passes .standard ⟨3, kept, .expression parent, m⟩ := by
  obtain ⟨⟨type, method, m⟩, found, same⟩ := Option.map_eq_some_iff.mp shown
  obtain ⟨m₂, declared, called⟩ := Option.bind_eq_some_iff.mp found
  obtain ⟨m₁, first, second⟩ := Option.bind_eq_some_iff.mp declared
  obtain ⟨arity, same⟩ := Prod.mk.inj same
  obtain ⟨body, depth⟩ := Prod.mk.inj same
  obtain ⟨callee, declares⟩ := declares_of_called? called
  have launches : turn.Starts .standard ⟨9, [], .statement making, m₂⟩ :=
    .program (.others (execute_of_after? first) (.others (execute_of_after? second) .first))
  have calls : Calls .standard
      ⟨8, [], .expression (.call (.variable (word "B") none) paren []), m₂⟩
      ⟨7, [.value (.class type)], .call (.class type) paren.line [], m⟩ :=
    .inner (.call callee rfl)
  have enters : Calls .standard
      ⟨7, [.value (.class type)], .call (.class type) paren.line [], m⟩ _ :=
    .inner (.initializer declares arity.symm (by rw [depth]; decide))
  have carriedOut : Reaches .standard ⟨9, [], .statement making, m₂⟩
      ⟨5, _, .statements method.declaration.body, _⟩ :=
    (((Reaches.refl.step (.inner .expression)).step calls).step enters).step .body
  rw [body] at carriedOut
  exact ⟨_, _, _, launches, (carriedOut.step .first).step (.inner .expression)⟩

/-- The initializer of the new instance refers to a method of the superclass, bound to the instance. -/
theorem parent_found : ∃ kept m above id type,
    compile source = .ok [base, derived, making] ∧
    turn.Passes .standard ⟨3, kept, .expression parent, m⟩ ∧
    m.store.readAt m.scope 2 "super" 1 = .ok (.class above) ∧
    m.store.readAt m.scope 1 "this" 1 = .ok (.instance id type) ∧
    evaluate .standard 3 kept parent m =
      match above.lineage.findSome? (·.methods.lookup "x") with
      | some found => .done (.closure (m.store.bind found id type).1)
          { m with store := (m.store.bind found id type).2 }
      | none => .failed (.broken (.undefinedProperty "x") 1) m := by
  have compiled : compile source = .ok [base, derived, making] := by
    unfold source base derived making parent
    cbv
  obtain ⟨kept, m, reached⟩ := passes
  have sources : ∀ each ∈ [turn], ∃ request : Session.Request,
      request.Resolves ∧ request.work = .ok each.work := by
    intro each member
    obtain rfl := List.mem_singleton.mp member
    exact ⟨.run source, trivial, congrArg (Except.map Work.program) compiled⟩
  obtain ⟨inside, _, _, _, _, _, _, _, above, id, type, _, _, _, _, slot, superclass, this, _, found⟩ :=
    Session.super_dispatched .start (List.Subset.refl []) sources reached
  have innermost : inside.length = 0 := by
    injection slot with slot
    omega
  rw [innermost] at superclass this
  exact ⟨kept, m, above, id, type, compiled, reached, superclass 1, this 1, found⟩

end SuperCall
end Lox
