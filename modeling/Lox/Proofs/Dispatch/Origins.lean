import Lox.Proofs.Scoping.Mirror
import Lox.Proofs.Scoping.Visibility
import Lox.Proofs.Session.Moments

namespace Lox

open Outcome Eval

variable {config : Config} {turns : List Turn} {p q : Point} {frames outer : List Frame}
  {name : Token} {methods : List FunctionDecl} {scope : ScopeId}

/-- The declaration of a class is carried out inside some activations. Its superclass expression has
    the value `above`, and the methods of the class close over `scope`. -/
inductive Inherits (config : Config) (turns : List Turn) (name : Token)
    (methods : List FunctionDecl) : Class → ScopeId → List Frame → Prop where
  | intro {p : Point} {outer : List Frame} {superclass : Expr} {n : Nat} {m : Machine} {above : Class}
      (runs : Runs config turns p outer)
      (task : p.task = .statement (.classDecl name (some superclass) methods)) (steps : p.steps = n + 1)
      (evaluated : evaluate config n p.held superclass p.machine = .done (.class above) m) :
      Inherits config turns name methods above ⟨m.store.next⟩ outer

/-- A method of a class that is declared inside some activations is bound to an instance; the bound
    method closes over `scope`. -/
inductive Receives (config : Config) (turns : List Turn) (name : Token)
    (methods : List FunctionDecl) : InstanceId → Class → ScopeId → List Frame → Prop where
  | intro {p : Point} {before outer : List Frame} {s : Store} {method : Closure} {id : InstanceId}
      {type : Class} (declares : Declares config turns method name methods outer)
      (runs : Runs config turns p before) (binds : BindsMethod config p s method id type) :
      Receives config turns name methods id type (s.bind method id type).1.scope outer

theorem Runs.passes : ∀ {p : Point} {frames : List Frame}, Runs config turns p frames →
    ∃ turn ∈ turns, turn.Passes config p
  | _, _, .start member starts => ⟨_, member, _, starts, .refl⟩
  | _, _, .stay runs calls _ | _, _, .block runs calls _ | _, _, .call runs calls _ _ =>
    Visibility.passes_next runs.passes calls

/-- Nothing runs right inside the scopes of `this` and `super`: there are only methods. -/
theorem Runs.head_local : ∀ {p : Point} {frames : List Frame}, Runs config turns p frames →
    ∀ frame ∈ frames.head?, (∃ body, frame.construct = .block body) ∨
      ∃ declaration, frame.construct = .call declaration
  | _, _, .start _ _ => by simp
  | _, _, .stay runs _ _ => runs.head_local
  | _, _, .block _ _ _ => by
    rintro _ ⟨⟩
    exact .inl ⟨_, rfl⟩
  | _, _, .call _ _ _ _ => by
    rintro _ ⟨⟩
    exact .inr ⟨_, rfl⟩

theorem Declares.inherits {method : Closure} {type : Token} {others : List FunctionDecl}
    (declares : Declares config turns method type others (⟨.inheritance name methods, scope⟩ :: outer)) :
    ∃ above, Inherits config turns name methods above scope outer := by
  cases declares with
  | base runs task member =>
    rcases runs.head_local _ rfl with ⟨_, impossible⟩ | ⟨_, impossible⟩ <;> cases impossible
  | inherited runs task steps above member => exact ⟨_, .intro runs task steps above⟩

theorem Receives.inherits {id : InstanceId} {type : Class} {receiver : ScopeId}
    (receives : Receives config turns name methods id type receiver
      (⟨.inheritance name methods, scope⟩ :: outer)) :
    ∃ above, Inherits config turns name methods above scope outer := by
  cases receives with
  | intro declares _ _ => exact declares.inherits

mutual

/-- A scope of `this` around a point has been made for a bound method. -/
theorem Runs.receives : ∀ {p : Point} {frames : List Frame}, Runs config turns p frames →
    ⟨.receiver name methods, scope⟩ :: outer <:+ frames →
    ∃ id type, Receives config turns name methods id type scope outer
  | _, _, .start _ _, within => by cases List.suffix_nil.mp within
  | _, _, .stay runs _ _, within => runs.receives within
  | _, _, .block runs _ _, within => by
    rcases List.suffix_cons_iff.mp within with same | inner
    · cases same
    · exact runs.receives inner
  | _, _, .call _ _ _ closes, within => by
    rcases List.suffix_cons_iff.mp within with same | inner
    · cases same
    · exact closes.receives inner

theorem Closes.receives : ∀ {function : Closure} {frames : List Frame},
    Closes config turns function frames → ⟨.receiver name methods, scope⟩ :: outer <:+ frames →
    ∃ id type, Receives config turns name methods id type scope outer
  | _, _, .function runs _, within => runs.receives within
  | _, _, .bound declares runs binds, within => by
    rcases List.suffix_cons_iff.mp within with same | inner
    · cases same
      exact ⟨_, _, .intro declares runs binds⟩
    · exact declares.receives inner

theorem Declares.receives : ∀ {method : Closure} {type : Token} {others : List FunctionDecl}
    {frames : List Frame}, Declares config turns method type others frames →
    ⟨.receiver name methods, scope⟩ :: outer <:+ frames →
    ∃ id type, Receives config turns name methods id type scope outer
  | _, _, _, _, .base runs _ _, within => runs.receives within
  | _, _, _, _, .inherited runs _ _ _ _, within => by
    rcases List.suffix_cons_iff.mp within with same | inner
    · cases same
    · exact runs.receives inner

end

namespace Store

variable {s : Store}

theorem local?_capture (target id : ScopeId) (key : String) :
    (s.capture target).local? id key = s.local? id key := by
  unfold local?
  rcases s.scope?_capture target id with same | ⟨before, atId, marked⟩
  · rw [same]
  · rw [marked, atId]
    rfl

theorem local?_define {target id : ScopeId} {key name : String} (value : Value) (other : key ≠ name) :
    (s.define target name value).local? id key = s.local? id key := by
  unfold local?
  rw [scope?_define]
  cases s.scope? id with
  | none => rfl
  | some scope =>
    rw [Option.map_some, Option.bind_some, Option.bind_some]
    split
    · rw [Bindings.lookup_put, if_neg other]
    · rfl

theorem local?_bind (method : Closure) (id : InstanceId) (type : Class) :
    (s.bind method id type).2.local? (s.bind method id type).1.scope "this" =
      some (.instance id type) := by
  have opened : (s.newScope (some method.scope) [("this", .instance id type)]).2.newIdentity.2.local?
      ⟨s.next⟩ "this" = some (.instance id type) :=
    local?_of_scope? (s.scope?_newScope_self _ _)
  exact (local?_capture ⟨s.next⟩ ⟨s.next⟩ "this").trans opened

theorem next_bind (method : Closure) (id : InstanceId) (type : Class) :
    (s.bind method id type).2.next = s.next + 2 := next_capture _ ⟨s.next⟩

end Store

namespace Eval

variable {m : Machine}

theorem closeMethods_stays (scope : ScopeId) (methods : List FunctionDecl)
    (found : List (String × Closure)) (m : Machine) :
    ∃ made s, closeMethods scope found methods m = .done made { m with store := s } ∧
      m.store.next ≤ s.next ∧ ∀ id key, s.local? id key = m.store.local? id key := by
  induction methods generalizing found m with
  | nil => exact ⟨found, m.store, rfl, Nat.le_refl _, fun _ _ => rfl⟩
  | cons method rest ih =>
    obtain ⟨made, s, ends, grows, same⟩ := ih ((method.name.lexeme,
        (m.store.close scope method (method.name.lexeme == initializerName)).1) :: found)
      { m with store := (m.store.close scope method (method.name.lexeme == initializerName)).2 }
    refine ⟨made, s, ends, Nat.le_trans ?_ grows, fun id key => (same id key).trans ?_⟩
    · exact (Store.next_capture _ scope).symm ▸ Nat.le_succ _
    · exact Store.local?_capture scope id key

/-- Whether the class gets bound to its name or not, there is then a scope that holds its superclass. -/
theorem declareClass_inherits (type : Class) (methods : List FunctionDecl) (plain : name.Plain) :
    ∃ m', (declareClass name (some type) methods m).Leaves m' ∧ m.store.next < m'.store.next ∧
      m'.store.local? ⟨m.store.next⟩ "super" = some (.class type) := by
  let named := m.store.define m.scope name.lexeme .nil
  let opened := { m with store := (named.newScope (some m.scope) [("super", .class type)]).2 }
  obtain ⟨made, s, ends, grows, same⟩ := closeMethods_stays ⟨m.store.next⟩ methods [] opened
  have new : m.store.next < s.newIdentity.2.next := Nat.lt_succ_of_le (Nat.le_of_succ_le grows)
  have bound : s.newIdentity.2.local? ⟨m.store.next⟩ "super" = some (.class type) :=
    (same _ _).trans (Store.local?_of_scope? (named.scope?_newScope_self _ _))
  have last : declareClass name (some type) methods m =
      setStore (s.newIdentity.2.assign m.scope name.lexeme
        (.class (.mk s.next name.lexeme (some type) made)) name.line)
        { m with store := s.newIdentity.2 } := by
    unfold declareClass
    show andThen (closeMethods ⟨m.store.next⟩ [] methods) _ opened = _
    unfold andThen
    rw [ends]
    rfl
  rw [last]
  -- The name may be missing by now, but the scope of `super` has been made before.
  cases assigned : s.newIdentity.2.assign m.scope name.lexeme
      (.class (.mk s.next name.lexeme (some type) made)) name.line with
  | error fault => exact ⟨_, .inr ⟨fault, rfl⟩, new, bound⟩
  | ok s' =>
    obtain ⟨owner, rfl, _⟩ := Store.assign_eq_ok assigned
    exact ⟨_, .inl ⟨(), rfl⟩, new, (Store.local?_define _ plain.2.symm).trans bound⟩

theorem evaluate_method {n : Nat} {held : List Root} {object : Expr} {m m' : Machine}
    {id : InstanceId} {type : Class} {method : Closure}
    (first : evaluate config n held object m = .done (.instance id type) m')
    (noField : (m'.store.fields? id).bind (·.lookup name.lexeme) = none)
    (declared : type.findMethod? name.lexeme = some method) :
    evaluate config (n + 1) held (.get object name) m =
      .done (.closure (m'.store.bind method id type).1)
        { m' with store := (m'.store.bind method id type).2 } := by
  rw [evaluate]
  show andThen _ _ m = _
  unfold andThen
  rw [first]
  simp only [property, Store.property, noField, declared]

/-- Where `super` is a class and `this` an instance, a `super` only fails to find a method. -/
theorem evaluate_super {n d : Nat} {held : List Root} {keyword method : Token} {m : Machine}
    {above type : Class} {id : InstanceId}
    (parent : m.store.readAt m.scope d "super" keyword.line = .ok (.class above))
    (receiver : m.store.readAt m.scope (d - 1) "this" keyword.line = .ok (.instance id type)) :
    evaluate config (n + 1) held (.super keyword method (some d)) m =
      match above.findMethod? method.lexeme with
      | some found => .done (.closure (m.store.bind found id type).1)
          { m with store := (m.store.bind found id type).2 }
      | none => .failed (.broken (.undefinedProperty method.lexeme) method.line) m := by
  rw [evaluate]
  unfold superMethod
  show andThen (ofExcept (m.store.readAt m.scope d "super" keyword.line)) _ m = _
  rw [parent]
  show andThen (ofExcept (m.store.readAt m.scope (d - 1) "this" keyword.line)) _ m = _
  rw [receiver]
  cases above.findMethod? method.lexeme <;> rfl

end Eval

/-- The scope of `super` holds the superclass when the class has been declared. -/
theorem Inherits.moment {above : Class} (inherits : Inherits config turns name methods above scope outer)
    (plain : name.Plain) : ∃ turn ∈ turns, ∃ m, turn.Moment config m ∧ scope.index < m.store.next ∧
      m.store.local? scope "super" = some (.class above) := by
  cases inherits with
  | @intro p _ superclass n m _ runs task steps evaluated =>
    obtain ⟨turn, member, start, starts, reaches⟩ := runs.passes
    obtain ⟨m', left, new, bound⟩ := declareClass_inherits (m := m) above methods plain
    refine ⟨turn, member, m', ⟨start, starts, .ended reaches ?_⟩, new, bound⟩
    obtain ⟨k, held, _, m₀⟩ := p
    cases task
    obtain rfl : k = n + 1 := steps
    show (execute config (n + 1) held (.classDecl name (some superclass) methods) m₀).Leaves m'
    rw [execute]
    show (andThen (evaluate config n held superclass) _ m₀).Leaves m'
    unfold andThen
    rw [evaluated]
    show (andThen (declareClass name (some above) methods) _ m).Leaves m'
    unfold andThen
    rcases left with ⟨value, ended⟩ | ⟨fault, ended⟩
    · rw [ended]
      exact .inl ⟨_, rfl⟩
    · rw [ended]
      exact .inr ⟨_, rfl⟩

/-- The scope of `this` holds the instance when a method has been bound. -/
theorem BindsMethod.moment {turn : Turn} {s : Store} {method : Closure} {id : InstanceId}
    {type : Class} (binds : BindsMethod config p s method id type) (passes : turn.Passes config p) :
    ∃ m, turn.Moment config m ∧ (s.bind method id type).1.scope.index < m.store.next ∧
      m.store.local? (s.bind method id type).1.scope "this" = some (.instance id type) := by
  obtain ⟨start, starts, reaches⟩ := passes
  have new : s.next < (s.bind method id type).2.next := by
    rw [Store.next_bind]
    omega
  have bound := s.local?_bind method id type
  cases binds with
  | property first noField declared =>
    exact ⟨_, ⟨start, starts, .ended reaches
      (.inl ⟨_, evaluate_method first noField declared⟩)⟩, new, bound⟩
  | @super n held m keyword token distance superclass _ _ _ above receiver declared =>
    have ended : evaluate config (n + 1) held (.super keyword token (some distance)) m = _ :=
      evaluate_super above receiver
    rw [declared] at ended
    exact ⟨_, ⟨start, starts, .ended reaches (.inl ⟨_, ended⟩)⟩, new, bound⟩
  | initializer declared arity room =>
    exact ⟨_, ⟨start, starts,
      .start (.step reaches (.inner (.initializer declared arity room)))⟩, new, bound⟩

theorem Receives.moment {id : InstanceId} {type : Class}
    (receives : Receives config turns name methods id type scope outer) :
    ∃ turn ∈ turns, ∃ m, turn.Moment config m ∧ scope.index < m.store.next ∧
      m.store.local? scope "this" = some (.instance id type) := by
  cases receives with
  | intro declares runs binds =>
    obtain ⟨turn, member, passes⟩ := runs.passes
    exact ⟨turn, member, binds.moment passes⟩

end Lox
