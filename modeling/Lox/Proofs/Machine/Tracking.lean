import Lox.Proofs.Machine.Passage
import Lox.Proofs.Session.Grammatical

namespace Lox

/-- Nothing but `this` and `super` is bound, and those to objects older than the scope. -/
def Bindings.Recede (bindings : Bindings) (id : ScopeId) : Prop :=
  ∀ entry ∈ bindings, (entry.1 = "this" ∨ entry.1 = "super") ∧
    ∀ object, entry.2.object? = some object → object.key < id.index

/-- Every scope that exists is active, has a handle or recedes, and every instance has a handle. -/
structure Machine.Accounted (active : ScopeId → Prop) (m : Machine) : Prop where
  globals : active m.globals
  scope : active m.scope
  scopes : ∀ id scope, m.store.scope? id = some scope →
    active id ∨ .scope id ∈ m.ledger.handles ∨ scope.bindings.Recede id
  instances : ∀ id fields, m.store.fields? id = some fields → .instance id ∈ m.ledger.handles

namespace Store

variable {s : Store} {l : Ledger} {roots : List Root}

theorem bindings_collect {id : ScopeId} {scope : Scope}
    (found : (collect s l roots).1.scope? id = some scope) :
    ∃ before, s.scope? id = some before ∧ (scope.bindings = before.bindings ∨ scope.bindings = []) := by
  rw [collect, collectWith_eq, scope?_restrict] at found
  split at found
  · obtain ⟨before, atId, rfl⟩ := Option.map_eq_some_iff.mp found
    refine ⟨before, atId, ?_⟩
    split
    · exact .inr rfl
    · exact .inl rfl
  · cases found

theorem fields_collect {id : InstanceId} {fields : Bindings}
    (found : (collect s l roots).1.fields? id = some fields) :
    ∃ before, s.fields? id = some before ∧ (fields = before ∨ fields = []) := by
  rw [collect, collectWith_eq, fields?_restrict] at found
  split at found
  · obtain ⟨before, atId, rfl⟩ := Option.map_eq_some_iff.mp found
    refine ⟨before, atId, ?_⟩
    split
    · exact .inr rfl
    · exact .inl rfl
  · cases found

theorem handle_collect {node : Node} (member : node ∈ l.handles)
    (holds : (collect s l roots).1.holds node = true) : node ∈ (collect s l roots).2.handles :=
  Array.mem_filter.mpr ⟨member, holds⟩

end Store

namespace DisciplineData

variable {config : Config} {D : Discipline config} {p : Point} {layers after : List D.Layer}

theorem Ready.key_lt_next {n : Nat} {held : List Root} {e : Expr} {m m' : Machine} {value : Value}
    (ready : D.Ready ⟨n, held, .expression e, m⟩ layers after)
    (ended : evaluate config n held e m = .done value m') {object : Object}
    (same : value.object? = some object) : object.key < m'.store.next := by
  have left : D.Left m held nowhere [.value value] m' :=
    Outcome.Sat.done_of_eq (D.preserves n ready) ended
  have member : .value value ∈ m'.roots ([.value value] ++ held) := by simp [Machine.roots]
  exact left.safe.sound.bounded object (.held member same)

theorem Ready.receiver_lt_next (ready : D.Ready p layers after) {s : Store} {method : Closure}
    {id : InstanceId} {type : Class} (binds : BindsMethod config p s method id type) :
    id.index < s.next := by
  cases binds with
  | property first => exact (Discipline.ready_of_inner ready .getObject).key_lt_next first rfl
  | super _ receiver =>
    exact ready.safe.sound.bounded (.instance id type)
      (.occurs ((Store.carries_of_readAt receiver).occurs _ List.mem_cons_self))
  | initializer => exact Nat.lt_succ_self _

/-- A superclass is older than the scope that holds it for the methods of its subclass. -/
theorem Ready.superclass_lt_next {n : Nat} {held : List Root} {m m' : Machine} {name : Token}
    {superclass : Expr} {methods : List FunctionDecl} {type : Class}
    (ready : D.Ready ⟨n + 1, held, .statement (.classDecl name (some superclass) methods), m⟩ layers
      after)
    (first : evaluate config n held superclass m = .done (.class type) m') :
    type.identity < m'.store.next := by
  obtain ⟨layers', after', ready'⟩ := Discipline.ready_of_calls ready .superclass
  exact ready'.key_lt_next first rfl

end DisciplineData

namespace Machine.Accounted

variable {config : Config} {p : Point} {active : ScopeId → Prop} {m m' : Machine}

/-- Only the innermost activation and what binds plain names change what a scope binds. -/
theorem change {layers after : List Unit}
    (ready : (Discipline.written config).Ready p layers after) (change : Change config p m m')
    (accounted : m.Accounted active) : m'.Accounted active where
  globals := change.stays.1 ▸ accounted.globals
  scope := change.stays.2 ▸ accounted.scope
  scopes id scope found := by
    obtain ⟨_, tracked⟩ := change.instances
    have gives := change.gives found
    generalize scope.bindings = bindings at gives ⊢
    cases gives with
    | kept before => exact (accounted.scopes id _ before).imp_right (.imp_left (tracked _))
    | put before binds place value =>
      rcases place with rfl | ⟨old, bound⟩
      · exact .inl accounted.scope
      · rcases accounted.scopes id _ before with inside | handle | recedes
        · exact .inl inside
        · exact .inr (.inl (tracked _ handle))
        · obtain ⟨this, super⟩ := ready.fits.2.binds binds
          exact ((recedes _ (mem_of_lookup bound)).1.elim this super).elim
    | receiver new binds =>
      refine .inr (.inr fun entry member => ?_)
      cases List.mem_singleton.mp member
      refine ⟨.inl rfl, fun object same => ?_⟩
      cases same
      exact new ▸ ready.receiver_lt_next binds
    | inherited new here first same =>
      subst here
      refine .inr (.inr fun entry member => ?_)
      cases List.mem_singleton.mp member
      refine ⟨.inr rfl, fun object same' => ?_⟩
      cases same'
      exact new ▸ same ▸ ready.superclass_lt_next first
  instances id fields found := by
    obtain ⟨instances, tracked⟩ := change.instances
    rcases instances id fields found with ⟨before, old⟩ | new
    · exact tracked _ (accounted.instances id before old)
    · exact new

theorem scopes_collect (accounted : m.Accounted active) {l : Ledger} {roots : List Root} {id : ScopeId}
    {scope : Scope} (found : (collect m.store l roots).1.scope? id = some scope) :
    active id ∨ .scope id ∈ m.ledger.handles ∨ scope.bindings.Recede id := by
  obtain ⟨before, old, same | empty⟩ := Store.bindings_collect found
  · rw [same]
    exact accounted.scopes id before old
  · rw [empty]
    exact .inr (.inr fun _ impossible => nomatch impossible)

theorem instances_collect (accounted : m.Accounted active) {l : Ledger} {roots : List Root}
    {id : InstanceId} {fields : Bindings}
    (found : (collect m.store l roots).1.fields? id = some fields) :
    .instance id ∈ m.ledger.handles := by
  obtain ⟨before, old, _⟩ := Store.fields_collect found
  exact accounted.instances id before old

theorem pause (accounted : m.Accounted active) (held : List Root) :
    (m.pause config held).Accounted active := by
  unfold Machine.pause
  dsimp only
  split
  · refine ⟨accounted.globals, accounted.scope, fun id scope found => ?_, fun id fields found => ?_⟩
    · exact (accounted.scopes_collect found).imp_right
        (.imp_left fun handle => Store.handle_collect handle (Store.holds_scope found))
    · exact Store.handle_collect (accounted.instances_collect found) (Store.holds_instance found)
  · exact ⟨accounted.globals, accounted.scope, accounted.scopes, accounted.instances⟩

theorem atRest (accounted : m.Accounted active) : m.atRest.Accounted active :=
  ⟨accounted.globals, accounted.globals, accounted.scopes, accounted.instances⟩

theorem enter (accounted : m.Accounted active) (parent : ScopeId) (bindings : Bindings) :
    (m.enter parent bindings).Accounted fun id => active id ∨ id = ⟨m.store.next⟩ := by
  refine ⟨.inl accounted.globals, .inr rfl, fun id scope found => ?_, accounted.instances⟩
  rcases Store.bindings_newScope found with ⟨new, _⟩ | old
  · exact .inl (.inr new)
  · exact (accounted.scopes id scope old).imp_left .inl

theorem letGo {scope : ScopeId} (accounted : m.Accounted fun id => active id ∨ id = scope)
    (globals : active m.globals) (back : active m.scope) (held : List Root) :
    (m.letGo config held scope).Accounted active := by
  unfold Machine.letGo
  split
  · refine ⟨globals, back, fun id atId found => ?_, fun id fields found => ?_⟩
    · rcases accounted.scopes id atId found with (inside | rfl) | handle | recedes
      · exact .inl inside
      · exact .inr (.inl (Array.mem_push.mpr (.inr rfl)))
      · exact .inr (.inl (Array.mem_push_of_mem _ handle))
      · exact .inr (.inr recedes)
    · exact Array.mem_push_of_mem _ (accounted.instances id fields found)
  · rename_i unreferred
    have gone : (m.store.settle (m.roots held)).scope? scope = none :=
      Store.scope?_settle (Bool.or_eq_false_iff.mp (Bool.eq_false_iff.mpr unreferred)).2
    refine ⟨globals, back, fun id atId found => ?_, fun id _ => accounted.instances_collect⟩
    rcases accounted.scopes_collect found with (inside | rfl) | others
    · exact .inl inside
    · cases gone.symm.trans found
    · exact .inr others

theorem leave (accounted : m'.Accounted fun id => active id ∨ id = m'.scope) {previous : ScopeId}
    (globals : active m'.globals) (back : active previous) (held : List Root) :
    (m'.leave config held previous).Accounted active := by
  unfold Machine.leave Machine.release
  refine pause ?_ held
  dsimp only
  split
  · have here : Machine.Accounted (fun id => active id ∨ id = m'.scope)
        { m' with scope := previous } :=
      ⟨.inl globals, .inl back, accounted.scopes, accounted.instances⟩
    exact here.letGo globals back held
  · refine ⟨globals, back, fun id scope found => ?_, accounted.instances⟩
    rw [Store.scope?_free] at found
    split at found
    · cases found
    · rename_i other
      rcases accounted.scopes id scope found with (inside | own) | others
      · exact .inl inside
      · exact absurd own other
      · exact .inr others

end Machine.Accounted

def Upkeep.accounted (config : Config) : Upkeep config (ScopeId → Prop) where
  ok p := ∃ layers after, (Discipline.written config).Ready p layers after
  holds := Machine.Accounted
  calls := Grammatical.ready_called
  change := fun ⟨_, _, ready⟩ change accounted => accounted.change ready change
  enter {active m} parent bindings accounted := by
    refine ⟨_, accounted.enter parent bindings, fun held m' same inside => ?_⟩
    have entered : m'.scope = ⟨m.store.next⟩ := same.scope
    rw [← entered] at inside
    exact inside.leave (same.globals ▸ accounted.globals) accounted.scope held
  rested := Machine.Accounted.atRest
  paused held accounted := accounted.pause held

end Lox
