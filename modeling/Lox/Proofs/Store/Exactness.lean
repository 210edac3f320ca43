import Lox.Proofs.Store.Existence
import Lox.Proofs.Store.Operations

namespace Lox

open Store

/-- What a host can build. `roots` are the references that the host itself holds; it hands out only
    what it holds, and it may pick up or let go of a reference at any time. -/
inductive Built : Store → Ledger → List Root → Prop where
  | empty : Built .empty .empty []
  | newScope {s : Store} {l : Ledger} {roots : List Root} (before : Built s l roots)
      (enclosing? : Option ScopeId)
      (held : ∀ parent, enclosing? = some parent → .scope parent ∈ roots) :
      Built (s.newScope enclosing? []).2 l (.scope (s.newScope enclosing? []).1 :: roots)
  | define {s : Store} {l : Ledger} {roots : List Root} (before : Built s l roots)
      {id : ScopeId} (name : String) {value : Value} (held : .scope id ∈ roots)
      (heldValue : .value value ∈ roots) : Built (s.define id name value) l roots
  | assign {s s' : Store} {l : Ledger} {roots : List Root} (before : Built s l roots)
      {id : ScopeId} {name : String} {value : Value} {line : Nat} (held : .scope id ∈ roots)
      (heldValue : .value value ∈ roots) (assigned : s.assign id name value line = .ok s') :
      Built s' l roots
  | close {s : Store} {l : Ledger} {roots : List Root} (before : Built s l roots)
      {id : ScopeId} (declaration : FunctionDecl) (isInitializer : Bool)
      (held : .scope id ∈ roots) :
      Built (s.close id declaration isInitializer).2 l
        (.value (.closure (s.close id declaration isInitializer).1) :: roots)
  | bind {s : Store} {l : Ledger} {roots : List Root} (before : Built s l roots)
      {method : Closure} {id : InstanceId} {type : Class}
      (heldMethod : .value (.closure method) ∈ roots)
      (heldInstance : .value (.instance id type) ∈ roots) :
      Built (s.bind method id type).2 l (.value (.closure (s.bind method id type).1) :: roots)
  | newClass {s : Store} {l : Ledger} {roots : List Root} (before : Built s l roots)
      (name : String) {superclass? : Option Class} {methods : List (String × Closure)}
      (heldSuperclass : ∀ superclass, superclass? = some superclass →
        .value (.class superclass) ∈ roots)
      (heldMethods : ∀ method ∈ methods, .value (.closure method.2) ∈ roots) :
      Built s.newIdentity.2 l
        (.value (.class (.mk s.newIdentity.1 name superclass? methods)) :: roots)
  | newInstance {s : Store} {l : Ledger} {roots : List Root} (before : Built s l roots)
      {type : Class} (held : .value (.class type) ∈ roots) :
      Built s.newInstance.2 l (.value (.instance s.newInstance.1 type) :: roots)
  | setField {s : Store} {l : Ledger} {roots : List Root} (before : Built s l roots)
      {id : InstanceId} {type : Class} (name : String) {value : Value}
      (held : .value (.instance id type) ∈ roots) (heldValue : .value value ∈ roots) :
      Built (s.setField id name value) l roots
  | hold {s : Store} {l : Ledger} {roots : List Root} (before : Built s l roots) (root : Root)
      (existing : ∀ object, root.object? = some object → s.Exists roots object) :
      Built s l (root :: roots)
  | drop {s : Store} {l : Ledger} {roots roots' : List Root} (before : Built s l roots)
      (fewer : roots' ⊆ roots) : Built s l roots'
  | track {s : Store} {l : Ledger} {roots : List Root} (before : Built s l roots) {node : Node}
      {object : Object} (existing : s.Exists roots object) (same : object.node? = some node) :
      Built s (l.track node) roots
  | collect {s : Store} {l : Ledger} {roots : List Root} (before : Built s l roots)
      (order : Arrangement) (borrowed : Nat → Bool)
      (borrowedHeld : ∀ key, borrowed key = true → key ∈ Root.keys roots) :
      Built (collectWith order borrowed s l roots).1 (collectWith order borrowed s l roots).2 roots

variable {s : Store} {l : Ledger} {roots : List Root}

/-- An operation that takes no scope away leaves nothing referring to one that is gone. -/
theorem Store.Intact.step {s' : Store} {roots' : List Root} {fresh? : Option Object}
    (intact : s.Intact roots) (adds : s.Adds s' roots roots' fresh?)
    (stay : ∀ id scope, s.scope? id = some scope → ∃ after, s'.scope? id = some after)
    (new : ∀ id, fresh? = some (.scope id) → ∃ scope, s'.scope? id = some scope) :
    s'.Intact roots' := by
  refine ⟨intact.toSound.step adds, fun id mentioned => ?_⟩
  rcases adds.mentions mentioned with old | fresh
  · obtain ⟨scope, found⟩ := intact.whole id old
    exact stay id scope found
  · exact new id fresh

theorem Store.stay_newScope (enclosing? : Option ScopeId) (bindings : Bindings) (id : ScopeId)
    (scope : Scope) (found : s.scope? id = some scope) :
    ∃ after, (s.newScope enclosing? bindings).2.scope? id = some after := by
  rw [scope?_newScope]
  split
  · exact ⟨_, rfl⟩
  · exact ⟨scope, found⟩

theorem Store.stay_define (target : ScopeId) (name : String) (value : Value) (id : ScopeId)
    (scope : Scope) (found : s.scope? id = some scope) :
    ∃ after, (s.define target name value).scope? id = some after := by
  rw [scope?_define, found]
  exact ⟨_, rfl⟩

theorem Store.stay_capture (target : ScopeId) (id : ScopeId) (scope : Scope)
    (found : s.scope? id = some scope) : ∃ after, (s.capture target).scope? id = some after := by
  rcases s.scope?_capture target id with kept | ⟨before, _, marked⟩
  · exact ⟨scope, kept.trans found⟩
  · exact ⟨_, marked⟩

theorem Store.Intact.define (intact : s.Intact roots) (id : ScopeId) (name : String)
    {value : Value} (held : .value value ∈ roots) : (s.define id name value).Intact roots :=
  intact.step (.define id name fun object inside => occurs_of_root held inside)
    (stay_define id name value) (by simp)

theorem Store.Intact.newClosure (intact : s.Intact roots) {id : ScopeId}
    (declaration : FunctionDecl) (isInitializer : Bool) (held : s.Mentions roots (.scope id)) :
    s.newIdentity.2.Intact
      (.value (.closure ⟨s.newIdentity.1, declaration, id, isInitializer⟩) :: roots) :=
  intact.step (.newClosure declaration isInitializer held) (fun _ scope found => ⟨scope, found⟩)
    (by simp)

theorem Store.Intact.capture (intact : s.Intact roots) (id : ScopeId) :
    (s.capture id).Intact roots :=
  intact.step (.capture id) (stay_capture id) (by simp)

theorem Store.Intact.bind (intact : s.Intact roots) {method : Closure} {id : InstanceId}
    {type : Class} (heldMethod : .value (.closure method) ∈ roots)
    (heldInstance : .value (.instance id type) ∈ roots) :
    (s.bind method id type).2.Intact (.value (.closure (s.bind method id type).1) :: roots) := by
  have occurs : .closure method ∈ s.objects roots :=
    occurs_of_root heldMethod (List.mem_singleton_self _)
  have inner := intact.step
    (.thisScope (.lasting occurs (List.mem_singleton_self _))
      (occurs_of_root heldInstance List.mem_cons_self))
    (stay_newScope _ _) (fun other same => by cases same; exact ⟨_, s.scope?_newScope_self _ _⟩)
  have bound := inner.newClosure method.declaration method.isInitializer
    (.held List.mem_cons_self rfl)
  exact (bound.step .forget (fun _ scope found => ⟨scope, found⟩) (by simp)).capture _

theorem Built.intact (built : Built s l roots) : s.Intact roots := by
  -- All operations but a collection keep every scope that there is: what they add is all that has
  -- to be told of them.
  induction built with
  | empty =>
    refine ⟨Sound.empty, fun id mentioned => ?_⟩
    have := Sound.empty.bounded _ mentioned
    exact absurd this (Nat.not_lt_zero _)
  | newScope before enclosing? held ih =>
    exact ih.step (.newScope enclosing? [] (fun parent same => .held (held parent same) rfl)
      (by simp [Bindings.objects])) (stay_newScope _ _)
      (fun id same => by cases same; exact ⟨_, scope?_newScope_self _ _ _⟩)
  | define before name held heldValue ih => exact ih.define _ name heldValue
  | assign before held heldValue assigned ih =>
    unfold Store.assign at assigned
    split at assigned
    · cases assigned
      exact ih.define _ _ heldValue
    · cases assigned
  | close before declaration isInitializer held ih =>
    exact (ih.newClosure declaration isInitializer (.held held rfl)).capture _
  | bind before heldMethod heldInstance ih => exact ih.bind heldMethod heldInstance
  | newClass before name heldSuperclass heldMethods ih =>
    exact ih.step (.newClass name
      (fun superclass above => occurs_of_root (heldSuperclass superclass above) superclass.mem_objects)
      (fun method member => occurs_of_root (heldMethods method member) (List.mem_singleton_self _)))
      (fun _ scope found => ⟨scope, found⟩) (by simp)
  | @newInstance s l roots before type held ih =>
    exact ih.step (.newInstance (occurs_of_root held type.mem_objects))
      (fun _ scope found => ⟨scope, found⟩) (by simp)
  | setField before name held heldValue ih =>
    exact ih.step (.setField _ name fun object inside => occurs_of_root heldValue inside)
      (fun _ scope found => ⟨scope, found⟩) (by simp)
  | @hold s l roots before root existing ih =>
    refine ih.step (.hold ?_ ?_) (fun _ scope found => ⟨scope, found⟩) (by simp)
    · intro other member object inside
      rcases List.mem_cons.mp member with rfl | old
      · cases other with
        | scope id => cases inside
        | value v => exact value_occurs (fun each same => (existing each same).occurs) object inside
      · exact occurs_of_root old inside
    · intro id member
      rcases List.mem_cons.mp member with rfl | old
      · exact .occurs (existing _ rfl).occurs
      · exact .held old rfl
  | drop before fewer ih =>
    exact ih.step (.hold (fun root member object inside => occurs_of_root (fewer member) inside)
      (fun id member => .held (fewer member) rfl)) (fun _ scope found => ⟨scope, found⟩) (by simp)
  | track before existing same ih => exact ih
  | collect before order borrowed borrowedHeld ih => exact ih.collected borrowedHeld

theorem Ledger.tracked_settle (l : Ledger) (s : Store) :
    (l.settle s).tracked = l.handles.toList.countP s.holds := by
  rw [Ledger.tracked, ← Array.length_toList]
  simp only [Ledger.settle, Array.toList_filter]
  exact List.countP_eq_length_filter.symm

/-- A collection keeps, and does not change, what is referred to from outside, directly or not; it
    frees what else a handle leads to; and it forgets the handles on what is gone. -/
theorem Built.collect_exact (built : Built s l roots) (order : Arrangement) (borrowed : Nat → Bool)
    (borrowedHeld : ∀ key, borrowed key = true → key ∈ Root.keys roots) :
    let after := collectWith order borrowed s l roots
    (∀ object, s.Live roots l object →
      after.1.Exists roots object ∧ object.Unchanged s after.1) ∧
    (∀ object, s.FromHandle roots l object → ¬ s.Live roots l object →
      object ∉ after.1.objects roots) ∧
    (∀ node, after.1.holds node = true ↔
      ∃ object, object.node? = some node ∧ after.1.Exists roots object) ∧
    after.2.tracked = l.handles.toList.countP after.1.holds := by
  have sound := built.intact.toSound
  refine ⟨?_, ?_, ?_, ?_⟩
  · intro object live
    have existing := built.intact.exists_of_live live
    have stays : (collectWith order borrowed s l roots).1.Exists roots object :=
      (sound.exists_collect_iff borrowedHeld).mpr ⟨existing, fun _ => live⟩
    exact ⟨stays, sound.unchanged_collect borrowedHeld stays⟩
  · intro object fromHandle free occurs
    have stays := sound.exists_of_occurs_collect borrowedHeld occurs
    exact free (((sound.exists_collect_iff borrowedHeld).mp stays).2 fromHandle)
  · exact fun node => sound.holds_collect_iff borrowedHeld
  · exact l.tracked_settle _

namespace SelfReference

def type : Class := .mk 0 "Loop" none []

def store : Store :=
  Store.empty.newIdentity.2.newInstance.2.setField ⟨1⟩ "self" (.instance ⟨1⟩ type)

def ledger : Ledger := Ledger.empty.track (.instance ⟨1⟩)

theorem built_instance : Built Store.empty.newIdentity.2.newInstance.2 .empty
    [.value (.instance ⟨1⟩ type), .value (.class type)] := by
  have named : Built Store.empty.newIdentity.2 .empty [.value (.class type)] :=
    Built.empty.newClass "Loop" (by simp) (by simp)
  exact named.newInstance List.mem_cons_self

theorem existing : store.Exists [] (.instance ⟨1⟩ type) := by
  refine ⟨(· = .instance ⟨1⟩ type), rfl, ?_⟩
  rintro each rfl
  have bound : .instance ⟨1⟩ type ∈ (Object.instance ⟨1⟩ type).loose store :=
    List.mem_singleton_self _
  exact ⟨loose_occurs bound, .inr ⟨_, rfl, .inr bound⟩⟩

theorem built : Built store ledger [] := by
  have tied : Built store .empty [.value (.instance ⟨1⟩ type), .value (.class type)] :=
    built_instance.setField "self" List.mem_cons_self List.mem_cons_self
  exact (tied.drop (List.nil_subset _)).track existing rfl

theorem fromHandle : store.FromHandle [] ledger (.instance ⟨1⟩ type) :=
  .start (show 1 ∈ ledger.keys by decide)

theorem not_live (object : Object) : ¬ store.Live [] ledger object := by
  intro live
  induction live with
  | start outside =>
    rcases outside with ⟨root, member, _⟩ | ⟨holder, exists', _, free⟩
    · cases member
    · have occurs : holder ∈ [Object.instance ⟨1⟩ type, .class type] := exists'.occurs
      rcases List.mem_cons.mp occurs with rfl | later
      · exact free fromHandle
      · cases List.mem_singleton.mp later
        exact free (fromHandle.step existing (.inl (List.mem_singleton_self _)))
  | step _ _ _ ih => exact ih

/-- An instance that only its own field refers to exists until a collection frees it. -/
theorem cycle_collected : store.Exists [] (.instance ⟨1⟩ type) ∧
    .instance ⟨1⟩ type ∉
      (collectWith .given (fun _ => false) store ledger []).1.objects [] :=
  ⟨existing, (built.collect_exact .given (fun _ => false) (by simp)).2.1 _ fromHandle (not_live _)⟩

end SelfReference

end Lox
