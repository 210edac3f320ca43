import Lox.Proofs.Machine.Pauses

namespace Lox

def Object.Inside (within : Node → Prop) : Object → Prop
  | scope id => within (.scope id)
  | closure function => within (.scope function.scope)
  | .class _ => True
  | .instance id _ => within (.instance id)

def Value.Inside (within : Node → Prop) (v : Value) : Prop :=
  ∀ object ∈ v.objects, object.Inside within

def Bindings.Inside (within : Node → Prop) (bindings : Bindings) : Prop :=
  ∀ entry ∈ bindings, entry.2.Inside within

def Root.Inside (within : Node → Prop) : Root → Prop
  | scope id => within (.scope id)
  | value v => v.Inside within

structure Scope.Inside (within : Node → Prop) (scope : Scope) : Prop where
  bindings : scope.bindings.Inside within
  around : ∀ parent, scope.enclosing? = some parent → within (.scope parent)

section inside

variable {within within' : Node → Prop} (wider : ∀ node, within node → within' node)

theorem Value.Inside.atom {v : Value} (atom : v.objects = []) : v.Inside within := by
  intro object member
  rw [atom] at member
  cases member

theorem Class.Inside.method {type : Class} (inside : (Value.class type).Inside within)
    {name : String} {method : Closure} (declared : type.findMethod? name = some method) :
    within (.scope method.scope) :=
  inside _ (Class.closure_mem_of_findMethod? declared)

theorem Value.Inside.ofClass {id : InstanceId} {type : Class} (inside : (Value.class type).Inside within)
    (known : within (.instance id)) : (Value.instance id type).Inside within := by
  intro object member
  rcases List.mem_cons.mp member with rfl | part
  · exact known
  · exact inside object part

theorem Value.Inside.type {id : InstanceId} {type : Class}
    (inside : (Value.instance id type).Inside within) : (Value.class type).Inside within :=
  fun object part => inside object (List.mem_cons_of_mem _ part)

theorem Bindings.Inside.put {bindings : Bindings} {name : String} {v : Value}
    (inside : bindings.Inside within) (value : v.Inside within) :
    Bindings.Inside within (Bindings.put name v bindings) := by
  rintro ⟨key, other⟩ member
  rcases Store.mem_put member with ⟨key', old⟩ | rfl
  · exact inside (key', other) old
  · exact value

theorem Bindings.Inside.lookup {bindings : Bindings} {name : String} {v : Value}
    (inside : bindings.Inside within) (found : bindings.lookup name = some v) : v.Inside within :=
  inside _ (mem_of_lookup found)

include wider

theorem Object.Inside.mono {object : Object} (inside : object.Inside within) :
    object.Inside within' := by
  cases object with
  | scope id | closure function | «instance» id type => exact wider _ inside
  | «class» type => trivial

theorem Value.Inside.mono {v : Value} (inside : v.Inside within) : v.Inside within' :=
  fun object member => (inside object member).mono wider

theorem Bindings.Inside.mono {bindings : Bindings} (inside : bindings.Inside within) :
    bindings.Inside within' := fun entry member => Value.Inside.mono wider (inside entry member)

theorem Root.Inside.mono {root : Root} (inside : root.Inside within) : root.Inside within' := by
  cases root with
  | scope id => exact wider _ inside
  | value v => exact Value.Inside.mono wider inside

theorem Scope.Inside.mono {scope : Scope} (inside : scope.Inside within) : scope.Inside within' :=
  ⟨inside.bindings.mono wider, fun parent around => wider _ (inside.around parent around)⟩

end inside

namespace Store

/-- Two stores hold the same under some numbers, and it leads to nothing else. -/
structure Match (within : Node → Prop) (s t : Store) : Prop where
  next : s.next = t.next
  scopes : ∀ id, within (.scope id) → s.scope? id = t.scope? id
  fields : ∀ id, within (.instance id) → s.fields? id = t.fields? id
  scopes_inside : ∀ id scope, within (.scope id) → s.scope? id = some scope → scope.Inside within
  fields_inside : ∀ id fields, within (.instance id) → s.fields? id = some fields →
    Bindings.Inside within fields

variable {within : Node → Prop} {s t : Store}

theorem inside_all (v : Value) : v.Inside fun _ => True := by
  intro object _
  cases object <;> trivial

theorem Match.refl (s : Store) : s.Match (fun _ => True) s where
  next := rfl
  scopes _ _ := rfl
  fields _ _ := rfl
  scopes_inside _ _ _ _ := ⟨fun entry _ => inside_all entry.2, fun _ _ => trivial⟩
  fields_inside _ _ _ _ := fun entry _ => inside_all entry.2

theorem Match.symm (agree : s.Match within t) : t.Match within s where
  next := agree.next.symm
  scopes id known := (agree.scopes id known).symm
  fields id known := (agree.fields id known).symm
  scopes_inside id scope known found :=
    agree.scopes_inside id scope known ((agree.scopes id known).trans found)
  fields_inside id fields known found :=
    agree.fields_inside id fields known ((agree.fields id known).trans found)

section read

theorem Match.local? (agree : s.Match within t) {id : ScopeId} (known : within (.scope id))
    (name : String) : s.local? id name = t.local? id name := by
  unfold Store.local?
  rw [agree.scopes id known]

theorem Match.outward? (agree : s.Match within t) {id : ScopeId} (known : within (.scope id)) :
    s.outward? id = t.outward? id := by
  unfold Store.outward?
  rw [agree.scopes id known]

theorem Match.isCaptured (agree : s.Match within t) {id : ScopeId} (known : within (.scope id)) :
    s.isCaptured id = t.isCaptured id := by
  unfold Store.isCaptured
  rw [agree.scopes id known]

theorem Match.outward_inside (agree : s.Match within t) {id parent : ScopeId}
    (known : within (.scope id)) {older : parent.index < id.index}
    (around : s.outward? id = some ⟨parent, older⟩) : within (.scope parent) := by
  obtain ⟨scope, found, outside⟩ := outward?_eq_some around
  exact (agree.scopes_inside id scope known found).around parent outside

theorem Match.local_inside (agree : s.Match within t) {id : ScopeId} (known : within (.scope id))
    {name : String} {v : Value} (found : s.local? id name = some v) : v.Inside within := by
  obtain ⟨scope, atId, bound⟩ := Option.bind_eq_some_iff.mp found
  exact (agree.scopes_inside id scope known atId).bindings.lookup bound

theorem Match.owner? (agree : s.Match within t) (id : ScopeId) (known : within (.scope id))
    (name : String) : s.owner? id name = t.owner? id name := by
  fun_induction Store.owner? s id name with
  | case1 id v found =>
    rw [Store.owner?.eq_def t, ← agree.local? known, found]
  | case2 id missing parent older around ih =>
    rw [Store.owner?.eq_def t, ← agree.local? known, ← agree.outward? known, missing, around]
    exact ih (agree.outward_inside known around)
  | case3 id missing around =>
    rw [Store.owner?.eq_def t, ← agree.local? known, ← agree.outward? known, missing, around]

theorem Match.owner_inside (agree : s.Match within t) (id : ScopeId) (known : within (.scope id))
    {name : String} {owner : ScopeId} (found : s.owner? id name = some owner) :
    within (.scope owner) := by
  fun_induction Store.owner? s id name with
  | case1 id v here =>
    cases found
    exact known
  | case2 id missing parent older around ih => exact ih (agree.outward_inside known around) found
  | case3 id missing around => cases found

theorem Match.ancestor? (agree : s.Match within t) {id : ScopeId} (known : within (.scope id))
    (distance : Nat) : s.ancestor? id distance = t.ancestor? id distance := by
  induction distance generalizing id with
  | zero => rfl
  | succ distance ih =>
    rw [Store.ancestor?, Store.ancestor?, ← agree.outward? known]
    cases around : s.outward? id with
    | none => rfl
    | some outer => exact ih (agree.outward_inside known around)

theorem Match.ancestor_inside (agree : s.Match within t) {id : ScopeId} (known : within (.scope id))
    {distance : Nat} {outer : ScopeId} (found : s.ancestor? id distance = some outer) :
    within (.scope outer) := by
  induction distance generalizing id with
  | zero =>
    cases found
    exact known
  | succ distance ih =>
    rw [Store.ancestor?] at found
    split at found
    · rename_i around
      exact ih (agree.outward_inside known around) found
    · cases found

theorem Match.ownerAt_inside (agree : s.Match within t) {id : ScopeId} (known : within (.scope id))
    {distance : Nat} {name : String} {owner : ScopeId}
    (found : s.ownerAt? id distance name = some owner) : within (.scope owner) := by
  obtain ⟨outer, atOuter, bound⟩ := Option.bind_eq_some_iff.mp found
  obtain ⟨_, _, same⟩ := Option.map_eq_some_iff.mp bound
  exact same ▸ agree.ancestor_inside known atOuter

theorem Match.ownerAt? (agree : s.Match within t) {id : ScopeId} (known : within (.scope id))
    (distance : Nat) (name : String) : s.ownerAt? id distance name = t.ownerAt? id distance name := by
  unfold Store.ownerAt?
  rw [← agree.ancestor? known]
  cases found : s.ancestor? id distance with
  | none => rfl
  | some outer =>
    show (s.local? outer name).map _ = (t.local? outer name).map _
    rw [agree.local? (agree.ancestor_inside known found)]

/-- What is read from a scope that both stores know, and that it lies inside. -/
theorem Match.bound (agree : s.Match within t) {owner? : Option ScopeId} {name : String}
    (known : ∀ owner, owner? = some owner → within (.scope owner)) :
    owner?.bind (s.local? · name) = owner?.bind (t.local? · name) ∧
      ∀ v, owner?.bind (s.local? · name) = some v → v.Inside within := by
  cases owner? with
  | none => exact ⟨rfl, fun v impossible => by cases impossible⟩
  | some owner =>
    exact ⟨agree.local? (known owner rfl) name,
      fun v found => agree.local_inside (known owner rfl) found⟩

theorem Match.read (agree : s.Match within t) {id : ScopeId} (known : within (.scope id))
    (name : String) (line : Nat) : s.read id name line = t.read id name line ∧
      ∀ v, s.read id name line = .ok v → v.Inside within := by
  obtain ⟨same, inside⟩ := agree.bound fun owner found => agree.owner_inside id known found
  unfold Store.read
  rw [← agree.owner? id known, ← same]
  refine ⟨rfl, fun v found => ?_⟩
  split at found
  · rename_i bound
    cases found
    exact inside _ bound
  · cases found

theorem Match.readAt (agree : s.Match within t) {id : ScopeId} (known : within (.scope id))
    (distance : Nat) (name : String) (line : Nat) :
    s.readAt id distance name line = t.readAt id distance name line ∧
      ∀ v, s.readAt id distance name line = .ok v → v.Inside within := by
  obtain ⟨same, inside⟩ := agree.bound fun owner found => agree.ownerAt_inside known found
  unfold Store.readAt
  rw [← agree.ownerAt? known, ← same]
  refine ⟨rfl, fun v found => ?_⟩
  split at found
  · rename_i bound
    cases found
    exact inside _ bound
  · cases found

end read

section change

theorem Match.newScope (agree : s.Match within t) (enclosing? : Option ScopeId)
    (bindings : Bindings) (around : ∀ parent, enclosing? = some parent → within (.scope parent))
    (values : bindings.Inside within) :
    (s.newScope enclosing? bindings).2.Match
      (fun node => node = .scope (s.newScope enclosing? bindings).1 ∨ within node)
      (t.newScope enclosing? bindings).2 := by
  have wider : ∀ node, within node →
      node = .scope (s.newScope enclosing? bindings).1 ∨ within node := fun _ => .inr
  have fresh : (⟨bindings, enclosing?, false⟩ : Scope).Inside
      (fun node => node = .scope (s.newScope enclosing? bindings).1 ∨ within node) :=
    ⟨values.mono wider, fun parent outside => .inr (around parent outside)⟩
  refine ⟨congrArg (· + 1) agree.next, ?_, ?_, ?_, ?_⟩
  · intro id known
    rw [scope?_newScope, scope?_newScope, ← agree.next]
    by_cases same : id.index = s.next
    · rw [if_pos same, if_pos same]
    · rw [if_neg same, if_neg same]
      rcases known with new | old
      · cases new
        exact absurd rfl same
      · exact agree.scopes id old
  · rintro id (impossible | known)
    · cases impossible
    · exact agree.fields id known
  · intro id scope known found
    rw [scope?_newScope] at found
    split at found
    · cases found
      exact fresh
    · rename_i other
      rcases known with new | old
      · cases new
        exact absurd rfl other
      · exact (agree.scopes_inside id scope old found).mono wider
  · rintro id fields (impossible | known) found
    · cases impossible
    · exact (agree.fields_inside id fields known found).mono wider

theorem Match.newInstance (agree : s.Match within t) :
    s.newInstance.2.Match (fun node => node = .instance s.newInstance.1 ∨ within node)
      t.newInstance.2 := by
  have wider : ∀ node, within node → node = .instance s.newInstance.1 ∨ within node :=
    fun _ => .inr
  refine ⟨congrArg (· + 1) agree.next, ?_, ?_, ?_, ?_⟩
  · rintro id (impossible | known)
    · cases impossible
    · exact agree.scopes id known
  · intro id known
    rw [fields?_newInstance, fields?_newInstance, ← agree.next]
    by_cases same : id.index = s.next
    · rw [if_pos same, if_pos same]
    · rw [if_neg same, if_neg same]
      rcases known with new | old
      · cases new
        exact absurd rfl same
      · exact agree.fields id old
  · rintro id scope (impossible | known) found
    · cases impossible
    · exact (agree.scopes_inside id scope known found).mono wider
  · intro id fields known found
    rw [fields?_newInstance] at found
    split at found
    · cases found
      exact fun _ member => by cases member
    · rename_i other
      rcases known with new | old
      · cases new
        exact absurd rfl other
      · exact (agree.fields_inside id fields old found).mono wider

theorem Match.newIdentity (agree : s.Match within t) :
    s.newIdentity.2.Match within t.newIdentity.2 :=
  ⟨congrArg (· + 1) agree.next, agree.scopes, agree.fields, agree.scopes_inside,
    agree.fields_inside⟩

theorem Match.define (agree : s.Match within t) (id : ScopeId) (name : String) {v : Value}
    (inside : v.Inside within) : (s.define id name v).Match within (t.define id name v) := by
  refine ⟨agree.next, ?_, agree.fields, ?_, agree.fields_inside⟩
  · intro other known
    rw [scope?_define, scope?_define, agree.scopes other known]
  · intro other scope known found
    rw [scope?_define] at found
    obtain ⟨before, atOther, rfl⟩ := Option.map_eq_some_iff.mp found
    have old := agree.scopes_inside other before known atOther
    split
    · exact ⟨old.bindings.put inside, old.around⟩
    · exact old

/-- Two attempts to change the stores both succeed or both end in the same fault. -/
def Attempts (within : Node → Prop) (attempt attempt' : Except Fault Store) : Prop :=
  (∃ s t, attempt = .ok s ∧ attempt' = .ok t ∧ s.Match within t) ∨
    ∃ fault, attempt = .error fault ∧ attempt' = .error fault

theorem Match.assign (agree : s.Match within t) {id : ScopeId} (known : within (.scope id))
    (name : String) {v : Value} (inside : v.Inside within) (line : Nat) :
    Attempts within (s.assign id name v line) (t.assign id name v line) := by
  unfold Store.assign
  rw [← agree.owner? id known]
  cases s.owner? id name with
  | some owner => exact .inl ⟨_, _, rfl, rfl, agree.define owner name inside⟩
  | none => exact .inr ⟨_, rfl, rfl⟩

theorem Match.assignAt (agree : s.Match within t) {id : ScopeId} (known : within (.scope id))
    (distance : Nat) (name : String) {v : Value} (inside : v.Inside within) (line : Nat) :
    Attempts within (s.assignAt id distance name v line) (t.assignAt id distance name v line) := by
  unfold Store.assignAt
  rw [← agree.ownerAt? known]
  cases s.ownerAt? id distance name with
  | some owner => exact .inl ⟨_, _, rfl, rfl, agree.define owner name inside⟩
  | none => exact .inr ⟨_, rfl, rfl⟩

theorem Match.setField (agree : s.Match within t) (id : InstanceId) (name : String) {v : Value}
    (inside : v.Inside within) : (s.setField id name v).Match within (t.setField id name v) := by
  refine ⟨agree.next, agree.scopes, ?_, agree.scopes_inside, ?_⟩
  · intro other known
    rw [fields?_setField, fields?_setField, agree.fields other known]
  · intro other fields known found
    rw [fields?_setField] at found
    obtain ⟨before, atOther, rfl⟩ := Option.map_eq_some_iff.mp found
    have old := agree.fields_inside other before known atOther
    split
    · exact old.put inside
    · exact old

theorem Match.free (agree : s.Match within t) (id : ScopeId) :
    (s.free id).Match within (t.free id) := by
  refine ⟨agree.next, ?_, agree.fields, ?_, agree.fields_inside⟩
  · intro other known
    rw [scope?_free, scope?_free, agree.scopes other known]
  · exact fun other scope known found => agree.scopes_inside other scope known (scope?_of_free found)

theorem Match.mark (agree : s.Match within t) {id : ScopeId} {scope : Scope}
    (inside : scope.Inside within) :
    ({ s with scopes := s.scopes.insert id.index scope } : Store).Match within
      { t with scopes := t.scopes.insert id.index scope } := by
  refine ⟨agree.next, ?_, agree.fields, ?_, agree.fields_inside⟩
  · intro other known
    rw [scope?_mark, scope?_mark, agree.scopes other known]
  · intro other after known found
    rw [scope?_mark] at found
    split at found
    · cases found
      exact inside
    · exact agree.scopes_inside other after known found

theorem Match.capture (agree : s.Match within t) (id : ScopeId) (known : within (.scope id)) :
    (s.capture id).Match within (t.capture id) := by
  revert t
  fun_induction Store.capture s id with
  | case1 s id absent =>
    intro t agree
    rw [Store.capture.eq_def t, ← agree.scopes id known, absent]
    exact agree
  | case2 s id scope found captured =>
    intro t agree
    rw [Store.capture.eq_def t, ← agree.scopes id known, found]
    simp only [captured, if_true]
    exact agree
  | case3 s id scope found fresh marked parent older around ih =>
    intro t agree
    have old := agree.scopes_inside id scope known found
    rw [Store.capture.eq_def t, ← agree.scopes id known, found]
    simp only [fresh, Bool.false_eq_true, if_false, ← agree.outward? known]
    rw [around]
    exact ih (agree.outward_inside known around) (agree.mark ⟨old.bindings, old.around⟩)
  | case4 s id scope found fresh marked around =>
    intro t agree
    have old := agree.scopes_inside id scope known found
    rw [Store.capture.eq_def t, ← agree.scopes id known, found]
    simp only [fresh, Bool.false_eq_true, if_false, ← agree.outward? known]
    rw [around]
    exact agree.mark ⟨old.bindings, old.around⟩

theorem Match.close (agree : s.Match within t) {id : ScopeId} (known : within (.scope id))
    (declaration : FunctionDecl) (isInitializer : Bool) :
    (s.close id declaration isInitializer).1 = (t.close id declaration isInitializer).1 ∧
      (s.close id declaration isInitializer).2.Match within
        (t.close id declaration isInitializer).2 := by
  refine ⟨?_, agree.newIdentity.capture id known⟩
  show (⟨s.next, declaration, id, isInitializer⟩ : Closure) = ⟨t.next, declaration, id, isInitializer⟩
  rw [agree.next]

theorem Match.bind (agree : s.Match within t) {method : Closure} {id : InstanceId} {type : Class}
    (known : within (.scope method.scope)) (receiver : (Value.instance id type).Inside within) :
    (s.bind method id type).1 = (t.bind method id type).1 ∧
      (s.bind method id type).2.Match
        (fun node => node = .scope (s.bind method id type).1.scope ∨ within node)
        (t.bind method id type).2 := by
  have made := (agree.newScope (some method.scope) [("this", .instance id type)]
    (fun parent same => by cases same; exact known)
    (fun entry member => by
      cases List.mem_singleton.mp member
      exact receiver)).newIdentity.capture ⟨s.next⟩ (.inl rfl)
  constructor
  · show ({ method with identity := s.next + 1, scope := ⟨s.next⟩ } : Closure) =
      { method with identity := t.next + 1, scope := ⟨t.next⟩ }
    rw [agree.next]
  · have same : (t.bind method id type).2 =
        ((t.newScope (some method.scope) [("this", .instance id type)]).2.newIdentity.2.capture
          ⟨s.next⟩) := by
      rw [agree.next]
      rfl
    rw [same]
    exact made

end change

section collect

variable {l : Ledger} {roots : List Root}

/-- What lies inside and is not taken away by a collection. -/
def Remains (s : Store) (l : Ledger) (roots : List Root) (within : Node → Prop) (node : Node) :
    Prop :=
  within node ∧ (s.holds node = true → s.Stays l roots node.key)

variable (sound : s.Sound roots)
include sound

/-- With the object that a value is, all that it consists of remains. -/
theorem Sound.value_remains {v : Value} (inside : v.Inside within)
    (occur : ∀ object ∈ v.objects, object ∈ s.objects roots)
    (start : ∀ object, v.object? = some object → s.Stays l roots object.key) :
    v.Inside (s.Remains l roots within) := by
  intro object member
  have stays := sound.value_kept (by simp) occur start object member
  have known := inside object member
  cases object with
  | scope id => exact absurd member (v.scope_not_mem id)
  | closure function =>
    refine ⟨known, fun held => ?_⟩
    exact sound.kept_closed (by simp) (occur _ member) stays
      (scope_mem_objects_iff.mpr (scope_of_holds held))
      (.inl (List.mem_singleton_self (Object.scope function.scope)))
  | «class» type => trivial
  | «instance» id type => exact ⟨known, fun _ => stays⟩

theorem Sound.root_remains {root : Root} (member : root ∈ roots) (inside : root.Inside within) :
    root.Inside (s.Remains l roots within) := by
  cases root with
  | scope id =>
    refine ⟨inside, fun held => ?_⟩
    exact sound.root_kept (by simp) member rfl (scope_mem_objects_iff.mpr (scope_of_holds held))
  | value v =>
    have occur : ∀ object ∈ v.objects, object ∈ s.objects roots :=
      fun object part => occurs_of_root member part
    refine sound.value_remains inside occur fun object found => ?_
    exact sound.root_kept (by simp) member found (occur _ (Value.object_mem found))

theorem Sound.bindings_remain {bindings : Bindings} (inside : bindings.Inside within)
    (occur : ∀ object ∈ bindings.objects, object ∈ s.objects roots)
    (start : ∀ object ∈ bindings.bound, s.Stays l roots object.key) :
    bindings.Inside (s.Remains l roots within) := by
  intro entry member
  refine sound.value_remains (inside entry member) (fun object part => ?_) fun object found => ?_
  · exact occur _ (Bindings.mem_objects_iff.mpr ⟨entry, member, part⟩)
  · exact start _ (Bindings.mem_bound_iff.mpr ⟨entry, member, found⟩)

theorem Sound.scope_remains {id : ScopeId} {scope : Scope} (found : s.scope? id = some scope)
    (stays : s.Stays l roots id.index) (inside : scope.Inside within) :
    scope.Inside (s.Remains l roots within) := by
  have occurs : .scope id ∈ s.objects roots := scope_mem_objects_iff.mpr ⟨scope, found⟩
  refine ⟨sound.bindings_remain inside.bindings (fun _ => occurs_of_bound found) ?_, ?_⟩
  · intro object bound
    have edge : object ∈ (Object.scope id).loose s := by
      rw [Object.loose, found]
      exact bound
    exact sound.kept_closed (by simp) occurs stays (loose_occurs edge) (.inr edge)
  · intro parent around
    refine ⟨inside.around parent around, fun held => ?_⟩
    exact sound.stays_outward stays found around (scope_of_holds held)

theorem Sound.fields_remain {id : InstanceId} {fields : Bindings} (found : s.fields? id = some fields)
    (stays : s.Stays l roots id.index) (inside : fields.Inside within) :
    fields.Inside (s.Remains l roots within) := by
  refine sound.bindings_remain inside (fun _ => occurs_of_field found) fun object bound => ?_
  obtain ⟨holder, occurs, atKey⟩ := sound.occurs_of_kept (by simp) stays
  obtain ⟨type, rfl⟩ := sound.owner id fields found holder (.occurs occurs) atKey
  have edge : object ∈ (Object.instance id type).loose s := by
    rw [Object.loose, found]
    exact bound
  exact sound.kept_closed (by simp) occurs stays (loose_occurs edge) (.inr edge)

/-- A collection leaves a store in agreement on all that can still be reached. -/
theorem Match.collect (agree : s.Match within t) :
    (collect s l roots).1.Match (s.Remains l roots within) t := by
  refine ⟨agree.next, ?_, ?_, ?_, ?_⟩
  · rintro id ⟨known, remains⟩
    rw [← agree.scopes id known]
    cases found : s.scope? id with
    | some scope => exact (sound.scope?_of_stays (remains (holds_scope found))).trans found
    | none =>
      refine (sound.scope?_collect (by simp) id).trans ?_
      rw [found, ite_self]
  · rintro id ⟨known, remains⟩
    rw [← agree.fields id known]
    refine (sound.fields?_collect (by simp) id).trans ?_
    cases found : s.fields? id with
    | some fields => exact if_pos (remains (holds_instance found))
    | none => rw [ite_self]
  · rintro id scope ⟨known, _⟩ found
    obtain ⟨stays, before⟩ := sound.stays_of_scope? found
    exact sound.scope_remains before stays (agree.scopes_inside id scope known before)
  · rintro id fields ⟨known, remains⟩ found
    have before := sound.fields?_of_collect found
    exact sound.fields_remain before (remains (holds_instance before))
      (agree.fields_inside id fields known before)

end collect

end Store
end Lox
