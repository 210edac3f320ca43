import Lox.Proofs.Store.Lookup
import Lox.Proofs.Store.Sound

namespace Lox

theorem Bindings.mem_objects_put {bindings : Bindings} {name : String} {value : Value}
    {object : Object} (member : object ∈ (Bindings.put name value bindings).objects) :
    object ∈ bindings.objects ∨ object ∈ value.objects := by
  induction bindings with
  | nil =>
    obtain ⟨entry, inside, within⟩ := Bindings.mem_objects_iff.mp member
    cases List.mem_singleton.mp inside
    exact .inr within
  | cons entry rest ih =>
    obtain ⟨key, old⟩ := entry
    simp only [Bindings.put] at member
    simp only [Bindings.objects, List.flatMap_cons, List.mem_append] at ih ⊢
    split at member
    · simp only [Bindings.objects, List.flatMap_cons, List.mem_append] at member
      rcases member with new | later
      · exact .inr new
      · exact .inl (.inr later)
    · simp only [Bindings.objects, List.flatMap_cons, List.mem_append] at member
      rcases member with kept | later
      · exact .inl (.inl kept)
      · rcases ih later with old | new
        · exact .inl (.inr old)
        · exact .inr new

namespace Store

/-- From one store to another at most one object is added, and it refers to what was there. -/
structure Adds (s s' : Store) (roots roots' : List Root) (fresh? : Option Object) : Prop where
  objects : ∀ object ∈ s'.objects roots', object ∈ s.objects roots ∨ fresh? = some object
  scopes : ∀ id, .scope id ∈ roots' → s.Mentions roots (.scope id) ∨ fresh? = some (.scope id)
  enclosing : ∀ id scope parent, s'.scope? id = some scope → scope.enclosing? = some parent →
    (∃ before, s.scope? id = some before ∧ before.enclosing? = some parent) ∨
      fresh? = some (.scope id)
  fields : ∀ id fields, s'.fields? id = some fields →
    (∃ before, s.fields? id = some before) ∨ ∃ type, fresh? = some (.instance id type)
  stored : ∀ id, ((∃ fields, s.fields? id = some fields) ∨ ∃ type, fresh? = some (.instance id type)) →
    ∃ fields, s'.fields? id = some fields
  number : ∀ object, fresh? = some object → object.key = s.next ∧ s.next < s'.next
  lasting : ∀ object, fresh? = some object → ∀ older ∈ object.lasting s', s.Mentions roots older
  le : s.next ≤ s'.next

variable {s s' : Store} {roots roots' : List Root} {fresh? : Option Object}

theorem Adds.lasting_old (adds : s.Adds s' roots roots' fresh?) {holder object : Object}
    (occurs : holder ∈ s.objects roots) (edge : object ∈ holder.lasting s') :
    object ∈ holder.lasting s ∨ fresh? = some holder := by
  cases holder with
  | scope id =>
    obtain ⟨parent, around, rfl⟩ := List.mem_map.mp edge
    obtain ⟨scope, found, same⟩ := Option.bind_eq_some_iff.mp (Option.mem_toList.mp around)
    rcases adds.enclosing id scope parent found same with ⟨before, atId, outer⟩ | new
    · refine .inl (List.mem_map.mpr ⟨parent, Option.mem_toList.mpr ?_, rfl⟩)
      exact Option.bind_eq_some_iff.mpr ⟨before, atId, outer⟩
    · exact .inr new
  | closure _ | «class» _ | «instance» _ _ => exact .inl edge

theorem Adds.mentions (adds : s.Adds s' roots roots' fresh?) {object : Object}
    (mentioned : s'.Mentions roots' object) :
    s.Mentions roots object ∨ fresh? = some object := by
  have old : object ∈ s'.objects roots' → s.Mentions roots object ∨ fresh? = some object :=
    fun occurs => (adds.objects object occurs).imp_left .occurs
  rcases mentioned with occurs | ⟨root, member, held⟩ | ⟨holder, occurs, lasting | loose⟩
  · exact old occurs
  · cases root with
    | scope id =>
      cases held
      exact adds.scopes id member
    | value v => exact old (mem_objects_iff.mpr (.inr (.inr ⟨_, member, Root.object_mem held⟩)))
  · rcases adds.objects holder occurs with before | new
    · rcases adds.lasting_old before lasting with edge | new
      · exact .inl (.lasting before edge)
      · exact .inl (adds.lasting holder new object lasting)
    · exact .inl (adds.lasting holder new object lasting)
  · exact old (loose_occurs loose)

/-- Whatever only adds objects in this way keeps a store sound. -/
theorem Sound.step (sound : s.Sound roots) (adds : s.Adds s' roots roots' fresh?) :
    s'.Sound roots' := by
  -- Each object is one from before or the new one, and their numbers keep these apart.
  have apart : ∀ object new, s.Mentions roots object → fresh? = some new →
      object.key ≠ new.key := by
    intro object new mentioned same
    have := sound.bounded object mentioned
    have := (adds.number new same).1
    omega
  refine ⟨?unique, ?aged, ?bounded, ?fields_lt, ?owner, ?stored⟩
  case unique =>
    intro object other first second same
    rcases adds.mentions first with old | new <;> rcases adds.mentions second with old' | new'
    · exact sound.unique object other old old' same
    · exact absurd same (apart object other old new')
    · exact absurd same.symm (apart other object old' new)
    · rw [new] at new'
      exact Option.some.inj new'
  case aged =>
    intro object occurs older edge
    have fromNew : fresh? = some object → older.key < object.key := by
      intro new
      have := sound.bounded older (adds.lasting object new older edge)
      have := (adds.number object new).1
      omega
    rcases adds.objects object occurs with before | new
    · rcases adds.lasting_old before edge with old | new
      · exact sound.aged object before older old
      · exact fromNew new
    · exact fromNew new
  case bounded =>
    intro object mentioned
    rcases adds.mentions mentioned with old | new
    · exact Nat.lt_of_lt_of_le (sound.bounded object old) adds.le
    · obtain ⟨same, less⟩ := adds.number object new
      omega
  case fields_lt =>
    intro id fields found
    rcases adds.fields id fields found with ⟨before, atId⟩ | ⟨type, new⟩
    · exact Nat.lt_of_lt_of_le (sound.fields_lt id before atId) adds.le
    · obtain ⟨same, less⟩ := adds.number _ new
      have equal : id.index = s.next := same
      omega
  case owner =>
    intro id fields found object mentioned same
    rcases adds.fields id fields found with ⟨before, atId⟩ | ⟨type, new⟩
    · rcases adds.mentions mentioned with old | new
      · exact sound.owner id before atId object old same
      · have := sound.fields_lt id before atId
        have := (adds.number object new).1
        omega
    · rcases adds.mentions mentioned with old | new'
      · exact absurd same (apart object _ old new)
      · rw [new] at new'
        exact ⟨type, (Option.some.inj new').symm⟩
  case stored =>
    intro id type occurs
    rcases adds.objects _ occurs with before | new
    · exact adds.stored id (.inl (sound.stored id type before))
    · exact adds.stored id (.inr ⟨type, new⟩)

theorem objects_mono {object : Object}
    (held : ∀ root ∈ roots', ∀ object ∈ root.objects, object ∈ s.objects roots)
    (occurs : object ∈ s.objects roots') : object ∈ s.objects roots := by
  rcases mem_objects_iff.mp occurs with inScope | inFields | ⟨root, member, inside⟩
  · exact mem_objects_iff.mpr (.inl inScope)
  · exact mem_objects_iff.mpr (.inr (.inl inFields))
  · exact held root member object inside

/-- What the host holds may change, as long as it is something that occurs. -/
theorem Adds.hold (held : ∀ root ∈ roots', ∀ object ∈ root.objects, object ∈ s.objects roots)
    (scopes : ∀ id, .scope id ∈ roots' → s.Mentions roots (.scope id)) :
    s.Adds s roots roots' none where
  objects := fun object occurs => .inl (objects_mono held occurs)
  scopes := fun id member => .inl (scopes id member)
  enclosing := fun id scope parent found same => .inl ⟨scope, found, same⟩
  fields := fun id fields found => .inl ⟨fields, found⟩
  stored := by simp
  number := by simp
  lasting := by simp
  le := Nat.le_refl _

theorem occurs_of_root {root : Root} {object : Object} (member : root ∈ roots)
    (inside : object ∈ root.objects) : object ∈ s.objects roots :=
  mem_objects_iff.mpr (.inr (.inr ⟨root, member, inside⟩))

theorem occurs_of_bound {id : ScopeId} {scope : Scope} {object : Object}
    (found : s.scope? id = some scope) (inside : object ∈ Bindings.objects scope.bindings) :
    object ∈ s.objects roots :=
  mem_objects_iff.mpr (.inl ⟨id, scope, found, .inr inside⟩)

theorem occurs_of_field {id : InstanceId} {fields : Bindings} {object : Object}
    (found : s.fields? id = some fields) (inside : object ∈ Bindings.objects fields) :
    object ∈ s.objects roots :=
  mem_objects_iff.mpr (.inr (.inl ⟨id, fields, found, inside⟩))

theorem Adds.newScope (enclosing? : Option ScopeId) (bindings : Bindings)
    (around : ∀ parent, enclosing? = some parent → s.Mentions roots (.scope parent))
    (bound : ∀ object ∈ bindings.objects, object ∈ s.objects roots) :
    s.Adds (s.newScope enclosing? bindings).2 roots
      (.scope (s.newScope enclosing? bindings).1 :: roots) (some (.scope ⟨s.next⟩)) where
  objects := by
    intro object occurs
    rcases mem_objects_iff.mp occurs with ⟨id, scope, found, place⟩ | ⟨id, fields, found, inside⟩ |
      ⟨root, member, inside⟩
    · rw [scope?_newScope] at found
      split at found
      · rename_i same
        cases found
        rcases place with rfl | inside
        · exact .inr (congrArg _ (congrArg _ (ScopeId.index_inj.mp same.symm)))
        · exact .inl (bound object inside)
      · exact .inl (mem_objects_iff.mpr (.inl ⟨id, scope, found, place⟩))
    · exact .inl (occurs_of_field found inside)
    · rcases List.mem_cons.mp member with rfl | old
      · cases inside
      · exact .inl (occurs_of_root old inside)
  scopes := by
    intro id member
    rcases List.mem_cons.mp member with same | old
    · cases same
      exact .inr rfl
    · exact .inl (.held old rfl)
  enclosing := by
    intro id scope parent found same
    rw [scope?_newScope] at found
    split at found
    · rename_i new
      exact .inr (congrArg _ (congrArg _ (ScopeId.index_inj.mp new.symm)))
    · exact .inl ⟨scope, found, same⟩
  fields := fun id fields found => .inl ⟨fields, found⟩
  stored := by
    rintro id (old | ⟨type, ⟨⟩⟩)
    exact old
  number := by
    rintro object ⟨⟩
    exact ⟨rfl, Nat.lt_succ_self _⟩
  lasting := by
    rintro object ⟨⟩ older edge
    obtain ⟨parent, outer, rfl⟩ := List.mem_map.mp edge
    refine around parent ?_
    rw [scope?_newScope, if_pos rfl] at outer
    simpa using outer
  le := Nat.le_succ _

theorem Adds.define (id : ScopeId) (name : String) {value : Value}
    (occur : ∀ object ∈ value.objects, object ∈ s.objects roots) :
    s.Adds (s.define id name value) roots roots none where
  objects := by
    intro object occurs
    rcases mem_objects_iff.mp occurs with ⟨other, scope, found, place⟩ |
      ⟨other, fields, found, inside⟩ | ⟨root, member, inside⟩
    · rw [scope?_define] at found
      obtain ⟨before, atOther, rfl⟩ := Option.map_eq_some_iff.mp found
      rcases place with rfl | inside
      · exact .inl (scope_mem_objects_iff.mpr ⟨before, atOther⟩)
      · split at inside
        · rcases Bindings.mem_objects_put inside with old | new
          · exact .inl (occurs_of_bound atOther old)
          · exact .inl (occur object new)
        · exact .inl (occurs_of_bound atOther inside)
    · exact .inl (occurs_of_field found inside)
    · exact .inl (occurs_of_root member inside)
  scopes := fun id member => .inl (.held member rfl)
  enclosing := by
    intro other scope parent found same
    rw [scope?_define] at found
    obtain ⟨before, atOther, rfl⟩ := Option.map_eq_some_iff.mp found
    refine .inl ⟨before, atOther, ?_⟩
    split at same <;> exact same
  fields := fun id fields found => .inl ⟨fields, found⟩
  stored := by
    rintro id (old | ⟨type, ⟨⟩⟩)
    exact old
  number := by simp
  lasting := by simp
  le := Nat.le_refl _

theorem Adds.setField (id : InstanceId) (name : String) {value : Value}
    (occur : ∀ object ∈ value.objects, object ∈ s.objects roots) :
    s.Adds (s.setField id name value) roots roots none where
  objects := by
    intro object occurs
    rcases mem_objects_iff.mp occurs with ⟨other, scope, found, place⟩ |
      ⟨other, fields, found, inside⟩ | ⟨root, member, inside⟩
    · exact .inl (mem_objects_iff.mpr (.inl ⟨other, scope, found, place⟩))
    · rw [fields?_setField] at found
      obtain ⟨before, atOther, rfl⟩ := Option.map_eq_some_iff.mp found
      split at inside
      · rcases Bindings.mem_objects_put inside with old | new
        · exact .inl (occurs_of_field atOther old)
        · exact .inl (occur object new)
      · exact .inl (occurs_of_field atOther inside)
    · exact .inl (occurs_of_root member inside)
  scopes := fun id member => .inl (.held member rfl)
  enclosing := fun other scope parent found same => .inl ⟨scope, found, same⟩
  fields := by
    intro other fields found
    rw [fields?_setField] at found
    obtain ⟨before, atOther, _⟩ := Option.map_eq_some_iff.mp found
    exact .inl ⟨before, atOther⟩
  stored := by
    rintro other (⟨fields, found⟩ | ⟨type, ⟨⟩⟩)
    rw [fields?_setField, found]
    exact ⟨_, rfl⟩
  number := by simp
  lasting := by simp
  le := Nat.le_refl _

theorem Adds.capture (id : ScopeId) :
    s.Adds (s.capture id) roots roots none := by
  have unmarked : ∀ other scope, (s.capture id).scope? other = some scope →
      ∃ before, s.scope? other = some before ∧ before.bindings = scope.bindings ∧
        before.enclosing? = scope.enclosing? := by
    intro other scope found
    rcases s.scope?_capture id other with kept | ⟨before, atOther, marked⟩
    · exact ⟨scope, kept ▸ found, rfl, rfl⟩
    · rw [marked] at found
      cases found
      exact ⟨before, atOther, rfl, rfl⟩
  refine ⟨?objects, ?scopes, ?enclosing, ?fields, ?stored, by simp, by simp, by simp⟩
  case objects =>
    intro object occurs
    rcases mem_objects_iff.mp occurs with ⟨other, scope, found, place⟩ |
      ⟨other, fields, found, inside⟩ | ⟨root, member, inside⟩
    · obtain ⟨before, atOther, same, _⟩ := unmarked other scope found
      exact .inl (mem_objects_iff.mpr (.inl ⟨other, before, atOther, same ▸ place⟩))
    · rw [fields?_capture] at found
      exact .inl (occurs_of_field found inside)
    · exact .inl (occurs_of_root member inside)
  case scopes =>
    exact fun id member => .inl (.held member rfl)
  case enclosing =>
    intro other scope parent found same
    obtain ⟨before, atOther, _, around⟩ := unmarked other scope found
    exact .inl ⟨before, atOther, around.trans same⟩
  case fields =>
    intro other fields found
    rw [fields?_capture] at found
    exact .inl ⟨fields, found⟩
  case stored =>
    rintro other (old | ⟨type, ⟨⟩⟩)
    rwa [fields?_capture]

theorem Adds.free (id : ScopeId) :
    s.Adds (s.free id) roots roots none := by
  refine ⟨?objects, ?scopes, ?enclosing, ?fields, ?stored, by simp, by simp, Nat.le_refl _⟩
  case objects =>
    intro object occurs
    rcases mem_objects_iff.mp occurs with ⟨other, scope, found, place⟩ |
      ⟨other, fields, found, inside⟩ | ⟨root, member, inside⟩
    · exact .inl (mem_objects_iff.mpr (.inl ⟨other, scope, scope?_of_free found, place⟩))
    · exact .inl (occurs_of_field found inside)
    · exact .inl (occurs_of_root member inside)
  case scopes =>
    exact fun id member => .inl (.held member rfl)
  case enclosing =>
    exact fun other scope parent found same => .inl ⟨scope, scope?_of_free found, same⟩
  case fields =>
    exact fun id fields found => .inl ⟨fields, found⟩
  case stored =>
    rintro id (old | ⟨type, ⟨⟩⟩)
    exact old

theorem Adds.skip : s.Adds s.newIdentity.2 roots roots none where
  objects := fun _ occurs => .inl occurs
  scopes := fun _ member => .inl (.held member rfl)
  enclosing := fun _ scope _ found same => .inl ⟨scope, found, same⟩
  fields := fun _ fields found => .inl ⟨fields, found⟩
  stored := by simp
  number := by simp
  lasting := by simp
  le := Nat.le_succ _

theorem Adds.newIdentity (value : Value) (fresh : Object)
    (number : fresh.key = s.next)
    (parts : ∀ object ∈ value.objects, object ∈ s.objects roots ∨ object = fresh)
    (fixed : fresh.node? = none)
    (lasting : ∀ older ∈ fresh.lasting s, s.Mentions roots older) :
    s.Adds s.newIdentity.2 roots (.value value :: roots) (some fresh) where
  objects := by
    intro object occurs
    rcases mem_objects_iff.mp occurs with ⟨other, scope, found, place⟩ |
      ⟨other, fields, found, inside⟩ | ⟨root, member, inside⟩
    · exact .inl (mem_objects_iff.mpr (.inl ⟨other, scope, found, place⟩))
    · exact .inl (occurs_of_field found inside)
    · rcases List.mem_cons.mp member with rfl | old
      · rcases parts object inside with before | new
        · exact .inl before
        · exact .inr (congrArg some new.symm)
      · exact .inl (occurs_of_root old inside)
  scopes := by
    intro id member
    rcases List.mem_cons.mp member with same | old
    · cases same
    · exact .inl (.held old rfl)
  enclosing := fun other scope parent found same => .inl ⟨scope, found, same⟩
  fields := fun id fields found => .inl ⟨fields, found⟩
  stored := by
    rintro id (old | ⟨type, ⟨⟩⟩)
    · exact old
    · cases fixed
  number := by
    rintro object ⟨⟩
    exact ⟨number, Nat.lt_succ_self _⟩
  lasting := by
    rintro object ⟨⟩ older edge
    cases fresh with
    | scope id => cases fixed
    | closure _ | «class» _ | «instance» _ _ => exact lasting older edge
  le := Nat.le_succ _

theorem Adds.newInstance {type : Class}
    (occurs : .class type ∈ s.objects roots) :
    s.Adds s.newInstance.2 roots (.value (.instance s.newInstance.1 type) :: roots)
      (some (.instance s.newInstance.1 type)) where
  objects := by
    intro object occurs
    rcases mem_objects_iff.mp occurs with ⟨other, scope, found, place⟩ |
      ⟨other, fields, found, inside⟩ | ⟨root, member, inside⟩
    · exact .inl (mem_objects_iff.mpr (.inl ⟨other, scope, found, place⟩))
    · rw [fields?_newInstance] at found
      split at found
      · cases found
        cases inside
      · exact .inl (occurs_of_field found inside)
    · rcases List.mem_cons.mp member with rfl | old
      · rcases List.mem_cons.mp inside with rfl | part
        · exact .inr rfl
        · exact .inl (parts_occur ‹_› part)
      · exact .inl (occurs_of_root old inside)
  scopes := by
    intro id member
    rcases List.mem_cons.mp member with same | old
    · cases same
    · exact .inl (.held old rfl)
  enclosing := fun other scope parent found same => .inl ⟨scope, found, same⟩
  fields := by
    intro id fields found
    rw [fields?_newInstance] at found
    split at found
    · rename_i new
      refine .inr ⟨type, ?_⟩
      rw [← InstanceId.index_inj.mp (show s.newInstance.1.index = id.index from new.symm)]
    · exact .inl ⟨fields, found⟩
  stored := by
    rintro id (⟨fields, found⟩ | ⟨other, same⟩)
    · rw [fields?_newInstance]
      split
      · exact ⟨[], rfl⟩
      · exact ⟨fields, found⟩
    · cases same
      exact ⟨[], by rw [fields?_newInstance]; exact if_pos rfl⟩
  number := by
    rintro object ⟨⟩
    exact ⟨rfl, Nat.lt_succ_self _⟩
  lasting := by
    rintro object ⟨⟩ older edge
    cases List.mem_singleton.mp edge
    exact .occurs occurs
  le := Nat.le_succ _

theorem Adds.newClosure {id : ScopeId} (declaration : FunctionDecl) (isInitializer : Bool)
    (around : s.Mentions roots (.scope id)) :
    s.Adds s.newIdentity.2 roots
      (.value (.closure ⟨s.newIdentity.1, declaration, id, isInitializer⟩) :: roots)
      (some (.closure ⟨s.newIdentity.1, declaration, id, isInitializer⟩)) := by
  refine .newIdentity _ _ rfl (fun object member => .inr (List.mem_singleton.mp member)) rfl ?_
  intro older edge
  cases List.mem_singleton.mp edge
  exact around

theorem Adds.newClass (name : String) {superclass? : Option Class}
    {methods : List (String × Closure)}
    (inherited : ∀ superclass, superclass? = some superclass → .class superclass ∈ s.objects roots)
    (declared : ∀ method ∈ methods, .closure method.2 ∈ s.objects roots) :
    s.Adds s.newIdentity.2 roots
      (.value (.class (.mk s.newIdentity.1 name superclass? methods)) :: roots)
      (some (.class (.mk s.newIdentity.1 name superclass? methods))) := by
  refine .newIdentity _ _ rfl ?_ rfl ?_
  · intro object member
    rcases Class.mem_objects_iff.mp member with rfl | ⟨method, inside, rfl⟩ |
      ⟨superclass, above, deeper⟩
    · exact .inr rfl
    · exact .inl (declared method inside)
    · exact .inl (parts_occur (inherited superclass above) deeper)
  · intro older edge
    rcases List.mem_append.mp edge with up | inside
    · obtain ⟨superclass, above, rfl⟩ := List.mem_map.mp up
      exact .occurs (inherited superclass (Option.mem_toList.mp above))
    · obtain ⟨method, member, rfl⟩ := List.mem_map.mp inside
      exact .occurs (declared method member)

theorem Adds.thisScope {method : Closure} {id : InstanceId} {type : Class}
    (around : s.Mentions roots (.scope method.scope))
    (occurs : .instance id type ∈ s.objects roots) :
    s.Adds (s.newScope (some method.scope) [("this", .instance id type)]).2 roots
      (.scope ⟨s.next⟩ :: roots) (some (.scope ⟨s.next⟩)) := by
  refine .newScope _ _ (fun parent same => by cases same; exact around) ?_
  intro object member
  obtain ⟨entry, inside, part⟩ := Bindings.mem_objects_iff.mp member
  cases List.mem_singleton.mp inside
  rcases List.mem_cons.mp part with rfl | deeper
  · exact occurs
  · exact parts_occur (class_occurs occurs) deeper

theorem Adds.forget {root other : Root} :
    s.Adds s (root :: other :: roots) (root :: roots) none := by
  have kept : ∀ each ∈ root :: roots, each ∈ root :: other :: roots := by
    intro each member
    rcases List.mem_cons.mp member with rfl | old
    · exact List.mem_cons_self
    · exact List.mem_cons_of_mem _ (List.mem_cons_of_mem _ old)
  exact .hold (fun each member object inside => occurs_of_root (kept each member) inside)
    fun id member => .held (kept _ member) rfl

theorem Sound.close (sound : s.Sound roots) {id : ScopeId} (declaration : FunctionDecl)
    (isInitializer : Bool) (around : s.Mentions roots (.scope id)) :
    (s.close id declaration isInitializer).2.Sound
      (.value (.closure (s.close id declaration isInitializer).1) :: roots) :=
  (sound.step (.newClosure declaration isInitializer around)).step (.capture id)

theorem Sound.bind (sound : s.Sound roots) {method : Closure} {id : InstanceId} {type : Class}
    (around : s.Mentions roots (.scope method.scope))
    (occurs : .instance id type ∈ s.objects roots) :
    (s.bind method id type).2.Sound (.value (.closure (s.bind method id type).1) :: roots) := by
  have inner := sound.step (.thisScope around occurs)
  have bound := inner.step (.newClosure method.declaration method.isInitializer
    (.held List.mem_cons_self rfl))
  exact (bound.step .forget).step (.capture _)

theorem Sound.empty : Store.empty.Sound [] := by
  have nothing : ∀ object, ¬ Store.empty.Mentions [] object := by
    have absent : ∀ object, object ∉ Store.empty.objects [] := by simp [objects, Store.empty]
    rintro object (occurs | ⟨root, member, _⟩ | ⟨holder, occurs, _⟩)
    · exact absent _ occurs
    · cases member
    · exact absent _ occurs
  have bare : ∀ id, Store.empty.fields? id = none := by simp [Store.empty, fields?]
  refine ⟨?unique, ?aged, ?bounded, ?fields_lt, ?owner, ?stored⟩
  case unique =>
    exact fun object _ mentioned => absurd mentioned (nothing object)
  case aged =>
    exact fun object occurs => absurd (.occurs occurs) (nothing object)
  case bounded =>
    exact fun object mentioned => absurd mentioned (nothing object)
  case fields_lt =>
    exact fun id fields found => by simp [bare] at found
  case owner =>
    exact fun id fields found => by simp [bare] at found
  case stored =>
    exact fun id type occurs => absurd (.occurs occurs) (nothing _)

end Store
end Lox
