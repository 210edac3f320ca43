import Lox.Store.Collect

namespace Lox

def Object.node? : Object → Option Node
  | scope id => some (.scope id)
  | .instance id _ => some (.instance id)
  | closure _ | .class _ => none

theorem Class.mem_objects (type : Class) : .class type ∈ type.objects := by
  unfold objects
  split <;> exact List.mem_cons_self

theorem Value.object_mem {v : Value} {object : Object} (found : v.object? = some object) :
    object ∈ v.objects := by
  cases v with
  | closure function => cases found; exact List.mem_singleton_self _
  | «class» type => cases found; exact type.mem_objects
  | «instance» id type => cases found; exact List.mem_cons_self
  | nil | bool _ | number _ | string _ | native _ => cases found

theorem Root.object_mem {v : Value} {object : Object} (found : v.object? = some object) :
    object ∈ (Root.value v).objects := Value.object_mem found

namespace Class

theorem mem_objects_iff {type : Class} {object : Object} :
    object ∈ type.objects ↔ object = .class type ∨
      (∃ method ∈ type.methods, object = .closure method.2) ∨
      ∃ superclass, type.superclass? = some superclass ∧ object ∈ superclass.objects := by
  cases type with
  | mk identity name superclass? methods =>
    cases superclass? <;>
      simp [objects, Class.methods, Class.superclass?, eq_comm]

/-- What holds of a class, and of what a class of the chain refers to, holds of all its parts. -/
theorem objects_induction {P : Object → Prop} (s : Store) (type : Class) (start : P (.class type))
    (step : ∀ part ∈ type.objects, P part → ∀ object ∈ part.lasting s, object ∈ type.objects →
      P object) : ∀ object ∈ type.objects, P object := by
  intro object member
  match type with
  | mk identity name none methods =>
    rcases mem_objects_iff.mp member with rfl | ⟨method, inside, rfl⟩ | ⟨_, above, _⟩
    · exact start
    · exact step _ (mem_objects _) start _
        (List.mem_append.mpr (.inr (List.mem_map.mpr ⟨method, inside, rfl⟩))) member
    · cases above
  | mk identity name (some superclass) methods =>
    rcases mem_objects_iff.mp member with rfl | ⟨method, inside, rfl⟩ | ⟨above, same, deeper⟩
    · exact start
    · exact step _ (mem_objects _) start _
        (List.mem_append.mpr (.inr (List.mem_map.mpr ⟨method, inside, rfl⟩))) member
    · cases same
      have widen : ∀ part ∈ superclass.objects,
          part ∈ (mk identity name (some superclass) methods).objects :=
        fun part within => mem_objects_iff.mpr (.inr (.inr ⟨superclass, rfl, within⟩))
      have parent : P (.class superclass) :=
        step _ (mem_objects _) start _ (List.mem_append.mpr (.inl (by simp [Class.superclass?])))
          (widen _ superclass.mem_objects)
      exact objects_induction s superclass parent
        (fun part within holds next edge nextWithin =>
          step part (widen part within) holds next edge (widen next nextWithin)) object deeper

theorem lasting_mem {type : Class} {part object : Object} {s : Store} (member : part ∈ type.objects)
    (edge : object ∈ part.lasting s) :
    object ∈ type.objects ∨ ∃ function, part = .closure function ∧ object = .scope function.scope := by
  match type with
  | mk identity name superclass? methods =>
    rcases mem_objects_iff.mp member with rfl | ⟨method, inside, rfl⟩ | ⟨above, same, deeper⟩
    · simp only [Object.lasting, Class.superclass?, Class.methods, List.mem_append, List.mem_map,
        Option.mem_toList] at edge
      rcases edge with ⟨above, same, rfl⟩ | ⟨method, inside, rfl⟩
      · exact .inl (mem_objects_iff.mpr (.inr (.inr ⟨above, same, above.mem_objects⟩)))
      · exact .inl (mem_objects_iff.mpr (.inr (.inl ⟨method, inside, rfl⟩)))
    · simp only [Object.lasting, List.mem_singleton] at edge
      exact .inr ⟨method.2, rfl, edge⟩
    · cases same
      rcases lasting_mem deeper edge with within | captured
      · exact .inl (mem_objects_iff.mpr (.inr (.inr ⟨above, rfl, within⟩)))
      · exact .inr captured

end Class

theorem Class.scope_not_mem (type : Class) (id : ScopeId) : .scope id ∉ type.objects := by
  intro member
  match type with
  | mk identity name superclass? methods =>
    rcases mem_objects_iff.mp member with same | ⟨_, _, same⟩ | ⟨above, same, deeper⟩
    · cases same
    · cases same
    · cases same
      exact scope_not_mem above id deeper

theorem Value.scope_not_mem (v : Value) (id : ScopeId) : .scope id ∉ v.objects := by
  cases v with
  | «class» type => exact type.scope_not_mem id
  | «instance» _ type => simpa [Value.objects] using type.scope_not_mem id
  | closure _ | nil | bool _ | number _ | string _ | native _ => simp [Value.objects]

theorem Root.scope_not_mem (root : Root) (id : ScopeId) : .scope id ∉ root.objects := by
  cases root with
  | scope _ => simp [Root.objects]
  | value v => exact v.scope_not_mem id

theorem Class.parts_subset {type outer : Class} {object : Object}
    (inside : .class type ∈ outer.objects) (part : object ∈ type.objects) :
    object ∈ outer.objects := by
  match outer with
  | mk identity name superclass? methods =>
    rcases mem_objects_iff.mp inside with same | ⟨_, _, same⟩ | ⟨above, same, deeper⟩
    · cases same
      exact part
    · cases same
    · cases same
      exact mem_objects_iff.mpr (.inr (.inr ⟨above, rfl, parts_subset deeper part⟩))

theorem Class.instance_not_mem (type : Class) (id : InstanceId) (other : Class) :
    .instance id other ∉ type.objects := by
  intro member
  match type with
  | mk identity name superclass? methods =>
    rcases mem_objects_iff.mp member with same | ⟨_, _, same⟩ | ⟨above, same, deeper⟩
    · cases same
    · cases same
    · cases same
      exact instance_not_mem above id other deeper

theorem Value.parts_occur {v : Value} {type : Class} {object : Object}
    (inside : .class type ∈ v.objects) (part : object ∈ type.objects) : object ∈ v.objects := by
  cases v with
  | «class» outer => exact Class.parts_subset inside part
  | «instance» id outer =>
    rcases List.mem_cons.mp inside with same | deeper
    · cases same
    · exact List.mem_cons_of_mem _ (Class.parts_subset deeper part)
  | closure _ | nil | bool _ | number _ | string _ | native _ => simp [Value.objects] at inside

theorem Value.instance_mem {v : Value} {id : InstanceId} {type : Class}
    (inside : .instance id type ∈ v.objects) : v = .instance id type := by
  cases v with
  | «class» outer => exact absurd inside (outer.instance_not_mem id type)
  | «instance» other outer =>
    rcases List.mem_cons.mp inside with same | deeper
    · cases same
      rfl
    · exact absurd deeper (outer.instance_not_mem id type)
  | closure _ | nil | bool _ | number _ | string _ | native _ => simp [Value.objects] at inside

theorem Value.class_occurs {v : Value} {id : InstanceId} {type : Class}
    (inside : .instance id type ∈ v.objects) : .class type ∈ v.objects := by
  rw [Value.instance_mem inside]
  exact List.mem_cons_of_mem _ type.mem_objects

theorem Root.parts_occur {root : Root} {type : Class} {object : Object}
    (inside : .class type ∈ root.objects) (part : object ∈ type.objects) :
    object ∈ root.objects := by
  cases root with
  | scope _ => simp [Root.objects] at inside
  | value v => exact Value.parts_occur inside part

theorem Root.class_occurs {root : Root} {id : InstanceId} {type : Class}
    (inside : .instance id type ∈ root.objects) : .class type ∈ root.objects := by
  cases root with
  | scope _ => simp [Root.objects] at inside
  | value v => exact Value.class_occurs inside

namespace Bindings

theorem scope_not_mem {bindings : Bindings} (id : ScopeId) : .scope id ∉ bindings.objects := by
  simpa [objects] using fun _ entry _ => entry.scope_not_mem id

theorem mem_bound_iff {bindings : Bindings} {object : Object} :
    object ∈ bindings.bound ↔ ∃ entry ∈ bindings, entry.2.object? = some object := by
  simp [bound]

theorem mem_objects_iff {bindings : Bindings} {object : Object} :
    object ∈ bindings.objects ↔ ∃ entry ∈ bindings, object ∈ entry.2.objects := by
  simp [objects]

theorem parts_occur {bindings : Bindings} {type : Class} {object : Object}
    (inside : .class type ∈ bindings.objects) (part : object ∈ type.objects) :
    object ∈ bindings.objects := by
  obtain ⟨entry, member, within⟩ := mem_objects_iff.mp inside
  exact mem_objects_iff.mpr ⟨entry, member, Value.parts_occur within part⟩

theorem class_occurs {bindings : Bindings} {id : InstanceId} {type : Class}
    (inside : .instance id type ∈ bindings.objects) : .class type ∈ bindings.objects := by
  obtain ⟨entry, member, within⟩ := mem_objects_iff.mp inside
  exact mem_objects_iff.mpr ⟨entry, member, Value.class_occurs within⟩

theorem bound_subset {bindings : Bindings} {object : Object} (member : object ∈ bindings.bound) :
    object ∈ bindings.objects := by
  obtain ⟨entry, inside, found⟩ := mem_bound_iff.mp member
  exact mem_objects_iff.mpr ⟨entry, inside, Value.object_mem found⟩

end Bindings

namespace Store

theorem mem_objects_iff {s : Store} {roots : List Root} {object : Object} :
    object ∈ s.objects roots ↔
      (∃ id scope, s.scope? id = some scope ∧
        (object = .scope id ∨ object ∈ Bindings.objects scope.bindings)) ∨
      (∃ id fields, s.fields? id = some fields ∧ object ∈ Bindings.objects fields) ∨
      ∃ root ∈ roots, object ∈ root.objects := by
  simp only [objects, List.mem_append, List.mem_flatMap, List.mem_cons, Prod.exists,
    Std.TreeMap.mem_toList_iff_getElem?_eq_some, scope?, fields?, or_assoc]
  constructor
  · rintro (⟨key, scope, present, member⟩ | ⟨key, fields, present, member⟩ | held)
    · exact .inl ⟨⟨key⟩, scope, present, member⟩
    · exact .inr (.inl ⟨⟨key⟩, fields, present, member⟩)
    · exact .inr (.inr held)
  · rintro (⟨id, scope, present, member⟩ | ⟨id, fields, present, member⟩ | held)
    · exact .inl ⟨id.index, scope, present, member⟩
    · exact .inr (.inl ⟨id.index, fields, present, member⟩)
    · exact .inr (.inr held)

theorem holds_scope {s : Store} {id : ScopeId} {scope : Scope} (found : s.scope? id = some scope) :
    s.holds (.scope id) = true := by
  rw [holds, Std.TreeMap.contains_eq_isSome_getElem?]
  exact Option.isSome_iff_exists.mpr ⟨scope, found⟩

theorem scope_of_holds {s : Store} {id : ScopeId} (held : s.holds (.scope id) = true) :
    ∃ scope, s.scope? id = some scope := by
  rw [holds, Std.TreeMap.contains_eq_isSome_getElem?] at held
  exact Option.isSome_iff_exists.mp held

theorem holds_instance {s : Store} {id : InstanceId} {fields : Bindings}
    (found : s.fields? id = some fields) :
    s.holds (.instance id) = true := by
  rw [holds, Std.TreeMap.contains_eq_isSome_getElem?]
  exact Option.isSome_iff_exists.mpr ⟨fields, found⟩

theorem scope_mem_objects_iff {s : Store} {roots : List Root} {id : ScopeId} :
    .scope id ∈ s.objects roots ↔ ∃ scope, s.scope? id = some scope := by
  constructor
  · intro member
    rcases mem_objects_iff.mp member with ⟨other, scope, present, same | inside⟩ | ⟨_, _, _, inside⟩ |
      ⟨root, _, inside⟩
    · cases same
      exact ⟨scope, present⟩
    · exact absurd inside (Bindings.scope_not_mem id)
    · exact absurd inside (Bindings.scope_not_mem id)
    · exact absurd inside (root.scope_not_mem id)
  · rintro ⟨scope, present⟩
    exact mem_objects_iff.mpr (.inl ⟨id, scope, present, .inl rfl⟩)

theorem parts_occur {s : Store} {roots : List Root} {type : Class} {object : Object}
    (occurs : .class type ∈ s.objects roots) (part : object ∈ type.objects) :
    object ∈ s.objects roots := by
  rcases mem_objects_iff.mp occurs with ⟨id, scope, present, same | inside⟩ |
    ⟨id, fields, present, inside⟩ | ⟨root, member, inside⟩
  · cases same
  · exact mem_objects_iff.mpr (.inl ⟨id, scope, present, .inr (Bindings.parts_occur inside part)⟩)
  · exact mem_objects_iff.mpr (.inr (.inl ⟨id, fields, present, Bindings.parts_occur inside part⟩))
  · exact mem_objects_iff.mpr (.inr (.inr ⟨root, member, root.parts_occur inside part⟩))

theorem class_occurs {s : Store} {roots : List Root} {id : InstanceId} {type : Class}
    (occurs : .instance id type ∈ s.objects roots) : .class type ∈ s.objects roots := by
  rcases mem_objects_iff.mp occurs with ⟨other, scope, present, same | inside⟩ |
    ⟨other, fields, present, inside⟩ | ⟨root, member, inside⟩
  · cases same
  · exact mem_objects_iff.mpr (.inl ⟨other, scope, present, .inr (Bindings.class_occurs inside)⟩)
  · exact mem_objects_iff.mpr (.inr (.inl ⟨other, fields, present, Bindings.class_occurs inside⟩))
  · exact mem_objects_iff.mpr (.inr (.inr ⟨root, member, root.class_occurs inside⟩))

theorem value_occurs {s : Store} {roots : List Root} {v : Value}
    (occurs : ∀ object, v.object? = some object → object ∈ s.objects roots) :
    ∀ object ∈ v.objects, object ∈ s.objects roots := by
  intro object member
  cases v with
  | closure function =>
    cases List.mem_singleton.mp member
    exact occurs _ rfl
  | «class» type => exact parts_occur (occurs (.class type) rfl) member
  | «instance» id type =>
    rcases List.mem_cons.mp member with rfl | part
    · exact occurs _ rfl
    · exact parts_occur (class_occurs (occurs (.instance id type) rfl)) part
  | nil | bool _ | number _ | string _ | native _ => cases member

/-- What an object refers to from bindings or fields occurs, whether the object does or not. -/
theorem loose_occurs {s : Store} {roots : List Root} {holder object : Object}
    (edge : object ∈ holder.loose s) : object ∈ s.objects roots := by
  cases holder with
  | scope id =>
    cases found : s.scope? id with
    | none => simp [Object.loose, found, Bindings.bound] at edge
    | some scope =>
      have bound : object ∈ Bindings.bound scope.bindings := by simpa [Object.loose, found] using edge
      exact mem_objects_iff.mpr (.inl ⟨id, scope, found, .inr (Bindings.bound_subset bound)⟩)
  | «instance» id type =>
    cases found : s.fields? id with
    | none => simp [Object.loose, found, Bindings.bound] at edge
    | some fields =>
      have bound : object ∈ Bindings.bound fields := by simpa [Object.loose, found] using edge
      exact mem_objects_iff.mpr (.inr (.inl ⟨id, fields, found, Bindings.bound_subset bound⟩))
  | closure _ | «class» _ => cases edge

theorem lasting_occurs {s : Store} {roots : List Root} {holder object : Object}
    (occurs : holder ∈ s.objects roots) (edge : object ∈ holder.lasting s)
    (noScope : ∀ id, object ≠ .scope id) : object ∈ s.objects roots := by
  cases holder with
  | scope id =>
    obtain ⟨outer, _, rfl⟩ := List.mem_map.mp edge
    exact absurd rfl (noScope outer)
  | closure function => exact absurd (List.mem_singleton.mp edge) (noScope _)
  | «class» type =>
    rcases Class.lasting_mem type.mem_objects edge with within | ⟨function, same, rfl⟩
    · exact parts_occur occurs within
    · cases same
  | «instance» id type =>
    cases List.mem_singleton.mp edge
    exact class_occurs occurs

/-- An object that occurs, is held from outside, or is referred to. Scopes that are gone may still be
    referred to. -/
def Mentions (s : Store) (roots : List Root) (object : Object) : Prop :=
  object ∈ s.objects roots ∨ (∃ root ∈ roots, root.object? = some object) ∨
    ∃ holder ∈ s.objects roots, object ∈ holder.lasting s ∨ object ∈ holder.loose s

end Store
end Lox
