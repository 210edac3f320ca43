import Lox.Store.Basic

namespace Lox

theorem ScopeId.index_inj {a b : ScopeId} : a.index = b.index ↔ a = b := by
  cases a
  cases b
  simp

theorem InstanceId.index_inj {a b : InstanceId} : a.index = b.index ↔ a = b := by
  cases a
  cases b
  simp

namespace Store

variable (s : Store)

section create

variable (enclosing? : Option ScopeId) (bindings : Bindings)

theorem scope?_newScope (id : ScopeId) :
    (s.newScope enclosing? bindings).2.scope? id =
      if id.index = s.next then some ⟨bindings, enclosing?, false⟩ else s.scope? id := by
  simp only [newScope, scope?, Std.TreeMap.getElem?_insert, Nat.compare_eq_eq, @eq_comm Nat s.next]

theorem scope?_newScope_self :
    (s.newScope enclosing? bindings).2.scope? (s.newScope enclosing? bindings).1 =
      some ⟨bindings, enclosing?, false⟩ := by
  rw [scope?_newScope]
  exact if_pos rfl

@[simp] theorem newScope_fst : (s.newScope enclosing? bindings).1 = ⟨s.next⟩ := rfl

@[simp] theorem fields?_newScope (id : InstanceId) :
    (s.newScope enclosing? bindings).2.fields? id = s.fields? id := rfl

@[simp] theorem next_newScope : (s.newScope enclosing? bindings).2.next = s.next + 1 := rfl

@[simp] theorem scope?_newIdentity (id : ScopeId) : s.newIdentity.2.scope? id = s.scope? id := rfl

@[simp] theorem fields?_newIdentity (id : InstanceId) : s.newIdentity.2.fields? id = s.fields? id :=
  rfl

@[simp] theorem next_newIdentity : s.newIdentity.2.next = s.next + 1 := rfl

@[simp] theorem newIdentity_fst : s.newIdentity.1 = s.next := rfl

@[simp] theorem scope?_newInstance (id : ScopeId) : s.newInstance.2.scope? id = s.scope? id := rfl

theorem fields?_newInstance (id : InstanceId) :
    s.newInstance.2.fields? id = if id.index = s.next then some [] else s.fields? id := by
  simp only [newInstance, fields?, Std.TreeMap.getElem?_insert, Nat.compare_eq_eq,
    @eq_comm Nat s.next]

@[simp] theorem next_newInstance : s.newInstance.2.next = s.next + 1 := rfl

@[simp] theorem newInstance_fst : s.newInstance.1 = ⟨s.next⟩ := rfl

end create

section change

variable (id : ScopeId) (name : String) (value : Value)

theorem scope?_define (other : ScopeId) :
    (s.define id name value).scope? other = (s.scope? other).map fun scope =>
      if other = id then { scope with bindings := Bindings.put name value scope.bindings }
      else scope := by
  simp only [define, scope?, Std.TreeMap.getElem?_modify, Nat.compare_eq_eq, ScopeId.index_inj]
  by_cases same : id = other
  · simp [same]
  · simp [same, Ne.symm same]

@[simp] theorem fields?_define (other : InstanceId) :
    (s.define id name value).fields? other = s.fields? other := rfl

@[simp] theorem next_define : (s.define id name value).next = s.next := rfl

@[simp] theorem scope?_setField (instanceId : InstanceId) (other : ScopeId) :
    (s.setField instanceId name value).scope? other = s.scope? other := rfl

theorem fields?_setField (instanceId other : InstanceId) :
    (s.setField instanceId name value).fields? other = (s.fields? other).map fun fields =>
      if other = instanceId then Bindings.put name value fields else fields := by
  simp only [setField, fields?, Std.TreeMap.getElem?_modify, Nat.compare_eq_eq,
    InstanceId.index_inj]
  by_cases same : instanceId = other
  · simp [same]
  · simp [same, Ne.symm same]

@[simp] theorem next_setField (instanceId : InstanceId) :
    (s.setField instanceId name value).next = s.next := rfl

theorem scope?_free (other : ScopeId) :
    (s.free id).scope? other = if other = id then none else s.scope? other := by
  simp only [free, scope?, Std.TreeMap.getElem?_erase, Nat.compare_eq_eq, ScopeId.index_inj,
    @eq_comm ScopeId id]

theorem scope?_of_free {s : Store} {id other : ScopeId} {scope : Scope}
    (found : (s.free id).scope? other = some scope) : s.scope? other = some scope := by
  rw [scope?_free] at found
  split at found
  · cases found
  · exact found

@[simp] theorem fields?_free (other : InstanceId) : (s.free id).fields? other = s.fields? other :=
  rfl

@[simp] theorem next_free : (s.free id).next = s.next := rfl

end change

section outward

variable {s}

theorem outward?_eq_some {id parent : ScopeId} {older : parent.index < id.index}
    (found : s.outward? id = some ⟨parent, older⟩) :
    ∃ scope, s.scope? id = some scope ∧ scope.enclosing? = some parent := by
  unfold outward? at found
  split at found
  · cases found
  · rename_i outer around
    split at found
    · cases found
      exact Option.bind_eq_some_iff.mp around
    · cases found

theorem outward?_of_scope? {id parent : ScopeId} {scope : Scope} (found : s.scope? id = some scope)
    (around : scope.enclosing? = some parent) (older : parent.index < id.index) :
    s.outward? id = some ⟨parent, older⟩ := by
  unfold outward?
  rw [found]
  simp [around, older]

theorem outward?_eq_none {id : ScopeId} {scope : Scope} (found : s.scope? id = some scope)
    (outermost : scope.enclosing? = none) : s.outward? id = none := by
  unfold outward?
  rw [found]
  simp [outermost]

end outward

section capture

theorem scope?_mark (id other : ScopeId) (scope : Scope) :
    ({ s with scopes := s.scopes.insert id.index scope } : Store).scope? other =
      if other = id then some scope else s.scope? other := by
  simp only [scope?, Std.TreeMap.getElem?_insert, Nat.compare_eq_eq, ScopeId.index_inj,
    @eq_comm ScopeId id]

theorem scope?_capture (id other : ScopeId) :
    (s.capture id).scope? other = s.scope? other ∨
      ∃ scope, s.scope? other = some scope ∧
        (s.capture id).scope? other = some { scope with captured := true } := by
  fun_induction capture s id with
  | case1 s id absent => exact .inl rfl
  | case2 s id scope found captured => exact .inl rfl
  | case3 s id scope found fresh marked parent older around ih =>
    have here : marked.scope? other = _ := s.scope?_mark id other { scope with captured := true }
    by_cases same : other = id
    · rw [if_pos same] at here
      refine .inr ⟨scope, same ▸ found, ?_⟩
      rcases ih with kept | ⟨before, atOther, after⟩
      · exact kept.trans here
      · rw [here] at atOther
        cases atOther
        exact after
    · rw [if_neg same] at here
      rwa [here] at ih
  | case4 s id scope found fresh marked around =>
    rw [scope?_mark]
    by_cases same : other = id
    · exact .inr ⟨scope, same ▸ found, if_pos same⟩
    · exact .inl (if_neg same)

@[simp] theorem fields?_capture (id : ScopeId) (other : InstanceId) :
    (s.capture id).fields? other = s.fields? other := by
  fun_induction capture s id with
  | case1 | case2 | case4 => rfl
  | case3 s id scope found fresh marked parent older around ih => exact ih

@[simp] theorem next_capture (id : ScopeId) : (s.capture id).next = s.next := by
  fun_induction capture s id with
  | case1 | case2 | case4 => rfl
  | case3 s id scope found fresh marked parent older around ih => exact ih

end capture

end Store
end Lox
