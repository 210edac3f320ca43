import Lox.Proofs.Store.Lookup

namespace Lox

theorem lookup_entry {α : Type} (key other : String) (value : α) (rest : List (String × α)) :
    ((key, value) :: rest).lookup other = if other = key then some value else rest.lookup other := by
  rw [List.lookup_cons]
  by_cases same : other = key
  · simp [same]
  · rw [if_neg same, beq_false_of_ne same]

theorem mem_of_lookup {α : Type} {entries : List (String × α)} {name : String} {value : α}
    (found : entries.lookup name = some value) : (name, value) ∈ entries := by
  induction entries with
  | nil => cases found
  | cons entry rest ih =>
    obtain ⟨key, first⟩ := entry
    rw [lookup_entry] at found
    split at found
    · rename_i same
      cases found
      exact same ▸ List.mem_cons_self
    · exact List.mem_cons_of_mem _ (ih found)

theorem Bindings.lookup_put (name other : String) (value : Value) (bindings : Bindings) :
    (Bindings.put name value bindings).lookup other =
      if other = name then some value else bindings.lookup other := by
  induction bindings with
  | nil => rw [Bindings.put, lookup_entry]
  | cons entry rest ih =>
    obtain ⟨key, old⟩ := entry
    rw [Bindings.put]
    split
    · rename_i present
      subst present
      rw [lookup_entry, lookup_entry]
      split <;> rfl
    · rename_i absent
      rw [lookup_entry, lookup_entry, ih]
      by_cases same : other = key
      · subst same
        rw [if_pos rfl, if_neg absent, if_pos rfl]
      · rw [if_neg same, if_neg same]

namespace Scope

def Binds (scope : Scope) (name : String) : Prop :=
  ∃ value, scope.bindings.lookup name = some value

/-- One scope at two times. -/
structure Grows (before after : Scope) : Prop where
  enclosing : after.enclosing? = before.enclosing?
  captured : before.captured = true → after.captured = true
  binds : ∀ name, before.Binds name → after.Binds name

theorem Grows.refl (scope : Scope) : scope.Grows scope := ⟨rfl, id, fun _ bound => bound⟩

theorem Grows.trans {a b c : Scope} (first : a.Grows b) (second : b.Grows c) : a.Grows c :=
  ⟨second.enclosing.trans first.enclosing, fun marked => second.captured (first.captured marked),
    fun name bound => second.binds name (first.binds name bound)⟩

theorem Grows.put (scope : Scope) (name : String) (value : Value) :
    scope.Grows { scope with bindings := Bindings.put name value scope.bindings } := by
  refine ⟨rfl, id, ?_⟩
  rintro other ⟨old, found⟩
  unfold Binds
  rw [Bindings.lookup_put]
  split
  · exact ⟨value, rfl⟩
  · exact ⟨old, found⟩

theorem binds_put {scope : Scope} {name other : String} {value : Value} :
    ({ scope with bindings := Bindings.put name value scope.bindings } : Scope).Binds other ↔
      other = name ∨ scope.Binds other := by
  unfold Binds
  rw [Bindings.lookup_put]
  by_cases same : other = name <;> simp [same]

theorem Grows.mark (scope : Scope) : scope.Grows { scope with captured := true } :=
  ⟨rfl, fun _ => rfl, fun _ bound => bound⟩

end Scope

namespace Store

def Extends (s s' : Store) : Prop :=
  ∀ id before, s.scope? id = some before → ∃ after, s'.scope? id = some after ∧ before.Grows after

theorem Extends.refl (s : Store) : s.Extends s := fun _ before found => ⟨before, found, .refl before⟩

theorem Extends.trans {a b c : Store} (first : a.Extends b) (second : b.Extends c) :
    a.Extends c := by
  intro id before found
  obtain ⟨middle, atMiddle, grows⟩ := first id before found
  obtain ⟨after, atAfter, more⟩ := second id middle atMiddle
  exact ⟨after, atAfter, grows.trans more⟩

/-- Of the scopes that existed before, those that are left have grown, and only some have new
    names. -/
structure Since (s s' : Store) (changing : ScopeId → Prop) : Prop where
  le : s.next ≤ s'.next
  scopes : ∀ id after, id.index < s.next → s'.scope? id = some after →
    ∃ before, s.scope? id = some before ∧ before.Grows after ∧
      ∀ name, after.Binds name → before.Binds name ∨ changing id

theorem Since.refl (s : Store) (changing : ScopeId → Prop) : s.Since s changing :=
  ⟨Nat.le_refl _, fun _ after _ found => ⟨after, found, .refl after, fun _ bound => .inl bound⟩⟩

theorem Since.trans {a b c : Store} {changing : ScopeId → Prop} (first : a.Since b changing)
    (second : b.Since c changing) : a.Since c changing := by
  refine ⟨Nat.le_trans first.le second.le, fun id after older found => ?_⟩
  obtain ⟨middle, atMiddle, more, names⟩ :=
    second.scopes id after (Nat.lt_of_lt_of_le older first.le) found
  obtain ⟨before, atBefore, grows, named⟩ := first.scopes id middle older atMiddle
  refine ⟨before, atBefore, grows.trans more, fun name bound => ?_⟩
  rcases names name bound with old | new
  · exact named name old
  · exact .inr new

theorem Since.mono {s s' : Store} {changing changing' : ScopeId → Prop}
    (since : s.Since s' changing)
    (weaker : ∀ id, id.index < s.next → changing id → changing' id) : s.Since s' changing' := by
  refine ⟨since.le, fun id after older found => ?_⟩
  obtain ⟨before, atBefore, grows, names⟩ := since.scopes id after older found
  exact ⟨before, atBefore, grows, fun name bound => (names name bound).imp_right (weaker id older)⟩

def Captured (s : Store) (id : ScopeId) : Prop :=
  ∃ scope, s.scope? id = some scope ∧ scope.captured = true

theorem Captured.extend {s s' : Store} {id : ScopeId} (captured : s.Captured id)
    (extend : s.Extends s') : s'.Captured id := by
  obtain ⟨scope, found, marked⟩ := captured
  obtain ⟨after, atAfter, grows⟩ := extend id scope found
  exact ⟨after, atAfter, grows.captured marked⟩

inductive Stands (s : Store) : ScopeId → Prop where
  | intro {id : ScopeId} {scope : Scope} (found : s.scope? id = some scope)
      (around : ∀ parent, scope.enclosing? = some parent → Stands s parent) : Stands s id

theorem Stands.exists {s : Store} {id : ScopeId} (stands : s.Stands id) :
    ∃ scope, s.scope? id = some scope ∧
      ∀ parent, scope.enclosing? = some parent → s.Stands parent := by
  obtain ⟨found, around⟩ := stands
  exact ⟨_, found, around⟩

theorem Stands.extend {s s' : Store} {id : ScopeId} (stands : s.Stands id)
    (extend : s.Extends s') : s'.Stands id := by
  induction stands with
  | intro found _ ih =>
    obtain ⟨after, atAfter, grows⟩ := extend _ _ found
    exact .intro atAfter fun parent around => ih parent (grows.enclosing ▸ around)

def Nested (s : Store) : Prop :=
  ∀ id scope parent, s.scope? id = some scope → scope.enclosing? = some parent →
    parent.index < id.index

/-- What encloses a captured scope is captured. -/
def CaptureClosed (s : Store) : Prop :=
  ∀ id scope parent, s.scope? id = some scope → scope.captured = true →
    scope.enclosing? = some parent → s.Captured parent

theorem CaptureClosed.stands {s : Store} (closed : s.CaptureClosed) (nested : s.Nested)
    {id : ScopeId} (captured : s.Captured id) : s.Stands id := by
  induction size : id.index using Nat.strongRecOn generalizing id with
  | _ size ih =>
    obtain ⟨scope, found, marked⟩ := captured
    refine .intro found fun parent around => ?_
    have older := nested id scope parent found around
    exact ih parent.index (size ▸ older) (closed id scope parent found marked around) rfl

theorem mark_extends {s : Store} {id : ScopeId} {scope : Scope} (found : s.scope? id = some scope) :
    s.Extends { s with scopes := s.scopes.insert id.index { scope with captured := true } } := by
  intro other before atOther
  rw [scope?_mark]
  by_cases same : other = id
  · subst same
    rw [found] at atOther
    cases atOther
    exact ⟨_, if_pos rfl, .mark scope⟩
  · exact ⟨before, by rw [if_neg same, atOther], .refl before⟩

theorem captured_mark (s : Store) (id : ScopeId) (scope : Scope) :
    ({ s with scopes := s.scopes.insert id.index { scope with captured := true } } : Store).Captured
      id :=
  ⟨_, (s.scope?_mark id id _).trans (if_pos rfl), rfl⟩

theorem mark_cases {s : Store} {id other : ScopeId} {scope after : Scope}
    (atOther : ({ s with scopes := s.scopes.insert id.index scope } : Store).scope? other =
      some after) : other = id ∧ after = scope ∨ s.scope? other = some after := by
  rw [scope?_mark] at atOther
  split at atOther
  · rename_i same
    exact .inl ⟨same, (Option.some.inj atOther).symm⟩
  · exact .inr atOther

theorem Nested.define {s : Store} (nested : s.Nested) (id : ScopeId) (name : String) (value : Value) :
    (s.define id name value).Nested := by
  intro other after parent found around
  rw [scope?_define] at found
  obtain ⟨before, atOther, rfl⟩ := Option.map_eq_some_iff.mp found
  refine nested other before parent atOther ?_
  split at around <;> exact around

theorem Nested.free {s : Store} (nested : s.Nested) (id : ScopeId) : (s.free id).Nested :=
  fun other scope parent found around => nested other scope parent (scope?_of_free found) around

theorem Nested.insert {s : Store} (nested : s.Nested) (id : ScopeId) {scope : Scope}
    (older : ∀ parent, scope.enclosing? = some parent → parent.index < id.index) :
    ({ s with scopes := s.scopes.insert id.index scope } : Store).Nested := by
  intro other after parent found around
  rcases mark_cases found with ⟨rfl, rfl⟩ | before
  · exact older parent around
  · exact nested other after parent before around

theorem extends_capture (s : Store) (id : ScopeId) : s.Extends (s.capture id) := by
  intro other before found
  rcases s.scope?_capture id other with kept | ⟨scope, atOther, marked⟩
  · exact ⟨before, kept.trans found, .refl before⟩
  · rw [found] at atOther
    cases atOther
    exact ⟨_, marked, .mark before⟩

/-- A capture marks the scope and all around it, as long as only scopes right inside the captured one
    may still lack a marked parent. -/
theorem capture_closed {s : Store} {id : ScopeId} (nested : s.Nested) (stands : s.Stands id)
    (closed : ∀ other scope parent, s.scope? other = some scope → scope.captured = true →
      scope.enclosing? = some parent → parent = id ∨ s.Captured parent) :
    (s.capture id).CaptureClosed ∧ (s.capture id).Captured id := by
  fun_induction capture s id with
  | case1 s id absent =>
    obtain ⟨scope, found, _⟩ := stands.exists
    rw [absent] at found
    cases found
  | case2 s id scope found captured =>
    have here : s.Captured id := ⟨scope, found, captured⟩
    refine ⟨fun other scope parent atOther marked around => ?_, here⟩
    rcases closed other scope parent atOther marked around with rfl | done
    · exact here
    · exact done
  | case3 s id scope found fresh marked parent older around ih =>
    have extend : s.Extends marked := mark_extends found
    obtain ⟨outer, atId, above⟩ := outward?_eq_some around
    rw [found] at atId
    cases atId
    have here : marked.Captured id := captured_mark s id scope
    have standing : marked.Stands parent := by
      obtain ⟨outer, atId, chain⟩ := stands.exists
      rw [found] at atId
      cases atId
      exact (chain parent above).extend extend
    have done := ih ?_ standing ?_
    · exact ⟨done.1, here.extend (extends_capture marked parent)⟩
    · intro other after outer atOther outside
      rcases mark_cases atOther with ⟨rfl, rfl⟩ | before
      · exact nested other scope outer found outside
      · exact nested other after outer before outside
    -- The mark that is new is the one whose parent is marked next.
    · intro other after outer atOther captured outside
      rcases mark_cases atOther with ⟨rfl, rfl⟩ | before
      · exact .inl (Option.some.inj (outside.symm.trans above))
      · rcases closed other after outer before captured outside with rfl | kept
        · exact .inr here
        · exact .inr (kept.extend extend)
  | case4 s id scope found fresh marked around =>
    have extend : s.Extends marked := mark_extends found
    have here : marked.Captured id := captured_mark s id scope
    refine ⟨fun other after outer atOther captured outside => ?_, here⟩
    rcases mark_cases atOther with ⟨rfl, rfl⟩ | before
    · rw [outward?_of_scope? found outside (nested other scope outer found outside)] at around
      cases around
    · rcases closed other after outer before captured outside with rfl | kept
      · exact here
      · exact kept.extend extend

section changes

variable {s : Store}

theorem extends_of_eq {s' : Store} (same : ∀ id, s'.scope? id = s.scope? id) : s.Extends s' :=
  fun id before found => ⟨before, (same id).trans found, .refl before⟩

theorem since_of_eq {s' : Store} {changing : ScopeId → Prop}
    (same : ∀ id, id.index < s.next → s'.scope? id = s.scope? id) (le : s.next ≤ s'.next) :
    s.Since s' changing :=
  ⟨le, fun id after older found =>
    ⟨after, (same id older).symm.trans found, .refl after, fun _ bound => .inl bound⟩⟩

def Numbered (s : Store) : Prop := ∀ id scope, s.scope? id = some scope → id.index < s.next

theorem Numbered.define (numbered : s.Numbered) (id : ScopeId) (name : String) (value : Value) :
    (s.define id name value).Numbered := by
  intro other after found
  rw [scope?_define] at found
  obtain ⟨before, atOther, _⟩ := Option.map_eq_some_iff.mp found
  exact numbered other before atOther

theorem Numbered.newScope (numbered : s.Numbered) (enclosing? : Option ScopeId)
    (bindings : Bindings) : (s.newScope enclosing? bindings).2.Numbered := by
  intro other after found
  rw [scope?_newScope] at found
  rw [next_newScope]
  split at found
  · omega
  · have := numbered other after found
    omega

theorem extends_newScope (numbered : s.Numbered) (enclosing? : Option ScopeId)
    (bindings : Bindings) : s.Extends (s.newScope enclosing? bindings).2 := by
  intro id before found
  refine ⟨before, ?_, .refl before⟩
  rw [scope?_newScope, if_neg (Nat.ne_of_lt (numbered id before found))]
  exact found

theorem since_newScope (enclosing? : Option ScopeId) (bindings : Bindings)
    (changing : ScopeId → Prop) : s.Since (s.newScope enclosing? bindings).2 changing :=
  since_of_eq (fun id older => by rw [scope?_newScope, if_neg (Nat.ne_of_lt older)])
    (Nat.le_succ _)

theorem extends_newIdentity (s : Store) : s.Extends s.newIdentity.2 := extends_of_eq fun _ => rfl

theorem extends_newInstance (s : Store) : s.Extends s.newInstance.2 := extends_of_eq fun _ => rfl

theorem extends_define (id : ScopeId) (name : String) (value : Value) :
    s.Extends (s.define id name value) := by
  intro other before found
  rw [scope?_define, found]
  refine ⟨_, rfl, ?_⟩
  split
  · exact .put before name value
  · exact .refl before

theorem since_define {changing : ScopeId → Prop} (id : ScopeId) (name : String) (value : Value)
    (allowed : changing id ∨ ∃ scope, s.scope? id = some scope ∧ scope.Binds name) :
    s.Since (s.define id name value) changing := by
  refine ⟨Nat.le_refl _, fun other after _ found => ?_⟩
  rw [scope?_define] at found
  obtain ⟨before, atOther, rfl⟩ := Option.map_eq_some_iff.mp found
  refine ⟨before, atOther, ?_⟩
  split
  · rename_i same
    subst same
    refine ⟨.put before name value, fun added bound => ?_⟩
    rcases Scope.binds_put.mp bound with rfl | old
    · rcases allowed with permitted | ⟨scope, here, known⟩
      · exact .inr permitted
      · rw [atOther] at here
        cases here
        exact .inl known
    · exact .inl old
  · exact ⟨.refl before, fun _ bound => .inl bound⟩

theorem since_capture (id : ScopeId) (changing : ScopeId → Prop) :
    s.Since (s.capture id) changing := by
  refine ⟨Nat.le_of_eq (s.next_capture id).symm, fun other after _ found => ?_⟩
  rcases s.scope?_capture id other with kept | ⟨before, atOther, marked⟩
  · exact ⟨after, kept ▸ found, .refl after, fun _ bound => .inl bound⟩
  · rw [marked] at found
    cases found
    exact ⟨before, atOther, .mark before, fun _ bound => .inl bound⟩

theorem since_free (id : ScopeId) (changing : ScopeId → Prop) : s.Since (s.free id) changing :=
  ⟨Nat.le_refl _, fun _ after _ found =>
    ⟨after, scope?_of_free found, .refl after, fun _ bound => .inl bound⟩⟩

theorem since_newIdentity (s : Store) (changing : ScopeId → Prop) :
    s.Since s.newIdentity.2 changing := since_of_eq (fun _ _ => rfl) (Nat.le_succ _)

theorem since_newInstance (s : Store) (changing : ScopeId → Prop) :
    s.Since s.newInstance.2 changing := since_of_eq (fun _ _ => rfl) (Nat.le_succ _)

theorem since_close (s : Store) (id : ScopeId) (declaration : FunctionDecl) (isInitializer : Bool)
    (changing : ScopeId → Prop) : s.Since (s.close id declaration isInitializer).2 changing :=
  (s.since_newIdentity changing).trans (since_capture id changing)

theorem extends_close (s : Store) (id : ScopeId) (declaration : FunctionDecl)
    (isInitializer : Bool) : s.Extends (s.close id declaration isInitializer).2 :=
  s.extends_newIdentity.trans (extends_capture _ id)

theorem since_bind (s : Store) (method : Closure) (id : InstanceId) (type : Class)
    (changing : ScopeId → Prop) : s.Since (s.bind method id type).2 changing :=
  ((since_newScope _ _ changing).trans (since_newIdentity _ changing)).trans
    (since_capture ⟨s.next⟩ changing)

end changes

section chain

variable {Layer : Type} (holds : Layer → ScopeId → (String → Prop) → Prop)

/-- The scopes from one outward to the globals, and what is known of each. -/
inductive Chain (s : Store) (globals : ScopeId) : ScopeId → List Layer → Prop where
  | globals : Chain s globals globals []
  | inner {id parent : ScopeId} {scope : Scope} {layer : Layer} {layers : List Layer}
      (found : s.scope? id = some scope) (around : scope.enclosing? = some parent)
      (known : holds layer id scope.Binds) (outer : Chain s globals parent layers) :
      Chain s globals id (layer :: layers)

variable {holds}

theorem Chain.split {s : Store} {globals id : ScopeId} {layer : Layer} {layers : List Layer}
    (chain : Chain holds s globals id (layer :: layers)) :
    ∃ parent scope, s.scope? id = some scope ∧ scope.enclosing? = some parent ∧
      holds layer id scope.Binds ∧ Chain holds s globals parent layers := by
  cases chain with
  | inner found around known outer => exact ⟨_, _, found, around, known, outer⟩

theorem Chain.at_globals {s : Store} {globals id : ScopeId}
    (chain : Chain holds s globals id ([] : List Layer)) : id = globals := by
  cases chain
  rfl

theorem Chain.extend {s s' : Store} {globals id : ScopeId} {layers : List Layer}
    (mono : ∀ layer id before after, (∀ name, before name → after name) →
      holds layer id before → holds layer id after)
    (chain : Chain holds s globals id layers) (extend : s.Extends s') :
    Chain holds s' globals id layers := by
  induction chain with
  | globals => exact .globals
  | inner found around known _ ih =>
    obtain ⟨after, atAfter, grows⟩ := extend _ _ found
    exact .inner atAfter (grows.enclosing.trans around) (mono _ _ _ _ grows.binds known) ih

end chain

end Store
end Lox
