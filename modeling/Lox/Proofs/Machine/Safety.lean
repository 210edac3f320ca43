import Lox.Proofs.Machine.Discipline
import Lox.Proofs.Store.Operations

namespace Lox

theorem Class.closure_mem_of_findMethod? {type : Class} {name : String} {method : Closure}
    (declared : type.findMethod? name = some method) : .closure method ∈ type.objects := by
  match type with
  | mk identity className none methods =>
    rw [Class.findMethod?] at declared
    exact mem_objects_iff.mpr (.inr (.inl ⟨_, mem_of_lookup declared, rfl⟩))
  | mk identity className (some superclass) methods =>
    rw [Class.findMethod?] at declared
    split at declared
    · rename_i own found
      cases declared
      exact mem_objects_iff.mpr (.inr (.inl ⟨_, mem_of_lookup found, rfl⟩))
    · exact mem_objects_iff.mpr
        (.inr (.inr ⟨superclass, rfl, closure_mem_of_findMethod? declared⟩))

namespace Store

def Carries (s : Store) (roots : List Root) (v : Value) : Prop :=
  (∃ id scope name, s.scope? id = some scope ∧ (name, v) ∈ scope.bindings) ∨
    (∃ id fields name, s.fields? id = some fields ∧ (name, v) ∈ fields) ∨ .value v ∈ roots

variable {s : Store} {roots roots' : List Root}

theorem Carries.occurs {v : Value} (carries : s.Carries roots v) :
    ∀ object ∈ v.objects, object ∈ s.objects roots := by
  intro object inside
  rcases carries with ⟨id, scope, name, found, member⟩ | ⟨id, fields, name, found, member⟩ | held
  · exact occurs_of_bound found (Bindings.mem_objects_iff.mpr ⟨_, member, inside⟩)
  · exact occurs_of_field found (Bindings.mem_objects_iff.mpr ⟨_, member, inside⟩)
  · exact occurs_of_root held inside

theorem mem_put {bindings : Bindings} {name key : String} {value v : Value}
    (member : (key, v) ∈ Bindings.put name value bindings) :
    (∃ key, (key, v) ∈ bindings) ∨ v = value := by
  induction bindings with
  | nil =>
    cases List.mem_singleton.mp member
    exact .inr rfl
  | cons entry rest ih =>
    obtain ⟨other, old⟩ := entry
    rw [Bindings.put] at member
    split at member
    · rcases List.mem_cons.mp member with same | later
      · cases same
        exact .inr rfl
      · exact .inl ⟨key, List.mem_cons_of_mem _ later⟩
    · rcases List.mem_cons.mp member with same | later
      · cases same
        exact .inl ⟨_, List.mem_cons_self⟩
      · rcases ih later with ⟨found, inside⟩ | new
        · exact .inl ⟨found, List.mem_cons_of_mem _ inside⟩
        · exact .inr new

end Store

namespace DisciplineData

variable (D : DisciplineData)

/-- A function closes over captured scopes with layers that it fits into. -/
def Closed (fits : Closure → List D.Layer → Prop) (s : Store) (function : Closure) : Prop :=
  s.Captured function.scope ∧
    ∃ layers, D.Chain s function.scope layers ∧ fits function layers

def Admits (s : Store) : Value → Prop
  | .closure function => D.Closed D.function s function
  | .class type | .instance _ type =>
    ∀ method, .closure method ∈ type.objects → D.Closed D.method s method
  | .nil | .bool _ | .number _ | .string _ | .native _ => True

structure Safe (s : Store) (roots : List Root) : Prop where
  sound : s.Sound roots
  closed : s.CaptureClosed
  stands : ∀ id, .scope id ∈ roots → s.Stands id
  admits : ∀ v, s.Carries roots v → D.Admits s v

end DisciplineData

namespace Discipline

variable {config : Config} (D : Discipline config) {s s' : Store} {roots roots' : List Root}

theorem chain_extend {id : ScopeId} {layers : List D.Layer} (chain : D.Chain s id layers)
    (extend : s.Extends s') : D.Chain s' id layers :=
  Store.Chain.extend D.holds_mono chain extend

theorem admits_extend {v : Value} (admits : D.Admits s v) (extend : s.Extends s') :
    D.Admits s' v := by
  have closed : ∀ {fits : Closure → List D.Layer → Prop} {function : Closure},
      D.Closed fits s function → D.Closed fits s' function := by
    rintro fits function ⟨captured, layers, chain, fit⟩
    exact ⟨captured.extend extend, layers, D.chain_extend chain extend, fit⟩
  cases v with
  | closure function => exact closed admits
  | «class» type | «instance» id type => exact fun method member => closed (admits method member)
  | nil | bool _ | number _ | string _ | native _ => trivial

theorem admits_atom {v : Value} (atom : v.objects = []) : D.Admits s v := by
  cases v with
  | closure function => simp [Value.objects] at atom
  | «class» type =>
    have member := type.mem_objects
    rw [show type.objects = [] from atom] at member
    cases member
  | «instance» id type => simp [Value.objects] at atom
  | nil | bool _ | number _ | string _ | native _ => trivial

end Discipline

namespace Store

variable {s : Store} {roots : List Root}

theorem Sound.nested (sound : s.Sound roots) : s.Nested := by
  intro id scope parent found around
  have occurs : .scope id ∈ s.objects roots := scope_mem_objects_iff.mpr ⟨scope, found⟩
  refine sound.aged _ occurs (.scope parent) (List.mem_map.mpr ⟨parent, ?_, rfl⟩)
  rw [found]
  exact Option.mem_toList.mpr around

theorem Sound.weaken (sound : s.Sound roots) {roots' : List Root} (fewer : roots' ⊆ roots) :
    s.Sound roots' :=
  sound.step (.hold (fun _ member _ inside => occurs_of_root (fewer member) inside)
    fun _ member => .held (fewer member) rfl)

theorem Sound.numbered (sound : s.Sound roots) : s.Numbered := fun id scope found =>
  sound.bounded (.scope id) (.occurs (scope_mem_objects_iff.mpr ⟨scope, found⟩))

theorem Stands.occurs {id : ScopeId} (stands : s.Stands id) : .scope id ∈ s.objects roots := by
  obtain ⟨scope, found, _⟩ := stands.exists
  exact scope_mem_objects_iff.mpr ⟨scope, found⟩

end Store

namespace DisciplineData

variable {config : Config} {D : Discipline config} {s s' : Store} {roots roots' : List Root}

/-- What is held may change, as long as it stands and is admitted. -/
theorem Safe.hold (safe : D.Safe s roots) (scopes : ∀ id, .scope id ∈ roots' → s.Stands id)
    (values : ∀ v, .value v ∈ roots' → s.Carries roots v ∨ v.objects = []) : D.Safe s roots' := by
  have carried : ∀ v, s.Carries roots' v → s.Carries roots v ∨ v.objects = [] := by
    rintro v (inScope | inFields | held)
    · exact .inl (.inl inScope)
    · exact .inl (.inr (.inl inFields))
    · exact values v held
  refine ⟨safe.sound.step (.hold ?_ ?_), safe.closed, scopes, fun v carries => ?_⟩
  · intro root member object inside
    cases root with
    | scope id => cases inside
    | value v =>
      rcases values v member with carries | atom
      · exact carries.occurs object inside
      · simp [Root.objects, atom] at inside
  · exact fun id member => .occurs (scopes id member).occurs
  · rcases carried v carries with old | atom
    · exact safe.admits v old
    · exact D.admits_atom atom

theorem Safe.extend (safe : D.Safe s roots) (extend : s.Extends s') (sound : s'.Sound roots')
    (closed : s'.CaptureClosed) (scopes : ∀ id, .scope id ∈ roots' → s'.Stands id)
    (values : ∀ v, s'.Carries roots' v → s.Carries roots v ∨ D.Admits s' v) :
    D.Safe s' roots' := by
  refine ⟨sound, closed, scopes, fun v carries => ?_⟩
  rcases values v carries with old | new
  · exact D.admits_extend (safe.admits v old) extend
  · exact new

theorem Safe.newScope (safe : D.Safe s roots) (enclosing? : Option ScopeId) (bindings : Bindings)
    (around : ∀ parent, enclosing? = some parent → s.Stands parent)
    (values : ∀ entry ∈ bindings, s.Carries roots entry.2 ∨ entry.2.objects = []) :
    D.Safe (s.newScope enclosing? bindings).2
      (.scope (s.newScope enclosing? bindings).1 :: roots) := by
  have extend : s.Extends (s.newScope enclosing? bindings).2 :=
    Store.extends_newScope safe.sound.numbered enclosing? bindings
  have sound := safe.sound.step (.newScope enclosing? bindings
    (fun parent same => .occurs (around parent same).occurs) (by
      intro object member
      obtain ⟨entry, inside, part⟩ := Bindings.mem_objects_iff.mp member
      rcases values entry inside with carries | atom
      · exact carries.occurs object part
      · simp [atom] at part))
  have old : ∀ id scope, (s.newScope enclosing? bindings).2.scope? id = some scope →
      (id.index = s.next ∧ scope = ⟨bindings, enclosing?, false⟩) ∨ s.scope? id = some scope := by
    intro id scope found
    rw [Store.scope?_newScope] at found
    split at found
    · rename_i same
      cases found
      exact .inl ⟨same, rfl⟩
    · exact .inr found
  refine safe.extend extend sound ?_ ?_ ?_
  · intro id scope parent found marked outside
    rcases old id scope found with ⟨_, rfl⟩ | before
    · cases marked
    · exact (safe.closed id scope parent before marked outside).extend extend
  · intro id member
    rcases List.mem_cons.mp member with same | held
    · cases same
      exact .intro (s.scope?_newScope_self enclosing? bindings)
        fun parent same => (around parent same).extend extend
    · exact (safe.stands id held).extend extend
  · rintro v (⟨id, scope, name, found, member⟩ | inFields | held)
    · rcases old id scope found with ⟨_, rfl⟩ | before
      · rcases values _ member with carries | atom
        · exact .inl carries
        · exact .inr (D.admits_atom atom)
      · exact .inl (.inl ⟨id, scope, name, before, member⟩)
    · exact .inl (.inr (.inl inFields))
    · rcases List.mem_cons.mp held with same | old
      · cases same
      · exact .inl (.inr (.inr old))

/-- An operation that marks no scope leaves no captured scope inside one that is not. -/
theorem captureClosed_of_unmarked (closed : s.CaptureClosed) (extend : s.Extends s')
    (unmarked : ∀ id after, s'.scope? id = some after → ∃ before, s.scope? id = some before ∧
      before.enclosing? = after.enclosing? ∧ before.captured = after.captured) :
    s'.CaptureClosed := by
  intro id after parent found marked outside
  obtain ⟨before, atId, around, same⟩ := unmarked id after found
  exact (closed id before parent atId (same.trans marked) (around.trans outside)).extend extend

theorem Safe.define (safe : D.Safe s roots) {v : Value} (sound : s.Sound (.value v :: roots))
    (id : ScopeId) (name : String) (admits : D.Admits (s.define id name v) v) :
    D.Safe (s.define id name v) roots := by
  have extend : s.Extends (s.define id name v) := Store.extends_define id name v
  have old : ∀ other after, (s.define id name v).scope? other = some after →
      ∃ before, s.scope? other = some before ∧ before.enclosing? = after.enclosing? ∧
        before.captured = after.captured ∧
        ∀ key value, (key, value) ∈ after.bindings → (∃ key, (key, value) ∈ before.bindings) ∨
          value = v := by
    intro other after found
    rw [Store.scope?_define] at found
    obtain ⟨before, atOther, rfl⟩ := Option.map_eq_some_iff.mp found
    refine ⟨before, atOther, ?_⟩
    split
    · exact ⟨rfl, rfl, fun key value member => Store.mem_put member⟩
    · exact ⟨rfl, rfl, fun key value member => .inl ⟨key, member⟩⟩
  refine safe.extend extend ?_ ?_ ?_ ?_
  · exact (sound.step (.define id name fun object inside =>
      Store.occurs_of_root List.mem_cons_self inside)).weaken (List.subset_cons_self _ _)
  · refine captureClosed_of_unmarked safe.closed extend fun other after found => ?_
    obtain ⟨before, atOther, around, marked, _⟩ := old other after found
    exact ⟨before, atOther, around, marked⟩
  · exact fun other member => (safe.stands other member).extend extend
  · rintro value (⟨other, after, key, found, member⟩ | kept)
    · obtain ⟨before, atOther, _, _, bound⟩ := old other after found
      rcases bound key value member with ⟨key', inside⟩ | rfl
      · exact .inl (.inl ⟨other, before, key', atOther, inside⟩)
      · exact .inr admits
    · exact .inl (.inr kept)

theorem Safe.setField (safe : D.Safe s roots) {v : Value} (held : .value v ∈ roots)
    (id : InstanceId) (name : String) : D.Safe (s.setField id name v) roots := by
  have extend : s.Extends (s.setField id name v) := Store.extends_of_eq fun _ => rfl
  refine safe.extend extend ?_ ?_ ?_ ?_
  · exact safe.sound.step (.setField id name fun object inside => Store.occurs_of_root held inside)
  · exact captureClosed_of_unmarked safe.closed extend fun _ after found => ⟨after, found, rfl, rfl⟩
  · exact fun other member => (safe.stands other member).extend extend
  · rintro value (inScope | ⟨other, fields, key, found, member⟩ | kept)
    · exact .inl (.inl inScope)
    · rw [Store.fields?_setField] at found
      obtain ⟨before, atOther, rfl⟩ := Option.map_eq_some_iff.mp found
      split at member
      · rcases Store.mem_put member with ⟨key', inside⟩ | rfl
        · exact .inl (.inr (.inl ⟨other, before, key', atOther, inside⟩))
        · exact .inl (.inr (.inr held))
      · exact .inl (.inr (.inl ⟨other, before, key, atOther, member⟩))
    · exact .inl (.inr (.inr kept))

theorem Safe.newIdentity (safe : D.Safe s roots) : D.Safe s.newIdentity.2 roots := by
  have extend := s.extends_newIdentity
  refine safe.extend extend (safe.sound.step .skip) ?_ ?_ ?_
  · exact captureClosed_of_unmarked safe.closed extend fun _ after found => ⟨after, found, rfl, rfl⟩
  · exact fun id member => (safe.stands id member).extend extend
  · exact fun v carries => .inl carries

theorem Safe.capture (safe : D.Safe s roots) {id : ScopeId} (stands : s.Stands id) :
    D.Safe (s.capture id) roots ∧ (s.capture id).Captured id := by
  have extend := s.extends_capture id
  obtain ⟨closed, captured⟩ := Store.capture_closed safe.sound.nested stands
    fun other scope parent found marked around => .inr (safe.closed other scope parent found marked around)
  refine ⟨safe.extend extend (safe.sound.step (.capture id)) closed ?_ ?_, captured⟩
  · exact fun other member => (safe.stands other member).extend extend
  · rintro v (⟨other, after, name, found, member⟩ | ⟨other, fields, name, found, member⟩ | held)
    · rcases s.scope?_capture id other with kept | ⟨before, atOther, marked⟩
      · exact .inl (.inl ⟨other, after, name, kept ▸ found, member⟩)
      · rw [marked] at found
        cases found
        exact .inl (.inl ⟨other, before, name, atOther, member⟩)
    · rw [Store.fields?_capture] at found
      exact .inl (.inr (.inl ⟨other, fields, name, found, member⟩))
    · exact .inl (.inr (.inr held))

/-- A function that has just been made is captured, but not yet kept anywhere. -/
theorem Safe.close (safe : D.Safe s roots) {id : ScopeId} (stands : s.Stands id)
    (declaration : FunctionDecl) (isInitializer : Bool) :
    D.Safe (s.close id declaration isInitializer).2 roots ∧
      (s.close id declaration isInitializer).2.Captured id := by
  have extend := s.extends_newIdentity
  exact safe.newIdentity.capture (stands.extend extend)

theorem Safe.newInstance (safe : D.Safe s roots) {type : Class}
    (carries : s.Carries roots (.class type)) :
    D.Safe s.newInstance.2 (.value (.instance s.newInstance.1 type) :: roots) := by
  have extend := s.extends_newInstance
  refine safe.extend extend ?_ ?_ ?_ ?_
  · exact safe.sound.step (.newInstance (carries.occurs _ type.mem_objects))
  · exact captureClosed_of_unmarked safe.closed extend fun _ after found => ⟨after, found, rfl, rfl⟩
  · intro id member
    rcases List.mem_cons.mp member with same | held
    · cases same
    · exact (safe.stands id held).extend extend
  · rintro v (inScope | ⟨id, fields, name, found, member⟩ | held)
    · exact .inl (.inl inScope)
    · rw [Store.fields?_newInstance] at found
      split at found
      · cases found
        cases member
      · exact .inl (.inr (.inl ⟨id, fields, name, found, member⟩))
    · rcases List.mem_cons.mp held with same | old
      · cases same
        exact .inr (D.admits_extend (v := .class type) (safe.admits _ carries) extend)
      · exact .inl (.inr (.inr old))

theorem Safe.add (safe : D.Safe s roots) {v : Value} (sound : s.Sound (.value v :: roots))
    (admits : D.Admits s v) : D.Safe s (.value v :: roots) := by
  refine ⟨sound, safe.closed, ?_, ?_⟩
  · intro id member
    rcases List.mem_cons.mp member with same | held
    · cases same
    · exact safe.stands id held
  · rintro value (inScope | inFields | held)
    · exact safe.admits value (.inl inScope)
    · exact safe.admits value (.inr (.inl inFields))
    · rcases List.mem_cons.mp held with same | old
      · cases same
        exact admits
      · exact safe.admits value (.inr (.inr old))

theorem Safe.weaken (safe : D.Safe s roots) (fewer : roots' ⊆ roots) : D.Safe s roots' :=
  safe.hold (fun id member => safe.stands id (fewer member))
    fun _ member => .inl (.inr (.inr (fewer member)))

/-- Scopes that were there before a method is bound are still there, and the scope of the bound
    method has the others around it. -/
theorem Safe.bind_extends (safe : D.Safe s roots) (method : Closure) (id : InstanceId)
    (type : Class) : s.Extends (s.bind method id type).2 := by
  have made := Store.extends_newScope safe.sound.numbered (some method.scope)
    [("this", .instance id type)]
  exact (made.trans (Store.extends_newIdentity _)).trans (Store.extends_capture _ ⟨s.next⟩)

theorem Safe.bind (safe : D.Safe s roots) {method : Closure} {id : InstanceId} {type : Class}
    {layer : D.Layer} {layers : List D.Layer} (captured : s.Captured method.scope)
    (chain : D.Chain s method.scope layers) (carries : s.Carries roots (.instance id type))
    (holds : D.holds layer ⟨s.next⟩ fun name => name = "this")
    (fits : D.function (s.bind method id type).1 (layer :: layers)) :
    D.Safe (s.bind method id type).2 (.value (.closure (s.bind method id type).1) :: roots) := by
  have stands := safe.closed.stands safe.sound.nested captured
  have inner := safe.newScope (some method.scope) [("this", .instance id type)]
    (fun parent same => by cases same; exact stands)
    (fun entry member => by cases List.mem_singleton.mp member; exact .inl carries)
  have here := s.scope?_newScope_self (some method.scope) [("this", .instance id type)]
  have numbered := inner.newIdentity
  obtain ⟨marked, caught⟩ := numbered.capture (numbered.stands _ List.mem_cons_self)
  have sound : (s.bind method id type).2.Sound
      (.value (.closure (s.bind method id type).1) :: roots) :=
    safe.sound.bind (.occurs stands.occurs) (carries.occurs _ List.mem_cons_self)
  refine (marked.weaken (List.subset_cons_self _ _)).add sound ⟨caught, layer :: layers, ?_, fits⟩
  obtain ⟨after, found, grows⟩ := Store.extends_capture
    (s.newScope (some method.scope) [("this", .instance id type)]).2.newIdentity.2 ⟨s.next⟩ _ _ here
  refine .inner found grows.enclosing ?_ (D.chain_extend chain (Safe.bind_extends safe method id type))
  refine D.holds_mono _ _ _ _ ?_ holds
  rintro name rfl
  exact grows.binds "this" ⟨_, rfl⟩

theorem stands_free (nested : s.Nested) {id other : ScopeId} (older : other.index < id.index)
    (stands : s.Stands other) : (s.free id).Stands other := by
  induction stands with
  | @intro other scope found around ih =>
    have present : (s.free id).scope? other = some scope := by
      rw [Store.scope?_free, if_neg]
      · exact found
      · rintro rfl
        exact absurd older (Nat.lt_irrefl _)
    exact .intro present fun parent outside =>
      ih parent outside (Nat.lt_trans (nested other scope parent found outside) older)

/-- A scope that no function closes over may go, once only older scopes are held. -/
theorem Safe.free (safe : D.Safe s roots) {id : ScopeId} (uncaptured : ¬ s.Captured id)
    (older : ∀ other, .scope other ∈ roots → other.index < id.index) :
    D.Safe (s.free id) roots := by
  have stay : ∀ other scope, s.scope? other = some scope → scope.captured = true →
      (s.free id).scope? other = some scope := by
    intro other scope found marked
    rw [Store.scope?_free, if_neg]
    · exact found
    · rintro rfl
      exact uncaptured ⟨scope, found, marked⟩
  have captured : ∀ {other}, s.Captured other → (s.free id).Captured other := by
    rintro other ⟨scope, found, marked⟩
    exact ⟨scope, stay other scope found marked, marked⟩
  -- Around a captured scope all are captured, so none of them is the one that goes.
  have chain : ∀ {other} {layers : List D.Layer}, s.Captured other → D.Chain s other layers →
      D.Chain (s.free id) other layers := by
    intro other layers caught chain
    induction chain with
    | globals => exact .globals
    | inner found around known _ ih =>
      obtain ⟨scope, atOther, marked⟩ := caught
      rw [found] at atOther
      cases atOther
      exact .inner (stay _ _ found marked) around known (ih (safe.closed _ _ _ found marked around))
  have closed : ∀ {fits : Closure → List D.Layer → Prop} {function : Closure},
      D.Closed fits s function → D.Closed fits (s.free id) function := by
    rintro fits function ⟨caught, layers, known, fit⟩
    exact ⟨captured caught, layers, chain caught known, fit⟩
  refine ⟨safe.sound.step (.free id), ?_, ?_, ?_⟩
  · intro other scope parent found marked around
    exact captured (safe.closed other scope parent (Store.scope?_of_free found) marked around)
  · exact fun other member =>
      stands_free safe.sound.nested (older other member) (safe.stands other member)
  · intro v carries
    have before : s.Carries roots v := by
      rcases carries with ⟨other, scope, name, found, member⟩ | rest
      · exact .inl ⟨other, scope, name, Store.scope?_of_free found, member⟩
      · exact .inr rest
    have admits := safe.admits v before
    cases v with
    | closure function => exact closed admits
    | «class» type | «instance» _ type => exact fun method member => closed (admits method member)
    | nil | bool _ | number _ | string _ | native _ => trivial

end DisciplineData
end Lox
