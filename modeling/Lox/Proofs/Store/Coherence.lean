import Lox.Machine.Eval
import Lox.Proofs.Store.Hops

namespace Lox

/-- Scopes as a host builds them: on their own or inside others, with names defined in them and
    assigned to. -/
inductive Forest : Store → Prop where
  | empty : Forest .empty
  | root {s : Store} (before : Forest s) : Forest (s.newScope none []).2
  | inner {s : Store} (before : Forest s) {parent : ScopeId} {scope : Scope}
      (found : s.scope? parent = some scope) : Forest (s.newScope (some parent) []).2
  | define {s : Store} (before : Forest s) (id : ScopeId) (name : String) (value : Value) :
      Forest (s.define id name value)
  | assign {s s' : Store} (before : Forest s) {id : ScopeId} {name : String} {value : Value}
      {line : Nat} (assigned : s.assign id name value line = .ok s') : Forest s'
  | assignAt {s s' : Store} (before : Forest s) {id : ScopeId} {distance : Nat} {name : String}
      {value : Value} {line : Nat} (assigned : s.assignAt id distance name value line = .ok s') :
      Forest s'

namespace Store

variable {s s' : Store} {id parent owner : ScopeId} {distance : Nat} {name : String} {value : Value}
  {line : Nat}

theorem define_of_assign (assigned : s.assign id name value line = .ok s') :
    ∃ owner, s.owner? id name = some owner ∧ s' = s.define owner name value := by
  unfold assign at assigned
  cases found : s.owner? id name with
  | none =>
    rw [found] at assigned
    cases assigned
  | some owner =>
    rw [found] at assigned
    cases assigned
    exact ⟨owner, rfl, rfl⟩

theorem define_of_assignAt (assigned : s.assignAt id distance name value line = .ok s') :
    ∃ owner, s.ownerAt? id distance name = some owner ∧ s' = s.define owner name value := by
  unfold assignAt at assigned
  cases found : s.ownerAt? id distance name with
  | none =>
    rw [found] at assigned
    cases assigned
  | some owner =>
    rw [found] at assigned
    cases assigned
    exact ⟨owner, rfl, rfl⟩

theorem Nested.newScope (nested : s.Nested) {enclosing? : Option ScopeId} (bindings : Bindings)
    (older : ∀ parent, enclosing? = some parent → parent.index < s.next) :
    (s.newScope enclosing? bindings).2.Nested := nested.insert ⟨s.next⟩ older

end Store

open Store in
theorem Forest.grown {s : Store} (forest : Forest s) : s.Nested ∧ s.Numbered := by
  induction forest with
  | empty =>
    have nothing : ∀ id, Store.empty.scope? id = none := fun id => Std.TreeMap.getElem?_emptyc
    exact ⟨fun id scope parent found _ => by simp [nothing] at found,
      fun id scope found => by simp [nothing] at found⟩
  | root before ih => exact ⟨ih.1.newScope [] (by simp), ih.2.newScope none []⟩
  | inner before found ih =>
    refine ⟨ih.1.newScope [] ?_, ih.2.newScope _ []⟩
    rintro _ ⟨⟩
    exact ih.2 _ _ found
  | define before id name value ih => exact ⟨ih.1.define id name value, ih.2.define id name value⟩
  | assign before assigned ih =>
    obtain ⟨owner, _, rfl⟩ := define_of_assign assigned
    exact ⟨ih.1.define _ _ _, ih.2.define _ _ _⟩
  | assignAt before assigned ih =>
    obtain ⟨owner, _, rfl⟩ := define_of_assignAt assigned
    exact ⟨ih.1.define _ _ _, ih.2.define _ _ _⟩

namespace Store

variable {s s' : Store} {id parent owner other : ScopeId} {distance line : Nat} {name key : String}
  {value : Value}

inductive Outward (s : Store) : ScopeId → Nat → ScopeId → Prop where
  | here {id : ScopeId} : Outward s id 0 id
  | further {id parent owner : ScopeId} {scope : Scope} {distance : Nat}
      (found : s.scope? id = some scope) (around : scope.enclosing? = some parent)
      (outer : Outward s parent distance owner) : Outward s id (distance + 1) owner

/-- Of the scopes out from `id`, the scope `owner` is the first that binds the name. -/
def Nearest (s : Store) (id : ScopeId) (name : String) (distance : Nat) (owner : ScopeId) : Prop :=
  s.Outward id distance owner ∧ s.local? owner name ≠ none ∧
    ∀ nearer other, nearer < distance → s.Outward id nearer other → s.local? other name = none

theorem Outward.along (outward : s.Outward id distance owner)
    (links : ∀ id parent,
      (∃ scope, s.scope? id = some scope ∧ scope.enclosing? = some parent) →
        ∃ scope, s'.scope? id = some scope ∧ scope.enclosing? = some parent) :
    s'.Outward id distance owner := by
  induction outward with
  | @here id => exact .here
  | @further id parent owner scope distance found around _ ih =>
    obtain ⟨after, atId, encloses⟩ := links id parent ⟨scope, found, around⟩
    exact .further atId encloses ih

theorem Nested.ancestor?_iff (nested : s.Nested) :
    s.ancestor? id distance = some owner ↔ s.Outward id distance owner := by
  constructor
  · intro found
    induction distance generalizing id with
    | zero =>
      rw [ancestor?] at found
      cases found
      exact .here
    | succ distance ih =>
      rw [ancestor?] at found
      split at found
      · rename_i parent older around
        obtain ⟨scope, atId, encloses⟩ := outward?_eq_some around
        exact .further atId encloses (ih found)
      · cases found
  · intro outward
    induction outward with
    | @here id => rw [ancestor?]
    | further found around _ ih =>
      rw [ancestor?, outward?_of_scope? found around (nested _ _ _ found around)]
      exact ih

theorem Nearest.self (bound : s.local? id name ≠ none) : s.Nearest id name 0 id :=
  ⟨.here, bound, fun _ _ nearer => absurd nearer (Nat.not_lt_zero _)⟩

theorem Nearest.outer {scope : Scope} (found : s.scope? id = some scope)
    (around : scope.enclosing? = some parent) (absent : s.local? id name = none)
    (nearest : s.Nearest parent name distance owner) : s.Nearest id name (distance + 1) owner := by
  obtain ⟨outward, bound, first⟩ := nearest
  refine ⟨.further found around outward, bound, fun nearer other before passed => ?_⟩
  cases passed with
  | here => exact absent
  | further found' around' outer =>
    rw [found] at found'
    cases found'
    rw [around] at around'
    cases around'
    exact first _ other (Nat.lt_of_succ_lt_succ before) outer

theorem Nearest.split (nearest : s.Nearest id name distance owner) :
    owner = id ∧ s.local? id name ≠ none ∨
      s.local? id name = none ∧ ∃ scope parent outer, s.scope? id = some scope ∧
        scope.enclosing? = some parent ∧ s.Nearest parent name outer owner := by
  obtain ⟨outward, bound, first⟩ := nearest
  cases outward with
  | here => exact .inl ⟨rfl, bound⟩
  | @further _ parent _ scope outer found around outward =>
    refine .inr ⟨first 0 _ (Nat.succ_pos _) .here, scope, parent, outer, found, around, outward,
      bound, fun nearer other before passed => ?_⟩
    exact first (nearer + 1) other (Nat.succ_lt_succ before) (.further found around passed)

theorem Nested.owner?_iff (nested : s.Nested) :
    s.owner? id name = some owner ↔ ∃ distance, s.Nearest id name distance owner := by
  fun_induction owner? s id name with
  | case1 id value present =>
    have bound : s.local? id name ≠ none := by simp [present]
    constructor
    · intro same
      cases same
      exact ⟨0, .self bound⟩
    · rintro ⟨distance, nearest⟩
      rcases nearest.split with ⟨rfl, _⟩ | ⟨absent, _⟩
      · rfl
      · exact absurd absent bound
  | case2 id absent parent older around ih =>
    obtain ⟨scope, found, encloses⟩ := outward?_eq_some around
    rw [ih]
    constructor
    · rintro ⟨distance, nearest⟩
      exact ⟨distance + 1, nearest.outer found encloses absent⟩
    · rintro ⟨distance, nearest⟩
      rcases nearest.split with ⟨_, bound⟩ | ⟨_, scope', parent', outer, found', around', further⟩
      · exact absurd absent bound
      · rw [found] at found'
        cases found'
        rw [encloses] at around'
        cases around'
        exact ⟨outer, further⟩
  | case3 id absent around =>
    constructor
    · intro found
      cases found
    · rintro ⟨distance, nearest⟩
      rcases nearest.split with ⟨_, bound⟩ | ⟨_, scope, parent, outer, found, encloses, _⟩
      · exact absurd absent bound
      · rw [outward?_of_scope? found encloses (nested _ _ _ found encloses)] at around
        cases around

theorem Outward.exists_nearest (outward : s.Outward id distance owner)
    (bound : s.local? owner name ≠ none) : ∃ distance owner, s.Nearest id name distance owner := by
  induction outward with
  | @here id => exact ⟨0, id, .self bound⟩
  | @further id parent owner scope distance found around outer ih =>
    obtain ⟨distance, nearest, here⟩ := ih bound
    by_cases absent : s.local? id name = none
    · exact ⟨distance + 1, nearest, here.outer found around absent⟩
    · exact ⟨0, id, .self absent⟩

theorem Nested.ownerAt?_iff (nested : s.Nested) : s.ownerAt? id distance name = some owner ↔
    s.Outward id distance owner ∧ s.local? owner name ≠ none := by
  unfold ownerAt?
  rw [Option.bind_eq_some_iff]
  constructor
  · rintro ⟨scope, found, kept⟩
    obtain ⟨value, bound, rfl⟩ := Option.map_eq_some_iff.mp kept
    exact ⟨nested.ancestor?_iff.mp found, by simp [bound]⟩
  · rintro ⟨outward, bound⟩
    obtain ⟨value, present⟩ := Option.ne_none_iff_exists'.mp bound
    exact ⟨owner, nested.ancestor?_iff.mpr outward, by simp [present]⟩

theorem read_of_owner? (found : s.owner? id name = some owner)
    (bound : s.local? owner name = some value) : s.read id name line = .ok value := by
  unfold read
  rw [found, Option.bind_some, bound]

theorem readAt_of_ownerAt? (found : s.ownerAt? id distance name = some owner)
    (bound : s.local? owner name = some value) : s.readAt id distance name line = .ok value := by
  unfold readAt
  rw [found, Option.bind_some, bound]

theorem Nested.read_iff (nested : s.Nested) : s.read id name line = .ok value ↔
    ∃ distance owner, s.Nearest id name distance owner ∧ s.local? owner name = some value := by
  constructor
  · intro done
    unfold read at done
    split at done
    · rename_i found present
      cases done
      obtain ⟨owner, here, bound⟩ := Option.bind_eq_some_iff.mp present
      obtain ⟨distance, nearest⟩ := nested.owner?_iff.mp here
      exact ⟨distance, owner, nearest, bound⟩
    · cases done
  · rintro ⟨distance, owner, nearest, bound⟩
    exact read_of_owner? (nested.owner?_iff.mpr ⟨distance, nearest⟩) bound

theorem Nested.readAt_iff (nested : s.Nested) : s.readAt id distance name line = .ok value ↔
    ∃ owner, s.Outward id distance owner ∧ s.local? owner name = some value := by
  constructor
  · intro done
    unfold readAt at done
    split at done
    · rename_i found present
      cases done
      obtain ⟨owner, here, bound⟩ := Option.bind_eq_some_iff.mp present
      exact ⟨owner, (nested.ownerAt?_iff.mp here).1, bound⟩
    · cases done
  · rintro ⟨owner, outward, bound⟩
    exact readAt_of_ownerAt? (nested.ownerAt?_iff.mpr ⟨outward, by simp [bound]⟩) bound

/-- The first of the scopes outward in which a read succeeds is the one that a read by name finds. -/
theorem Nested.read_of_first (nested : s.Nested)
    (done : s.readAt id distance name line = .ok value)
    (first : ∀ nearer, nearer < distance → ∀ v, s.readAt id nearer name line ≠ .ok v) :
    s.read id name line = .ok value := by
  obtain ⟨owner, outward, bound⟩ := nested.readAt_iff.mp done
  refine nested.read_iff.mpr ⟨distance, owner, ⟨outward, by simp [bound], ?_⟩, bound⟩
  intro nearer other before passed
  cases present : s.local? other name with
  | none => rfl
  | some v => exact absurd (nested.readAt_iff.mpr ⟨other, passed, present⟩) (first nearer before v)

theorem Nested.readable_iff (nested : s.Nested) : (∃ v, s.read id name line = .ok v) ↔
    ∃ distance v, s.readAt id distance name line = .ok v := by
  constructor
  · rintro ⟨v, done⟩
    obtain ⟨distance, owner, nearest, bound⟩ := nested.read_iff.mp done
    exact ⟨distance, v, nested.readAt_iff.mpr ⟨owner, nearest.1, bound⟩⟩
  · rintro ⟨distance, v, done⟩
    obtain ⟨owner, outward, bound⟩ := nested.readAt_iff.mp done
    have named : s.local? owner name ≠ none := by simp [bound]
    obtain ⟨nearer, other, nearest⟩ := outward.exists_nearest named
    obtain ⟨w, present⟩ := Option.ne_none_iff_exists'.mp nearest.2.1
    exact ⟨w, nested.read_iff.mpr ⟨nearer, other, nearest, present⟩⟩

theorem Nested.read_of_owned (nested : s.Nested) (found : s.owner? id name = some owner) (line : Nat) :
    ∃ v, s.read id name line = .ok v := by
  obtain ⟨distance, nearest⟩ := nested.owner?_iff.mp found
  obtain ⟨v, bound⟩ := Option.ne_none_iff_exists'.mp nearest.2.1
  exact ⟨v, read_of_owner? found bound⟩

theorem Nested.read_error_iff {fault : Fault} (nested : s.Nested) : s.read id name line = .error fault ↔
    s.owner? id name = none ∧ fault = undefined name line := by
  cases found : s.owner? id name with
  | none => simp [read, found, eq_comm]
  | some owner =>
    obtain ⟨v, done⟩ := nested.read_of_owned found line
    simp [done]

theorem assign_error_iff {fault : Fault} : s.assign id name value line = .error fault ↔
    s.owner? id name = none ∧ fault = undefined name line := by
  unfold assign
  cases s.owner? id name <;> simp [eq_comm]

theorem assign_ok_iff : (∃ s', s.assign id name value line = .ok s') ↔ s.owner? id name ≠ none := by
  unfold assign
  cases s.owner? id name <;> simp

theorem Nested.read_ok_iff (nested : s.Nested) :
    (∃ v, s.read id name line = .ok v) ↔ s.owner? id name ≠ none := by
  cases found : s.owner? id name with
  | none => simp [read, found]
  | some owner => simp [nested.read_of_owned found line]

/-- The store `s'` is `s` but for one binding: where `owner` had some value for the name, it now has
    this one. No scope, no link between scopes and no binding has come or gone. -/
structure Rebinds (s : Store) (owner : ScopeId) (name : String) (value : Value) (s' : Store) :
    Prop where
  bound : s.local? owner name ≠ none
  assigned : s'.local? owner name = some value
  others : ∀ id key, ¬ (id = owner ∧ key = name) → s'.local? id key = s.local? id key
  links : ∀ id, (s'.scope? id).map Scope.enclosing? = (s.scope? id).map Scope.enclosing?
  fields : ∀ id, s'.fields? id = s.fields? id

/-- Reads show the new value where they address the binding, and elsewhere what they did before. -/
structure Reflects (s : Store) (owner : ScopeId) (name : String) (value : Value) (s' : Store) :
    Prop where
  read : ∀ id distance line, s.Nearest id name distance owner → s'.read id name line = .ok value
  readAt : ∀ id distance line, s.Outward id distance owner →
    s'.readAt id distance name line = .ok value
  read_others : ∀ id key line, ¬ (key = name ∧ ∃ distance, s.Nearest id key distance owner) →
    s'.read id key line = s.read id key line
  readAt_others : ∀ id distance key line, ¬ (key = name ∧ s.Outward id distance owner) →
    s'.readAt id distance key line = s.readAt id distance key line

theorem local?_define_bound {scope : Scope} (found : s.scope? owner = some scope) :
    (s.define owner name value).local? id key =
      if id = owner ∧ key = name then some value else s.local? id key := by
  unfold local?
  rw [scope?_define]
  by_cases same : id = owner
  · subst same
    simp [found, Bindings.lookup_put]
  · simp [same]

theorem rebinds_define (bound : s.local? owner name ≠ none) :
    s.Rebinds owner name value (s.define owner name value) := by
  obtain ⟨old, present⟩ := Option.ne_none_iff_exists'.mp bound
  obtain ⟨scope, found, _⟩ := Option.bind_eq_some_iff.mp present
  refine ⟨bound, ?_, fun id key other => ?_, fun id => ?_, fun id => rfl⟩
  · rw [local?_define_bound found, if_pos ⟨rfl, rfl⟩]
  · rw [local?_define_bound found, if_neg other]
  · rw [scope?_define, Option.map_map]
    congr 1
    funext scope
    simp only [Function.comp]
    split <;> rfl

namespace Rebinds

variable (rebinds : s.Rebinds owner name value s')

include rebinds

theorem bound_iff : s'.local? id key = none ↔ s.local? id key = none := by
  by_cases here : id = owner ∧ key = name
  · obtain ⟨rfl, rfl⟩ := here
    simp [rebinds.assigned, rebinds.bound]
  · rw [rebinds.others id key here]

theorem enclosing (id parent : ScopeId) :
    (∃ scope, s'.scope? id = some scope ∧ scope.enclosing? = some parent) ↔
      ∃ scope, s.scope? id = some scope ∧ scope.enclosing? = some parent := by
  have same := rebinds.links id
  cases before : s.scope? id <;> cases after : s'.scope? id <;>
    simp [before, after] at same ⊢
  rw [same]

theorem nested (nested : s.Nested) : s'.Nested := by
  intro id scope parent found around
  obtain ⟨before, atId, encloses⟩ := (rebinds.enclosing id parent).mp ⟨scope, found, around⟩
  exact nested id before parent atId encloses

theorem outward_iff : s'.Outward id distance other ↔ s.Outward id distance other := by
  constructor
  · exact fun outward => outward.along fun id parent => (rebinds.enclosing id parent).mp
  · exact fun outward => outward.along fun id parent => (rebinds.enclosing id parent).mpr

theorem nearest_iff : s'.Nearest id key distance other ↔ s.Nearest id key distance other := by
  simp only [Nearest, rebinds.outward_iff, ne_eq, rebinds.bound_iff]

theorem owner?_eq (nested : s.Nested) : s'.owner? id key = s.owner? id key := by
  ext other
  rw [(rebinds.nested nested).owner?_iff, nested.owner?_iff]
  simp only [rebinds.nearest_iff]

theorem ownerAt?_eq (nested : s.Nested) :
    s'.ownerAt? id distance key = s.ownerAt? id distance key := by
  ext other
  rw [(rebinds.nested nested).ownerAt?_iff, nested.ownerAt?_iff, rebinds.outward_iff, ne_eq,
    rebinds.bound_iff]

theorem bind_local?_eq {found? : Option ScopeId}
    (elsewhere : ∀ other, found? = some other → ¬ (other = owner ∧ key = name)) :
    found?.bind (s'.local? · key) = found?.bind (s.local? · key) := by
  cases found? with
  | none => rfl
  | some other => exact rebinds.others other key (elsewhere other rfl)

theorem reflects (nested : s.Nested) : s.Reflects owner name value s' where
  read id distance line nearest :=
    read_of_owner? ((rebinds.owner?_eq nested).trans (nested.owner?_iff.mpr ⟨distance, nearest⟩))
      rebinds.assigned
  readAt id distance line outward :=
    readAt_of_ownerAt? ((rebinds.ownerAt?_eq nested).trans
      (nested.ownerAt?_iff.mpr ⟨outward, rebinds.bound⟩)) rebinds.assigned
  read_others id key line elsewhere := by
    have same := rebinds.bind_local?_eq fun other (found : s.owner? id key = some other) addressed =>
      elsewhere ⟨addressed.2, nested.owner?_iff.mp (addressed.1 ▸ found)⟩
    unfold Store.read
    rw [rebinds.owner?_eq nested, same]
  readAt_others id distance key line elsewhere := by
    have same := rebinds.bind_local?_eq
      fun other (found : s.ownerAt? id distance key = some other) addressed =>
        elsewhere ⟨addressed.2, (nested.ownerAt?_iff.mp (addressed.1 ▸ found)).1⟩
    unfold Store.readAt
    rw [rebinds.ownerAt?_eq nested, same]

end Rebinds

theorem Nested.assign_rebinds (nested : s.Nested)
    (assigned : s.assign id name value line = .ok s') :
    ∃ distance owner, s.Nearest id name distance owner ∧ s.Rebinds owner name value s' := by
  obtain ⟨owner, found, rfl⟩ := define_of_assign assigned
  obtain ⟨distance, nearest⟩ := nested.owner?_iff.mp found
  exact ⟨distance, owner, nearest, rebinds_define nearest.2.1⟩

theorem Nested.assignAt_rebinds (nested : s.Nested)
    (assigned : s.assignAt id distance name value line = .ok s') :
    ∃ owner, s.Outward id distance owner ∧ s.Rebinds owner name value s' := by
  obtain ⟨owner, found, rfl⟩ := define_of_assignAt assigned
  obtain ⟨outward, bound⟩ := nested.ownerAt?_iff.mp found
  exact ⟨owner, outward, rebinds_define bound⟩

end Store

theorem Eval.assign_failed {token : Token} {slot : Distance} {value : Value} {m m' : Machine}
    {fault : Fault} (failed : Eval.assign token slot value m = .failed fault m') : m' = m := by
  have unset : ∀ result, Eval.setStore result m = .failed fault m' → m' = m := by
    intro result ended
    cases result with
    | ok s => cases ended
    | error cause =>
      cases ended
      rfl
  cases slot with
  | none => exact unset _ failed
  | some distance => exact unset _ failed

/-- Reads and assignments address the same bindings. An assignment that succeeds changes one binding,
    the nearest one out from its scope or the one at its distance, and every read reflects just that; one
    that fails changes nothing. What can be read by name can be read at some distance, and the least
    of these gives the same value. An assignment succeeds exactly if a read does, and both fail alike. -/
theorem Forest.coherent {s : Store} (forest : Forest s) (id : ScopeId) (name : String)
    (value : Value) (line : Nat) :
    (∀ s', s.assign id name value line = .ok s' → ∃ distance owner,
      s.Nearest id name distance owner ∧ s.Rebinds owner name value s' ∧ s.Reflects owner name value s') ∧
    (∀ distance s', s.assignAt id distance name value line = .ok s' → ∃ owner,
      s.Outward id distance owner ∧ s.Rebinds owner name value s' ∧ s.Reflects owner name value s') ∧
    (∀ (m m' : Machine) token slot fault,
      Eval.assign token slot value m = .failed fault m' → m' = m) ∧
    ((∃ v, s.read id name line = .ok v) ↔ ∃ distance v, s.readAt id distance name line = .ok v) ∧
    (∀ distance v, s.readAt id distance name line = .ok v →
      (∀ nearer, nearer < distance → ∀ w, s.readAt id nearer name line ≠ .ok w) →
      s.read id name line = .ok v) ∧
    ((∃ s', s.assign id name value line = .ok s') ↔ ∃ v, s.read id name line = .ok v) ∧
    (∀ fault, s.assign id name value line = .error fault ↔ s.read id name line = .error fault) ∧
    ∀ fault, s.read id name line = .error fault →
      fault.message = "Undefined variable '" ++ name ++ "'." ∧ fault.line? = some line := by
  have nested := forest.grown.1
  refine ⟨fun s' assigned => ?_, fun distance s' assigned => ?_, fun m m' token slot fault =>
    Eval.assign_failed, nested.readable_iff, fun distance v => nested.read_of_first, ?_, fun fault => ?_,
    fun fault failed => ?_⟩
  · obtain ⟨distance, owner, nearest, rebinds⟩ := nested.assign_rebinds assigned
    exact ⟨distance, owner, nearest, rebinds, rebinds.reflects nested⟩
  · obtain ⟨owner, outward, rebinds⟩ := nested.assignAt_rebinds assigned
    exact ⟨owner, outward, rebinds, rebinds.reflects nested⟩
  · rw [Store.assign_ok_iff, nested.read_ok_iff]
  · rw [Store.assign_error_iff, nested.read_error_iff]
  · obtain ⟨_, rfl⟩ := nested.read_error_iff.mp failed
    exact ⟨rfl, rfl⟩

namespace SharedParent

def store : Store :=
  let s := (Store.empty.newScope none []).2.define ⟨0⟩ "x" (.number 1)
  ((s.newScope (some ⟨0⟩) []).2.newScope (some ⟨0⟩) []).2

theorem forest : Forest store := by
  have outer : Forest ((Store.empty.newScope none []).2.define ⟨0⟩ "x" (.number 1)) :=
    .define (.root .empty) ⟨0⟩ "x" (.number 1)
  have one := @Forest.inner _ outer ⟨0⟩ _ rfl
  exact @Forest.inner _ one ⟨0⟩ _ rfl

theorem bound : store.local? ⟨0⟩ "x" = some (.number 1) := rfl

theorem nearest (id : ScopeId) (found : store.scope? id = some ⟨[], some ⟨0⟩, false⟩) :
    store.Nearest id "x" 1 ⟨0⟩ := by
  have own : store.Nearest ⟨0⟩ "x" 0 ⟨0⟩ := .self (by simp [bound])
  exact own.outer found rfl (Store.local?_of_scope? found)

/-- What is assigned through one of the two scopes is read through the other. -/
theorem sibling_sees_assignment : Forest store ∧ ∃ s', store.assign ⟨1⟩ "x" (.number 2) 1 = .ok s' ∧
    s'.read ⟨2⟩ "x" 1 = .ok (.number 2) := by
  obtain ⟨assigning, _, _, _, _, succeeds, _⟩ := forest.coherent ⟨1⟩ "x" (.number 2) 1
  have nested := forest.grown.1
  have readable : store.read ⟨1⟩ "x" 1 = .ok (.number 1) :=
    nested.read_iff.mpr ⟨1, ⟨0⟩, nearest ⟨1⟩ rfl, bound⟩
  obtain ⟨s', assigned⟩ := succeeds.mpr ⟨_, readable⟩
  obtain ⟨distance, owner, here, _, reflects⟩ := assigning s' assigned
  have same : some owner = some (⟨0⟩ : ScopeId) :=
    (nested.owner?_iff.mpr ⟨distance, here⟩).symm.trans (nested.owner?_iff.mpr ⟨1, nearest ⟨1⟩ rfl⟩)
  cases same
  exact ⟨forest, s', assigned, reflects.read ⟨2⟩ 1 1 (nearest ⟨2⟩ rfl)⟩

end SharedParent

end Lox
