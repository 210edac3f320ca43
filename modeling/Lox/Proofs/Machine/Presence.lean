import Lox.Proofs.Machine.Pauses
import Lox.Proofs.Store.Existence

namespace Lox

namespace Store

inductive Leads (s : Store) (roots : List Root) : Object → Prop where
  | root {root : Root} {object : Object} (held : root ∈ roots)
      (same : root.object? = some object) : Leads s roots object
  | step {holder object : Object} (before : Leads s roots holder)
      (refers : s.Refers holder object) : Leads s roots object

def Captures (s : Store) (type : Class) : Prop :=
  ∀ method, .closure method ∈ type.objects → s.Captured method.scope

/-- An object from which nothing that is gone can be reached. -/
def Sturdy (s : Store) : Object → Prop
  | .scope id => s.Stands id
  | .closure function => s.Captured function.scope
  | .class type => s.Captures type
  | .instance id type => (∃ fields, s.fields? id = some fields) ∧ s.Captures type

end Store

namespace DisciplineData

variable {config : Config} {D : Discipline config} {s : Store} {roots : List Root}

theorem Safe.sturdy_of_carries (safe : D.Safe s roots) {v : Value} (carries : s.Carries roots v)
    {object : Object} (same : v.object? = some object) : s.Sturdy object := by
  have admits := safe.admits v carries
  cases v with
  | closure function =>
    cases same
    exact admits.1
  | «class» type =>
    cases same
    exact fun method member => (admits method member).1
  | «instance» id type =>
    cases same
    exact ⟨safe.sound.stored id type (carries.occurs _ List.mem_cons_self),
      fun method member => (admits method member).1⟩
  | nil | bool _ | number _ | string _ | native _ => cases same

theorem Safe.sturdy_of_bound (safe : D.Safe s roots) {bindings : Bindings}
    (carries : ∀ entry ∈ bindings, s.Carries roots entry.2) {object : Object}
    (bound : object ∈ bindings.bound) : s.Sturdy object := by
  obtain ⟨entry, member, same⟩ := Bindings.mem_bound_iff.mp bound
  exact safe.sturdy_of_carries (carries entry member) same

theorem Safe.sturdy_of_refers (safe : D.Safe s roots) {holder object : Object}
    (sturdy : s.Sturdy holder) (refers : s.Refers holder object) : s.Sturdy object := by
  cases holder with
  | scope id =>
    obtain ⟨scope, found, around⟩ := Store.Stands.exists sturdy
    rcases refers with lasting | loose
    · rw [Object.lasting, found] at lasting
      obtain ⟨parent, outside, rfl⟩ := List.mem_map.mp lasting
      exact around parent (Option.mem_toList.mp outside)
    · rw [Object.loose, found] at loose
      exact safe.sturdy_of_bound (fun entry member => .inl ⟨id, scope, entry.1, found, member⟩) loose
  | closure function =>
    rcases refers with lasting | loose
    · cases List.mem_singleton.mp lasting
      exact safe.closed.stands safe.sound.nested sturdy
    · cases loose
  | «class» type =>
    rcases refers with lasting | loose
    · rcases List.mem_append.mp lasting with above | declared
      · obtain ⟨superclass, same, rfl⟩ := List.mem_map.mp above
        cases type with
        | mk identity name superclass? methods =>
          exact fun method member => sturdy method
            (Class.mem_objects_iff.mpr (.inr (.inr ⟨superclass, Option.mem_toList.mp same, member⟩)))
      · obtain ⟨entry, member, rfl⟩ := List.mem_map.mp declared
        cases type with
        | mk identity name superclass? methods =>
          exact sturdy _ (Class.mem_objects_iff.mpr (.inr (.inl ⟨entry, member, rfl⟩)))
    · cases loose
  | «instance» id type =>
    obtain ⟨⟨fields, found⟩, captures⟩ := sturdy
    rcases refers with lasting | loose
    · cases List.mem_singleton.mp lasting
      exact captures
    · rw [Object.loose, found] at loose
      exact safe.sturdy_of_bound
        (fun entry member => .inr (.inl ⟨id, fields, entry.1, found, member⟩)) loose

theorem Safe.sturdy (safe : D.Safe s roots) {object : Object} (leads : s.Leads roots object) :
    s.Sturdy object := by
  induction leads with
  | @root root object held same =>
    cases root with
    | scope id =>
      cases same
      exact safe.stands id held
    | value v => exact safe.sturdy_of_carries (.inr (.inr held)) same
  | step _ refers ih => exact safe.sturdy_of_refers ih refers

theorem Safe.holds_of_leads (safe : D.Safe s roots) {object : Object} (leads : s.Leads roots object)
    {node : Node} (same : object.node? = some node) : s.holds node = true := by
  have sturdy := safe.sturdy leads
  cases object with
  | scope id =>
    cases same
    obtain ⟨scope, found, _⟩ := Store.Stands.exists sturdy
    exact Store.holds_scope found
  | «instance» id type =>
    cases same
    obtain ⟨⟨fields, found⟩, _⟩ := sturdy
    exact Store.holds_instance found
  | closure _ | «class» _ => cases same

theorem occurs_of_refers {holder object : Object} (sturdy : s.Sturdy object)
    (occurs : holder ∈ s.objects roots) (refers : s.Refers holder object) :
    object ∈ s.objects roots := by
  cases object with
  | scope id => exact Store.Stands.occurs sturdy
  | closure _ | «class» _ | «instance» _ _ =>
    rcases refers with lasting | loose
    · exact Store.lasting_occurs occurs lasting (by simp)
    · exact Store.loose_occurs loose

theorem Safe.occurs_of_leads (safe : D.Safe s roots) {object : Object}
    (leads : s.Leads roots object) : object ∈ s.objects roots := by
  have sturdy := safe.sturdy leads
  induction leads with
  | @root root object held same =>
    cases root with
    | scope id =>
      cases same
      exact Store.Stands.occurs sturdy
    | value v => exact Store.occurs_of_root held (Value.object_mem same)
  | step before refers ih => exact occurs_of_refers sturdy (ih (safe.sturdy before)) refers

theorem Safe.kept_of_leads (safe : D.Safe s roots) {order : Arrangement} {borrowed : Nat → Bool}
    (borrowedHeld : ∀ key, borrowed key = true → key ∈ Root.keys roots) {l : Ledger}
    {object : Object} (leads : s.Leads roots object) :
    object.key ∈ s.kept order borrowed l roots := by
  have occurs := safe.occurs_of_leads leads
  induction leads with
  | root held same => exact safe.sound.root_kept borrowedHeld held same occurs
  | step before refers ih =>
    have inside := safe.occurs_of_leads before
    exact safe.sound.kept_closed borrowedHeld inside (ih inside) occurs refers

theorem Safe.unchanged_of_leads (safe : D.Safe s roots) (l : Ledger) {object : Object}
    (leads : s.Leads roots object) : object.Unchanged s (collect s l roots).1 := by
  have stays : s.Stays l roots object.key := safe.kept_of_leads (by simp) leads
  cases object with
  | scope id => exact safe.sound.scope?_of_stays stays
  | «instance» id type => exact (safe.sound.fields?_collect (by simp) id).trans (if_pos stays)
  | closure _ | «class» _ => trivial

end DisciplineData
end Lox
