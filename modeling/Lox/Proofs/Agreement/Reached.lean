import Lox.Proofs.Agreement.Machines
import Lox.Proofs.Machine.Presence

namespace Lox

theorem Value.Inside.and {within within' : Node → Prop} {v : Value} (first : v.Inside within)
    (second : v.Inside within') : v.Inside fun node => within node ∧ within' node := by
  intro object member
  have here := first object member
  have there := second object member
  cases object with
  | scope _ | closure _ | «instance» _ _ => exact ⟨here, there⟩
  | «class» type => trivial

theorem Bindings.Inside.and {within within' : Node → Prop} {bindings : Bindings}
    (first : bindings.Inside within) (second : bindings.Inside within') :
    bindings.Inside fun node => within node ∧ within' node :=
  fun entry member => (first entry member).and (second entry member)

namespace Store

variable {s t u : Store} {roots : List Root} {within within' : Node → Prop}

theorem Match.trans (first : s.Match within t) (second : t.Match within' u) :
    s.Match (fun node => within node ∧ within' node) u where
  next := first.next.trans second.next
  scopes id known := (first.scopes id known.1).trans (second.scopes id known.2)
  fields id known := (first.fields id known.1).trans (second.fields id known.2)
  scopes_inside id scope known found := by
    have here := first.scopes_inside id scope known.1 found
    have there := second.scopes_inside id scope known.2 ((first.scopes id known.1).symm.trans found)
    exact ⟨here.bindings.and there.bindings,
      fun parent around => ⟨here.around parent around, there.around parent around⟩⟩
  fields_inside id fields known found :=
    (first.fields_inside id fields known.1 found).and
      (second.fields_inside id fields known.2 ((first.fields id known.1).symm.trans found))

theorem Leads.parts {v : Value} (leads : ∀ object, v.object? = some object → s.Leads roots object) :
    ∀ object ∈ v.objects, s.Leads roots object := by
  have inside (type : Class) (start : s.Leads roots (.class type)) :
      ∀ object ∈ type.objects, s.Leads roots object :=
    Class.objects_induction s type start fun _ _ before _ edge _ => before.step (.inl edge)
  cases v with
  | closure function => exact List.forall_mem_singleton.mpr (leads _ rfl)
  | «class» type => exact inside type (leads _ rfl)
  | «instance» id type =>
    have here := leads _ rfl
    exact List.forall_mem_cons.mpr
      ⟨here, inside type (here.step (.inl (List.mem_singleton_self (Object.class type))))⟩
  | nil | bool _ | number _ | string _ | native _ => exact List.forall_mem_nil _

def Found (s : Store) (roots : List Root) (node : Node) : Prop :=
  ∃ object : Object, object.node? = some node ∧ s.Leads roots object

theorem leads_of_found_scope {id : ScopeId} (found : s.Found roots (.scope id)) :
    s.Leads roots (.scope id) := by
  obtain ⟨object, same, leads⟩ := found
  cases object with
  | scope id => cases same; exact leads
  | _ => cases same

theorem leads_of_found_instance {id : InstanceId} (found : s.Found roots (.instance id)) :
    ∃ type, s.Leads roots (.instance id type) := by
  obtain ⟨object, same, leads⟩ := found
  cases object with
  | «instance» id type => cases same; exact ⟨type, leads⟩
  | _ => cases same

theorem Leads.inside {v : Value} (leads : ∀ object, v.object? = some object → s.Leads roots object) :
    v.Inside (s.Found roots) := by
  intro object member
  have here := Leads.parts leads object member
  cases object with
  | scope id => exact absurd member (v.scope_not_mem id)
  | closure function => exact ⟨_, rfl, here.step (.inl (List.mem_singleton_self (Object.scope _)))⟩
  | «class» type => trivial
  | «instance» id type => exact ⟨_, rfl, here⟩

theorem Leads.bindings {bindings : Bindings}
    (leads : ∀ object ∈ bindings.bound, s.Leads roots object) : bindings.Inside (s.Found roots) :=
  fun entry member => Leads.inside fun _ same =>
    leads _ (Bindings.mem_bound_iff.mpr ⟨entry, member, same⟩)

theorem inside_of_held {root : Root} (held : root ∈ roots) : root.Inside (t.Found roots) := by
  cases root with
  | scope id => exact ⟨.scope id, rfl, .root held rfl⟩
  | value v => exact Leads.inside fun object same => .root held same

end Store

namespace DisciplineData

variable {config : Config} {D : Discipline config} {s t : Store} {roots : List Root}

/-- A store from which some scopes and instances have gone matches the one before on all that can
    still be reached. -/
theorem Safe.match_fewer (safe : D.Safe t roots) (next : s.next = t.next)
    (scopes : ∀ id scope, t.scope? id = some scope → s.scope? id = some scope)
    (fields : ∀ id fields, t.fields? id = some fields → s.fields? id = some fields) :
    s.Match (t.Found roots) t := by
  have scope {id : ScopeId} (known : t.Found roots (.scope id)) : s.scope? id = t.scope? id := by
    obtain ⟨scope, found, _⟩ := Store.Stands.exists (safe.sturdy (Store.leads_of_found_scope known))
    exact (scopes id scope found).trans found.symm
  have instance' {id : InstanceId} (known : t.Found roots (.instance id)) :
      s.fields? id = t.fields? id := by
    obtain ⟨type, leads⟩ := Store.leads_of_found_instance known
    obtain ⟨⟨bound, found⟩, _⟩ := safe.sturdy leads
    exact (fields id bound found).trans found.symm
  refine ⟨next, fun id => scope, fun id => instance', fun id inner known found => ?_,
    fun id inner known found => ?_⟩
  · rw [scope known] at found
    have leads := Store.leads_of_found_scope known
    refine ⟨Store.Leads.bindings fun object bound => leads.step (.inr ?_), fun parent around => ?_⟩
    · rw [Object.loose, found]
      exact bound
    · refine ⟨.scope parent, rfl, leads.step (.inl ?_)⟩
      rw [Object.lasting, found]
      exact List.mem_map_of_mem (Option.mem_toList.mpr around)
  · rw [instance' known] at found
    obtain ⟨type, leads⟩ := Store.leads_of_found_instance known
    refine Store.Leads.bindings fun object bound => leads.step (.inr ?_)
    rw [Object.loose, found]
    exact bound

end DisciplineData

namespace Machine

variable {config : Config} {D : Discipline config} {held held' : List Root} {m m' m'' : Machine}

theorem Agree.trans (first : m.Agree held m') (second : m'.Agree held m'') : m.Agree held m'' := by
  obtain ⟨within, same, inside⟩ := first.store
  obtain ⟨within', same', inside'⟩ := second.store
  refine ⟨first.globals.trans second.globals, first.scope.trans second.scope,
    first.depth.trans second.depth, first.output.trans second.output,
    first.readings.trans second.readings, _, same.trans same', fun root member => ?_⟩
  have here := inside root member
  unfold Machine.roots at member
  rw [first.globals, first.scope] at member
  have there := inside' root member
  cases root with
  | scope id => exact ⟨here, there⟩
  | value v => exact Value.Inside.and here there

theorem Agree.atRest (agree : m.Agree held m') : m.atRest.Agree held m'.atRest := by
  obtain ⟨within, same, inside⟩ := agree.store
  refine ⟨agree.globals, agree.globals, rfl, agree.output, agree.readings, within, same, ?_⟩
  have globals : within (.scope m.globals) := inside (.scope m.globals) List.mem_cons_self
  exact roots_inside globals globals fun root member => Agree.held_inside inside member

/-- Whoever goes back to a scope and leaves a younger one agrees with who has only gone back. -/
theorem agree_leave {previous : ScopeId}
    (safe : D.Safe m.store (.scope m.globals :: .scope previous :: held))
    (older : ∀ other, .scope other ∈ .scope m.globals :: .scope previous :: held →
      other.index < m.scope.index) :
    Agree held { m with scope := previous } (m.leave config held previous) := by
  unfold leave release
  simp only
  split
  · have back := (Agree.refl held { m with scope := previous }).letGo config safe.sound m.scope
    exact (back.pause config (sound_letGo config safe.sound m.scope)).symm
  · rename_i unmarked
    have gone := safe.free (DisciplineData.not_captured (Bool.eq_false_iff.mpr unmarked)) older
    have fewer : Agree held { m with scope := previous }
        { m with scope := previous, store := m.store.free m.scope } := by
      exact ⟨rfl, rfl, rfl, rfl, rfl, _, gone.match_fewer rfl
        (fun id scope found => Store.scope?_of_free found) (fun id fields found => found),
        fun root => Store.inside_of_held⟩
    exact (fewer.symm.pause config gone.sound).symm

end Machine
end Lox
