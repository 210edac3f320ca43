import Lox.Proofs.Store.Sound

namespace Lox

namespace Store

section restrict

variable (s : Store) (g dead : Graph)

theorem scope?_restrict (id : ScopeId) :
    (s.restrict g dead).scope? id =
      if id.index ∈ g then (s.scope? id).map fun scope =>
        if id.index ∈ dead then { scope with bindings := [] } else scope
      else none := by
  simp only [restrict, scope?, Std.TreeMap.getElem?_filterMap', ← Std.TreeMap.mem_iff_contains]
  split <;> cases s.scopes[id.index]? <;> simp

theorem fields?_restrict (id : InstanceId) :
    (s.restrict g dead).fields? id =
      if id.index ∈ g then (s.fields? id).map fun fields => if id.index ∈ dead then [] else fields
      else none := by
  simp only [restrict, fields?, Std.TreeMap.getElem?_filterMap', ← Std.TreeMap.mem_iff_contains]
  split <;> cases s.instances[id.index]? <;> simp

end restrict

def dead (order : Arrangement) (borrowed : Nat → Bool) (s : Store) (l : Ledger)
    (roots : List Root) : Graph :=
  (s.present order roots).garbage order borrowed (Root.keys roots) l.keys

def kept (order : Arrangement) (borrowed : Nat → Bool) (s : Store) (l : Ledger)
    (roots : List Root) : Graph :=
  ((s.present order roots).empty (s.dead order borrowed l roots)).settle order (Root.keys roots)

theorem collectWith_eq (order : Arrangement) (borrowed : Nat → Bool) (s : Store) (l : Ledger)
    (roots : List Root) :
    collectWith order borrowed s l roots =
      (s.restrict (s.kept order borrowed l roots) (s.dead order borrowed l roots),
        l.settle (s.restrict (s.kept order borrowed l roots) (s.dead order borrowed l roots))) :=
  rfl

variable {s : Store} {l : Ledger} {roots : List Root} {order : Arrangement}
  {borrowed : Nat → Bool}

theorem present_within : Graph.Within (s.present order roots) (s.graph roots) :=
  Graph.settle_within order _ _

theorem kept_subset_present {key : Nat} (here : key ∈ s.kept order borrowed l roots) :
    key ∈ s.present order roots := by
  obtain ⟨links, found⟩ := Graph.getElem?_of_mem here
  have before := Graph.settle_within order _ _ key links found
  rw [Graph.getElem?_empty] at before
  obtain ⟨links', present, _⟩ := Option.map_eq_some_iff.mp before
  exact Graph.mem_of_getElem? present

theorem scope?_settle {id : ScopeId} (unreferred : s.isReferred roots id = false) :
    (s.settle roots).scope? id = none := by
  have absent : id.index ∉ s.present .given roots := fun here => by
    rw [isReferred, Std.TreeMap.mem_iff_contains.mp here, Bool.or_true] at unreferred
    cases unreferred
  rw [settle, collect, collectWith_eq, scope?_restrict,
    if_neg fun here => absent (kept_subset_present here)]

theorem present_supported : Graph.Supported (s.present order roots) (Root.keys roots)
    (· ∈ s.present order roots) := Graph.settle_supported order _ _

theorem mem_keys_of_root {root : Root} {object : Object} (member : root ∈ roots)
    (found : root.object? = some object) : object.key ∈ Root.keys roots :=
  List.mem_filterMap.mpr ⟨root, member, by rw [found]; rfl⟩

theorem mem_keys_iff {key : Nat} :
    key ∈ Root.keys roots ↔ ∃ root ∈ roots, ∃ object, root.object? = some object ∧
      object.key = key := by
  simp only [Root.keys, List.mem_filterMap, Option.map_eq_some_iff]

variable (sound : s.Sound roots) (borrowedHeld : ∀ key, borrowed key = true → key ∈ Root.keys roots)
include sound

theorem Sound.present_aged : (s.present order roots).Aged :=
  fun key links found => sound.graph_aged key links (present_within key links found)

theorem Sound.present_closed {holder object : Object} (occurs : holder ∈ s.objects roots)
    (here : holder.key ∈ s.present order roots) (target : object ∈ s.objects roots)
    (edge : object ∈ holder.lasting s ∨ object ∈ holder.loose s) :
    object.key ∈ s.present order roots := by
  have atHolder : (s.present order roots)[holder.key]? = some (holder.links s) := by
    rw [present, Graph.settle_getElem?_of_mem order here]
    exact sound.graph_iff.mpr ⟨holder, occurs, rfl, rfl⟩
  have supported : Graph.Supported (s.graph roots) (Root.keys roots)
      fun key => key ∈ s.present order roots ∨ key = object.key := by
    rintro key (inside | rfl)
    · obtain ⟨links, found⟩ := Graph.getElem?_of_mem inside
      refine ⟨Graph.mem_of_getElem? (present_within key links found), ?_⟩
      rcases (present_supported key inside).2 with listed | ⟨other, links, stays, found, toKey⟩
      · exact .inl listed
      · exact .inr ⟨other, links, .inl stays, present_within other links found, toKey⟩
    · exact ⟨sound.mem_graph_iff.mpr ⟨object, target, rfl⟩, .inr ⟨holder.key, holder.links s,
        .inl here, present_within _ _ atHolder, mem_links_all.mpr ⟨object, edge, rfl⟩⟩⟩
  exact Graph.settle_keeps order supported (.inr rfl)

theorem Sound.root_present {root : Root} {object : Object} (member : root ∈ roots)
    (found : root.object? = some object) (target : object ∈ s.objects roots) :
    object.key ∈ s.present order roots := by
  have supported : Graph.Supported (s.graph roots) (Root.keys roots) (· = object.key) := by
    rintro key rfl
    exact ⟨sound.mem_graph_iff.mpr ⟨object, target, rfl⟩, .inl (mem_keys_of_root member found)⟩
  exact Graph.settle_keeps order supported rfl

include borrowedHeld

theorem Sound.kept_iff {key : Nat} :
    key ∈ s.kept order borrowed l roots ↔
      key ∈ s.present order roots ∧ key ∉ s.dead order borrowed l roots :=
  Graph.reclaimed_iff borrowedHeld present_supported sound.present_aged

theorem Sound.occurs_of_kept {key : Nat} (here : key ∈ s.kept order borrowed l roots) :
    ∃ object ∈ s.objects roots, object.key = key := by
  obtain ⟨links, found⟩ := Graph.getElem?_of_mem ((sound.kept_iff borrowedHeld).mp here).1
  exact sound.mem_graph_iff.mp (Graph.mem_of_getElem? (present_within key links found))

theorem Sound.kept_getElem? {key : Nat} (here : key ∈ s.kept order borrowed l roots) :
    (s.kept order borrowed l roots)[key]? = (s.graph roots)[key]? := by
  rw [kept, dead, Graph.reclaimed_getElem? borrowedHeld present_supported sound.present_aged here,
    present, Graph.settle_getElem?_of_mem]
  exact ((sound.kept_iff borrowedHeld).mp here).1

theorem Sound.root_kept {root : Root} {object : Object} (member : root ∈ roots)
    (found : root.object? = some object) (target : object ∈ s.objects roots) :
    object.key ∈ s.kept order borrowed l roots :=
  (sound.kept_iff borrowedHeld).mpr ⟨sound.root_present member found target,
    Graph.not_garbage_of_held (.start (.inl (mem_keys_of_root member found)))⟩

theorem Sound.kept_closed {holder object : Object} (occurs : holder ∈ s.objects roots)
    (here : holder.key ∈ s.kept order borrowed l roots) (target : object ∈ s.objects roots)
    (edge : object ∈ holder.lasting s ∨ object ∈ holder.loose s) :
    object.key ∈ s.kept order borrowed l roots := by
  obtain ⟨inside, alive⟩ := (sound.kept_iff borrowedHeld).mp here
  refine (sound.kept_iff borrowedHeld).mpr
    ⟨sound.present_closed occurs inside target edge, fun garbage => ?_⟩
  obtain ⟨_, _, free⟩ := (Graph.garbage_exact borrowedHeld).mp garbage
  have atHolder : (s.present order roots)[holder.key]? = some (holder.links s) := by
    rw [present, Graph.settle_getElem?_of_mem order inside]
    exact sound.graph_iff.mpr ⟨holder, occurs, rfl, rfl⟩
  have toObject := mem_links_all.mpr ⟨object, edge, rfl⟩
  apply alive
  refine (Graph.garbage_exact borrowedHeld).mpr ⟨inside, ?_, fun held => ?_⟩
  · by_contra apart
    exact free (.start (.inr ⟨_, _, atHolder, toObject, apart⟩))
  · exact free (held.step atHolder toObject)

theorem Sound.scope?_collect (id : ScopeId) :
    (collectWith order borrowed s l roots).1.scope? id =
      if id.index ∈ s.kept order borrowed l roots then s.scope? id else none := by
  rw [collectWith_eq, scope?_restrict]
  split
  · rename_i here
    simp only [if_neg ((sound.kept_iff borrowedHeld).mp here).2, Option.map_id']
  · rfl

theorem Sound.fields?_collect (id : InstanceId) :
    (collectWith order borrowed s l roots).1.fields? id =
      if id.index ∈ s.kept order borrowed l roots then s.fields? id else none := by
  rw [collectWith_eq, fields?_restrict]
  split
  · rename_i here
    simp only [if_neg ((sound.kept_iff borrowedHeld).mp here).2, Option.map_id']
  · rfl

theorem Sound.value_kept {v : Value} (occur : ∀ object ∈ v.objects, object ∈ s.objects roots)
    (start : ∀ object, v.object? = some object → object.key ∈ s.kept order borrowed l roots) :
    ∀ object ∈ v.objects, object.key ∈ s.kept order borrowed l roots := by
  have parts : ∀ type : Class, (∀ object ∈ type.objects, object ∈ s.objects roots) →
      (Object.class type).key ∈ s.kept order borrowed l roots →
      ∀ object ∈ type.objects, object.key ∈ s.kept order borrowed l roots :=
    fun type within here => type.objects_induction s here fun part inside holds object edge member =>
      sound.kept_closed borrowedHeld (within part inside) holds (within object member) (.inl edge)
  cases v with
  | closure function => exact fun object member => start object (by
      rw [List.mem_singleton.mp member]
      rfl)
  | «class» type => exact parts type occur (start _ rfl)
  | «instance» id type =>
    have here := start _ rfl
    have within : ∀ object ∈ type.objects, object ∈ s.objects roots :=
      fun object member => occur object (List.mem_cons_of_mem _ member)
    intro object member
    rcases List.mem_cons.mp member with rfl | part
    · exact here
    · exact parts type within (sound.kept_closed borrowedHeld (occur _ List.mem_cons_self) here
        (within _ type.mem_objects) (.inl (List.mem_singleton_self _))) object part
  | nil | bool _ | number _ | string _ | native _ => exact fun _ member => by cases member

theorem Sound.bindings_kept {bindings : Bindings}
    (occur : ∀ object ∈ bindings.objects, object ∈ s.objects roots)
    (start : ∀ object ∈ bindings.bound, object.key ∈ s.kept order borrowed l roots) :
    ∀ object ∈ bindings.objects, object.key ∈ s.kept order borrowed l roots := by
  intro object member
  obtain ⟨entry, inside, part⟩ := Bindings.mem_objects_iff.mp member
  exact sound.value_kept borrowedHeld
    (fun other within => occur other (Bindings.mem_objects_iff.mpr ⟨entry, inside, within⟩))
    (fun other found => start other (Bindings.mem_bound_iff.mpr ⟨entry, inside, found⟩)) object part

theorem Sound.kept_of_occurs_collect {object : Object}
    (occurs : object ∈ (collectWith order borrowed s l roots).1.objects roots) :
    object ∈ s.objects roots ∧ object.key ∈ s.kept order borrowed l roots := by
  rcases mem_objects_iff.mp occurs with ⟨id, scope, found, place⟩ | ⟨id, fields, found, inside⟩ |
    ⟨root, member, inside⟩
  · rw [sound.scope?_collect borrowedHeld] at found
    split at found
    · rename_i here
      rcases place with rfl | inside
      · exact ⟨scope_mem_objects_iff.mpr ⟨scope, found⟩, here⟩
      · have occur : ∀ other ∈ Bindings.objects scope.bindings, other ∈ s.objects roots :=
          fun other within => mem_objects_iff.mpr (.inl ⟨id, scope, found, .inr within⟩)
        refine ⟨occur object inside, sound.bindings_kept borrowedHeld occur (fun other bound => ?_)
          object inside⟩
        exact sound.kept_closed borrowedHeld (scope_mem_objects_iff.mpr ⟨scope, found⟩) here
          (occur other (Bindings.bound_subset bound)) (.inr (by simpa [Object.loose, found] using bound))
    · cases found
  · rw [sound.fields?_collect borrowedHeld] at found
    split at found
    · rename_i here
      obtain ⟨holder, occurs, atKey⟩ := sound.occurs_of_kept borrowedHeld here
      obtain ⟨type, rfl⟩ := sound.owner id fields found holder (.occurs occurs) atKey
      have occur : ∀ other ∈ Bindings.objects fields, other ∈ s.objects roots :=
        fun other within => mem_objects_iff.mpr (.inr (.inl ⟨id, fields, found, within⟩))
      refine ⟨occur object inside, sound.bindings_kept borrowedHeld occur (fun other bound => ?_)
        object inside⟩
      exact sound.kept_closed borrowedHeld occurs here (occur other (Bindings.bound_subset bound))
        (.inr (by simpa [Object.loose, found] using bound))
    · cases found
  · have occur : ∀ other ∈ root.objects, other ∈ s.objects roots :=
      fun other within => mem_objects_iff.mpr (.inr (.inr ⟨root, member, within⟩))
    cases root with
    | scope id => cases inside
    | value v =>
      exact ⟨occur object inside, sound.value_kept borrowedHeld occur
        (fun other found => sound.root_kept borrowedHeld member found
          (occur other (Root.object_mem found))) object inside⟩

theorem Sound.scope_occurs_collect {id : ScopeId} (occurs : .scope id ∈ s.objects roots)
    (here : id.index ∈ s.kept order borrowed l roots) :
    .scope id ∈ (collectWith order borrowed s l roots).1.objects roots := by
  obtain ⟨scope, found⟩ := scope_mem_objects_iff.mp occurs
  refine scope_mem_objects_iff.mpr ⟨scope, ?_⟩
  rw [sound.scope?_collect borrowedHeld, if_pos here, found]

theorem Sound.lasting_collect {object : Object} (here : object.key ∈ s.kept order borrowed l roots) :
    object.lasting (collectWith order borrowed s l roots).1 = object.lasting s := by
  cases object with
  | scope id =>
    simp only [Object.lasting]
    rw [sound.scope?_collect borrowedHeld, if_pos (show id.index ∈ _ from here)]
  | closure _ | «class» _ | «instance» _ _ => rfl

theorem Sound.loose_collect {object : Object} (here : object.key ∈ s.kept order borrowed l roots) :
    object.loose (collectWith order borrowed s l roots).1 = object.loose s := by
  cases object with
  | scope id =>
    simp only [Object.loose]
    rw [sound.scope?_collect borrowedHeld, if_pos (show id.index ∈ _ from here)]
  | «instance» id type =>
    simp only [Object.loose]
    rw [sound.fields?_collect borrowedHeld, if_pos (show id.index ∈ _ from here)]
  | closure _ | «class» _ => rfl

theorem Sound.loose_occurs_collect {holder object : Object}
    (here : holder.key ∈ s.kept order borrowed l roots) (edge : object ∈ holder.loose s) :
    object ∈ (collectWith order borrowed s l roots).1.objects roots := by
  rw [← sound.loose_collect borrowedHeld here] at edge
  exact loose_occurs edge

theorem Sound.occurs_collect {object : Object} (occurs : object ∈ s.objects roots)
    (here : object.key ∈ s.kept order borrowed l roots) :
    object ∈ (collectWith order borrowed s l roots).1.objects roots := by
  -- what supports an object without occurring by itself is newer
  induction distance : s.next - object.key using Nat.strongRecOn generalizing object with
  | _ distance ih =>
    rcases (Graph.settle_supported order _ (Root.keys roots) object.key here).2 with
      listed | ⟨holderKey, links, stays, found, edge⟩
    · obtain ⟨root, member, other, held, same⟩ := mem_keys_iff.mp listed
      cases sound.eq_of_key occurs (.held member held) same.symm
      cases root with
      | scope id =>
        cases held
        exact sound.scope_occurs_collect borrowedHeld occurs here
      | value v => exact mem_objects_iff.mpr (.inr (.inr ⟨_, member, Root.object_mem held⟩))
    · have original := (sound.kept_getElem? borrowedHeld stays).symm.trans found
      obtain ⟨holder, holderOccurs, rfl, rfl⟩ := sound.graph_iff.mp original
      obtain ⟨target, place, same⟩ := mem_links_all.mp edge
      have mentioned : s.Mentions roots target := .inr (.inr ⟨holder, holderOccurs, place⟩)
      cases sound.eq_of_key occurs mentioned same.symm
      rcases place with lasting | loose
      · have older := sound.aged holder holderOccurs object lasting
        have bounded := sound.bounded holder (.occurs holderOccurs)
        have holderStays := ih _ (by omega) holderOccurs stays rfl
        cases object with
        | scope id => exact sound.scope_occurs_collect borrowedHeld occurs here
        | closure _ | «class» _ | «instance» _ _ =>
          rw [← sound.lasting_collect borrowedHeld stays] at lasting
          exact lasting_occurs holderStays lasting (by simp)
      · exact sound.loose_occurs_collect borrowedHeld stays loose

theorem Sound.occurs_collect_iff {object : Object} :
    object ∈ (collectWith order borrowed s l roots).1.objects roots ↔
      object ∈ s.objects roots ∧ object.key ∈ s.kept order borrowed l roots :=
  ⟨sound.kept_of_occurs_collect borrowedHeld,
    fun ⟨occurs, here⟩ => sound.occurs_collect borrowedHeld occurs here⟩

theorem Sound.mentions_collect {object : Object}
    (mentioned : (collectWith order borrowed s l roots).1.Mentions roots object) :
    s.Mentions roots object := by
  rcases mentioned with occurs | held | ⟨holder, occurs, edge⟩
  · exact .inl ((sound.occurs_collect_iff borrowedHeld).mp occurs).1
  · exact .inr (.inl held)
  · obtain ⟨before, here⟩ := (sound.occurs_collect_iff borrowedHeld).mp occurs
    rw [sound.lasting_collect borrowedHeld here, sound.loose_collect borrowedHeld here] at edge
    exact .inr (.inr ⟨holder, before, edge⟩)

theorem Sound.collected : (collectWith order borrowed s l roots).1.Sound roots := by
  have oldFields : ∀ id fields, (collectWith order borrowed s l roots).1.fields? id = some fields →
      s.fields? id = some fields := by
    intro id fields found
    rw [sound.fields?_collect borrowedHeld] at found
    split at found
    · exact found
    · cases found
  refine ⟨?unique, ?aged, ?bounded, ?fields_lt, ?owner, ?stored⟩
  case unique =>
    exact fun object other first second =>
      sound.unique object other (sound.mentions_collect borrowedHeld first)
        (sound.mentions_collect borrowedHeld second)
  case aged =>
    intro object occurs older edge
    obtain ⟨before, here⟩ := (sound.occurs_collect_iff borrowedHeld).mp occurs
    rw [sound.lasting_collect borrowedHeld here] at edge
    exact sound.aged object before older edge
  case bounded =>
    exact fun object mentioned => sound.bounded object (sound.mentions_collect borrowedHeld mentioned)
  case fields_lt =>
    exact fun id fields found => sound.fields_lt id fields (oldFields id fields found)
  case owner =>
    exact fun id fields found object mentioned =>
      sound.owner id fields (oldFields id fields found) object
        (sound.mentions_collect borrowedHeld mentioned)
  case stored =>
    intro id type occurs
    obtain ⟨before, here⟩ := (sound.occurs_collect_iff borrowedHeld).mp occurs
    rw [sound.fields?_collect borrowedHeld, if_pos (show id.index ∈ _ from here)]
    exact sound.stored id type before

/-- After a collection reference counting has nothing left to take away. -/
theorem Sound.present_collect {object : Object}
    (occurs : object ∈ (collectWith order borrowed s l roots).1.objects roots) :
    object.key ∈ (collectWith order borrowed s l roots).1.present order roots := by
  have after : (collectWith order borrowed s l roots).1.Sound roots := sound.collected borrowedHeld
  have supported : Graph.Supported ((collectWith order borrowed s l roots).1.graph roots)
      (Root.keys roots) (· ∈ s.kept order borrowed l roots) := by
    intro key here
    obtain ⟨holder, before, rfl⟩ := sound.occurs_of_kept borrowedHeld here
    refine ⟨after.mem_graph_iff.mpr ⟨holder, sound.occurs_collect borrowedHeld before here, rfl⟩, ?_⟩
    rcases (Graph.settle_supported order _ (Root.keys roots) holder.key here).2 with
      listed | ⟨other, links, stays, found, edge⟩
    · exact .inl listed
    · have original := (sound.kept_getElem? borrowedHeld stays).symm.trans found
      obtain ⟨source, sourceBefore, rfl, rfl⟩ := sound.graph_iff.mp original
      refine .inr ⟨source.key, _, stays, after.graph_iff.mpr
        ⟨source, sound.occurs_collect borrowedHeld sourceBefore stays, rfl, rfl⟩, ?_⟩
      rw [Object.links, sound.lasting_collect borrowedHeld stays,
        sound.loose_collect borrowedHeld stays]
      exact edge
  exact Graph.settle_keeps order supported
    ((sound.occurs_collect_iff borrowedHeld).mp occurs).2

end Store
end Lox
