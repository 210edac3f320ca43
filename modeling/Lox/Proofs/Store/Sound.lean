import Lox.Proofs.Reclaim.TrialDeletion
import Lox.Proofs.Store.Objects

namespace Lox

namespace Store

structure Sound (s : Store) (roots : List Root) : Prop where
  unique : ∀ object other, s.Mentions roots object → s.Mentions roots other →
    object.key = other.key → object = other
  aged : ∀ object ∈ s.objects roots, ∀ older ∈ object.lasting s, older.key < object.key
  bounded : ∀ object, s.Mentions roots object → object.key < s.next
  fields_lt : ∀ id fields, s.fields? id = some fields → id.index < s.next
  owner : ∀ id fields, s.fields? id = some fields → ∀ object, s.Mentions roots object →
    object.key = id.index → ∃ type, object = .instance id type
  stored : ∀ id type, .instance id type ∈ s.objects roots → ∃ fields, s.fields? id = some fields

variable {s : Store} {roots : List Root}

theorem Mentions.occurs {object : Object} (member : object ∈ s.objects roots) :
    s.Mentions roots object := .inl member

theorem Mentions.lasting {holder object : Object} (member : holder ∈ s.objects roots)
    (edge : object ∈ holder.lasting s) : s.Mentions roots object :=
  .inr (.inr ⟨holder, member, .inl edge⟩)

theorem Mentions.held {root : Root} {object : Object} (member : root ∈ roots)
    (found : root.object? = some object) : s.Mentions roots object :=
  .inr (.inl ⟨root, member, found⟩)

theorem getElem?_enroll (g : Graph) (object : Object) (key : Nat) :
    (s.enroll g object)[key]? =
      g[key]?.or (if object.key = key then some (object.links s) else none) := by
  unfold enroll
  by_cases same : object.key = key
  · subst same
    rw [Std.TreeMap.contains_eq_isSome_getElem?]
    cases atKey : g[object.key]? <;> simp [atKey]
  · split <;> simp [same, Std.TreeMap.getElem?_insert]

theorem getElem?_foldl_enroll (objects : List Object) (g : Graph) (key : Nat) :
    (objects.foldl s.enroll g)[key]? =
      g[key]?.or ((objects.find? (·.key = key)).map (·.links s)) := by
  induction objects generalizing g with
  | nil => simp
  | cons object rest ih =>
    rw [List.foldl_cons, ih, getElem?_enroll, List.find?_cons]
    by_cases same : object.key = key
    · cases g[key]? <;> simp [same]
    · simp [same]

theorem getElem?_graph (key : Nat) :
    (s.graph roots)[key]? = ((s.objects roots).find? (·.key = key)).map (·.links s) := by
  unfold graph
  rw [getElem?_foldl_enroll]
  simp

theorem Sound.graph_iff (sound : s.Sound roots) {key : Nat} {links : Links} :
    (s.graph roots)[key]? = some links ↔
      ∃ object ∈ s.objects roots, object.key = key ∧ object.links s = links := by
  rw [getElem?_graph, Option.map_eq_some_iff]
  constructor
  · rintro ⟨object, found, same⟩
    exact ⟨object, List.mem_of_find?_eq_some found,
      by simpa using List.find?_some found, same⟩
  · rintro ⟨object, member, atKey, same⟩
    cases found : (s.objects roots).find? (·.key = key) with
    | none =>
      have missing := List.find?_eq_none.mp found object member
      simp [atKey] at missing
    | some other =>
      have sameKey : other.key = key := by simpa using List.find?_some found
      have equal : other = object := sound.unique _ _
        (.occurs (List.mem_of_find?_eq_some found)) (.occurs member) (sameKey.trans atKey.symm)
      exact ⟨other, rfl, equal ▸ same⟩

theorem Sound.mem_graph_iff (sound : s.Sound roots) {key : Nat} :
    key ∈ s.graph roots ↔ ∃ object ∈ s.objects roots, object.key = key := by
  constructor
  · intro member
    obtain ⟨links, present⟩ := Graph.getElem?_of_mem member
    obtain ⟨object, inside, atKey, _⟩ := sound.graph_iff.mp present
    exact ⟨object, inside, atKey⟩
  · rintro ⟨object, inside, atKey⟩
    exact Graph.mem_of_getElem? (sound.graph_iff.mpr ⟨object, inside, atKey, rfl⟩)

theorem Sound.graph_aged (sound : s.Sound roots) : (s.graph roots).Aged := by
  intro key links present reference edge
  obtain ⟨object, member, rfl, rfl⟩ := sound.graph_iff.mp present
  obtain ⟨older, inside, rfl⟩ := List.mem_map.mp edge
  exact sound.aged object member older inside

theorem Sound.eq_of_key (sound : s.Sound roots) {object other : Object}
    (occurs : object ∈ s.objects roots) (mentioned : s.Mentions roots other)
    (same : object.key = other.key) : object = other :=
  sound.unique _ _ (.occurs occurs) mentioned same

theorem mem_links_all {object : Object} {reference : Nat} :
    reference ∈ (object.links s).all ↔
      ∃ target, (target ∈ object.lasting s ∨ target ∈ object.loose s) ∧ target.key = reference := by
  simp only [Object.links, Links.all, List.mem_append, List.mem_map]
  constructor
  · rintro (⟨target, edge, same⟩ | ⟨target, edge, same⟩)
    · exact ⟨target, .inr edge, same⟩
    · exact ⟨target, .inl edge, same⟩
  · rintro ⟨target, edge | edge, same⟩
    · exact .inr ⟨target, edge, same⟩
    · exact .inl ⟨target, edge, same⟩

end Store
end Lox
