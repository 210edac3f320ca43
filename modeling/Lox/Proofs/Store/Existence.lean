import Lox.Proofs.Store.Collection

namespace Lox

namespace Store

def Refers (s : Store) (holder object : Object) : Prop :=
  object ∈ holder.lasting s ∨ object ∈ holder.loose s

/-- An object exists as long as it is one of some objects that are each referred to from outside or
    by one of them. -/
def Exists (s : Store) (roots : List Root) (object : Object) : Prop :=
  ∃ alive : Object → Prop, alive object ∧ ∀ each, alive each → each ∈ s.objects roots ∧
    ((∃ root ∈ roots, root.object? = some each) ∨ ∃ holder, alive holder ∧ s.Refers holder each)

/-- What the references of existing objects lead to. -/
inductive Reached (s : Store) (roots : List Root) (start : Object → Prop) : Object → Prop where
  | start {object : Object} (member : start object) : Reached s roots start object
  | step {holder object : Object} (before : Reached s roots start holder)
      (existing : s.Exists roots holder) (refers : s.Refers holder object) :
      Reached s roots start object

def FromHandle (s : Store) (roots : List Root) (l : Ledger) : Object → Prop :=
  s.Reached roots fun object => object.key ∈ l.keys

/-- The object is referred to from outside, or by an object that no tracked handle leads to. -/
def HeldOutside (s : Store) (roots : List Root) (l : Ledger) (object : Object) : Prop :=
  (∃ root ∈ roots, root.object? = some object) ∨
    ∃ holder, s.Exists roots holder ∧ s.Refers holder object ∧ ¬ s.FromHandle roots l holder

def Live (s : Store) (roots : List Root) (l : Ledger) : Object → Prop :=
  s.Reached roots (s.HeldOutside roots l)

end Store

/-- What can change about an object is the same in two stores. Functions and classes carry all that
    they consist of. -/
def Object.Unchanged (s s' : Store) : Object → Prop
  | scope id => s'.scope? id = s.scope? id
  | .instance id _ => s'.fields? id = s.fields? id
  | closure _ | .class _ => True

namespace Store

variable {s : Store} {l : Ledger} {roots : List Root} {order : Arrangement}
  {borrowed : Nat → Bool}

theorem Refers.mentions {holder object : Object} (occurs : holder ∈ s.objects roots)
    (refers : s.Refers holder object) : s.Mentions roots object :=
  .inr (.inr ⟨holder, occurs, refers⟩)

theorem Exists.occurs {object : Object} (existing : s.Exists roots object) :
    object ∈ s.objects roots := by
  obtain ⟨alive, here, supported⟩ := existing
  exact (supported object here).1

/-- What exists is what reference counting leaves. -/
theorem Sound.exists_iff (sound : s.Sound roots) (order : Arrangement) {object : Object} :
    s.Exists roots object ↔ object ∈ s.objects roots ∧ object.key ∈ s.present order roots := by
  constructor
  · intro existing
    refine ⟨existing.occurs, ?_⟩
    obtain ⟨alive, here, supported⟩ := existing
    have counted : Graph.Supported (s.graph roots) (Root.keys roots)
        fun key => ∃ each, alive each ∧ each.key = key := by
      rintro _ ⟨each, stays, rfl⟩
      obtain ⟨occurs, place⟩ := supported each stays
      refine ⟨sound.mem_graph_iff.mpr ⟨each, occurs, rfl⟩, ?_⟩
      rcases place with ⟨root, member, held⟩ | ⟨holder, holderStays, refers⟩
      · exact .inl (mem_keys_of_root member held)
      · exact .inr ⟨holder.key, holder.links s, ⟨holder, holderStays, rfl⟩,
          sound.graph_iff.mpr ⟨holder, (supported holder holderStays).1, rfl, rfl⟩,
          mem_links_all.mpr ⟨each, refers, rfl⟩⟩
    exact Graph.settle_keeps order counted ⟨object, here, rfl⟩
  · rintro ⟨occurs, here⟩
    refine ⟨fun each => each ∈ s.objects roots ∧ each.key ∈ s.present order roots,
      ⟨occurs, here⟩, ?_⟩
    rintro each ⟨inside, stays⟩
    refine ⟨inside, ?_⟩
    rcases (present_supported each.key stays).2 with listed | ⟨key, links, holderStays, found, edge⟩
    · obtain ⟨root, member, other, held, same⟩ := mem_keys_iff.mp listed
      cases sound.eq_of_key inside (.held member held) same.symm
      exact .inl ⟨root, member, held⟩
    · obtain ⟨holder, holderInside, rfl, rfl⟩ := sound.graph_iff.mp (present_within key links found)
      obtain ⟨target, refers, same⟩ := mem_links_all.mp edge
      cases sound.eq_of_key inside (Refers.mentions holderInside refers) same.symm
      exact .inr ⟨holder, ⟨holderInside, holderStays⟩, refers⟩

theorem Sound.present_links (sound : s.Sound roots) {object : Object}
    (existing : s.Exists roots object) :
    (s.present order roots)[object.key]? = some (object.links s) := by
  obtain ⟨occurs, here⟩ := (sound.exists_iff order).mp existing
  rw [present, Graph.settle_getElem?_of_mem order here]
  exact sound.graph_iff.mpr ⟨object, occurs, rfl, rfl⟩

theorem Sound.exists_of_present (sound : s.Sound roots) {key : Nat} {links : Links}
    (found : (s.present order roots)[key]? = some links) :
    ∃ object, s.Exists roots object ∧ object.key = key ∧ object.links s = links := by
  obtain ⟨object, occurs, rfl, rfl⟩ := sound.graph_iff.mp (present_within key links found)
  exact ⟨object, (sound.exists_iff order).mpr ⟨occurs, Graph.mem_of_getElem? found⟩, rfl, rfl⟩

theorem Sound.reached_iff (sound : s.Sound roots) (order : Arrangement) {start : Object → Prop}
    {starts : Nat → Prop}
    (agree : ∀ object, s.Mentions roots object → (start object ↔ starts object.key))
    {object : Object} (mentioned : s.Mentions roots object) :
    s.Reached roots start object ↔
      Graph.Path (s.present order roots) Graph.every starts object.key := by
  constructor
  · intro reached
    induction reached with
    | @start object member => exact .start ((agree object mentioned).mp member)
    | @step holder object before existing refers ih =>
      exact .step (ih (.occurs existing.occurs)) (sound.present_links existing)
        (mem_links_all.mpr ⟨object, refers, rfl⟩)
  · intro path
    generalize atKey : object.key = key at path
    induction path generalizing object with
    | start member => exact .start ((agree object mentioned).mpr (atKey ▸ member))
    | step before present edge ih =>
      obtain ⟨holder, existing, rfl, rfl⟩ := sound.exists_of_present present
      obtain ⟨target, refers, same⟩ := mem_links_all.mp edge
      -- The path knows numbers only, but no two objects have the same.
      have equal : target = object := sound.unique target object
        (Refers.mentions existing.occurs refers) mentioned (same.trans atKey.symm)
      subst equal
      exact .step (ih (.occurs existing.occurs) rfl) existing refers

theorem Sound.fromHandle_iff (sound : s.Sound roots) (order : Arrangement) {object : Object}
    (mentioned : s.Mentions roots object) :
    s.FromHandle roots l object ↔
      Graph.FromHandles (s.present order roots) l.keys object.key :=
  sound.reached_iff order (fun _ _ => Iff.rfl) mentioned

theorem Sound.heldOutside_iff (sound : s.Sound roots) (order : Arrangement) {object : Object}
    (mentioned : s.Mentions roots object) :
    s.HeldOutside roots l object ↔
      Graph.External (s.present order roots) (Root.keys roots) l.keys object.key := by
  constructor
  · rintro (⟨root, member, held⟩ | ⟨holder, existing, refers, free⟩)
    · exact .inl (mem_keys_of_root member held)
    · exact .inr ⟨holder.key, holder.links s, sound.present_links existing,
        mem_links_all.mpr ⟨object, refers, rfl⟩,
        fun path => free ((sound.fromHandle_iff order (.occurs existing.occurs)).mpr path)⟩
  · rintro (listed | ⟨key, links, present, edge, free⟩)
    · obtain ⟨root, member, other, held, same⟩ := mem_keys_iff.mp listed
      cases sound.unique other object (.held member held) mentioned same
      exact .inl ⟨root, member, held⟩
    · obtain ⟨holder, existing, rfl, rfl⟩ := sound.exists_of_present present
      obtain ⟨target, refers, same⟩ := mem_links_all.mp edge
      cases sound.unique target object (Refers.mentions existing.occurs refers) mentioned same
      exact .inr ⟨holder, existing, refers,
        fun path => free ((sound.fromHandle_iff order (.occurs existing.occurs)).mp path)⟩

theorem Sound.live_iff (sound : s.Sound roots) (order : Arrangement) {object : Object}
    (mentioned : s.Mentions roots object) :
    s.Live roots l object ↔
      Graph.Held (s.present order roots) (Root.keys roots) l.keys object.key :=
  sound.reached_iff order (fun _ mentioned => sound.heldOutside_iff order mentioned) mentioned

variable (sound : s.Sound roots) (borrowedHeld : ∀ key, borrowed key = true → key ∈ Root.keys roots)
include sound borrowedHeld

/-- What is left after a collection: all that existed, but for what only the handles lead to. -/
theorem Sound.exists_collect_iff {object : Object} :
    (collectWith order borrowed s l roots).1.Exists roots object ↔
      s.Exists roots object ∧ (s.FromHandle roots l object → s.Live roots l object) := by
  have after : (collectWith order borrowed s l roots).1.Sound roots := sound.collected borrowedHeld
  rw [after.exists_iff order, sound.exists_iff order]
  constructor
  · rintro ⟨occurs, -⟩
    obtain ⟨before, here⟩ := (sound.occurs_collect_iff borrowedHeld).mp occurs
    obtain ⟨inside, alive⟩ := (sound.kept_iff borrowedHeld).mp here
    refine ⟨⟨before, inside⟩, fun fromHandle => ?_⟩
    rw [sound.fromHandle_iff order (.occurs before)] at fromHandle
    rw [sound.live_iff order (.occurs before)]
    by_contra free
    exact alive ((Graph.garbage_exact borrowedHeld).mpr ⟨inside, fromHandle, free⟩)
  · rintro ⟨⟨before, inside⟩, live⟩
    have here : object.key ∈ s.kept order borrowed l roots := by
      refine (sound.kept_iff borrowedHeld).mpr ⟨inside, fun garbage => ?_⟩
      obtain ⟨_, fromHandle, free⟩ := (Graph.garbage_exact borrowedHeld).mp garbage
      refine free ((sound.live_iff order (.occurs before)).mp (live ?_))
      exact (sound.fromHandle_iff order (.occurs before)).mpr fromHandle
    have occurs := (sound.occurs_collect_iff borrowedHeld).mpr ⟨before, here⟩
    exact ⟨occurs, sound.present_collect borrowedHeld occurs⟩

theorem Sound.exists_of_occurs_collect {object : Object}
    (occurs : object ∈ (collectWith order borrowed s l roots).1.objects roots) :
    (collectWith order borrowed s l roots).1.Exists roots object := by
  have after : (collectWith order borrowed s l roots).1.Sound roots := sound.collected borrowedHeld
  exact (after.exists_iff order).mpr ⟨occurs, sound.present_collect borrowedHeld occurs⟩

theorem Sound.unchanged_collect {object : Object}
    (existing : (collectWith order borrowed s l roots).1.Exists roots object) :
    object.Unchanged s (collectWith order borrowed s l roots).1 := by
  have here := ((sound.occurs_collect_iff borrowedHeld).mp existing.occurs).2
  cases object with
  | scope id => exact (sound.scope?_collect borrowedHeld id).trans (if_pos here)
  | «instance» id type => exact (sound.fields?_collect borrowedHeld id).trans (if_pos here)
  | closure _ | «class» _ => trivial

/-- The store has a scope or an instance if and only if it still exists. -/
theorem Sound.holds_collect_iff {node : Node} :
    (collectWith order borrowed s l roots).1.holds node = true ↔
      ∃ object, object.node? = some node ∧
        (collectWith order borrowed s l roots).1.Exists roots object := by
  constructor
  · intro held
    cases node with
    | scope id =>
      rw [holds, Std.TreeMap.contains_eq_isSome_getElem?] at held
      exact ⟨.scope id, rfl, sound.exists_of_occurs_collect borrowedHeld
        (scope_mem_objects_iff.mpr (Option.isSome_iff_exists.mp held))⟩
    | «instance» id =>
      rw [holds, Std.TreeMap.contains_eq_isSome_getElem?] at held
      obtain ⟨fields, found⟩ := Option.isSome_iff_exists.mp held
      have before : (collectWith order borrowed s l roots).1.fields? id = some fields := found
      rw [sound.fields?_collect borrowedHeld] at before
      split at before
      · rename_i here
        obtain ⟨object, occurs, atKey⟩ := sound.occurs_of_kept borrowedHeld here
        obtain ⟨type, rfl⟩ := sound.owner id fields before object (.occurs occurs) atKey
        exact ⟨.instance id type, rfl, sound.exists_of_occurs_collect borrowedHeld
          (sound.occurs_collect borrowedHeld occurs here)⟩
      · cases before
  · rintro ⟨object, same, existing⟩
    cases object with
    | scope id =>
      cases same
      obtain ⟨scope, found⟩ := scope_mem_objects_iff.mp existing.occurs
      rw [holds, Std.TreeMap.contains_eq_isSome_getElem?]
      exact Option.isSome_iff_exists.mpr ⟨scope, found⟩
    | «instance» id type =>
      cases same
      have after : (collectWith order borrowed s l roots).1.Sound roots :=
        sound.collected borrowedHeld
      rw [holds, Std.TreeMap.contains_eq_isSome_getElem?]
      exact Option.isSome_iff_exists.mpr (after.stored id type existing.occurs)
    | closure _ | «class» _ => cases same

omit borrowedHeld sound

structure Intact (s : Store) (roots : List Root) : Prop extends s.Sound roots where
  whole : ∀ id, s.Mentions roots (.scope id) → ∃ scope, s.scope? id = some scope

theorem Intact.occurs (intact : s.Intact roots) {object : Object}
    (mentioned : s.Mentions roots object) : object ∈ s.objects roots := by
  cases object with
  | scope id => exact scope_mem_objects_iff.mpr (intact.whole id mentioned)
  | closure _ | «class» _ | «instance» _ _ =>
    rcases mentioned with occurs | ⟨root, member, held⟩ | ⟨holder, occurs, lasting | loose⟩
    · exact occurs
    · cases root with
      | scope id => cases held
      | value v => exact mem_objects_iff.mpr (.inr (.inr ⟨_, member, Root.object_mem held⟩))
    · exact lasting_occurs occurs lasting (by simp)
    · exact loose_occurs loose

theorem Intact.exists_of_root (intact : s.Intact roots) {root : Root} {object : Object}
    (member : root ∈ roots) (held : root.object? = some object) : s.Exists roots object := by
  have occurs := intact.occurs (.held member held)
  exact (intact.exists_iff .given).mpr ⟨occurs, intact.root_present member held occurs⟩

theorem Intact.exists_of_refers (intact : s.Intact roots) {holder object : Object}
    (existing : s.Exists roots holder) (refers : s.Refers holder object) :
    s.Exists roots object := by
  obtain ⟨before, inside⟩ := (intact.exists_iff .given).mp existing
  have occurs := intact.occurs (Refers.mentions before refers)
  exact (intact.exists_iff .given).mpr ⟨occurs, intact.present_closed before inside occurs refers⟩

theorem Intact.exists_of_live (intact : s.Intact roots) {object : Object}
    (live : s.Live roots l object) : s.Exists roots object := by
  cases live with
  | start held =>
    rcases held with ⟨root, member, same⟩ | ⟨holder, existing, refers, _⟩
    · exact intact.exists_of_root member same
    · exact intact.exists_of_refers existing refers
  | step before existing refers => exact intact.exists_of_refers existing refers

theorem Intact.collected (intact : s.Intact roots)
    (borrowedHeld : ∀ key, borrowed key = true → key ∈ Root.keys roots) :
    (collectWith order borrowed s l roots).1.Intact roots := by
  refine ⟨intact.toSound.collected borrowedHeld, fun id mentioned => ?_⟩
  obtain ⟨scope, found⟩ := intact.whole id (intact.mentions_collect borrowedHeld mentioned)
  have occurs : .scope id ∈ s.objects roots := scope_mem_objects_iff.mpr ⟨scope, found⟩
  refine scope_mem_objects_iff.mp (intact.occurs_collect borrowedHeld occurs ?_)
  rcases mentioned with after | ⟨root, member, held⟩ | ⟨holder, after, edge⟩
  · exact ((intact.occurs_collect_iff borrowedHeld).mp after).2
  · exact intact.root_kept borrowedHeld member held occurs
  · obtain ⟨before, here⟩ := (intact.occurs_collect_iff borrowedHeld).mp after
    rw [intact.lasting_collect borrowedHeld here, intact.loose_collect borrowedHeld here] at edge
    exact intact.kept_closed borrowedHeld before here occurs edge

end Store
end Lox
