import Mathlib.Tactic.ByContra
import Lox.Proofs.Reclaim.Explore

namespace Lox

namespace Graph

def every (_ : Nat) (links : Links) : List Nat := links.all

def FromHandles (g : Graph) (handles : List Nat) : Nat → Prop := Path g every (· ∈ handles)

def External (g : Graph) (external handles : List Nat) (key : Nat) : Prop :=
  key ∈ external ∨ ∃ (holder : Nat) (links : Links), g[holder]? = some links ∧ key ∈ links.all ∧
    ¬ FromHandles g handles holder

/-- What can be reached from an object that is referred to from outside. -/
def Held (g : Graph) (external handles : List Nat) : Nat → Prop :=
  Path g every (External g external handles)

theorem Held.step {g : Graph} {external handles : List Nat} {key reference : Nat} {links : Links}
    (held : Held g external handles key) (present : g[key]? = some links)
    (edge : reference ∈ links.all) : Held g external handles reference :=
  Path.step held present edge

/-- Of whatever refers to a held object, something is held itself, or is out of reach of the
    handles. -/
theorem Held.supporter {g : Graph} {external handles : List Nat} {key : Nat}
    (held : Held g external handles key) :
    key ∈ external ∨ ∃ (holder : Nat) (links : Links), g[holder]? = some links ∧
      key ∈ links.all ∧ (Held g external handles holder ∨ ¬ FromHandles g handles holder) := by
  cases held with
  | start outside =>
    rcases outside with listed | ⟨holder, links, present, edge, apart⟩
    · exact .inl listed
    · exact .inr ⟨holder, links, present, edge, .inr apart⟩
  | step before present edge => exact .inr ⟨_, _, present, edge, .inl before⟩

variable {order : Arrangement} {borrowed : Nat → Bool} {g : Graph} {external handles : List Nat}

theorem mem_visible {key reference : Nat} {links : Links} :
    reference ∈ visible order borrowed key links ↔
      borrowed key = false ∧ reference ∈ links.all := by
  unfold visible
  split <;> simp_all [(order.perm links.all).mem_iff]

theorem count_visible {key reference : Nat} {links : Links} :
    (visible order borrowed key links).count reference =
      if borrowed key then 0 else links.all.count reference := by
  unfold visible
  split
  · rfl
  · exact (order.perm links.all).count_eq reference

theorem examined_within : Within (g.examined order borrowed handles) g := explore_within _

theorem mem_examined_iff {key : Nat} :
    key ∈ g.examined order borrowed handles ↔
      key ∈ g ∧ Path g (visible order borrowed) (· ∈ handles) key := mem_explore_iff

theorem fromHandles_of_examined {key : Nat} (member : key ∈ g.examined order borrowed handles) :
    FromHandles g handles key :=
  (mem_examined_iff.mp member).2.mono (fun _ start => .start start)
    fun _ _ _ _ _ edge => (mem_visible.mp edge).2

def accounted (borrowed : Nat → Bool) (examined : Graph) (entry : Nat × Links) : Bool :=
  !borrowed entry.1 && examined.contains entry.1

theorem toList_examined (examined : Graph) (within : Within examined g) :
    (examined.toList.filter fun entry => !borrowed entry.1).Perm
      (g.toList.filter (accounted borrowed examined)) := by
  apply (List.perm_ext_iff_of_nodup ((nodup_toList _).filter _) ((nodup_toList _).filter _)).mpr
  rintro ⟨key, links⟩
  simp only [List.mem_filter, Std.TreeMap.mem_toList_iff_getElem?_eq_some, accounted,
    Bool.and_eq_true]
  constructor
  · rintro ⟨present, free⟩
    exact ⟨within _ _ present, free, mem_of_getElem? present⟩
  · rintro ⟨present, free, member⟩
    obtain ⟨found, atKey⟩ := getElem?_of_mem (Std.TreeMap.mem_iff_contains.mpr member)
    have same := within _ _ atKey
    rw [present] at same
    cases same
    exact ⟨atKey, free⟩

theorem count_flatMap_visible (entries : List (Nat × Links)) (reference : Nat) :
    (entries.flatMap fun (key, links) => visible order borrowed key links).count reference =
      ((entries.filter fun entry => !borrowed entry.1).flatMap (·.2.all)).count reference := by
  induction entries with
  | nil => rfl
  | cons entry rest ih =>
    rw [List.flatMap_cons, List.count_append, ih, count_visible, List.filter_cons]
    cases borrowed entry.1 <;> simp [List.count_append]

theorem count_references_split (order : Arrangement) (borrowed : Nat → Bool) (examined : Graph)
    (within : Within examined g) (reference : Nat) :
    g.references.count reference =
      (examined.toList.flatMap fun (key, links) =>
        visible order borrowed key links).count reference +
      ((g.toList.filter fun entry => !accounted borrowed examined entry).flatMap
        (·.2.all)).count reference := by
  have parts := List.filter_append_perm (accounted borrowed examined) g.toList
  have whole := (parts.symm.flatMap_right fun entry : Nat × Links => entry.2.all).count_eq reference
  rw [List.flatMap_append, List.count_append] at whole
  rw [references, whole, count_flatMap_visible,
    ((toList_examined examined within).flatMap_right _).count_eq]

/-- More references than the examined objects account for: one comes from somewhere else. -/
theorem outnumbered_iff (examined : Graph) (within : Within examined g) (key : Nat) :
    (Tally.ofList (examined.toList.flatMap fun (key, links) =>
        visible order borrowed key links)).count key <
      (Tally.ofList (g.references ++ external)).count key ↔
    key ∈ external ∨ ∃ (holder : Nat) (links : Links), g[holder]? = some links ∧
      key ∈ links.all ∧ (borrowed holder = true ∨ holder ∉ examined) := by
  rw [Tally.count_ofList, Tally.count_ofList, List.count_append,
    count_references_split order borrowed examined within]
  have positive : ∀ a b c : Nat, a < a + b + c ↔ 0 < c ∨ 0 < b := by omega
  rw [positive, List.count_pos_iff, List.count_pos_iff]
  apply or_congr Iff.rfl
  simp only [List.mem_flatMap, List.mem_filter, Prod.exists,
    Std.TreeMap.mem_toList_iff_getElem?_eq_some, accounted, Bool.not_and, Bool.not_not,
    Bool.or_eq_true, Bool.not_eq_true', Bool.eq_false_iff, ne_eq, ← Std.TreeMap.mem_iff_contains]
  constructor
  · rintro ⟨holder, links, ⟨present, apart⟩, edge⟩
    exact ⟨holder, links, present, edge, apart⟩
  · rintro ⟨holder, links, present, edge, apart⟩
    exact ⟨holder, links, ⟨present, apart⟩, edge⟩

theorem mem_heldKeys_iff {key : Nat} :
    key ∈ heldKeys order borrowed g external (g.examined order borrowed handles) ↔
      key ∈ g.examined order borrowed handles ∧ (borrowed key = true ∨ key ∈ external ∨
        ∃ (holder : Nat) (links : Links), g[holder]? = some links ∧ key ∈ links.all ∧
          (borrowed holder = true ∨ holder ∉ g.examined order borrowed handles)) := by
  simp only [heldKeys, List.mem_filter, Std.TreeMap.mem_keys, Bool.or_eq_true, decide_eq_true_eq,
    outnumbered_iff _ examined_within]

theorem mem_garbage_iff {key : Nat} :
    key ∈ g.garbage order borrowed external handles ↔
      key ∈ g.examined order borrowed handles ∧
        ¬ Path (g.examined order borrowed handles) (visible order borrowed)
          (· ∈ heldKeys order borrowed g external (g.examined order borrowed handles)) key := by
  unfold garbage
  simp only [Std.TreeMap.mem_filter, Std.TreeMap.getKey_eq, Bool.not_eq_true', Bool.eq_false_iff,
    ne_eq, ← Std.TreeMap.mem_iff_contains, mem_explore_iff, (order.perm _).mem_iff, exists_prop]
  constructor
  · rintro ⟨member, out⟩
    exact ⟨member, fun path => out ⟨member, path⟩⟩
  · rintro ⟨member, out⟩
    exact ⟨member, fun live => out live.2⟩

theorem not_garbage_of_held {key : Nat} (held : Held g external handles key) :
    key ∉ g.garbage order borrowed external handles := by
  suffices live : key ∈ g.examined order borrowed handles →
      Path (g.examined order borrowed handles) (visible order borrowed)
        (· ∈ heldKeys order borrowed g external (g.examined order borrowed handles)) key from
    fun member => (mem_garbage_iff.mp member).2 (live (mem_garbage_iff.mp member).1)
  -- A path from outside enters what has been examined at some point; from there on the search can
  -- see it.
  induction held with
  | start outside =>
    intro member
    refine .start (mem_heldKeys_iff.mpr ⟨member, .inr ?_⟩)
    rcases outside with listed | ⟨holder, links, present, edge, apart⟩
    · exact .inl listed
    · exact .inr ⟨holder, links, present, edge,
        .inr fun examined => apart (fromHandles_of_examined examined)⟩
  | @step holder key links before present edge ih =>
    intro member
    by_cases inside : holder ∈ g.examined order borrowed handles
    · cases free : borrowed holder with
      | true =>
        exact .start (mem_heldKeys_iff.mpr
          ⟨member, .inr (.inr ⟨holder, links, present, edge, .inl free⟩)⟩)
      | false =>
        obtain ⟨found, atHolder⟩ := getElem?_of_mem inside
        have same := examined_within _ _ atHolder
        rw [present] at same
        cases same
        exact .step (ih inside) atHolder (mem_visible.mpr ⟨free, edge⟩)
    · exact .start (mem_heldKeys_iff.mpr
        ⟨member, .inr (.inr ⟨holder, links, present, edge, .inr inside⟩)⟩)

variable (borrowedHeld : ∀ key, borrowed key = true → key ∈ external)
include borrowedHeld

theorem examined_of_not_held {key : Nat} (inside : key ∈ g) (path : FromHandles g handles key)
    (free : ¬ Held g external handles key) : key ∈ g.examined order borrowed handles := by
  induction path with
  | start member => exact mem_examined_iff.mpr ⟨inside, .start member⟩
  | @step holder key links before present edge ih =>
    have freeHolder : ¬ Held g external handles holder :=
      fun held => free (held.step present edge)
    have visited := ih (mem_of_getElem? present) freeHolder
    have unborrowed : borrowed holder = false := by
      rw [Bool.eq_false_iff]
      exact fun taken => freeHolder (.start (.inl (borrowedHeld holder taken)))
    exact mem_examined_iff.mpr
      ⟨inside, .step (mem_examined_iff.mp visited).2 present (mem_visible.mpr ⟨unborrowed, edge⟩)⟩

theorem held_of_live {key : Nat}
    (live : Path (g.examined order borrowed handles) (visible order borrowed)
      (· ∈ heldKeys order borrowed g external (g.examined order borrowed handles)) key) :
    Held g external handles key := by
  induction live with
  | start member =>
    rcases (mem_heldKeys_iff.mp member).2 with taken | listed | ⟨holder, links, present, edge, apart⟩
    · exact .start (.inl (borrowedHeld _ taken))
    · exact .start (.inl listed)
    · by_cases reached : FromHandles g handles holder
      · have heldHolder : Held g external handles holder := by
          rcases apart with taken | unseen
          · exact .start (.inl (borrowedHeld _ taken))
          · by_contra free
            exact unseen (examined_of_not_held borrowedHeld (mem_of_getElem? present) reached free)
        exact heldHolder.step present edge
      · exact .start (.inr ⟨holder, links, present, edge, reached⟩)
  | step before present edge ih =>
    exact ih.step (examined_within _ _ present) (mem_visible.mp edge).2

theorem garbage_exact {key : Nat} :
    key ∈ g.garbage order borrowed external handles ↔
      key ∈ g ∧ FromHandles g handles key ∧ ¬ Held g external handles key := by
  constructor
  · intro member
    have examined := (mem_garbage_iff.mp member).1
    exact ⟨(mem_examined_iff.mp examined).1, fromHandles_of_examined examined,
      fun held => not_garbage_of_held held member⟩
  · rintro ⟨inside, path, free⟩
    exact mem_garbage_iff.mpr ⟨examined_of_not_held borrowedHeld inside path free,
      fun live => free (held_of_live borrowedHeld live)⟩

omit borrowedHeld

theorem getElem?_empty (dead : Graph) (key : Nat) :
    (g.empty dead)[key]? =
      g[key]?.map fun links => if dead.contains key then links.emptied else links := by
  unfold empty
  rw [Std.TreeMap.getElem?_map]

theorem getElem?_empty_of_not_mem {dead : Graph} {key : Nat} (alive : key ∉ dead) :
    (g.empty dead)[key]? = g[key]? := by
  rw [getElem?_empty, contains_eq_false alive]
  simp

/-- References that last lead to objects with smaller numbers. -/
def Aged (g : Graph) : Prop :=
  ∀ (key : Nat) (links : Links), g[key]? = some links → ∀ reference ∈ links.lasting,
    reference < key

include borrowedHeld

theorem kept_supported (settled : Supported g external (· ∈ g)) :
    Supported (g.empty (g.garbage order borrowed external handles)) external
      (fun key => key ∈ g ∧ key ∉ g.garbage order borrowed external handles) := by
  rintro key ⟨inside, alive⟩
  constructor
  · obtain ⟨links, present⟩ := getElem?_of_mem inside
    exact mem_of_getElem? ((getElem?_empty_of_not_mem alive).trans present)
  · have supporter : key ∈ external ∨ ∃ (holder : Nat) (links : Links), g[holder]? = some links ∧
        key ∈ links.all ∧ holder ∉ g.garbage order borrowed external handles := by
      rcases (settled key inside).2 with listed | ⟨holder, links, _, present, edge⟩
      · exact .inl listed
      · by_cases dead : holder ∈ g.garbage order borrowed external handles
        · have reached := (garbage_exact borrowedHeld).mp dead |>.2.1
          have held : Held g external handles key := by
            by_contra free
            exact alive ((garbage_exact borrowedHeld).mpr
              ⟨inside, .step reached present edge, free⟩)
          rcases held.supporter with listed | ⟨other, found, atOther, toKey, apart⟩
          · exact .inl listed
          · refine .inr ⟨other, found, atOther, toKey, fun garbage => ?_⟩
            have parts := (garbage_exact borrowedHeld).mp garbage
            rcases apart with held | unreached
            · exact parts.2.2 held
            · exact unreached parts.2.1
        · exact .inr ⟨holder, links, present, edge, dead⟩
    rcases supporter with listed | ⟨holder, links, present, edge, lives⟩
    · exact .inl listed
    · exact .inr ⟨holder, links, ⟨mem_of_getElem? present, lives⟩,
        (getElem?_empty_of_not_mem lives).trans present, edge⟩

/-- The newest piece of garbage that is left would need a reference, and only newer garbage could
    hold one. -/
theorem garbage_goes (aged : Aged g) {key : Nat}
    (left : key ∈ (g.empty (g.garbage order borrowed external handles)).settle order external) :
    key ∉ g.garbage order borrowed external handles := by
  obtain ⟨limit, bounded⟩ : ∃ limit, ∀ other ∈ (g.empty (g.garbage order borrowed external
      handles)).settle order external, other ≤ limit :=
    ⟨_, fun other member => List.le_max?_getD_of_mem (k := 0) (Std.TreeMap.mem_keys.mpr member)⟩
  -- What keeps garbage up is itself garbage, and newer, as only lasting references are left in it;
  -- so the newest of it is kept up by nothing.
  induction distance : limit - key using Nat.strongRecOn generalizing key with
  | _ distance ih =>
    intro dead
    obtain ⟨inside, reached, free⟩ := (garbage_exact borrowedHeld).mp dead
    rcases (settle_supported order _ external key left).2 with listed | ⟨holder, links, stays, present, edge⟩
    · exact free (.start (.inl listed))
    · have atHolder := settle_within order _ external holder links present
      rw [getElem?_empty] at atHolder
      obtain ⟨found, original, same⟩ := Option.map_eq_some_iff.mp atHolder
      by_cases deadHolder : holder ∈ g.garbage order borrowed external handles
      · rw [Std.TreeMap.mem_iff_contains.mp deadHolder, if_pos rfl] at same
        subst same
        have older : key < holder := aged holder found original key (by
          simpa [Links.all, Links.emptied] using edge)
        have newest := bounded holder stays
        exact ih _ (by omega) stays rfl deadHolder
      · rw [contains_eq_false deadHolder] at same
        simp only [Bool.false_eq_true, if_false] at same
        subst same
        by_cases fromHandle : FromHandles g handles holder
        · have held : Held g external handles holder := by
            by_contra unheld
            exact deadHolder ((garbage_exact borrowedHeld).mpr
              ⟨mem_of_getElem? original, fromHandle, unheld⟩)
          exact free (held.step original edge)
        · exact free (.start (.inr ⟨holder, found, original, edge, fromHandle⟩))

theorem reclaimed_iff (settled : Supported g external (· ∈ g)) (aged : Aged g) {key : Nat} :
    key ∈ (g.empty (g.garbage order borrowed external handles)).settle order external ↔
      key ∈ g ∧ key ∉ g.garbage order borrowed external handles := by
  constructor
  · intro left
    refine ⟨?_, garbage_goes borrowedHeld aged left⟩
    obtain ⟨links, present⟩ := getElem?_of_mem left
    have original := settle_within order _ external key links present
    rw [getElem?_empty] at original
    obtain ⟨found, atKey, _⟩ := Option.map_eq_some_iff.mp original
    exact mem_of_getElem? atKey
  · exact fun kept => settle_keeps order (kept_supported borrowedHeld settled) kept

theorem reclaimed_getElem? (settled : Supported g external (· ∈ g)) (aged : Aged g) {key : Nat}
    (left : key ∈ (g.empty (g.garbage order borrowed external handles)).settle order external) :
    ((g.empty (g.garbage order borrowed external handles)).settle order external)[key]? =
      g[key]? := by
  rw [settle_getElem?_of_mem order left, getElem?_empty_of_not_mem]
  exact ((reclaimed_iff borrowedHeld settled aged).mp left).2

end Graph
end Lox
