import Lox.Proofs.Reclaim.Settle

namespace Lox

namespace Graph

inductive Path (g : Graph) (refs : Nat → Links → List Nat) (start : Nat → Prop) : Nat → Prop where
  | start {key : Nat} (member : start key) : Path g refs start key
  | step {key reference : Nat} {links : Links} (before : Path g refs start key)
      (present : g[key]? = some links) (edge : reference ∈ refs key links) :
      Path g refs start reference

theorem Path.mono {g : Graph} {refs refs' : Nat → Links → List Nat} {start start' : Nat → Prop}
    (starts : ∀ key, start key → Path g refs' start' key)
    (edges : ∀ (key : Nat) (links : Links), Path g refs' start' key → g[key]? = some links →
      ∀ reference ∈ refs key links, reference ∈ refs' key links)
    {key : Nat} (path : Path g refs start key) : Path g refs' start' key := by
  induction path with
  | start member => exact starts _ member
  | step before present edge ih => exact .step ih present (edges _ _ ih present _ edge)

variable {g : Graph} {refs : Nat → Links → List Nat}

def Closed (g seen : Graph) (refs : Nat → Links → List Nat) (pending : List Nat) : Prop :=
  ∀ (key : Nat) (links : Links), seen[key]? = some links → ∀ reference ∈ refs key links,
    reference ∈ g → reference ∈ seen ∨ reference ∈ pending

theorem mem_insert_iff {seen : Graph} {key other : Nat} {links : Links} :
    other ∈ seen.insert key links ↔ key = other ∨ other ∈ seen := by
  rw [Std.TreeMap.mem_insert, Nat.compare_eq_eq]

theorem Closed.drop {seen : Graph} {key : Nat} {pending : List Nat}
    (closed : Closed g seen refs (key :: pending)) (done : key ∈ g → key ∈ seen) :
    Closed g seen refs pending := by
  intro other links present reference edge inside
  rcases closed other links present reference edge inside with found | found
  · exact .inl found
  · rcases List.mem_cons.mp found with rfl | later
    · exact .inl (done inside)
    · exact .inr later

theorem Closed.insert {seen : Graph} {key : Nat} {links : Links} {pending : List Nat}
    (closed : Closed g seen refs (key :: pending)) :
    Closed g (seen.insert key links) refs (refs key links ++ pending) := by
  intro other found present reference edge inside
  rw [Std.TreeMap.getElem?_insert] at present
  split at present
  · rename_i same
    rw [Nat.compare_eq_eq] at same
    cases present
    subst same
    exact .inr (List.mem_append.mpr (.inl edge))
  · rcases closed other found present reference edge inside with reached | reached
    · exact .inl (mem_insert_iff.mpr (.inr reached))
    · rcases List.mem_cons.mp reached with rfl | later
      · exact .inl (mem_insert_iff.mpr (.inl rfl))
      · exact .inr (List.mem_append.mpr (.inr later))

structure Divided (g unseen seen : Graph) : Prop where
  seen_within : Within seen g
  unseen_within : Within unseen g
  cover : ∀ key ∈ g, key ∈ unseen ∨ key ∈ seen

theorem Divided.move {unseen seen : Graph} {key : Nat} {links : Links}
    (divided : Divided g unseen seen) (present : unseen[key]? = some links) :
    Divided g (unseen.erase key) (seen.insert key links) := by
  refine ⟨?_, (erase_within unseen key).trans divided.unseen_within, ?_⟩
  · intro other found atOther
    rw [Std.TreeMap.getElem?_insert] at atOther
    split at atOther
    · rename_i same
      rw [Nat.compare_eq_eq] at same
      cases atOther
      subst same
      exact divided.unseen_within _ _ present
    · exact divided.seen_within _ _ atOther
  · intro other inside
    by_cases same : key = other
    · exact .inr (mem_insert_iff.mpr (.inl same))
    · rcases divided.cover other inside with later | found
      · refine .inl ?_
        rw [Std.TreeMap.mem_erase]
        simp [same, later]
      · exact .inr (mem_insert_iff.mpr (.inr found))

variable {start : Nat → Prop}

theorem explore_sound (unseen seen : Graph) (pending : List Nat) (within : Within unseen g)
    (reached : ∀ key ∈ seen, Path g refs start key)
    (ahead : ∀ key ∈ pending, Path g refs start key) :
    ∀ key ∈ explore refs unseen seen pending, Path g refs start key := by
  fun_induction explore refs unseen seen pending with
  | case1 unseen seen => exact reached
  | case2 unseen seen key pending absent ih =>
    exact ih within reached fun other member => ahead other (List.mem_cons_of_mem _ member)
  | case3 unseen seen key pending links present ih =>
    have here := ahead key List.mem_cons_self
    refine ih ((erase_within unseen key).trans within) ?_ ?_
    · intro other member
      rcases mem_insert_iff.mp member with rfl | before
      · exact here
      · exact reached other before
    · intro other member
      rcases List.mem_append.mp member with edge | later
      · exact .step here (within _ _ present) edge
      · exact ahead other (List.mem_cons_of_mem _ later)

theorem explore_closed (unseen seen : Graph) (pending : List Nat) (divided : Divided g unseen seen)
    (closed : Closed g seen refs pending) :
    let found := explore refs unseen seen pending
    Within found g ∧ Closed g found refs [] ∧ (∀ key ∈ seen, key ∈ found) ∧
      ∀ key ∈ pending, key ∈ g → key ∈ found := by
  -- Each step takes one pending number: one that is not in the graph, or seen already, is dropped;
  -- a new one is seen, and its references become pending.
  fun_induction explore refs unseen seen pending with
  | case1 unseen seen => exact ⟨divided.seen_within, closed, fun _ member => member, by simp⟩
  | case2 unseen seen key pending absent ih =>
    have done : key ∈ g → key ∈ seen := by
      intro inside
      rcases divided.cover key inside with later | found
      · obtain ⟨links, present⟩ := getElem?_of_mem later
        rw [absent] at present
        cases present
      · exact found
    obtain ⟨within, finished, kept, covered⟩ := ih divided (closed.drop done)
    refine ⟨within, finished, kept, fun other member inside => ?_⟩
    rcases List.mem_cons.mp member with rfl | later
    · exact kept _ (done inside)
    · exact covered other later inside
  | case3 unseen seen key pending links present ih =>
    obtain ⟨within, finished, kept, covered⟩ := ih (divided.move present) closed.insert
    refine ⟨within, finished, fun other member => kept _ (mem_insert_iff.mpr (.inr member)), ?_⟩
    intro other member inside
    rcases List.mem_cons.mp member with rfl | later
    · exact kept _ (mem_insert_iff.mpr (.inl rfl))
    · exact covered other (List.mem_append.mpr (.inr later)) inside

theorem divided_start (g : Graph) : Divided g g ∅ :=
  ⟨fun _ _ present => by simp at present, .refl g, fun _ inside => .inl inside⟩

theorem closed_start (g : Graph) (refs : Nat → Links → List Nat) (pending : List Nat) :
    Closed g ∅ refs pending := fun _ _ present => by simp at present

theorem explore_within (pending : List Nat) : Within (explore refs g ∅ pending) g :=
  (explore_closed g ∅ pending (divided_start g) (closed_start g refs pending)).1

/-- A search that starts with nothing seen finds what a path leads to, and nothing else. -/
theorem mem_explore_iff {pending : List Nat} {key : Nat} :
    key ∈ explore refs g ∅ pending ↔ key ∈ g ∧ Path g refs (· ∈ pending) key := by
  obtain ⟨within, closed, -, covered⟩ :=
    explore_closed g ∅ pending (divided_start g) (closed_start g refs pending)
  constructor
  · intro member
    obtain ⟨links, present⟩ := getElem?_of_mem member
    refine ⟨mem_of_getElem? (within _ _ present), ?_⟩
    exact explore_sound g ∅ pending (.refl g) (fun _ member => by simp at member)
      (fun _ member => .start member) key member
  · rintro ⟨inside, path⟩
    induction path with
    | start member => exact covered _ member inside
    | @step key reference links before present edge ih =>
      obtain ⟨found, atKey⟩ := getElem?_of_mem (ih (mem_of_getElem? present))
      have same := within _ _ atKey
      rw [present] at same
      cases same
      rcases closed key links atKey reference edge inside with reached | pendingStill
      · exact reached
      · cases pendingStill

end Graph
end Lox
