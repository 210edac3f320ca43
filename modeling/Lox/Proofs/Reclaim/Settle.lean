import Lox.Proofs.Reclaim.Counts

namespace Lox

namespace Graph

def Supported (g : Graph) (external : List Nat) (keep : Nat → Prop) : Prop :=
  ∀ key, keep key → key ∈ g ∧
    (key ∈ external ∨ ∃ (holder : Nat) (links : Links), keep holder ∧ g[holder]? = some links ∧
      key ∈ links.all)

def Within (g' g : Graph) : Prop :=
  ∀ (key : Nat) (links : Links), g'[key]? = some links → g[key]? = some links

theorem Within.refl (g : Graph) : Within g g := fun _ _ present => present

theorem Within.trans {a b c : Graph} (first : Within a b) (second : Within b c) : Within a c :=
  fun key links present => second key links (first key links present)

theorem mem_of_getElem? {g : Graph} {key : Nat} {links : Links} (present : g[key]? = some links) :
    key ∈ g := by
  rw [Std.TreeMap.mem_iff_isSome_getElem?, present]
  rfl

theorem getElem?_of_mem {g : Graph} {key : Nat} (member : key ∈ g) :
    ∃ links : Links, g[key]? = some links :=
  Option.isSome_iff_exists.mp (Std.TreeMap.mem_iff_isSome_getElem?.mp member)

theorem contains_eq_false {g : Graph} {key : Nat} (absent : key ∉ g) : g.contains key = false :=
  Bool.eq_false_iff.mpr fun present => absent (Std.TreeMap.mem_iff_contains.mpr present)

theorem getElem?_erase_of_ne {g : Graph} {key other : Nat} (different : other ≠ key) :
    (g.erase key)[other]? = g[other]? := by
  rw [Std.TreeMap.getElem?_erase, if_neg]
  simpa [Nat.compare_eq_eq] using different.symm

theorem erase_within (g : Graph) (key : Nat) : Within (g.erase key) g := by
  intro other links present
  rw [Std.TreeMap.getElem?_erase] at present
  split at present
  · cases present
  · exact present

/-- The references that a tally has to count: those of the objects and those from outside. -/
def Counted (g : Graph) (external : List Nat) (counts : Tally) : Prop :=
  ∀ key, counts.count key = (g.references ++ external).count key

theorem Counted.erase {g : Graph} {external : List Nat} {counts : Tally} {key : Nat}
    {links : Links} (counted : Counted g external counts) (present : g[key]? = some links) :
    Counted (g.erase key) external (links.all.foldl .remove counts) := by
  intro reference
  have before := counted reference
  rw [List.count_append, count_references_erase present] at before
  rw [Tally.count_foldl_remove, List.count_append]
  omega

/-- An object that is counted zero times supports nothing that stays. -/
theorem Supported.erase {g : Graph} {external : List Nat} {counts : Tally} {keep : Nat → Prop}
    {key : Nat} (supported : Supported g external keep) (counted : Counted g external counts)
    (unreferenced : counts.count key = 0) :
    ¬ keep key ∧ Supported (g.erase key) external keep := by
  have absent : ¬ keep key := by
    intro kept
    have none := counted key
    rw [unreferenced, List.count_append] at none
    rcases (supported key kept).2 with outside | ⟨holder, links, _, present, held⟩
    · have := List.count_pos_iff.mpr outside
      omega
    · have := List.count_pos_iff.mpr (mem_references.mpr ⟨holder, links, present, held⟩)
      omega
  refine ⟨absent, fun other kept => ?_⟩
  have different : other ≠ key := fun same => absent (same ▸ kept)
  obtain ⟨member, support⟩ := supported other kept
  constructor
  · obtain ⟨links, present⟩ := getElem?_of_mem member
    exact mem_of_getElem? ((getElem?_erase_of_ne different).trans present)
  · rcases support with outside | ⟨holder, links, keptHolder, present, held⟩
    · exact .inl outside
    · have differs : holder ≠ key := fun same => absent (same ▸ keptHolder)
      exact .inr ⟨holder, links, keptHolder, (getElem?_erase_of_ne differs).trans present, held⟩

variable (order : Arrangement)

theorem settleFrom_within (g : Graph) (counts : Tally) (pending : List Nat) :
    Within (settleFrom order g counts pending) g := by
  fun_induction settleFrom order g counts pending with
  | case1 g counts => exact .refl g
  | case2 g counts key pending absent ih => exact ih
  | case3 g counts key pending links present unreferenced ih =>
    exact ih.trans (erase_within g key)
  | case4 g counts key pending links present referenced ih => exact ih

/-- Nothing that supports itself is removed. -/
theorem settleFrom_keeps {external : List Nat} {keep : Nat → Prop} (g : Graph) (counts : Tally)
    (pending : List Nat) (supported : Supported g external keep)
    (counted : Counted g external counts) :
    ∀ key, keep key → key ∈ settleFrom order g counts pending := by
  fun_induction settleFrom order g counts pending with
  | case1 g counts => exact fun key kept => (supported key kept).1
  | case2 g counts key pending absent ih => exact ih supported counted
  | case3 g counts key pending links present unreferenced ih =>
    exact ih (supported.erase counted unreferenced).2 (counted.erase present)
  | case4 g counts key pending links present referenced ih => exact ih supported counted

/-- All that is left is referred to, provided that whatever is not is pending. -/
theorem settleFrom_supported {external : List Nat} (g : Graph) (counts : Tally)
    (pending : List Nat) (counted : Counted g external counts)
    (covered : ∀ key ∈ g, counts.count key = 0 → key ∈ pending) :
    let left := settleFrom order g counts pending
    ∀ key ∈ left, key ∈ left.references ++ external := by
  -- The invariant is `covered`: whatever is referred to no more is still pending.
  fun_induction settleFrom order g counts pending with
  | case1 g counts =>
    intro left key member
    have positive : counts.count key ≠ 0 := fun zero => by simpa using covered key member zero
    rw [counted key] at positive
    exact List.count_pos_iff.mp (Nat.pos_of_ne_zero positive)
  | case2 g counts key pending absent ih =>
    refine ih counted fun other member zero => ?_
    rcases List.mem_cons.mp (covered other member zero) with rfl | later
    · obtain ⟨links, present⟩ := getElem?_of_mem member
      rw [absent] at present
      cases present
    · exact later
  | case3 g counts key pending links present unreferenced ih =>
    refine ih (counted.erase present) fun other member zero => ?_
    obtain ⟨found, atOther⟩ := getElem?_of_mem member
    have inside := mem_of_getElem? (erase_within g key other found atOther)
    have different : other ≠ key := by
      rintro rfl
      simp at member
    rw [Tally.count_foldl_remove] at zero
    -- What has just lost its last reference has lost one of the removed object.
    by_cases before : counts.count other = 0
    · rcases List.mem_cons.mp (covered other inside before) with same | later
      · exact absurd same different
      · exact List.mem_append.mpr (.inr later)
    · have lost : 0 < links.all.count other := by omega
      exact List.mem_append.mpr (.inl ((order.perm _).mem_iff.mpr (List.count_pos_iff.mp lost)))
  | case4 g counts key pending links present referenced ih =>
    refine ih counted fun other member zero => ?_
    rcases List.mem_cons.mp (covered other member zero) with rfl | later
    · exact absurd zero referenced
    · exact later

theorem counted_ofList (g : Graph) (external : List Nat) :
    Counted g external (.ofList (g.references ++ external)) :=
  fun key => Tally.count_ofList _ key

theorem settle_within (g : Graph) (external : List Nat) : Within (g.settle order external) g :=
  settleFrom_within order _ _ _

theorem settle_keeps {g : Graph} {external : List Nat} {keep : Nat → Prop}
    (supported : Supported g external keep) {key : Nat} (kept : keep key) :
    key ∈ g.settle order external :=
  settleFrom_keeps order _ _ _ supported (counted_ofList g external) key kept

theorem settle_supported (g : Graph) (external : List Nat) :
    Supported (g.settle order external) external (· ∈ g.settle order external) := by
  intro key member
  refine ⟨member, ?_⟩
  have referenced := settleFrom_supported order g _ (order.arrange g.keys)
    (counted_ofList g external)
    (fun other inside _ => (order.perm _).mem_iff.mpr (Std.TreeMap.mem_keys.mpr inside)) key member
  rcases List.mem_append.mp referenced with inside | outside
  · obtain ⟨holder, links, present, held⟩ := mem_references.mp inside
    exact .inr ⟨holder, links, mem_of_getElem? present, present, held⟩
  · exact .inl outside

theorem settle_getElem?_of_mem {g : Graph} {external : List Nat} {key : Nat}
    (member : key ∈ g.settle order external) : (g.settle order external)[key]? = g[key]? := by
  obtain ⟨links, present⟩ := getElem?_of_mem member
  rw [present, settle_within order g external key links present]

end Graph
end Lox
