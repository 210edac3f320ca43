import Lox.Store.Graph

namespace Lox

namespace Tally

theorem count_add (t : Tally) (key other : Nat) :
    (t.add key).count other = t.count other + if key = other then 1 else 0 := by
  unfold add count
  rw [Std.TreeMap.getD_insert]
  by_cases same : key = other
  · subst same
    simp
  · simp [same]

theorem count_remove (t : Tally) (key other : Nat) :
    (t.remove key).count other = t.count other - if key = other then 1 else 0 := by
  unfold remove count
  rw [Std.TreeMap.getD_insert]
  by_cases same : key = other
  · subst same
    simp
  · simp [same]

theorem count_foldl_add (keys : List Nat) (t : Tally) (key : Nat) :
    (keys.foldl add t).count key = t.count key + keys.count key := by
  induction keys generalizing t with
  | nil => rfl
  | cons first rest ih =>
    rw [List.foldl_cons, ih, count_add, List.count_cons]
    simp only [beq_iff_eq]
    omega

theorem count_foldl_remove (keys : List Nat) (t : Tally) (key : Nat) :
    (keys.foldl remove t).count key = t.count key - keys.count key := by
  induction keys generalizing t with
  | nil => rfl
  | cons first rest ih =>
    rw [List.foldl_cons, ih, count_remove, List.count_cons]
    simp only [beq_iff_eq]
    omega

theorem count_ofList (keys : List Nat) (key : Nat) : (ofList keys).count key = keys.count key := by
  rw [ofList, count_foldl_add]
  simp [count]

end Tally

namespace Graph

variable {g : Graph} {key : Nat} {links : Links}

theorem nodup_toList (g : Graph) : g.toList.Nodup := by
  apply Std.TreeMap.distinct_keys_toList.imp
  intro a b different same
  subst same
  simp at different

theorem toList_perm_erase (present : g[key]? = some links) :
    g.toList.Perm ((key, links) :: (g.erase key).toList) := by
  apply (List.perm_ext_iff_of_nodup (nodup_toList g) _).mpr
  · rintro ⟨other, found⟩
    simp only [List.mem_cons, Prod.mk.injEq, Std.TreeMap.mem_toList_iff_getElem?_eq_some,
      Std.TreeMap.getElem?_erase, Nat.compare_eq_eq]
    by_cases same : key = other
    · subst same
      simp only [present, ite_true, true_and, Option.some.injEq, reduceCtorEq, or_false]
      exact eq_comm
    · simp [same, Ne.symm same]
  · refine List.nodup_cons.mpr ⟨?_, nodup_toList _⟩
    simp [Std.TreeMap.mem_toList_iff_getElem?_eq_some]

theorem mem_references {reference : Nat} :
    reference ∈ g.references ↔
      ∃ (key : Nat) (links : Links), g[key]? = some links ∧ reference ∈ links.all := by
  simp only [references, List.mem_flatMap, Prod.exists, Std.TreeMap.mem_toList_iff_getElem?_eq_some]

theorem count_references_erase (present : g[key]? = some links) (reference : Nat) :
    g.references.count reference =
      links.all.count reference + (references (g.erase key)).count reference := by
  have split : g.references.Perm (links.all ++ references (g.erase key)) := by
    simpa only [references, List.flatMap_cons] using (toList_perm_erase present).flatMap_right _
  rw [split.count_eq, List.count_append]

end Graph
end Lox
