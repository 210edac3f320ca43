import Lox.Proofs.Outline.Walk

namespace Lox

namespace Outline

variable {start outer : List Layer} {entries inside before : List OutlineEntry} {kind : ScopeKind}

def reach (start : List Layer) (entries : List OutlineEntry) (path : List Nat) : List Layer :=
  layers entries path ++ advanceAll start (entries.take (path.headD 0))

theorem advance_globals (entry : OutlineEntry) : advance [] entry = [] := by
  cases entry <;> rfl

theorem advanceAll_globals (entries : List OutlineEntry) : advanceAll [] entries = [] := by
  induction entries with
  | nil => rfl
  | cons entry rest ih =>
    show advanceAll (advance [] entry) rest = []
    rw [advance_globals, ih]

theorem reach_globals (entries : List OutlineEntry) (path : List Nat) :
    reach [] entries path = layers entries path := by
  rw [reach, advanceAll_globals, List.append_nil]

theorem advance_after (entry : OutlineEntry) :
    advance (.after kind before :: outer) entry = .after kind (before ++ [entry]) :: outer := by
  cases entry <;> simp [advance, declare, declared?, Layer.after, List.filterMap_append]

theorem advanceAll_after (entries : List OutlineEntry) :
    advanceAll (.after kind before :: outer) entries =
      .after kind (before ++ entries) :: outer := by
  induction entries generalizing before with
  | nil => simp [advanceAll]
  | cons entry rest ih =>
    show advanceAll (advance _ entry) rest = _
    rw [advance_after, ih, List.append_assoc]
    rfl

/-- The scopes around an entry inside a scope are those inside the scope, the scope, and those
    around it. -/
theorem reach_scope {i j : Nat} {path : List Nat} (here : entries[i]? = some (.scope kind inside)) :
    reach start entries (i :: j :: path) =
      reach (.after kind [] :: advanceAll start (entries.take i)) inside (j :: path) := by
  unfold reach
  rw [advanceAll_after, layers]
  simp [here]

theorem getElem?_fillAll (i : Nat) :
    (fillAll start entries)[i]? =
      entries[i]?.map (fill (advanceAll start (entries.take i))) := by
  induction entries generalizing start i with
  | nil => rfl
  | cons entry rest ih =>
    cases i with
    | zero => rfl
    | succ i => exact ih i

/-- The walk fills the slot of an entry from the scopes around it. -/
theorem entryAt?_fillAll (path : List Nat) :
    entryAt? (fillAll start entries) path =
      (entryAt? entries path).map (fill (reach start entries path)) := by
  fun_induction entryAt? entries path generalizing start with
  | case1 => rfl
  | case2 entries i => exact getElem?_fillAll i
  | case3 entries i j path kind inside here ih =>
    rw [entryAt?, getElem?_fillAll, here, reach_scope here]
    exact ih
  | case4 entries i j path other =>
    rw [entryAt?, getElem?_fillAll]
    split
    · rename_i kind inside found
      obtain ⟨entry, here, same⟩ := Option.map_eq_some_iff.mp found
      cases entry with
      | scope kind inside => exact absurd here (other kind inside)
      | declares | use | returns | inherits => cases same
    · rfl

def fault? (start : List Layer) (entries : List OutlineEntry) (path : List Nat) :
    Option BindingError :=
  (entryAt? entries path).bind (violation? (reach start entries path))

mutual

def faults (start : List Layer) : OutlineEntry → List (List Nat × BindingError)
  | .scope kind inside => faultsFrom (.after kind [] :: start) 0 inside
  | entry => (violation? start entry).toList.map ([], ·)

def faultsFrom (start : List Layer) (i : Nat) : List OutlineEntry → List (List Nat × BindingError)
  | [] => []
  | entry :: rest =>
    (faults start entry).map (Prod.map (i :: ·) id) ++ faultsFrom (advance start entry) (i + 1) rest

end

mutual

theorem map_snd_faults : (start : List Layer) → (entry : OutlineEntry) →
    (faults start entry).map Prod.snd = reports start entry
  | start, .scope kind inside => map_snd_faultsFrom (.after kind [] :: start) 0 inside
  | start, .declares _ | start, .use _ _ | start, .returns _ _ | start, .inherits _ _ => by
    simp [faults, reports, Function.comp_def]

theorem map_snd_faultsFrom : (start : List Layer) → (i : Nat) → (entries : List OutlineEntry) →
    (faultsFrom start i entries).map Prod.snd = reportsAll start entries
  | _, _, [] => rfl
  | start, i, entry :: rest => by
    rw [faultsFrom, reportsAll, List.map_append, List.map_map,
      ← map_snd_faultsFrom (advance start entry) (i + 1) rest, ← map_snd_faults start entry]
    rfl

end

theorem fault?_cons_zero (entry : OutlineEntry) (rest : List OutlineEntry) (path : List Nat) :
    fault? start (entry :: rest) (0 :: path) = fault? start [entry] (0 :: path) := by
  cases path <;> rfl

theorem fault?_cons_succ (entry : OutlineEntry) (rest : List OutlineEntry) (i : Nat)
    (path : List Nat) :
    fault? start (entry :: rest) ((i + 1) :: path) =
      fault? (advance start entry) rest (i :: path) := by
  cases path <;> rfl

theorem fault?_scope (path : List Nat) :
    fault? start [.scope kind inside] (0 :: path) =
      fault? (.after kind [] :: start) inside path := by
  cases path with
  | nil => rfl
  | cons j path =>
    have here : [OutlineEntry.scope kind inside][0]? = some (.scope kind inside) := rfl
    unfold fault?
    rw [reach_scope here]
    rfl

theorem mem_map_nil {violated? : Option BindingError} {path : List Nat} {error : BindingError} :
    (path, error) ∈ violated?.toList.map ([], ·) ↔ path = [] ∧ violated? = some error := by
  simp [eq_comm, and_comm]

theorem fault?_leaf {entry : OutlineEntry} {path : List Nat} {error : BindingError}
    (leaf : ∀ kind inside, entry ≠ .scope kind inside) :
    fault? start [entry] (0 :: path) = some error ↔
      path = [] ∧ violation? start entry = some error := by
  cases path with
  | nil => exact ⟨fun found => ⟨rfl, found⟩, And.right⟩
  | cons j path =>
    have nothing : entryAt? [entry] (0 :: j :: path) = none := by
      cases entry with
      | scope kind inside => exact absurd rfl (leaf kind inside)
      | declares | use | returns | inherits => rfl
    simp [fault?, nothing]

mutual

theorem mem_faults {path : List Nat} {error : BindingError} :
    (start : List Layer) → (entry : OutlineEntry) →
    ((path, error) ∈ faults start entry ↔ fault? start [entry] (0 :: path) = some error)
  | start, .scope kind inside => by
    rw [fault?_scope, faults, mem_faultsFrom]
    cases path with
    | nil => simp [fault?, entryAt?]
    | cons j path => simp
  | start, .declares _ | start, .use _ _ | start, .returns _ _ | start, .inherits _ _ => by
    refine mem_map_nil.trans (fault?_leaf ?_).symm
    exact nofun

theorem mem_faultsFrom {path : List Nat} {error : BindingError} :
    (start : List Layer) → (i : Nat) → (entries : List OutlineEntry) →
    ((path, error) ∈ faultsFrom start i entries ↔
      ∃ k rest, path = (i + k) :: rest ∧ fault? start entries (k :: rest) = some error)
  | _, _, [] => by
    have nothing (k : Nat) (rest : List Nat) : entryAt? [] (k :: rest) = none := by
      cases rest <;> rfl
    simp [faultsFrom, fault?, nothing]
  | start, i, entry :: rest => by
    rw [faultsFrom, List.mem_append, mem_faultsFrom (advance start entry) (i + 1) rest]
    constructor
    · rintro (here | ⟨k, path, rfl, found⟩)
      · obtain ⟨⟨path, error⟩, member, same⟩ := List.mem_map.mp here
        cases same
        refine ⟨0, path, rfl, ?_⟩
        rw [fault?_cons_zero]
        exact (mem_faults start entry).mp member
      · refine ⟨k + 1, path, by simp; omega, ?_⟩
        rwa [fault?_cons_succ]
    · rintro ⟨k, path, rfl, found⟩
      cases k with
      | zero =>
        rw [fault?_cons_zero] at found
        exact .inl (List.mem_map.mpr ⟨(path, error), (mem_faults start entry).mpr found, rfl⟩)
      | succ k =>
        rw [fault?_cons_succ] at found
        exact .inr ⟨k, path, by simp; omega, found⟩

end

mutual

theorem sorted_faults : (start : List Layer) → (entry : OutlineEntry) →
    (faults start entry).Pairwise fun first second => first.1 < second.1
  | start, .scope kind inside => sorted_faultsFrom (.after kind [] :: start) 0 inside
  | start, .declares _ | start, .use _ _ | start, .returns _ _ | start, .inherits _ _ => by
    unfold faults
    cases violation? start _ <;> simp

theorem sorted_faultsFrom : (start : List Layer) → (i : Nat) → (entries : List OutlineEntry) →
    (faultsFrom start i entries).Pairwise fun first second => first.1 < second.1
  | _, _, [] => .nil
  | start, i, entry :: rest => by
    rw [faultsFrom, List.pairwise_append, List.pairwise_map]
    refine ⟨?_, sorted_faultsFrom (advance start entry) (i + 1) rest, ?_⟩
    · exact (sorted_faults start entry).imp fun less => List.cons_lt_cons_iff.mpr (.inr ⟨rfl, less⟩)
    · intro here member there later
      obtain ⟨first, _, rfl⟩ := List.mem_map.mp member
      obtain ⟨k, path, same, _⟩ := (mem_faultsFrom (advance start entry) (i + 1) rest).mp later
      rw [same]
      exact List.cons_lt_cons_iff.mpr (.inl (by omega))

end

theorem fault?_eq_some {path : List Nat} {error : BindingError} :
    fault? [] entries path = some error ↔ Violates entries path error := by
  unfold fault? Violates
  rw [Option.bind_eq_some_iff, reach_globals]
  simp only [violation?_eq_some]

/-- The errors of an outline are the rules that its entries break. -/
theorem mem_faults_iff {path : List Nat} {error : BindingError} :
    (path, error) ∈ faultsFrom [] 0 entries ↔ Violates entries path error := by
  rw [mem_faultsFrom, ← fault?_eq_some]
  constructor
  · rintro ⟨k, rest, rfl, found⟩
    rwa [Nat.zero_add]
  · intro found
    cases path with
    | nil => cases found
    | cons k rest => exact ⟨k, rest, by rw [Nat.zero_add], found⟩

theorem mem_reports_iff {error : BindingError} :
    error ∈ reportsAll [] entries ↔ ∃ path, Violates entries path error := by
  rw [← map_snd_faultsFrom [] 0, List.mem_map]
  constructor
  · rintro ⟨⟨path, error⟩, member, rfl⟩
    exact ⟨path, mem_faults_iff.mp member⟩
  · rintro ⟨path, violates⟩
    exact ⟨(path, error), mem_faults_iff.mpr violates, rfl⟩

end Outline
end Lox
