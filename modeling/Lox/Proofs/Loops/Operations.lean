import Lox.Proofs.Loops.Stores

namespace Lox

namespace Store

variable {s : Store} {id parent : ScopeId} {scope : Scope}

def mark (s : Store) (id : ScopeId) (scope : Scope) : Store :=
  { s with scopes := s.scopes.insert id.index { scope with captured := true } }

theorem capture_of_captured (found : s.scope? id = some scope) (captured : scope.captured = true) :
    s.capture id = s := by
  rw [Store.capture.eq_def, found]
  exact if_pos captured

theorem capture_of_inner (found : s.scope? id = some scope) (fresh : ¬ scope.captured = true)
    {older : parent.index < id.index} (around : s.outward? id = some ⟨parent, older⟩) :
    s.capture id = (s.mark id scope).capture parent := by
  rw [Store.capture.eq_def, found]
  dsimp only
  rw [if_neg fresh, around]
  rfl

theorem capture_of_outermost (found : s.scope? id = some scope) (fresh : ¬ scope.captured = true)
    (around : s.outward? id = none) : s.capture id = s.mark id scope := by
  rw [Store.capture.eq_def, found]
  dsimp only
  rw [if_neg fresh, around]
  rfl

theorem scope?_mark_ne {other : ScopeId} (differs : other ≠ id) :
    (s.mark id scope).scope? other = s.scope? other :=
  (s.scope?_mark id other _).trans (if_neg differs)

theorem scope?_define_ne {other : ScopeId} (differs : other ≠ id) (name : String) (value : Value) :
    (s.define id name value).scope? other = s.scope? other := by
  rw [scope?_define]
  simp only [if_neg differs, Option.map_id']

namespace Filled

theorem fields?_next (filled : s.Filled) {id : InstanceId} (fresh : id.index = s.next) :
    s.fields? id = none := by
  cases found : s.fields? id with
  | none => rfl
  | some fields => exact absurd (fresh ▸ filled id fields found) (Nat.lt_irrefl _)

theorem newIdentity (filled : s.Filled) : s.newIdentity.2.Filled :=
  fun id fields found => Nat.lt_succ_of_lt (filled id fields found)

theorem newInstance (filled : s.Filled) : s.newInstance.2.Filled := by
  intro id fields found
  rw [fields?_newInstance] at found
  split at found
  · rename_i same
    exact same ▸ Nat.lt_succ_self _
  · exact Nat.lt_succ_of_lt (filled id fields found)

theorem setField (filled : s.Filled) (id : InstanceId) (name : String) (value : Value) :
    (s.setField id name value).Filled := by
  intro other after found
  rw [fields?_setField] at found
  obtain ⟨before, atOther, _⟩ := Option.map_eq_some_iff.mp found
  exact filled other before atOther

end Filled

end Store

namespace World

open Store

variable {w w' : World} {s t s' : Store} {a b p p' : ScopeId} {depth : Depth}

theorem Waits.change {waiting : ScopeId → Prop} (waits : w.Waits s waiting) (layout : w.Layout s t)
    (fewer : ∀ {a b}, w'.places a b (some 0) → w.places a b (some 0))
    (same : ∀ {a b scope}, w.places a b (some 0) → s'.scope? a = some scope → s.scope? a = some scope)
    (kept : ∀ {p b}, w.places p b none → s.Captured p → s'.Captured p) : w'.Waits s' waiting := by
  intro a b p scope place found captured around
  have before := same (fewer place) found
  obtain ⟨_, parent, outside, beyond⟩ := (layout.additional (fewer place)).bare scope before
  cases around.symm.trans outside
  exact (waits (fewer place) before captured around).imp_right (kept beyond)

namespace Layout

theorem write (layout : w.Layout s t) (scope scope' : Scope) (pair : w.pairs a.index b.index)
    (fits : ∀ {depth}, w.places a b depth → w.Scopes depth scope scope')
    (older : ∀ parent, scope.enclosing? = some parent → parent.index < a.index)
    (older' : ∀ parent, scope'.enclosing? = some parent → parent.index < b.index) :
    w.Layout { s with scopes := s.scopes.insert a.index scope }
      { t with scopes := t.scopes.insert b.index scope' } where
  sharp := layout.sharp
  below := layout.below
  nested := ⟨layout.nested.1.insert a older, layout.nested.2.insert b older'⟩
  filled := layout.filled
  fields := layout.fields
  regular := by
    intro a' b' depth place matched
    obtain ⟨pair', rel⟩ := layout.regular place matched
    refine ⟨pair', ?_⟩
    rw [scope?_mark, scope?_mark]
    by_cases same : a' = a
    · have same' := (layout.same_iff pair pair').mp same
      rw [if_pos same, if_pos same']
      exact .some (fits (same ▸ same' ▸ place))
    · rw [if_neg same, if_neg fun same' => same ((layout.same_iff pair pair').mpr same')]
      exact rel
  additional := by
    intro extra beyond place
    obtain ⟨alone, below, bare⟩ := layout.additional place
    refine ⟨alone, below, fun after found => bare after ?_⟩
    rwa [scope?_mark, if_neg (layout.additional_ne place pair)] at found

theorem place (layout : w.Layout s t) (pair : w.pairs a.index b.index) (matched : depth ≠ some 0)
    (rel : Option.Rel (w.Scopes depth) (s.scope? a) (t.scope? b)) :
    (w.place a b depth).Layout s t := by
  have after := later_place w a b depth
  refine { sharp := ⟨layout.sharp.right, layout.sharp.left⟩, below := layout.below,
           nested := layout.nested, filled := layout.filled, regular := ?_, additional := ?_,
           fields := ?_ }
  · rintro a' b' depth' (⟨rfl, rfl, rfl⟩ | old) matched'
    · exact ⟨pair, rel_mono rel fun _ _ scopes => scopes.later after⟩
    · obtain ⟨pair', rel'⟩ := layout.regular old matched'
      exact ⟨pair', rel_mono rel' fun _ _ scopes => scopes.later after⟩
  · rintro extra beyond (⟨_, _, same⟩ | old)
    · exact absurd same.symm matched
    · obtain ⟨alone, below, bare⟩ := layout.additional old
      refine ⟨alone, below, fun scope found => ?_⟩
      obtain ⟨empty, p, around, outside⟩ := bare scope found
      exact ⟨empty, p, around, after.places outside⟩
  · exact fun pair' => rel_mono (layout.fields pair') fun _ _ => bound_later after

/-- An additional scope is marked in the one store that has it. -/
theorem mark_additional (layout : w.Layout s t) (place : w.places a b (some 0)) {scope : Scope}
    (found : s.scope? a = some scope) : w.Layout (s.mark a scope) t where
  sharp := layout.sharp
  below := layout.below
  nested := ⟨layout.nested.1.insert a fun parent around => layout.nested.1 a scope parent found around,
    layout.nested.2⟩
  filled := layout.filled
  fields := layout.fields
  regular := by
    intro a' b' depth place' matched
    obtain ⟨pair, rel⟩ := layout.regular place' matched
    rw [scope?_mark_ne (layout.additional_ne place pair).symm]
    exact ⟨pair, rel⟩
  additional := by
    intro extra beyond place'
    obtain ⟨alone, below, bare⟩ := layout.additional place'
    refine ⟨alone, below, fun after atExtra => ?_⟩
    rcases mark_cases atExtra with ⟨rfl, rfl⟩ | before
    · exact bare scope found
    · exact bare after before

theorem define (layout : w.Layout s t) (pair : w.pairs a.index b.index) (name : String) {v v' : Value}
    (values : w.Values v v') : w.Layout (s.define a name v) (t.define b name v') where
  sharp := layout.sharp
  below := layout.below
  nested := ⟨layout.nested.1.define a name v, layout.nested.2.define b name v'⟩
  filled := layout.filled
  fields := layout.fields
  regular := by
    intro a' b' depth place matched
    obtain ⟨pair', rel⟩ := layout.regular place matched
    refine ⟨pair', ?_⟩
    rw [scope?_define, scope?_define]
    refine rel_map rel fun scope scope' scopes => ?_
    by_cases same : a' = a
    · rw [if_pos same, if_pos ((layout.same_iff pair pair').mp same)]
      exact ⟨Bound.put scopes.bindings name values, scopes.captured, scopes.around⟩
    · rw [if_neg same, if_neg fun same' => same ((layout.same_iff pair pair').mpr same')]
      exact scopes
  additional := by
    intro extra beyond place
    obtain ⟨alone, below, bare⟩ := layout.additional place
    refine ⟨alone, below, fun after found => bare after ?_⟩
    rwa [scope?_define_ne (layout.additional_ne place pair)] at found

theorem free (layout : w.Layout s t) (pair : w.pairs a.index b.index) :
    w.Layout (s.free a) (t.free b) where
  sharp := layout.sharp
  below := layout.below
  nested := ⟨layout.nested.1.free a, layout.nested.2.free b⟩
  filled := layout.filled
  fields := layout.fields
  regular := by
    intro a' b' depth place matched
    obtain ⟨pair', rel⟩ := layout.regular place matched
    refine ⟨pair', ?_⟩
    rw [scope?_free, scope?_free]
    by_cases same : a' = a
    · rw [if_pos same, if_pos ((layout.same_iff pair pair').mp same)]
      exact .none
    · rw [if_neg same, if_neg fun same' => same ((layout.same_iff pair pair').mpr same')]
      exact rel
  additional := by
    intro extra beyond place
    obtain ⟨alone, below, bare⟩ := layout.additional place
    refine ⟨alone, below, fun after found => bare after ?_⟩
    rwa [scope?_free, if_neg (layout.additional_ne place pair)] at found

theorem free_additional (layout : w.Layout s t) (place : w.places a b (some 0)) :
    w.Layout (s.free a) t where
  sharp := layout.sharp
  below := layout.below
  nested := ⟨layout.nested.1.free a, layout.nested.2⟩
  filled := layout.filled
  fields := layout.fields
  regular := by
    intro a' b' depth place' matched
    obtain ⟨pair, rel⟩ := layout.regular place' matched
    rw [scope?_free, if_neg (layout.additional_ne place pair).symm]
    exact ⟨pair, rel⟩
  additional := by
    intro extra beyond place'
    obtain ⟨alone, below, bare⟩ := layout.additional place'
    exact ⟨alone, below, fun after found => bare after (scope?_of_free found)⟩

end Layout

/-- A number that neither run has taken before may correspond to another such one. -/
theorem Exact.number (exact' : w.Exact) {m n : Nat}
    (below : ∀ {x y : Nat}, w.pairs x y → x < m ∧ y < n) : (w.number m n).Exact where
  right := by
    rintro x y y' (⟨rfl, rfl⟩ | pair) (⟨same, rfl⟩ | pair')
    · rfl
    · exact absurd (below pair').1 (Nat.lt_irrefl _)
    · exact absurd (same ▸ (below pair).1) (Nat.lt_irrefl _)
    · exact exact'.right pair pair'
  left := by
    rintro x x' y (⟨rfl, rfl⟩ | pair) (⟨rfl, same⟩ | pair')
    · rfl
    · exact absurd (below pair').2 (Nat.lt_irrefl _)
    · exact absurd (same ▸ (below pair).2) (Nat.lt_irrefl _)
    · exact exact'.left pair pair'

namespace Stores

theorem captured_of_same (captured : s.Captured p) (same : s'.scope? p = s.scope? p) :
    s'.Captured p := by
  obtain ⟨scope, found, marked⟩ := captured
  exact ⟨scope, same.trans found, marked⟩

theorem newIdentity (stores : w.Stores s t) :
    (w.number s.next t.next).Stores s.newIdentity.2 t.newIdentity.2 := by
  have after := later_number w s.next t.next
  refine { sharp := stores.sharp.number stores.below, below := ?_, nested := stores.nested,
           filled := ⟨stores.filled.1.newIdentity, stores.filled.2.newIdentity⟩, regular := ?_,
           additional := ?_, fields := ?_, closed := stores.closed }
  · rintro x y (⟨rfl, rfl⟩ | pair)
    · exact ⟨Nat.lt_succ_self _, Nat.lt_succ_self _⟩
    · exact ⟨Nat.lt_succ_of_lt (stores.below pair).1, Nat.lt_succ_of_lt (stores.below pair).2⟩
  · intro a b depth place matched
    obtain ⟨pair, rel⟩ := stores.regular place matched
    exact ⟨.inr pair, rel_mono rel fun _ _ scopes => scopes.later after⟩
  · intro extra beyond place
    obtain ⟨alone, below, bare⟩ := stores.additional place
    refine ⟨?_, Nat.lt_succ_of_lt below, bare⟩
    rintro y (⟨same, _⟩ | pair)
    · exact absurd (same ▸ below) (Nat.lt_irrefl _)
    · exact alone y pair
  · rintro id id' (⟨same, same'⟩ | pair)
    · rw [fields?_newIdentity, fields?_newIdentity, stores.filled.1.fields?_next same,
        stores.filled.2.fields?_next same']
      exact .none
    · exact rel_mono (stores.fields pair) fun _ _ => bound_later after

theorem newScope (stores : w.Stores s t) (inside : w.places p p' depth) (older : p'.index < t.next)
    {bindings bindings' : Bindings} (bound : w.Bound bindings bindings') :
    ((w.number s.next t.next).place ⟨s.next⟩ ⟨t.next⟩ (depth.inside 1)).Stores
      (s.newScope (some p) bindings).2 (t.newScope (some p') bindings').2 := by
  have numbered := stores.newIdentity
  have after := later_number w s.next t.next
  have pair : (w.number s.next t.next).pairs s.next t.next := .inl ⟨rfl, rfl⟩
  have unplaced : ∀ {b depth}, ¬ w.places ⟨s.next⟩ b depth :=
    fun place => Nat.lt_irrefl _ (stores.place_below place)
  have opened : (w.number s.next t.next).Scopes (depth.inside 1) ⟨bindings, some p, false⟩
      ⟨bindings', some p', false⟩ :=
    ⟨bound_later after bound, rfl, .within (after.places inside)⟩
  have written := numbered.write (a := ⟨s.next⟩) (b := ⟨t.next⟩) ⟨bindings, some p, false⟩
    ⟨bindings', some p', false⟩ pair (fun place => absurd place unplaced)
    (fun parent around => Option.some.inj around ▸ stores.place_below inside)
    (fun parent around => Option.some.inj around ▸ older)
  have matched : depth.inside 1 ≠ some 0 := depth.inside_ne_zero 0
  refine { toLayout := written.place pair matched ?_, closed := ?_ }
  · rw [scope?_mark, scope?_mark, if_pos rfl, if_pos rfl]
    exact .some opened
  · refine Waits.change numbered.closed numbered.toLayout ?_ ?_ ?_
    · rintro extra beyond (⟨_, _, same⟩ | place)
      · exact absurd same.symm matched
      · exact place
    · intro extra beyond scope place found
      rwa [scope?_newScope, if_neg (Nat.ne_of_lt (stores.place_below place))] at found
    · intro p b place captured
      refine captured_of_same captured ?_
      rw [scope?_newScope, if_neg (Nat.ne_of_lt (stores.place_below place))]
      rfl

/-- A scope that only the first run opens. -/
theorem newScope_additional (stores : w.Stores s t) (beyond : w.places p b none) :
    (w.place ⟨s.next⟩ b (some 0)).Stores (s.newScope (some p) []).2 t := by
  have after := later_place w ⟨s.next⟩ b (some 0)
  have old : ∀ {a b : ScopeId} {depth : Depth}, w.places a b depth →
      (s.newScope (some p) []).2.scope? a = s.scope? a := by
    intro a b depth place
    rw [scope?_newScope, if_neg (Nat.ne_of_lt (stores.place_below place))]
  have nested : (s.newScope (some p) []).2.Nested := stores.nested.1.insert ⟨s.next⟩
    fun parent around => Option.some.inj around ▸ stores.place_below beyond
  refine { sharp := ⟨stores.sharp.right, stores.sharp.left⟩, below := ?_,
           nested := ⟨nested, stores.nested.2⟩, filled := ⟨?_, stores.filled.2⟩, regular := ?_,
           additional := ?_, fields := ?_, closed := ?_ }
  · exact fun pair => ⟨Nat.lt_succ_of_lt (stores.below pair).1, (stores.below pair).2⟩
  · exact fun id fields found => Nat.lt_succ_of_lt (stores.filled.1 id fields found)
  · rintro a' b' depth (⟨_, _, same⟩ | place) matched
    · exact absurd same matched
    · obtain ⟨pair, rel⟩ := stores.regular place matched
      rw [old place]
      exact ⟨pair, rel_mono rel fun _ _ scopes => scopes.later after⟩
  · rintro extra beyond' (⟨rfl, rfl, _⟩ | place)
    · refine ⟨fun y pair => Nat.lt_irrefl _ (stores.below pair).1, Nat.lt_succ_self _, ?_⟩
      intro scope found
      rw [scope?_newScope, if_pos rfl] at found
      cases found
      exact ⟨rfl, p, rfl, .inr beyond⟩
    · obtain ⟨alone, below, bare⟩ := stores.additional place
      refine ⟨alone, Nat.lt_succ_of_lt below, fun scope found => ?_⟩
      rw [old place] at found
      obtain ⟨empty, parent, around, outside⟩ := bare scope found
      exact ⟨empty, parent, around, .inr outside⟩
  · exact fun pair => rel_mono (stores.fields pair) fun _ _ => bound_later after
  · rintro a' b' parent scope (⟨rfl, rfl, _⟩ | place) found captured around
    · rw [scope?_newScope, if_pos rfl] at found
      cases found
      cases captured
    · rw [old place] at found
      obtain ⟨_, parent', around', outside⟩ := (stores.additional place).bare scope found
      cases around.symm.trans around'
      exact (stores.closed place found captured around).imp_right fun marked =>
        captured_of_same marked (old outside)

theorem newInstance (stores : w.Stores s t) :
    (w.number s.next t.next).Stores s.newInstance.2 t.newInstance.2 := by
  have numbered := stores.newIdentity
  refine { sharp := numbered.sharp, below := numbered.below, nested := numbered.nested,
           filled := ⟨stores.filled.1.newInstance, stores.filled.2.newInstance⟩,
           regular := numbered.regular,
           additional := fun place =>
             have additional := numbered.additional place
             ⟨additional.alone, additional.below, additional.bare⟩
           fields := ?_, closed := numbered.closed }
  intro id id' pair
  rw [fields?_newInstance, fields?_newInstance]
  by_cases same : id.index = s.next
  · have same' : id'.index = t.next := numbered.sharp.right pair (.inl ⟨same, rfl⟩)
    rw [if_pos same, if_pos same']
    exact .some .nil
  · have differs : id'.index ≠ t.next := fun same' =>
      same (numbered.sharp.left pair (.inl ⟨rfl, same'⟩))
    rw [if_neg same, if_neg differs]
    exact numbered.fields pair

theorem define (stores : w.Stores s t) (pair : w.pairs a.index b.index) (name : String) {v v' : Value}
    (values : w.Values v v') : w.Stores (s.define a name v) (t.define b name v') := by
  refine { toLayout := stores.toLayout.define pair name values, closed := ?_ }
  refine Waits.change stores.closed stores.toLayout id ?_ fun _ captured => ?_
  · intro extra beyond scope place found
    rwa [scope?_define_ne (stores.additional_ne place pair)] at found
  · exact captured.extend (extends_define a name v)

theorem setField (stores : w.Stores s t) {id id' : InstanceId} (pair : w.pairs id.index id'.index)
    (name : String) {v v' : Value} (values : w.Values v v') :
    w.Stores (s.setField id name v) (t.setField id' name v') := by
  refine { sharp := stores.sharp, below := stores.below, nested := stores.nested,
           filled := ⟨stores.filled.1.setField id name v, stores.filled.2.setField id' name v'⟩,
           regular := stores.regular,
           additional := fun place =>
             have additional := stores.additional place
             ⟨additional.alone, additional.below, additional.bare⟩
           fields := ?_, closed := stores.closed }
  intro other other' pair'
  have same_iff : other = id ↔ other' = id' := by
    constructor
    · rintro rfl
      exact InstanceId.index_inj.mp (stores.sharp.right pair' pair)
    · rintro rfl
      exact InstanceId.index_inj.mp (stores.sharp.left pair' pair)
  rw [fields?_setField, fields?_setField]
  refine rel_map (stores.fields pair') fun fields fields' bound => ?_
  by_cases same : other = id
  · rw [if_pos same, if_pos (same_iff.mp same)]
    exact Bound.put bound name values
  · rw [if_neg same, if_neg fun same' => same (same_iff.mpr same')]
    exact bound

theorem free (stores : w.Stores s t) (pair : w.pairs a.index b.index)
    (uncaptured : s.isCaptured a = false) : w.Stores (s.free a) (t.free b) := by
  refine { toLayout := stores.toLayout.free pair, closed := ?_ }
  refine Waits.change stores.closed stores.toLayout id ?_ fun {p _} _ captured => ?_
  · intro extra beyond scope place found
    rwa [scope?_free, if_neg (stores.additional_ne place pair)] at found
  · refine captured_of_same captured ((scope?_free _ _ _).trans (if_neg ?_))
    rintro rfl
    obtain ⟨scope, found, marked⟩ := captured
    unfold Store.isCaptured at uncaptured
    rw [found] at uncaptured
    exact absurd (marked.symm.trans uncaptured) (by decide)

/-- An additional scope that no function has captured is left in the one run. -/
theorem free_additional (stores : w.Stores s t) (place : w.places a b (some 0)) :
    w.Stores (s.free a) t := by
  refine { toLayout := stores.toLayout.free_additional place, closed := ?_ }
  refine Waits.change stores.closed stores.toLayout id ?_ fun {p _} outside captured => ?_
  · exact fun _ found => scope?_of_free found
  · refine captured_of_same captured ((scope?_free _ _ _).trans (if_neg ?_))
    rintro rfl
    obtain ⟨pair, _⟩ := stores.regular outside fun impossible => by cases impossible
    exact (stores.additional place).alone _ pair

end Stores

/-- Nothing changes when a scope is captured whose counterpart has been captured before. -/
theorem Layout.capture_self (layout : w.Layout s t) (place : w.places a b depth)
    (matched : depth ≠ some 0) (captured : s.Captured a) : t.capture b = t := by
  obtain ⟨scope, found, marked⟩ := captured
  obtain ⟨_, rel⟩ := layout.regular place matched
  rw [found] at rel
  generalize there : t.scope? b = scope? at rel
  cases rel with
  | some scopes => exact capture_of_captured there (scopes.captured.symm.trans marked)

theorem Layout.mark (layout : w.Layout s t) (pair : w.pairs a.index b.index) {scope scope' : Scope}
    (found : s.scope? a = some scope) (found' : t.scope? b = some scope') :
    w.Layout (s.mark a scope) (t.mark b scope') := by
  refine layout.write _ _ pair (fun {depth'} place => ?_)
    (fun parent around => layout.nested.1 a scope parent found around)
    (fun parent around => layout.nested.2 b scope' parent found' around)
  have regular : depth' ≠ some 0 := by
    rintro rfl
    exact (layout.additional place).alone _ pair
  obtain ⟨_, rel⟩ := layout.regular place regular
  rw [found, found'] at rel
  cases rel with
  | some scopes => exact ⟨scopes.bindings, rfl, scopes.around⟩

/-- Whatever waits for a scope does so no longer once that one is marked. -/
theorem Waits.mark (waits : w.Waits s (· = a)) (layout : w.Layout s t) (pair : w.pairs a.index b.index)
    {scope : Scope} (found : s.scope? a = some scope) (waiting : ScopeId → Prop) :
    w.Waits (s.mark a scope) waiting := by
  intro extra beyond p after place atExtra marked around
  rw [scope?_mark_ne (layout.additional_ne place pair)] at atExtra
  rcases waits place atExtra marked around with rfl | kept
  · exact .inr (captured_mark s _ scope)
  · exact .inr (kept.extend (mark_extends found))

/-- An additional scope that is marked waits for the one around it. -/
theorem Waits.mark_additional {q : ScopeId} (waits : w.Waits s fun _ => False) {scope : Scope}
    (found : s.scope? a = some scope) (outside : scope.enclosing? = some q) :
    w.Waits (s.mark a scope) (· = q) := by
  intro extra beyond parent after place atExtra marked around
  rcases mark_cases atExtra with ⟨rfl, rfl⟩ | before
  · exact .inl (Option.some.inj (around.symm.trans outside))
  · rcases waits place before marked around with impossible | kept
    · exact impossible.elim
    · exact .inr (kept.extend (mark_extends found))

/-- A capture marks the same scopes in both stores, and the additional ones between them. -/
theorem Layout.capture (layout : w.Layout s t) (inside : w.places a b depth) (matched : depth ≠ some 0)
    (stands : s.Stands a) (waits : w.Waits s (· = a)) : w.Stores (s.capture a) (t.capture b) := by
  induction size : a.index using Nat.strongRecOn generalizing s t a b depth with
  | _ size ih =>
    subst size
    obtain ⟨scope, found, chain⟩ := stands.exists
    obtain ⟨pair, rel⟩ := layout.regular inside matched
    rw [found] at rel
    generalize found' : t.scope? b = there at rel
    cases rel with
    | @some _ scope' scopes =>
    by_cases captured : scope.captured = true
    · rw [capture_of_captured found captured,
        capture_of_captured found' (scopes.captured.symm.trans captured)]
      refine { toLayout := layout, closed := fun place atExtra marked around => .inr ?_ }
      rcases waits place atExtra marked around with rfl | kept
      · exact ⟨scope, found, captured⟩
      · exact kept
    · have fresh' : ¬ scope'.captured = true := scopes.captured ▸ captured
      have marked := layout.mark pair found found'
      -- Whatever waited for this scope does so no longer.
      have settled : ∀ waiting, w.Waits (s.mark a scope) waiting :=
        fun waiting => waits.mark layout pair found waiting
      have extend : s.Extends (s.mark a scope) := mark_extends found
      rcases layout.outward? inside matched with ⟨outermost, outermost'⟩ |
        ⟨p, p', older, older', outer, around, around', beyond, rfl⟩
      · rw [capture_of_outermost found captured outermost, capture_of_outermost found' fresh' outermost']
        exact { toLayout := marked, closed := settled fun _ => False }
      · rw [capture_of_inner found captured around, capture_of_inner found' fresh' around']
        have standing : (s.mark a scope).Stands p :=
          (Layout.stands_outward stands around).extend extend
        by_cases extra : outer = some 0
        · -- The scope around is the additional one, which only the first capture passes.
          subst extra
          obtain ⟨q, oldest, outside, place, standing'⟩ :=
            marked.outward?_additional beyond standing
          obtain ⟨scope₁, found₁, _⟩ := standing.exists
          obtain ⟨scope₂, found₂, around₂⟩ := outward?_eq_some outside
          cases found₁.symm.trans found₂
          have regular : (none : Depth) ≠ some 0 := fun impossible => by cases impossible
          have closed : w.Waits (s.mark a scope) fun _ => False := settled fun _ => False
          by_cases captured₁ : scope₁.captured = true
          · rw [capture_of_captured found₁ captured₁]
            have kept := (closed beyond found₁ captured₁ around₂).resolve_left id
            rw [marked.capture_self place regular kept]
            exact { toLayout := marked, closed := closed }
          · rw [capture_of_inner found₁ captured₁ outside]
            exact ih q.index (Nat.lt_trans oldest older) (marked.mark_additional beyond found₁) place
              regular (standing'.extend (mark_extends found₁)) (closed.mark_additional found₁ around₂) rfl
        · exact ih p.index older marked beyond extra standing (settled (· = p)) rfl

namespace Stores

theorem capture (stores : w.Stores s t) (inside : w.places a b depth) (matched : depth ≠ some 0)
    (stands : s.Stands a) : w.Stores (s.capture a) (t.capture b) := by
  refine stores.toLayout.capture inside matched stands ?_
  intro extra beyond p scope place found captured around
  exact (stores.closed place found captured around).imp_left False.elim

theorem close (stores : w.Stores s t) (inside : w.places a b depth) (matched : depth ≠ some 0)
    (stands : s.Stands a) {declaration declaration' : FunctionDecl} {within : Nat}
    (code : declaration.Deepened (depth.inside within) declaration') (isInitializer : Bool) :
    (w.number s.next t.next).Closures within (s.close a declaration isInitializer).1
        (t.close b declaration' isInitializer).1 ∧
      (w.number s.next t.next).Stores (s.close a declaration isInitializer).2
        (t.close b declaration' isInitializer).2 :=
  ⟨⟨.inl ⟨rfl, rfl⟩, rfl, depth, inside, matched, code⟩,
    stores.newIdentity.capture inside matched (stands.extend (extends_newIdentity s))⟩

theorem bind (stores : w.Stores s t) (numbered : s.Numbered) {method method' : Closure}
    {id id' : InstanceId} {type type' : Class} (code : w.Closures 1 method method')
    (receiver : w.Values (.instance id type) (.instance id' type')) (stands : s.Stands method.scope) :
    ∃ w', w.Later w' ∧ w'.Closures 0 (s.bind method id type).1 (t.bind method' id' type').1 ∧
      w'.Stores (s.bind method id type).2 (t.bind method' id' type').2 := by
  obtain ⟨depth, inside, matched, body⟩ := code.placed
  have bound : w.Bound [("this", .instance id type)] [("this", .instance id' type')] :=
    .cons ⟨rfl, receiver⟩ .nil
  have opened := stores.newScope inside (stores.place_below' inside matched) bound
  have counted := opened.newIdentity
  have after := ((later_number w s.next t.next).trans (later_place _ ⟨s.next⟩ ⟨t.next⟩ (depth.inside 1))).trans
    (later_number _ (s.next + 1) (t.next + 1))
  have place : ((w.number s.next t.next).place ⟨s.next⟩ ⟨t.next⟩ (depth.inside 1)).places ⟨s.next⟩
      ⟨t.next⟩ (depth.inside 1) := .inl ⟨rfl, rfl, rfl⟩
  have regular : depth.inside 1 ≠ some 0 := depth.inside_ne_zero 0
  refine ⟨_, after, ⟨.inl ⟨rfl, rfl⟩, code.isInitializer, depth.inside 1, place, regular, ?_⟩,
    counted.capture place regular ?_⟩
  · rw [Depth.inside_inside]
    exact body
  · have extend := (extends_newScope numbered (some method.scope)
      [("this", Value.instance id type)]).trans (extends_newIdentity _)
    refine .intro (scope?_newScope_self s (some method.scope) [("this", .instance id type)]) ?_
    exact fun parent around => Option.some.inj around ▸ stands.extend extend

theorem assignAt (stores : w.Stores s t) (place : w.places a b depth) (stands : s.Stands a) (d : Nat)
    (name : String) {v v' : Value} (values : w.Values v v') (line : Nat) :
    Attempts w.Stores (s.assignAt a (depth.shift d) name v line) (t.assignAt b d name v' line) := by
  rw [assignAt_eq_elim, assignAt_eq_elim]
  refine attempts_elim (stores.ownerAt? place stands d name) _ fun owner owner' matched => ?_
  obtain ⟨depth', place', regular⟩ := matched
  exact stores.define (stores.regular place' regular).1 name values

theorem assign (stores : w.Stores s t) (place : w.places a b depth) (stands : s.Stands a)
    (name : String) {v v' : Value} (values : w.Values v v') (line : Nat) :
    Attempts w.Stores (s.assign a name v line) (t.assign b name v' line) := by
  rw [assign_eq_elim, assign_eq_elim]
  refine attempts_elim (stores.owner? place stands name) _ fun owner owner' matched => ?_
  obtain ⟨depth', place', regular⟩ := matched
  exact stores.define (stores.regular place' regular).1 name values

end Stores

end World
end Lox
