import Lox.Proofs.Store.Hops
import Lox.Proofs.Machine.Tracking

namespace Lox

/-- Whatever an older scope binds to `this` or `super` by the later time it has bound before. -/
structure Store.Retains (s s' : Store) : Prop where
  next_le : s.next ≤ s'.next
  bound : ∀ id name value, id.index < s.next → name = "this" ∨ name = "super" →
    s'.local? id name = some value → s.local? id name = some value

namespace Store

variable {s s' s'' : Store} {id : ScopeId} {name : String} {value value' : Value}

theorem Retains.refl (s : Store) : s.Retains s := ⟨Nat.le_refl _, fun _ _ _ _ _ bound => bound⟩

theorem Retains.trans (first : s.Retains s') (second : s'.Retains s'') : s.Retains s'' where
  next_le := Nat.le_trans first.next_le second.next_le
  bound id name value old keyword later :=
    first.bound id name value old keyword
      (second.bound id name value (Nat.lt_of_lt_of_le old first.next_le) keyword later)

theorem Retains.agree (either : s.Retains s' ∨ s'.Retains s) (old : id.index < s.next)
    (old' : id.index < s'.next) (keyword : name = "this" ∨ name = "super")
    (here : s.local? id name = some value) (there : s'.local? id name = some value') :
    value = value' := by
  rcases either with later | earlier
  · exact Option.some.inj (here.symm.trans (later.bound id name value' old keyword there))
  · exact Option.some.inj ((earlier.bound id name value old' keyword here).symm.trans there)

theorem Retains.of_scopes (next_le : s.next ≤ s'.next)
    (scopes : ∀ id after, id.index < s.next → s'.scope? id = some after →
      ∃ before, s.scope? id = some before ∧ ∀ name value, name = "this" ∨ name = "super" →
        after.bindings.lookup name = some value → before.bindings.lookup name = some value) :
    s.Retains s' := by
  refine ⟨next_le, fun id name value old keyword bound => ?_⟩
  obtain ⟨after, found, listed⟩ := Option.bind_eq_some_iff.mp bound
  obtain ⟨before, atId, same⟩ := scopes id after old found
  exact (local?_of_scope? atId).trans (same name value keyword listed)

theorem retains_newScope (s : Store) (enclosing? : Option ScopeId) (bindings : Bindings) :
    s.Retains (s.newScope enclosing? bindings).2 := by
  refine .of_scopes (Nat.le_succ _) fun id after old found => ?_
  rcases bindings_newScope found with ⟨rfl, _⟩ | before
  · exact absurd old (Nat.lt_irrefl _)
  · exact ⟨after, before, fun _ _ _ bound => bound⟩

theorem retains_free (s : Store) (id : ScopeId) : s.Retains (s.free id) :=
  .of_scopes (Nat.le_refl _) fun _ after _ found =>
    ⟨after, scope?_of_free found, fun _ _ _ bound => bound⟩

theorem retains_collect (s : Store) (l : Ledger) (roots : List Root) :
    s.Retains (collect s l roots).1 := by
  refine .of_scopes (Nat.le_refl _) fun id after _ found => ?_
  obtain ⟨before, atId, same | empty⟩ := bindings_collect found
  · exact ⟨before, atId, fun _ _ _ bound => same ▸ bound⟩
  · refine ⟨before, atId, fun _ _ _ bound => ?_⟩
    rw [empty] at bound
    cases bound

end Store

variable {config : Config} {p : Point} {m m' : Machine}

/-- A change puts only plain names to other values. -/
theorem Change.retains {layers after : List Unit}
    (ready : (Discipline.written config).Ready p layers after) (change : Change config p m m') :
    m.store.Retains m'.store := by
  refine .of_scopes change.next_le fun id scope old found => ?_
  have gives := change.gives found
  generalize scope.bindings = bindings at gives ⊢
  cases gives with
  | kept before => exact ⟨_, before, fun _ _ _ bound => bound⟩
  | @put scope token before binds place value =>
    refine ⟨scope, before, fun name value keyword bound => ?_⟩
    have plain := ready.fits.2.binds binds
    rw [Bindings.lookup_put, if_neg] at bound
    · exact bound
    · rintro rfl
      exact keyword.elim plain.1 plain.2
  | receiver new _ | inherited new _ _ _ =>
    rw [new] at old
    exact absurd old (Nat.lt_irrefl _)

def Passage.keywords (config : Config) : Passage config where
  ok p := ∃ layers after, (Discipline.written config).Ready p layers after
  rel m m' := m.store.Retains m'.store
  calls := Grammatical.ready_called
  refl m := .refl m.store
  trans := .trans
  change := fun ⟨_, _, ready⟩ change => change.retains ready
  opened m parent bindings := m.store.retains_newScope (some parent) bindings
  placed m _ _ := .refl m.store
  freed m scope := m.store.retains_free scope
  tracked m _ := .refl m.store
  settled m held := m.store.retains_collect .empty (m.roots held)
  paused m held := by
    unfold Machine.pause
    dsimp only
    split
    · exact m.store.retains_collect m.ledger (m.roots held)
    · exact .refl m.store

end Lox
