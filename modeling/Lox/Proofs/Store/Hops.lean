import Lox.Proofs.Store.Chains

namespace Lox.Store

variable {s : Store} {id : ScopeId} {distance : Nat} {name : String}

def BindsAt (s : Store) (id : ScopeId) (distance : Nat) (name : String) : Prop :=
  ∃ owner scope, s.ancestor? id distance = some owner ∧ s.scope? owner = some scope ∧
    scope.Binds name

theorem local?_of_scope? {scope : Scope} (found : s.scope? id = some scope) :
    s.local? id name = scope.bindings.lookup name := by
  unfold local?
  rw [found]
  rfl

theorem bindsAt_iff : s.BindsAt id distance name ↔ ∃ owner value,
    s.ownerAt? id distance name = some owner ∧ s.local? owner name = some value := by
  refine ⟨?_, ?_⟩
  · rintro ⟨owner, scope, hops, found, value, bound⟩
    have here : s.local? owner name = some value := (local?_of_scope? found).trans bound
    refine ⟨owner, value, ?_, here⟩
    unfold ownerAt?
    rw [hops, Option.bind_some, here]
    rfl
  · rintro ⟨owner, value, hops, bound⟩
    unfold ownerAt? at hops
    obtain ⟨other, ancestor, kept⟩ := Option.bind_eq_some_iff.mp hops
    obtain ⟨_, _, rfl⟩ := Option.map_eq_some_iff.mp kept
    obtain ⟨scope, found, listed⟩ := Option.bind_eq_some_iff.mp bound
    exact ⟨other, scope, ancestor, found, value, listed⟩

theorem readAt_iff (line : Nat) :
    (∃ value, s.readAt id distance name line = .ok value) ↔ s.BindsAt id distance name := by
  rw [bindsAt_iff]
  unfold readAt
  cases hops : s.ownerAt? id distance name with
  | none => simp
  | some owner => cases bound : s.local? owner name <;> simp [bound]

theorem assignAt_iff (value : Value) (line : Nat) :
    (∃ s', s.assignAt id distance name value line = .ok s') ↔ s.BindsAt id distance name := by
  rw [bindsAt_iff]
  unfold assignAt
  cases hops : s.ownerAt? id distance name with
  | none => simp
  | some owner =>
    unfold ownerAt? at hops
    obtain ⟨other, _, kept⟩ := Option.bind_eq_some_iff.mp hops
    obtain ⟨old, bound, rfl⟩ := Option.map_eq_some_iff.mp kept
    simp [bound]

theorem assignAt_error {value : Value} {line : Nat} {fault : Fault}
    (failed : s.assignAt id distance name value line = .error fault) :
    fault = undefined name line := by
  unfold assignAt at failed
  split at failed <;> cases failed
  rfl

section chain

variable {Layer : Type} {holds : Layer → ScopeId → (String → Prop) → Prop} {globals : ScopeId}
  {layers : List Layer}

theorem Chain.ancestor? (chain : Chain holds s globals id layers) (nested : s.Nested)
    (inside : distance ≤ layers.length) : ∃ owner, s.ancestor? id distance = some owner ∧
      Chain holds s globals owner (layers.drop distance) := by
  induction distance generalizing id layers with
  | zero => exact ⟨id, by rw [Store.ancestor?], chain⟩
  | succ distance ih =>
    cases chain with
    | globals => exact absurd inside (Nat.not_succ_le_zero _)
    | @inner id parent scope layer layers found around known outer =>
      obtain ⟨owner, hops, rest⟩ := ih outer (Nat.le_of_succ_le_succ inside)
      refine ⟨owner, ?_, rest⟩
      rw [Store.ancestor?, outward?_of_scope? found around (nested id scope parent found around)]
      exact hops

/-- The scope that a walk outward ends in lies in another one and is as its layer says. -/
theorem Chain.at (chain : Chain holds s globals id layers) (nested : s.Nested)
    {layer : Layer} (here : layers[distance]? = some layer) : ∃ owner parent scope,
      s.ancestor? id distance = some owner ∧ s.scope? owner = some scope ∧
      scope.enclosing? = some parent ∧ holds layer owner scope.Binds := by
  obtain ⟨inside, rfl⟩ := List.getElem?_eq_some_iff.mp here
  obtain ⟨owner, hops, rest⟩ := chain.ancestor? nested (Nat.le_of_lt inside)
  rw [List.drop_eq_getElem_cons inside] at rest
  obtain ⟨parent, scope, found, around, known, _⟩ := rest.split
  exact ⟨owner, parent, scope, hops, found, around, known⟩

end chain

end Lox.Store
