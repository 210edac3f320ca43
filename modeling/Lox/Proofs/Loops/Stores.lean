import Lox.Proofs.Loops.Worlds

namespace Lox

def Store.Filled (s : Store) : Prop := ∀ id fields, s.fields? id = some fields → id.index < s.next

theorem rel_map {α β γ δ : Type} {related : α → β → Prop} {related' : γ → δ → Prop} {f : α → γ}
    {g : β → δ} {a? : Option α} {b? : Option β} (rel : Option.Rel related a? b?)
    (keeps : ∀ a b, related a b → related' (f a) (g b)) :
    Option.Rel related' (a?.map f) (b?.map g) := by
  cases rel with
  | some here => exact .some (keeps _ _ here)
  | none => exact .none

theorem rel_mono {α β : Type} {related related' : α → β → Prop} {a? : Option α} {b? : Option β}
    (rel : Option.Rel related a? b?) (weaker : ∀ a b, related a b → related' a b) :
    Option.Rel related' a? b? := by
  cases rel with
  | some here => exact .some (weaker _ _ here)
  | none => exact .none

namespace Store

variable (s : Store) (id : ScopeId) (distance : Nat) (name : String) (value : Value) (line : Nat)

theorem read_eq_elim : s.read id name line =
    ((s.owner? id name).bind (s.local? · name)).elim (.error (undefined name line)) .ok := by
  unfold Store.read
  cases (s.owner? id name).bind (s.local? · name) <;> rfl

theorem readAt_eq_elim : s.readAt id distance name line =
    ((s.ownerAt? id distance name).bind (s.local? · name)).elim (.error (undefined name line)) .ok := by
  unfold Store.readAt
  cases (s.ownerAt? id distance name).bind (s.local? · name) <;> rfl

theorem assign_eq_elim : s.assign id name value line = (s.owner? id name).elim
    (.error (undefined name line)) fun owner => .ok (s.define owner name value) := by
  unfold Store.assign
  cases s.owner? id name <;> rfl

theorem assignAt_eq_elim : s.assignAt id distance name value line =
    (s.ownerAt? id distance name).elim (.error (undefined name line)) fun owner =>
      .ok (s.define owner name value) := by
  unfold Store.assignAt
  cases s.ownerAt? id distance name <;> rfl

end Store

namespace World

inductive Around (w : World) : Depth → Option ScopeId → Option ScopeId → Prop where
  | outermost : Around w none none none
  | within {p p' : ScopeId} {depth : Depth} (place : w.places p p' depth) :
      Around w (depth.inside 1) (some p) (some p')

structure Scopes (w : World) (depth : Depth) (scope scope' : Scope) : Prop where
  bindings : w.Bound scope.bindings scope'.bindings
  captured : scope.captured = scope'.captured
  around : w.Around depth scope.enclosing? scope'.enclosing?

/-- An additional scope, through which nothing but the scope around it can be seen. -/
structure Additional (w : World) (s : Store) (extra beyond : ScopeId) : Prop where
  alone : ∀ y, ¬ w.pairs extra.index y
  below : extra.index < s.next
  bare : ∀ scope, s.scope? extra = some scope → scope.bindings = [] ∧
    ∃ p, scope.enclosing? = some p ∧ w.places p beyond none

structure Layout (w : World) (s t : Store) : Prop where
  sharp : w.Exact
  below : ∀ {x y : Nat}, w.pairs x y → x < s.next ∧ y < t.next
  nested : s.Nested ∧ t.Nested
  filled : s.Filled ∧ t.Filled
  regular : ∀ {a b : ScopeId} {depth : Depth}, w.places a b depth → depth ≠ some 0 →
    w.pairs a.index b.index ∧ Option.Rel (w.Scopes depth) (s.scope? a) (t.scope? b)
  additional : ∀ {a b : ScopeId}, w.places a b (some 0) → w.Additional s a b
  fields : ∀ {id id' : InstanceId}, w.pairs id.index id'.index →
    Option.Rel w.Bound (s.fields? id) (t.fields? id')

/-- What encloses an additional scope is captured with it, but for one scope that still waits. -/
def Waits (w : World) (s : Store) (waiting : ScopeId → Prop) : Prop :=
  ∀ {a b p : ScopeId} {scope : Scope}, w.places a b (some 0) → s.scope? a = some scope →
    scope.captured = true → scope.enclosing? = some p → waiting p ∨ s.Captured p

structure Stores (w : World) (s t : Store) : Prop extends w.Layout s t where
  closed : w.Waits s fun _ => False

inductive Attempts {α β : Type} (related : α → β → Prop) : Except Fault α → Except Fault β → Prop where
  | ok {a : α} {b : β} (done : related a b) : Attempts related (.ok a) (.ok b)
  | error {fault : Fault} : Attempts related (.error fault) (.error fault)

theorem attempts_elim {α β γ δ : Type} {related : α → β → Prop} {related' : γ → δ → Prop}
    {a? : Option α} {b? : Option β} {f : α → γ} {g : β → δ} (rel : Option.Rel related a? b?)
    (fault : Fault) (keeps : ∀ a b, related a b → related' (f a) (g b)) :
    Attempts related' (a?.elim (.error fault) fun a => .ok (f a))
      (b?.elim (.error fault) fun b => .ok (g b)) := by
  cases rel with
  | some here => exact .ok (keeps _ _ here)
  | none => exact .error

def Matched (w : World) (a b : ScopeId) : Prop := ∃ depth, w.places a b depth ∧ depth ≠ some 0

def number (w : World) (x y : Nat) : World :=
  { w with pairs := fun x' y' => (x' = x ∧ y' = y) ∨ w.pairs x' y' }

def place (w : World) (a b : ScopeId) (depth : Depth) : World :=
  { w with places := fun a' b' depth' => (a' = a ∧ b' = b ∧ depth' = depth) ∨ w.places a' b' depth' }

theorem later_number (w : World) (x y : Nat) : w.Later (w.number x y) := ⟨.inr, id⟩

theorem later_place (w : World) (a b : ScopeId) (depth : Depth) : w.Later (w.place a b depth) :=
  ⟨id, .inr⟩

section later

variable {w w' : World} (after : w.Later w')
include after

theorem Around.later {depth : Depth} {p? p'? : Option ScopeId} (around : w.Around depth p? p'?) :
    w'.Around depth p? p'? := by
  cases around with
  | outermost => exact .outermost
  | within place => exact .within (after.places place)

theorem Scopes.later {depth : Depth} {scope scope' : Scope} (scopes : w.Scopes depth scope scope') :
    w'.Scopes depth scope scope' :=
  ⟨bound_later after scopes.bindings, scopes.captured, scopes.around.later after⟩

end later

namespace Layout

variable {w : World} {s t : Store} {a b : ScopeId} {depth : Depth} (layout : w.Layout s t)
include layout

theorem place_below (place : w.places a b depth) : a.index < s.next := by
  by_cases regular : depth = some 0
  · subst regular
    exact (layout.additional place).below
  · exact (layout.below (layout.regular place regular).1).1

theorem place_below' (place : w.places a b depth) (matched : depth ≠ some 0) : b.index < t.next :=
  (layout.below (layout.regular place matched).1).2

theorem same_iff {a' b' : ScopeId} (pair : w.pairs a.index b.index)
    (pair' : w.pairs a'.index b'.index) : a' = a ↔ b' = b := by
  constructor
  · rintro rfl
    exact ScopeId.index_inj.mp (layout.sharp.right pair' pair)
  · rintro rfl
    exact ScopeId.index_inj.mp (layout.sharp.left pair' pair)

theorem additional_ne {extra beyond : ScopeId} (place : w.places extra beyond (some 0))
    (pair : w.pairs a.index b.index) : extra ≠ a := by
  rintro rfl
  exact (layout.additional place).alone _ pair

section read

theorem local? (place : w.places a b depth) (matched : depth ≠ some 0) (name : String) :
    Option.Rel w.Values (s.local? a name) (t.local? b name) := by
  obtain ⟨_, rel⟩ := layout.regular place matched
  unfold Store.local?
  generalize s.scope? a = here at rel ⊢
  generalize t.scope? b = there at rel ⊢
  cases rel with
  | some scopes => exact lookup_related scopes.bindings name
  | none => exact .none

theorem local?_additional (place : w.places a b (some 0)) (name : String) :
    s.local? a name = none := by
  unfold Store.local?
  cases found : s.scope? a with
  | none => rfl
  | some scope =>
    show scope.bindings.lookup name = none
    rw [((layout.additional place).bare scope found).1]
    rfl

theorem isCaptured (place : w.places a b depth) (matched : depth ≠ some 0) :
    s.isCaptured a = t.isCaptured b := by
  obtain ⟨_, rel⟩ := layout.regular place matched
  unfold Store.isCaptured
  generalize s.scope? a = here at rel ⊢
  generalize t.scope? b = there at rel ⊢
  cases rel with
  | some scopes => exact scopes.captured
  | none => rfl

theorem outward? (place : w.places a b depth) (matched : depth ≠ some 0) :
    (s.outward? a = none ∧ t.outward? b = none) ∨ ∃ p p' older older' outer,
      s.outward? a = some ⟨p, older⟩ ∧ t.outward? b = some ⟨p', older'⟩ ∧ w.places p p' outer ∧
        depth = outer.inside 1 := by
  obtain ⟨_, rel⟩ := layout.regular place matched
  generalize found : s.scope? a = here at rel
  generalize found' : t.scope? b = there at rel
  cases rel with
  | none =>
    left
    unfold Store.outward?
    rw [found, found']
    exact ⟨rfl, rfl⟩
  | @some scope scope' scopes =>
    have around := scopes.around
    generalize outside : scope.enclosing? = p? at around
    generalize outside' : scope'.enclosing? = p'? at around
    cases around with
    | outermost => exact .inl ⟨Store.outward?_eq_none found outside, Store.outward?_eq_none found' outside'⟩
    | @within p p' outer inner =>
      have older := layout.nested.1 a scope p found outside
      have older' := layout.nested.2 b scope' p' found' outside'
      exact .inr ⟨p, p', older, older', outer, Store.outward?_of_scope? found outside older,
        Store.outward?_of_scope? found' outside' older', inner, rfl⟩

theorem outward?_additional (place : w.places a b (some 0)) (stands : s.Stands a) :
    ∃ p older, s.outward? a = some ⟨p, older⟩ ∧ w.places p b none ∧ s.Stands p := by
  obtain ⟨scope, found, chain⟩ := stands.exists
  obtain ⟨_, p, around, beyond⟩ := (layout.additional place).bare scope found
  have older := layout.nested.1 a scope p found around
  exact ⟨p, older, Store.outward?_of_scope? found around older, beyond, chain p around⟩

omit layout in
theorem stands_outward {p : ScopeId} {older : p.index < a.index} (stands : s.Stands a)
    (around : s.outward? a = some ⟨p, older⟩) : s.Stands p := by
  obtain ⟨scope, found, chain⟩ := stands.exists
  obtain ⟨scope', found', outside⟩ := Store.outward?_eq_some around
  cases found.symm.trans found'
  exact chain p outside

/-- With its distances shifted, the first run gets to the scope that the second one gets to. -/
theorem ancestor? (place : w.places a b depth) (stands : s.Stands a) (d : Nat) :
    Option.Rel w.Matched (s.ancestor? a (depth.shift d)) (t.ancestor? b d) := by
  induction d generalizing a b depth with
  | zero =>
    by_cases extra : depth = some 0
    · subst extra
      obtain ⟨p, older, around, beyond, _⟩ := layout.outward?_additional place stands
      rw [Depth.shift_zero, Store.ancestor?, Store.ancestor?, around]
      exact .some ⟨none, beyond, fun impossible => by cases impossible⟩
    · rw [Depth.shift_of_ne extra]
      exact .some ⟨depth, place, extra⟩
  | succ d ih =>
    -- An additional scope leads on to the one around it, which has none further out.
    have matched : ∀ {a b : ScopeId} {depth : Depth}, w.places a b depth → depth ≠ some 0 →
        s.Stands a →
        Option.Rel w.Matched (s.ancestor? a (depth.shift (d + 1))) (t.ancestor? b (d + 1)) := by
      intro a b depth place regular stands
      rcases layout.outward? place regular with ⟨none, none'⟩ |
        ⟨p, p', older, older', outer, around, around', inner, rfl⟩
      · obtain ⟨k, same⟩ := Depth.shift_succ depth d
        rw [same, Store.ancestor?, Store.ancestor?, none, none']
        exact .none
      · rw [Depth.shift_inside_succ, Store.ancestor?, Store.ancestor?, around, around']
        exact ih inner (stands_outward stands around)
    by_cases extra : depth = some 0
    · subst extra
      obtain ⟨p, older, around, beyond, outside⟩ := layout.outward?_additional place stands
      rw [Depth.shift_zero, Store.ancestor?, around]
      exact matched beyond (fun impossible => by cases impossible) outside
    · exact matched place extra stands

theorem owner? (place : w.places a b depth) (stands : s.Stands a) (name : String) :
    Option.Rel w.Matched (s.owner? a name) (t.owner? b name) := by
  induction size : a.index using Nat.strongRecOn generalizing a b depth with
  | _ size ih =>
    subst size
    by_cases extra : depth = some 0
    · subst extra
      obtain ⟨p, older, around, beyond, outside⟩ := layout.outward?_additional place stands
      rw [Store.owner?.eq_def s, layout.local?_additional place, around]
      exact ih p.index older beyond outside rfl
    · have here := layout.local? place extra name
      rw [Store.owner?.eq_def s, Store.owner?.eq_def t]
      generalize s.local? a name = bound at here
      generalize t.local? b name = bound' at here
      cases here with
      | some => exact .some ⟨depth, place, extra⟩
      | none =>
        rcases layout.outward? place extra with ⟨none, none'⟩ |
          ⟨p, p', older, older', outer, around, around', inner, rfl⟩
        · rw [none, none']
          exact .none
        · rw [around, around']
          exact ih p.index older inner (stands_outward stands around) rfl

theorem ownerAt? (place : w.places a b depth) (stands : s.Stands a) (d : Nat) (name : String) :
    Option.Rel w.Matched (s.ownerAt? a (depth.shift d) name) (t.ownerAt? b d name) := by
  have outer := layout.ancestor? place stands d
  unfold Store.ownerAt?
  generalize s.ancestor? a (depth.shift d) = here at outer
  generalize t.ancestor? b d = there at outer
  cases outer with
  | none => exact .none
  | @some a' b' matched =>
    obtain ⟨depth', place', regular⟩ := matched
    exact rel_map (layout.local? place' regular name) fun _ _ _ => ⟨depth', place', regular⟩

theorem owned {a? b? : Option ScopeId} (owners : Option.Rel w.Matched a? b?) (name : String) :
    Option.Rel w.Values (a?.bind (s.local? · name)) (b?.bind (t.local? · name)) := by
  cases owners with
  | none => exact .none
  | some matched =>
    obtain ⟨depth, place, regular⟩ := matched
    exact layout.local? place regular name

theorem read (place : w.places a b depth) (stands : s.Stands a) (name : String) (line : Nat) :
    Attempts w.Values (s.read a name line) (t.read b name line) := by
  rw [Store.read_eq_elim, Store.read_eq_elim]
  exact attempts_elim (layout.owned (layout.owner? place stands name) name) _ fun _ _ => id

theorem readAt (place : w.places a b depth) (stands : s.Stands a) (d : Nat) (name : String)
    (line : Nat) : Attempts w.Values (s.readAt a (depth.shift d) name line) (t.readAt b d name line) := by
  rw [Store.readAt_eq_elim, Store.readAt_eq_elim]
  exact attempts_elim (layout.owned (layout.ownerAt? place stands d name) name) _ fun _ _ => id

theorem readAt_self (place : w.places a b depth) (matched : depth ≠ some 0) (name : String)
    (line : Nat) : Attempts w.Values (s.readAt a 0 name line) (t.readAt b 0 name line) := by
  rw [Store.readAt_eq_elim, Store.readAt_eq_elim]
  refine attempts_elim (layout.owned ?_ name) _ fun _ _ => id
  exact rel_map (layout.local? place matched name) fun _ _ _ => ⟨depth, place, matched⟩

end read

end Layout

end World
end Lox
