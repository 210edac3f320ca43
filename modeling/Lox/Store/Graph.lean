import Std.Data.TreeMap

namespace Lox

/-- The numbers of the objects that an object refers to, each as often as it does. -/
structure Links where
  /-- References that last as long as the object does. -/
  lasting : List Nat
  /-- References through bindings or fields, which an emptied object loses. -/
  loose : List Nat
  deriving Inhabited

namespace Links

def all (links : Links) : List Nat := links.loose ++ links.lasting

def emptied (links : Links) : Links := { links with loose := [] }

end Links

structure Arrangement where
  arrange : List Nat → List Nat
  perm : ∀ keys, (arrange keys).Perm keys

def Arrangement.given : Arrangement := ⟨id, fun _ => .refl _⟩

abbrev Tally := Std.TreeMap Nat Nat

namespace Tally

def count (t : Tally) (key : Nat) : Nat := t.getD key 0

def add (t : Tally) (key : Nat) : Tally := t.insert key (t.count key + 1)

def remove (t : Tally) (key : Nat) : Tally := t.insert key (t.count key - 1)

def ofList (keys : List Nat) : Tally := keys.foldl add ∅

end Tally

abbrev Graph := Std.TreeMap Nat Links

namespace Graph

theorem size_erase_lt {g : Graph} {key : Nat} {links : Links} (h : g[key]? = some links) :
    (g.erase key).size < g.size := by
  have present : g.contains key := by
    rw [Std.TreeMap.contains_eq_isSome_getElem?, h]
    rfl
  have nonempty : g.isEmpty = false :=
    Std.TreeMap.isEmpty_eq_false_iff_exists_mem.mpr ⟨key, present⟩
  rw [Std.TreeMap.isEmpty_eq_size_eq_zero, beq_eq_false_iff_ne] at nonempty
  rw [Std.TreeMap.size_erase, if_pos present]
  omega

variable (order : Arrangement)

def references (g : Graph) : List Nat := g.toList.flatMap fun entry => entry.2.all

/-- Removes the objects in `pending` that nothing refers to, given how often each object is referred
    to; what they referred to is pending next. -/
def settleFrom (g : Graph) (counts : Tally) : List Nat → Graph
  | [] => g
  | key :: pending =>
    match _h : g[key]? with
    | none => settleFrom g counts pending
    | some links =>
      -- An object still referred to becomes pending again when its next reference goes.
      if counts.count key = 0 then
        settleFrom (g.erase key) (links.all.foldl .remove counts)
          (order.arrange links.all ++ pending)
      else settleFrom g counts pending
termination_by pending => (g.size, pending.length)
decreasing_by
  · exact Prod.Lex.right _ (Nat.lt_succ_self _)
  · exact Prod.Lex.left _ _ (size_erase_lt _h)
  · exact Prod.Lex.right _ (Nat.lt_succ_self _)

/-- What is left once everything is gone that nothing refers to. `external` are the references from
    outside the graph. -/
def settle (g : Graph) (external : List Nat) : Graph :=
  settleFrom order g (.ofList (g.references ++ external)) (order.arrange g.keys)

def explore (refs : Nat → Links → List Nat) (unseen seen : Graph) : List Nat → Graph
  | [] => seen
  | key :: pending =>
    match _h : unseen[key]? with
    | none => explore refs unseen seen pending
    | some links =>
      explore refs (unseen.erase key) (seen.insert key links) (refs key links ++ pending)
termination_by pending => (unseen.size, pending.length)
decreasing_by
  · exact Prod.Lex.right _ (Nat.lt_succ_self _)
  · exact Prod.Lex.left _ _ (size_erase_lt _h)

variable (borrowed : Nat → Bool)

def visible (key : Nat) (links : Links) : List Nat :=
  if borrowed key then [] else order.arrange links.all

def examined (g : Graph) (handles : List Nat) : Graph :=
  explore (visible order borrowed) g ∅ handles

/-- The examined objects that are held from outside: those that are borrowed, and those that are
    referred to more often than by the examined objects. -/
def heldKeys (g : Graph) (external : List Nat) (examined : Graph) : List Nat :=
  let strong := Tally.ofList (g.references ++ external)
  let internal := Tally.ofList (examined.toList.flatMap fun (key, links) =>
    visible order borrowed key links)
  examined.keys.filter fun key => borrowed key || decide (internal.count key < strong.count key)

/-- The examined objects that cannot be reached from one that is held from outside. -/
def garbage (g : Graph) (external handles : List Nat) : Graph :=
  let examined := g.examined order borrowed handles
  let live := explore (visible order borrowed) examined ∅
    (order.arrange (heldKeys order borrowed g external examined))
  examined.filter fun key _ => !live.contains key

def empty (g dead : Graph) : Graph :=
  g.map fun key links => if dead.contains key then links.emptied else links

end Graph
end Lox
