import Mathlib
import Lox.Store.Collect

namespace Lox.Reclaim

inductive Action where
  | change (s : Store)
  | track (node : Node)
  /-- Gives the collector a turn while it holds on to `roots`. -/
  | yield (roots : List Root)

structure Collection where
  tracked : Nat
  survivors : Nat
  /-- All handles that had been put down until then. -/
  registered : Nat

/-- A heap with all that has happened to it: how many handles have been put down, and the collections,
    the latest first. -/
structure History where
  store : Store
  ledger : Ledger
  registered : Nat
  collections : List Collection

namespace History

def fresh : History := ⟨.empty, .empty, 0, []⟩

def act (h : History) : Action → History
  | .change s => { h with store := s }
  | .track node => { h with ledger := h.ledger.track node, registered := h.registered + 1 }
  | .yield roots =>
    let (store, ledger) := collectIfDue h.store h.ledger roots
    { h with
      store := store
      ledger := ledger
      collections :=
        if h.ledger.isDue then ⟨h.ledger.tracked, ledger.tracked, h.registered⟩ :: h.collections
        else h.collections }

def after (actions : List Action) : History := actions.foldl act fresh

def survivors (h : History) : Nat := (h.collections.head?.map Collection.survivors).getD 0

def settled (h : History) : Nat := (h.collections.head?.map Collection.registered).getD 0

def cost (h : History) : Nat := (h.collections.map Collection.tracked).sum

/-- Before the later collection began, as many handles had been put down after the earlier one as that
    one had left, and as many as it takes to make any collection due. -/
def Spaced (later earlier : Collection) : Prop :=
  earlier.registered + max earlier.survivors (1024 - earlier.survivors) ≤ later.registered

/-- The handles are those that the last collection has left and those put down since; twice the number
    of the former makes the next collection due; and those put down before it have paid for all
    collections so far. -/
structure Balanced (h : History) : Prop where
  earlier : h.settled ≤ h.registered
  tracked : h.settled + h.ledger.tracked = h.survivors + h.registered
  threshold : h.ledger.threshold = max Ledger.leastThreshold (2 * h.survivors)
  paid : h.cost ≤ 2 * h.settled
  spaced : h.collections.IsChain Spaced

variable {h : History}

theorem Balanced.fresh : fresh.Balanced := ⟨Nat.le_refl 0, rfl, rfl, Nat.le_refl 0, .nil⟩

theorem Balanced.track (balanced : h.Balanced) (node : Node) : (h.act (.track node)).Balanced := by
  refine ⟨Nat.le_succ_of_le balanced.earlier, ?_, balanced.threshold, balanced.paid, balanced.spaced⟩
  have more : (h.ledger.track node).tracked = h.ledger.tracked + 1 := Array.size_push node
  have same := balanced.tracked
  show h.settled + (h.ledger.track node).tracked = h.survivors + (h.registered + 1)
  omega

theorem act_yield (waits : h.ledger.isDue = false) (roots : List Root) :
    h.act (.yield roots) = h := by
  simp [act, collectIfDue, waits]

theorem act_due (due : h.ledger.isDue = true) (roots : List Root) : ∃ s,
    h.act (.yield roots) = ⟨s, h.ledger.settle s, h.registered,
      ⟨h.ledger.tracked, (h.ledger.settle s).tracked, h.registered⟩ :: h.collections⟩ := by
  refine ⟨(collect h.store h.ledger roots).1, ?_⟩
  simp [act, collectIfDue, due, collect, collectWith]

/-- A collection is due when those put down since the last one are at least as many as that one has
    left, and enough to make any due. -/
theorem Balanced.enough (balanced : h.Balanced) (due : h.ledger.isDue = true) :
    h.settled + max h.survivors (1024 - h.survivors) ≤ h.registered := by
  have many : h.ledger.threshold ≤ h.ledger.tracked := of_decide_eq_true due
  have least : Ledger.leastThreshold = 1024 := rfl
  have threshold := balanced.threshold
  have tracked := balanced.tracked
  omega

theorem Balanced.collect (balanced : h.Balanced) (due : h.ledger.isDue = true) (roots : List Root) :
    (h.act (.yield roots)).Balanced := by
  obtain ⟨s, same⟩ := act_due due roots
  have enough := balanced.enough due
  rw [same]
  refine ⟨Nat.le_refl _, Nat.add_comm _ _, rfl, ?_, ?_⟩
  · have paid := balanced.paid
    have tracked := balanced.tracked
    show h.ledger.tracked + h.cost ≤ 2 * h.registered
    omega
  · cases before : h.collections with
    | nil => exact .singleton _
    | cons earlier older =>
      have spaced := balanced.spaced
      simp only [settled, survivors, before, List.head?_cons, Option.map_some,
        Option.getD_some] at enough
      rw [before] at spaced
      exact .cons_cons enough spaced

theorem Balanced.act (balanced : h.Balanced) (action : Action) : (h.act action).Balanced := by
  cases action with
  | change s => exact { balanced with }
  | track node => exact balanced.track node
  | yield roots =>
    cases due : h.ledger.isDue with
    | false =>
      rw [act_yield due]
      exact balanced
    | true => exact balanced.collect due roots

theorem Balanced.acts (balanced : h.Balanced) (actions : List Action) :
    (actions.foldl History.act h).Balanced := by
  induction actions generalizing h with
  | nil => exact balanced
  | cons action rest ih => exact ih (balanced.act action)

/-- However a heap is used, all its collections together look at no more than twice as many handles as
    have been put down, and between two of them at least as many are put down as the first one has left,
    and as many as it takes to make any collection due. -/
theorem collections_amortized (actions : List Action) :
    (after actions).cost ≤ 2 * (after actions).registered ∧
      (after actions).collections.IsChain fun later earlier =>
        earlier.registered + max earlier.survivors (1024 - earlier.survivors) ≤ later.registered := by
  have balanced : (after actions).Balanced := Balanced.fresh.acts actions
  have paid := balanced.paid
  have earlier := balanced.earlier
  exact ⟨by omega, balanced.spaced⟩

end History

end Lox.Reclaim
