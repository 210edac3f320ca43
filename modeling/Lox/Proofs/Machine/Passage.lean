import Mathlib.Data.List.Pairwise
import Lox.Proofs.Machine.Changes
import Lox.Proofs.Machine.Restoration

namespace Lox

open Outcome Plan

/-- Something that holds of machines, whatever changes them. While the program is in a scope that has
    been entered, something else may hold. -/
structure Upkeep (config : Config) (Γ : Type) where
  /-- The points of which the changes are known to keep it. -/
  ok : Point → Prop
  holds : Γ → Machine → Prop
  calls : ∀ {p q : Point}, ok p → Calls config p q → ok q
  change : ∀ {p : Point} {γ : Γ} {m m' : Machine}, ok p → Change config p m m' → holds γ m →
    holds γ m'
  enter : ∀ {γ : Γ} {m : Machine} (parent : ScopeId) (bindings : Bindings), holds γ m →
    ∃ γ', holds γ' (m.enter parent bindings) ∧
      ∀ held m', (m.enter parent bindings).SamePlace m' → holds γ' m' →
        holds γ (m'.leave config held m.scope)
  rested : ∀ {γ : Γ} {m : Machine}, holds γ m → holds γ m.atRest
  paused : ∀ {γ : Γ} {m : Machine} (held : List Root), holds γ m → holds γ (m.pause config held)

theorem Point.samePlace {config : Config} {p : Point} {m' : Machine}
    (leaves : (p.outcome config).Leaves m') : p.machine.SamePlace m' := by
  obtain ⟨n, held, task, m⟩ := p
  have here := restoring config n
  cases task with
  | expression e => exact Sat.of_leaves (here.evaluate held e m) leaves
  | expressions es => exact Sat.of_leaves (here.evaluateAll held es m) leaves
  | call callee line arguments => exact Sat.of_leaves (here.call held callee line arguments m) leaves
  | apply function line arguments =>
    exact Sat.of_leaves (here.apply held function line arguments m) leaves
  | statement s => exact Sat.of_leaves (here.execute held s m) leaves
  | statements ss => exact Sat.of_leaves (here.executeAll held ss m) leaves
  | loop condition body => exact Sat.of_leaves (here.repeatWhile held condition body m) leaves

namespace Upkeep

variable {config : Config} {Γ : Type} (U : Upkeep config Γ) {p : Point} {γ : Γ} {m m' : Machine}

theorem changes (ok : U.ok p) (holds : U.holds γ m) (changes : Changes config p m m') :
    U.holds γ m' := by
  induction changes with
  | refl => exact holds
  | tail _ last ih => exact U.change ok last ih

/-- What is kept by all that a plan calls is kept by the plan. -/
theorem run {α : Type} {plan : Plan α} (ok : U.ok p) (holds : U.holds γ m)
    (moves : plan.Moves config p m) (parts : ∀ q ∈ plan.asked config, ∀ γ m',
      U.holds γ q.machine → (q.outcome config).Leaves m' → U.holds γ m')
    (leaves : (plan.run config).Leaves m') : U.holds γ m' := by
  induction plan generalizing m with
  | ends outcome => exact U.changes ok holds (moves m' leaves)
  | calls q resume unwinding ih =>
    have first := fun γ m' => parts q (mem_asked_calls.mpr (.inl rfl)) γ m'
    have others : ∀ value m₁, q.outcome config = .done value m₁ →
        ∀ r ∈ (resume value m₁).asked config, ∀ γ m', U.holds γ r.machine →
          (r.outcome config).Leaves m' → U.holds γ m' := fun value m₁ ended r asked =>
      parts r (mem_asked_calls.mpr (.inr ⟨value, m₁, ended, asked⟩))
    rw [Plan.run] at leaves
    cases unwinding with
    | back held previous =>
      obtain ⟨rfl, ⟨parent, bindings, entered⟩, rest⟩ := moves
      -- The scope that is entered is left again, however the point ends.
      obtain ⟨γ', inside, back⟩ := U.enter parent bindings holds
      rw [← entered] at inside back
      cases ended : q.outcome config with
      | done value m₁ =>
        rw [ended] at leaves
        have left : (q.outcome config).Leaves m₁ := .inl ⟨value, ended⟩
        obtain ⟨held', later⟩ := rest value m₁ ended
        exact ih value m₁ (back held' m₁ (Point.samePlace left) (first γ' m₁ inside left)) later
          (others value m₁ ended) leaves
      | failed fault m₁ =>
        rw [ended] at leaves
        have left : (q.outcome config).Leaves m₁ := .inr ⟨fault, ended⟩
        rw [leaves_failed.mp leaves]
        exact back held m₁ (Point.samePlace left) (first γ' m₁ inside left)
      | unfinished =>
        rw [ended] at leaves
        exact absurd leaves not_leaves_unfinished
    | nothing | counted =>
      obtain ⟨before, after, rest⟩ := moves
      have inside := U.changes ok holds before
      cases ended : q.outcome config with
      | done value m₁ =>
        rw [ended] at leaves
        exact ih value m₁ (first γ m₁ inside (.inl ⟨value, ended⟩)) (rest value m₁ ended)
          (others value m₁ ended) leaves
      | failed fault m₁ =>
        rw [ended] at leaves
        rw [leaves_failed.mp leaves]
        exact U.changes ok (first γ m₁ inside (.inr ⟨fault, ended⟩)) (after m₁)
      | unfinished =>
        rw [ended] at leaves
        exact absurd leaves not_leaves_unfinished

theorem ends (ok : U.ok p) (holds : U.holds γ p.machine) (leaves : (p.outcome config).Leaves m') :
    U.holds γ m' := by
  induction steps : p.steps generalizing p γ m' with
  | zero =>
    rw [← Point.run_plan] at leaves
    refine U.run ok holds (p.moves config) (fun q asked => ?_) leaves
    exact absurd (Point.calls_of_mem_parts asked).steps_eq (by omega)
  | succ n ih =>
    rw [← Point.run_plan] at leaves
    refine U.run ok holds (p.moves config) (fun q asked γ m' inside left => ?_) leaves
    have calls := Point.calls_of_mem_parts asked
    have fewer := calls.steps_eq
    exact ih (U.calls ok calls) inside left (by omega)

end Upkeep

/-- A relation between the machine at one moment and at a later one. -/
structure Passage (config : Config) where
  /-- The points of which the changes are known to be such passages. -/
  ok : Point → Prop
  rel : Machine → Machine → Prop
  calls : ∀ {p q : Point}, ok p → Calls config p q → ok q
  refl : ∀ m, rel m m
  trans : ∀ {m m' m'' : Machine}, rel m m' → rel m' m'' → rel m m''
  change : ∀ {p : Point} {m m' : Machine}, ok p → Change config p m m' → rel m m'
  opened : ∀ (m : Machine) (parent : ScopeId) (bindings : Bindings),
    rel m { m with store := (m.store.newScope (some parent) bindings).2 }
  placed : ∀ (m : Machine) (scope : ScopeId) (depth : Nat),
    rel m { m with scope := scope, depth := depth }
  freed : ∀ (m : Machine) (scope : ScopeId), rel m { m with store := m.store.free scope }
  tracked : ∀ (m : Machine) (node : Node), rel m { m with ledger := m.ledger.track node }
  settled : ∀ (m : Machine) (held : List Root),
    rel m { m with store := m.store.settle (m.roots held) }
  paused : ∀ (m : Machine) (held : List Root), rel m (m.pause config held)

namespace Passage

variable {config : Config} (P : Passage config) {p q : Point} {m m' : Machine}

theorem enter (m : Machine) (parent : ScopeId) (bindings : Bindings) :
    P.rel m (m.enter parent bindings) :=
  P.trans (P.opened m parent bindings) (P.placed _ _ m.depth)

theorem letGo (m : Machine) (held : List Root) (scope : ScopeId) :
    P.rel m (m.letGo config held scope) := by
  unfold Machine.letGo
  split
  · exact P.tracked _ _
  · exact P.settled _ _

theorem leave (m : Machine) (held : List Root) (previous : ScopeId) :
    P.rel m (m.leave config held previous) := by
  refine P.trans (P.placed m previous m.depth) ?_
  unfold Machine.leave Machine.release
  simp only
  split
  · exact P.trans (P.letGo _ held _) (P.paused _ held)
  · exact P.trans (P.freed _ _) (P.paused _ held)

def upkeep : Upkeep config Machine where
  ok := P.ok
  holds := P.rel
  calls := P.calls
  change ok change before := P.trans before (P.change ok change)
  enter parent bindings before := ⟨_, P.trans before (P.enter _ parent bindings),
    fun held m' _ inside => P.trans inside (P.leave m' held _)⟩
  rested before := P.trans before (P.placed _ _ 0)
  paused held before := P.trans before (P.paused _ held)

theorem ends (ok : P.ok p) (leaves : (p.outcome config).Leaves m') : P.rel p.machine m' :=
  P.upkeep.ends ok (P.refl p.machine) leaves

theorem changes (ok : P.ok p) (changes : Changes config p m m') : P.rel m m' :=
  P.upkeep.changes ok (P.refl m) changes

structure Ordered {α : Type} (plan : Plan α) (m : Machine) : Prop where
  whole : ∀ m', (plan.run config).Leaves m' → P.rel m m'
  starts : ∀ q ∈ plan.asked config, P.rel m q.machine
  ends : ∀ m', (plan.run config).Leaves m' →
    ∀ q ∈ plan.asked config, ∃ m₁, (q.outcome config).Leaves m₁ ∧ P.rel m₁ m'
  siblings : (plan.asked config).Pairwise fun q r =>
    ∃ m₁, (q.outcome config).Leaves m₁ ∧ P.rel m₁ r.machine

variable {P}

/-- Entering a scope and leaving it are passages like the other changes. -/
theorem of_moves {α : Type} {resume : q.task.Result → Machine → Plan α} {unwinding : Unwinding}
    (ok : P.ok p) (moves : (Plan.calls q resume unwinding).Moves config p m) :
    P.rel m q.machine ∧ (∀ m₁, P.rel m₁ (unwinding.run config m₁)) ∧
      ∀ value m₁, q.outcome config = .done value m₁ →
        ∃ m₂, P.rel m₁ m₂ ∧ (resume value m₁).Moves config p m₂ := by
  cases unwinding with
  | back held previous =>
    obtain ⟨_, ⟨parent, bindings, entered⟩, rest⟩ := moves
    refine ⟨entered ▸ P.enter m parent bindings, fun m₁ => P.leave m₁ held previous, ?_⟩
    intro value m₁ ended
    obtain ⟨held', later⟩ := rest value m₁ ended
    exact ⟨_, P.leave m₁ held' m.scope, later⟩
  | nothing | counted =>
    obtain ⟨before, after, rest⟩ := moves
    exact ⟨P.changes ok before, fun m₁ => P.changes ok (after m₁),
      fun value m₁ ended => ⟨m₁, P.refl m₁, rest value m₁ ended⟩⟩

theorem ordered_stopped {α : Type} {plan : Plan α} (before : P.rel m q.machine)
    (points : plan.asked config = [q]) (okay : P.ok q)
    (last : ∀ m', (plan.run config).Leaves m' → ∃ m₁, (q.outcome config).Leaves m₁ ∧ P.rel m₁ m') :
    P.Ordered plan m where
  whole m' leaves := by
    obtain ⟨m₁, left, after⟩ := last m' leaves
    exact P.trans before (P.trans (P.ends okay left) after)
  starts r asked := by
    rw [points] at asked
    exact List.mem_singleton.mp asked ▸ before
  ends m' leaves r asked := by
    rw [points] at asked
    exact List.mem_singleton.mp asked ▸ last m' leaves
  siblings := points ▸ List.pairwise_singleton _ _

theorem ordered {α : Type} {plan : Plan α} (ok : P.ok p) (moves : plan.Moves config p m)
    (parts : ∀ q ∈ plan.asked config, P.ok q) : P.Ordered plan m := by
  induction plan generalizing m with
  | ends outcome =>
    exact ⟨fun m' leaves => P.changes ok (moves m' leaves), nofun, fun _ _ => nofun, .nil⟩
  | calls q resume unwinding ih =>
    obtain ⟨before, after, rest⟩ := of_moves ok moves
    have okay : P.ok q := parts q (mem_asked_calls.mpr (.inl rfl))
    -- What comes after the first call takes place only if that call yields a value.
    cases ended : q.outcome config with
    | done value m₁ =>
      have left : (q.outcome config).Leaves m₁ := .inl ⟨value, ended⟩
      obtain ⟨m₂, between, later⟩ := rest value m₁ ended
      have start := P.trans before (P.trans (P.ends okay left) between)
      have others := ih value m₁ later fun r asked =>
        parts r (mem_asked_calls.mpr (.inr ⟨value, m₁, ended, asked⟩))
      have same : (Plan.calls q resume unwinding).run config = (resume value m₁).run config := by
        rw [Plan.run, ended]
      have points : (Plan.calls q resume unwinding).asked config =
          q :: (resume value m₁).asked config := by
        rw [Plan.asked, ended]
      refine ⟨fun m' leaves => ?_, ?_, fun m' leaves => ?_, ?_⟩
      · exact P.trans start (others.whole m' (same ▸ leaves))
      · rw [points]
        exact List.forall_mem_cons.mpr
          ⟨before, fun r asked => P.trans start (others.starts r asked)⟩
      · rw [points]
        refine List.forall_mem_cons.mpr ⟨⟨m₁, left, ?_⟩, others.ends m' (same ▸ leaves)⟩
        exact P.trans between (others.whole m' (same ▸ leaves))
      · rw [points]
        exact .cons (fun r asked => ⟨m₁, left, P.trans between (others.starts r asked)⟩)
          others.siblings
    | failed fault m₁ =>
      refine ordered_stopped before (by rw [Plan.asked, ended]) okay fun m' leaves => ?_
      rw [Plan.run, ended] at leaves
      exact ⟨m₁, .inr ⟨fault, ended⟩, leaves_failed.mp leaves ▸ after m₁⟩
    | unfinished =>
      refine ordered_stopped before (by rw [Plan.asked, ended]) okay fun m' leaves => ?_
      rw [Plan.run, ended] at leaves
      exact absurd leaves not_leaves_unfinished

theorem ordered_point (ok : P.ok p) : P.Ordered (p.plan config) p.machine :=
  ordered ok (p.moves config) fun _ asked => P.calls ok (Point.calls_of_mem_parts asked)

theorem of_calls (ok : P.ok p) (calls : Calls config p q) : P.rel p.machine q.machine :=
  (ordered_point ok).starts q (Point.mem_parts.mpr calls)

theorem ok_of_reaches (ok : P.ok p) (reaches : Reaches config p q) : P.ok q := by
  induction reaches with
  | refl => exact ok
  | step _ calls ih => exact P.calls ih calls

theorem of_reaches (ok : P.ok p) (reaches : Reaches config p q) : P.rel p.machine q.machine := by
  induction reaches with
  | refl => exact P.refl _
  | step before calls ih => exact P.trans ih (of_calls (ok_of_reaches ok before) calls)

theorem end_of_reaches (ok : P.ok p) (reaches : Reaches config p q)
    (leaves : (p.outcome config).Leaves m') :
    ∃ m₁, (q.outcome config).Leaves m₁ ∧ P.rel m₁ m' := by
  induction reaches with
  | refl => exact ⟨m', leaves, P.refl m'⟩
  | step before calls ih =>
    obtain ⟨m₁, left, after⟩ := ih
    rw [← Point.run_plan] at left
    obtain ⟨m₂, left', after'⟩ := (ordered_point (ok_of_reaches ok before)).ends m₁ left _
      (Point.mem_parts.mpr calls)
    exact ⟨m₂, left', P.trans after' after⟩

end Passage

/-- A moment of the computation that a point starts: a point that it reaches starts or ends. -/
inductive Moment (config : Config) (p : Point) : Machine → Prop where
  | start {q : Point} (reaches : Reaches config p q) : Moment config p q.machine
  | ended {q : Point} {m : Machine} (reaches : Reaches config p q)
      (leaves : (q.outcome config).Leaves m) : Moment config p m

namespace Moment

variable {config : Config} {P : Passage config} {p q : Point} {m m' : Machine}

theorem leaves_unique {α : Type} {outcome : Outcome α} (first : outcome.Leaves m)
    (second : outcome.Leaves m') : m = m' := by
  rcases first with ⟨_, rfl⟩ | ⟨_, rfl⟩
  · exact (leaves_done.mp second).symm
  · exact (leaves_failed.mp second).symm

theorem after_start (ok : P.ok p) (moment : Moment config p m) : P.rel p.machine m := by
  cases moment with
  | start reaches => exact Passage.of_reaches ok reaches
  | ended reaches leaves =>
    exact P.trans (Passage.of_reaches ok reaches) (P.ends (Passage.ok_of_reaches ok reaches) leaves)

theorem before_end (ok : P.ok p) (moment : Moment config p m)
    (leaves : (p.outcome config).Leaves m') : P.rel m m' := by
  cases moment with
  | start reaches =>
    obtain ⟨m₁, left, after⟩ := Passage.end_of_reaches ok reaches leaves
    exact P.trans (P.ends (Passage.ok_of_reaches ok reaches) left) after
  | ended reaches here =>
    obtain ⟨m₁, left, after⟩ := Passage.end_of_reaches ok reaches leaves
    exact leaves_unique left here ▸ after

theorem cases_calls (moment : Moment config p m) : m = p.machine ∨ (p.outcome config).Leaves m ∨
    ∃ q, Calls config p q ∧ Moment config q m := by
  cases moment with
  | start reaches =>
    rcases reaches.cases_head with rfl | ⟨r, calls, later⟩
    · exact .inl rfl
    · exact .inr (.inr ⟨r, calls, .start later⟩)
  | ended reaches leaves =>
    rcases reaches.cases_head with rfl | ⟨r, calls, later⟩
    · exact .inr (.inl leaves)
    · exact .inr (.inr ⟨r, calls, .ended later leaves⟩)

theorem before_sibling (ok : P.ok p) (first : Moment config p m) (second : Moment config q m')
    (later : P.ok q) (ended : ∃ m₁, (p.outcome config).Leaves m₁ ∧ P.rel m₁ q.machine) :
    P.rel m m' := by
  obtain ⟨m₁, leaves, between⟩ := ended
  exact P.trans (before_end ok first leaves) (P.trans between (after_start later second))

theorem comparable (ok : P.ok p) (first : Moment config p m) (second : Moment config p m') :
    P.rel m m' ∨ P.rel m' m := by
  induction steps : p.steps using Nat.strongRecOn generalizing p with
  | ind n ih =>
    rcases first.cases_calls with rfl | leaves | ⟨q, calls, inside⟩
    · exact .inl (after_start ok second)
    · exact .inr (before_end ok second leaves)
    rcases second.cases_calls with rfl | leaves | ⟨r, calls', inside'⟩
    · exact .inr (after_start ok first)
    · exact .inl (before_end ok first leaves)
    have okay := P.calls ok calls
    have okay' := P.calls ok calls'
    -- Both moments lie inside points that `p` calls: the same one, or two that come one after the
    -- other.
    by_cases same : q = r
    · subst same
      exact ih q.steps (by have := calls.steps_eq; omega) okay inside inside' rfl
    · let either (q r : Point) : Prop :=
        (∃ m₁, (q.outcome config).Leaves m₁ ∧ P.rel m₁ r.machine) ∨
          ∃ m₁, (r.outcome config).Leaves m₁ ∧ P.rel m₁ q.machine
      have symmetric : Std.Symm either := ⟨fun _ _ => Or.symm⟩
      have siblings : (p.parts config).Pairwise either :=
        (Passage.ordered_point ok).siblings.imp .inl
      rcases siblings.forall (Point.mem_parts.mpr calls) (Point.mem_parts.mpr calls') same with
        ended | ended
      · exact .inl (before_sibling okay inside inside' okay' ended)
      · exact .inr (before_sibling okay' inside' inside okay ended)

end Moment
end Lox
