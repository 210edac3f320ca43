import Lox.Proofs.Loops.Direct
import Lox.Proofs.Machine.Lasting
import Lox.Proofs.Machine.Restoration

namespace Lox

open Outcome Eval

/-- Steps play no part in what is known of a point. -/
theorem Steady.with_steps {config : Config} {n : Nat} {held : List Root} {task : Task} {m : Machine}
    (steady : Steady config ⟨n, held, task, m⟩) (k : Nat) : Steady config ⟨k, held, task, m⟩ := by
  obtain ⟨layers, after, ready⟩ := steady
  exact ⟨layers, after, ready.globals, ready.safe, ready.around, ready.fits⟩

/-- The run that may be cut off, the first one if `first` says so, has fewer steps by `extra`. -/
def Shorter (first : Bool) (extra n k : Nat) : Prop :=
  match first with
  | true => n + extra ≤ k
  | false => k + extra ≤ n

theorem Shorter.weaken {first : Bool} {extra fewer n k : Nat} (shorter : Shorter first extra n k)
    (less : fewer ≤ extra) : Shorter first fewer n k := by
  cases first with
  | true => exact Nat.le_trans (Nat.add_le_add_left less n) shorter
  | false => exact Nat.le_trans (Nat.add_le_add_left less k) shorter

section single

variable {config : Config} (n : Nat) (held : List Root) {m : Machine}

theorem execute_block (body : List Stmt) : execute config (n + 1) held (.block body) m =
    match executeAll config n (.scope m.scope :: held) body m.enterBlock with
    | .done flow n => .done flow (n.leave config (flow.roots ++ held) m.scope)
    | .failed fault n => .failed fault (n.leave config held m.scope)
    | .unfinished => .unfinished := by
  rw [execute]
  rfl

theorem executeAll_single (s : Stmt) :
    executeAll config (n + 2) held [s] m = execute config (n + 1) held s m := by
  rw [executeAll]
  show andThen _ _ m = _
  unfold andThen
  cases execute config (n + 1) held s m with
  | done flow m =>
    cases flow with
    | normal =>
      show executeAll config (n + 1) held [] m = _
      rw [executeAll]
      rfl
    | returned value => rfl
  | failed fault m => rfl
  | unfinished => rfl

theorem executeAll_pair (s t : Stmt) : executeAll config (n + 3) held [s, t] m =
    andThen (execute config (n + 2) held s) (fun flow =>
      match flow with
      | .normal => execute config (n + 1) held t
      | .returned value => result (.returned value)) m := by
  rw [executeAll]
  show andThen _ _ m = andThen _ _ m
  unfold andThen
  cases execute config (n + 2) held s m with
  | done flow m =>
    cases flow with
    | normal => exact executeAll_single n held t
    | returned value => rfl
  | failed fault m => rfl
  | unfinished => rfl

end single

namespace World

/-- Two computations end in the same way, or the one that may be cut off is: the first one if `first`
    says so. -/
inductive Meets {α α' : Type} (w : World) (depth : Depth) (related : World → α → α' → Prop) :
    Bool → Outcome α → Outcome α' → Prop where
  | both {first : Bool} {o : Outcome α} {o' : Outcome α'} (outcomes : w.Outcomes depth related o o') :
      Meets w depth related first o o'
  | first {o' : Outcome α'} : Meets w depth related true .unfinished o'
  | second {o : Outcome α} : Meets w depth related false o .unfinished

variable {w w' : World} {depth : Depth} {config : Config} {n k : Nat} {held held' : List Root}
  {m m' : Machine} {first : Bool}

theorem Outcomes.unfinished_iff {α α' : Type} {related : World → α → α' → Prop} {o : Outcome α}
    {o' : Outcome α'} (outcomes : w.Outcomes depth related o o') : o = .unfinished ↔ o' = .unfinished := by
  cases outcomes <;> simp

namespace Meets

variable {α α' β β' : Type} {related : World → α → α' → Prop} {related' : World → β → β' → Prop}

theorem done {v : α} {v' : α'} (value : related w v v') (machines : w.Machines depth m m') :
    w.Meets depth related first (.done v m) (.done v' m') := .both (.done (.refl w) value machines)

theorem later {o : Outcome α} {o' : Outcome α'} (meets : w'.Meets depth related first o o')
    (after : w.Later w') : w.Meets depth related first o o' := by
  cases meets with
  | both outcomes => exact .both (outcomes.later after)
  | first => exact .first
  | second => exact .second

theorem andThen {x : Eval α} {y : Eval α'} {next : α → Eval β} {next' : α' → Eval β'}
    (meets : w.Meets depth related first (x m) (y m'))
    (rest : ∀ {w' v v' n n'}, w.Later w' → x m = .done v n → related w' v v' →
      w'.Machines depth n n' → w'.Meets depth related' first (next v n) (next' v' n')) :
    w.Meets depth related' first (Eval.andThen x next m) (Eval.andThen y next' m') := by
  unfold Eval.andThen
  generalize here : x m = o at meets
  generalize y m' = o' at meets
  cases meets with
  | both outcomes =>
    cases outcomes with
    | done after value machines => exact (rest after here value machines).later after
    | failed after machines => exact .both (.failed after machines)
    | unfinished => exact .both .unfinished
  | first => exact .first
  | second => exact .second

theorem of_first {o : Outcome α} {o' : Outcome α'} (meets : w.Meets depth related true o o')
    (ended : o ≠ .unfinished) : w.Outcomes depth related o o' := by
  cases meets with
  | both outcomes => exact outcomes
  | first => exact absurd rfl ended

theorem of_second {o : Outcome α} {o' : Outcome α'} (meets : w.Meets depth related false o o')
    (ended : o' ≠ .unfinished) : w.Outcomes depth related o o' := by
  cases meets with
  | both outcomes => exact outcomes
  | second => exact absurd rfl ended

/-- The first run may be looked at with more steps, or has them anyway. -/
theorem lengthen (task : Task) {related : World → task.Result → α' → Prop} {o' : Outcome α'}
    (extra more : Nat) (shorter : Shorter first (extra + more) n k)
    (meets : ∀ n', (∀ j ≤ extra, Shorter first 0 (n' + j) k) → Shorter first more n' k →
      w.Meets depth related first (Point.outcome config ⟨n' + extra, held, task, m⟩) o') :
    w.Meets depth related first (Point.outcome config ⟨n, held, task, m⟩) o' := by
  cases first with
  | true =>
    change n + (extra + more) ≤ k at shorter
    by_cases cut : Point.outcome config ⟨n, held, task, m⟩ = .unfinished
    · rw [cut]
      exact .first
    · rw [← Point.outcome_of_le cut (Nat.le_add_right n extra)]
      refine meets n (fun j few => ?_) ?_
      · show n + j + 0 ≤ k
        omega
      · show n + more ≤ k
        omega
  | false =>
    change k + (extra + more) ≤ n at shorter
    obtain ⟨n', rfl⟩ : ∃ n', n = n' + extra := ⟨n - extra, by omega⟩
    refine meets n' (fun j few => ?_) ?_
    · show k + 0 ≤ n' + j
      omega
    · show k + more ≤ n'
      omega

theorem point (idle : config.Idle) {task task' : Task} (steady : Steady config ⟨n, held, task, m⟩)
    (tasks : w.Tasks depth task task') (machines : w.Machines depth m m')
    (shorter : Shorter first 0 n k) :
    w.Meets depth (Yields task task') first (Point.outcome config ⟨n, held, task, m⟩)
      (Point.outcome config ⟨k, held', task', m'⟩) := by
  have points (k : Nat) : w.Points depth ⟨k, held, task, m⟩ ⟨k, held', task', m'⟩ :=
    ⟨rfl, tasks, machines⟩
  cases first with
  | true =>
    have here := (points n).outcomes idle steady
    by_cases cut : Point.outcome config ⟨n, held, task, m⟩ = .unfinished
    · rw [cut]
      exact .first
    · rw [Point.outcome_of_le (mt here.unfinished_iff.mpr cut) shorter]
      exact .both here
  | false =>
    have here := (points k).outcomes idle (steady.with_steps k)
    by_cases cut : Point.outcome config ⟨k, held', task', m'⟩ = .unfinished
    · rw [cut]
      exact .second
    · rw [Point.outcome_of_le (mt here.unfinished_iff.mp cut) shorter]
      exact .both here

end Meets

/-- A block that only the first run enters. The second run stays in its scope. -/
theorem Meets.inAdditional (idle : config.Idle) {body : List Stmt} {o' : Outcome Flow}
    (machines : w.Machines none m m') (stays : o'.Restores m')
    (inside : ∀ {w'}, w.Later w' → w'.Machines (some 0) m.enterBlock m' →
      w'.Meets (some 0) World.Flows first
        (executeAll config n (.scope m.scope :: held) body m.enterBlock) o') :
    w.Meets none World.Flows first (execute config (n + 1) held (.block body) m) o' := by
  obtain ⟨w', after, entered⟩ := machines.enterAdditional
  have meets := inside after entered
  rw [execute_block]
  generalize executeAll config n (.scope m.scope :: held) body m.enterBlock = o at meets
  refine Meets.later ?_ after
  cases meets with
  | both outcomes =>
    cases outcomes with
    | done later value there =>
      have back := (after.trans later).places machines.scope
      rw [← stays.scope] at back
      exact .both (.done later value (there.leaveAdditional idle back))
    | failed later there =>
      have back := (after.trans later).places machines.scope
      rw [← stays.scope] at back
      exact .both (.failed later (there.leaveAdditional idle back))
    | unfinished => exact .both .unfinished
  | first => exact .first
  | second => exact .second

theorem Meets.inBlock (idle : config.Idle) {body : List Stmt} {direct : List Root → Eval Flow}
    (machines : w.Machines none m m') (sound : m.Sound held)
    (inside : ∀ {w'}, w.Later w' → w'.Machines none m.enterBlock m'.enterBlock →
      w'.Meets none World.Flows first
        (executeAll config n (.scope m.scope :: held) body m.enterBlock)
        (direct (.scope m'.scope :: held') m'.enterBlock)) :
    w.Meets none World.Flows first (execute config (n + 1) held (.block body) m)
      (Eval.andThen (innerScope []) (fun scope => activation config held' scope direct) m') := by
  obtain ⟨w', after, entered⟩ := machines.enterBlock sound
  have meets := inside after entered
  have whole' : Eval.andThen (innerScope []) (fun scope => activation config held' scope direct) m' =
      match direct (.scope m'.scope :: held') m'.enterBlock with
      | .done flow n => .done flow (n.leave config (flow.roots ++ held') m'.scope)
      | .failed fault n => .failed fault (n.leave config held' m'.scope)
      | .unfinished => .unfinished := rfl
  rw [execute_block, whole']
  generalize executeAll config n (.scope m.scope :: held) body m.enterBlock = o at meets
  generalize direct (.scope m'.scope :: held') m'.enterBlock = o' at meets
  have matched : (none : Depth) ≠ some 0 := fun impossible => by cases impossible
  refine Meets.later ?_ after
  cases meets with
  | both outcomes =>
    cases outcomes with
    | done later value there =>
      exact .both (.done later value
        (there.leave idle _ _ matched ((after.trans later).places machines.scope)))
    | failed later there =>
      exact .both (.failed later
        (there.leave idle _ _ matched ((after.trans later).places machines.scope)))
    | unfinished => exact .both .unfinished
  | first => exact .first
  | second => exact .second

end World

namespace ForLoop

variable {w : World} {config : Config} {n k : Nat} {held held' : List Root} {m m' : Machine}
  {first : Bool} {l : ForLoop} {body : Stmt}

theorem restores_advance (l : ForLoop) (held : List Root) (k : Nat) :
    (l.advance config held k).Restores := by
  unfold advance
  split
  · exact .pure _
  · exact .bind ((restoring config k).evaluate held _) fun _ => .pure _

theorem restores_round (l : ForLoop) (held : List Root) (k : Nat) :
    (l.round config held k).Restores := by
  refine .bind ((restoring config k).execute held l.body) fun flow => ?_
  cases flow with
  | normal => exact restores_advance l held k
  | returned value => exact .pure _

theorem Repeats.meets (idle : config.Idle) (repeats : l.Repeats body)
    (machines : w.Machines none m m') (steady : Steady config ⟨n, held, .statement body, m⟩)
    (shorter : Shorter first 4 n k) :
    w.Meets none World.Flows first (execute config n held body m) (l.round config held' k m') := by
  cases repeats with
  | body none =>
    have alone : l.round config held' k m' = execute config k held' l.body m' := by
      unfold round advance
      rw [none]
      show andThen _ _ m' = _
      unfold andThen
      cases execute config k held' l.body m' with
      | done flow m' => cases flow <;> rfl
      | failed fault m' => rfl
      | unfinished => rfl
    rw [alone]
    refine .point idle steady (.statement l.body.deepened_none) machines ?_
    exact shorter.weaken (by decide)
  | @both increment increment' body given repeated counted =>
    refine World.Meets.lengthen (.statement (.block [body, .expression increment'])) 4 0 shorter
      fun n' room _ => ?_
    have inside := (steady.with_steps (n' + 4)).next .block
    refine .inAdditional idle machines (restores_round l held' k m') fun _ entered => ?_
    rw [executeAll_pair]
    refine .andThen (.point idle (inside.next .first) (.statement repeated) entered
      (room 2 (by decide))) fun {w₂ flow flow' n₁ n₁'} _ ended flows machines => ?_
    change w₂.Flows flow flow' at flows
    cases flows with
    | returned values => exact .done (.returned values) machines
    | normal =>
      have last := ((inside.next (.others ended)).next .first).next (.inner .expression)
      unfold advance
      rw [given]
      dsimp only
      rw [execute]
      exact .andThen (.point idle last (.expression counted) machines (room 0 (by decide)))
        fun _ _ _ machines => .done .normal machines

theorem test_meets (idle : config.Idle) (machines : w.Machines none m m')
    (steady : Steady config
      ⟨n, held, .expression (l.condition?.getD (.literal (.bool true))), m⟩)
    (shorter : Shorter first 4 n k) :
    w.Meets none (fun _ v more => v.isTruthy = more) first
      (evaluate config n held (l.condition?.getD (.literal (.bool true))) m)
      (l.test config held' k m') := by
  unfold test
  generalize l.condition? = condition? at steady ⊢
  cases condition? with
  | none =>
    refine World.Meets.lengthen (.expression (.literal (.bool true))) 1 3 shorter fun n' _ _ => ?_
    exact .done rfl machines
  | some condition =>
    have same : evaluate config n held condition m =
        andThen (evaluate config n held condition) result m := (andThen_result _ m).symm
    dsimp only [Option.getD_some] at steady ⊢
    rw [same]
    refine .andThen (.point idle steady (.expression condition.deepened_none) machines ?_)
      fun {w₁ v v' _ _} _ _ value machines => ?_
    · exact shorter.weaken (by decide)
    · change w₁.Values v v' at value
      exact .done value.isTruthy machines

theorem rounds_meet (idle : config.Idle) (repeats : l.Repeats body) (machines : w.Machines none m m')
    (steady : Steady config ⟨n, held, .loop (l.condition?.getD (.literal (.bool true))) body, m⟩)
    (shorter : Shorter first 4 n k) :
    w.Meets none World.Flows first
      (repeatWhile config n held (l.condition?.getD (.literal (.bool true))) body m)
      (l.rounds config held' k m') := by
  induction n generalizing w m m' k with
  | zero =>
    cases first with
    | true => exact .first
    | false => exact absurd shorter (Nat.not_succ_le_zero _)
  | succ n ih =>
    cases k with
    | zero =>
      cases first with
      | true => exact absurd shorter (Nat.not_succ_le_zero _)
      | false => exact .second
    | succ k =>
      have shorter : Shorter first 4 n k := by
        cases first
        · change k + 1 + 4 ≤ n + 1 at shorter
          show k + 4 ≤ n
          omega
        · change n + 1 + 4 ≤ k + 1 at shorter
          show n + 4 ≤ k
          omega
      rw [repeatWhile, rounds]
      refine .andThen (test_meets idle machines (steady.next (.inner .loopCondition)) shorter)
        fun {w₁ v more n₁ n₁'} _ tested truth machines => ?_
      subst truth
      cases truthy : v.isTruthy with
      | false => exact .done .normal machines
      | true =>
        refine .andThen (repeats.meets idle machines (steady.next (.loopBody tested truthy)) shorter)
          fun {w₂ flow flow' n₂ n₂'} _ ran flows machines => ?_
        change w₂.Flows flow flow' at flows
        cases flows with
        | returned values => exact .done (.returned values) machines
        | normal => exact ih machines (steady.next (.loopAgain tested truthy ran)) shorter

/-- The tree of the statement against the statement, carried out as it is written. -/
theorem Shape.meets (idle : config.Idle) {s : Stmt} (shape : l.Shape s) (machines : w.Machines none m m')
    (steady : Steady config ⟨n, held, .statement s, m⟩) (shorter : Shorter first 8 n k) :
    w.Meets none World.Flows first (execute config n held s m) (l.run config held' k m') := by
  unfold run
  cases shape with
  | @loop body absent repeats =>
    rw [absent]
    refine World.Meets.lengthen (.statement (.loop (l.condition?.getD (.literal (.bool true))) body))
      1 7 shorter fun n' _ shorter => ?_
    have inside := (steady.with_steps (n' + 1)).next .loop
    show w.Meets none World.Flows first (execute config (n' + 1) held (.loop _ body) m) _
    rw [execute]
    exact rounds_meet idle repeats machines inside (shorter.weaken (by decide))
  | @block initializer body given repeats =>
    rw [given]
    refine World.Meets.lengthen (.statement (.block
      [initializer, .loop (l.condition?.getD (.literal (.bool true))) body])) 4 4 shorter
      fun n' room shorter => ?_
    have inside := (steady.with_steps (n' + 4)).next .block
    obtain ⟨layers, after, ready⟩ := steady
    refine .inBlock idle machines ready.safe fun _ entered => ?_
    rw [executeAll_pair]
    refine .andThen (.point idle (inside.next .first) (.statement initializer.deepened_none) entered
      (room 2 (by decide))) fun {w₂ flow flow' n₁ n₁'} _ ended flows machines => ?_
    change w₂.Flows flow flow' at flows
    cases flows with
    | returned values => exact .done (.returned values) machines
    | normal =>
      dsimp only
      rw [execute]
      exact rounds_meet idle repeats machines
        (((inside.next (.others ended)).next .first).next .loop) shorter

end ForLoop
end Lox
