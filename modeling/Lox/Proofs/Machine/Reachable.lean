import Lox.Proofs.Machine.Preservation

namespace Lox

theorem Outcome.Sat.done_of_eq {α : Type} {outcome : Outcome α} {done : α → Machine → Prop}
    {failed : Machine → Prop} (sat : outcome.Sat done failed) {value : α} {m : Machine}
    (ended : outcome = .done value m) : done value m := by
  rw [ended] at sat
  exact sat

theorem Outcome.Sat.failed_of_eq {α : Type} {outcome : Outcome α} {done : α → Machine → Prop}
    {failed : Machine → Prop} (sat : outcome.Sat done failed) {fault : Fault} {m : Machine}
    (ended : outcome = .failed fault m) : failed m := by
  rw [ended] at sat
  exact sat

namespace Discipline

variable {config : Config} {D : Discipline config} {n : Nat} {m m' : Machine}
  {held extra : List Root} {task : Task} {layers after : List D.Layer} {p q : Point}

theorem left_of_evaluate {e : Expr} {value : Value}
    (ready : D.Ready ⟨n + 1, held, task, m⟩ layers after) (left : D.Left m held nowhere extra m')
    (inner : Inner config ⟨n + 1, held, task, m⟩ ⟨n, extra ++ held, .expression e, m'⟩)
    {m'' : Machine} (ended : evaluate config n (extra ++ held) e m' = .done value m'') :
    D.Left m held nowhere (.value value :: extra) m'' := by
  have ih : D.Preserves n := D.preserves n
  exact (ih.evaluate ready left inner).done_of_eq ended

theorem ready_of_inner (ready : D.Ready p layers after) (inner : Inner config p q) :
    D.Ready q layers layers := by
  have steps := inner
  cases inner with
  | grouping | unary | binaryLeft | logicalLeft | assigned | callee | getObject | setObject | head
  | expression | print | condition | returned | loopCondition =>
    exact ready.next ready.start steps (List.Subset.refl _)
  | binaryRight first =>
    exact ready.next (left_of_evaluate ready ready.start .binaryLeft first) steps
      (List.Subset.refl _)
  | logicalRight first undecided =>
    exact ready.next (left_of_evaluate ready ready.start .logicalLeft first) steps
      (List.subset_cons_self _ _)
  | arguments first =>
    exact ready.next (left_of_evaluate ready ready.start .callee first) steps (List.Subset.refl _)
  | @call n held m m' m'' callee paren arguments value values first second =>
    have ih : D.Preserves n := D.preserves n
    have callee := left_of_evaluate ready ready.start .callee first
    have given := (ih.evaluateAll ready callee (.arguments first)).done_of_eq second
    refine ready.next given steps ?_
    intro root member
    simp only [Task.inputs, List.mem_append, List.mem_cons, List.not_mem_nil, or_false] at member ⊢
    rcases member with (same | argument) | same | old
    · exact .inl (.inr same)
    · exact .inl (.inl argument)
    · exact .inl (.inr same)
    · exact .inr old
  | setValue first =>
    exact ready.next (left_of_evaluate ready ready.start .setObject first) steps
      (List.Subset.refl _)
  | tail first =>
    exact ready.next (left_of_evaluate ready ready.start .head first) steps (List.Subset.refl _)
  | function arity room => exact function_ready ready arity room
  | initializer declared arity room => exact initializer_ready ready declared arity room

theorem ready_of_calls (ready : D.Ready p layers after) (calls : Calls config p q) :
    ∃ layers' after', D.Ready q layers' after' := by
  cases calls with
  | inner inner => exact ⟨_, _, ready_of_inner ready inner⟩
  | initial =>
    obtain ⟨inside, weakens, fits⟩ := D.initial ready.fits
    exact ⟨_, _, Ready.enter ready ready.start weakens fits (List.Subset.refl _)⟩
  | superclass =>
    obtain ⟨inside, weakens, fits⟩ := D.superclass ready.fits
    exact ⟨_, _, Ready.enter ready ready.start weakens fits (List.Subset.refl _)⟩
  | block =>
    obtain ⟨_, layer, inside, holds, limits, fits⟩ := D.block ready.fits ready.around.chain
    exact ⟨_, _, enterBlock_ready ready holds limits fits⟩
  | body => exact enterFunction_ready ready
  | thenBranch first truthy =>
    obtain ⟨inside, _, fits⟩ := D.thenBranch ready.fits first truthy
    exact ⟨_, _, Ready.enter ready (left_of_evaluate ready ready.start .condition first) (.refl _ _)
      fits (List.subset_cons_self _ _)⟩
  | elseBranch first falsy =>
    obtain ⟨inside, weakens, fits⟩ := D.elseBranch ready.fits first falsy
    exact ⟨_, _, Ready.enter ready (left_of_evaluate ready ready.start .condition first) weakens
      fits (List.subset_cons_self _ _)⟩
  | loop => exact ⟨_, _, Ready.enter ready ready.start (.refl _ _) (D.loop ready.fits) (List.Subset.refl _)⟩
  | loopBody first truthy =>
    obtain ⟨inside, _, fits⟩ := D.loopBody ready.fits first truthy
    exact ⟨_, _, Ready.enter ready (left_of_evaluate ready ready.start .loopCondition first)
      (.refl _ _) fits (List.subset_cons_self _ _)⟩
  | loopAgain first truthy second =>
    -- The body ran from a point that is itself ready, so the invariant holds after it.
    obtain ⟨inside, weakens, fits⟩ := D.loopBody ready.fits first truthy
    have left := left_of_evaluate ready ready.start .loopCondition first
    have body := Ready.enter ready left (.refl _ _) fits (List.subset_cons_self _ _)
    have finished : D.Finished _ _ inside .normal _ :=
      Outcome.Sat.done_of_eq (D.preserves _ body) second
    have around := (finished_last left finished weakens).around rfl
    exact ⟨_, _, (left.later.globals ▸ finished.later.globals).trans ready.globals, finished.safe,
      around, D.loopAgain ready.fits first truthy second⟩
  | first =>
    obtain ⟨middle, fits, _⟩ := D.first ready.fits
    exact ⟨_, _, Ready.enter ready ready.start (.refl _ _) fits (List.Subset.refl _)⟩
  | others first =>
    obtain ⟨middle, fits, fitsRest⟩ := D.first ready.fits
    have body := Ready.enter ready ready.start (.refl _ _) fits (List.Subset.refl _)
    have finished : D.Finished _ _ middle .normal _ :=
      Outcome.Sat.done_of_eq (D.preserves _ body) first
    exact ⟨_, _, finished.later.globals.trans ready.globals, finished.safe, finished.around rfl,
      fitsRest _ first⟩

theorem ready_of_reaches (ready : D.Ready p layers after) (reaches : Reaches config p q) :
    ∃ layers' after', D.Ready q layers' after' := by
  induction reaches with
  | refl => exact ⟨layers, after, ready⟩
  | step _ calls ih =>
    obtain ⟨layers', after', there⟩ := ih
    exact ready_of_calls there calls

end Discipline
end Lox
