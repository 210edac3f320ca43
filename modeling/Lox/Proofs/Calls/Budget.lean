import Mathlib
import Lox.Proofs.Calls.Overflow
import Lox.Proofs.Session.Moments

namespace Lox

namespace Passage

def printing (config : Config) : Passage config where
  ok _ := True
  rel m m' := ∃ more, m'.output = m.output ++ more
  calls _ _ := trivial
  refl m := ⟨.empty, ByteArray.append_empty.symm⟩
  trans := by
    rintro m m' m'' ⟨more, first⟩ ⟨more', second⟩
    exact ⟨more ++ more', by rw [second, first, ByteArray.append_assoc]⟩
  change := by
    rintro p m m' - change
    cases change with
    | wrote output => exact ⟨output, rfl⟩
    | _ => exact ⟨.empty, ByteArray.append_empty.symm⟩
  opened _ _ _ := ⟨.empty, ByteArray.append_empty.symm⟩
  placed _ _ _ := ⟨.empty, ByteArray.append_empty.symm⟩
  freed _ _ := ⟨.empty, ByteArray.append_empty.symm⟩
  tracked _ _ := ⟨.empty, ByteArray.append_empty.symm⟩
  settled _ _ := ⟨.empty, ByteArray.append_empty.symm⟩
  paused m held := ⟨.empty, by rw [m.output_pause config held, ByteArray.append_empty]⟩

end Passage

def Task.isCall : Task → Bool
  | call _ _ _ => true
  | expression _ | expressions _ | apply _ _ _ | statement _ | statements _ | loop _ _ => false

/-- A point is reached while so many calls are active that are entered on the way there. A call of a
    class and that of its initializer are one. -/
inductive Nests (config : Config) (start : Point) : Nat → Point → Prop where
  | refl : Nests config start 0 start
  | step {active : Nat} {p q : Point} (before : Nests config start active p)
      (calls : Calls config p q) (other : p.task.isCall = false) : Nests config start active q
  | called {active : Nat} {p q : Point} (before : Nests config start active p)
      (calls : Calls config p q) (call : p.task.isCall = true) : Nests config start (active + 1) q

section depth

variable {config : Config} {p q : Point} {n : Nat} {held : List Root} {m m' : Machine}

theorem depth_of_evaluate {e : Expr} {value : Value}
    (ended : evaluate config n held e m = .done value m') : m'.depth = m.depth :=
  ((restoring config n).evaluate held e m |>.done_of_eq ended).depth

theorem depth_of_execute {s : Stmt} {flow : Flow}
    (ended : execute config n held s m = .done flow m') : m'.depth = m.depth :=
  ((restoring config n).execute held s m |>.done_of_eq ended).depth

/-- A call counts what is carried out for it as one more active call; it was admitted. -/
theorem Calls.depth_called (calls : Calls config p q) (call : p.task.isCall = true) :
    q.machine.depth = p.machine.depth + 1 ∧ p.machine.depth < config.maxDepth := by
  cases calls with
  | inner inner =>
    cases inner with
    | function arity room => exact ⟨rfl, room⟩
    | initializer declared arity room => exact ⟨rfl, room⟩
    | _ => cases call
  | _ => cases call

theorem Calls.depth_other (calls : Calls config p q) (other : p.task.isCall = false) :
    q.machine.depth = p.machine.depth := by
  cases calls with
  | inner inner =>
    cases inner with
    | binaryRight first | logicalRight first | arguments first | setValue first | tail first =>
      exact depth_of_evaluate first
    | @call n held m m' m'' callee paren arguments value values first second =>
      exact (((restoring config n).evaluateAll _ _ _).done_of_eq second).depth.trans
        (depth_of_evaluate first)
    | function | initializer => cases other
    | _ => rfl
  | thenBranch first | elseBranch first | loopBody first => exact depth_of_evaluate first
  | loopAgain first _ second => exact (depth_of_execute second).trans (depth_of_evaluate first)
  | others first => exact depth_of_execute first
  | _ => rfl

theorem Nests.depth_eq {active : Nat} (nests : Nests config p active q) :
    q.machine.depth = p.machine.depth + active := by
  induction nests with
  | refl => rfl
  | step _ calls other ih => exact (calls.depth_other other).trans ih
  | called _ calls call ih => rw [(calls.depth_called call).1, ih, Nat.add_assoc]

theorem Nests.depth_le {active : Nat} (nests : Nests config p active q)
    (start : p.machine.depth ≤ config.maxDepth) : q.machine.depth ≤ config.maxDepth := by
  induction nests with
  | refl => exact start
  | step _ calls other ih => exact Nat.le_trans (Nat.le_of_eq (calls.depth_other other)) ih
  | called _ calls call _ =>
    obtain ⟨deeper, room⟩ := calls.depth_called call
    omega

theorem Reaches.nests (reaches : Reaches config p q) : ∃ active, Nests config p active q := by
  induction reaches with
  | refl => exact ⟨0, .refl⟩
  | @step p q _ calls ih =>
    obtain ⟨active, before⟩ := ih
    cases call : p.task.isCall with
    | true => exact ⟨active + 1, .called before calls call⟩
    | false => exact ⟨active, .step before calls call⟩

end depth

def Config.limited (config : Config) (maxDepth : Nat) : Config := { config with maxDepth := maxDepth }

/-- With the smaller budget a computation either ends as with the larger one, or it is cut short: the
    larger one comes to a call that the smaller one forbids. -/
def Cut {α : Type} (config : Config) (less : Nat) (reached : Point → Prop)
    (outcome outcome' : Outcome α) : Prop :=
  outcome = outcome' ∨ ∃ line m q, outcome = .failed (.stackOverflow line) m ∧ reached q ∧
    q.Overflows (config.limited less) line ∧ m.output = q.machine.output

namespace Cut

variable {config : Config} {less more : Nat} {α : Type}

theorem mono {reached reached' : Point → Prop} {outcome outcome' : Outcome α}
    (cut : Cut config less reached outcome outcome') (further : ∀ q, reached q → reached' q) :
    Cut config less reached' outcome outcome' := by
  rcases cut with same | ⟨line, m, q, failed, passed, rest⟩
  · exact .inl same
  · exact .inr ⟨line, m, q, failed, further q passed, rest⟩

theorem run_limited (unwinding : Unwinding) (m : Machine) :
    unwinding.run (config.limited less) m = unwinding.run (config.limited more) m := by
  cases unwinding <;> rfl

/-- A plan is cut short where one of the points that it calls is. -/
theorem run {plan : Plan α}
    (parts : ∀ q ∈ plan.asked (config.limited more), Cut config less
      (Reaches (config.limited more) q) (q.outcome (config.limited less))
      (q.outcome (config.limited more))) :
    Cut config less
      (fun r => ∃ q ∈ plan.asked (config.limited more), Reaches (config.limited more) q r)
      (plan.run (config.limited less)) (plan.run (config.limited more)) := by
  induction plan with
  | ends outcome => exact .inl rfl
  | calls q resume unwinding ih =>
    have here : q ∈ (Plan.calls q resume unwinding).asked (config.limited more) :=
      Plan.mem_asked_calls.mpr (.inl rfl)
    -- The plans run alike up to the first point that is cut short, and there the one with the
    -- smaller budget ends.
    rcases parts q here with same | ⟨line, m, r, failed, reaches, overflows, output⟩
    · rw [Plan.run, Plan.run, same]
      cases ended : q.outcome (config.limited more) with
      | done value m =>
        have inside : ∀ r ∈ (resume value m).asked (config.limited more),
            r ∈ (Plan.calls q resume unwinding).asked (config.limited more) := fun r asked =>
          Plan.mem_asked_calls.mpr (.inr ⟨value, m, ended, asked⟩)
        refine (ih value m fun r asked => parts r (inside r asked)).mono ?_
        rintro _ ⟨r, asked, reaches⟩
        exact ⟨r, inside r asked, reaches⟩
      | failed fault m => exact .inl (congrArg (Outcome.failed fault) (run_limited unwinding m))
      | unfinished => exact .inl rfl
    · refine .inr ⟨line, _, r, ?_, ⟨q, here, reaches⟩, overflows,
        (unwinding.output_run (config.limited less) m).trans output⟩
      rw [Plan.run, failed]

theorem plan_limited {p : Point} (other : p.task.isCall = false) :
    p.plan (config.limited less) = p.plan (config.limited more) := by
  obtain ⟨steps, held, task, m⟩ := p
  cases steps with
  | zero => cases task <;> rfl
  | succ n =>
    cases task with
    | call => cases other
    | statement s =>
      cases s with
      | varDecl name initializer? => cases initializer? <;> rfl
      | classDecl name superclass? methods => cases superclass? <;> rfl
      | returns keyword value? => cases value? <;> rfl
      | _ => rfl
    | _ => rfl

theorem planActivity_limited {n : Nat} {held : List Root} {m : Machine} {line : Nat}
    {arguments : List Value} (callee : Value) :
    Eval.planActivity (config.limited less) n held m line arguments callee =
      Eval.planActivity (config.limited more) n held m line arguments callee := by
  cases callee with
  | native function =>
    cases function
    rfl
  | _ => rfl

theorem plan_admitted (le : less ≤ more) {p : Point}
    (admitted : ∀ line, ¬p.Overflows (config.limited less) line) :
    p.plan (config.limited less) = p.plan (config.limited more) := by
  cases call : p.task.isCall with
  | false => exact plan_limited call
  | true =>
    obtain ⟨steps, held, task, m⟩ := p
    cases task with
    | call callee line arguments =>
      cases steps with
      | zero => rfl
      | succ n =>
        show Eval.planCallee _ _ _ _ _ _ _ = Eval.planCallee _ _ _ _ _ _ _
        unfold Eval.planCallee Eval.planCall
        cases arity : callee.arity? with
        | none => rfl
        | some count =>
          simp only
          split
          · rename_i same
            have room : m.depth < less := by
              refine Nat.lt_of_not_le fun full => admitted line ?_
              exact ⟨Nat.succ_pos n, full, callee, arguments, rfl, arity.trans (congrArg some same.symm)⟩
            rw [if_pos (show m.depth < (config.limited less).maxDepth from room),
              if_pos (show m.depth < (config.limited more).maxDepth from Nat.lt_of_lt_of_le room le),
              planActivity_limited]
          · rfl
    | _ => cases call

/-- A point is cut short where a call is reached that the smaller budget forbids. -/
theorem point (config : Config) (le : less ≤ more) (p : Point) : Cut config less
    (Reaches (config.limited more) p) (p.outcome (config.limited less))
    (p.outcome (config.limited more)) := by
  induction steps : p.steps using Nat.strongRecOn generalizing p with
  | ind n ih =>
    by_cases overflows : ∃ line, p.Overflows (config.limited less) line
    · obtain ⟨line, overflows⟩ := overflows
      exact .inr ⟨line, p.machine, p, Point.outcome_of_overflows overflows, .refl, overflows, rfl⟩
    · rw [← Point.run_plan, ← Point.run_plan,
        plan_admitted le fun line here => overflows ⟨line, here⟩]
      refine (run fun q asked => ?_).mono fun r ⟨q, asked, reaches⟩ =>
        reaches.head (Point.calls_of_mem_parts asked)
      have fewer := (Point.calls_of_mem_parts asked).steps_eq
      exact ih q.steps (by omega) q rfl

theorem bind {β : Type} {reached : Point → Prop} {x x' : Eval α} {next next' : α → Eval β}
    {m : Machine} (first : Cut config less reached (x m) (x' m))
    (rest : ∀ value m', x' m = .done value m' →
      Cut config less reached (next value m') (next' value m')) :
    Cut config less reached ((x >>= next) m) ((x' >>= next') m) := by
  show Cut config less reached (Eval.andThen x next m) (Eval.andThen x' next' m)
  unfold Eval.andThen
  rcases first with same | ⟨line, m₁, q, failed, passed⟩
  · rw [same]
    cases ended : x' m with
    | done value m' => exact rest value m' ended
    | failed fault m' => exact .inl rfl
    | unfinished => exact .inl rfl
  · rw [failed]
    exact .inr ⟨line, m₁, q, rfl, passed⟩

theorem program (config : Config) (le : less ≤ more) (steps : Nat) (held : List Root)
    (ss : List Stmt) (m : Machine) :
    Cut config less
      (fun q => ∃ p, Launches (config.limited more) steps (fun _ => []) held ss m p ∧
        Reaches (config.limited more) p q)
      (executeProgram (config.limited less) steps held ss m)
      (executeProgram (config.limited more) steps held ss m) := by
  induction ss generalizing m with
  | nil => exact .inl rfl
  | cons s rest ih =>
    have first := (point config le ⟨steps, held, .statement s, m⟩).mono fun q reaches =>
      (⟨_, .first, reaches⟩ : ∃ p, Launches (config.limited more) steps (fun _ => []) held
        (s :: rest) m p ∧ Reaches (config.limited more) p q)
    exact bind first fun flow m' ended => (ih m').mono
      fun q ⟨p, launches, reaches⟩ => ⟨p, .others ended launches, reaches⟩

theorem turn (config : Config) (le : less ≤ more) (steps : Nat) (held : List Root)
    (ss : List Stmt) (m : Machine) :
    Cut config less (Turn.Passes (config.limited more) ⟨steps, held, .program ss, m⟩)
      (Turn.outcome (config.limited less) ⟨steps, held, .program ss, m⟩)
      (Turn.outcome (config.limited more) ⟨steps, held, .program ss, m⟩) := by
  have ran := (program config le steps held ss m.atRest).mono
    fun q ⟨p, launches, reaches⟩ =>
      (⟨p, .program launches, reaches⟩ : Turn.Passes (config.limited more)
        ⟨steps, held, .program ss, m⟩ q)
  exact bind (bind (.inl rfl) fun _ m₁ rested => by
    cases rested
    exact bind ran fun _ _ _ => .inl rfl) fun _ _ _ => .inl rfl

end Cut

namespace Session

variable {config : Config} {steps : Nat} {source : List UInt8}

def shown (config : Config) (steps : Nat) (source : List UInt8) : List Seen :=
  play config steps [] [⟨[], .run source⟩] .start

/-- Whatever the budget of active calls, what is seen of the source does not depend on the clock. -/
def IgnoresClock (config : Config) (steps : Nat) (source : List UInt8) : Prop :=
  ∀ maxDepth clock clock',
    shown { config with maxDepth := maxDepth, clock := clock } steps source =
      shown { config with maxDepth := maxDepth, clock := clock' } steps source

def seenOf : Outcome Result → List Seen
  | .done result m => [.done result m.output]
  | .failed fault m => [.failed (.runtime fault) m.output]
  | .unfinished => [.unfinished]

theorem shown_eq (config : Config) : shown config steps source =
    match compile source with
    | .ok program => seenOf (Turn.outcome config ⟨steps, [], .program program, .start⟩)
    | .error errors => [.failed (.static errors) ByteArray.empty] := by
  unfold shown play
  simp only
  rw [answer_eq, Request.work]
  cases compile source with
  | error errors => rfl
  | ok program =>
    have performed : (Work.program program).perform config steps [] .start =
      Turn.outcome config ⟨steps, [], .program program, .start⟩ := rfl
    simp only [Except.map, onCompiled, List.filterMap_nil]
    rw [performed]
    cases Turn.outcome config ⟨steps, [], .program program, .start⟩ <;> rfl

def Continues (output output' : ByteArray) : Prop := ∃ more, output' = output ++ more

theorem continues_of_passes {turn : Turn} {p : Point} (passes : turn.Passes config p) :
    (∀ result output, seenOf (turn.outcome config) = [.done result output] →
      Continues p.machine.output output) ∧
    ∀ error output, seenOf (turn.outcome config) = [.failed error output] →
      Continues p.machine.output output := by
  obtain ⟨start, starts, reaches⟩ := passes
  have before {m : Machine} (leaves : (turn.outcome config).Leaves m) :
      Continues p.machine.output m.output :=
    Turn.Moment.before_end (P := .printing config) (fun _ _ => trivial)
      ⟨start, starts, .start reaches⟩ leaves
  cases ended : turn.outcome config with
  | done result m =>
    refine ⟨fun _ _ same => ?_, nofun⟩
    cases same
    exact before (.inl ⟨result, ended⟩)
  | failed fault m =>
    refine ⟨nofun, fun _ _ same => ?_⟩
    cases same
    exact before (.inr ⟨fault, ended⟩)
  | unfinished => exact ⟨nofun, nofun⟩

def Shortened (config : Config) (steps : Nat) (source : List UInt8) (seen : List Seen) : Prop :=
  seen = shown config steps source ∨
    ∃ line output, seen = [.failed (.runtime (.stackOverflow line)) output] ∧
      (∃ program p, compile source = .ok program ∧
        Turn.Passes config ⟨steps, [], .program program, .start⟩ p ∧ p.machine.output = output) ∧
      (∀ result output', shown config steps source = [.done result output'] →
        Continues output output') ∧
      ∀ error output', shown config steps source = [.failed error output'] →
        Continues output output'

theorem shortened_limited (config : Config) {less more : Nat} (le : less ≤ more) :
    Shortened (config.limited more) steps source (shown (config.limited less) steps source) := by
  unfold Shortened
  rw [shown_eq, shown_eq]
  cases compile source with
  | error errors => exact .inl rfl
  | ok program =>
    rcases Cut.turn config le steps [] program .start with same | ⟨line, m, p, failed, passes, _, output⟩
    · exact .inl (congrArg seenOf same)
    · simp only
      rw [failed]
      obtain ⟨finished, broken⟩ := continues_of_passes passes
      rw [← output] at finished broken
      exact .inr ⟨line, m.output, rfl, ⟨program, p, rfl, passes, output.symm⟩, finished, broken⟩

end Session

section overflow

variable {config : Config} {steps : Nat} {held : List Root} {ss : List Stmt} {m : Machine}
  {fault : Fault} {turn : Turn} {line : Nat}

theorem Eval.failed_bind {α β : Type} {x : Eval α} {next : α → Eval β} :
    (∃ m', (x >>= next) m = .failed fault m') ↔ (∃ m', x m = .failed fault m') ∨
      ∃ value m₁, x m = .done value m₁ ∧ ∃ m', next value m₁ = .failed fault m' := by
  show (∃ m', Eval.andThen x next m = .failed fault m') ↔ _
  unfold Eval.andThen
  cases x m with
  | done value m₁ =>
    refine ⟨fun failed => .inr ⟨value, m₁, rfl, failed⟩, ?_⟩
    rintro (⟨_, impossible⟩ | ⟨_, _, same, failed⟩)
    · cases impossible
    · cases same
      exact failed
  | failed fault' m₁ => simp
  | unfinished => simp

theorem Eval.failed_pure {α β : Type} {x : Eval α} {f : α → β} :
    (∃ m', (x >>= fun value => pure (f value)) m = .failed fault m') ↔
      ∃ m', x m = .failed fault m' := by
  rw [Eval.failed_bind]
  refine or_iff_left ?_
  rintro ⟨value, m₁, _, m', impossible⟩
  cases impossible

/-- Statements in a row end in a fault just where one of them does. -/
theorem Launches.failed_iff {keep : Flow → List Root} {s : Stmt} {rest : List Stmt} :
    (∃ p, Launches config steps keep held (s :: rest) m p ∧
        ∃ m', p.outcome config = .failed fault m') ↔
      (∃ m', execute config steps held s m = .failed fault m') ∨
        ∃ flow m₁, execute config steps held s m = .done flow m₁ ∧
          ∃ p, Launches config steps keep (keep flow ++ held) rest m₁ p ∧
            ∃ m', p.outcome config = .failed fault m' := by
  constructor
  · rintro ⟨p, launches, failed⟩
    cases launches with
    | first => exact .inl failed
    | others ended later => exact .inr ⟨_, _, ended, p, later, failed⟩
  · rintro (failed | ⟨flow, m₁, ended, p, later, failed⟩)
    · exact ⟨_, .first, failed⟩
    · exact ⟨p, .others ended later, failed⟩

theorem executeProgram_failed :
    (∃ m', executeProgram config steps held ss m = .failed fault m') ↔
      ∃ p, Launches config steps (fun _ => []) held ss m p ∧
        ∃ m', p.outcome config = .failed fault m' := by
  induction ss generalizing m with
  | nil =>
    constructor
    · rintro ⟨_, impossible⟩
      cases impossible
    · rintro ⟨_, none, _⟩
      cases none
  | cons s rest ih =>
    rw [Launches.failed_iff, executeProgram, Eval.failed_bind]
    simp only [ih, List.nil_append]

theorem executeEach_failed :
    (∃ m', Session.executeEach config steps held ss m = .failed fault m') ↔
      ∃ p, Launches config steps Flow.roots held ss m p ∧
        ∃ m', p.outcome config = .failed fault m' := by
  induction ss generalizing m held with
  | nil =>
    constructor
    · rintro ⟨_, impossible⟩
      cases impossible
    · rintro ⟨_, none, _⟩
      cases none
  | cons s rest ih =>
    rw [Launches.failed_iff, Session.executeEach, Eval.failed_bind]
    simp only [Eval.failed_pure, ih]

theorem Turn.failed_iff : (∃ m, turn.outcome config = .failed fault m) ↔
    ∃ p, turn.Starts config p ∧ ∃ m, p.outcome config = .failed fault m := by
  obtain ⟨steps, held, work, m⟩ := turn
  cases work with
  | program program =>
    refine Eval.failed_pure.trans ?_
    have ran : (∃ m', interpret config steps held program m = .failed fault m') ↔
        ∃ m', executeProgram config steps held program m.atRest = .failed fault m' := by
      unfold interpret
      constructor
      · intro failed
        rcases Eval.failed_bind.mp failed with ⟨_, impossible⟩ | ⟨_, m₁, rested, later⟩
        · cases impossible
        · cases rested
          rcases Eval.failed_bind.mp later with failed | ⟨_, _, _, _, impossible⟩
          · exact failed
          · cases impossible
      · intro failed
        exact Eval.failed_bind.mpr (.inr ⟨_, _, rfl, Eval.failed_bind.mpr (.inl failed)⟩)
    rw [ran, executeProgram_failed]
    constructor
    · exact fun ⟨p, launches, failed⟩ => ⟨p, .program launches, failed⟩
    · rintro ⟨p, starts, failed⟩
      cases starts with
      | program launches => exact ⟨p, launches, failed⟩
  | expression e =>
    refine Eval.failed_pure.trans ⟨fun failed => ⟨_, .expression, failed⟩, ?_⟩
    rintro ⟨p, starts, failed⟩
    cases starts with
    | expression => exact failed
  | statements ss =>
    refine Eval.failed_pure.trans (executeEach_failed.trans ?_)
    constructor
    · exact fun ⟨p, launches, failed⟩ => ⟨p, .statements launches, failed⟩
    · rintro ⟨p, starts, failed⟩
      cases starts with
      | statements launches => exact ⟨p, launches, failed⟩

/-- Calls nest too deeply in a turn just where a call is attempted that may not be active. -/
theorem Turn.overflow_iff : (∃ m, turn.outcome config = .failed (.stackOverflow line) m) ↔
    ∃ p, turn.Passes config p ∧ p.Overflows config line := by
  rw [Turn.failed_iff]
  constructor
  · rintro ⟨start, starts, failed⟩
    obtain ⟨p, reaches, overflows⟩ := Point.overflow_iff.mp failed
    exact ⟨p, ⟨start, starts, reaches⟩, overflows⟩
  · rintro ⟨p, ⟨start, starts, reaches⟩, overflows⟩
    exact ⟨start, starts, Point.overflow_iff.mpr ⟨p, reaches, overflows⟩⟩

end overflow

namespace Session

variable {config : Config}

/-- With a smaller budget of active calls, a source that does not depend on the clock is seen to end
    in the same way, with the same output, or in a stack overflow, with the beginning of that output.
    In a session, no more calls are active at any point than there may be; the machine counts those
    that have been entered on the way to the point, where a class and its initializer count as one.
    And a turn ends in a stack overflow just where a call that takes its arguments is attempted while
    as many calls are active as may be. -/
theorem budget_truncates (config : Config) :
    (∀ steps source less more clock clock', less ≤ more →
      (clock = clock' ∨ IgnoresClock config steps source) →
      Shortened { config with maxDepth := more, clock := clock' } steps source
        (shown { config with maxDepth := less, clock := clock } steps source)) ∧
    ∀ (turns : List Turn) (turn : Turn) (held : List Root), Past config turns turn.machine held →
      (∀ p, turn.Passes config p → ∃ start active, turn.Starts config start ∧
        Nests config start active p ∧ p.machine.depth = active ∧ active ≤ config.maxDepth) ∧
      ∀ line, (∃ m, turn.outcome config = .failed (.stackOverflow line) m) ↔
        ∃ (p : Point) (callee : Value) (arguments : List Value), turn.Passes config p ∧
          0 < p.steps ∧ p.task = .call callee line arguments ∧
          callee.arity? = some arguments.length ∧ p.machine.depth = config.maxDepth := by
  have depth {turns : List Turn} {turn : Turn} {held : List Root}
      (past : Past config turns turn.machine held) {p : Point} (passes : turn.Passes config p) :
      ∃ start active, turn.Starts config start ∧ Nests config start active p ∧
        p.machine.depth = active ∧ active ≤ config.maxDepth := by
    -- A turn starts with no active call, and each step on the way to the point counts its own.
    obtain ⟨start, starts, reaches⟩ := passes
    obtain ⟨active, nests⟩ := reaches.nests
    have none : start.machine.depth = 0 := (atTop_of_starts starts (atTop_of_past past)).2
    have counted := nests.depth_eq
    have within := nests.depth_le (by omega)
    exact ⟨start, active, starts, nests, by omega, by omega⟩
  refine ⟨fun steps source less more clock clock' le same => ?_, fun turns turn held past => ?_⟩
  · have clocked : shown { config with maxDepth := less, clock := clock } steps source =
        shown { config with maxDepth := less, clock := clock' } steps source := by
      rcases same with rfl | ignores
      · rfl
      · exact ignores less clock clock'
    rw [clocked]
    exact shortened_limited { config with clock := clock' } le
  · refine ⟨fun p passes => depth past passes, fun line => ?_⟩
    rw [Turn.overflow_iff]
    constructor
    · rintro ⟨p, passes, more, full, callee, arguments, task, arity⟩
      obtain ⟨_, _, _, _, _, _⟩ := depth past passes
      exact ⟨p, callee, arguments, passes, more, task, arity, by omega⟩
    · rintro ⟨p, callee, arguments, passes, more, task, arity, full⟩
      exact ⟨p, passes, more, Nat.le_of_eq full.symm, callee, arguments, task, arity⟩

private def nesting : List UInt8 := "fun f() { clock(); } f();".toUTF8.toList

private def overflowLine? : List Seen → Option Nat
  | [.failed (.runtime (.stackOverflow line)) _] => some line
  | _ => none

private def single : Config := { Config.standard with maxDepth := 1 }

private def callOf (name : String) : Stmt :=
  .expression (.call (.variable ⟨.identifier, name, none, 1⟩ none) ⟨.rightParen, ")", none, 1⟩ [])

private def nestingTurn : Turn :=
  ⟨12, [], .program [.functionDecl (.mk ⟨.identifier, "f", none, 1⟩ [] [callOf "clock"]), callOf "f"],
    .start⟩

/-- Of two calls one inside the other a budget of one admits the first only: the second one is
    attempted while one call is active. -/
theorem nesting_shortened :
    overflowLine? (shown single 12 nesting) = some 1 ∧
    overflowLine? (shown { single with maxDepth := 2 } 12 nesting) = none ∧
    Shortened { single with maxDepth := 2 } 12 nesting (shown single 12 nesting) ∧
    Past single [] nestingTurn.machine [] ∧
    (∃ m, nestingTurn.outcome single = .failed (.stackOverflow 1) m) ∧
    ∃ p start, nestingTurn.Starts single start ∧ Nests single start 1 p ∧ p.machine.depth = 1 := by
  obtain ⟨shortens, sessions⟩ := budget_truncates single
  have failed : ∃ m, nestingTurn.outcome single = .failed (.stackOverflow 1) m := by
    have ended : overflowLine? (seenOf (nestingTurn.outcome single)) = some 1 := by
      unfold nestingTurn
      decide +kernel
    revert ended
    cases nestingTurn.outcome single with
    | failed fault m => cases fault <;> simp [seenOf, overflowLine?]
    | done result m => simp [seenOf, overflowLine?]
    | unfinished => simp [seenOf, overflowLine?]
  refine ⟨?_, ?_, shortens 12 nesting 1 2 _ _ (by decide) (.inl rfl), .start, failed, ?_⟩
  · unfold nesting
    decide +kernel
  · unfold nesting
    decide +kernel
  · obtain ⟨depths, overflows⟩ := sessions [] nestingTurn [] .start
    obtain ⟨p, _, _, passes, _, _, _, full⟩ := (overflows 1).mp failed
    obtain ⟨start, active, starts, nests, counted, _⟩ := depths p passes
    have one : active = 1 := counted.symm.trans full
    exact ⟨p, start, starts, one ▸ nests, full⟩

end Session
end Lox
