import Mathlib
import Lox.Proofs.Agreement.Aftermath
import Lox.Proofs.Calls.Budget
import Lox.Proofs.Joined.Printing
import Lox.Proofs.Machine.Stillness

namespace Lox

open Outcome

def Config.taking (config : Config) (capacity? : Option Nat) : Config :=
  { config with capacity? := capacity? }

inductive Point.Overfills (config : Config) (capacity : Nat) : Point → Value → Machine → Prop where
  | print {n : Nat} {held : List Root} {e : Expr} {m m' : Machine} {value : Value}
      (first : evaluate config n held e m = .done value m')
      (much : capacity - m'.output.size < value.line.size) :
      Overfills config capacity ⟨n + 1, held, .statement (.print e), m⟩ value m'

/-- Of two runs, one with an unlimited and one with a limited output, both come to a print of the same
    value on the same machine, and its line does not fit the limited output. -/
structure Overfilled (config : Config) (capacity : Nat) (reached reached' : Point → Prop) (p : Point)
    (value : Value) (m : Machine) : Prop where
  unlimited : reached p
  limited : reached' p
  room : m.output.size ≤ capacity
  overfills : p.Overfills (config.taking none) capacity value m
  overfills' : p.Overfills (config.taking (some capacity)) capacity value m

/-- With a limited output a computation ends as with an unlimited one, and all fits, or both come to a
    print that does not. -/
def Filled {α : Type} (config : Config) (capacity : Nat) (reached reached' : Point → Prop)
    (outcome outcome' : Outcome α) : Prop :=
  (outcome' = outcome ∧ ∀ m, outcome.Leaves m → m.output.size ≤ capacity) ∨
    ∃ p value m, Overfilled config capacity reached reached' p value m

theorem Overfilled.mono {config : Config} {capacity : Nat} {reached reached' further further' : Point → Prop}
    {p : Point} {value : Value} {m : Machine}
    (print : Overfilled config capacity reached reached' p value m)
    (wider : ∀ p, reached p → further p) (wider' : ∀ p, reached' p → further' p) :
    Overfilled config capacity further further' p value m :=
  ⟨wider p print.unlimited, wider' p print.limited, print.room, print.overfills, print.overfills'⟩

namespace Filled

variable {config : Config} {capacity : Nat} {α β : Type} {reached reached' : Point → Prop}

theorem mono {further further' : Point → Prop} {outcome outcome' : Outcome α}
    (filled : Filled config capacity reached reached' outcome outcome')
    (wider : ∀ p, reached p → further p) (wider' : ∀ p, reached' p → further' p) :
    Filled config capacity further further' outcome outcome' := by
  rcases filled with same | ⟨p, value, m, print⟩
  · exact .inl same
  · exact .inr ⟨p, value, m, print.mono wider wider'⟩

theorem ends {outcome : Outcome α} {m : Machine} (room : m.output.size ≤ capacity)
    (same : ∀ m', outcome.Leaves m' → m'.output = m.output) :
    Filled config capacity reached reached' outcome outcome :=
  .inl ⟨rfl, fun m' leaves => same m' leaves ▸ room⟩

theorem run {plan : Plan α} {m : Machine}
    (keeps : plan.Keeps (config.taking none) (fun m m' => m'.output = m.output) m)
    (room : m.output.size ≤ capacity)
    (parts : ∀ q ∈ plan.asked (config.taking none), q.machine.output.size ≤ capacity →
      Filled config capacity (Reaches (config.taking none) q)
        (Reaches (config.taking (some capacity)) q) (q.outcome (config.taking none))
        (q.outcome (config.taking (some capacity)))) :
    Filled config capacity
      (fun r => ∃ q ∈ plan.asked (config.taking none), Reaches (config.taking none) q r)
      (fun r => ∃ q ∈ plan.asked (config.taking (some capacity)),
        Reaches (config.taking (some capacity)) q r)
      (plan.run (config.taking none)) (plan.run (config.taking (some capacity))) := by
  induction plan generalizing m with
  | ends outcome => exact ends room keeps
  | calls q resume unwinding ih =>
    have start : q.machine.output = m.output := by cases unwinding <;> exact keeps.1
    -- To leave a scope behind prints nothing, so what comes after it begins with the same output.
    have later (value : q.task.Result) (m' : Machine) : ∃ m₁, m₁.output = m'.output ∧
        (resume value m').Keeps (config.taking none) (fun m m' => m'.output = m.output) m₁ := by
      cases unwinding with
      | nothing | counted => exact ⟨m', rfl, keeps.2.2 value m'⟩
      | back held previous =>
        obtain ⟨held', rest⟩ := keeps.2 value m'
        exact ⟨_, m'.output_leave _ held' previous, rest⟩
    have here : ∀ config, q ∈ (Plan.calls q resume unwinding).asked config :=
      fun config => Plan.mem_asked_calls.mpr (.inl rfl)
    rcases parts q (here _) (start ▸ room) with ⟨same, fits⟩ | ⟨p, value, m', print⟩
    · rw [Plan.run, Plan.run, same]
      cases ended : q.outcome (config.taking none) with
      | done value m' =>
        obtain ⟨m₁, printed, rest⟩ := later value m'
        have inside := ih value m' rest (printed ▸ fits m' (.inl ⟨value, ended⟩)) fun r asked =>
          parts r (Plan.mem_asked_calls.mpr (.inr ⟨value, m', ended, asked⟩))
        refine inside.mono ?_ ?_
        · rintro r ⟨p, asked, reaches⟩
          exact ⟨p, Plan.mem_asked_calls.mpr (.inr ⟨value, m', ended, asked⟩), reaches⟩
        · rintro r ⟨p, asked, reaches⟩
          exact ⟨p, Plan.mem_asked_calls.mpr (.inr ⟨value, m', same.trans ended, asked⟩), reaches⟩
      | failed fault m' =>
        have left := fits m' (.inr ⟨fault, ended⟩)
        have printed := unwinding.output_run (config.taking none) m'
        refine .inl ⟨?_, fun m₁ leaves => ?_⟩
        · cases unwinding <;> rfl
        · rw [leaves_failed.mp leaves, printed]
          exact left
      | unfinished => exact .inl ⟨rfl, fun _ leaves => absurd leaves not_leaves_unfinished⟩
    · exact .inr ⟨p, value, m', print.mono (fun _ reaches => ⟨q, here _, reaches⟩)
        fun _ reaches => ⟨q, here _, reaches⟩⟩

theorem plan_taking {p : Point} (other : ¬p.task.Prints) (capacity? : Option Nat) :
    p.plan (config.taking capacity?) = p.plan (config.taking none) := by
  obtain ⟨steps, held, task, m⟩ := p
  cases steps with
  | zero => cases task <;> rfl
  | succ n =>
    cases task with
    | call callee line arguments =>
      cases callee with
      | native function => cases function; rfl
      | _ => rfl
    | statement s =>
      cases s with
      | print value => exact absurd trivial other
      | varDecl name initializer? => cases initializer? <;> rfl
      | classDecl name superclass? methods => cases superclass? <;> rfl
      | returns keyword value? => cases value? <;> rfl
      | _ => rfl
    | _ => rfl

theorem bind {x x' : Eval α} {next next' : α → Eval β} {m : Machine}
    (first : Filled config capacity reached reached' (x m) (x' m))
    (rest : ∀ value m', x m = .done value m' → x' m = .done value m' → m'.output.size ≤ capacity →
      Filled config capacity reached reached' (next value m') (next' value m')) :
    Filled config capacity reached reached' ((x >>= next) m) ((x' >>= next') m) := by
  show Filled config capacity reached reached' (Eval.andThen x next m) (Eval.andThen x' next' m)
  unfold Eval.andThen
  rcases first with ⟨same, fits⟩ | print
  · rw [same]
    rw [same] at rest
    cases ended : x m with
    | done value m' => exact rest value m' ended ended (fits m' (.inl ⟨value, ended⟩))
    | failed fault m' =>
      exact .inl ⟨rfl, fun m₁ leaves => leaves_failed.mp leaves ▸ fits m' (.inr ⟨fault, ended⟩)⟩
    | unfinished => exact .inl ⟨rfl, fun _ leaves => absurd leaves not_leaves_unfinished⟩
  · exact .inr print

/-- A print is carried out alike if its line fits; otherwise it is the one at which the runs part. -/
theorem print {n : Nat} {held : List Root} {e : Expr} {m : Machine}
    (first : Filled config capacity (Reaches (config.taking none) ⟨n, held, .expression e, m⟩)
      (Reaches (config.taking (some capacity)) ⟨n, held, .expression e, m⟩)
      (evaluate (config.taking none) n held e m) (evaluate (config.taking (some capacity)) n held e m)) :
    Filled config capacity (Reaches (config.taking none) ⟨n + 1, held, .statement (.print e), m⟩)
      (Reaches (config.taking (some capacity)) ⟨n + 1, held, .statement (.print e), m⟩)
      (execute (config.taking none) (n + 1) held (.print e) m)
      (execute (config.taking (some capacity)) (n + 1) held (.print e) m) := by
  rw [execute, execute]
  refine bind (first.mono (fun _ reaches => reaches.head (.inner .print))
    fun _ reaches => reaches.head (.inner .print)) fun value m' ended ended' room => ?_
  refine bind ?_ fun _ m₁ _ _ room' => ends room' fun _ leaves => leaves_done.mp leaves ▸ rfl
  show Filled _ _ _ _ (Machine.write _ value.line m') (Machine.write _ value.line m')
  have unlimited : Machine.write (config.taking none) value.line m' = .done () (m'.printed value.line) :=
    Machine.write_of_fits fun _ none => absurd none (Option.not_mem_none _)
  by_cases fits : value.line.size ≤ capacity - m'.output.size
  · have limited : Machine.write (config.taking (some capacity)) value.line m' =
        .done () (m'.printed value.line) :=
      Machine.write_of_fits fun _ same => Option.some.inj same ▸ fits
    rw [unlimited, limited]
    refine .inl ⟨rfl, fun m₁ leaves => ?_⟩
    rw [leaves_done.mp leaves]
    show (m'.output ++ value.line).size ≤ capacity
    rw [ByteArray.size_append]
    omega
  · have much := Nat.lt_of_not_le fits
    exact .inr ⟨_, value, m', .refl, .refl, room, .print ended much, .print ended' much⟩

/-- With a limited output a point is carried out alike up to a print whose line does not fit. -/
theorem point (config : Config) {p : Point} (room : p.machine.output.size ≤ capacity) :
    Filled config capacity (Reaches (config.taking none) p) (Reaches (config.taking (some capacity)) p)
      (p.outcome (config.taking none)) (p.outcome (config.taking (some capacity))) := by
  induction steps : p.steps using Nat.strongRecOn generalizing p with
  | ind n ih =>
    by_cases prints : p.task.Prints
    · obtain ⟨steps', held, task, m⟩ := p
      cases task with
      | statement s =>
        cases s with
        | print e =>
          cases steps' with
          | zero => exact ends room fun _ leaves => absurd leaves not_leaves_unfinished
          | succ n' =>
            refine print (ih n' ?_ room rfl)
            exact steps ▸ Nat.lt_succ_self n'
        | _ => cases prints
      | _ => cases prints
    · have alike : p.plan (config.taking (some capacity)) = p.plan (config.taking none) :=
        plan_taking prints _
      rw [← Point.run_plan, ← Point.run_plan, alike]
      have keeps : (p.plan (config.taking none)).Keeps (config.taking none)
          (fun m m' => m'.output = m.output) p.machine :=
        p.keeps (fun still => still.output) (fun here => absurd here prints) fun _ _ _ _ => rfl
      refine (run keeps room fun q asked small => ?_).mono ?_ ?_
      · have fewer := (Point.calls_of_mem_parts asked).steps_eq
        exact ih q.steps (by omega) small rfl
      · rintro r ⟨q, asked, reaches⟩
        exact reaches.head (Point.calls_of_mem_parts asked)
      · rintro r ⟨q, asked, reaches⟩
        rw [← alike] at asked
        exact reaches.head (Point.calls_of_mem_parts asked)

theorem statement (config : Config) {keep : Flow → List Root} {steps : Nat} {held : List Root} {s : Stmt}
    {rest : List Stmt} {m : Machine} (room : m.output.size ≤ capacity) :
    Filled config capacity
      (fun q => ∃ p, Launches (config.taking none) steps keep held (s :: rest) m p ∧
        Reaches (config.taking none) p q)
      (fun q => ∃ p, Launches (config.taking (some capacity)) steps keep held (s :: rest) m p ∧
        Reaches (config.taking (some capacity)) p q)
      (execute (config.taking none) steps held s m)
      (execute (config.taking (some capacity)) steps held s m) := by
  have room' : (Point.machine ⟨steps, held, .statement s, m⟩).output.size ≤ capacity := room
  exact (point config room').mono (fun q reaches => ⟨_, .first, reaches⟩)
    fun q reaches => ⟨_, .first, reaches⟩

theorem program (config : Config) (steps : Nat) (held : List Root) (ss : List Stmt) {m : Machine}
    (room : m.output.size ≤ capacity) :
    Filled config capacity
      (fun q => ∃ p, Launches (config.taking none) steps (fun _ => []) held ss m p ∧
        Reaches (config.taking none) p q)
      (fun q => ∃ p, Launches (config.taking (some capacity)) steps (fun _ => []) held ss m p ∧
        Reaches (config.taking (some capacity)) p q)
      (executeProgram (config.taking none) steps held ss m)
      (executeProgram (config.taking (some capacity)) steps held ss m) := by
  induction ss generalizing m with
  | nil => exact ends room fun _ leaves => leaves_done.mp leaves ▸ rfl
  | cons s rest ih =>
    refine bind (statement config room) fun flow m' ended ended' room' => (ih room').mono ?_ ?_
    · exact fun q ⟨p, launches, reaches⟩ => ⟨p, .others ended launches, reaches⟩
    · exact fun q ⟨p, launches, reaches⟩ => ⟨p, .others ended' launches, reaches⟩

theorem each (config : Config) (steps : Nat) (held : List Root) (ss : List Stmt) {m : Machine}
    (room : m.output.size ≤ capacity) :
    Filled config capacity
      (fun q => ∃ p, Launches (config.taking none) steps Flow.roots held ss m p ∧
        Reaches (config.taking none) p q)
      (fun q => ∃ p, Launches (config.taking (some capacity)) steps Flow.roots held ss m p ∧
        Reaches (config.taking (some capacity)) p q)
      (Session.executeEach (config.taking none) steps held ss m)
      (Session.executeEach (config.taking (some capacity)) steps held ss m) := by
  induction ss generalizing held m with
  | nil => exact ends room fun _ leaves => leaves_done.mp leaves ▸ rfl
  | cons s rest ih =>
    refine bind (statement config room) fun flow m' ended ended' room' => bind ?_
      fun _ _ _ _ room => ends room fun _ leaves => leaves_done.mp leaves ▸ rfl
    refine (ih _ room').mono ?_ ?_
    · exact fun q ⟨p, launches, reaches⟩ => ⟨p, .others ended launches, reaches⟩
    · exact fun q ⟨p, launches, reaches⟩ => ⟨p, .others ended' launches, reaches⟩

theorem turn (config : Config) (turn : Turn) (room : turn.machine.output.size ≤ capacity) :
    Filled config capacity (turn.Passes (config.taking none))
      (turn.Passes (config.taking (some capacity))) (turn.outcome (config.taking none))
      (turn.outcome (config.taking (some capacity))) := by
  obtain ⟨steps, held, work, m⟩ := turn
  have last {α : Type} {m' : Machine} (value : α) (small : m'.output.size ≤ capacity) :
      Filled config capacity (Turn.Passes (config.taking none) ⟨steps, held, work, m⟩)
        (Turn.Passes (config.taking (some capacity)) ⟨steps, held, work, m⟩)
        (.done value m') (.done value m') :=
    ends small fun _ leaves => leaves_done.mp leaves ▸ rfl
  cases work with
  | program ss =>
    have ran := (program config steps held ss (m := m.atRest) room).mono
      (fun q ⟨p, launches, reaches⟩ =>
        (⟨p, .program launches, reaches⟩ : Turn.Passes _ ⟨steps, held, .program ss, m⟩ q))
      fun q ⟨p, launches, reaches⟩ =>
        (⟨p, .program launches, reaches⟩ : Turn.Passes _ ⟨steps, held, .program ss, m⟩ q)
    refine bind (bind (last () room) fun _ m₁ rested _ _ => ?_) fun _ _ _ _ small => last _ small
    cases rested
    refine bind ran fun _ m₂ _ _ small => ends (m := m₂) small fun _ leaves => ?_
    exact leaves_done.mp leaves ▸ m₂.output_pause _ _
  | expression e =>
    have room' : (Point.machine ⟨steps, held, .expression e, m⟩).output.size ≤ capacity := room
    refine bind ((point config room').mono (fun q reaches => ⟨_, .expression, reaches⟩)
      fun q reaches => ⟨_, .expression, reaches⟩) fun _ _ _ _ small => last _ small
  | statements ss =>
    refine bind ((each config steps held ss room).mono
      (fun q ⟨p, launches, reaches⟩ => ⟨p, .statements launches, reaches⟩)
      fun q ⟨p, launches, reaches⟩ => ⟨p, .statements launches, reaches⟩)
      fun _ _ _ _ small => last _ small

end Filled

section failing

variable {config : Config} {steps : Nat} {held : List Root} {m m' : Machine} {p : Point} {fault : Fault}

theorem Eval.bind_of_failed {α β : Type} {x : Eval α} {next : α → Eval β}
    (failed : x m = .failed fault m') : (x >>= next) m = .failed fault m' := by
  show Eval.andThen x next m = _
  unfold Eval.andThen
  rw [failed]

theorem Eval.bind_of_done {α β : Type} {x : Eval α} {next : α → Eval β} {value : α}
    {outcome : Outcome β} (ended : x m = .done value m') (rest : next value m' = outcome) :
    (x >>= next) m = outcome := by
  show Eval.andThen x next m = _
  unfold Eval.andThen
  rw [ended]
  exact rest

theorem Turn.failed_of_starts {turn : Turn} (starts : turn.Starts config p)
    (failed : p.outcome config = .failed fault m') : turn.outcome config = .failed fault m' := by
  cases starts with
  | @program steps held program m p launches =>
    have ran : executeProgram config steps held program m.atRest = .failed fault m' := by
      generalize m.atRest = m at launches
      generalize kept : (fun _ : Flow => ([] : List Root)) = keep at launches
      induction launches with
      | first => exact Eval.bind_of_failed failed
      | others ended later ih =>
        subst kept
        exact Eval.bind_of_done ended (ih failed)
    exact Eval.bind_of_failed (Eval.bind_of_done rfl (Eval.bind_of_failed ran))
  | expression => exact Eval.bind_of_failed failed
  | @statements steps held ss m p launches =>
    have ran : Session.executeEach config steps held ss m = .failed fault m' := by
      generalize kept : Flow.roots = keep at launches
      induction launches with
      | first => exact Eval.bind_of_failed failed
      | others ended later ih =>
        subst kept
        exact Eval.bind_of_done ended (Eval.bind_of_failed (ih failed))
    exact Eval.bind_of_failed ran

end failing

def Machine.filled (capacity : Nat) (value : Value) (m : Machine) : Machine :=
  m.printed (value.line.extract 0 (capacity - m.output.size))

/-- The beginning of three texts in a row that ends in the second one. -/
theorem extract_beginning {a b c : ByteArray} {n : Nat} (first : a.size ≤ n)
    (second : n - a.size ≤ b.size) : (a ++ b ++ c).extract 0 n = a ++ b.extract 0 (n - a.size) := by
  have whole : a.extract 0 n = a :=
    ByteArray.ext (ByteArray.data_extract.trans (Array.extract_eq_self_of_le first))
  have rest : n - a.size - b.size = 0 := by omega
  have nothing : c.extract (0 - a.size - b.size) 0 = .empty := ByteArray.ext (by simp)
  rw [ByteArray.append_assoc, ByteArray.extract_append, ByteArray.extract_append, whole, rest, nothing,
    ByteArray.append_empty, Nat.zero_sub]

namespace Point.Overfills

variable {config : Config} {capacity : Nat} {p : Point} {value : Value} {m : Machine}

/-- The print itself fails, and leaves scope, calls and store as it has found them. -/
theorem failed (print : p.Overfills (config.taking (some capacity)) capacity value m) :
    p.outcome (config.taking (some capacity)) = .failed .outputFull (m.filled capacity value) := by
  cases print with
  | print first much =>
    show execute _ _ _ _ _ = _
    rw [execute]
    exact Eval.bind_of_done first
      (Eval.bind_of_failed (Machine.write_of_over rfl much))

theorem leaves (print : p.Overfills (config.taking none) capacity value m) :
    (p.outcome (config.taking none)).Leaves (m.printed value.line) := by
  cases print with
  | print first much =>
    have fits : ∀ capacity ∈ (config.taking none).capacity?, value.line.size ≤ capacity - m.output.size :=
      fun _ none => absurd none (Option.not_mem_none _)
    refine .inl ⟨.normal, ?_⟩
    show execute _ _ _ _ _ = _
    rw [execute]
    exact Eval.bind_of_done first (Eval.bind_of_done (Machine.write_of_fits fits) rfl)

theorem much (print : p.Overfills config capacity value m) :
    capacity - m.output.size < value.line.size := by
  cases print with
  | print first much => exact much

end Point.Overfills

def Report.Leaves {α : Type} (report : Report α) (m : Machine) : Prop :=
  (∃ value, report = .done value m) ∨ ∃ error, report = .failed error m

theorem Outcome.leaves_of_report {α : Type} {outcome : Outcome α} {m : Machine}
    (leaves : outcome.report.Leaves m) : outcome.Leaves m := by
  rcases leaves with ⟨value, same⟩ | ⟨error, same⟩ <;> cases outcome <;> cases same
  · exact .inl ⟨_, rfl⟩
  · exact .inr ⟨_, rfl⟩

/-- How a step ends with a limited output, beside how it ends with an unlimited one. -/
inductive Report.Truncated (config : Config) (capacity : Nat) (held : List Root)
    (passes passes' : Point → Prop) {α : Type} : Report α → Report α → Prop where
  /-- All that is printed fits, and the step ends in the same way. -/
  | whole {report : Report α} (fits : ∀ m, report.Leaves m → m.output.size ≤ capacity) :
      Truncated config capacity held passes passes' report report
  /-- Both come to a print that does not fit. It fails with the state as it is, and so does the step,
      back at the top level, with all else that can be reached as it was at that print. -/
  | cut {report : Report α} {p : Point} {value : Value} {m m' : Machine}
      (print : Overfilled config capacity passes passes' p value m)
      (fails : p.outcome (config.taking (some capacity)) =
        .failed .outputFull (m.filled capacity value))
      (agree : (m.filled capacity value).atRest.Agree held m')
      (globals : m'.store.scope? m'.globals = m.store.scope? m.globals)
      (beginning : ∀ m'', report.Leaves m'' →
        capacity < m''.output.size ∧ m'.output = m''.output.extract 0 capacity) :
      Truncated config capacity held passes passes' report (.failed (.runtime .outputFull) m')

theorem Report.Truncated.mono {config : Config} {capacity : Nat} {held : List Root}
    {passes passes' further further' : Point → Prop} {α : Type} {report report' : Report α}
    (truncated : Truncated config capacity held passes passes' report report')
    (wider : ∀ p, passes p → further p) (wider' : ∀ p, passes' p → further' p) :
    Truncated config capacity held further further' report report' := by
  cases truncated with
  | whole fits => exact .whole fits
  | cut print fails agree globals beginning =>
    exact .cut (print.mono wider wider') fails agree globals beginning

namespace Overfilled

variable {config : Config} {capacity : Nat} {p : Point} {value : Value} {m m' : Machine} {turn : Turn}
  {held : List Root}

/-- What an unlimited run has printed in the end is too much, and begins with what the limited one
    prints. -/
theorem beginning (print : Overfilled config capacity (turn.Passes (config.taking none))
      (turn.Passes (config.taking (some capacity))) p value m)
    (leaves : (turn.outcome (config.taking none)).Leaves m') :
    capacity < m'.output.size ∧ (m.filled capacity value).output = m'.output.extract 0 capacity := by
  obtain ⟨start, starts, reaches⟩ := print.unlimited
  have moment : turn.Moment (config.taking none) (m.printed value.line) :=
    ⟨start, starts, .ended reaches print.overfills.leaves⟩
  obtain ⟨more, whole⟩ := Turn.Moment.before_end (P := .printing _) (fun _ _ => trivial) moment leaves
  have much := print.overfills.much
  have room := print.room
  have output : m'.output = m.output ++ value.line ++ more := whole
  constructor
  · rw [output, ByteArray.size_append, ByteArray.size_append]
    omega
  · rw [output, extract_beginning room (Nat.le_of_lt much)]
    rfl

/-- A limited run ends where the print does not fit, with all that can be reached as it was there. -/
theorem cut (print : Overfilled config capacity (turn.Passes (config.taking none))
      (turn.Passes (config.taking (some capacity))) p value m)
    (steady : ∀ start, turn.Starts (config.taking (some capacity)) start →
      Steady (config.taking (some capacity)) start ∧ turn.held ⊆ start.held) :
    ∃ m', turn.outcome (config.taking (some capacity)) = .failed .outputFull m' ∧
      (m.filled capacity value).atRest.Agree turn.held m'.atRest := by
  obtain ⟨start, starts, reaches⟩ := print.limited
  obtain ⟨ready, kept⟩ := steady start starts
  obtain ⟨m', failed, agree⟩ := ready.agree_failed reaches print.overfills'.failed
  exact ⟨m', Turn.failed_of_starts starts failed, agree.weaken kept⟩

end Overfilled

namespace Session

variable {config : Config} {m : Machine} {kept held : List Root}

theorem held_of_launches {keep : Flow → List Root} {steps : Nat} {ss : List Stmt} {p : Point}
    (launches : Launches config steps keep held ss m p) : held ⊆ p.held := by
  induction launches with
  | first => exact List.Subset.refl _
  | others _ _ ih => exact List.Subset.trans (List.subset_append_right _ _) ih

theorem held_of_starts {turn : Turn} {p : Point} (starts : turn.Starts config p) :
    turn.held ⊆ p.held := by
  cases starts with
  | program launches | statements launches => exact held_of_launches launches
  | expression => exact List.Subset.refl _

theorem turn_truncated (config : Config) (turn : Turn) {capacity : Nat} (calm : turn.machine.Calm config turn.held)
    (top : turn.machine.AtTop) (room : turn.machine.output.size ≤ capacity) :
    Report.Truncated config capacity turn.held (turn.Passes (config.taking none))
      (turn.Passes (config.taking (some capacity))) (turn.outcome (config.taking none)).report
      (turn.outcome (config.taking (some capacity))).report := by
  rcases Filled.turn config turn room with ⟨same, fits⟩ | ⟨p, value, m, print⟩
  · rw [same]
    exact .whole fun m' leaves => fits m' (Outcome.leaves_of_report leaves)
  · have steady : ∀ start, turn.Starts (config.taking (some capacity)) start →
        Steady (config.taking (some capacity)) start ∧ turn.held ⊆ start.held := fun start starts =>
      ⟨⟨_, _, Discipline.ready_of_starts (D := .unrestricted _) starts calm fun _ _ => rfl⟩,
        held_of_starts starts⟩
    obtain ⟨m', failed, agree⟩ := print.cut steady
    have restored : m'.AtTop := (atTop_perform turn.work top).failed_of_eq failed
    rw [restored.atRest_eq] at agree
    rw [failed]
    refine .cut print print.overfills'.failed agree agree.globals_eq fun m'' leaves => ?_
    obtain ⟨much, begins⟩ := print.beginning (Outcome.leaves_of_report leaves)
    exact ⟨much, agree.output.symm.trans begins⟩

theorem answer_of_work {steps : Nat} {request : Request} {work : Work}
    (compiled : request.work = .ok work) : answer config steps held request m =
      (Turn.outcome config ⟨steps, held, work, m⟩).report := by
  rw [answer_eq, compiled]
  rfl

theorem answer_refused {steps : Nat} {request : Request} {errors : List StaticError}
    (refused : request.work = .error errors) :
    answer config steps held request m = .failed (.static errors) m := by
  rw [answer_eq, refused]
  rfl

/-- A limited output only cuts a step of a session short. If all that the step prints on an unlimited
    output fits, it ends in the same way on the limited one. Otherwise both come to the same print, on
    the same machine, and its line does not fit. On the limited output this print fails with as much of
    it printed as fits, in the scope and at the depth and with the store as they are there; and the
    step fails, with the beginning of what the other one prints, at the top level, with the globals and
    all that can be reached as they were at that print. -/
theorem capacity_truncates (config : Config) {turns : List Turn} (past : Past config turns m kept)
    (fewer : held ⊆ kept) {capacity : Nat} (room : m.output.size ≤ capacity) (steps : Nat)
    (request : Request) :
    Report.Truncated config capacity held
      (fun p => ∃ work, request.work = .ok work ∧
        Turn.Passes (config.taking none) ⟨steps, held, work, m⟩ p)
      (fun p => ∃ work, request.work = .ok work ∧
        Turn.Passes (config.taking (some capacity)) ⟨steps, held, work, m⟩ p)
      (answer (config.taking none) steps held request m)
      (answer (config.taking (some capacity)) steps held request m) := by
  cases compiled : request.work with
  | error errors =>
    rw [answer_refused compiled, answer_refused compiled]
    refine .whole ?_
    rintro m' (⟨_, impossible⟩ | ⟨_, same⟩)
    · cases impossible
    · cases same
      exact room
  | ok work =>
    have calm : m.Calm config kept := Discipline.rested_of_past rfl past fun _ _ _ _ => rfl
    have truncated :=
      turn_truncated config ⟨steps, held, work, m⟩ (calm.weaken fewer) (atTop_of_past past) room
    rw [answer_of_work compiled, answer_of_work compiled]
    exact truncated.mono (fun p passes => ⟨work, rfl, passes⟩) fun p passes => ⟨work, rfl, passes⟩

private def twoLines : List UInt8 := "\x7bprint \"ab\";print \"cd\";\x7d".toUTF8.toList

/-- Where four bytes fit, the second line is cut short after its first character. -/
theorem second_line_truncated :
    output? (answer (Config.standard.taking none) 12 [] (.run twoLines) .start) =
      some "ab\ncd\n".toUTF8 ∧
    output? (answer (Config.standard.taking (some 4)) 12 [] (.run twoLines) .start) =
      some "ab\nc".toUTF8 ∧
    Report.Truncated .standard 4 []
      (fun p => ∃ work, (Request.run twoLines).work = .ok work ∧
        Turn.Passes (Config.standard.taking none) ⟨12, [], work, .start⟩ p)
      (fun p => ∃ work, (Request.run twoLines).work = .ok work ∧
        Turn.Passes (Config.standard.taking (some 4)) ⟨12, [], work, .start⟩ p)
      (answer (Config.standard.taking none) 12 [] (.run twoLines) .start)
      (answer (Config.standard.taking (some 4)) 12 [] (.run twoLines) .start) := by
  refine ⟨?_, ?_, capacity_truncates .standard .start (List.Subset.refl []) (Nat.zero_le 4) 12
    (.run twoLines)⟩
  · unfold twoLines
    decide +kernel
  · unfold twoLines
    decide +kernel

end Session
end Lox
