import Mathlib
import Lox.Proofs.Machine.Stillness
import Lox.Proofs.Session.Moments

namespace Lox

open Outcome

def Config.Prompt (config : Config) : Prop :=
  ∀ k l s, l.isDue = true → config.collects k l s = true

theorem Config.standard_prompt : Config.standard.Prompt := by
  intro k l s due
  simp [Config.standard, Config.collectsWhenDue, due]

namespace Ledger

/-- The handles are those that the last collection has left, in the store `s`, and some that have been
    put down since. Twice the number of the former makes the next collection due, or the least number
    that may. -/
def Proportioned (l : Ledger) : Prop :=
  ∃ (s : Store) (before later : Array Node), l.handles = before.filter s.holds ++ later ∧
    l.threshold = max leastThreshold (2 * (before.filter s.holds).size)

theorem Proportioned.empty : Ledger.empty.Proportioned := ⟨.empty, #[], #[], rfl, rfl⟩

theorem Proportioned.settle (l : Ledger) (s : Store) : (l.settle s).Proportioned :=
  ⟨s, l.handles, #[], (Array.append_empty).symm, rfl⟩

theorem Proportioned.track {l : Ledger} (proportioned : l.Proportioned) (node : Node) :
    (l.track node).Proportioned := by
  obtain ⟨s, before, later, handles, threshold⟩ := proportioned
  refine ⟨s, before, later.push node, ?_, threshold⟩
  rw [Ledger.track, handles, Array.append_push]

theorem isDue_settle (l : Ledger) (s : Store) : (l.settle s).isDue = false := by
  have few : ¬ max leastThreshold (2 * (l.handles.filter s.holds).size) ≤
      (l.handles.filter s.holds).size := by
    unfold leastThreshold
    omega
  exact decide_eq_false few

end Ledger

namespace Machine

variable {config : Config}

theorem ledger_pause (config : Config) (held : List Root) (m : Machine) :
    (m.pause config held).ledger = m.ledger ∨ ∃ s, (m.pause config held).ledger = m.ledger.settle s := by
  unfold pause
  simp only
  split
  · exact .inr ⟨_, rfl⟩
  · exact .inl rfl

theorem isDue_pause (prompt : config.Prompt) (held : List Root) (m : Machine) :
    (m.pause config held).ledger.isDue = false := by
  unfold pause
  simp only
  split
  · exact Ledger.isDue_settle m.ledger _
  · rename_i never
    cases due : m.ledger.isDue with
    | false => rfl
    | true => exact absurd (prompt _ _ _ due) never

theorem isDue_leave (prompt : config.Prompt) (held : List Root) (previous : ScopeId) (m : Machine) :
    (m.leave config held previous).ledger.isDue = false := isDue_pause prompt held _

end Machine

def Passage.proportioned (config : Config) : Passage config where
  ok _ := True
  rel m m' := m.ledger.Proportioned → m'.ledger.Proportioned
  calls _ _ := trivial
  refl _ := id
  trans first second before := second (first before)
  change := by
    rintro p m m' - change before
    cases change with
    | made => exact before.track _
    | _ => exact before
  opened _ _ _ := id
  placed _ _ _ := id
  freed _ _ := id
  tracked _ node before := before.track node
  settled _ _ := id
  paused m held before := by
    rcases m.ledger_pause config held with same | ⟨s, settled⟩
    · exact same ▸ before
    · exact settled ▸ .settle m.ledger s

/-- What a run leaves to the collector: whether it has left a scope, and how many instances it has made
    since it last did, or in all if it never did. -/
structure Backlog where
  scopeLeft : Bool
  instances : Nat

namespace Backlog

def nothing : Backlog := ⟨false, 0⟩

def left : Backlog := ⟨true, 0⟩

def made : Backlog := ⟨false, 1⟩

def followedBy (first second : Backlog) : Backlog :=
  if second.scopeLeft then second else ⟨first.scopeLeft, first.instances + second.instances⟩

/-- The ledger has as many handles more as instances have been made, compared with the ledger when a
    scope was last left, of which no collection was due, or else with the one at the start. -/
def Explains (b : Backlog) (before after : Ledger) : Prop :=
  ∃ base : Ledger, (if b.scopeLeft then base.isDue = false else base = before) ∧
    after.threshold = base.threshold ∧ after.tracked = base.tracked + b.instances

variable {b b' : Backlog} {l l' l'' : Ledger}

theorem Explains.nothing (l : Ledger) : nothing.Explains l l := ⟨l, rfl, rfl, rfl⟩

theorem Explains.left (l : Ledger) (settled : l'.isDue = false) : left.Explains l l' :=
  ⟨l', settled, rfl, rfl⟩

theorem Explains.made (l : Ledger) (node : Node) : made.Explains l (l.track node) :=
  ⟨l, rfl, rfl, Array.size_push node⟩

theorem Explains.followedBy (first : b.Explains l l') (second : b'.Explains l' l'') :
    (b.followedBy b').Explains l l'' := by
  obtain ⟨base', from', threshold', tracked'⟩ := second
  unfold Backlog.followedBy
  cases settled : b'.scopeLeft with
  | true =>
    rw [settled] at from'
    rw [if_pos rfl]
    exact ⟨base', by rw [settled]; exact from', threshold', tracked'⟩
  | false =>
    rw [settled] at from'
    obtain rfl : base' = l' := from'
    obtain ⟨base, from₀, threshold, tracked⟩ := first
    exact ⟨base, from₀, threshold'.trans threshold, by rw [tracked', tracked, Nat.add_assoc]; rfl⟩

/-- How many handles there are at most, if a collection was not due at the start or a scope has been
    left. -/
theorem Explains.tracked_lt (explains : b.Explains l l')
    (settled : l.isDue = false ∨ b.scopeLeft = true) : l'.tracked < l'.threshold + b.instances := by
  obtain ⟨base, from', threshold, tracked⟩ := explains
  have few : base.isDue = false := by
    cases leaves : b.scopeLeft with
    | true =>
      rw [leaves] at from'
      exact from'
    | false =>
      rw [leaves] at from' settled
      obtain rfl : base = l := from'
      exact settled.resolve_right Bool.false_ne_true
  have below : base.tracked < base.threshold := Nat.lt_of_not_le (of_decide_eq_false few)
  omega

/-- If no scope has been left, all that has been made is still there. -/
theorem Explains.tracked_eq (explains : b.Explains l l') (stays : b.scopeLeft = false) :
    l'.threshold = l.threshold ∧ l'.tracked = l.tracked + b.instances := by
  obtain ⟨base, from', threshold, tracked⟩ := explains
  rw [stays] at from'
  obtain rfl : base = l := from'
  exact ⟨threshold, tracked⟩

end Backlog

/-- What a point does to the handles before it calls anything: an instance is made where a class is
    called with its arity, while another call may be active. -/
def Point.ownBacklog (config : Config) (p : Point) : Backlog :=
  match p.task with
  | .call (.class type) _ arguments =>
    if arguments.length = type.arity ∧ p.machine.depth < config.maxDepth then .made else .nothing
  | _ => .nothing

def Plan.backlog (config : Config) (inside : Point → Backlog) {α : Type} : Plan α → Backlog
  | .ends _ => .nothing
  | .calls q resume unwinding =>
    let first :=
      match unwinding with
      | .nothing | .counted => inside q
      | .back _ _ => .left
    let rest :=
      match q.outcome config with
      | .done value m => (resume value m).backlog config inside
      | .failed _ _ | .unfinished => .nothing
    first.followedBy rest

def Point.backlogWithin (config : Config) : Nat → Point → Backlog
  | 0, _ => .nothing
  | n + 1, p => (p.ownBacklog config).followedBy ((p.plan config).backlog config (backlogWithin config n))

def Point.backlog (config : Config) (p : Point) : Backlog := p.backlogWithin config p.steps

def Machine.SameLedger (m m' : Machine) : Prop := m'.ledger = m.ledger

section explains

variable {config : Config} (prompt : config.Prompt)
include prompt

theorem Plan.explains {inside : Point → Backlog} {α : Type} {plan : Plan α} {m m' : Machine}
    (keeps : plan.Keeps config Machine.SameLedger m)
    (parts : ∀ q ∈ plan.asked config, ∀ m', (q.outcome config).Leaves m' →
      (inside q).Explains q.machine.ledger m'.ledger)
    (leaves : (plan.run config).Leaves m') :
    (plan.backlog config inside).Explains m.ledger m'.ledger := by
  induction plan generalizing m with
  | ends outcome =>
    rw [show m'.ledger = m.ledger from keeps m' leaves]
    exact .nothing m.ledger
  | calls q resume unwinding ih =>
    have here := parts q (Plan.mem_asked_calls.mpr (.inl rfl))
    have others : ∀ value m₁, q.outcome config = .done value m₁ →
        ∀ r ∈ (resume value m₁).asked config, ∀ m', (r.outcome config).Leaves m' →
          (inside r).Explains r.machine.ledger m'.ledger := fun value m₁ ended r asked =>
      parts r (Plan.mem_asked_calls.mpr (.inr ⟨value, m₁, ended, asked⟩))
    rw [Plan.run] at leaves
    unfold Plan.backlog
    cases unwinding with
    -- Such a plan tracks something only here, namely the scope that is left.
    | back held previous =>
      obtain ⟨_, rest⟩ := keeps
      cases ended : q.outcome config with
      | done value m₁ =>
        rw [ended] at leaves
        obtain ⟨held', later⟩ := rest value m₁
        exact (Backlog.Explains.left _ (Machine.isDue_leave prompt held' previous m₁)).followedBy
          (ih value m₁ later (others value m₁ ended) leaves)
      | failed fault m₁ =>
        rw [ended] at leaves
        rw [leaves_failed.mp leaves]
        exact (Backlog.Explains.left _ (Machine.isDue_leave prompt held previous m₁)).followedBy
          (.nothing _)
      | unfinished =>
        rw [ended] at leaves
        exact absurd leaves not_leaves_unfinished
    | nothing | counted =>
      obtain ⟨before, after, rest⟩ := keeps
      rw [show q.machine.ledger = m.ledger from before] at here
      cases ended : q.outcome config with
      | done value m₁ =>
        rw [ended] at leaves
        exact (here m₁ (.inl ⟨value, ended⟩)).followedBy
          (ih value m₁ (rest value m₁) (others value m₁ ended) leaves)
      | failed fault m₁ =>
        rw [ended] at leaves
        have last := here m₁ (.inr ⟨fault, ended⟩)
        rw [leaves_failed.mp leaves, show (Unwinding.run config _ m₁).ledger = _ from after m₁]
        exact last.followedBy (.nothing _)
      | unfinished =>
        rw [ended] at leaves
        exact absurd leaves not_leaves_unfinished

end explains

namespace Point

variable {config : Config}

variable {n : Nat} {held : List Root} {m m' : Machine} {line : Nat} {arguments : List Value}
  {type : Class}

theorem ownBacklog_class : ownBacklog config ⟨n, held, .call (.class type) line arguments, m⟩ =
    if arguments.length = type.arity ∧ m.depth < config.maxDepth then .made else .nothing := rfl

/-- A call of a class puts a handle down at once, or it fails. -/
theorem class_keeps_ledger : ∃ m₁,
    (ownBacklog config ⟨n, held, .call (.class type) line arguments, m⟩).Explains m.ledger m₁.ledger ∧
      (plan config ⟨n, held, .call (.class type) line arguments, m⟩).Keeps config
        Machine.SameLedger m₁ := by
  rw [ownBacklog_class]
  by_cases admitted : arguments.length = type.arity ∧ m.depth < config.maxDepth
  · rw [if_pos admitted]
    refine ⟨m.withInstance, .made _ _, ?_⟩
    cases n with
    | zero => exact fun _ leaves => absurd leaves not_leaves_unfinished
    | succ n =>
      rw [show plan config ⟨n + 1, held, .call (.class type) line arguments, m⟩ =
        Eval.planActivity config n held m line arguments (.class type) from
        (if_pos admitted.1).trans (if_pos admitted.2)]
      cases declared : type.findMethod? initializerName with
      | none =>
        simp only [Eval.planActivity, declared]
        exact fun m' leaves => leaves_done.mp leaves ▸ rfl
      | some method =>
        simp only [Eval.planActivity, declared]
        exact Plan.keeps_active Machine.Still.ledger rfl
  · rw [if_neg admitted]
    refine ⟨m, .nothing _, ?_⟩
    cases n with
    | zero => exact fun _ leaves => absurd leaves not_leaves_unfinished
    | succ n =>
      show (Eval.planCall config m line type.arity arguments.length _).Keeps config _ m
      unfold Eval.planCall
      split
      · rw [if_neg fun room => admitted ⟨‹_›, room⟩]
        exact Plan.keeps_ends Machine.Still.ledger (.fail _)
      · exact Plan.keeps_ends Machine.Still.ledger (.fail _)

/-- What a point does to the handles by itself, it does before it calls anything. -/
theorem keeps_ledger (config : Config) (p : Point) : ∃ m,
    (p.ownBacklog config).Explains p.machine.ledger m.ledger ∧
      (p.plan config).Keeps config Machine.SameLedger m := by
  have quiet (other : ¬ p.task.Constructs) (none : p.ownBacklog config = .nothing) : ∃ m,
      (p.ownBacklog config).Explains p.machine.ledger m.ledger ∧
        (p.plan config).Keeps config Machine.SameLedger m :=
    ⟨p.machine, none ▸ .nothing _,
      keeps Machine.Still.ledger (fun _ _ _ => rfl) fun constructs => absurd constructs other⟩
  obtain ⟨steps, held, task, m⟩ := p
  cases task with
  | call callee line arguments =>
    cases callee with
    | «class» type => exact class_keeps_ledger
    | _ => exact quiet id rfl
  | _ => exact quiet id rfl

theorem explains (prompt : config.Prompt) {p : Point} (leaves : (p.outcome config).Leaves m') :
    (p.backlog config).Explains p.machine.ledger m'.ledger := by
  unfold backlog
  induction steps : p.steps generalizing p m' with
  | zero =>
    obtain ⟨n, held, task, m⟩ := p
    obtain rfl : n = 0 := steps
    cases task <;> exact absurd leaves not_leaves_unfinished
  | succ n ih =>
    obtain ⟨m₁, own, keeps⟩ := keeps_ledger config p
    rw [← run_plan] at leaves
    refine own.followedBy (Plan.explains prompt keeps (fun q asked m' left => ?_) leaves)
    have fewer := (calls_of_mem_parts asked).steps_eq
    exact ih left (by omega)

theorem backlog_block {body : List Stmt} :
    backlog config ⟨n + 1, held, .statement (.block body), m⟩ = .left := by
  show Backlog.nothing.followedBy ((Plan.calls _ _ _).backlog config _) = .left
  unfold Plan.backlog
  dsimp only
  split <;> rfl

end Point

namespace Session

variable {config : Config} {turns : List Turn} {turn : Turn} {held kept : List Root} {n : Nat}
  {s : Stmt} {m m' : Machine}

/-- In every state of a session, twice the number of handles that the last collection has left makes
    the next one due, or the least number that may. -/
theorem ledger_proportioned (past : Past config turns turn.machine held)
    (passes : turn.Passes config ⟨n, kept, .statement s, m⟩)
    (leaves : (Lox.execute config n kept s m).Leaves m') : m'.ledger.Proportioned := by
  obtain ⟨start, starts, reaches⟩ := passes
  let P := Passage.proportioned config
  have earlier : P.rel Machine.start turn.machine :=
    Session.keeps (U := P.upkeep) past (fun _ _ _ _ => trivial) (P.refl _)
  have here := P.trans (Turn.starts_after (P := P) (fun _ _ => trivial) starts)
    (P.of_reaches trivial reaches)
  have across := P.ends (p := ⟨n, kept, .statement s, m⟩) trivial leaves
  exact P.trans earlier (P.trans here across) (Ledger.Proportioned.empty.track _)

end Session

namespace PiledUp

open Eval

variable {config : Config} {n : Nat} {held : List Root} {line : Nat} {m m' : Machine} {type : Class}

def word : Token := ⟨.identifier, "C", none, 1⟩

def paren : Token := ⟨.rightParen, ")", none, 1⟩

def declaring : Stmt := .classDecl word none []

def making : Stmt := .expression (.call (.variable word none) paren [])

def program (count : Nat) : List Stmt := declaring :: List.replicate count making

private def again (m : Machine) : Machine :=
  { m with store := m.store.newInstance.2, ledger := m.ledger.track (.instance m.store.newInstance.1) }

private theorem call_bare (none : type.findMethod? initializerName = none)
    (room : m.depth < config.maxDepth) : call config (n + 1) held (.class type) line [] m =
      .done (.instance m.store.newInstance.1 type) (again m) := by
  rw [← run_planCallee]
  have arity : type.arity = 0 := by simp only [Class.arity, none]
  show (planCall config m line type.arity 0 _).run config = _
  rw [planCall, if_pos arity.symm, if_pos room]
  simp only [planActivity, none]
  rfl

private def Knows (m : Machine) : Prop :=
  m.depth = 0 ∧ ∃ type, m.store.local? m.globals word.lexeme = some (.class type) ∧
    type.findMethod? initializerName = none

private theorem execute_making (knows : Knows m) :
    execute .standard 4 [] making m = .done .normal (again m) := by
  obtain ⟨bare, type, known, none⟩ := knows
  have read : m.store.read m.globals word.lexeme word.line = .ok (.class type) := by
    rw [Store.read, Store.owner?, known]
    dsimp only [Option.bind_some]
    rw [known]
  have callee : evaluate .standard 2 [] (.variable word Option.none) m = .done (.class type) m := by
    rw [evaluate]
    show ofExcept (m.store.read m.globals word.lexeme word.line) m = _
    rw [read]
    rfl
  have called : evaluate .standard 3 [] (.call (.variable word Option.none) paren []) m =
      .done (.instance m.store.newInstance.1 type) (again m) := by
    rw [evaluate]
    show andThen (evaluate .standard 2 [] (.variable word Option.none)) _ m = _
    unfold andThen
    rw [callee]
    show andThen (evaluateAll .standard 2 [.value (.class type)] []) _ m = _
    unfold andThen
    rw [evaluateAll]
    exact call_bare none (bare ▸ by decide)
  rw [making, execute]
  show andThen (evaluate .standard 3 [] (.call (.variable word Option.none) paren [])) _ m = _
  unfold andThen
  rw [called]
  rfl

private theorem launches_making (count : Nat) (knows : Knows m) : ∃ m₁,
    Launches .standard 4 (fun _ => []) [] (List.replicate (count + 1) making) m
      ⟨4, [], .statement making, m₁⟩ ∧ Knows m₁ ∧
      m₁.ledger.tracked = m.ledger.tracked + count ∧ m₁.ledger.threshold = m.ledger.threshold := by
  induction count generalizing m with
  | zero => exact ⟨m, .first, knows, rfl, rfl⟩
  | succ count ih =>
    obtain ⟨m₁, launches, later, tracked, threshold⟩ := ih (m := again m) knows
    have one : (again m).ledger.tracked = m.ledger.tracked + 1 := Array.size_push _
    exact ⟨m₁, .others (execute_making knows) launches, later, by omega, threshold⟩

private def class? (m : Machine) : Option Class :=
  match m.store.local? m.globals word.lexeme with
  | some (.class type) => some type
  | _ => none

private def declared? : Option Machine :=
  match execute .standard 4 [] declaring Machine.start.atRest with
  | .done .normal m => some m
  | _ => none

private theorem shown : (declared?.map fun m => (m.depth, m.ledger.tracked, m.ledger.threshold,
    (class? m).map fun type => (type.findMethod? initializerName).isSome)) =
    some (0, 1, 1024, some false) := by
  decide +kernel

private theorem declared : ∃ m, execute .standard 4 [] declaring Machine.start.atRest = .done .normal m ∧
    Knows m ∧ m.ledger.tracked = 1 ∧ m.ledger.threshold = 1024 := by
  obtain ⟨m, found, same⟩ := Option.map_eq_some_iff.mp shown
  obtain ⟨depth, same⟩ := Prod.mk.inj same
  obtain ⟨tracked, same⟩ := Prod.mk.inj same
  obtain ⟨threshold, same⟩ := Prod.mk.inj same
  obtain ⟨type, known, bare⟩ := Option.map_eq_some_iff.mp same
  refine ⟨m, ?_, ⟨depth, type, ?_, Option.isSome_eq_false_iff.mp bare |> Option.isNone_iff_eq_none.mp⟩,
    tracked, threshold⟩
  · unfold declared? at found
    split at found
    · cases found
      assumption
    · cases found
  · unfold class? at known
    split at known
    · cases known
      assumption
    · cases known

/-- However many instances the program makes, no collection takes place. -/
theorem handles_pile_up (count : Nat) : ∃ m m',
    Turn.Passes .standard ⟨4, [], .program (program (count + 1)), .start⟩
      ⟨4, [], .statement making, m⟩ ∧
    execute .standard 4 [] making m = .done .normal m' ∧
    m.ledger.tracked = count + 1 ∧ m'.ledger.tracked = count + 2 ∧
    m.ledger.threshold = 1024 ∧ m'.ledger.threshold = 1024 := by
  obtain ⟨m₀, first, knows, tracked, threshold⟩ := declared
  obtain ⟨m, launches, later, more, same⟩ := launches_making count knows
  have one : (again m).ledger.tracked = m.ledger.tracked + 1 := Array.size_push _
  exact ⟨m, again m, ⟨_, .program (.others first launches), .refl⟩, execute_making later,
    by omega, by omega, same.trans threshold, same.trans threshold⟩

end PiledUp
end Lox
