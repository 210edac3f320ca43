import Lox.Proofs.Machine.Passage

namespace Lox

open Outcome

inductive Sequence (config : Config) (steps : Nat) (keep : Flow → List Root) :
    List Root → List Stmt → Machine → Machine → Prop where
  | nil {held : List Root} {m : Machine} : Sequence config steps keep held [] m m
  | cons {held : List Root} {s : Stmt} {rest : List Stmt} {m m₁ m' : Machine} {flow : Flow}
      (ended : execute config steps held s m = .done flow m₁)
      (later : Sequence config steps keep (keep flow ++ held) rest m₁ m') :
      Sequence config steps keep held (s :: rest) m m'
  | failed {held : List Root} {s : Stmt} {rest : List Stmt} {m m' : Machine} {fault : Fault}
      (ended : execute config steps held s m = .failed fault m') :
      Sequence config steps keep held (s :: rest) m m'

namespace Sequence

variable {config : Config} {P : Passage config} {steps : Nat} {keep : Flow → List Root}
  {held : List Root} {ss : List Stmt} {m m' : Machine} {p q : Point}

theorem of_executeProgram (leaves : (executeProgram config steps held ss m).Leaves m') :
    Sequence config steps (fun _ => []) held ss m m' := by
  induction ss generalizing m with
  | nil => exact leaves_done.mp leaves ▸ .nil
  | cons s rest ih =>
    rcases Eval.leaves_bind leaves with ⟨flow, m₁, ended, later⟩ | ⟨fault, ended⟩
    · exact .cons ended (ih later)
    · exact .failed ended

theorem of_executeEach (leaves : (Session.executeEach config steps held ss m).Leaves m') :
    Sequence config steps Flow.roots held ss m m' := by
  induction ss generalizing m held with
  | nil => exact leaves_done.mp leaves ▸ .nil
  | cons s rest ih =>
    rcases Eval.leaves_bind leaves with ⟨flow, m₁, ended, later⟩ | ⟨fault, ended⟩
    · refine .cons ended (ih ?_)
      rcases Eval.leaves_bind later with ⟨flows, m₂, others, last⟩ | ⟨fault, failed⟩
      · exact leaves_done.mp last ▸ .inl ⟨flows, others⟩
      · exact .inr ⟨fault, failed⟩
    · exact .failed ended

theorem keeps {Γ : Type} {U : Upkeep config Γ} {γ : Γ}
    (sequence : Sequence config steps keep held ss m m')
    (ok : ∀ p, Launches config steps keep held ss m p → U.ok p) (holds : U.holds γ m) :
    U.holds γ m' := by
  induction sequence with
  | nil => exact holds
  | cons ended later ih =>
    exact ih (fun p launches => ok p (.others ended launches))
      (U.ends (ok _ .first) holds (.inl ⟨_, ended⟩))
  | failed ended => exact U.ends (ok _ .first) holds (.inr ⟨_, ended⟩)

theorem ends (sequence : Sequence config steps keep held ss m m')
    (ok : ∀ p, Launches config steps keep held ss m p → P.ok p)
    (launches : Launches config steps keep held ss m p) :
    ∃ m₁, (p.outcome config).Leaves m₁ ∧ P.rel m₁ m' := by
  induction sequence with
  | nil => cases launches
  | @cons held s rest m m₁ m' flow ended later ih =>
    have others := fun p launches => ok p (.others ended launches)
    cases launches with
    | first => exact ⟨m₁, .inl ⟨flow, ended⟩, keeps (U := P.upkeep) later others (P.refl m₁)⟩
    | others ended' launches =>
      rw [ended] at ended'
      cases ended'
      exact ih others launches
  | @failed held s rest m m' fault ended =>
    cases launches with
    | first => exact ⟨m', .inr ⟨fault, ended⟩, P.refl m'⟩
    | others ended' launches =>
      rw [ended] at ended'
      cases ended'

theorem starts (launches : Launches config steps keep held ss m p)
    (ok : ∀ p, Launches config steps keep held ss m p → P.ok p) : P.rel m p.machine := by
  induction launches with
  | first => exact P.refl _
  | others ended later ih =>
    exact P.trans (P.ends (ok _ .first) (.inl ⟨_, ended⟩))
      (ih fun p launches => ok p (.others ended launches))

theorem siblings (first : Launches config steps keep held ss m p)
    (second : Launches config steps keep held ss m q)
    (ok : ∀ p, Launches config steps keep held ss m p → P.ok p) : p = q ∨
      (∃ m₁, (p.outcome config).Leaves m₁ ∧ P.rel m₁ q.machine) ∨
        ∃ m₁, (q.outcome config).Leaves m₁ ∧ P.rel m₁ p.machine := by
  induction first with
  | first =>
    cases second with
    | first => exact .inl rfl
    | others ended later =>
      exact .inr (.inl ⟨_, .inl ⟨_, ended⟩, starts later fun p launches => ok p (.others ended launches)⟩)
  | others ended later ih =>
    cases second with
    | first =>
      exact .inr (.inr ⟨_, .inl ⟨_, ended⟩, starts later fun p launches => ok p (.others ended launches)⟩)
    | others ended' later' =>
      rw [ended] at ended'
      cases ended'
      exact ih later' fun p launches => ok p (.others ended launches)

end Sequence

namespace Turn

variable {config : Config} {P : Passage config} {turn : Turn} {p q : Point} {m m' : Machine}

def Moment (config : Config) (turn : Turn) (m : Machine) : Prop :=
  ∃ start, turn.Starts config start ∧ Lox.Moment config start m

theorem leaves_interpret {steps : Nat} {held : List Root} {program : List Stmt}
    (leaves : (interpret config steps held program m).Leaves m') :
    ∃ m₁, (executeProgram config steps held program m.atRest).Leaves m₁ ∧
      (m' = m₁ ∨ m' = m₁.pause config held) := by
  unfold interpret at leaves
  rcases Eval.leaves_bind leaves with ⟨_, m₀, rested, later⟩ | ⟨fault, impossible⟩
  · cases rested
    rcases Eval.leaves_bind later with ⟨_, m₁, ended, last⟩ | ⟨fault, failed⟩
    · exact ⟨m₁, .inl ⟨_, ended⟩, .inr (leaves_done.mp last)⟩
    · exact ⟨m', .inr ⟨fault, failed⟩, .inl rfl⟩
  · cases impossible

theorem keeps {Γ : Type} {U : Upkeep config Γ} {γ : Γ} (ok : ∀ p, turn.Starts config p → U.ok p)
    (holds : U.holds γ turn.machine) (leaves : (turn.outcome config).Leaves m') : U.holds γ m' := by
  obtain ⟨steps, held, work, m⟩ := turn
  cases work with
  | program program =>
    obtain ⟨m₁, ran, same⟩ := leaves_interpret (Eval.leaves_andThen_result leaves)
    have kept : U.holds γ m₁ := (Sequence.of_executeProgram ran).keeps
      (fun p launches => ok p (.program launches)) (U.rested holds)
    rcases same with rfl | rfl
    · exact kept
    · exact U.paused held kept
  | expression e => exact U.ends (ok _ .expression) holds (Eval.leaves_andThen_result leaves)
  | statements ss =>
    exact (Sequence.of_executeEach (Eval.leaves_andThen_result leaves)).keeps
      (fun p launches => ok p (.statements launches)) holds

theorem ends (ok : ∀ p, turn.Starts config p → P.ok p) (leaves : (turn.outcome config).Leaves m')
    (starts : turn.Starts config p) : ∃ m₁, (p.outcome config).Leaves m₁ ∧ P.rel m₁ m' := by
  cases starts with
  | @program steps held program m p launches =>
    obtain ⟨m₁, ran, same⟩ := leaves_interpret (Eval.leaves_andThen_result leaves)
    obtain ⟨m₂, left, after⟩ := (Sequence.of_executeProgram ran).ends
      (fun p launches => ok p (.program launches)) launches
    refine ⟨m₂, left, P.trans after ?_⟩
    rcases same with rfl | rfl
    · exact P.refl m'
    · exact P.paused m₁ held
  | expression => exact ⟨m', Eval.leaves_andThen_result leaves, P.refl m'⟩
  | statements launches =>
    exact (Sequence.of_executeEach (Eval.leaves_andThen_result leaves)).ends
      (fun p launches => ok p (.statements launches)) launches

theorem starts_after (ok : ∀ p, turn.Starts config p → P.ok p) (starts : turn.Starts config p) :
    P.rel turn.machine p.machine := by
  cases starts with
  | program launches =>
    exact P.trans (P.placed _ _ 0) (Sequence.starts launches fun p launches => ok p (.program launches))
  | expression => exact P.refl _
  | statements launches => exact Sequence.starts launches fun p launches => ok p (.statements launches)

theorem siblings (ok : ∀ p, turn.Starts config p → P.ok p) (first : turn.Starts config p)
    (second : turn.Starts config q) : p = q ∨
      (∃ m₁, (p.outcome config).Leaves m₁ ∧ P.rel m₁ q.machine) ∨
        ∃ m₁, (q.outcome config).Leaves m₁ ∧ P.rel m₁ p.machine := by
  cases first with
  | program launches =>
    cases second with
    | program launches' => exact Sequence.siblings launches launches' fun p l => ok p (.program l)
  | expression =>
    cases second with
    | expression => exact .inl rfl
  | statements launches =>
    cases second with
    | statements launches' =>
      exact Sequence.siblings launches launches' fun p l => ok p (.statements l)

namespace Moment

theorem after_start (ok : ∀ p, turn.Starts config p → P.ok p) (moment : turn.Moment config m) :
    P.rel turn.machine m := by
  obtain ⟨start, starts, inside⟩ := moment
  exact P.trans (starts_after ok starts) (inside.after_start (ok start starts))

theorem before_end (ok : ∀ p, turn.Starts config p → P.ok p) (moment : turn.Moment config m)
    (leaves : (turn.outcome config).Leaves m') : P.rel m m' := by
  obtain ⟨start, starts, inside⟩ := moment
  obtain ⟨m₁, left, after⟩ := ends ok leaves starts
  exact P.trans (inside.before_end (ok start starts) left) after

theorem comparable (ok : ∀ p, turn.Starts config p → P.ok p) (first : turn.Moment config m)
    (second : turn.Moment config m') : P.rel m m' ∨ P.rel m' m := by
  obtain ⟨p, starts, inside⟩ := first
  obtain ⟨q, starts', inside'⟩ := second
  have okay := ok p starts
  have okay' := ok q starts'
  rcases siblings ok starts starts' with rfl | ended | ended
  · exact inside.comparable okay inside'
  · exact .inl (inside.before_sibling okay inside' okay' ended)
  · exact .inr (inside'.before_sibling okay' inside okay ended)

end Moment
end Turn

namespace Session

variable {config : Config} {P : Passage config} {turns : List Turn} {turn : Turn}
  {held : List Root} {m m' m'' : Machine}

theorem keeps {Γ : Type} {U : Upkeep config Γ} {γ : Γ} (past : Past config turns m held)
    (ok : ∀ turn ∈ turns, ∀ p, turn.Starts config p → U.ok p) (start : U.holds γ Machine.start) :
    U.holds γ m := by
  induction past with
  | start => exact start
  | done past fewer ended ih =>
    have before := ih fun turn old => ok turn (List.mem_cons_of_mem _ old)
    exact Turn.keeps (ok _ List.mem_cons_self) before (.inl ⟨_, ended⟩)
  | failed past fewer ended ih =>
    have before := ih fun turn old => ok turn (List.mem_cons_of_mem _ old)
    exact Turn.keeps (ok _ List.mem_cons_self) before (.inr ⟨_, ended⟩)

/-- The moments of all turns so far come before the machine that they leave. -/
theorem moment_before (past : Past config turns m held)
    (ok : ∀ turn ∈ turns, ∀ p, turn.Starts config p → P.ok p) (member : turn ∈ turns)
    (moment : turn.Moment config m') : P.rel m' m := by
  have next {turn' : Turn} {turns : List Turn} {m'' : Machine}
      (ok : ∀ turn ∈ turn' :: turns, ∀ p, turn.Starts config p → P.ok p)
      (leaves : (turn'.outcome config).Leaves m'') (member : turn ∈ turn' :: turns)
      (earlier : turn ∈ turns → P.rel m' turn'.machine) : P.rel m' m'' := by
    have okay := ok turn' List.mem_cons_self
    rcases List.mem_cons.mp member with rfl | old
    · exact moment.before_end okay leaves
    · exact Turn.keeps (U := P.upkeep) okay (earlier old) leaves
  induction past with
  | start => cases member
  | done past fewer ended ih =>
    exact next ok (.inl ⟨_, ended⟩) member (ih fun turn old => ok turn (List.mem_cons_of_mem _ old))
  | failed past fewer ended ih =>
    exact next ok (.inr ⟨_, ended⟩) member (ih fun turn old => ok turn (List.mem_cons_of_mem _ old))

theorem moments_comparable {turn' : Turn} (past : Past config turns turn.machine held)
    (ok : ∀ each ∈ turn :: turns, ∀ p, each.Starts config p → P.ok p)
    (member : turn' ∈ turn :: turns) (first : turn.Moment config m)
    (second : turn'.Moment config m') : P.rel m m' ∨ P.rel m' m := by
  have here := ok turn List.mem_cons_self
  rcases List.mem_cons.mp member with rfl | old
  · exact first.comparable here second
  · have before := moment_before past (fun each old => ok each (List.mem_cons_of_mem _ old)) old second
    exact .inr (P.trans before (first.after_start here))

end Session
end Lox
