import Lox.Session
import Lox.Proofs.Machine.Reachable

namespace Lox

inductive Work where
  | program (program : List Stmt)
  | expression (e : Expr)
  | statements (ss : List Stmt)

namespace Work

def perform (config : Config) (steps : Nat) (held : List Root) : Work → Eval Session.Result
  | .program ss => do
    interpret config steps held ss
    pure .nothing
  | .expression e => do
    let value ← evaluate config steps held e
    pure (.value value)
  | .statements ss => do
    let flows ← Session.executeEach config steps held ss
    pure (.flows flows)

end Work

namespace Session

def Request.work : Request → Except (List StaticError) Work
  | run source => (compile source).map .program
  | runUnresolved source => (parseProgram source).map .program
  | evaluate source => (compileExpression source).map .expression
  | execute resolved source =>
    (if resolved then compile source else parseProgram source).map .statements

theorem report_map {α : Type} (x : Eval α) (f : α → Result) (m : Machine) :
    (x m).report.map f = (Eval.andThen x (fun value => pure (f value)) m).report := by
  unfold Eval.andThen
  cases x m <;> rfl

variable (config : Config) (steps : Nat) (held : List Root)

theorem onCompiled_map {α β : Type} (compiled : Except (List StaticError) α) (run : α → Eval β)
    (f : β → Result) (make : α → Work) (same : ∀ a, (make a).perform config steps held =
      Eval.andThen (run a) fun value => pure (f value)) (m : Machine) :
    (onCompiled compiled run m).map f =
      onCompiled (compiled.map make) (·.perform config steps held) m := by
  cases compiled with
  | ok a =>
    show ((run a) m).report.map f = ((make a).perform config steps held m).report
    rw [same, report_map]
  | error errors => rfl

theorem answer_eq (request : Request) (m : Machine) : answer config steps held request m =
    onCompiled request.work (·.perform config steps held) m := by
  cases request with
  | run source => exact onCompiled_map config steps held _ _ _ _ (fun _ => rfl) m
  | runUnresolved source => exact onCompiled_map config steps held _ _ _ _ (fun _ => rfl) m
  | evaluate source => exact onCompiled_map config steps held _ _ _ _ (fun _ => rfl) m
  | execute resolved source => exact onCompiled_map config steps held _ _ _ _ (fun _ => rfl) m

variable {config : Config} {steps : Nat} {held : List Root} {request : Request} {m m' : Machine}

theorem answer_done_iff {result : Result} : answer config steps held request m = .done result m' ↔
    ∃ work, request.work = .ok work ∧ work.perform config steps held m = .done result m' := by
  rw [answer_eq]
  cases request.work with
  | error errors => simp [onCompiled]
  | ok work =>
    simp only [onCompiled, Except.ok.injEq, exists_eq_left']
    cases work.perform config steps held m <;> simp [Outcome.report]

/-- A request that fails is refused, and then nothing has been done, or its work fails. -/
theorem answer_failed_iff {error : RunError} :
    answer config steps held request m = .failed error m' ↔
      (∃ errors, request.work = .error errors ∧ error = .static errors ∧ m' = m) ∨
        ∃ work fault, request.work = .ok work ∧
          work.perform config steps held m = .failed fault m' ∧ error = .runtime fault := by
  rw [answer_eq]
  cases request.work with
  | error errors => simp [onCompiled, eq_comm]
  | ok work =>
    simp only [onCompiled, reduceCtorEq, false_and, exists_false, false_or, Except.ok.injEq,
      exists_and_left, exists_eq_left']
    cases work.perform config steps held m <;>
      simp [Outcome.report, eq_comm, and_assoc, and_comm]

end Session

inductive Launches (config : Config) (steps : Nat) (keep : Flow → List Root) :
    List Root → List Stmt → Machine → Point → Prop where
  | first {held : List Root} {s : Stmt} {rest : List Stmt} {m : Machine} :
      Launches config steps keep held (s :: rest) m ⟨steps, held, .statement s, m⟩
  | others {held : List Root} {s : Stmt} {rest : List Stmt} {m m' : Machine} {flow : Flow}
      {p : Point} (ended : execute config steps held s m = .done flow m')
      (later : Launches config steps keep (keep flow ++ held) rest m' p) :
      Launches config steps keep held (s :: rest) m p

structure Turn where
  steps : Nat
  held : List Root
  work : Work
  machine : Machine

namespace Turn

def outcome (config : Config) (turn : Turn) : Outcome Session.Result :=
  turn.work.perform config turn.steps turn.held turn.machine

inductive Starts (config : Config) : Turn → Point → Prop where
  | program {steps : Nat} {held : List Root} {program : List Stmt} {m : Machine} {p : Point}
      (launches : Launches config steps (fun _ => []) held program m.atRest p) :
      Starts config ⟨steps, held, .program program, m⟩ p
  | expression {steps : Nat} {held : List Root} {e : Expr} {m : Machine} :
      Starts config ⟨steps, held, .expression e, m⟩ ⟨steps, held, .expression e, m⟩
  | statements {steps : Nat} {held : List Root} {ss : List Stmt} {m : Machine} {p : Point}
      (launches : Launches config steps Flow.roots held ss m p) :
      Starts config ⟨steps, held, .statements ss, m⟩ p

def Passes (config : Config) (turn : Turn) (p : Point) : Prop :=
  ∃ start, turn.Starts config start ∧ Reaches config start p

end Turn

/-- The turns of a session so far, the last one first, the machine that they leave, and what is held
    of their results. -/
inductive Past (config : Config) : List Turn → Machine → List Root → Prop where
  | start : Past config [] Machine.start []
  | done {turns : List Turn} {m m' : Machine} {held held' : List Root} {steps : Nat} {work : Work}
      {result : Session.Result} (past : Past config turns m held) (fewer : held' ⊆ held)
      (ended : Turn.outcome config ⟨steps, held', work, m⟩ = .done result m') :
      Past config (⟨steps, held', work, m⟩ :: turns) m' (result.roots ++ held')
  | failed {turns : List Turn} {m m' : Machine} {held held' : List Root} {steps : Nat} {work : Work}
      {fault : Fault} (past : Past config turns m held) (fewer : held' ⊆ held)
      (ended : Turn.outcome config ⟨steps, held', work, m⟩ = .failed fault m') :
      Past config (⟨steps, held', work, m⟩ :: turns) m' held'

namespace DisciplineData

structure Rested (D : DisciplineData) (m : Machine) (held : List Root) : Prop where
  globals : m.globals = D.globals
  scope : m.scope = D.globals
  safe : D.Safe m.store (m.roots held)

variable {config : Config} {D : Discipline config} {n : Nat} {m m' : Machine}
  {held held' : List Root} {task : Task}

theorem Rested.weaken (rested : D.Rested m held) (fewer : held' ⊆ held) : D.Rested m held' :=
  ⟨rested.globals, rested.scope, rested.safe.weaken (roots_subset fewer)⟩

theorem Rested.atRest (rested : D.Rested m held) : D.Rested m.atRest held := by
  refine ⟨rested.globals, rested.globals, rested.safe.weaken ?_⟩
  intro root member
  rcases List.mem_cons.mp member with same | later
  · exact same ▸ List.mem_cons_self
  · rcases List.mem_cons.mp later with same | old
    · exact same ▸ List.mem_cons_self
    · exact List.mem_cons_of_mem _ (List.mem_cons_of_mem _ old)

theorem Rested.ready (rested : D.Rested m held) (bare : task.inputs = [])
    (fits : D.fits ⟨n, held, task, m⟩ [] []) : D.Ready ⟨n, held, task, m⟩ [] [] where
  globals := rested.globals
  safe := by
    rw [bare]
    exact rested.safe
  around := by
    refine ⟨?_, D.limits_globals _⟩
    rw [show m.scope = D.globals from rested.scope]
    exact .globals
  fits := fits

theorem Left.rested {changing : ScopeId → Prop} {results : List Root} (rested : D.Rested m held)
    (left : D.Left m held changing results m') : D.Rested m' (results ++ held) :=
  ⟨left.later.globals.trans rested.globals, left.later.scope.trans rested.scope, left.safe⟩

end DisciplineData

namespace Discipline

variable {config : Config} {D : Discipline config} {steps : Nat} {m : Machine} {held : List Root}

/-- The machine is at rest after each statement, whether it ends in a fault or not. -/
theorem statement_rested {s : Stmt} (rested : D.Rested m held)
    (fits : D.fits ⟨steps, held, .statement s, m⟩ [] []) :
    (execute config steps held s m).Sat (fun flow m' => D.Rested m' (flow.roots ++ held))
      (D.Rested · held) :=
  Outcome.Sat.mono (D.preserves steps (rested.ready rfl fits))
    (fun _ _ (done : D.Finished _ _ _ _ _) => done.toLeft.rested rested)
    (fun _ broken => broken.rested rested)

theorem executeProgram_rested (program : List Stmt) (rested : D.Rested m held)
    (fits : ∀ p, Launches config steps (fun _ => []) held program m p → D.fits p [] []) :
    (executeProgram config steps held program m).Sat (fun _ m' => D.Rested m' held)
      (D.Rested · held) := by
  induction program generalizing m with
  | nil => exact rested
  | cons s rest ih =>
    rw [executeProgram]
    refine .bind (statement_rested rested (fits _ .first)) fun flow m' ended after => ?_
    exact ih (after.weaken (List.subset_append_right _ _))
      fun p later => fits p (.others ended later)

theorem executeEach_rested (ss : List Stmt) (rested : D.Rested m held)
    (fits : ∀ p, Launches config steps Flow.roots held ss m p → D.fits p [] []) :
    (Session.executeEach config steps held ss m).Sat
      (fun flows m' => D.Rested m' (flows.flatMap Flow.roots ++ held)) (D.Rested · held) := by
  induction ss generalizing m held with
  | nil => exact rested
  | cons s rest ih =>
    rw [Session.executeEach]
    refine .bind (statement_rested rested (fits _ .first)) fun flow m' ended after => ?_
    have others := ih after fun p later => fits p (.others ended later)
    refine .bind (Outcome.Sat.mono others (fun _ _ done => done) fun _ broken =>
      broken.weaken (List.subset_append_right _ _)) fun flows m'' _ done => ?_
    refine done.weaken fun root member => ?_
    simp only [List.flatMap_cons, List.mem_append] at member ⊢
    rcases member with (here | later) | old
    · exact .inr (.inl here)
    · exact .inl later
    · exact .inr (.inr old)

theorem interpret_rested (program : List Stmt) (rested : D.Rested m held)
    (fits : ∀ p, Launches config steps (fun _ => []) held program m.atRest p → D.fits p [] []) :
    (interpret config steps held program m).Sat (fun _ m' => D.Rested m' held)
      (D.Rested · held) := by
  unfold interpret
  refine .of_done rfl ?_
  refine .bind (executeProgram_rested program rested.atRest fits) fun _ m' _ done => ?_
  have left : D.Left m' held nowhere [] (m'.pause config held) :=
    DisciplineData.Left.pause (.start done.safe)
  exact left.rested done

theorem perform_rested (work : Work) (rested : D.Rested m held)
    (fits : ∀ p, Turn.Starts config ⟨steps, held, work, m⟩ p → D.fits p [] []) :
    (work.perform config steps held m).Sat (fun result m' => D.Rested m' (result.roots ++ held))
      (D.Rested · held) := by
  cases work with
  | program program =>
    have ran := interpret_rested program rested fun p launches => fits p (.program launches)
    unfold Work.perform
    exact .bind ran fun _ _ _ done => done
  | expression e =>
    have ready := rested.ready rfl (fits _ .expression)
    unfold Work.perform
    refine .bind (Outcome.Sat.mono (D.preserves steps ready)
      (fun value m' (done : D.Left _ _ _ [.value value] m') => done.rested rested)
      (fun _ broken => broken.rested rested)) fun _ _ _ done => done
  | statements ss =>
    have ran := executeEach_rested ss rested fun p launches => fits p (.statements launches)
    unfold Work.perform
    exact .bind ran fun _ _ _ done => done

theorem rested_start (same : D.globals = Machine.start.globals) : D.Rested Machine.start [] := by
  refine ⟨same.symm, same.symm, ?_⟩
  have empty : D.Safe Store.empty [] := by
    refine ⟨Store.Sound.empty, ?_, by simp, ?_⟩
    · intro id scope parent found
      simp [Store.empty, Store.scope?] at found
    · rintro v (⟨id, scope, name, found, _⟩ | ⟨id, fields, name, found, _⟩ | member)
      · simp [Store.empty, Store.scope?] at found
      · simp [Store.empty, Store.fields?] at found
      · cases member
  have made := empty.newScope none
    (NativeFunction.all.map fun function => (function.name, Value.native function)) (by simp)
    (fun entry member => by
      obtain ⟨function, _, rfl⟩ := List.mem_map.mp member
      exact .inr rfl)
  refine made.weaken fun root member => ?_
  rcases List.mem_cons.mp member with same | later
  · exact same ▸ List.mem_cons_self
  · exact List.mem_singleton.mp later ▸ List.mem_cons_self

theorem rested_of_past (same : D.globals = Machine.start.globals) {turns : List Turn}
    (past : Past config turns m held)
    (fits : ∀ turn ∈ turns, ∀ p, turn.Starts config p → D.fits p [] []) : D.Rested m held := by
  induction past with
  | start => exact rested_start same
  | done past fewer ended ih =>
    have before := ih fun turn member => fits turn (List.mem_cons_of_mem _ member)
    exact (perform_rested _ (before.weaken fewer) (fits _ List.mem_cons_self)).done_of_eq ended
  | failed past fewer ended ih =>
    have before := ih fun turn member => fits turn (List.mem_cons_of_mem _ member)
    exact (perform_rested _ (before.weaken fewer) (fits _ List.mem_cons_self)).failed_of_eq ended

theorem ready_of_launches {keep : Flow → List Root} {ss : List Stmt} {p : Point}
    (launches : Launches config steps keep held ss m p) (rested : D.Rested m held)
    (kept : ∀ flow, keep flow ⊆ flow.roots)
    (fits : ∀ p, Launches config steps keep held ss m p → D.fits p [] []) : D.Ready p [] [] := by
  induction launches with
  | first => exact rested.ready rfl (fits _ .first)
  | @others held s rest m m' flow p ended later ih =>
    have after := (statement_rested rested (fits _ .first)).done_of_eq ended
    refine ih (after.weaken fun root member => ?_) fun q launches => fits q (.others ended launches)
    rcases List.mem_append.mp member with new | old
    · exact List.mem_append_left _ (kept flow new)
    · exact List.mem_append_right _ old

theorem ready_of_starts {turn : Turn} {p : Point} (starts : turn.Starts config p)
    (rested : D.Rested turn.machine turn.held)
    (fits : ∀ p, turn.Starts config p → D.fits p [] []) : D.Ready p [] [] := by
  cases starts with
  | program launches =>
    exact ready_of_launches launches rested.atRest (by simp)
      fun p launches => fits p (.program launches)
  | expression => exact rested.ready rfl (fits _ .expression)
  | statements launches =>
    exact ready_of_launches launches rested (fun _ _ member => member)
      fun p launches => fits p (.statements launches)

/-- What a discipline knows holds at every point of a turn, whatever turns have come before. -/
theorem ready_of_passes (same : D.globals = Machine.start.globals) {turns : List Turn} {turn : Turn}
    (past : Past config turns turn.machine held) (fewer : turn.held ⊆ held)
    (fits : ∀ each ∈ turn :: turns, ∀ p, each.Starts config p → D.fits p [] []) {p : Point}
    (passes : turn.Passes config p) : ∃ layers after, D.Ready p layers after := by
  obtain ⟨start, starts, reaches⟩ := passes
  have rested := rested_of_past same past fun each member =>
    fits each (List.mem_cons_of_mem _ member)
  have ready := ready_of_starts starts (rested.weaken fewer) (fits turn List.mem_cons_self)
  exact ready_of_reaches ready reaches

/-- Every turn so far had turns before it. -/
theorem past_of_mem {turns : List Turn} (past : Past config turns m held) {each : Turn}
    (member : each ∈ turns) : ∃ earlier before, Past config earlier each.machine before ∧
      each.held ⊆ before ∧ each :: earlier ⊆ turns := by
  induction past with
  | start => cases member
  | done past fewer _ ih | failed past fewer _ ih =>
    rcases List.mem_cons.mp member with rfl | old
    · exact ⟨_, _, past, fewer, List.Subset.refl _⟩
    · obtain ⟨earlier, before, its, kept, inside⟩ := ih old
      exact ⟨earlier, before, its, kept, List.subset_cons_of_subset _ inside⟩

/-- What a discipline knows holds at every point of all turns so far. -/
theorem ready_of_past (same : D.globals = Machine.start.globals) {turns : List Turn}
    (past : Past config turns m held)
    (fits : ∀ each ∈ turns, ∀ p, each.Starts config p → D.fits p [] []) {each : Turn}
    (member : each ∈ turns) {p : Point} (passes : each.Passes config p) :
    ∃ layers after, D.Ready p layers after := by
  obtain ⟨earlier, before, its, kept, inside⟩ := past_of_mem past member
  exact ready_of_passes same its kept (fun other listed => fits other (inside listed)) passes

theorem ready_of_session (same : D.globals = Machine.start.globals) {turns : List Turn}
    {turn : Turn} (past : Past config turns turn.machine held) (fewer : turn.held ⊆ held)
    (fits : ∀ each ∈ turn :: turns, ∀ p, each.Starts config p → D.fits p [] []) {each : Turn}
    (member : each ∈ turn :: turns) {p : Point} (passes : each.Passes config p) :
    ∃ layers after, D.Ready p layers after := by
  rcases List.mem_cons.mp member with rfl | old
  · exact ready_of_passes same past fewer fits passes
  · exact ready_of_past same past (fun other listed => fits other (List.mem_cons_of_mem _ listed)) old
      passes

end Discipline
end Lox
