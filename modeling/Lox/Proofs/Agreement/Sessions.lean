import Lox.Proofs.Session.Turns
import Lox.Proofs.Agreement.Simulation
import Lox.Proofs.Machine.Presence

namespace Lox

abbrev Machine.Calm (config : Config) (held : List Root) (m : Machine) : Prop :=
  (Discipline.unrestricted config).Rested m held

namespace Config.Alike

variable {config config' : Config} {steps : Nat} {held : List Root} {m m' : Machine}

theorem steady (task : Task) (calm : m.Calm config held) (bare : task.inputs = []) :
    Steady config ⟨steps, held, task, m⟩ :=
  ⟨[], [], calm.ready bare rfl⟩

theorem calm_of_execute {s : Stmt} {flow : Flow} (calm : m.Calm config held)
    (ended : execute config steps held s m = .done flow m') :
    m'.Calm config (flow.roots ++ held) :=
  (Discipline.statement_rested calm rfl).done_of_eq ended

theorem execute (alike : config.Alike config') (s : Stmt) (calm : m.Calm config held)
    (calm' : m'.Calm config' held) (agree : m.Agree held m') :
    Outcome.Agree Flow.roots held (Lox.execute config steps held s m)
      (Lox.execute config' steps held s m') :=
  alike.mirrors steps ⟨steady (.statement s) calm rfl, steady (.statement s) calm' rfl, agree⟩

theorem executeProgram (alike : config.Alike config') (program : List Stmt)
    (calm : m.Calm config held) (calm' : m'.Calm config' held) (agree : m.Agree held m') :
    Outcome.Agree (fun _ => []) held (Lox.executeProgram config steps held program m)
      (Lox.executeProgram config' steps held program m') := by
  induction program generalizing m m' with
  | nil => exact .done agree
  | cons s rest ih =>
    rw [Lox.executeProgram, Lox.executeProgram]
    refine .bind (alike.execute s calm calm' agree) fun flow n n' ended ended' after => ?_
    have fewer : held ⊆ flow.roots ++ held := List.subset_append_right _ _
    exact ih ((calm_of_execute calm ended).weaken fewer) ((calm_of_execute calm' ended').weaken fewer)
      (after.weaken fewer)

theorem executeEach (alike : config.Alike config') (ss : List Stmt) (calm : m.Calm config held)
    (calm' : m'.Calm config' held) (agree : m.Agree held m') :
    Outcome.Agree (fun flows => flows.flatMap Flow.roots) held
      (Session.executeEach config steps held ss m) (Session.executeEach config' steps held ss m') := by
  induction ss generalizing m m' held with
  | nil => exact .done agree
  | cons s rest ih =>
    rw [Session.executeEach, Session.executeEach]
    refine .bind (alike.execute s calm calm' agree) fun flow n n' ended ended' after => ?_
    have others := ih (calm_of_execute calm ended) (calm_of_execute calm' ended') after
    have kept : Outcome.Agree (fun flows : List Flow => flow.roots ++ flows.flatMap Flow.roots)
        held _ _ :=
      others.mono (List.subset_append_right _ _) fun flows root member => by
        simp only [List.mem_append] at member ⊢
        rcases member with (here | later) | old
        · exact .inr (.inl here)
        · exact .inl later
        · exact .inr (.inr old)
    exact .bind kept fun flows k k' _ _ ends => .done ends

theorem interpret (alike : config.Alike config') (program : List Stmt) (calm : m.Calm config held)
    (calm' : m'.Calm config' held) (agree : m.Agree held m') :
    Outcome.Agree (fun _ => []) held (Lox.interpret config steps held program m)
      (Lox.interpret config' steps held program m') := by
  have atRest : m.atRest.Agree held m'.atRest := by
    obtain ⟨within, same, inside⟩ := agree.store
    have globals := inside (.scope m.globals) List.mem_cons_self
    exact ⟨agree.globals, agree.globals, rfl, agree.output, agree.readings, within, same,
      Machine.roots_inside globals globals fun root => Machine.Agree.held_inside inside⟩
  unfold Lox.interpret
  refine .of_done rfl rfl ?_
  refine .bind (alike.executeProgram program calm.atRest calm'.atRest atRest)
    fun _ n n' ended ended' after => ?_
  have rested : n.Calm config held :=
    (Discipline.executeProgram_rested program calm.atRest fun _ _ => rfl).done_of_eq ended
  have rested' : n'.Calm config' held :=
    (Discipline.executeProgram_rested program calm'.atRest fun _ _ => rfl).done_of_eq ended'
  exact .done (after.pauses config config' rested.safe.sound rested'.safe.sound)

theorem perform (alike : config.Alike config') (work : Work) (calm : m.Calm config held)
    (calm' : m'.Calm config' held) (agree : m.Agree held m') :
    Outcome.Agree Session.Result.roots held (work.perform config steps held m)
      (work.perform config' steps held m') := by
  unfold Work.perform
  cases work with
  | program program =>
    exact .bind (alike.interpret program calm calm' agree) fun _ _ _ _ _ after => .done after
  | expression e =>
    have ends : EndsAlike config config' steps held (.expression e) m m' :=
      alike.mirrors steps ⟨steady _ calm rfl, steady _ calm' rfl, agree⟩
    exact .bind ends fun _ _ _ _ _ after => .done after
  | statements ss =>
    exact .bind (alike.executeEach ss calm calm' agree) fun _ _ _ _ _ after => .done after

end Config.Alike

namespace Session

variable {config config' : Config} {steps : Nat} {held : List Root} {m m' : Machine}

theorem filterMap_subset (held : List Root) (keeps : List Nat) : keeps.filterMap (held[·]?) ⊆ held := by
  intro root member
  obtain ⟨place, _, found⟩ := List.mem_filterMap.mp member
  exact List.mem_of_getElem? found

theorem play_alike (alike : config.Alike config') (session : List Step) (calm : m.Calm config held)
    (calm' : m'.Calm config' held) (agree : m.Agree held m') :
    play config steps held session m = play config' steps held session m' := by
  induction session generalizing held m m' with
  | nil => rfl
  | cons step rest ih =>
    have fewer := filterMap_subset held step.keeps
    have calm₁ := calm.weaken fewer
    have calm₁' := calm'.weaken fewer
    have same := agree.weaken fewer
    unfold play
    simp only [answer_eq]
    cases step.request.work with
    | error errors =>
      simp only [onCompiled, agree.output, ih calm₁ calm₁' same]
    | ok work =>
      have left : (work.perform config steps _ m).Sat _ _ :=
        Discipline.perform_rested work calm₁ fun _ _ => rfl
      have right : (work.perform config' steps _ m').Sat _ _ :=
        Discipline.perform_rested work calm₁' fun _ _ => rfl
      have ends : Outcome.Agree _ _ (work.perform config steps _ m)
          (work.perform config' steps _ m') := alike.perform work calm₁ calm₁' same
      simp only [onCompiled]
      generalize work.perform config steps (step.keeps.filterMap (held[·]?)) m = ended
        at left ends
      generalize work.perform config' steps (step.keeps.filterMap (held[·]?)) m' = ended'
        at right ends
      cases ends with
      | done after => simp only [Outcome.report, after.output, ih left right after]
      | failed after => simp only [Outcome.report, after.output, ih left right after]
      | unfinished => rfl

/-- All that is seen of a session is the same, whenever there are collections. At every point of it,
    whatever can be reached from what is held exists, and would be left as it is by a collection. -/
theorem collection_unobservable (config : Config) (collects collects' : Nat → Ledger → Store → Bool)
    (steps : Nat) (session : List Step) :
    play { config with collects := collects } steps [] session Machine.start =
      play { config with collects := collects' } steps [] session Machine.start ∧
    ∀ (turns : List Turn) (turn : Turn) (held : List Root) (p : Point),
      Past { config with collects := collects } turns turn.machine held → turn.held ⊆ held →
      turn.Passes { config with collects := collects } p →
      ∀ object, p.machine.store.Leads (p.machine.roots (p.task.inputs ++ p.held)) object →
        (∀ node, object.node? = some node → p.machine.store.holds node = true) ∧
        object.Unchanged p.machine.store
          (collect p.machine.store p.machine.ledger
            (p.machine.roots (p.task.inputs ++ p.held))).1 := by
  refine ⟨?_, ?_⟩
  · have alike : Config.Alike { config with collects := collects }
        { config with collects := collects' } := ⟨rfl, rfl, rfl⟩
    have calm : ∀ config, Machine.start.Calm config [] := fun _ => Discipline.rested_start rfl
    exact play_alike alike session (calm _) (calm _) (.refl [] Machine.start)
  · intro turns turn held p past fewer passes object leads
    obtain ⟨layers, after, ready⟩ := Discipline.ready_of_passes
      (D := Discipline.unrestricted { config with collects := collects }) rfl past fewer
      (fun _ _ _ _ => rfl) passes
    exact ⟨fun node => ready.safe.holds_of_leads leads, ready.safe.unchanged_of_leads _ leads⟩

/-- To collect at every pause of a short run is the same as not to collect at all. -/
theorem collected_always :
    play { Config.standard with collects := fun _ _ _ => true } 9 []
        [⟨[], .run "{ var a = 1; print a; }".toUTF8.toList⟩] Machine.start =
      play { Config.standard with collects := fun _ _ _ => false } 9 []
        [⟨[], .run "{ var a = 1; print a; }".toUTF8.toList⟩] Machine.start ∧
    Machine.start.store.holds (.scope Machine.start.globals) = true := by
  obtain ⟨same, present⟩ := collection_unobservable Config.standard (fun _ _ _ => true)
    (fun _ _ _ => false) 9 [⟨[], .run "{ var a = 1; print a; }".toUTF8.toList⟩]
  refine ⟨same, (present [] ⟨1, [], .expression (.literal .nil), Machine.start⟩ []
    ⟨1, [], .expression (.literal .nil), Machine.start⟩ .start (List.nil_subset _)
    ⟨_, .expression, .refl⟩ (.scope Machine.start.globals) (.root List.mem_cons_self rfl)).1 _ rfl⟩

end Session
end Lox
