import Lox.Proofs.Rewording.Runs
import Lox.Proofs.Rewording.Settled
import Lox.Proofs.Agreement.Sessions
import Lox.Proofs.Machine.Restoration

namespace Lox

def Config.idle (config : Config) : Config :=
  { config with collects := fun _ _ _ => false, counts := false }

theorem Config.idle_idle (config : Config) : config.idle.Idle := ⟨fun _ _ _ => rfl, rfl⟩

theorem Config.idle_alike (config : Config) : config.idle.Alike config := ⟨rfl, rfl, rfl⟩

/-- What lies inside is the same as in another store, reworded, and leads to nothing else. -/
structure Store.Shows (w : Rewording) (globals : ScopeId) (within : Node → Prop) (s t : Store) :
    Prop where
  next : t.next = s.next
  scopes : ∀ id, within (.scope id) → t.scope? id = (s.scope? id).map (w.scope globals id)
  fields : ∀ id, within (.instance id) → t.fields? id = (s.fields? id).map w.fields
  scopes_inside : ∀ id scope, within (.scope id) → t.scope? id = some scope → scope.Inside within
  fields_inside : ∀ id fields, within (.instance id) → t.fields? id = some fields →
    Bindings.Inside within fields

structure Machine.Shows (w : Rewording) (held : List Root) (m m' : Machine) : Prop where
  globals : m'.globals = m.globals
  scope : m'.scope = m.scope
  depth : m'.depth = m.depth
  output : m'.output = m.output
  readings : m'.readings = m.readings
  store : ∃ within, m.store.Shows w m.globals within m'.store ∧
    ∀ root ∈ m'.roots held, root.Inside within

inductive Session.Report.Shows (w : Rewording) (held : List Root) :
    Outcome Unit → Report Unit → Prop where
  | done {m m' : Machine} (shows' : m.Shows w held m') : Shows w held (.done () m) (.done () m')
  | failed {fault : Fault} {m m' : Machine} (shows' : m.Shows w held m') :
      Shows w held (.failed fault m) (.failed (.runtime (w.fault fault)) m')
  | unfinished : Shows w held .unfinished .unfinished

section shows

variable {w : Rewording} {config : Config} {steps : Nat} {held held' : List Root} {m m' x : Machine}

theorem Machine.Reworded.shows (same : m.Reworded w x) (agree : x.Agree held m') :
    m.Shows w held m' := by
  obtain ⟨within, matched, inside⟩ := agree.store
  refine ⟨agree.globals.symm.trans same.globals, agree.scope.symm.trans same.scope,
    agree.depth.symm.trans same.depth, agree.output.symm.trans same.output,
    agree.readings.symm.trans same.readings, within, ⟨?_, ?_, ?_, ?_, ?_⟩, fun root member => ?_⟩
  · exact matched.next.symm.trans same.store.next
  · exact fun id known => (matched.scopes id known).symm.trans (same.store.scopes id)
  · exact fun id known => (matched.fields id known).symm.trans (same.store.fields id)
  · exact matched.symm.scopes_inside
  · exact matched.symm.fields_inside
  · refine inside root ?_
    unfold Machine.roots at member ⊢
    rw [agree.globals, agree.scope]
    exact member

theorem Outcome.Reworded.shows {f : Unit → Unit} {first middle last : Outcome Unit}
    (same : Reworded w f first middle) (agree : middle.Agree (fun _ => []) held last) :
    Session.Report.Shows w held first last.report := by
  cases same with
  | done same =>
    cases agree with
    | done agree => exact .done (same.shows agree)
  | failed same =>
    cases agree with
    | failed agree => exact .failed (same.shows agree)
  | unfinished =>
    cases agree with
    | unfinished => exact .unfinished

theorem Machine.Calm.outermost (calm : m.Calm config held) {scope : Scope}
    (found : m.store.scope? m.globals = some scope) : scope.enclosing? = none := by
  cases around : scope.enclosing? with
  | none => rfl
  | some parent =>
    have older := calm.safe.sound.nested _ scope parent found around
    have first : m.globals.index = 0 := congrArg ScopeId.index calm.globals
    exact absurd (first ▸ older) (Nat.not_lt_zero _)

theorem Machine.Calm.settles (calm : m.Calm config held) :
    Rewording.Settles fun w => m.Reworded w m := by
  obtain ⟨scope, found, _⟩ := (calm.safe.stands m.globals List.mem_cons_self).exists
  exact Machine.settles m (fun _ => calm.outermost)
    (calm.safe.sound.numbered _ scope found)

namespace Discipline

variable {D : Discipline config}

theorem Separates.executeProgram (separates : D.Separates w) (idle : config.Idle) (steps : Nat)
    (held' : List Root) (program : List Stmt) (rested : D.Rested m held)
    (fits : ∀ p, Launches config steps (fun _ => []) held program m p → D.fits p [] [])
    (same : m.Reworded w m') :
    Outcome.Reworded w (fun u => u) (executeProgram config steps held program m)
      (executeProgram config steps held' (w.statements program) m') := by
  induction program generalizing m m' with
  | nil => exact .done same
  | cons s rest ih =>
    have first : EndsReworded config w steps held held' (.statement s) m m' :=
      separates.rewords idle steps (rested.ready rfl (fits _ .first)) same
    rw [Lox.executeProgram, Rewording.statements, Lox.executeProgram]
    refine .bind first fun flow n n' ended after => ?_
    have next := (statement_rested rested (fits _ .first)).done_of_eq ended
    exact ih (next.weaken (List.subset_append_right _ _)) (fun p later => fits p (.others ended later))
      after

end Discipline

namespace Session

theorem calm_executeProgram (config : Config) (steps : Nat) (program : List Stmt)
    (calm : m.Calm config held) : (executeProgram config steps held program m).Sat
      (fun _ m' => m'.Calm config held) (Machine.Calm config held) :=
  Discipline.executeProgram_rested program calm fun _ _ => rfl

/-- A program that is run from the top level does what its statements do without collections. -/
theorem executeProgram_agrees (steps : Nat) (program : List Stmt) (calm : m.Calm config.idle held)
    (calm' : m'.Calm config held) (top : m.AtTop) (agree : m.Agree held m') :
    Outcome.Agree (fun _ => []) held (executeProgram config.idle steps held program m)
      (interpret config steps held program m') := by
  have top' : m'.AtTop :=
    ⟨agree.scope.symm.trans (top.1.trans agree.globals), agree.depth.symm.trans top.2⟩
  have ran : Outcome.Agree (fun _ => []) held (executeProgram config.idle steps held program m)
      (executeProgram config steps held program m') :=
    config.idle_alike.executeProgram program calm calm' agree
  have after := calm_executeProgram config steps program calm'
  show Outcome.Agree _ held _ (Eval.andThen (executeProgram config steps held program)
    (fun _ => Eval.update fun m => ((), m.pause config held)) m'.atRest)
  unfold Eval.andThen
  rw [top'.atRest_eq]
  generalize executeProgram config.idle steps held program m = ends at ran
  generalize executeProgram config steps held program m' = ends' at ran after
  cases ran with
  | done same => exact .done (same.symm.pause config after.safe.sound).symm
  | failed same => exact .failed same
  | unfinished => exact .unfinished

end Session

end shows

end Lox
