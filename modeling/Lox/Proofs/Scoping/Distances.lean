import Mathlib
import Lox.Proofs.Scoping.Visibility

namespace Lox

open Resolve

inductive Expr.Reads : Expr → Nat → String → Prop where
  | variable {name : Token} {d : Nat} : Reads (.variable name (some d)) d name.lexeme
  | this {keyword : Token} {d : Nat} : Reads (.this keyword (some d)) d keyword.lexeme
  | super {keyword method : Token} {d : Nat} : Reads (.super keyword method (some d)) d "super"
  | receiver {keyword method : Token} {d : Nat} :
      Reads (.super keyword method (some d)) (d - 1) "this"

namespace Visibility

variable {config : Config} {turns : List Turn} {scopes after : List Names} {p q : Point}
  {m : Machine} {d : Nat} {name : String}

def Waits (scopes : List Names) (name : String) : Prop :=
  ∃ names ∈ scopes.head?, names.lookup name = some false

theorem bindsAt_of_defined (around : (DisciplineData.visibility config turns).Around m scopes)
    (nested : m.store.Nested) (defined : Defined scopes d name) :
    m.store.BindsAt m.scope d name := by
  obtain ⟨names, here, found⟩ := defined
  obtain ⟨owner, _, scope, hops, atOwner, _, known⟩ := around.chain.at nested here
  exact ⟨owner, scope, hops, atOwner, known name found⟩

/-- What can be assigned to is bound, unless it waits. -/
theorem bindsAt_iff_waits (around : (DisciplineData.visibility config turns).Around m scopes)
    (nested : m.store.Nested) (found : distance? scopes name = some d)
    (outer : d ≠ 0 → Defined scopes d name) :
    m.store.BindsAt m.scope d name ↔ ¬ Waits scopes name := by
  refine ⟨?_, fun ready => ?_⟩
  · rintro ⟨owner, scope, hops, atOwner, bound⟩ ⟨names, innermost, waits⟩
    obtain ⟨rest, rfl⟩ := List.head?_eq_some_iff.mp innermost
    cases distance?_zero waits found
    rw [Store.ancestor?] at hops
    cases hops
    have defined := around.limits names rfl name ⟨scope, atOwner, bound⟩
    rw [waits] at defined
    cases defined
  · by_cases zero : d = 0
    · subst zero
      obtain ⟨names, value, here, listed⟩ := declared_of_distance? found
      cases value with
      | true => exact bindsAt_of_defined around nested ⟨names, here, listed⟩
      | false => exact absurd ⟨names, List.head?_eq_getElem?.trans here, listed⟩ ready
    · exact bindsAt_of_defined around nested (outer zero)

theorem sees_globals {s : Stmt} (sees : Stmt.Sees [] s after) : after = [] := by
  cases sees with
  | expression _ | print _ | block _ | branch _ _ _ | loop _ _ | returns _ => rfl
  | varDecl _ _ | functionDecl _ | classDecl _ _ => rfl

theorem launches_sees {steps : Nat} {keep : Flow → List Root} {held : List Root} {ss : List Stmt}
    (launches : Launches config steps keep held ss m p) (sees : SeesAll [] ss after) :
    p.task.Sees [] [] := by
  induction launches generalizing after with
  | first =>
    cases sees with
    | cons one others =>
      cases sees_globals one
      exact ⟨one, fun _ member => nomatch member⟩
  | others ended later ih =>
    cases sees with
    | cons one others =>
      cases sees_globals one
      exact ih others

theorem fits_of_starts {turn : Turn} (member : turn ∈ turns) (sees : turn.work.Sees)
    (starts : turn.Starts config p) : (DisciplineData.visibility config turns).fits p [] [] := by
  refine ⟨?_, ⟨turn, member, p, starts, .refl⟩, fun _ impossible =>
    absurd impossible (Option.not_mem_none _)⟩
  cases starts with
  | program launches =>
    obtain ⟨after, within⟩ := sees
    exact launches_sees launches within
  | expression => exact ⟨sees, rfl⟩
  | statements launches =>
    obtain ⟨after, within⟩ := sees
    exact launches_sees launches within

section session

variable {turn : Turn} {held : List Root} (past : Past config turns turn.machine held)
  (fewer : turn.held ⊆ held) (sees : ∀ each ∈ turn :: turns, each.work.Sees)

include past fewer sees

theorem ready_of_passes {each : Turn} (member : each ∈ turn :: turns)
    (passes : each.Passes config p) :
    ∃ scopes after, (Discipline.visibility config (turn :: turns)).Ready p scopes after :=
  Discipline.ready_of_session (D := Discipline.visibility config (turn :: turns)) rfl past fewer
    (fun other listed _ => fits_of_starts listed (sees other listed)) member passes

/-- In the initializer of a variable the innermost scope waits for the variable, unless nothing in
    the initializer is resolved. -/
theorem waits_of_inInitializer (within : InInitializer config (turn :: turns) name p) :
    (∃ scopes, (Discipline.visibility config (turn :: turns)).Ready p scopes scopes ∧
      ∀ names ∈ scopes.head?, names.lookup name = some false) ∨ p.task.Sees [] [] := by
  induction within with
  | @initial each n held m declared initializer member passes same =>
    obtain ⟨scopes, after, ready⟩ := ready_of_passes past fewer sees member passes
    obtain ⟨fits, fresh | blank⟩ := initial_fits ready.fits
    · refine .inl ⟨_, Discipline.Ready.enter ready ready.start (declare_weakens _ _) fits
        (List.Subset.refl _), same ▸ own_waits fresh⟩
    · exact .inr ⟨blank, rfl⟩
  | inner _ inner ih =>
    rcases ih with ⟨scopes, ready, waits⟩ | blank
    · exact .inl ⟨scopes, Discipline.ready_of_inner ready inner, waits⟩
    · exact .inr (blank.inner inner)

/-- An assignment lies in the initializer of its variable exactly if its variable waits. -/
theorem waits_iff_inInitializer (passes : turn.Passes config p) {target : Token} {value : Expr}
    (task : p.task = .expression (.assign target value (some d))) :
    ∃ scopes after, (Discipline.visibility config (turn :: turns)).Ready p scopes after ∧
      (Waits scopes target.lexeme ↔ InInitializer config (turn :: turns) target.lexeme p) := by
  by_cases within : InInitializer config (turn :: turns) target.lexeme p
  · rcases waits_of_inInitializer past fewer sees within with ⟨scopes, ready, waits⟩ | blank
    · refine ⟨scopes, scopes, ready, fun _ => within, fun _ => ?_⟩
      have found := ready.fits.1
      rw [task] at found
      cases found.1 with
      | assign assigned found =>
        cases scopes with
        | nil => cases (found d rfl).1
        | cons names scopes => exact ⟨names, rfl, waits names rfl⟩
    · rw [task] at blank
      cases blank.1 with
      | assign assigned found => cases (found d rfl).1
  · obtain ⟨scopes, after, ready⟩ :=
      ready_of_passes past fewer sees List.mem_cons_self passes
    refine ⟨scopes, after, ready, ?_, fun impossible => absurd impossible within⟩
    rintro ⟨names, innermost, waits⟩
    exact ready.fits.2.2 names innermost _ waits

end session

theorem bindsAt_of_reads {e : Expr} (ready : (Discipline.visibility config turns).Ready p scopes after)
    (task : p.task = .expression e) (reads : e.Reads d name) :
    p.machine.store.BindsAt p.machine.scope d name := by
  have found := ready.fits.1
  rw [task] at found
  refine bindsAt_of_defined ready.around ready.safe.sound.nested ?_
  cases reads with
  | «variable» =>
    cases found.1 with
    | «variable» found => exact found d rfl
  | this =>
    cases found.1 with
    | this found => exact found d rfl
  | super =>
    cases found.1 with
    | super found => exact (found d rfl).1
  | @receiver keyword method d =>
    cases found.1 with
    | super found => exact (found d rfl).2.2

/-- The variable of an assignment is bound unless it waits, before and after the value is known. -/
theorem bindsAt_of_assign {target : Token} {value : Expr}
    (ready : (Discipline.visibility config turns).Ready p scopes after)
    (task : p.task = .expression (.assign target value (some d))) :
    (p.machine.store.BindsAt p.machine.scope d target.lexeme ↔ ¬ Waits scopes target.lexeme) ∧
      ∀ n result m, p.steps = n + 1 → evaluate config n p.held value p.machine = .done result m →
        (m.store.BindsAt m.scope d target.lexeme ↔ ¬ Waits scopes target.lexeme) := by
  obtain ⟨steps, held, _, machine⟩ := p
  cases task
  have nested := ready.safe.sound.nested
  cases ready.fits.1.1 with
  | assign assigned found =>
    obtain ⟨here, outer⟩ := found d rfl
    refine ⟨bindsAt_iff_waits ready.around nested here outer, ?_⟩
    rintro n result m rfl ended
    have left := Discipline.left_of_evaluate ready ready.start .assigned ended
    exact bindsAt_iff_waits (left.around ready.safe.sound.numbered ready.around)
      left.safe.sound.nested here outer

theorem evaluate_assign {n d : Nat} {name : Token} {value : Expr} {result : Value} {m m' : Machine}
    (first : evaluate config n held value m = .done result m') :
    evaluate config (n + 1) held (.assign name value (some d)) m =
      match m'.store.assignAt m'.scope d name.lexeme result name.line with
      | .ok store => .done result { m' with store := store }
      | .error fault => .failed fault m' := by
  rw [evaluate]
  show Eval.andThen _ _ m = _
  unfold Eval.andThen
  rw [first]
  show Eval.andThen (Eval.assign name (some d) result) (fun _ => pure result) m' = _
  unfold Eval.andThen Eval.assign Eval.setStore
  dsimp only
  cases m'.store.assignAt m'.scope d name.lexeme result name.line <;> rfl

end Visibility

namespace Session

open Visibility

variable {config : Config} {turns : List Turn} {turn : Turn} {held : List Root} {p : Point}

/-- At every point of a session, a distance leads to a scope that binds the name. Only an assignment
    may find its variable missing: exactly if it lies in the initializer of that variable. -/
theorem resolved_names_bound (past : Past config turns turn.machine held) (fewer : turn.held ⊆ held)
    (sources : ∀ each ∈ turn :: turns, ∃ request : Request, request.work = .ok each.work)
    (passes : turn.Passes config p) :
    (∀ e d name, p.task = .expression e → e.Reads d name →
      p.machine.store.BindsAt p.machine.scope d name ∧
      ∀ line, ∃ value, p.machine.store.readAt p.machine.scope d name line = .ok value) ∧
    ∀ name value d, p.task = .expression (.assign name value (some d)) →
      (p.machine.store.BindsAt p.machine.scope d name.lexeme ↔
        ¬ InInitializer config (turn :: turns) name.lexeme p) ∧
      ∀ n result m, p.steps = n + 1 →
        Lox.evaluate config n p.held value p.machine = .done result m →
        (InInitializer config (turn :: turns) name.lexeme p →
          Lox.evaluate config (n + 1) p.held (.assign name value (some d)) p.machine =
            .failed (Store.undefined name.lexeme name.line) m) ∧
        (¬ InInitializer config (turn :: turns) name.lexeme p →
          ∃ m', Lox.evaluate config (n + 1) p.held (.assign name value (some d)) p.machine =
            .done result m') := by
  have sees := sees_of_sources sources
  refine ⟨fun e d name task reads => ?_, fun name value d task => ?_⟩
  · obtain ⟨scopes, after, ready⟩ := ready_of_passes past fewer sees List.mem_cons_self passes
    have bound := bindsAt_of_reads ready task reads
    exact ⟨bound, fun line => (Store.readAt_iff line).mpr bound⟩
  · obtain ⟨scopes, after, ready, waits⟩ := waits_iff_inInitializer past fewer sees passes task
    obtain ⟨before, afterwards⟩ := bindsAt_of_assign ready task
    rw [waits] at before
    refine ⟨before, fun n result m steps ended => ?_⟩
    have bound := afterwards n result m steps ended
    rw [waits, ← Store.assignAt_iff result name.line] at bound
    rw [evaluate_assign ended]
    refine ⟨fun within => ?_, fun outside => ?_⟩
    · cases assigned : m.store.assignAt m.scope d name.lexeme result name.line with
      | ok store => exact absurd within (bound.mp ⟨store, assigned⟩)
      | error fault =>
        cases Store.assignAt_error assigned
        rfl
    · obtain ⟨store, assigned⟩ := bound.mpr outside
      rw [assigned]
      exact ⟨_, rfl⟩

end Session

namespace SelfAssignment

def source : List UInt8 := "{ var a = a = nil; }".toUTF8.toList

def name : Token := ⟨.identifier, "a", none, 1⟩

def initializer : Expr := .assign name (.literal .nil) (some 0)

def program : List Stmt := [.block [.varDecl name (some initializer)]]

def point : Point :=
  ⟨2, [.scope Machine.start.globals], .expression initializer, Machine.start.atRest.enterBlock⟩

theorem compile_source : compile source = .ok program := by
  unfold source
  cbv

theorem passes_declaration : Turn.Passes Config.standard ⟨5, [], .program program, Machine.start⟩
    ⟨3, point.held, .statement (.varDecl name (some initializer)), point.machine⟩ :=
  ⟨_, .program .first, .step (.step .refl .block) .first⟩

/-- The source is accepted, and its assignment fails. -/
theorem assigned_too_early : compile source = .ok program ∧
    evaluate Config.standard 2 point.held initializer point.machine =
      .failed (Store.undefined "a" 1) point.machine := by
  refine ⟨compile_source, ?_⟩
  have passes := passes_declaration
  have within : InInitializer Config.standard [⟨5, [], .program program, Machine.start⟩] "a" point :=
    .initial List.mem_cons_self passes rfl
  obtain ⟨start, starts, reaches⟩ := passes
  have named := (Session.resolved_names_bound .start (List.nil_subset [])
    (fun each member => ⟨.run source, by
      rw [List.mem_singleton.mp member]
      exact congrArg (Except.map Work.program) compile_source⟩)
    ⟨start, starts, .step reaches .initial⟩).2 name (.literal .nil) 0 rfl
  exact (named.2 1 .nil point.machine rfl (by rw [evaluate]; rfl)).1 within

end SelfAssignment
end Lox
