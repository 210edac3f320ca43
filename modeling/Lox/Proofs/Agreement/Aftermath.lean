import Lox.Proofs.Agreement.Reached
import Lox.Proofs.Agreement.Simulation
import Lox.Proofs.Machine.Changes
import Lox.Proofs.Machine.Unwinding

namespace Lox

variable {config : Config} {p q : Point} {fault : Fault} {n : Nat} {held : List Root} {m m' : Machine}

/-- After a fault in a scope that has been entered, its leaving takes away nothing else. -/
theorem agree_back {ss : List Stmt} {parent : ScopeId} {bindings : Bindings}
    (stands : ∀ id, .scope id ∈ m.roots held → m.store.Stands id) (numbered : m.store.Numbered)
    (steady : Steady config ⟨n, .scope m.scope :: held, .statements ss, m.enter parent bindings⟩)
    (failed : executeAll config n (.scope m.scope :: held) ss (m.enter parent bindings) =
      .failed fault m') :
    m'.atRest.Agree held (m'.leave config held m.scope).atRest := by
  obtain ⟨layers, after, ready⟩ := steady
  have left : DisciplineData.unrestricted.Left (m.enter parent bindings) (.scope m.scope :: held)
      (· = (m.enter parent bindings).scope) [] m' :=
    Outcome.Sat.failed_of_eq ((Discipline.unrestricted config).preserves n ready) failed
  have globals : m'.globals = m.globals := left.later.globals
  have place : m'.scope = ⟨m.store.next⟩ := left.later.scope
  have outside : Root.scope m'.globals :: .scope m.scope :: held ⊆ m.roots held := globals ▸ .refl _
  show Machine.Agree held { m' with scope := m.scope }.atRest _
  refine (Machine.agree_leave (D := Discipline.unrestricted config) (left.safe.weaken ?_) ?_).atRest
  · exact List.cons_subset_cons _ (List.subset_cons_self _ _)
  · intro other member
    obtain ⟨scope, found, _⟩ := (stands other (outside member)).exists
    rw [place]
    exact numbered other scope found

/-- After a fault, what is left to do in a point takes nothing away that the point can reach. -/
theorem Steady.agree_unwound (steady : Steady config p) (calls : Calls config p q)
    (failed : q.outcome config = .failed fault m') :
    m'.atRest.Agree p.held (p.unwinding.run config m').atRest := by
  have inside := steady.next calls
  obtain ⟨layers, after, ready⟩ := steady
  cases calls with
  | block => exact agree_back (fun _ => ready.safe.stands _) ready.safe.sound.numbered inside failed
  | body =>
    have back := agree_back (Discipline.function_stands ready).2 ready.safe.sound.numbered inside failed
    exact back.weaken (List.subset_cons_self _ _)
  | inner inner => cases inner <;> exact .refl _ _
  | _ => exact .refl _ _

theorem Calls.held_subset (calls : Calls config p q) : p.held ⊆ q.held := by
  cases calls with
  | inner inner =>
    cases inner with
    | binaryRight | arguments | call | setValue | tail | initializer => exact List.subset_cons_self _ _
    | _ => exact List.Subset.refl _
  | block => exact List.subset_cons_self _ _
  | body => exact List.Subset.trans (List.subset_cons_self _ _) (List.subset_cons_self _ _)
  | _ => exact List.Subset.refl _

theorem Reaches.held_subset (reaches : Reaches config p q) : p.held ⊆ q.held := by
  induction reaches with
  | refl => exact List.Subset.refl _
  | step _ calls ih => exact List.Subset.trans ih calls.held_subset

/-- A fault of a point that is reached ends the whole, and all that can be reached afterwards is as it
    was when it arose. -/
theorem Steady.agree_failed (steady : Steady config p) (reaches : Reaches config p q)
    (failed : q.outcome config = .failed fault m) :
    ∃ m', p.outcome config = .failed fault m' ∧ m.atRest.Agree p.held m'.atRest := by
  induction reaches generalizing m with
  | refl => exact ⟨m, failed, .refl _ _⟩
  | @step q r before calls ih =>
    have there : Steady config q := by
      obtain ⟨layers, after, ready⟩ := steady
      exact Discipline.ready_of_reaches ready before
    obtain ⟨m', ends, agree⟩ := ih (Point.unwound_of_calls calls failed)
    exact ⟨m', ends, ((there.agree_unwound calls failed).weaken before.held_subset).trans agree⟩

end Lox
