import Mathlib
import Lox.Proofs.Dispatch.Enclosing
import Lox.Proofs.Loops.Rounds
import Lox.Proofs.Session.Moments
import Lox.Proofs.Rewording.Sessions

namespace Lox

open Outcome Eval Resolve

namespace World

def before (s : Store) : World where
  pairs x y := x = y ∧ x < s.next
  places a b depth := a = b ∧ depth = none ∧ a.index < s.next

section before

variable {s : Store} {roots : List Root} (sound : s.Sound roots)
include sound

theorem closures_before {f : Closure} (occurs : .closure f ∈ s.objects roots) (within : Nat) :
    (before s).Closures within f f := by
  have scope : f.scope.index < s.next :=
    sound.bounded (.scope f.scope) (.lasting occurs (List.mem_singleton.mpr rfl))
  exact ⟨⟨rfl, sound.bounded (.closure f) (.occurs occurs)⟩, rfl, none, ⟨rfl, rfl, scope⟩,
    fun impossible => (by cases impossible), f.declaration.deepened_none⟩

theorem methods_before {methods : List (String × Closure)}
    (occur : ∀ method ∈ methods, .closure method.2 ∈ s.objects roots) :
    List.Forall₂ (Entries ((before s).Closures 1)) methods methods :=
  List.forall₂_same.mpr fun method member => ⟨rfl, closures_before sound (occur method member) 1⟩

theorem classes_before : (type : Class) → (∀ object ∈ type.objects, object ∈ s.objects roots) →
    (before s).Classes type type
  | .mk identity name none methods, occur => by
    have own := sound.bounded _ (.occurs (occur _ (Class.mem_objects _)))
    exact .base ⟨rfl, own⟩ (methods_before sound fun method member =>
      occur _ (Class.mem_objects_iff.mpr (.inr (.inl ⟨method, member, rfl⟩))))
  | .mk identity name (some superclass) methods, occur => by
    have own := sound.bounded _ (.occurs (occur _ (Class.mem_objects _)))
    exact .subclass ⟨rfl, own⟩
      (classes_before superclass fun object member =>
        occur _ (Class.mem_objects_iff.mpr (.inr (.inr ⟨superclass, rfl, member⟩))))
      (methods_before sound fun method member =>
        occur _ (Class.mem_objects_iff.mpr (.inr (.inl ⟨method, member, rfl⟩))))

theorem values_before {v : Value} (occur : ∀ object ∈ v.objects, object ∈ s.objects roots) :
    (before s).Values v v := by
  cases v with
  | closure f => exact .closure (closures_before sound (occur _ (List.mem_singleton.mpr rfl)) 0)
  | «class» type => exact .class (classes_before sound type occur)
  | «instance» id type =>
    have own := sound.bounded _ (.occurs (occur _ List.mem_cons_self))
    exact .instance ⟨rfl, own⟩
      (classes_before sound type fun object member => occur object (List.mem_cons_of_mem _ member))
  | nil => exact .nil
  | bool value => exact .bool
  | number value => exact .number
  | string text => exact .string
  | native function => exact .native

theorem bound_before {bindings : Bindings}
    (carried : ∀ entry ∈ bindings, s.Carries roots entry.2) : (before s).Bound bindings bindings :=
  List.forall₂_same.mpr fun entry member => ⟨rfl, values_before sound (carried entry member).occurs⟩

theorem stores_before : (before s).Stores s s where
  sharp := ⟨by rintro x y y' ⟨rfl, _⟩ ⟨rfl, _⟩; rfl, by rintro x x' y ⟨rfl, _⟩ ⟨rfl, _⟩; rfl⟩
  below := by
    rintro x y ⟨rfl, below⟩
    exact ⟨below, below⟩
  nested := ⟨sound.nested, sound.nested⟩
  filled := ⟨sound.fields_lt, sound.fields_lt⟩
  regular := by
    rintro a b depth ⟨rfl, rfl, below⟩ _
    refine ⟨⟨rfl, below⟩, ?_⟩
    cases found : s.scope? a with
    | none => exact .none
    | some scope =>
      refine .some ⟨bound_before sound fun entry member => ?_, rfl, ?_⟩
      · exact .inl ⟨a, scope, entry.1, found, member⟩
      · cases outside : scope.enclosing? with
        | none => exact .outermost
        | some p =>
          have older := sound.nested a scope p found outside
          have place : (before s).places p p none := ⟨rfl, rfl, Nat.lt_trans older below⟩
          have around : (before s).Around (Depth.inside none 1) (some p) (some p) := .within place
          exact around
  additional := by
    rintro a b ⟨_, impossible, _⟩
    cases impossible
  fields := by
    rintro ⟨index⟩ ⟨index'⟩ ⟨same, below⟩
    obtain rfl : index = index' := same
    cases found : s.fields? ⟨index⟩ with
    | none => exact .none
    | some fields =>
      exact .some (bound_before sound fun entry member => .inr (.inl ⟨⟨index⟩, fields, entry.1, found, member⟩))
  closed := by
    rintro a b p scope ⟨_, impossible, _⟩
    cases impossible

end before

theorem machines_before {m : Machine} {held : List Root} (sound : m.Sound held) :
    (before m.store).Machines none m m := by
  have exists' : ∀ id, m.store.Stands id → id.index < m.store.next := fun id stands => by
    obtain ⟨scope, found, _⟩ := stands.exists
    exact sound.sound.numbered id scope found
  exact ⟨⟨rfl, rfl, exists' _ (stands_globals sound)⟩, ⟨rfl, rfl, exists' _ (stands_scope sound)⟩, rfl,
    rfl, rfl, stores_before sound.sound⟩

end World

/-- Two computations from one machine end in the same way. What was there before still stands for
    itself. The first one may have collected what cannot be reached. -/
def Outcome.Like (m : Machine) (held : List Root) (o o' : Outcome Flow) : Prop :=
  ∃ middle, Outcome.Agree Flow.roots held middle o ∧
    (World.before m.store).Outcomes none World.Flows middle o'

/-- The tree of a `for` statement that stands in some scopes does from a point on what the statement
    does, carried out as it is written, without collections: one ends if the other one does, and in the
    same way. -/
structure ForLoop.Faithful (config : Config) (context : Context) (scopes : List Names) (l : ForLoop)
    (p : Point) : Prop where
  ahead : ∀ n, execute config n p.held (statement context scopes l.tree).tree p.machine ≠ .unfinished →
    ∃ k, Outcome.Like p.machine p.held
      (execute config n p.held (statement context scopes l.tree).tree p.machine)
      ((l.resolved context scopes).run config.idle p.held k p.machine)
  back : ∀ k, (l.resolved context scopes).run config.idle p.held k p.machine ≠ .unfinished →
    ∃ n, Outcome.Like p.machine p.held
      (execute config n p.held (statement context scopes l.tree).tree p.machine)
      ((l.resolved context scopes).run config.idle p.held k p.machine)

theorem ForLoop.faithful {config : Config} {context : Context} {scopes : List Names} {l : ForLoop}
    {p : Point} (written : l.Written) (plain : Plain scopes)
    (task : p.task = .statement (statement context scopes l.tree).tree) (steady : Steady config p) :
    l.Faithful config context scopes p := by
  obtain ⟨steps, held, _, m⟩ := p
  subst task
  have shape := tree_resolved context written plain
  have machines : (World.before m.store).Machines none m m := by
    obtain ⟨_, _, ready⟩ := steady
    exact World.machines_before ready.safe
  have quiet (n : Nat) :
      Steady config.idle ⟨n, held, .statement (statement context scopes l.tree).tree, m⟩ :=
    steady.with_steps n
  have agree (n : Nat) : Outcome.Agree Flow.roots held
      (execute config.idle n held (statement context scopes l.tree).tree m)
      (execute config n held (statement context scopes l.tree).tree m) :=
    config.idle_alike.mirrors n ⟨quiet n, steady.with_steps n, .refl _ m⟩
  refine ⟨fun n ended => ⟨n + 8, _, agree n, ?_⟩, fun k ended => ⟨k + 8, _, agree (k + 8), ?_⟩⟩
  · have ended' : execute config.idle n held (statement context scopes l.tree).tree m ≠ .unfinished := by
      intro cut
      have same := agree n
      rw [cut] at same
      generalize execute config n held _ m = o at same ended
      cases same
      exact ended rfl
    have shorter : Shorter true 8 n (n + 8) := Nat.le_refl (n + 8)
    exact (shape.meets config.idle_idle machines (quiet n) shorter).of_first ended'
  · have shorter : Shorter false 8 (k + 8) k := Nat.le_refl (k + 8)
    exact (shape.meets config.idle_idle machines (quiet (k + 8)) shorter).of_second ended

/-- Wherever the walk is in the scopes of a place, the innermost one is not one of `super`. -/
theorem Enclosed.plain {nearest : ClassContext} {scopes : List Names} {constructs : List Construct}
    (enclosed : Enclosed nearest scopes constructs) : Plain scopes := by
  cases enclosed with
  | globals => exact nofun
  | inner _ bare | method _ _ bare => exact fun names here => Option.some.inj here ▸ bare.2

namespace Session

variable {config : Config} {turns : List Turn} {turn : Turn} {held : List Root} {p : Point}

theorem steady_of_passes (past : Past config turns turn.machine held) (fewer : turn.held ⊆ held)
    (passes : turn.Passes config p) : Steady config p :=
  Discipline.ready_of_passes (D := Discipline.unrestricted config) rfl past fewer
    (fun _ _ _ _ => rfl) passes

/-- Wherever the tree of a `for` statement of an accepted source is carried out in a session, it does
    what the statement does, carried out as it is written: the initializer runs once, in a scope of its
    own that all rounds share; before each round the condition is evaluated, after each body that comes
    to its end the increment; each name is resolved where it is written. -/
theorem for_statements_faithful (past : Past config turns turn.machine held) (fewer : turn.held ⊆ held)
    (passes : turn.Passes config p) {text : List UInt8} {program : List Stmt}
    (parsed : parseProgram text = .ok program) {source : Work}
    (whole : source = .program program ∨ source = .statements program) {context : Context}
    {scopes : List Names} {constructs : List Construct} {l : ForLoop}
    (visited : Visits source context scopes constructs (.statement l.tree)) (written : l.Written)
    (task : p.task = .statement (statement context scopes l.tree).tree) :
    l.Faithful config context scopes p := by
  have ofGrammar : source.Written := by
    rcases whole with rfl | rfl <;> exact parsed_written parsed
  have enclosed := (visited.enclosed ofGrammar).resolve_right (by simp)
  exact ForLoop.faithful written enclosed.plain task (steady_of_passes past fewer passes)

end Session

namespace OneRound

private def counter : Token := ⟨.identifier, "a", none, 1⟩

private def source : List UInt8 := "for(var a=true;a;a=nil)a;".toUTF8.toList

private def loop : ForLoop where
  initializer? := some (.varDecl counter (some (.literal (.bool true))))
  condition? := some (.variable counter none)
  increment? := some (.assign counter (.literal .nil) none)
  body := .expression (.variable counter none)

private def tree : Stmt := (statement .topLevel [] loop.tree).tree

private theorem counter_plain : counter.Plain := ⟨by decide, by decide⟩

private theorem written : loop.Written where
  initial _ same := Option.some.inj same ▸ .varDecl counter_plain fun _ given =>
    Option.some.inj given ▸ .literal
  tested _ same := Option.some.inj same ▸ .variable counter_plain
  counted _ same := Option.some.inj same ▸ .assign counter_plain .literal
  repeated := .expression (.variable counter_plain)
  bare := rfl

private def ends : Outcome Flow → Bool
  | .done .normal _ => true
  | _ => false

/-- The statement ends, and so it does as it is written. -/
theorem ends_as_written :
    let turn : Turn := ⟨20, [], .program [tree], .start⟩
    let point : Point := ⟨20, [], .statement tree, Machine.start.atRest⟩
    parseProgram source = .ok [loop.tree] ∧ turn.Passes .standard point ∧
      ∃ k, Outcome.Like point.machine [] (execute .standard 20 [] tree point.machine)
        ((loop.resolved .topLevel []).run Config.standard.idle [] k point.machine) := by
  intro turn point
  have parsed : parseProgram source = .ok [loop.tree] := by
    unfold source loop
    cbv
  have passes : turn.Passes .standard point := ⟨point, .program .first, .refl⟩
  have ended : ends (execute .standard 20 [] tree Machine.start.atRest) = true := by
    unfold tree loop
    decide +kernel
  have faithful := Session.for_statements_faithful .start (List.Subset.refl []) passes parsed (.inl rfl)
    (.first (.program rfl)) written rfl
  refine ⟨parsed, passes, faithful.ahead 20 fun cut => ?_⟩
  have cut' : execute .standard 20 [] tree Machine.start.atRest = .unfinished := cut
  rw [cut'] at ended
  cases ended

end OneRound
end Lox
