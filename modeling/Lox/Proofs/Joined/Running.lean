import Mathlib
import Lox.Proofs.Joined.Compiling
import Lox.Proofs.Rewording.Sessions

namespace Lox

open Rewording (onLines)

/-- A line of a source that has so many line feeds before it. All these lines are distinct, and none
    is up to a bound. -/
def markedLine (bound before line : Nat) : Nat := bound + 1 + Nat.pair before line

/-- The line that is meant, by the line in the source and the line feeds before it. Up to a bound,
    lines stand for themselves. -/
def unmarkedLine (bound : Nat) (place : Nat → Nat → Nat) (line : Nat) : Nat :=
  if line ≤ bound then line
  else place (Nat.unpair (line - (bound + 1))).1 (Nat.unpair (line - (bound + 1))).2

theorem unmarkedLine_markedLine (bound : Nat) (place : Nat → Nat → Nat) (before line : Nat) :
    unmarkedLine bound place (markedLine bound before line) = place before line := by
  have later : ¬markedLine bound before line ≤ bound := by
    unfold markedLine
    omega
  rw [unmarkedLine, if_neg later, markedLine, Nat.add_sub_cancel_left, Nat.unpair_pair]

theorem fixes_unmarkedLine (bound : Nat) (place : Nat → Nat → Nat) :
    (onLines (unmarkedLine bound place)).Fixes bound :=
  ⟨fun _ early => if_pos early, fun _ _ => rfl⟩

namespace Rewording

abbrev apart (bound : Nat) : Rewording := onLines (unmarkedLine bound fun _ line => line)

abbrev together (bound : Nat) : Rewording :=
  onLines (unmarkedLine bound fun before line => line + before)

end Rewording

open Rewording (apart together)

/-- Rewordings of lines alone tell all names apart. -/
theorem Discipline.unrestricted_separates (config : Config) (line : Nat → Nat) :
    (unrestricted config).Separates (onLines line) := by
  have key : ∀ globals id name, (onLines line).key globals id name = name := fun _ _ _ => ite_self _
  have told : ∀ (s : Store) globals id name, s.Apart (onLines line) globals id name := by
    refine fun s globals id name => ⟨key _ _ _, fun scope _ other _ same => ?_⟩
    rwa [key] at same
  refine ⟨fun {n held e name distance layers after m m'} _ _ _ => ?_,
    fun _ _ _ => told _ _ _ _, fun _ _ => rfl, fun _ _ _ _ _ _ same => same⟩
  cases distance with
  | some distance => exact fun _ _ => told _ _ _ _
  | none => exact told _ _ _ _

namespace Accepted

theorem programs_unmarked (bound : Nat) (place : Nat → Nat → Nat) (before : Nat)
    (pieces : List Accepted) : (onLines (unmarkedLine bound place)).statements
      (programs (markedLine bound) before pieces) = programs place before pieces := by
  rw [programs_after]
  congr 1
  funext before line
  exact unmarkedLine_markedLine bound place before line

theorem statements_unmarked (bound before : Nat) (program : List Stmt) :
    (apart bound).statements ((onLines (markedLine bound before)).statements program) =
      program := by
  have same : unmarkedLine bound (fun _ line => line) ∘ markedLine bound before = id :=
    funext fun line => unmarkedLine_markedLine bound _ before line
  obtain ⟨_, fixed⟩ := Rewording.settles_statements program
  rw [Rewording.statements_after, same]
  exact fixed _ ⟨fun _ _ => rfl, fun _ _ => rfl⟩

end Accepted

namespace Session

variable (config : Config) (steps : Nat) (held : List Root)

def runInTurn : List (List UInt8) → Machine → Report Unit
  | [], m => .done () m
  | source :: rest, m =>
    match run config steps held source m with
    | .done () m' => runInTurn rest m'
    | other => other

/-- Carries out the programs of sources one after the other, with all lines marked and without
    collections. -/
def runMarked (bound : Nat) (pieces : List Accepted) : Eval Unit :=
  executeProgram config.idle steps held (Accepted.programs (markedLine bound) 0 pieces)

theorem executeProgram_append (first second : List Stmt) :
    executeProgram config steps held (first ++ second) =
      Eval.andThen (executeProgram config steps held first)
        fun _ => executeProgram config steps held second := by
  funext m
  induction first generalizing m with
  | nil => rfl
  | cons s rest ih =>
    rw [List.cons_append, executeProgram, executeProgram]
    show Eval.andThen _ _ m = Eval.andThen (Eval.andThen _ _) _ m
    unfold Eval.andThen
    cases Lox.execute config steps held s m with
    | done flow m' => exact ih m'
    | failed fault m' => rfl
    | unfinished => rfl

variable {config steps held} {bound : Nat} {m m' x : Machine}

theorem run_accepted (piece : Accepted) (m : Machine) : run config steps held piece.source m =
    (interpret config steps held piece.program m).report := by
  rw [run, piece.compiled]
  rfl

/-- What is run in turn shows the marked programs, with the lines of each source its own. -/
theorem runInTurn_shows (pieces : List Accepted) (before : Nat) (marked : m.Calm config.idle held)
    (calm : x.Calm config.idle held) (calm' : m'.Calm config held) (top : x.AtTop)
    (same : m.Reworded (apart bound) x) (agree : x.Agree held m') :
    Report.Shows (apart bound) held
      (executeProgram config.idle steps held (Accepted.programs (markedLine bound) before pieces) m)
      (runInTurn config steps held (pieces.map Accepted.source) m') := by
  induction pieces generalizing before m m' x with
  | nil => exact .done (same.shows agree)
  | cons piece rest ih =>
    rw [Accepted.programs, executeProgram_append, List.map_cons, runInTurn, run_accepted]
    unfold Eval.andThen
    generalize marks : (onLines (markedLine bound before)).statements piece.program = program
    have reworded := (Discipline.unrestricted_separates config.idle _).executeProgram
      config.idle_idle steps held program marked (fun _ _ => rfl) same
    rw [← marks, Accepted.statements_unmarked, marks] at reworded
    have agrees := executeProgram_agrees steps piece.program calm calm' top agree
    have after := calm_executeProgram config.idle steps program marked
    have between := calm_executeProgram config.idle steps piece.program calm
    have after' : (interpret config steps held piece.program m').Sat
        (fun _ m' => m'.Calm config held) (Machine.Calm config held) :=
      Discipline.interpret_rested piece.program calm' fun _ _ => rfl
    have restored : (executeProgram config.idle steps held piece.program x).Sat
        (fun _ x' => x'.AtTop) Machine.AtTop :=
      (restores_executeProgram piece.program held x).mono
        (fun _ _ => top.of_samePlace) fun _ => top.of_samePlace
    -- Three runs of the piece end alike: the marked one, the same without marks, and the one that
    -- makes collections.
    generalize executeProgram config.idle steps held program m = ends at reworded after
    generalize executeProgram config.idle steps held piece.program x = ends'
      at reworded agrees between restored
    generalize interpret config steps held piece.program m' = ends'' at agrees after'
    cases reworded with
    | done same =>
      cases agrees with
      | done agree => exact ih _ after between after' restored same agree
    | failed same =>
      cases agrees with
      | failed agree => exact .failed (same.shows agree)
    | unfinished =>
      cases agrees with
      | unfinished => exact .unfinished

/-- The joined source shows the marked programs, with the lines where the sources stand in it. -/
theorem run_joined_shows (pieces : List Accepted) (calm : m.Calm config held) (top : m.AtTop)
    (same : m.Reworded (together bound) m) :
    Report.Shows (together bound) held (runMarked config steps held bound pieces m)
      (run config steps held (Accepted.joined pieces) m) := by
  have reworded := (Discipline.unrestricted_separates config.idle _).executeProgram
    config.idle_idle steps held (Accepted.programs (markedLine bound) 0 pieces) calm
    (fun _ _ => rfl) same
  rw [Accepted.programs_unmarked] at reworded
  rw [run, Accepted.compile_joined]
  exact reworded.shows (executeProgram_agrees steps _ calm calm top (.refl held m))

/-- Accepted sources with line feeds between them are accepted. What that does on a machine at rest
    is what the sources do in turn, up to the first one that fails: both runs show that of one
    program, whose lines are marked with how many line feeds come before their source. Lines in the
    code of earlier turns are not marked, and stay. -/
theorem run_joined {turns : List Turn} (past : Past config turns m held)
    (pieces : List Accepted) :
    (∃ program, compile (Accepted.joined pieces) = .ok program) ∧
    ∃ bound,
      Report.Shows (apart bound) held (runMarked config steps held bound pieces m)
        (runInTurn config steps held (pieces.map Accepted.source) m) ∧
      Report.Shows (together bound) held (runMarked config steps held bound pieces m)
        (run config steps held (Accepted.joined pieces) m) := by
  refine ⟨⟨_, Accepted.compile_joined pieces⟩, ?_⟩
  have calm : m.Calm config held := Discipline.rested_of_past rfl past fun _ _ _ _ => rfl
  have top := atTop_of_past past
  obtain ⟨bound, fixed⟩ := calm.settles
  exact ⟨bound, runInTurn_shows pieces 0 calm calm calm top
    (fixed _ (fixes_unmarkedLine bound _)) (.refl held m),
    run_joined_shows pieces calm top (fixed _ (fixes_unmarkedLine bound _))⟩

end Session

namespace Negation

def name : Token := ⟨.identifier, "a", none, 1⟩

def declares : Accepted where
  source := "var a;".toUTF8.toList
  program := [.varDecl name none]
  compiled := by cbv

def negates : Accepted where
  source := "-a;".toUTF8.toList
  program := [.expression (.unary ⟨.minus, "-", none, 1⟩ (.variable name none))]
  compiled := by cbv

def faultLine? : Report Unit → Option Nat
  | .failed (.runtime (.broken _ line)) _ => some line
  | _ => none

open Session

/-- The fault is on the first line of its source, which is the second line of the joined one. -/
theorem run_joined_fails :
    faultLine? (runInTurn .standard 5 [] [declares.source, negates.source] .start) = some 1 ∧
    faultLine? (run .standard 5 [] (Accepted.joined [declares, negates]) .start) = some 2 ∧
    ∃ bound,
      Report.Shows (apart bound) [] (runMarked .standard 5 [] bound [declares, negates] .start)
        (runInTurn .standard 5 [] [declares.source, negates.source] .start) ∧
      Report.Shows (together bound) [] (runMarked .standard 5 [] bound [declares, negates] .start)
        (run .standard 5 [] (Accepted.joined [declares, negates]) .start) := by
  refine ⟨?_, ?_, (run_joined .start [declares, negates]).2⟩
  · unfold declares negates
    decide +kernel
  · unfold declares negates Accepted.joined
    decide +kernel

end Negation
end Lox
