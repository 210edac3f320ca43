import Mathlib
import Lox.Proofs.Rewording.Sessions
import Lox.Proofs.Scoping.Distances
import Lox.Proofs.Renaming.Places
import Lox.Proofs.Renaming.Slots

namespace Lox

open Resolve

section run

variable {source : List UInt8} {program : List Stmt} {old new : String}
  {rename : String → List Stmt}

/-- What a source is compiled to is, with all slots empty, what it has been parsed to. -/
theorem parseProgram_of_compile (compiled : compile source = .ok program) :
    parseProgram source = .ok (Stmt.clearedAll program) := by
  obtain ⟨tree, parsed, resolved⟩ := compile_eq_ok.mp compiled
  have written := parseProgram_written parsed
  obtain ⟨rfl, _⟩ := Prod.mk.inj resolved
  rw [parsed, statements_cleared fun s member => statement_cleared (written s member)]

theorem compile_renamable (compiled : compile source = .ok program)
    (renames : Stmt.RenamesOne old program rename) :
    ∃ tree, (Resolve.statements .topLevel [] tree).tree = program ∧
      RenamableAll old .topLevel [] tree rename := by
  obtain ⟨tree, parsed, resolved⟩ := compile_eq_ok.mp compiled
  have written := parseProgram_written parsed
  obtain ⟨rfl, accepted⟩ := Prod.mk.inj resolved
  exact ⟨tree, rfl, statements_renamable written
    (fun s member => statement_renamable (written s member)) accepted renames⟩

/-- With another name for the variable, the program is what a program of the grammar is resolved
    to. -/
theorem resolve_renamed (compiled : compile source = .ok program)
    (renames : Stmt.RenamesOne old program rename) (plain : new ≠ "this" ∧ new ≠ "super")
    (fresh : new ∉ Stmt.namesAll program) (differs : new ≠ old) :
    ∃ tree, (∀ s ∈ tree, s.Written) ∧ resolve tree = (rename new, []) := by
  obtain ⟨tree, rfl, proper, resolves, _⟩ := compile_renamable compiled renames
  obtain ⟨tree', written, same⟩ := resolves new ⟨differs, proper, plain, nofun⟩ fresh
  exact ⟨tree', written, by rw [resolve, same]⟩

theorem compileTree_renamed (compiled : compile source = .ok program)
    (renames : Stmt.RenamesOne old program rename) (plain : new ≠ "this" ∧ new ≠ "super")
    (fresh : new ∉ Stmt.namesAll program) :
    compileTree (Stmt.clearedAll (rename new)) = .ok (rename new) := by
  by_cases own : new = old
  · rw [own, renames.self]
    unfold compile at compiled
    rwa [parseProgram_of_compile compiled] at compiled
  · obtain ⟨tree, written, resolved⟩ := resolve_renamed compiled renames plain fresh own
    have same : Stmt.clearedAll (rename new) = tree := by
      rw [← (Prod.mk.inj resolved).1]
      exact statements_cleared fun s member => statement_cleared (written s member)
    rw [same, compileTree, resolved]

theorem sees_renamed (compiled : compile source = .ok program)
    (renames : Stmt.RenamesOne old program rename) (plain : new ≠ "this" ∧ new ≠ "super")
    (fresh : new ∉ Stmt.namesAll program) (differs : new ≠ old) :
    Work.Sees (.program (rename new)) := by
  obtain ⟨tree, written, resolved⟩ := resolve_renamed compiled renames plain fresh differs
  obtain ⟨same, accepted⟩ := Prod.mk.inj resolved
  rw [← same]
  exact ⟨_, (statements_see (fun s member => statement_sees (written s member)) .globals
    accepted).1⟩

def Work.names : Work → List String
  | .program ss | .statements ss => Stmt.namesAll ss
  | .expression e => e.names

def longMark (bound : Nat) : String := String.ofList (List.replicate (bound + 6) 'm')

theorem ne_longMark {bound : Nat} {name : String} (short : name.length ≤ bound + 5) :
    name ≠ longMark bound := by
  rintro rfl
  rw [longMark, String.length_ofList, List.length_replicate] at short
  omega

namespace Marking

def long (bound : Nat) (name : String) (plain : name ≠ "this" ∧ name ≠ "super")
    (short : name.length ≤ bound) : Marking where
  mark := longMark bound
  name := name
  distinct := (ne_longMark (Nat.le_add_right_of_le short)).symm
  mark_plain := ⟨(ne_longMark (Nat.le_add_left 4 (bound + 1))).symm,
    (ne_longMark (Nat.le_add_left 5 bound)).symm⟩
  name_plain := plain

variable {k : Marking}

theorem long_fixes {bound : Nat} {name : String} (plain : name ≠ "this" ∧ name ≠ "super")
    (short : name.length ≤ bound) : (long bound name plain short).rewording.Fixes bound :=
  ⟨fun _ _ => rfl, fun _ fits => meant_of_ne _ (ne_longMark (Nat.le_add_right_of_le fits))⟩

theorem absent_of_fixed {names : List String}
    (fixed : ∀ name ∈ names, k.rewording.name name = name) : k.Absent names := by
  rintro _ member rfl
  exact k.distinct (k.meant_mark.symm.trans (fixed _ member)).symm

theorem launches_obey {config : Config} {steps : Nat} {keep : Flow → List Root}
    {held : List Root} {ss : List Stmt} {m : Machine} {p : Point}
    (launches : Launches config steps keep held ss m p) (obeys : ∀ s ∈ ss, s.Obeys k false) :
    p.task.Obeys k false := by
  induction launches with
  | first => exact obeys _ List.mem_cons_self
  | others _ _ ih => exact ih fun s member => obeys s (List.mem_cons_of_mem _ member)

theorem starts_obey {config : Config} {turn : Turn} {p : Point} (starts : turn.Starts config p)
    (absent : k.Absent turn.work.names) : p.task.Obeys k false := by
  cases starts with
  | program launches | statements launches =>
    exact launches_obey launches (statements_unmarked absent)
  | expression => exact expression_unmarked absent

end Marking

section runs

variable {config : Config} {turns : List Turn} {m : Machine} {held : List Root} {k : Marking}

theorem Discipline.naming_rested {config' : Config} {turns' : List Turn}
    (rested : (naming config turns k).Rested m held) :
    (naming config' turns' k).Rested m held :=
  ⟨rested.globals, rested.scope, rested.safe.sound, rested.safe.closed, rested.safe.stands,
    rested.safe.admits⟩

theorem Past.naming_rested (past : Past config turns m held)
    (sees : ∀ turn ∈ turns, turn.work.Sees) (absent : ∀ turn ∈ turns, k.Absent turn.work.names) :
    (Discipline.naming config turns k).Rested m held :=
  Discipline.rested_of_past (D := Discipline.naming config turns k) rfl past
    fun turn member _ starts => ⟨Visibility.fits_of_starts member (sees turn member) starts, false,
      .globals, Marking.starts_obey starts (absent turn member)⟩

end runs

namespace Session

variable {config : Config} {turns : List Turn} {steps : Nat} {m : Machine} {held : List Root}
  {k : Marking}

/-- The program with either name shows the program with the mark. -/
theorem interpret_renamed_shows (past : Past config turns m held)
    (sees : ∀ turn ∈ turns, turn.work.Sees) (absent : ∀ turn ∈ turns, k.Absent turn.work.names)
    (same : m.Reworded k.rewording m) (compiled : compile source = .ok program)
    (renames : Stmt.RenamesOne old program rename) (unmarked : k.Absent (Stmt.namesAll program))
    (differs : k.mark ≠ old) (known : k.name = old ∨ k.name ∉ Stmt.namesAll program) :
    Report.Shows k.rewording held (executeProgram config.idle steps held (rename k.mark) m)
      (interpret config steps held (rename k.name) m).report := by
  have fresh : k.mark ∉ Stmt.namesAll program := fun member => unmarked _ member rfl
  have seen := sees_renamed compiled renames k.mark_plain fresh differs
  have obeys : ∀ s ∈ rename k.mark, s.Obeys k false := by
    obtain ⟨tree, rfl, _, _, obeys⟩ := compile_renamable compiled renames
    exact obeys k unmarked known
  have top := atTop_of_past past
  have calm : m.Calm config held := Discipline.rested_of_past rfl past fun _ _ _ _ => rfl
  have fits : ∀ p, Launches config.idle steps (fun _ => []) held (rename k.mark) m p →
      (DisciplineData.naming config.idle [⟨steps, held, .program (rename k.mark), m⟩] k).fits
        p [] [] := by
    refine fun p launches => ⟨?_, false, .globals, Marking.launches_obey launches obeys⟩
    rw [← top.atRest_eq] at launches
    exact Visibility.fits_of_starts List.mem_cons_self seen (.program launches)
  have reworded := (Discipline.naming_separates config.idle _ k).executeProgram config.idle_idle
    steps held (rename k.mark) (Discipline.naming_rested (past.naming_rested sees absent)) fits same
  rw [renames.reworded program unmarked] at reworded
  exact reworded.shows (executeProgram_agrees steps (rename k.name) calm calm top (.refl held m))

end Session

/-- Two faults are the same but for the name of a variable that is missing. -/
inductive Fault.Renamed (old new : String) : Fault → Fault → Prop where
  | same {fault : Fault} : Renamed old new fault fault
  | missing {line : Nat} : Renamed old new (Store.undefined old line) (Store.undefined new line)

inductive Report.Renamed (old new : String) : Report Unit → Report Unit → Prop where
  | done {m m' : Machine} (output : m'.output = m.output) :
      Renamed old new (.done () m) (.done () m')
  | failed {fault fault' : Fault} {m m' : Machine} (output : m'.output = m.output)
      (renamed : fault.Renamed old new fault') :
      Renamed old new (.failed (.runtime fault) m) (.failed (.runtime fault') m')
  | unfinished : Renamed old new .unfinished .unfinished

section two

variable {k k' : Marking} {m : Machine} {held : List Root}

theorem Marking.fault_renamed (mark : k'.mark = k.mark) (fault : Fault) :
    Fault.Renamed k.name k'.name (k.rewording.fault fault) (k'.rewording.fault fault) := by
  cases fault with
  | broken cause line =>
    cases cause with
    | undefinedVariable name =>
      show Fault.Renamed _ _ (Store.undefined (k.meant name) line)
        (Store.undefined (k'.meant name) line)
      by_cases marked : name = k.mark
      · rw [marked, k.meant_mark, ← mark, k'.meant_mark]
        exact .missing
      · rw [k.meant_of_ne marked, k'.meant_of_ne (mark ▸ marked)]
        exact .same
    | _ => exact .same
  | stackOverflow _ | outputFull => exact .same

/-- What shows the same program with the mark differs at most in the names that it stands for. -/
theorem Session.Report.Shows.renamed {ends : Outcome Unit} {first second : Report Unit}
    (mark : k'.mark = k.mark) (one : Session.Report.Shows k.rewording held ends first)
    (two : Session.Report.Shows k'.rewording held ends second) :
    first.Renamed k.name k'.name second := by
  cases one with
  | done one =>
    cases two with
    | done two => exact .done (two.output.trans one.output.symm)
  | failed one =>
    cases two with
    | failed two => exact .failed (two.output.trans one.output.symm) (k.fault_renamed mark _)
  | unfinished =>
    cases two with
    | unfinished => exact .unfinished

/-- For all short names there is a mark that is new to the machine and to all programs. -/
theorem exists_mark {config : Config} (calm : m.Calm config held) (names : List String)
    (bound : Nat) : ∃ mark, ∀ name : String, name.length ≤ bound →
      name ≠ "this" ∧ name ≠ "super" → ∃ k : Marking, k.mark = mark ∧ k.name = name ∧
        m.Reworded k.rewording m ∧ k.Absent names := by
  obtain ⟨enough, fixed⟩ :=
    calm.settles.and (Rewording.Settles.forall_mem names fun name _ => Rewording.settles_name name)
  refine ⟨longMark (max enough bound), fun name short plain => ?_⟩
  have fits := Nat.le_trans short (Nat.le_max_right enough bound)
  obtain ⟨same, kept⟩ :=
    fixed _ ((Marking.long_fixes plain fits).mono (Nat.le_max_left enough bound))
  exact ⟨.long _ name plain fits, rfl, rfl, same, Marking.absent_of_fixed kept⟩

end two

namespace Session

variable {config : Config} {turns : List Turn} {steps : Nat} {m : Machine} {held : List Root}

/-- A local variable of an accepted source may have any other name that occurs nowhere in the program.
    What declares the variable and the uses whose distances lead to its scope get this name. The
    program is accepted again with the same distances, and on a machine at rest it prints the same
    and ends the same way, but for the name in a fault. -/
theorem run_renamed (past : Past config turns m held)
    (sources : ∀ turn ∈ turns, ∃ request : Request, request.work = .ok turn.work)
    (compiled : compile source = .ok program) (renames : Stmt.RenamesOne old program rename)
    (word : TokenKind.ofWord new = .identifier) (fresh : new ∉ Stmt.namesAll program) :
    parseProgram source = .ok (Stmt.clearedAll program) ∧
    compileTree (Stmt.clearedAll (rename new)) = .ok (rename new) ∧
    Stmt.slotsAll (rename new) = Stmt.slotsAll program ∧
    (run config steps held source m).Renamed old new
      (interpret config steps held (rename new) m).report ∧
    ∀ source', parseProgram source' = .ok (Stmt.clearedAll (rename new)) →
      compile source' = .ok (rename new) ∧
      (run config steps held source m).Renamed old new (run config steps held source' m) := by
  have plain : new ≠ "this" ∧ new ≠ "super" := by
    refine ⟨?_, ?_⟩ <;> rintro rfl <;> revert word <;> decide
  have proper : old ≠ "this" ∧ old ≠ "super" := by
    obtain ⟨_, _, renamable⟩ := compile_renamable compiled renames
    exact renamable.plain
  have accepted := compileTree_renamed compiled renames plain fresh
  have sees := sees_of_sources sources
  have calm : m.Calm config held := Discipline.rested_of_past rfl past fun _ _ _ _ => rfl
  -- Both runs are compared with a third one, whose name occurs nowhere in the session.
  obtain ⟨mark, marks⟩ := exists_mark calm
    (old :: Stmt.namesAll program ++ turns.flatMap fun turn => turn.work.names)
    (max old.length new.length)
  have marked : ∀ name : String, name.length ≤ max old.length new.length →
      name ≠ "this" ∧ name ≠ "super" → (name = old ∨ name ∉ Stmt.namesAll program) →
      ∃ k : Marking, k.mark = mark ∧ k.name = name ∧ Report.Shows k.rewording held
        (executeProgram config.idle steps held (rename mark) m)
        (interpret config steps held (rename name) m).report := by
    intro name short plain known
    obtain ⟨k, rfl, rfl, same, absent⟩ := marks name short plain
    obtain ⟨here, before⟩ := absent.append
    refine ⟨k, rfl, rfl, interpret_renamed_shows past sees (fun turn member => ?_) same compiled
      renames here.cons.2 here.cons.1.symm known⟩
    exact fun other inside => before other (List.mem_flatMap.mpr ⟨turn, member, inside⟩)
  obtain ⟨k, rfl, rfl, one⟩ := marked old (Nat.le_max_left _ _) proper (.inl rfl)
  obtain ⟨k', mark, rfl, two⟩ := marked new (Nat.le_max_right _ _) plain (.inr fresh)
  have ran : run config steps held source m = (interpret config steps held program m).report := by
    rw [run, compiled]
    rfl
  rw [renames.self, ← ran] at one
  have renamed := one.renamed mark two
  refine ⟨parseProgram_of_compile compiled, accepted, renames.slots _ program, renamed,
    fun source' parsed => ?_⟩
  have compiled' : compile source' = .ok (rename k'.name) := by
    unfold compile
    rw [parsed]
    exact accepted
  refine ⟨compiled', ?_⟩
  unfold run at renamed ⊢
  rw [compiled']
  exact renamed

end Session

end run

namespace Shadowing

def name : Token := ⟨.identifier, "a", none, 1⟩

def source : List UInt8 := "var a; { var a = a = nil; }".toUTF8.toList

def renamedSource : List UInt8 := "var a; { var b = b = nil; }".toUTF8.toList

def body : List Stmt := [.varDecl name (some (.assign name (.literal .nil) (some 0)))]

def rename (new : String) : List Stmt :=
  [.varDecl name none, .block (Stmt.renamedAll "a" new 0 body)]

def fault? : Report Unit → Option Fault
  | .failed (.runtime fault) _ => some fault
  | _ => none

open Session

/-- Both sources fail alike, and the fault has the name of the local variable. -/
theorem run_renamed_fails :
    fault? (run .standard 6 [] source .start) = some (Store.undefined "a" 1) ∧
    fault? (run .standard 6 [] renamedSource .start) = some (Store.undefined "b" 1) ∧
    (run .standard 6 [] source .start).Renamed "a" "b"
      (run .standard 6 [] renamedSource .start) := by
  have declares : DeclaresVariable "a" body := ⟨name, _, .head _, rfl⟩
  have compiled : compile source = .ok [.varDecl name none, .block body] := by
    unfold source
    cbv
  have parsed : parseProgram renamedSource = .ok (Stmt.clearedAll (rename "b")) := by
    unfold renamedSource
    cbv
  have word : TokenKind.ofWord "b" = .identifier := by decide
  obtain ⟨_, _, _, _, others⟩ := run_renamed .start (List.forall_mem_nil _) compiled
    (.tail (.head (.block declares)) : Stmt.RenamesOne "a" _ rename) word (by decide)
  refine ⟨?_, ?_, (others renamedSource parsed).2⟩
  · unfold source
    decide +kernel
  · unfold renamedSource
    decide +kernel

end Shadowing

end Lox
