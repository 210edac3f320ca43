import Mathlib
import Lox.Proofs.Joined.Compiling
import Lox.Proofs.Machine.Restoration
import Lox.Proofs.Agreement.Sessions

namespace Lox

open Text.Utf8 (encode decode)

/-- The source of a program that prints the value of an expression. The expression can end in a
    comment, so the semicolon stands on a line of its own. -/
def printing (source : List UInt8) : List UInt8 :=
  encode "print " ++ (source ++ Scan.newline :: encode ";")

namespace Scan

theorem scanFrom_print (line : Nat) (rest : List UInt8) :
    scanFrom line [] (encode "print " ++ rest) =
      .ok ⟨.printWord, "print", none, line⟩ :: scanFrom line [] rest := by
  have word : front (byte 'p') (encode "rint" ++ byte ' ' :: rest) = (.word, 4) := rfl
  have blank : front (byte ' ') rest = (.blank, 0) := rfl
  have text : decode (encode "print") = "print" := by decide +kernel
  have yields : Piece.word.yield (encode "print") line =
      some (.ok ⟨.printWord, "print", none, line⟩) := by
    rw [Piece.yield, text]
    rfl
  show scanFrom line [] (byte 'p' :: (encode "rint" ++ byte ' ' :: rest)) = _
  rw [scanFrom_cons word]
  show (Piece.word.yield (encode "print") line).toList ++ scanFrom line [] (byte ' ' :: rest) = _
  rw [yields, scanFrom_cons blank]
  rfl

theorem scanFrom_semicolon (line : Nat) : scanFrom line [] (encode ";") =
    [.ok ⟨.semicolon, ";", none, line⟩, .ok ⟨.eof, "", none, line⟩] := by
  have single : front (byte ';') [] = (.token .semicolon, 0) := rfl
  have text : decode (encode ";") = ";" := by decide +kernel
  have yields : (Piece.token .semicolon).yield (encode ";") line =
      some (.ok ⟨.semicolon, ";", none, line⟩) := by
    rw [Piece.yield, text]
  show scanFrom line [] [byte ';'] = _
  rw [scanFrom_cons single]
  show ((Piece.token .semicolon).yield (encode ";") line).toList ++ scanFrom line [] [] = _
  rw [yields, scanFrom]
  rfl

end Scan

namespace Printing

def keyword : Token := ⟨.printWord, "print", none, 1⟩

def semicolon (line : Nat) : Token := ⟨.semicolon, ";", none, line⟩

def tokens (given : List Token) (last : Nat) : List Token := keyword :: (given ++ [semicolon last])

theorem scan_eq {source : List UInt8} {given : List Token} (reads : Scan.Reads 1 source given) :
    ∃ last, scan (printing source) =
      (tokens given last).map .ok ++ [.ok ⟨.eof, "", none, last⟩] := by
  have followed := reads.followed 0 (encode ";")
  rw [map_later_zero, Scan.scanFrom_semicolon] at followed
  refine ⟨1 + source.count Scan.newline + 1, ?_⟩
  rw [scan, printing, Scan.scanFrom_print, followed]
  simp [tokens, keyword, semicolon]

theorem inside {given : List Token} (last : Nat) (only : ∀ token ∈ given, token.kind ≠ .eof) :
    ∀ token ∈ tokens given last, token.kind ≠ .eof :=
  List.forall_mem_cons.mpr ⟨nofun, List.forall_mem_append.mpr
    ⟨only, List.forall_mem_singleton.mpr nofun⟩⟩

theorem derived {given : List Token} {e : Expr} (last : Nat)
    (expression : Grammar.Expression given e) :
    Grammar.Program True (tokens given last) [.print e] := by
  have statement : Grammar.Statement True false (tokens given last) (.print e) :=
    .print rfl expression rfl
  have program := Grammar.Declarations.cons (.statement statement) .nil
  rwa [List.append_nil] at program

theorem resolve_eq (e : Expr) :
    resolve [.print e] = ([.print (resolveExpression e).1], (resolveExpression e).2) := by
  unfold resolve resolveExpression
  simp only [Resolve.statements, Resolve.statement, List.append_nil]

/-- A source that is accepted as an expression is accepted in a program that prints its value. -/
theorem compile_eq {source : List UInt8} {e : Expr} (compiled : compileExpression source = .ok e) :
    compile (printing source) = .ok [.print e] := by
  obtain ⟨clean, tree, parsed, resolved⟩ := compileExpression_eq_ok.mp compiled
  obtain ⟨given, _, reads, alone⟩ := exists_reads clean
  rw [alone] at parsed
  have expression : Grammar.Expression given tree := expression_of_parse rfl reads.inside parsed
  obtain ⟨last, scanned⟩ := scan_eq reads
  refine compile_eq_ok.mpr ⟨[.print tree], parseProgram_eq_ok.mpr ?_, ?_⟩
  · rw [scanTokens_eq scanned]
    exact ⟨parse_of_program rfl (inside last reads.inside) (derived last expression), rfl⟩
  · rw [resolve_eq, resolved]

end Printing

def Value.line (v : Value) : ByteArray := (v.text.push '\n').toUTF8

def Machine.printed (bytes : ByteArray) (m : Machine) : Machine :=
  { m with output := m.output ++ bytes }

/-- How a program ends that prints the value of an expression, beside how the evaluation of the
    expression ends. -/
inductive Report.Prints (config : Config) (held : List Root) : Report Value → Report Unit → Prop where
  /-- The line is printed, and what can be reached stays the same. -/
  | done {v : Value} {m m' : Machine}
      (fits : ∀ capacity ∈ config.capacity?, v.line.size ≤ capacity - m.output.size)
      (agree : (m.printed v.line).Agree held m')
      (globals : m'.store.scope? m'.globals = m.store.scope? m.globals) :
      Prints config held (.done v m) (.done () m')
  /-- The output takes only a part of the line. -/
  | full {v : Value} {m : Machine} {capacity : Nat} (limited : config.capacity? = some capacity)
      (much : capacity - m.output.size < v.line.size) :
      Prints config held (.done v m) (.failed (.runtime .outputFull)
        (m.printed (v.line.extract 0 (capacity - m.output.size))))
  | failed {error : RunError} {m : Machine} :
      Prints config held (.failed error m) (.failed error m)
  | unfinished : Prints config held .unfinished .unfinished

namespace Machine

variable {config : Config} {held : List Root} {m m' : Machine} {bytes : ByteArray}

theorem Agree.globals_eq (agree : m.Agree held m') :
    m'.store.scope? m'.globals = m.store.scope? m.globals := by
  obtain ⟨within, same, inside⟩ := agree.store
  rw [← agree.globals]
  exact (same.scopes m.globals (inside (.scope m.globals) List.mem_cons_self)).symm

theorem write_of_fits
    (fits : ∀ capacity ∈ config.capacity?, bytes.size ≤ capacity - m.output.size) :
    write config bytes m = .done () (m.printed bytes) := by
  unfold write
  cases limited : config.capacity? with
  | none => rfl
  | some capacity => exact if_pos (fits capacity limited)

theorem write_of_over {capacity : Nat} (limited : config.capacity? = some capacity)
    (much : capacity - m.output.size < bytes.size) : write config bytes m =
      .failed .outputFull (m.printed (bytes.extract 0 (capacity - m.output.size))) := by
  unfold write
  rw [limited]
  exact if_neg (Nat.not_le.mpr much)

end Machine

namespace Session

variable {config : Config} {steps : Nat} {held : List Root} {m m' : Machine} {e : Expr} {v : Value}

theorem calm_of_evaluate (calm : m.Calm config held)
    (ended : Lox.evaluate config steps held e m = .done v m') : m'.Calm config held := by
  have ready : (Discipline.unrestricted config).Ready ⟨steps, held, .expression e, m⟩ [] [] :=
    calm.ready rfl rfl
  have left := ((Discipline.unrestricted config).preserves steps ready).done_of_eq ended
  exact (DisciplineData.Left.rested calm left).weaken (List.subset_append_right _ _)

def printLine (config : Config) (held : List Root) (v : Value) : Eval Unit := do
  Machine.write config v.line
  Eval.update fun m => ((), m.pause config held)

theorem interpret_print (top : m.AtTop) : interpret config (steps + 1) held [.print e] m =
    Eval.andThen (Lox.evaluate config steps held e) (printLine config held) m := by
  show Eval.andThen (executeProgram config (steps + 1) held [.print e]) _ m.atRest = _
  rw [top.atRest_eq, executeProgram, executeProgram, Lox.execute]
  show Eval.andThen (Eval.andThen (Eval.andThen (Lox.evaluate config steps held e) fun v =>
    Eval.andThen (Machine.write config v.line) fun _ => pure Flow.normal) fun _ => pure ())
      (fun _ => Eval.update fun m => ((), m.pause config held)) m = _
  unfold Eval.andThen
  cases Lox.evaluate config steps held e m with
  | done v m' =>
    show _ = Eval.andThen _ _ m'
    unfold Eval.andThen
    dsimp only
    cases Machine.write config v.line m' <;> rfl
  | failed fault m' => rfl
  | unfinished => rfl

theorem prints_line (calm : m.Calm config held) (v : Value) :
    Report.Prints config held (.done v m) (printLine config held v m).report := by
  show Report.Prints config held _ (Eval.andThen _ _ m).report
  unfold Eval.andThen
  by_cases fits : ∀ capacity ∈ config.capacity?, v.line.size ≤ capacity - m.output.size
  · rw [Machine.write_of_fits fits]
    have sound : (m.printed v.line).store.Sound ((m.printed v.line).roots held) := calm.safe.sound
    have agree := ((Machine.Agree.refl held (m.printed v.line)).pause config sound).symm
    exact .done fits agree agree.globals_eq
  · simp only [not_forall, Nat.not_le] at fits
    obtain ⟨capacity, limited, much⟩ := fits
    rw [Machine.write_of_over limited much]
    exact .full limited much

/-- Every source that is accepted as an expression is accepted in a program that prints its value.
    On a machine at rest this program ends as the evaluation does. -/
theorem run_printing {turns : List Turn} {kept : List Root} {source : List UInt8}
    (past : Past config turns m kept) (fewer : held ⊆ kept)
    (compiled : compileExpression source = .ok e) :
    compile (printing source) = .ok [.print e] ∧
    ∀ steps, Report.Prints config held (evaluate config steps held source m)
      (run config (steps + 1) held (printing source) m) := by
  refine ⟨Printing.compile_eq compiled, fun steps => ?_⟩
  have rested : m.Calm config kept := Discipline.rested_of_past rfl past fun _ _ _ _ => rfl
  have calm := rested.weaken fewer
  rw [run, Printing.compile_eq compiled, evaluate, compiled]
  show Report.Prints config held (Lox.evaluate config steps held e m).report
    (interpret config (steps + 1) held [.print e] m).report
  rw [interpret_print (atTop_of_past past), Eval.andThen]
  cases ended : Lox.evaluate config steps held e m with
  | done v m' => exact prints_line (calm_of_evaluate calm ended) v
  | failed fault m' => exact .failed
  | unfinished => exact .unfinished

def output? {α : Type} : Report α → Option ByteArray
  | .done _ m | .failed _ m => some m.output
  | .unfinished => none

private def assigning : List UInt8 := "clock = \"x\" +\n\"y\" // z".toUTF8.toList

private def assigningTokens : List Token :=
  [⟨.identifier, "clock", none, 1⟩, ⟨.equal, "=", none, 1⟩, ⟨.string, "\"x\"", some (.string "x"), 1⟩,
    ⟨.plus, "+", none, 1⟩, ⟨.string, "\"y\"", some (.string "y"), 2⟩]

private def assigningTree : Expr :=
  .assign ⟨.identifier, "clock", none, 1⟩
    (.binary (.literal (.string "x")) ⟨.plus, "+", none, 1⟩ (.literal (.string "y"))) none

/-- What is assigned is printed. -/
theorem run_printing_assignment : compileExpression assigning = .ok assigningTree ∧
    compile (printing assigning) = .ok [.print assigningTree] ∧
    output? (run .standard 5 [] (printing assigning) .start) = some "xy\n".toUTF8 ∧
    Report.Prints .standard [] (evaluate .standard 4 [] assigning .start)
      (run .standard 5 [] (printing assigning) .start) := by
  have scanned : scanTokens assigning = (assigningTokens ++ [⟨.eof, "", none, 2⟩], []) := by
    unfold assigning assigningTokens
    cbv
  have read : Parse.expression ⟨.eof, "", none, 2⟩ assigningTokens =
      .ok assigningTree [] [] (by decide) := by
    unfold assigningTokens assigningTree
    cbv
  have compiled : compileExpression assigning = .ok assigningTree := by
    refine compileExpression_eq_ok.mpr ⟨by rw [scanned], assigningTree, ?_, rfl⟩
    rw [scanned, parseExpression, Parse.untilEnd_last rfl (by decide)]
    dsimp only
    rw [read]
  obtain ⟨accepted, prints⟩ := run_printing .start (List.nil_subset []) compiled
  refine ⟨compiled, accepted, ?_, prints 4⟩
  unfold assigning printing
  decide +kernel

end Session

end Lox
