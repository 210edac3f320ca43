import Lox.Proofs.Joined.Scanning

namespace Lox

structure Scanner where
  ahead : List UInt8
  line : Nat
  done : Bool

namespace Scanner

def start (source : List UInt8) : Scanner := ⟨source, 1, false⟩

def advance (line : Nat) (source : List UInt8) : Scanned × Scanner :=
  match source with
  | [] => (.ok ⟨.eof, "", none, line⟩, ⟨[], line, true⟩)
  | first :: rest =>
    let (piece, length) := Scan.front first rest
    let bytes := first :: rest.take length
    let line := line + piece.lines bytes
    match piece.yield bytes line with
    | some item => (item, ⟨rest.drop length, line, false⟩)
    | none => advance line (rest.drop length)
termination_by source.length
decreasing_by simp only [List.length_drop, List.length_cons]; omega

def next (scanner : Scanner) : Option Scanned × Scanner :=
  if scanner.done then (none, scanner)
  else
    let (item, later) := advance scanner.line scanner.ahead
    (some item, later)

def after (calls : Nat) : Scanner → Scanner := (fun scanner => scanner.next.2)^[calls]

def items (scanner : Scanner) : List Scanned :=
  if scanner.done then [] else Scan.scanFrom scanner.line [] scanner.ahead

theorem scanFrom_advance (line : Nat) (source : List UInt8) :
    Scan.scanFrom line [] source = (advance line source).1 :: (advance line source).2.items := by
  fun_induction advance line source with
  | case1 line => rw [Scan.scanFrom]; rfl
  | case2 line first rest piece length cut bytes line' item yields =>
    rw [Scan.scanFrom_cons cut, yields]
    rfl
  | case3 line first rest piece length cut bytes line' yields ih =>
    rw [Scan.scanFrom_cons cut, yields, ← ih]
    rfl

theorem next_items (scanner : Scanner) :
    scanner.next.1 = scanner.items.head? ∧ scanner.next.2.items = scanner.items.tail := by
  unfold next
  split
  · rename_i done
    simp only [items, done, if_true, List.head?_nil, List.tail_nil, and_self]
  · rename_i going
    have first : scanner.items = (advance scanner.line scanner.ahead).1 ::
        (advance scanner.line scanner.ahead).2.items := by
      rw [← scanFrom_advance, items, if_neg going]
    rw [first]
    exact ⟨rfl, rfl⟩

theorem after_items (calls : Nat) (scanner : Scanner) :
    (scanner.after calls).items = scanner.items.drop calls := by
  induction calls generalizing scanner with
  | zero => rfl
  | succ calls ih =>
    rw [after, Function.iterate_succ_apply, ← after, ih, (next_items scanner).2, List.drop_tail]

/-- Call by call the scanner tells the tokens and errors of the source, and then nothing. -/
theorem next_after (source : List UInt8) (calls : Nat) :
    ((start source).after calls).next.1 = (scan source)[calls]? := by
  rw [(next_items _).1, after_items, List.head?_drop]
  rfl

end Scanner

namespace Scan

theorem yield_ne_eof {first : UInt8} {rest bytes : List UInt8} {piece : Piece} {length line : Nat}
    {token : Token} (cut : front first rest = (piece, length))
    (yields : piece.yield bytes line = some (.ok token)) : token.kind ≠ .eof := by
  unfold Piece.yield at yields
  cases piece with
  | blank | newline | openString | stray => simp at yields
  | token kind =>
    have others : ∀ kind ∈ TokenKind.symbols, kind ≠ .eof := by decide
    cases yields
    exact others kind (front_symbol cut)
  | number | string =>
    cases yields
    exact nofun
  | word =>
    cases yields
    exact TokenKind.ofWord_ne_eof _

/-- The end of the source comes last, and no more than one item for each byte before it. -/
theorem scanFrom_ends (line : Nat) (source : List UInt8) :
    ∃ before last, scanFrom line [] source = before ++ [.ok ⟨.eof, "", none, last⟩] ∧
      (∀ token, .ok token ∈ before → token.kind ≠ .eof) ∧ before.length ≤ source.length := by
  match source with
  | [] => exact ⟨[], line, by rw [scanFrom]; rfl, nofun, Nat.le_refl _⟩
  | first :: rest =>
    cases cut : front first rest with
    | mk piece length =>
      obtain ⟨before, last, items, inside, few⟩ := scanFrom_ends
        (line + piece.lines (first :: rest.take length)) (rest.drop length)
      rw [List.length_drop] at few
      rw [scanFrom_cons cut, items]
      cases here : piece.yield (first :: rest.take length)
          (line + piece.lines (first :: rest.take length)) with
      | none =>
        refine ⟨before, last, rfl, inside, ?_⟩
        rw [List.length_cons]
        omega
      | some item =>
        refine ⟨item :: before, last, rfl, fun token member => ?_, ?_⟩
        · rcases List.mem_cons.mp member with rfl | later
          · exact yield_ne_eof cut here
          · exact inside token later
        · rw [List.length_cons, List.length_cons]
          omega
termination_by source.length
decreasing_by simp only [List.length_drop, List.length_cons]; omega

end Scan

end Lox
