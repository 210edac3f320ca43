import Mathlib.Data.List.TakeDrop
import Lox.Proofs.Rewording.Trees
import Lox.Proofs.Source.Words

namespace Lox

namespace Scan

def White (b : UInt8) : Prop := b = byte ' ' ∨ b = byte '\r' ∨ b = byte '\t' ∨ b = newline

/-- Nothing goes on with a blank, but for strings and comments. -/
theorem White.ends {mark : UInt8} (white : White mark) : isDigit mark = false ∧
    isWordPart mark = false ∧ mark ∉ [byte '.', byte '=', byte '/'] := by
  rcases white with rfl | rfl | rfl | rfl <;> decide

section seam

variable {stops : UInt8 → Bool} {mark : UInt8} (source rest : List UInt8)

theorem takeWhile_seam (ends : stops mark = false) :
    (source ++ mark :: rest).takeWhile stops = source.takeWhile stops := by
  induction source with
  | nil => simp [ends]
  | cons b source ih =>
    rw [List.cons_append, List.takeWhile_cons, List.takeWhile_cons, ih]

theorem dropWhile_seam (ends : stops mark = false) :
    (source ++ mark :: rest).dropWhile stops = source.dropWhile stops ++ mark :: rest := by
  induction source with
  | nil => simp [ends]
  | cons b source ih =>
    rw [List.cons_append, List.dropWhile_cons, List.dropWhile_cons, ih]
    split <;> rfl

theorem head_seam {b : UInt8} (other : mark ≠ b) :
    (source ++ mark :: rest).head? = some b ↔ source.head? = some b := by
  cases source with
  | nil => simp [other]
  | cons => rfl

theorem numberLength_seam (digits : isDigit mark = false) (other : mark ≠ byte '.') :
    numberLength (source ++ mark :: rest) = numberLength source := by
  unfold numberLength
  rw [takeWhile_seam source rest digits, dropWhile_seam source rest digits]
  match source.dropWhile isDigit with
  | [] => cases rest <;> simp [other]
  | [point] => simp [digits]
  | point :: d :: after => simp [takeWhile_seam after rest digits]

theorem takeWhile_found {found : UInt8} {after : List UInt8}
    (here : source.dropWhile stops = found :: after) :
    (source ++ rest).takeWhile stops = source.takeWhile stops := by
  have lengths := congrArg List.length (source.takeWhile_append_dropWhile (p := stops))
  rw [List.length_append, here, List.length_cons] at lengths
  rw [List.takeWhile_append, if_neg (by omega)]

theorem dropWhile_found {found : UInt8} {after : List UInt8}
    (here : source.dropWhile stops = found :: after) :
    (source ++ rest).dropWhile stops = found :: (after ++ rest) := by
  rw [List.dropWhile_append, here]
  rfl

/-- The front of a source does not reach across a blank, unless it is an error or a comment, which
    only a line feed ends. -/
theorem front_seam {first : UInt8} (white : White mark)
    (closed : (front first source).1 ≠ .openString) (known : (front first source).1 ≠ .stray)
    (ended : mark = newline ∨ (front first source).1 ≠ .blank) :
    front first (source ++ mark :: rest) = front first source := by
  obtain ⟨digits, words, other⟩ := white.ends
  simp only [List.mem_cons, List.not_mem_nil, or_false, not_or] at other
  obtain ⟨point, equal, solidus⟩ := other
  have equals := head_seam source rest equal
  have slash := head_seam source rest solidus
  unfold front at closed known ended ⊢
  -- In the order in which the front is looked at; each look ends before the mark or at it.
  split
  · rfl
  · simp only [equals]
  · rename_i single double
    simp only [single, double] at closed known ended
    simp only [slash, takeWhile_seam source rest words, numberLength_seam source rest digits point]
    split
    · rfl
    rename_i visible
    split
    · rfl
    rename_i inner
    split
    · rename_i solid
      split
      · rename_i again
        rcases ended with rfl | other
        · rw [takeWhile_seam source rest (by decide)]
        · rw [if_neg visible, if_neg inner, if_pos solid, if_pos again] at other
          exact absurd rfl other
      · rfl
    rename_i plain
    split
    · rename_i quote
      simp only [if_neg visible, if_neg inner, if_neg plain, if_pos quote] at closed
      cases here : source.dropWhile (· != byte '"') with
      | nil => simp [here] at closed
      | cons found after =>
        rw [takeWhile_found source _ here, dropWhile_found source _ here]
    · rename_i unquoted
      split
      · rfl
      rename_i wordy
      split
      · rfl
      rename_i strange
      simp [visible, inner, plain, unquoted, wordy, strange] at known

theorem numberLength_le : numberLength source ≤ source.length := by
  have lengths := congrArg List.length (source.takeWhile_append_dropWhile (p := isDigit))
  rw [List.length_append] at lengths
  unfold numberLength
  split
  · rename_i point d after here
    have later := (List.takeWhile_sublist (l := after) isDigit).length_le
    rw [here, List.length_cons, List.length_cons] at lengths
    dsimp only
    split <;> omega
  · dsimp only
    omega

theorem front_length_le (first : UInt8) : (front first source).2 ≤ source.length := by
  have taken : ∀ stops : UInt8 → Bool, (source.takeWhile stops).length ≤ source.length :=
    fun stops => (List.takeWhile_sublist stops).length_le
  unfold front
  split
  · exact Nat.zero_le _
  · split
    · rename_i equals
      cases source with
      | nil => cases equals
      | cons => exact Nat.succ_le_succ (Nat.zero_le _)
    · exact Nat.zero_le _
  · split
    · exact Nat.zero_le _
    split
    · exact Nat.zero_le _
    split
    · split
      · exact taken _
      · exact Nat.zero_le _
    split
    · have lengths := congrArg List.length (source.takeWhile_append_dropWhile (p := (· != byte '"')))
      rw [List.length_append] at lengths
      dsimp only
      split
      · exact taken _
      · rename_i here
        rw [here, List.length_cons] at lengths
        dsimp only
        omega
    split
    · exact numberLength_le source
    split
    · exact taken _
    · exact (List.take_sublist _ _).length_le

end seam

theorem scanFrom_append (line : Nat) (found before : List Scanned) (source : List UInt8) :
    scanFrom line (found ++ before) source = before.reverse ++ scanFrom line found source := by
  fun_induction scanFrom line found source with
  | case1 line found => simp [scanFrom]
  | case2 line found first rest piece length cut bytes line' found' ih =>
    rw [scanFrom.eq_def line (found ++ before) (first :: rest)]
    simp only [cut]
    rw [← ih]
    congr 1
    dsimp only [found', line', bytes]
    split <;> rfl

theorem scanFrom_cons {line : Nat} {first : UInt8} {rest : List UInt8} {piece : Piece}
    {length : Nat} (cut : front first rest = (piece, length)) :
    scanFrom line [] (first :: rest) =
      (piece.yield (first :: rest.take length)
        (line + piece.lines (first :: rest.take length))).toList ++
      scanFrom (line + piece.lines (first :: rest.take length)) [] (rest.drop length) := by
  rw [scanFrom.eq_def]
  simp only [cut]
  cases piece.yield (first :: rest.take length)
      (line + piece.lines (first :: rest.take length)) with
  | none => rfl
  | some item => exact scanFrom_append _ [] [item] _

theorem Piece.lines_eq {piece : Piece} (known : piece ≠ .stray) (bytes : List UInt8) :
    piece.lines bytes = bytes.count Scan.newline := by
  cases piece <;> first | rfl | exact absurd rfl known

theorem yield_later {first : UInt8} {rest bytes : List UInt8} {piece : Piece} {length line : Nat}
    (cut : front first rest = (piece, length))
    (clean : ∀ error, piece.yield bytes line ≠ some (.error error)) :
    ∃ token? : Option Token, (∀ token ∈ token?, token.kind ≠ .eof) ∧
      ∀ lines, piece.yield bytes (line + lines) =
        (token?.map (Rewording.later lines).token).map .ok := by
  unfold Piece.yield at clean ⊢
  cases piece with
  | blank | newline => exact ⟨none, by simp, fun _ => rfl⟩
  | openString | stray => exact absurd rfl (clean _)
  | token kind =>
    have others : ∀ kind ∈ TokenKind.symbols, kind ≠ .eof := by decide
    refine ⟨some ⟨kind, _, none, line⟩, ?_, fun _ => rfl⟩
    rintro _ ⟨⟩
    exact others kind (front_symbol cut)
  | number | string =>
    refine ⟨some ⟨_, _, some _, line⟩, ?_, fun _ => rfl⟩
    rintro _ ⟨⟩
    exact nofun
  | word =>
    refine ⟨some ⟨_, _, none, line⟩, ?_, fun _ => rfl⟩
    rintro _ ⟨⟩
    exact TokenKind.ofWord_ne_eof _

/-- From a line on, a source without errors yields tokens and its end, further down the same ones.
    What comes after a line feed is left as it is. -/
structure Reads (line : Nat) (source : List UInt8) (tokens : List Token) : Prop where
  inside : ∀ token ∈ tokens, token.kind ≠ .eof
  alone : ∀ lines, scanFrom (line + lines) [] source =
    (tokens.map (Rewording.later lines).token).map .ok ++
      [.ok ⟨.eof, "", none, line + source.count newline + lines⟩]
  followed : ∀ lines rest, scanFrom (line + lines) [] (source ++ newline :: rest) =
    (tokens.map (Rewording.later lines).token).map .ok ++
      scanFrom (line + source.count newline + 1 + lines) [] rest

theorem scanFrom_newline (line : Nat) (rest : List UInt8) :
    scanFrom line [] (newline :: rest) = scanFrom (line + 1) [] rest := by
  have cut : front newline rest = (.newline, 0) := rfl
  exact scanFrom_cons cut

theorem Reads.nil (line : Nat) : Reads line [] [] := by
  refine ⟨nofun, fun lines => ?_, fun lines rest => ?_⟩
  · rw [scanFrom]
    rfl
  · rw [List.nil_append, scanFrom_newline, List.count_nil, Nat.add_zero, Nat.add_right_comm]
    rfl

theorem Reads.cons {line length : Nat} {first : UInt8} {rest : List UInt8} {piece : Piece}
    {token? : Option Token} {tokens : List Token} (cut : front first rest = (piece, length))
    (closed : piece ≠ .openString) (known : piece ≠ .stray)
    (inside : ∀ token ∈ token?, token.kind ≠ .eof)
    (yields : ∀ lines, piece.yield (first :: rest.take length)
      (line + (first :: rest.take length).count newline + lines) =
        (token?.map (Rewording.later lines).token).map .ok)
    (reads : Reads (line + (first :: rest.take length).count newline) (rest.drop length) tokens) :
    Reads line (first :: rest) (token?.toList ++ tokens) := by
  have ended : ∀ lines, line + lines + piece.lines (first :: rest.take length) =
      line + (first :: rest.take length).count newline + lines := fun lines => by
    rw [Piece.lines_eq known, Nat.add_right_comm]
  have counted : (first :: rest.take length).count newline + (rest.drop length).count newline =
      (first :: rest).count newline := by
    rw [← List.count_append, List.cons_append, List.take_append_drop]
  have found : ∀ lines, ((token?.toList ++ tokens).map (Rewording.later lines).token).map
      (Except.ok (ε := LexicalError)) =
        ((token?.map (Rewording.later lines).token).map .ok).toList ++
          (tokens.map (Rewording.later lines).token).map .ok := fun lines => by
    cases token? <;> rfl
  refine ⟨?_, fun lines => ?_, fun lines after => ?_⟩
  · intro token member
    rcases List.mem_append.mp member with here | later
    · exact inside token (Option.mem_toList.mp here)
    · exact reads.inside token later
  · rw [scanFrom_cons cut, ended, yields, reads.alone, found, List.append_assoc, Nat.add_assoc line,
      counted]
  · have taken : length ≤ rest.length := by
      have le := front_length_le rest first
      rw [cut] at le
      exact le
    have same : front first (rest ++ newline :: after) = (piece, length) := by
      rw [front_seam rest after (.inr (.inr (.inr rfl))) _ _ (.inl rfl)] <;> rw [cut]
      · exact closed
      · exact known
    rw [List.cons_append, scanFrom_cons same, List.take_append_of_le_length taken,
      List.drop_append_of_le_length taken, ended, yields, reads.followed, found, List.append_assoc,
      Nat.add_assoc line, counted]

theorem reads_of_clean (line : Nat) : (source : List UInt8) →
    (∀ error, .error error ∉ scanFrom line [] source) → ∃ tokens, Reads line source tokens
  | [], _ => ⟨[], .nil line⟩
  | first :: rest, clean => by
    cases cut : front first rest with
    | mk piece length =>
      rw [scanFrom_cons cut] at clean
      have fine : ∀ error, piece.yield (first :: rest.take length)
          (line + piece.lines (first :: rest.take length)) ≠ some (.error error) :=
        fun error yields => clean error (List.mem_append_left _ (by simp [yields]))
      have closed : piece ≠ .openString := by
        rintro rfl
        exact fine _ rfl
      have known : piece ≠ .stray := by
        rintro rfl
        exact fine _ rfl
      rw [Piece.lines_eq known] at clean fine
      obtain ⟨token?, inside, yields⟩ := yield_later cut fine
      obtain ⟨tokens, reads⟩ := reads_of_clean _ (rest.drop length)
        fun error member => clean error (List.mem_append_right _ member)
      exact ⟨_, .cons cut closed known inside yields reads⟩
termination_by source => source.length
decreasing_by simp only [List.length_drop, List.length_cons]; omega

end Scan

theorem scanTokens_eq {source : List UInt8} {tokens : List Token} {eof : Token}
    (scanned : scan source = tokens.map .ok ++ [.ok eof]) :
    scanTokens source = (tokens ++ [eof], []) := by
  have whole : scan source = (tokens ++ [eof]).map .ok := by
    rw [scanned, List.map_append]
    rfl
  unfold scanTokens
  rw [whole]
  refine Prod.ext ?_ ?_
  · exact List.filterMap_map.trans List.filterMap_some
  · exact List.filterMap_map.trans (List.filterMap_eq_nil_iff.mpr fun _ _ => rfl)

theorem map_later_zero (tokens : List Token) : tokens.map (Rewording.later 0).token = tokens :=
  (List.map_congr_left (g := id) fun _ _ => rfl).trans (List.map_id tokens)

theorem exists_reads {source : List UInt8} (clean : (scanTokens source).2 = []) :
    ∃ (tokens : List Token) (last : Nat), Scan.Reads 1 source tokens ∧
      scanTokens source = (tokens ++ [⟨.eof, "", none, last⟩], []) := by
  obtain ⟨tokens, reads⟩ := Scan.reads_of_clean 1 source fun error member => by
    have noted : error ∈ (scanTokens source).2 :=
      List.mem_filterMap.mpr ⟨.error error, member, rfl⟩
    rw [clean] at noted
    cases noted
  have alone := reads.alone 0
  rw [map_later_zero] at alone
  exact ⟨tokens, _, reads, scanTokens_eq alone⟩

end Lox
