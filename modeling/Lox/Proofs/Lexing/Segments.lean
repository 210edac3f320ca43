import Mathlib.Data.List.Flatten
import Lox.Proofs.Lexing.Fronts

namespace Lox

namespace Scan

structure Segment where
  piece : Piece
  bytes : List UInt8
  deriving DecidableEq, Repr

def segments (source : List UInt8) : List Segment :=
  match source with
  | [] => []
  | first :: rest =>
    let (piece, length) := front first rest
    ⟨piece, first :: rest.take length⟩ :: segments (rest.drop length)
termination_by source.length
decreasing_by simp only [List.length_drop, List.length_cons]; omega

def covered (segments : List Segment) : List UInt8 := segments.flatMap Segment.bytes

/-- The line feeds that stray characters take along. -/
def swallowed (segments : List Segment) : Nat :=
  (covered (segments.filter (·.piece = .stray))).count newline

/-- The segments up to the end of the one at `index`, for a stray character up to its start. Past
    the last one these are all segments. -/
def upTo (segments : List Segment) (index : Nat) : List Segment :=
  match segments[index]? with
  | some ⟨.stray, _⟩ => segments.take index
  | _ => segments.take (index + 1)

/-- The line in the source on which the segment at `index` ends, or on which it starts if it is a
    stray character. -/
def lineOf (segments : List Segment) (index : Nat) : Nat :=
  1 + (covered (upTo segments index)).count newline

/-- What the segments yield if the one at `index` is told to be on `line index`. -/
def yielded (segments : List Segment) (line : Nat → Nat) : List Scanned :=
  segments.zipIdx.filterMap (fun (segment, index) =>
    segment.piece.yield segment.bytes (line index)) ++
    [.ok ⟨.eof, "", none, line segments.length⟩]

def LinesExact (source : List UInt8) : Prop :=
  scan source = yielded (segments source) (lineOf (segments source))

/-- Every stray character is one ASCII character, or has no byte of one. -/
def StraysAlone (source : List UInt8) : Prop :=
  ∀ segment ∈ segments source, segment.piece = .stray →
    (∃ b < 0x80, segment.bytes = [b]) ∨ ∀ b ∈ segment.bytes, 0x80 ≤ b

theorem segments_cons {first : UInt8} {rest : List UInt8} {piece : Piece} {length : Nat}
    (cut : front first rest = (piece, length)) :
    segments (first :: rest) =
      ⟨piece, first :: rest.take length⟩ :: segments (rest.drop length) := by
  rw [segments.eq_def]
  simp only [cut]

theorem covered_segments (source : List UInt8) : covered (segments source) = source := by
  fun_induction segments source with
  | case1 => rfl
  | case2 first rest piece length cut ih =>
    rw [covered, List.flatMap_cons]
    change first :: rest.take length ++ covered (segments (rest.drop length)) = first :: rest
    rw [ih, List.cons_append, List.take_append_drop]

/-- The segments from one on are those of the bytes from there on. -/
theorem segments_covered {source : List UInt8} {before after : List Segment}
    (whole : segments source = before ++ after) : segments (covered after) = after := by
  induction before generalizing source with
  | nil => rw [← List.nil_append after, ← whole, covered_segments]
  | cons segment before ih =>
    cases source with
    | nil => simp [segments] at whole
    | cons first rest =>
      cases cut : front first rest with
      | mk piece length =>
        rw [segments_cons cut, List.cons_append, List.cons.injEq] at whole
        exact ih whole.2

theorem segment_front {source : List UInt8} {before after : List Segment} {segment : Segment}
    (whole : segments source = before ++ segment :: after) :
    ∃ first rest length, covered (segment :: after) = first :: rest ∧
      front first rest = (segment.piece, length) ∧ segment.bytes = first :: rest.take length ∧
      after = segments (rest.drop length) := by
  have same := segments_covered whole
  cases bytes : covered (segment :: after) with
  | nil => simp [bytes, segments] at same
  | cons first rest =>
    cases cut : front first rest with
    | mk piece length =>
      rw [bytes, segments_cons cut, List.cons.injEq] at same
      obtain ⟨rfl, rfl⟩ := same
      exact ⟨first, rest, length, rfl, cut, rfl, rfl⟩

/-- A stray character takes the bytes that its first byte asks for, as far as there are any. -/
theorem stray_bytes {source : List UInt8} {before after : List Segment} {segment : Segment}
    (whole : segments source = before ++ segment :: after) (stray : segment.piece = .stray) :
    ∃ first rest, covered (segment :: after) = first :: rest ∧
      segment.bytes = first :: rest.take (strayWidth first) := by
  obtain ⟨first, rest, length, bytes, cut, taken, -⟩ := segment_front whole
  rw [stray] at cut
  refine ⟨first, rest, bytes, ?_⟩
  rw [taken, front_stray rest cut, ← List.take_eq_take_min]

theorem openString_last {source : List UInt8} {before after : List Segment} {segment : Segment}
    (whole : segments source = before ++ segment :: after) (opened : segment.piece = .openString) :
    after = [] := by
  obtain ⟨first, rest, length, -, cut, -, rfl⟩ := segment_front whole
  rw [opened] at cut
  rw [front_openString rest cut, List.drop_length, segments]

def counted : List Segment → Nat
  | [] => 0
  | segment :: rest => segment.piece.lines segment.bytes + counted rest

theorem count_covered (segments : List Segment) :
    (covered segments).count newline = counted segments + swallowed segments := by
  induction segments with
  | nil => rfl
  | cons segment segments ih =>
    have here : (covered (segment :: segments)).count newline =
        segment.bytes.count newline + (covered segments).count newline := by
      rw [covered, List.flatMap_cons, List.count_append, covered]
    rw [here, counted, ih]
    by_cases stray : segment.piece = .stray
    · have taken : swallowed (segment :: segments) =
          segment.bytes.count newline + swallowed segments := by
        simp only [swallowed, covered, List.filter_cons, stray, decide_true, if_true,
          List.flatMap_cons, List.count_append]
      rw [taken, stray, Piece.lines]
      omega
    · have taken : swallowed (segment :: segments) = swallowed segments := by
        simp only [swallowed, List.filter_cons, stray, decide_false, Bool.false_eq_true, if_false]
      rw [taken, Piece.lines_eq stray]
      omega

theorem counted_singleton (segment : Segment) :
    counted [segment] = segment.piece.lines segment.bytes := rfl

theorem counted_append (before after : List Segment) :
    counted (before ++ after) = counted before + counted after := by
  induction before with
  | nil => rw [List.nil_append, counted, Nat.zero_add]
  | cons segment before ih => rw [List.cons_append, counted, counted, ih, Nat.add_assoc]

/-- Up to a segment, its own lines are counted, too: a stray character has none. -/
theorem counted_upTo (before after : List Segment) (segment : Segment) :
    counted (upTo (before ++ segment :: after) before.length) =
      counted before + segment.piece.lines segment.bytes := by
  have here : (before ++ segment :: after)[before.length]? = some segment := by simp
  unfold upTo
  rw [here]
  split
  · rename_i stray
    cases stray
    rw [List.take_left]
    rfl
  · rw [← counted_singleton, ← counted_append, List.append_cons before segment after,
      List.take_left' (by simp)]

theorem counted_upTo_length (segments : List Segment) :
    counted (upTo segments segments.length) = counted segments := by
  unfold upTo
  rw [List.getElem?_eq_none (Nat.le_refl _)]
  rw [List.take_of_length_le (Nat.le_succ _)]

/-- The line that is told for a segment is the one in the source, short of the line feeds that
    stray characters took before. -/
theorem lineOf_sub_swallowed (segments : List Segment) (index : Nat) :
    lineOf segments index - swallowed (upTo segments index) =
      1 + counted (upTo segments index) := by
  rw [lineOf, count_covered]
  omega

/-- The lines are counted from piece to piece: the segments before tell on which one the scan goes
    on. -/
theorem scanFrom_yielded (before : List Segment) (source : List UInt8) :
    scanFrom (1 + counted before) [] source =
      ((segments source).zipIdx before.length).filterMap (fun (segment, index) =>
        segment.piece.yield segment.bytes
          (1 + counted (upTo (before ++ segments source) index))) ++
        [.ok ⟨.eof, "", none, 1 + counted (before ++ segments source)⟩] := by
  match source with
  | [] => simp [scanFrom, segments]
  | first :: rest =>
    cases cut : front first rest with
    | mk piece length =>
      have ih := scanFrom_yielded (before ++ [⟨piece, first :: rest.take length⟩])
        (rest.drop length)
      have lines : counted (before ++ [⟨piece, first :: rest.take length⟩]) =
          counted before + piece.lines (first :: rest.take length) := by
        rw [counted_append, counted_singleton]
      rw [lines, List.length_append, List.length_singleton, List.append_assoc,
        List.singleton_append, ← segments_cons cut, ← Nat.add_assoc] at ih
      have here := counted_upTo before (segments (rest.drop length))
        ⟨piece, first :: rest.take length⟩
      rw [← segments_cons cut] at here
      rw [scanFrom_cons cut, ih, ← List.append_assoc]
      congr 1
      conv_rhs => rw [segments_cons cut, List.zipIdx_cons, List.filterMap_cons]
      dsimp only
      rw [← segments_cons cut, here, ← Nat.add_assoc]
      cases piece.yield (first :: rest.take length)
        (1 + counted before + piece.lines (first :: rest.take length)) <;> rfl
termination_by source.length
decreasing_by simp only [List.length_drop, List.length_cons]; omega

theorem swallowed_upTo_le (segments : List Segment) (index : Nat) :
    swallowed (upTo segments index) ≤ swallowed segments := by
  have taken : ∀ count, swallowed (segments.take count) ≤ swallowed segments := fun count =>
    (((List.take_sublist count segments).filter _).flatMap _).count_le _
  unfold upTo
  split <;> exact taken _

end Scan
end Lox
