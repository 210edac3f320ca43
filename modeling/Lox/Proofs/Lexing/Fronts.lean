import Lox.Proofs.Joined.Scanning

namespace Lox

namespace Scan

structure Strange (first : UInt8) : Prop where
  single : single? first = none
  equals : withEquals? first = none
  unlisted : first ∉ [byte ' ', byte '\r', byte '\t', newline, byte '/', byte '"']
  digit : isDigit first = false
  word : isWordStart first = false

inductive Lead (first : UInt8) : Prop where
  | single {kind : TokenKind} (found : single? first = some kind)
  | equals {alone doubled : TokenKind} (found : withEquals? first = some (alone, doubled))
  | white (blank : first = byte ' ' ∨ first = byte '\r' ∨ first = byte '\t')
  | newline (feed : first = newline)
  | slash (solidus : first = byte '/')
  | quote (mark : first = byte '"')
  | digit (figure : isDigit first = true)
  | word (letter : isWordStart first = true)
  | strange (unknown : Strange first)

theorem lead (first : UInt8) : Lead first := by
  cases single : single? first with
  | some => exact .single single
  | none =>
    cases equals : withEquals? first with
    | some => exact .equals equals
    | none =>
      by_cases listed : first ∈ [byte ' ', byte '\r', byte '\t', newline, byte '/', byte '"']
      · simp only [List.mem_cons, List.not_mem_nil, or_false] at listed
        rcases listed with blank | blank | blank | feed | solidus | mark
        · exact .white (.inl blank)
        · exact .white (.inr (.inl blank))
        · exact .white (.inr (.inr blank))
        · exact .newline feed
        · exact .slash solidus
        · exact .quote mark
      · cases digit : isDigit first with
        | true => exact .digit digit
        | false =>
          cases word : isWordStart first with
          | true => exact .word word
          | false => exact .strange ⟨single, equals, listed, digit, word⟩

/-- Digits and letters start nothing else. -/
theorem plain_table : ∀ n < 0x100, isDigit (.ofNat n) = true ∨ isWordStart (.ofNat n) = true →
    single? (.ofNat n) = none ∧ withEquals? (.ofNat n) = none ∧
      (.ofNat n) ∉ [byte ' ', byte '\r', byte '\t', newline, byte '/', byte '"'] := by
  decide +kernel

theorem word_table : ∀ n < 0x100, isWordStart (.ofNat n) = true → isDigit (.ofNat n) = false := by
  decide +kernel

theorem equals_table : ∀ n < 0x100, (withEquals? (.ofNat n)).isSome = true →
    single? (.ofNat n) = none := by
  decide +kernel

theorem strange_table : ∀ n < 0x100, 0x80 ≤ n → single? (.ofNat n) = none ∧
    withEquals? (.ofNat n) = none ∧
    (.ofNat n) ∉ [byte ' ', byte '\r', byte '\t', newline, byte '/', byte '"'] ∧
    isDigit (.ofNat n) = false ∧ isWordStart (.ofNat n) = false := by
  decide +kernel

section fronts

variable {first : UInt8} (rest : List UInt8)

theorem front_single {kind : TokenKind} (found : single? first = some kind) :
    front first rest = (.token kind, 0) := by
  unfold front
  rw [found]

theorem front_equals {alone doubled : TokenKind}
    (found : withEquals? first = some (alone, doubled)) :
    front first rest =
      if rest.head? = some (byte '=') then (.token doubled, 1) else (.token alone, 0) := by
  have single := equals_table first.toNat first.toNat_lt
  rw [UInt8.ofNat_toNat, found] at single
  unfold front
  rw [single rfl, found]

theorem front_white (blank : first = byte ' ' ∨ first = byte '\r' ∨ first = byte '\t') :
    front first rest = (.blank, 0) := by
  rcases blank with rfl | rfl | rfl <;> rfl

theorem front_newline : front newline rest = (.newline, 0) := rfl

theorem front_slash : front (byte '/') rest =
    if rest.head? = some (byte '/') then (.blank, (rest.takeWhile (· != newline)).length)
    else (.token .slash, 0) := rfl

theorem front_closed {found : UInt8} {after : List UInt8}
    (here : rest.dropWhile (· != byte '"') = found :: after) :
    front (byte '"') rest = (.string, (rest.takeWhile (· != byte '"')).length + 1) := by
  unfold front
  rw [here]
  rfl

theorem front_open (never : rest.dropWhile (· != byte '"') = []) :
    front (byte '"') rest = (.openString, rest.length) := by
  have whole := rest.takeWhile_append_dropWhile (p := (· != byte '"'))
  rw [never, List.append_nil] at whole
  unfold front
  rw [never, whole]
  rfl

theorem front_plain (single : single? first = none) (equals : withEquals? first = none)
    (unlisted : first ∉ [byte ' ', byte '\r', byte '\t', newline, byte '/', byte '"']) :
    front first rest =
      if isDigit first then (.number, numberLength rest)
      else if isWordStart first then (.word, (rest.takeWhile isWordPart).length)
      else (.stray, (rest.take (strayWidth first)).length) := by
  simp only [List.mem_cons, List.not_mem_nil, or_false, not_or] at unlisted
  obtain ⟨space, feed, tab, line, slash, quote⟩ := unlisted
  unfold front
  simp only [single, equals, space, feed, tab, line, slash, quote, or_self, if_false]

theorem front_digit (digit : isDigit first = true) :
    front first rest = (.number, numberLength rest) := by
  have plain := plain_table first.toNat first.toNat_lt
  rw [UInt8.ofNat_toNat] at plain
  obtain ⟨single, equals, unlisted⟩ := plain (.inl digit)
  rw [front_plain rest single equals unlisted, if_pos digit]

theorem front_word (word : isWordStart first = true) :
    front first rest = (.word, (rest.takeWhile isWordPart).length) := by
  have plain := plain_table first.toNat first.toNat_lt
  have other := word_table first.toNat first.toNat_lt
  rw [UInt8.ofNat_toNat] at plain other
  obtain ⟨single, equals, unlisted⟩ := plain (.inr word)
  rw [front_plain rest single equals unlisted, other word, if_neg Bool.false_ne_true, if_pos word]

theorem front_strange (strange : Strange first) :
    front first rest = (.stray, (rest.take (strayWidth first)).length) := by
  rw [front_plain rest strange.single strange.equals strange.unlisted, strange.digit, strange.word,
    if_neg Bool.false_ne_true, if_neg Bool.false_ne_true]

theorem strange_of_wide (wide : 0x80 ≤ first) : Strange first := by
  have none := strange_table first.toNat first.toNat_lt (UInt8.le_iff_toNat_le.mp wide)
  rw [UInt8.ofNat_toNat] at none
  exact ⟨none.1, none.2.1, none.2.2.1, none.2.2.2.1, none.2.2.2.2⟩

theorem front_error {piece : Piece} {length : Nat} (cut : front first rest = (piece, length)) :
    (piece = .stray → Strange first) ∧
      (piece = .openString → first = byte '"' ∧ rest.dropWhile (· != byte '"') = []) := by
  cases lead first with
  | single found =>
    rw [front_single _ found] at cut
    cases cut
    exact ⟨nofun, nofun⟩
  | equals found =>
    rw [front_equals _ found] at cut
    split at cut <;> cases cut <;> exact ⟨nofun, nofun⟩
  | white blank =>
    rw [front_white _ blank] at cut
    cases cut
    exact ⟨nofun, nofun⟩
  | newline feed =>
    rw [feed, front_newline] at cut
    cases cut
    exact ⟨nofun, nofun⟩
  | slash solidus =>
    rw [solidus, front_slash] at cut
    split at cut <;> cases cut <;> exact ⟨nofun, nofun⟩
  | quote mark =>
    subst mark
    cases here : rest.dropWhile (· != byte '"') with
    | nil =>
      rw [front_open _ here] at cut
      cases cut
      exact ⟨nofun, fun _ => ⟨rfl, rfl⟩⟩
    | cons found after =>
      rw [front_closed _ here] at cut
      cases cut
      exact ⟨nofun, nofun⟩
  | digit figure =>
    rw [front_digit _ figure] at cut
    cases cut
    exact ⟨nofun, nofun⟩
  | word letter =>
    rw [front_word _ letter] at cut
    cases cut
    exact ⟨nofun, nofun⟩
  | strange unknown =>
    rw [front_strange _ unknown] at cut
    cases cut
    exact ⟨fun _ => unknown, nofun⟩

/-- A stray character takes the bytes that its first byte asks for, as far as there are any. -/
theorem front_stray {length : Nat} (cut : front first rest = (.stray, length)) :
    length = min (strayWidth first) rest.length := by
  rw [front_strange _ ((front_error rest cut).1 rfl), List.length_take] at cut
  cases cut
  rfl

theorem front_openString {length : Nat} (cut : front first rest = (.openString, length)) :
    length = rest.length := by
  obtain ⟨rfl, never⟩ := (front_error rest cut).2 rfl
  rw [front_open _ never] at cut
  cases cut
  rfl

end fronts

/-- The front of a longer source, next to that of its beginning: the same piece, or a longer one
    that is no error. -/
inductive Grown (piece : Piece) (length : Nat) (later : Piece × Nat) : Prop where
  | same (equal : later = (piece, length))
  | longer (more : length < later.2) (closed : later.1 ≠ .openString) (known : later.1 ≠ .stray)

theorem Grown.of_le {piece : Piece} {length more : Nat} (le : length ≤ more)
    (closed : piece ≠ .openString) (known : piece ≠ .stray) : Grown piece length (piece, more) := by
  rcases Nat.lt_or_eq_of_le le with longer | rfl
  · exact .longer longer closed known
  · exact .same rfl

section growing

variable (rest more : List UInt8)

theorem takeWhile_grows (test : UInt8 → Bool) :
    (rest.takeWhile test).length ≤ ((rest ++ more).takeWhile test).length := by
  rw [List.takeWhile_append]
  split
  · rename_i whole
    rw [whole, List.length_append]
    exact Nat.le_add_right _ _
  · exact Nat.le_refl _

theorem numberLength_grows : numberLength rest ≤ numberLength (rest ++ more) := by
  have whole := takeWhile_grows rest more isDigit
  have least : ∀ source, (source.takeWhile isDigit).length ≤ numberLength source := by
    intro source
    unfold numberLength
    dsimp only
    split
    · split <;> omega
    · exact Nat.le_refl _
  match here : rest.dropWhile isDigit with
  | [] | [_] =>
    unfold numberLength
    rw [here]
    exact Nat.le_trans whole (least _)
  | point :: d :: after =>
    have later := takeWhile_grows after more isDigit
    unfold numberLength
    rw [here, takeWhile_found rest more here, dropWhile_found rest more here]
    dsimp only [List.cons_append]
    split <;> omega

/-- A piece that takes all of a source is at the front of every longer source, or the beginning of
    what is there. -/
theorem front_grown {first : UInt8} {piece : Piece} (cut : front first rest = (piece, rest.length))
    (closed : piece ≠ .openString) (known : piece ≠ .stray) :
    Grown piece rest.length (front first (rest ++ more)) := by
  cases lead first with
  | single found =>
    rw [front_single _ found] at cut ⊢
    exact .same cut
  | equals found =>
    rw [front_equals _ found] at cut ⊢
    cases rest with
    | nil =>
      -- The sign that ends the shorter source may be the first of two in the longer one.
      split
      · exact .longer Nat.one_pos nofun nofun
      · exact .same cut
    | cons b rest =>
      exact .same cut
  | white blank =>
    rw [front_white _ blank] at cut ⊢
    exact .same cut
  | newline feed =>
    subst feed
    rw [front_newline] at cut ⊢
    exact .same cut
  | slash solidus =>
    subst solidus
    rw [front_slash] at cut ⊢
    cases rest with
    | nil =>
      cases more with
      | nil => exact .same cut
      | cons b more =>
        rw [List.nil_append, List.head?_cons]
        split
        · rename_i again
          cases again
          exact .longer (Nat.succ_pos _) nofun nofun
        · exact .same cut
    | cons b rest =>
      rw [List.cons_append, List.head?_cons]
      rw [List.head?_cons] at cut
      split at cut
      · rename_i again
        obtain ⟨rfl, length⟩ := Prod.mk.inj cut
        rw [if_pos again, ← length]
        exact .of_le (takeWhile_grows (b :: rest) more _) nofun nofun
      · exact absurd (Prod.mk.inj cut).2 (Nat.succ_ne_zero _).symm
  | quote mark =>
    subst mark
    cases here : rest.dropWhile (· != byte '"') with
    | nil =>
      rw [front_open rest here] at cut
      cases cut
      exact absurd rfl closed
    | cons found after =>
      rw [front_closed rest here] at cut
      rw [front_closed _ (dropWhile_found rest more here), takeWhile_found rest more here]
      exact .same cut
  | digit figure =>
    rw [front_digit _ figure] at cut ⊢
    obtain ⟨rfl, length⟩ := Prod.mk.inj cut
    rw [← length]
    exact .of_le (numberLength_grows rest more) nofun nofun
  | word letter =>
    rw [front_word _ letter] at cut ⊢
    obtain ⟨rfl, length⟩ := Prod.mk.inj cut
    rw [← length]
    exact .of_le (takeWhile_grows rest more _) nofun nofun
  | strange unknown =>
    rw [front_strange _ unknown] at cut
    exact absurd (Prod.mk.inj cut).1.symm known

end growing

end Scan
end Lox
