import Mathlib
import Lox.Decimal.Layout
import Lox.Json.Numeral
import Lox.Proofs.Decimal.Shortest

namespace Lox

namespace Json.Numeral

def magnitude (n : Numeral) : ℚ := n.digits * 10 ^ n.exponent

theorem value_eq (digits : List Char) : value digits = Nat.ofDigitChars 10 digits 0 :=
  Nat.ofDigitChars_eq_foldl.symm

theorem value_toDigits (n : Nat) : value (Nat.toDigits 10 n) = n := by
  rw [value_eq, Nat.ofDigitChars_ten_toDigits]

theorem value_zeros_append (zeros : Nat) (digits : List Char) :
    value (List.replicate zeros '0' ++ digits) = value digits := by
  simp [value_eq, Nat.ofDigitChars_append, Nat.ofDigitChars_replicate_zero]

theorem value_append_zeros (digits : List Char) (zeros : Nat) :
    value (digits ++ List.replicate zeros '0') = value digits * 10 ^ zeros := by
  simp [value_eq, Nat.ofDigitChars_append, Nat.ofDigitChars_replicate_zero, Nat.mul_comm]

structure Whole (digits : List Char) : Prop where
  isDigit : ∀ c ∈ digits, c.isDigit = true
  nonempty : digits ≠ []
  plain : digits.length = 1 ∨ digits.head? ≠ some '0'

theorem isDigit_toDigits (n : Nat) : ∀ c ∈ Nat.toDigits 10 n, c.isDigit = true :=
  fun _ member => Nat.isDigit_of_mem_toDigits (by omega) (by omega) member

theorem head?_toDigits {n : Nat} (positive : 0 < n) : (Nat.toDigits 10 n).head? ≠ some '0' := by
  induction n using Nat.strongRecOn with
  | _ n ih =>
    rw [Nat.toDigits_eq_if (by omega)]
    split
    · rename_i small
      interval_cases n <;> decide
    · rw [List.head?_append_of_ne_nil _ Nat.toDigits_ne_nil]
      exact ih (n / 10) (by omega) (by omega)

theorem Whole.toDigits (n : Nat) : Whole (Nat.toDigits 10 n) := by
  refine ⟨isDigit_toDigits n, Nat.toDigits_ne_nil, ?_⟩
  rcases Nat.eq_zero_or_pos n with rfl | positive
  · exact .inl rfl
  · exact .inr (head?_toDigits positive)

theorem Whole.zero : Whole ['0'] := Whole.toDigits 0

theorem Whole.single {c : Char} (digit : c.isDigit = true) : Whole [c] where
  isDigit := by simpa using digit
  nonempty := List.cons_ne_nil _ _
  plain := .inl rfl

theorem Whole.shifted {n : Nat} (positive : 0 < n) (zeros : Nat) :
    Whole (Nat.toDigits 10 n ++ List.replicate zeros '0') where
  isDigit c member := by
    rcases List.mem_append.mp member with digit | zero
    · exact isDigit_toDigits n c digit
    · rw [List.eq_of_mem_replicate zero]
      rfl
  nonempty := by simp [Nat.toDigits_ne_nil]
  plain := by
    rw [List.head?_append_of_ne_nil _ Nat.toDigits_ne_nil]
    exact .inr (head?_toDigits positive)

theorem span_append {p : Char → Bool} {front rest : List Char} (all : ∀ c ∈ front, p c = true)
    (ends : ∀ c ∈ rest.head?, p c = false) : (front ++ rest).span p = (front, rest) := by
  rw [List.span_eq_takeWhile_dropWhile, List.takeWhile_append_of_pos all,
    List.dropWhile_append_of_pos all]
  cases rest with
  | nil => simp
  | cons c more =>
    have stops : ¬ p c = true := by simp [ends c rfl]
    rw [List.takeWhile_cons_of_neg stops, List.dropWhile_cons_of_neg stops, List.append_nil]

theorem span_self {p : Char → Bool} {front : List Char} (all : ∀ c ∈ front, p c = true) :
    front.span p = (front, []) := by
  have whole : (front ++ []).span p = (front, []) := span_append all (by simp)
  rwa [List.append_nil] at whole

theorem Whole.accepted {whole : List Char} (is : Whole whole) :
    (whole.isEmpty || (whole.length != 1 && whole.head? == some '0')) = false := by
  have filled := is.nonempty
  rcases is.plain with one | other
  · simp [filled, one]
  · simp [filled, other]

theorem digits_accepted {digits : List Char} (nonempty : digits ≠ [])
    (all : ∀ c ∈ digits, c.isDigit = true) : (digits.isEmpty || !digits.all Char.isDigit) = false := by
  simp only [Bool.or_eq_false_iff, List.isEmpty_eq_false_iff, Bool.not_eq_false', List.all_eq_true]
  exact ⟨nonempty, all⟩

theorem mantissa?_whole {whole : List Char} (is : Whole whole) (negative : Bool) :
    mantissa? negative whole = some ⟨negative, value whole, 0, true⟩ := by
  unfold mantissa?
  rw [span_self is.isDigit]
  simp only [is.accepted, Bool.false_eq_true, ↓reduceIte]

theorem mantissa?_point {whole fraction : List Char} (is : Whole whole)
    (digits : ∀ c ∈ fraction, c.isDigit = true) (nonempty : fraction ≠ []) (negative : Bool) :
    mantissa? negative (whole ++ '.' :: fraction) =
      some ⟨negative, value (whole ++ fraction), -fraction.length, false⟩ := by
  have split : (whole ++ '.' :: fraction).span Char.isDigit = (whole, '.' :: fraction) :=
    span_append is.isDigit (by simp)
  unfold mantissa?
  rw [split]
  simp only [is.accepted, digits_accepted nonempty digits, Bool.false_eq_true, ↓reduceIte]

theorem power?_signed (power : Int) :
    power? ((if power < 0 then '-' else '+') :: Nat.toDigits 10 power.natAbs) = some power := by
  have accepted := digits_accepted Nat.toDigits_ne_nil (isDigit_toDigits power.natAbs)
  by_cases below : power < 0
  · simp only [power?, if_pos below, accepted, Bool.false_eq_true, ↓reduceIte, value_toDigits]
    rw [← Int.abs_eq_natAbs, abs_of_neg below, neg_neg]
  · simp only [power?, if_neg below, accepted, Bool.false_eq_true, ↓reduceIte, value_toDigits]
    rw [← Int.abs_eq_natAbs, abs_of_nonneg (not_lt.mp below)]

def unsigned? (negative : Bool) (text : List Char) : Option Numeral :=
  let (mantissa, scaled) := text.span fun c => c != 'e' && c != 'E'
  match scaled with
  | [] => mantissa? negative mantissa
  | _ :: power => do
    let n ← mantissa? negative mantissa
    let p ← power? power
    some { n with exponent := n.exponent + p, isWhole := false }

theorem ofText?_negative {text : String} {unsigned : List Char}
    (spelled : text.toList = '-' :: unsigned) : ofText? text = unsigned? true unsigned := by
  unfold ofText? unsigned?
  rw [spelled]
  rfl

theorem ofText?_positive {text : String} (bare : text.toList.head? ≠ some '-') :
    ofText? text = unsigned? false text.toList := by
  unfold ofText? unsigned?
  split
  rename_i same
  split at same
  · rename_i minus
    rw [minus] at bare
    cases bare rfl
  · cases same
    rfl

theorem ne_exponentMark_of_isDigit {c : Char} (digit : c.isDigit = true) :
    (c != 'e' && c != 'E') = true := by
  have lower : c ≠ 'e' := by rintro rfl; cases digit
  have upper : c ≠ 'E' := by rintro rfl; cases digit
  simp [lower, upper]

theorem unscaled_point {whole fraction : List Char} (front : ∀ c ∈ whole, c.isDigit = true)
    (back : ∀ c ∈ fraction, c.isDigit = true) :
    ∀ c ∈ whole ++ '.' :: fraction, (c != 'e' && c != 'E') = true := by
  intro c member
  rcases List.mem_append.mp member with inside | rest
  · exact ne_exponentMark_of_isDigit (front c inside)
  · rcases List.mem_cons.mp rest with rfl | inside
    · rfl
    · exact ne_exponentMark_of_isDigit (back c inside)

theorem unsigned?_mantissa {mantissa : List Char}
    (plain : ∀ c ∈ mantissa, (c != 'e' && c != 'E') = true) (negative : Bool) :
    unsigned? negative mantissa = mantissa? negative mantissa := by
  unfold unsigned?
  rw [span_self plain]

theorem unsigned?_power {mantissa : List Char} {n : Numeral} {negative : Bool}
    (plain : ∀ c ∈ mantissa, (c != 'e' && c != 'E') = true)
    (read : mantissa? negative mantissa = some n) (power : Int) :
    unsigned? negative
      (mantissa ++ 'e' :: (if power < 0 then '-' else '+') :: Nat.toDigits 10 power.natAbs) =
        some { n with exponent := n.exponent + power, isWhole := false } := by
  unfold unsigned?
  rw [span_append plain (by simp)]
  simp only [read, power?_signed, Option.bind_eq_bind, Option.bind_some]

theorem mantissa?_starts {negative : Bool} {text : List Char} {n : Numeral}
    (read : mantissa? negative text = some n) : ∃ c ∈ text.head?, c.isDigit = true := by
  cases text with
  | nil => cases read
  | cons c rest =>
    by_cases digit : c.isDigit = true
    · exact ⟨c, rfl, digit⟩
    · unfold mantissa? at read
      rw [List.span_eq_takeWhile_dropWhile, List.takeWhile_cons_of_neg digit] at read
      cases read

theorem unsigned?_starts {negative : Bool} {text : List Char} {n : Numeral}
    (read : unsigned? negative text = some n) : ∃ c ∈ text.head?, c.isDigit = true := by
  unfold unsigned? at read
  rw [List.span_eq_takeWhile_dropWhile] at read
  have front : ∃ c ∈ (text.takeWhile fun c => c != 'e' && c != 'E').head?, c.isDigit = true := by
    dsimp only at read
    split at read
    · exact mantissa?_starts read
    · obtain ⟨m, mantissa, _⟩ := Option.bind_eq_some_iff.mp read
      exact mantissa?_starts mantissa
  obtain ⟨c, first, digit⟩ := front
  refine ⟨c, ?_, digit⟩
  cases text with
  | nil => exact first
  | cons head rest =>
    rw [List.takeWhile_cons] at first
    split at first
    · exact first
    · cases first

def Spells (d : Decimal) (text : List Char) : Prop :=
  ∀ negative, ∃ n, unsigned? negative text = some n ∧ n.negative = negative ∧ n.magnitude = d.value

theorem Spells.point {d : Decimal} {whole fraction : List Char} (is : Whole whole)
    (digits : ∀ c ∈ fraction, c.isDigit = true) (nonempty : fraction ≠ [])
    (same : (value (whole ++ fraction) : ℚ) * 10 ^ (-fraction.length : ℤ) = d.value) :
    Spells d (whole ++ '.' :: fraction) := by
  intro negative
  have read := unsigned?_mantissa (unscaled_point is.isDigit digits) negative
  exact ⟨_, read.trans (mantissa?_point is digits nonempty negative), rfl, same⟩

theorem spells_whole {d : Decimal} {zeros : Nat} (exponent : d.exponent = .ofNat zeros)
    (zero : d.digits = 0 → d.exponent = 0) :
    Spells d (d.digitChars ++ List.replicate zeros '0' ++ ['.', '0']) := by
  have is : Whole (d.digitChars ++ List.replicate zeros '0') := by
    rcases Nat.eq_zero_or_pos d.digits with none | positive
    · have flat : zeros = 0 := by
        have := (exponent.symm.trans (zero none))
        exact Int.ofNat.inj this
      rw [flat, List.replicate_zero, List.append_nil]
      exact Whole.toDigits d.digits
    · exact Whole.shifted positive zeros
  refine Spells.point is (by simp) (List.cons_ne_nil _ _) ?_
  have filled : value (d.digitChars ++ List.replicate zeros '0' ++ ['0']) =
      d.digits * 10 ^ (zeros + 1) := by
    rw [List.append_assoc, show List.replicate zeros '0' ++ ['0'] = List.replicate (zeros + 1) '0' from
      List.replicate_succ'.symm, value_append_zeros, Decimal.digitChars, value_toDigits]
  rw [filled, Decimal.value, exponent]
  simp only [Nat.cast_mul, Nat.cast_pow, Nat.cast_ofNat, pow_succ, List.length_singleton, Nat.cast_one,
    Int.ofNat_eq_natCast, zpow_natCast, zpow_neg, zpow_one, mul_assoc]
  rw [mul_inv_cancel₀ (by norm_num), mul_one]

theorem spells_fraction {d : Decimal} {below : Nat} (exponent : d.exponent = .negSucc below)
    (positive : 0 < d.digits) : Spells d d.positional.toList := by
  let before := d.digitChars.length - (below + 1)
  let whole := d.digitChars.take before
  let fraction := List.replicate (below + 1 - d.digitChars.length) '0' ++ d.digitChars.drop before
  have text : d.positional.toList = (if whole.isEmpty then ['0'] else whole) ++ '.' :: fraction := by
    unfold Decimal.positional
    rw [exponent]
    exact String.toList_ofList
  have digits : ∀ c ∈ d.digitChars, c.isDigit = true := isDigit_toDigits d.digits
  have length : fraction.length = below + 1 := by
    simp only [fraction, before, List.length_append, List.length_replicate, List.length_drop]
    omega
  have isDigit : ∀ c ∈ fraction, c.isDigit = true := by
    intro c member
    rcases List.mem_append.mp member with zero | digit
    · rw [List.eq_of_mem_replicate zero]
      rfl
    · exact digits c (List.mem_of_mem_drop digit)
  have is : Whole (if whole.isEmpty then ['0'] else whole) := by
    split
    · exact Whole.zero
    · rename_i filled
      have nonempty : whole ≠ [] := by simpa using filled
      refine ⟨fun c member => digits c (List.mem_of_mem_take member), nonempty, .inr ?_⟩
      have front : (whole ++ d.digitChars.drop before).head? = whole.head? :=
        List.head?_append_of_ne_nil _ nonempty
      rw [List.take_append_drop] at front
      rw [← front]
      exact head?_toDigits positive
  have filled : value ((if whole.isEmpty then ['0'] else whole) ++ fraction) = d.digits := by
    -- Either all digits stand behind the point, after zeros, or none of the zeros is needed.
    have joined : value (whole ++ fraction) = d.digits := by
      by_cases long : d.digitChars.length ≤ below + 1
      · have none : before = 0 := by omega
        simp only [whole, fraction, none, List.take_zero, List.drop_zero, List.nil_append]
        rw [value_zeros_append]
        exact value_toDigits d.digits
      · have none : below + 1 - d.digitChars.length = 0 := by omega
        simp only [whole, fraction, none, List.replicate_zero, List.nil_append, List.take_append_drop]
        exact value_toDigits d.digits
    split
    · rename_i none
      rw [List.isEmpty_iff.mp none] at joined
      rw [← joined]
      exact value_zeros_append 1 fraction
    · exact joined
  rw [text]
  refine Spells.point is isDigit (by rw [← List.length_pos_iff]; omega) ?_
  rw [filled, length, Decimal.value, exponent]
  rfl

theorem spells_scientific (d : Decimal) : Spells d d.scientific.toList := by
  have power : (if d.leadingPower < 0 then "e-" else "e+").toList =
      ['e', if d.leadingPower < 0 then '-' else '+'] := by
    split <;> rfl
  have digits : ∀ c ∈ d.digitChars, c.isDigit = true := isDigit_toDigits d.digits
  have read : value d.digitChars = d.digits := value_toDigits d.digits
  have leading : d.leadingPower = d.exponent + d.digitChars.length - 1 := rfl
  intro negative
  cases shape : d.digitChars with
  | nil => exact absurd shape Nat.toDigits_ne_nil
  | cons digit more =>
    rw [shape] at digits read leading
    have first : digit.isDigit = true := digits digit List.mem_cons_self
    have others : ∀ c ∈ more, c.isDigit = true := fun c member =>
      digits c (List.mem_cons_of_mem _ member)
    cases more with
    | nil =>
      have text : d.scientific.toList = [digit] ++ 'e' ::
          (if d.leadingPower < 0 then '-' else '+') :: Nat.toDigits 10 d.leadingPower.natAbs := by
        simp [Decimal.scientific, shape, power, Nat.toList_repr]
      rw [text]
      refine ⟨_, unsigned?_power (by simpa using ne_exponentMark_of_isDigit first)
        (mantissa?_whole (Whole.single first) negative) _, rfl, ?_⟩
      have exponent : (0 : ℤ) + d.leadingPower = d.exponent := by
        rw [leading, List.length_singleton]
        omega
      simp only [magnitude, exponent, read, Decimal.value]
    | cons second rest =>
      have text : d.scientific.toList = ([digit] ++ '.' :: second :: rest) ++ 'e' ::
          (if d.leadingPower < 0 then '-' else '+') :: Nat.toDigits 10 d.leadingPower.natAbs := by
        simp [Decimal.scientific, shape, power, Nat.toList_repr]
      have whole := Whole.single first
      rw [text]
      refine ⟨_, unsigned?_power (unscaled_point whole.isDigit others)
        (mantissa?_point whole others (List.cons_ne_nil _ _) negative) _, rfl, ?_⟩
      have exponent : (-(second :: rest).length : ℤ) + d.leadingPower = d.exponent := by
        simp only [leading, List.length_cons]
        omega
      simp only [magnitude, exponent, List.singleton_append, read, Decimal.value]

theorem spells_writeShort {d : Decimal} (zero : d.digits = 0 → d.exponent = 0) :
    Spells d (NumberStyle.json.writeShort d).toList := by
  unfold NumberStyle.writeShort
  split
  · rw [String.toList_append]
    cases exponent : d.exponent with
    | ofNat zeros =>
      rw [if_pos (show 0 ≤ Int.ofNat zeros from Int.natCast_nonneg zeros)]
      have text : d.positional.toList = d.digitChars ++ List.replicate zeros '0' := by
        unfold Decimal.positional
        rw [exponent]
        exact String.toList_ofList
      rw [text]
      exact spells_whole exponent zero
    | negSucc below =>
      have positive : 0 < d.digits := by
        rcases Nat.eq_zero_or_pos d.digits with none | positive
        · rw [zero none] at exponent
          cases exponent
        · exact positive
      rw [if_neg (by omega), String.toList_empty, List.append_nil]
      exact spells_fraction exponent positive
  · exact spells_scientific d

end Json.Numeral

open Json (Numeral)
open Decimal (Binary)

theorem Json.Numeral.ofText?_repr (n : Nat) :
    Numeral.ofText? (Nat.repr n) = some ⟨false, n, 0, true⟩ := by
  have is := Numeral.Whole.toDigits n
  have bare : (Nat.repr n).toList.head? ≠ some '-' := by
    rw [Nat.toList_repr]
    intro starts
    cases is.isDigit '-' (List.mem_of_mem_head? starts)
  rw [Numeral.ofText?_positive bare, Nat.toList_repr,
    Numeral.unsigned?_mantissa fun c member => Numeral.ne_exponentMark_of_isDigit (is.isDigit c member),
    Numeral.mantissa?_whole is, Numeral.value_toDigits]

theorem NumberStyle.json_write {x : Float} {negative : Bool} {m : Nat} {e : Int}
    (finite : Binary.ofFloat x = .finite negative m e) :
    NumberStyle.json.write x =
      (if negative then "-" else "") ++ NumberStyle.json.writeShort (.shortest .even m e) := by
  have magnitude : NumberStyle.json.writeMagnitude m e =
      NumberStyle.json.writeShort (.shortest .even m e) := by
    unfold NumberStyle.writeMagnitude
    split <;> rfl
  unfold NumberStyle.write
  rw [finite]
  dsimp only
  rw [magnitude]
  cases negative <;> rfl

/-- A finite double is written as a numeral with its sign and the value of its shortest decimal. -/
theorem NumberStyle.json_write_read {x : Float} {negative : Bool} {m : Nat} {e : Int}
    (finite : Binary.ofFloat x = .finite negative m e) :
    ∃ n, Numeral.ofText? (NumberStyle.json.write x) = some n ∧ n.negative = negative ∧
      n.magnitude = (Decimal.shortest .even m e).value := by
  have zero : (Decimal.shortest .even m e).digits = 0 → (Decimal.shortest .even m e).exponent = 0 :=
    Decimal.exponent_of_no_digits (Binary.ofFloat_normalized finite)
  obtain ⟨n, read, sign, size⟩ := Numeral.spells_writeShort zero negative
  have text := NumberStyle.json_write finite
  refine ⟨n, ?_, sign, size⟩
  cases negative with
  | true =>
    rw [← read]
    exact Numeral.ofText?_negative (by rw [text]; exact String.toList_append)
  | false =>
    rw [if_neg Bool.false_ne_true, String.empty_append] at text
    obtain ⟨c, first, digit⟩ := Numeral.unsigned?_starts read
    rw [text, ← read]
    refine Numeral.ofText?_positive ?_
    rw [Option.mem_def.mp first]
    rintro ⟨⟩
    cases digit

theorem NumberStyle.json_write_isSome {x : Float} (finite : x.isFinite = true) :
    (Numeral.ofText? (NumberStyle.json.write x)).isSome = true := by
  obtain ⟨negative, m, e, taken⟩ := Binary.ofFloat_of_isFinite finite
  obtain ⟨n, read, _⟩ := NumberStyle.json_write_read taken
  rw [read]
  rfl

/-- Different finite doubles, the two zeros among them, are written differently. -/
theorem NumberStyle.json_write_injective {x y : Float} (first : x.isFinite = true)
    (second : y.isFinite = true) (same : NumberStyle.json.write x = NumberStyle.json.write y) :
    x = y := by
  obtain ⟨negative, m, e, here⟩ := Binary.ofFloat_of_isFinite first
  obtain ⟨negative', m', e', there⟩ := Binary.ofFloat_of_isFinite second
  obtain ⟨n, read, sign, size⟩ := NumberStyle.json_write_read here
  obtain ⟨n', read', sign', size'⟩ := NumberStyle.json_write_read there
  rw [same, read'] at read
  cases read
  obtain ⟨rfl, rfl⟩ := Decimal.shortest_injective (Binary.ofFloat_normalized here)
    (Binary.ofFloat_normalized there) (size.symm.trans size')
  rw [← sign, sign'] at here
  exact Binary.ofFloat_injective here there

end Lox
