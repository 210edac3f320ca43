import Mathlib
import Lox.Json.Reader
import Lox.Proofs.Json.Numerals

namespace Lox.Json

inductive Proper : Json → Prop
  | null : Proper .null
  | bool (value : Bool) : Proper (.bool value)
  | number {numeral : String} (readable : (Numeral.ofText? numeral).isSome = true) :
      Proper (.number numeral)
  | string (text : String) : Proper (.string text)
  | array {items : List Json} (each : ∀ item ∈ items, Proper item) : Proper (.array items)
  | object {fields : List (String × Json)} (each : ∀ field ∈ fields, Proper field.2) :
      Proper (.object fields)

theorem Proper.nat (n : Nat) : Proper (.nat n) := .number (by rw [Numeral.ofText?_repr]; rfl)

namespace Reader

theorem isWordChar_of_isDigit {c : Char} (digit : c.isDigit = true) : isWordChar c = true := by
  simp [isWordChar, Char.isAlphanum, digit]

theorem isWordChar_of_accepted {digits : List Char}
    (accepted : ¬ (digits.isEmpty || !digits.all Char.isDigit) = true) :
    ∀ c ∈ digits, isWordChar c = true := by
  simp only [Bool.or_eq_true, Bool.not_eq_true', not_or, Bool.not_eq_false, List.all_eq_true] at accepted
  exact fun c member => isWordChar_of_isDigit (accepted.2 c member)

theorem isWordChar_of_mantissa? {negative : Bool} {text : List Char} {n : Numeral}
    (read : Numeral.mantissa? negative text = some n) : ∀ c ∈ text, isWordChar c = true := by
  unfold Numeral.mantissa? at read
  rw [List.span_eq_takeWhile_dropWhile] at read
  dsimp only at read
  intro c member
  rw [← List.takeWhile_append_dropWhile (p := Char.isDigit) (l := text), List.mem_append] at member
  rcases member with front | back
  · exact isWordChar_of_isDigit (List.mem_takeWhile_imp front)
  · split at read
    · cases read
    · split at read
      · rename_i none
        rw [none] at back
        cases back
      · rename_i fraction point
        rw [point] at back
        split at read
        · cases read
        · rename_i accepted
          rcases List.mem_cons.mp back with rfl | inside
          · decide
          · exact isWordChar_of_accepted accepted c inside
      · cases read

theorem isWordChar_of_power? {text : List Char} {power : Int}
    (read : Numeral.power? text = some power) : ∀ c ∈ text, isWordChar c = true := by
  have allDigits {digits : List Char} {value : Int}
      (read : (if digits.isEmpty || !digits.all Char.isDigit then none else some value) = some power) :
      ∀ c ∈ digits, isWordChar c = true := by
    split at read
    · cases read
    · rename_i accepted
      exact isWordChar_of_accepted accepted
  unfold Numeral.power? at read
  split at read
  rename_i same
  split at same <;> cases same
  · exact List.forall_mem_cons.mpr ⟨by decide, allDigits read⟩
  · exact List.forall_mem_cons.mpr ⟨by decide, allDigits read⟩
  · exact allDigits read

theorem isWordChar_of_unsigned? {negative : Bool} {text : List Char} {n : Numeral}
    (read : Numeral.unsigned? negative text = some n) : ∀ c ∈ text, isWordChar c = true := by
  unfold Numeral.unsigned? at read
  rw [List.span_eq_takeWhile_dropWhile] at read
  dsimp only at read
  intro c member
  rw [← List.takeWhile_append_dropWhile (p := fun c => c != 'e' && c != 'E') (l := text),
    List.mem_append] at member
  split at read
  · rename_i none
    rw [none] at member
    exact isWordChar_of_mantissa? read c (member.resolve_right (by simp))
  · rename_i mark power scaled
    obtain ⟨m, mantissa, read⟩ := Option.bind_eq_some_iff.mp read
    obtain ⟨p, exponent, _⟩ := Option.bind_eq_some_iff.mp read
    have marks : mark = 'e' ∨ mark = 'E' := by
      have stops := List.head_dropWhile_not (fun c => c != 'e' && c != 'E')
        (l := text) (by rw [scaled]; exact List.cons_ne_nil _ _)
      simp only [scaled, List.head_cons, Bool.and_eq_false_iff, bne_eq_false_iff_eq] at stops
      exact stops
    rw [scaled] at member
    rcases member with front | back
    · exact isWordChar_of_mantissa? mantissa c front
    · rcases List.mem_cons.mp back with rfl | inside
      · rcases marks with rfl | rfl <;> decide
      · exact isWordChar_of_power? exponent c inside

theorem isWordChar_of_ofText? {text : String} {n : Numeral} (read : Numeral.ofText? text = some n) :
    ∀ c ∈ text.toList, isWordChar c = true := by
  by_cases signed : text.toList.head? = some '-'
  · obtain ⟨unsigned, spelled⟩ := List.head?_eq_some_iff.mp signed
    rw [Numeral.ofText?_negative spelled] at read
    rw [spelled]
    exact List.forall_mem_cons.mpr ⟨by decide, isWordChar_of_unsigned? read⟩
  · rw [Numeral.ofText?_positive signed] at read
    exact isWordChar_of_unsigned? read

theorem starts_of_ofText? {text : String} {n : Numeral} (read : Numeral.ofText? text = some n) :
    ∃ c ∈ text.toList.head?, c = '-' ∨ c.isDigit = true := by
  by_cases signed : text.toList.head? = some '-'
  · exact ⟨'-', signed, .inl rfl⟩
  · rw [Numeral.ofText?_positive signed] at read
    obtain ⟨c, first, digit⟩ := Numeral.unsigned?_starts read
    exact ⟨c, first, .inr digit⟩

theorem wordValue?_numeral {numeral : String} (readable : (Numeral.ofText? numeral).isSome = true) :
    wordValue? numeral = some (.number numeral) := by
  obtain ⟨n, read⟩ := Option.isSome_iff_exists.mp readable
  have other {word : String} {c : Char} (first : word.toList.head? = some c) (sign : c ≠ '-')
      (digit : c.isDigit = false) : numeral ≠ word := by
    rintro rfl
    obtain ⟨head, starts, isSign | isDigit⟩ := starts_of_ofText? read
    all_goals cases first.symm.trans starts
    · exact sign isSign
    · rw [digit] at isDigit
      cases isDigit
  have notNull : numeral ≠ "null" := @other _ 'n' rfl (by decide) rfl
  have notTrue : numeral ≠ "true" := @other _ 't' rfl (by decide) rfl
  have notFalse : numeral ≠ "false" := @other _ 'f' rfl (by decide) rfl
  simp only [wordValue?, if_neg notNull, if_neg notTrue, if_neg notFalse, read, Option.map_some]

variable {r r' : Reader} {out : String}

/-- After `out` the reader is at `r`, with no word pending. -/
structure At (out : String) (r : Reader) : Prop where
  idle : r.reading = .between
  reads : out.toList.foldlM feed start = some r

/-- After `out` the reader is at `r` as soon as the word that is pending ends. -/
def Arrives (out : String) (r : Reader) : Prop :=
  r.reading = .between ∧
    ∃ pending, out.toList.foldlM feed start = some pending ∧ pending.closeWord = some r

theorem At.arrives (here : At out r) : Arrives out r := by
  refine ⟨here.idle, r, here.reads, ?_⟩
  unfold closeWord
  rw [here.idle]

theorem foldlM_push {c : Char} (reads : out.toList.foldlM feed start = some r) :
    (out.push c).toList.foldlM feed start = r.feed c := by
  rw [String.toList_push, List.foldlM_append, reads]
  simp

theorem foldlM_append {text : String} (reads : out.toList.foldlM feed start = some r) :
    (out ++ text).toList.foldlM feed start = text.toList.foldlM feed r := by
  rw [String.toList_append, List.foldlM_append, reads]
  rfl

/-- A mark ends a pending word. -/
theorem Arrives.mark {c : Char} (arrives : Arrives out r) (mark : isWordChar c = false)
    (read : r.punctuation c = some r') (between : r'.reading = .between) : At (out.push c) r' := by
  obtain ⟨quiet, pending, reads, closed⟩ := arrives
  refine ⟨between, ?_⟩
  rw [foldlM_push reads, ← read]
  unfold feed
  split
  · rename_i idle
    unfold closeWord at closed
    rw [idle] at closed
    cases closed
    rfl
  · rw [closed, if_neg (by simp [mark])]
    rfl
  all_goals
    rename_i busy
    unfold closeWord at closed
    rw [busy] at closed
    cases closed
    rw [quiet] at busy
    cases busy

theorem Arrives.blank {c : Char} (arrives : Arrives out r) (blank : c = ' ' ∨ c = '\n') :
    At (out.push c) r := by
  rcases blank with rfl | rfl <;> exact arrives.mark (by decide) rfl arrives.1

theorem put_between {value : Json} (put : r.put value = some r') : r'.reading = .between := by
  unfold Reader.put at put
  split at put
  · split at put <;> cases put <;> rfl
  · cases put

theorem feed_word {chars : List Char} (pending : r.reading = .word chars) {rest : List Char}
    (all : ∀ c ∈ rest, isWordChar c = true) :
    rest.foldlM feed r = some { r with reading := .word (rest.reverse ++ chars) } := by
  induction rest generalizing r chars with
  | nil =>
    obtain ⟨_, _, _, _⟩ := r
    cases pending
    rfl
  | cons c rest ih =>
    have first : r.feed c = some { r with reading := .word (c :: chars) } := by
      unfold feed
      rw [pending]
      exact if_pos (all c List.mem_cons_self)
    rw [List.foldlM_cons, first]
    refine (ih rfl fun c member => all c (List.mem_cons_of_mem _ member)).trans ?_
    simp

theorem punctuation_word {c : Char} (word : isWordChar c = true) :
    r.punctuation c = some { r with reading := .word [c] } := by
  unfold punctuation
  split <;> first | exact absurd word (by decide) | exact if_pos word

theorem At.word {word : String} {value : Json} (here : At out r)
    (all : ∀ c ∈ word.toList, isWordChar c = true) (nonempty : word.toList ≠ [])
    (read : wordValue? word = some value) (put : r.put value = some r') : Arrives (out ++ word) r' := by
  refine ⟨put_between put, { r with reading := .word word.toList.reverse }, ?_, ?_⟩
  · rw [foldlM_append here.reads]
    cases spelled : word.toList with
    | nil => exact absurd spelled nonempty
    | cons c rest =>
      rw [spelled] at all
      have first : r.feed c = some { r with reading := .word [c] } := by
        unfold feed
        rw [here.idle]
        exact punctuation_word (all c List.mem_cons_self)
      rw [List.foldlM_cons, first]
      refine (feed_word rfl fun c member => all c (List.mem_cons_of_mem _ member)).trans ?_
      simp
  · unfold closeWord
    dsimp only
    rw [List.reverse_reverse, String.ofList_toList, read]
    obtain ⟨_, _, _, _⟩ := r
    cases here.idle
    exact put

theorem hexValue?_digitChar : ∀ n < 16, hexValue? (Nat.digitChar n) = some n := by decide

theorem feed_digit {sofar : String} {high? : Option Nat} {digits bits value : Nat} {c : Char}
    (hex : hexValue? c = some value) :
    feed { r with reading := .unit sofar high? digits bits } c =
      if digits < 3 then some { r with reading := .unit sofar high? (digits + 1) (16 * bits + value) }
      else putUnit { r with reading := .unit sofar high? digits bits } sofar high?
        (16 * bits + value) := by
  unfold feed
  dsimp only
  rw [hex]
  rfl

theorem foldlM_escape (sofar : String) (c : Char) :
    (escape c).foldlM feed { r with reading := .text sofar } =
      some { r with reading := .text (sofar.push c) } := by
  unfold escape
  split
  iterate 7 rfl
  rename_i quote backslash _ _ _ _ _
  split
  · rename_i control
    have high : hexValue? (hexDigit (c.toNat / 16)) = some (c.toNat / 16 % 16) :=
      hexValue?_digitChar _ (by omega)
    have low : hexValue? (hexDigit c.toNat) = some (c.toNat % 16) :=
      hexValue?_digitChar _ (by omega)
    have bits : 16 * (c.toNat / 16 % 16) + c.toNat % 16 = c.toNat := by omega
    have plain {r : Reader} : putUnit r sofar none c.toNat =
        some { r with reading := .text (sofar.push c) } := by
      unfold putUnit
      dsimp only
      rw [if_neg (by omega), if_neg (by omega), Char.ofNat_toNat]
    have zeros : ['\\', 'u', '0', '0'].foldlM feed { r with reading := .text sofar } =
        some { r with reading := .unit sofar none 2 0 } := rfl
    show (['\\', 'u', '0', '0'] ++ [_, _]).foldlM feed _ = _
    rw [List.foldlM_append, zeros, Option.bind_eq_bind, Option.bind_some, List.foldlM_cons,
      feed_digit high, if_pos (by omega), Option.bind_eq_bind, Option.bind_some, List.foldlM_cons,
      feed_digit low, if_neg (by omega), Nat.mul_zero, Nat.zero_add, bits, plain]
    rfl
  · rename_i visible
    have fed : feed { r with reading := .text sofar } c =
        some { r with reading := .text (sofar.push c) } := by
      unfold feed
      dsimp only
      split
      · exact absurd rfl quote
      · exact absurd rfl backslash
      · exact if_neg visible
    rw [List.foldlM_cons, fed]
    rfl

theorem foldlM_escapes (sofar : String) (text : List Char) :
    (text.flatMap escape).foldlM feed { r with reading := .text sofar } =
      some { r with reading := .text (sofar ++ .ofList text) } := by
  induction text generalizing sofar with
  | nil => simp
  | cons c rest ih =>
    rw [List.flatMap_cons, List.foldlM_append, foldlM_escape]
    refine (ih (sofar.push c)).trans ?_
    simp [← String.toList_inj]

theorem putText_between {text : String} (put : r.putText text = some r') : r'.reading = .between := by
  unfold putText at put
  split at put
  · split at put <;> cases put
    rfl
  · exact put_between put

theorem At.quote {text : String} (here : At out r) (put : r.putText text = some r') :
    At (out ++ quote text) r' := by
  refine ⟨putText_between put, ?_⟩
  have opened : r.feed '"' = some { r with reading := .text "" } := by
    unfold feed punctuation
    rw [here.idle]
    rfl
  have closed : feed { r with reading := .text text } '"' = some r' := by
    obtain ⟨_, _, _, _⟩ := r
    cases here.idle
    exact put
  have inside : (text.toList.flatMap escape).foldlM feed { r with reading := .text "" } =
      some { r with reading := .text text } := by
    rw [foldlM_escapes, String.ofList_toList, String.empty_append]
  rw [foldlM_append here.reads, Json.quote, String.toList_ofList, List.foldlM_cons, opened]
  show List.foldlM feed _ _ = _
  rw [List.foldlM_append, inside, Option.bind_eq_bind, Option.bind_some, List.foldlM_cons, closed]
  rfl

variable {stack : List Open} {expected : Expected} {root? : Option Json} {first : Bool}

abbrev between (stack : List Open) (expected : Expected) (root? : Option Json) : Reader :=
  ⟨stack, expected, .between, root?⟩

def ValueDue (expected : Expected) : Prop := expected = .value ∨ expected = .firstItem

/-- After `out` the next item or field is due; the first one is due as `opened`. -/
def Due (out : String) (first : Bool) (stack : List Open) (opened : Expected) (root? : Option Json) :
    Prop :=
  if first then At out (between stack opened root?) else Arrives out (between stack .next root?)

theorem put_due {value : Json} (due : ValueDue expected) :
    (between stack expected root?).put value = (between stack .value root?).put value := by
  rcases due with rfl | rfl <;> rfl

theorem put_item {item : Json} {items : List Json} (due : ValueDue expected) :
    (between (.array items :: stack) expected root?).put item =
      some (between (.array (item :: items) :: stack) .next root?) := by
  rw [put_due due]
  rfl

theorem At.openArray (here : At out (between stack expected root?)) (due : ValueDue expected) :
    Due (out.push '[') true (.array [] :: stack) .firstItem root? := by
  rcases due with rfl | rfl
  · exact here.arrives.mark (by decide) rfl rfl
  · exact here.arrives.mark (by decide) rfl rfl

theorem At.openObject (here : At out (between stack expected root?)) (due : ValueDue expected) :
    Due (out.push '\x7b') true (.object [] :: stack) .firstName root? := by
  rcases due with rfl | rfl
  · exact here.arrives.mark (by decide) rfl rfl
  · exact here.arrives.mark (by decide) rfl rfl

theorem Due.item {items : List Json} (due : Due out first (.array items :: stack) .firstItem root?) :
    ∃ expected, ValueDue expected ∧
      At (if first then out else out.push ',') (between (.array items :: stack) expected root?) := by
  cases first with
  | true => exact ⟨.firstItem, .inr rfl, due⟩
  | false => exact ⟨.value, .inl rfl, Arrives.mark due (by decide) rfl rfl⟩

theorem Due.name {fields : List (String × Json)}
    (due : Due out first (.object fields :: stack) .firstName root?) :
    ∃ expected, (expected = .name ∨ expected = .firstName) ∧
      At (if first then out else out.push ',') (between (.object fields :: stack) expected root?) := by
  cases first with
  | true => exact ⟨.firstName, .inr rfl, due⟩
  | false => exact ⟨.name, .inl rfl, Arrives.mark due (by decide) rfl rfl⟩

/-- A mark that is read alike after the last item and where the first one is still due. -/
theorem Due.mark {opened : Expected} {c : Char} (due : Due out first stack opened root?)
    (mark : isWordChar c = false)
    (afterLast : first = false → (between stack .next root?).punctuation c = some r')
    (atOnce : first = true → (between stack opened root?).punctuation c = some r')
    (idle : r'.reading = .between) : Arrives (out.push c) r' := by
  have read : At (out.push c) r' := by
    cases first with
    | true => exact (At.arrives due).mark mark (atOnce rfl) idle
    | false => exact Arrives.mark due mark (afterLast rfl) idle
  exact read.arrives

theorem Due.closeArray {items : List Json}
    (due : Due out first (.array items :: stack) .firstItem root?) (empty : first = true → items = [])
    (put : (between stack .value root?).put (.array items.reverse) = some r') :
    Arrives (out.push ']') r' := by
  refine due.mark (by decide) (fun _ => put) ?_ (put_between put)
  intro none
  rw [empty none] at put
  exact put

theorem Due.closeObject {fields : List (String × Json)}
    (due : Due out first (.object fields :: stack) .firstName root?)
    (empty : first = true → fields = [])
    (put : (between stack .value root?).put (.object fields.reverse) = some r') :
    Arrives (out.push '\x7d') r' := by
  refine due.mark (by decide) (fun _ => put) ?_ (put_between put)
  intro none
  rw [empty none] at put
  exact put

theorem At.name {fields : List (String × Json)}
    (here : At out (between (.object fields :: stack) expected root?))
    (due : expected = .name ∨ expected = .firstName) (name : String) :
    At ((out ++ Json.quote name).push ':') (between (.field fields name :: stack) .value root?) := by
  have named : At (out ++ Json.quote name) (between (.field fields name :: stack) .colon root?) := by
    apply here.quote
    rcases due with rfl | rfl <;> rfl
  exact named.arrives.mark (by decide) rfl rfl

theorem At.literal {value : Json} {word : String} (here : At out (between stack expected root?))
    (put : (between stack expected root?).put value = some r')
    (is : value = .null ∧ word = "null" ∨ value = .bool true ∧ word = "true" ∨
      value = .bool false ∧ word = "false") : Arrives (out ++ word) r' := by
  rcases is with ⟨rfl, rfl⟩ | ⟨rfl, rfl⟩ | ⟨rfl, rfl⟩ <;>
    exact here.word (List.all_eq_true.mp rfl) (by simp) (by simp [wordValue?]) put

theorem At.number {numeral : String} (here : At out (between stack expected root?))
    (readable : (Numeral.ofText? numeral).isSome = true)
    (put : (between stack expected root?).put (.number numeral) = some r') :
    Arrives (out ++ numeral) r' := by
  obtain ⟨n, read⟩ := Option.isSome_iff_exists.mp readable
  obtain ⟨c, starts, _⟩ := starts_of_ofText? read
  refine here.word (isWordChar_of_ofText? read) ?_ (wordValue?_numeral readable) put
  rintro none
  rw [none] at starts
  cases starts

theorem At.string {text : String} (here : At out (between stack expected root?))
    (due : ValueDue expected) (put : (between stack expected root?).put (.string text) = some r') :
    Arrives (out ++ Json.quote text) r' := by
  refine (here.quote ?_).arrives
  rcases due with rfl | rfl <;> exact put

-- By induction on the value. What encloses it is any stack, and `put` says where the completed value
-- takes the reader, so one statement serves at the root, in an array and in a field.
mutual

theorem compactOnto_arrives : ∀ value, Proper value → ∀ {out stack expected root? r'},
    At out (between stack expected root?) → ValueDue expected →
      (between stack expected root?).put value = some r' → Arrives (compactOnto out value) r'
  | .null, _, _, _, _, _, _, here, _, put => here.literal put (.inl ⟨rfl, rfl⟩)
  | .bool true, _, _, _, _, _, _, here, _, put => here.literal put (.inr (.inl ⟨rfl, rfl⟩))
  | .bool false, _, _, _, _, _, _, here, _, put => here.literal put (.inr (.inr ⟨rfl, rfl⟩))
  | .number _, .number readable, _, _, _, _, _, here, _, put => here.number readable put
  | .string _, _, _, _, _, _, _, here, due, put => here.string due put
  | .array items, .array each, _, _, _, _, _, here, due, put => by
    have opened := here.openArray due
    have read := compactItemsOnto_due items each opened
    rw [put_due due] at put
    exact read.closeArray (by simp) (by simpa using put)
  | .object fields, .object each, _, _, _, _, _, here, due, put => by
    have opened := here.openObject due
    have read := compactFieldsOnto_due fields each opened
    rw [put_due due] at put
    exact read.closeObject (by simp) (by simpa using put)

theorem compactItemsOnto_due : ∀ items, (∀ item ∈ items, Proper item) →
    ∀ {out first sofar stack root?}, Due out first (.array sofar :: stack) .firstItem root? →
      Due (compactItemsOnto out first items) (first && items.isEmpty)
        (.array (items.reverse ++ sofar) :: stack) .firstItem root?
  | [], _, _, _, _, _, _, due => by simpa [compactItemsOnto] using due
  | item :: rest, each, _, first, sofar, stack, root?, due => by
    obtain ⟨expected, ready, here⟩ := due.item
    have read : Due _ false (.array (item :: sofar) :: stack) .firstItem root? :=
      compactOnto_arrives item (each item List.mem_cons_self) here ready (put_item ready)
    have others := compactItemsOnto_due rest
      (fun other member => each other (List.mem_cons_of_mem _ member)) read
    simpa [compactItemsOnto] using others

theorem compactFieldsOnto_due : ∀ fields, (∀ field ∈ fields, Proper field.2) →
    ∀ {out first sofar stack root?}, Due out first (.object sofar :: stack) .firstName root? →
      Due (compactFieldsOnto out first fields) (first && fields.isEmpty)
        (.object (fields.reverse ++ sofar) :: stack) .firstName root?
  | [], _, _, _, _, _, _, due => by simpa [compactFieldsOnto] using due
  | (name, value) :: rest, each, _, first, sofar, stack, root?, due => by
    obtain ⟨expected, ready, here⟩ := due.name
    have read : Due _ false (.object ((name, value) :: sofar) :: stack) .firstName root? :=
      compactOnto_arrives value (each (name, value) List.mem_cons_self) (here.name ready name)
        (.inl rfl) rfl
    have others := compactFieldsOnto_due rest
      (fun other member => each other (List.mem_cons_of_mem _ member)) read
    simpa [compactFieldsOnto] using others

end

theorem At.blanks (here : At out r) (count : Nat) :
    At (out ++ .ofList (List.replicate count ' ')) r := by
  induction count generalizing out with
  | zero => simpa using here
  | succ count ih =>
    have spelled : out ++ .ofList (List.replicate (count + 1) ' ') =
        out.push ' ' ++ .ofList (List.replicate count ' ') := by
      simp [← String.toList_inj, List.replicate_succ]
    rw [spelled]
    exact ih (here.arrives.blank (.inl rfl))

theorem Arrives.newLine (arrives : Arrives out r) (level : Nat) : At (out ++ newLine level) r := by
  have spelled : out ++ Json.newLine level =
      out.push '\n' ++ .ofList (List.replicate (2 * level) ' ') := by
    simp [← String.toList_inj, Json.newLine]
  rw [spelled]
  exact (arrives.blank (.inr rfl)).blanks (2 * level)

-- The same induction; an array or object without parts takes no new lines.
mutual

theorem prettyOnto_arrives : ∀ value level, Proper value → ∀ {out stack expected root? r'},
    At out (between stack expected root?) → ValueDue expected →
      (between stack expected root?).put value = some r' → Arrives (prettyOnto out level value) r'
  | .null, _, _, _, _, _, _, _, here, _, put => here.literal put (.inl ⟨rfl, rfl⟩)
  | .bool true, _, _, _, _, _, _, _, here, _, put => here.literal put (.inr (.inl ⟨rfl, rfl⟩))
  | .bool false, _, _, _, _, _, _, _, here, _, put => here.literal put (.inr (.inr ⟨rfl, rfl⟩))
  | .number _, _, .number readable, _, _, _, _, _, here, _, put => here.number readable put
  | .string _, _, _, _, _, _, _, _, here, due, put => here.string due put
  | .array [], _, _, out, _, _, _, _, here, due, put => by
    have opened := here.openArray due
    rw [put_due due] at put
    have spelled : out ++ "[]" = (out.push '[').push ']' := by simp [← String.toList_inj]
    rw [prettyOnto, spelled]
    exact opened.closeArray (fun _ => rfl) put
  | .array (item :: rest), level, .array each, _, _, _, _, _, here, due, put => by
    have opened := here.openArray due
    have read := prettyItemsOnto_due (item :: rest) (level + 1) each opened
    have ends : Due _ false _ .firstItem _ := (Arrives.newLine read level).arrives
    rw [put_due due] at put
    exact ends.closeArray (by simp) (by simpa using put)
  | .object [], _, _, _, _, _, _, _, here, due, put => by
    have opened := here.openObject due
    rw [put_due due] at put
    exact opened.closeObject (fun _ => rfl) put
  | .object (field :: rest), level, .object each, _, _, _, _, _, here, due, put => by
    have opened := here.openObject due
    have read := prettyFieldsOnto_due (field :: rest) (level + 1) each opened
    have ends : Due _ false _ .firstName _ := (Arrives.newLine read level).arrives
    rw [put_due due] at put
    exact ends.closeObject (by simp) (by simpa using put)

theorem prettyItemsOnto_due : ∀ items level, (∀ item ∈ items, Proper item) →
    ∀ {out first sofar stack root?}, Due out first (.array sofar :: stack) .firstItem root? →
      Due (prettyItemsOnto out level first items) (first && items.isEmpty)
        (.array (items.reverse ++ sofar) :: stack) .firstItem root?
  | [], _, _, _, _, _, _, _, due => by simpa [prettyItemsOnto] using due
  | item :: rest, level, each, _, first, sofar, stack, root?, due => by
    obtain ⟨expected, ready, here⟩ := due.item
    have read : Due _ false (.array (item :: sofar) :: stack) .firstItem root? :=
      prettyOnto_arrives item level (each item List.mem_cons_self) (here.arrives.newLine level) ready
        (put_item ready)
    have others := prettyItemsOnto_due rest level
      (fun other member => each other (List.mem_cons_of_mem _ member)) read
    simpa [prettyItemsOnto] using others

theorem prettyFieldsOnto_due : ∀ fields level, (∀ field ∈ fields, Proper field.2) →
    ∀ {out first sofar stack root?}, Due out first (.object sofar :: stack) .firstName root? →
      Due (prettyFieldsOnto out level first fields) (first && fields.isEmpty)
        (.object (fields.reverse ++ sofar) :: stack) .firstName root?
  | [], _, _, _, _, _, _, _, due => by simpa [prettyFieldsOnto] using due
  | (name, value) :: rest, level, each, out, first, sofar, stack, root?, due => by
    obtain ⟨expected, ready, here⟩ := due.name
    have named := ((here.arrives.newLine level).name ready name).arrives.blank (.inl rfl)
    have spelled (front : String) : (front.push ':').push ' ' = front ++ ": " := by
      simp [← String.toList_inj]
    rw [spelled] at named
    have read : Due _ false (.object ((name, value) :: sofar) :: stack) .firstName root? :=
      prettyOnto_arrives value level (each (name, value) List.mem_cons_self) named (.inl rfl) rfl
    have others := prettyFieldsOnto_due rest level
      (fun other member => each other (List.mem_cons_of_mem _ member)) read
    simpa [prettyFieldsOnto] using others

end

theorem Arrives.finish {value : Json} (arrives : Arrives out (between [] .next (some value))) :
    ofText? out = some value := by
  obtain ⟨_, pending, reads, closed⟩ := arrives
  unfold ofText? Reader.finish
  rw [reads, Option.bind_eq_bind, Option.bind_some, closed]
  rfl

theorem at_start : At "" start := ⟨rfl, by simp⟩

end Reader

theorem Proper.ofText?_compact {value : Json} (proper : Proper value) :
    ofText? value.compact = some value :=
  (Reader.compactOnto_arrives value proper Reader.at_start (.inl rfl) rfl).finish

theorem Proper.ofText?_pretty {value : Json} (proper : Proper value) :
    ofText? value.pretty = some value :=
  (Reader.prettyOnto_arrives value 0 proper Reader.at_start (.inl rfl) rfl).finish

theorem Proper.eq_of_text {value other : Json} (proper : Proper value) (proper' : Proper other)
    (same : value.compact = other.compact ∨ value.pretty = other.pretty) : value = other := by
  rcases same with same | same
  · exact Option.some.inj (proper.ofText?_compact.symm.trans (same ▸ proper'.ofText?_compact))
  · exact Option.some.inj (proper.ofText?_pretty.symm.trans (same ▸ proper'.ofText?_pretty))

end Lox.Json
