import Lox.Token.Scan

namespace Lox.Text.Utf8

def bytesOf (chars : List Char) : List UInt8 := chars.flatMap String.utf8EncodeChar

theorem encode_eq_bytesOf (text : String) : encode text = bytesOf text.toList := by
  unfold encode bytesOf
  rw [String.toUTF8_eq_toByteArray, ← String.utf8Encode_toList, List.utf8Encode,
    List.toList_data_toByteArray]

theorem bytesOf_nil : bytesOf [] = [] := rfl

theorem bytesOf_cons (c : Char) (chars : List Char) :
    bytesOf (c :: chars) = String.utf8EncodeChar c ++ bytesOf chars := List.flatMap_cons

theorem bytesOf_append (chars more : List Char) :
    bytesOf (chars ++ more) = bytesOf chars ++ bytesOf more := List.flatMap_append

theorem utf8EncodeChar_ascii {c : Char} (ascii : c.toNat < 0x80) :
    String.utf8EncodeChar c = [Scan.byte c] := by
  have small : c.val.toNat ≤ 0x7F := Nat.le_of_lt_succ ascii
  unfold String.utf8EncodeChar
  simp only [small, if_true]
  rfl

theorem bytesOf_cons_ascii {c : Char} (ascii : c.toNat < 0x80) (chars : List Char) :
    bytesOf (c :: chars) = Scan.byte c :: bytesOf chars := by
  rw [bytesOf_cons, utf8EncodeChar_ascii ascii, List.singleton_append]

theorem bytesOf_ascii {chars : List Char} (ascii : ∀ c ∈ chars, c.toNat < 0x80) :
    bytesOf chars = chars.map Scan.byte := by
  induction chars with
  | nil => rfl
  | cons c chars ih =>
    rw [bytesOf_cons_ascii (ascii c List.mem_cons_self), List.map_cons,
      ih fun d member => ascii d (List.mem_cons_of_mem _ member)]

theorem toNat_byte {n : Nat} (small : n < 256) : (UInt8.ofNat n).toNat = n := by
  rw [UInt8.toNat_ofNat']
  exact Nat.mod_eq_of_lt small

theorem scalar (c : Char) : c.toNat < 0xD800 ∨ (0xDFFF < c.toNat ∧ c.toNat < 0x110000) := c.valid

theorem utf8EncodeChar_wide {c : Char} (wide : 0x80 ≤ c.toNat) :
    (c.toNat < 0x800 ∧ String.utf8EncodeChar c =
      [.ofNat (c.toNat / 64 + 0xC0), .ofNat (c.toNat % 64 + 0x80)]) ∨
    (0x800 ≤ c.toNat ∧ c.toNat < 0x10000 ∧ String.utf8EncodeChar c =
      [.ofNat (c.toNat / 4096 + 0xE0), .ofNat (c.toNat / 64 % 64 + 0x80),
        .ofNat (c.toNat % 64 + 0x80)]) ∨
    (0x10000 ≤ c.toNat ∧ String.utf8EncodeChar c =
      [.ofNat (c.toNat / 262144 + 0xF0), .ofNat (c.toNat / 4096 % 64 + 0x80),
        .ofNat (c.toNat / 64 % 64 + 0x80), .ofNat (c.toNat % 64 + 0x80)]) := by
  have bound := scalar c
  have value : c.val.toNat = c.toNat := rfl
  unfold String.utf8EncodeChar
  simp only [value]
  generalize c.toNat = n at *
  split
  · omega
  split
  · exact .inl ⟨by omega, by rw [Nat.mod_eq_of_lt (by omega : n / 64 < 0x20)]⟩
  split
  · exact .inr (.inl ⟨by omega, by omega, by rw [Nat.mod_eq_of_lt (by omega : n / 4096 < 0x10)]⟩)
  · exact .inr (.inr ⟨by omega, by rw [Nat.mod_eq_of_lt (by omega : n / 262144 < 0x08)]⟩)

section decoding

variable (text : String)

theorem feed_last {bits : Nat} {low high b : UInt8} (above : low ≤ b) (below : b ≤ high) :
    Decoder.feed ⟨text, some ⟨bits, 0, low, high⟩⟩ b =
      ⟨text.push (.ofNat (64 * bits + (b.toNat - 0x80))), none⟩ := by
  simp only [Decoder.feed, above, below, and_self, if_true]

theorem feed_more {bits more : Nat} {low high b : UInt8} (above : low ≤ b) (below : b ≤ high) :
    Decoder.feed ⟨text, some ⟨bits, more + 1, low, high⟩⟩ b =
      ⟨text, some ⟨64 * bits + (b.toNat - 0x80), more, 0x80, 0xBF⟩⟩ := by
  simp only [Decoder.feed, above, below, and_self, if_true]

theorem feed_lead {b : UInt8} {pending : Pending} (wide : 0x80 ≤ b)
    (opened : Pending.ofLead? b = some pending) :
    Decoder.feed ⟨text, none⟩ b = ⟨text, some pending⟩ := by
  simp only [Decoder.feed, Decoder.lead, UInt8.not_lt.mpr wide, if_false, opened]

theorem continues {n : Nat} (small : n < 64) :
    (0x80 : UInt8) ≤ .ofNat (n + 0x80) ∧ .ofNat (n + 0x80) ≤ (0xBF : UInt8) := by
  rw [UInt8.le_iff_toNat_le, UInt8.le_iff_toNat_le, toNat_byte (by omega)]
  exact ⟨Nat.le_add_left _ _, by change n + 0x80 ≤ 0xBF; omega⟩

theorem ofLead?_two : ∀ k < 32, 2 ≤ k →
    Pending.ofLead? (.ofNat (k + 0xC0)) = some ⟨k, 0, 0x80, 0xBF⟩ := by decide

theorem ofLead?_three : ∀ k < 16, Pending.ofLead? (.ofNat (k + 0xE0)) =
    some ⟨k, 1, if k = 0 then 0xA0 else 0x80, if k = 13 then 0x9F else 0xBF⟩ := by decide

theorem ofLead?_four : ∀ k < 5, Pending.ofLead? (.ofNat (k + 0xF0)) =
    some ⟨k, 2, if k = 0 then 0x90 else 0x80, if k = 4 then 0x8F else 0xBF⟩ := by decide

theorem le_ofNat {low : UInt8} {n : Nat} (small : n < 256) (above : low.toNat ≤ n) :
    low ≤ .ofNat n := by
  rw [UInt8.le_iff_toNat_le, toNat_byte small]
  exact above

theorem ofNat_le {high : UInt8} {n : Nat} (small : n < 256) (below : n ≤ high.toNat) :
    .ofNat n ≤ high := by
  rw [UInt8.le_iff_toNat_le, toNat_byte small]
  exact below

theorem feed_char (c : Char) :
    (String.utf8EncodeChar c).foldl Decoder.feed ⟨text, none⟩ = ⟨text.push c, none⟩ := by
  have bound := scalar c
  have whole : Char.ofNat c.toNat = c := Char.ofNat_toNat c
  have last : ∀ {n}, n < 64 → (UInt8.ofNat (n + 0x80)).toNat - 0x80 = n := fun small => by
    rw [toNat_byte (by omega), Nat.add_sub_cancel]
  by_cases ascii : c.toNat < 0x80
  · have same : (Scan.byte c).toNat = c.toNat := toNat_byte (by omega)
    have small : Scan.byte c < 0x80 := by
      rw [UInt8.lt_iff_toNat_lt, same]
      exact ascii
    simp only [utf8EncodeChar_ascii ascii, List.foldl_cons, List.foldl_nil, Decoder.feed,
      Decoder.lead, small, if_true, same, whole]
  -- The decoder narrows the second byte after some first ones. What it shuts out there is overlong,
  -- a surrogate or too large, so the bounds of the range and of all characters meet its bounds.
  rcases utf8EncodeChar_wide (Nat.le_of_not_lt ascii) with
    ⟨high, bytes⟩ | ⟨low, high, bytes⟩ | ⟨low, bytes⟩
  all_goals
    simp only [bytes, List.foldl_cons, List.foldl_nil]
  · rw [feed_lead text (le_ofNat (by omega) (by change 0x80 ≤ _; omega))
        (ofLead?_two _ (by omega) (by omega)),
      feed_last text (continues (by omega)).1 (continues (by omega)).2, last (by omega),
      Nat.div_add_mod, whole]
  · rw [feed_lead text (le_ofNat (by omega) (by change 0x80 ≤ _; omega))
        (ofLead?_three _ (by omega)),
      feed_more text (le_ofNat (by omega) ?_) (ofNat_le (by omega) ?_), last (by omega),
      feed_last text (continues (by omega)).1 (continues (by omega)).2, last (by omega)]
    · congr 2
      rw [show 64 * (64 * (c.toNat / 4096) + c.toNat / 64 % 64) + c.toNat % 64 = c.toNat by omega,
        whole]
    · split
      · change 0xA0 ≤ _
        omega
      · exact Nat.le_add_left _ _
    · split
      · change _ ≤ 0x9F
        omega
      · change _ ≤ 0xBF
        omega
  · rw [feed_lead text (le_ofNat (by omega) (by change 0x80 ≤ _; omega))
        (ofLead?_four _ (by omega)),
      feed_more text (le_ofNat (by omega) ?_) (ofNat_le (by omega) ?_), last (by omega),
      feed_more text (continues (by omega)).1 (continues (by omega)).2, last (by omega),
      feed_last text (continues (by omega)).1 (continues (by omega)).2, last (by omega)]
    · congr 2
      rw [show 64 * (64 * (64 * (c.toNat / 262144) + c.toNat / 4096 % 64) + c.toNat / 64 % 64) +
        c.toNat % 64 = c.toNat by omega, whole]
    · split
      · change 0x90 ≤ _
        omega
      · exact Nat.le_add_left _ _
    · split
      · change _ ≤ 0x8F
        omega
      · change _ ≤ 0xBF
        omega

theorem foldl_bytesOf (chars : List Char) :
    (bytesOf chars).foldl Decoder.feed ⟨text, none⟩ = ⟨text ++ .ofList chars, none⟩ := by
  induction chars generalizing text with
  | nil => simp [bytesOf_nil]
  | cons c chars ih =>
    rw [bytesOf_cons, List.foldl_append, feed_char, ih]
    congr 1
    rw [← String.toList_inj]
    simp

end decoding

theorem decode_bytesOf (chars : List Char) : decode (bytesOf chars) = .ofList chars := by
  have read := foldl_bytesOf "" chars
  rw [String.empty_append] at read
  rw [decode, Decoder.start, read, Decoder.finish]

theorem strayWidth_two : ∀ k < 32, Scan.strayWidth (.ofNat (k + 0xC0)) = 1 := by decide

theorem strayWidth_three : ∀ k < 16, Scan.strayWidth (.ofNat (k + 0xE0)) = 2 := by decide

theorem strayWidth_four : ∀ k < 16, Scan.strayWidth (.ofNat (k + 0xF0)) = 3 := by decide

/-- The first byte of a character past ASCII tells how many bytes follow, none of them ASCII. -/
theorem utf8EncodeChar_lead {c : Char} (wide : 0x80 ≤ c.toNat) :
    ∃ lead tail, String.utf8EncodeChar c = lead :: tail ∧ 0x80 ≤ lead ∧
      tail.length = Scan.strayWidth lead ∧ ∀ b ∈ tail, 0x80 ≤ b := by
  have bound := scalar c
  have lead : ∀ {n}, 0x80 ≤ n → n < 256 → (0x80 : UInt8) ≤ .ofNat n := fun low high =>
    le_ofNat high low
  have tail : ∀ {n}, n < 64 → (0x80 : UInt8) ≤ .ofNat (n + 0x80) := fun small =>
    (continues small).1
  rcases utf8EncodeChar_wide wide with ⟨high, bytes⟩ | ⟨low, high, bytes⟩ | ⟨low, bytes⟩
  · refine ⟨_, _, bytes, lead (by omega) (by omega), (strayWidth_two _ (by omega)).symm, ?_⟩
    simp only [List.forall_mem_singleton]
    exact tail (by omega)
  · refine ⟨_, _, bytes, lead (by omega) (by omega), (strayWidth_three _ (by omega)).symm, ?_⟩
    simp only [List.forall_mem_cons, List.not_mem_nil, false_imp_iff, implies_true, and_true]
    exact ⟨tail (by omega), tail (by omega)⟩
  · refine ⟨_, _, bytes, lead (by omega) (by omega), (strayWidth_four _ (by omega)).symm, ?_⟩
    simp only [List.forall_mem_cons, List.not_mem_nil, false_imp_iff, implies_true, and_true]
    exact ⟨tail (by omega), tail (by omega), tail (by omega)⟩

theorem ne_of_wide {c mark : Char} (wide : 0x80 ≤ c.toNat) (small : mark.toNat < 0x80) :
    c ≠ mark := by
  rintro rfl
  exact Nat.not_le.mpr small wide

theorem strayWidth_ascii {lead : UInt8} (ascii : lead < 0x80) : Scan.strayWidth lead = 0 := by
  unfold Scan.strayWidth
  grind

theorem utf8EncodeChar_width (c : Char) :
    ∃ lead tail, String.utf8EncodeChar c = lead :: tail ∧ tail.length = Scan.strayWidth lead ∧
      ∀ b ∈ tail, 0x80 ≤ b := by
  by_cases ascii : c.toNat < 0x80
  · have small : Scan.byte c < 0x80 := by
      rw [UInt8.lt_iff_toNat_lt]
      exact (toNat_byte (Nat.lt_trans ascii (by decide))).symm ▸ ascii
    exact ⟨_, [], utf8EncodeChar_ascii ascii, (strayWidth_ascii small).symm, nofun⟩
  · obtain ⟨lead, tail, whole, -, width, inside⟩ := utf8EncodeChar_lead (Nat.le_of_not_lt ascii)
    exact ⟨lead, tail, whole, width, inside⟩

def Agree (test : UInt8 → Bool) (holds : Char → Bool) : Prop :=
  ∀ c, ∀ b ∈ String.utf8EncodeChar c, test b = holds c

/-- Tests agree if they do on ASCII and each gives one answer past it. -/
theorem agree_of {test : UInt8 → Bool} {holds : Char → Bool} (answer : Bool)
    (ascii : ∀ n < 0x80, test (.ofNat n) = holds (.ofNat n))
    (bytes : ∀ b, 0x80 ≤ b → test b = answer)
    (chars : ∀ c : Char, 0x80 ≤ c.toNat → holds c = answer) : Agree test holds := by
  intro c b member
  by_cases small : c.toNat < 0x80
  · rw [utf8EncodeChar_ascii small, List.mem_singleton] at member
    have same := ascii c.toNat small
    rw [Char.ofNat_toNat] at same
    exact member ▸ same
  · obtain ⟨lead, tail, whole, wide, -, inside⟩ := utf8EncodeChar_lead (Nat.le_of_not_lt small)
    rw [chars c (Nat.le_of_not_lt small)]
    rw [whole] at member
    rcases List.mem_cons.mp member with rfl | later
    · exact bytes b wide
    · exact bytes b (inside b later)

namespace Agree

variable {test : UInt8 → Bool} {holds : Char → Bool}

theorem ascii (agree : Agree test holds) {c : Char} (small : c.toNat < 0x80) :
    test (Scan.byte c) = holds c :=
  agree c _ (utf8EncodeChar_ascii small ▸ List.mem_singleton_self _)

theorem takeWhile (agree : Agree test holds) (chars : List Char) :
    (bytesOf chars).takeWhile test = bytesOf (chars.takeWhile holds) := by
  induction chars with
  | nil => rfl
  | cons c chars ih =>
    rw [bytesOf_cons, List.takeWhile_cons]
    split
    · rename_i kept
      rw [List.takeWhile_append_of_pos (fun b member => (agree c b member).trans kept), ih,
        bytesOf_cons]
    · rename_i ended
      cases bytes : String.utf8EncodeChar c with
      | nil => exact absurd bytes String.utf8EncodeChar_ne_nil
      | cons b more =>
        have here := agree c b (bytes ▸ List.mem_cons_self)
        rw [List.cons_append, List.takeWhile_cons_of_neg (by rw [here]; exact ended), bytesOf_nil]

theorem dropWhile (agree : Agree test holds) (chars : List Char) :
    (bytesOf chars).dropWhile test = bytesOf (chars.dropWhile holds) := by
  have whole := (bytesOf chars).takeWhile_append_dropWhile (p := test)
  have parts := congrArg bytesOf (chars.takeWhile_append_dropWhile (p := holds))
  rw [agree.takeWhile] at whole
  rw [bytesOf_append] at parts
  exact List.append_cancel_left (whole.trans parts.symm)

theorem head (agree : Agree test holds) {c : Char} {chars : List Char} {b : UInt8}
    {bytes : List UInt8} (whole : bytesOf (c :: chars) = b :: bytes) : test b = holds c := by
  apply agree
  cases encoded : String.utf8EncodeChar c with
  | nil => exact absurd encoded String.utf8EncodeChar_ne_nil
  | cons b' more =>
    rw [bytesOf_cons, encoded, List.cons_append] at whole
    exact (List.cons.inj whole).1 ▸ List.mem_cons_self

theorem not (agree : Agree test holds) : Agree (fun b => !test b) (fun c => !holds c) :=
  fun c b member => congrArg Bool.not (agree c b member)

end Agree

section mark

variable {mark : Char} (small : mark.toNat < 0x80)
include small

theorem agree_mark : Agree (· == Scan.byte mark) (· == mark) := by
  have same : (Scan.byte mark).toNat = mark.toNat := toNat_byte (by omega)
  intro c b member
  rw [Bool.eq_iff_iff, beq_iff_eq, beq_iff_eq]
  by_cases ascii : c.toNat < 0x80
  · rw [utf8EncodeChar_ascii ascii, List.mem_singleton] at member
    have value : (Scan.byte c).toNat = c.toNat := toNat_byte (by omega)
    rw [member, ← UInt8.toNat_inj, same, value, Char.toNat_inj]
  · obtain ⟨lead, tail, whole, wide, -, inside⟩ := utf8EncodeChar_lead (Nat.le_of_not_lt ascii)
    have past : 0x80 ≤ b := by
      rw [whole] at member
      rcases List.mem_cons.mp member with rfl | later
      · exact wide
      · exact inside b later
    refine iff_of_false ?_ (ne_of_wide (Nat.le_of_not_lt ascii) small)
    rintro rfl
    rw [UInt8.le_iff_toNat_le, same] at past
    exact Nat.not_le.mpr small past

theorem count_bytesOf (chars : List Char) :
    (bytesOf chars).count (Scan.byte mark) = chars.count mark := by
  induction chars with
  | nil => rfl
  | cons c chars ih =>
    rw [bytesOf_cons, List.count_append, ih, List.count_cons]
    by_cases here : c = mark
    · subst here
      rw [utf8EncodeChar_ascii small, List.count_singleton_self, Nat.add_comm, beq_self_eq_true,
        if_pos rfl]
    · have absent : Scan.byte mark ∉ String.utf8EncodeChar c := fun member => by
        have same : (Scan.byte mark == Scan.byte mark) = (c == mark) := agree_mark small c _ member
        rw [beq_self_eq_true] at same
        exact here (beq_iff_eq.mp same.symm)
      rw [List.count_eq_zero_of_not_mem absent, beq_false_of_ne here, Nat.zero_add]
      rfl

theorem head_bytesOf (chars : List Char) :
    (bytesOf chars).head? = some (Scan.byte mark) ↔ chars.head? = some mark := by
  cases chars with
  | nil => simp [bytesOf_nil]
  | cons c chars =>
    cases whole : bytesOf (c :: chars) with
    | nil =>
      rw [bytesOf_cons, List.append_eq_nil_iff] at whole
      exact absurd whole.1 String.utf8EncodeChar_ne_nil
    | cons b bytes =>
      have same : (b == Scan.byte mark) = (c == mark) := (agree_mark small).head whole
      rw [Bool.eq_iff_iff, beq_iff_eq, beq_iff_eq] at same
      rw [List.head?_cons, List.head?_cons, Option.some.injEq, Option.some.injEq]
      exact same

end mark

end Lox.Text.Utf8
