import Mathlib.Algebra.Group.Nat.Defs
import Lox.Proofs.Lexing.Bytes

namespace Lox.Text.Utf8

theorem append_push (text before : String) (c : Char) :
    text ++ before.push c = (text ++ before).push c := by
  rw [← String.append_singleton, ← String.append_singleton, String.append_assoc]

namespace Decoder

def behind (text : String) (d : Decoder) : Decoder := ⟨text ++ d.text, d.open?⟩

theorem lead_behind (text before : String) (b : UInt8) :
    lead (text ++ before) b = (lead before b).behind text := by
  unfold lead behind
  split
  · rw [append_push]
  · split
    · rfl
    · rw [append_push]

theorem feed_behind (text : String) (d : Decoder) (b : UInt8) :
    (d.behind text).feed b = (d.feed b).behind text := by
  obtain ⟨before, open?⟩ := d
  cases open? with
  | none => exact lead_behind text before b
  | some p =>
    unfold feed behind
    dsimp only
    split
    · cases p.more with
      | zero => exact congrArg (Decoder.mk · none) (append_push ..).symm
      | succ more => rfl
    · rw [← append_push]
      exact lead_behind text _ b

theorem foldl_behind (text : String) (d : Decoder) (bytes : List UInt8) :
    bytes.foldl feed (d.behind text) = (bytes.foldl feed d).behind text := by
  induction bytes generalizing d with
  | nil => rfl
  | cons b bytes ih => rw [List.foldl_cons, List.foldl_cons, feed_behind, ih]

theorem finish_behind (text : String) (d : Decoder) :
    (d.behind text).finish = text ++ d.finish := by
  obtain ⟨before, open?⟩ := d
  cases open? with
  | none => rfl
  | some p => exact (append_push ..).symm

end Decoder

/-- Whatever bytes an open character goes on with, it lies past ASCII: its next byte does, and so
    does the code point, even with the least bytes there can be. -/
structure Pending.Wide (p : Pending) : Prop where
  low : 0x80 ≤ p.low.toNat
  value : 0x80 ≤ 64 ^ p.more * (64 * p.bits + (p.low.toNat - 0x80))

def Decoder.Wide (d : Decoder) : Prop := ∀ p ∈ d.open?, p.Wide

theorem Decoder.wide_closed (text : String) : Decoder.Wide ⟨text, none⟩ := by
  rintro _ ⟨⟩

theorem wide_ofLead? {b : UInt8} {p : Pending} (opened : Pending.ofLead? b = some p) : p.Wide := by
  have table : ∀ n < 0x100, ∀ p ∈ Pending.ofLead? (.ofNat n), 0x80 ≤ p.low.toNat ∧
      0x80 ≤ 64 ^ p.more * (64 * p.bits + (p.low.toNat - 0x80)) := by decide +kernel
  have here := table b.toNat b.toNat_lt p
  rw [UInt8.ofNat_toNat] at here
  exact ⟨(here opened).1, (here opened).2⟩

theorem wide_lead (text : String) (b : UInt8) : (Decoder.lead text b).Wide := by
  unfold Decoder.lead
  split
  · exact Decoder.wide_closed _
  · split
    · rename_i pending opened
      rintro _ ⟨⟩
      exact wide_ofLead? opened
    · exact Decoder.wide_closed _

theorem Pending.Wide.value_le {p : Pending} (wide : p.Wide) {b : UInt8} (above : p.low ≤ b) :
    0x80 ≤ 64 ^ p.more * (64 * p.bits + (b.toNat - 0x80)) := by
  have more := UInt8.le_iff_toNat_le.mp above
  refine Nat.le_trans wide.value (Nat.mul_le_mul_left _ ?_)
  omega

theorem Decoder.Wide.feed {d : Decoder} (wide : d.Wide) (b : UInt8) : (d.feed b).Wide := by
  obtain ⟨text, open?⟩ := d
  cases open? with
  | none => exact wide_lead text b
  | some p =>
    have here := wide p rfl
    unfold Decoder.feed
    dsimp only
    split
    · rename_i inside
      have value := here.value_le inside.1
      cases count : p.more with
      | zero => exact fun q here => absurd here (Option.not_mem_none q)
      | succ more =>
        intro q here
        obtain rfl := Option.some.inj here
        have least : (0x80 : UInt8).toNat - 0x80 = 0 := by decide
        rw [count, Nat.pow_succ, Nat.mul_assoc] at value
        exact ⟨Nat.le_refl _, by rwa [least, Nat.add_zero]⟩
    · exact wide_lead _ b

theorem wide_foldl {d : Decoder} (wide : d.Wide) (bytes : List UInt8) :
    (bytes.foldl Decoder.feed d).Wide := by
  induction bytes generalizing d with
  | nil => exact wide
  | cons b bytes ih => exact ih (wide.feed b)

section mark

variable {mark : Char} (small : mark.toNat < 0x80)
include small

theorem lead_mark (text : String) : Decoder.lead text (Scan.byte mark) = ⟨text.push mark, none⟩ := by
  have same : (Scan.byte mark).toNat = mark.toNat := toNat_byte (by omega)
  have ascii : Scan.byte mark < 0x80 := by
    rw [UInt8.lt_iff_toNat_lt, same]
    exact small
  rw [Decoder.lead, if_pos ascii, same, Char.ofNat_toNat]

/-- The byte of the character ends what is open. -/
theorem feed_mark {d : Decoder} (wide : d.Wide) :
    d.feed (Scan.byte mark) = ⟨d.finish.push mark, none⟩ := by
  have same : (Scan.byte mark).toNat = mark.toNat := toNat_byte (by omega)
  obtain ⟨text, open?⟩ := d
  cases open? with
  | none => exact lead_mark small text
  | some p =>
    have low := (wide p rfl).low
    unfold Decoder.feed
    dsimp only
    rw [if_neg, lead_mark small]
    · rfl
    · rintro ⟨above, -⟩
      rw [UInt8.le_iff_toNat_le, same] at above
      omega

/-- The text before the byte of an ASCII character, the character, and the text after it. -/
theorem decode_append_mark (before after : List UInt8) :
    decode (before ++ Scan.byte mark :: after) =
      (decode before).push mark ++ decode after := by
  have start : Decoder.Wide .start := Decoder.wide_closed _
  have left := feed_mark small (wide_foldl start before)
  have right : Decoder.mk ((decode before).push mark) none =
      Decoder.start.behind ((decode before).push mark) :=
    congrArg (Decoder.mk · none) String.append_empty.symm
  rw [decode, List.foldl_append, List.foldl_cons, left]
  change (after.foldl Decoder.feed ⟨(decode before).push mark, none⟩).finish = _
  rw [right, Decoder.foldl_behind, Decoder.finish_behind]
  rfl

end mark

theorem quote_ne_ofNat {n : Nat} (other : n ≠ 0x22) : '"' ≠ Char.ofNat n := by
  intro same
  by_cases valid : n.isValidChar
  · have char : Char.ofNat n = Char.ofNatAux n valid := dif_pos valid
    have value : 0x22 = (Char.ofNatAux n valid).toNat := congrArg Char.toNat (same.trans char)
    exact other value.symm
  · have char : Char.ofNat n = '\x00' := dif_neg valid
    exact absurd (same.trans char) (by decide)

theorem quote_not_mem_lead {text : String} {b : UInt8} (before : '"' ∉ text.toList)
    (other : b ≠ Scan.byte '"') : '"' ∉ (Decoder.lead text b).text.toList := by
  have pushed {c : Char} (different : '"' ≠ c) : '"' ∉ (text.push c).toList := by
    rw [String.toList_push, List.mem_append, List.mem_singleton]
    exact not_or.mpr ⟨before, different⟩
  unfold Decoder.lead
  split
  · exact pushed (quote_ne_ofNat fun same => other (UInt8.toNat_inj.mp same))
  · split
    · exact before
    · exact pushed (by decide)

theorem quote_not_mem_feed {d : Decoder} {b : UInt8} (wide : d.Wide) (before : '"' ∉ d.text.toList)
    (other : b ≠ Scan.byte '"') : '"' ∉ (d.feed b).text.toList := by
  obtain ⟨text, open?⟩ := d
  have pushed {c : Char} (different : '"' ≠ c) : '"' ∉ (text.push c).toList := by
    rw [String.toList_push, List.mem_append, List.mem_singleton]
    exact not_or.mpr ⟨before, different⟩
  cases open? with
  | none => exact quote_not_mem_lead before other
  | some p =>
    unfold Decoder.feed
    dsimp only
    split
    · rename_i inside
      have value := (wide p rfl).value_le inside.1
      cases count : p.more with
      | zero =>
        rw [count, Nat.pow_zero, Nat.one_mul] at value
        exact pushed (quote_ne_ofNat (by omega))
      | succ more => exact before
    · exact quote_not_mem_lead (pushed (by decide)) other

/-- What is read has a quote only where there is the byte of one. -/
theorem quote_not_mem_decode {bytes : List UInt8} (inside : Scan.byte '"' ∉ bytes) :
    '"' ∉ (decode bytes).toList := by
  have read : ∀ (d : Decoder), d.Wide → '"' ∉ d.text.toList →
      '"' ∉ (bytes.foldl Decoder.feed d).text.toList := by
    induction bytes with
    | nil => exact fun _ _ before => before
    | cons b bytes ih =>
      obtain ⟨other, later⟩ := not_or.mp (mt List.mem_cons.mpr inside)
      exact fun d wide before =>
        ih later _ (wide.feed b) (quote_not_mem_feed wide before (Ne.symm other))
  have whole := read .start (Decoder.wide_closed _) (by decide)
  unfold decode Decoder.finish
  split
  · exact whole
  · rw [String.toList_push, List.mem_append, List.mem_singleton]
    exact not_or.mpr ⟨whole, by decide⟩

end Lox.Text.Utf8
