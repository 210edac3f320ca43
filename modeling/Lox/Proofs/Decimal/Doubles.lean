import Mathlib
import Lox.Decimal.Shortest

namespace Lox.Decimal

namespace Binary

/-- What the fields of a finite double can hold: only at the least exponent a significand may be less
    than that of a normal double. -/
structure Normalized (significand : Nat) (exponent : Int) : Prop where
  bounded : significand < 2 ^ 53
  least : leastExponent ≤ exponent
  normal : exponent = leastExponent ∨ 2 ^ 52 ≤ significand

variable {x y : Float} {negative : Bool} {significand : Nat} {exponent : Int}

theorem ofFloat_normalized (taken : ofFloat x = .finite negative significand exponent) :
    Normalized significand exponent := by
  have least : leastNormal = 2 ^ 52 := rfl
  unfold ofFloat at taken
  simp only [Nat.pow_eq] at taken
  split at taken
  · split at taken <;> cases taken
  · split at taken
    · cases taken
      exact ⟨by omega, Int.le_refl _, .inl rfl⟩
    · cases taken
      exact ⟨by omega, by omega, .inr (by omega)⟩

theorem toBits_of_ofFloat (taken : ofFloat x = .finite negative significand exponent) :
    x.toBits.toNat = (if negative then 2 ^ 63 else 0) +
      if significand < 2 ^ 52 then significand
      else (exponent - leastExponent + 1).toNat * 2 ^ 52 + (significand - 2 ^ 52) := by
  have bounded := x.toBits.toNat_lt
  have least : leastNormal = 2 ^ 52 := rfl
  unfold ofFloat at taken
  simp only [Nat.pow_eq] at taken
  generalize x.toBits.toNat = bits at *
  have fraction : bits % 2 ^ 52 < 2 ^ 52 := Nat.mod_lt _ (Nat.two_pow_pos 52)
  split at taken
  · split at taken <;> cases taken
  · split at taken
    · cases taken
      rw [if_pos fraction]
      split <;> rename_i signed <;> simp only [decide_eq_true_eq] at signed <;> omega
    · cases taken
      rw [if_neg (show ¬ leastNormal + bits % 2 ^ 52 < 2 ^ 52 by omega)]
      split <;> rename_i signed <;> simp only [decide_eq_true_eq] at signed <;> omega

theorem ofFloat_injective (first : ofFloat x = .finite negative significand exponent)
    (second : ofFloat y = .finite negative significand exponent) : x = y := by
  have same : x.toBits.toNat = y.toBits.toNat :=
    (toBits_of_ofFloat first).trans (toBits_of_ofFloat second).symm
  exact Float.toBits_inj.mp (UInt64.toNat_inj.mp same)

open Float.Model in
theorem unpackExponent_toNat (bits : BitVec Format.binary64.numBits) :
    (UnpackedFloat.unpackExponent bits).toNat = bits.toNat / 2 ^ 52 % 2 ^ 11 := by
  simp only [UnpackedFloat.unpackExponent, BitVec.toNat_cast, BitVec.extractLsb_toNat,
    Nat.shiftRight_eq_div_pow]

theorem ofFloat_of_isFinite (finite : x.isFinite = true) :
    ∃ negative significand exponent, ofFloat x = .finite negative significand exponent := by
  have inside : x.toBits.toNat / 2 ^ 52 % 2 ^ 11 ≠ 2047 := by
    intro full
    have field : @Float.Model.UnpackedFloat.unpackExponent .binary64 x.toModel.toBits.toBitVec = -1#11 :=
      BitVec.eq_of_toNat_eq ((unpackExponent_toNat _).trans full)
    unfold Float.isFinite Float.Model.isFinite Float.Model.unpack
      Float.Model.UnpackedFloat.unpack at finite
    dsimp only at finite
    rw [if_pos field] at finite
    split at finite <;> cases finite
  unfold ofFloat
  simp only [Nat.pow_eq]
  rw [if_neg inside]
  split
  · exact ⟨_, _, _, rfl⟩
  · exact ⟨_, _, _, rfl⟩

end Binary

theorem zpow_mul_pow_toNat {b : ℚ} (nonzero : b ≠ 0) (exponent : ℤ) :
    b ^ exponent * b ^ (-exponent).toNat = b ^ exponent.toNat := by
  rw [← zpow_natCast, ← zpow_natCast, ← zpow_add₀ nonzero]
  congr 1
  omega

namespace Interval

def Contains (i : Interval) (x : ℚ) : Prop :=
  if i.closed then (i.low : ℚ) ≤ x * i.denominator ∧ x * i.denominator ≤ i.high
  else (i.low : ℚ) < x * i.denominator ∧ x * i.denominator < i.high

theorem holds_iff (i : Interval) (n : Nat) : i.holds n = true ↔ i.Contains n := by
  unfold holds Contains
  split
  · simp only [Bool.and_eq_true, decide_eq_true_eq]
    norm_cast
  · simp only [Bool.and_eq_true, decide_eq_true_eq]
    norm_cast

theorem contains_inUnits (i : Interval) (exponent : ℤ) (x : ℚ) :
    (i.inUnits exponent).Contains x ↔ i.Contains (x * 10 ^ exponent) := by
  have up : (0 : ℚ) < 10 ^ (-exponent).toNat := by positivity
  have scaled : x * (i.denominator * 10 ^ exponent.toNat : ℕ) =
      x * 10 ^ exponent * i.denominator * 10 ^ (-exponent).toNat := by
    push_cast
    rw [← zpow_mul_pow_toNat (by norm_num) exponent]
    ring
  unfold Contains inUnits
  simp only [Nat.pow_eq, scaled]
  push_cast
  simp only [mul_le_mul_iff_of_pos_right up, mul_lt_mul_iff_of_pos_right up]

end Interval

namespace Binary

/-- How many quarters of its unit a double's interval reaches down. -/
def quartersBelow (significand : Nat) (exponent : Int) : Nat :=
  if significand = leastNormal ∧ exponent ≠ leastExponent then 1 else 2

def lower (significand : Nat) (exponent : Int) : ℚ :=
  (4 * significand - quartersBelow significand exponent : ℕ) * 2 ^ (exponent - 2)

def upper (significand : Nat) (exponent : Int) : ℚ :=
  (4 * significand + 2 : ℕ) * 2 ^ (exponent - 2)

variable {m m' : Nat} {e e' : Int} {x : ℚ}

theorem contains_of : (Interval.of m e).Contains x ↔
    if m % 2 = 0 then lower m e ≤ x ∧ x ≤ upper m e else lower m e < x ∧ x < upper m e := by
  have positive : (0 : ℚ) < 2 ^ (2 - e).toNat := by positivity
  have unit : (2 : ℚ) ^ (e - 2).toNat = 2 ^ (e - 2) * 2 ^ (2 - e).toNat := by
    rw [← zpow_mul_pow_toNat two_ne_zero (e - 2), Int.neg_sub]
  unfold Interval.Contains Interval.of lower upper quartersBelow
  simp only [Nat.pow_eq, beq_iff_eq]
  push_cast
  simp only [unit, ← mul_assoc, mul_le_mul_iff_of_pos_right positive,
    mul_lt_mul_iff_of_pos_right positive]

theorem quartersBelow_le (m : Nat) (e : Int) : quartersBelow m e ≤ 2 := by
  unfold quartersBelow
  split <;> omega

theorem quartersBelow_pos (m : Nat) (e : Int) : 0 < quartersBelow m e := by
  unfold quartersBelow
  split <;> omega

theorem eq_leastNormal_of_quartersBelow (one : quartersBelow m e = 1) : m = leastNormal := by
  unfold quartersBelow at one
  split at one
  · rename_i bound
    exact bound.1
  · cases one

/-- The lower end of a double, measured in the unit of one with a smaller exponent. -/
theorem lower_eq (le : e ≤ e') :
    lower m' e' = ((4 * m' - quartersBelow m' e') * 2 ^ (e' - e).toNat : ℕ) * 2 ^ (e - 2) := by
  have power : (2 : ℚ) ^ (e' - 2) = 2 ^ (e' - e).toNat * 2 ^ (e - 2) := by
    rw [← zpow_natCast, ← zpow_add₀ two_ne_zero]
    congr 1
    omega
  unfold lower
  rw [power]
  push_cast
  ring

/-- The interval of a double ends before that of a greater one begins, or where it begins if one of
    them has an odd significand. -/
theorem Normalized.apart (first : Normalized m e) (second : Normalized m' e')
    (before : e < e' ∨ e = e' ∧ m < m') :
    4 * m + 2 ≤ (4 * m' - quartersBelow m' e') * 2 ^ (e' - e).toNat ∧
      (4 * m + 2 = (4 * m' - quartersBelow m' e') * 2 ^ (e' - e).toNat → m % 2 = 1 ∨ m' % 2 = 1) := by
  have least : leastNormal = 2 ^ 52 := rfl
  have bounded := first.bounded
  have reach := quartersBelow_le m' e'
  rcases before with smaller | ⟨rfl, less⟩
  · -- The greater significand is that of a normal double, and its unit is at least twice as large.
    have normal : 2 ^ 52 ≤ m' := second.normal.resolve_left (by have := first.least; omega)
    have quarters : 2 ^ 54 - 1 ≤ 4 * m' - quartersBelow m' e' := by
      by_cases lowest : m' = 2 ^ 52
      · have one : quartersBelow m' e' = 1 := if_pos ⟨lowest, by have := first.least; omega⟩
        omega
      · omega
    have double : 2 ^ 1 ≤ 2 ^ (e' - e).toNat := Nat.pow_le_pow_right (by omega) (by omega)
    have product : (2 ^ 54 - 1) * 2 ≤ (4 * m' - quartersBelow m' e') * 2 ^ (e' - e).toNat :=
      Nat.mul_le_mul quarters double
    omega
  · simp only [sub_self, Int.toNat_zero, pow_zero, Nat.mul_one]
    omega

theorem Normalized.upper_le_lower (first : Normalized m e) (second : Normalized m' e')
    (before : e < e' ∨ e = e' ∧ m < m') : upper m e ≤ lower m' e' ∧
      (upper m e = lower m' e' → m % 2 = 1 ∨ m' % 2 = 1) := by
  have unit : (0 : ℚ) < 2 ^ (e - 2) := by positivity
  obtain ⟨le, odd⟩ := first.apart second before
  rw [lower_eq (show e ≤ e' by omega), upper]
  constructor
  · rw [mul_le_mul_iff_of_pos_right unit]
    exact_mod_cast le
  · intro same
    have quarters := mul_right_cancel₀ unit.ne' same
    exact odd (by exact_mod_cast quarters)

theorem Normalized.not_both (first : Normalized m e) (second : Normalized m' e')
    (before : e < e' ∨ e = e' ∧ m < m') (here : (Interval.of m e).Contains x)
    (there : (Interval.of m' e').Contains x) : False := by
  obtain ⟨le, odd⟩ := first.upper_le_lower second before
  rw [contains_of] at here there
  split at here <;> split at there
  · have same : upper m e = lower m' e' := le_antisymm le (there.1.trans here.2)
    have := odd same
    omega
  · exact absurd (there.1.trans_le here.2) (not_lt.mpr le)
  · exact absurd (there.1.trans_lt here.2) (not_lt.mpr le)
  · exact absurd (there.1.trans here.2) (not_lt.mpr le)

/-- No number rounds to two doubles. -/
theorem Normalized.unique (first : Normalized m e) (second : Normalized m' e')
    (here : (Interval.of m e).Contains x) (there : (Interval.of m' e').Contains x) :
    m = m' ∧ e = e' := by
  rcases lt_trichotomy e e' with smaller | rfl | greater
  · exact (first.not_both second (.inl smaller) here there).elim
  · rcases lt_trichotomy m m' with less | rfl | more
    · exact (first.not_both second (.inr ⟨rfl, less⟩) here there).elim
    · exact ⟨rfl, rfl⟩
    · exact (second.not_both first (.inr ⟨rfl, more⟩) there here).elim
  · exact (second.not_both first (.inl greater) there here).elim

end Binary

end Lox.Decimal
