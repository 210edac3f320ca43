import Mathlib
import Lox.Proofs.Decimal.Doubles

namespace Lox.Decimal

def value (d : Decimal) : ℚ := d.digits * 10 ^ d.exponent

theorem digitCount_pos (n : Nat) : 0 < digitCount n := Nat.length_toDigits_pos

theorem lt_pow_digitCount (n : Nat) : n < 10 ^ digitCount n :=
  (Nat.length_toDigits_le_iff (by omega) (digitCount_pos n)).mp (Nat.le_refl _)

theorem pow_digitCount_le {n : Nat} (positive : 0 < n) : 10 ^ (digitCount n - 1) ≤ n := by
  by_cases one : digitCount n = 1
  · rw [one]
    exact positive
  · have several := digitCount_pos n
    have short : ¬ digitCount n ≤ digitCount n - 1 := by omega
    have large := (Nat.length_toDigits_le_iff (by omega) (show 0 < digitCount n - 1 by omega)).not.mp short
    omega

namespace Interval

variable {i : Interval}

theorem pow_magnitude_le (positive : 0 < i.value) (divides : 0 < i.denominator) :
    (10 : ℚ) ^ (i.magnitude - 1) * i.denominator ≤ i.value := by
  unfold magnitude
  split
  · rename_i whole
    have quotient : 0 < i.value / i.denominator := Nat.div_pos whole divides
    have digits := pow_digitCount_le quotient
    have count := digitCount_pos (i.value / i.denominator)
    have power : (10 : ℚ) ^ ((digitCount (i.value / i.denominator) : ℤ) - 1) =
        (10 ^ (digitCount (i.value / i.denominator) - 1) : ℕ) := by
      rw [show ((digitCount (i.value / i.denominator) : ℤ) - 1) =
        ((digitCount (i.value / i.denominator) - 1 : ℕ) : ℤ) by omega, zpow_natCast]
      push_cast
      rfl
    rw [power]
    have enough : 10 ^ (digitCount (i.value / i.denominator) - 1) * i.denominator ≤ i.value :=
      (Nat.mul_le_mul_right _ digits).trans (Nat.div_mul_le_self _ _)
    exact_mod_cast enough
  · rename_i part
    have above := lt_pow_digitCount ((i.denominator - 1) / i.value)
    have enough : i.denominator ≤ 10 ^ digitCount ((i.denominator - 1) / i.value) * i.value := by
      have := (Nat.div_lt_iff_lt_mul positive).mp above
      omega
    generalize digitCount ((i.denominator - 1) / i.value) = count at enough
    have power : (10 : ℚ) ^ (1 - (count : ℤ) - 1) * 10 ^ count = 1 := by
      rw [← zpow_natCast, ← zpow_add₀ (by norm_num)]
      simp
    have bound : (i.denominator : ℚ) ≤ 10 ^ count * i.value := by exact_mod_cast enough
    calc (10 : ℚ) ^ (1 - (count : ℤ) - 1) * i.denominator
        ≤ 10 ^ (1 - (count : ℤ) - 1) * (10 ^ count * i.value) :=
          mul_le_mul_of_nonneg_left bound (by positivity)
      _ = i.value := by rw [← mul_assoc, power, one_mul]

theorem holds_of_nearest? {tie : Tie} {n : Nat} (found : i.nearest? tie = some n) :
    i.holds n = true := by
  unfold nearest? at found
  dsimp only at found
  split at found
  · cases found
  · rename_i floor _
    cases found
    exact floor
  · rename_i _ ceiling
    cases found
    exact ceiling
  · rename_i floor ceiling
    split at found
    · cases found
      exact floor
    · cases found
      exact ceiling
    · split at found
      · cases found
        exact ceiling
      · cases found
        split
        · exact floor
        · exact ceiling

theorem not_holds_of_nearest? {tie : Tie} (missing : i.nearest? tie = none) :
    i.holds (i.value / i.denominator) = false ∧
      i.holds (i.value / i.denominator + 1) = false := by
  unfold nearest? at missing
  dsimp only at missing
  split at missing
  · rename_i floor ceiling
    exact ⟨floor, ceiling⟩
  · cases missing
  · cases missing
  · split at missing
    · cases missing
    · cases missing
    · split at missing <;> cases missing

/-- An interval that holds neither of the two whole numbers next to its value is at most as long as the
    distance between them. -/
theorem short_of_nearest? {tie : Tie} (missing : i.nearest? tie = none)
    (divides : 0 < i.denominator) (below : i.low < i.value) (above : i.value < i.high) :
    i.high ≤ i.low + i.denominator := by
  obtain ⟨noFloor, noCeiling⟩ := not_holds_of_nearest? missing
  have floor : i.value / i.denominator * i.denominator ≤ i.value := Nat.div_mul_le_self _ _
  have ceiling : i.value < (i.value / i.denominator + 1) * i.denominator := by
    rw [Nat.mul_comm]
    exact Nat.lt_mul_div_succ i.value divides
  have step : (i.value / i.denominator + 1) * i.denominator =
      i.value / i.denominator * i.denominator + i.denominator := Nat.succ_mul _ _
  unfold holds at noFloor noCeiling
  cases closed : i.closed
  · rw [closed, if_neg Bool.false_ne_true, Bool.and_eq_false_iff] at noFloor noCeiling
    simp only [decide_eq_false_iff_not] at noFloor noCeiling
    omega
  · rw [closed, if_pos rfl, Bool.and_eq_false_iff] at noFloor noCeiling
    simp only [decide_eq_false_iff_not] at noFloor noCeiling
    omega

/-- Measured in units of which the value has at least `10 ^ 16`, its digits are seventeen. -/
theorem units_le (positive : 0 < i.value) (divides : 0 < i.denominator) :
    10 ^ 16 * (i.inUnits (i.magnitude - 17)).denominator ≤ (i.inUnits (i.magnitude - 17)).value := by
  have magnitude := pow_magnitude_le positive divides
  generalize i.magnitude = k at *
  have power : (10 : ℚ) ^ 16 * 10 ^ (k - 17).toNat = 10 ^ (k - 1) * 10 ^ (-(k - 17)).toNat := by
    rw [← zpow_mul_pow_toNat (by norm_num) (k - 17), ← mul_assoc, ← zpow_natCast,
      ← zpow_add₀ (by norm_num)]
    congr 2
    push_cast
    ring
  have scaled : (10 : ℚ) ^ 16 * (i.denominator * 10 ^ (k - 17).toNat) ≤
      i.value * 10 ^ (-(k - 17)).toNat := by
    calc (10 : ℚ) ^ 16 * (i.denominator * 10 ^ (k - 17).toNat)
        = 10 ^ (k - 1) * i.denominator * 10 ^ (-(k - 17)).toNat := by
          rw [mul_left_comm, power]
          ring
      _ ≤ i.value * 10 ^ (-(k - 17)).toNat := mul_le_mul_of_nonneg_right magnitude (by positivity)
  simp only [inUnits, Nat.pow_eq]
  exact_mod_cast scaled

end Interval

open Binary

variable {m m' : Nat} {e e' : Int} {tie : Tie}

theorem exists_seventeen (normalized : Normalized m e) (positive : 0 < m) (tie : Tie) :
    ∃ n, ((Interval.of m e).inUnits ((Interval.of m e).magnitude - 17)).nearest? tie = some n := by
  have least : leastNormal = 2 ^ 52 := rfl
  have bounded := normalized.bounded
  have reach := quartersBelow_le m e
  have lowest := @eq_leastNormal_of_quartersBelow m e
  have reaches := quartersBelow_pos m e
  have scale : 0 < 2 ^ (e - 2).toNat := Nat.two_pow_pos _
  have divides : 0 < (Interval.of m e).denominator := Nat.two_pow_pos _
  have valued : 0 < (Interval.of m e).value := Nat.mul_pos (by omega) scale
  have many := Interval.units_le valued divides
  generalize (Interval.of m e).magnitude - 17 = k at *
  cases found : ((Interval.of m e).inUnits k).nearest? tie with
  | some n => exact ⟨n, rfl⟩
  | none =>
    exfalso
    have up : 0 < 10 ^ (-k).toNat := Nat.pow_pos (by omega)
    have unit := Nat.mul_pos scale up
    have low : ((Interval.of m e).inUnits k).low =
        (4 * m - quartersBelow m e) * (2 ^ (e - 2).toNat * 10 ^ (-k).toNat) := Nat.mul_assoc _ _ _
    have value : ((Interval.of m e).inUnits k).value = 4 * m * (2 ^ (e - 2).toNat * 10 ^ (-k).toNat) :=
      Nat.mul_assoc _ _ _
    have high : ((Interval.of m e).inUnits k).high =
        (4 * m + 2) * (2 ^ (e - 2).toNat * 10 ^ (-k).toNat) := Nat.mul_assoc _ _ _
    have denominator : 0 < ((Interval.of m e).inUnits k).denominator :=
      Nat.mul_pos divides (Nat.pow_pos (by omega))
    have short := Interval.short_of_nearest? found denominator
      (by rw [low, value]; exact Nat.mul_lt_mul_of_pos_right (by omega) unit)
      (by rw [value, high]; exact Nat.mul_lt_mul_of_pos_right (by omega) unit)
    rw [low, high] at short
    rw [value] at many
    generalize 2 ^ (e - 2).toNat * 10 ^ (-k).toNat = c at *
    generalize ((Interval.of m e).inUnits k).denominator = q at *
    -- The interval is as long as so many quarters, which would be less than a unit.
    have length : (2 + quartersBelow m e) * c ≤ q := by
      have upper : (4 * m + 2) * c = (4 * m - quartersBelow m e) * c + (2 + quartersBelow m e) * c := by
        rw [← Nat.add_mul]
        congr 1
        omega
      omega
    have product : 10 ^ 16 * ((2 + quartersBelow m e) * c) ≤ 4 * m * c :=
      (Nat.mul_le_mul_left _ length).trans many
    rw [← Nat.mul_assoc] at product
    have quarters := Nat.le_of_mul_le_mul_right product unit
    omega

theorem value_carried {n p : Nat} {k : Int} :
    (if n = Nat.pow 10 p then (⟨1, k⟩ : Decimal) else ⟨n, k - p⟩).value = n * 10 ^ (k - p) := by
  split
  · rename_i carried
    subst carried
    unfold value
    rw [Nat.pow_eq]
    push_cast
    rw [one_mul, ← zpow_natCast, ← zpow_add₀ (by norm_num)]
    congr 1
    omega
  · rfl

theorem contains_zero : (Interval.of 0 leastExponent).Contains 0 := by
  rw [contains_of, if_pos rfl, lower, upper]
  exact ⟨by simp, by positivity⟩

theorem shortest_contained (normalized : Normalized m e) (tie : Tie) :
    (Interval.of m e).Contains (shortest tie m e).value := by
  unfold shortest
  split
  · rename_i zero
    subst zero
    have least : e = leastExponent := normalized.normal.resolve_right (by omega)
    subst least
    have nothing : (⟨0, 0⟩ : Decimal).value = 0 := by simp [value]
    rw [nothing]
    exact contains_zero
  · rename_i nonzero
    dsimp only
    cases found : digitCounts.findSome? _ with
    | none =>
      obtain ⟨n, seventeen⟩ := exists_seventeen normalized (Nat.pos_of_ne_zero nonzero) tie
      have missing := List.findSome?_eq_none_iff.mp found 17 (by decide)
      simp [seventeen] at missing
    | some d =>
      obtain ⟨p, _, tried⟩ := List.exists_of_findSome?_eq_some found
      obtain ⟨n, nearest, same⟩ := Option.map_eq_some_iff.mp tried
      have inside := (Interval.contains_inUnits _ _ _).mp
        ((Interval.holds_iff _ n).mp (Interval.holds_of_nearest? nearest))
      rw [Option.getD_some, ← same, value_carried]
      exact inside

theorem shortest_injective (first : Normalized m e) (second : Normalized m' e')
    (same : (shortest tie m e).value = (shortest tie m' e').value) : m = m' ∧ e = e' :=
  first.unique second (shortest_contained first tie) (same ▸ shortest_contained second tie)

theorem exponent_of_no_digits (normalized : Normalized m e)
    (nothing : (shortest tie m e).digits = 0) : (shortest tie m e).exponent = 0 := by
  have zero : (shortest tie m e).value = 0 := by simp [value, nothing]
  have least : Normalized 0 leastExponent := ⟨by omega, Int.le_refl _, .inl rfl⟩
  have inside := shortest_contained normalized tie
  rw [zero] at inside
  obtain ⟨rfl, _⟩ := normalized.unique least inside contains_zero
  rfl

end Lox.Decimal
