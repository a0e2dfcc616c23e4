/-
  Rounding a fraction to the nearest number.

  The absolute value of a finite number and the decimals are fractions (`Binary.value`,
  `Decimal.value`).

  * `Binary.Regular` is what `Binary.ofFloat?` gives: a mantissa of 53 bits, or fewer at the
    least exponent;
  * `Binary.Near b v`: the fraction `v` lies in the interval that is rounded to `b`;
  * `nearestBits_of_near` and `ofDecimal_of_near`: such a fraction, and such a decimal, is
    rounded to the bits of `b`.

  The exponent at which a fraction near `b` is rounded is that of `b`, or the one below it if
  the fraction is smaller than a power of two and `b` is that power; there the mantissa is
  rounded up to `2 ^ 53`, and the bits carry.
-/
import BoxScript.Number.Nearest
import BoxScript.Number.Shortest
import Mathlib.Algebra.Order.Field.Power
import Mathlib.Data.Nat.Log
import Mathlib.Tactic.FieldSimp
import Mathlib.Tactic.Linarith
import Mathlib.Tactic.NormNum
import Mathlib.Tactic.Positivity
import Mathlib.Tactic.Ring

namespace BoxScript

/-! ## Fractions -/

/-- The decimal as a fraction. -/
def Number.Decimal.value (d : Number.Decimal) : ℚ := d.digits * 10 ^ d.exponent

namespace Binary

/-- The absolute value as a fraction. -/
def value (b : Binary) : ℚ := b.mantissa * 2 ^ b.exponent

/-- The bits without the sign. -/
def bits (b : Binary) : Nat := (b.exponent + 1074).toNat * 2 ^ 52 + b.mantissa

/-- The mantissa has 53 bits, or fewer at the least exponent. -/
structure Regular (b : Binary) : Prop where
  mantissa_lt : b.mantissa < 2 ^ 53
  exponent_ge : -1074 ≤ b.exponent
  exponent_le : b.exponent ≤ 971
  normal : -1074 < b.exponent → 2 ^ 52 ≤ b.mantissa

/-- The part of a step that is halfway to the number below. -/
def stepDown (b : Binary) : ℚ :=
  if b.mantissa = 2 ^ 52 ∧ -1074 < b.exponent then 1 / 4 else 1 / 2

/-- Halfway to the number below. -/
def low (b : Binary) : ℚ := (b.mantissa - b.stepDown) * 2 ^ b.exponent

/-- Halfway to the number above. -/
def high (b : Binary) : ℚ := (b.mantissa + 1 / 2) * 2 ^ b.exponent

/-- The fraction is rounded to the number: it is nearer to it than halfway to its neighbours,
    or halfway and the mantissa is even. -/
structure Near (b : Binary) (v : ℚ) : Prop where
  low_le : b.low ≤ v
  le_high : v ≤ b.high
  inside : b.mantissa % 2 = 1 → b.low < v ∧ v < b.high

end Binary

namespace Number

/-- A power is a quotient of powers with natural exponents, one of which is zero. -/
theorem zpow_eq_div {β : ℚ} (z : ℤ) : β ^ z = β ^ z.toNat / β ^ (-z).toNat := by
  rcases Int.le_total 0 z with h | h
  · obtain ⟨n, rfl⟩ := Int.eq_ofNat_of_zero_le h
    simp
  · obtain ⟨n, hn⟩ := Int.eq_ofNat_of_zero_le (Int.neg_nonneg.2 h)
    obtain rfl : z = -n := by omega
    simp

/-- A fraction with logarithms of its parts lies between two powers. -/
theorem ratio_bounds {β a b num den : ℕ} (hβ : 1 < β) (hn : β ^ a ≤ num) (hn' : num < β ^ (a + 1))
    (hd : β ^ b ≤ den) (hd' : den < β ^ (b + 1)) :
    (β : ℚ) ^ ((a : ℤ) - b - 1) ≤ num / den ∧ (num / den : ℚ) < β ^ ((a : ℤ) - b + 1) := by
  have hβ0 : (0 : ℚ) < β := by exact_mod_cast Nat.lt_trans Nat.zero_lt_one hβ
  have hden : (0 : ℚ) < den := by
    exact_mod_cast Nat.lt_of_lt_of_le (Nat.pow_pos (Nat.lt_trans Nat.zero_lt_one hβ)) hd
  have hpow : ∀ k l : ℤ, (β : ℚ) ^ (k - l) * β ^ l = β ^ k := fun k l => by
    rw [← zpow_add₀ hβ0.ne']
    congr 1
    omega
  have hd₁ : (β : ℚ) ^ (b : ℤ) ≤ den := by exact_mod_cast hd
  have hd₂ : (den : ℚ) ≤ β ^ ((b : ℤ) + 1) := by exact_mod_cast hd'.le
  have hn₁ : (β : ℚ) ^ (a : ℤ) ≤ num := by exact_mod_cast hn
  have hn₂ : (num : ℚ) < β ^ ((a : ℤ) + 1) := by exact_mod_cast hn'
  constructor
  · rw [le_div_iff₀ hden]
    calc (β : ℚ) ^ ((a : ℤ) - b - 1) * den
        ≤ β ^ ((a : ℤ) - b - 1) * β ^ ((b : ℤ) + 1) := by gcongr
      _ = β ^ (a : ℤ) := by rw [← hpow a (b + 1)]; congr 2; omega
      _ ≤ num := hn₁
  · rw [div_lt_iff₀ hden]
    calc (num : ℚ) < β ^ ((a : ℤ) + 1) := hn₂
      _ = β ^ ((a : ℤ) - b + 1) * β ^ (b : ℤ) := by rw [← hpow (a + 1) b]; congr 2; omega
      _ ≤ β ^ ((a : ℤ) - b + 1) * den := by gcongr

/-- A fraction is divided by a power in natural numbers. -/
theorem scaled_ratio (β num den : ℕ) (z : ℤ) :
    ((num * β ^ (-z).toNat : ℕ) / (den * β ^ z.toNat : ℕ) : ℚ) = num / den / β ^ z := by
  rw [zpow_eq_div, div_div_div_eq]
  push_cast
  rfl

/-- Fractions are compared with powers in natural numbers. -/
theorem scaled_lt_iff {β num den : ℕ} (hβ : 0 < β) (hden : 0 < den) (z : ℤ) :
    num * β ^ (-z).toNat < den * β ^ z.toNat ↔ (num / den : ℚ) < β ^ z := by
  have hden' : (0 : ℚ) < den := by exact_mod_cast hden
  have hpos : (0 : ℚ) < (β : ℚ) ^ (-z).toNat := by positivity
  rw [zpow_eq_div, div_lt_div_iff₀ hden' hpos, mul_comm ((β : ℚ) ^ z.toNat)]
  exact_mod_cast Iff.rfl

/-- The number of digits tells between which powers of ten a number lies. -/
theorem digits_bounds {n : ℕ} (h : n ≠ 0) :
    ∃ k, (Nat.toDigits 10 n).length = k + 1 ∧ 10 ^ k ≤ n ∧ n < 10 ^ (k + 1) := by
  obtain ⟨k, hk⟩ := Nat.exists_eq_succ_of_ne_zero (Nat.length_toDigits_pos (b := 10) (n := n)).ne'
  refine ⟨k, hk, ?_, (Nat.length_toDigits_le_iff (by decide) k.succ_pos).1 hk.le⟩
  rcases Nat.eq_zero_or_pos k with rfl | hpos
  · exact Nat.one_le_iff_ne_zero.2 h
  · by_contra hlt
    have := (Nat.length_toDigits_le_iff (b := 10) (n := n) (by decide) hpos).2 (Nat.not_le.1 hlt)
    omega

/-! ## The mantissa -/

/-- Without a bound below, the mantissa has 53 bits. -/
theorem mantissaExponent_eq {num den : ℕ} (hn : num ≠ 0) (hd : 0 < den) :
    ∃ z : ℤ, mantissaExponent num den = max (z - 52) (-1074) ∧
      (2 : ℚ) ^ z ≤ num / den ∧ (num / den : ℚ) < 2 ^ (z + 1) := by
  have hbounds := ratio_bounds Nat.one_lt_two (Nat.log2_self_le hn) Nat.lt_log2_self
    (Nat.log2_self_le hd.ne') Nat.lt_log2_self
  have htest : ∀ z : ℤ, num * 2 ^ (-(z - 52)).toNat < den * 2 ^ (z - 52).toNat * 2 ^ 52 ↔
      (num / den : ℚ) < 2 ^ z := fun z => by
    have hsplit : (2 : ℚ) ^ z = 2 ^ (z - 52) * 2 ^ 52 := by
      rw [← zpow_natCast, ← zpow_add₀ two_ne_zero]
      congr 1
      omega
    rw [Nat.mul_right_comm, scaled_lt_iff two_pos (by positivity), Nat.cast_mul, ← div_div,
      div_lt_iff₀ (by positivity), Nat.cast_pow, Nat.cast_ofNat, hsplit]
  by_cases h : (num / den : ℚ) < 2 ^ ((num.log2 : ℤ) - den.log2)
  · refine ⟨(num.log2 : ℤ) - den.log2 - 1, ?_, hbounds.1, ?_⟩
    · simp only [mantissaExponent, Nat.pow_eq, htest, if_pos h]
      rw [sub_right_comm]
    · rw [sub_add_cancel]
      exact h
  · refine ⟨(num.log2 : ℤ) - den.log2, ?_, not_lt.1 h, hbounds.2⟩
    simp only [mantissaExponent, Nat.pow_eq, htest, if_neg h]

/-- The mantissa of a fraction has at most 53 bits, and that many above the least exponent. -/
theorem mantissaExponent_bounds {num den : ℕ} (hn : num ≠ 0) (hd : 0 < den) :
    -1074 ≤ mantissaExponent num den ∧
      (num / den : ℚ) < 2 ^ 53 * 2 ^ mantissaExponent num den ∧
      (-1074 < mantissaExponent num den →
        2 ^ 52 * 2 ^ mantissaExponent num den ≤ (num / den : ℚ)) := by
  obtain ⟨z, he, hlow, hhigh⟩ := mantissaExponent_eq hn hd
  have hsplit : ∀ k : ℕ, (2 : ℚ) ^ k * 2 ^ (z - 52) = 2 ^ (z + k - 52) := fun k => by
    rw [← zpow_natCast, ← zpow_add₀ two_ne_zero]
    congr 1
    omega
  rw [he]
  refine ⟨le_max_right _ _, ?_, fun h => ?_⟩
  · calc (num / den : ℚ) < 2 ^ (z + 1) := hhigh
      _ = 2 ^ 53 * 2 ^ (z - 52) := by rw [hsplit]; congr 1; omega
      _ ≤ 2 ^ 53 * 2 ^ max (z - 52) (-1074) := by
        gcongr
        · norm_num
        · exact le_max_left _ _
  · have hz : max (z - 52) (-1074) = z - 52 := by omega
    rw [hz, hsplit]
    simpa using hlow

/-- The integer is nearest to the fraction; if it is odd, no other one is as near. -/
structure RoundsTo (r : ℚ) (m : ℕ) : Prop where
  low_le : m - 1 / 2 ≤ r
  le_high : r ≤ m + 1 / 2
  inside : m % 2 = 1 → m - 1 / 2 < r ∧ r < m + 1 / 2

theorem RoundsTo.not_lt {r : ℚ} {m n : ℕ} (hm : RoundsTo r m) (hn : RoundsTo r n) : ¬m < n := by
  intro hlt
  have hle : (m : ℚ) + 1 ≤ n := by exact_mod_cast hlt
  -- both are at a distance of a half, so they are neighbours and one of them is odd
  have hge : (n : ℚ) ≤ m + 1 := by linarith [hm.le_high, hn.low_le]
  have heq : n = m + 1 := by exact_mod_cast le_antisymm hge hle
  rcases Nat.mod_two_eq_zero_or_one m with h | h
  · linarith [(hn.inside (by omega)).1, hm.le_high]
  · linarith [(hm.inside h).2, hn.low_le]

theorem RoundsTo.unique {r : ℚ} {m n : ℕ} (hm : RoundsTo r m) (hn : RoundsTo r n) : m = n :=
  Nat.le_antisymm (Nat.not_lt.1 (hn.not_lt hm)) (Nat.not_lt.1 (hm.not_lt hn))

theorem roundQuotient_rounds (num : ℕ) {den : ℕ} (hd : 0 < den) :
    RoundsTo (num / den) (roundQuotient num den) := by
  have hden : (0 : ℚ) < den := by exact_mod_cast hd
  have hnum : (num : ℚ) = den * (num / den : ℕ) + (num % den : ℕ) := by
    exact_mod_cast (Nat.div_add_mod num den).symm
  have hrem : ((num % den : ℕ) : ℚ) < den := by exact_mod_cast Nat.mod_lt num hd
  unfold roundQuotient
  generalize num / den = q at hnum ⊢
  generalize num % den = rem at hnum hrem ⊢
  have hr : (num / den : ℚ) = q + rem / den := by
    rw [hnum, add_div, mul_div_cancel_left₀ _ hden.ne']
  have hpart : (0 : ℚ) ≤ rem / den ∧ (rem / den : ℚ) < 1 :=
    ⟨by positivity, (div_lt_one hden).2 hrem⟩
  have hhalf : (rem / den : ℚ) < 1 / 2 ↔ 2 * rem < den := by
    rw [div_lt_div_iff₀ hden two_pos, one_mul, mul_comm]
    exact_mod_cast Iff.rfl
  have hhalf' : (1 / 2 : ℚ) < rem / den ↔ den < 2 * rem := by
    rw [div_lt_div_iff₀ two_pos hden, one_mul, mul_comm]
    exact_mod_cast Iff.rfl
  simp only [← hhalf, ← hhalf', hr]
  generalize (rem / den : ℚ) = f at hpart ⊢
  have hsucc : ((q + 1 : ℕ) : ℚ) = q + 1 := Nat.cast_succ q
  split
  · exact ⟨by linarith, by linarith, fun _ => ⟨by linarith, by linarith⟩⟩
  · split
    · exact ⟨by linarith, by linarith, fun _ => ⟨by linarith, by linarith⟩⟩
    · -- halfway, where the even one of the two is taken
      rcases Nat.mod_two_eq_zero_or_one q with h | h <;> rw [h]
      · rw [Nat.add_zero]
        exact ⟨by linarith, by linarith, fun h' => by omega⟩
      · exact ⟨by linarith, by linarith, fun h' => by omega⟩

end Number

/-! ## Fractions near a number -/

namespace Binary

variable {b : Binary} {v : ℚ} {e : ℤ}

theorem two_zpow_pos (z : ℤ) : (0 : ℚ) < 2 ^ z := by positivity

theorem stepDown_pos (b : Binary) : 0 < b.stepDown := by
  unfold stepDown
  split <;> norm_num

theorem stepDown_le (b : Binary) : b.stepDown ≤ 1 / 2 := by
  unfold stepDown
  split <;> norm_num

theorem Near.ge (h : b.Near v) (hb : b.Regular) (hm : b.mantissa ≠ 0) : 2 ^ (-1075 : ℤ) ≤ v := by
  have hone : (1 : ℚ) ≤ b.mantissa := by exact_mod_cast Nat.one_le_iff_ne_zero.2 hm
  calc (2 : ℚ) ^ (-1075 : ℤ) = 1 / 2 * 2 ^ (-1074 : ℤ) := by
        rw [show (-1074 : ℤ) = -1075 + 1 from rfl, zpow_add_one₀ two_ne_zero]
        ring
    _ ≤ 1 / 2 * 2 ^ b.exponent := by
        gcongr
        · norm_num
        · exact hb.exponent_ge
    _ ≤ b.low := mul_le_mul_of_nonneg_right (by linarith [b.stepDown_le]) (two_zpow_pos _).le
    _ ≤ v := h.low_le

theorem Near.pos (h : b.Near v) (hb : b.Regular) (hm : b.mantissa ≠ 0) : 0 < v :=
  (two_zpow_pos _).trans_le (h.ge hb hm)

theorem Near.lt (h : b.Near v) (hb : b.Regular) : v < 2 ^ 53 * 2 ^ b.exponent := by
  have hlt : (b.mantissa : ℚ) + 1 ≤ 2 ^ 53 := by exact_mod_cast hb.mantissa_lt
  refine h.le_high.trans_lt (mul_lt_mul_of_pos_right ?_ (two_zpow_pos _))
  linarith

/-- At the exponent of the number, the mantissa of a fraction near it is rounded to that of the
    number. -/
theorem Near.rounds (h : b.Near v) : Number.RoundsTo (v / 2 ^ b.exponent) b.mantissa := by
  have hp := two_zpow_pos b.exponent
  have hstep : ((b.mantissa : ℚ) - 1 / 2) * 2 ^ b.exponent ≤ b.low :=
    mul_le_mul_of_nonneg_right (by linarith [b.stepDown_le]) hp.le
  refine ⟨?_, (div_le_iff₀ hp).2 h.le_high, fun ho => ⟨?_, (div_lt_iff₀ hp).2 (h.inside ho).2⟩⟩
  · exact (le_div_iff₀ hp).2 (hstep.trans h.low_le)
  · exact (lt_div_iff₀ hp).2 (hstep.trans_lt (h.inside ho).1)

/-- A fraction near a number does not need a greater exponent. -/
theorem Near.exponent_le (h : b.Near v) (hb : b.Regular) (he : 2 ^ 52 * 2 ^ e ≤ v) :
    e ≤ b.exponent := by
  by_contra hlt
  have hpow : (2 : ℚ) ^ b.exponent * 2 ≤ 2 ^ e := by
    rw [← zpow_add_one₀ two_ne_zero]
    exact zpow_le_zpow_right₀ one_le_two (by omega)
  linarith [h.lt hb]

/-- If a fraction near a number has a smaller exponent, the number is a power of two. -/
theorem Near.mantissa_eq (h : b.Near v) (hb : b.Regular) (hge : -1074 ≤ e)
    (hlt : v < 2 ^ 53 * 2 ^ e) (he : e < b.exponent) : b.mantissa = 2 ^ 52 := by
  by_contra hne
  have hm : 2 ^ 52 + 1 ≤ b.mantissa := Nat.lt_of_le_of_ne (hb.normal (by omega)) (Ne.symm hne)
  have hm' : (2 : ℚ) ^ 52 + 1 ≤ b.mantissa := by exact_mod_cast hm
  have hpow : (2 : ℚ) ^ e * 2 ≤ 2 ^ b.exponent := by
    rw [← zpow_add_one₀ two_ne_zero]
    exact zpow_le_zpow_right₀ one_le_two (by omega)
  have hlow : 2 ^ 52 * 2 ^ b.exponent ≤ b.low :=
    mul_le_mul_of_nonneg_right (by linarith [b.stepDown_le]) (two_zpow_pos _).le
  linarith [h.low_le]

/-- Then the exponent is one below, and the mantissa is rounded up. -/
theorem Near.rounds_up (h : b.Near v) (hb : b.Regular) (hge : -1074 ≤ e)
    (hlt : v < 2 ^ 53 * 2 ^ e) (he : e < b.exponent) :
    e + 1 = b.exponent ∧ Number.RoundsTo (v / 2 ^ e) (2 ^ 53) := by
  have hm := h.mantissa_eq hb hge hlt he
  have hstep : b.stepDown = 1 / 4 := if_pos ⟨hm, by omega⟩
  have hlow : (2 ^ 52 - 1 / 4) * 2 ^ b.exponent ≤ v := by
    have := h.low_le
    rw [low, hm, hstep] at this
    exact_mod_cast this
  have he' : e + 1 = b.exponent := by
    by_contra hne
    have hpow : (2 : ℚ) ^ e * 2 * 2 ≤ 2 ^ b.exponent := by
      rw [← zpow_add_one₀ two_ne_zero, ← zpow_add_one₀ two_ne_zero]
      exact zpow_le_zpow_right₀ one_le_two (by omega)
    linarith [two_zpow_pos e]
  refine ⟨he', ?_, ?_, fun ho => by norm_num at ho⟩
  · rw [le_div_iff₀ (two_zpow_pos e)]
    rw [← he', zpow_add_one₀ two_ne_zero] at hlow
    push_cast
    linarith
  · rw [div_le_iff₀ (two_zpow_pos e)]
    push_cast
    linarith [two_zpow_pos e]

theorem Regular.bits_lt (hb : b.Regular) : b.bits < Number.infinityBits := by
  have := hb.mantissa_lt
  have := hb.exponent_le
  simp only [bits, Number.infinityBits, Nat.pow_eq]
  omega

end Binary

namespace Number

/-- **A fraction near a number is rounded to its bits.** -/
theorem nearestBits_of_near {b : Binary} {num den : ℕ} (hb : b.Regular) (hm : b.mantissa ≠ 0)
    (hd : 0 < den) (h : b.Near (num / den)) : nearestBits num den = b.bits := by
  have hn : num ≠ 0 := by
    rintro rfl
    simpa using h.pos hb hm
  obtain ⟨hge, hlt, hnormal⟩ := mantissaExponent_bounds hn hd
  rw [nearestBits, if_neg hn]
  generalize mantissaExponent num den = e at hge hlt hnormal ⊢
  have hround : RoundsTo (num / den / 2 ^ e)
      (roundQuotient (num * 2 ^ (-e).toNat) (den * 2 ^ e.toNat)) := by
    have hpos : 0 < den * 2 ^ e.toNat := by positivity
    have := roundQuotient_rounds (num * 2 ^ (-e).toNat) hpos
    rwa [scaled_ratio] at this
  simp only [Nat.pow_eq]
  generalize roundQuotient (num * 2 ^ (-e).toNat) (den * 2 ^ e.toNat) = m at hround ⊢
  have hbits : (e + 1074).toNat * 2 ^ 52 + m = b.bits := by
    rcases Int.lt_or_le e b.exponent with he | he
    · obtain ⟨he', hup⟩ := h.rounds_up hb hge hlt he
      rw [hround.unique hup, Binary.bits, h.mantissa_eq hb hge hlt he]
      omega
    · have he' : e = b.exponent := by
        rcases Int.lt_or_eq_of_le hge with hgt | rfl
        · exact le_antisymm (h.exponent_le hb (hnormal hgt)) he
        · exact le_antisymm hb.exponent_ge he
      subst he'
      rw [hround.unique h.rounds, Binary.bits]
  rw [hbits, Nat.min_eq_left hb.bits_lt.le]

/-- A decimal lies between the powers of ten that its digits give. -/
theorem Decimal.value_bounds {d : Decimal} (h : d.digits ≠ 0) :
    (10 : ℚ) ^ ((Nat.toDigits 10 d.digits).length + d.exponent - 1) ≤ d.value ∧
      d.value < 10 ^ ((Nat.toDigits 10 d.digits).length + d.exponent) := by
  obtain ⟨k, hk, hlow, hhigh⟩ := digits_bounds h
  have hpos : (0 : ℚ) < 10 ^ d.exponent := by positivity
  have hsplit : ∀ n : ℕ, (10 : ℚ) ^ ((n : ℤ) + d.exponent) = (10 ^ n : ℕ) * 10 ^ d.exponent := by
    intro n
    rw [zpow_add₀ (by norm_num), zpow_natCast, Nat.cast_pow, Nat.cast_ofNat]
  rw [hk, show ((k + 1 : ℕ) : ℤ) + d.exponent - 1 = (k : ℤ) + d.exponent by push_cast; ring,
    hsplit, hsplit]
  constructor
  · exact mul_le_mul_of_nonneg_right (by exact_mod_cast hlow) hpos.le
  · exact mul_lt_mul_of_pos_right (by exact_mod_cast hhigh) hpos

/-- The least and the greatest numbers lie within the powers at which decimals are not rounded
    any more. -/
theorem two_pow_lt_ten_pow : (2 : ℚ) ^ 1080 < 10 ^ 400 := by
  have h : ((2 : ℚ) ^ 27) ^ 40 < (10 ^ 10) ^ 40 :=
    pow_lt_pow_left₀ (by norm_num) (by norm_num) (by norm_num)
  rwa [← pow_mul, ← pow_mul] at h

/-- **A decimal near a number is read as it.** -/
theorem ofDecimal_of_near {b : Binary} {d : Decimal} (hb : b.Regular) (hm : b.mantissa ≠ 0)
    (h : b.Near d.value) (negative : Bool) :
    ofDecimal negative d.digits d.exponent = ofSignedBits negative b.bits := by
  have hdigits : d.digits ≠ 0 := by
    intro h0
    have hpos := h.pos hb hm
    simp [Decimal.value, h0] at hpos
  obtain ⟨hlow, hhigh⟩ := Decimal.value_bounds hdigits
  have hsmall : ¬((Nat.toDigits 10 d.digits).length : ℤ) + d.exponent < -400 := by
    intro hlt
    refine absurd (h.ge hb hm) (not_le.2 ?_)
    calc d.value < 10 ^ (((Nat.toDigits 10 d.digits).length : ℤ) + d.exponent) := hhigh
      _ ≤ 10 ^ (-400 : ℤ) := zpow_le_zpow_right₀ (by norm_num) hlt.le
      _ ≤ 2 ^ (-1080 : ℤ) := by
        rw [zpow_neg, zpow_neg]
        exact inv_anti₀ (by positivity) (by exact_mod_cast two_pow_lt_ten_pow.le)
      _ ≤ 2 ^ (-1075 : ℤ) := zpow_le_zpow_right₀ one_le_two (by norm_num)
  have hlarge : ¬400 < ((Nat.toDigits 10 d.digits).length : ℤ) + d.exponent := by
    intro hlt
    refine absurd (h.lt hb) (not_lt.2 ?_)
    calc (2 : ℚ) ^ 53 * 2 ^ b.exponent ≤ 2 ^ 53 * 2 ^ (971 : ℤ) := by
          gcongr
          · norm_num
          · exact hb.exponent_le
      _ = 2 ^ (1024 : ℤ) := by
        rw [← zpow_natCast, ← zpow_add₀ two_ne_zero]
        rfl
      _ ≤ 2 ^ (1080 : ℤ) := zpow_le_zpow_right₀ one_le_two (by norm_num)
      _ ≤ 10 ^ (400 : ℤ) := by exact_mod_cast two_pow_lt_ten_pow.le
      _ ≤ 10 ^ (((Nat.toDigits 10 d.digits).length : ℤ) + d.exponent - 1) :=
        zpow_le_zpow_right₀ (by norm_num) (by omega)
      _ ≤ d.value := hlow
  have hvalue : d.value =
      (d.digits * 10 ^ d.exponent.toNat : ℕ) / (10 ^ (-d.exponent).toNat : ℕ) := by
    rw [Decimal.value, zpow_eq_div, mul_div_assoc']
    push_cast
    rfl
  rw [hvalue] at h
  unfold ofDecimal
  simp only [Nat.pow_eq, hdigits, hsmall, hlarge, or_self, if_false]
  rw [nearest, nearestBits_of_near hb hm (by positivity) h]

end Number

end BoxScript
