/-
  The shortest decimal of a number is near it.

  * `holds_iff`: the search tests whether a decimal is near the number;
  * `shortestFrom_holds`: what the search finds has passed this test;
  * `near_of_grid`: of the two neighbours of a number on the grid of decimals with 17 digits,
    one is near the number, because the grid is finer than the interval is wide.  So the search
    does find a decimal (`shortest_near`).
-/
import BoxScript.Proofs.Number.Rounding

namespace BoxScript.Number

variable {b : Binary} {d : Decimal} {num den : ℕ}

/-! ## The test -/

/-- Numbers and decimals are compared as fractions. -/
theorem compareScaled_eq (n : ℕ) (scale : ℤ) (d : Decimal) :
    compareScaled n scale d = compare ((n : ℚ) * 2 ^ scale) d.value := by
  have hc : (0 : ℚ) < 2 ^ (-scale).toNat * 10 ^ (-d.exponent).toNat := by positivity
  have hn : (n * 2 ^ scale.toNat * 10 ^ (-d.exponent).toNat : ℕ) =
      (n : ℚ) * 2 ^ scale * (2 ^ (-scale).toNat * 10 ^ (-d.exponent).toNat) := by
    rw [zpow_eq_div]
    push_cast
    field_simp
  have hd : (d.digits * 10 ^ d.exponent.toNat * 2 ^ (-scale).toNat : ℕ) =
      d.value * (2 ^ (-scale).toNat * 10 ^ (-d.exponent).toNat) := by
    rw [Decimal.value, zpow_eq_div]
    push_cast
    field_simp
  have hmono : StrictMono fun n : ℕ => (n : ℚ) := Nat.strictMono_cast
  simp only [compareScaled, Nat.pow_eq]
  rw [← cmp_eq_compare, ← cmp_eq_compare, ← hmono.cmp_map_eq, hn, hd]
  exact (strictMono_mul_right_of_pos hc).cmp_map_eq _ _

/-- The ends of the interval are counted in quarters of a step. -/
theorem quarter (z : ℤ) : (2 : ℚ) ^ (z - 2) * 4 = 2 ^ z := by
  rw [zpow_sub₀ two_ne_zero]
  norm_num

theorem ofBinary_low (hm : b.mantissa ≠ 0) : ((ReadingInterval.ofBinary b).low : ℚ) *
    2 ^ (ReadingInterval.ofBinary b).scale = b.low := by
  have hone := Nat.one_le_iff_ne_zero.2 hm
  simp only [ReadingInterval.ofBinary, Nat.pow_eq, Binary.low, Binary.stepDown,
    ← quarter b.exponent]
  split <;> rw [Nat.cast_sub (by omega)] <;> push_cast <;> ring

theorem ofBinary_high (b : Binary) : ((ReadingInterval.ofBinary b).high : ℚ) *
    2 ^ (ReadingInterval.ofBinary b).scale = b.high := by
  simp only [ReadingInterval.ofBinary, Binary.high, ← quarter b.exponent]
  push_cast
  ring

theorem holds_iff (hm : b.mantissa ≠ 0) :
    (ReadingInterval.ofBinary b).holds d = true ↔ b.Near d.value := by
  have hclosed : (ReadingInterval.ofBinary b).closed = (b.mantissa % 2 == 0) := rfl
  simp only [ReadingInterval.holds, compareScaled_eq, ofBinary_low hm, ofBinary_high, hclosed]
  rcases Nat.mod_two_eq_zero_or_one b.mantissa with h | h
  · have hends : b.Near d.value ↔ b.low ≤ d.value ∧ d.value ≤ b.high :=
      ⟨fun h => ⟨h.low_le, h.le_high⟩, fun h' => ⟨h'.1, h'.2, fun ho => by omega⟩⟩
    simp [h, hends, compare_lt_iff_lt, compare_gt_iff_gt]
  · have hends : b.Near d.value ↔ b.low < d.value ∧ d.value < b.high :=
      ⟨fun h' => h'.inside h, fun h' => ⟨h'.1.le, h'.2.le, fun _ => h'⟩⟩
    simp [h, hends, compare_lt_iff_lt, compare_gt_iff_gt]

/-! ## The search -/

theorem choose_holds {i : ReadingInterval} {below above : Decimal}
    (h : i.choose below above = some d) : i.holds d = true := by
  unfold ReadingInterval.choose at h
  split at h <;> grind

theorem choose_eq_none {i : ReadingInterval} {below above : Decimal}
    (h : i.choose below above = none) : i.holds below = false ∧ i.holds above = false := by
  unfold ReadingInterval.choose at h
  split at h <;> grind

/-- What the search finds has passed the test. -/
theorem shortestFrom_holds {i : ReadingInterval} {leading : ℤ} {rounds count : ℕ}
    (h : shortestFrom i num den leading rounds count = some d) : i.holds d = true := by
  induction rounds generalizing count with
  | zero => cases h
  | succ rounds ih =>
    rw [shortestFrom, Option.orElse_eq_or, Option.or_eq_some_iff] at h
    rcases h with h | ⟨-, h⟩
    · exact choose_holds h
    · exact ih h

/-- The greatest number of steps of the grid `10 ^ e` below a fraction. -/
def stepsBelow (num den : ℕ) (e : ℤ) : ℕ := num * 10 ^ (-e).toNat / (den * 10 ^ e.toNat)

/-- If the search finds nothing, no neighbour on any of its grids has passed the test. -/
theorem shortestFrom_eq_none {i : ReadingInterval} {leading : ℤ} {rounds count : ℕ}
    (h : shortestFrom i num den leading rounds count = none) {k : ℕ} (hk : k < rounds) :
    let e := leading - (count + k - 1 : ℕ)
    i.holds ⟨stepsBelow num den e, e⟩ = false ∧ i.holds ⟨stepsBelow num den e + 1, e⟩ = false := by
  induction rounds generalizing count k with
  | zero => omega
  | succ rounds ih =>
    rw [shortestFrom, Option.orElse_eq_or, Option.or_eq_none_iff] at h
    cases k with
    | zero => exact choose_eq_none h.1
    | succ k =>
      have := ih h.2 (Nat.lt_of_succ_lt_succ hk)
      rwa [Nat.add_right_comm] at this

/-! ## Seventeen digits -/

theorem stepsBelow_bounds (num : ℕ) (hd : 0 < den) (e : ℤ) :
    stepsBelow num den e * (10 : ℚ) ^ e ≤ num / den ∧
      (num / den : ℚ) < (stepsBelow num den e + 1) * 10 ^ e := by
  have hp : (0 : ℚ) < 10 ^ e := by positivity
  have hD : 0 < den * 10 ^ e.toNat := by positivity
  have hratio := scaled_ratio 10 num den e
  rw [Nat.cast_ofNat] at hratio
  rw [← le_div_iff₀ hp, ← div_lt_iff₀ hp, ← hratio]
  rw [le_div_iff₀ (by exact_mod_cast hD), div_lt_iff₀ (by exact_mod_cast hD)]
  constructor
  · exact_mod_cast Nat.div_mul_le_self _ _
  · exact_mod_cast (Nat.div_lt_iff_lt_mul hD).1 (Nat.lt_succ_self _)

theorem ratio_eq (b : Binary) : (b.ratio.1 / b.ratio.2 : ℚ) = b.value := by
  simp only [Binary.ratio, Nat.pow_eq, Binary.value, zpow_eq_div b.exponent]
  push_cast
  ring

/-- The leading digit of a fraction is not above it. -/
theorem leadingExponent_le (hn : num ≠ 0) (hd : 0 < den) :
    (10 : ℚ) ^ leadingExponent num den ≤ num / den := by
  obtain ⟨k, hk, hlow, hhigh⟩ := digits_bounds hn
  obtain ⟨l, hl, hlow', hhigh'⟩ := digits_bounds hd.ne'
  have hbounds := (ratio_bounds (by decide : 1 < 10) hlow hhigh hlow' hhigh').1
  have hz : ((k + 1 : ℕ) : ℤ) - (l + 1 : ℕ) = k - l := by push_cast; ring
  simp only [leadingExponent, Nat.pow_eq, hk, hl, hz, scaled_lt_iff (by decide : 0 < 10) hd]
  split
  · exact_mod_cast hbounds
  · next h => exact_mod_cast not_lt.1 h

/-- A grid that is finer than the sixteenth digit is finer than the interval is wide. -/
theorem lt_width {g : ℚ} (hb : b.Regular) (hg : g * 10 ^ 16 ≤ b.value) :
    b.low + g < b.high := by
  have hp := Binary.two_zpow_pos b.exponent
  unfold Binary.value at hg
  unfold Binary.low Binary.high Binary.stepDown
  split
  · next h =>
    rw [h.1] at hg ⊢
    push_cast at hg ⊢
    linarith
  · have hlt : (b.mantissa : ℚ) * 2 ^ b.exponent ≤ 2 ^ 53 * 2 ^ b.exponent :=
      mul_le_mul_of_nonneg_right (by exact_mod_cast hb.mantissa_lt.le) hp.le
    linarith

/-- Of the two neighbours of a number on such a grid, one is near it. -/
theorem near_of_grid {g : ℚ} {k : ℕ} (hb : b.Regular) (hg : g * 10 ^ 16 ≤ b.value)
    (hlow : k * g ≤ b.value) (hhigh : b.value < (k + 1) * g) :
    b.Near (k * g) ∨ b.Near ((k + 1) * g) := by
  have hp := Binary.two_zpow_pos b.exponent
  have hwidth := lt_width hb hg
  have hvalue : b.low < b.value ∧ b.value < b.high := by
    constructor
    · exact mul_lt_mul_of_pos_right (by linarith [b.stepDown_pos]) hp
    · exact mul_lt_mul_of_pos_right (by linarith) hp
  have hnear : ∀ v, b.low < v → v < b.high → b.Near v := fun v h h' =>
    ⟨h.le, h'.le, fun _ => ⟨h, h'⟩⟩
  rcases lt_or_ge b.low (k * g) with h | h
  · exact Or.inl (hnear _ h (hlow.trans_lt hvalue.2))
  · exact Or.inr (hnear _ (hvalue.1.trans hhigh) (by linarith))

/-- **The shortest decimal is near its number.** -/
theorem shortest_near (hb : b.Regular) (hm : b.mantissa ≠ 0) : b.Near (shortest b).value := by
  have hden : 0 < b.ratio.2 := by simp [Binary.ratio]
  have hnum : b.ratio.1 ≠ 0 := by simp [Binary.ratio, hm]
  rw [shortest, if_neg hm]
  simp only
  cases hfound : shortestFrom (.ofBinary b) b.ratio.1 b.ratio.2
      (leadingExponent b.ratio.1 b.ratio.2) 17 1 with
  | some d => exact (holds_iff hm).1 (shortestFrom_holds hfound)
  | none =>
    exfalso
    obtain ⟨hbelow, habove⟩ := shortestFrom_eq_none hfound (by decide : 16 < 17)
    have hlead := leadingExponent_le hnum hden
    generalize leadingExponent b.ratio.1 b.ratio.2 = leading at hbelow habove hlead
    obtain ⟨hlow, hhigh⟩ := stepsBelow_bounds b.ratio.1 hden (leading - 16)
    rw [ratio_eq] at hlead hlow hhigh
    have hg : (10 : ℚ) ^ (leading - 16) * 10 ^ 16 ≤ b.value := by
      refine le_of_eq_of_le ?_ hlead
      rw [← zpow_natCast, ← zpow_add₀ (by norm_num)]
      congr 1
      omega
    rcases near_of_grid hb hg hlow hhigh with h | h
    · exact Bool.false_ne_true (hbelow.symm.trans ((holds_iff hm).2 h))
    · rw [← Nat.cast_succ] at h
      exact Bool.false_ne_true (habove.symm.trans ((holds_iff hm).2 h))

end BoxScript.Number
