import DocFilter.Proofs.Number.Digits
import DocFilter.Proofs.Number.Rounding
import Mathlib.Tactic.NormNum.Pow

/-!
# The shortest decimal

`Double.shortest` looks for the fewest digits that read back as a number.  Seventeen digits always do: the
nearest decimal with as many is off by less than half the step between two numbers.

* `Double.ofDecimal_of_near` says when a decimal is read as a number, `Double.ofDecimal_mul_pow` that zeros
  at the end make no difference.
* `Double.decimalExponent_spec` is the power of ten just below a ratio.
* `Double.ofDecimal_shortest` says that the digits that are found read back.
-/

namespace DocFilter

namespace Double

variable {digits num den m k : Nat} {exponent e : Int} {negative : Bool}

/-! ## Decimals -/

theorem ten_zpow_pos (e : Int) : (0 : ℚ) < 10 ^ e := by positivity

/-- Decimals far outside of the range are settled by their magnitude, others are rounded as the ratios that
they are. -/
theorem ofDecimal_cases (hdigits : 0 < digits) (exponent : Int) :
    (310 < digitCount digits + exponent ∧
      ∀ negative, ofDecimal negative digits exponent = .infinite negative) ∨
    (digitCount digits + exponent < -330 ∧
      ∀ negative, ofDecimal negative digits exponent = zero negative) ∨
    ((digitCount digits + exponent ≤ 310 ∧ -330 ≤ digitCount digits + exponent) ∧
      ∃ num den : Nat, 0 < num ∧ 0 < den ∧ (num : ℚ) / den = digits * 10 ^ exponent ∧
        ∀ negative, ofDecimal negative digits exponent = ofRatio negative num den) := by
  rcases lt_or_ge 310 ((digitCount digits : Int) + exponent) with hhigh | hhigh
  · exact .inl ⟨hhigh, fun negative => by simp [ofDecimal, hdigits.ne', hhigh]⟩
  rcases lt_or_ge ((digitCount digits : Int) + exponent) (-330) with hlow | hlow
  · exact .inr (.inl ⟨hlow, fun negative => by simp [ofDecimal, hdigits.ne', hlow, hhigh.not_gt]⟩)
  refine .inr (.inr ⟨⟨hhigh, hlow⟩, ?_⟩)
  rcases le_or_gt 0 exponent with hexponent | hexponent
  · refine ⟨digits * 10 ^ exponent.toNat, 1, by positivity, by norm_num, ?_, fun negative => ?_⟩
    · obtain ⟨k, rfl⟩ := Int.eq_ofNat_of_zero_le hexponent
      simp
    · simp [ofDecimal, hdigits.ne', hlow.not_gt, hhigh.not_gt, hexponent]
  · refine ⟨digits, 10 ^ (-exponent).toNat, hdigits, by positivity, ?_, fun negative => ?_⟩
    · obtain ⟨k, rfl⟩ : ∃ k : Nat, exponent = -k := ⟨(-exponent).toNat, by omega⟩
      simp [div_eq_mul_inv]
    · simp [ofDecimal, hdigits.ne', hlow.not_gt, hhigh.not_gt, hexponent.not_ge]

@[simp] theorem ofDecimal_zero : ofDecimal negative 0 exponent = zero negative := rfl

theorem canonical_zero : (zero negative).Canonical := by
  cases negative <;> decide

theorem canonical_ofDecimal : (ofDecimal negative digits exponent).Canonical := by
  rcases Nat.eq_zero_or_pos digits with rfl | hdigits
  · exact canonical_zero
  rcases ofDecimal_cases hdigits exponent with ⟨-, heq⟩ | ⟨-, heq⟩ | ⟨-, num, den, -, hden, -, heq⟩
  · rw [heq]
    trivial
  · rw [heq]
    exact canonical_zero
  · rw [heq]
    exact canonical_ofRatio hden

/-- Zeros at the end of the digits make no difference. -/
theorem ofDecimal_mul_pow (digits : Nat) (exponent : Int) (k : Nat) :
    ofDecimal negative (digits * 10 ^ k) (exponent - k) = ofDecimal negative digits exponent := by
  rcases Nat.eq_zero_or_pos digits with rfl | hdigits
  · rw [Nat.zero_mul, ofDecimal_zero, ofDecimal_zero]
  have hmore : 0 < digits * 10 ^ k := by positivity
  have hcount := digitCount_mul_pow (k := k) hdigits
  have hvalue : ((digits * 10 ^ k : ℕ) : ℚ) * 10 ^ (exponent - k) = digits * 10 ^ exponent := by
    have hten : (10 : ℚ) ^ k ≠ 0 := by positivity
    rw [zpow_sub₀ (by norm_num), zpow_natCast]
    push_cast
    rw [mul_assoc, mul_div_cancel₀ _ hten]
  rcases ofDecimal_cases hmore (exponent - k) with ⟨hM, heq⟩ | ⟨hM, heq⟩ |
      ⟨hM, num, den, -, hden, hratio, heq⟩ <;>
    rcases ofDecimal_cases hdigits exponent with ⟨hM', heq'⟩ | ⟨hM', heq'⟩ |
      ⟨hM', num', den', -, hden', hratio', heq'⟩
  all_goals first
    | omega
    | rw [heq, heq']
  exact ofRatio_congr hden hden' (by rw [hratio, hratio', hvalue])

theorem ofDecimal_of_positive (negative : Bool) (h : ofDecimal false digits exponent = .finite false m e) :
    ofDecimal negative digits exponent = .finite negative m e := by
  rcases Nat.eq_zero_or_pos digits with rfl | hdigits
  · rw [ofDecimal_zero] at h ⊢
    cases h
    rfl
  rcases ofDecimal_cases hdigits exponent with ⟨-, heq⟩ | ⟨-, heq⟩ | ⟨-, num, den, -, -, -, heq⟩
  · rw [heq] at h
    cases h
  · rw [heq] at h ⊢
    cases h
    rfl
  · rw [heq] at h ⊢
    exact ofRatio_of_positive h

/-! ## Finite numbers -/

theorem two_pow_le_ten_pow : (2 : ℚ) ^ (1025 : ℤ) ≤ 10 ^ (310 : ℤ) := by
  have h : (2 : ℚ) ^ 205 ≤ 10 ^ 62 := by norm_num
  calc (2 : ℚ) ^ (1025 : ℤ) = (2 ^ 205) ^ 5 := by rw [← pow_mul]; rfl
    _ ≤ (10 ^ 62) ^ 5 := pow_le_pow_left₀ (by positivity) h 5
    _ = 10 ^ (310 : ℤ) := by rw [← pow_mul]; rfl

theorem ten_pow_le_two_pow : (10 : ℚ) ^ (-331 : ℤ) ≤ 2 ^ (-1075 : ℤ) := by
  have h : (2 : ℚ) ^ 215 ≤ 10 ^ 66 := by norm_num
  have hpow : (2 : ℚ) ^ 1075 ≤ 10 ^ 331 := by
    calc (2 : ℚ) ^ 1075 = (2 ^ 215) ^ 5 := by rw [← pow_mul]
      _ ≤ (10 ^ 66) ^ 5 := pow_le_pow_left₀ (by positivity) h 5
      _ = 10 ^ 330 := by rw [← pow_mul]
      _ ≤ 10 ^ 331 := pow_le_pow_right₀ (by norm_num) (by norm_num)
  rw [zpow_neg, zpow_neg, zpow_ofNat, zpow_ofNat]
  exact inv_anti₀ (by positivity) hpow

/-- A decimal lies between the powers of ten that its number of digits tells. -/
theorem decimal_bounds (hdigits : 0 < digits) (exponent : Int) :
    (10 : ℚ) ^ (digitCount digits - 1 + exponent) ≤ digits * 10 ^ exponent ∧
      (digits : ℚ) * 10 ^ exponent < 10 ^ (digitCount digits + exponent) := by
  have hcount := digitCount_pos digits
  have hten := ten_zpow_pos exponent
  have hlow : (10 : ℚ) ^ (digitCount digits - 1 : ℤ) ≤ digits := by
    have hpow : ((digitCount digits - 1 : ℕ) : ℤ) = digitCount digits - 1 := by omega
    rw [← hpow, zpow_natCast]
    exact_mod_cast pow_le_of_digitCount hdigits
  have hhigh : (digits : ℚ) < 10 ^ (digitCount digits : ℤ) := by
    rw [zpow_natCast]
    exact_mod_cast lt_pow_digitCount digits
  rw [zpow_add₀ (by norm_num), zpow_add₀ (by norm_num)]
  exact ⟨mul_le_mul_of_nonneg_right hlow hten.le, mul_lt_mul_of_pos_right hhigh hten⟩

/-- A decimal that lies between the powers of two around the finite numbers is read as the double of a
ratio that it equals. -/
theorem ofDecimal_inRange (hdigits : 0 < digits) (habove : (2 : ℚ) ^ (-1075 : ℤ) < digits * 10 ^ exponent)
    (hbelow : (digits : ℚ) * 10 ^ exponent < 2 ^ (1025 : ℤ)) :
    ∃ num den : Nat, 0 < num ∧ 0 < den ∧ (num : ℚ) / den = digits * 10 ^ exponent ∧
      ∀ negative, ofDecimal negative digits exponent = ofRatio negative num den := by
  obtain ⟨hlow, hhigh⟩ := decimal_bounds hdigits exponent
  rcases ofDecimal_cases hdigits exponent with ⟨hM, -⟩ | ⟨hM, -⟩ | ⟨-, num, den, hn, hd, hratio, heq⟩
  · have hlarge : (10 : ℚ) ^ (310 : ℤ) ≤ 10 ^ (digitCount digits - 1 + exponent) :=
      zpow_le_zpow_right₀ (by norm_num) (by omega)
    exact absurd two_pow_le_ten_pow ((hlarge.trans hlow).trans_lt hbelow).not_ge
  · have hsmall : (10 : ℚ) ^ (digitCount digits + exponent) ≤ 10 ^ (-331 : ℤ) :=
      zpow_le_zpow_right₀ (by norm_num) (by omega)
    exact absurd ten_pow_le_two_pow ((habove.trans hhigh).trans_le hsmall).not_ge
  · exact ⟨num, den, hn, hd, hratio, heq⟩

/-- A decimal near to a finite number is read as that number. -/
theorem ofDecimal_of_near (hm : 0 < m) (hcanonical : (finite negative m e).Canonical)
    (hnear : |(digits : ℚ) * 10 ^ exponent - m * 2 ^ e| < 2 ^ e / 2)
    (hedge : m = 2 ^ 52 → m * 2 ^ e - (digits : ℚ) * 10 ^ exponent < 2 ^ e / 4) :
    ofDecimal negative digits exponent = .finite negative m e := by
  obtain ⟨hless, hmin, hmax, -⟩ := id hcanonical
  obtain ⟨hlow, hhigh⟩ := abs_lt.mp hnear
  have hpow := two_zpow_pos e
  have hmQ : (1 : ℚ) ≤ m := by exact_mod_cast hm
  have hlessQ : (m : ℚ) + 1 ≤ 2 ^ 53 := by exact_mod_cast hless
  have hdigits : 0 < digits := by
    rcases Nat.eq_zero_or_pos digits with rfl | h
    · push_cast at hlow
      nlinarith
    · exact h
  have habove : (2 : ℚ) ^ (-1075 : ℤ) < digits * 10 ^ exponent := by
    have hleast : (2 : ℚ) ^ (-1075 : ℤ) * 2 ≤ 2 ^ e := by
      rw [← two_zpow_succ]
      exact zpow_le_zpow_right₀ (by norm_num) hmin
    nlinarith
  have hbelow : (digits : ℚ) * 10 ^ exponent < 2 ^ (1025 : ℤ) := by
    rw [maxExponent] at hmax
    calc (digits : ℚ) * 10 ^ exponent < (m + 1) * 2 ^ e := by linarith
      _ ≤ 2 ^ 53 * 2 ^ e := mul_le_mul_of_nonneg_right hlessQ hpow.le
      _ = 2 ^ (53 + e) := (zpow_add₀ (by norm_num) 53 e).symm
      _ ≤ 2 ^ (1025 : ℤ) := zpow_le_zpow_right₀ (by norm_num) (by omega)
  obtain ⟨num, den, hn, hd, hratio, heq⟩ := ofDecimal_inRange hdigits habove hbelow
  rw [heq]
  rw [← hratio] at hnear hedge
  exact ofRatio_of_near hn hd hcanonical hnear hedge

/-! ## The search -/

/-- The power of ten just below or at a ratio. -/
theorem decimalExponent_spec (hn : 0 < num) (hd : 0 < den) :
    (10 : ℚ) ^ decimalExponent num den ≤ num / den ∧
      (num : ℚ) / den < 10 ^ (decimalExponent num den + 1) := by
  have hnQ : (0 : ℚ) < num := by exact_mod_cast hn
  have hdQ : (0 : ℚ) < den := by exact_mod_cast hd
  rw [decimalExponent]
  split
  · rename_i hle
    have hq : 0 < num / den := Nat.div_pos hle hd
    have hcount := digitCount_pos (num / den)
    have hexp : (digitCount (num / den) : ℤ) - 1 = (digitCount (num / den) - 1 : ℕ) := by omega
    refine ⟨?_, ?_⟩
    · rw [hexp, zpow_natCast, le_div_iff₀ hdQ]
      have hle := (Nat.le_div_iff_mul_le hd).mp (pow_le_of_digitCount hq)
      exact_mod_cast hle
    · rw [sub_add_cancel, zpow_natCast, div_lt_iff₀ hdQ]
      have hlt := (Nat.div_lt_iff_lt_mul hd).mp (lt_pow_digitCount (num / den))
      exact_mod_cast hlt
  · rename_i hless
    obtain ⟨c, hc⟩ : ∃ c, (den + num - 1) / num - 1 = c := ⟨_, rfl⟩
    have hdivide := Nat.div_add_mod (den + num - 1) num
    have hmod := Nat.mod_lt (den + num - 1) hn
    have hquotient : 2 ≤ (den + num - 1) / num := (Nat.le_div_iff_mul_le hn).mpr (by omega)
    have hsplit : num * ((den + num - 1) / num) = num * c + num := by
      rw [← hc, ← Nat.mul_succ, Nat.succ_eq_add_one, Nat.sub_add_cancel (by omega)]
    have hbelow : num * c < den := by omega
    have habove : den ≤ num * (c + 1) := by
      rw [Nat.mul_succ]
      omega
    have hcpos : 0 < c := by omega
    have hcount := digitCount_pos c
    rw [hc]
    refine ⟨?_, ?_⟩
    · rw [zpow_neg, zpow_natCast, inv_le_iff_one_le_mul₀ (by positivity), div_mul_eq_mul_div,
        le_div_iff₀ hdQ, one_mul]
      have hlt : c + 1 ≤ 10 ^ digitCount c := lt_pow_digitCount c
      exact_mod_cast habove.trans (Nat.mul_le_mul_left num hlt)
    · have hexp : -(digitCount c : ℤ) + 1 = -(digitCount c - 1 : ℕ) := by omega
      rw [hexp, zpow_neg, zpow_natCast, lt_inv_comm₀ (by positivity) (by positivity), inv_div,
        lt_div_iff₀ hnQ]
      have hle := Nat.mul_le_mul_left num (pow_le_of_digitCount hcpos)
      rw [mul_comm]
      exact_mod_cast hle.trans_lt hbelow

/-- One of the neighbours on a grid is half a step away at most. -/
theorem exists_gridNeighbour (num : Nat) (hd : 0 < den) (grid : Int) :
    ∃ digits ∈ gridNeighbours num den grid,
      |(num : ℚ) / den - digits * 10 ^ grid| ≤ 10 ^ grid / 2 := by
  obtain ⟨n, d, hpos, hscaled, hmem⟩ : ∃ n d : Nat, 0 < d ∧ (n : ℚ) / d = num / den / 10 ^ grid ∧
      roundQuotient n d ∈ gridNeighbours num den grid := by
    have hnearest : ∀ n d, roundQuotient n d ∈
        if roundQuotient n d = n / d then [n / d, n / d + 1] else [n / d + 1, n / d] := by
      intro n d
      rcases roundQuotient_cases n d with ⟨heq, -⟩ | ⟨heq, -⟩ <;> simp [heq]
    rcases le_or_gt 0 grid with hgrid | hgrid
    · refine ⟨num, den * 10 ^ grid.toNat, by positivity, ?_, ?_⟩
      · obtain ⟨k, rfl⟩ := Int.eq_ofNat_of_zero_le hgrid
        simp [div_div]
      · simp only [gridNeighbours, if_pos hgrid]
        exact hnearest _ _
    · refine ⟨num * 10 ^ (-grid).toNat, den, hd, ?_, ?_⟩
      · obtain ⟨k, rfl⟩ : ∃ k : Nat, grid = -k := ⟨(-grid).toNat, by omega⟩
        simp [mul_div_right_comm]
      · simp only [gridNeighbours, if_neg hgrid.not_ge]
        exact hnearest _ _
  refine ⟨_, hmem, ?_⟩
  have hten := ten_zpow_pos grid
  have hround := abs_sub_roundQuotient_le (n := n) hpos
  have hsplit : (num : ℚ) / den - roundQuotient n d * 10 ^ grid =
      ((n : ℚ) / d - roundQuotient n d) * 10 ^ grid := by
    rw [hscaled, sub_mul, div_mul_cancel₀ _ hten.ne']
  rw [hsplit, abs_mul, abs_of_pos hten]
  linarith [mul_le_mul_of_nonneg_right hround hten.le]

theorem ofDecimal_shortestFrom {fuel count : Nat} (enough : Nat) (hfrom : count ≤ enough)
    (hfuel : enough < count + fuel)
    (h : ∃ digits ∈ gridNeighbours num den (decimalExponent num den - enough + 1),
      ofDecimal false digits (decimalExponent num den - enough + 1) = .finite false m e) :
    ofDecimal false (shortestFrom m e num den fuel count).1 (shortestFrom m e num den fuel count).2 =
      .finite false m e := by
  induction fuel generalizing count with
  | zero => omega
  | succ fuel ih =>
    rw [shortestFrom]
    split
    · rename_i digits hfind
      simpa using List.find?_some hfind
    · rename_i hnone
      refine ih ?_ (by omega)
      rcases Nat.eq_or_lt_of_le hfrom with rfl | hless
      · obtain ⟨digits, hmem, hread⟩ := h
        have hno := List.find?_eq_none.mp hnone digits hmem
        simp [hread] at hno
      · exact hless

theorem ratio_eq (m : Nat) (e : Int) : ((ratio m e).1 : ℚ) / (ratio m e).2 = m * 2 ^ e := by
  rw [ratio]
  split
  · rename_i he
    obtain ⟨k, rfl⟩ := Int.eq_ofNat_of_zero_le he
    simp
  · rename_i he
    obtain ⟨k, rfl⟩ : ∃ k : Nat, e = -k := ⟨(-e).toNat, by omega⟩
    simp [div_eq_mul_inv]

theorem pos_ratio (hm : 0 < m) : 0 < (ratio m e).1 ∧ 0 < (ratio m e).2 := by
  rw [ratio]
  split
  · exact ⟨Nat.mul_pos hm (Nat.two_pow_pos _), Nat.one_pos⟩
  · exact ⟨hm, Nat.two_pow_pos _⟩

/-- The digits that are found read back as the number.  With seventeen digits half a step of the grid is
less than half a step between numbers. -/
theorem ofDecimal_shortest (hm : 0 < m) (hcanonical : (finite false m e).Canonical) :
    ofDecimal false (shortest m e).1 (shortest m e).2 = .finite false m e := by
  obtain ⟨hn, hd⟩ := pos_ratio (e := e) hm
  have hvalue := ratio_eq m e
  have hpow := two_zpow_pos e
  have hshortest : shortest m e = shortestFrom m e (ratio m e).1 (ratio m e).2 17 1 := rfl
  rw [hshortest]
  refine ofDecimal_shortestFrom 17 (by norm_num) (by norm_num) ?_
  obtain ⟨hlow, -⟩ := decimalExponent_spec hn hd
  obtain ⟨digits, hmem, hnear⟩ :=
    exists_gridNeighbour (ratio m e).1 hd (decimalExponent (ratio m e).1 (ratio m e).2 - 16)
  rw [hvalue] at hnear hlow
  have hstep : (10 : ℚ) ^ decimalExponent (ratio m e).1 (ratio m e).2 =
      10 ^ (decimalExponent (ratio m e).1 (ratio m e).2 - 16) * 10 ^ 16 := by
    rw [zpow_sub₀ (by norm_num)]
    norm_num
  have hgrid : decimalExponent (ratio m e).1 (ratio m e).2 - (17 : ℕ) + 1 =
      decimalExponent (ratio m e).1 (ratio m e).2 - 16 := by omega
  rw [hgrid]
  rw [hstep] at hlow
  rw [abs_sub_comm] at hnear
  refine ⟨digits, hmem, ofDecimal_of_near hm hcanonical (hnear.trans_lt ?_) fun hleast => ?_⟩
  · have hmQ : (m : ℚ) < 2 ^ 53 := by exact_mod_cast hcanonical.1
    nlinarith
  · have hless := (abs_le.mp hnear).1
    subst hleast
    push_cast at hless hlow ⊢
    nlinarith

end Double

end DocFilter
