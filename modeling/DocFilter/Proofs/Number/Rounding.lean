import DocFilter.Number.Double
import Mathlib.Algebra.Order.Field.Power
import Mathlib.Algebra.Order.Field.Rat
import Mathlib.Tactic.Linarith
import Mathlib.Tactic.Positivity

/-!
# Rounding to double precision

`Double.ofRatio` rounds a ratio of naturals.  Its steps are stated here over the rational number that the
ratio is, so that what it gives depends on that number alone.

* `Double.Canonical` is the one form that each number has.
* `Double.exponentOf_spec` is the exponent of a ratio, between two powers of two.
* `Double.canonical_ofRatio` says that rounding gives a number in its one form.
* `Double.ofRatio_congr` says that equal ratios are rounded alike.
* `Double.ofRatio_of_near` says that a ratio nearer to a number than half the step to its neighbour is
  rounded to it.  Below a power of two the steps are half as wide.
-/

namespace DocFilter

/-! ## The nearest whole number -/

variable {n d m : Nat}

theorem roundQuotient_cases (n d : Nat) : roundQuotient n d = n / d ∧ 2 * (n % d) ≤ d ∨
    roundQuotient n d = n / d + 1 ∧ d ≤ 2 * (n % d) := by
  rw [roundQuotient]
  split
  · omega
  · split <;> omega

/-- A ratio nearer to a whole number than one half is rounded to it. -/
theorem roundQuotient_of_near (hd : 0 < d) (h : |(n : ℚ) / d - m| < 1 / 2) : roundQuotient n d = m := by
  have hpos : (0 : ℚ) < d := by exact_mod_cast hd
  obtain ⟨hlow, hhigh⟩ := abs_lt.mp h
  have hbelow : 2 * (d * m) < 2 * n + d := by
    have hlt : (m : ℚ) - 1 / 2 < n / d := by linarith
    rw [lt_div_iff₀ hpos] at hlt
    have : (2 : ℚ) * (d * m) < 2 * n + d := by linarith
    exact_mod_cast this
  have habove : 2 * n < 2 * (d * m) + d := by
    have hlt : (n : ℚ) / d < m + 1 / 2 := by linarith
    rw [div_lt_iff₀ hpos] at hlt
    have : (2 : ℚ) * n < 2 * (d * m) + d := by linarith
    exact_mod_cast this
  have hdivide := Nat.div_add_mod n d
  have hmod := Nat.mod_lt n hd
  have hle : ∀ {a b : Nat}, d * a < d * b + d → a ≤ b := fun h =>
    Nat.le_of_lt_succ (Nat.lt_of_mul_lt_mul_left (by rwa [Nat.mul_succ]))
  rw [roundQuotient]
  split
  · exact Nat.le_antisymm (hle (by omega)) (hle (by omega))
  · split
    · have hup : d * (n / d + 1) = d * (n / d) + d := Nat.mul_succ _ _
      exact Nat.le_antisymm (hle (by omega)) (hle (by omega))
    · have hle' : m ≤ n / d := hle (by omega)
      have hlt : n / d < m := Nat.lt_of_mul_lt_mul_left (a := d) (by omega)
      omega

/-- Rounding is off by one half at most. -/
theorem abs_sub_roundQuotient_le (hd : 0 < d) : |(n : ℚ) / d - roundQuotient n d| ≤ 1 / 2 := by
  have hpos : (0 : ℚ) < d := by exact_mod_cast hd
  have hdivide : (d : ℚ) * (n / d : ℕ) + (n % d : ℕ) = n := by exact_mod_cast Nat.div_add_mod n d
  have hquotient : (n : ℚ) / d = (n / d : ℕ) + (n % d : ℕ) / d := by
    rw [← hdivide, add_div, mul_div_cancel_left₀ _ hpos.ne']
  rw [hquotient, abs_le]
  rcases roundQuotient_cases n d with ⟨heq, hrest⟩ | ⟨heq, hrest⟩
  · have hrest : 2 * ((n % d : ℕ) : ℚ) ≤ d := by exact_mod_cast hrest
    have hhalf : ((n % d : ℕ) : ℚ) / d ≤ 1 / 2 := by
      rw [div_le_iff₀ hpos]
      linarith
    have hnonneg : 0 ≤ ((n % d : ℕ) : ℚ) / d := by positivity
    rw [heq]
    constructor <;> linarith
  · have hrest : (d : ℚ) ≤ 2 * ((n % d : ℕ) : ℚ) := by exact_mod_cast hrest
    have hhalf : 1 / 2 ≤ ((n % d : ℕ) : ℚ) / d := by
      rw [le_div_iff₀ hpos]
      linarith
    have hless : ((n % d : ℕ) : ℚ) / d < 1 := by
      rw [div_lt_one hpos]
      exact_mod_cast Nat.mod_lt n hd
    rw [heq]
    push_cast
    constructor <;> linarith

theorem roundQuotient_le (h : n ≤ m * d) (hd : 0 < d) : roundQuotient n d ≤ m := by
  have hle : n / d ≤ m := Nat.div_le_of_le_mul (by rwa [Nat.mul_comm])
  rcases roundQuotient_cases n d with ⟨heq, -⟩ | ⟨heq, hrest⟩
  · rwa [heq]
  · have hne : n / d ≠ m := by
      rintro rfl
      have hdivide := Nat.div_add_mod n d
      rw [Nat.mul_comm] at h
      omega
    omega

theorem le_roundQuotient (h : m * d ≤ n) (hd : 0 < d) : m ≤ roundQuotient n d := by
  have hle : m ≤ n / d := (Nat.le_div_iff_mul_le hd).mpr h
  rcases roundQuotient_cases n d with ⟨heq, -⟩ | ⟨heq, -⟩ <;> omega

theorem roundQuotient_mul {c : Nat} (hc : 0 < c) : roundQuotient (c * n) (c * d) = roundQuotient n d := by
  have hless : 2 * (c * (n % d)) < c * d ↔ 2 * (n % d) < d := by
    rw [Nat.mul_left_comm, Nat.mul_lt_mul_left hc]
  have hmore : c * d < 2 * (c * (n % d)) ↔ d < 2 * (n % d) := by
    rw [Nat.mul_left_comm, Nat.mul_lt_mul_left hc]
  simp only [roundQuotient, Nat.mul_div_mul_left _ _ hc, Nat.mul_mod_mul_left, hless, hmore]

namespace Double

/-! ## Numbers in their one form -/

/-- A finite number has a mantissa of 53 bits, or the least exponent and a smaller mantissa. -/
def Canonical : Double → Prop
  | finite _ mantissa exponent => mantissa < 2 ^ 53 ∧ minExponent ≤ exponent ∧ exponent ≤ maxExponent ∧
      (2 ^ 52 ≤ mantissa ∨ exponent = minExponent)
  | _ => True

instance : (x : Double) → Decidable x.Canonical
  | finite _ mantissa exponent =>
    inferInstanceAs (Decidable (mantissa < 2 ^ 53 ∧ minExponent ≤ exponent ∧ exponent ≤ maxExponent ∧
      (2 ^ 52 ≤ mantissa ∨ exponent = minExponent)))
  | nan | infinite _ => .isTrue trivial

/-! ## Scaling -/

variable {num den : Nat} {e : Int} {negative : Bool}

theorem two_zpow_pos (e : Int) : (0 : ℚ) < 2 ^ e := by positivity

theorem two_zpow_succ (e : Int) : (2 : ℚ) ^ (e + 1) = 2 ^ e * 2 := zpow_add_one₀ (by norm_num) e

theorem pos_scaleRatio (hd : 0 < den) : 0 < (scaleRatio num den e).2 := by
  rw [scaleRatio]
  split
  · exact Nat.mul_pos hd (Nat.two_pow_pos _)
  · exact hd

/-- Scaling divides the ratio by a power of two. -/
theorem scaleRatio_eq :
    ((scaleRatio num den e).1 : ℚ) / (scaleRatio num den e).2 = num / den / 2 ^ e := by
  rw [scaleRatio]
  split
  · rename_i he
    obtain ⟨k, rfl⟩ := Int.eq_ofNat_of_zero_le he
    simp [div_div]
  · rename_i he
    obtain ⟨k, rfl⟩ : ∃ k : Nat, e = -k := ⟨(-e).toNat, by omega⟩
    simp [mul_div_right_comm]

theorem scaleRatio_mul (c : Nat) : scaleRatio (c * num) (c * den) e =
    (c * (scaleRatio num den e).1, c * (scaleRatio num den e).2) := by
  rw [scaleRatio, scaleRatio]
  split <;> simp [Nat.mul_assoc]

/-! ## The exponent -/

/-- Two powers of two that a ratio lies between, as far apart as the mantissas of one exponent. -/
def Within (y : ℚ) (e : Int) : Prop := 2 ^ 52 * 2 ^ e ≤ y ∧ y < 2 ^ 53 * 2 ^ e

variable {y : ℚ} {e' : Int}

theorem le_of_powers (h : (2 : ℚ) ^ 52 * 2 ^ e < 2 ^ 53 * 2 ^ e') : e ≤ e' := by
  have hpow : (2 : ℚ) ^ e < 2 ^ (e' + 1) := by
    rw [two_zpow_succ]
    linarith
  have hlt := (zpow_lt_zpow_iff_right₀ (by norm_num : (1 : ℚ) < 2)).mp hpow
  omega

theorem Within.unique (h : Within y e) (h' : Within y e') : e = e' :=
  le_antisymm (le_of_powers (h.1.trans_lt h'.2)) (le_of_powers (h'.1.trans_lt h.2))

/-- A number lies between the power of two of its leading bit and the next one. -/
theorem log2_bounds {n : Nat} (hn : 0 < n) :
    (2 : ℚ) ^ (n.log2 : ℤ) ≤ n ∧ (n : ℚ) < 2 ^ (n.log2 : ℤ) * 2 := by
  rw [zpow_natCast, ← pow_succ]
  exact ⟨by exact_mod_cast Nat.log2_self_le hn.ne', by exact_mod_cast Nat.lt_log2_self⟩

/-- The exponent that the leading bits of a ratio suggest is right or one too much. -/
theorem guess_bounds (hn : 0 < num) (hd : 0 < den) {g : Int} (hg : (num.log2 : Int) - den.log2 - 52 = g) :
    2 ^ 51 * 2 ^ g < (num : ℚ) / den ∧ (num : ℚ) / den < 2 ^ 53 * 2 ^ g := by
  have hden : (0 : ℚ) < den := by exact_mod_cast hd
  obtain ⟨hnlow, hnhigh⟩ := log2_bounds hn
  obtain ⟨hdlow, hdhigh⟩ := log2_bounds hd
  have hsum : (2 : ℚ) ^ (num.log2 : ℤ) = 2 ^ 52 * 2 ^ g * 2 ^ (den.log2 : ℤ) := by
    have hexp : (num.log2 : ℤ) = 52 + g + den.log2 := by omega
    rw [hexp, zpow_add₀ (by norm_num), zpow_add₀ (by norm_num)]
    norm_num
  have hpow := two_zpow_pos g
  constructor
  · rw [lt_div_iff₀ hden]
    nlinarith
  · rw [div_lt_iff₀ hden]
    nlinarith

/-- The comparison of the scaled ratio is one of the ratio with a power of two. -/
theorem scaleRatio_lt_iff (hd : 0 < den) :
    (scaleRatio num den e).1 < (scaleRatio num den e).2 * 2 ^ 52 ↔ (num : ℚ) / den < 2 ^ 52 * 2 ^ e := by
  have hscaled : (0 : ℚ) < (scaleRatio num den e).2 := by exact_mod_cast pos_scaleRatio hd
  rw [← div_lt_iff₀ (two_zpow_pos e), ← scaleRatio_eq, div_lt_iff₀ hscaled, mul_comm]
  norm_cast

/-- The exponent of a ratio is the one at which its mantissa has 53 bits, if it is not below the least. -/
theorem exponentOf_spec (hn : 0 < num) (hd : 0 < den) :
    ∃ e, Within ((num : ℚ) / den) e ∧ exponentOf num den = max minExponent e := by
  obtain ⟨g, hg⟩ : ∃ g : Int, (num.log2 : Int) - den.log2 - 52 = g := ⟨_, rfl⟩
  obtain ⟨hlow, hhigh⟩ := guess_bounds hn hd hg
  have hdef : exponentOf num den = max minExponent
      (if (scaleRatio num den g).1 < (scaleRatio num den g).2 * 2 ^ 52 then g - 1 else g) := by
    rw [exponentOf]
    dsimp only
    rw [hg]
    rfl
  rw [hdef]
  split
  · rename_i hless
    have hbelow := (scaleRatio_lt_iff hd).mp hless
    have hhalf := two_zpow_succ (g - 1)
    rw [Int.sub_add_cancel] at hhalf
    exact ⟨g - 1, ⟨by linarith, by linarith⟩, rfl⟩
  · rename_i hmore
    rw [scaleRatio_lt_iff hd, not_lt] at hmore
    exact ⟨g, ⟨hmore, hhigh⟩, rfl⟩

theorem exponentOf_of_within (hn : 0 < num) (hd : 0 < den) (h : Within ((num : ℚ) / den) e) :
    exponentOf num den = max minExponent e := by
  obtain ⟨e', hwithin, heq⟩ := exponentOf_spec hn hd
  rw [heq, h.unique hwithin]

theorem exponentOf_of_small (hn : 0 < num) (hd : 0 < den)
    (h : (num : ℚ) / den < 2 ^ 53 * 2 ^ minExponent) : exponentOf num den = minExponent := by
  obtain ⟨e, hwithin, heq⟩ := exponentOf_spec hn hd
  rw [heq]
  exact max_eq_left (le_of_powers (hwithin.1.trans_lt h))

theorem exponentOf_mul {c : Nat} (hc : 0 < c) (hn : 0 < num) (hd : 0 < den) :
    exponentOf (c * num) (c * den) = exponentOf num den := by
  obtain ⟨e, hwithin, heq⟩ := exponentOf_spec hn hd
  have hratio : ((c * num : ℕ) : ℚ) / (c * den : ℕ) = num / den := by
    have : (c : ℚ) ≠ 0 := by exact_mod_cast hc.ne'
    push_cast
    exact mul_div_mul_left _ _ this
  rw [heq]
  exact exponentOf_of_within (Nat.mul_pos hc hn) (Nat.mul_pos hc hd) (hratio ▸ hwithin)

/-! ## Rounding -/

theorem ofRatio_eq_settle (hn : 0 < num) : ofRatio negative num den = settle negative
    (roundQuotient (scaleRatio num den (exponentOf num den)).1
      (scaleRatio num den (exponentOf num den)).2) (exponentOf num den) := by
  rw [ofRatio, if_neg hn.ne']

theorem canonical_settle (hm : m ≤ 2 ^ 53) (he : minExponent ≤ e)
    (hform : 2 ^ 52 ≤ m ∨ e = minExponent) : (settle negative m e).Canonical := by
  have hbounded : ∀ {m e}, m < 2 ^ 53 → minExponent ≤ e → (2 ^ 52 ≤ m ∨ e = minExponent) →
      (bounded negative m e).Canonical := by
    intro m e hm he hform
    rw [bounded]
    split
    · trivial
    · exact ⟨hm, he, by omega, hform⟩
  rw [settle]
  split
  · exact hbounded (by norm_num) (by omega) (.inl (Nat.le_refl _))
  · rename_i hne
    exact hbounded (lt_of_le_of_ne hm hne) he hform

/-- Rounding gives a number in its one form. -/
theorem canonical_ofRatio (hd : 0 < den) : (ofRatio negative num den).Canonical := by
  rcases Nat.eq_zero_or_pos num with rfl | hn
  · exact show (zero negative).Canonical by cases negative <;> decide
  obtain ⟨e, hwithin, heq⟩ := exponentOf_spec hn hd
  have hpos : (0 : ℚ) < (scaleRatio num den (exponentOf num den)).2 := by
    exact_mod_cast pos_scaleRatio hd
  have hscaled : (num : ℚ) / den =
      (scaleRatio num den (exponentOf num den)).1 / (scaleRatio num den (exponentOf num den)).2 *
        2 ^ exponentOf num den := by
    rw [scaleRatio_eq, div_mul_cancel₀ _ (two_zpow_pos _).ne']
  rw [ofRatio_eq_settle hn]
  refine canonical_settle ?_ (by omega) ?_
  · refine roundQuotient_le ?_ (pos_scaleRatio hd)
    have hhigh : (num : ℚ) / den < 2 ^ 53 * 2 ^ exponentOf num den :=
      hwithin.2.trans_le (mul_le_mul_of_nonneg_left
        (zpow_le_zpow_right₀ (by norm_num) (by omega)) (by norm_num))
    rw [hscaled, mul_lt_mul_iff_left₀ (two_zpow_pos _), div_lt_iff₀ hpos] at hhigh
    exact_mod_cast hhigh.le
  · rcases le_total e minExponent with hle | hle
    · exact .inr (by rw [heq, max_eq_left hle])
    · left
      refine le_roundQuotient ?_ (pos_scaleRatio hd)
      have hlow := hwithin.1
      rw [← max_eq_right hle, ← heq, hscaled, mul_le_mul_iff_left₀ (two_zpow_pos _),
        le_div_iff₀ hpos] at hlow
      exact_mod_cast hlow

/-- Equal ratios are rounded alike. -/
theorem ofRatio_congr {num' den' : Nat} (hd : 0 < den) (hd' : 0 < den')
    (h : (num : ℚ) / den = num' / den') : ofRatio negative num den = ofRatio negative num' den' := by
  have hcross : num * den' = num' * den := by
    have hne : (den : ℚ) ≠ 0 := by exact_mod_cast hd.ne'
    have hne' : (den' : ℚ) ≠ 0 := by exact_mod_cast hd'.ne'
    rw [div_eq_div_iff hne hne'] at h
    exact_mod_cast h
  have hscale : ∀ {c num den : Nat}, 0 < c → 0 < den →
      ofRatio negative (c * num) (c * den) = ofRatio negative num den := by
    intro c num den hc hd
    rcases Nat.eq_zero_or_pos num with rfl | hn
    · simp [ofRatio]
    · rw [ofRatio_eq_settle (Nat.mul_pos hc hn), ofRatio_eq_settle hn, exponentOf_mul hc hn hd,
        scaleRatio_mul, roundQuotient_mul hc]
  rw [← hscale hd' hd, ← hscale hd hd', Nat.mul_comm den' num, hcross, Nat.mul_comm num' den,
    Nat.mul_comm den' den]

/-- The sign plays no part in rounding. -/
theorem ofRatio_of_positive (h : ofRatio false num den = .finite false m e) :
    ofRatio negative num den = .finite negative m e := by
  have hbounded : ∀ {m' e'}, bounded false m' e' = .finite false m e →
      bounded negative m' e' = .finite negative m e := by
    intro m' e' h
    rw [bounded] at h ⊢
    split at h
    · cases h
    · rename_i hmax
      cases h
      exact if_neg hmax
  rcases Nat.eq_zero_or_pos num with rfl | hn
  · have hzero : zero false = .finite false m e := h
    cases hzero
    rfl
  · rw [ofRatio_eq_settle hn, settle] at h ⊢
    split at h
    · rename_i hcarry
      rw [if_pos hcarry]
      exact hbounded h
    · rename_i hcarry
      rw [if_neg hcarry]
      exact hbounded h

theorem settle_of_lt (hm : m < 2 ^ 53) (he : e ≤ maxExponent) :
    settle negative m e = .finite negative m e := by
  have hne : m ≠ Nat.pow 2 53 := hm.ne
  rw [settle, if_neg hne]
  exact if_neg (by omega)

theorem settle_of_carry (he : e + 1 ≤ maxExponent) :
    settle negative (2 ^ 53) e = .finite negative (2 ^ 52) (e + 1) := by
  have heq : 2 ^ 53 = Nat.pow 2 53 := rfl
  rw [settle, if_pos heq]
  exact if_neg (by omega)

/-- Rounding at the right exponent. -/
theorem round_scaled (hd : 0 < den) (h : |(num : ℚ) / den - m * 2 ^ e| < 2 ^ e / 2) :
    roundQuotient (scaleRatio num den e).1 (scaleRatio num den e).2 = m := by
  refine roundQuotient_of_near (pos_scaleRatio hd) ?_
  have hpow := two_zpow_pos e
  have hsplit : (num : ℚ) / den / 2 ^ e - m = (num / den - m * 2 ^ e) / 2 ^ e := by
    rw [sub_div, mul_div_cancel_right₀ _ hpow.ne']
  rw [scaleRatio_eq, hsplit, abs_div, abs_of_pos hpow, div_lt_iff₀ hpow]
  linarith

/-- A ratio that is nearer to a number than half the step to its neighbour is rounded to it.  Where the
mantissa is the least of its exponent the step downwards is half as wide. -/
theorem ofRatio_of_near (hn : 0 < num) (hd : 0 < den)
    (hcanonical : (finite negative m e).Canonical) (hnear : |(num : ℚ) / den - m * 2 ^ e| < 2 ^ e / 2)
    (hedge : m = 2 ^ 52 → m * 2 ^ e - (num : ℚ) / den < 2 ^ e / 4) :
    ofRatio negative num den = .finite negative m e := by
  obtain ⟨hm, hmin, hmax, hform⟩ := hcanonical
  have hpow := two_zpow_pos e
  obtain ⟨hlow, hhigh⟩ := abs_lt.mp hnear
  have hmQ : (m : ℚ) + 1 ≤ 2 ^ 53 := by exact_mod_cast hm
  have hbelow : (num : ℚ) / den < 2 ^ 53 * 2 ^ e := by nlinarith
  rw [ofRatio_eq_settle hn]
  rcases le_or_gt (2 ^ 52 * 2 ^ e) ((num : ℚ) / den) with hle | hlt
  · rw [exponentOf_of_within hn hd ⟨hle, hbelow⟩, max_eq_right hmin, round_scaled hd hnear]
    exact settle_of_lt hm hmax
  rcases hmin.lt_or_eq with hless | rfl
  · have hnormal : 2 ^ 52 ≤ m := hform.resolve_right hless.ne'
    have hnormalQ : (2 : ℚ) ^ 52 ≤ m := by exact_mod_cast hnormal
    have hleast : m = 2 ^ 52 := by
      refine le_antisymm (Nat.le_of_lt_succ ?_) hnormal
      have hmless : (m : ℚ) < 2 ^ 52 + 1 := by nlinarith
      exact_mod_cast hmless
    have hhalf := two_zpow_succ (e - 1)
    rw [Int.sub_add_cancel] at hhalf
    have hquarter := hedge hleast
    subst hleast
    push_cast at hquarter hlow hhigh
    have hwithin : Within ((num : ℚ) / den) (e - 1) := ⟨by linarith, by linarith⟩
    have hcarry : roundQuotient (scaleRatio num den (e - 1)).1 (scaleRatio num den (e - 1)).2 = 2 ^ 53 := by
      refine round_scaled hd ?_
      push_cast
      rw [abs_lt]
      constructor <;> linarith
    rw [exponentOf_of_within hn hd hwithin, max_eq_right (by omega), hcarry,
      settle_of_carry (by omega), Int.sub_add_cancel]
  · rw [exponentOf_of_small hn hd hbelow, round_scaled hd hnear]
    exact settle_of_lt hm hmax

end Double

end DocFilter
