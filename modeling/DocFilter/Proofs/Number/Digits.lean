import DocFilter.Number.Decimal
import Mathlib.Data.List.Induction
import Mathlib.Data.List.TakeDrop
import Mathlib.Tactic.Ring

/-!
# Decimal digits

The value of a run of digits, and the run of digits at the front of a text.

* `natOfDigits_append` splits a run of digits, `natOfDigits_toDigits` reads back the digits of a number.
* `Double.digitCount_le_iff` bounds a number by how many digits it has.
* `spanDigits_append` says that digits are read up to the first character that is none, and `spanDigits_eq_append`
  and `spanSign_suffix` that nothing is lost of a text that is cut after its digits or its sign.
-/

namespace DocFilter

variable {c : Char} {cs ds rest : List Char} {n k : Nat}

/-! ## Characters -/

/-- A decimal digit. -/
def IsDigit (c : Char) : Prop := '0' ≤ c ∧ c ≤ '9'

instance : DecidablePred IsDigit := fun c => inferInstanceAs (Decidable ('0' ≤ c ∧ c ≤ '9'))

theorem isDigit_iff : IsDigit c ↔ 0x30 ≤ c.toNat ∧ c.toNat ≤ 0x39 := by
  simp [IsDigit, Char.le_def, UInt32.le_iff_toNat_le]

/-- Some characters that are all digits. -/
abbrev Digits (cs : List Char) : Prop := ∀ c ∈ cs, IsDigit c

theorem digits_toDigits (n : Nat) : Digits (Nat.toDigits 10 n) := fun c hc => by
  have hdigit := Nat.isDigit_of_mem_toDigits (by decide) (by decide) hc
  rw [isDigit_iff]
  simpa [Char.isDigit, UInt32.le_iff_toNat_le] using hdigit

theorem digits_replicate_zero (k : Nat) : Digits (List.replicate k '0') := fun c hc => by
  rw [List.eq_of_mem_replicate hc]
  decide

/-! ## Values -/

theorem digitValue?_getD (h : IsDigit c) : (digitValue? c).getD 0 = c.toNat - 0x30 := by
  simp [digitValue?, show '0' ≤ c ∧ c ≤ '9' from h]

theorem natOfDigits_append_singleton (cs : List Char) (c : Char) :
    natOfDigits (cs ++ [c]) = natOfDigits cs * 10 + (digitValue? c).getD 0 := by
  rw [natOfDigits, List.foldl_append]
  rfl

theorem natOfDigits_append (cs ds : List Char) :
    natOfDigits (cs ++ ds) = natOfDigits cs * 10 ^ ds.length + natOfDigits ds := by
  induction ds using List.reverseRecOn with
  | nil => simp [natOfDigits]
  | append_singleton ds d ih =>
    rw [← List.append_assoc, natOfDigits_append_singleton, ih, natOfDigits_append_singleton,
      List.length_append, List.length_singleton, pow_succ]
    ring

theorem natOfDigits_replicate_zero (k : Nat) : natOfDigits (List.replicate k '0') = 0 := by
  induction k with
  | zero => rfl
  | succ k ih => rw [List.replicate_succ', natOfDigits_append_singleton, ih]; rfl

theorem natOfDigits_zero_cons (cs : List Char) : natOfDigits ('0' :: cs) = natOfDigits cs := rfl

theorem natOfDigits_toDigits (n : Nat) : natOfDigits (Nat.toDigits 10 n) = n := by
  have hfold : ∀ (cs : List Char) (start : Nat), Digits cs →
      cs.foldl (fun value c => value * 10 + (digitValue? c).getD 0) start =
        Nat.ofDigitChars 10 cs start := by
    intro cs
    induction cs with
    | nil => exact fun _ _ => rfl
    | cons c cs ih =>
      intro start h
      rw [List.foldl_cons, digitValue?_getD (h c (by simp)), ih _ fun d hd => h d (by simp [hd]),
        Nat.ofDigitChars, Nat.ofDigitChars, List.foldl_cons, Nat.mul_comm]
      rfl
  rw [natOfDigits, hfold _ _ (digits_toDigits n), Nat.ofDigitChars_toDigits (by decide) (by decide)]

theorem natOfDigits_lt (h : Digits cs) : natOfDigits cs < 10 ^ cs.length := by
  induction cs using List.reverseRecOn with
  | nil => simp [natOfDigits]
  | append_singleton cs c ih =>
    have hc := isDigit_iff.mp (h c (by simp))
    have hcs := ih fun d hd => h d (by simp [hd])
    rw [natOfDigits_append_singleton, digitValue?_getD (h c (by simp)), List.length_append,
      List.length_singleton, pow_succ]
    omega

namespace Double

theorem digitCount_pos (n : Nat) : 0 < digitCount n := Nat.length_toDigits_pos

theorem digitCount_le_iff (hk : 0 < k) : digitCount n ≤ k ↔ n < 10 ^ k :=
  Nat.length_toDigits_le_iff (by decide) hk

theorem lt_pow_digitCount (n : Nat) : n < 10 ^ digitCount n :=
  (digitCount_le_iff (digitCount_pos n)).mp (Nat.le_refl _)

theorem pow_le_of_digitCount (hn : 0 < n) : 10 ^ (digitCount n - 1) ≤ n := by
  rcases Nat.eq_or_lt_of_le (digitCount_pos n) with hone | hmore
  · rwa [← hone]
  · by_contra hless
    have := (digitCount_le_iff (by omega)).mpr (Nat.lt_of_not_le hless)
    omega

theorem digitCount_eq (hlow : 10 ^ k ≤ n) (hhigh : n < 10 ^ (k + 1)) : digitCount n = k + 1 := by
  refine Nat.le_antisymm ((digitCount_le_iff (by omega)).mpr hhigh) ?_
  rcases Nat.eq_zero_or_pos k with rfl | hk
  · exact digitCount_pos n
  · by_contra hless
    have := (digitCount_le_iff (n := n) hk).mp (by omega)
    omega

/-- A zero at the end is one more digit. -/
theorem digitCount_mul_pow (hn : 0 < n) : digitCount (n * 10 ^ k) = digitCount n + k := by
  have hlow := pow_le_of_digitCount hn
  have hhigh := lt_pow_digitCount n
  have hcount := digitCount_pos n
  have hpow : 0 < 10 ^ k := Nat.pow_pos (by decide)
  have heq : digitCount n + k = digitCount n - 1 + k + 1 := by omega
  rw [heq]
  refine digitCount_eq ?_ ?_
  · rw [pow_add]
    exact Nat.mul_le_mul_right _ hlow
  · rw [← heq, pow_add]
    exact Nat.mul_lt_mul_of_pos_right hhigh hpow

end Double

/-! ## Runs of digits at the front of a text -/

/-- A text that does not begin with a digit. -/
def NoDigit (rest : List Char) : Prop := ∀ c ∈ rest.head?, ¬ IsDigit c

theorem spanDigits_append (hcs : Digits cs) (hrest : NoDigit rest) :
    spanDigits (cs ++ rest) = (cs, rest) := by
  have htake : rest.takeWhile (fun c => decide ('0' ≤ c ∧ c ≤ '9')) = [] ∧
      rest.dropWhile (fun c => decide ('0' ≤ c ∧ c ≤ '9')) = rest := by
    cases rest with
    | nil => exact ⟨rfl, rfl⟩
    | cons c rest =>
      have hc : ¬ ('0' ≤ c ∧ c ≤ '9') := hrest c rfl
      simp [hc]
  have hall : ∀ c ∈ cs, decide ('0' ≤ c ∧ c ≤ '9') = true := fun c hc => decide_eq_true (hcs c hc)
  rw [spanDigits, List.span_eq_takeWhile_dropWhile, List.takeWhile_append_of_pos hall,
    List.dropWhile_append_of_pos hall, htake.1, htake.2, List.append_nil]

theorem spanDigits_eq_append (h : spanDigits cs = (ds, rest)) : cs = ds ++ rest := by
  rw [spanDigits, List.span_eq_takeWhile_dropWhile] at h
  obtain ⟨rfl, rfl⟩ := Prod.mk.inj h
  exact List.takeWhile_append_dropWhile.symm

theorem spanSign_suffix (cs : List Char) : (spanSign cs).2 <:+ cs := by
  rw [spanSign.eq_def]
  split
  · exact List.suffix_cons _ _
  · exact List.suffix_cons _ _
  · exact List.suffix_refl _

end DocFilter
