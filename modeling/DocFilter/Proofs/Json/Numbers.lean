import DocFilter.Json.Parse
import DocFilter.Json.Print
import DocFilter.Proofs.Number.Shortest
import Mathlib.Data.List.TakeWhile

/-!
# Numbers in JSON text

A number that is written is read back, as far as it is written in digits: the text after it must not go on
with what could belong to a number.

* `Json.readNumber_int` reads back a whole number that is not too long.
* `Json.readNumber_layoutDigits` reads digits that are laid out around a decimal point, in each of the
  layouts.
* `Json.floatText_finite` reads back a finite number in its one form, by its shortest decimal.
-/

namespace DocFilter

variable {c : Char} {cs ds rest tail whole fraction : List Char} {n k : Nat} {negative : Bool}

/-! ## The digits of a number -/

theorem digitChar_ne_zero (hn : 0 < n) (hten : n < 10) : n.digitChar ≠ '0' := by
  have hall : ∀ d : Fin 10, 0 < d.val → d.val.digitChar ≠ '0' := by decide
  exact hall ⟨n, hten⟩ hn

/-- The digits of a positive number do not begin with a zero. -/
theorem head?_toDigits (hn : 0 < n) : (Nat.toDigits 10 n).head? ≠ some '0' := by
  induction n using Nat.strongRecOn with
  | _ n ih =>
    rcases Nat.lt_or_ge n 10 with hless | hmore
    · rw [Nat.toDigits_of_lt_base hless]
      simpa using digitChar_ne_zero hn hless
    · have hrec := ih (n / 10) (by omega) (by omega)
      rw [Nat.toDigits_of_base_le (by decide) hmore, List.head?_append]
      cases hhead : (Nat.toDigits 10 (n / 10)).head? with
      | none => exact absurd (List.head?_eq_none_iff.mp hhead) Nat.toDigits_ne_nil
      | some d => simpa [hhead] using hrec

/-- The digits of a number are those that count, and zeros. -/
theorem significant_spec (hn : 0 < n) (e : Int) : ∃ (cs : List Char) (k : Nat),
    Double.significant n e = (cs, cs.length + k + e) ∧ Digits cs ∧ cs ≠ [] ∧ cs.head? ≠ some '0' ∧
      n = natOfDigits cs * 10 ^ k := by
  obtain ⟨cs, hcs⟩ : ∃ cs, ((Nat.toDigits 10 n).reverse.dropWhile (· == '0')).reverse = cs := ⟨_, rfl⟩
  obtain ⟨zeros, hzeros⟩ : ∃ zeros, (Nat.toDigits 10 n).reverse.takeWhile (· == '0') = zeros := ⟨_, rfl⟩
  have hall : zeros = List.replicate zeros.length '0' := by
    refine List.eq_replicate_of_mem fun c hc => ?_
    rw [← hzeros] at hc
    simpa using List.mem_takeWhile_imp hc
  have hsplit : Nat.toDigits 10 n = cs ++ List.replicate zeros.length '0' := by
    have happend := List.takeWhile_append_dropWhile (p := (· == '0')) (l := (Nat.toDigits 10 n).reverse)
    rw [hzeros, hall] at happend
    rw [← List.reverse_reverse (Nat.toDigits 10 n), ← happend, List.reverse_append, hcs,
      List.reverse_replicate]
  have hvalue : n = natOfDigits cs * 10 ^ zeros.length := by
    have h := natOfDigits_toDigits n
    rw [hsplit, natOfDigits_append, natOfDigits_replicate_zero, List.length_replicate, Nat.add_zero] at h
    exact h.symm
  have hne : cs ≠ [] := by
    rintro rfl
    rw [hvalue] at hn
    simp [natOfDigits] at hn
  refine ⟨cs, zeros.length, ?_, fun c hc => ?_, hne, ?_, hvalue⟩
  · have hlength := congrArg List.length hsplit
    rw [List.length_append, List.length_replicate] at hlength
    rw [Double.significant, hcs, hlength]
    push_cast
    rfl
  · exact digits_toDigits n c (hsplit ▸ List.mem_append_left _ hc)
  · have hhead := head?_toDigits hn
    rw [hsplit, List.head?_append] at hhead
    cases hfirst : cs.head? with
    | none => exact absurd (List.head?_eq_none_iff.mp hfirst) hne
    | some d => simpa [hfirst] using hhead

namespace Json

/-! ## The parts of a numeral -/

/-- A text that does not go on with what could belong to a number. -/
def Delimited (rest : List Char) : Prop := ∀ c ∈ rest.head?, ¬ IsDigit c ∧ c ≠ '.' ∧ c ≠ 'e' ∧ c ≠ 'E'

theorem Delimited.noDigit (h : Delimited rest) : NoDigit rest := fun c hc => (h c hc).1

theorem spanWhole_append (hcs : Digits cs) (hne : cs ≠ []) (hlead : cs = ['0'] ∨ cs.head? ≠ some '0')
    (hrest : NoDigit rest) : spanWhole (cs ++ rest) = some (cs, rest) := by
  rcases hlead with rfl | hlead
  · rfl
  · have hspan := spanDigits_append hcs hrest
    cases cs with
    | nil => exact absurd rfl hne
    | cons c cs =>
      have hc : c ≠ '0' := by simpa using hlead
      rw [List.cons_append] at hspan ⊢
      rw [spanWhole]
      · rw [hspan]
      · rintro _ h
        exact hc (List.cons.inj h).1

theorem spanFraction_append (hcs : Digits cs) (hne : cs ≠ []) (hrest : NoDigit rest) :
    spanFraction ('.' :: (cs ++ rest)) = some (cs, rest) := by
  rw [spanFraction, spanDigits_append hcs hrest]
  cases cs with
  | nil => exact absurd rfl hne
  | cons c cs => rfl

theorem spanFraction_of_ne (h : ∀ c ∈ rest.head?, c ≠ '.') : spanFraction rest = none := by
  cases rest with
  | nil => rfl
  | cons c rest =>
    rw [spanFraction]
    rintro _ heq
    exact h c rfl (List.cons.inj heq).1

theorem spanExponent_of_ne (h : ∀ c ∈ rest.head?, c ≠ 'e' ∧ c ≠ 'E') : spanExponent rest = none := by
  cases rest with
  | nil => rfl
  | cons c rest =>
    obtain ⟨hlower, hupper⟩ := h c rfl
    simp [spanExponent, hlower, hupper]

theorem spanExponent_append (n : Int) (hrest : NoDigit rest) :
    spanExponent ('e' :: (Double.exponentText n ++ rest)) = some (n, rest) := by
  obtain ⟨cs, htext, hcs, hne, hvalue⟩ : ∃ cs, Double.exponentText n = (if n < 0 then '-' else '+') :: cs ∧
      Digits cs ∧ cs ≠ [] ∧ natOfDigits cs = n.natAbs := by
    refine ⟨_, rfl, ?_⟩
    split
    · refine ⟨fun c hc => ?_, by simp, ?_⟩
      · rcases List.mem_cons.mp hc with rfl | hc
        · decide
        · exact digits_toDigits _ c hc
      · rw [natOfDigits_zero_cons, natOfDigits_toDigits]
    · exact ⟨digits_toDigits _, Nat.toDigits_ne_nil, natOfDigits_toDigits _⟩
  have hspan := spanDigits_append hcs hrest
  have hsome : spanExponent ('e' :: (Double.exponentText n ++ rest)) =
      some (if n < 0 then -(natOfDigits cs : Int) else natOfDigits cs, rest) := by
    cases cs with
    | nil => exact absurd rfl hne
    | cons c cs =>
      rw [List.cons_append] at hspan
      rw [htext]
      split <;> simp [spanExponent, spanSign, hspan]
  rw [hsome, hvalue]
  split <;> congr 2 <;> omega

/-! ## Numerals -/

/-- A text behind a sign. -/
def signed (negative : Bool) (cs : List Char) : List Char := if negative then '-' :: cs else cs

@[simp] theorem signed_append : signed negative cs ++ rest = signed negative (cs ++ rest) := by
  cases negative <;> rfl

theorem readNumber_signed (hcs : Digits whole) (hne : whole ≠ []) :
    readNumber (signed negative (whole ++ tail)) =
      readUnsigned negative (signed negative (whole ++ tail)) (whole ++ tail) := by
  cases negative with
  | true => rfl
  | false =>
    cases whole with
    | nil => exact absurd rfl hne
    | cons c whole =>
      rw [readNumber]
      · rfl
      · rintro _ h
        have hc : c = '-' := (List.cons.inj h).1
        exact absurd (hcs c (by simp)) (by rw [hc]; decide)

/-- A numeral without a fraction and an exponent is a whole number, if it is not too long. -/
theorem readUnsigned_whole {start : List Char} (hwhole : spanWhole (whole ++ tail) = some (whole, tail))
    (hfraction : spanFraction tail = none) (hexponent : spanExponent tail = none)
    (hlength : whole.length ≤ digitLimit) :
    readUnsigned negative start (whole ++ tail) =
      .ok (.int (if negative then -(natOfDigits whole : Int) else natOfDigits whole), tail) := by
  simp only [readUnsigned, hwhole, hfraction, Option.map_none, Option.getD_none, hexponent,
    if_neg hlength.not_gt]
  rfl

/-- A numeral with a fraction is a fractional number. -/
theorem readUnsigned_fraction {start : List Char} (hwhole : spanWhole (whole ++ tail) = some (whole, tail))
    (hfraction : spanFraction tail = some (fraction, rest)) (hexponent : spanExponent rest = none) :
    readUnsigned negative start (whole ++ tail) =
      .ok (.float (Numeral.toDouble ⟨negative, whole, fraction, 0⟩), rest) := by
  simp only [readUnsigned, hwhole, hfraction, Option.map_some, Option.getD_some, hexponent]
  rfl

/-- A numeral with an exponent is a fractional number, with a fraction or without. -/
theorem readUnsigned_exponent {start : List Char} {point : Option (List Char × List Char)} {e : Int}
    (hwhole : spanWhole (whole ++ tail) = some (whole, tail)) (hpoint : spanFraction tail = point)
    (hexponent : spanExponent ((point.map (·.2)).getD tail) = some (e, rest)) :
    readUnsigned negative start (whole ++ tail) =
      .ok (.float (Numeral.toDouble ⟨negative, whole, (point.map (·.1)).getD [], e⟩), rest) := by
  simp only [readUnsigned, hwhole, hpoint, hexponent, Option.isNone_some, Bool.and_false,
    Bool.false_eq_true, if_false, Option.map_some, Option.getD_some]

/-- A whole number that is not too long is read back. -/
theorem readNumber_digits (hlength : (Nat.toDigits 10 n).length ≤ digitLimit) (hrest : Delimited rest) :
    readNumber (signed negative (Nat.toDigits 10 n ++ rest)) =
      .ok (.int (if negative then -(n : Int) else n), rest) := by
  have hlead : Nat.toDigits 10 n = ['0'] ∨ (Nat.toDigits 10 n).head? ≠ some '0' := by
    rcases Nat.eq_zero_or_pos n with rfl | hn
    · exact .inl rfl
    · exact .inr (head?_toDigits hn)
  rw [readNumber_signed (digits_toDigits n) Nat.toDigits_ne_nil,
    readUnsigned_whole (spanWhole_append (digits_toDigits n) Nat.toDigits_ne_nil hlead hrest.noDigit)
      (spanFraction_of_ne fun c hc => (hrest c hc).2.1) (spanExponent_of_ne fun c hc => (hrest c hc).2.2)
      hlength, natOfDigits_toDigits]

/-- Digits around a point are read as a fractional number. -/
theorem readNumber_point (negative : Bool) (whole fraction : List Char) (hwhole : Digits whole)
    (hne : whole ≠ []) (hlead : whole = ['0'] ∨ whole.head? ≠ some '0') (hfraction : Digits fraction)
    (hne' : fraction ≠ []) (hrest : Delimited rest) :
    readNumber (signed negative (whole ++ '.' :: (fraction ++ rest))) =
      .ok (.float (Numeral.toDouble ⟨negative, whole, fraction, 0⟩), rest) := by
  rw [readNumber_signed hwhole hne]
  exact readUnsigned_fraction (spanWhole_append hwhole hne hlead fun c hc => by cases hc; decide)
    (spanFraction_append hfraction hne' hrest.noDigit)
    (spanExponent_of_ne fun c hc => (hrest c hc).2.2)

/-- A digit, maybe with others behind a point, and an exponent are read as a fractional number. -/
theorem readNumber_exponent (negative : Bool) (fraction : List Char) (hc : IsDigit c) (hzero : c ≠ '0')
    (hfraction : Digits fraction) (n : Int) (hrest : Delimited rest) :
    readNumber (signed negative ([c] ++ ((if fraction = [] then [] else '.' :: fraction) ++
        'e' :: (Double.exponentText n ++ rest)))) =
      .ok (.float (Numeral.toDouble ⟨negative, [c], fraction, n⟩), rest) := by
  have hlead : [c] = ['0'] ∨ [c].head? ≠ some '0' := .inr (by simpa using hzero)
  have hdigits : Digits [c] := List.forall_mem_singleton.mpr hc
  have hmark : NoDigit ('e' :: (Double.exponentText n ++ rest)) := fun c hc => by cases hc; decide
  have hexponent := spanExponent_append n hrest.noDigit
  rw [readNumber_signed hdigits (by simp)]
  split
  · rename_i hnil
    subst hnil
    exact readUnsigned_exponent (spanWhole_append hdigits (by simp) hlead hmark)
      (spanFraction_of_ne fun c hc => by cases hc; decide) hexponent
  · rename_i hne
    exact readUnsigned_exponent
      (spanWhole_append hdigits (by simp) hlead fun c hc => by cases hc; decide)
      (spanFraction_append hfraction hne hmark) hexponent

/-! ## Fractional numbers -/

section Layouts

variable {point : Int}

/-- What digits with a point behind the first one and an exponent stand for. -/
theorem toDouble_exponent (negative : Bool) (d : Char) (ds : List Char) (point : Int) :
    Numeral.toDouble ⟨negative, [d], ds, point - 1⟩ =
      Double.ofDecimal negative (natOfDigits (d :: ds)) (point - (d :: ds).length) := by
  rw [Numeral.toDouble, List.singleton_append, List.length_cons]
  push_cast
  rw [sub_sub, add_comm (ds.length : Int) 1]

/-- What digits with zeros between the point and them stand for. -/
theorem toDouble_zerosBehind (negative : Bool) (cs : List Char) (hpoint : point ≤ 0) :
    Numeral.toDouble ⟨negative, ['0'], List.replicate (-point).toNat '0' ++ cs, 0⟩ =
      Double.ofDecimal negative (natOfDigits cs) (point - cs.length) := by
  rw [Numeral.toDouble, List.singleton_append, natOfDigits_zero_cons, natOfDigits_append,
    natOfDigits_replicate_zero, Nat.zero_mul, Nat.zero_add, List.length_append, List.length_replicate]
  exact congrArg _ (by push_cast; omega)

/-- What digits with zeros between them and the point, and one behind it, stand for. -/
theorem toDouble_zerosInFront (negative : Bool) (cs : List Char) (hpoint : 0 < point)
    (hlength : cs.length ≤ point.toNat) :
    Numeral.toDouble ⟨negative, cs ++ List.replicate (point.toNat - cs.length) '0', ['0'], 0⟩ =
      Double.ofDecimal negative (natOfDigits cs) (point - cs.length) := by
  obtain ⟨k, hk⟩ : ∃ k, point.toNat - cs.length = k := ⟨_, rfl⟩
  have hzeros : List.replicate k '0' ++ ['0'] = List.replicate (k + 1) '0' := List.replicate_succ'.symm
  have hplaces : (0 : Int) - (1 : Nat) = (point - cs.length) - (k + 1 : Nat) := by omega
  rw [hk, Numeral.toDouble, List.append_assoc, hzeros, natOfDigits_append, natOfDigits_replicate_zero,
    List.length_replicate, Nat.add_zero, List.length_singleton, hplaces, Double.ofDecimal_mul_pow]

/-- What digits with the point among them stand for. -/
theorem toDouble_split (negative : Bool) (cs : List Char) (hpoint : 0 < point) (hlength : point.toNat < cs.length) :
    Numeral.toDouble ⟨negative, cs.take point.toNat, cs.drop point.toNat, 0⟩ =
      Double.ofDecimal negative (natOfDigits cs) (point - cs.length) := by
  rw [Numeral.toDouble, List.take_append_drop, List.length_drop]
  exact congrArg _ (by push_cast; omega)

/-- Digits are read as their decimal whichever way they are laid out around the point. -/
theorem readNumber_layoutDigits (hcs : Digits cs) (hne : cs ≠ []) (hlead : cs.head? ≠ some '0')
    (point : Int) (hrest : Delimited rest) :
    readNumber (signed negative (Double.layoutDigits cs point ++ rest)) =
      .ok (.float (Double.ofDecimal negative (natOfDigits cs) (point - cs.length)), rest) := by
  have hzero : Digits ['0'] := List.forall_mem_singleton.mpr (by decide)
  have hzeros (k : Nat) : Digits (List.replicate k '0') := digits_replicate_zero k
  rw [Double.layoutDigits]
  split
  · cases cs with
    | nil => exact absurd rfl hne
    | cons d ds =>
      obtain ⟨hd, hds⟩ := List.forall_mem_cons.mp hcs
      have hread := readNumber_exponent negative ds hd (by simpa using hlead) hds (point - 1) hrest
      rw [toDouble_exponent] at hread
      cases ds with
      | nil => exact hread
      | cons d' ds => simpa using hread
  split
  · rename_i hpoint
    have hread := readNumber_point negative ['0'] (List.replicate (-point).toNat '0' ++ cs) hzero (by simp)
      (.inl rfl) (List.forall_mem_append.mpr ⟨hzeros _, hcs⟩) (by simp [hne]) hrest
    rw [toDouble_zerosBehind negative cs hpoint] at hread
    simpa using hread
  rename_i hpoint
  split
  · rename_i hlength
    have hfirst : (cs ++ List.replicate (point.toNat - cs.length) '0').head? ≠ some '0' := by
      rwa [List.head?_append_of_ne_nil _ hne]
    have hread := readNumber_point negative (cs ++ List.replicate (point.toNat - cs.length) '0') ['0']
      (List.forall_mem_append.mpr ⟨hcs, hzeros _⟩) (by simp [hne]) (.inr hfirst) hzero (by simp) hrest
    rw [toDouble_zerosInFront negative cs (by omega) hlength] at hread
    simpa using hread
  · rename_i hlength
    have hfirst : (cs.take point.toNat).head? ≠ some '0' := by
      rwa [List.head?_take, if_neg (by omega)]
    have hread := readNumber_point negative (cs.take point.toNat) (cs.drop point.toNat)
      (fun c hc => hcs c (List.mem_of_mem_take hc)) (by simp [hne]; omega) (.inr hfirst)
      (fun c hc => hcs c (List.mem_of_mem_drop hc)) (by simp; omega) hrest
    rw [toDouble_split negative cs (by omega) (by omega)] at hread
    simpa using hread

end Layouts

/-! ## Numbers as they are written -/

/-- A text that begins as a number does. -/
def Numeric (cs : List Char) : Prop := ∃ negative c rest, cs = signed negative (c :: rest) ∧ IsDigit c

theorem Numeric.append (h : Numeric cs) : Numeric (cs ++ rest) := by
  obtain ⟨negative, c, tail, rfl, hc⟩ := h
  exact ⟨negative, c, tail ++ rest, signed_append, hc⟩

theorem numeric_signed (negative : Bool) (rest : List Char) (hcs : Digits cs) (hne : cs ≠ []) :
    Numeric (signed negative (cs ++ rest)) := by
  cases cs with
  | nil => exact absurd rfl hne
  | cons c cs => exact ⟨negative, c, cs ++ rest, rfl, hcs c (by simp)⟩

theorem numeric_layoutDigits (hcs : Digits cs) (hne : cs ≠ []) (point : Int) :
    Numeric (signed negative (Double.layoutDigits cs point)) := by
  cases cs with
  | nil => exact absurd rfl hne
  | cons c cs =>
    have hc : IsDigit c := hcs c (by simp)
    rw [Double.layoutDigits]
    split
    · cases cs with
      | nil => exact ⟨negative, c, _, rfl, hc⟩
      | cons d cs => exact ⟨negative, c, _, rfl, hc⟩
    split
    · exact ⟨negative, '0', _, rfl, by decide⟩
    rename_i hpoint
    split
    · exact ⟨negative, c, _, rfl, hc⟩
    · obtain ⟨p, hp⟩ : ∃ p, point.toNat = p + 1 := ⟨point.toNat - 1, by omega⟩
      exact ⟨negative, c, cs.take p ++ '.' :: cs.drop p, by rw [hp]; rfl, hc⟩

theorem toList_toString_int (n : Int) :
    (toString n).toList = signed (decide (n < 0)) (Nat.toDigits 10 n.natAbs) := by
  rcases Int.lt_or_le n 0 with hn | hn
  · have habs : n.natAbs = (-n).toNat := by omega
    have htext : toString n = "-" ++ (-n).toNat.repr := by
      rw [Int.toString_eq_repr, Int.repr_eq_if, if_neg (by omega)]
    rw [htext, String.toList_append, Nat.repr_eq_ofList_toDigits, String.toList_ofList, habs]
    simp [signed, hn]
  · have habs : n.natAbs = n.toNat := by omega
    have htext : toString n = n.toNat.repr := by
      rw [Int.toString_eq_repr, Int.repr_eq_if, if_pos hn]
    rw [htext, Nat.repr_eq_ofList_toDigits, String.toList_ofList, habs]
    simp [signed, hn.not_gt]

/-- A whole number that is not too long is read back. -/
theorem readNumber_int {n : Int} (hn : ¬ isLong n) (hrest : Delimited rest) :
    readNumber ((toString n).toList ++ rest) = .ok (.int n, rest) := by
  have hlength : (Nat.toDigits 10 n.natAbs).length ≤ digitLimit := by
    have hshort : ∀ limit, 0 < limit → ¬ Nat.pow 10 limit ≤ n.natAbs →
        (Nat.toDigits 10 n.natAbs).length ≤ limit := fun limit hlimit hless =>
      (Nat.length_toDigits_le_iff (by decide) hlimit).mpr (Nat.lt_of_not_le hless)
    exact hshort digitLimit (by decide) fun h => hn (decide_eq_true h)
  rw [toList_toString_int, signed_append, readNumber_digits hlength hrest]
  rcases Int.lt_or_le n 0 with hneg | hpos
  · rw [decide_eq_true hneg, if_pos rfl, Int.ofNat_natAbs_of_nonpos hneg.le, Int.neg_neg]
  · rw [decide_eq_false hpos.not_gt, if_neg (by simp), Int.natAbs_of_nonneg hpos]

theorem numeric_int (n : Int) : Numeric (toString n).toList := by
  have h := numeric_signed (decide (n < 0)) [] (digits_toDigits n.natAbs) Nat.toDigits_ne_nil
  rwa [List.append_nil, ← toList_toString_int] at h

theorem toList_floatText_finite (m : Nat) (e : Int) : (floatText (.finite negative m e)).toList =
    signed negative (if m = 0 then ['0', '.', '0'] else
      Double.layoutDigits (Double.significant (Double.shortest m e).1 (Double.shortest m e).2).1
        (Double.significant (Double.shortest m e).1 (Double.shortest m e).2).2) :=
  String.toList_ofList

/-- The text of a finite number is its shortest decimal in one of the layouts, behind a sign. -/
theorem floatText_finite {m : Nat} {e : Int} (h : (Double.finite negative m e).Canonical) :
    Numeric (floatText (.finite negative m e)).toList ∧ ∀ rest, Delimited rest →
      readNumber ((floatText (.finite negative m e)).toList ++ rest) =
        .ok (.float (.finite negative m e), rest) := by
  rcases Nat.eq_zero_or_pos m with rfl | hm
  · obtain ⟨-, -, -, hform⟩ := h
    obtain rfl : e = Double.minExponent := hform.resolve_left (by norm_num)
    rw [toList_floatText_finite, if_pos rfl]
    refine ⟨⟨negative, '0', _, rfl, by decide⟩, fun rest hrest => ?_⟩
    rw [signed_append]
    exact readNumber_point negative ['0'] ['0'] (List.forall_mem_singleton.mpr (by decide)) (by simp)
      (.inl rfl) (List.forall_mem_singleton.mpr (by decide)) (by simp) hrest
  · have hread := Double.ofDecimal_of_positive negative (Double.ofDecimal_shortest hm h)
    have hdigits : 0 < (Double.shortest m e).1 := by
      rcases Nat.eq_zero_or_pos (Double.shortest m e).1 with hzero | hpos
      · rw [hzero, Double.ofDecimal_zero] at hread
        cases hread
        exact absurd hm (lt_irrefl 0)
      · exact hpos
    obtain ⟨cs, k, hsignificant, hcs, hne, hlead, hvalue⟩ :=
      significant_spec hdigits (Double.shortest m e).2
    rw [toList_floatText_finite, if_neg hm.ne', hsignificant]
    refine ⟨numeric_layoutDigits hcs hne _, fun rest hrest => ?_⟩
    have hplaces : (Double.shortest m e).2 =
        (cs.length + k + (Double.shortest m e).2 - cs.length : Int) - k := by omega
    rw [hvalue, hplaces, Double.ofDecimal_mul_pow] at hread
    rw [signed_append, readNumber_layoutDigits hcs hne hlead _ hrest, hread]

end Json

end DocFilter
