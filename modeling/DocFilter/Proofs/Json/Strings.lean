import DocFilter.Json.Parse
import DocFilter.Json.Print

/-!
# Strings in JSON text

A string that is written is read back character by character, whichever characters are escaped.

* `Json.codeUnit?_hexDigits` reads back the four digits of a code unit.
* `Json.stringChar_cases` says how a character is written.
* `Json.readString_stringChar` is the step: one character takes one unit of fuel.
* `Json.readString_stringText` is the whole string, up to its closing quote.
-/

namespace DocFilter.Json

variable {opening read tail : List Char} {fuel n : Nat} {c : Char} {ascii : Bool}

/-! ## Code units -/

theorem digitIn?_hexDigit (hn : n < 16) : digitIn? 16 (Text.hexDigit n) = some n := by
  have hall : ∀ d : Fin 16, digitIn? 16 (Text.hexDigit d.val) = some d.val := by decide
  exact hall ⟨n, hn⟩

theorem hexDigits_four (n : Nat) : Text.hexDigits 4 n =
    [Text.hexDigit (n / 16 / 16 / 16 % 16), Text.hexDigit (n / 16 / 16 % 16), Text.hexDigit (n / 16 % 16),
      Text.hexDigit (n % 16)] := rfl

/-- The digits of a code unit are read back. -/
theorem codeUnit?_hexDigits (hn : n < 0x10000) (tail : List Char) :
    codeUnit? (Text.hexDigits 4 n ++ tail) = some (n, tail) := by
  have hmod : ∀ m : Nat, digitIn? 16 (Text.hexDigit (m % 16)) = some (m % 16) := fun m =>
    digitIn?_hexDigit (Nat.mod_lt m (by decide))
  have hvalue : natIn? 16 (Text.hexDigits 4 n) = some n := by
    simp only [hexDigits_four, natIn?, List.isEmpty_cons, Bool.false_eq_true, if_false, List.foldlM_cons,
      List.foldlM_nil, hmod, Option.map_some, Option.bind_eq_bind, Option.bind_some, Option.pure_def,
      Option.some.injEq]
    omega
  rw [hexDigits_four] at hvalue ⊢
  simp only [List.cons_append, List.nil_append, codeUnit?, hvalue, Option.map_some]

theorem length_hexDigits_four (n : Nat) : (Text.hexDigits 4 n).length = 4 := rfl

/-! ## Characters -/

/-- A character is written as a short escape, as the escape of a code unit or of two, or as it is. -/
theorem stringChar_cases (ascii : Bool) (c : Char) :
    (∃ e, simpleEscape? e = some c ∧ stringChar ascii c = ['\\', e]) ∨
    (c.toNat ≤ 0xffff ∧ stringChar ascii c = unitEscape c.toNat) ∨
    (0xffff < c.toNat ∧ stringChar ascii c = unitEscape (0xd800 + (c.toNat - 0x10000) / 0x400) ++
      unitEscape (0xdc00 + (c.toNat - 0x10000) % 0x400)) ∨
    (c ≠ '"' ∧ c ≠ '\\' ∧ ¬ c.toNat < 0x20 ∧ stringChar ascii c = [c]) := by
  rw [stringChar]
  by_cases hquote : c = '"'
  · exact .inl ⟨'"', by rw [hquote]; rfl, if_pos hquote⟩
  rw [if_neg hquote]
  by_cases hescape : c = '\\'
  · exact .inl ⟨'\\', by rw [hescape]; rfl, if_pos hescape⟩
  rw [if_neg hescape]
  by_cases hnewline : c = '\n'
  · exact .inl ⟨'n', by rw [hnewline]; rfl, if_pos hnewline⟩
  rw [if_neg hnewline]
  by_cases hreturn : c = '\r'
  · exact .inl ⟨'r', by rw [hreturn]; rfl, if_pos hreturn⟩
  rw [if_neg hreturn]
  by_cases htab : c = '\t'
  · exact .inl ⟨'t', by rw [htab]; rfl, if_pos htab⟩
  rw [if_neg htab]
  by_cases hback : c = '\x08'
  · exact .inl ⟨'b', by rw [hback]; rfl, if_pos hback⟩
  rw [if_neg hback]
  by_cases hfeed : c = '\x0c'
  · exact .inl ⟨'f', by rw [hfeed]; rfl, if_pos hfeed⟩
  rw [if_neg hfeed]
  dsimp only
  by_cases hcontrol : c.toNat < 0x20
  · exact .inr (.inl ⟨by omega, if_pos hcontrol⟩)
  rw [if_neg hcontrol]
  by_cases hwide : ascii && 0x7f ≤ c.toNat
  · rw [if_pos hwide]
    rcases Nat.lt_or_ge 0xffff c.toNat with hpair | hunit
    · exact .inr (.inr (.inl ⟨hpair, if_neg (Nat.not_le.mpr hpair)⟩))
    · exact .inr (.inl ⟨hunit, if_pos hunit⟩)
  · exact .inr (.inr (.inr ⟨hquote, hescape, hcontrol, if_neg hwide⟩))

/-- A character is written as one character at least. -/
theorem length_stringChar_pos (ascii : Bool) (c : Char) : 0 < (stringChar ascii c).length := by
  rcases stringChar_cases ascii c with ⟨e, -, htext⟩ | ⟨-, htext⟩ | ⟨-, htext⟩ | ⟨-, -, -, htext⟩ <;>
    simp [htext, unitEscape]

/-- The code point of a character is none of those that only occur in pairs. -/
theorem toNat_valid (c : Char) : c.toNat < 0xd800 ∨ 0xdfff < c.toNat ∧ c.toNat < 0x110000 := c.valid

/-- An escaped code unit is read back, if there is a text after it. -/
theorem readUnicodeEscape_unit (hc : c.toNat ≤ 0xffff) (htail : tail ≠ []) :
    readUnicodeEscape (Text.hexDigits 4 c.toNat ++ tail) = .ok (c, tail) := by
  have hvalid := toNat_valid c
  have hdrop : (Text.hexDigits 4 c.toNat ++ tail).drop 4 = tail :=
    List.drop_left' (length_hexDigits_four _)
  have hempty : tail.isEmpty = false := by simpa using htail
  have hhigh : ¬ (0xd800 ≤ c.toNat ∧ c.toNat ≤ 0xdbff ∧ (!(tail.drop 6).isEmpty) = true) := by omega
  have hlow : ¬ (0xd800 ≤ c.toNat ∧ c.toNat ≤ 0xdfff) := by omega
  simp only [readUnicodeEscape, hdrop, hempty, Bool.false_eq_true, if_false,
    codeUnit?_hexDigits (by omega : c.toNat < 0x10000), if_neg hhigh, if_neg hlow, Char.ofNat_toNat]

/-- An escaped pair of code units is read back, if there is a text after it. -/
theorem readUnicodeEscape_pair (hc : 0xffff < c.toNat) (htail : tail ≠ []) :
    readUnicodeEscape (Text.hexDigits 4 (0xd800 + (c.toNat - 0x10000) / 0x400) ++
        (unitEscape (0xdc00 + (c.toNat - 0x10000) % 0x400) ++ tail)) = .ok (c, tail) := by
  have hvalid := toNat_valid c
  obtain ⟨hi, hhi⟩ : ∃ hi, 0xd800 + (c.toNat - 0x10000) / 0x400 = hi := ⟨_, rfl⟩
  obtain ⟨lo, hlo⟩ : ∃ lo, 0xdc00 + (c.toNat - 0x10000) % 0x400 = lo := ⟨_, rfl⟩
  have hvalue : 0x10000 + (hi - 0xd800) * 0x400 + (lo - 0xdc00) = c.toNat := by omega
  have hdrop : (Text.hexDigits 4 hi ++ (unitEscape lo ++ tail)).drop 4 = unitEscape lo ++ tail :=
    List.drop_left' (length_hexDigits_four _)
  have hdrop' : (unitEscape lo ++ tail).drop 6 = tail := List.drop_left' rfl
  have hempty : tail.isEmpty = false := by simpa using htail
  have hsurrogate : 0xd800 ≤ hi ∧ hi ≤ 0xdbff ∧ (!((unitEscape lo ++ tail).drop 6).isEmpty) = true := by
    rw [hdrop', hempty]
    exact ⟨by omega, by omega, rfl⟩
  have hpair : 0xdc00 ≤ lo ∧ lo ≤ 0xdfff := by omega
  have hsome : (unitEscape lo ++ tail).isEmpty = false := rfl
  rw [hhi, hlo]
  simp only [readUnicodeEscape, hdrop, hsome, Bool.false_eq_true, if_false,
    codeUnit?_hexDigits (by omega : hi < 0x10000), if_pos hsurrogate]
  simp only [unitEscape, List.cons_append, codeUnit?_hexDigits (by omega : lo < 0x10000), if_pos hpair,
    hvalue, Char.ofNat_toNat]

theorem readString_simple {e : Char} (he : simpleEscape? e = some c) :
    readString opening (fuel + 1) read ('\\' :: e :: tail) = readString opening fuel (c :: read) tail := by
  have hu : e ≠ 'u' := by
    rintro rfl
    cases he
  rw [readString]
  · rw [he]
  · exact hu

theorem readString_unicode {cs : List Char} (h : readUnicodeEscape cs = .ok (c, tail)) :
    readString opening (fuel + 1) read ('\\' :: 'u' :: cs) = readString opening fuel (c :: read) tail := by
  simp only [readString, h, bind, Except.bind]

theorem readString_plain (hquote : c ≠ '"') (hescape : c ≠ '\\') (hcontrol : ¬ c.toNat < 0x20) :
    readString opening (fuel + 1) read (c :: tail) = readString opening fuel (c :: read) tail := by
  rw [readString]
  · rw [if_neg hcontrol]
  all_goals simp [hquote, hescape]

/-- One character is read back with one unit of fuel. -/
theorem readString_stringChar (htail : tail ≠ []) :
    readString opening (fuel + 1) read (stringChar ascii c ++ tail) =
      readString opening fuel (c :: read) tail := by
  rcases stringChar_cases ascii c with ⟨e, he, htext⟩ | ⟨hunit, htext⟩ | ⟨hpair, htext⟩ |
      ⟨hquote, hescape, hcontrol, htext⟩ <;> rw [htext]
  · exact readString_simple he
  · exact readString_unicode (readUnicodeEscape_unit hunit htail)
  · rw [List.append_assoc]
    exact readString_unicode (readUnicodeEscape_pair hpair htail)
  · exact readString_plain hquote hescape hcontrol

/-- A string is read back up to its closing quote. -/
theorem readString_stringText {cs : List Char} (hfuel : cs.length < fuel) :
    readString opening fuel read (cs.flatMap (stringChar ascii) ++ '"' :: tail) =
      .ok (String.ofList (read.reverse ++ cs), tail) := by
  induction cs generalizing fuel read with
  | nil =>
    obtain ⟨fuel, rfl⟩ : ∃ k, fuel = k + 1 := ⟨fuel - 1, by omega⟩
    simp [readString]
  | cons c cs ih =>
    rw [List.length_cons] at hfuel
    obtain ⟨fuel, rfl⟩ : ∃ k, fuel = k + 1 := ⟨fuel - 1, by omega⟩
    rw [List.flatMap_cons, List.append_assoc, readString_stringChar (by simp), ih (by omega),
      List.reverse_cons, List.append_assoc, List.singleton_append]

end DocFilter.Json
