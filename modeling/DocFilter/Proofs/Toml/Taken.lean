import DocFilter.Proofs.Number.Digits
import DocFilter.Toml.Simple
import Mathlib.Data.List.Infix

/-!
# What is taken of a TOML text

Dates, times, truth values and numbers are taken from the front of a text.

* `Toml.Leaves` says that an end of the text is left; `Leaves.bind` puts one thing taken after the other, and
  `stamp?_leaves`, `truth?_leaves` and `number?_leaves` say it of all simple values.
* `Toml.spanGrouped_eq` says what stands in the text where digits were taken, with underscores between them, and
  `Toml.hasLongNumeral_of_longNumeral?` that there really is a long numeral where one is found.
-/

namespace DocFilter.Toml

variable {α β : Type} {cs rest digits : List Char}

/-- What is taken of a text leaves an end of it, at a certain place of what is taken. -/
def Leaves (cs : List Char) (place : α → List Char) (o : Option α) : Prop := ∀ a, o = some a → place a <:+ cs

namespace Leaves

variable {place : α → List Char} {next : β → List Char} {o o' : Option α}

theorem none : Leaves cs place none := nofun

theorem some {a : α} (h : place a <:+ cs) : Leaves cs place (some a) := by
  intro b hb
  cases hb
  exact h

theorem of_suffix (h : Leaves rest place o) (hsuffix : rest <:+ cs) : Leaves cs place o :=
  fun a ha => (h a ha).trans hsuffix

theorem bind {f : α → Option β} (h : Leaves cs place o) (hf : ∀ a, Leaves (place a) next (f a)) :
    Leaves cs next (o >>= f) := by
  intro b hb
  obtain ⟨a, ha, hb⟩ := Option.bind_eq_some_iff.mp hb
  exact (hf a b hb).trans (h a ha)

theorem map {f : α → β} (h : Leaves cs place o) (hf : ∀ a, next (f a) = place a) : Leaves cs next (o.map f) := by
  intro b hb
  obtain ⟨a, ha, rfl⟩ := Option.map_eq_some_iff.mp hb
  rw [hf]
  exact h a ha

theorem orElse (h : Leaves cs place o) (h' : Leaves cs place o') : Leaves cs place (o <|> o') := by
  cases o with
  | none => exact h'
  | some a => exact h

theorem ite {p : Prop} [Decidable p] (h : Leaves cs place o) (h' : Leaves cs place o') :
    Leaves cs place (if p then o else o') := by
  split
  · exact h
  · exact h'

theorem getD {a : α} (h : Leaves cs place o) (ha : place a <:+ cs) : place (o.getD a) <:+ cs := by
  cases o with
  | none => exact ha
  | some b => exact h b rfl

end Leaves

/-- The text after something taken. -/
abbrev after (taken : Taken α) : List Char := taken.2

/-! ## Dates and times -/

theorem twoDigits?_leaves (least most : Nat) (cs : List Char) : Leaves cs after (twoDigits? least most cs) := by
  rw [twoDigits?.eq_def]
  split
  next a b rest =>
    have hread : Leaves (a :: b :: rest) (fun _ => rest) (natIn? 10 [a, b]) := fun _ _ => List.suffix_append [a, b] rest
    exact hread.bind fun _ => .ite (.some List.suffix_rfl) .none
  next => exact .none

theorem mark?_leaves (c : Char) (cs : List Char) : Leaves cs id (mark? c cs) := by
  rw [mark?.eq_def]
  split
  next d rest => exact .ite (.some (List.suffix_cons d rest)) .none
  next => exact .none

theorem date?_leaves (cs : List Char) : Leaves cs after (date? cs) :=
  (twoDigits?_leaves 0 99 cs).bind fun _ => (twoDigits?_leaves 0 99 _).bind fun _ =>
    (mark?_leaves '-' _).bind fun _ => (twoDigits?_leaves 1 12 _).bind fun _ =>
    (mark?_leaves '-' _).bind fun _ => (twoDigits?_leaves 1 31 _).bind fun _ => .some List.suffix_rfl

theorem microseconds_suffix (cs : List Char) : (microseconds cs).2 <:+ cs := by
  rw [microseconds.eq_def]
  split
  next rest =>
    split
    next => exact List.suffix_rfl
    next digits behind _ hspan =>
      rw [spanDigits_eq_append hspan]
      exact (List.suffix_append digits behind).trans (List.suffix_cons '.' _)
  next => exact List.suffix_rfl

theorem time?_leaves (cs : List Char) : Leaves cs after (time? cs) :=
  (twoDigits?_leaves 0 23 cs).bind fun _ =>
    (mark?_leaves ':' _).bind fun _ => (twoDigits?_leaves 0 59 _).bind fun _ =>
    (mark?_leaves ':' _).bind fun _ => (twoDigits?_leaves 0 59 _).bind fun _ => .some (microseconds_suffix _)

theorem offset?_leaves (cs : List Char) : Leaves cs after (offset? cs) := by
  rw [offset?.eq_def]
  split
  next sign rest =>
    refine Leaves.of_suffix ?_ (List.suffix_cons sign rest)
    refine .ite (.some List.suffix_rfl) (.ite ?_ .none)
    exact (twoDigits?_leaves 0 23 rest).bind fun _ => (mark?_leaves ':' _).bind fun _ =>
      (twoDigits?_leaves 0 59 _).bind fun _ => .some List.suffix_rfl
  next => exact .none

theorem moment_suffix (d : Date) (cs : List Char) : (moment d cs).2 <:+ cs := by
  cases cs with
  | nil => exact List.suffix_rfl
  | cons c rest =>
    have htime : Leaves (c :: rest) after (if c == 'T' || c == 't' || c == ' ' then time? rest else none) :=
      ((time?_leaves rest).ite .none).of_suffix (List.suffix_cons c rest)
    rw [moment.eq_def]
    dsimp only
    split
    next => exact List.suffix_rfl
    next t behind heq =>
      have hbehind : behind <:+ c :: rest := htime _ heq
      split
      next minutes later hoffset => exact (offset?_leaves behind _ hoffset).trans hbehind
      next => exact hbehind

theorem stamp?_leaves (cs : List Char) : Leaves cs after (stamp? cs) := by
  rw [stamp?]
  split
  next d behind hdate => exact .some ((moment_suffix d behind).trans (date?_leaves cs _ hdate))
  next => exact (time?_leaves cs).map fun _ => rfl

/-! ## Digits -/

/-- Where digits were taken, they stand in the text with underscores between them. -/
theorem spanGrouped_eq (isDigit : Char → Bool) (cs : List Char) :
    ∃ numeral, cs = numeral ++ (spanGrouped isDigit cs).2 ∧ (∀ c ∈ numeral, isDigit c ∨ c = '_') ∧
      (isDigit '_' = false → numeral.filter isDigit = (spanGrouped isDigit cs).1) := by
  fun_induction spanGrouped isDigit cs with
  | case1 c rest hdigit digits behind hspan ih =>
    obtain ⟨numeral, hcs, hall, hfilter⟩ := ih
    rw [hspan] at hcs hfilter
    refine ⟨'_' :: c :: numeral, by simpa using hcs, ?_, fun hmark => ?_⟩
    · exact List.forall_mem_cons.mpr ⟨.inr rfl, List.forall_mem_cons.mpr ⟨.inl hdigit, hall⟩⟩
    · simp [hmark, hdigit, hfilter hmark]
  | case2 c rest hdigit => exact ⟨[], rfl, List.forall_mem_nil _, fun _ => rfl⟩
  | case3 c rest hnext hdigit digits behind hspan ih =>
    obtain ⟨numeral, hcs, hall, hfilter⟩ := ih
    rw [hspan] at hcs hfilter
    refine ⟨c :: numeral, by simpa using hcs, List.forall_mem_cons.mpr ⟨.inl hdigit, hall⟩, fun hmark => ?_⟩
    simp [hdigit, hfilter hmark]
  | case4 c rest hnext hdigit => exact ⟨[], rfl, List.forall_mem_nil _, fun _ => rfl⟩
  | case5 => exact ⟨[], rfl, List.forall_mem_nil _, fun _ => rfl⟩

/-- Digits that are taken stand in the text with underscores between them. -/
theorem grouped?_eq {isDigit : Char → Bool} (h : grouped? isDigit cs = some (digits, rest)) :
    ∃ numeral, cs = numeral ++ rest ∧ (∀ c ∈ numeral, isDigit c ∨ c = '_') ∧
      (isDigit '_' = false → numeral.filter isDigit = digits) := by
  rw [grouped?.eq_def] at h
  split at h
  next c behind =>
    split at h
    next hdigit =>
      obtain ⟨numeral, hcs, hall, hfilter⟩ := spanGrouped_eq isDigit behind
      cases h
      have hmore : ∀ d ∈ c :: numeral, isDigit d ∨ d = '_' := List.forall_mem_cons.mpr ⟨.inl hdigit, hall⟩
      refine ⟨c :: numeral, by rw [List.cons_append, ← hcs], hmore, fun hmark => ?_⟩
      rw [List.filter_cons_of_pos hdigit, hfilter hmark]
    next => cases h
  next => cases h

theorem grouped?_leaves (isDigit : Char → Bool) (cs : List Char) : Leaves cs after (grouped? isDigit cs) := by
  rintro ⟨digits, rest⟩ h
  obtain ⟨numeral, rfl, -⟩ := grouped?_eq h
  exact List.suffix_append numeral rest

/-! ## Numbers -/

theorem based?_leaves (cs : List Char) : Leaves cs after (based? cs) := by
  rw [based?.eq_def]
  split
  next mark rest =>
    have hdigits (base : Nat) : Leaves rest after
        ((grouped? (isDigitIn base) rest).bind fun digits => some (((natIn? base digits.1).getD 0 : Int), digits.2)) :=
      (grouped?_leaves _ rest).bind fun _ => .some List.suffix_rfl
    refine Leaves.of_suffix ?_ (List.suffix_append ['0', mark] rest)
    split
    · exact hdigits 16
    · exact hdigits 8
    · exact hdigits 2
    · exact .none
  next => exact .none

theorem whole?_leaves (cs : List Char) : Leaves cs after (whole? cs) := by
  rw [whole?.eq_def]
  split
  next rest => exact .some (List.suffix_cons '0' rest)
  next => exact grouped?_leaves _ _

theorem fraction?_leaves (cs : List Char) : Leaves cs after (fraction? cs) :=
  (mark?_leaves '.' cs).bind fun _ => grouped?_leaves _ _

theorem exponent?_leaves (cs : List Char) : Leaves cs after (exponent? cs) := by
  rw [exponent?.eq_def]
  split
  next mark rest =>
    refine Leaves.of_suffix (.ite ?_ .none) ((spanSign_suffix rest).trans (List.suffix_cons mark rest))
    exact (grouped?_leaves _ _).bind fun _ => .some List.suffix_rfl
  next => exact .none

theorem decimal?_leaves (cs : List Char) : Leaves cs after (decimal? cs) := by
  refine Leaves.of_suffix ?_ (spanSign_suffix cs)
  refine (whole?_leaves _).bind fun (whole, behind) => ?_
  have hfraction : after ((fraction? behind).getD ([], behind)) <:+ behind :=
    (fraction?_leaves behind).getD List.suffix_rfl
  dsimp only
  generalize (fraction? behind).getD ([], behind) = taken at hfraction ⊢
  obtain ⟨fraction, later⟩ := taken
  have hexponent := exponent?_leaves later
  dsimp only
  cases hread : exponent? later with
  | none =>
    dsimp only
    split <;> exact .some hfraction
  | some read =>
    dsimp only
    split <;> exact .some ((hexponent read hread).trans hfraction)

theorem special?_leaves (cs : List Char) : Leaves cs after (special? cs) := by
  have hbody (count : Nat) : (spanSign cs).2.drop count <:+ cs := (List.drop_suffix count _).trans (spanSign_suffix cs)
  exact .ite (.some (hbody 3)) (.ite (.some (hbody 3)) .none)

theorem truth?_leaves (cs : List Char) : Leaves cs after (truth? cs) :=
  .ite (.some (List.drop_suffix 4 cs)) (.ite (.some (List.drop_suffix 5 cs)) .none)

theorem number?_leaves (cs : List Char) : Leaves cs after (number? cs) := by
  rw [number?]
  refine .orElse ?_ ((decimal?_leaves cs).orElse (special?_leaves cs))
  exact (based?_leaves cs).map fun _ => rfl

/-! ## Long numerals -/

/-- A text has a numeral with so many digits, which are too many to be read; underscores do not count. -/
def HasLongNumeral (count : Nat) (cs : List Char) : Prop :=
  digitLimit < count ∧ ∃ numeral, numeral <:+: cs ∧ (∀ c ∈ numeral, c.isDigit ∨ c = '_') ∧
    (numeral.filter Char.isDigit).length = count

theorem HasLongNumeral.of_suffix {count : Nat} (h : HasLongNumeral count rest) (hsuffix : rest <:+ cs) :
    HasLongNumeral count cs := by
  obtain ⟨hlong, numeral, hinfix, hall, hcount⟩ := h
  exact ⟨hlong, numeral, hinfix.trans hsuffix.isInfix, hall, hcount⟩

theorem hasLongNumeral_of_longNumeral? {count : Nat} (h : longNumeral? cs = some count) : HasLongNumeral count cs := by
  obtain ⟨⟨digits, behind⟩, hwhole, h⟩ := Option.bind_eq_some_iff.mp h
  dsimp only at h
  split at h
  next hlong =>
    cases h
    refine HasLongNumeral.of_suffix ⟨hlong, ?_⟩ (spanSign_suffix cs)
    rw [whole?.eq_def] at hwhole
    split at hwhole
    next =>
      cases hwhole
      exact absurd hlong (by decide)
    next =>
      obtain ⟨numeral, heq, hall, hfilter⟩ := grouped?_eq hwhole
      rw [heq]
      exact ⟨numeral, (List.prefix_append numeral behind).isInfix, hall, by rw [hfilter rfl]⟩
  next => cases h

end DocFilter.Toml
