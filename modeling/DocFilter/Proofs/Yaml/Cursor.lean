import DocFilter.Proofs.Results
import DocFilter.Yaml.Scalar
import Mathlib.Data.List.Infix

/-!
# Where a reader of a YAML text goes

A reader goes on through a text: the cursor that it leaves has an end of the characters that it was given.

* `Cursor.rest_forward`, `Cursor.rest_skip` and the lemmas beside them say what each step of a cursor leaves.
* `Void` is what a scan of a text has no value for although no rule is broken, and `Told` is the refusal of a
  text with such a thing in it, or with a broken rule.
* `Reads` says of a reader that its result is good or the text is refused so, and `Stays` that it leaves an end of
  its text; `Stays.bind` puts readers one after the other.
-/

namespace DocFilter.Yaml

variable {α β : Type} {cs ds : List Char} {c c' : Cursor} {ch : Char}

/-! ## Steps of a cursor -/

namespace Cursor

@[simp] theorem rest_forward (c : Cursor) : c.forward.rest = c.rest.tail := by
  rw [forward]
  split
  next h => simp [h]
  next h =>
    simp only [h, List.tail_cons]
    split
    · rfl
    · split <;> rfl

@[simp] theorem rest_look (c : Cursor) (count : Nat) : (c.look count).rest = c.rest := rfl

@[simp] theorem rest_lookForSeparator (c : Cursor) : c.lookForSeparator.rest = c.rest := rfl

@[simp] theorem rest_skip (count : Nat) (c : Cursor) : (c.skip count).rest = c.rest.drop count := by
  induction count generalizing c with
  | zero => rfl
  | succ count ih => simp [skip, ih, List.drop_tail]

@[simp] theorem rest_spanWhile (p : Char → Bool) (c : Cursor) : (c.spanWhile p).2.rest = c.rest.dropWhile p := by
  rw [spanWhile, rest_skip]
  induction c.rest with
  | nil => rfl
  | cons ch rest ih => by_cases h : p ch <;> simp [h, ih]

@[simp] theorem rest_skipWhile (p : Char → Bool) (c : Cursor) : (c.skipWhile p).rest = c.rest.dropWhile p :=
  rest_spanWhile p c

@[simp] theorem rest_skipSpaces (c : Cursor) : c.skipSpaces.rest = c.rest.dropWhile (· == ' ') :=
  rest_skipWhile _ c

theorem skipComment_suffix (c : Cursor) : c.skipComment.rest <:+ c.rest := by
  rw [skipComment]
  split
  · rw [rest_skipWhile]
    exact List.dropWhile_suffix _
  · exact List.suffix_rfl

theorem lineBreak?_suffix (h : c.lineBreak? = some (ch, c')) : c'.rest <:+ c.rest.tail := by
  rw [lineBreak?] at h
  split at h
  next rest hrest =>
    cases h
    simp [hrest]
  next hrest =>
    split_ifs at h <;> cases h <;> simp
  next => cases h

theorem skipBreak_suffix (c : Cursor) : c.skipBreak.rest <:+ c.rest := by
  rw [skipBreak]
  split
  next h => exact (lineBreak?_suffix h).trans (List.tail_suffix _)
  next => exact List.suffix_rfl

end Cursor

/-! ## Readers -/

/-- What in a text a scan has no value for: an escape beyond the last code point, and a version number that
has more digits than a numeral may have. -/
inductive Void (cs : List Char) : Fault → Prop
  | escape {letter : Char} {digits : List Char} {code : Nat} {fault : Fault}
      (stands : '\\' :: letter :: digits <:+: cs) (width : escapeWidth? letter = some digits.length)
      (read : natIn? 16 digits = some code) (beyond : charOfEscape code = noValue fault) : Void cs fault
  | version {between digits : List Char} (stands : "YAML".toList ++ between ++ digits <:+: cs)
      (apart : ∀ ch ∈ between, ch = ' ' ∨ ch = '.' ∨ ('0' ≤ ch ∧ ch ≤ '9'))
      (decimal : ∀ ch ∈ digits, '0' ≤ ch ∧ ch ≤ '9') (long : digitLimit < digits.length) :
      Void cs (.value (.longNumeral digits.length))

/-- The fault of an escape for no character. -/
theorem fault_of_charOfEscape {code : Nat} {fault : Fault} (h : charOfEscape code = noValue fault) :
    fault = .overflow ∨ fault = .value .codePoint := by
  rw [charOfEscape] at h
  split at h
  · cases h
    exact .inl rfl
  · split at h
    · cases h
      exact .inr rfl
    · cases h

theorem Void.of_suffix {fault : Fault} (h : Void ds fault) (hsuffix : ds <:+ cs) : Void cs fault := by
  cases h with
  | escape stands width read beyond => exact .escape (stands.trans hsuffix.isInfix) width read beyond
  | version stands apart decimal long => exact .version (stands.trans hsuffix.isInfix) apart decimal long

/-- A refusal of a text: a rule is broken, or something in the text has no value. -/
def Told (cs : List Char) : Error → Prop
  | .malformed _ => True
  | .fault fault => Void cs fault

theorem Told.of_suffix {e : Error} (h : Told ds e) (hsuffix : ds <:+ cs) : Told cs e := by
  cases e with
  | malformed => trivial
  | fault fault => exact Void.of_suffix h hsuffix

/-- What a reader gives is good, or it tells what is refused. -/
abbrev Reads (cs : List Char) (good : α → Prop) : Except Refusal α → Prop :=
  Yields (fun refusal => Told cs refusal.error) good

namespace Reads

variable {good good' : α → Prop} {x : Except Refusal α}

@[simp] theorem refuse (c : Cursor) (reason : Reason) : Reads cs good (c.refuse reason) := trivial

theorem imp (h : Reads ds good x) (hsuffix : ds <:+ cs) (hgood : ∀ a, good a → good' a) : Reads cs good' x := by
  cases x with
  | ok a => exact hgood a h
  | error refusal => exact Told.of_suffix h hsuffix

end Reads

/-- A reader stays in a text: it leaves an end of the text at a certain place of its result. -/
abbrev Stays (cs : List Char) (place : α → Cursor) : Except Refusal α → Prop :=
  Reads cs fun a => (place a).rest <:+ cs

namespace Stays

variable {place : α → Cursor} {next : β → Cursor} {x : Except Refusal α} {f : α → Except Refusal β}

theorem of_suffix (h : Stays ds place x) (hsuffix : ds <:+ cs) : Stays cs place x :=
  Reads.imp h hsuffix fun _ ha => ha.trans hsuffix

theorem bind (h : Stays cs place x) (hf : ∀ a, Stays (place a).rest next (f a)) : Stays cs next (x >>= f) :=
  Yields.bind h fun a ha => (hf a).of_suffix ha

theorem map {g : α → β} (h : Stays cs place x) (hg : ∀ a, next (g a) = place a) : Stays cs next (x.map g) := by
  cases x with
  | ok a => simpa [Except.map, Stays, hg] using h
  | error refusal => exact h

end Stays

end DocFilter.Yaml
