import DocFilter.Proofs.Json.Parsed

/-!
# Why a text is not read

A text that is not read breaks a rule of the notation, or it has a numeral of too many digits.  Nothing else
keeps it from being read.

* `Json.ReadsFrom` is what holds of each reader: it leaves an end of its text, and a value that does not fit is
  a long numeral in the text.  `ReadsFrom.bind` is for one reader after the other.
* `Json.readsFrom_read` is the induction on the fuel that the readers of values share.
* `Json.parse_refused` and `Json.parseDecoded_refused` are the results.
-/

namespace DocFilter.Json

variable {α β : Type} {cs cs' rest behind digits : List Char} {fuel : Nat}

/-- A text has a numeral with so many digits, which are too many to be read. -/
def HasLongNumeral (count : Nat) (cs : List Char) : Prop :=
  digitLimit < count ∧ ∃ digits, digits <:+: cs ∧ Digits digits ∧ digits.length = count

/-- What was read from a text leaves an end of it, and what does not fit is a long numeral in it. -/
structure ReadsFrom (cs : List Char) (x : Except (ReadError Refusal) (Reading α)) : Prop where
  remaining : ∀ a rest, x = .ok (a, rest) → rest <:+ cs
  unfit : ∀ reason, x = .error (.unfit reason) → ∃ count, reason = .longNumeral count ∧ HasLongNumeral count cs

namespace ReadsFrom

variable {x : Except (ReadError Refusal) (Reading α)} {f : Reading α → Except (ReadError Refusal) (Reading β)}

theorem of_suffix (h : ReadsFrom cs' x) (hend : cs' <:+ cs) : ReadsFrom cs x where
  remaining a rest hx := (h.remaining a rest hx).trans hend
  unfit reason hx := by
    obtain ⟨count, hreason, hlong, digits, hinfix, hdigits⟩ := h.unfit reason hx
    exact ⟨count, hreason, hlong, digits, hinfix.trans hend.isInfix, hdigits⟩

theorem ok {a : α} (hend : rest <:+ cs) : ReadsFrom cs (.ok (a, rest)) where
  remaining _ _ hx := by
    cases hx
    exact hend
  unfit := nofun

theorem refuse (reason : SyntaxReason) (remaining : List Char) :
    ReadsFrom cs (refuse reason remaining : Except (ReadError Refusal) (Reading α)) where
  remaining := nofun
  unfit := nofun

/-- A reader goes on where the one before it stopped. -/
theorem bind (h : ReadsFrom cs x) (hf : ∀ a rest, rest <:+ cs → ReadsFrom rest (f (a, rest))) :
    ReadsFrom cs (x >>= f) := by
  cases x with
  | error e => exact ⟨nofun, fun reason hx => h.unfit reason (by cases hx; rfl)⟩
  | ok read =>
    have hend := h.remaining read.1 read.2 rfl
    exact (hf read.1 read.2 hend).of_suffix hend

theorem map (h : ReadsFrom cs x) (g : α → β) : ReadsFrom cs (x >>= fun read => .ok (g read.1, read.2)) :=
  h.bind fun _ rest _ => .ok (List.suffix_refl rest)

end ReadsFrom

/-! ## Strings and numbers -/

theorem skipSpace_suffix (cs : List Char) : skipSpace cs <:+ cs := List.dropWhile_suffix _

theorem codeUnit?_suffix {unit : Nat} (h : codeUnit? cs = some (unit, rest)) : rest <:+ cs := by
  rw [codeUnit?.eq_def] at h
  split at h
  · obtain ⟨n, -, heq⟩ := Option.map_eq_some_iff.mp h
    cases heq
    exact List.suffix_append [_, _, _, _] _
  · cases h

theorem readsFrom_readUnicodeEscape (cs : List Char) : ReadsFrom cs (readUnicodeEscape cs) := by
  rw [readUnicodeEscape]
  split
  · exact .refuse _ _
  · split
    · exact .refuse _ _
    · rename_i unit behind hunit
      have hend := codeUnit?_suffix hunit
      split
      · split
        · rename_i low _
          have hlow : low <:+ cs := (List.suffix_append ['\\', 'u'] low).trans hend
          split
          · exact .refuse _ _
          · rename_i unit' behind' hunit'
            split
            · exact .ok ((codeUnit?_suffix hunit').trans hlow)
            · exact .ok hend
        · exact .ok hend
      · split <;> exact .ok hend

theorem readsFrom_readString (opening read : List Char) : ReadsFrom cs (readString opening fuel read cs) := by
  induction fuel generalizing read cs with
  | zero => exact .refuse _ _
  | succ fuel ih =>
    rw [readString.eq_def]
    dsimp only
    split
    · exact .refuse _ _
    · rename_i behind
      exact .ok (List.suffix_cons _ behind)
    · exact .refuse _ _
    · rename_i behind
      exact ((readsFrom_readUnicodeEscape behind).bind fun c rest _ => ih _).of_suffix
        (List.suffix_append ['\\', 'u'] behind)
    · rename_i c behind _
      split
      · exact (ih _).of_suffix (List.suffix_append ['\\', c] behind)
      · exact .refuse _ _
    · rename_i c behind _ _ _ _
      split
      · exact .refuse _ _
      · exact (ih _).of_suffix (List.suffix_cons c behind)

theorem spanWhole_eq_append (h : spanWhole cs = some (digits, rest)) : cs = digits ++ rest := by
  rw [spanWhole.eq_def] at h
  split at h
  · cases h
    rfl
  · split at h
    · cases h
    · rename_i hspan
      cases h
      exact spanDigits_eq_append hspan

theorem spanFraction_suffix (h : spanFraction cs = some (digits, rest)) : rest <:+ cs := by
  rw [spanFraction.eq_def] at h
  split at h
  · split at h
    · cases h
    · rename_i behind _ _ hspan
      cases h
      rw [spanDigits_eq_append hspan]
      exact (List.suffix_append _ _).trans (List.suffix_cons _ _)
  · cases h

theorem spanExponent_suffix {n : Int} (h : spanExponent cs = some (n, rest)) : rest <:+ cs := by
  rw [spanExponent.eq_def] at h
  split at h
  · rename_i mark behind
    split at h
    · dsimp only at h
      split at h
      · cases h
      · rename_i hspan
        cases h
        refine List.IsSuffix.trans ?_ (List.suffix_cons mark behind)
        refine List.IsSuffix.trans ?_ (spanSign_suffix behind)
        rw [spanDigits_eq_append hspan]
        exact List.suffix_append _ _
    · cases h
  · cases h

theorem readsFrom_readUnsigned (negative : Bool) (start : List Char) :
    ReadsFrom cs (readUnsigned negative start cs) := by
  rw [readUnsigned]
  split
  · exact .refuse _ _
  · rename_i whole behind hwhole
    have happend := spanWhole_eq_append hwhole
    have hbehind : behind <:+ cs := happend ▸ List.suffix_append whole behind
    have hfraction : ((spanFraction behind).map (·.2)).getD behind <:+ cs := by
      cases hspan : spanFraction behind with
      | none => exact hbehind
      | some fraction => exact (spanFraction_suffix hspan).trans hbehind
    dsimp only
    generalize ((spanFraction behind).map (·.2)).getD behind = later at hfraction ⊢
    have hexponent : ((spanExponent later).map (·.2)).getD later <:+ cs := by
      cases hspan : spanExponent later with
      | none => exact hfraction
      | some exponent => exact (spanExponent_suffix hspan).trans hfraction
    split
    · split
      · rename_i hlong
        refine ⟨fun _ _ hx => (by cases hx), fun reason hx => ?_⟩
        cases hx
        exact ⟨whole.length, rfl, hlong, whole, happend ▸ (List.prefix_append whole behind).isInfix,
          digits_spanWhole hwhole, rfl⟩
      · exact .ok hexponent
    · exact .ok hexponent

theorem readsFrom_readNumber (cs : List Char) : ReadsFrom cs (readNumber cs) := by
  rw [readNumber.eq_def]
  split
  · exact (readsFrom_readUnsigned _ _).of_suffix (List.suffix_cons _ _)
  · exact readsFrom_readUnsigned _ _

/-! ## Values -/

theorem readsFrom_readValue (fuel : Nat) (hitems : ∀ cs, ReadsFrom cs (readItems fuel cs))
    (hmembers : ∀ cs, ReadsFrom cs (readMembers fuel cs)) (cs : List Char) :
    ReadsFrom cs (readValue (fuel + 1) cs) := by
  rw [readValue.eq_def]
  dsimp only
  split
  · rename_i behind
    exact ((readsFrom_readString _ _).map _).of_suffix (List.suffix_cons _ behind)
  · rename_i behind
    have hspace := (skipSpace_suffix behind).trans (List.suffix_cons '{' behind)
    split
    · rename_i later hlater
      exact .ok ((List.suffix_cons '}' later).trans (hlater ▸ hspace))
    · exact ((hmembers _).map fun entries => obj (Entries.ofWrites entries)).of_suffix hspace
  · rename_i behind
    have hspace := (skipSpace_suffix behind).trans (List.suffix_cons '[' behind)
    split
    · rename_i later hlater
      exact .ok ((List.suffix_cons ']' later).trans (hlater ▸ hspace))
    · exact ((hitems _).map _).of_suffix hspace
  · exact .ok (List.suffix_append ['n', 'u', 'l', 'l'] _)
  · exact .ok (List.suffix_append ['t', 'r', 'u', 'e'] _)
  · exact .ok (List.suffix_append ['f', 'a', 'l', 's', 'e'] _)
  · exact .ok (List.suffix_append ['N', 'a', 'N'] _)
  · exact .ok (List.suffix_append ['I', 'n', 'f', 'i', 'n', 'i', 't', 'y'] _)
  · exact .ok (List.suffix_append ['-', 'I', 'n', 'f', 'i', 'n', 'i', 't', 'y'] _)
  · exact readsFrom_readNumber _

theorem readsFrom_read (fuel : Nat) :
    (∀ cs, ReadsFrom cs (readValue fuel cs)) ∧ (∀ cs, ReadsFrom cs (readItems fuel cs)) ∧
      ∀ cs, ReadsFrom cs (readMembers fuel cs) := by
  induction fuel with
  | zero => exact ⟨fun _ => .refuse _ _, fun _ => .refuse _ _, fun _ => .refuse _ _⟩
  | succ fuel ih =>
    obtain ⟨hvalue, hitems, hmembers⟩ := ih
    refine ⟨readsFrom_readValue fuel hitems hmembers, fun cs => ?_, fun cs => ?_⟩
    · rw [readItems]
      refine (hvalue cs).bind fun item rest _ => ?_
      have hspace := skipSpace_suffix rest
      dsimp only
      split
      · rename_i later hlater
        exact .ok ((List.suffix_cons ']' later).trans (hlater ▸ hspace))
      · rename_i later hlater
        have hlater := (skipSpace_suffix later).trans ((List.suffix_cons ',' later).trans (hlater ▸ hspace))
        exact ((hitems _).map _).of_suffix hlater
      · exact .refuse _ _
    · rw [readMembers.eq_def]
      dsimp only
      split
      · rename_i behind
        refine ((readsFrom_readString _ _).bind fun key rest _ => ?_).of_suffix (List.suffix_cons '"' behind)
        dsimp only
        split
        · rename_i later hlater
          have hlater := (skipSpace_suffix later).trans
            ((List.suffix_cons ':' later).trans (hlater ▸ skipSpace_suffix rest))
          refine ((hvalue _).bind fun value rest _ => ?_).of_suffix hlater
          have hspace := skipSpace_suffix rest
          dsimp only
          split
          · rename_i last hlast
            exact .ok ((List.suffix_cons '}' last).trans (hlast ▸ hspace))
          · rename_i last hlast
            have hlast := (skipSpace_suffix last).trans ((List.suffix_cons ',' last).trans (hlast ▸ hspace))
            exact ((hmembers _).map _).of_suffix hlast
          · exact .refuse _ _
        · exact .refuse _ _
      · exact .refuse _ _

/-- Characters that are not read as data break a rule, or they have a long numeral. -/
theorem parseDecoded_refused {reason : Unfit} (h : parseDecoded cs = .error (.unfit reason)) :
    ∃ count, reason = .longNumeral count ∧ HasLongNumeral count cs := by
  have hread := ((readsFrom_read (2 * cs.length + 2)).1 (skipSpace cs)).of_suffix (skipSpace_suffix cs)
  rw [parseDecoded, readText] at h
  cases hvalue : readValue (2 * cs.length + 2) (skipSpace cs) with
  | error e =>
    rw [hvalue] at h
    cases e with
    | rule e => cases h
    | unfit found =>
      cases h
      exact hread.unfit reason hvalue
  | ok read =>
    rw [hvalue] at h
    obtain ⟨value, rest⟩ := read
    cases hspace : skipSpace rest <;> simp [hspace, bind, Except.bind, refuse, Except.mapError, ReadError.map] at h

theorem parse_refused {text : String} {reason : Unfit} (h : parse text = .error (.unfit reason)) :
    ∃ count, reason = .longNumeral count ∧ HasLongNumeral count text.toList := by
  rw [parse] at h
  split at h
  · cases h
  · exact parseDecoded_refused h

end DocFilter.Json
