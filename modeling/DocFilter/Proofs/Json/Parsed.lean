import DocFilter.Proofs.Json.RoundTrip
import DocFilter.Proofs.Results

/-!
# What parsing gives

Data that was read from a text is data that a text can denote, so it can be written and read back.

The reader goes round in three functions that share their fuel; `Json.legible_of_read` is the induction on it.
-/

namespace DocFilter

namespace Entries

variable {α : Type} {writes : List (String × α)} {entry : String × α}

theorem nodup_keys_ofWrites (writes : List (String × α)) : (keys (ofWrites writes)).Nodup := by
  have hafter : ∀ (rest : List (String × α)) (done : Entries α), done.keys.Nodup →
      (keys (update done rest)).Nodup := by
    intro rest
    induction rest with
    | nil => exact fun done h => h
    | cons entry rest ih => exact fun done h => ih _ (nodup_keys_put h)
  exact hafter writes [] List.nodup_nil

theorem exists_of_mem_ofWrites (h : entry ∈ ofWrites writes) : ∃ written ∈ writes, written.2 = entry.2 := by
  have hafter : ∀ (rest : List (String × α)) (done : Entries α), entry ∈ update done rest →
      entry ∈ done ∨ ∃ written ∈ rest, written.2 = entry.2 := by
    intro rest
    induction rest with
    | nil => exact fun done h => .inl h
    | cons first rest ih =>
      intro done h
      rcases ih _ h with h | ⟨written, hmem, heq⟩
      · exact (mem_of_mem_put h).imp id fun h => ⟨first, List.mem_cons_self, h.symm⟩
      · exact .inr ⟨written, List.mem_cons_of_mem _ hmem, heq⟩
  exact (hafter writes [] h).resolve_left List.not_mem_nil

end Entries

namespace Json

variable {cs rest whole digits : List Char} {fuel : Nat} {j : Json}

/-! ## Numbers -/

theorem digits_spanDigits (h : spanDigits cs = (digits, rest)) : Digits digits := fun c hc => by
  rw [spanDigits, List.span_eq_takeWhile_dropWhile] at h
  rw [← (Prod.mk.inj h).1] at hc
  have hdigit := List.mem_takeWhile_imp hc
  exact of_decide_eq_true hdigit

theorem digits_spanWhole (h : spanWhole cs = some (digits, rest)) : Digits digits := by
  rw [spanWhole.eq_def] at h
  split at h
  · cases h
    exact List.forall_mem_singleton.mpr (by decide)
  · split at h
    · cases h
    · rename_i hspan
      cases h
      exact digits_spanDigits hspan

/-- The number that not too many digits denote is not too long to be read.  The limit stays a name, for its power of
ten is no number to compute with. -/
theorem not_isLong_of_digits (negative : Bool) (hdigits : Digits digits)
    (hlength : ¬ digitLimit < digits.length) :
    ¬ isLong (if negative then -(natOfDigits digits : Int) else natOfDigits digits) := by
  obtain ⟨limit, hlimit⟩ : ∃ limit, digitLimit = limit := ⟨_, rfl⟩
  have hless : natOfDigits digits < 10 ^ limit :=
    (natOfDigits_lt hdigits).trans_le (Nat.pow_le_pow_right (by decide) (by omega))
  have habs : (if negative then -(natOfDigits digits : Int) else natOfDigits digits).natAbs =
      natOfDigits digits := by
    cases negative <;> simp
  rw [isLong, habs, hlimit]
  exact fun h => absurd (of_decide_eq_true h) (Nat.not_le_of_lt hless)

theorem legible_of_readUnsigned {negative : Bool} {start : List Char}
    (h : readUnsigned negative start cs = .ok (j, rest)) : j.Legible := by
  rw [readUnsigned] at h
  split at h
  · cases h
  · rename_i hwhole
    dsimp only at h
    split at h
    · split at h
      · cases h
      · rename_i hlength
        cases h
        exact .int (not_isLong_of_digits negative (digits_spanWhole hwhole) hlength)
    · cases h
      exact .float Double.canonical_ofDecimal

theorem legible_of_readNumber (h : readNumber cs = .ok (j, rest)) : j.Legible := by
  rw [readNumber.eq_def] at h
  split at h <;> exact legible_of_readUnsigned h

/-! ## Values -/

theorem legible_of_readValue (fuel : Nat)
    (hitems : ∀ cs items rest, readItems fuel cs = .ok (items, rest) → ∀ item ∈ items, item.Legible)
    (hmembers : ∀ cs entries rest, readMembers fuel cs = .ok (entries, rest) →
      ∀ entry ∈ entries, entry.2.Legible) (h : readValue (fuel + 1) cs = .ok (j, rest)) : j.Legible := by
  rw [readValue.eq_def] at h
  dsimp only at h
  split at h
  · obtain ⟨⟨s, behind⟩, -, h⟩ := bind_eq_ok_iff.mp h
    cases h
    exact .str s
  · split at h
    · cases h
      exact .obj List.nodup_nil fun _ hentry => by cases hentry
    · obtain ⟨⟨entries, behind⟩, hread, h⟩ := bind_eq_ok_iff.mp h
      cases h
      refine .obj (Entries.nodup_keys_ofWrites entries) fun entry hentry => ?_
      obtain ⟨written, hmem, heq⟩ := Entries.exists_of_mem_ofWrites hentry
      exact heq ▸ hmembers _ _ _ hread written hmem
  · split at h
    · cases h
      exact .arr fun _ hitem => by cases hitem
    · obtain ⟨⟨items, behind⟩, hread, h⟩ := bind_eq_ok_iff.mp h
      cases h
      exact .arr (hitems _ _ _ hread)
  · cases h
    exact .null
  · cases h
    exact .bool true
  · cases h
    exact .bool false
  · cases h
    exact .float trivial
  · cases h
    exact .float trivial
  · cases h
    exact .float trivial
  · exact legible_of_readNumber h

theorem legible_of_read (fuel : Nat) :
    (∀ cs j rest, readValue fuel cs = .ok (j, rest) → j.Legible) ∧
    (∀ cs items rest, readItems fuel cs = .ok (items, rest) → ∀ item ∈ items, item.Legible) ∧
    ∀ cs entries rest, readMembers fuel cs = .ok (entries, rest) → ∀ entry ∈ entries, entry.2.Legible := by
  induction fuel with
  | zero => exact ⟨nofun, nofun, nofun⟩
  | succ fuel ih =>
    obtain ⟨hvalue, hitems, hmembers⟩ := ih
    refine ⟨fun cs j rest h => legible_of_readValue fuel hitems hmembers h, ?_, ?_⟩
    · intro cs items rest h
      rw [readItems] at h
      obtain ⟨⟨item, behind⟩, hread, h⟩ := bind_eq_ok_iff.mp h
      have hitem := hvalue _ _ _ hread
      dsimp only at h
      split at h
      · cases h
        exact List.forall_mem_singleton.mpr hitem
      · obtain ⟨⟨items, behind⟩, hread, h⟩ := bind_eq_ok_iff.mp h
        cases h
        exact List.forall_mem_cons.mpr ⟨hitem, hitems _ _ _ hread⟩
      · cases h
    · intro cs entries rest h
      rw [readMembers.eq_def] at h
      dsimp only at h
      split at h
      · obtain ⟨⟨key, behind⟩, -, h⟩ := bind_eq_ok_iff.mp h
        dsimp only at h
        split at h
        · obtain ⟨⟨value, behind⟩, hread, h⟩ := bind_eq_ok_iff.mp h
          have hentry := hvalue _ _ _ hread
          dsimp only at h
          split at h
          · cases h
            exact List.forall_mem_singleton.mpr hentry
          · obtain ⟨⟨entries, behind⟩, hread, h⟩ := bind_eq_ok_iff.mp h
            cases h
            exact List.forall_mem_cons.mpr ⟨hentry, hmembers _ _ _ hread⟩
          · cases h
        · cases h
      · cases h

/-- What was read from characters can be written and read back. -/
theorem legible_of_parseDecoded {cs : List Char} (h : parseDecoded cs = .ok j) : j.Legible := by
  rw [parseDecoded] at h
  cases htext : readText cs with
  | error e =>
    rw [htext] at h
    cases h
  | ok value =>
    rw [htext] at h
    cases h
    rw [readText] at htext
    obtain ⟨⟨value, rest⟩, hvalue, htext⟩ := bind_eq_ok_iff.mp htext
    dsimp only at htext
    split at htext
    · cases htext
      exact (legible_of_read _).1 _ _ _ hvalue
    · cases htext

theorem legible_of_parse {text : String} (h : parse text = .ok j) : j.Legible := by
  rw [parse] at h
  split at h
  · cases h
  · exact legible_of_parseDecoded h

end Json

end DocFilter
