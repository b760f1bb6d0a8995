import DocFilter.Codec.Error
import DocFilter.Proofs.Json.RoundTrip
import DocFilter.Proofs.Results

/-!
# Values in messages

A check of the codec puts the value that it looks at into words before it decides, and a whole number with too many
digits cannot be put into words.  So what is read of such a value is refused, whatever else it is.

* `Json.holdsLong_get?` and the lemmas before it say where a number that is too long can stand.
* `showing_of_short` and `showing_eq_ok_iff` take the check away where a value can be shown, `showing_bind` and
  `showing_both` put several checks together.
* `mapM_eq_showing` is the list of members that are each shown.
-/

namespace DocFilter

/-- A number of ten digits is not too long.  The proof keeps the limit as a name, for its power of ten is no number
to compute with. -/
theorem not_isLong {n : Int} (h : n.natAbs < 10 ^ 10) : ¬ isLong n := by
  have hlong : ∀ limit, 10 ≤ limit → ¬ Nat.pow 10 limit ≤ n.natAbs := fun limit hlimit =>
    Nat.not_le_of_lt (Nat.lt_of_lt_of_le h (Nat.pow_le_pow_right (by decide) hlimit))
  exact fun hn => hlong digitLimit (by decide) (of_decide_eq_true hn)

namespace Json

variable {json part item : Json} {items : List Json} {entries : List (String × Json)}

theorem itemsHoldLong_eq_false_iff : itemsHoldLong items = false ↔ ∀ item ∈ items, item.holdsLong = false := by
  induction items with
  | nil => simp [itemsHoldLong]
  | cons item items ih => rw [itemsHoldLong, Bool.or_eq_false_iff, ih, List.forall_mem_cons]

theorem entriesHoldLong_eq_false_iff :
    entriesHoldLong entries = false ↔ ∀ entry ∈ entries, entry.2.holdsLong = false := by
  induction entries with
  | nil => simp [entriesHoldLong]
  | cons entry entries ih => rw [entriesHoldLong, Bool.or_eq_false_iff, ih, List.forall_mem_cons]

/-- What stands in an object that can be shown can be shown. -/
theorem holdsLong_get? (key : String) (h : json.holdsLong = false) (hget : json.get? key = some part) :
    part.holdsLong = false := by
  cases json with
  | obj entries =>
    obtain ⟨before, after, rfl, -⟩ := List.lookup_eq_some_iff.mp hget
    rw [holdsLong] at h
    exact entriesHoldLong_eq_false_iff.mp h (key, part) (by simp)
  | _ => cases hget

/-- What a text can denote can be shown. -/
theorem Legible.short (h : json.Legible) : json.holdsLong = false := by
  induction h with
  | null | bool | float | str => rfl
  | int short => exact Bool.eq_false_iff.mpr short
  | arr _ ih => exact itemsHoldLong_eq_false_iff.mpr ih
  | obj _ _ ih => exact entriesHoldLong_eq_false_iff.mpr ih

/-- What can be shown can be written. -/
theorem render_of_short {style : Style} (h : json.holdsLong = false) : json.render style = .ok (json.text style) := by
  rw [render, h]
  rfl

end Json

variable {α β : Type} {json : Json} {a : α} {result : Except CodecError α}

theorem showing_of_short (h : json.holdsLong = false) : showing json result = result := by
  rw [showing, h]
  rfl

theorem showing_of_long (h : json.holdsLong = true) :
    showing json result = .error (.fault (.value .longNumber)) := if_pos h

/-- A check succeeds where its value can be shown and what comes after it succeeds. -/
theorem showing_eq_ok_iff : showing json result = .ok a ↔ json.holdsLong = false ∧ result = .ok a := by
  cases h : json.holdsLong with
  | false => simp [showing_of_short h]
  | true => simp [showing_of_long h]

theorem succeeds_showing_iff : Succeeds (showing json result) ↔ json.holdsLong = false ∧ Succeeds result :=
  (exists_congr fun _ => showing_eq_ok_iff).trans exists_and_left

theorem showing_congr {result' : Except CodecError α} (h : json.holdsLong = false → result = result') :
    showing json result = showing json result' := by
  cases hlong : json.holdsLong with
  | false => rw [h hlong]
  | true => rw [showing_of_long hlong, showing_of_long hlong]

theorem showing_bind {f : α → Except CodecError β} : showing json result >>= f = showing json (result >>= f) := by
  cases h : json.holdsLong with
  | false => rw [showing_of_short h, showing_of_short h]
  | true =>
    rw [showing_of_long h, showing_of_long h]
    rfl

/-- The two parts of a value are shown one after the other if the value is. -/
theorem showing_both {first second : Json} (h : json.holdsLong = (first.holdsLong || second.holdsLong)) :
    showing first (showing second result) = showing json result := by
  rw [showing, showing, showing, h]
  cases first.holdsLong <;> cases second.holdsLong <;> rfl

theorem FailsOnly.showing {allowed : CodecError → Prop} (h : FailsOnly allowed result)
    (hshort : json.holdsLong = false) : FailsOnly allowed (DocFilter.showing json result) := by
  rwa [showing_of_short hshort]

/-- Members that are each shown are shown as a list. -/
theorem mapM_eq_showing {γ : Type} {f : Json → Except CodecError β} {g : γ → β} {xs : List γ} {items : List Json}
    (h : List.Forall₂ (fun x item => f item = showing item (.ok (g x))) xs items) :
    items.mapM f = showing (.arr items) (.ok (xs.map g)) := by
  induction h with
  | nil => rfl
  | @cons x item xs items hx _ ih =>
    rw [List.mapM_cons, hx, ih, showing_bind]
    exact (congrArg (showing item) showing_bind).trans (showing_both rfl)

end DocFilter
