import DocFilter.Proofs.Forest.Cells
import Mathlib.Data.Finset.Card
import Mathlib.Data.Nat.Find

/-!
# Chains of replacements

A node that was replaced points at the node put in its place, and that one may point further.  Following
the pointers from a node comes to an end unless the pointers run in a circle.

* `Forest.Ends` and `Forest.Settled` say that following comes to an end, from one node and from all.
  `Forest.settles_iff` says that as many hops as there are nodes are enough to tell, so that the final
  replacement of a node of a settled forest was not replaced itself.
* `Forest.Settled.of_clears` and `Forest.Settled.mark_iff` say what dropping marks and setting one
  mark do: a mark closes a circle exactly if the chain of the new node leads to the marked one.
-/

namespace DocFilter

namespace Forest

variable {f f' : Forest} {n m r c : NodeId} {k : Nat}

/-- Following replacements from a node comes to a node that was not replaced. -/
def Ends (f : Forest) (n : NodeId) : Prop := ∃ k, f.replacement? (f.follow k n) = none

/-- Following replacements comes to an end from every node. -/
def Settled (f : Forest) : Prop := ∀ n, f.Ends n

/-! ## Following -/

theorem follow_of_none (h : f.replacement? n = none) (k : Nat) : f.follow k n = n := by
  cases k with
  | zero => rfl
  | succ k => rw [follow, h]

theorem follow_succ_of_some (h : f.replacement? n = some r) (k : Nat) :
    f.follow (k + 1) n = f.follow k r := by
  rw [follow, h]

theorem follow_add (j k : Nat) : f.follow (j + k) n = f.follow k (f.follow j n) := by
  induction j generalizing n with
  | zero => rw [Nat.zero_add, follow]
  | succ j ih =>
    cases hn : f.replacement? n with
    | none => rw [follow_of_none hn, follow_of_none hn, follow_of_none hn]
    | some r =>
      have hstep : j + 1 + k = j + k + 1 := by omega
      rw [hstep, follow_succ_of_some hn, follow_succ_of_some hn, ih]

theorem follow_last (k : Nat) :
    f.follow (k + 1) n = (f.replacement? (f.follow k n)).getD (f.follow k n) := by
  rw [follow_add, follow]
  cases f.replacement? (f.follow k n) <;> rfl

/-- Forests that agree along a chain have the same chain. -/
theorem follow_congr (h : ∀ j < k, f'.replacement? (f.follow j n) = f.replacement? (f.follow j n)) :
    f'.follow k n = f.follow k n := by
  induction k generalizing n with
  | zero => rw [follow, follow]
  | succ k ih =>
    have hn : f'.replacement? n = f.replacement? n := h 0 (by omega)
    cases hr : f.replacement? n with
    | none => rw [follow_of_none hr, follow_of_none (hn.trans hr)]
    | some r =>
      rw [follow_succ_of_some hr, follow_succ_of_some (hn.trans hr)]
      refine ih fun j hj => ?_
      have hlater := h (j + 1) (by omega)
      rwa [follow_succ_of_some hr] at hlater

theorem Ends.of_none (h : f.replacement? n = none) : f.Ends n := ⟨0, h⟩

theorem ends_iff_of_some (h : f.replacement? n = some r) : f.Ends n ↔ f.Ends r := by
  constructor
  · rintro ⟨k, hk⟩
    cases k with
    | zero => rw [follow, h] at hk; cases hk
    | succ k => exact ⟨k, by rwa [follow_succ_of_some h] at hk⟩
  · rintro ⟨k, hk⟩
    exact ⟨k + 1, by rwa [follow_succ_of_some h]⟩

/-! ## How far to follow -/

/-- The nodes before the end of a chain are different nodes of the forest, for a node met twice would bring the end
nearer by what lies between.  So a chain that ends does so within as many hops as there are nodes. -/
theorem Ends.within_size (h : f.Ends n) : ∃ k ≤ f.size, f.replacement? (f.follow k n) = none := by
  classical
  let k := Nat.find h
  have hend : f.replacement? (f.follow k n) = none := Nat.find_spec h
  have hbefore : ∀ j < k, f.replacement? (f.follow j n) ≠ none := fun j hj => Nat.find_min h hj
  have hhas : ∀ j < k, (f.follow j n).index < f.size := fun j hj => by
    by_contra hno
    exact hbefore j hj (replacement?_of_not_has hno)
  have hinj : Set.InjOn (fun j => (f.follow j n).index) (Finset.range k : Set Nat) := by
    have hdifferent : ∀ i j, i < j → j < k → f.follow i n ≠ f.follow j n := by
      intro i j hij hjk hsame
      have hshort : f.follow (i + (k - j)) n = f.follow k n := by
        have hk : k = j + (k - j) := by omega
        rw [follow_add, hsame, ← follow_add, ← hk]
      exact hbefore (i + (k - j)) (by omega) (by rw [hshort]; exact hend)
    intro i hi j hj hij
    have hi : i < k := by simpa using hi
    have hj : j < k := by simpa using hj
    have hsame : f.follow i n = f.follow j n := by
      cases hfi : f.follow i n
      cases hfj : f.follow j n
      simpa [hfi, hfj] using hij
    rcases Nat.lt_trichotomy i j with hlt | heq | hgt
    · exact absurd hsame (hdifferent i j hlt hj)
    · exact heq
    · exact absurd hsame.symm (hdifferent j i hgt hi)
  refine ⟨k, ?_, hend⟩
  have hcard := Finset.card_le_card_of_injOn (s := Finset.range k) (t := Finset.range f.size)
    (fun j => (f.follow j n).index) (fun j hj => by simpa using hhas j (by simpa using hj)) hinj
  simpa using hcard

/-- Whether a chain ends is told by as many hops as there are nodes. -/
theorem settles_iff : f.settles n ↔ f.Ends n := by
  rw [settles, Option.isNone_iff_eq_none, finalReplacement]
  refine ⟨fun h => ⟨f.size, h⟩, fun h => ?_⟩
  obtain ⟨k, hk, hend⟩ := h.within_size
  have hsize : f.size = k + (f.size - k) := by omega
  rw [hsize, follow_add, follow_of_none hend]
  exact hend

/-- In a settled forest the final replacement of a node was not replaced itself. -/
theorem Settled.replacement?_finalReplacement (h : f.Settled) (n : NodeId) :
    f.replacement? (f.finalReplacement n) = none := by
  have hn := settles_iff.mpr (h n)
  rwa [settles, Option.isNone_iff_eq_none] at hn

theorem finalReplacement_of_none (h : f.replacement? n = none) : f.finalReplacement n = n :=
  follow_of_none h f.size

theorem settles_of_none (h : f.replacement? n = none) : f.settles n := by
  rw [settles, finalReplacement_of_none h, h]
  rfl

/-- A node with an unmarked one in its place is followed by that. -/
theorem finalReplacement_of_some (h : f.replacement? n = some r) (hr : f.replacement? r = none) :
    f.finalReplacement n = r := by
  have hn : f.Has n := by
    by_contra hno
    rw [replacement?_of_not_has hno] at h
    cases h
  obtain ⟨size, hsize⟩ := Nat.exists_eq_add_of_le' (Nat.zero_lt_of_lt hn)
  rw [finalReplacement, hsize, follow_succ_of_some h, follow_of_none hr]

/-! ## Dropping marks and setting one -/

/-- Some marks of replacement are dropped and none is set. -/
def Clears (f f' : Forest) : Prop :=
  ∀ n, f'.replacement? n = f.replacement? n ∨ f'.replacement? n = none

theorem Clears.refl (f : Forest) : f.Clears f := fun _ => .inl rfl

theorem Clears.trans {f₁ f₂ f₃ : Forest} (h₁₂ : f₁.Clears f₂) (h₂₃ : f₂.Clears f₃) :
    f₁.Clears f₃ := by
  intro n
  rcases h₂₃ n with hsame | hnone
  · rw [hsame]
    exact h₁₂ n
  · exact .inr hnone

/-- Dropping marks keeps a forest settled. -/
theorem Settled.of_clears (h : f.Settled) (hclears : f.Clears f') : f'.Settled := by
  intro n
  obtain ⟨k, hk⟩ := h n
  induction k generalizing n with
  | zero =>
    have hnone : f'.replacement? n = none := (hclears n).elim (fun h => h.trans hk) id
    exact .of_none hnone
  | succ k ih =>
    rcases hclears n with hsame | hnone
    · cases hr : f.replacement? n with
      | none => exact .of_none (hsame.trans hr)
      | some r =>
        rw [ends_iff_of_some (hsame.trans hr)]
        exact ih r (by rwa [follow_succ_of_some hr] at hk)
    · exact .of_none hnone

/-- A node stands on the chain of replacements of another. -/
def Leads (f : Forest) (n c : NodeId) : Prop := ∃ k, f.follow k n = c

/-- A chain that leads to an unmarked node ends there. -/
theorem Leads.finalReplacement (h : f.Leads n c) (hc : f.replacement? c = none) :
    f.settles n ∧ f.finalReplacement n = c := by
  obtain ⟨k, hk⟩ := h
  have hsettles : f.settles n := settles_iff.mpr ⟨k, by rw [hk]; exact hc⟩
  have hend : f.replacement? (f.follow f.size n) = none := by
    rwa [settles, Option.isNone_iff_eq_none] at hsettles
  refine ⟨hsettles, ?_⟩
  rcases Nat.le_total k f.size with hle | hle
  · obtain ⟨more, hmore⟩ := Nat.exists_eq_add_of_le hle
    rw [Forest.finalReplacement, hmore, follow_add, hk, follow_of_none hc]
  · obtain ⟨more, rfl⟩ := Nat.exists_eq_add_of_le hle
    rw [follow_add, follow_of_none hend] at hk
    exact hk

/-- A chain is there as long as no mark on it changes. -/
theorem Leads.of_kept (h : f.Leads n c)
    (hkept : ∀ m r, m ≠ c → f.replacement? m = some r → f'.replacement? m = some r) :
    f'.Leads n c := by
  classical
  let k := Nat.find h
  have hk : f.follow k n = c := Nat.find_spec h
  refine ⟨k, ?_⟩
  rw [follow_congr, hk]
  intro j hj
  have hne : f.follow j n ≠ c := Nat.find_min h hj
  cases hr : f.replacement? (f.follow j n) with
  | some r => exact hkept _ r hne hr
  | none =>
    obtain ⟨more, hmore⟩ := Nat.exists_eq_add_of_le (Nat.le_of_lt hj)
    rw [hmore, follow_add, follow_of_none hr] at hk
    exact absurd hk hne

/-- A chain that does not meet the marked node is as before. -/
theorem Ends.of_not_leads (h : f.Ends n) (hleads : ¬ f.Leads n c)
    (hmark : ∀ m, f'.replacement? m = if m = c then some r else f.replacement? m) : f'.Ends n := by
  have hagree : ∀ j, f'.replacement? (f.follow j n) = f.replacement? (f.follow j n) := by
    intro j
    have hne : f.follow j n ≠ c := fun hj => hleads ⟨j, hj⟩
    rw [hmark, if_neg hne]
  obtain ⟨k, hk⟩ := h
  refine ⟨k, ?_⟩
  rw [follow_congr fun j _ => hagree j, hagree]
  exact hk

/-- A mark that points at a node whose chain leads back to the marked one closes a circle. -/
theorem not_ends_of_leads (hleads : f.Leads r c)
    (hmark : ∀ m, f'.replacement? m = if m = c then some r else f.replacement? m) : ¬ f'.Ends r := by
  classical
  intro hends
  let k := Nat.find hleads
  have hk : f.follow k r = c := Nat.find_spec hleads
  have hsame : f'.follow k r = c := by
    rw [follow_congr, hk]
    intro j hj
    have hne : f.follow j r ≠ c := Nat.find_min hleads hj
    rw [hmark, if_neg hne]
  have hc : f'.replacement? c = some r := by rw [hmark, if_pos rfl]
  have hback : f'.follow (k + 1) r = r := by
    rw [follow_add, hsame, follow_succ_of_some hc, follow]
  let d := Nat.find hends
  have hd : f'.replacement? (f'.follow d r) = none := Nat.find_spec hends
  by_cases hdk : d ≤ k
  · have hlast : f'.follow k r = f'.follow d r := by
      have hsplit : k = d + (k - d) := by omega
      rw [hsplit, follow_add, follow_of_none hd]
    rw [← hlast, hsame, hc] at hd
    cases hd
  · have hshort : f'.follow (d - (k + 1)) r = f'.follow d r := by
      have hsplit : d = k + 1 + (d - (k + 1)) := by omega
      conv_rhs => rw [hsplit, follow_add, hback]
    exact Nat.find_min hends (by omega : d - (k + 1) < d) (by rw [hshort]; exact hd)

/-- Setting the mark of a node in a settled forest keeps it settled exactly if the chain of the new node
does not lead to the marked one. -/
theorem Settled.mark_iff (h : f.Settled)
    (hmark : ∀ m, f'.replacement? m = if m = c then some r else f.replacement? m) :
    f'.Settled ↔ ¬ f.Leads r c := by
  refine ⟨fun h' hleads => not_ends_of_leads hleads hmark (h' r), fun hleads n => ?_⟩
  have hr : f'.Ends r := (h r).of_not_leads hleads hmark
  obtain ⟨k, hk⟩ := h n
  induction k generalizing n with
  | zero =>
    by_cases hnc : n = c
    · exact (ends_iff_of_some (by rw [hmark, if_pos hnc])).mpr hr
    · exact .of_none (by rw [hmark, if_neg hnc]; exact hk)
  | succ k ih =>
    by_cases hnc : n = c
    · exact (ends_iff_of_some (by rw [hmark, if_pos hnc])).mpr hr
    · have hsame : f'.replacement? n = f.replacement? n := by rw [hmark, if_neg hnc]
      cases hs : f.replacement? n with
      | none => exact .of_none (hsame.trans hs)
      | some s =>
        rw [ends_iff_of_some (hsame.trans hs)]
        exact ih s (by rwa [follow_succ_of_some hs] at hk)

end Forest

end DocFilter
