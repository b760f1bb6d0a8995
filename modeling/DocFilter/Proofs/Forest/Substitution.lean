import DocFilter.Proofs.Forest.Cycles

/-!
# Putting a node in the place of another one

The new node may come from anywhere: from among the siblings, in front or behind, so that the place itself moves
when the node is taken out; from below the node that gives way; from another tree; or from nowhere, with the
record of a holder that has long lost it.

* `Forest.Linked.children_take` says that taking a node over removes it from all lists, wherever it stood.
* `Forest.Substituted` is what a replacement makes of a forest, list by list and record by record, and
  `Forest.Linked.substituted_put` that it does.
* `Forest.replace_eq_error_iff` says when a replacement is refused, and how.
* `Forest.Linked.replace_account` is the account of a replacement.
-/

namespace DocFilter

namespace Forest

variable {f f' : Forest} {s c m q k : NodeId} {done rest before after : List NodeId} {e : EditError}

/-! ## Lists without a node -/

theorem filter_of_not_mem (h : m ∉ done) : done.filter (· != m) = done := by
  rw [List.filter_eq_self]
  intro k hk
  have hkm : k ≠ m := fun heq => h (heq ▸ hk)
  simpa using hkm

/-- A node that is taken over is in no list any more, and the lists have lost nothing else. -/
theorem Linked.children_take (h : f.Linked) :
    (f.take s m).children q = (f.children q).filter (· != m) := by
  rw [Forest.children_take]
  split
  · exact (h.nodup q).erase_eq_filter m
  · rename_i hother
    have hnew : m ∉ f.children q := fun hmem => hother (h.held q m hmem)
    exact (filter_of_not_mem hnew).symm

/-- A list that has a node once is what stands before and after it, and the node. -/
theorem filter_of_split (h : (before ++ m :: after).Nodup) :
    (before ++ m :: after).filter (· != m) = before ++ after := by
  rw [List.nodup_middle, List.nodup_cons, List.mem_append, not_or] at h
  obtain ⟨⟨hbefore, hafter⟩, -⟩ := h
  rw [List.filter_append, List.filter_cons_of_neg (by simp), filter_of_not_mem hbefore,
    filter_of_not_mem hafter]

theorem replace_of_split (h : c ∉ done) : (done ++ c :: rest).replace c m = done ++ m :: rest := by
  rw [List.replace_append_right h, List.replace_cons_self]

/-! ## What a replacement does -/

/-- One node has the place of another one. -/
structure Substituted (f : Forest) (s c m : NodeId) (f' : Forest) : Prop where
  /-- The list is the old one without the new node, which stands where the other one stood. -/
  place : ∀ done rest, f.children s = done ++ c :: rest →
    f'.children s = done.filter (· != m) ++ m :: rest.filter (· != m)
  /-- The list that the new node stood in has lost it and nothing else. -/
  former : ∀ q, q ≠ s → ∀ before after, f.children q = before ++ m :: after → f'.children q = before ++ after
  /-- All other lists are as they were. -/
  others : ∀ q, q ≠ s → m ∉ f.children q → f'.children q = f.children q
  holder : ∀ k, f'.holder? k = if k = m then some s else f.holder? k
  mark : ∀ k, f'.replacement? k = if k = c then some m else f.replacement? k

theorem Linked.substituted_put (h : f.Linked) (hm : f.Has m) (hfits : f.Fits s c m) :
    f.Substituted s c m (f.put s c m) where
  place := fun done rest hchildren => by
    have hnodup := h.nodup s
    rw [hchildren, List.nodup_middle, List.nodup_cons, List.mem_append, not_or] at hnodup
    have hdone : c ∉ done.filter (· != m) := fun hmem => hnodup.1.1 (List.mem_of_mem_filter hmem)
    have hkept : (done ++ c :: rest).filter (· != m) = done.filter (· != m) ++ c :: rest.filter (· != m) := by
      rw [List.filter_append, List.filter_cons_of_pos (by simpa using hfits.ne_child.symm)]
    rw [children_put, if_pos rfl, h.children_take, hchildren, hkept, replace_of_split hdone]
  former := fun q hq before after hchildren => by
    rw [children_put, if_neg hq, h.children_take, hchildren]
    exact filter_of_split (hchildren ▸ h.nodup q)
  others := fun q hq hnew => by
    rw [children_put, if_neg hq, h.children_take]
    exact filter_of_not_mem hnew
  holder := fun k => by simp [holder?_put, holder?_take, hm]
  mark := fun k => replacement?_put (h.has hfits.mem)

/-! ## When a replacement is refused -/

/-- A replacement is refused if there is no such child, or else if the place climbs to the new node, which is
another one.  If the place climbs in a circle that the new node is not on, it never ends. -/
theorem replace_eq_error_iff : f.replace s c m = .error e ↔
    (c ∉ f.children s ∧ e = .notAChild (f.kind c) (f.kind s)) ∨
      (c ∈ f.children s ∧ m ≠ c ∧ f.Climbs s m ∧ e = .wouldCycle (f.kind c) (f.kind m)) ∨
      (c ∈ f.children s ∧ m ≠ c ∧ ¬ f.Climbs s m ∧ ¬ f.Topped s ∧ e = .endless) := by
  rw [replace]
  split
  · rename_i hnone
    rw [indexOf?_eq_none_iff] at hnone
    simp [hnone, eq_comm]
  · rename_i i hi
    have hmem : c ∈ f.children s := isSome_indexOf?.mp (by simp [hi])
    split
    · rename_i hsame
      simp [hsame, hmem]
    · rename_i hother
      rcases f.meets_cases s m with ⟨hmeets, hclimbs⟩ | ⟨hmeets, hno, htop⟩ | ⟨_, hmeets, hno, hendless⟩
      · simp [hmeets, hmem, hother, hclimbs, eq_comm]
      · rw [hmeets]
        have hdone : f.replace s c m = .ok (f.put s c m) :=
          replace_eq_ok_iff.mpr (.inr ⟨⟨hmem, hother, hmeets⟩, rfl⟩)
        simp only [replace, hi, if_neg hother, hmeets] at hdone
        simp [hdone, hmem, hno, htop]
      · simp [hmeets, hmem, hother, hno, hendless, eq_comm]

/-- The account of a replacement, in a forest where the nodes in the lists record whose lists they are.  Nodes
that stand in no list may record any holder.

It is refused exactly if there is no such child, or if the new node is another one and the place is this node
or comes to it from holder to holder; the error says which, and the forest is as it was.  A child that is
replaced with itself stays.  In all other cases the new node takes the place, if climbing from the place comes to
an end; if it goes round for ever, so does the replacement. -/
theorem Linked.replace_account (h : f.Linked) (hm : f.Has m) :
    ((∃ e, f.replace s c m = .error e ∧ e ≠ .endless) ↔ c ∉ f.children s ∨ (m ≠ c ∧ f.Climbs s m)) ∧
      (∀ e, f.replace s c m = .error e → (Move.replace s c m).act f = f ∧ (e ≠ .endless →
        e = if c ∈ f.children s then .wouldCycle (f.kind c) (f.kind m) else .notAChild (f.kind c) (f.kind s))) ∧
      (c ∈ f.children s → m = c → f.replace s c m = .ok f) ∧
      (c ∈ f.children s → m ≠ c → ¬ f.Climbs s m →
        (f.Topped s → ∃ f', f.replace s c m = .ok f' ∧ f.Substituted s c m f') ∧
        (¬ f.Topped s → f.replace s c m = .error .endless)) := by
  refine ⟨?_, fun e he => ⟨?_, fun hends => ?_⟩, fun hmem hsame => ?_, fun hmem hother hclimbs => ⟨fun htop => ?_, fun hendless => ?_⟩⟩
  · simp only [replace_eq_error_iff]
    constructor
    · rintro ⟨e, ⟨hmem, -⟩ | ⟨-, hother, hclimbs, -⟩ | ⟨-, -, -, -, rfl⟩, hends⟩
      · exact .inl hmem
      · exact .inr ⟨hother, hclimbs⟩
      · exact absurd rfl hends
    · intro hcase
      by_cases hmem : c ∈ f.children s
      · obtain ⟨hother, hclimbs⟩ := hcase.resolve_left (not_not_intro hmem)
        exact ⟨_, .inr (.inl ⟨hmem, hother, hclimbs, rfl⟩), nofun⟩
      · exact ⟨_, .inl ⟨hmem, rfl⟩, nofun⟩
  · rw [Move.act, he]
    rfl
  · rcases replace_eq_error_iff.mp he with ⟨hmem, rfl⟩ | ⟨hmem, -, -, rfl⟩ | ⟨-, -, -, -, rfl⟩
    · rw [if_neg hmem]
    · rw [if_pos hmem]
    · exact absurd rfl hends
  · exact replace_eq_ok_iff.mpr (.inl ⟨hmem, hsame, rfl⟩)
  · have hfits : f.Fits s c m := fits_iff.mpr ⟨hmem, hother, hclimbs, htop⟩
    exact ⟨_, replace_eq_ok_iff.mpr (.inr ⟨hfits, rfl⟩), h.substituted_put hm hfits⟩
  · exact replace_eq_error_iff.mpr (.inr (.inr ⟨hmem, hother, hclimbs, hendless, rfl⟩))

/-- A paragraph of a word and an emphasis, which holds a word and a strong one. -/
def emphasisInside : Forest :=
  Move.history [.readTree (.node .para [] [.node .str [("text", .data (.str "a"))] [],
    .node .emph [] [.node .str [("text", .data (.str "b"))] [],
      .node .strong [] [.node .str [("text", .data (.str "c"))] []]]])]

/-- The strong word goes from below the emphasis to its place; the paragraph cannot go below itself; and the
emphasis can stay. -/
theorem replace_emphasisInside :
    (∃ f', emphasisInside.replace ⟨5⟩ ⟨4⟩ ⟨3⟩ = .ok f' ∧ f'.children ⟨5⟩ = [⟨0⟩, ⟨3⟩] ∧ f'.children ⟨4⟩ = [⟨1⟩] ∧
        f'.holder? ⟨3⟩ = some ⟨5⟩ ∧ f'.replacement? ⟨4⟩ = some ⟨3⟩) ∧
      (∃ e, emphasisInside.replace ⟨4⟩ ⟨3⟩ ⟨5⟩ = .error e ∧
        (Move.replace ⟨4⟩ ⟨3⟩ ⟨5⟩).act emphasisInside = emphasisInside) ∧
      emphasisInside.replace ⟨5⟩ ⟨4⟩ ⟨4⟩ = .ok emphasisInside := by
  have hlinked : emphasisInside.Linked := (planted_plant _).linked Move.linked_empty
  refine ⟨?_, ?_, ?_⟩
  · obtain ⟨hclimbs, htop⟩ : ¬ emphasisInside.Climbs ⟨5⟩ ⟨3⟩ ∧ emphasisInside.Topped ⟨5⟩ :=
      meets_eq_false_iff.mp rfl
    have haccount := hlinked.replace_account (s := ⟨5⟩) (c := ⟨4⟩) (m := ⟨3⟩) (by decide)
    obtain ⟨f', hdone, hplace⟩ := (haccount.2.2.2 (by decide) (by decide) hclimbs).1 htop
    refine ⟨f', hdone, hplace.place [⟨0⟩] [] (by decide), hplace.former ⟨4⟩ (by decide) [⟨1⟩] [] (by decide), ?_, ?_⟩
    · rw [hplace.holder, if_pos rfl]
    · rw [hplace.mark, if_pos rfl]
  · have hclimbs : emphasisInside.Climbs ⟨4⟩ ⟨5⟩ := .up (by decide) (.refl _)
    obtain ⟨hrefused, hkept, -⟩ :=
      hlinked.replace_account (s := ⟨4⟩) (c := ⟨3⟩) (m := ⟨5⟩) (by decide)
    obtain ⟨e, he, -⟩ := hrefused.mpr (.inr ⟨by decide, hclimbs⟩)
    exact ⟨e, he, (hkept e he).1⟩
  · exact (hlinked.replace_account (by decide)).2.2.1 (by decide) rfl

end Forest

end DocFilter
