import DocFilter.Proofs.Codec.TreeRoundTrip
import DocFilter.Proofs.Results

/-!
# Writing with other nodes below

Whether a node can be written depends on the nodes below it only through their kinds and through whether they can
be written themselves.

* `Written.NoWorse` compares two written forms in this respect, and `Written.noWorse_of` says that a node is no
  worse if what is below it is not.
* `Written.succeeds_of_run` is about a node of inlines or of blocks: whatever run of nodes it gets, it can be
  written if it could before, as long as the nodes fit the run and can be written.
-/

namespace DocFilter

variable {ν : Type} {g g' : ν → Written} {kind : Kind} {slot : Slot} {w w' : Written} {ws : List Written} {ns : List ν}

/-- A written form of the same kind that has contents where another one does. -/
structure Written.NoWorse (w w' : Written) : Prop where
  kind : w'.kind = w.kind
  contents : Succeeds w.contents → Succeeds w'.contents

theorem Written.succeeds_node_iff : Succeeds w.node ↔ w.kind.isTagged ∧ (w.kind.layout.isEmpty ∨ Succeeds w.contents) := by
  rw [Written.node]
  cases htagged : w.kind.isTagged with
  | false => exact iff_of_false (not_succeeds_error _) fun h => absurd h.1 Bool.false_ne_true
  | true =>
    cases hempty : w.kind.layout.isEmpty with
    | true => exact iff_of_true (succeeds_ok _) ⟨rfl, .inl rfl⟩
    | false =>
      simp only [Bool.not_true, Bool.false_eq_true, if_false, true_and, false_or]
      rw [succeeds_bind_iff]
      exact exists_congr fun json => and_iff_left (succeeds_ok _)

theorem Written.NoWorse.node (h : w.NoWorse w') (hnode : Succeeds w.node) : Succeeds w'.node := by
  rw [Written.succeeds_node_iff] at hnode ⊢
  rw [h.kind]
  exact ⟨hnode.1, hnode.2.imp_right h.contents⟩

/-- How a member of a run is written. -/
def Slot.member (slot : Slot) (w : Written) : Except CodecError Json := match slot with
  | .parts _ => w.contents
  | _ => w.node

theorem Written.NoWorse.member (h : w.NoWorse w') (slot : Slot) (hw : Succeeds (slot.member w)) :
    Succeeds (slot.member w') := by
  cases slot with
  | parts part => exact h.contents hw
  | _ => exact h.node hw

theorem succeeds_checkRun_iff : Succeeds (checkRun kind slot ws) ↔ ∀ w ∈ ws, slot.admits w.kind := by
  rw [checkRun]
  cases hfind : ws.find? fun child => !slot.admits child.kind with
  | none =>
    refine iff_of_true (succeeds_ok _) fun w hw => ?_
    have hnot := List.find?_eq_none.mp hfind w hw
    simpa using hnot
  | some w =>
    have hnot : ¬ slot.admits w.kind := by simpa using List.find?_some hfind
    refine iff_of_false ?_ fun h => hnot (h w (List.mem_of_find?_eq_some hfind))
    cases slot with
    | parts part => exact not_succeeds_error _
    | _ => exact not_succeeds_error _

/-- A run can be written exactly if each of its members fits it and can be written. -/
theorem succeeds_writeRun_iff :
    Succeeds (writeRun kind slot ws) ↔ ∀ w ∈ ws, slot.admits w.kind ∧ Succeeds (slot.member w) := by
  have hmembers : Succeeds (match slot with
      | .parts _ => (ws.mapM Written.contents).map Json.arr
      | _ => (ws.mapM Written.node).map Json.arr) ↔ ∀ w ∈ ws, Succeeds (slot.member w) := by
    cases slot with
    | parts part => exact succeeds_map_iff.trans succeeds_mapM_iff
    | _ => exact succeeds_map_iff.trans succeeds_mapM_iff
  unfold writeRun
  rw [succeeds_bind_iff, forall₂_and, ← succeeds_checkRun_iff, ← hmembers]
  constructor
  · rintro ⟨u, hcheck, hrun⟩
    exact ⟨⟨u, hcheck⟩, hrun⟩
  · rintro ⟨⟨u, hcheck⟩, hrun⟩
    exact ⟨u, hcheck, hrun⟩

theorem noWorse_writeRun (h : ∀ n ∈ ns, (g n).NoWorse (g' n)) (hrun : Succeeds (writeRun kind slot (ns.map g))) :
    Succeeds (writeRun kind slot (ns.map g')) := by
  rw [succeeds_writeRun_iff, List.forall_mem_map] at hrun ⊢
  intro n hn
  obtain ⟨hadmits, hmember⟩ := hrun n hn
  rw [(h n hn).kind]
  exact ⟨hadmits, (h n hn).member slot hmember⟩

/-! ## Payloads -/

theorem noWorse_mapM (h : ∀ n ∈ ns, (g n).NoWorse (g' n)) (hg : Succeeds ((ns.map g).mapM Written.node)) :
    Succeeds ((ns.map g').mapM Written.node) := by
  rw [succeeds_mapM_iff, List.forall_mem_map] at hg ⊢
  exact fun n hn => (h n hn).node (hg n hn)

theorem noWorse_writeCitation {c : Citation ν} (h : ∀ n ∈ c.before ++ c.after, (g n).NoWorse (g' n))
    (hg : Succeeds (writeCitation (c.map g))) : Succeeds (writeCitation (c.map g')) := by
  rw [List.forall_mem_append] at h
  rw [writeCitation, succeeds_both_iff fun _ _ => succeeds_ok _] at hg ⊢
  exact ⟨noWorse_mapM h.1 hg.1, noWorse_mapM h.2 hg.2⟩

theorem noWorse_writeValue {codec : Codec} {v : Value ν} (h : ∀ n ∈ v.nodes, (g n).NoWorse (g' n))
    (hg : Succeeds (writeValue codec (v.map g))) : Succeeds (writeValue codec (v.map g')) := by
  cases v with
  | citations cs =>
    cases codec with
    | citations =>
      rw [Value.map, writeValue, succeeds_map_iff, succeeds_mapM_iff, List.forall_mem_map] at hg ⊢
      exact fun c hc => noWorse_writeCitation (fun n hn => h n (List.mem_flatMap.mpr ⟨c, hc, hn⟩)) (hg c hc)
    | _ => exact hg
  | _ => exact hg

/-! ## Nodes -/

theorem noWorse_writeSlots {payload : Payload ν} {runSize : Nat} {slots : List Slot}
    (hpayload : ∀ n ∈ Payload.nodes payload, (g n).NoWorse (g' n)) (hns : ∀ n ∈ ns, (g n).NoWorse (g' n))
    (hg : Succeeds (writeSlots kind (payload.map g) runSize slots (ns.map g))) :
    Succeeds (writeSlots kind (payload.map g') runSize slots (ns.map g')) := by
  induction slots generalizing ns with
  | nil => exact succeeds_ok _
  | cons slot slots ih =>
    rcases slot.run_or with hrun | ⟨name, codec, rfl⟩ | ⟨part, rfl⟩
    · rw [writeSlots_run hrun, ← List.map_take, ← List.map_drop, succeeds_both_iff fun _ _ => succeeds_ok _] at hg ⊢
      exact ⟨noWorse_writeRun (fun n hn => hns n (List.mem_of_mem_take hn)) hg.1,
        ih (fun n hn => hns n (List.mem_of_mem_drop hn)) hg.2⟩
    · rw [writeSlots, find?_map] at hg ⊢
      cases hfind : Entries.find? name payload with
      | none =>
        rw [hfind] at hg
        exact absurd hg (not_succeeds_error _)
      | some v =>
        rw [hfind] at hg
        rw [Option.map_some] at hg ⊢
        dsimp only at hg ⊢
        rw [succeeds_both_iff fun _ _ => succeeds_ok _] at hg ⊢
        exact ⟨noWorse_writeValue (fun n hn => hpayload n (nodes_of_find? hfind n hn)) hg.1, ih hns hg.2⟩
    · cases ns with
      | nil => exact hg
      | cons n ns =>
        obtain ⟨hfirst, hmore⟩ := List.forall_mem_cons.mp hns
        rw [List.map_cons, writeSlots] at hg ⊢
        rw [hfirst.kind]
        by_cases hpart : (g n).kind = part
        · rw [if_pos hpart] at hg ⊢
          rw [succeeds_both_iff fun _ _ => succeeds_ok _] at hg ⊢
          exact ⟨hfirst.contents hg.1, ih hmore hg.2⟩
        · rw [if_neg hpart] at hg
          exact absurd hg (not_succeeds_error _)

/-- The contents of a node can be written if its slots can, and the number of its children fits. -/
theorem succeeds_writeContents_iff {payload : Payload Written} : Succeeds (writeContents kind payload ws) ↔
    kind.layout.isEmpty ∨ ¬ (ws.length < kind.layout.countP (·.isPart) ∨
      (kind.layout.countP (·.isPart) < ws.length ∧ kind.run?.isNone)) ∧
      Succeeds (writeSlots kind payload (ws.length - kind.layout.countP (·.isPart)) kind.layout ws) := by
  rw [writeContents]
  by_cases hempty : kind.layout.isEmpty
  · rw [if_pos hempty]
    exact iff_of_true (succeeds_ok _) (.inl hempty)
  · rw [if_neg hempty]
    split_ifs with hcount
    · refine iff_of_false (not_succeeds_error _) ?_
      rintro (h | ⟨h, -⟩)
      · exact hempty h
      · exact h hcount
    · rw [succeeds_bind_iff]
      constructor
      · rintro ⟨fields, hfields, -⟩
        exact .inr ⟨hcount, fields, hfields⟩
      · rintro (h | ⟨-, fields, hfields⟩)
        · exact absurd h hempty
        · refine ⟨fields, hfields, ?_⟩
          split <;> exact succeeds_ok _

/-- A node is no worse if the nodes below it are no worse. -/
theorem Written.noWorse_of {payload : Payload ν} (hpayload : ∀ n ∈ Payload.nodes payload, (g n).NoWorse (g' n))
    (hns : ∀ n ∈ ns, (g n).NoWorse (g' n)) :
    (Written.of kind (payload.map g) (ns.map g)).NoWorse (.of kind (payload.map g') (ns.map g')) where
  kind := rfl
  contents := by
    intro hg
    rw [Written.of, succeeds_writeContents_iff, List.length_map] at hg ⊢
    exact hg.imp_right fun h => ⟨h.1, noWorse_writeSlots hpayload hns h.2⟩

/-! ## Another run -/

/-- In a kind of inlines or of blocks all children stand in one run. -/
theorem Kind.eq_run_of_isChild {run : Slot} (hrun : kind.run? = some run) (hnodes : run = .inlines ∨ run = .blocks) :
    ∀ slot ∈ kind.layout, slot.isChild → slot = run := by
  have hall : ∀ run, kind.run? = some run → run = .inlines ∨ run = .blocks →
      kind.layout.all (fun slot => !slot.isChild || slot == run) := by
    rintro run hrun (rfl | rfl) <;> cases kind <;> first | rfl | exact absurd hrun (by decide)
  intro slot hslot hchild
  have hone := List.all_eq_true.mp (hall run hrun hnodes) slot hslot
  simpa [hchild] using hone

theorem succeeds_writeSlots_of_run {run : Slot} {payload : Payload ν} {runSize runSize' : Nat} {slots : List Slot}
    (hslots : ∀ slot ∈ slots, slot.isChild → slot = run) (hnodes : run = .inlines ∨ run = .blocks)
    (hpayload : ∀ n ∈ Payload.nodes payload, (g n).NoWorse (g' n)) {old : List Written}
    (hg : Succeeds (writeSlots kind (payload.map g) runSize slots old))
    (hws : ∀ w ∈ ws, run.admits w.kind ∧ Succeeds w.node) :
    Succeeds (writeSlots kind (payload.map g') runSize' slots ws) := by
  induction slots generalizing old ws with
  | nil => exact succeeds_ok _
  | cons slot slots ih =>
    obtain ⟨hslot, hlater⟩ := List.forall_mem_cons.mp hslots
    rcases slot.run_or with hrun | ⟨name, codec, rfl⟩ | ⟨part, rfl⟩
    · have hmember : ∀ w ∈ ws, slot.admits w.kind ∧ Succeeds (slot.member w) := by
        obtain rfl : slot = run := hslot (by cases slot <;> first | rfl | cases hrun)
        intro w hw
        obtain ⟨hadmits, hnode⟩ := hws w hw
        rcases hnodes with rfl | rfl
        · exact ⟨hadmits, hnode⟩
        · exact ⟨hadmits, hnode⟩
      rw [writeSlots_run hrun, succeeds_both_iff fun _ _ => succeeds_ok _] at hg ⊢
      exact ⟨succeeds_writeRun_iff.mpr fun w hw => hmember w (List.mem_of_mem_take hw),
        ih hlater hg.2 fun w hw => hws w (List.mem_of_mem_drop hw)⟩
    · rw [writeSlots, find?_map] at hg ⊢
      cases hfind : Entries.find? name payload with
      | none =>
        rw [hfind] at hg
        exact absurd hg (not_succeeds_error _)
      | some v =>
        rw [hfind] at hg
        rw [Option.map_some] at hg ⊢
        dsimp only at hg ⊢
        rw [succeeds_both_iff fun _ _ => succeeds_ok _] at hg ⊢
        exact ⟨noWorse_writeValue (fun n hn => hpayload n (nodes_of_find? hfind n hn)) hg.1, ih hlater hg.2 hws⟩
    · have hpart := hslot rfl
      rcases hnodes with rfl | rfl
      · cases hpart
      · cases hpart

/-- A node of inlines or blocks can be written with any run of nodes that fit and can be written, if it can be
with some. -/
theorem Written.succeeds_of_run {run : Slot} (hrun : kind.run? = some run) (hnodes : run = .inlines ∨ run = .blocks)
    {payload : Payload ν} (hpayload : ∀ n ∈ Payload.nodes payload, (g n).NoWorse (g' n)) {old : List Written}
    (hg : Succeeds (Written.of kind (payload.map g) old).contents)
    (hws : ∀ w ∈ ws, run.admits w.kind ∧ Succeeds w.node) :
    Succeeds (Written.of kind (payload.map g') ws).contents := by
  have hslots := Kind.eq_run_of_isChild hrun hnodes
  have hparts : kind.layout.countP (·.isPart) = 0 := by
    rw [List.countP_eq_zero]
    intro slot hslot hpart
    cases slot with
    | part part =>
      have heq := hslots _ hslot rfl
      rcases hnodes with rfl | rfl
      · exact nomatch heq
      · exact nomatch heq
    | _ => exact nomatch hpart
  rw [Written.of, succeeds_writeContents_iff, hparts] at hg ⊢
  refine hg.imp_right fun h => ⟨?_, succeeds_writeSlots_of_run hslots hnodes hpayload h.2 hws⟩
  rw [hrun]
  simp

end DocFilter
