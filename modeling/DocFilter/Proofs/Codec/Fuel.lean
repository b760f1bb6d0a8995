import DocFilter.Proofs.Codec.Sources

/-!
# Fuel that is enough

Reading takes no more fuel than the data is deep, and what it gives does not depend on how much more there is.
Reading a list of nodes is therefore reading each of them.

* `Agree` says that two readers of contents agree on data of some depth; the readers of nodes, runs, citations and
  values that are made of them agree one level higher, and so do the readers of slots (`Agree.slots`).
* `readContents_congr` is the induction on the depth, `Tree.listOfJson_eq_ok_iff` what it means for lists.
-/

namespace DocFilter

/-- Two readers of contents agree on data that is at most so deep. -/
def Agree (depth : Nat) (read read' : Kind → Json → Except CodecError Tree) : Prop :=
  ∀ kind json, json.depth ≤ depth → read kind json = read' kind json

section Agree

variable {depth : Nat} {read read' : Kind → Json → Except CodecError Tree} {json : Json} {context name : String}
  {slot : Slot} {codec : Codec} {kind : Kind}

theorem Agree.node (h : Agree depth read read') (hjson : json.depth ≤ depth + 1) :
    readNode read json = readNode read' json := by
  cases json with
  | obj entries =>
    rw [readNode, readNode]
    refine congrArg (showing (.obj entries)) ?_
    split
    · rfl
    · rename_i tag htag
      split
      · rfl
      · rename_i kind hkind
        split
        · rename_i contents hcontents
          have hlow : contents.depth < (Json.obj entries).depth := Json.depth_of_get? hcontents
          exact h kind contents (by omega)
        · have hlow : tag.depth < (Json.obj entries).depth := Json.depth_of_get? htag
          have hpos := tag.depth_pos
          have hnull : Json.null.depth = 1 := rfl
          rw [h kind .null (by omega)]
  | _ => rfl

theorem Agree.member (h : Agree depth read read') (hjson : json.depth ≤ depth + 1) :
    readMember read context slot json = readMember read' context slot json := by
  rw [readMember, readMember, h.node hjson]

theorem Agree.run (h : Agree depth read read') (hjson : json.depth ≤ depth + 1) :
    readRun read context slot json = readRun read' context slot json := by
  cases json with
  | arr items =>
    rw [Json.depth] at hjson
    have hlow : ∀ item ∈ items, item.depth ≤ depth := fun item hitem => by
      have := Json.depth_le_depthItems hitem
      omega
    cases slot with
    | parts kind => exact mapM_congr fun item hitem => h kind item (hlow item hitem)
    | _ => exact mapM_congr fun item hitem => h.member (Nat.le_succ_of_le (hlow item hitem))
  | _ => rfl

theorem Agree.citation (h : Agree depth read read') (hjson : json.depth ≤ depth + 1) :
    readCitation read context json = readCitation read' context json := by
  have hside : ∀ key, readRun read context .inlines ((json.get? key).getD (.arr [])) =
      readRun read' context .inlines ((json.get? key).getD (.arr [])) := by
    intro key
    cases hget : json.get? key with
    | none => rfl
    | some side =>
      have hlow := Json.depth_of_get? hget
      exact h.run (show side.depth ≤ depth + 1 by omega)
  rw [readCitation, readCitation, hside, hside]

theorem Agree.value (h : Agree depth read read') (hjson : json.depth ≤ depth + 1) :
    readValue read context name codec json = readValue read' context name codec json := by
  cases codec with
  | citations =>
    cases json with
    | arr items =>
      have hcitations : items.mapM (readCitation read context) = items.mapM (readCitation read' context) := by
        refine mapM_congr fun item hitem => h.citation ?_
        have := Json.depth_le_depthItems hitem
        rw [Json.depth] at hjson
        omega
      rw [readValue, readValue, hcitations]
    | _ => rfl
  | _ => rfl

theorem Agree.slots (h : Agree depth read read') {slots : List (Slot × Json)} (hslots : FuelFor depth slots) :
    readSlots read kind slots = readSlots read' kind slots := by
  induction slots with
  | nil => rfl
  | cons field slots ih =>
    obtain ⟨slot, json⟩ := field
    obtain ⟨hfield, hpart⟩ := hslots _ List.mem_cons_self
    have hrest := ih hslots.tail
    rcases slot.run_or with hrun | ⟨name, codec, rfl⟩ | ⟨part, rfl⟩
    · rw [readSlots_run hrun, readSlots_run hrun, h.run hfield, hrest]
    · rw [readSlots, readSlots, h.value hfield, hrest]
    · rw [readSlots, readSlots, h part json (hpart rfl), hrest]

end Agree

/-- Reading the contents of a node does not depend on the fuel if there is as much as the contents are deep. -/
theorem readContents_congr {fuel fuel' : Nat} {kind : Kind} {json : Json} (hfuel : json.depth ≤ fuel)
    (hfuel' : json.depth ≤ fuel') : readContents fuel kind json = readContents fuel' kind json := by
  induction fuel generalizing fuel' kind json with
  | zero =>
    have := json.depth_pos
    omega
  | succ fuel ih =>
    obtain ⟨fuel', rfl⟩ : ∃ k, fuel' = k + 1 := ⟨fuel' - 1, by have := json.depth_pos; omega⟩
    have hagree : Agree (json.depth - 1) (readContents fuel) (readContents fuel') := fun kind below hbelow =>
      ih (by omega) (by omega)
    rw [readContents, readContents]
    cases hfields : contentFields kind json with
    | error e => simp only [bind, Except.bind]
    | ok fields =>
      have hslots : FuelFor (json.depth - 1) (kind.layout.zip fields) := by
        by_cases hne : kind.layout = []
        · rw [hne]
          exact fun field hfield => absurd hfield List.not_mem_nil
        · obtain ⟨rfl, hlength⟩ := fields_of_contentFields hfields hne
          exact fuelFor_of_contents hlength (by omega)
      simp only [bind, Except.bind]
      rw [hagree.slots hslots]

namespace Tree

/-- Reading a node with fuel for something that is at least as deep. -/
theorem readNode_eq_ofJson {fuel : Nat} {json : Json} (hfuel : json.depth ≤ fuel) :
    readNode (readContents fuel) json = ofJson json := by
  have hagree : Agree json.depth (readContents fuel) (readContents json.depth) := fun kind below hbelow =>
    readContents_congr (by omega) hbelow
  exact hagree.node (Nat.le_succ _)

/-- A list of nodes is read if each of them is, as one that the run admits. -/
theorem listOfJson_eq_ok_iff {context : String} {run : Slot} {items : List Json} {nodes : List Tree}
    (hmembers : ∀ read, readRun read context run (.arr items) = items.mapM (readMember read context run)) :
    listOfJson context run (.arr items) = .ok nodes ↔
      List.Forall₂ (fun item t => ofJson item = .ok t ∧ run.admits t.kind) items nodes := by
  rw [listOfJson, hmembers, mapM_eq_ok_iff]
  have hmember : ∀ item ∈ items, ∀ t,
      readMember (readContents (Json.arr items).depth) context run item = .ok t ↔
        ofJson item = .ok t ∧ run.admits t.kind := by
    intro item hitem t
    have hlow : item.depth ≤ (Json.arr items).depth := by
      rw [Json.depth]
      exact Nat.le_succ_of_le (Json.depth_le_depthItems hitem)
    rw [readMember_eq_ok_iff, readNode_eq_ofJson hlow]
  constructor
  · exact fun h => forall₂_imp_mem h fun item hitem t _ => (hmember item hitem t).mp
  · exact fun h => forall₂_imp_mem h fun item hitem t _ => (hmember item hitem t).mpr

end Tree

end DocFilter
