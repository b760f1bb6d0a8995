import DocFilter.Proofs.Metadata.Refusals
import DocFilter.Proofs.Yaml.Reading

/-!
# When calls that are given a text stop

A metadata block is read to its end.  It becomes metadata, or it breaks a rule of the notation, or something in it
has no value or no text: `MetaValue.Gap` lists what that can be.  `MetaCall.fares_of_text` says how a call ends that is
given a text.
-/

namespace DocFilter

namespace MetaValue

variable {text : String}

/-- What in a metadata block has no value, or in its value no text, and the fault that it is. -/
inductive Gap (text : String) : Fault → Prop
  | void {fault : Fault} (h : Yaml.Voids .whole (unfenced text) fault) : Gap text fault
  | part {value part : Plain} {fault : Fault} (read : Yaml.read .whole (unfenced text) = .ok value)
      (inside : part.Inside value) (stops : part.Stops fault) : Gap text fault

theorem Gap.inText {fault : Fault} (h : Gap text fault) : fault.InText := by
  cases h with
  | void h => exact h.inText
  | part _ _ stops => cases stops <;> exact nofun

/-- A refusal of a metadata block: it breaks a rule, or something in it has no value or no text. -/
def Refuses (text : String) : CodecError → Prop
  | .malformed cause => cause = .yaml
  | .fault fault => Gap text fault
  | _ => False

/-- Reading a metadata block gives metadata, or what is refused is told. -/
theorem ofBlock_fares (text : String) :
    (∃ m, ofBlock text = .ok m) ∨ ∃ e, ofBlock text = .error e ∧ Refuses text e := by
  have hfares := Yaml.read_fares .whole (unfenced text)
  unfold ofBlock
  generalize hread : Yaml.read .whole (unfenced text) = answer at hfares ⊢
  obtain ⟨value, rfl⟩ | ⟨e, rfl, hrefuses⟩ := hfares
  · split
    next => exact .inl ⟨_, rfl⟩
    next heq =>
      cases heq
      cases hm : convert value with
      | ok m => exact .inl ⟨m, rfl⟩
      | error fault =>
        obtain ⟨part, hinside, hstops⟩ := stops_of_convert hm
        exact .inr ⟨_, rfl, .part hread hinside hstops⟩
    next heq => cases heq
    next heq => cases heq
  · cases e with
    | malformed reason => exact .inr ⟨_, rfl, rfl⟩
    | fault fault => exact .inr ⟨_, rfl, .void hrefuses⟩

end MetaValue

/-! ## Calls -/

namespace Store

variable {store : Store} {m : MetaValue}

/-- The cell of a value that was brought in has the tag of the value. -/
theorem tag_add (store : Store) (m : MetaValue) : (store.add m).2.tag (store.add m).1 = m.tag := by
  cases m <;> simp [add, tag, MetaValue.plant, MetaCell.tag, MetaValue.tag]

/-- Only a map becomes a map. -/
theorem ne_map_of_add (h : (store.add m).2.map? (store.add m).1 = none) (entries : List (String × MetaValue)) :
    m ≠ .map entries := by
  rintro rfl
  simp [add, map?, MetaValue.plant] at h

end Store

namespace MetaCall

variable {text path : String} {store : Store}

/-- How a call stops that is to put a text at a path. -/
inductive PutStops (text path : String) : Failure → Prop
  /-- The text is refused. -/
  | refused {e : CodecError} (h : MetaValue.ofBlock text = .error e) (refuses : MetaValue.Refuses text e) :
      PutStops text path (.codec e)
  /-- The way to the path breaks off. -/
  | notFound {e : Failure} (names : e.notFound? = some path) : PutStops text path e
  /-- The root was to become something other than a map. -/
  | rootNotMap {m : MetaValue} (root : path = "") (h : MetaValue.ofBlock text = .ok m)
      (noMap : ∀ entries, m ≠ .map entries) : PutStops text path (.store (.rootNotMap m.tag))

/-- How a call stops that is to write the entries of a text over those of the root. -/
inductive MergeStops (text : String) : Failure → Prop
  /-- The text is refused. -/
  | refused {e : CodecError} (h : MetaValue.ofBlock text = .error e) (refuses : MetaValue.Refuses text e) :
      MergeStops text (.codec e)
  /-- The text is no map. -/
  | notMap {m : MetaValue} (h : MetaValue.ofBlock text = .ok m) (noMap : ∀ entries, m ≠ .map entries) :
      MergeStops text (.codec (.malformed (.metaBlock m.tag)))

/-- A call that gives no value does what it is for, or it stops in one of some ways. -/
def Ends (stops : Failure → Prop) (answer : Except Failure (Option MetaId)) : Prop :=
  answer = .ok none ∨ ∃ e, answer = .error e ∧ stops e

/-- An edit that is refused where putting is ends so. -/
theorem ends_of_edit {m : MetaValue} {edit : Except StoreError Store} (hread : MetaValue.ofBlock text = .ok m)
    (hedit : ∀ e, edit = .error e ↔ (store.add m).2.replace path (store.add m).1 = .error e) :
    Ends (PutStops text path) (match edit with
      | .ok s => ((.ok none : Except Failure (Option MetaId)), s)
      | .error e => (.error (.store e), (store.add m).2)).1 := by
  cases edit with
  | ok s => exact .inl rfl
  | error e =>
    obtain hparent | ⟨hpath, hmap, rfl⟩ := Store.replace_eq_error_iff.mp ((hedit e).mp rfl)
    · exact .inr ⟨_, rfl, .notFound (Store.breaks_of_parent hparent).names⟩
    · rw [Store.tag_add]
      exact .inr ⟨_, rfl, .rootNotMap hpath hread (Store.ne_map_of_add hmap)⟩

/-- A call that is to put a text at a path. -/
theorem ends_of_put (text path : String) (store : Store) :
    Ends (PutStops text path) ((replace path (.plain (.str text))).run store).1 ∧
      Ends (PutStops text path) ((merge path (.plain (.str text))).run store).1 := by
  have hcoerce := Editing.run_coerce_plain (.str text) store
  rw [MetaValue.ofValue] at hcoerce
  obtain ⟨m, hread⟩ | ⟨e, hread, hrefuses⟩ := MetaValue.ofBlock_fares text
  · rw [hread] at hcoerce
    rw [run_replace hcoerce, run_merge hcoerce]
    exact ⟨ends_of_edit hread fun _ => Iff.rfl, ends_of_edit hread fun _ => Store.merge_eq_error_iff⟩
  · rw [hread] at hcoerce
    obtain ⟨hreplace, hmerge⟩ := run_of_coerce_error hcoerce path
    rw [hreplace, hmerge]
    exact ⟨.inr ⟨_, rfl, .refused hread hrefuses⟩, .inr ⟨_, rfl, .refused hread hrefuses⟩⟩

/-- A call that is to write the entries of a text over those of the root. -/
theorem ends_of_mergeText (text : String) (store : Store) :
    Ends (MergeStops text) ((mergeText text).run store).1 := by
  rw [run_mergeText, MetaValue.mapOfBlock]
  obtain ⟨m, hread⟩ | ⟨e, hread, hrefuses⟩ := MetaValue.ofBlock_fares text
  · rw [hread]
    cases m with
    | map entries => exact .inl rfl
    | _ => exact .inr ⟨_, rfl, .notMap hread nofun⟩
  · rw [hread]
    exact .inr ⟨_, rfl, .refused hread hrefuses⟩

/-- A text becomes metadata, or it is no block, or something in it has no value or no text.  A call that is to put it at
a path does so or stops with that, with the path if the way there breaks off, or with the tag of what was to become the
root although it is no map; a call that is to write its entries over those of the root does so or stops with that, or
with the tag of what is no map. -/
theorem fares_of_text (text : String) :
    ((∃ m, MetaValue.ofBlock text = .ok m) ∨
      ∃ e, MetaValue.ofBlock text = .error e ∧ MetaValue.Refuses text e) ∧
    (∀ fault, MetaValue.Gap text fault → fault.InText) ∧
    ∀ store : Store,
      (∀ path, Ends (PutStops text path) ((replace path (.plain (.str text))).run store).1 ∧
        Ends (PutStops text path) ((merge path (.plain (.str text))).run store).1) ∧
      Ends (MergeStops text) ((mergeText text).run store).1 :=
  ⟨MetaValue.ofBlock_fares text, fun _ h => h.inText,
    fun store => ⟨fun path => ends_of_put text path store, ends_of_mergeText text store⟩⟩

end MetaCall

end DocFilter
