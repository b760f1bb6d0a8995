import DocFilter.Proofs.Codec.DocumentRoundTrip
import DocFilter.Proofs.Forest.Refilling

/-!
# Setting markup

Setting the markup of a node is refused or done, by the kind of the node and the number of paragraphs in the text;
what is done leaves everything writable that was.

* `Forest.Refilled.noWorse` goes along the fold that writes a node, in the forest before and the one after:  where
  the one meets the node that was given new children, the other goes on into these.
* `Forest.Refilled.documentJson` takes this to documents, of which nothing but the blocks could have changed.
* `Forest.setContent_exact` puts together when setting markup is refused, and what it does.
-/

namespace DocFilter

open Markup Text

namespace Forest

variable {f f' : Forest} {n m : NodeId} {text : String} {trees : List Tree} {t : Tree} {run : Slot}

/-- Each node that a node holds in its payload or among its children is there. -/
def Closed (f : Forest) : Prop := ∀ m, f.Has m →
  (∀ c ∈ Payload.nodes (f.payload m), f.Has c) ∧ ∀ c ∈ f.children m, f.Has c

/-! ## Writing a node -/

/-- The fold that writes a node. -/
abbrev writtenWithin (f : Forest) : (fuel : Nat) → (path : List NodeId) → NodeId → Written :=
  f.foldWithin (fun m => .of (f.kind m)) fun m => ⟨f.kind m, .error (.fault .endless)⟩

theorem kind_writtenWithin (f : Forest) (fuel : Nat) (path : List NodeId) (m : NodeId) :
    (f.writtenWithin fuel path m).kind = f.kind m := by
  cases fuel with
  | zero => rfl
  | succ fuel =>
    rw [writtenWithin, foldWithin]
    split <;> rfl

theorem Refilled.kind_eq (h : f.Refilled n trees f') (hm : f.Has m) : f'.kind m = f.kind m := by
  by_cases hmn : m = n
  · rw [hmn, h.kind_own]
  · rw [Forest.kind, h.others m hm hmn, Forest.kind]

theorem Refilled.payload_eq (h : f.Refilled n trees f') (hm : f.Has m) : f'.payload m = f.payload m := by
  by_cases hmn : m = n
  · rw [hmn, Forest.payload, h.own, Forest.payload]
  · rw [Forest.payload, h.others m hm hmn, Forest.payload]

theorem Refilled.children_eq (h : f.Refilled n trees f') (hm : f.Has m) (hmn : m ≠ n) :
    f'.children m = f.children m := by
  rw [Forest.children, h.others m hm hmn, Forest.children]

/-- The new children are written as the trees that they stand for, wherever they are met. -/
theorem Refilled.written_child (h : f.Refilled n trees f') (fuel : Nat) {k : Nat} (hk : f'.size = f.size + k)
    {path : List NodeId} (hpath : ∀ p ∈ path, f.Has p)
    (hfit : ∀ t ∈ trees, run.admits t.kind ∧ Succeeds t.written.node) :
    ∀ w ∈ (f'.children n).map (f'.writtenWithin (fuel + k) path), run.admits w.kind ∧ Succeeds w.node := by
  have hwritten : List.Forall₂ (fun c t => f'.writtenWithin (fuel + k) path c = t.written) (f'.children n) trees := by
    refine forall₂_imp_mem h.stands fun c hc t _ hstands => ?_
    have hsize : c.index < f'.size := (h.held c hc).2.1
    exact hstands.foldWithin_eq (fun _ _ _ _ => rfl) (by omega) fun p hp => .inl (hpath p hp)
  have hmap : (f'.children n).map (f'.writtenWithin (fuel + k) path) = trees.map Tree.written := by
    rw [← List.forall₂_eq_eq_eq, List.forall₂_map_left_iff, List.forall₂_map_right_iff]
    exact hwritten
  rw [hmap, List.forall_mem_map]
  intro t ht
  rw [Tree.kind_written]
  exact hfit t ht

/-- No node can be written worse than before.  The fold after may go deeper by as many nodes as were added. -/
theorem Refilled.noWorse (h : f.Refilled n trees f') (hclosed : f.Closed) (hrun : (f.kind n).run? = some run)
    (hnodes : run = .inlines ∨ run = .blocks) (hfit : ∀ t ∈ trees, run.admits t.kind ∧ Succeeds t.written.node)
    {k : Nat} (hk : f'.size = f.size + k) (fuel : Nat) {path : List NodeId} (hpath : ∀ p ∈ path, f.Has p)
    (hm : f.Has m) : (f.writtenWithin fuel path m).NoWorse (f'.writtenWithin (fuel + k) path m) := by
  induction fuel generalizing path m with
  | zero =>
    refine ⟨?_, fun hold => absurd hold (not_succeeds_error _)⟩
    rw [kind_writtenWithin, kind_writtenWithin, h.kind_eq hm]
  | succ fuel ih =>
    refine ⟨by rw [kind_writtenWithin, kind_writtenWithin, h.kind_eq hm], fun hold => ?_⟩
    rw [Nat.succ_add_eq_add_succ, Nat.add_succ, writtenWithin, foldWithin]
    rw [writtenWithin, foldWithin] at hold
    by_cases hmet : path.contains m
    · rw [if_pos hmet] at hold
      exact absurd hold (not_succeeds_error _)
    · rw [if_neg hmet] at hold ⊢
      have hpath' : ∀ p ∈ m :: path, f.Has p := List.forall_mem_cons.mpr ⟨hm, hpath⟩
      have hbelow : ∀ c, f.Has c → (f.writtenWithin fuel (m :: path) c).NoWorse
          (f'.writtenWithin (fuel + k) (m :: path) c) := fun c hc => ih hpath' hc
      dsimp only at hold ⊢
      rw [h.kind_eq hm, h.payload_eq hm]
      by_cases hmn : m = n
      · subst hmn
        exact Written.succeeds_of_run hrun hnodes (fun c hc => hbelow c ((hclosed m hm).1 c hc)) hold
          (h.written_child fuel hk hpath' hfit)
      · rw [h.children_eq hm hmn]
        exact (Written.noWorse_of (fun c hc => hbelow c ((hclosed m hm).1 c hc))
          fun c hc => hbelow c ((hclosed m hm).2 c hc)).contents hold

theorem Refilled.noWorse_written (h : f.Refilled n trees f') (hclosed : f.Closed) (hrun : (f.kind n).run? = some run)
    (hnodes : run = .inlines ∨ run = .blocks) (hfit : ∀ t ∈ trees, run.admits t.kind ∧ Succeeds t.written.node)
    (hm : f.Has m) : (f.written m).NoWorse (f'.written m) := by
  obtain ⟨k, hk⟩ := Nat.exists_eq_add_of_le h.grows
  have hfold := h.noWorse hclosed hrun hnodes hfit hk (f.size + 1) (List.forall_mem_nil _) hm
  have hfuel : f.size + 1 + k = f'.size + 1 := by omega
  rwa [hfuel] at hfold

/-! ## Writing a document -/

/-- The names under which a document root has its layout, version and metadata. -/
def rootNames : List String := ["schema", "api_version", "meta"]

theorem builtIn?_of_mem_rootNames {name : String} (hname : name ∈ rootNames) : f.builtIn? n name = none := by
  have hlinks : (f.neighbours n ++ f.links n).lookup name = none := by
    simp only [rootNames, List.mem_cons, List.not_mem_nil, or_false] at hname
    rcases hname with rfl | rfl | rfl <;> rfl
  simp only [rootNames, List.mem_cons, List.not_mem_nil, or_false] at hname
  rcases hname with rfl | rfl | rfl <;>
    simp [builtIn?, facts, Entries.find?, List.lookup_cons, hlinks]

theorem lookup_neighbours_of_mem_rootNames {name : String} (hname : name ∈ rootNames) :
    (f.neighbours n).lookup name = none := by
  simp only [rootNames, List.mem_cons, List.not_mem_nil, or_false] at hname
  rcases hname with rfl | rfl | rfl <;> rfl

/-- What a document root is apart from its children. -/
structure SameRoot (f f' : Forest) (m : NodeId) : Prop where
  kind : f'.kind m = f.kind m
  payload : f'.payload m = f.payload m
  extras : (f'.cell m).extras = (f.cell m).extras
  document : (f'.cell m).document = (f.cell m).document

theorem Refilled.sameRoot (h : f.Refilled n trees f') (hm : f.Has m) : SameRoot f f' m := by
  refine ⟨h.kind_eq hm, h.payload_eq hm, ?_, ?_⟩
  · by_cases hmn : m = n
    · rw [hmn, h.own]
    · rw [h.others m hm hmn]
  · by_cases hmn : m = n
    · rw [hmn, h.own]
    · rw [h.others m hm hmn]

theorem SameRoot.value_eq (h : SameRoot f f' m) {name : String} (hname : name ∈ rootNames) :
    f'.value m name = f.value m name := by
  have hroot : f'.rootValue? m name = f.rootValue? m name := by
    unfold rootValue?
    rw [h.document]
  rw [value, value?, builtIn?_of_mem_rootNames hname, h.extras, hroot, h.payload, h.kind,
    lookup_neighbours_of_mem_rootNames hname, value, value?, builtIn?_of_mem_rootNames hname,
    lookup_neighbours_of_mem_rootNames hname]

theorem SameRoot.data_eq (h : SameRoot f f' m) {name : String} (hname : name ∈ rootNames) :
    f'.data m name = f.data m name := by
  rw [data, h.value_eq hname, data]

theorem SameRoot.requireMetadata_eq (h : SameRoot f f' m) : f'.requireMetadata m = f.requireMetadata m := by
  have hmetadata : f'.metadata? m = f.metadata? m := by
    rw [metadata?, store?, h.extras, h.document, metadata?, store?]
  rw [requireMetadata, hmetadata, h.value_eq (by decide), requireMetadata]

theorem succeeds_layOut_iff {layout version metadata blocks blocks' : Json} :
    Succeeds (Document.layOut layout version metadata blocks) ↔
      Succeeds (Document.layOut layout version metadata blocks') := by
  unfold Document.layOut
  cases Schema.ofJson? layout with
  | none => exact iff_of_false (not_succeeds_error _) (not_succeeds_error _)
  | some schema =>
    cases schema with
    | v1 => exact iff_of_true (succeeds_ok _) (succeeds_ok _)
    | v2 =>
      dsimp only
      cases iterate? version with
      | none => exact iff_of_false (not_succeeds_error _) (not_succeeds_error _)
      | some items => exact iff_of_true (succeeds_ok _) (succeeds_ok _)

/-- What is written of a document besides its blocks. -/
def frameJson (f : Forest) (m : NodeId) (schema blocks : Json) : Except Failure Json := do
  let store ← f.requireMetadata m
  match store.read? store.root with
  | none => .error (.fault .endless)
  | some metadata => do
    let metadata ← (MetaValue.entriesToJson metadata.entries).mapError .codec
    let version := if Schema.ofJson? schema = some .v2 then f.data m "api_version" else .ok .null
    (Document.layOut schema (← version) (.obj metadata) blocks).mapError .codec

theorem succeeds_frameJson_iff {schema blocks blocks' : Json} :
    Succeeds (f.frameJson m schema blocks) ↔ Succeeds (f.frameJson m schema blocks') := by
  rw [frameJson, frameJson, succeeds_bind_iff, succeeds_bind_iff]
  refine exists_congr fun store => and_congr_right fun _ => ?_
  cases store.read? store.root with
  | none => exact Iff.rfl
  | some metadata =>
    dsimp only
    rw [succeeds_bind_iff, succeeds_bind_iff]
    refine exists_congr fun entries => and_congr_right fun _ => ?_
    rw [succeeds_bind_iff, succeeds_bind_iff]
    refine exists_congr fun version => and_congr_right fun _ => ?_
    rw [succeeds_mapError_iff, succeeds_mapError_iff]
    exact succeeds_layOut_iff

theorem documentJson_eq (f : Forest) (m : NodeId) (schema : Json) : f.documentJson m schema =
    (if Document.isUnset schema then f.data m "schema" else .ok schema) >>= fun layout =>
      (writeRun (f.kind m) .blocks ((f.children m).map f.written)).mapError Failure.codec >>= fun blocks =>
        f.frameJson m layout blocks := by
  rw [documentJson, ← Document.writeBlocks_eq_writeRun]
  split <;> rfl

/-- A document can be written if its blocks can, and what does not depend on them. -/
theorem succeeds_documentJson_iff {schema : Json} : Succeeds (f.documentJson m schema) ↔
    Succeeds (writeRun (f.kind m) .blocks ((f.children m).map f.written)) ∧ ∃ layout,
      (if Document.isUnset schema then f.data m "schema" else .ok schema) = .ok layout ∧
        Succeeds (f.frameJson m layout .null) := by
  rw [documentJson_eq, succeeds_bind_iff]
  constructor
  · rintro ⟨layout, hlayout, hrest⟩
    obtain ⟨blocks, hblocks, hframe⟩ := succeeds_bind_iff.mp hrest
    exact ⟨succeeds_mapError_iff.mp ⟨blocks, hblocks⟩, layout, hlayout, succeeds_frameJson_iff.mp hframe⟩
  · rintro ⟨hblocks, layout, hlayout, hframe⟩
    obtain ⟨blocks, hblocks⟩ := succeeds_mapError_iff (g := Failure.codec) |>.mpr hblocks
    exact ⟨layout, hlayout, succeeds_bind_iff.mpr ⟨blocks, hblocks, succeeds_frameJson_iff.mp hframe⟩⟩

theorem SameRoot.frameJson_eq (h : SameRoot f f' m) (schema blocks : Json) :
    f'.frameJson m schema blocks = f.frameJson m schema blocks := by
  rw [frameJson, h.requireMetadata_eq, h.data_eq (by decide), frameJson]

/-- A document can be written if it could before. -/
theorem Refilled.documentJson (h : f.Refilled n trees f') (hclosed : f.Closed) (hrun : (f.kind n).run? = some run)
    (hnodes : run = .inlines ∨ run = .blocks) (hfit : ∀ t ∈ trees, run.admits t.kind ∧ Succeeds t.written.node)
    (hm : f.Has m) (hdocument : f.kind m = .document) {schema : Json} (hold : Succeeds (f.documentJson m schema)) :
    Succeeds (f'.documentJson m schema) := by
  have hsame := h.sameRoot hm
  rw [succeeds_documentJson_iff] at hold ⊢
  obtain ⟨hblocks, layout, hlayout, hframe⟩ := hold
  refine ⟨?_, layout, ?_, ?_⟩
  · by_cases hmn : m = n
    · subst hmn
      obtain rfl : run = .blocks := by
        rw [hdocument] at hrun
        exact (Option.some.inj hrun).symm
      obtain ⟨k, hk⟩ := Nat.exists_eq_add_of_le h.grows
      have hchildren := h.written_child (f.size + 1) hk (List.forall_mem_nil _) hfit
      have hfuel : f.size + 1 + k = f'.size + 1 := by omega
      rw [hfuel] at hchildren
      exact succeeds_writeRun_iff.mpr hchildren
    · rw [h.kind_eq hm, h.children_eq hm hmn]
      exact noWorse_writeRun (fun c hc => h.noWorse_written hclosed hrun hnodes hfit ((hclosed m hm).2 c hc)) hblocks
  · rw [hsame.data_eq (by decide)]
    exact hlayout
  · rw [hsame.frameJson_eq]
    exact hframe

/-! ## Setting markup -/

/-- Nothing was written in the place of the operation that makes a node the holder of its children, or of its step
for one of them. -/
def Adopts (f : Forest) (n : NodeId) : Prop :=
  ∀ name ∈ ["adopt_children", "_adopt"], Entries.has name (f.cell n).extras = false

instance : Decidable (f.Adopts n) := inferInstanceAs (Decidable (∀ name ∈ _, _))

/-- A node was given new children that fit it, and nothing else has changed.  A new paragraph begins and ends with a
word, and what could be written before can be written still. -/
structure Renewed (f : Forest) (n : NodeId) (f' : Forest) : Prop where
  others : ∀ m, f.Has m → m ≠ n → f'.cell m = f.cell m
  own : f'.cell n = { f.cell n with children := f'.children n }
  children : ∀ c ∈ f'.children n, ¬ f.Has c ∧ f'.Has c ∧ f'.holder? c = some n ∧
    ∀ run, (f.kind n).run? = some run → run.admits (f'.kind c)
  paragraphs : ∀ m, f'.Has m → ¬ f.Has m → f'.kind m = .para → ∃ first last, (f'.children m).head? = some first ∧
    (f'.children m).getLast? = some last ∧ f'.kind first = .str ∧ f'.kind last = .str
  node : ∀ m, f.Has m → Succeeds (f.toJson m) → Succeeds (f'.toJson m)
  document : ∀ m schema, f.Has m → f.kind m = .document → Succeeds (f.documentJson m schema) →
    Succeeds (f'.documentJson m schema)
  closed : f'.Closed

theorem Stands.paragraph {low : Nat} (h : f.Stands low n t) (ht : WordsAtEnds t) (hkind : f.kind n = .para) :
    ∃ first last, (f.children n).head? = some first ∧ (f.children n).getLast? = some last ∧
      f.kind first = .str ∧ f.kind last = .str := by
  obtain ⟨first, last, hfirst, hlast, hword, hword'⟩ := ht (h.kind_eq ▸ hkind)
  rw [← List.head?_reverse] at hlast
  obtain ⟨c, hc, hstands⟩ := exists_head?_of_forall₂ h.children_forall₂ hfirst
  obtain ⟨d, hd, hstands'⟩ := exists_head?_of_forall₂ (List.rel_reverse h.children_forall₂) hlast
  rw [List.head?_reverse] at hd
  exact ⟨c, d, hc, hd, hstands.kind_eq.trans hword, hstands'.kind_eq.trans hword'⟩

theorem Stands.closed {low : Nat} (h : f.Stands low n t) (hn : f.Has n) :
    (∀ c ∈ Payload.nodes (f.payload n), f.Has c) ∧ ∀ c ∈ f.children n, f.Has c := by
  cases h with
  | @node _ payload children new extras data held behind below =>
    refine ⟨fun c hc => ?_, fun c hc => Nat.lt_trans (behind c hc) hn⟩
    rw [held, Payload.nodes, Payload.map, List.flatMap_map] at hc
    obtain ⟨e, he, hc⟩ := List.mem_flatMap.mp hc
    obtain ⟨v, hv⟩ := data e he
    rw [hv] at hc
    exact absurd hc List.not_mem_nil

theorem Refilled.closed (h : f.Refilled n trees f') (hclosed : f.Closed) : f'.Closed := by
  intro m hm
  by_cases hold : f.Has m
  · obtain ⟨hpayload, hchildren⟩ := hclosed m hold
    rw [h.payload_eq hold]
    refine ⟨fun c hc => h.has (hpayload c hc), fun c hc => ?_⟩
    by_cases hmn : m = n
    · subst hmn
      exact (h.held c hc).2.1
    · rw [h.children_eq hold hmn] at hc
      exact h.has (hchildren c hc)
  · obtain ⟨t, -, hstands⟩ := h.each m hm hold
    exact hstands.closed hm

theorem Refilled.renewed (h : f.Refilled n trees f') (hclosed : f.Closed) (htrees : contentFor (f.kind n) text = .ok trees) :
    f.Renewed n f' := by
  obtain ⟨run, hrun, hnodes, hfit⟩ := fit_of_contentFor htrees
  refine ⟨h.others, h.own, ?_, ?_, ?_, ?_, h.closed hclosed⟩
  · intro c hc
    obtain ⟨hnot, hhas, hholder⟩ := h.held c hc
    refine ⟨hnot, hhas, hholder, fun run' hrun' => ?_⟩
    obtain rfl := Option.some.inj (hrun.symm.trans hrun')
    obtain ⟨t, ht, hstands⟩ := exists_of_mem_right h.stands.flip c hc
    rw [hstands.kind_eq]
    exact (hfit t ht).1
  · intro m hm hnot hkind
    obtain ⟨t, ht, hstands⟩ := h.each m hm hnot
    exact hstands.paragraph ht hkind
  · intro m hm hold
    rw [toJson, succeeds_mapError_iff] at hold ⊢
    exact (h.noWorse_written hclosed hrun hnodes hfit hm).node hold
  · intro m schema hm hdocument hold
    exact h.documentJson hclosed hrun hnodes hfit hm hdocument hold

/-- Setting the markup of a node.  It is refused, and nothing has changed, exactly if the node has no run of inlines
or of blocks, or has a run of inlines and the text has several paragraphs.  Otherwise it is done. -/
theorem setContent_exact (hn : f.Has n) (hclosed : f.Closed) (hadopts : f.Adopts n) (text : String) :
    ((f.kind n).run? ≠ some .inlines ∧ (f.kind n).run? ≠ some .blocks →
      f.setContent n text = (.error (.content (.ofKind (f.kind n))), f)) ∧
    ((f.kind n).run? = some .inlines ∧ 2 ≤ (parse text).length →
      f.setContent n text = (.error (.content (.notOneParagraph (f.kind n))), f)) ∧
    ((f.kind n).run? = some .blocks ∨ (f.kind n).run? = some .inlines ∧ (parse text).length < 2 →
      ∃ f', f.setContent n text = (.ok (), f') ∧ f.Renewed n f') := by
  refine ⟨?_, ?_, ?_⟩
  · rintro ⟨hinlines, hblocks⟩
    exact setContent_of_error (contentFor_no_run hinlines hblocks text)
  · rintro ⟨hinlines, hmany⟩
    exact setContent_of_error (contentFor_many hinlines hmany)
  · intro hrun
    obtain ⟨trees, htrees⟩ := contentFor_few hrun
    have hset := (setContent_iff hn).mpr ⟨trees, htrees, hadopts _ (by simp), .inr (hadopts _ (by simp)), rfl⟩
    obtain ⟨trees', htrees', hrefilled⟩ := exists_refilled hn hset
    exact ⟨_, hset, hrefilled.renewed hclosed htrees'⟩

/-- Two paragraphs for a division. -/
theorem setContent_exact_division : division.Has ⟨0⟩ ∧ division.Closed ∧ division.Adopts ⟨0⟩ ∧
    ∃ f', division.setContent ⟨0⟩ "one\n\ntwo" = (.ok (), f') ∧ division.Renewed ⟨0⟩ f' := by
  have hhas : division.Has ⟨0⟩ := by decide
  have hadopts : division.Adopts ⟨0⟩ := by decide
  have hclosed : division.Closed := by
    intro m hm
    obtain rfl : m = ⟨0⟩ := congrArg NodeId.mk (Nat.lt_one_iff.mp hm)
    exact ⟨List.forall_mem_nil _, List.forall_mem_nil _⟩
  exact ⟨hhas, hclosed, hadopts, (setContent_exact hhas hclosed hadopts "one\n\ntwo").2.2 (.inl rfl)⟩

end Forest

end DocFilter
