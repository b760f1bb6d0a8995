import DocFilter.Proofs.Codec.Legible

/-!
# Documents in normal form

What reading a text gives is a document in normal form.  Written as text in either layout and read again it
is the same document, but for the version, which only one of the layouts shows; so it is written as the same
text from then on.

* `Document.IsRead.decoded` says that reading gives the normal form.
* `Document.Decoded.ofJson_toJson` is the round trip through data, exact where the one of well-formed
  documents is up to the order of payloads.
* `Document.Decoded.render_parse` is the round trip through text.
-/

namespace DocFilter

namespace Document

/-- A document in normal form. -/
structure Decoded (d : Document) : Prop where
  block : ∀ t ∈ d.blocks, t.kind.isBlock
  blocks : ∀ t ∈ d.blocks, t.Decoded Json.Legible
  metadata : (MetaValue.map d.metadata).Holds (Tree.Decoded Json.Legible)
  version : d.version ≠ []
  short : ∀ n ∈ d.version, ¬ isLong n

theorem short_readVersion {json : Json} {version : List Int} (hjson : json.Legible)
    (h : readVersion json = .ok version) : ∀ n ∈ version, ¬ isLong n := by
  obtain ⟨-, h⟩ := showing_eq_ok_iff.mp h
  split at h
  · rename_i item items
    split at h
    · rename_i ns hns
      cases h
      intro n hn
      obtain ⟨item, hitem, hn⟩ := exists_of_mem_mapM_some hns n hn
      have hlegible := hjson.of_mem item hitem
      cases hlegible with
      | int hshort =>
        cases hn
        exact hshort
      | _ => cases hn
    · cases h
  · cases h

/-- Reading legible data gives a document in normal form. -/
theorem decoded_of_ofJson {json : Json} {d : Document} (hjson : json.Legible) (h : ofJson json = .ok d) :
    d.Decoded := by
  have hshaped := shaped_of_ofJson h
  obtain ⟨schema, version, metadata, blocks, hparts, hversion, hlegal⟩ := parts_of_ofJson h
  obtain ⟨hmetadata, hblocks⟩ := hlegal Json.Legible Json.composed_legible.toHereditary hjson
  obtain ⟨trees, htrees, hparts⟩ := bind_eq_ok_iff.mp hparts
  obtain ⟨entries, hentries, hparts⟩ := bind_eq_ok_iff.mp hparts
  cases hparts
  refine ⟨hshaped.block, ((reads_readContents Json.composed_legible _).run rfl hblocks htrees).2,
    MetaValue.holds_readMap hmetadata (fun _ _ => MetaValue.holds_read _) hentries, hshaped.version, ?_⟩
  rcases hversion with rfl | ⟨shown, hshown, hversion⟩
  · exact fun n hn => not_isLong ((by decide : ∀ n ∈ defaultVersion, n.natAbs < 10 ^ 10) n hn)
  · exact short_readVersion (hjson.of_get? hshown) hversion

/-- The layout and the version that are left of a document once it was written and read back. -/
def relaid (d : Document) (schema : Schema) : Document :=
  { d with version := if schema = .v1 then defaultVersion else d.version
           schema := schema }

/-- A document in normal form is written as legible data in either layout, and read back as it is, but for
the version, which only one of the layouts shows. -/
theorem Decoded.ofJson_toJson {d : Document} (h : d.Decoded) (schema : Schema) :
    ∃ json, d.toJson (.str schema.name) = .ok json ∧ json.Legible ∧ ofJson json = .ok (d.relaid schema) := by
  have hbelow : ∀ entry ∈ d.metadata, entry.2.Holds Tree.Shaped := by
    cases h.metadata with
    | map keys below => exact fun entry hentry => (below entry hentry).mono fun _ => Tree.Decoded.shaped
  obtain ⟨json, hwrite, hread⟩ := Document.ofJson_toJson h.block (fun t ht => (h.blocks t ht).shaped.restored)
    (fun entry hentry => ((hbelow entry hentry).mono fun _ => Tree.Shaped.restored).restored) h.version schema
  have hblocks : d.blocks.map Tree.inOrder = d.blocks :=
    (List.map_congr_left fun t ht => (h.blocks t ht).shaped.inOrder_eq).trans (List.map_id _)
  have hasRead : d.asRead schema = d.relaid schema := by
    have hmetadata := MetaValue.entriesInOrder_eq_self fun entry hentry =>
      ((hbelow entry hentry).mono fun _ => Tree.Shaped.inOrder_eq).inOrder_eq
    cases schema <;> simp only [asRead, relaid, hblocks, hmetadata] <;> rfl
  suffices hlegible : json.Legible from
    ⟨json, hwrite, hlegible, hasRead ▸ hread.trans (showing_of_short hlegible.short)⟩
  obtain ⟨blocks, hwriteBlocks, hwrite⟩ := bind_eq_ok_iff.mp hwrite
  obtain ⟨entries, hentries, hwrite⟩ := bind_eq_ok_iff.mp hwrite
  have hblocks : blocks.Legible := by
    rw [writeBlocks_eq_writeRun] at hwriteBlocks
    exact legal_writeRun Json.composed_legible
      (List.forall_mem_map.mpr fun t ht => (h.blocks t ht).legal_written Json.composed_legible) hwriteBlocks
  have hmetadata : (Json.obj entries).Legible := by
    have hmap : (MetaValue.map d.metadata).toJson = .ok (MetaValue.tagged "MetaMap" (.obj entries)) := by
      rw [MetaValue.toJson, hentries]
      rfl
    have htagged := (h.metadata.mono fun _ => Tree.Decoded.legal_written Json.composed_legible).legible_toJson hmap
    exact htagged.of_get? (MetaValue.get?_contents_tagged _ _)
  have hversion : (Json.arr (d.version.map .int)).Legible :=
    .arr (List.forall_mem_map.mpr fun n hn => .int (h.short n hn))
  cases schema with
  | v1 =>
    cases hwrite
    have hhead : (Json.obj [("unMeta", .obj entries)]).Legible :=
      .obj (by simp) (List.forall_mem_singleton.mpr hmetadata)
    exact .arr (by simpa using ⟨hhead, hblocks⟩)
  | v2 =>
    cases hwrite
    exact .obj (by simp [versionKey]) (by simpa using ⟨hversion, hmetadata, hblocks⟩)

/-- A document that was written and read back is written as before: only the layout that shows the version
depends on it. -/
theorem toJson_relaid (d : Document) (schema : Schema) :
    (d.relaid schema).toJson (.str schema.name) = d.toJson (.str schema.name) := by
  cases schema <;> rfl

/-- A document that a text or some bytes are read as. -/
def IsRead (d : Document) : Prop := (∃ text, parse text = .ok d) ∨ ∃ bytes, parseBytes bytes = .ok d

theorem decoded_of_ofParsed {parsed : Except (ReadError Json.SyntaxError) Json} {d : Document}
    (hjson : ∀ json, parsed = .ok json → json.Legible) (h : ofParsed parsed = .ok d) : d.Decoded := by
  cases parsed with
  | ok json => exact decoded_of_ofJson (hjson json rfl) h
  | error e => cases e <;> cases h

/-- What reading gives is in normal form. -/
theorem IsRead.decoded {d : Document} (h : d.IsRead) : d.Decoded := by
  rcases h with ⟨text, h⟩ | ⟨bytes, h⟩
  · exact decoded_of_ofParsed (fun json hjson => Json.legible_of_parse hjson) h
  · unfold parseBytes at h
    split at h
    · exact decoded_of_ofParsed (fun json hjson => Json.legible_of_parseDecoded hjson) h
    · cases h

/-- The layout that is asked for, or the document's own. -/
theorem exists_schema (d : Document) {schema : Json}
    (h : schema = .null ∨ ∃ s : Schema, schema = .str s.name) :
    ∃ s : Schema, ∀ e : Document, e.schema = d.schema ∨ e.schema = s →
      (if isUnset schema then .str e.schema.name else schema) = Json.str s.name := by
  rcases h with rfl | ⟨s, rfl⟩
  · refine ⟨d.schema, fun e he => ?_⟩
    rcases he with he | he <;> rw [he] <;> rfl
  · exact ⟨s, fun e _ => by cases s <;> rfl⟩

/-- The text of legible data is read as the data is. -/
theorem parse_of_text {json : Json} {style : Json.Style} {text : String} (hstyle : style.Regular)
    (h : json.Legible) (htext : json.text style = text) : parse text = ofJson json := by
  rw [parse, ← htext, Json.parse_text hstyle h]
  rfl

theorem legible_noMetadata : (Json.obj [("unMeta", .obj [])]).Legible :=
  .obj (by decide) (by simpa using .obj (by decide) (by simp))

/-- A document in the older layout that holds nothing. -/
theorem parse_empty : parse "[\x7b\"unMeta\":\x7b\x7d\x7d,[]]" = .ok ⟨[], [], defaultVersion, .v1⟩ := by
  have hlegible : (Json.arr [.obj [("unMeta", .obj [])], .arr []]).Legible :=
    .arr (by simpa using ⟨legible_noMetadata, .arr (by simp)⟩)
  exact (parse_of_text (Json.Style.regular_compact false) hlegible (by rfl)).trans (by rfl)

/-- **Normal form.**  A document in normal form can be written as text, and what the text is read as is
written as the same text. -/
theorem Decoded.render_parse {d : Document} (h : d.Decoded) {schema : Json} {style : Json.Style}
    (hschema : schema = .null ∨ ∃ s : Schema, schema = .str s.name) (hstyle : style.Regular) :
    ∃ text e, d.render schema (.ok style) = .ok text ∧ parse text = .ok e ∧
      e.render schema (.ok style) = .ok text := by
  obtain ⟨s, hchoice⟩ := d.exists_schema hschema
  obtain ⟨json, hwrite, hlegible, hread⟩ := h.ofJson_toJson s
  have hrender : ∀ e : Document, e.schema = d.schema ∨ e.schema = s → e.toJson (.str s.name) = .ok json →
      e.render schema (.ok style) = .ok (json.text style) := by
    intro e he hjson
    rw [render, hchoice e he, hjson]
    exact congrArg (Except.mapError CodecError.fault) (Json.render_of_short hlegible.short)
  refine ⟨json.text style, d.relaid s, hrender d (.inl rfl) hwrite, ?_, ?_⟩
  · rw [parse_of_text hstyle hlegible rfl]
    exact hread
  · exact hrender _ (.inr rfl) (d.toJson_relaid s ▸ hwrite)

end Document

end DocFilter
