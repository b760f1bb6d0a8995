import DocFilter.Command.Run
import DocFilter.Proofs.Filter.Growing
import DocFilter.Proofs.Forest.Documents
import DocFilter.Proofs.Options

/-!
# Filters without rules

A filter without rules walks through a document and leaves it as it is, so its output is the document in the
layout that the options ask for, and filtering the output gives the same output.

* `Walker.next_untouched` says that a walk through a document that was just read changes nothing, and
  `Filter.visits_without_rules` that a run without rules comes to its end with the forest it began with.
* `Options.Valid` are the options, and `Command.filterText_normalises` is the result on the run from text to
  text, also for an indentation that passes the check though no line can have it.
-/

namespace DocFilter

/-! ## Walks that change nothing -/

namespace Walker

open Forest

variable {f f' : Forest} {w : Walker} {frames : List Frame} {fuel : Nat}

theorem advance_untouched (hlinked : f.Linked) (hmarks : ∀ n, f.replacement? n = none)
    (h : (w.advance fuel frames f).forest? = some f') : f' = f := by
  induction fuel generalizing frames with
  | zero => cases h
  | succ fuel ih =>
    cases frames with
    | nil =>
      cases h
      rfl
    | cons frame rest =>
      rw [advance] at h
      dsimp only at h
      split at h
      · exact ih h
      · rename_i child hchild
        have hheld : f.holder? child = some frame.node := hlinked.held _ _ (List.mem_of_getElem? hchild)
        rw [reach_eq_self hheld (hmarks child)] at h
        split at h
        · exact ih h
        · cases h
          rfl

/-- Where links agree with lists and no node bears a mark, a step of a walk leaves the forest as it is. -/
theorem next_untouched (hlinked : f.Linked) (hmarks : ∀ n, f.replacement? n = none)
    (h : (w.next fuel f).forest? = some f') : f' = f := by
  rw [next] at h
  split at h
  · cases h
    rfl
  · split at h
    · exact advance_untouched hlinked hmarks h
    · split at h
      · exact advance_untouched hlinked hmarks h
      · cases h

end Walker

/-! ## Runs without rules -/

namespace Filter

open Forest Walker

variable {σ : Type} {c c₀ : Context σ} {w : Walker} {root : NodeId} {f : Forest} {order seen : List NodeId}

/-- Two contexts with the same document and the same reports. -/
structure Alike (c c' : Context σ) : Prop where
  forest : c'.forest = c.forest
  metadataOf : c'.metadataOf = c.metadataOf
  log : c'.log = c.log

theorem Alike.trans {c c' c'' : Context σ} (h : Alike c c') (h' : Alike c' c'') : Alike c c'' :=
  ⟨h'.forest.trans h.forest, h'.metadataOf.trans h.metadataOf, h'.log.trans h.log⟩

/-- A run without rules comes to its end and leaves the document as it is.  Each turn hands out a node of the
tree, and none is handed out twice. -/
theorem visits_without_rules (horder : f.Lists [root] order) (hstrict : f.Strict root) (hlinked : f.Linked)
    (hmarks : ∀ n, f.replacement? n = none) (hwalk : Walker.Grows f root w f seen [] [])
    (hforest : c.forest = f) :
    ∃ enough, ∀ steps ≥ enough, ∀ visits ≥ enough, ∀ visited, ∃ total c',
      (visitAll [] steps visits visited w seen.getLast?).run c = (.ok ⟨false, total⟩, c') ∧ Alike c c' := by
  induction hleft : order.length - seen.length using Nat.strongRecOn generalizing w c seen with
  | _ left ih =>
    subst hleft
    have hunmarked : ∀ x, seen.getLast? = some x → c.forest.replacement? x = none := fun x _ => by
      rw [hforest]
      exact hmarks x
    obtain ⟨enough, ⟨n, w', f', -, hnext⟩ | ⟨w', f', hfinished, -⟩⟩ := (hwalk.fares horder hstrict).onward
    · have hvisit := hnext enough (Nat.le_refl _)
      obtain rfl : f' = f := next_untouched hlinked hmarks (by rw [hvisit]; rfl)
      have hlater := hwalk.turn hvisit (.nil f')
      have hbound := (hlater.fares horder hstrict).bounded
      simp only [List.length_append, List.length_singleton, List.length_nil, List.append_nil] at hbound
      obtain ⟨enough', hrest⟩ := ih _ (by rw [List.length_append, List.length_singleton]; omega) hlater
        (c := entering n (inForest f' c)) rfl rfl
      refine ⟨max enough enough' + 1, fun steps hsteps visits hvisits visited => ?_⟩
      obtain ⟨visits, rfl⟩ : ∃ rest, visits = rest + 1 := ⟨visits - 1, by omega⟩
      obtain ⟨total, c', hrun, halike⟩ := hrest steps (by omega) visits (by omega) (visited + 1)
      have hentered : Alike c (entering n (inForest f' c)) := ⟨hforest.symm, rfl, rfl⟩
      refine ⟨total, c', ?_, hentered.trans halike⟩
      rw [List.getLast?_concat] at hrun
      rw [run_visitAll, next_of_unmarked hunmarked, hforest, hnext steps (by omega)]
      exact hrun
    · refine ⟨enough + 1, fun steps hsteps visits hvisits visited => ?_⟩
      obtain ⟨visits, rfl⟩ : ∃ rest, visits = rest + 1 := ⟨visits - 1, by omega⟩
      have hvisit := hfinished enough (Nat.le_refl _)
      obtain rfl : f' = f := next_untouched hlinked hmarks (by rw [hvisit]; rfl)
      refine ⟨visited, inForest f' c, ?_, hforest.symm, rfl, rfl⟩
      rw [run_visitAll, next_of_unmarked hunmarked, hforest, hfinished steps (by omega)]
      rfl

end Filter

/-! ## From a document to its text -/

namespace Filter

open Forest

variable {σ : Type}

/-- Where nothing was written in the place of the metadata, settling those of the document itself does nothing. -/
theorem settleMetadata_eq_self {c : Context σ} {root : NodeId} (hroot : c.metadataOf = root)
    (h : (c.forest.cell root).extras = []) : c.settleMetadata root = c := by
  have hset : c.forest.setMetadata root c.metadata = c.forest := by
    refine update_eq_self ?_
    rw [Context.metadata, hroot, store?]
    generalize c.forest.cell root = cell
    obtain ⟨_, _, _, _, _, _, _ | d⟩ := cell <;> rfl
  rw [Context.settleMetadata, hset, restoreMetadata_eq_self h]

/-- What a run and the writing after it come to. -/
theorem run_transform (filter : Filter σ) (fuel : Nat) (c : Context σ) :
    (filter.transform fuel).run c = match (filter.apply fuel).run c with
      | (.error e, c') => (.error e, c')
      | (.ok outcome, c') => match filter.write c.document c' with
        | .error e => (.error e, c')
        | .ok text => (.ok (outcome, text), c') := by
  rw [transform, run_bind, run_get]
  dsimp only
  rw [run_bind]
  rcases (filter.apply fuel).run c with ⟨e | outcome, c'⟩
  · rfl
  · dsimp only
    rw [run_bind, run_get]
    dsimp only
    cases filter.write c.document c' <;> rfl

/-- A filter without rules comes to what writing the document comes to that it was begun with. -/
theorem transform_without_rules {d : Document} {options : Options} {written : Except Failure String}
    (format : String) (shared : σ) (hrender : ∀ {f : Forest} {root : NodeId}, f.Fresh root d →
      f.render root options.schemaJson options.style = written) :
    ∃ enough, ∀ fuel ≥ enough, ∃ total c, c.log = [] ∧
      ((⟨[], options⟩ : Filter σ).transform fuel).run (begin d format shared) =
        (written.map (⟨false, total⟩, ·), c) := by
  have hfresh := fresh_plantDocument d
  obtain ⟨order, horder, -⟩ := id hfresh.strict
  obtain ⟨enough, hvisits⟩ := visits_without_rules (c := begin d format shared) horder hfresh.strict
    hfresh.linked hfresh.unmarked .start rfl
  refine ⟨enough, fun fuel hfuel => ?_⟩
  obtain ⟨total, c, hrun, hforest, hmetadataOf, hlog⟩ := hvisits fuel hfuel fuel hfuel 0
  let root := (({} : Forest).plantDocument d).1
  have hsettled : c.settleMetadata root = c := by
    have hmetadata : (c.forest.cell root).extras = [] := by
      rw [hforest]
      exact hfresh.extras
    exact settleMetadata_eq_self hmetadataOf hmetadata
  have hroot : (begin d format shared).document = root := rfl
  have hcompile : compile ([] : List (Rule σ)) = .ok [] := rfl
  have hwrite : (⟨[], options⟩ : Filter σ).write root c = written := by
    rw [write, hforest]
    exact hrender hfresh
  refine ⟨total, c, hlog, ?_⟩
  rw [run_transform, run_apply, hcompile]
  dsimp only
  rw [hroot]
  rw [List.getLast?_nil] at hrun
  rw [hrun]
  dsimp only
  rw [hsettled, hwrite]
  cases written <;> rfl

end Filter

/-! ## Options -/

/-- Options that pass the check and ask for no indentation, or for some number of spaces. -/
structure Options.Valid (o : Options) : Prop where
  checked : o.check = .ok o
  indent : o.jsonIndent = .null ∨ ∃ n : Nat, o.jsonIndent = .int n

namespace Options

variable {o : Options}

/-- A line can have the number of spaces, or it is no size. -/
theorem Valid.fits_or (h : o.Valid) : Fits o.jsonIndent ∨ ∃ n : Nat, 2 ^ 63 ≤ n ∧ o.jsonIndent = .int n := by
  obtain hnone | ⟨n, hn⟩ := h.indent
  · exact .inl (.inl hnone)
  · rcases Nat.lt_or_ge n (2 ^ 63) with hsize | hsize
    · exact .inl (.inr (.inr ⟨n, hsize, hn⟩))
    · exact .inr ⟨n, hsize, hn⟩

theorem Valid.schema (h : o.Valid) : o.schemaJson = .null ∨ ∃ s : Schema, o.schemaJson = .str s.name :=
  schemaJson_cases (check_eq_ok_iff.mp h.checked).2.1

end Options

/-! ## From text to text -/

namespace Command

variable {σ : Type} {d : Document} {options : Options}

theorem filterText_of_parse {input : String} (h : Document.parse input = .ok d) (rules : List (Rule σ)) (shared : σ)
    (options : Options) (fuel : Nat) (format : String) :
    filterText rules shared options fuel format input =
      (((⟨rules, options⟩ : Filter σ).transform fuel).run (Filter.begin d format shared)).map id Context.log := by
  rw [filterText, h]
  rfl

/-- Where the indentation fits, a filter without rules writes whatever it reads as the document itself is written,
and what it wrote it writes again as it is. -/
theorem filterText_of_fits (hread : d.IsRead) (hoptions : options.Valid) (hfits : Options.Fits options.jsonIndent)
    (format : String) (shared : σ) :
    ∃ text, d.render options.schemaJson options.style = .ok text ∧ ∃ enough, ∀ fuel ≥ enough,
      (∃ total c, c.log = [] ∧ ((⟨[], options⟩ : Filter σ).transform fuel).run (Filter.begin d format shared) =
        (.ok (⟨false, total⟩, text), c)) ∧
      (∀ input, Document.parse input = .ok d → ∃ total,
        filterText ([] : List (Rule σ)) shared options fuel format input = (.ok (⟨false, total⟩, text), [])) ∧
      ∃ total, filterText ([] : List (Rule σ)) shared options fuel format text =
        (.ok (⟨false, total⟩, text), []) := by
  obtain ⟨style, hstyle, hregular⟩ := Options.style_of_fits hfits
  obtain ⟨text, e, hrender, hparse, hagain⟩ := hread.decoded.render_parse hoptions.schema hregular
  rw [← hstyle] at hrender hagain
  obtain ⟨enough, hrun⟩ := Filter.transform_without_rules format shared fun hfresh => hfresh.render hrender
  obtain ⟨enough', hrun'⟩ := Filter.transform_without_rules format shared fun hfresh => hfresh.render hagain
  refine ⟨text, hrender, max enough enough', fun fuel hfuel => ?_⟩
  obtain ⟨total, c, hlog, hfirst⟩ := hrun fuel (by omega)
  obtain ⟨total', c', hlog', hsecond⟩ := hrun' fuel (by omega)
  refine ⟨⟨total, c, hlog, hfirst⟩, fun input hinput => ⟨total, ?_⟩, total', ?_⟩
  · rw [filterText_of_parse hinput, hfirst]
    exact Prod.ext rfl hlog
  · rw [filterText_of_parse hparse, hsecond]
    exact Prod.ext rfl hlog'

/-- Where the indentation is no size, a filter without rules fails when it writes. -/
theorem filterText_of_huge (hread : d.IsRead) (hoptions : options.Valid) {n : Nat} (hn : 2 ^ 63 ≤ n)
    (hindent : options.jsonIndent = .int n) (format : String) (shared : σ) :
    ∃ enough, ∀ fuel ≥ enough, ∀ input, Document.parse input = .ok d →
      filterText ([] : List (Rule σ)) shared options fuel format input = (.error (.fault .overflow), []) := by
  obtain ⟨json, hjson⟩ := Options.exists_toJson hread hoptions.checked
  obtain ⟨enough, hrun⟩ := Filter.transform_without_rules format shared fun hfresh =>
    hfresh.render_of_style hjson (Options.style_of_huge hindent hn)
  refine ⟨enough, fun fuel hfuel input hinput => ?_⟩
  obtain ⟨total, c, hlog, htransform⟩ := hrun fuel hfuel
  rw [filterText_of_parse hinput, htransform]
  exact Prod.ext rfl hlog

/-- **Normal form.**  A filter without rules writes whatever it reads as the document itself is written, and what it
wrote it writes again as it is, unless the number of spaces to indent by is no size, though it passes the check. -/
theorem filterText_normalises (hread : d.IsRead) (hoptions : options.Valid) (format : String) (shared : σ) :
    (Options.Fits options.jsonIndent ∧
      ∃ text, d.render options.schemaJson options.style = .ok text ∧ ∃ enough, ∀ fuel ≥ enough,
        (∃ total c, c.log = [] ∧ ((⟨[], options⟩ : Filter σ).transform fuel).run (Filter.begin d format shared) =
          (.ok (⟨false, total⟩, text), c)) ∧
        (∀ input, Document.parse input = .ok d → ∃ total,
          filterText ([] : List (Rule σ)) shared options fuel format input = (.ok (⟨false, total⟩, text), [])) ∧
        ∃ total, filterText ([] : List (Rule σ)) shared options fuel format text =
          (.ok (⟨false, total⟩, text), [])) ∨
    ∃ n : Nat, 2 ^ 63 ≤ n ∧ options.jsonIndent = .int n ∧
      ∃ enough, ∀ fuel ≥ enough, ∀ input, Document.parse input = .ok d →
        filterText ([] : List (Rule σ)) shared options fuel format input = (.error (.fault .overflow), []) := by
  obtain hfits | ⟨n, hn, hindent⟩ := hoptions.fits_or
  · exact .inl ⟨hfits, filterText_of_fits hread hoptions hfits format shared⟩
  · exact .inr ⟨n, hn, hindent, filterText_of_huge hread hoptions hn hindent format shared⟩

/-- A listing in the older layout, with a truth value for an attribute and an entry that means nothing. -/
def listing : Json :=
  .arr [.obj [("unMeta", .obj [])],
    .arr [.obj [("t", .str "CodeBlock"),
      ("c", .arr [.arr [.str "", .arr [], .arr [.arr [.str "numbered", .bool true]]], .str "x"]), ("n", .null)]]]

theorem legible_listing : listing.Legible := by
  have hpairs : (Json.arr [.arr [.str "numbered", .bool true]]).Legible :=
    .arr (by simpa using .arr (by simpa using ⟨.str _, .bool _⟩))
  have hattr : (Json.arr [.str "", .arr [], .arr [.arr [.str "numbered", .bool true]]]).Legible :=
    .arr (by simpa using ⟨.str _, .arr (by simp), hpairs⟩)
  have hcontents := @Json.Legible.arr [_, .str "x"] (by simpa using ⟨hattr, .str _⟩)
  have hnode := @Json.Legible.obj [("t", .str "CodeBlock"), ("c", _), ("n", .null)] (by simp)
    (by simpa using ⟨.str _, hcontents, .null⟩)
  exact .arr (by simpa using ⟨Document.legible_noMetadata, .arr (by simpa using hnode)⟩)

/-- The listing as it is read. -/
def listed : Document where
  metadata := []
  blocks := [.node .codeBlock [("attr", .attr ⟨"", [], [("numbered", "True")]⟩), ("text", .data (.str "x"))] []]
  version := defaultVersion
  schema := .v1

/-- The listing as it is written. -/
def listingText : String :=
  "[\x7b\"unMeta\":\x7b\x7d\x7d,[\x7b\"t\":\"CodeBlock\",\"c\":[[\"\",[],[[\"numbered\",true]]],\"x\"],\"n\":null\x7d]]"

/-- The listing as a filter writes it. -/
def listingNormal : String :=
  "[\x7b\"unMeta\":\x7b\x7d\x7d,[\x7b\"t\":\"CodeBlock\",\"c\":[[\"\",[],[[\"numbered\",\"True\"]]],\"x\"]\x7d]]"

theorem parse_listing : Document.parse listingText = .ok listed :=
  (Document.parse_of_text (Json.Style.regular_compact false) legible_listing (by rfl)).trans (by rfl)

/-- The truth value becomes text, the entry that means nothing is gone, and nothing else happens after that.  With
2 ^ 63 spaces to indent by there is no output, though the document can be read. -/
theorem filterText_listing :
    (∃ enough, ∀ fuel ≥ enough,
      (∃ total, filterText ([] : List (Rule Unit)) () {} fuel "html" listingText =
        (.ok (⟨false, total⟩, listingNormal), [])) ∧
      ∃ total, filterText ([] : List (Rule Unit)) () {} fuel "html" listingNormal =
        (.ok (⟨false, total⟩, listingNormal), [])) ∧
    Options.Valid { jsonIndent := .int (2 ^ 63) } ∧ ∃ enough, ∀ fuel ≥ enough,
      filterText ([] : List (Rule Unit)) () { jsonIndent := .int (2 ^ 63) } fuel "html" listingText =
        (.error (.fault .overflow), []) := by
  have hread : listed.IsRead := .inl ⟨_, parse_listing⟩
  have hrender : listed.render (Options.schemaJson {}) (Options.style {}) = .ok listingNormal := by rfl
  have hoptions : Options.Valid {} := ⟨Options.check_indent rfl, .inl rfl⟩
  have hhuge : Options.Valid { jsonIndent := .int (2 ^ 63) } := ⟨Options.check_indent rfl, .inr ⟨2 ^ 63, rfl⟩⟩
  refine ⟨?_, hhuge, ?_⟩
  · obtain ⟨-, text, htext, enough, hruns⟩ | ⟨n, -, hn, -⟩ := filterText_normalises hread hoptions "html" ()
    · obtain rfl : listingNormal = text := Except.ok.inj (hrender.symm.trans htext)
      exact ⟨enough, fun fuel hfuel => ⟨(hruns fuel hfuel).2.1 _ parse_listing, (hruns fuel hfuel).2.2⟩⟩
    · cases hn
  · obtain ⟨hfits, -⟩ | ⟨n, -, -, enough, hruns⟩ := filterText_normalises hread hhuge "html" ()
    · obtain hfits | ⟨b, hfits⟩ | ⟨n, hn, hfits⟩ := hfits
      · cases hfits
      · cases hfits
      · have : (n : Int) = 2 ^ 63 := (Plain.int.inj hfits).symm
        omega
    · exact ⟨enough, fun fuel hfuel => hruns fuel hfuel _ parse_listing⟩

end Command

end DocFilter
