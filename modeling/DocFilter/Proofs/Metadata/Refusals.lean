import DocFilter.Proofs.Metadata.Calls
import DocFilter.Proofs.Metadata.Conversion

/-!
# When calls on metadata stop

A value can be put at a path if each beginning of the path leads to a map, and only the root asks what the value is.
Taking out never stops.  A call that stops does so before it has written anything.

* `Store.Blocked` says that the way to a path breaks off, `Store.Breaks` says where it does and with which error.
* `Store.Places` says how a call ends that puts a value at a path, `Store.calls_exact` says it of all calls.
-/

namespace DocFilter

/-- The path that a failure names if a way broke off. -/
def Failure.notFound? : Failure → Option String
  | store (.missing _ path) | store (.notMap _ path) => some path
  | _ => none

namespace Store

variable {store store' : Store} {path key : String} {id v : MetaId} {keys passed : List String} {e : StoreError}

/-! ## Ways that break off -/

/-- The entries of the map that keys lead to; none if they lead nowhere, or to what is not a map. -/
def mapAt? (store : Store) (keys : List String) : Option (Keyed MetaId) :=
  (store.follow store.root keys).bind store.map?

/-- Some proper beginning of a path leads nowhere, or to what is not a map. -/
def Blocked (store : Store) (path : String) : Prop :=
  ∃ before, before <+: pathKeys path ∧ before ≠ pathKeys path ∧ store.mapAt? before = none

/-- Where the way along some keys breaks off, and the error that it is: the first key that is not found, other than
the last one, or a last key that is looked for in what is not a map. -/
inductive BreaksFrom (store : Store) (path : String) (passed : List String) (id : MetaId) :
    List String → StoreError → Prop
  | missing {before rest : List String} {key : String} {there : MetaId} (inner : rest ≠ [])
      (leads : store.follow id before = some there) (absent : store.follow id (before ++ [key]) = none) :
      BreaksFrom store path passed id (before ++ key :: rest) (.missing (pathOf (passed ++ before ++ [key])) path)
  | notMap {before : List String} {key : String} {there : MetaId}
      (leads : store.follow id before = some there) (noMap : store.map? there = none) :
      BreaksFrom store path passed id (before ++ [key]) (.notMap (pathOf (passed ++ before)) path)

/-- Where the way to a path breaks off, and the error that it is. -/
def Breaks (store : Store) (path : String) (e : StoreError) : Prop :=
  BreaksFrom store path [] store.root (pathKeys path) e

/-- One key further on the way. -/
theorem BreaksFrom.cons {child : MetaId} (hstep : store.follow id [key] = some child)
    (h : BreaksFrom store path (passed ++ [key]) child keys e) : BreaksFrom store path passed id (key :: keys) e := by
  have hfollow : ∀ keys, store.follow id (key :: keys) = store.follow child keys := fun keys =>
    follow_append_of_eq hstep keys
  cases h with
  | @missing before rest last there inner leads absent =>
    have hbreaks := @BreaksFrom.missing store path passed id (key :: before) rest last there inner
      ((hfollow before).trans leads) ((hfollow _).trans absent)
    simpa using hbreaks
  | @notMap before last there leads noMap =>
    have hbreaks := @BreaksFrom.notMap store path passed id (key :: before) last there
      ((hfollow before).trans leads) noMap
    simpa using hbreaks

theorem breaksFrom_of_parentFrom (h : store.parentFrom path passed id key keys = .error e) :
    BreaksFrom store path passed id (key :: keys) e := by
  induction keys generalizing id key passed with
  | nil =>
    rw [parentFrom] at h
    split at h
    · cases h
    · rename_i hmap
      cases h
      have hbreaks := @BreaksFrom.notMap store path passed id [] key id rfl (by simpa using hmap)
      simpa using hbreaks
  | cons next keys ih =>
    rw [parentFrom] at h
    have hstep : store.follow id [key] = (store.map? id).bind (Keyed.find? (.text key)) := by
      simp [follow]
    split at h
    · rename_i child hchild
      exact (ih h).cons (hstep.trans hchild)
    · rename_i habsent
      cases h
      have hbreaks := @BreaksFrom.missing store path passed id [] (next :: keys) key id (List.cons_ne_nil _ _) rfl
        (hstep.trans habsent)
      simpa using hbreaks

/-- The error with which a path has no holder says where the way breaks off. -/
theorem breaks_of_parent (h : store.parent path = .error e) : store.Breaks path e := by
  rw [parent] at h
  split at h
  · cases h
  · rename_i first rest hkeys
    cases hfrom : store.parentFrom path [] store.root first rest with
    | ok found =>
      rw [hfrom] at h
      cases h
    | error e' =>
      rw [hfrom] at h
      cases h
      rw [Breaks, hkeys]
      exact breaksFrom_of_parentFrom hfrom

theorem Breaks.blocked (h : store.Breaks path e) : store.Blocked path := by
  rw [Breaks] at h
  generalize hkeys : pathKeys path = keys at h
  cases h with
  | @missing before rest last there inner leads absent =>
    refine ⟨before ++ [last], ?_, ?_, by rw [mapAt?, absent]; rfl⟩
    · rw [hkeys]
      exact ⟨rest, by simp⟩
    · rw [hkeys]
      simpa using inner.symm
  | @notMap before last there leads noMap =>
    refine ⟨before, hkeys ▸ List.prefix_append _ _, ?_, by rw [mapAt?, leads]; exact noMap⟩
    rw [hkeys]
    simp

theorem Breaks.names (h : store.Breaks path e) : (Failure.store e).notFound? = some path := by
  rw [Breaks] at h
  generalize pathKeys path = keys at h
  cases h <;> rfl

/-- Each beginning of the way to a holder leads to a map. -/
theorem Holder.not_blocked {before : List String} {holder : MetaId} {entries : Keyed MetaId}
    (h : store.Holder path before key holder entries) : ¬ store.Blocked path := by
  rintro ⟨first, hfirst, hproper, hnone⟩
  rw [h.keys] at hfirst hproper
  obtain ⟨last, rfl⟩ : first <+: before := (List.prefix_concat_iff.mp hfirst).resolve_left hproper
  have hleads := h.leads
  rw [follow_append] at hleads
  obtain ⟨there, hthere, hlast⟩ := Option.bind_eq_some_iff.mp hleads
  rw [mapAt?, hthere, Option.bind_some] at hnone
  cases last with
  | nil =>
    cases hlast
    rw [h.map] at hnone
    cases hnone
  | cons next last =>
    rw [follow_cons, hnone] at hlast
    cases hlast

/-- The way to a path breaks off exactly if no map holds its last key. -/
theorem blocked_iff : store.Blocked path ↔ ∃ e, store.parent path = .error e := by
  refine ⟨fun h => ?_, fun ⟨e, h⟩ => (breaks_of_parent h).blocked⟩
  cases hparent : store.parent path with
  | error e => exact ⟨e, rfl⟩
  | ok found =>
    by_cases hpath : path = ""
    · subst hpath
      obtain ⟨before, hprefix, hproper, -⟩ := h
      exact absurd (List.prefix_nil.mp hprefix) hproper
    · obtain ⟨before, key, holder, entries, rfl, hholder⟩ := (parent_eq_ok_iff hpath).mp hparent
      exact absurd h hholder.not_blocked

/-! ## Edits that are refused -/

theorem replace_root (store : Store) (v : MetaId) : store.replace "" v = match store.map? v with
    | some entries => .ok (store.setMap store.root entries)
    | none => .error (.rootNotMap (store.tag v)) := rfl

/-- Putting a value at a path is refused if the way breaks off, or if the root was to become something other than a
map. -/
theorem replace_eq_error_iff : store.replace path v = .error e ↔
    store.parent path = .error e ∨ path = "" ∧ store.map? v = none ∧ e = .rootNotMap (store.tag v) := by
  by_cases hpath : path = ""
  · subst hpath
    have hparent : store.parent "" = .ok none := rfl
    rw [replace_root, hparent]
    cases store.map? v with
    | none => simp [eq_comm]
    | some entries => simp
  · cases hparent : store.parent path with
    | error e' => simp [Store.replace, hparent, hpath, bind, Except.bind]
    | ok found =>
      obtain ⟨before, key, holder, entries, rfl, hholder⟩ := (parent_eq_ok_iff hpath).mp hparent
      simp [Store.replace, hparent, hpath, bind, Except.bind]

/-- Merging is refused where putting is: a map that is at a path has a way to it. -/
theorem merge_eq_error_iff : store.merge path v = .error e ↔ store.replace path v = .error e := by
  rw [Store.merge]
  split
  · rename_i id entries new hthere hnew
    refine iff_of_false (by simp) fun hreplace => ?_
    obtain ⟨found, hget, -⟩ := Option.bind_eq_some_iff.mp hthere
    obtain hparent | ⟨-, hmap, -⟩ := replace_eq_error_iff.mp hreplace
    · by_cases hpath : path = ""
      · subst hpath
        cases hparent
      · obtain ⟨before, key, holder, entries, hholder, -⟩ := exists_holder hpath hget
        rw [hholder.parent_eq] at hparent
        cases hparent
    · rw [hnew] at hmap
      cases hmap
  · exact Iff.rfl

theorem delete_fst (store : Store) (path : String) :
    (store.delete path).1 = if path = "" then none else store.get? path := by
  by_cases hpath : path = ""
  · subst hpath
    rfl
  rw [if_neg hpath]
  cases hget : store.get? path with
  | none => rw [Store.delete, hget]
  | some v =>
    obtain ⟨before, key, holder, entries, hholder, -⟩ := exists_holder hpath hget
    rw [hholder.delete_eq hget]

/-- Removing is refused exactly where taking out takes nothing. -/
theorem remove_cases (store : Store) (path : String) :
    (path = "" ∨ store.get? path = none) ∧ store.remove path = .error (.noKey path) ∨
      ¬ (path = "" ∨ store.get? path = none) ∧ ∃ store', store.remove path = .ok store' := by
  have hfst := delete_fst store path
  rw [Store.remove]
  cases hdelete : store.delete path with
  | mk taken left =>
    rw [hdelete] at hfst
    cases taken with
    | none =>
      refine .inl ⟨?_, rfl⟩
      by_cases hpath : path = ""
      · exact .inl hpath
      · rw [if_neg hpath] at hfst
        exact .inr hfst.symm
    | some v =>
      refine .inr ⟨?_, left, rfl⟩
      by_cases hpath : path = ""
      · rw [if_pos hpath] at hfst
        cases hfst
      · rw [if_neg hpath] at hfst
        simp [hpath, ← hfst]

/-! ## Values that were brought in -/

/-- The holder of a path does not depend on what the path does not lead through. -/
theorem parentFrom_congr (h : Unchanged store store' id) :
    store'.parentFrom path passed id key keys = store.parentFrom path passed id key keys := by
  induction keys generalizing id key passed with
  | nil => rw [parentFrom, parentFrom, h.map?]
  | cons next keys ih =>
    rw [parentFrom, parentFrom, h.map?]
    have hstep : store.follow id [key] = (store.map? id).bind (Keyed.find? (.text key)) := by simp [follow]
    cases hchild : (store.map? id).bind (Keyed.find? (.text key)) with
    | none => rfl
    | some child => exact ih (h.onward (hstep.trans hchild))

theorem Sound.parent_eq (h : store.Sound) (hsame : Untouched store store') (path : String) :
    store'.parent path = store.parent path := by
  have hroot := h.unchanged hsame.cells h.root_lt
  rw [parent, parent]
  split
  · rfl
  · rw [hsame.root, parentFrom_congr hroot]

/-! ## How calls end -/

/-- How a call ends that is to put a value at a path, where `isMap` says whether the value is a map. -/
structure Places (store : Store) (path : String) (isMap : Bool) (answer : Except Failure (Option MetaId)) : Prop where
  notFound : (∃ e, answer = .error e ∧ e.notFound? = some path) ↔ store.Blocked path
  broken : store.Blocked path → ∃ e, store.Breaks path e ∧ answer = .error (.store e)
  rootNotMap : (∃ tag, answer = .error (.store (.rootNotMap tag))) ↔ path = "" ∧ isMap = false
  done : answer = .ok none ↔ ¬ store.Blocked path ∧ ¬ (path = "" ∧ isMap = false)

theorem not_blocked_root : ¬ store.Blocked "" := fun h => by
  obtain ⟨e, he⟩ := blocked_iff.mp h
  cases he

/-- An edit that is refused where putting is ends in this way. -/
theorem places_of_edit {s : Store} {edit : Except StoreError Store} (hparent : s.parent path = store.parent path)
    (hedit : ∀ e, edit = .error e ↔ s.replace path v = .error e) :
    store.Places path (s.map? v).isSome (match edit with
      | .ok s' => ((.ok none : Except Failure (Option MetaId)), s')
      | .error e => (.error (.store e), s)).1 := by
  have hrefused : ∀ e, edit = .error e ↔ store.parent path = .error e ∨
      path = "" ∧ s.map? v = none ∧ e = .rootNotMap (s.tag v) := fun e => by
    rw [hedit, replace_eq_error_iff, hparent]
  cases edit with
  | ok s' =>
    have hfree : ¬ store.Blocked path := fun h => by
      obtain ⟨e, he⟩ := blocked_iff.mp h
      cases (hrefused e).mpr (.inl he)
    have hmap : ¬ (path = "" ∧ (s.map? v).isSome = false) := fun ⟨hpath, hnone⟩ => by
      have hnone : s.map? v = none := by simpa using hnone
      cases (hrefused _).mpr (.inr ⟨hpath, hnone, rfl⟩)
    exact ⟨iff_of_false (by simp) hfree, fun h => absurd h hfree, iff_of_false (by simp) hmap,
      iff_of_true rfl ⟨hfree, hmap⟩⟩
  | error e =>
    obtain he | ⟨rfl, hnone, rfl⟩ := (hrefused e).mp rfl
    · have hbreaks := breaks_of_parent he
      have hpath : path ≠ "" := by
        rintro rfl
        cases he
      have hnot : ∀ tag, e ≠ .rootNotMap tag := by
        rintro tag rfl
        cases hbreaks.names
      refine ⟨iff_of_true ⟨_, rfl, hbreaks.names⟩ hbreaks.blocked, fun _ => ⟨e, hbreaks, rfl⟩, ?_, ?_⟩
      · simpa [hpath] using hnot
      · simp [hbreaks.blocked]
    · refine ⟨iff_of_false ?_ not_blocked_root, fun h => absurd h not_blocked_root, ?_, ?_⟩
      · rintro ⟨e, heq, hnames⟩
        cases heq
        cases hnames
      · simp [hnone]
      · simp [hnone]

/-- Data that is no text is converted as it is. -/
theorem ofValue_of_ne {value : Plain} (hvalue : ∀ text, value ≠ .str text) :
    MetaValue.ofValue value = (MetaValue.convert value).mapError .fault := by
  rw [MetaValue.ofValue]
  rintro text rfl
  exact hvalue text rfl

/-- What becomes of a value that a call is given, unless it is a text: it is taken unless it is plain data that holds
something that cannot be written out. -/
theorem exists_coerce_iff {given : Given} (hgiven : ∀ text, given ≠ .plain (.str text)) :
    (∃ v s, (Editing.coerce given).run store = (.ok v, s)) ↔ ∀ value, given = .plain value →
      ∀ (part : Plain) (fault : Fault), part.Inside value → ¬ part.Stops fault := by
  cases given with
  | metadata id => exact iff_of_true ⟨id, store, rfl⟩ nofun
  | plain value =>
    rw [Editing.run_coerce_plain, ofValue_of_ne fun text heq => hgiven text (congrArg Given.plain heq)]
    constructor
    · rintro ⟨v, s, h⟩ _ ⟨⟩
      refine MetaValue.exists_convert_iff.mp ?_
      cases hm : MetaValue.convert value with
      | ok m => exact ⟨m, rfl⟩
      | error fault =>
        rw [hm] at h
        cases h
    · intro h
      obtain ⟨m, hm⟩ := MetaValue.exists_convert_iff.mpr (h value rfl)
      exact ⟨_, _, by rw [hm]; rfl⟩

/-- A value that is no text and is not taken holds something that cannot be written out, and the failure says what. -/
theorem stops_of_coerce {given : Given} {s : Store} {e : Failure} (hgiven : ∀ text, given ≠ .plain (.str text))
    (h : (Editing.coerce given).run store = (.error e, s)) :
    ∃ (value part : Plain) (fault : Fault), given = .plain value ∧ part.Inside value ∧ part.Stops fault ∧
      e = .codec (.fault fault) := by
  cases given with
  | metadata id => cases h
  | plain value =>
    rw [Editing.run_coerce_plain, ofValue_of_ne fun text heq => hgiven text (congrArg Given.plain heq)] at h
    cases hconvert : MetaValue.convert value with
    | ok m =>
      rw [hconvert] at h
      cases h
    | error fault =>
      rw [hconvert] at h
      cases h
      obtain ⟨part, hinside, hstops⟩ := MetaValue.stops_of_convert hconvert
      exact ⟨value, part, fault, rfl, hinside, hstops, rfl⟩

/-- In sound metadata, a call that puts a value at a path stops exactly if some proper beginning of the path leads
nowhere or to what is not a map, and then names the path, or if the root was to become something other than a map,
once its value is read.  A value that is no text is always read, unless it is plain data that holds a whole number with
too many digits or lies in itself, and then the call stops with this fault.  Taking out always comes to an answer,
which is no value exactly at the root and where there is none, and just there removing is refused.  Any call that stops
leaves all that is in the metadata as it was. -/
theorem calls_exact (h : store.Sound) :
    (∀ given, (∀ text, given ≠ .plain (.str text)) →
      ((∃ v s, (Editing.coerce given).run store = (.ok v, s)) ↔ ∀ value, given = .plain value →
        ∀ (part : Plain) (fault : Fault), part.Inside value → ¬ part.Stops fault) ∧
      ∀ e s, (Editing.coerce given).run store = (.error e, s) → ∃ (value part : Plain) (fault : Fault),
        given = .plain value ∧ part.Inside value ∧ part.Stops fault ∧ e = .codec (.fault fault)) ∧
    (∀ path given,
      (∀ v s, (Editing.coerce given).run store = (.ok v, s) →
        store.Places path (s.map? v).isSome ((MetaCall.replace path given).run store).1 ∧
        store.Places path (s.map? v).isSome ((MetaCall.merge path given).run store).1) ∧
      ∀ e s, (Editing.coerce given).run store = (.error e, s) →
        ((MetaCall.replace path given).run store).1 = .error e ∧
        ((MetaCall.merge path given).run store).1 = .error e) ∧
    (∀ path,
      (∃ taken, ((MetaCall.delete path).run store).1 = .ok taken ∧
        (taken = none ↔ path = "" ∨ store.get? path = none) ∧ ∀ v, taken = some v → store.get? path = some v) ∧
      (((MetaCall.remove path).run store).1 = .error (.store (.noKey path)) ↔
        path = "" ∨ store.get? path = none) ∧
      (((MetaCall.remove path).run store).1 = .ok none ↔ ¬ (path = "" ∨ store.get? path = none))) ∧
    ∀ (call : MetaCall) (e : Failure), (call.run store).1 = .error e →
      Untouched store (call.run store).2 ∧ Unchanged store (call.run store).2 store.root := by
  refine ⟨fun given hgiven => ⟨exists_coerce_iff hgiven, fun e s => stops_of_coerce hgiven⟩,
    fun path given => ⟨fun v s hcoerce => ?_, fun e s hcoerce => ?_⟩, fun path => ⟨?_, ?_⟩, fun call e hstop => ?_⟩
  · have hsame := (stocked_coerce given store).untouched
    rw [hcoerce] at hsame
    have hparent := h.parent_eq hsame path
    rw [MetaCall.run_replace hcoerce, MetaCall.run_merge hcoerce]
    exact ⟨places_of_edit hparent fun e => Iff.rfl, places_of_edit hparent fun e => merge_eq_error_iff⟩
  · obtain ⟨hreplace, hmerge⟩ := MetaCall.run_of_coerce_error hcoerce path
    rw [hreplace, hmerge]
    exact ⟨rfl, rfl⟩
  · refine ⟨_, by rw [MetaCall.run_delete], ?_, fun v hv => ?_⟩
    · rw [delete_fst]
      by_cases hpath : path = "" <;> simp [hpath]
    · rw [delete_fst] at hv
      by_cases hpath : path = ""
      · rw [if_pos hpath] at hv
        cases hv
      · rwa [if_neg hpath] at hv
  · rw [MetaCall.run_remove]
    obtain ⟨hnone, hremove⟩ | ⟨hsome, s', hremove⟩ := remove_cases store path
    · rw [hremove]
      exact ⟨iff_of_true rfl hnone, iff_of_false nofun (not_not_intro hnone)⟩
    · rw [hremove]
      exact ⟨iff_of_false nofun hsome, iff_of_true rfl hsome⟩
  · have hsame := untouched_of_error hstop
    exact ⟨hsame, h.unchanged hsame.cells h.root_lt⟩

/-- The metadata of a report. -/
def report : Store :=
  ofEntries [("title", .string "Report"), ("author", .map [("name", .string "Ada")])]

/-- A text is no map to put something into, and the root cannot become a truth value; the metadata stays as it was.  A
new entry of the author is put in, but not a number of more than 4300 digits, though there is a map for it. -/
theorem calls_exact_report : report.Sound ∧
    (∃ e, ((MetaCall.merge "title.short" (.plain (.bool true))).run report).1 = .error e ∧
      e.notFound? = some "title.short" ∧
      Unchanged report ((MetaCall.merge "title.short" (.plain (.bool true))).run report).2 report.root) ∧
    (∃ tag, ((MetaCall.replace "" (.plain (.bool true))).run report).1 = .error (.store (.rootNotMap tag))) ∧
    ((MetaCall.replace "author.mail" (.plain (.bool true))).run report).1 = .ok none ∧
    ((MetaCall.replace "author.mail" (.plain (.int MetaValue.hexadecimal))).run report).1 =
      .error (.codec (.fault (.value .longNumber))) := by
  have hsound : report.Sound := sound_ofEntries _
  obtain ⟨hreads, hputs, -, hatomic⟩ := calls_exact hsound
  obtain ⟨v, s, hcoerce, hvalue⟩ : ∃ v s, (Editing.coerce (.plain (.bool true))).run report = (.ok v, s) ∧
      s.map? v = none := ⟨_, _, rfl, rfl⟩
  have hlong : ∀ n : Int, isLong n = true →
      ((MetaCall.replace "author.mail" (.plain (.int n))).run report).1 =
        .error (.codec (.fault (.value .longNumber))) := by
    intro n hn
    obtain ⟨hread, hstop⟩ := hreads (.plain (.int n)) nofun
    cases hrun : (Editing.coerce (.plain (.int n))).run report with
    | mk result s =>
      cases result with
      | ok v => exact absurd (.long hn) (hread.mp ⟨v, s, hrun⟩ _ rfl _ _ .here)
      | error e =>
        obtain ⟨value, part, fault, ⟨⟩, hinside, hstops, rfl⟩ := hstop e s hrun
        cases hinside
        cases hstops
        exact ((hputs _ _).2 _ _ hrun).1
  refine ⟨hsound, ?_, ?_, ?_, hlong _ MetaValue.isLong_hexadecimal⟩
  · have hblocked : report.Blocked "title.short" := ⟨["title"], by decide, by decide, by rfl⟩
    obtain ⟨e, hstop, hnames⟩ := ((hputs _ _).1 v s hcoerce).2.notFound.mpr hblocked
    exact ⟨e, hstop, hnames, (hatomic _ e hstop).2⟩
  · exact ((hputs _ _).1 v s hcoerce).1.rootNotMap.mpr ⟨rfl, by rw [hvalue]; rfl⟩
  · refine ((hputs _ _).1 v s hcoerce).1.done.mpr ⟨fun h => ?_, fun h => absurd h.1 (by decide)⟩
    obtain ⟨e, he⟩ := blocked_iff.mp h
    cases he

end Store

end DocFilter
