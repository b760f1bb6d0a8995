import DocFilter.Proofs.Metadata.Paths
import DocFilter.Proofs.Number.Shortest
import Mathlib.Data.List.Find

/-!
# Keys that are one

The keys of a metadata map are texts, or constants and numbers of which equal ones are one key.  Writing entries over
others therefore goes by the value of a key, and not by its form.

* `MetaKey.value` is the value of a key, and `MetaKey.same_iff` says that keys of the same value are one.
* `Keyed.override` is an association after another one was written over it: its entries in their order, with the
  values of the other one, and then the entries of the other one that are new.  `Keyed.update_eq_override` says that
  this is what is written.
* `Keyed.find?_override`, `Keyed.override_override` and `Keyed.override_self` are its laws.
-/

namespace DocFilter

/-! ## Equal numbers -/

namespace Double

variable {m m' : Nat} {e e' : Int} {negative negative' : Bool}

/-- The number that a finite one is. -/
def signed (negative : Bool) (m : Nat) (e : Int) : ℚ := (if negative then -1 else 1) * (m * 2 ^ e)

theorem signedRatio_eq (negative : Bool) (m : Nat) (e : Int) :
    ((signedRatio negative m e).1 : ℚ) / (signedRatio negative m e).2 = signed negative m e := by
  rw [signed, ← ratio_eq]
  cases negative <;> simp [signedRatio, neg_div]

theorem pos_signedRatio (negative : Bool) (m : Nat) (e : Int) : 0 < (signedRatio negative m e).2 := by
  show 0 < (ratio m e).2
  rw [ratio]
  split
  · exact Nat.one_pos
  · exact Nat.two_pow_pos _

/-- A number is a whole one if its ratio is. -/
theorem sameInt_iff (i : Int) : (finite negative m e).sameInt i = true ↔ signed negative m e = i := by
  have hpos : (0 : ℚ) < (signedRatio negative m e).2 := by exact_mod_cast pos_signedRatio negative m e
  rw [← signedRatio_eq, div_eq_iff hpos.ne', sameInt, beq_iff_eq]
  exact_mod_cast Iff.rfl

/-- Two numbers in their one form are equal only if they are written alike. -/
theorem eq_of_magnitude (hm : 0 < m) (h : (finite negative m e).Canonical) (h' : (finite negative m' e').Canonical)
    (heq : (m : ℚ) * 2 ^ e = m' * 2 ^ e') : m = m' ∧ e = e' := by
  obtain ⟨hn, hd⟩ := pos_ratio (e := e) hm
  have hnear : ∀ {k : Nat} {f : Int}, (finite negative k f).Canonical → (m : ℚ) * 2 ^ e = k * 2 ^ f →
      ofRatio negative (ratio m e).1 (ratio m e).2 = finite negative k f := by
    intro k f hk hvalue
    have hpow := two_zpow_pos f
    refine ofRatio_of_near hn hd hk ?_ fun _ => ?_
    · rw [ratio_eq, hvalue, sub_self, abs_zero]
      linarith
    · rw [ratio_eq, hvalue, sub_self]
      linarith
  obtain ⟨-, rfl, rfl⟩ := Double.finite.inj ((hnear h rfl).symm.trans (hnear h' heq))
  exact ⟨rfl, rfl⟩

theorem same_iff (h : (finite negative m e).Canonical) (h' : (finite negative' m' e').Canonical) :
    (finite negative m e).same (finite negative' m' e') = true ↔ signed negative m e = signed negative' m' e' := by
  have hzero : ∀ {n : Bool} {k : Nat} {f : Int}, signed n k f = 0 ↔ k = 0 := by
    intro n k f
    have hpow := (two_zpow_pos f).ne'
    cases n <;> simp [signed, hpow]
  have hpow := two_zpow_pos e
  have hpow' := two_zpow_pos e'
  simp only [same, Bool.or_eq_true, Bool.and_eq_true, decide_eq_true_eq]
  constructor
  · rintro (⟨hm, hm'⟩ | ⟨⟨rfl, rfl⟩, rfl⟩)
    · rw [hzero.mpr hm, hzero.mpr hm']
    · rfl
  · intro heq
    by_cases hm : m = 0
    · exact .inl ⟨hm, hzero.mp (heq.symm.trans (hzero.mpr hm))⟩
    have hm' : m' ≠ 0 := fun hm' => hm (hzero.mp (heq.trans (hzero.mpr hm')))
    have hpos : (0 : ℚ) < m * 2 ^ e := mul_pos (by exact_mod_cast Nat.pos_of_ne_zero hm) hpow
    have hpos' : (0 : ℚ) < m' * 2 ^ e' := mul_pos (by exact_mod_cast Nat.pos_of_ne_zero hm') hpow'
    have hsign : negative = negative' ∧ (m : ℚ) * 2 ^ e = m' * 2 ^ e' := by
      cases negative <;> cases negative' <;> simp [signed] at heq ⊢ <;> linarith
    obtain ⟨rfl, hvalue⟩ := hsign
    obtain ⟨rfl, rfl⟩ := eq_of_magnitude (Nat.pos_of_ne_zero hm) h h' hvalue
    exact .inr ⟨⟨rfl, rfl⟩, rfl⟩

end Double

/-! ## Equal keys -/

/-- What a key stands for. -/
inductive KeyValue where
  | text (s : String)
  | nothing
  | number (q : ℚ)
  | infinite (negative : Bool)
  | nan

namespace Double

variable {x y : Double}

/-- What a number stands for as a key. -/
def keyValue : Double → KeyValue
  | .nan => .nan
  | .infinite negative => .infinite negative
  | .finite negative m e => .number (signed negative m e)

theorem same_iff_keyValue (hx : x.Canonical) (hy : y.Canonical) : x.same y = true ↔ x.keyValue = y.keyValue := by
  cases x with
  | nan => cases y <;> simp [same, keyValue]
  | infinite negative => cases y <;> simp [same, keyValue]
  | finite negative m e =>
    cases y with
    | nan => simp [same, keyValue]
    | infinite negative' => simp [same, keyValue]
    | finite negative' m' e' => rw [same_iff hx hy, keyValue, keyValue, KeyValue.number.injEq]

theorem sameInt_iff_keyValue (x : Double) (i : Int) : x.sameInt i = true ↔ x.keyValue = .number i := by
  cases x with
  | nan => simp [sameInt, keyValue]
  | infinite negative => simp [sameInt, keyValue]
  | finite negative m e => rw [sameInt_iff, keyValue, KeyValue.number.injEq]

end Double

namespace MetaKey

variable {k l : MetaKey}

/-- What a key stands for; the constants stand for one and zero. -/
def value : MetaKey → KeyValue
  | text s => .text s
  | simple (.bool b) => .number ((if b then 1 else 0 : Int) : ℚ)
  | simple (.int n) => .number n
  | simple (.float d) => d.keyValue
  | simple _ => .nothing

/-- A key is a text, a constant or a number in its one form. -/
def Proper : MetaKey → Prop
  | text _ | simple .null | simple (.bool _) | simple (.int _) => True
  | simple (.float d) => d.Canonical
  | simple _ => False

/-- The kinds of keys. -/
theorem Proper.cases (h : k.Proper) : (∃ s, k = text s) ∨ k = simple .null ∨
    (∃ v i, k = simple v ∧ v.asInt? = some i) ∨ ∃ d, k = simple (.float d) ∧ d.Canonical := by
  cases k with
  | text s => exact .inl ⟨s, rfl⟩
  | simple v =>
    cases v with
    | null => exact .inr (.inl rfl)
    | bool b => exact .inr (.inr (.inl ⟨_, _, rfl, rfl⟩))
    | int n => exact .inr (.inr (.inl ⟨_, _, rfl, rfl⟩))
    | float d => exact .inr (.inr (.inr ⟨d, rfl, h⟩))
    | str s => cases h
    | arr items => cases h
    | obj entries => cases h

section Whole

variable {v w : Json} {i j : Int}

theorem value_whole (hv : v.asInt? = some i) : (simple v).value = .number i := by
  cases v <;> simp_all [value, Json.asInt?]

theorem same_whole (hv : v.asInt? = some i) (hw : w.asInt? = some j) :
    (simple v).same (simple w) = (i == j) := by
  cases v <;> cases w <;> simp_all [same, Json.same, Json.sameNumber?, Json.asInt?]

theorem same_null_whole (hv : v.asInt? = some i) :
    (simple .null).same (simple v) = false ∧ (simple v).same (simple .null) = false := by
  cases v <;> simp_all [same, Json.same, Json.sameNumber?, Json.asInt?]

theorem same_float_whole (hv : v.asInt? = some i) (d : Double) :
    (simple (.float d)).same (simple v) = d.sameInt i ∧ (simple v).same (simple (.float d)) = d.sameInt i := by
  cases v <;> simp_all [same, Json.same, Json.sameNumber?, Json.asInt?]

end Whole

theorem same_float (d d' : Double) : (simple (.float d)).same (simple (.float d')) = d.same d' := by
  simp [same, Json.same, Json.sameNumber?]

theorem same_null_float (d : Double) :
    (simple .null).same (simple (.float d)) = false ∧ (simple (.float d)).same (simple .null) = false := by
  simp [same, Json.same, Json.sameNumber?, Json.asInt?]

@[simp] theorem value_float (d : Double) : (simple (.float d)).value = d.keyValue := rfl

@[simp] theorem value_text (s : String) : (text s).value = .text s := rfl

@[simp] theorem value_null : (simple .null).value = .nothing := rfl

/-- Keys are one exactly if they stand for the same. -/
theorem same_iff (hk : k.Proper) (hl : l.Proper) : k.same l = true ↔ k.value = l.value := by
  have htext : ∀ (d : Double) (s : String), d.keyValue ≠ .text s := by
    intro d s
    cases d <;> simp [Double.keyValue]
  have hnothing : ∀ d : Double, d.keyValue ≠ .nothing := by
    intro d
    cases d <;> simp [Double.keyValue]
  obtain ⟨s, rfl⟩ | rfl | ⟨v, i, rfl, hv⟩ | ⟨d, rfl, hd⟩ := hk.cases
  · obtain ⟨t, rfl⟩ | rfl | ⟨w, j, rfl, hw⟩ | ⟨d', rfl, hd'⟩ := hl.cases
    · simp [same]
    · simp [same]
    · simp [same, value_whole hw]
    · simp [same, (htext d' s).symm]
  · obtain ⟨t, rfl⟩ | rfl | ⟨w, j, rfl, hw⟩ | ⟨d', rfl, hd'⟩ := hl.cases
    · simp [same]
    · simp [same, Json.same]
    · simp [(same_null_whole hw).1, value_whole hw]
    · simp [(same_null_float d').1, (hnothing d').symm]
  · obtain ⟨t, rfl⟩ | rfl | ⟨w, j, rfl, hw⟩ | ⟨d', rfl, hd'⟩ := hl.cases
    · simp [same, value_whole hv]
    · simp [(same_null_whole hv).2, value_whole hv]
    · simp [same_whole hv hw, value_whole hv, value_whole hw]
    · rw [(same_float_whole hv d').2, Double.sameInt_iff_keyValue, value_whole hv, value_float, eq_comm]
  · obtain ⟨t, rfl⟩ | rfl | ⟨w, j, rfl, hw⟩ | ⟨d', rfl, hd'⟩ := hl.cases
    · simp [same, htext d t]
    · simp [(same_null_float d).2, hnothing d]
    · rw [(same_float_whole hw d).1, Double.sameInt_iff_keyValue, value_whole hw, value_float]
    · rw [same_float, Double.same_iff_keyValue hd hd', value_float, value_float]

theorem same_self (hk : k.Proper) : k.same k = true := (same_iff hk hk).mpr rfl

theorem same_comm (hk : k.Proper) (hl : l.Proper) : k.same l = l.same k := by
  rw [Bool.eq_iff_iff, same_iff hk hl, same_iff hl hk, eq_comm]

/-- A key is the same as one of two that are one if it is the same as the other. -/
theorem same_congr {m : MetaKey} (hk : k.Proper) (hl : l.Proper) (hm : m.Proper) (h : k.same l = true) :
    m.same k = m.same l := by
  have hvalue := (same_iff hk hl).mp h
  rw [Bool.eq_iff_iff, same_iff hm hk, same_iff hm hl, hvalue]

end MetaKey

/-! ## Writing over entries -/

namespace Keyed

variable {α : Type} {key key' : MetaKey} {value : α} {entries old new newer : Keyed α} {entry : MetaKey × α}

/-- The entries under proper keys, each key once. -/
structure Distinct (entries : Keyed α) : Prop where
  proper : ∀ entry ∈ entries, entry.1.Proper
  once : entries.Pairwise fun entry other => entry.1.same other.1 = false

/-- Distinct texts are distinct keys. -/
theorem distinct_of_texts (keys : List String) (h : List.map (·.1) entries = keys.map MetaKey.text)
    (hkeys : keys.Nodup) : Distinct entries where
  proper := by
    intro entry hentry
    have hkey : entry.1 ∈ keys.map MetaKey.text := h ▸ List.mem_map_of_mem hentry
    obtain ⟨s, -, heq⟩ := List.mem_map.mp hkey
    exact heq ▸ (trivial : (MetaKey.text s).Proper)
  once := by
    have honce : (keys.map MetaKey.text).Pairwise fun k l => k.same l = false :=
      List.pairwise_map.mpr (hkeys.imp fun hne => beq_eq_false_iff_ne.mpr hne)
    rw [← h] at honce
    exact List.pairwise_map.mp honce

/-- Entries in their order, with the values that others have under their keys. -/
def revalued (old new : Keyed α) : Keyed α :=
  List.map (fun entry => (entry.1, (find? entry.1 new).getD entry.2)) old

/-- The entries of others whose keys are new, in their order. -/
def added (old new : Keyed α) : Keyed α := List.filter (fun entry => (find? entry.1 old).isNone) new

/-- The entries after others were written over them. -/
def override (old new : Keyed α) : Keyed α := revalued old new ++ added old new

theorem added_append (old new more : Keyed α) : added old (new ++ more) = added old new ++ added old more :=
  List.filter_append new more

/-! ### Finding -/

theorem find?_congr (hentries : ∀ entry ∈ entries, entry.1.Proper) (hkey : key.Proper) (hkey' : key'.Proper)
    (h : key.same key' = true) : find? key entries = find? key' entries := by
  induction entries with
  | nil => rfl
  | cons entry entries ih =>
    obtain ⟨hentry, hentries⟩ := List.forall_mem_cons.mp hentries
    have hsame := MetaKey.same_congr hkey hkey' hentry h
    rw [find?, find?, List.find?_cons, List.find?_cons, hsame]
    cases entry.1.same key' with
    | true => rfl
    | false => exact ih hentries

theorem find?_append (key : MetaKey) (entries more : Keyed α) :
    find? key (entries ++ more) = (find? key entries).or (find? key more) := by
  rw [find?, List.find?_append, Option.map_or]
  rfl

theorem find?_isNone_iff : (find? key entries).isNone = true ↔ ∀ entry ∈ entries, entry.1.same key = false := by
  simp [find?]

theorem find?_map (key : MetaKey) (f : MetaKey × α → α) (entries : Keyed α) :
    find? key (List.map (fun entry => (entry.1, f entry)) entries) =
      (List.find? (·.1.same key) entries).map f := by
  rw [find?, List.find?_map, Option.map_map]
  rfl

theorem map_eq_self {f : MetaKey × α → α} (h : ∀ entry ∈ entries, f entry = entry.2) :
    List.map (fun entry => (entry.1, f entry)) entries = entries := by
  have hid : List.map (fun entry => (entry.1, f entry)) entries = List.map id entries :=
    List.map_congr_left fun entry hentry => by rw [h entry hentry]; rfl
  rw [hid, List.map_id]

theorem exists_of_find? {found : MetaKey × α} (h : List.find? (fun entry => entry.1.same key) entries = some found) :
    found ∈ entries ∧ found.1.same key = true ∧ find? key entries = some found.2 :=
  ⟨List.mem_of_find?_eq_some h, by simpa using List.find?_some h, by rw [find?, h]; rfl⟩

/-- What is under a key after writing: the new value, or else the old one. -/
theorem find?_override (hold : ∀ entry ∈ old, entry.1.Proper) (hnew : ∀ entry ∈ new, entry.1.Proper)
    (hkey : key.Proper) : find? key (override old new) = (find? key new).or (find? key old) := by
  rw [override, find?_append, revalued, find?_map]
  cases hfound : List.find? (fun entry => entry.1.same key) old with
  | some entry =>
    obtain ⟨hentry, hsame, hthere⟩ := exists_of_find? hfound
    rw [Option.map_some, find?_congr hnew (hold entry hentry) hkey hsame, hthere]
    cases find? key new <;> rfl
  | none =>
    have hnone : find? key old = none := by rw [find?, hfound]; rfl
    have hkept : find? key (added old new) = find? key new := by
      rw [find?, added, List.find?_filter, find?]
      congr 1
      refine List.find?_congr fun entry hentry => ?_
      cases hsame : entry.1.same key with
      | false => simp
      | true =>
        rw [find?_congr hold (hnew entry hentry) hkey hsame, hnone]
        rfl
    rw [hkept, hnone, Option.or_none]
    rfl

/-! ### Laws -/

theorem proper_override (hold : ∀ entry ∈ old, entry.1.Proper) (hnew : ∀ entry ∈ new, entry.1.Proper) :
    ∀ entry ∈ override old new, entry.1.Proper := by
  intro entry hentry
  obtain hentry | hentry := List.mem_append.mp hentry
  · obtain ⟨first, hfirst, rfl⟩ := List.mem_map.mp hentry
    exact hold first hfirst
  · exact hnew entry (List.mem_filter.mp hentry).1

/-- Writing over entries twice is writing over them once what the second time writes over the first. -/
theorem override_override (hold : ∀ entry ∈ old, entry.1.Proper) (hnew : ∀ entry ∈ new, entry.1.Proper)
    (hnewer : ∀ entry ∈ newer, entry.1.Proper) :
    override (override old new) newer = override old (override new newer) := by
  have hvalues : revalued (revalued old new) newer = revalued old (override new newer) := by
    rw [revalued, revalued, List.map_map]
    refine List.map_congr_left fun entry hentry => ?_
    rw [find?_override hnew hnewer (hold entry hentry)]
    dsimp only [Function.comp]
    cases find? entry.1 newer <;> rfl
  have hadded : revalued (added old new) newer = added old (revalued new newer) := by
    rw [added, added, revalued, revalued, List.filter_map]
    rfl
  have hlast : added (override old new) newer = added old (added new newer) := by
    rw [added, added, added, List.filter_filter]
    refine List.filter_congr fun entry hentry => ?_
    rw [find?_override hold hnew (hnewer entry hentry)]
    cases find? entry.1 new <;> cases find? entry.1 old <;> rfl
  calc override (override old new) newer
      = revalued (revalued old new) newer ++ revalued (added old new) newer ++ added (override old new) newer := by
        rw [override, override, revalued, List.map_append]
        rfl
    _ = revalued old (override new newer) ++ (added old (revalued new newer) ++ added old (added new newer)) := by
        rw [hvalues, hadded, hlast, List.append_assoc]
    _ = override old (override new newer) := by
        rw [← added_append]
        rfl

theorem Distinct.find?_of_mem (h : Distinct entries) (hentry : entry ∈ entries) :
    find? entry.1 entries = some entry.2 := by
  obtain ⟨hproper, honce⟩ := h
  induction entries with
  | nil => cases hentry
  | cons first entries ih =>
    obtain ⟨hfirst, hrest⟩ := List.pairwise_cons.mp honce
    rw [find?, List.find?_cons]
    obtain rfl | hentry := List.mem_cons.mp hentry
    · rw [MetaKey.same_self (hproper entry List.mem_cons_self)]
      rfl
    · rw [hfirst entry hentry]
      exact ih hentry (fun other hother => hproper other (List.mem_cons_of_mem _ hother)) hrest

theorem Distinct.override (hold : Distinct old) (hnew : Distinct new) : Distinct (override old new) where
  proper := proper_override hold.proper hnew.proper
  once := by
    refine List.pairwise_append.mpr ⟨List.pairwise_map.mpr hold.once, hnew.once.filter _, ?_⟩
    intro entry hentry other hother
    obtain ⟨first, hfirst, rfl⟩ := List.mem_map.mp hentry
    exact find?_isNone_iff.mp (List.mem_filter.mp hother).2 first hfirst

/-- What stands in entries that others were written over stood in one of the two. -/
theorem mem_of_mem_override (h : entry ∈ Keyed.override old new) :
    (∃ first ∈ old, first.2 = entry.2) ∨ ∃ first ∈ new, first.2 = entry.2 := by
  obtain h | h := List.mem_append.mp h
  · obtain ⟨first, hfirst, rfl⟩ := List.mem_map.mp h
    cases hfind : find? first.1 new with
    | none => exact .inl ⟨first, hfirst, rfl⟩
    | some value =>
      obtain ⟨found, hfound, rfl⟩ := Option.map_eq_some_iff.mp hfind
      exact .inr ⟨found, List.mem_of_find?_eq_some hfound, rfl⟩
  · exact .inr ⟨entry, (List.mem_filter.mp h).1, rfl⟩

/-- Writing entries over themselves changes nothing. -/
theorem override_self (h : Distinct entries) : override entries entries = entries := by
  have hvalues : revalued entries entries = entries :=
    map_eq_self fun entry hentry => by rw [h.find?_of_mem hentry]; rfl
  have hnone : added entries entries = [] :=
    List.filter_eq_nil_iff.mpr fun entry hentry => by rw [h.find?_of_mem hentry]; simp
  rw [override, hvalues, hnone, List.append_nil]

/-! ### What is written -/

theorem put_of_isNone (h : (find? key entries).isNone = true) : put key value entries = entries ++ [(key, value)] := by
  rw [find?_isNone_iff] at h
  induction entries with
  | nil => rfl
  | cons entry entries ih =>
    obtain ⟨hentry, hentries⟩ := List.forall_mem_cons.mp h
    rw [put, if_neg (by simp [hentry]), ih hentries]
    rfl

/-- Writing under a key that is there changes the value of its entry. -/
theorem put_append (h : (find? key entries).isSome = true) (more : Keyed α) :
    put key value (entries ++ more) = put key value entries ++ more := by
  induction entries with
  | nil => cases h
  | cons entry entries ih =>
    rw [List.cons_append, put, put]
    split
    · rfl
    · rename_i hne
      rw [find?, List.find?_cons, Bool.eq_false_iff.mpr hne] at h
      rw [ih h]
      rfl

theorem put_eq_map (honce : entries.Pairwise fun entry other => entry.1.same other.1 = false)
    (hproper : ∀ entry ∈ entries, entry.1.Proper) (hkey : key.Proper) (h : (find? key entries).isSome = true) :
    put key value entries =
      List.map (fun entry => (entry.1, if entry.1.same key then value else entry.2)) entries := by
  induction entries with
  | nil => cases h
  | cons entry entries ih =>
    obtain ⟨hfirst, honce⟩ := List.pairwise_cons.mp honce
    obtain ⟨hentry, hproper⟩ := List.forall_mem_cons.mp hproper
    rw [put, List.map_cons]
    cases hsame : entry.1.same key with
    | true =>
      have hrest :
          List.map (fun entry => (entry.1, if entry.1.same key then value else entry.2)) entries = entries := by
        refine map_eq_self fun other hother => ?_
        have hproper := hproper other hother
        rw [← MetaKey.same_congr hentry hkey hproper hsame, MetaKey.same_comm hproper hentry, hfirst other hother]
        rfl
      rw [hrest]
      rfl
    | false =>
      rw [find?, List.find?_cons, hsame] at h
      rw [if_neg Bool.false_ne_true, if_neg Bool.false_ne_true, ih honce hproper h]

theorem find?_singleton (key : MetaKey) (entry : MetaKey × α) :
    find? key [entry] = if entry.1.same key then some entry.2 else none := by
  rw [find?, List.find?_cons]
  cases entry.1.same key <;> rfl

/-- Writing one more entry over entries, under a key that was not yet written. -/
theorem put_override (hold : Distinct old) (hnew : ∀ entry ∈ new, entry.1.Proper) (hkey : key.Proper)
    (hfresh : find? key new = none) : put key value (override old new) = override old (new ++ [(key, value)]) := by
  have hvalue : ∀ entry ∈ old, (find? entry.1 (new ++ [(key, value)])).getD entry.2 =
      if entry.1.same key then value else (find? entry.1 new).getD entry.2 := by
    intro entry hentry
    have hproper := hold.proper entry hentry
    rw [find?_append, find?_singleton, MetaKey.same_comm hkey hproper]
    cases hsame : entry.1.same key with
    | false => simp
    | true => simp [find?_congr hnew hproper hkey hsame, hfresh]
  have hright : override old (new ++ [(key, value)]) =
      revalued old (new ++ [(key, value)]) ++ (added old new ++ added old [(key, value)]) := by
    rw [override, added_append]
  rw [hright]
  cases hthere : find? key old with
  | none =>
    have habsent : ∀ entry ∈ old, entry.1.same key = false := find?_isNone_iff.mp (by rw [hthere]; rfl)
    have hvalues : revalued old (new ++ [(key, value)]) = revalued old new :=
      List.map_congr_left fun entry hentry => by rw [hvalue entry hentry, habsent entry hentry]; rfl
    have hadded : added old [(key, value)] = [(key, value)] := by simp [added, hthere]
    have hnone : find? key (override old new) = none := by
      rw [find?_override hold.proper hnew hkey, hfresh, hthere]
      rfl
    rw [put_of_isNone (by rw [hnone]; rfl), override, hvalues, hadded, List.append_assoc]
  | some found =>
    have hadded : added old [(key, value)] = [] := by simp [added, hthere]
    have hpresent : (find? key (revalued old new)).isSome = true := by
      rw [find?, Option.map_eq_some_iff] at hthere
      obtain ⟨entry, hentry, -⟩ := hthere
      rw [revalued, find?_map, hentry]
      rfl
    have honce : (revalued old new).Pairwise fun entry other => entry.1.same other.1 = false :=
      List.pairwise_map.mpr hold.once
    have hproper : ∀ entry ∈ revalued old new, entry.1.Proper := List.forall_mem_map.mpr hold.proper
    have hvalues : put key value (revalued old new) = revalued old (new ++ [(key, value)]) := by
      rw [put_eq_map honce hproper hkey hpresent, revalued, revalued, List.map_map]
      exact List.map_congr_left fun entry hentry => by rw [hvalue entry hentry]; rfl
    rw [override, put_append hpresent, hvalues, hadded, List.append_nil]

/-- Writing entries one after the other comes to the old entries with the new values, and the new entries. -/
theorem update_eq_override (hold : Distinct old) (hnew : Distinct new) : update old new = override old new := by
  induction new using List.reverseRecOn with
  | nil =>
    have hvalues : revalued old [] = old := map_eq_self fun _ _ => rfl
    rw [override, hvalues]
    exact (List.append_nil old).symm
  | append_singleton new entry ih =>
    obtain ⟨hproper, hlast⟩ := List.forall_mem_append.mp hnew.proper
    obtain ⟨honce, -, hother⟩ := List.pairwise_append.mp hnew.once
    have hfresh : find? entry.1 new = none := by
      rw [← Option.isNone_iff_eq_none, find?_isNone_iff]
      exact fun other hmem => hother other hmem entry List.mem_cons_self
    have hwritten : update old (new ++ [entry]) = put entry.1 entry.2 (update old new) := by
      rw [update, List.foldl_append]
      rfl
    rw [hwritten, ih ⟨hproper, honce⟩]
    exact put_override hold hproper (hlast entry List.mem_cons_self) hfresh

end Keyed

end DocFilter
