import DocFilter.Proofs.Json.Numbers
import DocFilter.Proofs.Json.Strings

/-!
# Reading written JSON

Data that a text can denote is read back from its text, in every layout whose separators and indentation are
white space around one comma or colon.

The writer puts each value in front of a text that is written already, and the reader hands on the text that
remains; the two meet at `Json.ReadsBack`, which speaks of any text that may come after a value.  The length
of what is written bounds the fuel.

* `Json.Legible` is the data that a text can denote.
* `Json.Style.Regular` are the layouts.
* `Json.readItems_write` and `Json.readMembers_write` go through the items of an array and the members of an
  object, given that each value reads back.
* `Json.Legible.readsBack` is the induction over the data, `Json.parse_text` the result.
-/

namespace DocFilter

/-! ## Associations -/

namespace Entries

variable {α : Type} {key : String} {value : α} {entries writes : Entries α} {entry : String × α}

theorem put_of_not_mem (h : key ∉ entries.keys) : entries.put key value = entries ++ [(key, value)] := by
  induction entries with
  | nil => rfl
  | cons first entries ih =>
    obtain ⟨hne, hrest⟩ : first.1 ≠ key ∧ key ∉ keys entries := by simpa [keys, eq_comm] using h
    rw [put, if_neg (by simpa using hne), ih hrest, List.cons_append]

theorem keys_put_of_mem (h : key ∈ entries.keys) : (entries.put key value).keys = entries.keys := by
  induction entries with
  | nil => cases h
  | cons first entries ih =>
    rw [put]
    split
    · rfl
    · rename_i hne
      have hrest : key ∈ Entries.keys entries :=
        (List.mem_cons.mp h).resolve_left fun heq => hne (by simp [heq])
      simpa [keys] using ih hrest

theorem mem_of_mem_put (h : entry ∈ entries.put key value) : entry ∈ entries ∨ entry.2 = value := by
  induction entries with
  | nil => exact .inr (by rw [List.mem_singleton.mp h])
  | cons first entries ih =>
    rw [put] at h
    split at h
    · rcases List.mem_cons.mp h with rfl | h
      · exact .inr rfl
      · exact .inl (List.mem_cons_of_mem _ h)
    · rcases List.mem_cons.mp h with rfl | h
      · exact .inl List.mem_cons_self
      · exact (ih h).imp (List.mem_cons_of_mem _) id

theorem nodup_keys_put (h : entries.keys.Nodup) : (entries.put key value).keys.Nodup := by
  by_cases hmem : key ∈ entries.keys
  · rwa [keys_put_of_mem hmem]
  · rw [put_of_not_mem hmem, keys, List.map_append, List.map_singleton]
    exact h.append (List.nodup_singleton _) (by simpa using hmem)

/-- Writes under distinct keys leave the association that they are. -/
theorem ofWrites_of_nodup (h : (keys writes).Nodup) : ofWrites writes = writes := by
  have hafter : ∀ (rest done : Entries α), (keys (done ++ rest)).Nodup → update done rest = done ++ rest := by
    intro rest
    induction rest with
    | nil => exact fun done _ => (List.append_nil done).symm
    | cons entry rest ih =>
      intro done hnodup
      have hnew : entry.1 ∉ keys done := by
        rw [keys, List.map_append, List.map_cons] at hnodup
        exact fun hmem => (List.disjoint_of_nodup_append hnodup) hmem List.mem_cons_self
      rw [List.append_cons] at hnodup
      rw [update, List.foldl_cons, put_of_not_mem hnew]
      exact (ih _ hnodup).trans (List.append_cons done entry rest).symm
  exact hafter writes [] h

end Entries

namespace Json

/-! ## Data and layouts -/

/-- Data that a text can denote: no object has a key twice, no whole number is too long to be read, and
fractional numbers have their one form. -/
inductive Legible : Json → Prop
  | null : Legible .null
  | bool (b) : Legible (.bool b)
  | int {n} (short : ¬ isLong n) : Legible (.int n)
  | float {d : Double} (canonical : d.Canonical) : Legible (.float d)
  | str (s) : Legible (.str s)
  | arr {items} (below : ∀ item ∈ items, Legible item) : Legible (.arr items)
  | obj {entries : List (String × Json)} (keys : (entries.map (·.1)).Nodup)
      (below : ∀ entry ∈ entries, Legible entry.2) : Legible (.obj entries)

/-- White space. -/
def Blank (cs : List Char) : Prop := ∀ c ∈ cs, isSpace c

/-- A layout that puts nothing but white space around its commas and colons and in front of its lines. -/
structure Style.Regular (style : Style) : Prop where
  item : ∃ blank, style.itemSeparator.toList = ',' :: blank ∧ Blank blank
  key : ∃ blank, style.keySeparator.toList = ':' :: blank ∧ Blank blank
  indent : ∀ unit ∈ style.indent, Blank unit.toList

variable {style : Style} {c : Char} {cs rest after space : List Char} {j item : Json} {items : List Json}
  {entries : List (String × Json)} {key : String} {fuel depth : Nat}

theorem Style.Regular.newline (h : style.Regular) (depth : Nat) : Blank (style.newline depth) := by
  rw [Style.newline]
  split
  · exact fun c hc => by cases hc
  · rename_i unit hunit
    intro c hc
    rcases List.mem_cons.mp hc with rfl | hc
    · rfl
    · obtain ⟨line, hline, hc⟩ := List.mem_flatten.mp hc
      rw [List.eq_of_mem_replicate hline] at hc
      exact h.indent unit hunit c hc

/-! ## White space -/

theorem skipSpace_blank (hspace : Blank space) (hc : isSpace c = false) :
    skipSpace (space ++ c :: rest) = c :: rest := by
  rw [skipSpace, List.dropWhile_append_of_pos hspace, List.dropWhile_cons_of_neg (by simp [hc])]

theorem skipSpace_of_not (hc : isSpace c = false) : skipSpace (c :: rest) = c :: rest :=
  List.dropWhile_cons_of_neg (by simp [hc])

/-- What may stand after a value: the end of the text, white space, a comma or the end of an array or an
object. -/
def Ends (cs : List Char) : Prop := ∀ c ∈ cs.head?, isSpace c ∨ c = ',' ∨ c = ']' ∨ c = '}'

theorem Ends.delimited (h : Ends cs) : Delimited cs := by
  have hnot : ∀ d : Char, isSpace d ∨ d = ',' ∨ d = ']' ∨ d = '}' →
      ¬ IsDigit d ∧ d ≠ '.' ∧ d ≠ 'e' ∧ d ≠ 'E' := by
    intro d hd
    have hd : d = ' ' ∨ d = '\t' ∨ d = '\n' ∨ d = '\r' ∨ d = ',' ∨ d = ']' ∨ d = '}' := by
      simpa [isSpace, or_assoc] using hd
    rcases hd with rfl | rfl | rfl | rfl | rfl | rfl | rfl <;> decide
  exact fun c hc => hnot c (h c hc)

theorem Ends.after_space (hspace : Blank space) (h : Ends cs) : Ends (space ++ cs) := by
  cases space with
  | nil => exact h
  | cons c space =>
    intro d hd
    cases hd
    exact .inl (hspace c (by simp))

theorem ends_close (h : c = ',' ∨ c = ']' ∨ c = '}') : Ends (c :: rest) := fun d hd => by
  cases hd
  exact .inr h

/-! ## Written text -/

theorem length_stringText (ascii : Bool) (s : String) :
    s.toList.length + 2 ≤ (stringText ascii s).length := by
  have hall : ∀ cs : List Char, cs.length ≤ (cs.flatMap (stringChar ascii)).length := by
    intro cs
    induction cs with
    | nil => exact Nat.le_refl _
    | cons c cs ih =>
      have hc := length_stringChar_pos ascii c
      rw [List.flatMap_cons, List.length_append, List.length_cons]
      omega
  have h := hall s.toList
  rw [stringText, List.length_append, List.length_cons, List.length_singleton]
  omega

theorem layoutDigits_ne_nil (cs : List Char) (point : Int) : Double.layoutDigits cs point ≠ [] := by
  rw [Double.layoutDigits]
  split
  · rcases cs with _ | ⟨digit, _ | ⟨second, cs⟩⟩ <;> exact List.cons_ne_nil _ _
  · split
    · exact List.cons_ne_nil _ _
    · split <;> simp

theorem floatText_ne_nil (d : Double) : (floatText d).toList ≠ [] := by
  match d with
  | .nan | .infinite false | .infinite true => decide
  | .finite negative m e =>
    rw [toList_floatText_finite, signed]
    split
    · exact List.cons_ne_nil _ _
    · split
      · exact List.cons_ne_nil _ _
      · exact layoutDigits_ne_nil _ _

mutual

/-- A value is written as one character at least. -/
theorem length_write (style : Style) (depth : Nat) :
    ∀ (j : Json) (after : List Char), after.length < (write style depth j after).length
  | .null, after | .bool true, after | .bool false, after => by
    rw [write, List.length_append]
    exact Nat.lt_add_of_pos_left (by decide)
  | .int n, after => by
    obtain ⟨negative, c, cs, htext, -⟩ := numeric_int n
    have hlength : 0 < (toString n).toList.length := by
      rw [htext]
      cases negative <;> exact Nat.succ_pos _
    rw [write, List.length_append]
    omega
  | .float d, after => by
    have hlength := List.length_pos_iff.mpr (floatText_ne_nil d)
    rw [write, List.length_append]
    omega
  | .str s, after => by
    have h := length_stringText style.ascii s
    rw [write, List.length_append]
    omega
  | .arr [], after | .obj [], after => by
    rw [write, List.length_cons, List.length_cons]
    omega
  | .arr (item :: items), after => by
    have hitem := length_write style (depth + 1) item
      (writeItems style (depth + 1) items (style.newline depth ++ ']' :: after))
    have hitems := length_writeItems style (depth + 1) items (style.newline depth ++ ']' :: after)
    simp only [write, List.length_cons, List.length_append] at hitem hitems ⊢
    omega
  | .obj ((key, value) :: entries), after => by
    have hvalue := length_write style (depth + 1) value
      (writeEntries style (depth + 1) entries (style.newline depth ++ '}' :: after))
    have hentries := length_writeEntries style (depth + 1) entries (style.newline depth ++ '}' :: after)
    simp only [write, List.length_cons, List.length_append] at hvalue hentries ⊢
    omega

theorem length_writeItems (style : Style) (depth : Nat) :
    ∀ (items : List Json) (after : List Char), after.length ≤ (writeItems style depth items after).length
  | [], after => by rw [writeItems]
  | item :: items, after => by
    have hitem := length_write style depth item (writeItems style depth items after)
    have hitems := length_writeItems style depth items after
    simp only [writeItems, List.length_append]
    omega

theorem length_writeEntries (style : Style) (depth : Nat) :
    ∀ (entries : List (String × Json)) (after : List Char),
      after.length ≤ (writeEntries style depth entries after).length
  | [], after => by rw [writeEntries]
  | (key, value) :: entries, after => by
    have hvalue := length_write style depth value (writeEntries style depth entries after)
    have hentries := length_writeEntries style depth entries after
    simp only [writeEntries, List.length_append]
    omega

end

/-- A character that begins a value: neither white space nor the end of an array, nor the mark that a text
must not open with. -/
def Begins (c : Char) : Prop := isSpace c = false ∧ c ≠ ']' ∧ c ≠ Char.ofNat 0xfeff

theorem begins_of_isDigit (h : IsDigit c) : Begins c := by
  have hc := isDigit_iff.mp h
  have hne : ∀ d : Char, d.toNat < 0x30 ∨ 0x39 < d.toNat → c ≠ d := by
    rintro d hd rfl
    omega
  refine ⟨?_, hne ']' (by decide), hne (Char.ofNat 0xfeff) (by decide)⟩
  simp [isSpace, hne ' ' (by decide), hne '\t' (by decide), hne '\n' (by decide), hne '\r' (by decide)]

theorem Numeric.head (h : Numeric cs) : ∃ c tail, cs = c :: tail ∧ Begins c := by
  obtain ⟨negative, c, tail, rfl, hc⟩ := h
  cases negative with
  | true => exact ⟨'-', c :: tail, rfl, rfl, by decide⟩
  | false => exact ⟨c, tail, rfl, begins_of_isDigit hc⟩

theorem Legible.write_head (h : j.Legible) (style : Style) (depth : Nat) (after : List Char) :
    ∃ c cs, write style depth j after = c :: cs ∧ Begins c := by
  cases h with
  | null => exact ⟨'n', _, rfl, rfl, by decide⟩
  | bool b =>
    cases b with
    | true => exact ⟨'t', _, rfl, rfl, by decide⟩
    | false => exact ⟨'f', _, rfl, rfl, by decide⟩
  | @int n _ => exact (numeric_int n).append.head
  | @float d hcanonical =>
    match d with
    | .nan => exact ⟨'N', _, rfl, rfl, by decide⟩
    | .infinite false => exact ⟨'I', _, rfl, rfl, by decide⟩
    | .infinite true => exact ⟨'-', _, rfl, rfl, by decide⟩
    | .finite negative m e => exact (floatText_finite hcanonical).1.append.head
  | str s => exact ⟨'"', _, rfl, rfl, by decide⟩
  | @arr items _ => cases items <;> exact ⟨'[', _, rfl, rfl, by decide⟩
  | @obj entries _ _ => cases entries <;> exact ⟨'\x7b', _, rfl, rfl, by decide⟩

/-! ## Reading back -/

/-- A value begins as a value does, and it is read back from its text, in front of anything that may stand
after a value and with as much fuel as two for each character. -/
structure ReadsBack (style : Style) (j : Json) : Prop where
  head : ∀ depth after, ∃ c cs, write style depth j after = c :: cs ∧ Begins c
  read : ∀ depth after fuel, Ends after →
    2 * (write style depth j after).length ≤ fuel + 2 * after.length →
    readValue fuel (write style depth j after) = .ok (j, after)

theorem Blank.append {spaces : List Char} (h : Blank space) (h' : Blank spaces) : Blank (space ++ spaces) :=
  List.forall_mem_append.mpr ⟨h, h'⟩

/-- Another item comes after a comma and blanks. -/
theorem Style.Regular.writeItems_cons (h : style.Regular) (depth : Nat) (item : Json) (items : List Json)
    (after : List Char) : ∃ blank, Blank blank ∧ writeItems style depth (item :: items) after =
      ',' :: (blank ++ write style depth item (writeItems style depth items after)) := by
  obtain ⟨blank, hseparator, hblank⟩ := h.item
  refine ⟨blank ++ style.newline depth, hblank.append (h.newline depth), ?_⟩
  rw [writeItems, hseparator, List.append_assoc]
  rfl

/-- The items of an array are read back up to its end. -/
theorem readItems_write (hstyle : style.Regular) (h : ∀ i ∈ item :: items, ReadsBack style i)
    (hspace : Blank space)
    (hfuel : 2 * (write style depth item (writeItems style depth items (space ++ ']' :: after))).length ≤
      fuel + 2 * after.length) :
    readItems fuel (write style depth item (writeItems style depth items (space ++ ']' :: after))) =
      .ok (item :: items, after) := by
  have hcomma : isSpace ',' = false := rfl
  have hclose : isSpace ']' = false := rfl
  induction items generalizing item fuel with
  | nil =>
    have hlength := length_write style depth item (space ++ ']' :: after)
    rw [writeItems] at hfuel ⊢
    simp only [List.length_append, List.length_cons] at hlength
    obtain ⟨fuel, rfl⟩ : ∃ k, fuel = k + 1 := ⟨fuel - 1, by omega⟩
    have hread := (h item (by simp)).read depth (space ++ ']' :: after) fuel
      (.after_space hspace (ends_close (.inr (.inl rfl)))) (by
        simp only [List.length_append, List.length_cons]
        omega)
    simp only [readItems, hread, bind, Except.bind, skipSpace_blank hspace hclose]
  | cons second items ih =>
    obtain ⟨blank, hblank, htext⟩ := hstyle.writeItems_cons depth second items (space ++ ']' :: after)
    obtain ⟨line, hline⟩ : ∃ line, write style depth second (writeItems style depth items
        (space ++ ']' :: after)) = line := ⟨_, rfl⟩
    obtain ⟨c, cs, hhead, hc, -⟩ := (h second (by simp)).head depth
      (writeItems style depth items (space ++ ']' :: after))
    have hlength := length_write style depth item (',' :: (blank ++ line))
    have hrest := length_write style depth second (writeItems style depth items (space ++ ']' :: after))
    have hend := length_writeItems style depth items (space ++ ']' :: after)
    rw [hline] at htext hrest hhead
    rw [htext] at hfuel ⊢
    simp only [List.length_append, List.length_cons] at hlength hrest hend
    obtain ⟨fuel, rfl⟩ : ∃ k, fuel = k + 1 := ⟨fuel - 1, by omega⟩
    have hread := (h item (by simp)).read depth (',' :: (blank ++ line)) fuel (ends_close (.inl rfl)) (by
      simp only [List.length_append, List.length_cons]
      omega)
    have hreads := @ih second fuel (fun i hi => h i (List.mem_cons_of_mem _ hi)) (by rw [hline]; omega)
    have hskip : skipSpace (blank ++ line) = line := by
      rw [hhead]
      exact skipSpace_blank hblank hc
    rw [hline] at hreads
    simp only [readItems, hread, bind, Except.bind, skipSpace_of_not hcomma, hskip, hreads]

/-- A text between quotes is read back. -/
theorem readString_text (opening : List Char) (ascii : Bool) (s : String) (rest : List Char)
    (hfuel : s.toList.length < fuel) : ∃ body, stringText ascii s ++ rest = '"' :: body ∧
      readString opening fuel [] body = .ok (s, rest) := by
  refine ⟨s.toList.flatMap (stringChar ascii) ++ '"' :: rest, by simp [stringText], ?_⟩
  rw [readString_stringText hfuel, List.reverse_nil, List.nil_append, String.ofList_toList]

/-- The text of a member in front of a text. -/
def memberText (style : Style) (depth : Nat) (key : String) (value : Json) (tail : List Char) : List Char :=
  stringText style.ascii key ++ (style.keySeparator.toList ++ write style depth value tail)

theorem length_memberText (style : Style) (depth : Nat) (key : String) (value : Json) (tail : List Char) :
    key.toList.length + tail.length < (memberText style depth key value tail).length := by
  have hstring := length_stringText style.ascii key
  have hvalue := length_write style depth value tail
  simp only [memberText, List.length_append]
  omega

/-- Another member comes after a comma and blanks. -/
theorem Style.Regular.writeEntries_cons (h : style.Regular) (depth : Nat) (entry : String × Json)
    (entries : List (String × Json)) (after : List Char) : ∃ blank, Blank blank ∧
      writeEntries style depth (entry :: entries) after =
        ',' :: (blank ++ memberText style depth entry.1 entry.2 (writeEntries style depth entries after)) := by
  obtain ⟨blank, hseparator, hblank⟩ := h.item
  refine ⟨blank ++ style.newline depth, hblank.append (h.newline depth), ?_⟩
  rw [writeEntries, hseparator, List.append_assoc]
  rfl

/-- The key and the value of a member are read back one after the other. -/
theorem read_memberText {value : Json} {tail : List Char} (hstyle : style.Regular) (h : ReadsBack style value)
    (htail : Ends tail) (hfuel : 2 * (memberText style depth key value tail).length ≤ fuel + 1 + 2 * tail.length) :
    ∃ body behind, memberText style depth key value tail = '"' :: body ∧
      readString ('"' :: body) fuel [] body = .ok (key, ':' :: behind) ∧
      readValue fuel (skipSpace behind) = .ok (value, tail) := by
  have hstring := length_stringText style.ascii key
  have hvalue := length_write style depth value tail
  have hlength : (memberText style depth key value tail).length = (stringText style.ascii key).length +
      (style.keySeparator.toList.length + (write style depth value tail).length) := by
    rw [memberText, List.length_append, List.length_append]
  obtain ⟨colon, hseparator, hblank⟩ := hstyle.key
  obtain ⟨c, cs, hhead, hc, -⟩ := h.head depth tail
  obtain ⟨body, hbody, hread⟩ := readString_text (memberText style depth key value tail) style.ascii key
    (':' :: (colon ++ write style depth value tail)) (show key.toList.length < fuel by omega)
  have htext : memberText style depth key value tail = '"' :: body := by
    rw [← hbody, memberText, hseparator]
    rfl
  have hskip : skipSpace (colon ++ write style depth value tail) = write style depth value tail := by
    rw [hhead]
    exact skipSpace_blank hblank hc
  refine ⟨body, _, htext, htext ▸ hread, ?_⟩
  rw [hskip]
  exact h.read depth tail fuel htail (by omega)

/-- The members of an object are read back up to its end. -/
theorem readMembers_write {value : Json} (hstyle : style.Regular)
    (h : ∀ entry ∈ (key, value) :: entries, ReadsBack style entry.2) (hspace : Blank space)
    (hfuel : 2 * (memberText style depth key value
        (writeEntries style depth entries (space ++ '\x7d' :: after))).length ≤ fuel + 2 * after.length) :
    readMembers fuel (memberText style depth key value
        (writeEntries style depth entries (space ++ '\x7d' :: after))) =
      .ok ((key, value) :: entries, after) := by
  have hclose : isSpace '\x7d' = false := rfl
  have hcomma : isSpace ',' = false := rfl
  have hcolon : isSpace ':' = false := rfl
  have hend : after.length < (space ++ '\x7d' :: after).length := by
    rw [List.length_append, List.length_cons]
    omega
  induction entries generalizing key value fuel with
  | nil =>
    have hvalue : ReadsBack style value := h (key, value) List.mem_cons_self
    have hlength := length_memberText style depth key value (space ++ '\x7d' :: after)
    rw [writeEntries] at hfuel ⊢
    obtain ⟨fuel, rfl⟩ : ∃ k, fuel = k + 1 := ⟨fuel - 1, by omega⟩
    have hends : Ends (space ++ '\x7d' :: after) := .after_space hspace (ends_close (.inr (.inr rfl)))
    have henough : 2 * (memberText style depth key value (space ++ '\x7d' :: after)).length ≤
        fuel + 1 + 2 * (space ++ '\x7d' :: after).length := by omega
    obtain ⟨body, behind, hbody, hreadKey, hread⟩ := read_memberText hstyle hvalue hends henough
    simp only [hbody, readMembers, hreadKey, bind, Except.bind, skipSpace_of_not hcolon, hread,
      skipSpace_blank hspace hclose]
  | cons second entries ih =>
    have hvalue : ReadsBack style value := h (key, value) List.mem_cons_self
    obtain ⟨blank, hblank, htext⟩ := hstyle.writeEntries_cons depth second entries (space ++ '\x7d' :: after)
    obtain ⟨line, hline⟩ : ∃ line, memberText style depth second.1 second.2
      (writeEntries style depth entries (space ++ '\x7d' :: after)) = line := ⟨_, rfl⟩
    have hquote : ∃ cs, line = '"' :: cs := ⟨_, hline.symm⟩
    have hlength := length_memberText style depth key value (',' :: (blank ++ line))
    have hrest := length_memberText style depth second.1 second.2
      (writeEntries style depth entries (space ++ '\x7d' :: after))
    have hentries := length_writeEntries style depth entries (space ++ '\x7d' :: after)
    have hshort : line.length < (',' :: (blank ++ line)).length := by
      rw [List.length_cons, List.length_append]
      omega
    rw [hline] at htext hrest
    rw [htext] at hfuel ⊢
    obtain ⟨fuel, rfl⟩ : ∃ k, fuel = k + 1 := ⟨fuel - 1, by omega⟩
    have hreads := @ih second.1 fuel second.2
      (fun entry hentry => h entry (List.mem_cons_of_mem _ hentry)) (by rw [hline]; omega)
    have hskip : skipSpace (blank ++ line) = line := by
      obtain ⟨cs, rfl⟩ := hquote
      exact skipSpace_blank hblank rfl
    rw [hline] at hreads
    have henough : 2 * (memberText style depth key value (',' :: (blank ++ line))).length ≤
        fuel + 1 + 2 * (',' :: (blank ++ line)).length := by omega
    obtain ⟨body, behind, hbody, hreadKey, hread⟩ :=
      read_memberText hstyle hvalue (ends_close (.inl rfl)) henough
    simp only [hbody, readMembers, hreadKey, bind, Except.bind, skipSpace_of_not hcolon, hread,
      skipSpace_of_not hcomma, hskip, hreads]

/-! ## Values and texts -/

theorem readValue_numeric (h : Numeric cs) : readValue (fuel + 1) cs = readNumber cs := by
  obtain ⟨negative, c, tail, rfl, hc⟩ := h
  have hdigit := isDigit_iff.mp hc
  have hne : ∀ d : Char, d.toNat < 0x30 ∨ 0x39 < d.toNat → c ≠ d := by
    rintro d hd rfl
    omega
  rw [readValue]
  all_goals cases negative <;> simp [signed, hne]

/-- For data that begins as a value does it is enough to read with some fuel. -/
theorem Legible.readsBack_of (h : j.Legible) (hread : ∀ depth after fuel, Ends after →
    2 * (write style depth j after).length ≤ fuel + 1 + 2 * after.length →
    readValue (fuel + 1) (write style depth j after) = .ok (j, after)) : ReadsBack style j := by
  refine ⟨fun depth after => h.write_head style depth after, fun depth after fuel hafter hfuel => ?_⟩
  have hlength := length_write style depth j after
  obtain ⟨fuel, rfl⟩ : ∃ k, fuel = k + 1 := ⟨fuel - 1, by omega⟩
  exact hread depth after fuel hafter hfuel

theorem Legible.readsBack_arr (hstyle : style.Regular) (h : (Json.arr items).Legible)
    (hbelow : ∀ i ∈ items, ReadsBack style i) : ReadsBack style (.arr items) := by
  refine h.readsBack_of fun depth after fuel hafter hfuel => ?_
  cases items with
  | nil => simp [write, readValue, skipSpace_of_not (show isSpace ']' = false from rfl)]
  | cons item items =>
    obtain ⟨text, htext⟩ : ∃ text, write style (depth + 1) item
      (writeItems style (depth + 1) items (style.newline depth ++ ']' :: after)) = text := ⟨_, rfl⟩
    obtain ⟨c, cs, hhead, hc, hclose, -⟩ := (hbelow item List.mem_cons_self).head (depth + 1)
      (writeItems style (depth + 1) items (style.newline depth ++ ']' :: after))
    rw [write] at hfuel ⊢
    simp only [List.length_cons, List.length_append] at hfuel
    rw [htext] at hhead hfuel ⊢
    have hread : readItems fuel text = .ok (item :: items, after) := by
      rw [← htext] at hfuel ⊢
      exact readItems_write hstyle hbelow (hstyle.newline depth) (by omega)
    have hskip : skipSpace (style.newline (depth + 1) ++ text) = text := by
      rw [hhead]
      exact skipSpace_blank (hstyle.newline _) hc
    simp only [readValue, hskip]
    split
    · exact absurd (List.cons.inj hhead).1.symm hclose
    · rw [hread]
      rfl

theorem Legible.readsBack_obj (hstyle : style.Regular) (h : (Json.obj entries).Legible)
    (hbelow : ∀ entry ∈ entries, ReadsBack style entry.2) : ReadsBack style (.obj entries) := by
  refine h.readsBack_of fun depth after fuel hafter hfuel => ?_
  cases h with | obj hkeys hlegible =>
  cases entries with
  | nil => simp [write, readValue, skipSpace_of_not (show isSpace '\x7d' = false from rfl)]
  | cons entry entries =>
    obtain ⟨key, value⟩ := entry
    obtain ⟨text, htext⟩ : ∃ text, memberText style (depth + 1) key value
      (writeEntries style (depth + 1) entries (style.newline depth ++ '\x7d' :: after)) = text := ⟨_, rfl⟩
    have hhead : ∃ cs, text = '"' :: cs := ⟨_, htext.symm⟩
    have hwrite : write style depth (.obj ((key, value) :: entries)) after =
        '\x7b' :: (style.newline (depth + 1) ++ text) := by
      rw [write, ← htext, memberText]
    rw [hwrite] at hfuel ⊢
    simp only [List.length_cons, List.length_append] at hfuel
    have hread : readMembers fuel text = .ok ((key, value) :: entries, after) := by
      rw [← htext] at hfuel ⊢
      exact readMembers_write hstyle hbelow (hstyle.newline depth) (by omega)
    have hskip : skipSpace (style.newline (depth + 1) ++ text) = text := by
      obtain ⟨cs, rfl⟩ := hhead
      exact skipSpace_blank (hstyle.newline _) rfl
    simp only [readValue, hskip]
    split
    · obtain ⟨cs, hhead⟩ := hhead
      exact absurd (List.cons.inj hhead).1 (by decide)
    · rw [hread]
      simp only [bind, Except.bind, Entries.ofWrites_of_nodup hkeys]

theorem Legible.readsBack (hstyle : style.Regular) (h : j.Legible) : ReadsBack style j := by
  induction h with
  | null => exact Legible.null.readsBack_of fun _ _ _ _ _ => by simp [write, readValue]
  | bool b =>
    exact (Legible.bool b).readsBack_of fun _ _ _ _ _ => by cases b <;> simp [write, readValue]
  | int hshort =>
    exact (Legible.int hshort).readsBack_of fun _ _ _ hafter _ => by
      rw [write, readValue_numeric (numeric_int _).append, readNumber_int hshort hafter.delimited]
  | @float d hcanonical =>
    refine (Legible.float hcanonical).readsBack_of fun _ _ _ hafter _ => ?_
    match d with
    | .nan | .infinite false | .infinite true => simp [write, readValue, floatText]
    | .finite negative m e =>
      obtain ⟨hnumeric, hread⟩ := floatText_finite hcanonical
      rw [write, readValue_numeric hnumeric.append, hread _ hafter.delimited]
  | str s =>
    refine (Legible.str s).readsBack_of fun depth after fuel _ hfuel => ?_
    have hstring := length_stringText style.ascii s
    rw [write, List.length_append] at hfuel
    obtain ⟨body, hbody, hread⟩ := readString_text (stringText style.ascii s ++ after) style.ascii s after
      (by omega : s.toList.length < fuel)
    rw [write, hbody]
    rw [hbody] at hread
    simp only [readValue, hread, bind, Except.bind]
  | arr hbelow ih => exact (Legible.arr hbelow).readsBack_arr hstyle ih
  | obj hkeys hbelow ih => exact (Legible.obj hkeys hbelow).readsBack_obj hstyle ih

/-- Written data is read back. -/
theorem parse_text (hstyle : style.Regular) (h : j.Legible) : parse (j.text style) = .ok j := by
  obtain ⟨c, cs, hhead, hc, -, hmark⟩ := h.write_head style 0 []
  have hread := (h.readsBack hstyle).read 0 [] (2 * (write style 0 j []).length + 2) (fun c hc => by cases hc)
    (by simp)
  rw [text, parse, String.toList_ofList, if_neg (by simp [hhead, hmark])]
  rw [parseDecoded, readText]
  rw [hhead] at hread ⊢
  simp only [skipSpace_of_not hc, hread, bind, Except.bind]
  rfl

theorem Style.regular_compact (ascii : Bool) : (compact ascii).Regular where
  item := ⟨[], by simp [compact], fun _ hc => by cases hc⟩
  key := ⟨[], by simp [compact], fun _ hc => by cases hc⟩
  indent := fun _ hunit => by cases hunit

theorem Style.regular_indented (n : Nat) (ascii : Bool) :
    (indented (String.ofList (List.replicate n ' ')) ascii).Regular where
  item := ⟨[], by simp [indented], fun _ hc => by cases hc⟩
  key := ⟨[' '], by simp [indented], fun _ hc => by
    rw [List.mem_singleton.mp hc]
    rfl⟩
  indent := fun unit hunit c hc => by
    obtain rfl : String.ofList (List.replicate n ' ') = unit := Option.mem_some_iff.mp hunit
    rw [String.toList_ofList] at hc
    rw [List.eq_of_mem_replicate hc]
    rfl

end Json

end DocFilter
