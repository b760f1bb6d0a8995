import DocFilter.Proofs.Yaml.Marks

/-!
# Scanning comes to an end

Each token that the scanner adds takes a character, but for the last (`Scanner.fetch_reads`), so the scan of a text
comes to its end or to a refusal before it runs out of characters: `scan_fares`.
-/

namespace DocFilter.Yaml

variable {cs : List Char}

namespace Scanner

variable {s : Scanner}

/-! ## Steps that leave the cursor where it is -/

@[simp] theorem cursor_push (s : Scanner) (token : Token) : (s.push token).cursor = s.cursor := rfl

@[simp] theorem rest_skip_one (s : Scanner) : (s.skip 1).cursor.rest = s.cursor.rest.tail := by
  simp [Scanner.skip]

@[simp] theorem cursor_unwind_go (column : Int) (s : Scanner) (indents : List Int) :
    (unwind.go column s indents).cursor = s.cursor := by
  induction indents generalizing s with
  | nil => rfl
  | cons outer indents ih =>
    rw [unwind.go]
    split
    · rw [ih, cursor_push]
    · rfl

@[simp] theorem cursor_unwind (s : Scanner) (column : Int) : (s.unwind column).cursor = s.cursor := by
  rw [unwind]
  split
  · rfl
  · exact cursor_unwind_go column s s.indents

@[simp] theorem cursor_openBlock (s : Scanner) (column : Int) (token : Token) (place : Nat) :
    (s.openBlock column token place).cursor = s.cursor := by
  rw [openBlock]
  split <;> rfl

/-- A step that leaves the cursor and the nesting where they are. -/
abbrev Remains (cs : List Char) (s : Scanner) : Except Refusal Scanner → Prop :=
  Reads cs fun t => t.cursor = s.cursor ∧ t.flow = s.flow

theorem dropStale_remains (s : Scanner) : Remains cs s s.dropStale := by
  simp only [dropStale]
  split
  · exact Reads.refuse _ _
  · exact ⟨rfl, rfl⟩

theorem dropKey_remains (s : Scanner) : Remains cs s s.dropKey := by
  rw [dropKey]
  split
  · split
    · exact Reads.refuse _ _
    · exact ⟨rfl, rfl⟩
  · exact ⟨rfl, rfl⟩

theorem saveKey_remains (s : Scanner) : Remains cs s s.saveKey := by
  rw [saveKey]
  split
  · exact (dropKey_remains s).bind fun t ht => ht
  · exact ⟨rfl, rfl⟩

/-! ## Steps that pass a character -/

/-- A step that passes a character at least, or refuses what stands here. -/
abbrev Advances (s : Scanner) : Except Refusal Scanner → Prop :=
  Reads s.cursor.rest fun next => next.cursor.rest <:+ s.cursor.rest.tail

theorem fetchBetween_advances {token : Token} {cursor : Cursor} (h : cursor.rest <:+ s.cursor.rest.tail) :
    Advances s (s.fetchBetween token cursor) :=
  (dropKey_remains _).bind fun _ _ => h

theorem fetchFlowStart_advances (s : Scanner) (token : Token) : Advances s (s.fetchFlowStart token) :=
  (saveKey_remains s).bind fun t ht => by simp [ht.1]

theorem fetchFlowEnd_advances (s : Scanner) (token : Token) : Advances s (s.fetchFlowEnd token) :=
  (dropKey_remains s).bind fun t ht => by simp [ht.1]

theorem fetchFlowEntry_advances (s : Scanner) : Advances s s.fetchFlowEntry :=
  (dropKey_remains s).bind fun t ht => by simp [ht.1]

/-- A step that gives up the simple key, puts tokens and passes their character. -/
theorem dropKey_advances {t : Scanner} {put : Scanner → Scanner} (ht : t.cursor = s.cursor)
    (hput : ∀ u, (put u).cursor = u.cursor) : Advances s (do let u ← t.dropKey; .ok ((put u).skip 1)) :=
  (dropKey_remains t).bind fun u hu => by simp [hput, hu.1, ht]

theorem fetchBlockEntry_advances (s : Scanner) : Advances s s.fetchBlockEntry := by
  rw [fetchBlockEntry]
  split_ifs
  · exact dropKey_advances rfl fun _ => cursor_push _ _
  · exact dropKey_advances (cursor_openBlock _ _ _ _) fun _ => cursor_push _ _
  · exact Reads.refuse _ _

theorem fetchKey_advances (s : Scanner) : Advances s s.fetchKey := by
  rw [fetchKey]
  split_ifs
  · exact dropKey_advances rfl fun _ => cursor_push _ _
  · exact dropKey_advances (cursor_openBlock _ _ _ _) fun _ => cursor_push _ _
  · exact Reads.refuse _ _

theorem fetchValue_advances (s : Scanner) : Advances s s.fetchValue := by
  have hvalue {t : Scanner} (ht : t.cursor = s.cursor) : Advances s (.ok (t.push .value |>.skip 1)) := by
    simp [ht]
  rw [fetchValue]
  split
  · refine hvalue ?_
    split <;> simp
  · split_ifs
    · exact hvalue rfl
    · exact (dropKey_remains _).bind fun t ht => hvalue (by simpa using ht.1)
    · exact Reads.refuse _ _

theorem fetchNode_advances {scan : Cursor → Except Refusal (Token × Cursor)}
    (hscan : ∀ c : Cursor, Stays c.rest.tail (·.2) (scan c)) (s : Scanner) : Advances s (s.fetchNode scan) := by
  refine (saveKey_remains s).bind fun t ht => ?_
  rw [ht.1]
  exact (hscan s.cursor).imp (List.tail_suffix _) (fun _ h => h) |>.bind fun _ h => h

theorem fetchBlock_advances (s : Scanner) (folded : Bool) : Advances s (s.fetchBlock folded) := by
  refine (dropKey_remains s).bind fun t ht => ?_
  rw [ht.1]
  exact (scanBlock_stays folded t.indent s.cursor).imp (List.tail_suffix _) (fun _ h => h) |>.bind fun _ h => h

/-- Where a plain scalar may start, there is no comment, and its first run is not empty. -/
theorem plainRun_of_startsPlain (h : s.startsPlain) :
    s.cursor.peek ≠ some '#' ∧ plainRun s.inFlow s.cursor.rest ≠ [] := by
  cases hrest : s.cursor.rest with
  | nil => simp [startsPlain, Cursor.peek, hrest] at h
  | cons c rest =>
    have hnext : s.cursor.peekAt 1 = rest.head? := by simp [Cursor.peekAt, hrest, List.head?_eq_getElem?]
    simp only [startsPlain, Cursor.peek, hrest, List.head?_cons, hnext] at h
    refine ⟨?_, ?_⟩
    · rintro hc
      obtain rfl : c = '#' := by simpa [Cursor.peek, hrest] using hc
      simp at h
    · simp only [plainRun]
      split_ifs with hword hcolon hflow
      · simp [hword] at h
      · simp only [Bool.and_eq_true, beq_iff_eq, Bool.or_eq_true] at hcolon
        obtain ⟨rfl, hcolon⟩ := hcolon
        obtain ⟨-, hend, hout⟩ : endsWord (some ':') = false ∧ endsWord rest.head? = false ∧ s.inFlow = false := by
          simpa using h
        simp [hend, hout] at hcolon
      · have hin : s.inFlow = true := by simp_all
        have hc : c = ',' ∨ c = '[' ∨ c = ']' ∨ c = '\x7b' ∨ c = '\x7d' ∨ c = '?' := by
          simpa [isFlowIndicator, hin, or_assoc] using hflow
        rcases hc with rfl | rfl | rfl | rfl | rfl | rfl <;> simp [hin] at h
      · exact List.cons_ne_nil _ _

theorem fetchPlain_advances (h : s.startsPlain) : Advances s s.fetchPlain := by
  obtain ⟨hcomment, hrun⟩ := plainRun_of_startsPlain h
  refine (saveKey_remains s).bind fun t ht => ?_
  rw [ht.1]
  have hflow : t.inFlow = s.inFlow := by rw [inFlow, ht.2, inFlow]
  exact scanPlain_suffix hcomment (by rwa [hflow]) _

/-! ## Fetching -/

theorem skipBetween_suffix (fuel : Nat) (s : Scanner) : (s.skipBetween fuel).cursor.rest <:+ s.cursor.rest := by
  have hblank (c : Cursor) : c.skipSpaces.skipComment.rest <:+ c.rest :=
    (Cursor.skipComment_suffix _).trans (by simp [List.dropWhile_suffix])
  fun_induction skipBetween s fuel with
  | case1 s => exact List.suffix_rfl
  | case2 s fuel c ch next hbreak ih =>
    exact ih.trans (((Cursor.lineBreak?_suffix hbreak).trans (List.tail_suffix _)).trans (hblank s.cursor))
  | case3 s fuel c hbreak => exact hblank s.cursor

@[simp] theorem rest_lookAhead (s : Scanner) : s.lookAhead.cursor.rest = s.cursor.rest := by
  simp only [lookAhead]
  split_ifs <;> rfl

theorem fetchDirective_advances (s : Scanner) : Advances s s.fetchDirective := by
  refine (dropKey_remains (s.unwind (-1))).bind fun t ht => ?_
  rw [ht.1, cursor_unwind]
  exact (scanDirective_stays s.cursor).imp (List.tail_suffix _) (fun _ h => h) |>.bind fun _ h => h

theorem fetchEnd_reads (s : Scanner) : Reads cs
    (fun next => next.cursor = s.cursor ∧ next.tokens.back? = some .streamEnd) s.fetchEnd :=
  (dropKey_remains (s.unwind (-1))).bind fun t ht => by simp [ht.1, push]

/-- Wherever a token starts, a character is passed. -/
theorem fetchFrom_advances (ch : Char) (s : Scanner) : Advances s (s.fetchFrom ch) := by
  have hmarker : (s.cursor.skip 3).rest <:+ s.cursor.rest.tail := by
    rw [Cursor.rest_skip, ← List.drop_tail]
    exact List.drop_suffix _ _
  refine .ite (fun _ => fetchDirective_advances s) fun _ => ?_
  refine .ite (fun _ => fetchBetween_advances hmarker) fun _ => ?_
  refine .ite (fun _ => fetchBetween_advances hmarker) fun _ => ?_
  refine .ite (fun _ => fetchFlowStart_advances s _) fun _ => ?_
  refine .ite (fun _ => fetchFlowStart_advances s _) fun _ => ?_
  refine .ite (fun _ => fetchFlowEnd_advances s _) fun _ => ?_
  refine .ite (fun _ => fetchFlowEnd_advances s _) fun _ => ?_
  refine .ite (fun _ => fetchFlowEntry_advances s) fun _ => ?_
  refine .ite (fun _ => fetchBlockEntry_advances s) fun _ => ?_
  refine .ite (fun _ => fetchKey_advances s) fun _ => ?_
  refine .ite (fun _ => fetchValue_advances s) fun _ => ?_
  refine .ite (fun _ => fetchNode_advances (fun c => (scanAnchor_stays _ c).map fun _ => rfl) s) fun _ => ?_
  refine .ite (fun _ => fetchNode_advances (fun c => (scanAnchor_stays _ c).map fun _ => rfl) s) fun _ => ?_
  refine .ite (fun _ => fetchNode_advances scanTag_stays s) fun _ => ?_
  refine .ite (fun _ => fetchBlock_advances s false) fun _ => ?_
  refine .ite (fun _ => fetchBlock_advances s true) fun _ => ?_
  refine .ite (fun _ => fetchNode_advances (fun c => (scanQuoted_stays false c).map fun _ => rfl) s) fun _ => ?_
  refine .ite (fun _ => fetchNode_advances (fun c => (scanQuoted_stays true c).map fun _ => rfl) s) fun _ => ?_
  exact .ite (fun hplain => fetchPlain_advances hplain) fun _ => Reads.refuse _ _

/-- Fetching passes a character, or it adds the last token. -/
theorem fetch_reads (s : Scanner) : Reads s.cursor.rest
    (fun next => next.cursor.rest <:+ s.cursor.rest ∧
      (next.tokens.back? = some .streamEnd ∨ next.cursor.rest.length < s.cursor.rest.length)) s.fetch := by
  rw [fetch]
  obtain ⟨t, ht, htext⟩ : ∃ t : Scanner, t.cursor.rest <:+ s.cursor.rest ∧
      (if s.cursor.index == 0 && s.cursor.peek == some '\uFEFF' then { s with cursor := s.cursor.forward } else s) = t := by
    refine ⟨_, ?_, rfl⟩
    split
    · simp [List.tail_suffix]
    · exact List.suffix_rfl
  simp only [htext]
  have hbetween := (skipBetween_suffix (t.cursor.rest.length + 1) t).trans ht
  refine (dropStale_remains _).bind fun u hu => ?_
  rw [← hu.1] at hbetween
  have hplace : (u.unwind u.column).lookAhead.cursor.rest = u.cursor.rest := by simp
  split
  next =>
    refine (fetchEnd_reads _).imp List.suffix_rfl fun next hnext => ?_
    rw [hnext.1, hplace]
    exact ⟨hbetween, .inl hnext.2⟩
  next ch hpeek =>
    refine (fetchFrom_advances ch _).imp (by rwa [hplace]) fun next hnext => ?_
    rw [hplace] at hnext
    refine ⟨(hnext.trans (List.tail_suffix _)).trans hbetween, .inr ?_⟩
    have hne : u.cursor.rest ≠ [] := by
      rintro hnil
      simp [Cursor.peek, hnil] at hpeek
    have hpassed := hnext.length_le
    have hpos := List.length_pos_iff.mpr hne
    have hall := hbetween.length_le
    rw [List.length_tail] at hpassed
    omega

end Scanner

/-! ## Runs -/

/-- How a scan of a text ends: with the last token, or at something in the text that is refused. -/
inductive Ends (cs : List Char) (tokens : List Token) : Option Error → Prop
  | last (h : .streamEnd ∈ tokens) : Ends cs tokens none
  | told {e : Error} (h : Told cs e) : Ends cs tokens (some e)

theorem Ends.of_suffix {ds : List Char} {tokens : List Token} {ending : Option Error} (h : Ends ds tokens ending)
    (hsuffix : ds <:+ cs) : Ends cs tokens ending := by
  cases h with
  | last h => exact .last h
  | told h => exact .told (h.of_suffix hsuffix)

theorem told_of_met? {barrier : Option Barrier} {reach : Nat} {e : Error} (h : Barrier.met? barrier reach = some e) :
    Told cs e := by
  obtain ⟨b, -, hb⟩ := Option.bind_eq_some_iff.mp h
  split_ifs at hb
  cases hb
  trivial

/-- There is a character for each token but the last, so that a run does not stop before. -/
theorem Scanner.run_ends {barrier : Option Barrier} {fuel before : Nat} {s : Scanner}
    (h : s.cursor.rest.length < fuel) :
    Ends s.cursor.rest (run barrier fuel before s).1.toList (run barrier fuel before s).2 := by
  induction fuel generalizing before s with
  | zero => exact absurd h (Nat.not_lt_zero _)
  | succ fuel ih =>
    rw [run]
    have hstale : Remains s.cursor.rest s s.dropStale := dropStale_remains s
    cases hdrop : s.dropStale with
    | error refusal =>
      rw [hdrop] at hstale
      exact .told hstale
    | ok t =>
      rw [hdrop] at hstale
      have hfetch := fetch_reads t
      rw [hstale.1] at hfetch
      dsimp only
      cases hnext : t.fetch with
      | error refusal =>
        rw [hnext] at hfetch
        refine .told ?_
        cases hmet : Barrier.met? barrier refusal.reach with
        | some e => exact told_of_met? hmet
        | none => exact hfetch
      | ok next =>
        rw [hnext] at hfetch
        dsimp only
        split
        next e hmet => exact .told (told_of_met? hmet)
        next =>
          split
          next hlast =>
            exact .last (Array.mem_toList_iff.mpr (Array.mem_of_back? (by simpa using hlast)))
          next hmore =>
            obtain ⟨hsuffix, hlast | hlength⟩ := hfetch
            · simp [hlast] at hmore
            · exact (ih (hlength.trans_le (Nat.le_of_lt_succ h))).of_suffix hsuffix

/-- The scan of a text comes to its last token or to something in the text that is refused. -/
theorem scan_ends (supply : Supply) (cs : List Char) : Ends cs (scan supply cs).1 (scan supply cs).2 := by
  have hlength : cs.length < cs.length + 2 := by omega
  exact @Scanner.run_ends (supply.barrier? cs) _ 0 { cursor := { rest := cs } } hlength

end DocFilter.Yaml
