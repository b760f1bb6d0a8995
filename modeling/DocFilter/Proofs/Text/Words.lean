import DocFilter.Text.Blank
import Mathlib.Data.List.TakeWhile

/-!
# Words and the gaps between them

A text is its words with blanks around them.

* `Text.Worded` says this of a text that begins with a word, one word at a time, and is what inductions over
  texts go along; `Text.worded_trimStart` is that every text is of this form but for the blanks in front.
* `Text.words_word` and `Text.wordsFrom_of_head` say what the words of a text are, given those of the rest.
* `Text.Gap` are the blanks between two words that follow each other, and `Text.gap_word_iff` finds the gaps of a
  text along the same way.
-/

namespace DocFilter.Text

variable {cs rest w g k : List Char} {c : Char}

/-- Some characters that are all blank. -/
abbrev Blanks (cs : List Char) : Prop := ∀ c ∈ cs, isBlank c

/-- At least one character, and none of them blank. -/
structure IsWord (w : List Char) : Prop where
  ne_nil : w ≠ []
  solid : ∀ c ∈ w, ¬ isBlank c

/-- A text that is empty or begins with a word: after the word come blanks, at least one where another word
follows. -/
inductive Worded : List Char → Prop
  | nil : Worded []
  | word {w g rest : List Char} (word : IsWord w) (gap : Blanks g) (apart : rest ≠ [] → g ≠ [])
      (more : Worded rest) : Worded (w ++ (g ++ rest))

theorem blanks_nil : Blanks [] := List.forall_mem_nil _

theorem blanks_of_subset (hg : Blanks g) (hk : k ⊆ g) : Blanks k := fun c hc => hg c (hk hc)

theorem IsWord.exists_head (h : IsWord w) : ∃ c cs, w = c :: cs ∧ ¬ isBlank c := by
  obtain ⟨c, cs, rfl⟩ := List.exists_cons_of_ne_nil h.ne_nil
  exact ⟨c, cs, rfl, h.solid c List.mem_cons_self⟩

theorem Worded.head (h : Worded cs) : ∀ c ∈ cs.head?, ¬ isBlank c := by
  cases h with
  | nil => simp
  | word word gap apart more =>
    obtain ⟨c, w, rfl, hc⟩ := word.exists_head
    simpa using hc

/-- What a text begins with once the blanks in front are gone. -/
theorem not_isBlank_of_head_trimStart : ∀ c ∈ (trimStart cs).head?, ¬ isBlank c := by
  intro c hc
  have hhead := List.head?_dropWhile_not isBlank cs
  rw [trimStart] at hc
  rw [Option.mem_def.mp hc] at hhead
  simpa using hhead

theorem exists_blanks_trimStart (cs : List Char) : ∃ g, Blanks g ∧ cs = g ++ trimStart cs :=
  ⟨cs.takeWhile isBlank, fun _ hc => List.mem_takeWhile_imp hc, List.takeWhile_append_dropWhile.symm⟩

theorem trimStart_append (hg : Blanks g) (rest : List Char) : trimStart (g ++ rest) = trimStart rest := by
  rw [trimStart, List.dropWhile_append_of_pos hg, trimStart]

theorem trimStart_of_head (h : ∀ c ∈ cs.head?, ¬ isBlank c) : trimStart cs = cs := by
  cases cs with
  | nil => rfl
  | cons c cs =>
    have hc : ¬ isBlank c := h c rfl
    rw [trimStart, List.dropWhile_cons_of_neg hc]

theorem worded_of_head (h : ∀ c ∈ cs.head?, ¬ isBlank c) : Worded cs := by
  induction hlength : cs.length using Nat.strongRecOn generalizing cs with
  | _ length ih =>
    subst hlength
    cases cs with
    | nil => exact .nil
    | cons c cs =>
      have hc : ¬ isBlank c := h c rfl
      obtain ⟨w, hw⟩ : ∃ w, w = (c :: cs).takeWhile (!isBlank ·) := ⟨_, rfl⟩
      obtain ⟨tail, htail⟩ : ∃ tail, tail = (c :: cs).dropWhile (!isBlank ·) := ⟨_, rfl⟩
      have hsplit : c :: cs = w ++ tail := by rw [hw, htail, List.takeWhile_append_dropWhile]
      have hword : IsWord w := by
        refine ⟨by simp [hw, hc], fun d hd => ?_⟩
        have hd' := List.mem_takeWhile_imp (hw ▸ hd)
        simpa using hd'
      have hhead : ∀ d ∈ tail.head?, isBlank d := by
        intro d hd
        have hfirst := List.head?_dropWhile_not (!isBlank ·) (c :: cs)
        rw [← htail, Option.mem_def.mp hd] at hfirst
        simpa using hfirst
      obtain ⟨g, hg, hrest⟩ := exists_blanks_trimStart tail
      have hshort : (trimStart tail).length < (c :: cs).length := by
        have hpos := List.length_pos_iff.mpr hword.ne_nil
        have hle := (List.dropWhile_sublist isBlank (l := tail)).length_le
        rw [hsplit, List.length_append]
        exact Nat.lt_of_le_of_lt hle (by omega)
      have hmore := ih _ hshort not_isBlank_of_head_trimStart rfl
      rw [hsplit, hrest]
      refine .word hword hg (fun hne hnil => ?_) hmore
      obtain ⟨d, ds, hd⟩ := List.exists_cons_of_ne_nil hne
      have hfirst : d ∈ tail.head? := by rw [hrest, hnil, hd]; rfl
      exact not_isBlank_of_head_trimStart d (by rw [hd]; rfl) (hhead d hfirst)

theorem worded_trimStart (cs : List Char) : Worded (trimStart cs) :=
  worded_of_head not_isBlank_of_head_trimStart

/-! ## The blanks at the end -/

theorem trimEnd_append_blanks (hg : Blanks g) (cs : List Char) : trimEnd (cs ++ g) = trimEnd cs := by
  rw [trimEnd, List.reverse_append, List.dropWhile_append_of_pos fun c hc => hg c (List.mem_reverse.mp hc), trimEnd]

/-- Only blanks at the end are cut off. -/
theorem exists_blanks_trimEnd (cs : List Char) : ∃ g, Blanks g ∧ cs = trimEnd cs ++ g := by
  refine ⟨(cs.reverse.takeWhile isBlank).reverse, fun c hc => List.mem_takeWhile_imp (List.mem_reverse.mp hc), ?_⟩
  rw [trimEnd, ← List.reverse_append, List.takeWhile_append_dropWhile, List.reverse_reverse]

theorem trimEnd_concat (hc : ¬ isBlank c) : trimEnd (cs ++ [c]) = cs ++ [c] := by
  rw [trimEnd, List.reverse_append, List.reverse_singleton, List.singleton_append, List.dropWhile_cons_of_neg hc,
    List.reverse_cons, List.reverse_reverse]

theorem trimEnd_of_getLast (h : ∀ c ∈ cs.getLast?, ¬ isBlank c) : trimEnd cs = cs := by
  rcases List.eq_nil_or_concat cs with rfl | ⟨init, c, rfl⟩
  · rfl
  · rw [List.concat_eq_append] at h ⊢
    exact trimEnd_concat (h c List.getLast?_concat)

theorem not_isBlank_of_getLast_trimEnd : ∀ c ∈ (trimEnd cs).getLast?, ¬ isBlank c := by
  intro c hc
  have hhead := List.head?_dropWhile_not isBlank cs.reverse
  rw [trimEnd, List.getLast?_reverse] at hc
  rw [Option.mem_def.mp hc] at hhead
  simpa using hhead

/-- What stands in front of something that is not blank is not cut off at the end. -/
theorem trimEnd_append (hc : ¬ isBlank c) (hmem : c ∈ rest) (cs : List Char) :
    trimEnd (cs ++ rest) = cs ++ trimEnd rest := by
  obtain ⟨g, hg, hrest⟩ := exists_blanks_trimEnd rest
  have hne : trimEnd rest ≠ [] := by
    intro hnil
    rw [hnil, List.nil_append] at hrest
    exact hc (hg c (hrest ▸ hmem))
  have hlast : ∀ d ∈ (cs ++ trimEnd rest).getLast?, ¬ isBlank d := by
    intro d hd
    rw [List.getLast?_append, List.getLast?_eq_some_getLast hne, Option.some_or] at hd
    exact not_isBlank_of_getLast_trimEnd d (by rwa [List.getLast?_eq_some_getLast hne])
  calc trimEnd (cs ++ rest) = trimEnd (cs ++ trimEnd rest ++ g) := by rw [List.append_assoc, ← hrest]
    _ = trimEnd (cs ++ trimEnd rest) := trimEnd_append_blanks hg _
    _ = cs ++ trimEnd rest := trimEnd_of_getLast hlast

theorem trim_append_start (hg : Blanks g) (rest : List Char) : trim (g ++ rest) = trim rest := by
  rw [trim, trimStart_append hg, trim]

theorem trim_append_end (hg : Blanks g) (cs : List Char) : trim (cs ++ g) = trim cs := by
  obtain ⟨b, hb, hcs⟩ := exists_blanks_trimStart cs
  by_cases hnil : trimStart cs = []
  · have hblank : Blanks cs := by
      rw [hcs, hnil, List.append_nil]
      exact hb
    have hall : trimStart (cs ++ g) = [] :=
      List.dropWhile_eq_nil_iff.mpr (List.forall_mem_append.mpr ⟨hblank, hg⟩)
    rw [trim, hall, trim, hnil]
  · have hstart : trimStart (cs ++ g) = trimStart cs ++ g := by
      rw [trimStart, List.dropWhile_append, if_neg (by simpa [trimStart] using hnil), trimStart]
    rw [trim, hstart, trimEnd_append_blanks hg, trim]

theorem trim_blanks (hg : Blanks g) : trim g = [] := by
  rw [← List.append_nil g, trim_append_start hg]
  rfl

/-- Nothing in front of a word is cut off if the text begins with a word as well. -/
theorem trim_word (h : IsWord w) (hc : ¬ isBlank c) (hmem : c ∈ rest) (hrest : trimStart rest = rest) :
    trim (w ++ (g ++ rest)) = w ++ (g ++ trim rest) := by
  obtain ⟨d, ds, rfl, hd⟩ := h.exists_head
  have hstart : trimStart (d :: ds ++ (g ++ rest)) = d :: ds ++ (g ++ rest) :=
    trimStart_of_head (by simpa using hd)
  rw [trim, hstart, trim, hrest, ← List.append_assoc, trimEnd_append hc hmem, List.append_assoc]

theorem trim_of_word (h : IsWord w) : trim w = w := by
  obtain ⟨d, ds, rfl, hd⟩ := h.exists_head
  rw [trim, trimStart_of_head (by simpa using hd), trimEnd_of_getLast]
  exact fun c hc => h.solid c (List.mem_of_getLast? hc)

/-! ## Words -/

/-- A run of characters that are not blank goes on with the word that is being read. -/
theorem wordsFrom_append (hw : ∀ c ∈ w, ¬ isBlank c) (current rest : List Char) :
    wordsFrom current (w ++ rest) = wordsFrom (current ++ w) rest := by
  induction w generalizing current with
  | nil => simp
  | cons c w ih =>
    obtain ⟨hc, hmore⟩ := List.forall_mem_cons.mp hw
    rw [List.cons_append, wordsFrom, if_neg hc, ih hmore, List.append_assoc, List.singleton_append]

theorem words_append_start (hg : Blanks g) (rest : List Char) : words (g ++ rest) = words rest := by
  induction g with
  | nil => rfl
  | cons c g ih =>
    obtain ⟨hc, hmore⟩ := List.forall_mem_cons.mp hg
    rw [words, List.cons_append, wordsFrom, if_pos hc, if_pos List.isEmpty_nil]
    exact ih hmore

/-- A blank ends the word that is being read. -/
theorem wordsFrom_blanks {current : List Char} (hcurrent : current ≠ []) (hg : Blanks g) (hne : g ≠ [])
    (rest : List Char) : wordsFrom current (g ++ rest) = current :: words rest := by
  obtain ⟨c, g, rfl⟩ := List.exists_cons_of_ne_nil hne
  obtain ⟨hc, hmore⟩ := List.forall_mem_cons.mp hg
  rw [List.cons_append, wordsFrom, if_pos hc, if_neg (by simpa using hcurrent)]
  exact congrArg (current :: ·) (words_append_start hmore rest)

/-- The words of a text that begins with a word. -/
theorem words_word (hw : IsWord w) (hg : Blanks g) (hapart : rest ≠ [] → g ≠ []) :
    words (w ++ (g ++ rest)) = w :: words rest := by
  rw [words, wordsFrom_append hw.solid, List.nil_append]
  by_cases hne : g = []
  · obtain rfl : rest = [] := by
      by_contra hrest
      exact hapart hrest hne
    rw [hne, List.nil_append, wordsFrom, if_neg (by simpa using hw.ne_nil)]
    rfl
  · exact wordsFrom_blanks hw.ne_nil hg hne rest

/-- The word that is being read joins the first word of what follows without a blank. -/
theorem wordsFrom_of_head {current : List Char} (hne : cs ≠ []) (h : ∀ c ∈ cs.head?, ¬ isBlank c) :
    wordsFrom current cs = (words cs).modifyHead (current ++ ·) := by
  have hmore : ∀ (cs read : List Char), read ≠ [] →
      wordsFrom (current ++ read) cs = (wordsFrom read cs).modifyHead (current ++ ·) := by
    intro cs
    induction cs with
    | nil =>
      intro read hread
      simp [wordsFrom, hread]
    | cons c cs ih =>
      intro read hread
      rw [wordsFrom, wordsFrom]
      split
      · simp [hread]
      · rw [List.append_assoc]
        exact ih (read ++ [c]) (by simp)
  obtain ⟨c, cs, rfl⟩ := List.exists_cons_of_ne_nil hne
  have hc : ¬ isBlank c := h c rfl
  rw [words, wordsFrom, if_neg hc, wordsFrom, if_neg hc]
  exact hmore cs [c] (by simp)

theorem words_word_last (hw : IsWord w) (hg : Blanks g) : words (w ++ g) = [w] := by
  calc words (w ++ g) = words (w ++ (g ++ [])) := by rw [List.append_nil]
    _ = [w] := words_word hw hg (absurd rfl)

theorem words_of_word (hw : IsWord w) : words w = [w] := by
  have hword := words_word_last hw blanks_nil
  rwa [List.append_nil] at hword

theorem exists_words (hne : cs ≠ []) (h : ∀ c ∈ cs.head?, ¬ isBlank c) :
    ∃ w ws, words cs = w :: ws ∧ w ≠ [] := by
  cases worded_of_head h with
  | nil => exact absurd rfl hne
  | word hw hg hapart hrest => exact ⟨_, _, words_word hw hg hapart, hw.ne_nil⟩

/-- A word joins the first word of what follows without a blank. -/
theorem words_append_word (hw : IsWord w) (hne : cs ≠ []) (h : ∀ c ∈ cs.head?, ¬ isBlank c) :
    words (w ++ cs) = (words cs).modifyHead (w ++ ·) := by
  rw [words, wordsFrom_append hw.solid, List.nil_append, wordsFrom_of_head hne h]

theorem words_trimStart (cs : List Char) : words (trimStart cs) = words cs := by
  obtain ⟨g, hg, hcs⟩ := exists_blanks_trimStart cs
  calc words (trimStart cs) = words (g ++ trimStart cs) := (words_append_start hg _).symm
    _ = words cs := by rw [← hcs]

/-! ## Gaps -/

/-- The blanks between two words of a text that follow each other. -/
def Gap (g cs : List Char) : Prop := ∃ before c d after, cs = before ++ c :: (g ++ d :: after) ∧
  ¬ isBlank c ∧ ¬ isBlank d ∧ g ≠ [] ∧ Blanks g

/-- Blanks end in one way only at something that is not blank. -/
theorem blanks_cut {g' rest' : List Char} (hg : Blanks g) (hrest : ∀ c ∈ rest.head?, ¬ isBlank c)
    (hg' : Blanks g') (hrest' : ∀ c ∈ rest'.head?, ¬ isBlank c) (h : g ++ rest = g' ++ rest') :
    g = g' ∧ rest = rest' := by
  have hdrop := trimStart_append hg rest
  have hdrop' := trimStart_append hg' rest'
  rw [trimStart_of_head hrest] at hdrop
  rw [trimStart_of_head hrest', ← h, hdrop] at hdrop'
  rw [hdrop', List.append_cancel_right_eq] at h
  exact ⟨h, hdrop'⟩

theorem not_gap_of_blanks (hcs : Blanks cs) : ¬ Gap g cs := by
  rintro ⟨before, c, d, after, rfl, hc, -⟩
  exact hc (hcs c (by simp))

theorem gap_append_start (hg : Blanks g) : Gap k (g ++ rest) ↔ Gap k rest := by
  constructor
  · rintro ⟨before, c, d, after, heq, hc, hd, hk⟩
    rcases List.append_eq_append_iff.mp heq with ⟨more, rfl, hrest⟩ | ⟨more, rfl, htail⟩
    · exact ⟨more, c, d, after, hrest, hc, hd, hk⟩
    · cases more with
      | nil => exact ⟨[], c, d, after, htail.symm, hc, hd, hk⟩
      | cons e more =>
        obtain ⟨rfl, -⟩ := List.cons.inj htail
        exact absurd (hg c (by simp)) hc
  · rintro ⟨before, c, d, after, rfl, hc, hd, hk⟩
    exact ⟨g ++ before, c, d, after, by simp, hc, hd, hk⟩

theorem gap_trimStart_iff : Gap k (trimStart cs) ↔ Gap k cs := by
  obtain ⟨g, hg, hcs⟩ := exists_blanks_trimStart cs
  calc Gap k (trimStart cs) ↔ Gap k (g ++ trimStart cs) := (gap_append_start hg).symm
    _ ↔ Gap k cs := by rw [← hcs]

/-- The gaps of a text that begins with a word: the one after this word, and those of the rest. -/
theorem gap_word_iff (hw : IsWord w) (hg : Blanks g) (hapart : rest ≠ [] → g ≠ []) (hrest : Worded rest) :
    Gap k (w ++ (g ++ rest)) ↔ rest ≠ [] ∧ k = g ∨ Gap k rest := by
  constructor
  · rintro ⟨before, c, d, after, heq, hc, hd, hne, hk⟩
    rcases List.append_eq_append_iff.mp heq with ⟨more, rfl, htail⟩ | ⟨more, rfl, htail⟩
    · refine .inr ((gap_append_start hg).mp ?_)
      exact ⟨more, c, d, after, htail, hc, hd, hne, hk⟩
    · cases more with
      | nil => exact .inr ((gap_append_start hg).mp ⟨[], c, d, after, htail.symm, hc, hd, hne, hk⟩)
      | cons e more =>
        rw [List.cons_append, List.cons.injEq] at htail
        obtain ⟨rfl, htail⟩ := htail
        cases more with
        | cons e more =>
          obtain ⟨b, k, rfl⟩ := List.exists_cons_of_ne_nil hne
          rw [List.cons_append, List.cons_append, List.cons.injEq] at htail
          obtain ⟨rfl, -⟩ := htail
          exact absurd (hk b List.mem_cons_self) (hw.solid b (by simp))
        | nil =>
          have hafter : ∀ e ∈ (d :: after).head?, ¬ isBlank e := by simpa using hd
          obtain ⟨rfl, rfl⟩ := blanks_cut hk hafter hg hrest.head htail
          exact .inl ⟨by simp, rfl⟩
  · rintro (⟨hne, rfl⟩ | ⟨before, c, d, after, rfl, hc, hd, hk⟩)
    · obtain ⟨init, c, rfl⟩ := List.eq_nil_or_concat w |>.resolve_left hw.ne_nil
      obtain ⟨d, after, rfl⟩ := List.exists_cons_of_ne_nil hne
      exact ⟨init, c, d, after, by simp, hw.solid c (by simp), hrest.head d rfl, hapart hne, hg⟩
    · exact ⟨w ++ (g ++ before), c, d, after, by simp, hc, hd, hk⟩

/-- What holds of all gaps of a text, found along its words. -/
theorem forall_gap_word_iff {good : List Char → Prop} (hw : IsWord w) (hg : Blanks g) (hapart : rest ≠ [] → g ≠ [])
    (hrest : Worded rest) :
    (∀ k, Gap k (w ++ (g ++ rest)) → good k) ↔ (rest ≠ [] → good g) ∧ ∀ k, Gap k rest → good k := by
  constructor
  · intro h
    exact ⟨fun hne => h g ((gap_word_iff hw hg hapart hrest).mpr (.inl ⟨hne, rfl⟩)),
      fun k hk => h k ((gap_word_iff hw hg hapart hrest).mpr (.inr hk))⟩
  · rintro ⟨hfirst, hmore⟩ k hk
    rcases (gap_word_iff hw hg hapart hrest).mp hk with ⟨hne, rfl⟩ | hk
    · exact hfirst hne
    · exact hmore k hk

theorem not_gap_nil : ¬ Gap g [] := not_gap_of_blanks blanks_nil

end DocFilter.Text
