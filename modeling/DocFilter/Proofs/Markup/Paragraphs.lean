import DocFilter.Proofs.Markup.Tokens

/-!
# The paragraphs of a text

`Markup.pieces` are the texts of the paragraphs, without blanks at their ends and without the ones that are all
blank. Whether a gap between two words ends a paragraph is a matter of this gap only (`Markup.Breaks`):

* `Markup.pieces_blanks` drops blanks in front;
* `Markup.pieces_word_of_breaks` ends a paragraph after the first word, `Markup.pieces_word_of_not_breaks` goes on
  with it, and `Markup.pieces_word_last` is the last word of a text.
-/

namespace DocFilter.Markup

open Text

variable {cs rest w g : List Char} {c : Char}

/-- Two line breaks with at most spaces and tabs between them. -/
def Breaks (g : List Char) : Prop := ∃ before line after, g = before ++ '\n' :: (line ++ '\n' :: after) ∧
  ∀ c ∈ line, c = ' ' ∨ c = '\t'

/-! ## One break -/

private theorem isSpace_iff : (c == ' ' || c == '\t') = true ↔ c = ' ' ∨ c = '\t' := by
  rw [Bool.or_eq_true, beq_iff_eq, beq_iff_eq]

theorem dropWhile_append_of_head {p : Char → Bool} (hrest : ∀ c ∈ rest.head?, ¬ p c) (cs : List Char) :
    (cs ++ rest).dropWhile p = cs.dropWhile p ++ rest := by
  induction cs with
  | nil =>
    cases rest with
    | nil => rfl
    | cons c rest => exact List.dropWhile_cons_of_neg (hrest c rfl)
  | cons c cs ih =>
    rw [List.cons_append, List.dropWhile_cons, List.dropWhile_cons, ih]
    split <;> rfl

/-- A break is found before the text that follows a gap, or not at all. -/
theorem paragraphBreak?_append (hrest : ∀ c ∈ rest.head?, ¬ isBlank c) (g : List Char) :
    paragraphBreak? (g ++ rest) = (paragraphBreak? g).map (· ++ rest) := by
  have hspace : ∀ c ∈ rest.head?, ¬ (c == ' ' || c == '\t') = true := by
    intro c hc h
    exact (not_mark_of_not_blank (hrest c hc)).2 (isSpace_iff.mp h)
  have hline : ∀ c ∈ rest.head?, ¬ (c == '\n') = true := by
    intro c hc h
    exact (not_mark_of_not_blank (hrest c hc)).1 (beq_iff_eq.mp h)
  rw [paragraphBreak?, paragraphBreak?, dropWhile_append_of_head hspace]
  cases hdrop : g.dropWhile fun c => c == ' ' || c == '\t' with
  | nil =>
    cases rest with
    | nil => rfl
    | cons c rest =>
      have hc : c ≠ '\n' := by simpa using hline
      simp [hc]
  | cons c k =>
    by_cases hc : c = '\n'
    · subst hc
      simp [dropWhile_append_of_head hline]
    · simp [hc]

theorem isSome_paragraphBreak?_iff : (paragraphBreak? g).isSome ↔
    ∃ line after, g = line ++ '\n' :: after ∧ ∀ c ∈ line, c = ' ' ∨ c = '\t' := by
  have hsplit := List.takeWhile_append_dropWhile (p := fun c => c == ' ' || c == '\t') (l := g)
  constructor
  · intro hsome
    rw [paragraphBreak?] at hsome
    split at hsome
    · next after heq =>
      rw [heq] at hsplit
      refine ⟨_, after, hsplit.symm, fun c hc => ?_⟩
      have hspace : (c == ' ' || c == '\t') = true := List.mem_takeWhile_imp (p := fun c => c == ' ' || c == '\t') hc
      exact isSpace_iff.mp hspace
    · exact absurd hsome Bool.false_ne_true
  · rintro ⟨line, after, rfl, hline⟩
    have hdrop : (line ++ '\n' :: after).dropWhile (fun c => c == ' ' || c == '\t') = '\n' :: after := by
      rw [List.dropWhile_append_of_pos fun c hc => isSpace_iff.mpr (hline c hc)]
      rfl
    rw [paragraphBreak?, hdrop]
    rfl

theorem suffix_of_paragraphBreak? {after : List Char} (h : paragraphBreak? g = some after) : after <:+ g := by
  rw [paragraphBreak?] at h
  split at h
  · next tail heq =>
    obtain rfl := Option.some.inj h
    have htail : tail <:+ g := (List.suffix_cons '\n' tail).trans (heq ▸ List.dropWhile_suffix _)
    exact (List.dropWhile_suffix _).trans htail
  · exact absurd h (by simp)

theorem breaks_cons_iff : Breaks (c :: g) ↔ c = '\n' ∧ (paragraphBreak? g).isSome ∨ Breaks g := by
  rw [isSome_paragraphBreak?_iff]
  constructor
  · rintro ⟨before, line, after, heq, hline⟩
    cases before with
    | nil =>
      obtain ⟨rfl, rfl⟩ := List.cons.inj heq
      exact .inl ⟨rfl, line, after, rfl, hline⟩
    | cons d before =>
      obtain ⟨rfl, rfl⟩ := List.cons.inj heq
      exact .inr ⟨before, line, after, rfl, hline⟩
  · rintro (⟨rfl, line, after, rfl, hline⟩ | ⟨before, line, after, rfl, hline⟩)
    · exact ⟨[], line, after, rfl, hline⟩
    · exact ⟨c :: before, line, after, rfl, hline⟩

theorem not_breaks_nil : ¬ Breaks [] := by
  rintro ⟨before, line, after, heq, -⟩
  simp at heq

instance decidableBreaks : DecidablePred Breaks
  | [] => .isFalse not_breaks_nil
  | _ :: g => have := decidableBreaks g; decidable_of_iff' _ breaks_cons_iff

/-! ## Paragraphs -/

theorem paragraphsFrom_break {after : List Char} (h : paragraphBreak? cs = some after) (current : List Char) :
    paragraphsFrom current ('\n' :: cs) = current.reverse :: paragraphsFrom [] after := by
  rw [paragraphsFrom, if_pos rfl]
  split
  · next found heq =>
    obtain rfl := Option.some.inj (h.symm.trans heq)
    rfl
  · next heq => exact absurd (h.symm.trans heq) (by simp)

theorem paragraphsFrom_read (h : c = '\n' → paragraphBreak? cs = none) (current : List Char) :
    paragraphsFrom current (c :: cs) = paragraphsFrom (c :: current) cs := by
  rw [paragraphsFrom]
  split
  · next hc =>
    split
    · next found heq => exact absurd ((h hc).symm.trans heq) (by simp)
    · rfl
  · rfl

/-- What has been read of a paragraph is the beginning of the first one. -/
theorem paragraphsFrom_eq (current cs : List Char) :
    paragraphsFrom current cs = (paragraphsFrom [] cs).modifyHead (current.reverse ++ ·) := by
  induction cs generalizing current with
  | nil => simp [paragraphsFrom]
  | cons c cs ih =>
    by_cases h : c = '\n' → paragraphBreak? cs = none
    · rw [paragraphsFrom_read h, paragraphsFrom_read h, ih, ih [c], List.modifyHead_modifyHead]
      congr 1
      funext p
      simp
    · obtain ⟨rfl, hsome⟩ := Classical.not_imp.mp h
      obtain ⟨after, hafter⟩ := Option.ne_none_iff_exists'.mp hsome
      rw [paragraphsFrom_break hafter, paragraphsFrom_break hafter]
      simp

theorem paragraphsFrom_cons (h : c = '\n' → paragraphBreak? cs = none) :
    paragraphsFrom [] (c :: cs) = (paragraphsFrom [] cs).modifyHead (c :: ·) := by
  rw [paragraphsFrom_read h, paragraphsFrom_eq]
  rfl

theorem paragraphsFrom_ne_nil (cs : List Char) : paragraphsFrom [] cs ≠ [] := by
  induction cs with
  | nil => simp [paragraphsFrom]
  | cons c cs ih =>
    by_cases h : c = '\n' → paragraphBreak? cs = none
    · rw [paragraphsFrom_cons h]
      simpa using ih
    · obtain ⟨rfl, hsome⟩ := Classical.not_imp.mp h
      obtain ⟨after, hafter⟩ := Option.ne_none_iff_exists'.mp hsome
      rw [paragraphsFrom_break hafter]
      exact List.cons_ne_nil _ _

/-- The first paragraph begins with the first character if that is not blank. -/
theorem exists_paragraphs (hrest : ∀ c ∈ rest.head?, ¬ isBlank c) (hne : rest ≠ []) :
    ∃ c p ps, ¬ isBlank c ∧ paragraphsFrom [] rest = (c :: p) :: ps := by
  obtain ⟨c, cs, rfl⟩ := List.exists_cons_of_ne_nil hne
  have hc : ¬ isBlank c := hrest c rfl
  obtain ⟨p, ps, hp⟩ := List.exists_cons_of_ne_nil (paragraphsFrom_ne_nil cs)
  refine ⟨c, p, ps, hc, ?_⟩
  rw [paragraphsFrom_cons fun h => absurd h (not_mark_of_not_blank hc).1, hp, List.modifyHead_cons]

theorem paragraphsFrom_solid (hw : ∀ c ∈ w, ¬ isBlank c) (rest : List Char) :
    paragraphsFrom [] (w ++ rest) = (paragraphsFrom [] rest).modifyHead (w ++ ·) := by
  induction w with
  | nil => exact (congrFun List.modifyHead_id _).symm
  | cons c w ih =>
    obtain ⟨hc, hmore⟩ := List.forall_mem_cons.mp hw
    rw [List.cons_append, paragraphsFrom_cons fun h => absurd h (not_mark_of_not_blank hc).1, ih hmore,
      List.modifyHead_modifyHead]
    rfl

/-- A gap without a break belongs to the paragraph after it. -/
theorem paragraphsFrom_of_not_breaks (hbreaks : ¬ Breaks g) (hrest : ∀ c ∈ rest.head?, ¬ isBlank c) :
    paragraphsFrom [] (g ++ rest) = (paragraphsFrom [] rest).modifyHead (g ++ ·) := by
  induction g with
  | nil => exact (congrFun List.modifyHead_id _).symm
  | cons c g ih =>
    rw [breaks_cons_iff, not_or, not_and, Bool.not_eq_true, Option.isSome_eq_false_iff,
      Option.isNone_iff_eq_none] at hbreaks
    have hread : c = '\n' → paragraphBreak? (g ++ rest) = none := by
      intro hc
      rw [paragraphBreak?_append hrest, hbreaks.1 hc, Option.map_none]
    rw [List.cons_append, paragraphsFrom_cons hread, ih hbreaks.2, List.modifyHead_modifyHead]
    rfl

/-- A gap with a break ends a paragraph; a shorter one may be left before the next paragraph. -/
theorem paragraphsFrom_of_breaks (hbreaks : Breaks g) (hrest : ∀ c ∈ rest.head?, ¬ isBlank c) :
    ∃ before after, before <+: g ∧ after <:+ g ∧ after.length < g.length ∧
      paragraphsFrom [] (g ++ rest) = before :: paragraphsFrom [] (after ++ rest) := by
  induction g with
  | nil => exact absurd hbreaks not_breaks_nil
  | cons c g ih =>
    by_cases h : c = '\n' → paragraphBreak? g = none
    · have hmore : Breaks g := by
        rcases breaks_cons_iff.mp hbreaks with ⟨hc, hsome⟩ | hmore
        · rw [h hc] at hsome
          exact absurd hsome Bool.false_ne_true
        · exact hmore
      obtain ⟨before, after, hbefore, hafter, hshort, hparagraphs⟩ := ih hmore
      have hread : c = '\n' → paragraphBreak? (g ++ rest) = none := by
        intro hc
        rw [paragraphBreak?_append hrest, h hc, Option.map_none]
      refine ⟨c :: before, after, List.cons_prefix_cons.mpr ⟨rfl, hbefore⟩, hafter.trans (List.suffix_cons c g),
        Nat.lt_succ_of_lt hshort, ?_⟩
      rw [List.cons_append, paragraphsFrom_cons hread, hparagraphs, List.modifyHead_cons]
    · obtain ⟨rfl, hsome⟩ := Classical.not_imp.mp h
      obtain ⟨after, hafter⟩ := Option.ne_none_iff_exists'.mp hsome
      have hsuffix := suffix_of_paragraphBreak? hafter
      have happend : paragraphBreak? (g ++ rest) = some (after ++ rest) := by
        rw [paragraphBreak?_append hrest, hafter, Option.map_some]
      refine ⟨[], after, List.nil_prefix, hsuffix.trans (List.suffix_cons _ g),
        Nat.lt_succ_of_le hsuffix.length_le, ?_⟩
      rw [List.cons_append, paragraphsFrom_break happend]
      rfl

/-! ## The texts of the paragraphs -/

/-- The texts of the paragraphs without blanks at their ends; what is all blank is no paragraph. -/
def pieces (cs : List Char) : List (List Char) :=
  ((paragraphsFrom [] cs).map trim).filter fun p => !p.isEmpty

theorem pieces_eq {p : List Char} {ps : List (List Char)} (h : paragraphsFrom [] cs = p :: ps) :
    pieces cs = (if (trim p).isEmpty then [] else [trim p]) ++ (ps.map trim).filter fun p => !p.isEmpty := by
  rw [pieces, h, List.map_cons, List.filter_cons]
  split_ifs <;> simp_all

theorem pieces_blanks (hg : Blanks g) (hrest : ∀ c ∈ rest.head?, ¬ isBlank c) :
    pieces (g ++ rest) = pieces rest := by
  induction hlength : g.length using Nat.strongRecOn generalizing g with
  | _ length ih =>
    by_cases hbreaks : Breaks g
    · obtain ⟨before, after, hbefore, hafter, hshort, hparagraphs⟩ := paragraphsFrom_of_breaks hbreaks hrest
      have htrim : trim before = [] := trim_blanks (blanks_of_subset hg hbefore.subset)
      rw [pieces_eq hparagraphs, htrim, ← ih after.length (hlength ▸ hshort) (blanks_of_subset hg hafter.subset) rfl]
      rfl
    · obtain ⟨p, ps, hp⟩ := List.exists_cons_of_ne_nil (paragraphsFrom_ne_nil rest)
      have hparagraphs := paragraphsFrom_of_not_breaks hbreaks hrest
      rw [hp, List.modifyHead_cons] at hparagraphs
      rw [pieces_eq hparagraphs, pieces_eq hp, trim_append_start hg]

/-- Without blanks in front a text keeps its first character when blanks are cut off. -/
theorem exists_trim_cons (hc : ¬ isBlank c) (cs : List Char) : ∃ p, trim (c :: cs) = c :: p := by
  obtain ⟨g, hg, hcut⟩ := exists_blanks_trimEnd (c :: cs)
  have hstart : trimStart (c :: cs) = c :: cs := trimStart_of_head (by simpa using hc)
  rw [trim, hstart]
  cases htrim : trimEnd (c :: cs) with
  | nil =>
    rw [htrim, List.nil_append] at hcut
    exact absurd (hg c (hcut ▸ List.mem_cons_self)) hc
  | cons d p =>
    rw [htrim, List.cons_append, List.cons.injEq] at hcut
    exact ⟨p, by rw [hcut.1]⟩

theorem exists_pieces (hrest : ∀ c ∈ rest.head?, ¬ isBlank c) (hne : rest ≠ []) :
    ∃ c p ps, ¬ isBlank c ∧ pieces rest = (c :: p) :: ps := by
  obtain ⟨c, p, ps, hc, hparagraphs⟩ := exists_paragraphs hrest hne
  obtain ⟨q, hq⟩ := exists_trim_cons hc p
  have hpieces := pieces_eq hparagraphs
  rw [hq] at hpieces
  exact ⟨c, q, _, hc, hpieces⟩

theorem pieces_word_of_breaks (hw : IsWord w) (hg : Blanks g) (hbreaks : Breaks g)
    (hrest : ∀ c ∈ rest.head?, ¬ isBlank c) : pieces (w ++ (g ++ rest)) = w :: pieces rest := by
  obtain ⟨before, after, hbefore, hafter, -, hparagraphs⟩ := paragraphsFrom_of_breaks hbreaks hrest
  have hfirst : paragraphsFrom [] (w ++ (g ++ rest)) = (w ++ before) :: paragraphsFrom [] (after ++ rest) := by
    rw [paragraphsFrom_solid hw.solid, hparagraphs, List.modifyHead_cons]
  have htrim : trim (w ++ before) = w := by
    rw [trim_append_end (blanks_of_subset hg hbefore.subset), trim_of_word hw]
  have hempty : w.isEmpty = false := by simpa using hw.ne_nil
  have hmore : pieces (after ++ rest) = pieces rest := pieces_blanks (blanks_of_subset hg hafter.subset) hrest
  rw [pieces_eq hfirst, htrim, hempty, ← hmore]
  rfl

theorem pieces_word_of_not_breaks (hw : IsWord w) (hbreaks : ¬ Breaks g) (hrest : ∀ c ∈ rest.head?, ¬ isBlank c)
    (hne : rest ≠ []) : pieces (w ++ (g ++ rest)) = (pieces rest).modifyHead fun p => w ++ (g ++ p) := by
  obtain ⟨c, p, ps, hc, hparagraphs⟩ := exists_paragraphs hrest hne
  have hfirst : paragraphsFrom [] (w ++ (g ++ rest)) = (w ++ (g ++ c :: p)) :: ps := by
    rw [paragraphsFrom_solid hw.solid, paragraphsFrom_of_not_breaks hbreaks hrest, hparagraphs,
      List.modifyHead_cons, List.modifyHead_cons]
  have htrim : trim (w ++ (g ++ c :: p)) = w ++ (g ++ trim (c :: p)) :=
    trim_word hw hc List.mem_cons_self (trimStart_of_head (by simpa using hc))
  obtain ⟨q, hq⟩ := exists_trim_cons hc p
  rw [pieces_eq hfirst, pieces_eq hparagraphs, htrim, hq]
  simp

theorem paragraphsFrom_nil : paragraphsFrom [] [] = [[]] := by
  rw [paragraphsFrom]
  rfl

theorem pieces_nil : pieces [] = [] := by
  rw [pieces_eq paragraphsFrom_nil]
  rfl

theorem pieces_word_last (hw : IsWord w) (hg : Blanks g) : pieces (w ++ g) = [w] := by
  have hend : ∀ c ∈ ([] : List Char).head?, ¬ isBlank c := nofun
  rw [← List.append_nil g]
  by_cases hbreaks : Breaks g
  · rw [pieces_word_of_breaks hw hg hbreaks hend, pieces_nil]
  · have hfirst : paragraphsFrom [] (w ++ (g ++ [])) = [w ++ (g ++ [])] := by
      rw [paragraphsFrom_solid hw.solid, paragraphsFrom_of_not_breaks hbreaks hend, paragraphsFrom_nil]
      rfl
    have hempty : w.isEmpty = false := by simpa using hw.ne_nil
    rw [pieces_eq hfirst, List.append_nil, trim_append_end hg, trim_of_word hw, hempty]
    rfl

theorem pieces_trimStart (cs : List Char) : pieces (trimStart cs) = pieces cs := by
  obtain ⟨g, hg, hcs⟩ := exists_blanks_trimStart cs
  calc pieces (trimStart cs) = pieces (g ++ trimStart cs) := (pieces_blanks hg not_isBlank_of_head_trimStart).symm
    _ = pieces cs := by rw [← hcs]

/-- The blanks at the ends of a text make no difference. -/
theorem pieces_trim (cs : List Char) : pieces (trim cs) = pieces cs := by
  rw [← pieces_trimStart cs, trim]
  have hworded := worded_trimStart cs
  generalize trimStart cs = cs at hworded
  induction hworded with
  | nil => rfl
  | @word w g rest hw hg hapart hrest ih =>
    by_cases hne : rest = []
    · have htrim : trimEnd (w ++ g) = w := by
        rw [trimEnd_append_blanks hg, trimEnd_of_getLast fun c hc => hw.solid c (List.mem_of_getLast? hc)]
      have hword := pieces_word_last hw blanks_nil
      rw [List.append_nil] at hword
      rw [hne, List.append_nil, htrim, pieces_word_last hw hg, hword]
    · obtain ⟨c, more, rfl⟩ := List.exists_cons_of_ne_nil hne
      have hc : ¬ isBlank c := hrest.head c rfl
      obtain ⟨p, hp⟩ := exists_trim_cons hc more
      rw [trim, trimStart_of_head hrest.head] at hp
      have hhead : ∀ d ∈ (trimEnd (c :: more)).head?, ¬ isBlank d := by
        rw [hp]
        simpa using hc
      have htrim : trimEnd (w ++ (g ++ c :: more)) = w ++ (g ++ trimEnd (c :: more)) := by
        rw [← List.append_assoc, trimEnd_append hc List.mem_cons_self, List.append_assoc]
      rw [htrim]
      by_cases hbreaks : Breaks g
      · rw [pieces_word_of_breaks hw hg hbreaks hhead, pieces_word_of_breaks hw hg hbreaks hrest.head, ih]
      · rw [pieces_word_of_not_breaks hw hbreaks hhead (by rw [hp]; exact List.cons_ne_nil _ _),
          pieces_word_of_not_breaks hw hbreaks hrest.head hne, ih]

/-- The text of a paragraph is not empty and has no blanks at its ends. -/
theorem ends_of_mem_pieces {p : List Char} (hp : p ∈ pieces cs) :
    p ≠ [] ∧ (∀ c ∈ p.head?, ¬ isBlank c) ∧ ∀ c ∈ p.getLast?, ¬ isBlank c := by
  rw [pieces, List.mem_filter, List.mem_map] at hp
  obtain ⟨⟨q, -, rfl⟩, hne⟩ := hp
  have hne : trim q ≠ [] := by simpa using hne
  refine ⟨hne, fun c hc => ?_, not_isBlank_of_getLast_trimEnd⟩
  obtain ⟨g, -, hcut⟩ := exists_blanks_trimEnd (trimStart q)
  have hstart : c ∈ (trimStart q).head? := by
    rw [hcut, List.head?_append, ← trim, Option.mem_def.mp hc]
    rfl
  exact not_isBlank_of_head_trimStart c hstart

end DocFilter.Markup
