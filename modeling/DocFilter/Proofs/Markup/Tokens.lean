import DocFilter.Node.Markup
import DocFilter.Proofs.Text.Words

/-!
# The tokens of a text

A text that consists of words and the gaps between them has the tokens of each, one after the other.

* `Markup.tokensFrom_word` gives the tokens of a text from those of its first word, the gap after it and the
  rest.
* The tokens of a gap are no words (`Markup.not_word_of_blanks`). There is one only where a character is a mark
  (`Markup.tokens_ne_nil_iff`), and a second one only where two marks are not in the same run of spaces and tabs
  (`Markup.two_le_tokens_iff`).
* The tokens of a text without blanks at its ends begin and end with words (`Markup.exists_word_head`,
  `Markup.exists_word_getLast`).
-/

namespace DocFilter.Markup

open Text

variable {cs rest w g : List Char} {c : Char}

/-- A line break, a space or a tab. -/
def IsMark (c : Char) : Prop := c = '\n' ∨ c = ' ' ∨ c = '\t'

instance : DecidablePred IsMark := fun _ => inferInstanceAs (Decidable (_ ∨ _ ∨ _))

theorem IsMark.isBlank (h : IsMark c) : isBlank c := by
  rcases h with rfl | rfl | rfl <;> decide

/-- The tokens of a text. -/
def tokens (cs : List Char) : List Token := tokensFrom [] false cs

@[simp] theorem flush_nil (tokens : List Token) : flush [] tokens = tokens := rfl

theorem flush_of_ne_nil {current : List Char} (h : current ≠ []) (tokens : List Token) :
    flush current tokens = .word current.reverse :: tokens := by
  rw [flush, if_neg (by simpa using h)]

theorem not_mark_of_not_blank (hc : ¬ Text.isBlank c) : ¬ c = '\n' ∧ ¬ (c = ' ' ∨ c = '\t') :=
  ⟨fun h => hc (IsMark.isBlank (.inl h)), fun h => hc (IsMark.isBlank (.inr h))⟩

/-! ## Words and gaps -/

/-- Characters that are not blank go on with the word that is being read. -/
theorem tokensFrom_append (hw : IsWord w) (current : List Char) (afterBlank : Bool) (rest : List Char) :
    tokensFrom current afterBlank (w ++ rest) = tokensFrom (w.reverse ++ current) false rest := by
  obtain ⟨hne, hsolid⟩ := hw
  induction w generalizing current afterBlank with
  | nil => exact absurd rfl hne
  | cons c w ih =>
    obtain ⟨hc, hmore⟩ := List.forall_mem_cons.mp hsolid
    obtain ⟨hline, hspace⟩ := not_mark_of_not_blank hc
    rw [List.cons_append, tokensFrom, if_neg hline, if_neg hspace, if_neg hc]
    cases w with
    | nil => rfl
    | cons d w =>
      rw [ih (c :: current) false (List.cons_ne_nil d w) hmore]
      simp only [List.reverse_cons, List.append_assoc, List.cons_append, List.nil_append]

/-- A blank ends the word that is being read, and so does the end of the text. -/
theorem tokensFrom_flush (hcs : ∀ c ∈ cs.head?, isBlank c) (current : List Char) (afterBlank : Bool) :
    tokensFrom current afterBlank cs = flush current (tokensFrom [] afterBlank cs) := by
  cases cs with
  | nil => rfl
  | cons c cs =>
    have hc : isBlank c := hcs c rfl
    rw [tokensFrom, tokensFrom, flush_nil, flush_nil, flush_nil, if_pos hc, if_pos hc]
    split_ifs <;> rfl

/-- It makes no difference before a word whether a run of spaces has been counted. -/
theorem tokensFrom_of_head (hcs : ∀ c ∈ cs.head?, ¬ isBlank c) (afterBlank : Bool) :
    tokensFrom [] afterBlank cs = tokens cs := by
  cases cs with
  | nil => rfl
  | cons c cs =>
    have hc : ¬ isBlank c := hcs c rfl
    obtain ⟨hline, hspace⟩ := not_mark_of_not_blank hc
    rw [tokens, tokensFrom, if_neg hline, if_neg hspace, if_neg hc, tokensFrom, if_neg hline, if_neg hspace,
      if_neg hc]

theorem tokensFrom_line (afterBlank : Bool) (cs : List Char) :
    tokensFrom [] afterBlank ('\n' :: cs) = .lineBreak :: tokensFrom [] false cs := by
  rw [tokensFrom, if_pos rfl, flush_nil]

theorem tokensFrom_space (hc : c = ' ' ∨ c = '\t') (afterBlank : Bool) (cs : List Char) :
    tokensFrom [] afterBlank (c :: cs) = (if afterBlank then [] else [.blanks]) ++ tokensFrom [] true cs := by
  have hline : c ≠ '\n' := by rcases hc with rfl | rfl <;> decide
  rw [tokensFrom, if_neg hline, if_pos hc, flush_nil]

theorem tokensFrom_other (hc : isBlank c) (hmark : ¬ IsMark c) (afterBlank : Bool) (cs : List Char) :
    tokensFrom [] afterBlank (c :: cs) = tokensFrom [] false cs := by
  obtain ⟨hline, hspace⟩ := not_or.mp hmark
  rw [tokensFrom, if_neg hline, if_neg hspace, if_pos hc, flush_nil]

/-- The tokens of a gap and of the text after it. -/
theorem tokensFrom_blanks (hg : Blanks g) (hrest : ∀ c ∈ rest.head?, ¬ isBlank c) (afterBlank : Bool) :
    tokensFrom [] afterBlank (g ++ rest) = tokensFrom [] afterBlank g ++ tokens rest := by
  induction g generalizing afterBlank with
  | nil => exact tokensFrom_of_head hrest afterBlank
  | cons c g ih =>
    obtain ⟨hc, hmore⟩ := List.forall_mem_cons.mp hg
    rw [List.cons_append]
    by_cases hmark : IsMark c
    · rcases hmark with rfl | hspace
      · rw [tokensFrom_line, tokensFrom_line, ih hmore, List.cons_append]
      · rw [tokensFrom_space hspace, tokensFrom_space hspace, ih hmore, List.append_assoc]
    · rw [tokensFrom_other hc hmark, tokensFrom_other hc hmark, ih hmore]

theorem head_append_blank (hg : Blanks g) (hne : g ≠ []) (rest : List Char) :
    ∀ c ∈ (g ++ rest).head?, isBlank c := by
  obtain ⟨d, g, rfl⟩ := List.exists_cons_of_ne_nil hne
  intro c hc
  obtain rfl : d = c := by simpa using hc
  exact hg d List.mem_cons_self

/-- The tokens of a text that begins with a word. -/
theorem tokensFrom_word (hw : IsWord w) (hg : Blanks g) (hapart : rest ≠ [] → g ≠ [])
    (hrest : ∀ c ∈ rest.head?, ¬ isBlank c) (afterBlank : Bool) :
    tokensFrom [] afterBlank (w ++ (g ++ rest)) = .word w :: (tokens g ++ tokens rest) := by
  have hhead : ∀ c ∈ (g ++ rest).head?, isBlank c := by
    by_cases hne : g = []
    · obtain rfl : rest = [] := by
        by_contra hrest
        exact hapart hrest hne
      simp [hne]
    · exact head_append_blank hg hne rest
  have hcurrent : w.reverse ++ [] ≠ [] := by simpa using hw.ne_nil
  rw [tokensFrom_append hw, tokensFrom_flush hhead, flush_of_ne_nil hcurrent, tokensFrom_blanks hg hrest,
    List.append_nil, List.reverse_reverse]
  rfl

/-! ## The tokens of a gap -/

theorem not_word_of_blanks (hg : Blanks g) (afterBlank : Bool) (w : List Char) :
    .word w ∉ tokensFrom [] afterBlank g := by
  induction g generalizing afterBlank with
  | nil => exact List.not_mem_nil
  | cons c g ih =>
    obtain ⟨hc, hmore⟩ := List.forall_mem_cons.mp hg
    by_cases hmark : IsMark c
    · rcases hmark with rfl | hspace
      · rw [tokensFrom_line]
        simp [ih hmore]
      · rw [tokensFrom_space hspace]
        split_ifs <;> simp [ih hmore]
    · rw [tokensFrom_other hc hmark]
      exact ih hmore false

/-- A gap has a token where a character is a mark. -/
theorem tokens_ne_nil_iff (hg : Blanks g) : tokens g ≠ [] ↔ ∃ c ∈ g, IsMark c := by
  rw [tokens]
  induction g with
  | nil => simp [tokensFrom]
  | cons c g ih =>
    obtain ⟨hc, hmore⟩ := List.forall_mem_cons.mp hg
    by_cases hmark : IsMark c
    · refine iff_of_true ?_ ⟨c, List.mem_cons_self, hmark⟩
      rcases hmark with rfl | hspace
      · rw [tokensFrom_line]
        exact List.cons_ne_nil _ _
      · rw [tokensFrom_space hspace]
        exact List.cons_ne_nil _ _
    · rw [tokensFrom_other hc hmark, ih hmore]
      simp [hmark]

/-- After spaces and tabs a token comes with the next mark that is not in the same run. -/
theorem tokensFrom_true_ne_nil_iff (hg : Blanks g) : tokensFrom [] true g ≠ [] ↔
    ∃ before d after, g = before ++ d :: after ∧ IsMark d ∧ ¬ ∀ c ∈ before ++ [d], c = ' ' ∨ c = '\t' := by
  induction g with
  | nil => simp [tokensFrom]
  | cons c g ih =>
    obtain ⟨hc, hmore⟩ := List.forall_mem_cons.mp hg
    by_cases hmark : IsMark c
    · rcases hmark with rfl | hspace
      · refine iff_of_true ?_ ⟨[], '\n', g, rfl, .inl rfl, by simp⟩
        rw [tokensFrom_line]
        exact List.cons_ne_nil _ _
      · rw [tokensFrom_space hspace, if_pos rfl, List.nil_append, ih hmore]
        constructor
        · rintro ⟨before, d, after, rfl, hd, hrun⟩
          exact ⟨c :: before, d, after, rfl, hd, fun hall => hrun (List.forall_mem_cons.mp hall).2⟩
        · rintro ⟨before, d, after, heq, hd, hrun⟩
          cases before with
          | nil =>
            obtain ⟨rfl, -⟩ := List.cons.inj heq
            exact absurd (by simpa using hspace) hrun
          | cons e before =>
            obtain ⟨rfl, rfl⟩ := List.cons.inj heq
            exact ⟨before, d, after, rfl, hd, fun hall => hrun (List.forall_mem_cons.mpr ⟨hspace, hall⟩)⟩
    · rw [tokensFrom_other hc hmark, ← tokens, tokens_ne_nil_iff hmore]
      have hother : ¬ (c = ' ' ∨ c = '\t') := fun h => hmark (.inr h)
      constructor
      · rintro ⟨d, hd, hdmark⟩
        obtain ⟨before, after, rfl⟩ := List.append_of_mem hd
        exact ⟨c :: before, d, after, rfl, hdmark, fun hall => hother (hall c List.mem_cons_self)⟩
      · rintro ⟨before, d, after, heq, hd, -⟩
        cases before with
        | nil =>
          obtain ⟨rfl, -⟩ := List.cons.inj heq
          exact absurd hd hmark
        | cons e before =>
          obtain ⟨rfl, rfl⟩ := List.cons.inj heq
          exact ⟨d, by simp, hd⟩

/-- Blanks with two marks that are not in the same run of spaces and tabs. -/
def Doubled (g : List Char) : Prop := ∃ before c between d after, g = before ++ c :: (between ++ d :: after) ∧
  IsMark c ∧ IsMark d ∧ ¬ ∀ e ∈ c :: (between ++ [d]), e = ' ' ∨ e = '\t'

/-- The second mark comes after the first character, or both do. -/
theorem doubled_cons_iff : Doubled (c :: g) ↔ Doubled g ∨ IsMark c ∧ ∃ before d after,
    g = before ++ d :: after ∧ IsMark d ∧ ¬ ∀ e ∈ c :: (before ++ [d]), e = ' ' ∨ e = '\t' := by
  constructor
  · rintro ⟨before, b, between, d, after, heq, hb, hd, hrun⟩
    cases before with
    | nil =>
      obtain ⟨rfl, rfl⟩ := List.cons.inj heq
      exact .inr ⟨hb, between, d, after, rfl, hd, hrun⟩
    | cons e before =>
      obtain ⟨rfl, rfl⟩ := List.cons.inj heq
      exact .inl ⟨before, b, between, d, after, rfl, hb, hd, hrun⟩
  · rintro (⟨before, b, between, d, after, rfl, hb, hd, hrun⟩ | ⟨hc, before, d, after, rfl, hd, hrun⟩)
    · exact ⟨c :: before, b, between, d, after, rfl, hb, hd, hrun⟩
    · exact ⟨[], c, before, d, after, rfl, hc, hd, hrun⟩

theorem Doubled.exists_mark (h : Doubled g) : ∃ before d after, g = before ++ d :: after ∧ IsMark d ∧
    ¬ ∀ e ∈ before ++ [d], e = ' ' ∨ e = '\t' := by
  obtain ⟨before, c, between, d, after, rfl, -, hd, hrun⟩ := h
  refine ⟨before ++ c :: between, d, after, by simp, hd, fun hall => hrun fun e he => hall e ?_⟩
  simp only [List.append_assoc, List.cons_append, List.mem_append]
  exact .inr he

/-- A gap has two tokens where two marks are not in the same run of spaces and tabs. -/
theorem two_le_tokens_iff (hg : Blanks g) : 2 ≤ (tokens g).length ↔ Doubled g := by
  induction g with
  | nil => simp [tokens, tokensFrom, Doubled]
  | cons c g ih =>
    obtain ⟨hc, hmore⟩ := List.forall_mem_cons.mp hg
    have hpos (ts : List Token) : 2 ≤ ts.length + 1 ↔ ts ≠ [] := by
      rw [← List.length_pos_iff]
      omega
    rw [doubled_cons_iff]
    by_cases hmark : IsMark c
    · rcases hmark with rfl | hspace
      · rw [tokens, tokensFrom_line, List.length_cons, hpos, ← tokens, tokens_ne_nil_iff hmore]
        constructor
        · rintro ⟨d, hd, hdmark⟩
          obtain ⟨before, after, rfl⟩ := List.append_of_mem hd
          exact .inr ⟨.inl rfl, before, d, after, rfl, hdmark, by simp⟩
        · rintro (hdoubled | ⟨-, before, d, after, rfl, hd, -⟩)
          · obtain ⟨before, d, after, rfl, hd, -⟩ := hdoubled.exists_mark
            exact ⟨d, by simp, hd⟩
          · exact ⟨d, by simp, hd⟩
      · rw [tokens, tokensFrom_space hspace, if_neg Bool.false_ne_true, List.singleton_append, List.length_cons,
          hpos, tokensFrom_true_ne_nil_iff hmore]
        constructor
        · rintro ⟨before, d, after, rfl, hd, hrun⟩
          exact .inr ⟨.inr hspace, before, d, after, rfl, hd, fun hall => hrun (List.forall_mem_cons.mp hall).2⟩
        · rintro (hdoubled | ⟨-, before, d, after, rfl, hd, hrun⟩)
          · exact hdoubled.exists_mark
          · exact ⟨before, d, after, rfl, hd, fun hall => hrun (List.forall_mem_cons.mpr ⟨hspace, hall⟩)⟩
    · rw [tokens, tokensFrom_other hc hmark, ← tokens, ih hmore, or_iff_left fun h => hmark h.1]

/-! ## The ends of a text -/

theorem exists_word_head (hcs : ∀ c ∈ cs.head?, ¬ isBlank c) (hne : cs ≠ []) :
    ∃ w more, IsWord w ∧ tokens cs = .word w :: more := by
  cases worded_of_head hcs with
  | nil => exact absurd rfl hne
  | word hw hg hapart hrest => exact ⟨_, _, hw, tokensFrom_word hw hg hapart hrest.head false⟩

theorem exists_word_getLast (hcs : ∀ c ∈ cs.head?, ¬ isBlank c) (hlast : ∀ c ∈ cs.getLast?, ¬ isBlank c)
    (hne : cs ≠ []) : ∃ before w, IsWord w ∧ tokens cs = before ++ [.word w] := by
  have hworded := worded_of_head hcs
  clear hcs
  induction hworded with
  | nil => exact absurd rfl hne
  | @word w g rest hw hg hapart hrest ih =>
    rw [tokens, tokensFrom_word hw hg hapart hrest.head false]
    by_cases hmore : rest = []
    · obtain rfl : g = [] := by
        rcases List.eq_nil_or_concat g with rfl | ⟨init, c, rfl⟩
        · rfl
        · have hc : c ∈ (w ++ (init.concat c ++ rest)).getLast? := by simp [hmore, ← List.append_assoc]
          exact absurd (hg c (by simp)) (hlast c hc)
      exact ⟨[], w, hw, by rw [hmore]; rfl⟩
    · have hlast' : ∀ c ∈ rest.getLast?, ¬ isBlank c := by
        intro c hc
        refine hlast c ?_
        rw [List.getLast?_append, List.getLast?_append, Option.mem_def.mp hc]
        rfl
      obtain ⟨before, v, hv, htokens⟩ := ih hlast' hmore
      exact ⟨.word w :: (tokens g ++ before), v, hv, by rw [htokens]; simp⟩

end DocFilter.Markup
