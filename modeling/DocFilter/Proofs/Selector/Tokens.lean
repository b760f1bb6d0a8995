import DocFilter.Selector.Compile
import Mathlib.Data.List.TakeWhile

/-!
# The tokens of a selector

A selector text is cut into tokens that are as long as they can be, and between them only blanks are passed over.

* `Selector.Covers` says how tokens lie in a text: each one ends where the text goes on with a character that it
  cannot take, and what is not part of a token is blank.
* `Selector.tokens_eq_iff` says that a text has the tokens that cover it and no others.  Every text is covered, so
  the reader comes to its end and never stands before characters that begin no token.
-/

namespace DocFilter.Selector

variable {cs rest rest' blanks blanks' : List Char} {t t' : Token} {ts ts' : List Token} {fuel : Nat}

/-- Some characters that are all blank. -/
abbrev Blanks (cs : List Char) : Prop := ∀ c ∈ cs, Text.isBlank c

/-- The characters of a token. -/
def Token.chars : Token → List Char
  | .childOf => ['>']
  | .follows raw => '+' :: raw
  | .name cs => cs

/-- A token where it stands in front of the rest of a text: it has at least one character, all of its characters
can be in it, and the one that comes next, if any, cannot. -/
def Token.Stands : Token → List Char → Prop
  | .childOf, _ => True
  | .follows raw, rest => (∀ c ∈ raw, ¬ endsDistance c) ∧ ∀ c ∈ rest.head?, endsDistance c
  | .name cs, rest => cs ≠ [] ∧ (∀ c ∈ cs, ¬ endsName c) ∧ ∀ c ∈ rest.head?, endsName c

/-- Tokens lie in a text one after the other, and what is before, between and after them is blank. -/
inductive Covers : List Token → List Char → Prop where
  | nil {blanks : List Char} : Blanks blanks → Covers [] blanks
  | cons {blanks : List Char} {t : Token} {ts : List Token} {rest : List Char} :
      Blanks blanks → t.Stands rest → Covers ts rest → Covers (t :: ts) (blanks ++ (t.chars ++ rest))

/-! ## Characters up to one that ends them -/

theorem takeWhile_of_head {ends : Char → Bool} (hcs : ∀ c ∈ cs, ¬ ends c) (hrest : ∀ c ∈ rest.head?, ends c) :
    (cs ++ rest).takeWhile (!ends ·) = cs := by
  rw [List.takeWhile_append_of_pos fun c hc => by simpa using hcs c hc]
  cases rest with
  | nil => simp
  | cons c rest => simp [hrest c rfl]

theorem dropWhile_of_head {ends : Char → Bool} (hcs : ∀ c ∈ cs, ¬ ends c) (hrest : ∀ c ∈ rest.head?, ends c) :
    (cs ++ rest).dropWhile (!ends ·) = rest := by
  rw [List.dropWhile_append_of_pos fun c hc => by simpa using hcs c hc]
  cases rest with
  | nil => rfl
  | cons c rest => simp [hrest c rfl]

theorem not_ends_of_mem_takeWhile {ends : Char → Bool} : ∀ c ∈ cs.takeWhile (!ends ·), ¬ ends c :=
  fun c hc => by simpa using List.mem_takeWhile_imp hc

theorem ends_head_dropWhile {ends : Char → Bool} : ∀ c ∈ (cs.dropWhile (!ends ·)).head?, ends c := fun c hc => by
  have hhead := List.head?_dropWhile_not (!ends ·) cs
  rw [Option.mem_def.mp hc] at hhead
  simpa using hhead

/-- Characters are cut in one way only before the first one that ends them. -/
theorem append_cut {ends : Char → Bool} {cs' : List Char} (hcs : ∀ c ∈ cs, ¬ ends c)
    (hrest : ∀ c ∈ rest.head?, ends c) (hcs' : ∀ c ∈ cs', ¬ ends c) (hrest' : ∀ c ∈ rest'.head?, ends c)
    (h : cs ++ rest = cs' ++ rest') : cs = cs' ∧ rest = rest' := by
  have htake := takeWhile_of_head hcs hrest
  have hdrop := dropWhile_of_head hcs hrest
  rw [h] at htake hdrop
  exact ⟨htake.symm.trans (takeWhile_of_head hcs' hrest'), hdrop.symm.trans (dropWhile_of_head hcs' hrest')⟩

/-! ## Tokens in their place -/

theorem endsDistance_of_endsName {c : Char} (h : endsName c) : endsDistance c := by
  simp [endsDistance, h]

theorem endsName_of_isBlank {c : Char} (h : Text.isBlank c) : endsName c := by
  simp [endsName, h]

/-- A token begins with a character that is not blank. -/
theorem Token.Stands.exists_head (h : t.Stands rest) : ∃ c cs, t.chars = c :: cs ∧ ¬ Text.isBlank c := by
  cases t with
  | childOf => exact ⟨'>', [], rfl, by decide⟩
  | follows raw => exact ⟨'+', raw, rfl, by decide⟩
  | name cs =>
    obtain ⟨hne, hcs, -⟩ := h
    obtain ⟨c, cs, rfl⟩ := List.exists_cons_of_ne_nil hne
    exact ⟨c, cs, rfl, fun hblank => hcs c (by simp) (endsName_of_isBlank hblank)⟩

theorem Token.Stands.head_not_blank (h : t.Stands rest) :
    ∀ c ∈ (t.chars ++ rest).head?, (!Text.isBlank c) := by
  obtain ⟨c, cs, heq, hblank⟩ := h.exists_head
  simpa [heq] using hblank

/-- What a token is can be told from the text, as a name begins with neither sign. -/
theorem Token.Stands.unique (h : t.Stands rest) (h' : t'.Stands rest')
    (heq : t.chars ++ rest = t'.chars ++ rest') : t = t' ∧ rest = rest' := by
  have hname : ∀ {cs rest : List Char} {c : Char} {more : List Char}, (Token.name cs).Stands rest →
      cs ++ rest = c :: more → ¬ endsName c := by
    rintro cs rest c more ⟨hne, hcs, -⟩ happend
    obtain ⟨d, ds, rfl⟩ := List.exists_cons_of_ne_nil hne
    obtain ⟨rfl, -⟩ := List.cons.inj happend
    exact hcs d (by simp)
  cases t with
  | childOf =>
    cases t' with
    | childOf => exact ⟨rfl, (List.cons.inj heq).2⟩
    | follows raw => exact absurd (List.cons.inj heq).1 (by decide)
    | name cs => exact absurd (by decide) (hname h' heq.symm)
  | follows raw =>
    cases t' with
    | childOf => exact absurd (List.cons.inj heq).1 (by decide)
    | follows raw' =>
      obtain ⟨rfl, rfl⟩ := append_cut h.1 h.2 h'.1 h'.2 (List.cons.inj heq).2
      exact ⟨rfl, rfl⟩
    | name cs => exact absurd (by decide) (hname h' heq.symm)
  | name cs =>
    cases t' with
    | childOf => exact absurd (by decide) (hname h heq)
    | follows raw => exact absurd (by decide) (hname h heq)
    | name cs' =>
      obtain ⟨rfl, rfl⟩ := append_cut h.2.1 h.2.2 h'.2.1 h'.2.2 heq
      exact ⟨rfl, rfl⟩

/-! ## Texts and their tokens -/

/-- No other tokens cover a text. -/
theorem Covers.unique (h : Covers ts cs) (h' : Covers ts' cs) : ts = ts' := by
  induction h generalizing ts' with
  | @nil blanks hblanks =>
    generalize hcs : blanks = cs at h'
    cases h' with
    | nil => rfl
    | @cons blanks' t' ts' rest' _ hstands _ =>
      obtain ⟨c, ds, hchars, hc⟩ := hstands.exists_head
      exact absurd (hblanks c (by simp [hcs, hchars])) hc
  | @cons blanks t ts rest hblanks hstands _ ih =>
    generalize hcs : blanks ++ (t.chars ++ rest) = cs at h'
    cases h' with
    | nil hall =>
      obtain ⟨c, ds, hchars, hc⟩ := hstands.exists_head
      exact absurd (hall c (by simp [← hcs, hchars])) hc
    | @cons blanks' t' ts' rest' hblanks' hstands' hcovers =>
      have hbefore : ∀ {bs : List Char}, Blanks bs → ∀ c ∈ bs, ¬ (!Text.isBlank c) := fun hall c hc => by
        simp [hall c hc]
      have hcut := append_cut (hbefore hblanks) hstands.head_not_blank
        (hbefore hblanks') hstands'.head_not_blank hcs
      obtain ⟨rfl, rfl⟩ := hstands.unique hstands' hcut.2
      rw [ih hcovers]

/-- The tokens of a text cover it, if there is fuel for each of its characters. -/
theorem covers_tokensWithin (hfuel : cs.length ≤ fuel) : Covers (tokensWithin fuel cs) cs := by
  induction fuel generalizing cs with
  | zero =>
    rw [List.length_eq_zero_iff.mp (Nat.le_zero.mp hfuel)]
    exact .nil nofun
  | succ fuel ih =>
    have hblanks : Blanks (cs.takeWhile Text.isBlank) := fun c hc => List.mem_takeWhile_imp hc
    have hsplit : cs.takeWhile Text.isBlank ++ Text.trimStart cs = cs := List.takeWhile_append_dropWhile
    have hlength : (Text.trimStart cs).length ≤ fuel + 1 :=
      Nat.le_trans (List.dropWhile_sublist _).length_le hfuel
    have hhead : ∀ c ∈ (Text.trimStart cs).head?, (!Text.isBlank c) := fun c hc => by
      have hnot := List.head?_dropWhile_not Text.isBlank cs
      rw [← Text.trimStart, Option.mem_def.mp hc] at hnot
      simpa using hnot
    rw [tokensWithin]
    generalize cs.takeWhile Text.isBlank = blanks at hblanks hsplit
    generalize Text.trimStart cs = text at hsplit hlength hhead
    subst hsplit
    split
    · rw [List.append_nil]
      exact .nil hblanks
    · exact .cons (t := .childOf) hblanks trivial (ih (by simpa using hlength))
    · rename_i rest
      have hshorter := (List.dropWhile_sublist (!endsDistance ·) (l := rest)).length_le
      have hcovers : Covers (tokensWithin fuel (rest.dropWhile (!endsDistance ·))) (rest.dropWhile (!endsDistance ·)) :=
        ih (by simp only [List.length_cons] at hlength; omega)
      have hall := Covers.cons (t := .follows (rest.takeWhile (!endsDistance ·))) hblanks
        ⟨not_ends_of_mem_takeWhile, ends_head_dropWhile⟩ hcovers
      rwa [Token.chars, List.cons_append, List.takeWhile_append_dropWhile] at hall
    · rename_i hnil hchild hfollows
      obtain ⟨c, rest, rfl⟩ := List.exists_cons_of_ne_nil hnil
      have hc : ¬ endsName c := by
        have hblank := hhead c rfl
        have hgt : c ≠ '>' := fun heq => hchild rest (by rw [heq])
        have hplus : c ≠ '+' := fun heq => hfollows rest (by rw [heq])
        simp_all [endsName]
      have hdrop : (c :: rest).dropWhile (!endsName ·) = rest.dropWhile (!endsName ·) := by simp [hc]
      have hshorter := (List.dropWhile_sublist (!endsName ·) (l := rest)).length_le
      have hcovers : Covers (tokensWithin fuel ((c :: rest).dropWhile (!endsName ·)))
          ((c :: rest).dropWhile (!endsName ·)) :=
        ih (by simp only [hdrop, List.length_cons] at hlength ⊢; omega)
      have hall := Covers.cons (t := .name ((c :: rest).takeWhile (!endsName ·))) hblanks
        ⟨by simp [hc], not_ends_of_mem_takeWhile, ends_head_dropWhile⟩ hcovers
      rwa [Token.chars, List.takeWhile_append_dropWhile] at hall

/-- The tokens of a text are the ones that cover it. -/
theorem tokens_eq_iff : tokens cs = ts ↔ Covers ts cs := by
  have hcovers : Covers (tokens cs) cs := covers_tokensWithin (Nat.le_refl _)
  exact ⟨fun h => h ▸ hcovers, fun h => hcovers.unique h⟩

end DocFilter.Selector
