import DocFilter.Metadata.Block
import DocFilter.Proofs.Text.Words

/-!
# The fences of a metadata block

A metadata block may stand between two fences.  One fence is taken off each end, and what stands between them is
kept as it is, also if it looks like a fence itself.

* `OpeningFence` and `ClosingFence` are the fences, whatever their blanks.
* `withoutOpening_append` and `withoutClosing_append` take one off.  A closing fence cannot begin before the last
  one: of the characters that would follow its mark, one is a mark again (`not_isClosing_append`).
* `withoutOpening_eq_self_iff` and `withoutClosing_eq_self_iff` are that a text without a fence stays as it is.
* `unfenced_exact` is the result for whole texts.
-/

namespace DocFilter

open Text (Blanks isBlank)

/-- A fence that opens a block: blanks, three dashes, spaces and tabs, and a line feed. -/
structure OpeningFence where
  margin : List Char
  gap : List Char
  margin_blank : Blanks margin
  gap_blank : ∀ c ∈ gap, c = ' ' ∨ c = '\t'

/-- A fence that closes a block: a line feed, three dashes or three dots, and blanks. -/
structure ClosingFence where
  mark : Char
  tail : List Char
  mark_eq : mark = '-' ∨ mark = '.'
  tail_blank : Blanks tail

namespace OpeningFence

/-- The characters of an opening fence. -/
def chars (o : OpeningFence) : List Char := o.margin ++ '-' :: '-' :: '-' :: (o.gap ++ ['\n'])

/-- The text of an opening fence. -/
def text (o : OpeningFence) : String := String.ofList o.chars

end OpeningFence

namespace ClosingFence

/-- The characters of a closing fence after its line feed. -/
def line (c : ClosingFence) : List Char := c.mark :: c.mark :: c.mark :: c.tail

/-- The characters of a closing fence. -/
def chars (c : ClosingFence) : List Char := '\n' :: c.line

/-- The text of a closing fence. -/
def text (c : ClosingFence) : String := String.ofList c.chars

theorem not_isBlank_mark (c : ClosingFence) : ¬ isBlank c.mark := by
  rcases c.mark_eq with h | h <;> rw [h] <;> decide

end ClosingFence

namespace MetaValue

variable {cs : List Char}

/-! ## The fence at the start -/

theorem withoutOpening_append (o : OpeningFence) (rest : List Char) : withoutOpening (o.chars ++ rest) = rest := by
  have hgap : ∀ c ∈ o.gap, (c == ' ' || c == '\t') = true := fun c hc => by simpa using o.gap_blank c hc
  have hstart : Text.trimStart (o.chars ++ rest) = '-' :: '-' :: '-' :: (o.gap ++ '\n' :: rest) := by
    simp only [OpeningFence.chars, List.append_assoc, List.cons_append, List.nil_append,
      Text.trimStart_append o.margin_blank]
    rfl
  have hend : (o.gap ++ '\n' :: rest).dropWhile (fun c => c == ' ' || c == '\t') = '\n' :: rest := by
    rw [List.dropWhile_append_of_pos hgap]
    rfl
  simp only [withoutOpening, hstart, hend]

theorem withoutOpening_eq_self_iff : withoutOpening cs = cs ↔ ∀ o : OpeningFence, ¬ o.chars <+: cs := by
  refine ⟨?_, fun h => ?_⟩
  · rintro h o ⟨rest, rfl⟩
    rw [withoutOpening_append] at h
    have hlength := congrArg List.length h
    simp [OpeningFence.chars] at hlength
    omega
  rw [withoutOpening]
  split
  next behind hbehind =>
    split
    next rest hrest =>
      obtain ⟨margin, hmargin, hcs⟩ := Text.exists_blanks_trimStart cs
      let gap := behind.takeWhile fun c => c == ' ' || c == '\t'
      have hgap : ∀ c ∈ gap, c = ' ' ∨ c = '\t' := fun c hc => by simpa using List.mem_takeWhile_imp hc
      have hline : behind = gap ++ '\n' :: rest := by
        rw [← hrest]
        exact List.takeWhile_append_dropWhile.symm
      refine absurd ⟨rest, ?_⟩ (h ⟨margin, gap, hmargin, hgap⟩)
      rw [hcs, hbehind, hline]
      simp [OpeningFence.chars]
    next => rfl
  next => rfl

/-! ## The fence at the end -/

theorem isClosing_iff : isClosing cs ↔ ∃ c : ClosingFence, c.line = cs := by
  constructor
  · intro h
    rw [isClosing.eq_def] at h
    split at h
    next rest => exact ⟨⟨'-', rest, .inl rfl, List.all_eq_true.mp h⟩, rfl⟩
    next rest => exact ⟨⟨'.', rest, .inr rfl, List.all_eq_true.mp h⟩, rfl⟩
    next => cases h
  · rintro ⟨c, rfl⟩
    rcases c.mark_eq with h | h <;> rw [ClosingFence.line, h] <;> exact List.all_eq_true.mpr c.tail_blank

/-- Only blanks come after the mark of a closing fence, so that no fence begins before another one: its
tail would hold the last mark of the other. -/
theorem not_isClosing_append (body : List Char) (c : ClosingFence) : ¬ isClosing (body ++ c.chars) := by
  intro h
  obtain ⟨outer, houter⟩ := isClosing_iff.mp h
  have hsplit : body ++ c.chars = (body ++ ['\n', c.mark, c.mark]) ++ c.mark :: c.tail := by
    simp [ClosingFence.chars, ClosingFence.line]
  have hdrop : outer.tail = (body ++ ['\n', c.mark, c.mark]).drop 3 ++ c.mark :: c.tail := by
    rw [← List.drop_append_of_le_length (by simp), ← hsplit, ← houter]
    rfl
  have hmem : c.mark ∈ outer.tail := by simp [hdrop]
  exact c.not_isBlank_mark (outer.tail_blank c.mark hmem)

theorem withoutClosing_append (body : List Char) (c : ClosingFence) :
    withoutClosing (body ++ c.chars) = body ++ ['\n'] := by
  induction body with
  | nil =>
    rw [List.nil_append, ClosingFence.chars, withoutClosing, if_pos (isClosing_iff.mpr ⟨c, rfl⟩)]
    rfl
  | cons ch body ih =>
    rw [List.cons_append, withoutClosing.eq_def]
    split
    next h => cases h
    next h =>
      obtain ⟨rfl, rfl⟩ := List.cons.inj h
      rw [if_neg (not_isClosing_append body c), ih, List.cons_append]
    next h =>
      obtain ⟨rfl, rfl⟩ := List.cons.inj h
      rw [ih, List.cons_append]

theorem withoutClosing_eq_self_iff : withoutClosing cs = cs ↔ ∀ c : ClosingFence, ¬ c.chars <:+ cs := by
  refine ⟨?_, fun h => ?_⟩
  · rintro h c ⟨body, rfl⟩
    rw [withoutClosing_append, List.append_cancel_left_eq] at h
    cases h
  induction cs with
  | nil => rfl
  | cons ch cs ih =>
    have hmore := ih fun c hc => h c (hc.trans (List.suffix_cons ch cs))
    rw [withoutClosing.eq_def]
    split
    next heq => cases heq
    next heq =>
      obtain ⟨rfl, rfl⟩ := List.cons.inj heq
      have hopen : ¬ isClosing cs := by
        intro hclosing
        obtain ⟨c, hc⟩ := isClosing_iff.mp hclosing
        exact h c (hc ▸ List.suffix_rfl)
      rw [if_neg hopen, hmore]
    next heq =>
      obtain ⟨rfl, rfl⟩ := List.cons.inj heq
      rw [hmore]

/-! ## Whole texts -/

/-- A text begins with an opening fence. -/
def Opens (text : String) : Prop := ∃ (o : OpeningFence) (rest : String), text = o.text ++ rest

/-- A text ends with a closing fence. -/
def Closes (text : String) : Prop := ∃ (body : String) (c : ClosingFence), text = body ++ c.text

theorem not_opens_iff {text : String} : ¬ Opens text ↔ withoutOpening text.toList = text.toList := by
  refine Iff.trans (not_congr ⟨?_, ?_⟩) (not_exists.trans withoutOpening_eq_self_iff.symm)
  · rintro ⟨o, rest, rfl⟩
    exact ⟨o, rest.toList, by simp [OpeningFence.text]⟩
  · rintro ⟨o, rest, hrest⟩
    refine ⟨o, String.ofList rest, ?_⟩
    rw [← String.toList_inj, ← hrest]
    simp [OpeningFence.text]

theorem not_closes_iff {text : String} : ¬ Closes text ↔ withoutClosing text.toList = text.toList := by
  refine Iff.trans (not_congr ⟨?_, ?_⟩) (not_exists.trans withoutClosing_eq_self_iff.symm)
  · rintro ⟨body, c, rfl⟩
    exact ⟨c, body.toList, by simp [ClosingFence.text]⟩
  · rintro ⟨c, body, hbody⟩
    refine ⟨String.ofList body, c, ?_⟩
    rw [← String.toList_inj, ← hbody]
    simp [ClosingFence.text]

theorem toList_unfenced (text : String) : (unfenced text).toList = withoutClosing (withoutOpening text.toList) :=
  String.toList_ofList

/-- **One fence off each end.**  Of a text between an opening and a closing fence the text remains, with a line feed
for the closing fence.  Only a fence at the start and one at the end are taken off, and a text that has neither stays
as it is. -/
theorem unfenced_exact :
    (∀ (o : OpeningFence) (body : String) (c : ClosingFence), unfenced (o.text ++ body ++ c.text) = body ++ "\n") ∧
    (∀ (o : OpeningFence) (body : String), ¬ Closes body → unfenced (o.text ++ body) = body) ∧
    (∀ (body : String) (c : ClosingFence), ¬ Opens (body ++ c.text) → unfenced (body ++ c.text) = body ++ "\n") ∧
    ∀ text : String, ¬ Opens text → ¬ Closes text → unfenced text = text := by
  refine ⟨fun o body c => ?_, fun o body hcloses => ?_, fun body c hopens => ?_, fun text hopens hcloses => ?_⟩
  all_goals rw [← String.toList_inj, toList_unfenced]
  · have hopening := withoutOpening_append o (body.toList ++ c.chars)
    simp only [String.toList_append, OpeningFence.text, ClosingFence.text, String.toList_ofList, List.append_assoc]
    rw [hopening, withoutClosing_append]
    rfl
  · simp only [String.toList_append, OpeningFence.text, String.toList_ofList]
    rw [withoutOpening_append, not_closes_iff.mp hcloses]
  · rw [not_opens_iff.mp hopens]
    simp only [String.toList_append, ClosingFence.text, String.toList_ofList]
    rw [withoutClosing_append]
    rfl
  · rw [not_opens_iff.mp hopens, not_closes_iff.mp hcloses]

/-- A body that looks like fences all over is kept, and so is a text with a line of dashes inside. -/
theorem unfenced_listing :
    unfenced "\n--- \t\n---\ntitle: x\n...\n---\n...\n \n" = "---\ntitle: x\n...\n---\n" ∧
    ¬ Opens "title: x\n---\nmore: y" ∧ ¬ Closes "title: x\n---\nmore: y" ∧
    unfenced "title: x\n---\nmore: y" = "title: x\n---\nmore: y" := by
  have hopens : ¬ Opens "title: x\n---\nmore: y" := not_opens_iff.mpr rfl
  have hcloses : ¬ Closes "title: x\n---\nmore: y" := not_closes_iff.mpr rfl
  obtain ⟨hboth, -, -, hneither⟩ := unfenced_exact
  have hmargin : Blanks ['\n'] := List.all_eq_true.mp rfl
  have htail : Blanks ['\n', ' ', '\n'] := List.all_eq_true.mp rfl
  have hfenced := hboth ⟨['\n'], [' ', '\t'], hmargin, by simp⟩ "---\ntitle: x\n...\n---" ⟨'.', _, .inr rfl, htail⟩
  exact ⟨hfenced, hopens, hcloses, hneither _ hopens hcloses⟩

end MetaValue

end DocFilter
