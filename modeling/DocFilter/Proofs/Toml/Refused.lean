import DocFilter.Proofs.Results
import DocFilter.Proofs.Toml.Taken
import DocFilter.Toml.Document

/-!
# Why a TOML text is not read

A text that is not read breaks a rule of the notation, or it has a numeral of too many digits.  Nothing else keeps it
from being read.

* `Toml.StaysIn` says of a reader that it leaves an end of its text, and that what does not fit is a long numeral in the
  text; `StaysIn.bind` puts one reader after the other.  `Toml.Follows` says so for all texts.
* `Toml.follows_values` is the induction on the fuel that the readers of values share.
* `Toml.read_refused` is the result.
-/

namespace DocFilter.Toml

variable {α β : Type} {cs rest : List Char}

/-! ## Readers in general -/

/-- A refusal of a text: it breaks a rule, or it has a long numeral. -/
def Told (cs : List Char) : ReadError Refusal → Prop
  | .rule _ => True
  | .unfit reason => ∃ count, reason = .longNumeral count ∧ HasLongNumeral count cs

theorem Told.of_suffix {e : ReadError Refusal} (h : Told rest e) (hsuffix : rest <:+ cs) : Told cs e := by
  cases e with
  | rule refusal => trivial
  | unfit reason =>
    obtain ⟨count, hreason, hlong⟩ := h
    exact ⟨count, hreason, hlong.of_suffix hsuffix⟩

/-- A reader leaves an end of a text, or it tells what is refused. -/
def StaysIn (cs : List Char) (m : Reader α) : Prop :=
  Yields (Told cs) (fun read : α × List Char => read.2 <:+ cs) (m.run cs)

/-- A reader stays in whatever text it is given. -/
def Follows (m : Reader α) : Prop := ∀ cs, StaysIn cs m

theorem StaysIn.bind {m : Reader α} {f : α → Reader β} (h : StaysIn cs m)
    (hf : ∀ a rest, rest <:+ cs → StaysIn rest (f a)) : StaysIn cs (m >>= f) :=
  Yields.bind h fun read hread => (hf read.1 read.2 hread).imp (fun _ he => he.of_suffix hread) fun _ h => h.trans hread

theorem StaysIn.set {f : PUnit → Reader α} (hsuffix : rest <:+ cs) (hf : Follows (f ⟨⟩)) :
    StaysIn cs (set rest >>= f) := by
  have hset : StaysIn cs (MonadStateOf.set rest : Reader PUnit) := hsuffix
  exact hset.bind fun _ rest _ => hf rest

namespace Follows

variable {m m' : Reader α} {f : α → Reader β}

theorem pure (a : α) : Follows (pure a : Reader α) := fun _ => List.suffix_rfl

theorem refuse (reason : Reason) : Follows (refuse reason : Reader α) := fun _ => trivial

theorem bind (h : Follows m) (hf : ∀ a, Follows (f a)) : Follows (m >>= f) :=
  fun cs => (h cs).bind fun a rest _ => hf a rest

/-- What a reader does may depend on all that is to come. -/
theorem get {f : List Char → Reader β} (hf : ∀ cs, StaysIn cs (f cs)) : Follows (get >>= f) := hf

theorem ite {p : Prop} [Decidable p] (h : p → Follows m) (h' : ¬p → Follows m') : Follows (if p then m else m') := by
  split
  next hp => exact h hp
  next hp => exact h' hp

/-- A step that is not always made comes before the rest. -/
theorem after {p : Prop} [Decidable p] {m : Reader PUnit} {f : PUnit → Reader β} (h : Follows m)
    (hf : ∀ a, Follows (f a)) : Follows (if p then m >>= f else f ⟨⟩) :=
  .ite (fun _ => h.bind hf) fun _ => hf ⟨⟩

end Follows

/-! ## Layout -/

theorem follows_get : Follows (get : Reader (List Char)) := fun _ => List.suffix_rfl

theorem follows_peek : Follows peek := fun _ => List.suffix_rfl

theorem follows_advance (count : Nat) : Follows (advance count) := List.drop_suffix count

theorem follows_skip (test : Char → Bool) : Follows (skip test) := fun _ => List.dropWhile_suffix test

theorem run_accept (text : String) (cs : List Char) : (accept text).run cs =
    if text.toList.isPrefixOf cs then .ok (true, cs.drop text.length) else .ok (false, cs) := by
  change StateT.run (if text.toList.isPrefixOf cs then (do advance text.length; return true : Reader Bool)
    else return false) cs = _
  split <;> rfl

/-- A text that does not go on with some characters is left as it is. -/
theorem StaysIn.accept {text : String} {f : Bool → Reader α} (h : Follows (f true)) (h' : StaysIn cs (f false)) :
    StaysIn cs (accept text >>= f) := by
  rw [StaysIn, StateT.run_bind, run_accept]
  split
  · have hdrop := List.drop_suffix text.length cs
    exact (h (cs.drop text.length)).imp (fun _ he => he.of_suffix hdrop) fun _ h => h.trans hdrop
  · exact h'

theorem follows_accept (text : String) : Follows (accept text) := by
  intro cs
  have hpure : StaysIn cs (accept text >>= pure) := .accept (.pure true) (Follows.pure false cs)
  rwa [bind_pure] at hpure

theorem follows_require (check : Except Reason α) : Follows (require check) := by
  cases check with
  | ok a => exact .pure a
  | error reason => exact .refuse reason

theorem follows_skipComment : Follows skipComment := by
  refine (follows_accept "#").bind fun seen => .ite (fun _ => ?_) fun _ => .pure _
  refine (follows_skip isText).bind fun _ => follows_peek.bind fun c => ?_
  split
  · exact .pure _
  · exact .pure _
  · exact .refuse _

theorem afterLayout_yields (inComment : Bool) (cs : List Char) :
    Yields (Told cs) (· <:+ cs) (afterLayout inComment cs) := by
  induction cs generalizing inComment with
  | nil => exact List.suffix_rfl
  | cons c rest ih =>
    have hsuffix : rest <:+ c :: rest := List.suffix_cons c rest
    have hmore (inComment : Bool) : Yields (Told (c :: rest)) (· <:+ c :: rest) (afterLayout inComment rest) :=
      (ih inComment).imp (fun _ he => he.of_suffix hsuffix) fun _ h => h.trans hsuffix
    rw [afterLayout]
    refine .ite (fun _ => ?_) fun _ => ?_
    · exact .ite (fun _ => hmore false) fun _ => .ite (fun _ => hmore true) fun _ => trivial
    · exact .ite (fun _ => hmore true) fun _ => .ite (fun _ => hmore false) fun _ => List.suffix_rfl

theorem run_skipLayout (cs : List Char) : skipLayout.run cs = (afterLayout false cs).map fun rest => (⟨⟩, rest) := by
  cases h : afterLayout false cs <;> simp [skipLayout, h] <;> rfl

theorem follows_skipLayout : Follows skipLayout := by
  intro cs
  rw [StaysIn, run_skipLayout]
  exact (afterLayout_yields false cs).map fun _ h => h

/-! ## Strings -/

theorem follows_readCodePoint (count : Nat) : Follows (readCodePoint count) := by
  refine follows_get.bind fun cs => ?_
  dsimp only
  split
  · refine .ite (fun _ => (follows_advance count).bind fun _ => ?_) fun _ => .refuse _
    exact .ite (fun _ => .pure _) fun _ => .refuse _
  · exact .refuse _

/-- An escape takes its backslash and the character after it. -/
theorem readEscape_yields (long : Bool) (cs : List Char) :
    Yields (Told cs) (fun read : List Char × List Char => read.2 <:+ cs.drop 2) ((readEscape long).run cs) := by
  have hpast {m : Reader (List Char)} (hm : Follows m) :
      Yields (Told cs) (fun read : List Char × List Char => read.2 <:+ cs.drop 2) ((advance 2 >>= fun _ => m).run cs) :=
    (hm (cs.drop 2)).imp (fun _ he => he.of_suffix (List.drop_suffix 2 cs)) fun _ h => h
  have hlayout : Follows (skip isLayout >>= fun _ => pure ([] : List Char)) :=
    (follows_skip isLayout).bind fun _ => .pure []
  refine hpast ?_
  split
  · exact follows_readCodePoint 4
  · exact follows_readCodePoint 8
  · exact .pure _
  · refine .ite (fun _ => .refuse _) fun _ => ?_
    refine .after (follows_skip isGap) fun _ => follows_peek.bind fun next => ?_
    split
    · exact hlayout
    · exact hlayout
    · exact hlayout
    · exact .refuse _
  · exact .refuse _

theorem follows_readEscape (long : Bool) : Follows (readEscape long) := fun cs =>
  (readEscape_yields long cs).imp (fun _ he => he) fun _ h => h.trans (List.drop_suffix 2 cs)

theorem follows_readBasic (long : Bool) (fuel : Nat) (read : List Char) : Follows (readBasic long fuel read) := by
  induction fuel generalizing read with
  | zero => exact .refuse _
  | succ fuel ih =>
    refine Follows.get fun cs => ?_
    split
    · exact Follows.refuse _ _
    next rest =>
      exact .accept (.pure _) (.set (List.suffix_cons _ rest) (ih _))
    next => exact ((follows_readEscape long).bind fun _ => ih _) _
    next c rest _ _ =>
      split
      · exact .set (List.suffix_cons c rest) (ih _)
      · exact Follows.refuse _ _

theorem splitBefore?_eq {mark text : List Char} (h : splitBefore? mark cs = some (text, rest)) : cs = text ++ rest := by
  fun_induction splitBefore? mark cs generalizing text with
  | case1 => cases h
  | case2 c behind =>
    cases h
    rfl
  | case3 c behind _ ih =>
    obtain ⟨⟨text', rest'⟩, hsplit, heq⟩ := Option.map_eq_some_iff.mp h
    cases heq
    rw [List.cons_append, ← ih hsplit]

theorem follows_readLiteral (mark : String) (isAllowed : Char → Bool) : Follows (readLiteral mark isAllowed) := by
  refine Follows.get fun cs => ?_
  split
  · exact .set (List.nil_suffix) (.refuse _)
  next text rest hsplit =>
    have hrest : rest <:+ cs := splitBefore?_eq hsplit ▸ List.suffix_append text rest
    split
    · exact ((follows_skip isAllowed).bind fun _ => .refuse _) cs
    · exact .set ((List.drop_suffix _ _).trans hrest) (.pure _)

theorem follows_readExtraQuotes (quote text : String) : Follows (readExtraQuotes quote text) := by
  refine (follows_accept quote).bind fun _ => .ite (fun _ => .pure _) fun _ => ?_
  exact (follows_accept quote).bind fun _ => .ite (fun _ => .pure _) fun _ => .pure _

theorem follows_readLine : Follows readLine := by
  refine (follows_accept "'").bind fun _ => .ite (fun _ => follows_readLiteral _ _) fun _ => ?_
  exact (follows_advance 1).bind fun _ => follows_get.bind fun _ => follows_readBasic _ _ _

theorem follows_readString : Follows readString := by
  refine (follows_accept _).bind fun _ => .ite (fun _ => ?_) fun _ => ?_
  · exact (follows_accept _).bind fun _ => follows_get.bind fun _ => (follows_readBasic _ _ _).bind fun _ =>
      follows_readExtraQuotes _ _
  · refine (follows_accept _).bind fun _ => .ite (fun _ => ?_) fun _ => follows_readLine
    exact (follows_accept _).bind fun _ => (follows_readLiteral _ _).bind fun _ => follows_readExtraQuotes _ _

/-! ## Keys -/

theorem follows_readKeyPart : Follows readKeyPart := by
  refine follows_peek.bind fun next => ?_
  split
  · refine .ite (fun _ => ?_) fun _ => .ite (fun _ => follows_readLine) fun _ => .refuse _
    exact follows_get.bind fun _ => (follows_skip isBare).bind fun _ => .pure _
  · exact .refuse _

theorem follows_readKeyRest (fuel : Nat) (parents : Path) (name : String) :
    Follows (readKeyRest fuel parents name) := by
  induction fuel generalizing parents name with
  | zero => exact .refuse _
  | succ fuel ih =>
    refine (follows_skip isGap).bind fun _ => (follows_accept ".").bind fun _ => .ite (fun _ => ?_) fun _ => .pure _
    exact (follows_skip isGap).bind fun _ => follows_readKeyPart.bind fun _ => ih _ _

theorem follows_readKey : Follows readKey :=
  follows_readKeyPart.bind fun _ => follows_get.bind fun _ => follows_readKeyRest _ _ _

/-! ## Values -/

theorem follows_readSimple : Follows readSimple := by
  refine Follows.get fun cs => ?_
  split
  next value rest hstamp =>
    split
    · exact .set (stamp?_leaves cs _ hstamp) (.pure _)
    · exact Follows.refuse _ _
  next =>
    split
    next value rest htaken =>
      have hrest : rest <:+ cs := ((truth?_leaves cs).orElse (number?_leaves cs)) _ htaken
      split
      next count _ hlong => exact ⟨count, rfl, hasLongNumeral_of_longNumeral? hlong⟩
      next => exact .set hrest (.pure _)
    next => exact Follows.refuse _ _

theorem follows_readEquals : Follows readEquals := by
  refine (follows_accept "=").bind fun _ => ?_
  exact .ite (fun _ => (Follows.refuse _).bind fun _ => follows_skip isGap) fun _ => follows_skip isGap

/-- The readers of values stay in their texts if they do with less fuel. -/
theorem follows_values (fuel : Nat) :
    Follows (readValue fuel) ∧ Follows (readItems fuel) ∧ ∀ draft, Follows (readMembers fuel draft) := by
  induction fuel with
  | zero => exact ⟨.refuse _, .refuse _, fun _ => .refuse _⟩
  | succ fuel ih =>
    obtain ⟨hvalue, hitems, hmembers⟩ := ih
    refine ⟨?_, ?_, fun draft => ?_⟩
    · refine follows_peek.bind fun next => ?_
      split
      · exact follows_readString.bind fun _ => .pure _
      · exact follows_readString.bind fun _ => .pure _
      · refine (follows_advance 1).bind fun _ => follows_skipLayout.bind fun _ => (follows_accept "]").bind fun _ => ?_
        exact .ite (fun _ => .pure _) fun _ => hitems.bind fun _ => .pure _
      · refine (follows_advance 1).bind fun _ => (follows_skip isGap).bind fun _ => (follows_accept _).bind fun _ => ?_
        exact .ite (fun _ => .pure _) fun _ => (hmembers _).bind fun _ => .pure _
      · exact follows_readSimple
    · refine hvalue.bind fun item => follows_skipLayout.bind fun _ => (follows_accept "]").bind fun _ => ?_
      refine .ite (fun _ => .pure _) fun _ => (follows_accept ",").bind fun _ => .ite (fun _ => ?_) fun _ => .refuse _
      refine follows_skipLayout.bind fun _ => (follows_accept "]").bind fun _ => ?_
      exact .ite (fun _ => .pure _) fun _ => hitems.bind fun _ => .pure _
    · refine follows_readKey.bind fun key => follows_readEquals.bind fun _ => hvalue.bind fun value => ?_
      refine (follows_require _).bind fun draft => (follows_skip isGap).bind fun _ => ?_
      refine (follows_accept _).bind fun _ => .ite (fun _ => .pure _) fun _ => (follows_accept ",").bind fun _ => ?_
      refine .ite (fun _ => ?_) fun _ => .refuse _
      exact (follows_skip isGap).bind fun _ => hmembers draft

/-! ## Documents -/

theorem follows_readHeader (p : Progress) : Follows (readHeader p) := by
  refine (follows_accept "[[").bind fun _ => .ite (fun _ => ?_) fun _ => ?_
  · refine (follows_skip isGap).bind fun _ => follows_readKey.bind fun key => (follows_require _).bind fun draft => ?_
    exact (follows_accept "]]").bind fun _ => .ite (fun _ => .pure _) fun _ => .refuse _
  · refine (follows_advance 1).bind fun _ => (follows_skip isGap).bind fun _ => follows_readKey.bind fun key => ?_
    refine (follows_require _).bind fun draft => (follows_accept "]").bind fun _ => ?_
    exact .ite (fun _ => .pure _) fun _ => .refuse _

theorem follows_readEntry (p : Progress) : Follows (readEntry p) := by
  refine follows_readKey.bind fun key => follows_readEquals.bind fun _ => follows_get.bind fun cs => ?_
  exact (follows_values _).1.bind fun value => (follows_require _).bind fun draft => .pure _

theorem follows_readStatement (p : Progress) : Follows (readStatement p) := by
  refine (follows_skip isGap).bind fun _ => follows_peek.bind fun next => ?_
  split
  · exact .pure p
  · exact .pure p
  · exact .pure p
  · refine .ite (fun _ => follows_readEntry p) fun _ => ?_
    exact .ite (fun _ => follows_readHeader p) fun _ => .refuse _

theorem follows_readLines (fuel : Nat) (p : Progress) : Follows (readLines fuel p) := by
  induction fuel generalizing p with
  | zero => exact .refuse _
  | succ fuel ih =>
    refine (follows_readStatement p).bind fun p => (follows_skip isGap).bind fun _ => ?_
    refine follows_skipComment.bind fun _ => follows_peek.bind fun next => ?_
    split
    · exact .pure _
    · exact (follows_advance 1).bind fun _ => ih p
    · exact .refuse _

theorem prefix_of_prefix_withLineFeeds (cs : List Char) {ds : List Char} (h : ds <+: withLineFeeds cs)
    (hline : '\n' ∉ ds) : ds <+: cs := by
  fun_induction withLineFeeds cs generalizing ds with
  | case1 rest ih =>
    cases ds with
    | nil => exact List.nil_prefix
    | cons d ds => exact absurd (List.cons_prefix_cons.mp h).1 (by rintro rfl; simp at hline)
  | case2 c rest hbreak ih =>
    cases ds with
    | nil => exact List.nil_prefix
    | cons d ds =>
      obtain ⟨rfl, htail⟩ := List.cons_prefix_cons.mp h
      exact List.cons_prefix_cons.mpr ⟨rfl, ih htail (List.not_mem_of_not_mem_cons hline)⟩
  | case3 => exact h

/-- Characters without a line feed stand in a text if they do once its line ends are spelled alike. -/
theorem infix_of_infix_withLineFeeds {ds : List Char} (h : ds <:+: withLineFeeds cs) (hline : '\n' ∉ ds) :
    ds <:+: cs := by
  fun_induction withLineFeeds cs with
  | case1 rest ih =>
    rcases List.infix_cons_iff.mp h with hprefix | hinfix
    · exact (prefix_of_prefix_withLineFeeds ('\r' :: '\n' :: rest) hprefix hline).isInfix
    · exact (ih hinfix).trans (List.suffix_append ['\r', '\n'] rest).isInfix
  | case2 c rest hbreak ih =>
    rcases List.infix_cons_iff.mp h with hprefix | hinfix
    · refine (prefix_of_prefix_withLineFeeds (c :: rest) ?_ hline).isInfix
      rwa [withLineFeeds]
      exact hbreak
    · exact (ih hinfix).trans (List.suffix_cons c rest).isInfix
  | case3 => exact h

/-- A text that is not read breaks a rule, or it has a long numeral. -/
theorem read_refused {text : String} {reason : Unfit} (h : read text = .error (.unfit reason)) :
    ∃ count, reason = .longNumeral count ∧ HasLongNumeral count text.toList := by
  have hlines := follows_readLines ((withLineFeeds text.toList).length + 1) {} (withLineFeeds text.toList)
  rw [StaysIn] at hlines
  rw [read] at h
  split at h
  next => cases h
  next e heq =>
    rw [heq] at hlines
    cases e with
    | rule refusal => cases h
    | unfit found =>
      cases h
      obtain ⟨count, hreason, hlong, numeral, hinfix, hall, hcount⟩ := hlines
      refine ⟨count, hreason, hlong, numeral, infix_of_infix_withLineFeeds hinfix fun hmem => ?_, hall, hcount⟩
      exact absurd (hall _ hmem) (by decide)

end DocFilter.Toml
