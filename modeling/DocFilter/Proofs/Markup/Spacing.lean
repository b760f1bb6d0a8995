import DocFilter.Proofs.Markup.Paragraphs
import DocFilter.Proofs.Results

/-!
# Text through plain-text markup

A text that is read as markup and written again keeps the characters of its words; what stands between two words
depends on the gap between them only: an empty line where the gap ends a paragraph, and otherwise one space for
each token of the gap (`Markup.between`).

* `Markup.render_of_parse` is what a text becomes, and `Markup.shown_word` gives it one word at a time.
* `Markup.words_of_render` says which words the written text has: those of the text without the blanks that are
  no marks.  They are the words of the text itself exactly if each gap has a mark.
* `Markup.render_again` says when a text that is read and written twice is as it was the first time: exactly if no
  gap within a paragraph is doubled.  A third time never changes anything.
-/

namespace DocFilter.Markup

open Text

variable {cs rest w g : List Char}

/-- What is written for a token. -/
def Token.shown : Token → List Char
  | word cs => cs
  | _ => [' ']

/-- What is written for the inlines of a text without breaks. -/
def line (cs : List Char) : List Char := (tokens cs).flatMap Token.shown

/-- What is written for a text. -/
def shown (cs : List Char) : List Char := List.intercalate ['\n', '\n'] ((pieces cs).map line)

/-- What is written for a gap between two words. -/
def between (g : List Char) : List Char := if Breaks g then ['\n', '\n'] else line g

/-! ## The inlines of a paragraph as text -/

theorem shown_flush (current : List Char) (ts : List Token) :
    (flush current ts).flatMap Token.shown = current.reverse ++ ts.flatMap Token.shown := by
  cases current with
  | nil => rfl
  | cons c current => rw [flush_of_ne_nil (List.cons_ne_nil c current), List.flatMap_cons, Token.shown]

/-- What has been read of a word is written before the rest. -/
theorem shown_tokensFrom (current cs : List Char) (afterBlank : Bool) :
    (tokensFrom current afterBlank cs).flatMap Token.shown =
      current.reverse ++ (tokensFrom [] afterBlank cs).flatMap Token.shown := by
  induction cs generalizing current afterBlank with
  | nil => rw [tokensFrom, tokensFrom, shown_flush]; rfl
  | cons c cs ih =>
    rw [tokensFrom, tokensFrom]
    split_ifs
    · rw [shown_flush, flush_nil]
    · rw [shown_flush, flush_nil]
    · rw [shown_flush, flush_nil]
    · rw [shown_flush, flush_nil]
    · rw [ih (c :: current), ih [c], ← List.append_assoc, ← List.reverse_append]
      rfl

theorem line_word (hw : IsWord w) (rest : List Char) : line (w ++ rest) = w ++ line rest := by
  rw [line, tokens, tokensFrom_append hw, shown_tokensFrom, List.append_nil, List.reverse_reverse]
  rfl

theorem line_of_word (hw : IsWord w) : line w = w := by
  have hline := line_word hw []
  rwa [List.append_nil, line, line, tokens, tokens, tokensFrom, flush_nil, List.flatMap_nil, List.append_nil]
    at hline

theorem line_blanks (hg : Blanks g) (hrest : ∀ c ∈ rest.head?, ¬ isBlank c) :
    line (g ++ rest) = line g ++ line rest := by
  rw [line, tokens, tokensFrom_blanks hg hrest, List.flatMap_append]
  rfl

/-- A gap within a paragraph becomes one space for each of its tokens. -/
theorem line_eq_replicate (hg : Blanks g) : line g = List.replicate (tokens g).length ' ' := by
  have hspace : ∀ t ∈ tokens g, t.shown = [' '] := by
    intro t ht
    cases t with
    | lineBreak => rfl
    | blanks => rfl
    | word w => exact absurd ht (not_word_of_blanks hg false w)
  rw [line]
  generalize tokens g = ts at hspace
  induction ts with
  | nil => rfl
  | cons t ts ih =>
    obtain ⟨ht, hmore⟩ := List.forall_mem_cons.mp hspace
    rw [List.flatMap_cons, ht, ih hmore]
    rfl

/-! ## Word by word -/

theorem shown_trimStart (cs : List Char) : shown (trimStart cs) = shown cs := by
  rw [shown, pieces_trimStart, shown]

theorem shown_nil : shown [] = [] := by
  rw [shown, pieces_nil]
  rfl

theorem shown_word_last (hw : IsWord w) (hg : Blanks g) : shown (w ++ g) = w := by
  rw [shown, pieces_word_last hw hg, List.map_cons, line_of_word hw]
  exact List.append_nil w

/-- What is written for a word, the gap after it, and the rest of a text. -/
theorem shown_word (hw : IsWord w) (hg : Blanks g) (hrest : ∀ c ∈ rest.head?, ¬ isBlank c) (hne : rest ≠ []) :
    shown (w ++ (g ++ rest)) = w ++ (between g ++ shown rest) := by
  obtain ⟨c, p, ps, hc, hpieces⟩ := exists_pieces hrest hne
  rw [between, shown, shown, hpieces]
  split_ifs with hbreaks
  · rw [pieces_word_of_breaks hw hg hbreaks hrest, hpieces, List.map_cons, List.map_cons,
      List.intercalate_cons_cons, line_of_word hw, List.append_assoc]
  · have hp : ∀ d ∈ (c :: p).head?, ¬ isBlank d := by simpa using hc
    rw [pieces_word_of_not_breaks hw hbreaks hrest hne, hpieces, List.modifyHead_cons, List.map_cons, List.map_cons,
      line_word hw, line_blanks hg hp]
    cases ps with
    | nil => simp [List.intercalate]
    | cons q ps => simp only [List.map_cons, List.intercalate_cons_cons, List.append_assoc]

theorem shown_head (hcs : ∀ c ∈ cs.head?, ¬ isBlank c) : ∀ c ∈ (shown cs).head?, ¬ isBlank c := by
  cases worded_of_head hcs with
  | nil => simp [shown_nil]
  | @word w g rest hw hg hapart hrest =>
    obtain ⟨c, v, rfl, hc⟩ := hw.exists_head
    by_cases hne : rest = []
    · rw [hne, List.append_nil, shown_word_last hw hg]
      simpa using hc
    · rw [shown_word hw hg hrest.head hne]
      simpa using hc

theorem shown_ne_nil (hcs : ∀ c ∈ cs.head?, ¬ isBlank c) (hne : cs ≠ []) : shown cs ≠ [] := by
  cases worded_of_head hcs with
  | nil => exact absurd rfl hne
  | @word w g rest hw hg hapart hrest =>
    by_cases hmore : rest = []
    · rw [hmore, List.append_nil, shown_word_last hw hg]
      exact hw.ne_nil
    · rw [shown_word hw hg hrest.head hmore]
      exact List.append_ne_nil_of_left_ne_nil hw.ne_nil _

/-! ## The written text -/

theorem fragment_inline (t : Token) : t.inline.fragment = ⟨true, .ok [.str (String.ofList t.shown)]⟩ := by
  cases t with
  | lineBreak => rfl
  | blanks => rfl
  | word cs => rfl

theorem joinFragments_inlines (ts : List Token) : joinFragments false ((ts.map Token.inline).map Tree.fragment) =
    .ok (ts.map fun t => .str (String.ofList t.shown)) := by
  induction ts with
  | nil => rfl
  | cons t ts ih =>
    rw [List.map_cons, List.map_cons, joinFragments, fragment_inline]
    change (joinFragments false _ >>= _) = _
    rw [ih]
    rfl

theorem textOfPieces_inlines (ts : List Token) :
    textOfPieces (ts.map fun t => .str (String.ofList t.shown)) = .ok (String.ofList (ts.flatMap Token.shown)) := by
  have htexts : (ts.map fun t => Json.str (String.ofList t.shown)).mapM (·.str?) =
      some (ts.map fun t => String.ofList t.shown) := by
    rw [mapM_eq_some_iff, List.forall₂_map_left_iff, List.forall₂_map_right_iff]
    exact List.forall₂_same.mpr fun _ _ => rfl
  rw [textOfPieces, htexts]
  refine congrArg Except.ok (String.toList_injective ?_)
  rw [String.toList_join, List.flatMap_map, String.toList_ofList]
  simp only [String.toList_ofList]

/-- The inlines of tokens as text. -/
theorem textOfList_inlines (ts : List Token) : Fragment.textOfList ((ts.map Token.inline).map Tree.fragment) =
    .ok (String.ofList (ts.flatMap Token.shown)) := by
  rw [Fragment.textOfList, joinFragments_inlines]
  exact textOfPieces_inlines ts

/-- The paragraph of a text without breaks. -/
def paragraph (p : List Char) : Tree := Tree.make .para ((tokens p).map Token.inline)

/-- A text as paragraphs. -/
theorem parse_eq (text : String) : parse text = (pieces text.toList).map paragraph := by
  rw [parse, ← pieces_trim, pieces, List.filter_map, List.map_map]
  rfl

theorem fragment_paragraph (p : List Char) : (paragraph p).fragment.isInline = false ∧
    (paragraph p).fragment.text = .ok (String.ofList (line p)) := by
  rw [paragraph, Tree.make, Tree.fragment, Tree.fold_node]
  exact ⟨rfl, textOfList_inlines (tokens p)⟩

theorem join_paragraphs (ps : List (List Char)) : join ((ps.map paragraph).map Tree.fragment) =
    .ok (String.ofList (List.intercalate ['\n', '\n'] (ps.map line))) := by
  have hblocks : (!((ps.map paragraph).map Tree.fragment).isEmpty &&
      ((ps.map paragraph).map Tree.fragment).all (·.isInline)) = false := by
    cases ps with
    | nil => rfl
    | cons p ps => simp [(fragment_paragraph p).1]
  have htexts : ((ps.map paragraph).map Tree.fragment).mapM Fragment.text =
      .ok ((ps.map line).map String.ofList) := by
    rw [mapM_eq_ok_iff, List.forall₂_map_left_iff, List.forall₂_map_left_iff, List.forall₂_map_right_iff,
      List.forall₂_map_right_iff]
    exact List.forall₂_same.mpr fun p _ => (fragment_paragraph p).2
  rw [join, hblocks, htexts]
  refine congrArg Except.ok (String.toList_injective ?_)
  have hid : String.toList ∘ String.ofList = id := funext fun _ => String.toList_ofList
  rw [String.toList_intercalate, List.map_map, hid, List.map_id, String.toList_ofList (l := List.intercalate _ _)]
  rfl

/-- What a text becomes when it is read as markup and written again. -/
theorem render_of_parse (text : String) : render (parse text) = .ok (String.ofList (shown text.toList)) := by
  rw [render, parse_eq, join_paragraphs, shown]

/-! ## What a node is given -/

theorem children_paragraph (p : List Char) : (paragraph p).children = (tokens p).map Token.inline := rfl

/-- The inlines of a paragraph are written like the paragraph. -/
theorem join_inlines {p : List Char} (hp : tokens p ≠ []) :
    join (((tokens p).map Token.inline).map Tree.fragment) = .ok (String.ofList (line p)) := by
  have hinlines : (!(((tokens p).map Token.inline).map Tree.fragment).isEmpty &&
      (((tokens p).map Token.inline).map Tree.fragment).all (·.isInline)) = true := by
    rw [Bool.and_eq_true, List.all_map, List.all_map, List.all_eq_true]
    exact ⟨by simpa using hp, fun t _ => by rw [Function.comp_apply, Function.comp_apply, fragment_inline]⟩
  rw [join, if_pos hinlines, textOfList_inlines]
  rfl

theorem run?_other (name : String) : (Kind.other name).run? = none := rfl

theorem contentFor_blocks {kind : Kind} (h : kind.run? = some .blocks) (text : String) :
    contentFor kind text = .ok (parse text) := by
  unfold contentFor
  rw [h]
  cases kind with
  | other name => exact absurd ((run?_other name).symm.trans h) nofun
  | _ => rfl

theorem contentFor_inlines {kind : Kind} (h : kind.run? = some .inlines) (text : String) :
    contentFor kind text = match parse text with
      | [paragraph] => .ok paragraph.children
      | [] => .ok []
      | _ => .error (.notOneParagraph kind) := by
  unfold contentFor
  rw [h]
  cases kind with
  | other name => exact absurd ((run?_other name).symm.trans h) nofun
  | _ => rfl

/-- Why a kind without inlines or blocks has no markup. -/
def ContentError.ofKind : Kind → ContentError
  | .other name => .unknownKind name
  | kind => .noContent kind

theorem ContentError.ofKind_of_ne_other {kind : Kind} (h : ∀ name, kind ≠ .other name) :
    ContentError.ofKind kind = .noContent kind := by
  cases kind with
  | other name => exact absurd rfl (h name)
  | _ => rfl

theorem contentFor_no_run {kind : Kind} (hinlines : kind.run? ≠ some .inlines) (hblocks : kind.run? ≠ some .blocks)
    (text : String) : contentFor kind text = .error (.ofKind kind) := by
  unfold contentFor
  split
  · rfl
  · next heq => exact absurd heq hblocks
  · next heq => exact absurd heq hinlines
  · next hother _ _ =>
    rw [ContentError.ofKind_of_ne_other hother]

/-- What a node is given: all paragraphs of a text, or the inlines of the only one. -/
theorem contentFor_eq_ok_iff {kind : Kind} {text : String} {trees : List Tree} : contentFor kind text = .ok trees ↔
    kind.run? = some .blocks ∧ trees = (pieces text.toList).map paragraph ∨
      kind.run? = some .inlines ∧ (pieces text.toList = [] ∧ trees = [] ∨
        ∃ p, pieces text.toList = [p] ∧ trees = (tokens p).map Token.inline) := by
  by_cases hblocks : kind.run? = some .blocks
  · have hinlines : kind.run? ≠ some .inlines := by rw [hblocks]; exact nofun
    rw [contentFor_blocks hblocks, parse_eq, Except.ok.injEq]
    constructor
    · intro heq
      exact .inl ⟨hblocks, heq.symm⟩
    · rintro (⟨-, rfl⟩ | ⟨hrun, -⟩)
      · rfl
      · exact absurd hrun hinlines
  by_cases hinlines : kind.run? = some .inlines
  · rw [contentFor_inlines hinlines, parse_eq]
    simp only [hinlines, Option.some.injEq, true_and]
    cases pieces text.toList with
    | nil => simp [eq_comm]
    | cons p ps =>
      cases ps with
      | nil => simp [children_paragraph, eq_comm]
      | cons q ps => simp
  · rw [contentFor_no_run hinlines hblocks]
    simp [hblocks, hinlines]

theorem contentFor_many {kind : Kind} (h : kind.run? = some .inlines) {text : String}
    (hmany : 2 ≤ (parse text).length) : contentFor kind text = .error (.notOneParagraph kind) := by
  rw [contentFor_inlines h]
  split
  · next heq =>
    rw [heq] at hmany
    exact absurd hmany (by simp)
  · next heq =>
    rw [heq] at hmany
    exact absurd hmany (by simp)
  · rfl

theorem contentFor_few {kind : Kind} {text : String}
    (h : kind.run? = some .blocks ∨ kind.run? = some .inlines ∧ (parse text).length < 2) :
    ∃ trees, contentFor kind text = .ok trees := by
  simp only [contentFor_eq_ok_iff]
  rcases h with hrun | ⟨hrun, hfew⟩
  · exact ⟨_, .inl ⟨hrun, rfl⟩⟩
  · rw [parse_eq, List.length_map] at hfew
    match hpieces : pieces text.toList with
    | [] => exact ⟨[], .inr ⟨hrun, .inl ⟨rfl, rfl⟩⟩⟩
    | [p] => exact ⟨_, .inr ⟨hrun, .inr ⟨p, rfl, rfl⟩⟩⟩
    | p :: q :: ps =>
      rw [hpieces, List.length_cons, List.length_cons] at hfew
      omega

/-- What a node is given is written as the text would be. -/
theorem render_of_contentFor {kind : Kind} {text : String} {trees : List Tree}
    (h : contentFor kind text = .ok trees) : render trees = render (parse text) := by
  rw [parse_eq]
  rcases contentFor_eq_ok_iff.mp h with ⟨-, rfl⟩ | ⟨-, ⟨hpieces, rfl⟩ | ⟨p, hpieces, rfl⟩⟩
  · rfl
  · rw [hpieces]
    rfl
  · obtain ⟨hne, hhead, -⟩ := ends_of_mem_pieces (hpieces ▸ List.mem_singleton_self p)
    obtain ⟨w, more, -, htokens⟩ := exists_word_head hhead hne
    rw [render, join_inlines (htokens ▸ List.cons_ne_nil _ _), hpieces, render, join_paragraphs]
    exact congrArg (fun cs => Except.ok (String.ofList cs)) (List.append_nil _).symm

/-! ## The words that are kept -/

/-- What a text keeps of its characters: the words, and the marks between them. -/
def isKept (c : Char) : Bool := !isBlank c || decide (IsMark c)

theorem blanks_between (hg : Blanks g) : Blanks (between g) := by
  rw [between, line_eq_replicate hg]
  split_ifs
  · simp only [List.forall_mem_cons]
    exact ⟨by decide, by decide, blanks_nil⟩
  · intro c hc
    rw [List.eq_of_mem_replicate hc]
    decide

/-- Two words are written apart where a character of the gap is a mark. -/
theorem between_ne_nil_iff (hg : Blanks g) : between g ≠ [] ↔ ∃ c ∈ g, IsMark c := by
  rw [between, line_eq_replicate hg]
  split_ifs with hbreaks
  · obtain ⟨before, line, after, rfl, -⟩ := hbreaks
    exact iff_of_true (List.cons_ne_nil _ _) ⟨'\n', by simp, .inl rfl⟩
  · rw [← tokens_ne_nil_iff hg, Ne, List.replicate_eq_nil_iff, List.length_eq_zero_iff]

theorem filter_word (hw : IsWord w) : w.filter isKept = w := by
  rw [List.filter_eq_self]
  intro c hc
  simp [isKept, hw.solid c hc]

theorem filter_blanks_ne_nil_iff (hg : Blanks g) : g.filter isKept ≠ [] ↔ ∃ c ∈ g, IsMark c := by
  rw [Ne, List.filter_eq_nil_iff, not_forall]
  constructor
  · rintro ⟨c, hc⟩
    obtain ⟨hmem, hkept⟩ := Classical.not_imp.mp hc
    exact ⟨c, hmem, by simpa [isKept, hg c hmem] using hkept⟩
  · rintro ⟨c, hmem, hmark⟩
    exact ⟨c, Classical.not_imp.mpr ⟨hmem, by simp [isKept, hmark]⟩⟩

theorem blanks_filter (hg : Blanks g) : Blanks (g.filter isKept) := blanks_of_subset hg (List.filter_subset_self g)

theorem filter_head (hcs : ∀ c ∈ cs.head?, ¬ isBlank c) (hne : cs ≠ []) :
    (∀ c ∈ (cs.filter isKept).head?, ¬ isBlank c) ∧ cs.filter isKept ≠ [] := by
  obtain ⟨c, cs, rfl⟩ := List.exists_cons_of_ne_nil hne
  have hc : ¬ isBlank c := hcs c rfl
  have hkept : isKept c = true := by simp [isKept, hc]
  rw [List.filter_cons_of_pos hkept]
  exact ⟨by simpa using hc, List.cons_ne_nil _ _⟩

/-- The written words are those of the text without the blanks that are no marks. -/
theorem words_shown (h : Worded cs) : words (shown cs) = words (cs.filter isKept) := by
  induction h with
  | nil => rw [shown_nil, List.filter_nil]
  | @word w g rest hw hg hapart hrest ih =>
    rw [List.filter_append, List.filter_append, filter_word hw]
    by_cases hne : rest = []
    · rw [hne, List.append_nil, shown_word_last hw hg, List.filter_nil, List.append_nil,
        words_word_last hw (blanks_filter hg), words_of_word hw]
    · rw [shown_word hw hg hrest.head hne]
      obtain ⟨hhead, hsome⟩ := filter_head hrest.head hne
      by_cases hmark : ∃ c ∈ g, IsMark c
      · rw [words_word hw (blanks_between hg) fun _ => (between_ne_nil_iff hg).mpr hmark,
          words_word hw (blanks_filter hg) fun _ => (filter_blanks_ne_nil_iff hg).mpr hmark, ih]
      · rw [not_ne_iff.mp fun h => hmark ((between_ne_nil_iff hg).mp h),
          not_ne_iff.mp fun h => hmark ((filter_blanks_ne_nil_iff hg).mp h), List.nil_append, List.nil_append,
          words_append_word hw (shown_ne_nil hrest.head hne) (shown_head hrest.head),
          words_append_word hw hsome hhead, ih]

/-- The written words are those of the text exactly if there is a mark in each gap. -/
theorem words_shown_iff (h : Worded cs) :
    words (shown cs) = words cs ↔ ∀ g, Gap g cs → ∃ c ∈ g, IsMark c := by
  induction h with
  | nil => exact iff_of_true (by rw [shown_nil]) fun g hgap => absurd hgap not_gap_nil
  | @word w g rest hw hg hapart hrest ih =>
    rw [forall_gap_word_iff hw hg hapart hrest, ← ih, words_word hw hg hapart]
    by_cases hne : rest = []
    · rw [hne, List.append_nil, shown_word_last hw hg, words_of_word hw, shown_nil]
      exact iff_of_true rfl ⟨fun h => absurd rfl h, rfl⟩
    · rw [shown_word hw hg hrest.head hne]
      by_cases hmark : ∃ c ∈ g, IsMark c
      · rw [words_word hw (blanks_between hg) fun _ => (between_ne_nil_iff hg).mpr hmark, List.cons.injEq]
        exact ⟨fun h => ⟨fun _ => hmark, h.2⟩, fun h => ⟨rfl, h.2⟩⟩
      · refine iff_of_false (fun heq => ?_) fun h => hmark (h.1 hne)
        obtain ⟨v, vs, hwords, hv⟩ := exists_words (shown_ne_nil hrest.head hne) (shown_head hrest.head)
        rw [not_ne_iff.mp fun h => hmark ((between_ne_nil_iff hg).mp h), List.nil_append,
          words_append_word hw (shown_ne_nil hrest.head hne) (shown_head hrest.head), hwords, List.modifyHead_cons,
          List.cons.injEq, List.append_right_eq_self] at heq
        exact hv heq.1

/-- A text that is read as markup and written again has the words that it has without the blanks that are no
marks.  These are its own words exactly if each gap between two words has a mark; otherwise the words around a
gap without one are glued together. -/
theorem words_of_render (text : String) : ∃ written, render (parse text) = .ok written ∧
    words written.toList = words (text.toList.filter isKept) ∧
    (words written.toList = words text.toList ↔ ∀ g, Gap g text.toList → ∃ c ∈ g, IsMark c) := by
  obtain ⟨g, hg, hcut⟩ := exists_blanks_trimStart text.toList
  have hworded := worded_trimStart text.toList
  have hfilter : words (text.toList.filter isKept) = words ((trimStart text.toList).filter isKept) := by
    calc words (text.toList.filter isKept)
        = words (g.filter isKept ++ (trimStart text.toList).filter isKept) := by rw [← List.filter_append, ← hcut]
      _ = words ((trimStart text.toList).filter isKept) := words_append_start (blanks_filter hg) _
  refine ⟨_, render_of_parse text, ?_, ?_⟩
  · rw [String.toList_ofList, ← shown_trimStart, words_shown hworded, hfilter]
  · rw [String.toList_ofList, ← shown_trimStart, ← words_trimStart text.toList, words_shown_iff hworded]
    exact forall_congr' fun k => imp_congr_left gap_trimStart_iff

/-! ## A second time -/

theorem not_breaks_replicate (k : Nat) : ¬ Breaks (List.replicate k ' ') := by
  rintro ⟨before, line, after, heq, -⟩
  have hmem : '\n' ∈ List.replicate k ' ' := heq ▸ by simp
  exact absurd (List.eq_of_mem_replicate hmem) (by decide)

theorem between_replicate (k : Nat) : between (List.replicate k ' ') = List.replicate (min k 1) ' ' := by
  have hblanks : Blanks (List.replicate k ' ') := by
    intro c hc
    rw [List.eq_of_mem_replicate hc]
    decide
  have hmore (k : Nat) : tokensFrom [] true (List.replicate k ' ') = [] := by
    induction k with
    | zero => rfl
    | succ k ih => rw [List.replicate_succ, tokensFrom_space (.inl rfl), ih]; rfl
  rw [between, if_neg (not_breaks_replicate k), line_eq_replicate hblanks]
  congr 1
  cases k with
  | zero => rfl
  | succ k =>
    rw [tokens, List.replicate_succ, tokensFrom_space (.inl rfl), hmore, Nat.min_eq_right (Nat.le_add_left 1 k)]
    rfl

/-- What stands in place of a gap: the break of a paragraph, or spaces. -/
theorem between_cases (hg : Blanks g) : Breaks g ∧ between g = ['\n', '\n'] ∨
    ¬ Breaks g ∧ between g = List.replicate (tokens g).length ' ' := by
  rw [between]
  split_ifs with hbreaks
  · exact .inl ⟨hbreaks, rfl⟩
  · exact .inr ⟨hbreaks, line_eq_replicate hg⟩

/-- A gap is written alike a second time if it ends a paragraph, or has no two marks in different runs. -/
theorem between_again_iff (hg : Blanks g) : between (between g) = between g ↔ Breaks g ∨ ¬ Doubled g := by
  rcases between_cases hg with ⟨hbreaks, heq⟩ | ⟨hbreaks, heq⟩
  · rw [heq]
    exact iff_of_true (by decide) (.inl hbreaks)
  · rw [heq, between_replicate, List.replicate_inj, ← two_le_tokens_iff hg]
    constructor
    · rintro ⟨hmin, -⟩
      exact .inr (by omega)
    · intro h
      have hle := h.resolve_left hbreaks
      exact ⟨by omega, .inr rfl⟩

theorem breaks_between_iff (hg : Blanks g) : Breaks (between g) ↔ Breaks g := by
  rcases between_cases hg with ⟨hbreaks, heq⟩ | ⟨hbreaks, heq⟩
  · rw [heq]
    exact iff_of_true (by decide) hbreaks
  · refine iff_of_false ?_ hbreaks
    rw [heq]
    exact not_breaks_replicate _

theorem between_third (hg : Blanks g) : between (between (between g)) = between (between g) := by
  rcases between_cases hg with ⟨-, heq⟩ | ⟨-, heq⟩
  · rw [heq]
    decide
  · rw [heq, between_replicate, between_replicate, Nat.min_assoc, Nat.min_self]

/-- What is written for a written text, word by word. -/
theorem shown_shown_word (hw : IsWord w) (hg : Blanks g) (hrest : ∀ c ∈ rest.head?, ¬ isBlank c) (hne : rest ≠ []) :
    shown (shown (w ++ (g ++ rest))) = w ++ (between (between g) ++ shown (shown rest)) := by
  rw [shown_word hw hg hrest hne,
    shown_word hw (blanks_between hg) (shown_head hrest) (shown_ne_nil hrest hne)]

theorem shown_shown_word_last (hw : IsWord w) (hg : Blanks g) : shown (shown (w ++ g)) = w := by
  have hword := shown_word_last hw blanks_nil
  rw [List.append_nil] at hword
  rw [shown_word_last hw hg, hword]

/-- A written text is written alike exactly if its gaps are. -/
theorem shown_again_iff (h : Worded cs) :
    shown (shown cs) = shown cs ↔ ∀ g, Gap g cs → Breaks g ∨ ¬ Doubled g := by
  induction h with
  | nil => exact iff_of_true (by rw [shown_nil, shown_nil]) fun g hgap => absurd hgap not_gap_nil
  | @word w g rest hw hg hapart hrest ih =>
    rw [forall_gap_word_iff hw hg hapart hrest, ← ih, ← between_again_iff hg]
    by_cases hne : rest = []
    · rw [hne, List.append_nil, shown_shown_word_last hw hg, shown_word_last hw hg, shown_nil, shown_nil]
      exact iff_of_true rfl ⟨fun h => absurd rfl h, rfl⟩
    · rw [shown_shown_word hw hg hrest.head hne, shown_word hw hg hrest.head hne, List.append_cancel_left_eq]
      constructor
      · intro heq
        obtain ⟨hgap, hmore⟩ := blanks_cut (blanks_between (blanks_between hg)) (shown_head (shown_head hrest.head))
          (blanks_between hg) (shown_head hrest.head) heq
        exact ⟨fun _ => hgap, hmore⟩
      · rintro ⟨hgap, hmore⟩
        rw [hgap hne, hmore]

theorem shown_third (h : Worded cs) : shown (shown (shown cs)) = shown (shown cs) := by
  induction h with
  | nil => rw [shown_nil, shown_nil, shown_nil]
  | @word w g rest hw hg hapart hrest ih =>
    by_cases hne : rest = []
    · rw [hne, List.append_nil, shown_shown_word_last hw hg, ← shown_word_last hw hg, shown_shown_word_last hw hg,
        shown_word_last hw hg]
    · rw [shown_shown_word hw hg hrest.head hne,
        shown_word hw (blanks_between (blanks_between hg)) (shown_head (shown_head hrest.head))
          (shown_ne_nil (shown_head hrest.head) (shown_ne_nil hrest.head hne)), between_third hg, ih]

/-- A written text has as many paragraphs as the text. -/
theorem length_pieces_shown (cs : List Char) : (pieces (shown cs)).length = (pieces cs).length := by
  rw [← shown_trimStart, ← pieces_trimStart cs]
  have hworded := worded_trimStart cs
  generalize trimStart cs = cs at hworded
  induction hworded with
  | nil => rw [shown_nil]
  | @word w g rest hw hg hapart hrest ih =>
    by_cases hne : rest = []
    · have hword := pieces_word_last hw blanks_nil
      rw [List.append_nil] at hword
      rw [hne, List.append_nil, shown_word_last hw hg, hword, pieces_word_last hw hg]
    · rw [shown_word hw hg hrest.head hne]
      by_cases hbreaks : Breaks g
      · rw [pieces_word_of_breaks hw (blanks_between hg) ((breaks_between_iff hg).mpr hbreaks) (shown_head hrest.head),
          pieces_word_of_breaks hw hg hbreaks hrest.head, List.length_cons, List.length_cons, ih]
      · rw [pieces_word_of_not_breaks hw (fun h => hbreaks ((breaks_between_iff hg).mp h)) (shown_head hrest.head)
            (shown_ne_nil hrest.head hne),
          pieces_word_of_not_breaks hw hbreaks hrest.head hne, List.length_modifyHead, List.length_modifyHead, ih]

/-- A written text fits a kind as the text does, and gives it no children exactly if the text does. -/
theorem contentFor_shown {kind : Kind} {text : String} {trees : List Tree} (h : contentFor kind text = .ok trees) :
    ∃ trees', contentFor kind (String.ofList (shown text.toList)) = .ok trees' ∧ (trees' = [] ↔ trees = []) := by
  have hlength := length_pieces_shown text.toList
  simp only [contentFor_eq_ok_iff, String.toList_ofList] at h ⊢
  rcases h with ⟨hrun, rfl⟩ | ⟨hrun, ⟨hpieces, rfl⟩ | ⟨p, hpieces, rfl⟩⟩
  · refine ⟨_, .inl ⟨hrun, rfl⟩, ?_⟩
    rw [List.map_eq_nil_iff, List.map_eq_nil_iff, ← List.length_eq_zero_iff, hlength, List.length_eq_zero_iff]
  · rw [hpieces, List.length_nil, List.length_eq_zero_iff] at hlength
    exact ⟨[], .inr ⟨hrun, .inl ⟨hlength, rfl⟩⟩, Iff.rfl⟩
  · rw [hpieces, List.length_singleton, List.length_eq_one_iff] at hlength
    obtain ⟨q, hq⟩ := hlength
    have hsome : ∀ cs (p : List Char), pieces cs = [p] → (tokens p).map Token.inline ≠ [] := by
      intro cs p hp
      obtain ⟨hne, hhead, -⟩ := ends_of_mem_pieces (hp ▸ List.mem_singleton_self p)
      obtain ⟨w, more, -, htokens⟩ := exists_word_head hhead hne
      rw [htokens]
      exact List.cons_ne_nil _ _
    exact ⟨_, .inr ⟨hrun, .inr ⟨q, hq, rfl⟩⟩, iff_of_false (hsome _ q hq) (hsome _ p hpieces)⟩

/-- A text that is read and written twice: when the second time changes nothing, and that no further time does. -/
theorem render_again (text : String) : ∃ first second, render (parse text) = .ok first ∧
    render (parse first) = .ok second ∧ render (parse second) = .ok second ∧
    (second = first ↔ ∀ g, Gap g text.toList → Breaks g ∨ ¬ Doubled g) := by
  have hworded := worded_trimStart text.toList
  have hagain : shown (shown text.toList) = shown text.toList ↔ ∀ g, Gap g text.toList → Breaks g ∨ ¬ Doubled g := by
    rw [← shown_trimStart text.toList, shown_again_iff hworded]
    exact forall_congr' fun k => imp_congr_left gap_trimStart_iff
  have hthird : shown (shown (shown text.toList)) = shown (shown text.toList) := by
    rw [← shown_trimStart text.toList, shown_third hworded]
  refine ⟨_, _, render_of_parse text, render_of_parse _, ?_, ?_⟩
  · rw [render_of_parse, String.toList_ofList, String.toList_ofList, hthird]
  · rw [String.toList_ofList, String.ofList_inj, hagain]

end DocFilter.Markup
