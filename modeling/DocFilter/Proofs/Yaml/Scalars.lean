import DocFilter.Proofs.Yaml.Cursor
import Mathlib.Tactic.SplitIfs

/-!
# Where the readers of scalars go

Each way to write a scalar is read from a cursor to a later one. `scanQuoted_stays` and `scanBlock_stays` say that
the readers pass at least the mark that opens the scalar, and that all they refuse without a broken rule is an
escape beyond the last code point; `scanPlain_suffix` that a plain scalar that has a character passes one.
-/

namespace DocFilter.Yaml

variable {cs : List Char} {c : Cursor} {fuel : Nat}

/-! ## Plain scalars -/

@[simp] theorem rest_skipRun (run : List Char) (c : Cursor) : (skipRun run c).rest = c.rest.drop run.length := by
  rw [skipRun]
  split <;> simp

theorem plainBreaks_suffix (fuel : Nat) (c : Cursor) : (plainBreaks fuel c).2.rest <:+ c.rest := by
  fun_induction plainBreaks fuel c with
  | case1 c => exact List.suffix_rfl
  | case2 fuel c hspace ih => exact ih.trans (by simp [List.tail_suffix])
  | case3 fuel c hspace hbreak => exact List.suffix_rfl
  | case4 fuel c hspace ch next hbreak c' hmark =>
    exact (Cursor.lineBreak?_suffix hbreak).trans (List.tail_suffix _)
  | case5 fuel c hspace ch next hbreak c' hmark breaks last hmore ih =>
    rw [hmore] at ih
    exact ih.trans ((Cursor.lineBreak?_suffix hbreak).trans (List.tail_suffix _))

theorem plainSpaces_suffix (fuel : Nat) (c : Cursor) : (plainSpaces fuel c).2.2.rest <:+ c.rest := by
  have hspan : (c.spanWhile (· == ' ')).2.rest <:+ c.rest := by
    rw [Cursor.rest_spanWhile]
    exact List.dropWhile_suffix _
  have hbreaks := plainBreaks_suffix fuel
  fun_cases plainSpaces fuel c with
  | case1 blanks c' hblanks hbreak => simpa [hblanks] using hspan
  | case2 blanks c' hblanks first next hbreak after hmark =>
    rw [hblanks] at hspan
    exact ((Cursor.lineBreak?_suffix hbreak).trans (List.tail_suffix _)).trans hspan
  | case3 blanks c' hblanks first next hbreak after hmark last hmore
  | case4 blanks c' hblanks first next hbreak after hmark more last hmore =>
    rw [hblanks] at hspan
    have hlast := hbreaks after
    rw [hmore] at hlast
    exact hlast.trans (((Cursor.lineBreak?_suffix hbreak).trans (List.tail_suffix _)).trans hspan)

/-- A plain scalar goes on at least past its first run. -/
theorem plainFrom_suffix (flow : Bool) (indent : Int) (fuel : Nat) (read : List (List Char)) (spaces : List Char)
    (ended : Bool) (c : Cursor) :
    (plainFrom flow indent fuel read spaces ended c).2.2.rest <:+ c.rest ∧
      (0 < fuel → c.peek ≠ some '#' → (plainFrom flow indent fuel read spaces ended c).2.2.rest <:+
        c.rest.drop (plainRun flow c.rest).length) := by
  have hspaces := plainSpaces_suffix
  fun_induction plainFrom flow indent fuel read spaces ended c with
  | case1 => simp
  | case2 fuel read spaces ended c hcomment => simp_all
  | case3 fuel read spaces ended c run hcomment hrun => simp [run, List.drop_suffix]
  | case4 fuel read spaces ended c run hcomment hrun pieces spaces' ended' c' hafter hends =>
    have hlast := hspaces fuel (skipRun run c)
    rw [hafter, rest_skipRun] at hlast
    exact ⟨hlast.trans (List.drop_suffix _ _), fun _ _ => hlast⟩
  | case5 fuel read spaces ended c run hcomment hrun pieces spaces' ended' c' hafter hends ih =>
    have hlast := hspaces fuel (skipRun run c)
    rw [hafter, rest_skipRun] at hlast
    exact ⟨(ih.1.trans hlast).trans (List.drop_suffix _ _), fun _ _ => ih.1.trans hlast⟩

theorem scanPlain_suffix {flow : Bool} (hcomment : c.peek ≠ some '#') (hrun : plainRun flow c.rest ≠ [])
    (indent : Int) : (scanPlain flow indent c).2.2.rest <:+ c.rest.tail := by
  have hfrom := (plainFrom_suffix flow indent (c.rest.length + 1) [] [] false c).2 (Nat.succ_pos _) hcomment
  refine List.IsSuffix.trans (by simpa [scanPlain] using hfrom) ?_
  obtain ⟨n, hn⟩ := Nat.exists_eq_succ_of_ne_zero (List.length_pos_iff.mpr hrun).ne'
  rw [hn, ← List.drop_tail]
  exact List.drop_suffix _ _

/-! ## Quoted scalars -/

theorem quotedBreaks_stays (fuel : Nat) (c : Cursor) : Stays c.rest (·.2) (quotedBreaks fuel c) := by
  induction fuel generalizing c with
  | zero => exact List.suffix_rfl
  | succ fuel ih =>
    simp only [quotedBreaks]
    split
    · exact Reads.refuse _ _
    · have hblank : (c.lookForSeparator.skipWhile fun ch => ch == ' ' || ch == '\t').rest <:+ c.rest := by
        simp [List.dropWhile_suffix]
      split
      next => exact hblank
      next ch c' hbreak =>
        refine .of_suffix (.bind (ih c') ?_)
          (((Cursor.lineBreak?_suffix hbreak).trans (List.tail_suffix _)).trans hblank)
        exact fun _ => List.suffix_rfl

/-- The digits of an escape, after the backslash and the letter that says how many there are. -/
theorem scanCodePoint_stays {letter : Char} {width : Nat} (hwidth : escapeWidth? letter = some width)
    (c : Cursor) : Stays ('\\' :: letter :: c.rest) (·.2) (scanCodePoint width c) := by
  have hrest : c.rest <:+ '\\' :: letter :: c.rest := List.suffix_append ['\\', letter] c.rest
  simp only [scanCodePoint]
  generalize hdigits : (c.rest.take width).takeWhile (fun ch => (digitIn? 16 ch).isSome) = digits
  have hinit : digits <+: c.rest := hdigits ▸ (List.takeWhile_prefix _).trans (List.take_prefix _ _)
  have hlength : digits.length ≤ width :=
    hdigits ▸ (List.takeWhile_prefix _).length_le.trans (List.length_take_le _ _)
  split
  next => exact Reads.refuse _ _
  next code hcode =>
    split at hcode
    · cases hcode
    next hlong =>
      have hall : digits.length = width := by omega
      split
      next ch hchar => simpa using (List.drop_suffix width c.rest).trans hrest
      next e hchar =>
        cases e with
        | malformed => trivial
        | fault fault =>
          have hstands : '\\' :: letter :: digits <+: '\\' :: letter :: c.rest := by simpa using hinit
          exact .escape hstands.isInfix (hall ▸ hwidth) hcode hchar

/-- An escape, after its backslash. -/
theorem scanEscape_stays (fuel : Nat) (c : Cursor) : Stays ('\\' :: c.rest) (·.2) (scanEscape fuel c) := by
  have hrest : c.rest.tail <:+ '\\' :: c.rest := (List.tail_suffix _).trans (List.suffix_cons _ _)
  rw [scanEscape]
  split
  next => exact Reads.refuse _ _
  next letter hpeek =>
    split
    next => simpa using hrest
    next =>
      split
      next width hwidth =>
        obtain ⟨rest, hcons⟩ : ∃ rest, c.rest = letter :: rest := by
          simpa [Cursor.peek, List.head?_eq_some_iff] using hpeek
        have hpoint := scanCodePoint_stays hwidth c.forward
        rw [Cursor.rest_forward, hcons, List.tail_cons, ← hcons] at hpoint
        exact hpoint.map fun _ => rfl
      next =>
        split
        next ch c' hbreak => exact (quotedBreaks_stays fuel c').of_suffix ((Cursor.lineBreak?_suffix hbreak).trans hrest)
        next => exact Reads.refuse _ _

theorem quotedRun_stays (double : Bool) (fuel : Nat) (c : Cursor) :
    Stays c.rest (·.2) (quotedRun double fuel c) := by
  induction fuel generalizing c with
  | zero => exact List.suffix_rfl
  | succ fuel ih =>
    have hmore {c' : Cursor} (hc' : c'.rest <:+ c.rest) (cs : List Char) :
        Stays c.rest (·.2) (quotedRun double fuel c' >>= fun r => .ok (cs ++ r.1, r.2)) :=
      .of_suffix (.bind (ih c') fun _ => List.suffix_rfl) hc'
    have htail : c.forward.rest <:+ c.rest := by simp [List.tail_suffix]
    simp only [quotedRun]
    split
    next => exact List.suffix_rfl
    next ch rest hrest =>
      split_ifs
      · exact List.suffix_rfl
      · exact List.suffix_rfl
      next hslash =>
        have hescape := scanEscape_stays fuel c.forward
        rw [Cursor.rest_forward, hrest, List.tail_cons, ← eq_of_beq hslash, ← hrest] at hescape
        exact hescape.bind fun r => .bind (ih r.2) fun _ => List.suffix_rfl
      · exact hmore htail [ch]
      · exact hmore (by simp [List.drop_suffix]) ['\'']
      · exact List.suffix_rfl
      · exact hmore htail [ch]

theorem quotedSpaces_stays (fuel : Nat) (c : Cursor) : Stays c.rest (·.2) (quotedSpaces fuel c) := by
  simp only [quotedSpaces]
  have hspan : (c.spanWhile fun ch => ch == ' ' || ch == '\t').2.rest <:+ c.rest := by
    rw [Cursor.rest_spanWhile]
    exact List.dropWhile_suffix _
  split
  next => exact Reads.refuse _ _
  next =>
    split
    next => exact hspan
    next first c' hbreak =>
      refine .of_suffix (.bind (quotedBreaks_stays fuel c') ?_)
        (((Cursor.lineBreak?_suffix hbreak).trans (List.tail_suffix _)).trans hspan)
      exact fun _ => List.suffix_rfl

theorem quotedFrom_stays (double : Bool) (quote : Char) (fuel : Nat) (c : Cursor) :
    Stays c.rest (·.2) (quotedFrom double quote fuel c) := by
  induction fuel generalizing c with
  | zero => exact Reads.refuse _ _
  | succ fuel ih =>
    rw [quotedFrom]
    refine (quotedRun_stays double fuel c).bind ?_
    rintro ⟨run, c'⟩
    dsimp only
    split
    · simp [List.tail_suffix]
    · refine (quotedSpaces_stays fuel c').bind fun r => ?_
      exact (ih r.2).bind fun _ => List.suffix_rfl

theorem scanQuoted_stays (double : Bool) (c : Cursor) : Stays c.rest.tail (·.2) (scanQuoted double c) := by
  rw [← Cursor.rest_forward]
  exact (quotedFrom_stays double _ _ c.forward).bind fun _ => List.suffix_rfl

/-! ## Block scalars -/

theorem scanChomping_suffix (c : Cursor) : (scanChomping c).2.rest <:+ c.rest := by
  rw [scanChomping]
  split
  · simp [List.tail_suffix]
  · exact List.suffix_rfl

theorem scanIncrement_stays (c : Cursor) : Stays c.rest (·.2) (scanIncrement c) := by
  rw [scanIncrement]
  split
  · exact Reads.refuse _ _
  · simp [List.tail_suffix]
  · exact List.suffix_rfl

theorem blockIndicators_stays (c : Cursor) : Stays c.rest (·.2.2) (blockIndicators c) := by
  rw [blockIndicators]
  have hfirst := scanChomping_suffix c
  generalize scanChomping c = first at hfirst
  refine .of_suffix (.bind (scanIncrement_stays first.2) ?_) hfirst
  rintro ⟨increment, c'⟩
  generalize hlast : (if first.1.isNone && increment.isSome then scanChomping c' else (none, c')) = last
  have hrest : last.2.rest <:+ c'.rest := by
    rw [← hlast]
    split
    · exact scanChomping_suffix c'
    · exact List.suffix_rfl
  simp only [hlast]
  split
  · exact hrest
  · exact Reads.refuse _ _

theorem skipLineRest_stays (piece : Piece) (c : Cursor) : Stays c.rest id (skipLineRest piece c) := by
  have hcomment : c.skipSpaces.skipComment.rest <:+ c.rest :=
    (Cursor.skipComment_suffix _).trans (by simp [List.dropWhile_suffix])
  simp only [skipLineRest]
  split
  · exact (Cursor.skipBreak_suffix _).trans hcomment
  · exact Reads.refuse _ _

theorem blockIndentation_suffix (fuel deepest : Nat) (c : Cursor) :
    (blockIndentation fuel deepest c).2.2.rest <:+ c.rest := by
  fun_induction blockIndentation fuel deepest c with
  | case1 deepest c => exact List.suffix_rfl
  | case2 fuel deepest c hspace c' ih => exact ih.trans (by simp [c', List.tail_suffix])
  | case3 fuel deepest c hspace hbreak => exact List.suffix_rfl
  | case4 fuel deepest c hspace ch c' hbreak breaks deepest' last hmore ih =>
    rw [hmore] at ih
    exact ih.trans ((Cursor.lineBreak?_suffix hbreak).trans (List.tail_suffix _))

theorem skipIndent_suffix (indent : Nat) (c : Cursor) : (skipIndent indent c).rest <:+ c.rest := by
  simp [skipIndent, List.drop_suffix]

theorem blockBreaks_suffix (indent fuel : Nat) (c : Cursor) : (blockBreaks indent fuel c).2.rest <:+ c.rest := by
  fun_induction blockBreaks indent fuel c with
  | case1 c => exact List.suffix_rfl
  | case2 fuel c c' hbreak => exact skipIndent_suffix indent c
  | case3 fuel c c' ch next hbreak breaks last hmore ih =>
    rw [hmore] at ih
    exact ih.trans (((Cursor.lineBreak?_suffix hbreak).trans (List.tail_suffix _)).trans (skipIndent_suffix indent c))

/-- The line of a block scalar that a cursor is at, with the line break behind it. -/
theorem line_suffix {line ending : List Char} {c' c'' : Cursor}
    (hline : c.spanWhile (!isBreak ·) = (line, c'))
    (hending : (match c'.lineBreak? with
      | some (ch, c) => ([ch], c)
      | none => ([], c')) = (ending, c'')) : c''.rest <:+ c.rest := by
  have hspan : c'.rest <:+ c.rest := by
    have hrest := Cursor.rest_spanWhile (!isBreak ·) c
    rw [hline] at hrest
    exact hrest ▸ List.dropWhile_suffix _
  split at hending
  next ch next hbreak =>
    cases hending
    exact ((Cursor.lineBreak?_suffix hbreak).trans (List.tail_suffix _)).trans hspan
  next =>
    cases hending
    exact hspan

theorem blockLines_suffix (folded : Bool) (indent fuel : Nat) (breaks : List Char) (c : Cursor) :
    (blockLines folded indent fuel breaks c).2.2.2.rest <:+ c.rest := by
  have hbreaks := blockBreaks_suffix indent
  fun_induction blockLines folded indent fuel breaks c with
  | case1 breaks c => exact List.suffix_rfl
  | case2 fuel breaks c hend => exact List.suffix_rfl
  | case3 fuel breaks c hin textual line c1 hline ending c2 hending more c3 hmore hnext joint text last breaks' c4
      hlines ih =>
    have hpassed := hbreaks fuel c2
    rw [hmore] at hpassed
    rw [hlines] at ih
    exact (ih.trans hpassed).trans (line_suffix hline hending)
  | case4 fuel breaks c hin line c1 hline ending c2 hending more c3 hmore hnext =>
    have hpassed := hbreaks fuel c2
    rw [hmore] at hpassed
    exact hpassed.trans (line_suffix hline hending)

theorem blockStart_suffix (least : Nat) (increment : Option Nat) (fuel : Nat) (c : Cursor) :
    (blockStart least increment fuel c).2.2.rest <:+ c.rest := by
  cases increment with
  | some n => exact blockBreaks_suffix _ fuel c
  | none => exact blockIndentation_suffix fuel 0 c

theorem scanBlock_stays (folded : Bool) (indent : Int) (c : Cursor) :
    Stays c.rest.tail (·.2) (scanBlock folded indent c) := by
  rw [← Cursor.rest_forward, scanBlock]
  refine (blockIndicators_stays c.forward).bind ?_
  rintro ⟨chomping, increment, c1⟩
  refine (skipLineRest_stays .blockScalar c1).bind fun c2 => ?_
  simp only [Yields.ok_iff]
  exact (blockLines_suffix folded _ _ _ _).trans (blockStart_suffix _ increment _ c2)

end DocFilter.Yaml
