import DocFilter.Proofs.Yaml.Scalars
import DocFilter.Yaml.Scan
import Mathlib.Data.List.TakeWhile

/-!
# Where the readers of directives, anchors and tags go

`scanDirective_stays`, `scanAnchor_stays` and `scanTag_stays`: each passes at least the mark that it starts with,
and all that is refused without a broken rule is a version number with too many digits.
-/

namespace DocFilter.Yaml.Scanner

variable {cs : List Char} {c : Cursor} {fuel : Nat} {piece : Piece}

theorem scanName_reads (piece : Piece) (c : Cursor) :
    Reads c.rest (fun r => c.rest = r.1 ++ r.2.rest) (scanName piece c) := by
  simp only [scanName]
  split
  · exact Reads.refuse _ _
  · rw [Reads, Yields.ok_iff, Cursor.rest_spanWhile]
    exact List.takeWhile_append_dropWhile.symm

/-! ## Numbers of versions -/

/-- A cursor inside the directive of a version: behind the word there are spaces, digits and points at most. -/
def InVersion (cs : List Char) (c : Cursor) : Prop :=
  ∃ between : List Char, "YAML".toList ++ between ++ c.rest <:+ cs ∧
    ∀ ch ∈ between, ch = ' ' ∨ ch = '.' ∨ ('0' ≤ ch ∧ ch ≤ '9')

theorem InVersion.suffix (h : InVersion cs c) : c.rest <:+ cs := by
  obtain ⟨between, hstands, hapart⟩ := h
  exact (List.suffix_append _ _).trans hstands

/-- Passing characters that may stand in a version leaves the cursor inside. -/
theorem InVersion.passed {c' : Cursor} (h : InVersion cs c) (run : List Char) (hrest : c.rest = run ++ c'.rest)
    (hrun : ∀ ch ∈ run, ch = ' ' ∨ ch = '.' ∨ ('0' ≤ ch ∧ ch ≤ '9')) : InVersion cs c' := by
  obtain ⟨between, hstands, hapart⟩ := h
  refine ⟨between ++ run, ?_, List.forall_mem_append.mpr ⟨hapart, hrun⟩⟩
  rw [hrest] at hstands
  simpa using hstands

theorem InVersion.skipSpaces (h : InVersion cs c) : InVersion cs c.skipSpaces := by
  refine h.passed (c.rest.takeWhile (· == ' ')) (by simp) fun ch hch => .inl ?_
  simpa using List.mem_takeWhile_imp hch

theorem InVersion.forward (h : InVersion cs c) (hpeek : c.peek = some '.') : InVersion cs c.forward := by
  obtain ⟨rest, hrest⟩ : ∃ rest, c.rest = '.' :: rest := by
    simpa [Cursor.peek, List.head?_eq_some_iff] using hpeek
  exact h.passed ['.'] (by simp [hrest]) (by simp)

/-- A number of a version is read to its end, or it has too many digits. -/
theorem InVersion.scanNumber (h : InVersion cs c) : Reads cs (InVersion cs ·.2) (scanNumber c) := by
  obtain ⟨digits, hrun⟩ : ∃ digits, c.rest.takeWhile (fun ch => '0' ≤ ch && ch ≤ '9') = digits := ⟨_, rfl⟩
  have hdigits : ∀ ch ∈ digits, '0' ≤ ch ∧ ch ≤ '9' := fun ch hch => by
    rw [← hrun] at hch
    simpa using List.mem_takeWhile_imp hch
  have hinit : digits <+: c.rest := hrun ▸ List.takeWhile_prefix _
  simp only [Scanner.scanNumber, Cursor.spanWhile, hrun]
  split_ifs
  · exact Reads.refuse _ _
  next hlong =>
    obtain ⟨between, hstands, hapart⟩ := h
    have hstands' : "YAML".toList ++ between ++ digits <+: "YAML".toList ++ between ++ c.rest :=
      (List.prefix_append_right_inj _).mpr hinit
    exact .version (hstands'.isInfix.trans hstands.isInfix) hapart hdigits hlong
  · refine h.passed digits ?_ fun ch hch => .inr (.inr (hdigits ch hch))
    rw [Cursor.rest_skip]
    exact (List.prefix_iff_eq_append.mp hinit).symm

/-! ## Tags -/

theorem scanHandle_stays (piece : Piece) (c : Cursor) : Stays c.rest.tail (·.2) (scanHandle piece c) := by
  rw [scanHandle]
  split
  · simp
  · dsimp only
    split
    · simp only [Yields.ok_iff, Cursor.rest_forward, Cursor.rest_spanWhile]
      exact (List.tail_suffix _).trans (List.dropWhile_suffix _)
    · exact Reads.refuse _ _
  · exact Reads.refuse _ _

theorem scanUriByte_stays (piece : Piece) (c : Cursor) : Stays c.rest (·.2) (scanUriByte piece c) := by
  simp only [scanUriByte]
  split
  · simp [List.drop_suffix]
  · exact Reads.refuse _ _

theorem scanUriEscapes_stays (piece : Piece) (fuel : Nat) (c : Cursor) :
    Stays c.rest (·.2) (scanUriEscapes piece fuel c) := by
  induction fuel generalizing c with
  | zero => exact List.suffix_rfl
  | succ fuel ih =>
    rw [scanUriEscapes]
    split
    · refine .of_suffix (.bind (scanUriByte_stays piece c.forward) fun r => ?_) (by simp [List.tail_suffix])
      exact (ih r.2).bind fun _ => List.suffix_rfl
    · exact List.suffix_rfl

theorem scanUriFrom_stays (piece : Piece) (fuel : Nat) (c : Cursor) :
    Stays c.rest (·.2) (scanUriFrom piece fuel c) := by
  induction fuel generalizing c with
  | zero => exact List.suffix_rfl
  | succ fuel ih =>
    have hspan : (c.spanWhile isUriChar).2.rest <:+ c.rest := by simp [List.dropWhile_suffix]
    simp only [scanUriFrom]
    split
    · refine .of_suffix (.bind (scanUriEscapes_stays piece _ _) ?_) hspan
      rintro ⟨bytes, c'⟩
      dsimp only
      split
      · exact (ih c').bind fun _ => List.suffix_rfl
      · exact Reads.refuse _ _
    · exact hspan

theorem scanUri_stays (piece : Piece) (c : Cursor) : Stays c.rest (·.2) (scanUri piece c) := by
  refine (scanUriFrom_stays piece _ c).bind ?_
  rintro ⟨chars, after⟩
  dsimp only
  split
  · exact Reads.refuse _ _
  · exact List.suffix_rfl

theorem scanTagName_stays (c : Cursor) : Stays c.rest.tail (·.2) (scanTagName c) := by
  simp only [scanTagName]
  split_ifs
  · have hopen : ((c.look 1).skip 2).rest <:+ c.rest.tail := by
      rw [Cursor.rest_skip, ← List.drop_tail]
      exact List.drop_suffix _ _
    refine .of_suffix (.bind (scanUri_stays .tag _) ?_) hopen
    rintro ⟨content, c'⟩
    dsimp only
    split
    · simp [List.tail_suffix]
    · exact Reads.refuse _ _
  · simp
  · refine .bind (scanHandle_stays .tag _) ?_
    rintro ⟨handle, c'⟩
    exact .bind (scanUri_stays .tag c') fun _ => List.suffix_rfl
  · refine .of_suffix (.bind (scanUri_stays .tag _) fun _ => List.suffix_rfl) ?_
    simp

theorem scanTag_stays (c : Cursor) : Stays c.rest.tail (·.2) (scanTag c) := by
  refine (scanTagName_stays c).bind ?_
  rintro ⟨token, c'⟩
  dsimp only
  split
  · exact List.suffix_rfl
  · exact Reads.refuse _ _

theorem scanAnchor_stays (piece : Piece) (c : Cursor) : Stays c.rest.tail (·.2) (scanAnchor piece c) := by
  rw [← Cursor.rest_forward]
  refine (scanName_reads piece c.forward).bind ?_
  rintro ⟨name, c'⟩ hname
  dsimp only at hname ⊢
  rw [hname]
  split
  · exact List.suffix_append name c'.rest
  · exact Reads.refuse _ _

/-! ## Directives -/

theorem scanDirectiveValue_stays {name : List Char} (hname : cs = name ++ c.rest) :
    Stays cs (·.2) (scanDirectiveValue name c) := by
  have hrest : c.rest <:+ cs := hname ▸ List.suffix_append name c.rest
  have hspaces : c.skipSpaces.rest <:+ cs := by
    rw [Cursor.rest_skipSpaces]
    exact (List.dropWhile_suffix _).trans hrest
  rw [scanDirectiveValue]
  split
  next hword =>
    have hversion : InVersion cs c := ⟨[], by simp [hname, ← hword], by simp⟩
    refine hversion.skipSpaces.scanNumber.bind ?_
    rintro ⟨major, c2⟩ h2
    dsimp only at h2 ⊢
    split
    · exact Reads.refuse _ _
    next hpoint =>
      refine (h2.forward (by simpa using hpoint)).scanNumber.bind ?_
      rintro ⟨minor, c3⟩ h3
      dsimp only at h3 ⊢
      split
      · exact h3.suffix
      · exact Reads.refuse _ _
  next =>
    refine .of_suffix (.bind (scanHandle_stays .directive _) ?_) ((List.tail_suffix _).trans hspaces)
    rintro ⟨handle, c2⟩
    dsimp only
    split
    · exact Reads.refuse _ _
    · have hcontent : c2.skipSpaces.rest <:+ c2.rest := by simp [List.dropWhile_suffix]
      refine .of_suffix (.bind (scanUri_stays .directive _) ?_) hcontent
      rintro ⟨content, c3⟩
      dsimp only
      split
      · exact List.suffix_rfl
      · exact Reads.refuse _ _
  next =>
    rw [Stays, Reads, Yields.ok_iff, Cursor.rest_skipWhile]
    exact (List.dropWhile_suffix _).trans hrest

theorem scanDirective_stays (c : Cursor) : Stays c.rest.tail (·.2) (scanDirective c) := by
  rw [← Cursor.rest_forward]
  refine (scanName_reads .directive c.forward).bind ?_
  rintro ⟨name, c1⟩ hname
  dsimp only at hname ⊢
  split
  · exact Reads.refuse _ _
  · refine (scanDirectiveValue_stays hname).bind fun r => ?_
    exact (skipLineRest_stays .directive r.2).bind fun _ => List.suffix_rfl

end DocFilter.Yaml.Scanner
