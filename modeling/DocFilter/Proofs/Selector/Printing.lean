import DocFilter.Proofs.Selector.Grammar

/-!
# Printed selectors

The tests of a selector and its links have texts of their own.  Put one after the other they compile to what they
are the texts of, whatever blanks are put in front of the links, none included.

* `Combinator.token` is what the text of a combinator is read as, and `Selector.covers_linksText` says that the
  tokens of printed links are these and the names.
* `Selector.compile_printed` says that printing and compiling gives the same chain again.
-/

namespace DocFilter

/-- The token of a combinator. -/
def Combinator.token : Combinator → Selector.Token
  | childOf => .childOf
  | follows none => .follows []
  | follows (some n) => .follows (Nat.toDigits 10 n)

/-- A link that a text can be read as: its test has a name, and its distance has as many digits as numbers are read
in. -/
structure Link.Legible (link : Link) : Prop where
  term : link.test.IsTerm
  short : ∀ n, link.combinator = .follows (some n) → (toString n).length ≤ digitLimit

namespace Selector

variable {first : NodeTest} {link : Link} {combinator : Combinator} {parts : List (String × Link)} {rest : List Char}

/-- The texts of links, each after what is put in front of it. -/
def linksText : List (String × Link) → String
  | [] => ""
  | (gap, link) :: parts => gap ++ link.text ++ linksText parts

/-- The text of a chain. -/
def printed (first : NodeTest) (parts : List (String × Link)) : String := first.name ++ linksText parts

/-! ## Combinators -/

theorem chars_token : combinator.token.chars = combinator.text.toList := by
  cases combinator with
  | childOf => rfl
  | follows distance =>
    cases distance with
    | none => rfl
    | some n => simp [Combinator.token, Token.chars, Combinator.text, Nat.repr, toString]

/-- A blank ends every combinator. -/
theorem token_stands : combinator.token.Stands (' ' :: rest) := by
  have hblank : ∀ c ∈ (' ' :: rest).head?, endsDistance c := fun c hc => by
    obtain rfl : ' ' = c := by simpa using hc
    decide
  cases combinator with
  | childOf => exact trivial
  | follows distance =>
    cases distance with
    | none => exact ⟨nofun, hblank⟩
    | some n => exact ⟨fun c hc => not_endsDistance_of_isDigit (digits_toDigits n c hc), hblank⟩

theorem token_joins (hshort : ∀ n, combinator = .follows (some n) → (toString n).length ≤ digitLimit) :
    combinator.token.Joins combinator := by
  cases combinator with
  | childOf => exact rfl
  | follows d =>
    cases d with
    | none => exact ⟨none, distance_eq_ok_iff.mpr (.inl ⟨rfl, rfl⟩), rfl⟩
    | some n =>
      have hne : Nat.toDigits 10 n ≠ [] := List.ne_nil_of_length_pos Nat.length_toDigits_pos
      have hlength : (Nat.toDigits 10 n).length ≤ digitLimit := by simpa [toString, Nat.repr] using hshort n rfl
      refine ⟨some n, distance_eq_ok_iff.mpr (.inr ⟨hne, digits_toDigits n, hlength, ?_⟩), rfl⟩
      rw [natOfDigits_toDigits]

/-! ## Links -/

theorem blanks_space : Blanks [' '] := fun c hc => by
  rw [List.mem_singleton.mp hc]
  decide

/-- Links that can be read, each after blanks. -/
def Legible (parts : List (String × Link)) : Prop :=
  ∀ part ∈ parts, Blanks part.1.toList ∧ part.2.Legible

/-- The tokens of links. -/
def linksTokens : List (String × Link) → List Token
  | [] => []
  | (_, link) :: parts => link.combinator.token :: .name link.test.name.toList :: linksTokens parts

theorem toList_linksText_cons {gap : String} : (linksText ((gap, link) :: parts)).toList =
    gap.toList ++ (link.combinator.token.chars ++
      ([' '] ++ (link.test.name.toList ++ (linksText parts).toList))) := by
  simp [linksText, Link.text, chars_token]

theorem linksWritten_linksText (h : Legible parts) :
    LinksWritten (parts.map (·.2)) (linksText parts).toList := by
  induction parts with
  | nil => exact .nil nofun
  | cons part parts ih =>
    obtain ⟨gap, link⟩ := part
    obtain ⟨⟨hgap, hterm, hshort⟩, hparts⟩ := List.forall_mem_cons.mp h
    rw [toList_linksText_cons]
    exact .cons hgap (token_joins hshort).written blanks_space hterm (ih hparts)

theorem covers_linksText (h : Legible parts) : Covers (linksTokens parts) (linksText parts).toList := by
  induction parts with
  | nil => exact .nil nofun
  | cons part parts ih =>
    obtain ⟨gap, link⟩ := part
    obtain ⟨⟨hgap, hterm, hshort⟩, hparts⟩ := List.forall_mem_cons.mp h
    rw [toList_linksText_cons]
    have hname := name_stands hterm (linksWritten_linksText hparts)
    exact .cons hgap token_stands (.cons blanks_space hname (ih hparts))

theorem linksOf_linksTokens (h : Legible parts) : linksOf (linksTokens parts) = .ok (parts.map (·.2)) := by
  induction parts with
  | nil => rfl
  | cons part parts ih =>
    obtain ⟨gap, link⟩ := part
    obtain ⟨⟨-, hterm, hshort⟩, hparts⟩ := List.forall_mem_cons.mp h
    exact linksOf_eq_ok_iff.mpr (.inr ⟨_, link.combinator, link.test, _, _, token_joins hshort, hterm, rfl,
      ih hparts, rfl⟩)

/-! ## Chains -/

/-- A printed chain compiles to itself, whatever blanks are put in front of its links. -/
theorem compile_printed (hfirst : first.IsTerm)
    (hparts : ∀ part ∈ parts, Blanks part.1.toList ∧ part.2.Legible) :
    compile (printed first parts) = .ok ⟨printed first parts, first, parts.map (·.2)⟩ := by
  have hname := name_stands hfirst (linksWritten_linksText hparts)
  have htokens : tokens (printed first parts).toList = .name first.name.toList :: linksTokens parts := by
    rw [tokens_eq_iff, printed, String.toList_append]
    exact .cons (show Blanks [] from nofun) hname (covers_linksText hparts)
  have hchain : chainOf (.name first.name.toList :: linksTokens parts) = .ok (first, parts.map (·.2)) :=
    chainOf_eq_ok_iff.mpr ⟨_, hfirst, rfl, linksOf_linksTokens hparts⟩
  rw [compile, htokens, hchain]

/-- Links with and without a distance, after a tab, after nothing and after two spaces. -/
def mixedParts : List (String × Link) :=
  [("\t", ⟨.follows (some 10), .kind .para⟩), ("", ⟨.childOf, .inline⟩), ("  ", ⟨.follows none, .kind .image⟩)]

theorem compile_printed_mixed :
    (∀ part ∈ mixedParts, Blanks part.1.toList ∧ part.2.Legible) ∧
      printed (.kind .header) mixedParts = "Header\t+10 Para> Inline  + Image" ∧
      compile (printed (.kind .header) mixedParts) = .ok ⟨printed (.kind .header) mixedParts, .kind .header,
        [⟨.follows (some 10), .kind .para⟩, ⟨.childOf, .inline⟩, ⟨.follows none, .kind .image⟩]⟩ := by
  have hshort : ∀ n, Combinator.follows (some 10) = .follows (some n) → (toString n).length ≤ digitLimit := by
    rintro _ ⟨⟩
    decide
  have hblanks : ∀ gap : String, gap.toList.all Text.isBlank = true → Blanks gap.toList := fun gap h =>
    List.all_eq_true.mp h
  have hparts : ∀ part ∈ mixedParts, Blanks part.1.toList ∧ part.2.Legible := by
    simp only [mixedParts, List.forall_mem_cons, List.not_mem_nil, false_imp_iff, implies_true, and_true]
    exact ⟨⟨hblanks _ (by decide), rfl, hshort⟩, ⟨nofun, trivial, nofun⟩, ⟨hblanks _ (by decide), rfl, nofun⟩⟩
  exact ⟨hparts, by cbv, compile_printed (show (NodeTest.kind .header).IsTerm from rfl) hparts⟩

end Selector

end DocFilter
