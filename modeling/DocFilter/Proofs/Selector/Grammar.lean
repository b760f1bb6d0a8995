import DocFilter.Proofs.Codec.TreeRoundTrip
import DocFilter.Proofs.Number.Digits
import DocFilter.Proofs.Results
import DocFilter.Proofs.Selector.Tokens

/-!
# The grammar of selectors

A selector is written as the names of its tests with combinators between them; blanks may stand before and after
everything but between a plus sign and its distance.

* `NodeTest.IsTerm` are the tests that have a name in selectors.
* `Selector.Written` is the grammar, said of texts and not of tokens.
* `Selector.linksOf_eq_ok_iff` says how links are read from tokens, one link at a time; with it a text that was read
  is written in the grammar (`Selector.linksWritten_of_linksOf`), and a text that is written in the grammar is read
  (`Selector.LinksWritten.exists_tokens`).
* `Selector.compile_written` says of every text whether it is read, as what, and that it is refused otherwise.
-/

namespace DocFilter

/-! ## Names of tests -/

namespace NodeTest

variable {t : NodeTest}

/-- A test that has a name in selectors: a category, or a kind that documents are written with. -/
def IsTerm : NodeTest → Prop
  | block | inline => True
  | kind k => k.isTagged

/-- What passes such a test is a block or an inline. -/
theorem IsTerm.isTagged {kind : Kind} (h : t.IsTerm) (haccepts : t.accepts kind) :
    kind.isTagged := by
  cases t with
  | block => exact Bool.or_eq_true_iff.mpr (.inl haccepts)
  | inline => exact Bool.or_eq_true_iff.mpr (.inr haccepts)
  | kind k =>
    obtain rfl : kind = k := by simpa [accepts] using haccepts
    exact h

theorem ofName?_eq_some_iff {word : String} : ofName? word = some t ↔ t.IsTerm ∧ t.name = word := by
  constructor
  · intro h
    rw [ofName?] at h
    split at h
    · rename_i hword
      cases h
      exact ⟨trivial, (beq_iff_eq.mp hword).symm⟩
    · split at h
      · rename_i hword
        cases h
        exact ⟨trivial, (beq_iff_eq.mp hword).symm⟩
      · obtain ⟨k, hk, rfl⟩ := Option.map_eq_some_iff.mp h
        obtain ⟨hfound, htagged⟩ := Option.filter_eq_some_iff.mp hk
        exact ⟨htagged, by simpa [name] using List.find?_some hfound⟩
  · rintro ⟨hterm, rfl⟩
    cases t with
    | block => rfl
    | inline => rfl
    | kind k =>
      rw [ofName?, name, Kind.ofName?_name hterm]
      cases k with
      | other name => cases hterm
      | _ => rfl

/-- A name begins with a capital letter. -/
theorem IsTerm.exists_head (h : t.IsTerm) : ∃ c cs, t.name.toList = c :: cs ∧ 'A' ≤ c ∧ c ≤ 'Z' := by
  cases t with
  | block => exact ⟨_, _, rfl, by decide, by decide⟩
  | inline => exact ⟨_, _, rfl, by decide, by decide⟩
  | kind k =>
    cases k with
    | other name => cases h
    | _ => exact ⟨_, _, rfl, by decide, by decide⟩

/-- All of a name belongs to one token. -/
theorem IsTerm.not_endsName (h : t.IsTerm) : ∀ c ∈ t.name.toList, ¬ Selector.endsName c := by
  have hall : t.name.toList.all (!Selector.endsName ·) = true := by
    cases t with
    | block => decide
    | inline => decide
    | kind k =>
      cases k with
      | other name => cases h
      | _ => decide
  intro c hc
  simpa using List.all_eq_true.mp hall c hc

end NodeTest

/-! ## Distances -/

theorem digitIn?_ten (c : Char) : digitIn? 10 c = digitValue? c := by
  simp only [digitIn?, digitValue?, Char.le_def, UInt32.le_iff_toNat_le]
  split
  · rename_i hdigit
    have hc : c.toNat ≤ 0x39 := hdigit.2
    rw [if_pos (by omega)]
  · split
    · rename_i hlower
      have hc : 0x61 ≤ c.toNat := hlower.1
      rw [if_neg (by omega)]
    · split
      · rename_i hupper
        have hc : 0x41 ≤ c.toNat := hupper.1
        rw [if_neg (by omega)]
      · rfl

theorem natIn?_ten_eq_some_iff {cs : List Char} {n : Nat} :
    natIn? 10 cs = some n ↔ cs ≠ [] ∧ Digits cs ∧ natOfDigits cs = n := by
  have hfold : ∀ (cs : List Char) (start : Nat),
      cs.foldlM (fun value c => (digitIn? 10 c).map (value * 10 + ·)) start = some n ↔
        Digits cs ∧ cs.foldl (fun value c => value * 10 + (digitValue? c).getD 0) start = n := by
    intro cs
    induction cs with
    | nil => intro start; simp [Digits, pure]
    | cons c cs ih =>
      intro start
      rw [List.foldlM_cons, List.foldl_cons, digitIn?_ten, Digits, List.forall_mem_cons]
      by_cases hc : IsDigit c
      · have hvalue : digitValue? c = some (c.toNat - 0x30) := if_pos hc
        simp [hvalue, hc, ih]
      · have hvalue : digitValue? c = none := if_neg hc
        simp [hvalue, hc]
  rw [natIn?]
  cases cs with
  | nil => simp
  | cons c cs => simpa [natOfDigits] using hfold (c :: cs) 0

namespace Selector

variable {cs rest raw : List Char} {t : Token} {ts : List Token} {first : NodeTest} {links : List Link}
  {combinator : Combinator}

/-- A distance is left out or a numeral. -/
theorem distance_eq_ok_iff {d : Option Nat} : distance raw = .ok d ↔
    (raw = [] ∧ d = none) ∨
      (raw ≠ [] ∧ Digits raw ∧ raw.length ≤ digitLimit ∧ d = some (natOfDigits raw)) := by
  rw [distance]
  split
  · rename_i hempty
    simp [List.isEmpty_iff.mp hempty, eq_comm]
  · rename_i hnonempty
    have hne : raw ≠ [] := fun h => hnonempty (List.isEmpty_iff.mpr h)
    split
    · rename_i n hn
      obtain ⟨-, hdigits, rfl⟩ := natIn?_ten_eq_some_iff.mp hn
      split
      · rename_i hlong
        simp only [reduceCtorEq, hne, false_and, false_or, false_iff]
        rintro ⟨-, -, hshort, -⟩
        omega
      · rename_i hshort
        rw [Except.ok.injEq]
        constructor
        · rintro rfl
          exact .inr ⟨hne, hdigits, Nat.not_lt.mp hshort, rfl⟩
        · rintro (⟨hempty, -⟩ | ⟨-, -, -, rfl⟩)
          · exact absurd hempty hne
          · rfl
    · rename_i hn
      have hno : ¬ Digits raw := fun hdigits => by
        rw [natIn?_ten_eq_some_iff.mpr ⟨hne, hdigits, rfl⟩] at hn
        cases hn
      simp [flawed, hne, hno]

theorem not_endsDistance_of_isDigit {c : Char} (h : IsDigit c) : ¬ endsDistance c := by
  have hall : ∀ d : Fin 10, ¬ endsDistance (Char.ofNat (0x30 + d.val)) := by decide
  obtain ⟨hlow, hhigh⟩ := isDigit_iff.mp h
  have hc := hall ⟨c.toNat - 0x30, by omega⟩
  rwa [Nat.add_sub_cancel' hlow, Char.ofNat_toNat] at hc

/-- Distances of a length that numbers are read in: no run of digits that begins after a plus sign and ends where a
distance ends is longer. -/
def ShortDistances (cs : List Char) : Prop :=
  ∀ before digits rest : List Char, cs = before ++ '+' :: (digits ++ rest) → Digits digits →
    (∀ c ∈ rest.head?, endsDistance c) → digits.length ≤ digitLimit

theorem ShortDistances.of_append {before : List Char} (h : ShortDistances (before ++ cs)) : ShortDistances cs := by
  rintro head digits rest rfl
  exact h (before ++ head) digits rest (by rw [List.append_assoc])

/-- A text that is not long has no long distance. -/
theorem shortDistances_of_length (h : cs.length ≤ digitLimit) : ShortDistances cs := by
  rintro before digits rest rfl - -
  simp only [List.length_append, List.length_cons] at h
  omega

end Selector

/-! ## The grammar -/

/-- How a combinator is written: by its sign, and after a plus sign by the digits of the distance, if it has one. -/
inductive Combinator.Written : Combinator → List Char → Prop where
  | childOf : Written .childOf ['>']
  | anywhere : Written (.follows none) ['+']
  | exactly {digits : List Char} : digits ≠ [] → Digits digits →
      Written (.follows (some (natOfDigits digits))) ('+' :: digits)

namespace Selector

variable {cs rest raw : List Char} {t : Token} {ts : List Token} {first : NodeTest} {links : List Link}
  {combinator : Combinator}

/-- How links are written: a combinator and the name of a test for each, and blanks everywhere between them. -/
inductive LinksWritten : List Link → List Char → Prop where
  | nil {blanks : List Char} : Blanks blanks → LinksWritten [] blanks
  | cons {combinator : Combinator} {test : NodeTest} {links : List Link} {before sign between rest : List Char} :
      Blanks before → combinator.Written sign → Blanks between → test.IsTerm → LinksWritten links rest →
      LinksWritten (⟨combinator, test⟩ :: links) (before ++ (sign ++ (between ++ (test.name.toList ++ rest))))

/-- How a selector is written: the name of the first test, maybe after blanks, and the links. -/
inductive Written : NodeTest → List Link → List Char → Prop where
  | intro {first : NodeTest} {links : List Link} {blanks rest : List Char} :
      Blanks blanks → first.IsTerm → LinksWritten links rest →
      Written first links (blanks ++ (first.name.toList ++ rest))

/-! ## Links read from tokens -/

/-- What a token other than a name says of the test that comes next. -/
def Token.Joins : Token → Combinator → Prop
  | .childOf, combinator => combinator = .childOf
  | .follows raw, combinator => ∃ d, distance raw = .ok d ∧ combinator = .follows d
  | .name _, _ => False

theorem test_eq_ok_iff {word : List Char} {test : NodeTest} :
    Selector.test word = .ok test ↔ test.IsTerm ∧ test.name.toList = word := by
  rw [Selector.test]
  have hname : test.name = String.ofList word ↔ test.name.toList = word := by
    rw [← String.toList_inj, String.toList_ofList]
  split
  · rename_i found hfound
    rw [Except.ok.injEq, ← hname, ← NodeTest.ofName?_eq_some_iff, hfound, Option.some.injEq]
  · rename_i hnone
    rw [← hname, ← NodeTest.ofName?_eq_some_iff, hnone]
    simp [flawed]

theorem linkTo_eq_ok_iff : linksOf.linkTo combinator ts = .ok links ↔
    ∃ test rest more, test.IsTerm ∧ ts = .name test.name.toList :: rest ∧ linksOf rest = .ok more ∧
      links = ⟨combinator, test⟩ :: more := by
  rw [linksOf.linkTo.eq_def]
  split
  · simp [flawed]
  · rename_i word rest
    simp only [bind_eq_ok_iff, test_eq_ok_iff, Except.ok.injEq]
    constructor
    · rintro ⟨test, ⟨hterm, rfl⟩, more, hmore, rfl⟩
      exact ⟨test, rest, more, hterm, rfl, hmore, rfl⟩
    · rintro ⟨test, rest', more, hterm, heq, hmore, rfl⟩
      cases heq
      exact ⟨test, ⟨hterm, rfl⟩, more, hmore, rfl⟩
  · rename_i hother
    simp only [flawed, reduceCtorEq, false_iff]
    rintro ⟨test, rest, more, -, heq, -⟩
    obtain ⟨rfl, rfl⟩ := List.cons.inj heq
    exact hother _ rfl

/-- Links are read one by one, each from a combinator and a name. -/
theorem linksOf_eq_ok_iff : linksOf ts = .ok links ↔
    (ts = [] ∧ links = []) ∨ ∃ sign combinator test rest more, sign.Joins combinator ∧ test.IsTerm ∧
      ts = sign :: .name test.name.toList :: rest ∧ linksOf rest = .ok more ∧
      links = ⟨combinator, test⟩ :: more := by
  cases ts with
  | nil =>
    rw [linksOf]
    simp only [Except.ok.injEq, true_and, reduceCtorEq, false_and, and_false, exists_const, or_false]
    exact eq_comm
  | cons sign ts =>
    simp only [reduceCtorEq, false_and, false_or, List.cons.injEq]
    cases sign with
    | name word =>
      rw [linksOf, bind_eq_ok_iff]
      simp [flawed, Token.Joins]
    | childOf =>
      rw [linksOf, linkTo_eq_ok_iff]
      constructor
      · rintro ⟨test, rest, more, hterm, hts, hmore, hlinks⟩
        exact ⟨Token.childOf, .childOf, test, rest, more, rfl, hterm, ⟨rfl, hts⟩, hmore, hlinks⟩
      · rintro ⟨_, combinator, test, rest, more, hjoins, hterm, ⟨rfl, hts⟩, hmore, hlinks⟩
        obtain rfl : combinator = .childOf := hjoins
        exact ⟨test, rest, more, hterm, hts, hmore, hlinks⟩
    | follows raw =>
      rw [linksOf, bind_eq_ok_iff]
      simp only [linkTo_eq_ok_iff]
      constructor
      · rintro ⟨d, hd, test, rest, more, hterm, hts, hmore, hlinks⟩
        exact ⟨Token.follows raw, .follows d, test, rest, more, ⟨d, hd, rfl⟩, hterm, ⟨rfl, hts⟩, hmore, hlinks⟩
      · rintro ⟨_, combinator, test, rest, more, hjoins, hterm, ⟨rfl, hts⟩, hmore, hlinks⟩
        obtain ⟨d, hd, rfl⟩ := hjoins
        exact ⟨d, hd, test, rest, more, hterm, hts, hmore, hlinks⟩

theorem chainOf_eq_ok_iff : chainOf ts = .ok (first, links) ↔
    ∃ rest, first.IsTerm ∧ ts = .name first.name.toList :: rest ∧ linksOf rest = .ok links := by
  rw [chainOf.eq_def]
  split
  · simp [flawed]
  · rename_i word rest
    simp only [bind_eq_ok_iff, test_eq_ok_iff, Except.ok.injEq, Prod.mk.injEq]
    constructor
    · rintro ⟨test, ⟨hterm, rfl⟩, more, hmore, rfl, rfl⟩
      exact ⟨rest, hterm, rfl, hmore⟩
    · rintro ⟨rest', hterm, heq, hmore⟩
      cases heq
      exact ⟨first, ⟨hterm, rfl⟩, links, hmore, rfl, rfl⟩
  · rename_i hother
    simp only [flawed, reduceCtorEq, false_iff]
    rintro ⟨rest, -, heq, -⟩
    obtain ⟨rfl, rfl⟩ := List.cons.inj heq
    exact hother _ rfl

/-! ## What is read is written -/

theorem Token.Joins.written (h : t.Joins combinator) : combinator.Written t.chars := by
  cases t with
  | childOf =>
    obtain rfl : combinator = .childOf := h
    exact .childOf
  | follows raw =>
    obtain ⟨d, hd, rfl⟩ := h
    obtain ⟨rfl, rfl⟩ | ⟨hne, hdigits, -, rfl⟩ := distance_eq_ok_iff.mp hd
    · exact .anywhere
    · exact .exactly hne hdigits
  | name cs => exact h.elim

theorem linksWritten_of_linksOf (hcovers : Covers ts cs) (h : linksOf ts = .ok links) : LinksWritten links cs := by
  induction links generalizing ts cs with
  | nil =>
    obtain ⟨rfl, -⟩ | ⟨_, _, _, _, _, _, _, _, _, hlinks⟩ := linksOf_eq_ok_iff.mp h
    · cases hcovers with
      | nil hblanks => exact .nil hblanks
    · cases hlinks
  | cons link links ih =>
    obtain ⟨-, hlinks⟩ | ⟨sign, combinator, test, rest, more, hjoins, hterm, rfl, hmore, hlinks⟩ :=
      linksOf_eq_ok_iff.mp h
    · cases hlinks
    · cases hlinks
      cases hcovers with
      | cons hbefore _ hcovers =>
        cases hcovers with
        | cons hbetween _ hcovers => exact .cons hbefore hjoins.written hbetween hterm (ih hcovers hmore)

theorem written_of_chainOf (hcovers : Covers ts cs) (h : chainOf ts = .ok (first, links)) : Written first links cs := by
  obtain ⟨rest, hterm, rfl, hrest⟩ := chainOf_eq_ok_iff.mp h
  cases hcovers with
  | cons hblanks _ hcovers => exact .intro hblanks hterm (linksWritten_of_linksOf hcovers hrest)

/-! ## What is written is read -/

theorem LinksWritten.head_endsName (h : LinksWritten links cs) : ∀ c ∈ cs.head?, endsName c := by
  have hblank : ∀ {blanks : List Char}, Blanks blanks → ∀ c ∈ blanks.head?, endsName c := fun hblanks c hc =>
    endsName_of_isBlank (hblanks c (List.mem_of_mem_head? hc))
  cases h with
  | nil hblanks => exact hblank hblanks
  | @cons combinator test links before sign between rest hbefore hsign =>
    cases before with
    | cons b before => exact fun c hc => hblank hbefore c hc
    | nil => cases hsign <;> simp [endsName]

/-- A name ends a distance, and so do blanks before it. -/
theorem head_endsDistance {between : List Char} {test : NodeTest} (hbetween : Blanks between) (hterm : test.IsTerm) :
    ∀ c ∈ (between ++ (test.name.toList ++ rest)).head?, endsDistance c := by
  cases between with
  | cons b between =>
    intro c hc
    obtain rfl : b = c := by simpa using hc
    exact endsDistance_of_endsName (endsName_of_isBlank (hbetween b (by simp)))
  | nil =>
    obtain ⟨c, cs, hname, hlow, hhigh⟩ := hterm.exists_head
    simp [hname, endsDistance, hlow, hhigh]

theorem LinksWritten.isTerm (h : LinksWritten links cs) : ∀ link ∈ links, link.test.IsTerm := by
  induction h with
  | nil _ => exact nofun
  | cons _ _ _ hterm _ ih => exact List.forall_mem_cons.mpr ⟨hterm, ih⟩

theorem Written.isTerm (h : Written first links cs) : first.IsTerm ∧ ∀ link ∈ links, link.test.IsTerm := by
  cases h with
  | intro _ hterm hlinks => exact ⟨hterm, hlinks.isTerm⟩

theorem name_stands (hterm : first.IsTerm) (h : LinksWritten links rest) :
    (Token.name first.name.toList).Stands rest := by
  obtain ⟨c, cs, hname, -⟩ := hterm.exists_head
  exact ⟨by simp [hname], hterm.not_endsName, h.head_endsName⟩

/-- What a combinator is written as is the token for it. -/
theorem exists_sign {sign : List Char} (h : combinator.Written sign) (hrest : ∀ c ∈ rest.head?, endsDistance c)
    (hshort : ShortDistances (sign ++ rest)) :
    ∃ t : Token, t.chars = sign ∧ t.Joins combinator ∧ t.Stands rest := by
  cases h with
  | childOf => exact ⟨.childOf, rfl, rfl, trivial⟩
  | anywhere => exact ⟨.follows [], rfl, ⟨none, distance_eq_ok_iff.mpr (.inl ⟨rfl, rfl⟩), rfl⟩, nofun, hrest⟩
  | @exactly digits hne hdigits =>
    have hlength := hshort [] digits rest rfl hdigits hrest
    refine ⟨.follows digits, rfl, ⟨_, distance_eq_ok_iff.mpr (.inr ⟨hne, hdigits, hlength, rfl⟩), rfl⟩, ?_, hrest⟩
    intro c hc
    exact not_endsDistance_of_isDigit (hdigits c hc)

theorem LinksWritten.exists_tokens (h : LinksWritten links cs) (hshort : ShortDistances cs) :
    ∃ ts, Covers ts cs ∧ linksOf ts = .ok links := by
  induction h with
  | nil hblanks => exact ⟨[], .nil hblanks, rfl⟩
  | @cons combinator test links before sign between rest hbefore hsign hbetween hterm hrest ih =>
    obtain ⟨ts, hcovers, hts⟩ := ih hshort.of_append.of_append.of_append.of_append
    obtain ⟨t, rfl, hjoins, hstands⟩ := exists_sign hsign (head_endsDistance hbetween hterm) hshort.of_append
    exact ⟨t :: .name test.name.toList :: ts,
      .cons hbefore hstands (.cons hbetween (name_stands hterm hrest) hcovers),
      linksOf_eq_ok_iff.mpr (.inr ⟨t, combinator, test, ts, links, hjoins, hterm, rfl, hts, rfl⟩)⟩

/-- A text that is written in the grammar is read as what it is written for. -/
theorem Written.chainOf_tokens (h : Written first links cs) (hshort : ShortDistances cs) :
    chainOf (tokens cs) = .ok (first, links) := by
  cases h with
  | intro hblanks hterm hrest =>
    obtain ⟨ts, hcovers, hts⟩ := hrest.exists_tokens hshort.of_append.of_append
    have htokens := tokens_eq_iff.mpr (.cons hblanks (name_stands hterm hrest) hcovers)
    rw [Token.chars] at htokens
    rw [htokens]
    exact chainOf_eq_ok_iff.mpr ⟨ts, hterm, rfl, hts⟩

/-! ## Refusals -/

/-- An error that is a flaw of the text. -/
def IsFlaw (e : ReadError SelectorFlaw) : Prop := ∃ flaw, e = .rule flaw

theorem failsOnly_flawed {α : Type} {flaw : SelectorFlaw} : FailsOnly IsFlaw (flawed flaw : Except _ α) :=
  .error ⟨flaw, rfl⟩

theorem failsOnly_distance (h : Digits raw → raw.length ≤ digitLimit) : FailsOnly IsFlaw (distance raw) := by
  rw [distance]
  split
  · exact .ok
  · split
    · rename_i n hn
      rw [if_neg (Nat.not_lt.mpr (h (natIn?_ten_eq_some_iff.mp hn).2.1))]
      exact .ok
    · exact failsOnly_flawed

theorem failsOnly_test {word : List Char} : FailsOnly IsFlaw (Selector.test word) := by
  rw [Selector.test]
  split
  · exact .ok
  · exact failsOnly_flawed

/-- If no distance among the tokens is too long then only a flaw keeps them from being read. -/
theorem failsOnly_linksOf (h : ∀ raw, .follows raw ∈ ts → Digits raw → raw.length ≤ digitLimit) :
    FailsOnly IsFlaw (linksOf ts) := by
  revert h
  refine linksOf.induct
    (fun combinator ts => (∀ raw, .follows raw ∈ ts → Digits raw → raw.length ≤ digitLimit) →
      FailsOnly IsFlaw (linksOf.linkTo combinator ts))
    (fun ts => (∀ raw, .follows raw ∈ ts → Digits raw → raw.length ≤ digitLimit) →
      FailsOnly IsFlaw (linksOf ts)) ?_ ?_ ?_ ?_ ?_ ?_ ?_ ts
  · intro combinator _
    exact failsOnly_flawed
  · intro combinator cs rest ih h
    rw [linksOf.linkTo]
    exact failsOnly_test.bind fun _ _ => (ih fun raw hraw => h raw (by simp [hraw])).bind fun _ _ => .ok
  · intro combinator head tail hhead _
    cases head with
    | name cs => exact absurd rfl (hhead cs)
    | childOf => exact failsOnly_flawed
    | follows raw => exact failsOnly_flawed
  · intro _
    exact .ok
  · intro cs tail _
    rw [linksOf]
    exact failsOnly_test.bind fun _ _ => failsOnly_flawed
  · intro rest ih h
    exact ih fun raw hraw => h raw (by simp [hraw])
  · intro raw rest ih h
    rw [linksOf]
    exact (failsOnly_distance (h raw (by simp))).bind fun d _ => ih d fun raw hraw => h raw (by simp [hraw])

theorem failsOnly_chainOf (h : ∀ raw, .follows raw ∈ ts → Digits raw → raw.length ≤ digitLimit) :
    FailsOnly IsFlaw (chainOf ts) := by
  rw [chainOf.eq_def]
  split
  · exact failsOnly_flawed
  · exact failsOnly_test.bind fun _ _ =>
      (failsOnly_linksOf fun raw hraw => h raw (by simp [hraw])).bind fun _ _ => .ok
  · exact failsOnly_flawed

theorem Covers.short (hcovers : Covers ts cs) (hshort : ShortDistances cs) :
    ∀ raw, .follows raw ∈ ts → Digits raw → raw.length ≤ digitLimit := by
  induction hcovers with
  | nil _ => exact nofun
  | @cons blanks t ts rest _ hstands _ ih =>
    intro raw hraw hdigits
    rcases List.mem_cons.mp hraw with rfl | hmem
    · exact hshort blanks raw rest rfl hdigits hstands.2
    · exact ih hshort.of_append.of_append raw hmem hdigits

/-! ## Texts -/

theorem written_of_compile {text : String} {s : Selector} (h : compile text = .ok s) :
    s.text = text ∧ Written s.first s.links text.toList := by
  rw [compile] at h
  split at h
  · rename_i hchain
    cases h
    exact ⟨rfl, written_of_chainOf (tokens_eq_iff.mp rfl) hchain⟩
  · cases h

/-- A text is cut into tokens with nothing left over but blanks; it is read exactly if it is written in the
grammar, as the tests, combinators and distances that it is written for; and every other text is refused, with
itself in the refusal. -/
theorem compile_written {text : String} (hshort : ShortDistances text.toList) :
    Covers (tokens text.toList) text.toList ∧
      (∀ s, compile text = .ok s ↔ s.text = text ∧ Written s.first s.links text.toList) ∧
      ((∀ first links, ¬ Written first links text.toList) →
        ∃ flaw, compile text = .error (.rule ⟨flaw, some text⟩)) := by
  have hcovers : Covers (tokens text.toList) text.toList := tokens_eq_iff.mp rfl
  refine ⟨hcovers, fun s => ⟨written_of_compile, fun ⟨htext, h⟩ => ?_⟩, fun hno => ?_⟩
  · rw [compile, h.chainOf_tokens hshort, ← htext]
  · rcases (failsOnly_chainOf (hcovers.short hshort)).cases with ⟨⟨first, links⟩, hchain⟩ | ⟨_, ⟨flaw, rfl⟩, hchain⟩
    · exact absurd (written_of_chainOf hcovers hchain) (hno first links)
    · exact ⟨flaw, by rw [compile, hchain]; rfl⟩

/-- A distance may have zeros in front and the next name close behind it, and any blank of Unicode may stand around
a combinator. -/
theorem compile_written_glued :
    ShortDistances "Header +02Para\u00a0> Str".toList ∧
      compile "Header +02Para\u00a0> Str" = .ok ⟨"Header +02Para\u00a0> Str", .kind .header,
        [⟨.follows (some 2), .kind .para⟩, ⟨.childOf, .kind .str⟩]⟩ ∧
      Written (.kind .header) [⟨.follows (some 2), .kind .para⟩, ⟨.childOf, .kind .str⟩]
        "Header +02Para\u00a0> Str".toList := by
  have hshort : ShortDistances "Header +02Para\u00a0> Str".toList := shortDistances_of_length (by decide)
  have hread : compile "Header +02Para\u00a0> Str" = .ok ⟨"Header +02Para\u00a0> Str", .kind .header,
      [⟨.follows (some 2), .kind .para⟩, ⟨.childOf, .kind .str⟩]⟩ := by cbv
  exact ⟨hshort, hread, (((compile_written hshort).2.1 _).mp hread).2⟩

example : compile "Header +²Para" = .error (.rule ⟨.malformedDistance "²", some "Header +²Para"⟩) := by cbv

end Selector

end DocFilter
