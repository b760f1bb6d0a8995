import DocFilter.Node.Make
import DocFilter.Node.PlainText
import DocFilter.Text.Blank

/-!
# Plain-text markup

Markup in which a text stands for itself: paragraphs are separated by blank lines, words by spaces and
line breaks. `Markup.parse` reads a text as paragraphs and `Markup.render` writes nodes as text;
`Markup.contentFor` fits a parse into a node that holds inlines or blocks. Writing goes by what each node
contributes to a text, so that it serves nodes under edit as well.
-/

namespace DocFilter.Markup

/-- The text after a paragraph break: a line break, a line without words, and every line break that
follows at once. -/
def paragraphBreak? (afterNewline : List Char) : Option (List Char) :=
  match afterNewline.dropWhile fun c => c == ' ' || c == '\t' with
  | '\n' :: rest => some (rest.dropWhile (· == '\n'))
  | _ => none

theorem length_dropWhile_le {α : Type} (p : α → Bool) (xs : List α) :
    (xs.dropWhile p).length ≤ xs.length := (List.dropWhile_sublist p).length_le

theorem length_lt_of_paragraphBreak? {cs rest : List Char} (h : paragraphBreak? cs = some rest) :
    rest.length < cs.length := by
  unfold paragraphBreak? at h
  split at h
  · next tail heq =>
    have h1 := length_dropWhile_le (fun c => c == ' ' || c == '\t') cs
    have h2 := length_dropWhile_le (· == '\n') tail
    rw [heq] at h1
    simp only [List.length_cons] at h1
    injection h with h
    subst h
    omega
  · simp at h

/-- The texts between paragraph breaks; `current` is the one being read, last character first. -/
def paragraphsFrom (current : List Char) (cs : List Char) : List (List Char) := match cs with
  | [] => [current.reverse]
  | c :: rest =>
    if c = '\n' then match h : paragraphBreak? rest with
      | some after =>
        have := length_lt_of_paragraphBreak? h
        current.reverse :: paragraphsFrom [] after
      | none => paragraphsFrom (c :: current) rest
    else paragraphsFrom (c :: current) rest
termination_by cs.length
decreasing_by all_goals simp_all <;> omega

/-- What a line of text is made of. -/
inductive Token where
  | lineBreak
  | blanks
  | word (cs : List Char)
deriving DecidableEq, Repr

/-- Ends the word being read. -/
def flush (current : List Char) (tokens : List Token) : List Token :=
  if current.isEmpty then tokens else .word current.reverse :: tokens

/-- The tokens of a text. A run of spaces and tabs is one token, a line break is one, and blank
characters of other kinds only separate words; `current` is the word being read, last character first,
and `afterBlank` whether the run of spaces before it has been counted. -/
def tokensFrom (current : List Char) (afterBlank : Bool) : List Char → List Token
  | [] => flush current []
  | c :: rest =>
    if c = '\n' then flush current (.lineBreak :: tokensFrom [] false rest)
    else if c = ' ' ∨ c = '\t' then
      flush current ((if afterBlank then [] else [.blanks]) ++ tokensFrom [] true rest)
    else if Text.isBlank c then flush current (tokensFrom [] false rest)
    else tokensFrom (c :: current) false rest

/-- The inline of a token. -/
def Token.inline : Token → Tree
  | lineBreak => Tree.make .softBreak []
  | blanks => Tree.make .space []
  | word cs => Tree.word (String.ofList cs)

/-- The inlines of one paragraph. -/
def inlines (cs : List Char) : List Tree :=
  (tokensFrom [] false (Text.trim cs)).map Token.inline

/-- Reads a text as paragraphs. -/
def parse (text : String) : List Tree :=
  ((paragraphsFrom [] (Text.trim text.toList)).filter fun cs => !(Text.trim cs).isEmpty).map
    fun cs => Tree.make .para (inlines cs)

/-- Joins fragments: inlines run on, anything else is separated by a blank line. -/
def join (fragments : List Fragment) : Except PlainTextError String :=
  if !fragments.isEmpty && fragments.all (·.isInline) then Fragment.textOfList fragments
  else do
    let texts ← fragments.mapM Fragment.text
    .ok (String.intercalate "\n\n" texts)

/-- Writes nodes as text. -/
def render (children : List Tree) : Except PlainTextError String := join (children.map Tree.fragment)

/-- Why a node cannot be given new markup. -/
inductive ContentError where
  /-- The kind is none of the vocabulary. -/
  | unknownKind (name : String)
  /-- The kind holds neither inlines nor blocks. -/
  | noContent (kind : Kind)
  /-- Several paragraphs do not fit a node of inlines. -/
  | notOneParagraph (kind : Kind)
deriving DecidableEq, Repr, Inhabited

/-- The children that a text gives to a node of a kind: the blocks themselves, or the inlines of a
single paragraph. -/
def contentFor (kind : Kind) (text : String) : Except ContentError (List Tree) :=
  match kind, kind.run? with
  | .other name, _ => .error (.unknownKind name)
  | _, some .blocks => .ok (parse text)
  | _, some .inlines => match parse text with
    | [paragraph] => .ok paragraph.children
    | [] => .ok []
    | _ => .error (.notOneParagraph kind)
  | _, _ => .error (.noContent kind)

/-- Why a row has no texts. -/
inductive RowError where
  /-- The node is neither a table row nor a table header. -/
  | notRow (kind : Kind)
  | plainText (error : PlainTextError)
deriving Repr, Inhabited

/-- The text of a table cell: that of each block, without blanks at its ends, on lines of its own. -/
def cellText (blocks : List Fragment) : Except PlainTextError String := do
  let texts ← blocks.mapM fun block => join [block]
  .ok (String.intercalate "\n" (texts.map fun text => String.ofList (Text.trim text.toList)))

/-- The text of each cell of a table row or header, given the blocks of the cells. -/
def rowTexts (kind : Kind) (cells : List (List Fragment)) : Except RowError (List String) :=
  if kind == .tableRow || kind == .tableHeader then (cells.mapM cellText).mapError .plainText
  else .error (.notRow kind)

end DocFilter.Markup
