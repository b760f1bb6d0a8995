import DocFilter.Proofs.Yaml.Scanning
import DocFilter.Yaml.Graph

/-!
# Composing comes to an end

The steps that make nodes of tokens pass one token at least before they go further in or further on, and they never
pass the last token of a text. So they end with a node, a broken rule or the reason why the tokens end early:
`Graph.ofTokens_fares`.

`Takes` says how many tokens a step passes, given how many there are at most; `Takes.bind` adds up what two
steps pass.
-/

namespace DocFilter.Yaml.Compose

variable {α β : Type} {cs : List Char} {n : Nat}

/-! ## Passing tokens -/

/-- The tokens still to come lead to the last one, unless they end early for a reason in the text. -/
def Open (cs : List Char) (s : Composer) : Prop := .streamEnd ∈ s.tokens ∨ Told cs s.ending

/-- What a step does that starts with the tokens of a state: it passes some, as many as its result says or more,
or it refuses the text. -/
def Passes (cs : List Char) (s : Composer) (least : α → Nat) : Except Error (α × Composer) → Prop
  | .ok (a, t) => Open cs t ∧ t.tokens.length + least a ≤ s.tokens.length
  | .error e => Told cs e

/-- A step that passes tokens, whenever there are `n` at most. -/
def Takes (cs : List Char) (n : Nat) (least : α → Nat) (x : Compose α) : Prop :=
  ∀ s, Open cs s → s.tokens.length ≤ n → Passes cs s least (x.run s)

/-- A step that passes tokens, the first of which is known. -/
def TakesAt (cs : List Char) (n : Nat) (token : Token) (least : α → Nat) (x : Compose α) : Prop :=
  ∀ s, Open cs s → s.tokens.length ≤ n → s.tokens.head? = some token → Passes cs s least (x.run s)

/-- What passes the rest after some tokens passes all. -/
theorem Passes.after {s t : Composer} {k : Nat} {all : β → Nat} {r : Except Error (β × Composer)}
    (h : Passes cs t (fun b => all b - k) r) (hlength : t.tokens.length + k ≤ s.tokens.length) :
    Passes cs s all r := by
  cases r with
  | error e => exact h
  | ok last =>
    obtain ⟨hopen, hrest⟩ := h
    dsimp only at hrest
    exact ⟨hopen, by omega⟩

theorem Passes.bind {s : Composer} {least : α → Nat} {all : β → Nat} {r : Except Error (α × Composer)}
    {g : α × Composer → Except Error (β × Composer)} (h : Passes cs s least r)
    (hg : ∀ a t, Open cs t → t.tokens.length + least a ≤ s.tokens.length →
      Passes cs t (fun b => all b - least a) (g (a, t))) : Passes cs s all (r >>= g) := by
  cases r with
  | error e => exact h
  | ok first => exact (hg first.1 first.2 h.1 h.2).after h.2

theorem Takes.at {least : α → Nat} {x : Compose α} (h : Takes cs n least x) (token : Token) :
    TakesAt cs n token least x := fun s hs hn _ => h s hs hn

theorem Takes.bind {least : α → Nat} {all : β → Nat} {x : Compose α} {f : α → Compose β}
    (h : Takes cs n least x)
    (hf : ∀ a, least a ≤ n → Takes cs (n - least a) (fun b => all b - least a) (f a)) : Takes cs n all (x >>= f) :=
  fun s hs hn => (h s hs hn).bind fun a t ht hlength => hf a (by omega) t ht (by omega)

/-- A step that may pass no token goes before any other. -/
theorem Takes.then {all : β → Nat} {x : Compose α} {f : α → Compose β} (h : Takes cs n (fun _ => 0) x)
    (hf : ∀ a, Takes cs n all (f a)) : Takes cs n all (x >>= f) := h.bind fun a _ => hf a

theorem Takes.imp {least least' : α → Nat} {x : Compose α} {m : Nat} (h : Takes cs n least x) (hmn : m ≤ n)
    (hle : ∀ a, least' a ≤ least a) : Takes cs m least' x := by
  intro s hs hm
  have hx := h s hs (hm.trans hmn)
  cases hrun : x.run s with
  | error e => rwa [hrun] at hx
  | ok r =>
    rw [hrun] at hx
    exact ⟨hx.1, (Nat.add_le_add_left (hle r.1) _).trans hx.2⟩

theorem Takes.pure {least : α → Nat} {a : α} (h : least a = 0) : Takes cs n least (pure a) :=
  fun s hs _ => ⟨hs, by simp [h]⟩

theorem Takes.map {least : β → Nat} {x : Compose α} {g : α → β} (h : Takes cs n (fun _ => 0) x)
    (hg : ∀ a, least (g a) = 0) : Takes cs n least (g <$> x) := by
  rw [map_eq_pure_bind]
  exact h.then fun a => .pure (hg a)

theorem Takes.fail {least : α → Nat} (reason : Reason) : Takes cs n least (fail reason) :=
  fun _ _ _ => trivial

theorem Takes.read {all : β → Nat} {f : Composer → Compose β} (h : ∀ s, Takes cs n all (f s)) :
    Takes cs n all (get >>= f) := fun s => h s s

/-- A step that leaves the tokens as they are. -/
theorem Takes.modify {f : Composer → Composer} {least : PUnit → Nat} (hleast : least ⟨⟩ = 0)
    (htokens : ∀ s, (f s).tokens = s.tokens) (hending : ∀ s, (f s).ending = s.ending) :
    Takes cs n least (modify f) := by
  intro s hs _
  refine ⟨?_, by simp [hleast, htokens]⟩
  rwa [Open, htokens, hending]

theorem add_takes (node : Node) : Takes cs n (fun _ => 0) (add node) := fun _ hs _ => ⟨hs, Nat.le_refl _⟩

/-- Looking at the next token: a text has one until its last token is passed. -/
theorem Takes.look {all : β → Nat} {f : Token → Compose β} (h : ∀ token, TakesAt cs n token all (f token)) :
    Takes cs n all (peek >>= f) := by
  intro s hs hn
  cases htokens : s.tokens with
  | nil =>
    have htold : Told cs s.ending := by simpa [Open, htokens] using hs
    have hpeek : Compose.peek.run s = .error s.ending := by
      simp [Compose.peek, htokens, throw, throwThe, MonadExceptOf.throw]
    rw [StateT.run_bind, hpeek]
    exact htold
  | cons token tokens =>
    have hpeek : (Compose.peek >>= f).run s = (f token).run s := by simp [Compose.peek, htokens]
    rw [hpeek]
    exact h token s hs hn (by simp [htokens])

/-- Passing a token that is not the last. -/
theorem TakesAt.pass {token : Token} {all : β → Nat} {f : PUnit → Compose β} (htoken : token ≠ .streamEnd)
    (h : 1 ≤ n → Takes cs (n - 1) (fun b => all b - 1) (f ⟨⟩)) : TakesAt cs n token all (advance >>= f) := by
  intro s hs hn hhead
  obtain ⟨tokens, htokens⟩ : ∃ tokens, s.tokens = token :: tokens := by
    simpa [List.head?_eq_some_iff] using hhead
  have hadvance : (Compose.advance >>= f).run s = (f ⟨⟩).run { s with tokens := tokens } := by
    simp [Compose.advance, htokens]
  rw [hadvance]
  have hlength : s.tokens.length = tokens.length + 1 := by simp [htokens]
  have hopen : Open cs { s with tokens := tokens } := by
    simpa [Open, htokens, htoken.symm] using hs
  have htokens' : tokens.length + 1 ≤ n := hlength ▸ hn
  exact (h (by omega) { s with tokens := tokens } hopen (Nat.le_sub_of_add_le htokens')).after hlength.ge

/-- What is bounded by the tokens still to come may go on for one more than there are. -/
theorem Takes.bound {all : β → Nat} {f : Nat → Compose β}
    (h : ∀ bound count, count < bound → count ≤ n → Takes cs count all (f bound)) :
    Takes cs n all (bound >>= f) :=
  fun s hs hn => h (s.tokens.length + 1) s.tokens.length (Nat.lt_succ_self _) hn s hs (Nat.le_refl _)

/-- Repeating a step that passes a token whenever it finds something: there are enough tokens for each time. -/
theorem collect_takes {step : Compose (Option α)} (h : Takes cs n (fun o => o.isSome.toNat) step) :
    Takes cs n (fun _ => 0) (collect step) := by
  refine .bound fun fuel m hm hmn => ?_
  replace h := h.imp hmn fun _ => Nat.le_refl _
  induction fuel generalizing m with
  | zero => exact absurd hm (Nat.not_lt_zero m)
  | succ fuel ih =>
    refine h.bind fun found hfound => ?_
    cases found with
    | none => exact .pure rfl
    | some x =>
      refine Takes.then ?_ fun xs => .pure rfl
      have hfound : 1 ≤ m := hfound
      exact ih (m - 1) (by omega) (by omega) (h.imp (Nat.sub_le m 1) fun _ => Nat.le_refl _)

/-! ## Tokens that must or may come next -/

theorem accept_takes {token : Token} (htoken : token ≠ .streamEnd) : Takes cs n Bool.toNat (accept token) := by
  refine .look fun next => ?_
  split
  next heq =>
    rw [eq_of_beq heq]
    exact TakesAt.pass htoken fun _ => .pure rfl
  next => exact (Takes.pure rfl).at next

/-- One of two steps, the first after a token that comes next. -/
theorem Takes.ifAccept {token : Token} {all : β → Nat} {x y : Compose β} (htoken : token ≠ .streamEnd)
    (hx : 1 ≤ n → Takes cs (n - 1) (fun b => all b - 1) x) (hy : Takes cs n all y) :
    Takes cs n all (do if ← accept token then x else y) := by
  refine (accept_takes htoken).bind fun found hfound => ?_
  cases found with
  | true => exact hx hfound
  | false => exact hy

theorem expect_takes {token : Token} (htoken : token ≠ .streamEnd) (piece : Piece) :
    Takes cs n (fun _ => 1) (expect token piece) := by
  refine (accept_takes htoken).bind fun found _ => ?_
  cases found with
  | true => exact .pure rfl
  | false => exact .fail _

variable {node : Compose Ref} {piece : Piece} {close : Token}

theorem nodeUnless_takes (h : Takes cs n (fun _ => 0) node) (stops : List Token) :
    Takes cs n (fun _ => 0) (nodeUnless node stops) := by
  have hat : Takes cs n (fun _ => 0) (at? stops) := .look fun next => (Takes.pure rfl).at next
  refine hat.then fun found => ?_
  split
  · exact add_takes _
  · exact h

theorem valueUnless_takes (h : Takes cs n (fun _ => 0) node) (stops : List Token) :
    Takes cs n (fun _ => 0) (valueUnless node stops) :=
  .ifAccept (by simp) (fun _ => (nodeUnless_takes h stops).imp (Nat.sub_le n 1) (by simp)) (add_takes _)

/-- Two nodes, the second of which may be a value. -/
theorem nodes_takes {all : β → Nat} {f : Ref → Ref → Compose β} (h : Takes cs n (fun _ => 0) node)
    (hf : ∀ key value, Takes cs n all (f key value)) (stops stops' : List Token) :
    Takes cs n all (do
      let key ← nodeUnless node stops
      let value ← valueUnless node stops'
      f key value) :=
  (nodeUnless_takes h stops).then fun key => (valueUnless_takes h stops').then fun value => hf key value

/-! ## Collections -/

theorem blockItem_takes (h : ∀ m < n, Takes cs m (fun _ => 0) node) :
    Takes cs n (fun o => o.isSome.toNat) (blockItem node) := by
  refine .ifAccept (by simp) (fun hn => ?_) ?_
  · exact (nodeUnless_takes (h (n - 1) (by omega)) _).map (by simp)
  · exact ((expect_takes (by simp) _).imp (Nat.le_refl n) (by simp)).then fun _ => .pure rfl

theorem indentlessItem_takes (h : ∀ m < n, Takes cs m (fun _ => 0) node) :
    Takes cs n (fun o => o.isSome.toNat) (indentlessItem node) := by
  refine .ifAccept (by simp) (fun hn => ?_) (.pure rfl)
  exact (nodeUnless_takes (h (n - 1) (by omega)) _).map (by simp)

theorem blockPair_takes (h : ∀ m < n, Takes cs m (fun _ => 0) node) :
    Takes cs n (fun o => o.isSome.toNat) (blockPair node) := by
  refine .ifAccept (by simp) (fun hn => ?_) ?_
  · exact nodes_takes (h (n - 1) (by omega)) (fun key value => .pure (by simp)) _ _
  · exact ((expect_takes (by simp) _).imp (Nat.le_refl n) (by simp)).then fun _ => .pure rfl

/-- Before an item that is not the first there is a comma, and the end of a collection is a token as well. -/
theorem flowEnds_takes (hclose : close ≠ .streamEnd) (first : Bool) :
    Takes cs n (fun ended => if first then ended.toNat else 1) (flowEnds piece first close) := by
  refine .ifAccept hclose (fun _ => Takes.pure (by cases first <;> rfl)) ?_
  cases first with
  | true => exact .pure rfl
  | false =>
    refine (expect_takes (by simp) piece).bind fun _ _ => ?_
    exact (accept_takes hclose).imp (Nat.le_refl _) (by simp)

theorem flowItems_takes {item : Compose α} (hclose : close ≠ .streamEnd) (h : Takes cs n (fun _ => 0) item) :
    Takes cs n (fun _ => 0) (flowItems piece item close) := by
  have hnext : Takes cs n (fun o => o.isSome.toNat)
      (do if ← flowEnds piece false close then pure none else some <$> item) := by
    refine (flowEnds_takes hclose false).bind fun ended hn => ?_
    cases ended with
    | true => exact .pure (by simp)
    | false => exact (h.imp (Nat.sub_le n 1) fun _ => Nat.le_refl _).map (by simp)
  refine ((flowEnds_takes hclose true).imp (Nat.le_refl n) fun _ => Nat.zero_le _).then fun ended => ?_
  cases ended with
  | true => exact .pure rfl
  | false => exact h.then fun first => (collect_takes hnext).then fun more => .pure rfl

theorem flowItem_takes (h : Takes cs n (fun _ => 0) node) : Takes cs n (fun _ => 0) (flowItem node) := by
  refine .ifAccept (by simp) (fun _ => ?_) h
  exact nodes_takes (h.imp (Nat.sub_le n 1) (fun _ => Nat.le_refl _)) (fun _ _ => add_takes _) _ _

theorem flowPair_takes (h : Takes cs n (fun _ => 0) node) : Takes cs n (fun _ => 0) (flowPair node) := by
  refine .ifAccept (by simp) (fun _ => ?_) ?_
  · exact nodes_takes (h.imp (Nat.sub_le n 1) (fun _ => Nat.le_refl _)) (fun _ _ => .pure (by simp)) _ _
  · exact h.then fun key => (add_takes _).then fun value => .pure rfl

/-! ## Nodes -/

theorem tagName_takes (handle : Option String) (content : String) : Takes cs n (fun _ => 0) (tagName handle content) := by
  cases handle with
  | none => exact .pure rfl
  | some handle =>
    refine .read fun s => ?_
    split
    · exact .pure rfl
    · exact .fail _

theorem properties_takes : Takes cs n (fun _ => 0) properties := by
  refine .look fun token => ?_
  split
  next name =>
    refine .pass (by simp) fun hn => .look fun next => ?_
    split
    · exact .pass (by simp) fun _ => (tagName_takes _ _).then fun _ => .pure rfl
    · exact Takes.at (.pure rfl) _
  next handle content =>
    refine .pass (by simp) fun hn => .look fun next => ?_
    split
    · exact .pass (by simp) fun _ => (tagName_takes _ _).then fun _ => .pure rfl
    · refine Takes.at ?_ next
      exact (tagName_takes _ _).then fun _ => .pure rfl
  next => exact Takes.at (.pure rfl) _

theorem name_takes (anchor : Option String) (r : Ref) : Takes cs n (fun _ => 0) (name anchor r) := by
  cases anchor with
  | none => exact .pure rfl
  | some anchor => exact (Takes.modify rfl (by simp) (by simp)).then fun _ => .pure rfl

theorem addNamed_takes (anchor : Option String) (node : Node) : Takes cs n (fun _ => 0) (addNamed anchor node) := by
  have hadd : Takes cs n (fun _ => 0) (add node >>= name anchor) := (add_takes node).then fun r => name_takes anchor r
  cases anchor with
  | none => exact hadd
  | some anchor =>
    refine .read fun s => ?_
    split
    · exact .fail _
    · exact hadd

theorem fill_takes {contents : Compose (List α)} (h : Takes cs n (fun _ => 0) contents) (anchor : Option String)
    (node : List α → Node) : Takes cs n (fun _ => 0) (fill anchor node contents) :=
  (addNamed_takes anchor _).then fun _ => h.then fun _ =>
    (Takes.modify rfl (by simp) (by simp)).then fun _ => .pure rfl

theorem content_takes {inner : Bool → Bool → Compose Ref}
    (h : ∀ block indentless, ∀ m < n, Takes cs m (fun _ => 0) (inner block indentless)) (block indentless : Bool)
    (anchor tag : Option String) : Takes cs n (fun _ => 0) (content inner block indentless anchor tag) := by
  have hnothing (piece : Piece) : Takes cs n (fun _ => 0) (if anchor.isSome || tag.isSome
      then addNamed anchor (.scalar (scalarTag true "" tag) "") else fail (.parsing piece) : Compose Ref) := by
    split
    · exact addNamed_takes _ _
    · exact .fail _
  have hinner (hn : 1 ≤ n) (block indentless : Bool) : Takes cs (n - 1) (fun _ => 0) (inner block indentless) :=
    h block indentless (n - 1) (by omega)
  have hbelow (block indentless : Bool) : ∀ m < n - 1, Takes cs m (fun _ => 0) (inner block indentless) :=
    fun m hm => h block indentless m (by omega)
  refine .look fun token => ?_
  cases token with
  | blockEntry =>
    refine Takes.at ?_ _
    dsimp only
    split
    · exact fill_takes (collect_takes (indentlessItem_takes (h true false))) _ _
    · exact hnothing _
  | scalar plain text => exact .pass (by simp) fun _ => addNamed_takes _ _
  | flowSequenceStart =>
    refine .pass (by simp) fun hn => ?_
    exact fill_takes (flowItems_takes (by simp) (flowItem_takes (hinner hn false false))) _ _
  | flowMappingStart =>
    refine .pass (by simp) fun hn => ?_
    exact fill_takes (flowItems_takes (by simp) (flowPair_takes (hinner hn false false))) _ _
  | blockSequenceStart =>
    dsimp only
    split
    · refine .pass (by simp) fun _ => ?_
      exact fill_takes (collect_takes (blockItem_takes (hbelow true false))) _ _
    · exact (hnothing _).at _
  | blockMappingStart =>
    dsimp only
    split
    · refine .pass (by simp) fun _ => ?_
      exact fill_takes (collect_takes (blockPair_takes (hbelow true true))) _ _
    · exact (hnothing _).at _
  | _ => exact (hnothing _).at _

/-- Nodes nest no deeper than there are tokens. -/
theorem node_takes {fuel : Nat} (h : n < fuel) (block indentless : Bool) :
    Takes cs n (fun _ => 0) (Compose.node fuel block indentless) := by
  induction fuel generalizing n block indentless with
  | zero => exact absurd h (Nat.not_lt_zero n)
  | succ fuel ih =>
    refine .look fun token => ?_
    split
    next anchor =>
      refine .pass (by simp) fun _ => .read fun s => ?_
      split
      · exact .pure rfl
      · exact .fail _
    next =>
      refine Takes.at (properties_takes.then ?_) token
      rintro ⟨anchor, tag⟩
      exact content_takes (fun block indentless m hm => ih (by omega) block indentless) block indentless anchor tag

/-! ## Documents -/

theorem directives_takes {fuel : Nat} (h : n < fuel) (versioned : Bool) :
    Takes cs n (fun _ => 0) (directives fuel versioned) := by
  induction fuel generalizing n versioned with
  | zero => exact absurd h (Nat.not_lt_zero n)
  | succ fuel ih =>
    refine .look fun token => ?_
    cases token with
    | version major =>
      refine .pass (by simp) fun hn => ?_
      split
      · exact .fail _
      · split
        · exact .fail _
        · exact ih (by omega) true
    | tagHandle handle content =>
      refine .pass (by simp) fun hn => .read fun s => ?_
      split
      · exact .fail _
      · have hmore : n - 1 < fuel := by omega
        exact (Takes.modify rfl (by simp) (by simp)).then fun _ => ih hmore versioned
    | directive =>
      refine .pass (by simp) fun hn => ?_
      exact ih (by omega) versioned
    | _ => exact Takes.at (.pure rfl) _

theorem completeHandles_takes : Takes cs n (fun _ => 0) completeHandles :=
  .modify rfl (fun _ => rfl) fun _ => rfl

theorem start_takes : Takes cs n (fun _ => 0) start := by
  refine (Takes.modify rfl (by simp) (by simp)).then fun _ => .bound fun bound m hm _ => ?_
  refine (directives_takes hm false).then fun _ => completeHandles_takes.then fun _ => .look fun next => Takes.at ?_ next
  refine Takes.bind (accept_takes (by simp)) fun found _ => ?_
  cases found with
  | true => exact .pure rfl
  | false => exact .fail _

theorem finish_takes : Takes cs n (fun _ => 0) finish := by
  refine (collect_takes (.ifAccept (by simp) (fun _ => .pure rfl) (.pure rfl))).then fun _ => .pure rfl

theorem document_takes : Takes cs n (fun _ => 0) document := by
  refine .bound fun bound m hm _ => .look fun next => Takes.at ?_ next
  have hnode : Takes cs m (fun _ => 0) (Compose.node bound true false) := node_takes hm true false
  have hrest (root : Ref) : Takes cs m (fun _ => 0) (do
      finish
      if (← peek) == .streamEnd then pure (some root)
      else do
        start
        fail .secondDocument) := by
    refine finish_takes.then fun _ => .look fun next => Takes.at ?_ next
    split
    · exact .pure rfl
    · exact start_takes.then fun _ => .fail _
  split
  · exact .pure rfl
  · split
    · refine start_takes.then fun _ => .look fun next => Takes.at ?_ next
      split
      · exact (add_takes _).then hrest
      · exact (nodeUnless_takes hnode _).then hrest
    · exact completeHandles_takes.then fun _ => hnode.then hrest

end DocFilter.Yaml.Compose

namespace DocFilter.Yaml

/-- Composing tokens that a scan of a text gives ends with nodes, or it refuses the text. -/
theorem Graph.ofTokens_fares {cs : List Char} {tokens : List Token} {ending : Option Error} (h : Ends cs tokens ending) :
    (∃ root g, Graph.ofTokens tokens ending = .ok (root, g)) ∨
      ∃ e, Graph.ofTokens tokens ending = .error e ∧ Told cs e := by
  generalize hstart : (⟨tokens, ending.getD (.fault .endless), [], [], {}⟩ : Composer) = start
  have hopen : Compose.Open cs start := by
    rw [← hstart]
    cases h with
    | last h => exact .inl h
    | told h => exact .inr h
  have hdocument := Compose.document_takes start hopen (Nat.le_refl _)
  rw [Graph.ofTokens, hstart]
  cases hrun : Compose.document.run start with
  | error e =>
    rw [hrun] at hdocument
    exact .inr ⟨e, rfl, hdocument⟩
  | ok r => exact .inl ⟨r.1, r.2.graph, rfl⟩

end DocFilter.Yaml
