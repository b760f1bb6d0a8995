import DocFilter.Proofs.Yaml.Composing
import DocFilter.Proofs.Yaml.Merging
import DocFilter.Proofs.Yaml.Simple
import Mathlib.Data.List.Chain
import Mathlib.Data.List.Nodup
import Mathlib.Data.List.Perm.Subperm
import Mathlib.Logic.Relation

/-!
# What a YAML text is read as

Reading a text comes to an end: it gives a value, or a rule is broken, or something in the text has no value. The
last is `Void` for what the scanner meets, and `Graph.Hollow` for the nodes of the text; `Voids` is either, and
`read_fares` says that there is nothing else.
-/

namespace DocFilter.Yaml

namespace Graph

variable {g g' : Graph} {r q : Ref} {content : String} {fuel : Nat}

/-! ## The texts of nodes -/

/-- A mapping keeps its text in a node, behind the key for that. -/
def Inner (g : Graph) (r q : Ref) : Prop := ∃ key, (key, q) ∈ g.pairs r ∧ (g.node key).tag = .value

/-- A node holds a text: that of a scalar, or of the node in which a mapping keeps its text. -/
inductive HoldsText (g : Graph) : Ref → String → Prop
  | scalar {r : Ref} {text : String} (h : (g.node r).text? = some text) : HoldsText g r text
  | mapping {r q : Ref} {text : String} (inner : g.Inner r q) (h : HoldsText g q text) : HoldsText g r text

/-- What among the nodes of a text has no value. -/
inductive Hollow (g : Graph) : Fault → Prop
  /-- A mapping that keeps its text in itself. -/
  | loop {r : Ref} (h : Relation.TransGen g.Inner r r) : Hollow g .endless
  /-- A mapping for a moment. -/
  | moment {r : Ref} {text : String} (mapping : g.isMapping r = true) (tag : (g.node r).tag = .timestamp)
      (h : g.HoldsText r text) : Hollow g .type
  /-- A text that its tag has no value for. -/
  | simple {r : Ref} {text : String} {fault : Fault} (holds : g.HoldsText r text)
      (h : readSimple (g.node r).tag text = noValue fault) : Hollow g fault

/-- A refusal of a node: a rule is broken, or something has no value. -/
def Blames (g : Graph) : Error → Prop
  | .malformed _ => True
  | .fault fault => g.Hollow fault

/-! ## Resolved graphs -/

/-- Only what resolving makes a text has another tag than before. -/
theorem ResolvedBut.tag_eq (h : Resolved g g') (htag : (g'.node r).tag ≠ .str) : (g.node r).tag = (g'.node r).tag :=
  ((h.tag r).resolve_right fun hvalue => htag hvalue.2).symm

theorem ResolvedBut.inner (h : Resolved g g') (hinner : g'.Inner r q) : g.Inner r q := by
  obtain ⟨key, hentry, hkey⟩ := hinner
  have hpairs : g'.pairs r = g.pairs r := (h.pairs r nofun).resolve_right fun hsettled =>
    (hsettled (key, q) hentry).2 hkey
  exact ⟨key, hpairs ▸ hentry, (h.tag_eq (by simp [hkey])).trans hkey⟩

theorem ResolvedBut.holdsText (h : Resolved g g') (hholds : g'.HoldsText r content) : g.HoldsText r content := by
  induction hholds with
  | scalar htext => exact .scalar ((h.text _).symm.trans htext)
  | mapping hinner _ ih => exact .mapping (h.inner hinner) ih

/-! ## Reading texts -/

theorem inner_of_find? {tag : Tag} {pairs : List (Ref × Ref)} {key value : Ref} (hnode : g.node r = .mapping tag pairs)
    (hfind : pairs.find? (fun pair => (g.node pair.1).tag == .value) = some (key, value)) : g.Inner r value := by
  refine ⟨key, ?_, by simpa using List.find?_some hfind⟩
  rw [Graph.pairs, hnode]
  exact List.mem_of_find?_eq_some hfind

theorem holdsText_of_textOf (h : g.textOf fuel r = .ok content) : g.HoldsText r content := by
  induction fuel generalizing r with
  | zero => cases h
  | succ fuel ih =>
    rw [textOf] at h
    split at h
    next tag text' hnode =>
      cases h
      exact .scalar (by rw [hnode, Node.text?])
    next tag pairs hnode =>
      split at h
      next key value hfind => exact .mapping (inner_of_find? hnode hfind) (ih h)
      next => cases h
    next => cases h

/-- Looking for a text gives up only after as many mappings, each kept in the one before, as it may go through. -/
theorem exists_chain_of_textOf {fault : Fault} (h : g.textOf fuel r = noValue fault) :
    fault = .endless ∧ ∃ rs : List Ref, rs.length = fuel ∧ (r :: rs).IsChain g.Inner := by
  induction fuel generalizing r with
  | zero =>
    cases h
    exact ⟨rfl, [], rfl, .singleton r⟩
  | succ fuel ih =>
    rw [textOf] at h
    split at h
    next => cases h
    next tag pairs hnode =>
      split at h
      next key value hfind =>
        obtain ⟨hfault, rs, hlength, hchain⟩ := ih h
        refine ⟨hfault, value :: rs, by simp [hlength], ?_⟩
        exact List.isChain_cons_cons.mpr ⟨inner_of_find? hnode hfind, hchain⟩
      next => cases h
    next => cases h

/-- There are no more different nodes than a graph has. -/
theorem length_le_of_nodup {rs : List Ref} {size : Nat} (hnodup : rs.Nodup) (h : ∀ r ∈ rs, r.index < size) :
    rs.length ≤ size := by
  have hindices : (rs.map Ref.index).Nodup := by
    refine hnodup.map_on fun a _ b _ hab => ?_
    cases a
    exact congrArg Ref.mk hab
  have hsub : rs.map Ref.index ⊆ List.range size := fun i hi => by
    obtain ⟨r, hr, rfl⟩ := List.mem_map.mp hi
    exact List.mem_range.mpr (h r hr)
  simpa using (hindices.subperm hsub).length_le

theorem lt_size_of_inner (h : g.Inner r q) : r.index < g.nodes.size := by
  obtain ⟨key, hentry, -⟩ := h
  exact lt_size_of_isMapping (isMapping_of_mem hentry)

/-- All of a chain but its last member are followed by one. -/
theorem exists_inner_of_mem_dropLast {rs : List Ref} (hchain : (r :: rs).IsChain g.Inner) :
    ∀ x ∈ (r :: rs).dropLast, ∃ y, g.Inner x y := by
  induction rs generalizing r with
  | nil => simp
  | cons q rs ih =>
    obtain ⟨hinner, hrest⟩ := List.isChain_cons_cons.mp hchain
    rw [List.dropLast_cons_cons]
    exact List.forall_mem_cons.mpr ⟨⟨q, hinner⟩, ih hrest⟩

/-- A chain of mappings that are each kept in the one before is no longer than there are nodes, unless one is kept
in itself. -/
theorem length_le_of_isChain (hloop : ∀ q, ¬ Relation.TransGen g.Inner q q) {rs : List Ref}
    (hchain : (r :: rs).IsChain g.Inner) : rs.length ≤ g.nodes.size := by
  have hpairwise : (r :: rs).Pairwise (Relation.TransGen g.Inner) :=
    List.isChain_iff_pairwise.mp (hchain.imp fun _ _ h => .single h)
  have hnodup : (r :: rs).dropLast.Nodup := by
    refine (hpairwise.sublist (List.dropLast_sublist _)).imp ?_
    rintro a b h rfl
    exact hloop a h
  have hbelow : ∀ x ∈ (r :: rs).dropLast, x.index < g.nodes.size := fun x hx => by
    obtain ⟨y, hy⟩ := exists_inner_of_mem_dropLast hchain x hx
    exact lt_size_of_inner hy
  simpa using length_le_of_nodup hnodup hbelow

theorem textOf_yields (h : Resolved g g') (r : Ref) :
    Yields g.Blames (g.HoldsText r) (g'.textOf (g'.nodes.size + 1) r) := by
  cases hread : g'.textOf (g'.nodes.size + 1) r with
  | ok text => exact h.holdsText (holdsText_of_textOf hread)
  | error e =>
    cases e with
    | malformed reason => trivial
    | fault fault =>
      obtain ⟨rfl, rs, hlength, hchain⟩ := exists_chain_of_textOf hread
      by_contra hno
      have hle := length_le_of_isChain (fun q hq => hno (.loop hq)) (hchain.imp fun _ _ hinner => h.inner hinner)
      rw [h.size] at hlength
      omega

/-! ## Checking -/

/-- What checking makes of a graph: merge keys are resolved, and the texts that are remembered are those of their
nodes. -/
structure Checked (g : Graph) (s : Checking) : Prop where
  resolved : Resolved g s.graph
  texts : ∀ entry ∈ s.texts, g.HoldsText entry.1 entry.2

variable {s : Checking}

theorem Checked.text (h : Checked g s) (r : Ref) : Yields g.Blames (g.HoldsText r) (s.text r) := by
  rw [Checking.text]
  split
  next text hlookup =>
    obtain ⟨before, after, htexts, -⟩ := List.lookup_eq_some_iff.mp hlookup
    exact h.texts (r, text) (by simp [htexts])
  next => exact textOf_yields h.resolved r

theorem Checked.remember (h : Checked g s) (hcontent : g.HoldsText r content) : Checked g (s.remember r content) := by
  rw [Checking.remember]
  split
  · exact ⟨h.resolved, List.forall_mem_cons.mpr ⟨hcontent, h.texts⟩⟩
  · exact h

theorem Checked.simple (h : Checked g s) (r : Ref) : Yields g.Blames (fun _ => True) (s.simple r) := by
  refine (h.text r).bind fun text htext => ?_
  split
  next tag pairs hnode htag =>
    refine .moment ?_ ((h.resolved.tag_eq (by simp [htag])).trans htag) htext
    exact (h.resolved.isMapping r).symm.trans (isMapping_iff.mpr ⟨tag, pairs, hnode⟩)
  next hother =>
    cases hread : readSimple (s.graph.node r).tag text with
    | ok value => trivial
    | error e =>
      cases e with
      | malformed reason => trivial
      | fault fault =>
        have htag : (s.graph.node r).tag ≠ .str := fun hstr => by
          rw [hstr] at hread
          cases hread
        exact .simple htext (h.resolved.tag_eq htag ▸ hread)

theorem Checked.checkNode (h : Checked g s) (r : Ref) : Yields g.Blames (Checked g) (checkNode s r) := by
  rw [Graph.checkNode]
  refine .ite (fun _ => ?_) fun _ => .ite (fun _ => ?_) fun _ => trivial
  · exact (h.simple r).bind fun _ _ => (h.text r).bind fun text htext => h.remember htext
  · simp only [Yields.ok_iff]
    split
    · exact h
    · exact ⟨h.resolved, h.texts⟩

theorem Checked.checkPairs (h : Checked g s) (pairs : List (Ref × Ref)) :
    Yields g.Blames (Checked g) (checkPairs pairs s) := by
  induction pairs generalizing s with
  | nil => exact h
  | cons pair pairs ih =>
    obtain ⟨key, value⟩ := pair
    refine (h.checkNode key).bind fun s' h' => .ite (fun _ => trivial) fun _ => ?_
    exact (h'.checkNode value).bind fun s'' h'' => ih h''

theorem Checked.checkSingles (h : Checked g s) (piece : Piece) (rs : List Ref) :
    Yields g.Blames (Checked g) (checkSingles piece rs s) := by
  induction rs generalizing s with
  | nil => exact h
  | cons r rs ih =>
    rw [Graph.checkSingles]
    split
    next key value hnode =>
      exact (h.checkNode key).bind fun s' h' => (h'.checkNode value).bind fun s'' h'' => ih h''
    next => trivial

theorem Checked.checkContents (h : Checked g s) (r : Ref) : Yields g.Blames (Checked g) (checkContents s r) := by
  simp only [Graph.checkContents]
  split
  next => exact .foldlM h fun s' r' _ h' => h'.checkNode r'
  next => trivial
  next => exact h.checkSingles _ _
  next => trivial
  next => exact h.checkSingles _ _
  next => trivial
  next hnode _ _ _ =>
    have hmapping : s.graph.isMapping r = true := isMapping_iff.mpr ⟨_, _, hnode⟩
    refine ((resolveMerges_yields hmapping).imp ?_ fun _ hg => hg).bind fun g' hg' => ?_
    · rintro e ⟨reason, rfl⟩
      trivial
    · have hchecked : Checked g { s with graph := g' } := ⟨h.resolved.trans hg', h.texts⟩
      exact hchecked.checkPairs _
  next => trivial

theorem checkAll_yields (h : Checked g s) (fuel : Nat) : Yields g.Blames (Checked g) (checkAll fuel s) := by
  induction fuel generalizing s with
  | zero => exact h
  | succ fuel ih =>
    rw [checkAll]
    split
    next => exact h
    next r waiting hwaiting =>
      have hline : Checked g { s with waiting := waiting } := ⟨h.resolved, h.texts⟩
      exact (hline.checkContents r).bind fun s' h' => ih h'

theorem check_yields (g : Graph) (root : Ref) : Yields g.Blames (Checked g) (g.check root) := by
  have hstart : Checked g { graph := g } := ⟨.refl none g, List.forall_mem_nil _⟩
  exact (hstart.checkNode root).bind fun s' h' => checkAll_yields h' _

/-! ## Values -/

section Values

variable {read : Ref → Except Error Plain}

theorem readPair_yields (h : ∀ r, Yields g.Blames (fun _ => True) (read r)) (pair : Ref × Ref) :
    Yields g.Blames (fun _ => True) (readPair read pair) :=
  (h pair.1).bind fun _ _ => (h pair.2).bind fun _ _ => trivial

theorem readEntries_yields (h : ∀ r, Yields g.Blames (fun _ => True) (read r)) (s : Checking)
    (pairs : List (Ref × Ref)) : Yields g.Blames (fun _ => True) (s.readEntries read pairs) := by
  refine @Yields.bind _ _ _ _ (fun _ => True) _ _ _ (.foldlM trivial fun written pair _ _ => ?_) fun _ _ => trivial
  exact (readPair_yields h pair).bind fun _ _ => trivial

end Values

/-- A value nests no deeper than there are nodes, as no node is read inside itself. -/
theorem Checked.valueWithin (h : Checked g s) {fuel : Nat} {around : List Ref} (hnodup : around.Nodup)
    (hsize : ∀ r ∈ around, r.index < g.nodes.size) (hfuel : g.nodes.size < fuel + around.length) (r : Ref) :
    Yields g.Blames (fun _ => True) (s.valueWithin fuel around r) := by
  induction fuel generalizing around r with
  | zero =>
    have hle := length_le_of_nodup hnodup hsize
    omega
  | succ fuel ih =>
    simp only [Checking.valueWithin]
    refine .ite (fun _ => trivial) fun hfresh => ?_
    have hinner (hr : s.graph.node r ≠ default) (part : Ref) :
        Yields g.Blames (fun _ => True) (s.valueWithin fuel (r :: around) part) := by
      have hindex : r.index < g.nodes.size := h.resolved.size ▸ lt_size_of_node_ne hr
      refine ih (List.nodup_cons.mpr ⟨by simpa using hfresh, hnodup⟩) (List.forall_mem_cons.mpr ⟨hindex, hsize⟩) ?_ part
      rw [List.length_cons]
      omega
    split
    next hnode => exact (Yields.mapM fun part _ => hinner (by rw [hnode]; nofun) part).bind fun _ _ => trivial
    next hnode =>
      exact (Yields.mapM fun pair _ => readPair_yields (hinner (by rw [hnode]; nofun)) pair).bind fun _ _ => trivial
    next hnode =>
      exact (Yields.mapM fun pair _ => readPair_yields (hinner (by rw [hnode]; nofun)) pair).bind fun _ _ => trivial
    next hnode => exact (readEntries_yields (hinner (by rw [hnode]; nofun)) s _).bind fun _ _ => trivial
    next hnode => exact (readEntries_yields (hinner (by rw [hnode]; nofun)) s _).bind fun _ _ => trivial
    next => exact h.simple r

/-- The value of a node is found, or what is refused is told. -/
theorem value_yields (g : Graph) (root : Ref) : Yields g.Blames (fun _ => True) (g.value root) := by
  refine (check_yields g root).bind fun s hs => ?_
  exact hs.valueWithin List.nodup_nil (List.forall_mem_nil _) (by simp) root

end Graph

/-! ## Texts -/

theorem Graph.ofText_fares (supply : Supply) (text : String) :
    (∃ root g, Graph.ofText supply text = .ok (root, g)) ∨
      ∃ e, Graph.ofText supply text = .error e ∧ Told text.toList e :=
  Graph.ofTokens_fares (scan_ends supply text.toList)

/-- The nodes of a text that has a document. -/
def Composes (supply : Supply) (text : String) (g : Graph) : Prop :=
  ∃ root, Graph.ofText supply text = .ok (some root, g)

/-- What in a text has no value, although no rule is broken, and the fault that it is. -/
inductive Voids (supply : Supply) (text : String) : Fault → Prop
  | scanned {fault : Fault} (h : Void text.toList fault) : Voids supply text fault
  | composed {fault : Fault} {g : Graph} (composes : Composes supply text g) (h : g.Hollow fault) :
      Voids supply text fault

theorem Voids.inText {supply : Supply} {text : String} {fault : Fault} (h : Voids supply text fault) :
    fault.InText := by
  cases h with
  | scanned h =>
    cases h with
    | escape _ _ _ beyond => obtain rfl | rfl := fault_of_charOfEscape beyond <;> exact nofun
    | version => exact nofun
  | composed _ h =>
    cases h with
    | loop | moment => exact nofun
    | simple _ h => exact (lacks_of_readSimple h).inText

/-- A refusal of a text: a rule is broken, or something in the text has no value. -/
def Refuses (supply : Supply) (text : String) : Error → Prop
  | .malformed _ => True
  | .fault fault => Voids supply text fault

/-- Reading a text gives a value, or what is refused is told. -/
theorem read_fares (supply : Supply) (text : String) :
    (∃ value, read supply text = .ok value) ∨ ∃ e, read supply text = .error e ∧ Refuses supply text e := by
  rw [read]
  obtain ⟨root, g, hcompose⟩ | ⟨e, hcompose, htold⟩ := Graph.ofText_fares supply text
  · rw [hcompose]
    cases root with
    | none => exact .inl ⟨.null, rfl⟩
    | some root =>
      change (∃ value, g.value root = .ok value) ∨ ∃ e, g.value root = .error e ∧ Refuses supply text e
      have hvalue := Graph.value_yields g root
      cases hread : g.value root with
      | ok value => exact .inl ⟨value, rfl⟩
      | error e =>
        rw [hread] at hvalue
        refine .inr ⟨e, rfl, ?_⟩
        cases e with
        | malformed reason => trivial
        | fault fault => exact .composed ⟨root, hcompose⟩ hvalue
  · rw [hcompose]
    refine .inr ⟨e, rfl, ?_⟩
    cases e with
    | malformed reason => trivial
    | fault fault => exact .scanned htold

end DocFilter.Yaml
