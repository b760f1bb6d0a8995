import DocFilter.Proofs.Results
import DocFilter.Yaml.Value
import Mathlib.Algebra.Order.BigOperators.Group.List
import Mathlib.Algebra.Order.Ring.Nat
import Mathlib.Data.List.Perm.Basic

/-!
# Resolving merge keys comes to an end

A merge key is taken out of its mapping before the mappings that it leads to are resolved, and what they give has
no merge keys any more. So with each key that is followed there is one less in the whole graph, `mergeCount`, and
there are enough entries for every way through the graph: `Graph.resolveMerges_yields`.

`Resolved` is what resolving makes of a graph: a mapping is as it was, or `Settled`; all else stays, but that keys
for the text of a map become texts.
-/

namespace DocFilter.Yaml

/-- The text of a scalar. -/
def Node.text? : Node → Option String
  | .scalar _ text => some text
  | _ => none

/-- An error about a broken rule. -/
def BreaksRule (e : Error) : Prop := ∃ reason, e = .malformed reason

theorem breaksRule {α : Type} {good : α → Prop} (reason : Reason) : Yields BreaksRule good (refuse reason) := ⟨reason, rfl⟩

namespace Graph

variable {g g' g'' : Graph} {r q key : Ref} {p : Ref × Ref} {entries merged : List (Ref × Ref)} {out : Option Ref}

/-! ## Nodes in their places -/

theorem node_set (g : Graph) (r q : Ref) (n : Node) :
    (g.set r n).node q = if q = r ∧ r.index < g.nodes.size then n else g.node q := by
  obtain ⟨i⟩ := q
  obtain ⟨j⟩ := r
  simp only [node, set, Ref.mk.injEq, Array.getElem?_setIfInBounds]
  by_cases hij : j = i
  · subst hij
    by_cases hsize : j < g.nodes.size
    · simp [hsize]
    · simp [hsize]
  · simp [hij, Ne.symm hij]

theorem lt_size_of_node_ne (h : g.node r ≠ default) : r.index < g.nodes.size := by
  by_contra hge
  exact h (by simp [node, Array.getElem?_eq_none (Nat.le_of_not_lt hge)])

@[simp] theorem size_set (g : Graph) (r : Ref) (n : Node) : (g.set r n).nodes.size = g.nodes.size := by
  simp [set]

theorem isMapping_iff : g.isMapping r = true ↔ ∃ tag entries, g.node r = .mapping tag entries := by
  rw [isMapping]
  cases g.node r <;> simp

theorem lt_size_of_isMapping (h : g.isMapping r = true) : r.index < g.nodes.size := by
  obtain ⟨tag, entries, hnode⟩ := isMapping_iff.mp h
  refine lt_size_of_node_ne fun hdefault => ?_
  rw [hnode] at hdefault
  cases hdefault

theorem isMapping_of_mem (h : p ∈ g.pairs r) : g.isMapping r = true := by
  rw [Graph.pairs] at h
  rw [isMapping]
  cases hnode : g.node r <;> simp_all

theorem node_setPairs (g : Graph) (r q : Ref) (entries : List (Ref × Ref)) :
    (g.setPairs r entries).node q =
      if q = r ∧ r.index < g.nodes.size then .mapping (g.node r).tag entries else g.node q := node_set ..

@[simp] theorem tag_setPairs (g : Graph) (r q : Ref) (entries : List (Ref × Ref)) :
    ((g.setPairs r entries).node q).tag = (g.node q).tag := by
  rw [node_setPairs]
  split
  next h => rw [h.1, Node.tag]
  next => rfl

theorem pairs_setPairs (h : g.isMapping r = true) (entries : List (Ref × Ref)) (q : Ref) :
    (g.setPairs r entries).pairs q = if q = r then entries else g.pairs q := by
  have hsize := lt_size_of_isMapping h
  rw [Graph.pairs, node_setPairs]
  by_cases hq : q = r
  · simp [hq, hsize]
  · simp [hq, Graph.pairs]

/-! ## What resolving keeps -/

/-- A key that is neither followed nor renamed. -/
def Plainly (g : Graph) (key : Ref) : Prop := (g.node key).tag ≠ .merge ∧ (g.node key).tag ≠ .value

/-- A mapping whose keys are all plain. -/
def Settled (g : Graph) (r : Ref) : Prop := ∀ p ∈ g.pairs r, g.Plainly p.1

/-- What resolving makes of a graph, but for the entries of a mapping that is left out. -/
structure ResolvedBut (out : Option Ref) (g g' : Graph) : Prop where
  size : g'.nodes.size = g.nodes.size
  tag : ∀ q, (g'.node q).tag = (g.node q).tag ∨ (g.node q).tag = .value ∧ (g'.node q).tag = .str
  text : ∀ q, (g'.node q).text? = (g.node q).text?
  isMapping : ∀ q, g'.isMapping q = g.isMapping q
  pairs : ∀ q, out ≠ some q → g'.pairs q = g.pairs q ∨ g'.Settled q

/-- What resolving makes of a graph. -/
abbrev Resolved : Graph → Graph → Prop := ResolvedBut none

theorem ResolvedBut.refl (out : Option Ref) (g : Graph) : ResolvedBut out g g where
  size := rfl
  tag _ := .inl rfl
  text _ := rfl
  isMapping _ := rfl
  pairs _ _ := .inl rfl

theorem ResolvedBut.plainly (h : ResolvedBut out g g') (hkey : g.Plainly key) : g'.Plainly key := by
  have htag : (g'.node key).tag = (g.node key).tag := (h.tag key).resolve_right fun hvalue => hkey.2 hvalue.1
  rwa [Plainly, htag]

/-- A mapping that is settled stays so. -/
theorem ResolvedBut.settled (h : ResolvedBut out g g') (hout : out ≠ some q) (hsettled : g.Settled q) :
    g'.Settled q := by
  obtain hpairs | hsettled' := h.pairs q hout
  · intro p hp
    exact h.plainly (hsettled p (hpairs ▸ hp))
  · exact hsettled'

theorem ResolvedBut.trans (h : ResolvedBut out g g') (h' : ResolvedBut out g' g'') : ResolvedBut out g g'' where
  size := h'.size.trans h.size
  tag q := by
    obtain htag' | ⟨hvalue, hstr⟩ := h'.tag q
    · rw [htag']
      exact h.tag q
    · obtain htag | ⟨-, hstr'⟩ := h.tag q
      · exact .inr ⟨htag ▸ hvalue, hstr⟩
      · rw [hstr'] at hvalue
        cases hvalue
  text q := (h'.text q).trans (h.text q)
  isMapping q := (h'.isMapping q).trans (h.isMapping q)
  pairs q hq := by
    obtain hpairs' | hsettled := h'.pairs q hq
    · obtain hpairs | hsettled := h.pairs q hq
      · exact .inl (hpairs'.trans hpairs)
      · exact .inr (h'.settled hq hsettled)
    · exact .inr hsettled

/-- Leaving out a mapping claims less. -/
theorem ResolvedBut.leave (h : Resolved g g') (out : Option Ref) : ResolvedBut out g g' :=
  { h with pairs := fun q _ => h.pairs q nofun }

/-- Once the mapping that was left out is settled, none is. -/
theorem ResolvedBut.close (h : ResolvedBut (some r) g g') (hsettled : g'.Settled r) : Resolved g g' where
  size := h.size
  tag := h.tag
  text := h.text
  isMapping := h.isMapping
  pairs q _ := by
    by_cases hq : q = r
    · exact .inr (hq ▸ hsettled)
    · exact h.pairs q fun heq => hq (Option.some.inj heq).symm

theorem resolvedBut_setPairs (h : g.isMapping r = true) (entries : List (Ref × Ref)) :
    ResolvedBut (some r) g (g.setPairs r entries) where
  size := size_set ..
  tag q := .inl (tag_setPairs ..)
  text q := by
    obtain ⟨tag, old, hnode⟩ := isMapping_iff.mp h
    rw [node_setPairs]
    split
    next hq => rw [hq.1, hnode]; rfl
    next => rfl
  isMapping q := by
    by_cases hq : q = r
    · have hsize := lt_size_of_isMapping h
      rw [hq, h, Graph.isMapping, node_setPairs, if_pos ⟨rfl, hsize⟩]
    · rw [Graph.isMapping, node_setPairs, if_neg fun heq => hq heq.1, Graph.isMapping]
  pairs q hq := by
    refine .inl ?_
    rw [pairs_setPairs h, if_neg fun heq => hq (congrArg some heq.symm)]

/-- A key for the text of a map becomes a text, which is plain; no entry is changed. -/
theorem resolved_withTag (h : (g.node key).tag = .value) : Resolved g (g.set key ((g.node key).withTag .str)) ∧
    (∀ q, (g.set key ((g.node key).withTag .str)).pairs q = g.pairs q) ∧
      (g.set key ((g.node key).withTag .str)).Plainly key := by
  have hsize : key.index < g.nodes.size := lt_size_of_node_ne fun hdefault => by
    rw [hdefault] at h
    cases h
  have hnode (q : Ref) : (g.set key ((g.node key).withTag .str)).node q =
      if q = key then (g.node key).withTag .str else g.node q := by simp [node_set, hsize]
  have hpairs (q : Ref) : (g.set key ((g.node key).withTag .str)).pairs q = g.pairs q := by
    rw [Graph.pairs, Graph.pairs, hnode]
    by_cases hq : q = key
    · rw [if_pos hq, hq]
      cases g.node key <;> rfl
    · rw [if_neg hq]
  have htag : ((g.node key).withTag .str).tag = .str := by cases g.node key <;> rfl
  refine ⟨⟨size_set .., fun q => ?_, fun q => ?_, fun q => ?_, fun q _ => .inl (hpairs q)⟩, hpairs, ?_⟩
  · rw [hnode]
    split
    next hq => exact .inr ⟨hq ▸ h, htag⟩
    next => exact .inl rfl
  · rw [hnode]
    split
    next hq =>
      rw [hq]
      cases g.node key <;> rfl
    next => rfl
  · rw [Graph.isMapping, Graph.isMapping, hnode]
    by_cases hq : q = key
    · rw [if_pos hq, hq]
      cases g.node key <;> rfl
    · rw [if_neg hq]
  · rw [Plainly, hnode, if_pos rfl, htag]
    exact ⟨nofun, nofun⟩

/-! ## The merge keys that are left -/

/-- How many merge keys a mapping has. -/
def mergesIn (g : Graph) (r : Ref) : Nat := (g.pairs r).countP fun p => (g.node p.1).tag == .merge

/-- How many merge keys all mappings have. -/
def mergeCount (g : Graph) : Nat := ((List.range g.nodes.size).map fun i => g.mergesIn ⟨i⟩).sum

theorem Settled.mergesIn_eq (h : g.Settled r) : g.mergesIn r = 0 := by
  rw [mergesIn, List.countP_eq_zero]
  intro p hp
  simpa using (h p hp).1

/-- Resolving leaves no more merge keys than there were. -/
theorem ResolvedBut.mergeCount_le (h : Resolved g g') : g'.mergeCount ≤ g.mergeCount := by
  have hle (q : Ref) : g'.mergesIn q ≤ g.mergesIn q := by
    obtain hpairs | hsettled := h.pairs q nofun
    · rw [mergesIn, mergesIn, hpairs]
      refine le_of_eq (List.countP_congr fun p _ => ?_)
      obtain htag | ⟨hvalue, hstr⟩ := h.tag p.1
      · rw [htag]
      · simp [hvalue, hstr]
    · simp [hsettled.mergesIn_eq]
  rw [mergeCount, mergeCount, h.size]
  exact List.sum_le_sum fun i _ => hle ⟨i⟩

/-- Taking a merge key out leaves one less. -/
theorem mergeCount_eraseIdx {index : Nat} (h : (g.pairs r)[index]? = some p) (hmerge : (g.node p.1).tag = .merge) :
    (g.setPairs r ((g.pairs r).eraseIdx index)).mergeCount < g.mergeCount := by
  have hmapping : g.isMapping r = true := isMapping_of_mem (List.mem_of_getElem? h)
  have hcount (q : Ref) : (g.setPairs r ((g.pairs r).eraseIdx index)).mergesIn q + (if q = r then 1 else 0) =
      g.mergesIn q := by
    simp only [mergesIn, tag_setPairs, pairs_setPairs hmapping]
    split
    next hq =>
      subst hq
      obtain ⟨hindex, rfl⟩ := List.getElem?_eq_some_iff.mp h
      rw [← (List.getElem_cons_eraseIdx_perm hindex).countP_eq, List.countP_cons_of_pos (by simpa using hmerge)]
    next => rfl
  rw [mergeCount, mergeCount, Graph.setPairs, size_set]
  refine List.sum_lt_sum _ _ (fun i _ => (Nat.le_add_right _ _).trans (hcount ⟨i⟩).le) ?_
  refine ⟨r.index, List.mem_range.mpr (lt_size_of_isMapping hmapping), ?_⟩
  have hr := hcount r
  rw [if_pos rfl] at hr
  exact hr ▸ Nat.lt_succ_self _

/-! ## Resolving -/

/-- Resolving a mapping gives a graph in which it is settled, or a rule is broken; it need only do so in graphs with
fewer merge keys than a bound. -/
def ResolvesBelow (bound : Nat) (resolve : Ref → Graph → Except Error Graph) : Prop :=
  ∀ r g, g.isMapping r = true → g.mergeCount < bound →
    Yields BreaksRule (fun g' => Resolved g g' ∧ g'.Settled r) (resolve r g)

variable {resolve : Ref → Graph → Except Error Graph} {bound : Nat}

theorem mergeAll_yields (h : ResolvesBelow bound resolve) (rs : List Ref) (hg : g.mergeCount < bound) :
    Yields BreaksRule (fun x => Resolved g x.2 ∧ ∀ p ∈ x.1, x.2.Plainly p.1) (mergeAll resolve rs g) := by
  induction rs generalizing g with
  | nil => exact ⟨.refl none g, List.forall_mem_nil _⟩
  | cons r rs ih =>
    refine .ite (fun hmapping => ?_) fun _ => breaksRule _
    refine (h r g hmapping hg).bind fun g1 ⟨h1, hsettled⟩ => ?_
    refine (ih (h1.mergeCount_le.trans_lt hg)).bind fun x ⟨h2, hmore⟩ => ?_
    exact ⟨h1.trans h2, List.forall_mem_append.mpr ⟨hmore, fun p hp => h2.plainly (hsettled p hp)⟩⟩

/-- How far the keys of a mapping were collected: those before the index are plain, and there is fuel for the
others unless all are. -/
structure Collecting (r : Ref) (fuel index : Nat) (merged : List (Ref × Ref)) (g : Graph) : Prop where
  before : ∀ p ∈ (g.pairs r).take index, g.Plainly p.1
  enough : (g.pairs r).length < index + fuel ∨ g.Settled r
  merged : ∀ p ∈ merged, g.Plainly p.1

/-- Passing a key that is plain, or becomes so. -/
theorem Collecting.pass {fuel index : Nat} (h : Collecting r (fuel + 1) index merged g)
    (hentry : (g.pairs r)[index]? = some p) (hresolved : Resolved g g') (hpairs : g'.pairs r = g.pairs r)
    (hplain : g'.Plainly p.1) : Collecting r fuel (index + 1) merged g' where
  before := by
    rw [hpairs, List.take_add_one, hentry]
    refine List.forall_mem_append.mpr ⟨fun q hq => hresolved.plainly (h.before q hq), ?_⟩
    simpa using hplain
  enough := by
    obtain hlength | hsettled := h.enough
    · rw [hpairs]
      exact .inl (by omega)
    · exact .inr (hresolved.settled nofun hsettled)
  merged q hq := hresolved.plainly (h.merged q hq)

/-- Following a merge key, once it was taken out. -/
theorem Collecting.follow {fuel index : Nat} {more : List (Ref × Ref)} (h : Collecting r (fuel + 1) index merged g)
    (hentry : (g.pairs r)[index]? = some p) (hmerge : (g.node p.1).tag = .merge)
    (hresolved : Resolved (g.setPairs r ((g.pairs r).eraseIdx index)) g') (hmore : ∀ q ∈ more, g'.Plainly q.1) :
    Collecting r fuel index (merged ++ more) g' := by
  have hmapping : g.isMapping r = true := isMapping_of_mem (List.mem_of_getElem? hentry)
  have hindex : index < (g.pairs r).length := (List.getElem?_eq_some_iff.mp hentry).1
  have hkept {q : Ref} (hq : g.Plainly q) : g'.Plainly q :=
    hresolved.plainly ((resolvedBut_setPairs hmapping _).plainly hq)
  have hlength : (g.pairs r).length < index + (fuel + 1) := h.enough.resolve_right fun hsettled =>
    (hsettled p (List.mem_of_getElem? hentry)).1 hmerge
  have hmerged : ∀ q ∈ merged ++ more, g'.Plainly q.1 :=
    List.forall_mem_append.mpr ⟨fun q hq => hkept (h.merged q hq), hmore⟩
  obtain hpairs | hsettled := hresolved.pairs r nofun
  · rw [pairs_setPairs hmapping, if_pos rfl] at hpairs
    refine ⟨fun q hq => hkept (h.before q ?_), .inl ?_, hmerged⟩
    · rwa [hpairs, List.take_eraseIdx_eq_take_of_le _ _ _ (Nat.le_refl index)] at hq
    · rw [hpairs, List.length_eraseIdx_of_lt hindex]
      omega
  · exact ⟨fun q hq => hsettled q (List.mem_of_mem_take hq), .inr hsettled, hmerged⟩

/-- What collecting ends with: the entries that the keys of a mapping stand for, and a graph in which it is
settled. -/
abbrev Gathers (r : Ref) (g : Graph) : Except Error (List (Ref × Ref) × Graph) → Prop :=
  Yields BreaksRule fun x => ResolvedBut (some r) g x.2 ∧ x.2.Settled r ∧ ∀ p ∈ x.1, x.2.Plainly p.1

theorem Gathers.after {x : Except Error (List (Ref × Ref) × Graph)} (h : Gathers r g' x)
    (hresolved : ResolvedBut (some r) g g') : Gathers r g x :=
  h.imp (fun _ he => he) fun _ ha => ⟨hresolved.trans ha.1, ha.2⟩

theorem collectMerged_gathers (h : ResolvesBelow bound resolve) {fuel index : Nat}
    (hcollecting : Collecting r fuel index merged g) (hg : g.mergeCount ≤ bound) :
    Gathers r g (collectMerged resolve r fuel index merged g) := by
  induction fuel generalizing index merged g with
  | zero =>
    refine ⟨.refl _ g, ?_, hcollecting.merged⟩
    obtain hlength | hsettled := hcollecting.enough
    · intro p hp
      exact hcollecting.before p (by rwa [List.take_of_length_le (by omega)])
    · exact hsettled
  | succ fuel ih =>
    rw [collectMerged]
    cases hentry : (g.pairs r)[index]? with
    | none =>
      refine ⟨.refl _ g, fun p hp => ?_, hcollecting.merged⟩
      exact hcollecting.before p (by rwa [List.take_of_length_le (List.getElem?_eq_none_iff.mp hentry)])
    | some entry =>
      obtain ⟨key, value⟩ := entry
      have hmapping : g.isMapping r = true := isMapping_of_mem (List.mem_of_getElem? hentry)
      dsimp only
      split
      next hmerge =>
        have hcount := (mergeCount_eraseIdx hentry hmerge).trans_le hg
        have herased := resolvedBut_setPairs hmapping ((g.pairs r).eraseIdx index)
        generalize hg1 : g.setPairs r ((g.pairs r).eraseIdx index) = g1 at hcount herased
        have hon {more : List (Ref × Ref)} {g2 : Graph} (h2 : Resolved g1 g2) (hmore : ∀ p ∈ more, g2.Plainly p.1) :
            Gathers r g (collectMerged resolve r fuel index (merged ++ more) g2) :=
          (ih (hcollecting.follow hentry hmerge (hg1 ▸ h2) hmore) (h2.mergeCount_le.trans hcount.le)).after
            (herased.trans (h2.leave _))
        split
        next tag entries hvalue =>
          exact (h value g1 (isMapping_iff.mpr ⟨tag, entries, hvalue⟩) hcount).bind fun g2 h2 => hon h2.1 h2.2
        next tag items hvalue => exact (mergeAll_yields h items hcount).bind fun x hx => hon hx.1 hx.2
        next => exact breaksRule _
      next htag =>
        obtain ⟨hresolved, hpairs, hplain⟩ := resolved_withTag htag
        exact (ih (hcollecting.pass hentry hresolved (hpairs r) hplain) (hresolved.mergeCount_le.trans hg)).after
          (hresolved.leave _)
      next hnotMerge hnotValue =>
        exact ih (hcollecting.pass hentry (.refl none g) rfl ⟨hnotMerge, hnotValue⟩) hg

/-- As long as there are more steps than merge keys, resolving ends with a settled mapping or at a broken rule. -/
theorem resolveMerges_resolves (fuel : Nat) : ResolvesBelow fuel (resolveMerges fuel) := by
  induction fuel with
  | zero => exact fun r g _ hg => absurd hg (Nat.not_lt_zero _)
  | succ fuel ih =>
    intro r g hmapping hg
    have hstart : Collecting r ((g.pairs r).length + 1) 0 [] g :=
      ⟨by simp, .inl (by omega), List.forall_mem_nil _⟩
    refine (collectMerged_gathers ih hstart (Nat.le_of_lt_succ hg)).bind fun x ⟨hresolved, hsettled, hmerged⟩ => ?_
    have hmapping' : x.2.isMapping r = true := (hresolved.isMapping r).trans hmapping
    simp only [Yields.ok_iff]
    split
    · exact ⟨hresolved.close hsettled, hsettled⟩
    · have hlast : (x.2.setPairs r (x.1 ++ x.2.pairs r)).Settled r := by
        intro p hp
        rw [pairs_setPairs hmapping', if_pos rfl] at hp
        rw [Plainly, tag_setPairs]
        exact (List.mem_append.mp hp).elim (hmerged p) (hsettled p)
      exact ⟨(hresolved.trans (resolvedBut_setPairs hmapping' _)).close hlast, hlast⟩

theorem mergeCount_le_entryCount (g : Graph) : g.mergeCount ≤ g.entryCount := by
  rw [entryCount, List.length_flatMap]
  exact List.sum_le_sum fun _ _ => List.countP_le_length

/-- There are enough entries to resolve the merge keys of a mapping. -/
theorem resolveMerges_yields (h : g.isMapping r = true) :
    Yields BreaksRule (Resolved g) (resolveMerges (g.entryCount + 1) r g) :=
  (resolveMerges_resolves (g.entryCount + 1) r g h (Nat.lt_succ_of_le g.mergeCount_le_entryCount)).imp
    (fun _ he => he) fun _ hg => hg.1

end Graph

end DocFilter.Yaml
