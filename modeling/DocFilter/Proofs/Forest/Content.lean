import DocFilter.Forest.Reading
import DocFilter.Proofs.Forest.Cycles
import DocFilter.Proofs.Node.Payload

/-!
# What nodes show after they were brought in

A node under edit is written by a fold over the forest, which guards against nodes that lie below themselves.
Reading a tree adds each node after those directly below it, so in a forest that was only read the guard
never holds, and the fold goes through the forest as the one over the tree goes through the tree.

* `Forest.Descending` says that each node was added after those directly below it, and
  `Forest.Descending.written_eq` that the written form of a node then is made of those below it.
* `Forest.Keeps.written` says that adding nodes leaves the written form of the others as it is.
* `Forest.View` is what something that refers to nodes shows of them, and `Forest.Brought` that an effect
  brought in nodes that show what they should.
* `Forest.brings_fold` says that reading a tree does, `Forest.fresh_plantDocument` puts together what reading
  a document leaves.
-/

namespace DocFilter

namespace Forest

variable {f f' f'' : Forest} {n m : NodeId}

/-! ## Folds over a forest that was read -/

/-- Each node lies behind the nodes directly below it, in its payload or among its children. -/
def Descending (f : Forest) : Prop := ∀ n : NodeId,
  (∀ c ∈ Payload.nodes (f.payload n), c.index < n.index) ∧ ∀ c ∈ f.children n, c.index < n.index

theorem Descending.index_le (h : f.Descending) (hbelow : f.Below n m) : m.index ≤ n.index := by
  induction hbelow with
  | refl => exact Nat.le_refl _
  | child hc _ ih => exact ih.trans ((h _).2 _ hc).le

theorem Descending.acyclic (h : f.Descending) : f.Acyclic := fun n c hc hbelow =>
  absurd ((h n).2 c hc) (Nat.not_lt.mpr (h.index_le hbelow))

section Fold

variable {β : Type} {step : NodeId → Payload β → List β → β} {again : NodeId → β}

/-- In a forest that was read the fold does not depend on the fuel, nor on the path to the node. -/
theorem Descending.foldWithin_eq (h : f.Descending) {fuel : Nat} {path : List NodeId} (hfuel : n.index < fuel)
    (hpath : ∀ p ∈ path, n.index < p.index) :
    f.foldWithin step again fuel path n = f.foldWithin step again (n.index + 1) [] n := by
  induction hindex : n.index using Nat.strongRecOn generalizing n fuel path with
  | _ index ih =>
    subst hindex
    obtain ⟨fuel, rfl⟩ : ∃ k, fuel = k + 1 := ⟨fuel - 1, by omega⟩
    have hout : n ∉ path := fun hn => Nat.lt_irrefl _ (hpath n hn)
    have hsame : ∀ c : NodeId, c.index < n.index →
        f.foldWithin step again fuel (n :: path) c = f.foldWithin step again n.index [n] c := by
      intro c hc
      have hshort := ih c.index hc (show c.index < fuel by omega)
        (List.forall_mem_cons.mpr ⟨hc, fun p hp => hc.trans (hpath p hp)⟩) rfl
      have hlong := ih c.index hc (show c.index < n.index from hc) (List.forall_mem_singleton.mpr hc) rfl
      exact hshort.trans hlong.symm
    rw [foldWithin, foldWithin, if_neg (by simpa using hout), if_neg (by simp)]
    dsimp only
    rw [Payload.map_congr fun c hc => hsame c ((h n).1 c hc),
      List.map_congr_left fun c hc => hsame c ((h n).2 c hc)]

theorem Descending.fold_eq (h : f.Descending) (hn : f.Has n) :
    f.fold step again n =
      step n ((f.payload n).map (f.fold step again)) ((f.children n).map (f.fold step again)) := by
  have hfold : ∀ c : NodeId, c.index < n.index →
      f.foldWithin step again n.index [n] c = f.fold step again c := fun c hc =>
    (h.foldWithin_eq hc (List.forall_mem_singleton.mpr hc)).trans
      (h.foldWithin_eq (Nat.lt_succ_of_lt (hc.trans hn)) (by simp)).symm
  have hself : f.fold step again n = f.foldWithin step again (n.index + 1) [] n :=
    h.foldWithin_eq (Nat.lt_succ_of_lt hn) (by simp)
  rw [hself, foldWithin, if_neg (by simp)]
  dsimp only
  rw [Payload.map_congr fun c hc => hfold c ((h n).1 c hc),
    List.map_congr_left fun c hc => hfold c ((h n).2 c hc)]

end Fold

/-- In a forest that was read a node is written as its kind is over what is directly below it. -/
theorem Descending.written_eq (h : f.Descending) (hn : f.Has n) :
    f.written n = .of (f.kind n) ((f.payload n).map f.written) ((f.children n).map f.written) :=
  h.fold_eq hn

theorem Descending.kind_written (h : f.Descending) (hn : f.Has n) : (f.written n).kind = f.kind n := by
  rw [h.written_eq hn]
  rfl

/-! ## Adding nodes -/

/-- A forest goes on from another one: what nodes hold is as before, whatever their links. -/
structure Keeps (f f' : Forest) : Prop where
  grows : f.size ≤ f'.size
  kind : ∀ m, f.Has m → f'.kind m = f.kind m
  payload : ∀ m, f.Has m → f'.payload m = f.payload m
  children : ∀ m, f.Has m → f'.children m = f.children m

theorem Keeps.refl (f : Forest) : f.Keeps f := ⟨Nat.le_refl _, fun _ _ => rfl, fun _ _ => rfl, fun _ _ => rfl⟩

theorem Keeps.has (h : f.Keeps f') (hm : f.Has m) : f'.Has m := Nat.lt_of_lt_of_le hm h.grows

theorem Keeps.trans (h : f.Keeps f') (h' : f'.Keeps f'') : f.Keeps f'' where
  grows := h.grows.trans h'.grows
  kind := fun m hm => (h'.kind m (h.has hm)).trans (h.kind m hm)
  payload := fun m hm => (h'.payload m (h.has hm)).trans (h.payload m hm)
  children := fun m hm => (h'.children m (h.has hm)).trans (h.children m hm)

/-- A node is written as before. -/
theorem Keeps.written (h : f.Keeps f') (hf : f.Descending) (hf' : f'.Descending) (hn : f.Has n) :
    f'.written n = f.written n := by
  induction hindex : n.index using Nat.strongRecOn generalizing n with
  | _ index ih =>
    subst hindex
    have hbelow : ∀ c : NodeId, c.index < n.index → f'.written c = f.written c := fun c hc =>
      ih c.index hc (hc.trans hn) rfl
    rw [hf'.written_eq (h.has hn), hf.written_eq hn, h.kind n hn, h.payload n hn, h.children n hn,
      Payload.map_congr fun c hc => hbelow c ((hf n).1 c hc),
      List.map_congr_left fun c hc => hbelow c ((hf n).2 c hc)]

/-! ## Effects that bring in what they should -/

/-- What something that refers to nodes shows of them, once it is known what each node shows. -/
structure View (β γ : Type) where
  nodes : β → List NodeId
  value : (NodeId → Written) → β → γ
  congr : ∀ {show₁ show₂ : NodeId → Written} {b : β}, (∀ n ∈ nodes b, show₁ n = show₂ n) →
    value show₁ b = value show₂ b

namespace View

variable {β γ δ ε : Type}

/-- A node shows its written form. -/
def node : View NodeId Written where
  nodes n := [n]
  value shown n := shown n
  congr h := h _ List.mem_cons_self

/-- Something without nodes shows itself. -/
def plain (β : Type) : View β β where
  nodes _ := []
  value _ b := b
  congr _ := rfl

/-- A list shows what its members show. -/
def list (view : View β γ) : View (List β) (List γ) where
  nodes bs := bs.flatMap view.nodes
  value shown bs := bs.map (view.value shown)
  congr h := List.map_congr_left fun b hb => view.congr fun n hn => h n (List.mem_flatMap.mpr ⟨b, hb, hn⟩)

/-- A pair shows what its two sides show. -/
def pair (first : View β γ) (second : View δ ε) : View (β × δ) (γ × ε) where
  nodes b := first.nodes b.1 ++ second.nodes b.2
  value shown b := (first.value shown b.1, second.value shown b.2)
  congr h := by
    rw [first.congr fun n hn => h n (List.mem_append_left _ hn),
      second.congr fun n hn => h n (List.mem_append_right _ hn)]

def citation : View (Citation NodeId) (Citation Written) where
  nodes c := c.before ++ c.after
  value shown c := c.map shown
  congr h := Citation.map_congr h

def payloadValue : View (Value NodeId) (Value Written) where
  nodes v := v.nodes
  value shown v := v.map shown
  congr h := Value.map_congr h

def entry : View (String × Value NodeId) (String × Value Written) where
  nodes e := e.2.nodes
  value shown e := (e.1, e.2.map shown)
  congr h := by rw [Value.map_congr h]

end View

variable {β γ δ ε : Type} {first : View β γ} {second : View δ ε} {b : β} {c : γ} {d : δ} {e : ε}

/-- A forest goes on from another one with nodes that something refers to and that show what they should. -/
structure Brought (f f' : Forest) (view : View β γ) (b : β) (shown : γ) : Prop where
  keeps : f.Keeps f'
  descending : f'.Descending
  has : ∀ n ∈ view.nodes b, f'.Has n
  shows : view.value f'.written b = shown

/-- What was brought in still shows the same after more was brought in. -/
theorem Brought.trans (h : f.Brought f' first b c) (h' : f'.Brought f'' second d e) :
    f.Brought f'' (first.pair second) (b, d) (c, e) where
  keeps := h.keeps.trans h'.keeps
  descending := h'.descending
  has := List.forall_mem_append.mpr ⟨fun n hn => h'.keeps.has (h.has n hn), h'.has⟩
  shows := by
    have hsame : first.value f''.written b = first.value f'.written b := first.congr fun n hn =>
      h'.keeps.written h.descending h'.descending (h.has n hn)
    exact Prod.ext (hsame.trans h.shows) h'.shows

/-- What was brought in may be put into another form. -/
theorem Brought.map (h : f.Brought f' first b c) (second : View δ ε) (into : β → δ) (into' : γ → ε)
    (hnodes : ∀ b, second.nodes (into b) ⊆ first.nodes b)
    (hvalue : ∀ shown b, second.value shown (into b) = into' (first.value shown b)) :
    f.Brought f' second (into b) (into' c) where
  keeps := h.keeps
  descending := h.descending
  has := fun n hn => h.has n (hnodes b hn)
  shows := by rw [hvalue, h.shows]

/-- An effect that brings in what shows a given value. -/
def Brings (x : StateM Forest β) (view : View β γ) (shown : γ) : Prop :=
  ∀ f : Forest, f.Descending → f.Brought (x f).2 view (x f).1 shown

theorem Brings.both {x : StateM Forest β} {y : StateM Forest δ} (hx : Brings x first c)
    (hy : Brings y second e) :
    Brings (do return (← x, ← y)) (first.pair second) (c, e) := fun f hf =>
  (hx f hf).trans (hy _ (hx f hf).descending)

theorem Brings.map {x : StateM Forest β} (h : Brings x first c) (second : View δ ε) (into : β → δ) (into' : γ → ε)
    (hnodes : ∀ b, second.nodes (into b) ⊆ first.nodes b)
    (hvalue : ∀ shown b, second.value shown (into b) = into' (first.value shown b)) :
    Brings (into <$> x) second (into' c) := fun f hf => (h f hf).map second into into' hnodes hvalue

/-- Effects one after another bring in a list. -/
theorem Brings.mapM {α : Type} {g : α → StateM Forest β} {shown : α → γ} {xs : List α}
    (h : ∀ a ∈ xs, Brings (g a) first (shown a)) : Brings (xs.mapM g) first.list (xs.map shown) := by
  induction xs with
  | nil => exact fun f hf => ⟨.refl f, hf, nofun, rfl⟩
  | cons a xs ih =>
    rw [List.mapM_cons]
    have hboth := (h a (by simp)).both (ih fun c hc => h c (by simp [hc]))
    have hcons := hboth.map first.list (fun b => b.1 :: b.2) (fun b => b.1 :: b.2)
      (fun b => List.Subset.refl _) (fun shown b => rfl)
    exact hcons

variable {t : Tree} {children : List Tree}

theorem brings_list {step : Tree → StateM Forest NodeId} {ts : List Tree}
    (h : ∀ t ∈ ts, Brings (step t) View.node t.written) :
    Brings ((ts.map step).mapM fun node => node) View.node.list (ts.map Tree.written) := by
  rw [List.mapM_map]
  exact .mapM h

theorem brings_citation {step : Tree → StateM Forest NodeId} {c : Citation Tree}
    (h : ∀ t ∈ c.before ++ c.after, Brings (step t) View.node t.written) :
    Brings (c.map step).sequence View.citation (c.map Tree.written) := by
  rw [List.forall_mem_append] at h
  exact ((brings_list h.1).both (brings_list h.2)).map View.citation
    (fun sides => { c with before := sides.1, after := sides.2 })
    (fun sides => { c with before := sides.1, after := sides.2 })
    (fun sides => by simp [View.citation, View.pair, View.list, View.node])
    (fun shown sides => rfl)

theorem brings_value {step : Tree → StateM Forest NodeId} {v : Value Tree}
    (h : ∀ t ∈ v.nodes, Brings (step t) View.node t.written) :
    Brings (v.map step).sequence View.payloadValue (v.map Tree.written) := by
  cases v with
  | citations cs =>
    have hcs : Brings ((cs.map (·.map step)).mapM Citation.sequence) View.citation.list
        (cs.map (·.map Tree.written)) := by
      rw [List.mapM_map]
      exact .mapM fun c hc => brings_citation fun t ht => h t (List.mem_flatMap.mpr ⟨c, hc, ht⟩)
    exact hcs.map View.payloadValue .citations .citations (fun cs => List.Subset.refl _) (fun _ _ => rfl)
  | _ => exact fun f hf => ⟨.refl f, hf, nofun, rfl⟩

theorem brings_payload {step : Tree → StateM Forest NodeId} {payload : Payload Tree}
    (h : ∀ t ∈ Payload.nodes payload, Brings (step t) View.node t.written) :
    Brings (payload.map step).sequence View.entry.list (Payload.map Tree.written payload) := by
  rw [Payload.sequence, Payload.map, List.mapM_map]
  refine .mapM fun entry hentry => ?_
  have hvalue := brings_value fun t ht => h t (List.mem_flatMap.mpr ⟨entry, hentry, ht⟩)
  exact hvalue.map View.entry (entry.1, ·) (entry.1, ·) (fun v => List.Subset.refl _) (fun _ _ => rfl)

/-! ## Reading trees and documents -/

theorem kind_adoptAll {p : NodeId} {ns : List NodeId} : (f.adoptAll p ns).kind m = f.kind m := by
  induction ns generalizing f with
  | nil => rfl
  | cons c ns ih => rw [adoptAll_cons, ih, adopt, kind_setHolder]

theorem payload_adoptAll {p : NodeId} {ns : List NodeId} : (f.adoptAll p ns).payload m = f.payload m := by
  induction ns generalizing f with
  | nil => rfl
  | cons c ns ih =>
    rw [adoptAll_cons, ih, adopt, setHolder, payload, payload]
    exact view_update Cell.payload (fun _ => rfl)

/-- The kind of each node after one was put on top of some others. -/
theorem kind_gather {made : Cell} {p : NodeId} {ns : List NodeId} :
    ((f.add made).2.adoptAll p ns).kind m = if m.index = f.size then made.kind else f.kind m := by
  rw [kind_adoptAll, kind, cell_add, apply_ite Cell.kind, kind]

/-- The payload of each node after one was put on top of some others. -/
theorem payload_gather {made : Cell} {p : NodeId} {ns : List NodeId} :
    ((f.add made).2.adoptAll p ns).payload m = if m.index = f.size then made.payload else f.payload m := by
  rw [payload_adoptAll, payload, cell_add, apply_ite Cell.payload, payload]

/-- A node is put on top of what was brought in, and shows what it is made of. -/
theorem Brought.gather {made : Cell} {payload : Payload Written} {shown : List Written}
    (h : f.Brought f' (View.entry.list.pair View.node.list) (made.payload, made.children) (payload, shown)) :
    f.Brought ((f'.add made).2.adoptAll ⟨f'.size⟩ made.children) View.node ⟨f'.size⟩
      (.of made.kind payload shown) := by
  obtain ⟨top, htop⟩ : ∃ top, (f'.add made).2.adoptAll ⟨f'.size⟩ made.children = top := ⟨_, rfl⟩
  have hkind : ∀ m, top.kind m = if m.index = f'.size then made.kind else f'.kind m := fun m =>
    htop ▸ kind_gather
  have hpayload : ∀ m, top.payload m = if m.index = f'.size then made.payload else f'.payload m := fun m =>
    htop ▸ payload_gather
  have hchildren : ∀ m, top.children m = if m.index = f'.size then made.children else f'.children m := fun m =>
    htop ▸ children_gather
  have hhas : ∀ n, top.Has n ↔ f'.Has n ∨ n.index = f'.size := fun n => by
    rw [← htop, has_adoptAll, has_add]
  have hold : ∀ m, f'.Has m → ¬ m.index = f'.size := fun m hm => Nat.ne_of_lt hm
  have hkeeps : f'.Keeps top := by
    refine ⟨?_, fun m hm => ?_, fun m hm => ?_, fun m hm => ?_⟩
    · have hlast := (hhas ⟨f'.size⟩).mpr (.inr rfl)
      exact Nat.le_of_lt hlast
    · rw [hkind, if_neg (hold m hm)]
    · rw [hpayload, if_neg (hold m hm)]
    · rw [hchildren, if_neg (hold m hm)]
  obtain ⟨hpairPayload, hpairChildren⟩ := List.forall_mem_append.mp h.has
  have hdescending : top.Descending := by
    intro m
    rw [hpayload, hchildren]
    split
    · rename_i hm
      rw [hm]
      exact ⟨fun c hc => hpairPayload c hc,
        fun c hc => hpairChildren c (List.mem_flatMap.mpr ⟨c, hc, List.mem_cons_self⟩)⟩
    · exact h.descending m
  rw [htop]
  refine ⟨h.keeps.trans hkeeps, hdescending, List.forall_mem_singleton.mpr ((hhas _).mpr (.inr rfl)), ?_⟩
  have hshown : (View.entry.list.pair View.node.list).value top.written (made.payload, made.children) =
      (payload, shown) := by
    rw [← h.shows]
    exact View.congr _ fun n hn => hkeeps.written h.descending hdescending (h.has n hn)
  obtain ⟨hshownPayload, hshownChildren⟩ := Prod.mk.inj hshown
  have hwritten := hdescending.written_eq ((hhas ⟨f'.size⟩).mpr (.inr rfl))
  rw [hkind, hpayload, hchildren, if_pos rfl, if_pos rfl, if_pos rfl] at hwritten
  refine hwritten.trans ?_
  rw [← hshownPayload, ← hshownChildren]
  rfl

/-- Reading a tree brings in what shows the written form of the tree. -/
theorem brings_fold (t : Tree) : Brings (t.fold (plantNode true)) View.node t.written := by
  induction t using Tree.induct with
  | node kind payload children hpayload hchildren =>
    have hbelow := (brings_payload hpayload).both (brings_list hchildren)
    rw [Tree.fold_node, Tree.written, Tree.fold_node]
    intro f hf
    exact (hbelow f hf).gather

theorem descending_empty : ({} : Forest).Descending := fun n => by
  have hno : ¬ ({} : Forest).Has n := Nat.not_lt_zero _
  rw [children_of_not_has hno, Forest.payload, cell_of_not_has hno]
  exact ⟨nofun, nofun⟩

/-- What reading a document leaves: a strict tree without marks under a root that carries the document's data,
with children that are written as the blocks are. -/
structure Fresh (f : Forest) (root : NodeId) (d : Document) : Prop where
  linked : f.Linked
  strict : f.Strict root
  unmarked : ∀ n, f.replacement? n = none
  has : f.Has root
  kind : f.kind root = .document
  document : (f.cell root).document = some ⟨.ofEntries d.metadata, d.version, d.schema⟩
  extras : (f.cell root).extras = []
  written : (f.children root).map f.written = d.blocks.map Tree.written

/-- The root over the blocks of a document. -/
def top (d : Document) (ns : List NodeId) : Cell where
  kind := .document
  children := ns
  document := some ⟨.ofEntries d.metadata, d.version, d.schema⟩

/-- Reading a document puts a root over its blocks, as any node is put over its children. -/
theorem plantDocument_eq (d : Document) :
    ∃ f ns, (d.blocks.mapM (Tree.fold (plantNode true))) ({} : Forest) = (ns, f) ∧
      ({} : Forest).plantDocument d =
        (⟨f.size⟩, (f.add (top d ns)).2.adoptAll ⟨f.size⟩ (top d ns).children) ∧
      f.Brought f (View.entry.list.pair View.node.list) ((top d ns).payload, (top d ns).children)
        (Payload.map Tree.written [], d.blocks.map Tree.written) := by
  obtain ⟨f, ns, hread⟩ : ∃ f ns, (d.blocks.mapM (Tree.fold (plantNode true))) ({} : Forest) = (ns, f) :=
    ⟨_, _, rfl⟩
  have hbrought := Brings.mapM (fun t (_ : t ∈ d.blocks) => brings_fold t) {} descending_empty
  rw [hread] at hbrought
  refine ⟨f, ns, hread, ?_, .refl f, hbrought.descending, hbrought.has, Prod.ext rfl hbrought.shows⟩
  rw [plantDocument, hread]
  rfl

/-- Reading a document into an empty forest leaves the document and nothing else. -/
theorem fresh_plantDocument (d : Document) :
    (({} : Forest).plantDocument d).2.Fresh (({} : Forest).plantDocument d).1 d := by
  have hplanted := planted_plantDocument (f := {}) d
  have hmarks : ∀ n, (({} : Forest).plantDocument d).2.replacement? n = none := fun n =>
    (replacement?_plantDocument d).trans (replacement?_of_not_has (Nat.not_lt_zero _))
  obtain ⟨f, ns, -, hplant, hbelow⟩ := plantDocument_eq d
  rw [hplant] at hplanted hmarks ⊢
  have hlinked := hplanted.linked Move.linked_empty
  have hhas := (hplanted.fresh ⟨f.size⟩ (by simp)).2
  have htop := hbelow.gather
  have hold : ∀ n ∈ ns, f.Has n := fun n hn =>
    hbelow.has n (List.mem_append_right _ (List.mem_flatMap.mpr ⟨n, hn, List.mem_cons_self⟩))
  have hout : (⟨f.size⟩ : NodeId) ∉ (top d ns).children := fun hmem => Nat.lt_irrefl _ (hold _ hmem)
  have hcell : ((f.add (top d ns)).2.adoptAll ⟨f.size⟩ (top d ns).children).cell ⟨f.size⟩ = top d ns := by
    rw [cell_adoptAll_of_not_mem hout, cell_add, if_pos rfl]
  refine ⟨hlinked, hlinked.strict htop.descending.acyclic hhas, hmarks, hhas, ?_, ?_, ?_, ?_⟩
  · rw [Forest.kind, hcell]
    rfl
  · rw [hcell]
    rfl
  · rw [hcell]
    rfl
  · have hchildren : ((f.add (top d ns)).2.adoptAll ⟨f.size⟩ (top d ns).children).children ⟨f.size⟩ = ns := by
      rw [Forest.children, hcell]
      rfl
    obtain ⟨-, hshown⟩ := Prod.mk.inj hbelow.shows
    rw [hchildren, ← hshown]
    exact List.map_congr_left fun n hn => htop.keeps.written hbelow.descending htop.descending (hold n hn)

end Forest

end DocFilter
