import DocFilter.Forest.Basic
import DocFilter.Proofs.Forest.Effects
import DocFilter.Proofs.Forest.Planting
import DocFilter.Proofs.Node.Payload
import DocFilter.Proofs.Results

/-!
# Nodes that stand for trees

A tree with nothing but plain data in its payloads may be brought into a forest without links.  Each of its
nodes is then represented by a new node of the forest.

* `Forest.Stands` says that a node and the nodes below it represent a tree.  All of them lie from some place on, so
  that what happens to nodes before it makes no difference (`Forest.Stands.kept`).
* `Forest.Stands.foldWithin_eq`: a fold over the forest goes through such nodes as the one over the tree goes
  through the tree.
* `Forest.Laid` says what bringing in trees leaves, and `Forest.laid_plantLoose` that this is so.
-/

namespace DocFilter

/-- A tree with plain data in its payload, that is good in some sense, and so are all trees below it. -/
inductive Tree.Bare (good : Tree → Prop) : Tree → Prop where
  | node {kind : Kind} {payload : Payload Tree} {children : List Tree} (data : ∀ e ∈ payload, ∃ v, e.2 = .data v)
      (fits : good (.node kind payload children)) (below : ∀ t ∈ children, Bare good t) :
      Bare good (.node kind payload children)

/-- A payload of plain data does not depend on what is done to nodes. -/
theorem Payload.map_of_data {ν μ ξ : Type} {payload : Payload ν} (h : ∀ e ∈ payload, ∃ v, e.2 = .data v)
    (f : ν → μ) (g : ν → ξ) (g' : ξ → μ) : Payload.map g' (Payload.map g payload) = Payload.map f payload := by
  rw [Payload.map, Payload.map, List.map_map, Payload.map]
  refine List.map_congr_left fun e he => ?_
  obtain ⟨v, hv⟩ := h e he
  rw [Function.comp_apply, hv]
  rfl

namespace Forest

variable {f f' f'' : Forest} {n m : NodeId} {t : Tree} {low : Nat} {ns ms : List NodeId} {ts us : List Tree}
  {good : Tree → Prop}

/-- A node that represents a tree with plain data in its payloads: it lies behind the nodes that represent the trees
directly below, and all of them lie from a place on and have nothing written beside their payload. -/
inductive Stands (f : Forest) (low : Nat) : NodeId → Tree → Prop where
  | node {n : NodeId} {payload : Payload Tree} {children : List Tree} (new : low ≤ n.index)
      (extras : (f.cell n).extras = []) (data : ∀ e ∈ payload, ∃ v, e.2 = .data v)
      (held : f.payload n = Payload.map (fun _ => default) payload) (behind : ∀ c ∈ f.children n, c.index < n.index)
      (below : List.Forall₂ (Stands f low) (f.children n) children) : Stands f low n (.node (f.kind n) payload children)

theorem Stands.low_le (h : f.Stands low n t) : low ≤ n.index := by
  cases h with
  | node new => exact new

theorem Stands.kind_eq (h : f.Stands low n t) : f.kind n = t.kind := by
  cases h with
  | node => rfl

theorem Stands.children_forall₂ (h : f.Stands low n t) : List.Forall₂ (f.Stands low) (f.children n) t.children := by
  cases h with
  | node new extras data held behind below => exact below

/-! ## What stays -/

/-- A forest in which nodes from a place on are as in another one, but for their holders. -/
def AlikeFrom (low : Nat) (f f' : Forest) : Prop :=
  ∀ m, low ≤ m.index → f.Has m → ∃ holder, f'.cell m = { f.cell m with holder := holder }

theorem Stands.kept (h : f.Stands low n t) (hn : f.Has n) (hlike : AlikeFrom low f f') : f'.Stands low n t := by
  induction t using Tree.induct generalizing n with
  | node kind payload children _ ih =>
    cases h with
    | node new extras data held behind below =>
      obtain ⟨holder, hcell⟩ := hlike n new hn
      have hkind : f'.kind n = f.kind n := by rw [Forest.kind, hcell]; rfl
      have hchildren : f'.children n = f.children n := by rw [Forest.children, hcell]; rfl
      rw [← hkind]
      refine .node new (by rw [hcell]; exact extras) data (by rw [Forest.payload, hcell]; exact held) ?_ ?_
      · rw [hchildren]
        exact behind
      · rw [hchildren]
        refine forall₂_imp_mem below fun c hc t ht hstands => ih t ht hstands ?_
        exact Nat.lt_trans (behind c hc) hn

/-! ## Folds -/

section Fold

variable {β : Type} {step : NodeId → Payload β → List β → β} {again : NodeId → β} {g : Kind → Payload β → List β → β}

/-- A fold goes through the nodes as through the tree that they represent, if its step goes by the kind of a node
with nothing beside its payload.  The nodes above come before or after all of these, so that none is met again. -/
theorem Stands.foldWithin_eq (h : f.Stands low n t) (hstep : ∀ m payload children, (f.cell m).extras = [] →
      step m payload children = g (f.kind m) payload children)
    {fuel : Nat} {path : List NodeId} (hfuel : n.index < low + fuel)
    (hpath : ∀ p ∈ path, p.index < low ∨ n.index < p.index) :
    f.foldWithin step again fuel path n = t.fold g := by
  induction t using Tree.induct generalizing n fuel path with
  | node kind payload children _ ih =>
    cases h with
    | node new extras data held behind below =>
      obtain ⟨fuel, rfl⟩ : ∃ k, fuel = k + 1 := ⟨fuel - 1, by omega⟩
      have hout : n ∉ path := by
        intro hn
        have hcases := hpath n hn
        omega
      have hbelow : List.Forall₂ (fun c t => f.foldWithin step again fuel (n :: path) c = t.fold g) (f.children n)
          children := by
        refine forall₂_imp_mem below fun c hc t ht hstands => ih t ht hstands ?_ ?_
        · have hlt := behind c hc
          omega
        · intro p hp
          have hlt := behind c hc
          rcases List.mem_cons.mp hp with rfl | hp
          · exact .inr hlt
          · have hcases := hpath p hp
            omega
      have hchildren : (f.children n).map (f.foldWithin step again fuel (n :: path)) = children.map (Tree.fold g) := by
        rw [← List.forall₂_eq_eq_eq, List.forall₂_map_left_iff, List.forall₂_map_right_iff]
        exact hbelow
      have hpayload : (f.payload n).map (f.foldWithin step again fuel (n :: path)) = payload.map (Tree.fold g) := by
        rw [held]
        exact Payload.map_of_data data _ _ _
      rw [foldWithin, if_neg (by simpa using hout)]
      dsimp only
      rw [hstep n _ _ extras, hchildren, hpayload, Tree.fold_node]

end Fold

/-! ## Bringing trees in -/

/-- Some trees were brought into a forest without links: the nodes that were there are as before, some new nodes
stand for the trees, and each new node stands for a good one. -/
structure Laid (low : Nat) (good : Tree → Prop) (f : Forest) (ns : List NodeId) (ts : List Tree) (f' : Forest) :
    Prop where
  grows : f.size ≤ f'.size
  kept : ∀ m, f.Has m → f'.cell m = f.cell m
  fresh : ∀ n ∈ ns, ¬ f.Has n ∧ f'.Has n
  stands : List.Forall₂ (f'.Stands low) ns ts
  each : ∀ m, f'.Has m → ¬ f.Has m → ∃ t, good t ∧ f'.Stands low m t

theorem Laid.refl (f : Forest) : Laid low good f [] [] f where
  grows := Nat.le_refl _
  kept _ _ := rfl
  fresh := nofun
  stands := .nil
  each _ hm hnot := absurd hm hnot

theorem Laid.has (h : Laid low good f ns ts f') (hm : f.Has m) : f'.Has m := Nat.lt_of_lt_of_le hm h.grows

theorem Laid.alike (h : Laid low good f ns ts f') : AlikeFrom low f f' :=
  fun m _ hm => ⟨(f.cell m).holder, h.kept m hm⟩

theorem Laid.trans (h : Laid low good f ns ts f') (h' : Laid low good f' ms us f'') :
    Laid low good f (ns ++ ms) (ts ++ us) f'' where
  grows := h.grows.trans h'.grows
  kept m hm := (h'.kept m (h.has hm)).trans (h.kept m hm)
  fresh := by
    intro n hn
    rcases List.mem_append.mp hn with hn | hn
    · obtain ⟨hnot, hhas⟩ := h.fresh n hn
      exact ⟨hnot, h'.has hhas⟩
    · obtain ⟨hnot, hhas⟩ := h'.fresh n hn
      exact ⟨fun hold => hnot (h.has hold), hhas⟩
  stands := List.rel_append
    (forall₂_imp_mem h.stands fun n hn _ _ hstands => hstands.kept (h.fresh n hn).2 h'.alike) h'.stands
  each m hm hnot := by
    by_cases hm' : f'.Has m
    · obtain ⟨t, ht, hstands⟩ := h.each m hm' hnot
      exact ⟨t, ht, hstands.kept hm' h'.alike⟩
    · exact h'.each m hm hm'

/-- A node is put on top of what was brought in. -/
theorem Laid.gather {kind : Kind} {payload : Payload Tree} {children : List Tree}
    (h : Laid low good f ns children f') (hlow : low ≤ f.size) (hdata : ∀ e ∈ payload, ∃ v, e.2 = .data v)
    (hgood : good (.node kind payload children)) {made : Cell}
    (hmade : made = { kind := kind, children := ns, payload := Payload.map (fun _ => default) payload }) :
    Laid low good f [⟨f'.size⟩] [.node kind payload children] (f'.add made).2 := by
  have hcell : (f'.add made).2.cell ⟨f'.size⟩ = made := by rw [cell_add, if_pos rfl]
  have hkept : ∀ m, f'.Has m → (f'.add made).2.cell m = f'.cell m := fun m hm => cell_add_of_has hm
  have hlike : AlikeFrom low f' (f'.add made).2 := fun m _ hm => ⟨(f'.cell m).holder, hkept m hm⟩
  have hchildren : (f'.add made).2.children ⟨f'.size⟩ = ns := by rw [Forest.children, hcell, hmade]
  have htop : (f'.add made).2.Stands low ⟨f'.size⟩ (.node kind payload children) := by
    have hkind : (f'.add made).2.kind ⟨f'.size⟩ = kind := by rw [Forest.kind, hcell, hmade]
    rw [← hkind]
    refine .node (hlow.trans h.grows) (by rw [hcell, hmade]) hdata (by rw [Forest.payload, hcell, hmade]) ?_ ?_
    · rw [hchildren]
      exact fun c hc => (h.fresh c hc).2
    · rw [hchildren]
      exact forall₂_imp_mem h.stands fun c hc _ _ hstands => hstands.kept (h.fresh c hc).2 hlike
  have hhas : (f'.add made).2.Has ⟨f'.size⟩ := (has_add made).mpr (.inr rfl)
  refine ⟨h.grows.trans (Nat.le_of_lt hhas), fun m hm => (hkept m (h.has hm)).trans (h.kept m hm), ?_, .cons htop .nil,
    fun m hm hnot => ?_⟩
  · rw [List.forall_mem_singleton]
    exact ⟨fun hold => Nat.lt_irrefl _ (h.has hold), hhas⟩
  · rcases (has_add made).mp hm with hm' | hm'
    · obtain ⟨t, ht, hstands⟩ := h.each m hm' hnot
      exact ⟨t, ht, hstands.kept hm' hlike⟩
    · obtain rfl : m = ⟨f'.size⟩ := congrArg NodeId.mk hm'
      exact ⟨_, hgood, htop⟩

/-- Plain data asks for no effects. -/
theorem sequence_of_data {payload : Payload Tree} (h : ∀ e ∈ payload, ∃ v, e.2 = .data v)
    (step : Tree → StateM Forest NodeId) (f : Forest) :
    (Payload.map step payload).sequence f = (Payload.map (fun _ => default) payload, f) := by
  induction payload generalizing f with
  | nil => rfl
  | cons e payload ih =>
    obtain ⟨⟨v, hv⟩, hmore⟩ := List.forall_mem_cons.mp h
    obtain ⟨name, value⟩ := e
    obtain rfl : value = .data v := hv
    have hrest := ih hmore f
    have hcons : Payload.sequence (Payload.map step ((name, .data v) :: payload)) =
        (do let rest ← Payload.sequence (Payload.map step payload); pure ((name, Value.data v) :: rest)) := by
      rw [Payload.sequence, Payload.map, List.map_cons, List.mapM_cons]
      rfl
    rw [hcons]
    change (_ :: (Payload.sequence (Payload.map step payload) f).1,
      (Payload.sequence (Payload.map step payload) f).2) = _
    rw [hrest]
    rfl

theorem laid_mapM {step : Tree → StateM Forest NodeId} (hlow : low ≤ f.size)
    (h : ∀ t ∈ ts, ∀ f : Forest, low ≤ f.size → Laid low good f [(step t f).1] [t] (step t f).2) :
    Laid low good f (ts.mapM step f).1 ts (ts.mapM step f).2 := by
  induction ts generalizing f with
  | nil => exact .refl f
  | cons t ts ih =>
    obtain ⟨hfirst, hmore⟩ := List.forall_mem_cons.mp h
    rw [List.mapM_cons]
    exact (hfirst f hlow).trans (ih (hlow.trans (hfirst f hlow).grows) hmore)

theorem laid_fold (ht : t.Bare good) (f : Forest) (hlow : low ≤ f.size) :
    Laid low good f [(t.fold (plantNode false) f).1] [t] (t.fold (plantNode false) f).2 := by
  induction t using Tree.induct generalizing f with
  | node kind payload children _ ih =>
    cases ht with
    | node data fits below =>
      have hbelow : Laid low good f (children.mapM (Tree.fold (plantNode false)) f).1 children
          (children.mapM (Tree.fold (plantNode false)) f).2 :=
        laid_mapM hlow fun t ht f hlow => ih t ht (below t ht) f hlow
      rw [Tree.fold_node]
      obtain ⟨made, hmade⟩ : ∃ made : Cell, made = ⟨kind, (children.mapM (Tree.fold (plantNode false)) f).1,
        Payload.map (fun _ => default) payload, none, none, [], none⟩ := ⟨_, rfl⟩
      have hrun : plantNode false kind (payload.map (Tree.fold (plantNode false)))
            (children.map (Tree.fold (plantNode false))) f =
          (children.mapM (Tree.fold (plantNode false)) f).2.add made := by
        rw [plantNode, List.mapM_map]
        change (let x := (Payload.map (Tree.fold (plantNode false)) payload).sequence f
          let y := children.mapM (Tree.fold (plantNode false)) x.2
          y.2.add ⟨kind, y.1, x.1, none, none, [], none⟩) = _
        rw [sequence_of_data data, hmade]
      rw [hrun]
      exact hbelow.gather hlow data fits hmade

/-- Bringing in trees leaves nodes that stand for them. -/
theorem laid_plantLoose (h : ∀ t ∈ ts, t.Bare good) (hlow : low ≤ f.size) :
    Laid low good f (f.plantLoose ts).1 ts (f.plantLoose ts).2 :=
  laid_mapM hlow fun t ht f hlow => laid_fold (h t ht) f hlow

end Forest

end DocFilter
