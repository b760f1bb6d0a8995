import DocFilter.Forest.Basic

/-!
# Effects on a forest

Bringing a tree into a forest runs one effect for each of its nodes, after those for the nodes directly below
it: first for the ones in the payload, then for the children.

* `Tree.induct` is induction over trees along the same way: what holds of a node if it holds of the nodes
  directly below it holds of every tree.
* `Forest.Along` says of an effect that it takes any forest to a related one.  For a relation that lasts,
  `Forest.Lasting.payload` takes this from the nodes in a payload to the payload.
-/

namespace DocFilter

/-! ## Induction over trees -/

namespace Tree

variable {motive : Tree → Prop}

mutual

/-- What holds of a node if it holds of the nodes directly below it holds of every tree. -/
theorem induct (node : ∀ kind payload children, (∀ t ∈ Payload.nodes payload, motive t) →
    (∀ t ∈ children, motive t) → motive (.node kind payload children)) : ∀ t, motive t
  | .node kind payload children =>
    node kind payload children (induct_payload node payload) (induct_list node children)

theorem induct_list (node : ∀ kind payload children, (∀ t ∈ Payload.nodes payload, motive t) →
    (∀ t ∈ children, motive t) → motive (.node kind payload children)) :
    ∀ ts : List Tree, ∀ t ∈ ts, motive t
  | [] => by simp
  | t :: ts => by
    rw [List.forall_mem_cons]
    exact ⟨induct node t, induct_list node ts⟩

theorem induct_payload (node : ∀ kind payload children, (∀ t ∈ Payload.nodes payload, motive t) →
    (∀ t ∈ children, motive t) → motive (.node kind payload children)) :
    ∀ payload : List (String × Value Tree), ∀ t ∈ Payload.nodes payload, motive t
  | [] => by simp [Payload.nodes]
  | (name, value) :: payload => by
    rw [Payload.nodes, List.flatMap_cons, List.forall_mem_append]
    exact ⟨induct_value node value, induct_payload node payload⟩

theorem induct_value (node : ∀ kind payload children, (∀ t ∈ Payload.nodes payload, motive t) →
    (∀ t ∈ children, motive t) → motive (.node kind payload children)) :
    ∀ value : Value Tree, ∀ t ∈ value.nodes, motive t
  | .data _ | .attr _ | .target _ | .listAttributes _ => by simp [Value.nodes]
  | .citations cs => by
    rw [Value.nodes]
    exact induct_citations node cs

theorem induct_citations (node : ∀ kind payload children, (∀ t ∈ Payload.nodes payload, motive t) →
    (∀ t ∈ children, motive t) → motive (.node kind payload children)) :
    ∀ cs : List (Citation Tree), ∀ t ∈ cs.flatMap (fun c => c.before ++ c.after), motive t
  | [] => by simp
  | ⟨_, before, after, _, _, _⟩ :: cs => by
    rw [List.flatMap_cons, List.forall_mem_append, List.forall_mem_append]
    exact ⟨⟨induct_list node before, induct_list node after⟩, induct_citations node cs⟩

end

end Tree

namespace Forest

/-! ## Effects that lead to related forests -/

/-- An effect that takes any forest to a related one. -/
def Along {α : Type} (R : Forest → Forest → Prop) (x : StateM Forest α) : Prop := ∀ f, R f (x f).2

/-- A relation between a forest and what becomes of it in any number of steps. -/
structure Lasting (R : Forest → Forest → Prop) : Prop where
  refl (f : Forest) : R f f
  trans {f f' f'' : Forest} (h : R f f') (h' : R f' f'') : R f f''

namespace Lasting

variable {R : Forest → Forest → Prop} {α β : Type} {x : StateM Forest α} {g : α → StateM Forest β}

theorem pure (h : Lasting R) (a : α) : Along R (Pure.pure a : StateM Forest α) := h.refl

theorem bind (h : Lasting R) (hx : Along R x) (hg : ∀ a, Along R (g a)) : Along R (x >>= g) :=
  fun f => h.trans (hx f) (hg (x f).1 (x f).2)

theorem mapM (h : Lasting R) {xs : List α} (hg : ∀ a ∈ xs, Along R (g a)) : Along R (xs.mapM g) := by
  induction xs with
  | nil => exact h.pure []
  | cons a xs ih =>
    obtain ⟨hfirst, hrest⟩ := List.forall_mem_cons.mp hg
    rw [List.mapM_cons]
    exact h.bind hfirst fun b => h.bind (ih hrest) fun bs => h.pure (b :: bs)

variable {step : Tree → StateM Forest NodeId}

theorem list (h : Lasting R) {ts : List Tree} (hstep : ∀ t ∈ ts, Along R (step t)) :
    Along R ((ts.map step).mapM fun node => node) :=
  h.mapM (List.forall_mem_map.mpr hstep)

theorem citation (h : Lasting R) {c : Citation Tree} (hstep : ∀ t ∈ c.before ++ c.after, Along R (step t)) :
    Along R (c.map step).sequence := by
  obtain ⟨hbefore, hafter⟩ := List.forall_mem_append.mp hstep
  exact h.bind (h.list hbefore) fun _ => h.bind (h.list hafter) fun _ => h.pure _

theorem value (h : Lasting R) {v : Value Tree} (hstep : ∀ t ∈ v.nodes, Along R (step t)) :
    Along R (v.map step).sequence := by
  cases v with
  | data v => exact h.pure _
  | attr a => exact h.pure _
  | target t => exact h.pure _
  | listAttributes l => exact h.pure _
  | citations cs =>
    have hcs : Along R ((cs.map (·.map step)).mapM Citation.sequence) :=
      h.mapM (List.forall_mem_map.mpr fun c hc => h.citation fun t ht =>
        hstep t (List.mem_flatMap.mpr ⟨c, hc, ht⟩))
    exact h.bind hcs fun _ => h.pure _

/-- The effects that stand for the nodes of a payload go along what each of them goes along. -/
theorem payload (h : Lasting R) {payload : Payload Tree} (hstep : ∀ t ∈ payload.nodes, Along R (step t)) :
    Along R (payload.map step).sequence := by
  refine h.mapM (List.forall_mem_map.mpr fun entry hentry => ?_)
  have hvalue : Along R (entry.2.map step).sequence :=
    h.value fun t ht => hstep t (List.mem_flatMap.mpr ⟨entry, hentry, ht⟩)
  exact h.bind hvalue fun v => h.pure (entry.1, v)

end Lasting

end Forest

end DocFilter
