import DocFilter.Node.Payload

/-!
# Trees of nodes

A decoded document is a value: each node holds its payload and its children outright, and so do the
citations among the payload. `Tree.fold` is the one recursion over trees, and `fold_node` states it through
the maps over payload and children.
-/

namespace DocFilter

/-- A node with everything below it. -/
inductive Tree where
  | node (kind : Kind) (payload : List (String × Value Tree)) (children : List Tree)

namespace Tree

/-- The kind of the root. -/
def kind : Tree → Kind
  | node kind _ _ => kind

/-- The payload of the root. -/
def payload : Tree → Payload Tree
  | node _ payload _ => payload

/-- The children of the root. -/
def children : Tree → List Tree
  | node _ _ children => children

instance : Inhabited Tree := ⟨.node .null [] []⟩

section Fold

variable {β : Type} (f : Kind → Payload β → List β → β)

mutual

/-- Computes a result for a node from those of the nodes directly below it. -/
def fold : Tree → β
  | node kind payload children => f kind (foldPayload payload) (foldList children)

/-- The results for a list of trees. -/
def foldList : List Tree → List β
  | [] => []
  | t :: ts => fold t :: foldList ts

/-- The results for the trees in a payload. -/
def foldPayload : List (String × Value Tree) → Payload β
  | [] => []
  | (name, value) :: rest => (name, foldValue value) :: foldPayload rest

/-- The results for the trees in a payload value. -/
def foldValue : Value Tree → Value β
  | .data v => .data v
  | .attr a => .attr a
  | .target t => .target t
  | .listAttributes l => .listAttributes l
  | .citations cs => .citations (foldCitations cs)

/-- The results for the trees in a list of citations. -/
def foldCitations : List (Citation Tree) → List (Citation β)
  | [] => []
  | ⟨id, before, after, mode, noteNum, hash⟩ :: rest =>
    ⟨id, foldList before, foldList after, mode, noteNum, hash⟩ :: foldCitations rest

end

theorem foldList_eq_map (ts : List Tree) : foldList f ts = ts.map (fold f) := by
  induction ts with
  | nil => rfl
  | cons t ts ih => simp [foldList, ih]

theorem foldCitations_eq_map (cs : List (Citation Tree)) :
    foldCitations f cs = cs.map (·.map (fold f)) := by
  induction cs with
  | nil => rfl
  | cons c cs ih => simp [foldCitations, foldList_eq_map, ih, Citation.map]

theorem foldValue_eq_map (v : Value Tree) : foldValue f v = v.map (fold f) := by
  cases v <;> simp [foldValue, foldCitations_eq_map, Value.map]

theorem foldPayload_eq_map (p : Payload Tree) : foldPayload f p = p.map (fold f) := by
  induction p with
  | nil => rfl
  | cons entry p ih =>
    simp [foldPayload, foldValue_eq_map, Payload.map] at ih ⊢
    exact ih

/-- A fold applies its step to the folded payload and the folded children. -/
theorem fold_node (kind : Kind) (payload : Payload Tree) (children : List Tree) :
    fold f (node kind payload children) =
      f kind (payload.map (fold f)) (children.map (fold f)) := by
  simp [fold, foldPayload_eq_map, foldList_eq_map]

end Fold

end Tree

end DocFilter
