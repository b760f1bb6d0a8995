import DocFilter.Forest.Value

/-!
# New children from markup

A node gets new children from a text. This is done in steps on the forest: where a step stops, so does the
whole, and the forest is as the steps before left it.
-/

namespace DocFilter.Forest

/-- Steps on a forest that may stop. -/
abbrev Steps := ExceptT Failure (StateM Forest)

/-- Gives a node new children made from markup, step by step. The text is fitted to the kind of the node before
anything is changed. -/
def contentSteps (n : NodeId) (text : String) : Steps Unit := do
  let f ← get
  let trees ← ofExcept ((Markup.contentFor (f.kind n) text).mapError Failure.content)
  let (children, f) := f.plantLoose trees
  set (f.setChildren n children)
  set (← ofExcept ((← get).callAdoptChildren n))

/-- Gives a node new children made from markup; the result, and the forest that is left. -/
def setContent (f : Forest) (n : NodeId) (text : String) : Except Failure Unit × Forest :=
  (contentSteps n text).run f

end DocFilter.Forest
