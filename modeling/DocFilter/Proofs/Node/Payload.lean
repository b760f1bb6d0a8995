import DocFilter.Node.Payload

/-!
# Maps over payloads

A map over a citation, a value or a payload looks only at the nodes in it, so two maps that agree on these
nodes give the same.
-/

namespace DocFilter

variable {ν μ : Type} {f g : ν → μ}

theorem Citation.map_congr {c : Citation ν} (h : ∀ n ∈ c.before ++ c.after, f n = g n) : c.map f = c.map g := by
  have hbefore : c.before.map f = c.before.map g :=
    List.map_congr_left fun n hn => h n (List.mem_append_left _ hn)
  have hafter : c.after.map f = c.after.map g :=
    List.map_congr_left fun n hn => h n (List.mem_append_right _ hn)
  rw [Citation.map, hbefore, hafter, Citation.map]

theorem Value.map_congr {v : Value ν} (h : ∀ n ∈ v.nodes, f n = g n) : v.map f = v.map g := by
  cases v with
  | citations cs =>
    have hcs : cs.map (·.map f) = cs.map (·.map g) := List.map_congr_left fun c hc =>
      Citation.map_congr fun n hn => h n (List.mem_flatMap.mpr ⟨c, hc, hn⟩)
    rw [Value.map, hcs, Value.map]
  | _ => rfl

theorem Payload.map_congr {payload : Payload ν} (h : ∀ n ∈ Payload.nodes payload, f n = g n) :
    Payload.map f payload = Payload.map g payload := by
  refine List.map_congr_left fun entry hentry => ?_
  rw [Value.map_congr fun n hn => h n (List.mem_flatMap.mpr ⟨entry, hentry, hn⟩)]

theorem Value.map_id (v : Value ν) : v.map id = v := by
  cases v with
  | citations cs => simp [Value.map, Citation.map]
  | _ => rfl

theorem Payload.map_id (payload : Payload ν) : Payload.map id payload = payload := by
  refine (List.map_congr_left fun entry _ => ?_).trans (List.map_id payload)
  rw [Value.map_id]
  rfl

/-- A map that leaves the nodes of a payload as they are leaves the payload as it is. -/
theorem Payload.map_eq_self {f : ν → ν} {payload : Payload ν} (h : ∀ n ∈ Payload.nodes payload, f n = n) :
    Payload.map f payload = payload :=
  (Payload.map_congr h).trans (Payload.map_id payload)

end DocFilter
