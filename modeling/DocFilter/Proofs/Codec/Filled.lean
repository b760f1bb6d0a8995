import DocFilter.Proofs.Codec.TreeRoundTrip

/-!
# What a node is written from

A node under edit may hold any children, and values of any sort.  Here is said once what it means that such a
node could be written.

* `Filled` relates the slots of a node and its children to the fields that are written for them, from left to
  right.  The children are used up.
* `Tree.filled_of_written` is the inversion of the writer: what was written is nothing, for a kind without
  slots, or made of the fields of a filled layout.  `Filled.written_eq` is the converse.
* `Tree.Typed` are the trees with values of the right sort, and `Tree.Typed.fails_malformed` says that nothing
  but a refusal keeps such a tree from being written.
-/

namespace DocFilter

/-! ## Filled layouts -/

/-- The fields that are written for slots: each value from the payload, each part and each run from the
children in their order. -/
inductive Filled (kind : Kind) (payload : Payload Tree) : List Slot → List Tree → List Json → Prop
  | nil : Filled kind payload [] [] []
  | value {name codec v field slots ts fields} (found : Entries.find? name payload = some v)
      (written : writeValue codec (v.map Tree.written) = .ok field)
      (rest : Filled kind payload slots ts fields) :
      Filled kind payload (.value name codec :: slots) ts (field :: fields)
  | part {t field slots ts fields} (written : t.written.contents = .ok field)
      (rest : Filled kind payload slots ts fields) :
      Filled kind payload (.part t.kind :: slots) (t :: ts) (field :: fields)
  | run {slot members field slots ts fields} (hrun : slot.isRun)
      (written : writeRun kind slot (members.map Tree.written) = .ok field)
      (rest : Filled kind payload slots ts fields) :
      Filled kind payload (slot :: slots) (members ++ ts) (field :: fields)

section Filled

variable {kind : Kind} {payload : Payload Tree} {children : List Tree} {slots : List Slot}
  {fields : List Json} {slot : Slot} {json : Json}

theorem Filled.length_eq (h : Filled kind payload slots children fields) : fields.length = slots.length := by
  induction h with
  | nil => rfl
  | value _ _ _ ih | part _ _ ih | run _ _ _ ih => simp [ih]

theorem admits_of_writeRun {members : List Tree}
    (h : writeRun kind slot (members.map Tree.written) = .ok json) : ∀ t ∈ members, slot.admits t.kind := by
  obtain ⟨u, hcheck, -⟩ := bind_eq_ok_iff.mp h
  rw [checkRun] at hcheck
  split at hcheck
  · rename_i hnone
    simpa using hnone
  · split at hcheck <;> cases hcheck

/-- A layout is filled by children that are laid out as it asks for. -/
theorem Filled.laidOut (h : Filled kind payload slots children fields) :
    LaidOut slots (children.map Tree.kind) := by
  induction h with
  | nil => exact .nil
  | value _ _ _ ih => exact .value ih
  | part _ _ ih => exact .part ih
  | run hrun written _ ih =>
    rw [List.map_append]
    exact .run hrun (List.forall_mem_map.mpr (admits_of_writeRun written)) ih

/-- The writer goes through the slots as they are filled, where it is told how many children there are. -/
theorem filled_of_writeSlots {runSize : Nat}
    (hcount : children.length = runSize * slots.countP (·.isRun) + slots.countP (·.isPart))
    (h : writeSlots kind (payload.map Tree.written) runSize slots (children.map Tree.written) = .ok fields) :
    Filled kind payload slots children fields := by
  induction slots generalizing children fields with
  | nil =>
    obtain rfl : children = [] := by simpa using hcount
    cases h
    exact .nil
  | cons slot slots ih =>
    rcases slot.run_or with hrun | ⟨name, codec, rfl⟩ | ⟨part, rfl⟩
    · have hpart : slot.isPart = false := Slot.isPart_of_isRun hrun
      simp only [List.countP_cons, hrun, hpart, if_true, Bool.false_eq_true, if_false, Nat.mul_add,
        Nat.mul_one, Nat.add_zero] at hcount
      rw [writeSlots_run hrun, ← List.map_take, ← List.map_drop] at h
      obtain ⟨field, hfield, h⟩ := bind_eq_ok_iff.mp h
      obtain ⟨rest, hrest, heq⟩ := bind_eq_ok_iff.mp h
      cases heq
      have hfilled := ih (by rw [List.length_drop]; omega) hrest
      rw [← List.take_append_drop runSize children]
      exact .run hrun hfield hfilled
    · rw [writeSlots, find?_map] at h
      cases hfind : Entries.find? name payload with
      | none =>
        rw [hfind] at h
        cases h
      | some v =>
        rw [hfind, Option.map_some] at h
        obtain ⟨field, hfield, h⟩ := bind_eq_ok_iff.mp h
        obtain ⟨rest, hrest, heq⟩ := bind_eq_ok_iff.mp h
        cases heq
        rw [List.countP_cons_of_neg (by simp [Slot.isRun]), List.countP_cons_of_neg (by simp [Slot.isPart])] at hcount
        exact .value hfind hfield (ih hcount hrest)
    · cases children with
      | nil => cases h
      | cons t ts =>
        rw [List.map_cons, writeSlots, Tree.kind_written] at h
        split at h
        · rename_i hkind
          subst hkind
          obtain ⟨field, hfield, h⟩ := bind_eq_ok_iff.mp h
          obtain ⟨rest, hrest, heq⟩ := bind_eq_ok_iff.mp h
          cases heq
          rw [List.countP_cons_of_neg (by simp [Slot.isRun]), List.countP_cons_of_pos rfl, List.length_cons] at hcount
          exact .part hfield (ih (by omega) hrest)
        · cases h

/-- The children of a node that could be written are as many as its slots take. -/
theorem Kind.count_children (hne : ¬ (children.length < kind.layout.countP (·.isPart) ∨
      kind.layout.countP (·.isPart) < children.length ∧ kind.run?.isNone)) :
    children.length = (children.length - kind.layout.countP (·.isPart)) * kind.layout.countP (·.isRun) +
      kind.layout.countP (·.isPart) := by
  have hruns := kind.countP_isRun_layout
  by_cases hnone : kind.run?.isNone
  · have heq : children.length = kind.layout.countP (·.isPart) := by
      rcases Nat.lt_trichotomy children.length (kind.layout.countP (·.isPart)) with hlt | heq | hlt
      · exact absurd (.inl hlt) hne
      · exact heq
      · exact absurd (.inr ⟨hlt, hnone⟩) hne
    rw [heq, Nat.sub_self, Nat.zero_mul, Nat.zero_add]
  · have hone : kind.layout.countP (·.isRun) = 1 := by
      have hpos : 0 < kind.layout.countP (·.isRun) := by
        rw [List.countP_pos_iff]
        simpa [Kind.run?] using hnone
      omega
    rw [hone]
    omega

/-- **Inversion.**  What a node could be written as is nothing, for a kind without slots, or made of the fields
that fill its layout. -/
theorem Tree.filled_of_written (h : (Tree.node kind payload children).written.contents = .ok json) :
    kind.layout = [] ∧ json = .null ∨
      kind.layout ≠ [] ∧ ∃ fields, json = .ofFields fields ∧ Filled kind payload kind.layout children fields := by
  rw [Tree.written, Tree.fold_node] at h
  have h : writeContents kind (Payload.map Tree.written payload) (children.map Tree.written) = .ok json := h
  rw [writeContents] at h
  split at h
  · rename_i hempty
    cases h
    exact .inl ⟨by simpa using hempty, rfl⟩
  · rename_i hempty
    split at h
    · cases h
    · rename_i hcount
      rw [List.length_map] at hcount h
      obtain ⟨fields, hfields, h⟩ := bind_eq_ok_iff.mp h
      refine .inr ⟨by simpa using hempty, fields, ?_, filled_of_writeSlots (Kind.count_children hcount) hfields⟩
      rcases fields with _ | ⟨first, _ | ⟨second, rest⟩⟩ <;> cases h <;> rfl

/-- The writer writes the fields that fill the slots, where it is told how many children the run has. -/
theorem Filled.writeSlots_eq {runSize : Nat} (h : Filled kind payload slots children fields)
    (hruns : slots.countP (·.isRun) ≤ 1)
    (hsize : slots.countP (·.isRun) = 1 → runSize + slots.countP (·.isPart) = children.length) :
    writeSlots kind (payload.map Tree.written) runSize slots (children.map Tree.written) = .ok fields := by
  induction h with
  | nil => rfl
  | value found written _ ih =>
    rw [List.countP_cons_of_neg (by simp [Slot.isRun])] at hruns hsize
    rw [List.countP_cons_of_neg (by simp [Slot.isPart])] at hsize
    rw [writeSlots, find?_map, found, Option.map_some]
    simp only [written, ih hruns hsize]
    rfl
  | part written _ ih =>
    rw [List.countP_cons_of_neg (by simp [Slot.isRun])] at hruns hsize
    rw [List.countP_cons_of_pos rfl, List.length_cons] at hsize
    have hrest := ih hruns fun hone => by
      have hsum := hsize hone
      omega
    rw [List.map_cons, writeSlots, Tree.kind_written, if_pos rfl, written, hrest]
    rfl
  | @run slot members field slots ts fields hrun written rest ih =>
    have hpart : slot.isPart = false := Slot.isPart_of_isRun hrun
    have hcount : (slot :: slots).countP (·.isRun) = slots.countP (·.isRun) + 1 := List.countP_cons_of_pos hrun
    rw [hcount] at hruns hsize
    rw [List.countP_cons_of_neg (by simp [hpart]), List.length_append] at hsize
    have hnone : slots.countP (·.isRun) = 0 := by omega
    have hmembers : runSize = members.length := by
      have hlength := rest.laidOut.length_of_no_run hnone
      have hsum := hsize (by omega)
      rw [List.length_map] at hlength
      omega
    have hrest := ih (by omega) fun hone => by omega
    rw [writeSlots_run hrun, List.map_append, List.take_left' (by rw [List.length_map, hmembers]),
      List.drop_left' (by rw [List.length_map, hmembers]), written, hrest]
    rfl

/-- A node whose layout is filled is written as the fields. -/
theorem Filled.written_eq (h : Filled kind payload kind.layout children fields) (hne : kind.layout ≠ []) :
    (Tree.node kind payload children).written.contents = .ok (.ofFields fields) := by
  rw [Tree.written, Tree.fold_node]
  show writeContents kind (Payload.map Tree.written payload) (children.map Tree.written) = _
  refine writeContents_of_laidOut (by simpa [Function.comp_def] using h.laidOut) hne ?_
  refine h.writeSlots_eq kind.countP_isRun_layout fun _ => ?_
  have hparts := h.laidOut.length_bounds.1
  rw [List.length_map] at hparts ⊢
  omega

end Filled

/-! ## Values of the right sort -/

/-- A tree whose values have the sort that their slots ask for, at every node and inside citations too.  A
value may be missing, and the children are free. -/
inductive Tree.Typed : Tree → Prop
  | node {kind payload children}
      (values : ∀ name codec v, .value name codec ∈ kind.layout → Entries.find? name payload = some v →
        codec.Takes v)
      (inside : ∀ t ∈ Payload.nodes (kind.arrange payload), Typed t) (below : ∀ t ∈ children, Typed t) :
      Typed (.node kind payload children)

/-- The nodes in the value of a slot are among those of the payload. -/
theorem Kind.mem_nodes_arrange {kind : Kind} {payload : Payload Tree} {name : String} {codec : Codec}
    {v : Value Tree} (hslot : .value name codec ∈ kind.layout) (hfind : Entries.find? name payload = some v) :
    ∀ t ∈ v.nodes, t ∈ Payload.nodes (kind.arrange payload) := by
  intro t ht
  have hname : name ∈ kind.payloadNames := List.mem_filterMap.mpr ⟨_, hslot, rfl⟩
  refine List.mem_flatMap.mpr ⟨(name, v), List.mem_filterMap.mpr ⟨name, hname, ?_⟩, ht⟩
  rw [hfind]
  rfl

/-- A node of a kind without values has values of the right sort. -/
theorem Tree.typed_of_no_values {kind : Kind} {payload : Payload Tree} {children : List Tree}
    (hnames : kind.payloadNames = []) (below : ∀ t ∈ children, t.Typed) :
    (Tree.node kind payload children).Typed := by
  refine .node (fun name codec v hslot _ => ?_) ?_ below
  · have hname : name ∈ kind.payloadNames := List.mem_filterMap.mpr ⟨_, hslot, rfl⟩
    rw [hnames] at hname
    cases hname
  · rw [Kind.arrange, hnames]
    exact fun t ht => by cases ht

/-! ## Refusals -/

/-- A refusal for a cause in the data or in the tree. -/
def CodecError.IsMalformed (e : CodecError) : Prop := ∃ cause, e = .malformed cause

section Fails

variable {kind : Kind} {payload : Payload Tree} {codec : Codec} {v : Value Tree} {ws : List Written} {w : Written}

theorem fails_of_malformed {α : Type} (cause : Malformed) :
    FailsOnly CodecError.IsMalformed (malformed cause : Except CodecError α) := .error ⟨cause, rfl⟩

theorem Written.fails_node (h : FailsOnly CodecError.IsMalformed w.contents) :
    FailsOnly CodecError.IsMalformed w.node := by
  rw [Written.node]
  split
  · exact fails_of_malformed _
  · split
    · exact .ok
    · exact h.bind fun _ _ => .ok

theorem fails_writeRun {slot : Slot} (h : ∀ w ∈ ws, FailsOnly CodecError.IsMalformed w.contents) :
    FailsOnly CodecError.IsMalformed (writeRun kind slot ws) := by
  have hcheck : FailsOnly CodecError.IsMalformed (checkRun kind slot ws) := by
    rw [checkRun]
    split
    · exact .ok
    · split <;> exact fails_of_malformed _
  refine hcheck.bind fun _ _ => ?_
  split
  · exact (FailsOnly.mapM h).map
  · exact (FailsOnly.mapM fun w hw => Written.fails_node (h w hw)).map

theorem fails_writeCitation {c : Citation Tree}
    (h : ∀ t ∈ c.before ++ c.after, FailsOnly CodecError.IsMalformed t.written.contents) :
    FailsOnly CodecError.IsMalformed (writeCitation (c.map Tree.written)) := by
  have hside : ∀ side : List Tree, (∀ t ∈ side, t ∈ c.before ++ c.after) →
      FailsOnly CodecError.IsMalformed ((side.map Tree.written).mapM Written.node) := fun side hsub =>
    .mapM (List.forall_mem_map.mpr fun t ht => Written.fails_node (h t (hsub t ht)))
  exact (hside c.before fun t ht => List.mem_append_left _ ht).bind fun _ _ =>
    (hside c.after fun t ht => List.mem_append_right _ ht).bind fun _ _ => .ok

/-- A value of the right sort is written unless a node inside it is refused. -/
theorem Codec.Takes.fails_malformed (h : codec.Takes v)
    (hinside : ∀ t ∈ v.nodes, FailsOnly CodecError.IsMalformed t.written.contents) :
    FailsOnly CodecError.IsMalformed (writeValue codec (v.map Tree.written)) := by
  cases h with
  | floatList widths =>
    rw [Value.map, writeValue]
    simp only [iterate?, writeWidths_floats]
    exact .ok
  | @citations cs modes =>
    refine (FailsOnly.mapM (List.forall_mem_map.mpr fun c hc => ?_)).map
    exact fails_writeCitation fun t ht => hinside t (List.mem_flatMap.mpr ⟨c, hc, ht⟩)
  | _ => exact .ok

theorem fails_writeSlots {runSize : Nat} {slots : List Slot} (hslots : ∀ slot ∈ slots, slot ∈ kind.layout)
    (hvalues : ∀ name codec v, .value name codec ∈ kind.layout → Entries.find? name payload = some v →
      FailsOnly CodecError.IsMalformed (writeValue codec (v.map Tree.written)))
    (h : ∀ w ∈ ws, FailsOnly CodecError.IsMalformed w.contents) :
    FailsOnly CodecError.IsMalformed (writeSlots kind (payload.map Tree.written) runSize slots ws) := by
  induction slots generalizing ws with
  | nil => exact .ok
  | cons slot slots ih =>
    obtain ⟨hslot, hlater⟩ := List.forall_mem_cons.mp hslots
    rcases slot.run_or with hrun | ⟨name, codec, rfl⟩ | ⟨part, rfl⟩
    · rw [writeSlots_run hrun]
      exact (fails_writeRun fun w hw => h w (List.mem_of_mem_take hw)).bind fun _ _ =>
        (ih hlater fun w hw => h w (List.mem_of_mem_drop hw)).bind fun _ _ => .ok
    · rw [writeSlots, find?_map]
      cases hfind : Entries.find? name payload with
      | none => exact fails_of_malformed _
      | some v => exact (hvalues name codec v hslot hfind).bind fun _ _ => (ih hlater h).bind fun _ _ => .ok
    · cases ws with
      | nil => exact fails_of_malformed _
      | cons w ws =>
        obtain ⟨hfirst, hrest⟩ := List.forall_mem_cons.mp h
        rw [writeSlots]
        split
        · exact hfirst.bind fun _ _ => (ih hlater hrest).bind fun _ _ => .ok
        · exact fails_of_malformed _

/-- Nothing but a refusal keeps a tree with values of the right sort from being written. -/
theorem Tree.Typed.fails_malformed {t : Tree} (h : t.Typed) :
    FailsOnly CodecError.IsMalformed t.written.contents := by
  induction h with
  | @node kind payload children values inside below ihInside ihBelow =>
    rw [Tree.written, Tree.fold_node]
    show FailsOnly _ (writeContents kind (Payload.map Tree.written payload) (children.map Tree.written))
    rw [writeContents]
    split
    · exact .ok
    · split
      · exact fails_of_malformed _
      · refine (fails_writeSlots (fun _ h => h) (fun name codec v hslot hfind => ?_)
          (List.forall_mem_map.mpr ihBelow)).bind fun fields _ => ?_
        · exact (values name codec v hslot hfind).fails_malformed fun t ht =>
            ihInside t (Kind.mem_nodes_arrange hslot hfind t ht)
        · split <;> exact .ok

end Fails

end DocFilter
