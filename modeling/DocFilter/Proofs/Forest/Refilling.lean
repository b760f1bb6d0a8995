import DocFilter.Forest.Content
import DocFilter.Forest.Reading
import DocFilter.Proofs.Codec.NoWorse
import DocFilter.Proofs.Forest.Standing
import DocFilter.Proofs.Markup.Spacing

/-!
# A node with new children

What becomes of a forest when a node gets new children from markup.

* `Markup.bare_of_contentFor`, `Markup.admits_of_contentFor` and `Markup.succeeds_of_contentFor` say of the trees
  that a text gives to a kind that they are fit for it.
* `Forest.Refilled` says what the forest is afterwards: new nodes stand for these trees, and nothing else has
  changed.  `Forest.setContent_eq_ok_iff` says when it is done, and `Forest.setContent_of_error` that nothing has
  changed otherwise.
* `Forest.setContent_again` is about markup that is read off a node and given to it again.
-/

namespace DocFilter

open Markup Text

/-! ## The trees of a text -/

namespace Markup

variable {kind : Kind} {text : String} {trees : List Tree} {cs p : List Char}

/-- A paragraph begins and ends with a word. -/
def WordsAtEnds (t : Tree) : Prop := t.kind = .para → ∃ first last, t.children.head? = some first ∧
  t.children.getLast? = some last ∧ first.kind = .str ∧ last.kind = .str

theorem bare_inline (t : Token) : t.inline.Bare WordsAtEnds := by
  have hnone : ∀ e ∈ ([] : Payload Tree), ∃ v, e.2 = .data v := List.forall_mem_nil _
  cases t with
  | lineBreak => exact .node hnone nofun (List.forall_mem_nil _)
  | blanks => exact .node hnone nofun (List.forall_mem_nil _)
  | word cs => exact .node (List.forall_mem_singleton.mpr ⟨_, rfl⟩) nofun (List.forall_mem_nil _)

theorem bare_paragraph (hp : p ∈ pieces cs) : (paragraph p).Bare WordsAtEnds := by
  obtain ⟨hne, hhead, hlast⟩ := ends_of_mem_pieces hp
  obtain ⟨w, more, -, hfirst⟩ := exists_word_head hhead hne
  obtain ⟨before, v, -, htokens⟩ := exists_word_getLast hhead hlast hne
  refine .node (List.forall_mem_nil _) (fun _ => ⟨(Token.word w).inline, (Token.word v).inline, ?_, ?_, rfl, rfl⟩)
    (List.forall_mem_map.mpr fun t _ => bare_inline t)
  · change ((tokens p).map Token.inline).head? = _
    rw [hfirst]
    rfl
  · change ((tokens p).map Token.inline).getLast? = _
    rw [htokens]
    simp

theorem bare_of_contentFor (h : contentFor kind text = .ok trees) : ∀ t ∈ trees, t.Bare WordsAtEnds := by
  rcases contentFor_eq_ok_iff.mp h with ⟨-, rfl⟩ | ⟨-, ⟨-, rfl⟩ | ⟨p, -, rfl⟩⟩
  · exact List.forall_mem_map.mpr fun p hp => bare_paragraph hp
  · exact List.forall_mem_nil _
  · exact List.forall_mem_map.mpr fun t _ => bare_inline t

theorem admits_inline (t : Token) : Slot.inlines.admits t.inline.kind := by
  cases t <;> rfl

theorem succeeds_inline (t : Token) : Succeeds t.inline.written.node := by
  cases t <;> exact ⟨_, rfl⟩

theorem succeeds_paragraph (p : List Char) : Succeeds (paragraph p).written.node := by
  have hempty : Succeeds (Written.of .para (Payload.map Tree.written []) []).contents := ⟨_, rfl⟩
  have hcontents : Succeeds (Written.of .para (Payload.map Tree.written []) (((tokens p).map Token.inline).map
      Tree.written)).contents := by
    refine Written.succeeds_of_run rfl (.inl rfl) (List.forall_mem_nil _) hempty ?_
    rw [List.map_map, List.forall_mem_map]
    exact fun t _ => ⟨by cases t <;> rfl, succeeds_inline t⟩
  rw [paragraph, Tree.make, Tree.written, Tree.fold_node, Written.succeeds_node_iff]
  exact ⟨rfl, .inr hcontents⟩

/-- The nodes that a text gives to a kind fit its run and can be written. -/
theorem fit_of_contentFor (h : contentFor kind text = .ok trees) : ∃ run, kind.run? = some run ∧
    (run = .inlines ∨ run = .blocks) ∧ ∀ t ∈ trees, run.admits t.kind ∧ Succeeds t.written.node := by
  rcases contentFor_eq_ok_iff.mp h with ⟨hrun, rfl⟩ | ⟨hrun, ⟨-, rfl⟩ | ⟨p, -, rfl⟩⟩
  · exact ⟨_, hrun, .inr rfl, List.forall_mem_map.mpr fun p _ => ⟨rfl, succeeds_paragraph p⟩⟩
  · exact ⟨_, hrun, .inl rfl, List.forall_mem_nil _⟩
  · exact ⟨_, hrun, .inl rfl, List.forall_mem_map.mpr fun t _ => ⟨admits_inline t, succeeds_inline t⟩⟩

end Markup

namespace Forest

variable {f f' : Forest} {n m : NodeId} {text : String} {trees : List Tree} {t : Tree}

/-! ## The steps -/

theorem cell_adoptAll (p : NodeId) (ns : List NodeId) (m : NodeId) :
    ∃ holder, (f.adoptAll p ns).cell m = { f.cell m with holder := holder } := by
  induction ns generalizing f with
  | nil => exact ⟨(f.cell m).holder, rfl⟩
  | cons c ns ih =>
    obtain ⟨holder, hcell⟩ := ih (f := f.adopt p c)
    rw [adoptAll_cons, hcell, adopt, setHolder, cell_update]
    split_ifs with hm
    · exact ⟨holder, by rw [hm.1]⟩
    · exact ⟨holder, rfl⟩

theorem calling_eq_ok_iff {α : Type} {operation : String} (h : stepNames operation = [operation])
    {result : Except Failure α} {a : α} : f.calling n operation result = .ok a ↔
      Entries.has operation (f.cell n).extras = false ∧ result = .ok a := by
  rw [calling, h, List.any_cons, List.any_nil, Bool.or_false]
  cases Entries.has operation (f.cell n).extras with
  | true => exact iff_of_false nofun fun h => Bool.noConfusion h.1
  | false => exact (and_iff_right rfl).symm

/-- A node can be made the holder of its children unless something was written in the place of the operation or, if
there are children, of its step. -/
theorem callAdoptChildren_eq_ok_iff : f.callAdoptChildren n = .ok f' ↔
    Entries.has "adopt_children" (f.cell n).extras = false ∧
      (f.children n = [] ∨ Entries.has "_adopt" (f.cell n).extras = false) ∧ f' = f.adoptChildren n := by
  rw [callAdoptChildren, calling_eq_ok_iff rfl]
  refine and_congr_right' ?_
  cases hchildren : f.children n with
  | nil =>
    have hself : f.adoptChildren n = f := by rw [adoptChildren, hchildren]; rfl
    rw [hself, List.isEmpty_nil, if_pos rfl, Except.ok.injEq]
    exact ⟨fun h => ⟨.inl rfl, h.symm⟩, fun h => h.2.symm⟩
  | cons c cs =>
    rw [List.isEmpty_cons, if_neg Bool.false_ne_true, calling_eq_ok_iff rfl, Except.ok.injEq]
    exact ⟨fun h => ⟨.inr h.1, h.2.symm⟩, fun h => ⟨h.1.resolve_left (List.cons_ne_nil c cs), h.2.symm⟩⟩

section Steps

variable {α β : Type}

theorem run_get_bind (g : Forest → Steps α) (f : Forest) : (get >>= g).run f = (g f).run f := rfl

theorem run_set_bind (g : PUnit → Steps α) (f f' : Forest) : (set f' >>= g).run f = (g ⟨⟩).run f' := rfl

theorem run_ofExcept_bind (x : Except Failure α) (g : α → Steps β) (f : Forest) :
    (ofExcept x >>= g).run f = match x with
      | .ok a => (g a).run f
      | .error e => (.error e, f) := by
  cases x <;> rfl

end Steps

/-- A forest in which a node has trees as its children, as new nodes without holders. -/
def withLoose (f : Forest) (n : NodeId) (trees : List Tree) : Forest :=
  (f.plantLoose trees).2.setChildren n (f.plantLoose trees).1

theorem setContent_of_error {e : ContentError} (h : contentFor (f.kind n) text = .error e) :
    f.setContent n text = (.error (.content e), f) := by
  rw [setContent, contentSteps, run_get_bind, h]
  rfl

theorem setContent_of_ok (h : contentFor (f.kind n) text = .ok trees) :
    f.setContent n text = match (f.withLoose n trees).callAdoptChildren n with
      | .ok f' => (.ok (), f')
      | .error e => (.error e, f.withLoose n trees) := by
  rw [setContent, contentSteps, run_get_bind, h]
  change ((do set (f.withLoose n trees); set (← ofExcept ((← get).callAdoptChildren n)) : Steps Unit).run f) = _
  rw [run_set_bind, run_get_bind, run_ofExcept_bind]
  cases (f.withLoose n trees).callAdoptChildren n <;> rfl

theorem setContent_eq_ok_iff : f.setContent n text = (.ok (), f') ↔ ∃ trees,
    contentFor (f.kind n) text = .ok trees ∧ (f.withLoose n trees).callAdoptChildren n = .ok f' := by
  cases h : contentFor (f.kind n) text with
  | error e =>
    rw [setContent_of_error h]
    exact iff_of_false nofun nofun
  | ok trees =>
    rw [setContent_of_ok h]
    cases hadopt : (f.withLoose n trees).callAdoptChildren n with
    | error e =>
      refine iff_of_false nofun ?_
      rintro ⟨_, heq, hok⟩
      obtain rfl := Except.ok.inj heq
      exact nomatch hadopt.symm.trans hok
    | ok g =>
      constructor
      · intro heq
        obtain rfl := (Prod.mk.inj heq).2
        exact ⟨trees, rfl, hadopt⟩
      · rintro ⟨_, heq, hok⟩
        obtain rfl := Except.ok.inj heq
        rw [Except.ok.inj (hadopt.symm.trans hok)]

/-! ## The forest afterwards -/

/-- A node has got some trees as its children: new nodes stand for them and have the node as their holder, and
nothing else has changed. -/
structure Refilled (f : Forest) (n : NodeId) (trees : List Tree) (f' : Forest) : Prop where
  grows : f.size ≤ f'.size
  others : ∀ m, f.Has m → m ≠ n → f'.cell m = f.cell m
  own : f'.cell n = { f.cell n with children := f'.children n }
  held : ∀ c ∈ f'.children n, ¬ f.Has c ∧ f'.Has c ∧ f'.holder? c = some n
  stands : List.Forall₂ (f'.Stands f.size) (f'.children n) trees
  each : ∀ m, f'.Has m → ¬ f.Has m → ∃ t, WordsAtEnds t ∧ f'.Stands f.size m t

theorem Refilled.kind_own (h : f.Refilled n trees f') : f'.kind n = f.kind n := by
  rw [Forest.kind, h.own]
  rfl

theorem Refilled.extras_own (h : f.Refilled n trees f') : (f'.cell n).extras = (f.cell n).extras := by
  rw [h.own]

theorem Refilled.has (h : f.Refilled n trees f') (hm : f.Has m) : f'.Has m := Nat.lt_of_lt_of_le hm h.grows

/-- The children are put in place before the node becomes their holder. -/
theorem withLoose_cell (hn : f.Has n) (hbare : ∀ t ∈ trees, t.Bare WordsAtEnds) :
    (f.withLoose n trees).cell n = { f.cell n with children := (f.plantLoose trees).1 } := by
  have hlaid := laid_plantLoose hbare (Nat.le_refl f.size)
  rw [withLoose, setChildren, cell_update, if_pos ⟨rfl, hlaid.has hn⟩, hlaid.kept n hn]

theorem refilled_withLoose (hn : f.Has n) (hbare : ∀ t ∈ trees, t.Bare WordsAtEnds) :
    f.Refilled n trees ((f.withLoose n trees).adoptChildren n) := by
  have hlaid := laid_plantLoose hbare (Nat.le_refl f.size)
  have hcell := withLoose_cell hn hbare
  have hchildren : (f.withLoose n trees).children n = (f.plantLoose trees).1 := by rw [Forest.children, hcell]
  rw [adoptChildren, hchildren]
  rw [withLoose] at hcell hchildren ⊢
  generalize hns : (f.plantLoose trees).1 = ns at hlaid hcell hchildren ⊢
  generalize hg : (f.plantLoose trees).2 = g at hlaid hcell hchildren ⊢
  have hout : ∀ m, f.Has m → m ∉ ns := fun m hm hmem => (hlaid.fresh m hmem).1 hm
  have hself : ((g.setChildren n ns).adoptAll n ns).children n = ns := by rw [children_adoptAll, hchildren]
  have hlike : AlikeFrom f.size g ((g.setChildren n ns).adoptAll n ns) := by
    intro m hm _
    have hne : ¬ (m = n ∧ g.Has n) := fun h => absurd hn (Nat.not_lt.mpr (h.1 ▸ hm))
    obtain ⟨holder, hholder⟩ := cell_adoptAll (f := g.setChildren n ns) n ns m
    rw [hholder, setChildren, cell_update, if_neg hne]
    exact ⟨holder, rfl⟩
  have hhas : ∀ m, ((g.setChildren n ns).adoptAll n ns).Has m ↔ g.Has m := fun m => by
    rw [has_adoptAll, has_setChildren]
  refine ⟨?_, fun m hm hne => ?_, ?_, ?_, ?_, fun m hm hnot => ?_⟩
  · by_contra hsize
    have hlast : f.Has ⟨((g.setChildren n ns).adoptAll n ns).size⟩ := Nat.lt_of_not_le hsize
    exact Nat.lt_irrefl _ ((hhas _).mpr (hlaid.has hlast))
  · rw [cell_adoptAll_of_not_mem (hout m hm), setChildren, cell_update, if_neg fun h => hne h.1, hlaid.kept m hm]
  · rw [hself, cell_adoptAll_of_not_mem (hout n hn), hcell]
  · rw [hself]
    intro c hc
    obtain ⟨hnot, hhas'⟩ := hlaid.fresh c hc
    refine ⟨hnot, (hhas c).mpr hhas', ?_⟩
    rw [holder?_adoptAll, if_pos ⟨hc, (has_setChildren ns).mpr hhas'⟩]
  · rw [hself]
    exact forall₂_imp_mem hlaid.stands fun c hc _ _ hstands => hstands.kept (hlaid.fresh c hc).2 hlike
  · rw [hhas] at hm
    obtain ⟨t, ht, hstands⟩ := hlaid.each m hm hnot
    exact ⟨t, ht, hstands.kept hm hlike⟩

/-- When a node gets new children, and what is left. -/
theorem setContent_iff (hn : f.Has n) : f.setContent n text = (.ok (), f') ↔ ∃ trees,
    contentFor (f.kind n) text = .ok trees ∧ Entries.has "adopt_children" (f.cell n).extras = false ∧
      (trees = [] ∨ Entries.has "_adopt" (f.cell n).extras = false) ∧
      f' = (f.withLoose n trees).adoptChildren n := by
  rw [setContent_eq_ok_iff]
  refine exists_congr fun trees => and_congr_right fun h => ?_
  have hbare := bare_of_contentFor h
  have hcell := withLoose_cell hn hbare
  have hlength := (laid_plantLoose hbare (Nat.le_refl f.size)).stands.length_eq
  have hnil : (f.withLoose n trees).children n = [] ↔ trees = [] := by
    rw [Forest.children, hcell, ← List.length_eq_zero_iff, hlength, List.length_eq_zero_iff]
  rw [callAdoptChildren_eq_ok_iff, hnil, hcell]

theorem exists_refilled (hn : f.Has n) (h : f.setContent n text = (.ok (), f')) :
    ∃ trees, contentFor (f.kind n) text = .ok trees ∧ f.Refilled n trees f' := by
  obtain ⟨trees, htrees, -, -, rfl⟩ := (setContent_iff hn).mp h
  exact ⟨trees, htrees, refilled_withLoose hn (bare_of_contentFor htrees)⟩

/-! ## Markup -/

theorem Stands.fragment_eq {low : Nat} (h : f.Stands low n t) (hn : f.Has n) : f.fragment n = t.fragment := by
  refine h.foldWithin_eq (fun m payload children hextras => ?_) ?_ (List.forall_mem_nil _)
  · rw [hextras]
    rfl
  · have hlow := h.low_le
    have hsize : n.index < f.size := hn
    omega

theorem Refilled.markup_eq (h : f.Refilled n trees f') : f'.markup n = (Markup.render trees).mapError .plainText := by
  have hfragments : (f'.children n).map f'.fragment = trees.map Tree.fragment := by
    rw [← List.forall₂_eq_eq_eq, List.forall₂_map_left_iff, List.forall₂_map_right_iff]
    exact forall₂_imp_mem h.stands fun c hc t _ hstands => hstands.fragment_eq (h.held c hc).2.1
  rw [Forest.markup, childFragments, hfragments, Markup.render]

/-- The markup of a node that has got a text. -/
theorem markup_of_setContent (hn : f.Has n) (h : f.setContent n text = (.ok (), f')) :
    f'.markup n = .ok (String.ofList (shown text.toList)) := by
  obtain ⟨trees, htrees, hrefilled⟩ := exists_refilled hn h
  rw [hrefilled.markup_eq, render_of_contentFor htrees, render_of_parse]
  rfl

/-- A node that has got a text can be given its markup. -/
theorem exists_setContent (hn : f.Has n) (h : f.setContent n text = (.ok (), f')) :
    ∃ f'', f'.setContent n (String.ofList (shown text.toList)) = (.ok (), f'') := by
  obtain ⟨trees, htrees, hown, hstep, rfl⟩ := (setContent_iff hn).mp h
  have hrefilled := refilled_withLoose hn (bare_of_contentFor htrees)
  obtain ⟨trees', htrees', hnil⟩ := contentFor_shown htrees
  refine ⟨_, (setContent_iff (hrefilled.has hn)).mpr ⟨trees', ?_, ?_, ?_, rfl⟩⟩
  · rw [hrefilled.kind_own, htrees']
  · rw [hrefilled.extras_own, hown]
  · rw [hrefilled.extras_own, hnil]
    exact hstep

/-- A node that has got a text, and then its own markup again and again: each time this can be done, and from the
second time on the markup stays the same.  It is the same as the first time exactly if no gap within a paragraph of
the text is doubled. -/
theorem setContent_again (hn : f.Has n) (h : f.setContent n text = (.ok (), f')) :
    ∃ (first second : String) (f₂ f₃ : Forest), f'.markup n = .ok first ∧ f'.setContent n first = (.ok (), f₂) ∧
      f₂.markup n = .ok second ∧ f₂.setContent n second = (.ok (), f₃) ∧ f₃.markup n = .ok second ∧
      (second = first ↔ ∀ g, Gap g text.toList → Breaks g ∨ ¬ Doubled g) := by
  obtain ⟨first, second, hfirst, hsecond, hthird, hiff⟩ := render_again text
  rw [render_of_parse, Except.ok.injEq] at hfirst hsecond hthird
  obtain ⟨_, -, hrefilled⟩ := exists_refilled hn h
  have hn' := hrefilled.has hn
  obtain ⟨f₂, h₂⟩ := exists_setContent hn h
  obtain ⟨_, -, hrefilled₂⟩ := exists_refilled hn' h₂
  obtain ⟨f₃, h₃⟩ := exists_setContent hn' h₂
  have hmarkup := markup_of_setContent hn h
  have hmarkup₂ := markup_of_setContent hn' h₂
  have hmarkup₃ := markup_of_setContent (hrefilled₂.has hn') h₃
  rw [hfirst] at h₂ hmarkup
  rw [hfirst, hsecond] at hmarkup₂ h₃
  rw [hfirst, hsecond, hthird] at hmarkup₃
  exact ⟨first, second, f₂, f₃, hmarkup, h₂, hmarkup₂, h₃, hmarkup₃, hiff⟩

/-- A division without content. -/
def division : Forest := ⟨#[{ kind := .div }]⟩

/-- Spaces on both sides of a line break. -/
theorem setContent_again_division : division.Has ⟨0⟩ ∧ ∃ (first second : String) (f' f₂ : Forest),
    division.setContent ⟨0⟩ "a \n b" = (.ok (), f') ∧ f'.markup ⟨0⟩ = .ok first ∧
      f'.setContent ⟨0⟩ first = (.ok (), f₂) ∧ f₂.markup ⟨0⟩ = .ok second ∧ second ≠ first := by
  have hhas : division.Has ⟨0⟩ := by decide
  have hset := (setContent_iff hhas).mpr ⟨_, contentFor_blocks rfl "a \n b", rfl, .inr rfl, rfl⟩
  obtain ⟨first, second, f₂, f₃, hfirst, hset₂, hsecond, -, -, hiff⟩ := setContent_again hhas hset
  refine ⟨hhas, first, second, _, f₂, hset, hfirst, hset₂, hsecond, fun heq => ?_⟩
  have hgap : Gap [' ', '\n', ' '] "a \n b".toList := ⟨[], 'a', 'b', [], by decide, by decide, by decide, by decide,
    List.all_eq_true.mp rfl⟩
  have hrun : ¬ ∀ c ∈ ['\n', ' '], c = ' ' ∨ c = '\t' := fun h => absurd (h '\n' List.mem_cons_self) (by decide)
  have hdoubled : Doubled [' ', '\n', ' '] := ⟨[' '], '\n', [], ' ', [], rfl, .inl rfl, .inr (.inl rfl), hrun⟩
  rcases hiff.mp heq _ hgap with hbreaks | hnot
  · exact absurd hbreaks (by decide)
  · exact hnot hdoubled

end Forest

end DocFilter
