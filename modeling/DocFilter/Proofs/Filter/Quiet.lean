import DocFilter.Proofs.Filter.Calls
import DocFilter.Proofs.Filter.Refinement
import DocFilter.Proofs.Selector.Declared
import DocFilter.Proofs.Walk.Preorder
import Mathlib.Data.List.NodupEquivFin

/-!
# Runs that leave the tree as it is

If no action edits the tree or asks for the end, then the tree alone says which calls a run makes: for each
node that is no part, in the order of the tree, one of each rule whose selector holds there.  This takes a root
without a mark of replacement, for a run follows the mark of the node it visits, and the walk drops old marks only
below the root.

* `Filter.Quiet` says that an action leaves the tree and the place of the run as they are.
* `Filter.schedule` are the calls that the tree asks for.
* `Filter.Arrives` is the invariant of a run at a node, and `Filter.Arrives.onward` the step to the next one.
* `Filter.Carries` says that some calls are those of a plan, up to the first that fails.
* `Filter.carries_schedule` is the result on whole runs, `Filter.calls_outplaced` a run over a root with a mark.
-/

namespace DocFilter

namespace Filter

open Forest Walker

variable {σ : Type} {f₀ : Forest} {root n x p : NodeId} {order before after rest nodes : List NodeId}
  {rules : List (Selector × Rule σ)} {w w' : Walker} {c c' d : Context σ} {calls : List (Call σ)}
  {current : Option NodeId}

/-! ## Actions that leave the tree alone -/

/-- Nothing that a run looks at has changed: the tree, the records of the walk in it, and where the run is. -/
structure Unedited (c c' : Context σ) : Prop where
  history : c'.history = c.history
  standIn : c'.standIn = c.standIn
  stopRequested : c'.stopRequested = c.stopRequested
  grows : c.forest.size ≤ c'.forest.size
  kind : ∀ n, c.forest.Has n → c'.forest.kind n = c.forest.kind n
  children : ∀ n, c.forest.Has n → c'.forest.children n = c.forest.children n
  holder : ∀ n, c.forest.Has n → c'.forest.holder? n = c.forest.holder? n
  replacement : ∀ n, c.forest.Has n → c'.forest.replacement? n = c.forest.replacement? n

theorem Unedited.refl (c : Context σ) : Unedited c c :=
  ⟨rfl, rfl, rfl, Nat.le_refl _, fun _ _ => rfl, fun _ _ => rfl, fun _ _ => rfl, fun _ _ => rfl⟩

theorem Unedited.report (record : Log.Record) (c : Context σ) : Unedited c (c.report record) :=
  ⟨rfl, rfl, rfl, Nat.le_refl _, fun _ _ => rfl, fun _ _ => rfl, fun _ _ => rfl, fun _ _ => rfl⟩

theorem Unedited.trans {c'' : Context σ} (h : Unedited c c') (h' : Unedited c' c'') : Unedited c c'' where
  history := h'.history.trans h.history
  standIn := h'.standIn.trans h.standIn
  stopRequested := h'.stopRequested.trans h.stopRequested
  grows := Nat.le_trans h.grows h'.grows
  kind := fun n hn => (h'.kind n (Nat.lt_of_lt_of_le hn h.grows)).trans (h.kind n hn)
  children := fun n hn => (h'.children n (Nat.lt_of_lt_of_le hn h.grows)).trans (h.children n hn)
  holder := fun n hn => (h'.holder n (Nat.lt_of_lt_of_le hn h.grows)).trans (h.holder n hn)
  replacement := fun n hn => (h'.replacement n (Nat.lt_of_lt_of_le hn h.grows)).trans (h.replacement n hn)

theorem unedited_heeding (text : String) (signal : Signal) (c : Context σ) :
    Unedited c (heeding text signal c) := by
  cases signal with
  | other shown => exact .report _ c
  | _ => exact .refl c

/-- An action that edits no tree and does not ask for the end of the run. -/
structure Quiet (action : Action σ) : Prop where
  unedited : ∀ n c, Unedited c ((action n).run c).2
  goes_on : ∀ n c, ((action n).run c).1 ≠ .ok .halt

/-! ## The calls that a tree asks for -/

/-- The rule and the node of a call. -/
def key (call : Call σ) : Nat × NodeId := (call.rule, call.node)

open Classical in
/-- The calls for a node: one of each rule whose selector is chosen, in order. -/
noncomputable def turn (chosen : Selector → Prop) (n : NodeId) (first : Nat)
    (rules : List (Selector × Rule σ)) : List (Nat × NodeId) :=
  ((rules.zipIdx first).filter fun entry => chosen entry.1.1).map fun entry => (entry.2, n)

theorem turn_nil {chosen : Selector → Prop} {first : Nat} :
    turn chosen n first ([] : List (Selector × Rule σ)) = [] := rfl

theorem turn_chosen {chosen : Selector → Prop} {first : Nat} {selector : Selector} {rule : Rule σ}
    (h : chosen selector) :
    turn chosen n first ((selector, rule) :: rules) = (first, n) :: turn chosen n (first + 1) rules := by
  rw [turn, turn, List.zipIdx_cons]
  simp [h]

theorem turn_skipped {chosen : Selector → Prop} {first : Nat} {selector : Selector} {rule : Rule σ}
    (h : ¬ chosen selector) :
    turn chosen n first ((selector, rule) :: rules) = turn chosen n (first + 1) rules := by
  rw [turn, turn, List.zipIdx_cons]
  simp [h]

/-- The calls for some nodes of a tree, which have the numbers from a first one on in the order of all. -/
noncomputable def scheduleFrom (f : Forest) (nodes : List NodeId) (rules : List (Selector × Rule σ))
    (number : Nat) (rest : List NodeId) : List (Nat × NodeId) :=
  (rest.zipIdx number).flatMap fun entry =>
    turn (fun s => Selector.HoldsAt f nodes s.first s.links.reverse entry.2) entry.1 0 rules

/-- The calls that a tree asks for: for each node in order, those of the rules whose selectors hold at its
number. -/
noncomputable def schedule (f : Forest) (nodes : List NodeId) (rules : List (Selector × Rule σ)) :
    List (Nat × NodeId) := scheduleFrom f nodes rules 0 nodes

/-- Some calls are those of a plan, and a computation then comes to a value; or they are those up to one that
fails, and so does the computation. -/
inductive Carries {α : Type} (plan : List (Nat × NodeId)) (value : α) :
    List (Call σ) → Except Failure α → Prop where
  | all {made : List (Call σ)} : made.map key = plan → Carries plan value made (.ok value)
  | failed {made : List (Call σ)} {call : Call σ} {cause e : Failure} :
      (made ++ [call]).map key <+: plan → call.answer = .error cause →
      Carries plan value (made ++ [call]) (.error e)

section Carries

variable {α β : Type} {plan plan' : List (Nat × NodeId)} {value : α} {value' : β} {made made' : List (Call σ)}
  {answer : Except Failure β} {answer' : Except Failure α}

/-- A plan that is carried out and then another one. -/
theorem Carries.append {result : α} (h : Carries plan value made (.ok result))
    (h' : Carries plan' value' made' answer) : Carries (plan ++ plan') value' (made ++ made') answer := by
  cases h with
  | all hmade =>
    cases h' with
    | all hmade' => exact .all (by rw [List.map_append, hmade, hmade'])
    | @failed made' call cause e hmade' hanswer =>
      rw [← List.append_assoc]
      refine .failed ?_ hanswer
      rw [List.append_assoc, List.map_append, hmade]
      exact (List.prefix_append_right_inj plan).mpr hmade'

theorem Carries.cons (call : Call σ) (h : Carries plan value made answer') :
    Carries (key call :: plan) value (call :: made) answer' := by
  have hfirst : Carries [key call] () [call] (.ok ()) := .all rfl
  exact hfirst.append h

theorem Carries.fails {e : Failure} (h : Carries plan value made (.error e)) :
    Carries (plan ++ plan') value' made (.error e) := by
  cases h with
  | failed hmade hanswer => exact .failed (hmade.trans (List.prefix_append plan plan')) hanswer

end Carries

/-! ## One visit -/

/-- The rules of a visit leave the tree as it is. -/
theorem unedited_dispatch (hquiet : ∀ entry ∈ rules, Quiet entry.2.action) (n : NodeId) (c : Context σ) :
    Unedited c ((dispatch n rules).run c).2 := by
  induction rules generalizing c with
  | nil => exact .refl c
  | cons entry rules ih =>
    obtain ⟨selector, rule⟩ := entry
    obtain ⟨hrule, hrules⟩ := List.forall_mem_cons.mp hquiet
    have hunedited := hrule.unedited n c
    rw [run_dispatch]
    split
    · exact .refl c
    · rw [run_attempt]
      rcases hrun : (rule.action n).run c with ⟨cause | signal, c'⟩
      · rw [hrun] at hunedited
        dsimp only
        split
        · exact hunedited
        · exact hunedited.trans (.report _ c')
      · rw [hrun] at hunedited
        dsimp only
        rw [tried]
        split
        · exact hunedited
        · exact hunedited.trans ((unedited_heeding _ signal c').trans (ih hrules _))
    · exact ih hrules c

/-- The rules of a visit make the calls that are planned for the node. -/
theorem carries_dispatch {chosen : Selector → Prop} (hquiet : ∀ entry ∈ rules, Quiet entry.2.action)
    (hrunning : c.stopRequested = false)
    (hchosen : ∀ c', Unedited c c' → ∀ entry ∈ rules,
      ∃ b, entry.1.selects c'.forest c'.visits n = .ok b ∧ (b = true ↔ chosen entry.1)) (first : Nat) (calls : List (Call σ)) :
    ∃ made, (dispatch n (remadeRules watchedRule first rules)).run (c.watching calls) =
        (((dispatch n rules).run c).1, ((dispatch n rules).run c).2.watching (calls ++ made)) ∧
      Carries (turn chosen n first rules) false made ((dispatch n rules).run c).1 := by
  induction rules generalizing c first calls with
  | nil => exact ⟨[], by rw [List.append_nil]; rfl, .all rfl⟩
  | cons entry rules ih =>
    obtain ⟨selector, rule⟩ := entry
    obtain ⟨hrule, hrules⟩ := List.forall_mem_cons.mp hquiet
    obtain ⟨held, hselects, hheld⟩ := hchosen c (.refl c) (selector, rule) List.mem_cons_self
    have hunedited := hrule.unedited n c
    rw [remadeRules_cons, run_dispatch, run_dispatch, watchedRule, run_attempt_watched]
    have hsame : selector.selects (c.watching calls).forest (c.watching calls).visits n =
        selector.selects c.forest c.visits n := rfl
    rw [hsame, hselects]
    cases held with
    | true =>
      rw [turn_chosen (hheld.mp rfl), run_attempt]
      rcases hrun : (rule.action n).run c with ⟨cause | signal, c'⟩
      · refine ⟨[callOf first rule.action n c], ?_, ?_⟩
        · dsimp only
          split <;> rfl
        · have hanswer : (callOf first rule.action n c).answer = .error cause := by rw [callOf, hrun]
          have hplan : ([] ++ [callOf first rule.action n c]).map key <+:
              (first, n) :: turn chosen n (first + 1) rules := ⟨turn chosen n (first + 1) rules, rfl⟩
          dsimp only
          split <;> exact .failed hplan hanswer
      · rw [hrun] at hunedited
        have hsignal : signal ≠ .halt := fun heq => hrule.goes_on n c (by rw [hrun, heq])
        have hgoes : c'.stopRequested = false := hunedited.stopRequested.trans hrunning
        have hlater : Unedited c (heeding selector.text signal c') :=
          hunedited.trans (unedited_heeding _ signal c')
        obtain ⟨made, hmade, hcarries⟩ := ih hrules (hlater.stopRequested.trans hrunning)
          (fun d hd entry hentry => hchosen d (hlater.trans hd) entry (List.mem_cons_of_mem _ hentry))
          (first + 1) (calls ++ [callOf first rule.action n c])
        refine ⟨callOf first rule.action n c :: made, ?_, ?_⟩
        · dsimp only
          rw [tried_of_running hsignal hgoes, tried_of_running hsignal (by exact hgoes), heeding_watching,
            hmade, List.append_assoc]
          rfl
        · dsimp only
          rw [tried_of_running hsignal hgoes]
          exact hcarries.cons (callOf first rule.action n c)
    | false =>
      rw [turn_skipped fun h => Bool.noConfusion (hheld.mpr h)]
      exact ih hrules hrunning
        (fun d hd entry hentry => hchosen d hd entry (List.mem_cons_of_mem _ hentry)) (first + 1) calls

/-! ## Where a run stands -/

/-- A run has entered a node of a tree that is as it was.  The nodes up to it record the nodes whose lists
they stand in, and the history is what the walk has handed out of them. -/
structure Arrives (f₀ : Forest) (root : NodeId) (order before after : List NodeId) (w : Walker)
    (c : Context σ) (x : NodeId) : Prop where
  started : w.started
  root_eq : w.root = root
  pending : w.pending = some x
  running : c.stopRequested = false
  lists : c.forest.Lists [root] order
  strict : c.forest.Strict root
  kind : ∀ n ∈ order, c.forest.kind n = f₀.kind n
  children : ∀ n ∈ order, c.forest.children n = f₀.children n
  unmarked : c.forest.replacement? x = none
  flanked : Flanked c.forest root w.frames x before after
  records : c.forest.Records root (· ∈ before ++ [x])
  history : c.history.toList = f₀.walked (before ++ [x])
  standIn : c.standIn = none

/-- The split of the order where a run stands. -/
theorem Arrives.exists_inner (h : Arrives f₀ root order before after w c x) :
    ∃ inner, c.forest.Lists (c.forest.children x) inner ∧ order = before ++ x :: (inner ++ after) := by
  obtain ⟨inner, hinner, -⟩ := h.lists.exists_inner (h.lists.mem_singleton_iff.mpr h.flanked.path.leads)
  exact ⟨inner, hinner, h.lists.unique (h.flanked.lists_root hinner)⟩

theorem Arrives.has (h : Arrives f₀ root order before after w c x) (hn : n ∈ order) : c.forest.Has n :=
  h.strict.has (h.lists.mem_singleton_iff.mp hn)

/-- A run stands where it stood while nothing is edited. -/
theorem Arrives.unedited (h : Arrives f₀ root order before after w c x) (hsame : Unedited c c') :
    Arrives f₀ root order before after w c' x := by
  obtain ⟨inner, hinner, hsplit⟩ := h.exists_inner
  have hchildren : ∀ m, c.forest.Below root m → c'.forest.children m = c.forest.children m := fun m hm =>
    hsame.children m (h.strict.has hm)
  have hx : x ∈ order := by simp [hsplit]
  exact {
    started := h.started
    root_eq := h.root_eq
    pending := h.pending
    running := hsame.stopRequested.trans h.running
    lists := h.lists.congr fun m hm => hsame.children m (h.has hm)
    strict := h.strict.congr hchildren hsame.grows
    kind := fun m hm => (hsame.kind m (h.has hm)).trans (h.kind m hm)
    children := fun m hm => (hsame.children m (h.has hm)).trans (h.children m hm)
    unmarked := (hsame.replacement x (h.has hx)).trans h.unmarked
    flanked := h.flanked.congr fun m hm => hsame.children m (h.has (by
      rw [hsplit]
      rcases List.mem_append.mp hm with hm | hm <;> simp [hm]))
    records := fun q m hq hm hknown => by
      rw [h.strict.below_congr hchildren] at hq
      rw [hchildren q hq] at hm
      have hhas : c.forest.Has m := h.strict.has (hq.trans (.of_mem hm))
      rw [hsame.holder m hhas]
      exact h.records q m hq hm hknown
    history := (congrArg Array.toList hsame.history).trans h.history
    standIn := hsame.standIn.trans h.standIn }

/-- A run begins at the root. -/
theorem Arrives.start {c₀ : Context σ} (horder : c₀.forest.Lists [root] order)
    (hstrict : c₀.forest.Strict root) (hroot : ¬ (c₀.forest.kind root).isPart)
    (hmark : c₀.forest.replacement? root = none) (hhistory : c₀.history = #[])
    (hstandIn : c₀.standIn = none) (hrunning : c₀.stopRequested = false) :
    Arrives c₀.forest root order [] [] (opened root) (entering root c₀) root where
  started := rfl
  root_eq := rfl
  pending := rfl
  running := hrunning
  lists := horder
  strict := hstrict
  kind := fun _ _ => rfl
  children := fun _ _ => rfl
  unmarked := hmark
  flanked := .root
  records := fun q m hq hm hknown => by
    obtain rfl : m = root := by simpa using hknown
    exact absurd hm (hstrict.not_mem_children hq)
  history := by simp [entering, hhistory, walked, hroot]
  standIn := hstandIn

/-! ## What the selectors see -/

/-- Of two nodes that follow each other in a list without repetition the first has the smaller number. -/
theorem number_lt_of_sublist {i j : Nat} (h : [p, n].Sublist nodes) (hnodup : nodes.Nodup)
    (hj : nodes[j]? = some p) (hi : nodes[i]? = some n) : j < i := by
  obtain ⟨place, hplace⟩ := List.sublist_iff_exists_orderEmbedding_getElem?_eq.mp h
  have hp : nodes[place 0]? = some p := (hplace 0).symm
  have hn : nodes[place 1]? = some n := (hplace 1).symm
  have hpj : place 0 = j :=
    (List.getElem?_inj (List.getElem?_eq_some_iff.mp hp).1 hnodup).mp (hp.trans hj.symm)
  have hni : place 1 = i :=
    (List.getElem?_inj (List.getElem?_eq_some_iff.mp hn).1 hnodup).mp (hn.trans hi.symm)
  have hlt : place 0 < place 1 := place.strictMono Nat.zero_lt_one
  omega

/-- In the order of a tree a node comes after the one around it. -/
theorem sublist_of_encloses {f : Forest} (horder : f.Lists [root] order) (hp : p ∈ order)
    (h : f.Encloses p n) : [p, n].Sublist order := by
  obtain ⟨own, hown, hsub⟩ := horder.exists_own hp
  obtain ⟨inner, hinner, rfl⟩ := lists_singleton_iff.mp hown
  have hn : n ∈ inner := hinner.mem_iff.mpr h.exists_child
  exact ((List.singleton_sublist.mpr hn).cons_cons p).trans hsub

/-- What the history and the records tell agrees with the tree. -/
theorem Arrives.tracks (h : Arrives f₀ root order before after w c x) (horder : f₀.Lists [root] order)
    (hroot : f₀.kind root = .document) :
    Selector.Tracks f₀ (f₀.walked order) c.forest c.visits := by
  obtain ⟨inner, -, hsplit⟩ := h.exists_inner
  obtain ⟨order', horder', hnodup, -⟩ := id h.strict
  obtain rfl := h.lists.unique horder'
  have hwalked : (f₀.walked order).Nodup := hnodup.filter _
  have hbelow : ∀ m, c.forest.Below root m ↔ m ∈ order := fun m => h.lists.mem_singleton_iff.symm
  have hbelow₀ : ∀ m, f₀.Below root m ↔ m ∈ order := fun m => horder.mem_singleton_iff.symm
  have hrootmem : root ∈ order := (hbelow root).mp (.refl root)
  have hsplit' : order = (before ++ [x]) ++ (inner ++ after) := by simp [hsplit]
  have hearly : f₀.walked (before ++ [x]) <+: f₀.walked order :=
    ⟨f₀.walked (inner ++ after), by rw [hsplit', walked_append f₀ (before ++ [x])]⟩
  have hvisits : c.visits.toList = f₀.walked (before ++ [x]) := by
    rw [Context.visits, h.standIn, Option.getD_none, h.history]
  exact {
    nodup := hwalked
    visited := hvisits ▸ hearly
    kind := fun m hm => h.kind m (mem_walked.mp hm).1
    parent := fun m hm htagged => by
      rw [hvisits] at hm
      have hmem : m ∈ order := (mem_walked.mp (hearly.subset hm)).1
      have hne : m ≠ root := by
        rintro rfl
        rw [hroot] at htagged
        cases htagged
      have hkind : ¬ (c.forest.kind root).isPart := by
        rw [h.kind root hrootmem, hroot]
        decide
      have hbelowm := (hbelow m).mpr hmem
      have hknown := (mem_walked.mp hm).1
      obtain ⟨p, hp, hencloses⟩ := exists_encloses hkind hbelowm hne
      have hparent := hencloses.parent_eq h.strict hp h.records hknown
      refine ⟨some p, hparent, fun q => ?_⟩
      have hiff := parent_eq_some_iff (p := q) h.strict hkind h.records hbelowm hne hknown
      rw [hparent, Except.ok.injEq, hbelow q] at hiff
      rw [hiff, mem_walked]
      constructor
      · rintro ⟨hq, hencloses⟩
        have hencloses₀ : f₀.Encloses q m := hencloses.congr ((hbelow q).mpr hq)
          (fun k hk => (h.children k ((hbelow k).mp hk)).symm) fun k hk => (h.kind k ((hbelow k).mp hk)).symm
        exact ⟨⟨hq, hencloses₀.not_part⟩, hencloses₀⟩
      · rintro ⟨⟨hq, -⟩, hencloses⟩
        exact ⟨hq, hencloses.congr ((hbelow₀ q).mpr hq) (fun k hk => h.children k ((hbelow₀ k).mp hk))
          fun k hk => h.kind k ((hbelow₀ k).mp hk)⟩
    earlier := fun i j m q hm hq hencloses => by
      obtain ⟨hqmem, hqpart⟩ := mem_walked.mp (List.mem_of_getElem? hq)
      obtain ⟨-, hmpart⟩ := mem_walked.mp (List.mem_of_getElem? hm)
      have hsub := (sublist_of_encloses horder hqmem hencloses).filter fun k => !(f₀.kind k).isPart
      exact number_lt_of_sublist (by simpa [walked, hqpart, hmpart] using hsub) hwalked hq hm }

/-! ## From one node to the next -/

/-- A run goes on to the next node of the tree that is no part, or finishes if there is none. -/
theorem Arrives.onward (h : Arrives f₀ root order before after w c x)
    (hrest : f₀.walked order = c.history.toList ++ rest) :
    (rest = [] ∧ ∃ d, Loops w (some x) c none d) ∨
      ∃ n rest' w' d before' after', rest = n :: rest' ∧ Loops w (some x) c (some (n, w')) d ∧
        Arrives f₀ root order before' after' w' d n ∧ d.history.toList = c.history.toList ++ [n] := by
  obtain ⟨inner, hinner, hsplit⟩ := h.exists_inner
  have hbehind : rest = f₀.walked (inner ++ after) := by
    have hsplit' : order = (before ++ [x]) ++ (inner ++ after) := by simp [hsplit]
    rw [hsplit', walked_append f₀ (before ++ [x]), ← h.history] at hrest
    exact (List.append_cancel_left hrest).symm
  have hkind : ∀ m ∈ inner ++ after, c.forest.kind m = f₀.kind m := fun m hm =>
    h.kind m (by rw [hsplit]; simp only [List.mem_append, List.mem_cons] at hm ⊢; tauto)
  obtain ⟨found, f', hscans⟩ := h.flanked.path.between_enter.exists_scans h.strict
  have hloops := loops_of_scans h.unmarked h.started h.pending
    (.inr (settles_of_none h.unmarked))
    (h.flanked.path.scans_descend h.root_eq h.strict (.inr h.unmarked) hscans)
  cases found with
  | none =>
    refine .inl ⟨?_, _, hloops⟩
    rw [hbehind]
    exact walked_of_parts fun m hm => by
      rw [← hkind m hm]
      exact hscans.parts_behind h.flanked hinner m hm
  | some found =>
    obtain ⟨n, frames'⟩ := found
    obtain ⟨parts, inner', after', hparts, hpart, hn, hinner', hflanked⟩ :=
      hscans.flanked h.flanked hinner h.strict
    have hnpart : ¬ (f₀.kind n).isPart := by
      rw [← hkind n (by simp [hparts])]
      exact hn
    have hpassed : f₀.walked parts = [] := walked_of_parts fun m hm => by
      rw [← hkind m (by simp [hparts, hm])]
      exact hpart m hm
    have hone : f₀.walked [n] = [n] := by simp [walked, hnpart]
    have hrest' : rest = n :: f₀.walked (inner' ++ after') := by
      have hsplit' : inner ++ after = parts ++ [n] ++ (inner' ++ after') := by simp [hparts]
      rw [hbehind, hsplit', walked_append f₀ (parts ++ [n]), walked_append f₀ parts, hpassed, hone]
      rfl
    refine .inr ⟨n, _, _, _, before ++ x :: parts, after', hrest', hloops, ?_, Array.toList_push⟩
    have hchildren : ∀ m, f'.children m = c.forest.children m := hscans.children
    exact {
      started := h.started
      root_eq := h.root_eq
      pending := rfl
      running := h.running
      lists := h.lists.congr fun m _ => hchildren m
      strict := h.strict.congr (fun m _ => hchildren m) (Nat.le_of_eq hscans.size.symm)
      kind := fun m hm => (hscans.kind m).trans (h.kind m hm)
      children := fun m hm => (hchildren m).trans (h.children m hm)
      unmarked := hscans.found.1
      flanked := hflanked
      records := hscans.records_met h.flanked hinner h.strict hparts hpart hn h.records
      history := by
        have hpush : (c.history.push n).toList = c.history.toList ++ [n] := Array.toList_push
        have hmet : before ++ x :: parts = (before ++ [x]) ++ parts := by simp
        rw [walked_append, hone, hmet, walked_append, hpassed, List.append_nil, ← h.history]
        exact hpush
      standIn := h.standIn }

/-! ## Whole runs -/

/-- The compiled selectors ask for blocks and inlines only. -/
theorem linksTagged_of_compileWith {cache : Selector.Cache} {given : List (Rule σ)}
    (hcache : ∀ entry ∈ cache, Selector.LinksTagged entry.2.links)
    (h : compileWith cache given = .ok rules) : ∀ entry ∈ rules, Selector.LinksTagged entry.1.links := by
  induction given generalizing cache rules with
  | nil =>
    cases h
    exact nofun
  | cons rule given ih =>
    rw [compileWith] at h
    obtain ⟨known, -, h⟩ := bind_eq_ok_iff.mp h
    obtain ⟨found, hget, h⟩ := bind_eq_ok_iff.mp h
    obtain ⟨compiled, hcompiled, h⟩ := bind_eq_ok_iff.mp h
    cases h
    cases hfound : cache.get rule.selector with
    | error e =>
      rw [hfound] at hget
      cases hget
    | ok found' =>
      rw [hfound] at hget
      cases hget
      obtain ⟨hselector, hcache'⟩ := Selector.linksTagged_of_get hcache hfound
      exact List.forall_mem_cons.mpr ⟨hselector, ih hcache' hcompiled⟩

theorem compileWith_rules {cache : Selector.Cache} {given : List (Rule σ)}
    (h : compileWith cache given = .ok rules) : rules.map (·.2) = given := by
  induction given generalizing cache rules with
  | nil =>
    cases h
    rfl
  | cons rule given ih =>
    rw [compileWith] at h
    obtain ⟨known, -, h⟩ := bind_eq_ok_iff.mp h
    obtain ⟨found, -, h⟩ := bind_eq_ok_iff.mp h
    obtain ⟨compiled, hcompiled, h⟩ := bind_eq_ok_iff.mp h
    cases h
    rw [List.map_cons, ih hcompiled]

/-- The loop makes the calls that are planned from where it is, and finishes after so many more visits. -/
def Performs (rules : List (Selector × Rule σ)) (plan : List (Nat × NodeId)) (count : Nat) (w : Walker)
    (current : Option NodeId) (c : Context σ) : Prop :=
  ∃ enough, ∀ steps ≥ enough, ∀ fuel ≥ enough, ∀ visited calls, ∃ made,
    (visitAll (remadeRules watchedRule 0 rules) steps fuel visited w current).run (c.watching calls) =
        (((visitAll rules steps fuel visited w current).run c).1,
          ((visitAll rules steps fuel visited w current).run c).2.watching (calls ++ made)) ∧
      Carries plan ⟨false, visited + count⟩ made ((visitAll rules steps fuel visited w current).run c).1

theorem Performs.finished (hloops : Loops w current c none d) : Performs rules [] 0 w current c := by
  obtain ⟨enough, henough⟩ := hloops
  refine ⟨enough + 1, fun steps hsteps fuel hfuel visited calls => ⟨[], ?_⟩⟩
  obtain ⟨fuel, rfl⟩ : ∃ k, fuel = k + 1 := ⟨fuel - 1, by omega⟩
  obtain ⟨w', hnext⟩ := henough steps (by omega)
  rw [run_visitAll, run_visitAll, run_next_watched, hnext]
  exact ⟨by rw [List.append_nil], .all rfl⟩

/-- The loop goes on to a node, makes the calls planned for it, and then those planned for the others. -/
theorem Performs.visit {chosen : Selector → Prop} {plan : List (Nat × NodeId)} {count : Nat}
    (hquiet : ∀ entry ∈ rules, Quiet entry.2.action) (hloops : Loops w current c (some (n, w')) d)
    (hrunning : d.stopRequested = false)
    (hchosen : ∀ d', Unedited d d' → ∀ entry ∈ rules,
      ∃ b, entry.1.selects d'.forest d'.visits n = .ok b ∧ (b = true ↔ chosen entry.1))
    (hrest : Performs rules plan count w' (some n) ((dispatch n rules).run d).2) :
    Performs rules (turn chosen n 0 rules ++ plan) (count + 1) w current c := by
  obtain ⟨enough, hnext⟩ := hloops
  obtain ⟨enough', hrest⟩ := hrest
  refine ⟨max enough enough' + 1, fun steps hsteps fuel hfuel visited calls => ?_⟩
  obtain ⟨fuel, rfl⟩ : ∃ k, fuel = k + 1 := ⟨fuel - 1, by omega⟩
  obtain ⟨made, hmade, hcarries⟩ := carries_dispatch hquiet hrunning hchosen 0 calls
  rw [run_visitAll, run_visitAll, run_next_watched, hnext steps (by omega)]
  dsimp only
  rw [hmade]
  rcases hrun : (dispatch n rules).run d with ⟨e | halt, d'⟩
  · rw [hrun] at hcarries
    exact ⟨made, rfl, hcarries.fails⟩
  · rw [hrun] at hcarries hrest
    obtain rfl : halt = false := by
      cases hcarries
      rfl
    obtain ⟨made', hmade', hcarries'⟩ := hrest steps (by omega) fuel (by omega) (visited + 1) (calls ++ made)
    refine ⟨made ++ made', ?_, ?_⟩
    · rw [← List.append_assoc]
      exact hmade'
    · have hcount : visited + (count + 1) = visited + 1 + count := by omega
      rw [hcount]
      exact hcarries.append hcarries'

/-- The calls for a node that the loop goes on to are those that the tree asks for at its number. -/
theorem Arrives.performs_visit {seen : List NodeId} (h : Arrives f₀ root order before after w' d n)
    (horder : f₀.Lists [root] order) (hroot : f₀.kind root = .document)
    (hquiet : ∀ entry ∈ rules, Quiet entry.2.action)
    (htagged : ∀ entry ∈ rules, Selector.LinksTagged entry.1.links)
    (hloops : Loops w current c (some (n, w')) d) (hhistory : d.history.toList = seen ++ [n])
    (hsplit : f₀.walked order = seen ++ n :: rest)
    (hrest : Performs rules (scheduleFrom f₀ (f₀.walked order) rules (seen.length + 1) rest) rest.length w'
      (some n) ((dispatch n rules).run d).2) :
    Performs rules (scheduleFrom f₀ (f₀.walked order) rules seen.length (n :: rest)) (n :: rest).length
      w current c := by
  refine Performs.visit hquiet hloops h.running (fun d' hd' entry hentry => ?_) hrest
  have hstands := h.unedited hd'
  refine Selector.selects_tells (hstands.tracks horder hroot) (htagged entry hentry) ?_ ?_
  · rw [Context.visits, hstands.standIn, Option.getD_none, hd'.history, ← Array.length_toList, hhistory,
      List.length_append]
    rfl
  · rw [hsplit]
    simp

/-- From each node on, a run makes the calls that the rest of the tree asks for. -/
theorem Arrives.performs (h : Arrives f₀ root order before after w c x) (horder : f₀.Lists [root] order)
    (hroot : f₀.kind root = .document) (hquiet : ∀ entry ∈ rules, Quiet entry.2.action)
    (htagged : ∀ entry ∈ rules, Selector.LinksTagged entry.1.links)
    (hrest : f₀.walked order = c.history.toList ++ rest) :
    Performs rules (scheduleFrom f₀ (f₀.walked order) rules c.history.toList.length rest) rest.length
      w (some x) c := by
  induction rest generalizing before after w c x with
  | nil =>
    obtain ⟨-, d, hloops⟩ | ⟨n, rest', -, -, -, -, heq, -⟩ := h.onward hrest
    · exact .finished hloops
    · cases heq
  | cons n rest ih =>
    obtain ⟨heq, -⟩ | ⟨n', rest', w', d, before', after', heq, hloops, harrives, hhistory⟩ := h.onward hrest
    · cases heq
    · cases heq
      have hunedited := unedited_dispatch hquiet n d
      have hhistory' : ((dispatch n rules).run d).2.history.toList = c.history.toList ++ [n] := by
        rw [hunedited.history, hhistory]
      have hlater := ih (harrives.unedited hunedited) (by rw [hhistory', hrest]; simp)
      rw [hhistory', List.length_append] at hlater
      exact harrives.performs_visit horder hroot hquiet htagged hloops hhistory hrest hlater

/-- A run over a strict tree whose root bears no mark, with actions that edit nothing and do not ask for its end,
makes the calls that the tree asks for: for each node that is no part, in order, one of each rule, in order,
whose selector holds at the node's number; and then it returns, unless one of the calls fails, which is then the
last one. -/
theorem carries_schedule (filter : Filter σ) (hcompile : compile filter.rules = .ok rules)
    (hquiet : ∀ rule ∈ filter.rules, Quiet rule.action) (hroot : c.forest.kind c.document = .document)
    (hstrict : c.forest.Strict c.document) (horder : c.forest.Lists [c.document] order)
    (hmark : c.forest.replacement? c.document = none) (hhistory : c.history = #[])
    (hstandIn : c.standIn = none) (hrunning : c.stopRequested = false) :
    ∃ enough, ∀ fuel ≥ enough, Carries (schedule c.forest (c.forest.walked order) rules)
      ⟨false, (c.forest.walked order).length⟩ (filter.calls fuel c) ((filter.apply fuel).run c).1 := by
  have hquiet' : ∀ entry ∈ rules, Quiet entry.2.action := fun entry hentry => by
    refine hquiet entry.2 ?_
    rw [← compileWith_rules hcompile]
    exact List.mem_map_of_mem hentry
  have htagged := linksTagged_of_compileWith (by simp) hcompile
  have hnotpart : ¬ (c.forest.kind c.document).isPart := by
    rw [hroot]
    decide
  obtain ⟨inner, -, rfl⟩ := lists_singleton_iff.mp horder
  have hsplit : c.forest.walked (c.document :: inner) = c.document :: c.forest.walked inner := by
    simp [walked, hnotpart]
  have harrives := Arrives.start horder hstrict hnotpart hmark hhistory hstandIn hrunning
  have hopened : (entering c.document c).history.toList = [c.document] := by simp [entering, hhistory]
  have hunedited := unedited_dispatch hquiet' c.document (entering c.document c)
  have hhistory' : ((dispatch c.document rules).run (entering c.document c)).2.history.toList =
      [c.document] := by rw [hunedited.history, hopened]
  have hlater := (harrives.unedited hunedited).performs horder hroot hquiet' htagged (by
    rw [hhistory', hsplit]
    rfl)
  rw [hhistory'] at hlater
  have hfirst : Loops (.of c.document) none c (some (c.document, opened c.document))
      (entering c.document c) := ⟨0, fun steps _ => next_begin⟩
  have hperforms := harrives.performs_visit horder hroot hquiet' htagged hfirst
    (hopened.trans (List.nil_append _).symm) hsplit hlater
  obtain ⟨enough, henough⟩ := hperforms
  refine ⟨enough, fun fuel hfuel => ?_⟩
  obtain ⟨made, hmade, hcarries⟩ := henough fuel hfuel fuel hfuel 0 []
  rw [Nat.zero_add, hsplit] at hcarries
  rw [calls_of_compiled hcompile, hmade, run_apply, hcompile, hsplit]
  dsimp only
  rcases hrun : (visitAll rules fuel fuel 0 (.of c.document) none).run c with ⟨e | outcome, c'⟩ <;>
    rw [hrun] at hcarries <;> exact hcarries

/-! ## A space in a block -/

/-- Goes on. -/
def pass : Action Unit := fun _ => pure .proceed

/-- Goes on at each block and at each inline right below a block. -/
def passing : Filter Unit where
  rules := [⟨.str "Block", pass⟩, ⟨.str "Block > Inline", pass⟩]

/-- The rules with their selectors. -/
def passingRules : List (Selector × Rule Unit) :=
  [(⟨"Block", .block, []⟩, ⟨.str "Block", pass⟩),
    (⟨"Block > Inline", .block, [⟨.childOf, .inline⟩]⟩, ⟨.str "Block > Inline", pass⟩)]

/-- A document with a block and a space in it, before it is filtered. -/
def spaced : Context Unit := begin { blocks := [.node .plain [] [.node .space [] []]] } "" ()

theorem compile_passing : compile passing.rules = .ok passingRules := by
  have hblock : Selector.compile "Block" = .ok ⟨"Block", .block, []⟩ := by decide +kernel
  have hinline : Selector.compile "Block > Inline" =
      .ok ⟨"Block > Inline", .block, [⟨.childOf, .inline⟩]⟩ := by decide +kernel
  simp [compile, passing, compileWith, Selector.Cache.contains, Selector.Cache.get, hblock, hinline, bind,
    Except.bind, Except.mapError, Entries.find?, Entries.put, List.lookup_cons, passingRules]

/-- A document with a block and a space in it asks for one call of the first rule, for the block, and one of the
second, for the space. -/
theorem schedule_passing {f : Forest} (hdocument : f.kind ⟨2⟩ = .document) (hplain : f.kind ⟨1⟩ = .plain)
    (hspace : f.kind ⟨0⟩ = .space) (hencloses : f.Encloses ⟨1⟩ ⟨0⟩) :
    schedule f [⟨2⟩, ⟨1⟩, ⟨0⟩] passingRules = [(0, ⟨1⟩), (1, ⟨0⟩)] := by
  let nodes : List NodeId := [⟨2⟩, ⟨1⟩, ⟨0⟩]
  have hblock : ∀ n i, nodes[i]? = some n → (Selector.HoldsAt f nodes .block [] i ↔ (f.kind n).isBlock) := by
    intro n i hn
    simp [Selector.HoldsAt, hn, NodeTest.accepts]
  have hinline : ∀ n i, nodes[i]? = some n → ¬ (f.kind n).isInline →
      ¬ Selector.HoldsAt f nodes .block [⟨.childOf, .inline⟩] i := by
    rintro n i hn hkind ⟨m, hm, haccepts, -⟩
    obtain rfl : n = m := Option.some.inj (hn.symm.trans hm)
    exact hkind haccepts
  have hbelow : Selector.HoldsAt f nodes .block [⟨.childOf, .inline⟩] 2 := by
    refine ⟨⟨0⟩, rfl, by rw [hspace]; rfl, ⟨1⟩, 1, hencloses, rfl, (hblock ⟨1⟩ 1 rfl).mpr ?_⟩
    rw [hplain]
    rfl
  change turn _ ⟨2⟩ 0 passingRules ++ (turn _ ⟨1⟩ 0 passingRules ++ (turn _ ⟨0⟩ 0 passingRules ++ [])) = _
  rw [passingRules, turn_skipped, turn_skipped, turn_chosen, turn_skipped, turn_skipped, turn_chosen hbelow,
    turn_nil, turn_nil, turn_nil]
  · rfl
  · exact mt (hblock ⟨0⟩ 2 rfl).mp (by rw [hspace]; decide)
  · exact hinline ⟨1⟩ 1 rfl (by rw [hplain]; decide)
  · exact (hblock ⟨1⟩ 1 rfl).mpr (by rw [hplain]; rfl)
  · exact hinline ⟨2⟩ 0 rfl (by rw [hdocument]; decide)
  · exact mt (hblock ⟨2⟩ 0 rfl).mp (by rw [hdocument]; decide)

theorem quiet_passing : ∀ rule ∈ passing.rules, Quiet rule.action := by
  have hpass : Quiet pass := ⟨fun _ c => .refl c, fun _ _ => nofun⟩
  simp [passing, hpass]

/-- Nothing is edited in a run of the two rules, so it makes those two calls. -/
theorem carries_spaced : ((∀ rule ∈ passing.rules, Quiet rule.action) ∧
      spaced.forest.Strict spaced.document ∧ spaced.forest.Lists [spaced.document] [⟨2⟩, ⟨1⟩, ⟨0⟩]) ∧
    ∃ enough, ∀ fuel ≥ enough, Carries [(0, ⟨1⟩), (1, ⟨0⟩)] ⟨false, 3⟩ (passing.calls fuel spaced)
      ((passing.apply fuel).run spaced).1 := by
  have horder : spaced.forest.order? 9 [⟨2⟩] = some [⟨2⟩, ⟨1⟩, ⟨0⟩] := by decide
  have hlists : spaced.forest.Lists [spaced.document] [⟨2⟩, ⟨1⟩, ⟨0⟩] := lists_of_order? horder
  have hstrict : spaced.forest.Strict spaced.document := ⟨_, hlists, by decide, by decide⟩
  have hwalked : spaced.forest.walked [⟨2⟩, ⟨1⟩, ⟨0⟩] = [⟨2⟩, ⟨1⟩, ⟨0⟩] := by decide
  have hcarries := carries_schedule passing compile_passing quiet_passing rfl hstrict hlists rfl rfl rfl rfl
  rw [hwalked, schedule_passing rfl rfl rfl (.child (by decide) (by decide))] at hcarries
  exact ⟨⟨quiet_passing, hstrict, hlists⟩, hcarries⟩

/-- The same document, which was put into a division and replaced there by a line. -/
def outplaced : Context Unit :=
  let (line, f) := spaced.forest.addLoose .horizontalRule [] []
  let (division, f) := f.addLoose .div [] [spaced.document]
  { spaced with forest := (f.replace division spaced.document line).toOption.getD f }

/-- The run follows the mark of the document and tries the rules on the line, which is not in the tree: nothing is
edited, and there is one call more than the tree asks for. -/
theorem calls_outplaced : (∀ rule ∈ passing.rules, Quiet rule.action) ∧
    outplaced.forest.Strict ⟨2⟩ ∧ outplaced.forest.Lists [⟨2⟩] [⟨2⟩, ⟨1⟩, ⟨0⟩] ∧
    schedule outplaced.forest (outplaced.forest.walked [⟨2⟩, ⟨1⟩, ⟨0⟩]) passingRules = [(0, ⟨1⟩), (1, ⟨0⟩)] ∧
    ∀ fuel, (passing.calls (fuel + 9) outplaced).map key = [(0, ⟨3⟩), (0, ⟨1⟩), (1, ⟨0⟩)] ∧
      ((passing.apply (fuel + 9)).run outplaced).1 = .ok ⟨false, 4⟩ := by
  have horder : outplaced.forest.order? 9 [⟨2⟩] = some [⟨2⟩, ⟨1⟩, ⟨0⟩] := by decide
  have hlists : outplaced.forest.Lists [⟨2⟩] [⟨2⟩, ⟨1⟩, ⟨0⟩] := lists_of_order? horder
  have hwalked : outplaced.forest.walked [⟨2⟩, ⟨1⟩, ⟨0⟩] = [⟨2⟩, ⟨1⟩, ⟨0⟩] := by decide
  refine ⟨quiet_passing, ⟨_, hlists, by decide, by decide⟩, hlists, ?_, fun fuel => ?_⟩
  · rw [hwalked]
    exact schedule_passing rfl rfl rfl (.child (by decide) (by decide))
  · rw [calls_of_compiled compile_passing, run_apply, compile_passing]
    exact ⟨rfl, rfl⟩

end Filter

end DocFilter
