import DocFilter.Proofs.Filter.Turn

/-!
# The calls of a run

A run is watched through its actions: each of them writes down what its call was, beside the value that the
actions share and that the run itself never looks at.

* `Call` is what is written down: the rule, the node, the context before, the answer and the context after.
* `Filter.watched` is a filter whose actions write down their calls, and `Filter.calls` is the list that its
  run leaves.  `Filter.run_watched` says that watching a run changes nothing else about it.
* `Filter.run_dispatch` opens the rules one at a time, `Filter.compile_remade` says that rules with the same
  selectors compile to the same ones.
-/

namespace DocFilter

/-- A call of an action: the number of its rule, the node, the context that the action was given, what it
answered and the context that it left. -/
structure Call (σ : Type) where
  rule : Nat
  node : NodeId
  before : Context σ
  answer : Except Failure Signal
  after : Context σ

/-- What actions share that write down their calls. -/
abbrev Watched (σ : Type) := σ × List (Call σ)

namespace Context

variable {σ : Type}

/-- A context with the calls so far. -/
def watching (calls : List (Call σ)) (c : Context σ) : Context (Watched σ) :=
  { c with shared := (c.shared, calls) }

/-- A context without the calls. -/
def plain (c : Context (Watched σ)) : Context σ := { c with shared := c.shared.1 }

/-- The calls that were written down. -/
def calls (c : Context (Watched σ)) : List (Call σ) := c.shared.2

@[simp] theorem plain_watching (calls : List (Call σ)) (c : Context σ) : (c.watching calls).plain = c := rfl

@[simp] theorem calls_watching (calls : List (Call σ)) (c : Context σ) :
    (c.watching calls).calls = calls := rfl

end Context

namespace Filter

variable {σ τ : Type} {n : NodeId} {current : Option NodeId} {c c' : Context σ} {w : Walker} {steps fuel : Nat}

/-! ## Rules one at a time -/

/-- Trying an action looks at nothing but what it does. -/
theorem run_attempt {text : String} {action : Action σ} :
    (attempt text action n).run c = match (action n).run c with
      | (.error cause, c) =>
        if cause.isReported then (.error cause, c)
        else
          let kind := c.forest.kind n
          let detail := cause.message?.getD ""
          (.error (.action text kind cause), c.report ⟨.error, source,
            s!"Action for '{text}' failed on {kind.name} node: {detail}"⟩)
      | result => result := rfl

/-- A context after an answer that the run goes on from, with a report if the answer means nothing. -/
def heeding (text : String) (signal : Signal) (c : Context σ) : Context σ := match signal with
  | .other shown => c.report ⟨.warning, source,
      s!"Ignoring unexpected return value {shown} from action for '{text}'"⟩
  | _ => c

/-- What comes after an action was tried: the run fails or is to end, or the other rules are next. -/
def tried (text : String) (rest : Run σ Bool) :
    Except Failure Signal × Context σ → Except Failure Bool × Context σ
  | (.error e, c) => (.error e, c)
  | (.ok signal, c) =>
    if signal = .halt || c.stopRequested then (.ok true, c) else rest.run (heeding text signal c)

theorem tried_of_running {text : String} {rest : Run σ Bool} {signal : Signal} (hsignal : signal ≠ .halt)
    (hrunning : c.stopRequested = false) :
    tried text rest (.ok signal, c) = rest.run (heeding text signal c) := by
  rw [tried, if_neg (by simp [hsignal, hrunning])]

/-- What trying the first of some rules comes to. -/
theorem run_dispatch {selector : Selector} {rule : Rule σ} {rules : List (Selector × Rule σ)} :
    (dispatch n ((selector, rule) :: rules)).run c = match selector.selects c.forest c.visits n with
      | .error fault => (.error (.fault fault), c)
      | .ok true => tried selector.text (dispatch n rules) ((attempt selector.text rule.action n).run c)
      | .ok false => (dispatch n rules).run c := by
  rw [dispatch, run_bind, run_get]
  dsimp only
  rcases selector.selects c.forest c.visits n with fault | _ | _
  · rfl
  · rfl
  · show ((attempt selector.text rule.action n >>= _ : Run σ Bool).run c) = _
    rw [run_bind]
    rcases (attempt selector.text rule.action n).run c with ⟨e | signal, c'⟩
    · rfl
    · dsimp only
      rw [run_bind, run_get, tried]
      dsimp only
      split
      · rfl
      · cases signal <;> rfl

/-! ## Rules made from others -/

/-- A filter with rules made from those of another one, each with its number. -/
def remade (make : Nat → Rule σ → Rule τ) (filter : Filter σ) : Filter τ where
  rules := filter.rules.zipIdx.map fun entry => make entry.2 entry.1
  options := filter.options

/-- Compiled rules made from others, each with its number. -/
def remadeRules (make : Nat → Rule σ → Rule τ) (first : Nat) (rules : List (Selector × Rule σ)) :
    List (Selector × Rule τ) :=
  (rules.zipIdx first).map fun entry => (entry.1.1, make entry.2 entry.1.2)

theorem remadeRules_cons {make : Nat → Rule σ → Rule τ} {first : Nat} {selector : Selector}
    {rule : Rule σ} {rules : List (Selector × Rule σ)} :
    remadeRules make first ((selector, rule) :: rules) =
      (selector, make first rule) :: remadeRules make (first + 1) rules := rfl

theorem compileWith_remade (make : Nat → Rule σ → Rule τ)
    (hmake : ∀ i rule, (make i rule).selector = rule.selector) (cache : Selector.Cache) (first : Nat)
    (rules : List (Rule σ)) :
    compileWith cache ((rules.zipIdx first).map fun entry => make entry.2 entry.1) =
      (compileWith cache rules).map (remadeRules make first) := by
  induction rules generalizing cache first with
  | nil => rfl
  | cons rule rules ih =>
    rw [List.zipIdx_cons, List.map_cons, compileWith, compileWith, hmake]
    cases (cache.contains rule.selector).mapError Failure.fault with
    | error e => rfl
    | ok known =>
      cases (cache.get rule.selector).mapError Failure.ofSelector with
      | error e => rfl
      | ok found =>
        obtain ⟨selector, cache⟩ := found
        simp only [bind, Except.bind, ih]
        cases compileWith cache rules with
        | error e => rfl
        | ok rules => rfl

/-- Only selectors are compiled. -/
theorem compile_remade (make : Nat → Rule σ → Rule τ)
    (hmake : ∀ i rule, (make i rule).selector = rule.selector) (filter : Filter σ) :
    compile (filter.remade make).rules = (compile filter.rules).map (remadeRules make 0) :=
  compileWith_remade make hmake [] 0 filter.rules

theorem cell_settleMetadata (root : NodeId) (c : Context σ) (n : NodeId) :
    (c.settleMetadata root).forest.cell n =
      if n = root then
        { c.forest.cell n with
          document := (c.forest.cell n).document.map fun d => { d with metadata := c.metadata }
          extras := Entries.erase "meta" (c.forest.cell n).extras }
      else c.forest.cell n := by
  rw [Context.settleMetadata, Forest.restoreMetadata, Forest.cell_update_of_default rfl, Forest.setMetadata,
    Forest.cell_update_of_default rfl]
  by_cases hn : n = root
  · simp [hn]
  · simp [hn]

theorem metadata_settleMetadata (root : NodeId) (c : Context σ) :
    (c.settleMetadata root).metadata = c.metadata := by
  have hsame : (c.settleMetadata root).metadataOf = c.metadataOf := rfl
  rw [Context.metadata, hsame, Forest.store?, cell_settleMetadata]
  split
  · cases hdocument : (c.forest.cell c.metadataOf).document with
    | none => simp [Context.metadata, Forest.store?, hdocument]
    | some d => rfl
  · rfl

/-- Where the metadata under edit are those of the document itself, only what was written in their place goes. -/
theorem cell_settleMetadata_self (c : Context σ) (n : NodeId) :
    (c.settleMetadata c.metadataOf).forest.cell n =
      if n = c.metadataOf then { c.forest.cell n with extras := Entries.erase "meta" (c.forest.cell n).extras }
      else c.forest.cell n := by
  rw [cell_settleMetadata]
  split
  · rename_i hn
    subst hn
    cases hdocument : (c.forest.cell c.metadataOf).document with
    | none => simp [hdocument]
    | some d => simp [Context.metadata, Forest.store?, hdocument]
  · rfl

/-- What a run comes to once the selectors are compiled. -/
theorem run_apply (filter : Filter σ) (fuel : Nat) (c : Context σ) :
    (filter.apply fuel).run c = match compile filter.rules with
      | .error e => (.error e, c)
      | .ok rules => match (visitAll rules fuel fuel 0 (.of c.document) none).run c with
        | (.error e, c') => (.error e, c')
        | (.ok outcome, c') => (.ok outcome, c'.settleMetadata c.document) := by
  rw [apply]
  cases compile filter.rules with
  | error e => rfl
  | ok rules =>
    dsimp only
    rw [run_bind, run_get]
    dsimp only
    rw [run_bind]
    cases hrun : (visitAll rules fuel fuel 0 (.of c.document) none).run c with
    | mk result c' => cases result <;> rfl

/-! ## Watching -/

/-- The call of an action on a node. -/
def callOf (i : Nat) (action : Action σ) (n : NodeId) (c : Context σ) : Call σ :=
  ⟨i, n, c, ((action n).run c).1, ((action n).run c).2⟩

/-- An action that writes down its calls. -/
def watchedAction (i : Nat) (action : Action σ) : Action (Watched σ) := fun n =>
  ExceptT.mk fun c =>
    let call := callOf i action n c.plain
    (call.answer, call.after.watching (c.calls ++ [call]))

/-- A rule whose action writes down its calls. -/
def watchedRule (i : Nat) (rule : Rule σ) : Rule (Watched σ) :=
  ⟨rule.selector, watchedAction i rule.action⟩

/-- A filter whose actions write down their calls. -/
def watched (filter : Filter σ) : Filter (Watched σ) := filter.remade watchedRule

/-- The calls that a run makes, in order. -/
def calls (filter : Filter σ) (fuel : Nat) (c : Context σ) : List (Call σ) :=
  ((filter.watched.apply fuel).run (c.watching [])).2.calls

theorem compile_watched (filter : Filter σ) :
    compile filter.watched.rules = (compile filter.rules).map (remadeRules watchedRule 0) :=
  compile_remade watchedRule (fun _ _ => rfl) filter

/-- A computation of a watched run does what one of the plain run does, and the calls that it makes are added
to those that were made before. -/
def Follows {α : Type} (calls : List (Call σ)) (out : Except Failure α × Context σ)
    (watched : Except Failure α × Context (Watched σ)) : Prop :=
  ∃ more, watched = (out.1, out.2.watching (calls ++ more))

section Follows

variable {α : Type} {calls : List (Call σ)} {out : Except Failure α × Context σ}

theorem Follows.none : Follows calls out (out.1, out.2.watching calls) := ⟨[], by simp⟩

theorem Follows.after {more : List (Call σ)} {watched : Except Failure α × Context (Watched σ)}
    (h : Follows (calls ++ more) out watched) : Follows calls out watched := by
  obtain ⟨rest, rfl⟩ := h
  exact ⟨more ++ rest, by simp⟩

end Follows

theorem run_watchedAction {i : Nat} {action : Action σ} {calls : List (Call σ)} :
    (watchedAction i action n).run (c.watching calls) =
      ((callOf i action n c).answer, (callOf i action n c).after.watching (calls ++ [callOf i action n c])) :=
  rfl

theorem run_attempt_watched {text : String} {i : Nat} {action : Action σ} {calls : List (Call σ)} :
    (attempt text (watchedAction i action) n).run (c.watching calls) =
      (((attempt text action n).run c).1,
        ((attempt text action n).run c).2.watching (calls ++ [callOf i action n c])) := by
  rw [run_attempt, run_watchedAction, run_attempt, callOf]
  rcases (action n).run c with ⟨cause | signal, c'⟩
  · dsimp only
    split <;> rfl
  · rfl

theorem heeding_watching (text : String) (signal : Signal) (calls : List (Call σ)) (c : Context σ) :
    heeding text signal (c.watching calls) = (heeding text signal c).watching calls := by
  cases signal <;> rfl

theorem follows_tried {rest : Run σ Bool} {rest' : Run (Watched σ) Bool} {calls : List (Call σ)}
    (hrest : ∀ calls c, Follows calls (rest.run c) (rest'.run (c.watching calls))) (text : String)
    (answer : Except Failure Signal) (c : Context σ) :
    Follows calls (tried text rest (answer, c)) (tried text rest' (answer, c.watching calls)) := by
  cases answer with
  | error e => exact .none
  | ok signal =>
    have hstop : (c.watching calls).stopRequested = c.stopRequested := rfl
    rw [tried, tried, hstop, heeding_watching]
    split
    · exact .none
    · exact hrest _ _

theorem follows_dispatch (n : NodeId) (rules : List (Selector × Rule σ)) (first : Nat)
    (calls : List (Call σ)) (c : Context σ) : Follows calls ((dispatch n rules).run c)
      ((dispatch n (remadeRules watchedRule first rules)).run (c.watching calls)) := by
  induction rules generalizing first calls c with
  | nil => exact .none
  | cons entry rules ih =>
    obtain ⟨selector, rule⟩ := entry
    rw [remadeRules_cons, run_dispatch, run_dispatch, watchedRule, run_attempt_watched]
    have hsame : selector.selects (c.watching calls).forest (c.watching calls).visits n =
        selector.selects c.forest c.visits n := rfl
    rw [hsame]
    rcases selector.selects c.forest c.visits n with fault | _ | _
    · exact .none
    · exact ih _ _ _
    · exact (follows_tried (ih (first + 1)) _ _ _).after

/-- Going on to the next node does not look at what actions share. -/
theorem run_next_watched {calls : List (Call σ)} :
    (next steps w current).run (c.watching calls) =
      (((next steps w current).run c).1, ((next steps w current).run c).2.watching calls) := by
  have hforest : (c.watching calls).forest = c.forest := rfl
  have hhistory : (c.watching calls).history = c.history := rfl
  obtain ⟨x, r, rfl, hmark⟩ | hmark := marked_or current c.forest
  · rw [next_of_replaced (c := c.watching calls) hmark, next_of_replaced hmark, hforest, hhistory]
    split
    · rfl
    · split <;> rfl
  · rw [next_of_unmarked (c := c.watching calls) hmark, next_of_unmarked hmark, hforest]
    cases w.next steps c.forest <;> rfl

theorem follows_visitAll (rules : List (Selector × Rule σ)) (steps fuel visited : Nat) (w : Walker)
    (current : Option NodeId) (calls : List (Call σ)) (c : Context σ) :
    Follows calls ((visitAll rules steps fuel visited w current).run c)
      ((visitAll (remadeRules watchedRule 0 rules) steps fuel visited w current).run (c.watching calls)) := by
  induction fuel generalizing visited w current calls c with
  | zero => exact .none
  | succ fuel ih =>
    rw [run_visitAll, run_visitAll, run_next_watched]
    cases (next steps w current).run c with
    | mk found c' =>
      cases found with
      | error e => exact .none
      | ok found =>
        obtain ⟨_ | n, w'⟩ := found
        · exact .none
        · obtain ⟨more, hmore⟩ := follows_dispatch n rules 0 calls c'
          dsimp only
          rw [hmore]
          cases (dispatch n rules).run c' with
          | mk result c'' =>
            cases result with
            | error e => exact Follows.none.after
            | ok halt =>
              cases halt with
              | true => exact Follows.none.after
              | false => exact (ih _ _ _ _ _).after

theorem calls_of_refused {filter : Filter σ} {e : Failure} (h : compile filter.rules = .error e) :
    filter.calls fuel c = [] := by
  rw [calls, run_apply, compile_watched, h]
  rfl

theorem calls_of_compiled {filter : Filter σ} {rules : List (Selector × Rule σ)}
    (h : compile filter.rules = .ok rules) : filter.calls fuel c =
      ((visitAll (remadeRules watchedRule 0 rules) fuel fuel 0 (.of c.document) none).run
        (c.watching [])).2.calls := by
  have hmap : (Except.ok rules : Except Failure _).map (remadeRules watchedRule 0) =
      .ok (remadeRules watchedRule 0 rules) := rfl
  have hroot : (c.watching []).document = c.document := rfl
  rw [calls, run_apply, compile_watched, h, hmap, hroot]
  dsimp only
  rcases (visitAll (remadeRules watchedRule 0 rules) fuel fuel 0 (.of c.document) none).run (c.watching [])
    with ⟨e | outcome, c'⟩ <;> rfl

end Filter

end DocFilter
