import DocFilter.Proofs.Filter.Calls
import DocFilter.Proofs.Filter.Refinement

/-!
# Runs that are stopped

An action ends the run by its answer, or by asking the context for it and answering anything.  Both ways come
to the same: the calls up to that one are made as in the run without the stop, and none is made after it.  As at the
end of any run, the document is then given the metadata under edit.

* `Demand` is a way to ask, and `Filter.stopping` is a filter that runs as another one does but asks for the
  end at the call with a given number.
* `Filter.Cuts` compares a computation with the one that asks: nothing differs before the call, and the call
  is the last one.  `Filter.cuts_dispatch` is one visit, `Filter.cuts_visitAll` all visits.
* `Filter.Concludes` is what a run leaves, and `Filter.apply_stopping` is the comparison of whole runs.
-/

namespace DocFilter

/-- How an action asks for the end of a run. -/
inductive Demand where
  /-- It answers so. -/
  | halt
  /-- It asks the context for it, and may answer anything. -/
  | stop (answer : Signal)
deriving DecidableEq, Repr, Inhabited

namespace Demand

variable {σ : Type}

/-- The answer of an action that asks. -/
def answer : Demand → Signal
  | halt => .halt
  | stop answer => answer

/-- The context that an action leaves when it asks. -/
def leave : Demand → Context σ → Context σ
  | halt, c => c
  | stop _, c => c.stop.2

/-- Either way the run is to end. -/
theorem ends (demand : Demand) (c : Context σ) :
    (demand.answer = .halt || (demand.leave c).stopRequested) = true := by
  cases demand <;> simp [answer, leave, Context.stop]

theorem leave_watching (demand : Demand) (calls : List (Call σ)) (c : Context σ) :
    demand.leave (c.watching calls) = (demand.leave c).watching calls := by
  cases demand <;> rfl

end Demand

namespace Filter

variable {σ α : Type} {n : NodeId} {c c' : Context σ} {k : Nat} {demand : Demand} {calls : List (Call σ)}

/-! ## Asking at a call -/

/-- What an action does that asks for the end of the run if `k` calls were made before, unless it fails. -/
def asking (k : Nat) (demand : Demand) (made : Nat) (out : Except Failure Signal × Context (Watched σ)) :
    Except Failure Signal × Context (Watched σ) := match out with
  | (.ok signal, c) => if made = k then (.ok demand.answer, demand.leave c) else (.ok signal, c)
  | (.error e, c) => (.error e, c)

/-- An action that writes down its calls and asks for the end of the run at the one with that number. -/
def stoppingAction (k : Nat) (demand : Demand) (i : Nat) (action : Action σ) : Action (Watched σ) :=
  fun n => ExceptT.mk fun c => asking k demand c.calls.length ((watchedAction i action n).run c)

/-- A rule that asks for the end of the run at the call with that number. -/
def stoppingRule (k : Nat) (demand : Demand) (i : Nat) (rule : Rule σ) : Rule (Watched σ) :=
  ⟨rule.selector, stoppingAction k demand i rule.action⟩

/-- A filter whose actions write down their calls, and where the call with that number, counted from zero,
asks for the end of the run. -/
def stopping (k : Nat) (demand : Demand) (filter : Filter σ) : Filter (Watched σ) :=
  filter.remade (stoppingRule k demand)

theorem compile_stopping (k : Nat) (demand : Demand) (filter : Filter σ) :
    compile (filter.stopping k demand).rules =
      (compile filter.rules).map (remadeRules (stoppingRule k demand) 0) :=
  compile_remade (stoppingRule k demand) (fun _ _ => rfl) filter

theorem run_stoppingAction {i : Nat} {action : Action σ} :
    (stoppingAction k demand i action n).run (c.watching calls) = asking k demand calls.length
      ((callOf i action n c).answer, (callOf i action n c).after.watching (calls ++ [callOf i action n c])) :=
  rfl

/-- Away from its call nothing is asked for. -/
theorem run_attempt_stopping_of_ne {text : String} {i : Nat} {action : Action σ} (hk : calls.length ≠ k) :
    (attempt text (stoppingAction k demand i action) n).run (c.watching calls) =
      (attempt text (watchedAction i action) n).run (c.watching calls) := by
  rw [run_attempt, run_stoppingAction, run_attempt, run_watchedAction]
  cases (callOf i action n c).answer with
  | error e => rfl
  | ok signal => rw [asking, if_neg hk]

/-- At its call the end is asked for, unless the action fails there. -/
theorem run_attempt_stopping {text : String} {i : Nat} {action : Action σ} {signal : Signal}
    (hk : calls.length = k) (hanswer : (callOf i action n c).answer = .ok signal) :
    (attempt text (stoppingAction k demand i action) n).run (c.watching calls) =
      (.ok demand.answer,
        (demand.leave (callOf i action n c).after).watching (calls ++ [callOf i action n c])) := by
  rw [run_attempt, run_stoppingAction, hanswer, asking, if_pos hk, Demand.leave_watching]

/-! ## What a computation comes to -/

/-- A computation that writes down calls, and the same one with a stop at a call: where the first does not
come to the call nothing differs, and where the call is made and answered it is the last one. -/
structure Cuts (k : Nat) (demand : Demand) (last : α → Prop)
    (out out' : Except Failure α × Context (Watched σ)) : Prop where
  same : out.2.calls.length ≤ k → out' = out
  stopped : ∀ call signal, out.2.calls[k]? = some call → call.answer = .ok signal →
    ∃ a, last a ∧ out' = (.ok a, (demand.leave call.after).watching (out.2.calls.take (k + 1)))

/-- A computation that does not come to the call. -/
theorem Cuts.refl {last : α → Prop} {out : Except Failure α × Context (Watched σ)}
    (h : out.2.calls.length ≤ k) : Cuts k demand last out out where
  same := fun _ => rfl
  stopped := fun call signal hcall => by
    rw [List.getElem?_eq_none h] at hcall
    cases hcall

/-- Where the call is made in the first part of a computation and ends that part, the rest is cut off. -/
theorem Cuts.extend {β : Type} {last : α → Prop} {last' : β → Prop}
    {mid mid' : Except Failure α × Context (Watched σ)} {out out' : Except Failure β × Context (Watched σ)}
    (h : Cuts k demand last mid mid') (hmade : k < mid.2.calls.length)
    (hcalls : ∃ more, out.2.calls = mid.2.calls ++ more)
    (hends : ∀ a c calls, last a → mid' = (.ok a, (demand.leave c).watching calls) →
      ∃ b, last' b ∧ out' = (.ok b, (demand.leave c).watching calls)) : Cuts k demand last' out out' := by
  obtain ⟨more, hcalls⟩ := hcalls
  refine ⟨fun hshort => ?_, fun call signal hcall hanswer => ?_⟩
  · rw [hcalls, List.length_append] at hshort
    omega
  · rw [hcalls, List.getElem?_append_left hmade] at hcall
    obtain ⟨a, hlast, hmid⟩ := h.stopped call signal hcall hanswer
    rw [hcalls, List.take_append_of_le_length (by omega)]
    exact hends a _ _ hlast hmid

/-- The call itself. -/
theorem cuts_attempt (text : String) (i : Nat) (action : Action σ) (n : NodeId) (c : Context σ)
    (hcalls : calls.length = k) :
    Cuts k demand (fun signal => signal = demand.answer)
      ((attempt text (watchedAction i action) n).run (c.watching calls))
      ((attempt text (stoppingAction k demand i action) n).run (c.watching calls)) := by
  subst hcalls
  rw [run_attempt_watched]
  refine ⟨fun hshort => ?_, fun call signal hcall hanswer => ⟨demand.answer, rfl, ?_⟩⟩
  · rw [Context.calls_watching, List.length_append, List.length_singleton] at hshort
    omega
  · rw [Context.calls_watching] at hcall ⊢
    obtain rfl : callOf i action n c = call := by simpa using hcall
    rw [run_attempt_stopping rfl hanswer, List.take_of_length_le (by simp)]

/-- One visit. -/
theorem cuts_dispatch (demand : Demand) (n : NodeId) (rules : List (Selector × Rule σ)) (first : Nat)
    (calls : List (Call σ)) (c : Context σ) (hcalls : calls.length ≤ k) :
    Cuts k demand (fun halt => halt = true)
      ((dispatch n (remadeRules watchedRule first rules)).run (c.watching calls))
      ((dispatch n (remadeRules (stoppingRule k demand) first rules)).run (c.watching calls)) := by
  induction rules generalizing first calls c with
  | nil => exact .refl hcalls
  | cons entry rules ih =>
    obtain ⟨selector, rule⟩ := entry
    rw [remadeRules_cons, remadeRules_cons, run_dispatch, run_dispatch, watchedRule, stoppingRule]
    have hmade : (calls ++ [callOf first rule.action n c]).length = calls.length + 1 := by simp
    split
    · exact .refl hcalls
    · by_cases hk : calls.length = k
      · refine (cuts_attempt selector.text first rule.action n c hk).extend ?_ ?_
          fun answer c' calls' hanswer hrun => ⟨true, rfl, ?_⟩
        · rw [run_attempt_watched, Context.calls_watching]
          omega
        · rw [run_attempt_watched]
          obtain ⟨more, hmore⟩ := follows_tried (follows_dispatch n rules (first + 1)) selector.text
            ((attempt selector.text rule.action n).run c).1 ((attempt selector.text rule.action n).run c).2
          exact ⟨more, by rw [hmore]; rfl⟩
        · have hend : (demand.answer = .halt ||
              ((demand.leave c').watching calls').stopRequested) = true := demand.ends c'
          rw [hrun, hanswer, tried, if_pos hend]
      · rw [run_attempt_stopping_of_ne hk, run_attempt_watched]
        cases (attempt selector.text rule.action n).run c with
        | mk answer c' =>
          cases answer with
          | error e => exact .refl (by rw [tried, Context.calls_watching]; omega)
          | ok signal =>
            rw [tried, tried]
            split
            · exact .refl (by rw [Context.calls_watching]; omega)
            · rw [heeding_watching]
              exact ih _ _ _ (by omega)
    · exact ih _ _ _ hcalls

/-- A run. -/
theorem cuts_visitAll (demand : Demand) (rules : List (Selector × Rule σ)) (steps fuel visited : Nat)
    (w : Walker) (current : Option NodeId) (calls : List (Call σ)) (c : Context σ) (hcalls : calls.length ≤ k) :
    Cuts k demand (fun outcome => outcome.halted = true)
      ((visitAll (remadeRules watchedRule 0 rules) steps fuel visited w current).run (c.watching calls))
      ((visitAll (remadeRules (stoppingRule k demand) 0 rules) steps fuel visited w current).run
        (c.watching calls)) := by
  induction fuel generalizing visited w current calls c with
  | zero => exact .refl hcalls
  | succ fuel ih =>
    rw [run_visitAll, run_visitAll, run_next_watched]
    rcases (next steps w current).run c with ⟨e | ⟨_ | n, w'⟩, c'⟩
    · exact .refl hcalls
    · exact .refl hcalls
    · have hcuts := cuts_dispatch demand n rules 0 calls c' hcalls
      obtain ⟨more, hmore⟩ := follows_dispatch n rules 0 calls c'
      dsimp only
      by_cases hshort : (calls ++ more).length ≤ k
      · have hsame := hcuts.same (by rw [hmore]; exact hshort)
        rw [hsame, hmore]
        rcases (dispatch n rules).run c' with ⟨e | _ | _, c''⟩
        · exact .refl hshort
        · exact ih _ _ _ _ _ hshort
        · exact .refl hshort
      · refine hcuts.extend (by rw [hmore, Context.calls_watching]; omega) ?_
          fun halt c'' calls' hhalt hrun => ⟨⟨true, visited + 1⟩, rfl, by rw [hrun, hhalt]⟩
        rw [hmore]
        rcases (dispatch n rules).run c' with ⟨e | _ | _, c''⟩
        · exact ⟨[], by simp⟩
        · obtain ⟨rest, hrest⟩ := follows_visitAll rules steps fuel (visited + 1) w' (some n) (calls ++ more) c''
          exact ⟨rest, by dsimp only; rw [hrest]; rfl⟩
        · exact ⟨[], by simp⟩

/-- What a run leaves that ends in a context.  Its document has the metadata under edit, whatever was written in
their place, and is otherwise as it was, like everything else. -/
structure Concludes (root : NodeId) (c last : Context σ) : Prop where
  cell : ∀ n, last.forest.cell n = if n = root then
      { c.forest.cell n with
        document := (c.forest.cell n).document.map fun d => { d with metadata := c.metadata }
        extras := Entries.erase "meta" (c.forest.cell n).extras }
    else c.forest.cell n
  kept : c.metadataOf = root → Entries.has "meta" (c.forest.cell root).extras = false →
    ∀ n, last.forest.cell n = c.forest.cell n
  metadata : last.metadata = c.metadata
  document : last.document = c.document
  metadataOf : last.metadataOf = c.metadataOf
  targetFormat : last.targetFormat = c.targetFormat
  shared : last.shared = c.shared
  current : last.current = c.current
  visits : last.visits = c.visits
  log : last.log = c.log

theorem erase_of_not_has {β : Type} {key : String} {entries : Entries β} (h : Entries.has key entries = false) :
    Entries.erase key entries = entries := by
  refine List.filter_eq_self.mpr fun entry hentry => ?_
  simpa [bne] using List.any_eq_false.mp h entry hentry

/-- The metadata of a document that are under edit and stand in their place are there after the run. -/
theorem cell_settleMetadata_of_unwritten {root : NodeId} (hroot : c.metadataOf = root)
    (hmeta : Entries.has "meta" (c.forest.cell root).extras = false) (n : NodeId) :
    (c.settleMetadata root).forest.cell n = c.forest.cell n := by
  subst hroot
  rw [cell_settleMetadata_self]
  split
  · rename_i hn
    subst hn
    rw [erase_of_not_has hmeta]
  · rfl

theorem concludes_settleMetadata (root : NodeId) (c : Context σ) : Concludes root c (c.settleMetadata root) where
  cell := cell_settleMetadata root c
  kept := cell_settleMetadata_of_unwritten
  metadata := metadata_settleMetadata root c
  document := rfl
  metadataOf := rfl
  targetFormat := rfl
  shared := rfl
  current := rfl
  visits := rfl
  log := rfl

/-- Asking for the end does not touch the document or the metadata. -/
theorem Concludes.of_leave {root : NodeId} {last : Context σ} (h : Concludes root (demand.leave c) last) :
    Concludes root c last := by
  cases demand <;> exact { h with }

/-- If a call of a run asks for the end in addition, by its answer or by asking the context, then the run
makes the calls up to that one, with the nodes and contexts of the run without the stop, and no other; it is
halted and leaves the document and the metadata as they were after that call, but that the document then has the
metadata under edit, whatever was written in their place. -/
theorem apply_stopping (filter : Filter σ) (fuel k : Nat) (demand : Demand) (c : Context σ) {call : Call σ}
    {signal : Signal} (hcall : (filter.calls fuel c)[k]? = some call) (hanswer : call.answer = .ok signal) :
    ∃ visited last, ((filter.stopping k demand).apply fuel).run (c.watching []) =
      (.ok ⟨true, visited⟩, Context.watching ((filter.calls fuel c).take (k + 1)) last) ∧
        Concludes c.document call.after last := by
  cases hcompile : compile filter.rules with
  | error e =>
    rw [calls_of_refused hcompile] at hcall
    cases hcall
  | ok rules =>
    have hmap : (Except.ok rules : Except Failure _).map (remadeRules (stoppingRule k demand) 0) =
        .ok (remadeRules (stoppingRule k demand) 0 rules) := rfl
    have hroot : (c.watching []).document = c.document := rfl
    rw [calls_of_compiled hcompile] at hcall ⊢
    have hcuts := cuts_visitAll demand rules fuel fuel 0 (.of c.document) none [] c (Nat.zero_le k)
    obtain ⟨⟨halted, visited⟩, rfl, hrun⟩ := hcuts.stopped call signal hcall hanswer
    refine ⟨visited, (demand.leave call.after).settleMetadata c.document, ?_,
      (concludes_settleMetadata c.document (demand.leave call.after)).of_leave⟩
    rw [run_apply, compile_stopping, hcompile, hmap, hroot]
    dsimp only
    rw [hrun]
    rfl

/-- Two rules for every block: one that quotes it and one that takes out what is in it. -/
def quotingBlocks : Filter Unit where
  rules := [⟨.str "Block", quote⟩, ⟨.str "Block", unquote⟩]

/-- The quoting of the line is the first call, and a stop there keeps the second rule from the line and both
rules from the quote that was put in its place. -/
theorem stopped_quotingBlocks :
    (quotingBlocks.calls 3 lined)[0]? = some (callOf 0 quote ⟨0⟩ atLine) ∧
      (callOf 0 quote ⟨0⟩ atLine).answer = .ok .proceed ∧
      ∃ visited last, ((quotingBlocks.stopping 0 .halt).apply 3).run (lined.watching []) =
        (.ok ⟨true, visited⟩, Context.watching ((quotingBlocks.calls 3 lined).take 1) last) ∧
          Concludes ⟨1⟩ (callOf 0 quote ⟨0⟩ atLine).after last :=
  have hcall : (quotingBlocks.calls 3 lined)[0]? = some (callOf 0 quote ⟨0⟩ atLine) := rfl
  ⟨hcall, rfl, apply_stopping quotingBlocks 3 0 .halt lined hcall rfl⟩

/-- Writes a number in the place of the metadata of the document. -/
def overwriting : Action Unit := fun _ => do
  let c ← get
  set { c with forest := ← ofExcept (c.forest.setValue c.document "meta" (.data (.int 5))) }
  pure .proceed

/-- What an action wrote in the place of the metadata is gone after the run, though the run was stopped by that very
call. -/
theorem stopped_overwriting : ¬ ∀ (filter : Filter Unit) (fuel k : Nat) (demand : Demand) (c : Context Unit)
    (call : Call Unit) (signal : Signal), (filter.calls fuel c)[k]? = some call → call.answer = .ok signal →
      ∃ visited last, ((filter.stopping k demand).apply fuel).run (c.watching []) =
        (.ok ⟨true, visited⟩, Context.watching ((filter.calls fuel c).take (k + 1)) last) ∧
          last.metadata = call.after.metadata ∧ ∀ n, last.forest.cell n = call.after.forest.cell n := by
  intro h
  let filter : Filter Unit := { rules := [⟨.str "Block", overwriting⟩] }
  obtain ⟨visited, last, hrun, -, hcell⟩ := h filter 3 0 .halt lined (callOf 0 overwriting ⟨0⟩ atLine) .proceed rfl rfl
  have hlast : last = (callOf 0 overwriting ⟨0⟩ atLine).after.settleMetadata ⟨1⟩ :=
    congrArg (Context.plain ∘ Prod.snd) hrun.symm
  have hkept := congrArg (fun cell => Entries.has "meta" cell.extras) (hcell ⟨1⟩)
  rw [hlast] at hkept
  cases hkept

end Filter

end DocFilter
