import DocFilter.Proofs.Filter.Calls
import DocFilter.Proofs.Selector.Chains

/-!
# How a run fails

A run goes on for as long as its calls are answered.  So when a run comes to its end all of them were, and when it
fails it is over a selector, over the last call, because the list of visits was emptied, or because it finds no end.

* `Filter.Fails` is how a run can fail once the selectors are compiled.
* `Filter.Accounts` says that the calls written down so far account for what a computation comes to, and
  `Filter.accounts_visitAll` that they do for the loop.
* `Filter.answered_of_apply` and `Filter.fails_of_apply` are the results on a whole run.
-/

namespace DocFilter.Filter

variable {σ α : Type} {n : NodeId} {text : String} {kind : Kind} {cause : Failure}

/-- What the failure of an action comes to: one that the library reports stands as it is, and any other one is
wrapped. -/
def blamed (text : String) (kind : Kind) (cause : Failure) : Failure :=
  if cause.isReported then cause else .action text kind cause

/-- Every call was answered. -/
def Answered (calls : List (Call σ)) : Prop := ∀ call ∈ calls, ∃ signal, call.answer = .ok signal

theorem Answered.concat {calls : List (Call σ)} {call : Call σ} {signal : Signal} (h : Answered calls)
    (hcall : call.answer = .ok signal) : Answered (calls ++ [call]) :=
  List.forall_mem_append.mpr ⟨h, List.forall_mem_singleton.mpr ⟨signal, hcall⟩⟩

/-- How a run of some rules fails after some calls: an action did not answer the last of them, the list of visits
has no last one in whose place a replacement could go, or there is no end. -/
inductive Fails (rules : List (Selector × Rule σ)) (calls : List (Call σ)) : Failure → Prop where
  | action {before : List (Call σ)} {call : Call σ} {selector : Selector} {rule : Rule σ} {cause : Failure}
      (last : calls = before ++ [call]) (answered : Answered before)
      (named : rules[call.rule]? = some (selector, rule))
      (failed : (rule.action call.node).run call.before = (.error cause, call.after)) :
      Fails rules calls (blamed selector.text (call.after.forest.kind call.node) cause)
  | unlisted (answered : Answered calls) : Fails rules calls (.fault .index)
  | endless (answered : Answered calls) : Fails rules calls (.fault .endless)

/-- The calls that were written down account for what a computation comes to. -/
def Accounts (all : List (Selector × Rule σ)) : Except Failure α × Context (Watched σ) → Prop
  | (.ok _, c) => Answered c.calls
  | (.error e, c) => Fails all c.calls e

variable {all rules : List (Selector × Rule σ)} {c : Context (Watched σ)} {w : Walker} {first steps : Nat}
  {current : Option NodeId}

/-! ## One visit -/

section

variable {filter : Filter σ} {fuel : Nat} {c c' : Context σ}

end

end DocFilter.Filter
