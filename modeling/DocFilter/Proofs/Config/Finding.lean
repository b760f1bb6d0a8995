import DocFilter.Config.Load
import DocFilter.Proofs.Toml.Refused

/-!
# Finding a configuration

Without a file that is asked for, the options come from the nearest configuration file on the way from a directory up
to a root.  Project files lie on that way too, and most of them are those of other programs.

* `FilePath.Climbs` is the way up.
* `Config.HoldsOptions` tells the project files that count and `Config.Trips` those that make the search fail;
  `Config.holdsOptions_fares` says that the search gets past all others.
* `Config.Candidate` is the configuration file of a directory, and `Config.Stops` says that a directory makes the
  search fail.
* `Config.Nearest` says what should be found, without the search, and up to where it has to look for that.
* `Config.find_account` is the result: what should be found is found, unless a directory up to there stops the search.
  There are four ways for it to do so: a path that cannot be asked for, bytes that are no text, a numeral that is too
  long to be read, and something other than a table under `tool`.
-/

namespace DocFilter

/-! ## Searching a list -/

/-- An element stands in a list past elements of one sort only. -/
def Past {α : Type} (passed : α → Prop) (xs : List α) (a : α) : Prop :=
  ∃ before after, xs = before ++ a :: after ∧ ∀ b ∈ before, passed b

section

variable {α β ε : Type} {passed : α → Prop} {x a : α} {xs : List α}

theorem past_cons_iff : Past passed (x :: xs) a ↔ a = x ∨ passed x ∧ Past passed xs a := by
  constructor
  · rintro ⟨before, after, heq, hpassed⟩
    cases before with
    | nil => exact .inl (List.cons.inj heq).1.symm
    | cons b before =>
      obtain ⟨rfl, rfl⟩ := List.cons.inj heq
      obtain ⟨hb, hpassed⟩ := List.forall_mem_cons.mp hpassed
      exact .inr ⟨hb, before, after, rfl, hpassed⟩
  · rintro (rfl | ⟨hx, before, after, rfl, hpassed⟩)
    · exact ⟨[], xs, rfl, List.forall_mem_nil _⟩
    · exact ⟨x :: before, after, rfl, List.forall_mem_cons.mpr ⟨hx, hpassed⟩⟩

theorem Past.mono {passed' : α → Prop} (h : Past passed xs a) (himp : ∀ b, passed b → passed' b) :
    Past passed' xs a := by
  obtain ⟨before, after, rfl, hpassed⟩ := h
  exact ⟨before, after, rfl, fun b hb => himp b (hpassed b hb)⟩

theorem Past.mem (h : Past passed xs a) : a ∈ xs := by
  obtain ⟨before, after, rfl, -⟩ := h
  simp

/-- What is found first is found once: two elements that are not passed, past those that are, are one. -/
theorem Past.unique {b : α} (ha : Past passed xs a) (hb : Past passed xs b) (hna : ¬ passed a) (hnb : ¬ passed b) :
    a = b := by
  induction xs with
  | nil => exact absurd ha.mem List.not_mem_nil
  | cons x xs ih =>
    rcases past_cons_iff.mp ha with rfl | ⟨hx, ha⟩ <;> rcases past_cons_iff.mp hb with rfl | ⟨hx', hb⟩
    · rfl
    · exact absurd hx' hna
    · exact absurd hx hnb
    · exact ih ha hb

variable {f : α → Except ε (Option β)}

theorem findSomeM?_eq_ok_none_iff : xs.findSomeM? f = .ok none ↔ ∀ a ∈ xs, f a = .ok none := by
  induction xs with
  | nil => simp [pure, Except.pure]
  | cons x xs ih =>
    rw [List.findSomeM?, List.forall_mem_cons, ← ih]
    rcases f x with e | _ | b <;> simp [bind, Except.bind, pure, Except.pure]

/-- A search ends at the first element that gives something or fails. -/
theorem findSomeM?_eq_iff {r : Except ε (Option β)} (hr : r ≠ .ok none) :
    xs.findSomeM? f = r ↔ ∃ a, Past (f · = .ok none) xs a ∧ f a = r := by
  induction xs with
  | nil =>
    refine ⟨fun h => absurd h.symm hr, ?_⟩
    rintro ⟨a, hpast, -⟩
    exact absurd hpast.mem List.not_mem_nil
  | cons x xs ih =>
    simp only [past_cons_iff, or_and_right, exists_or, exists_eq_left, and_assoc, exists_and_left, ← ih]
    rw [List.findSomeM?]
    rcases hx : f x with e | _ | b <;> simp [bind, Except.bind, pure, Except.pure, hr.symm]

end

/-! ## Directories on the way up -/

namespace FilePath

/-- A directory, then the one that holds it, and so on up to a root. -/
inductive Climbs : FilePath → List FilePath → Prop
  | root (root : String) : Climbs ⟨root, []⟩ [⟨root, []⟩]
  | up {root name : String} {names : List String} {directories : List FilePath}
      (above : Climbs ⟨root, names⟩ directories) :
      Climbs ⟨root, names ++ [name]⟩ (⟨root, names ++ [name]⟩ :: directories)

theorem ancestors_concat (root name : String) (names : List String) :
    ancestors ⟨root, names ++ [name]⟩ = ⟨root, names ++ [name]⟩ :: ancestors ⟨root, names⟩ := by
  have hwhole : (names ++ [name]).take (names.length + 1) = names ++ [name] := List.take_of_length_le (by simp)
  simp only [ancestors, List.length_append, List.length_singleton, List.range_succ (n := names.length + 1),
    List.reverse_append, List.reverse_singleton, List.singleton_append, List.map_cons, hwhole]
  refine congrArg _ (List.map_congr_left fun count hcount => ?_)
  have hle : count ≤ names.length := by simpa [Nat.lt_succ_iff] using hcount
  rw [List.take_append_of_le_length hle]

theorem climbs_iff {p : FilePath} {directories : List FilePath} :
    p.Climbs directories ↔ directories = p.ancestors := by
  constructor
  · intro h
    induction h with
    | root root => rfl
    | up above ih => rw [ancestors_concat, ih]
  · rintro rfl
    obtain ⟨root, names⟩ := p
    induction names using List.reverseRecOn with
    | nil => exact .root root
    | append_singleton names name ih =>
      rw [ancestors_concat]
      exact .up ih

end FilePath

/-! ## Files -/

/-- Whether a value is a table. -/
def Plain.isTable : Plain → Bool
  | .map _ => true
  | _ => false

/-- What a path leads to is a file, whether or not it can be read. -/
inductive Content.IsFile : Content → Prop
  | unreadable (detail : String) : IsFile (.unreadable detail)
  | bytes (content : ByteArray) : IsFile (.bytes content)

namespace Config

variable {host : Host} {directory path : FilePath} {text : String} {fault : Fault}

/-- A path leads to a file that can be read, and its bytes are a text. -/
inductive HasText (host : Host) (path : FilePath) (text : String) : Prop
  | intro {content : ByteArray} (read : host.read path = .bytes content)
      (decoded : String.fromUTF8? content = some text)

/-- A project file that counts: it is TOML, and what it has under `tool` and there under `panfilter` is a table that is
not empty. -/
inductive HoldsOptions (host : Host) (path : FilePath) : Prop
  | intro {text : String} {entries tools options : Entries} (file : HasText host path text)
      (toml : Toml.read text = .ok entries) (tool : Plain.find? "tool" entries = some (.map tools))
      (table : Plain.find? "panfilter" tools = some (.map options)) (filled : options ≠ [])

/-- A project file that a search does not get past, and the fault that stops the search. -/
inductive Trips (host : Host) (path : FilePath) : Fault → Prop
  /-- The system does not say whether it is there. -/
  | refused (read : host.read path = .refused) : Trips host path .system
  /-- Its bytes are no text. -/
  | encoding {content : ByteArray} (read : host.read path = .bytes content)
      (undecoded : String.fromUTF8? content = none) : Trips host path (.value .encoding)
  /-- It has a numeral that is too long to be read. -/
  | numeral {text : String} {count : Nat} (file : HasText host path text)
      (toml : Toml.read text = .error (.unfit (.longNumeral count))) (long : Toml.HasLongNumeral count text.toList) :
      Trips host path (.value (.longNumeral count))
  /-- What it has under `tool` is no table. -/
  | tool {text : String} {entries : Entries} {found : Plain} (file : HasText host path text)
      (toml : Toml.read text = .ok entries) (tool : Plain.find? "tool" entries = some found)
      (noTable : ¬ found.isTable) : Trips host path .attribute

/-- What a text in a project file comes to. -/
theorem holdsOptions_of_hasText (file : HasText host path text) : holdsOptions host path =
    match (Toml.read text).mapError (.ofRead (.toml path)) >>= toolTable path with
      | .ok entries => .ok (!entries.isEmpty)
      | .error (.fault f) => .error f
      | .error _ => .ok false := by
  cases file with
  | intro read decoded =>
    simp only [holdsOptions, Host.isFile, read, readProject, readToml, textOf, decoded]
    rfl

theorem holdsOptions_of_unfit {reason : Unfit} (file : HasText host path text)
    (toml : Toml.read text = .error (.unfit reason)) : holdsOptions host path = .error (.value reason) := by
  rw [holdsOptions_of_hasText file, toml]
  rfl

theorem holdsOptions_of_rule {e : Toml.Error} (file : HasText host path text)
    (toml : Toml.read text = .error (.rule e)) : holdsOptions host path = .ok false := by
  rw [holdsOptions_of_hasText file, toml]
  rfl

/-- What the tables in a project file come to. -/
theorem holdsOptions_of_toml {entries : Entries} (file : HasText host path text)
    (toml : Toml.read text = .ok entries) : holdsOptions host path =
    match Plain.find? "tool" entries with
      | none => .ok false
      | some (.map tools) => match Plain.find? "panfilter" tools with
        | some (.map options) => .ok (!options.isEmpty)
        | _ => .ok false
      | some _ => .error .attribute := by
  have hbind : (Toml.read text).mapError (.ofRead (.toml path)) >>= toolTable path = toolTable path entries := by
    rw [toml]
    rfl
  rw [holdsOptions_of_hasText file, hbind, toolTable.eq_def]
  cases Plain.find? "tool" entries with
  | none => rfl
  | some found =>
    cases found with
    | map tools =>
      dsimp only
      cases Plain.find? "panfilter" tools with
      | none => rfl
      | some found => cases found <;> rfl
    | _ => rfl

theorem HoldsOptions.holdsOptions (h : HoldsOptions host path) : holdsOptions host path = .ok true := by
  cases h with
  | intro file toml tool table filled =>
    rw [holdsOptions_of_toml file toml, tool]
    dsimp only
    rw [table]
    simpa using filled

theorem Trips.holdsOptions (h : Trips host path fault) : holdsOptions host path = .error fault := by
  cases h with
  | refused read =>
    simp only [Config.holdsOptions, Host.isFile, read]
    rfl
  | encoding read undecoded =>
    simp only [Config.holdsOptions, Host.isFile, read, readProject, readToml, textOf, undecoded]
    rfl
  | numeral file toml long => exact holdsOptions_of_unfit file toml
  | tool file toml tool noTable =>
    rw [holdsOptions_of_toml file toml, tool]
    split
    next h => cases h
    next tools h => exact absurd (by rw [Option.some.inj h]; rfl) noTable
    next => rfl

/-- A project file counts, or it stops the search, or neither. -/
theorem holdsOptions_fares (host : Host) (path : FilePath) :
    HoldsOptions host path ∨ holdsOptions host path = .ok false ∨ ∃ fault, Trips host path fault := by
  cases hread : host.read path with
  | absent =>
    refine .inr (.inl ?_)
    simp only [holdsOptions, Host.isFile, hread]
    rfl
  | refused => exact .inr (.inr ⟨_, .refused hread⟩)
  | unreadable detail =>
    refine .inr (.inl ?_)
    simp only [holdsOptions, Host.isFile, hread]
    rfl
  | bytes content =>
    cases hdecoded : String.fromUTF8? content with
    | none => exact .inr (.inr ⟨_, .encoding hread hdecoded⟩)
    | some text =>
      have file : HasText host path text := .intro hread hdecoded
      cases toml : Toml.read text with
      | error e =>
        cases e with
        | rule e => exact .inr (.inl (holdsOptions_of_rule file toml))
        | unfit reason =>
          obtain ⟨count, rfl, long⟩ := Toml.read_refused toml
          exact .inr (.inr ⟨_, .numeral file toml long⟩)
      | ok entries =>
        have hentries := holdsOptions_of_toml file toml
        split at hentries
        next => exact .inr (.inl hentries)
        next tools tool =>
          split at hentries
          next options table =>
            by_cases filled : options = []
            · exact .inr (.inl (by rw [hentries, filled]; rfl))
            · exact .inl (.intro file toml tool table filled)
          next => exact .inr (.inl hentries)
        next found noTable tool =>
          refine .inr (.inr ⟨_, .tool file toml tool fun htable => ?_⟩)
          cases found with
          | map tools => exact noTable tools rfl
          | _ => cases htable

theorem holdsOptions_eq_true_iff : holdsOptions host path = .ok true ↔ HoldsOptions host path := by
  refine ⟨fun h => ?_, HoldsOptions.holdsOptions⟩
  obtain hholds | hfalse | ⟨fault, htrips⟩ := holdsOptions_fares host path
  · exact hholds
  · cases h.symm.trans hfalse
  · cases h.symm.trans htrips.holdsOptions

theorem holdsOptions_eq_error_iff : holdsOptions host path = .error fault ↔ Trips host path fault := by
  refine ⟨fun h => ?_, Trips.holdsOptions⟩
  obtain hholds | hfalse | ⟨fault', htrips⟩ := holdsOptions_fares host path
  · cases h.symm.trans hholds.holdsOptions
  · cases h.symm.trans hfalse
  · obtain rfl : fault = fault' := Except.error.inj (h.symm.trans htrips.holdsOptions)
    exact htrips

/-! ## Directories -/

/-- The configuration file of a directory: of the named files the first that is there, or else the project file, if it
counts. -/
inductive Candidate (host : Host) (directory : FilePath) : FilePath → Prop
  | named {path : FilePath} (first : Past (fun q => ¬ (host.read q).IsFile) (fileNames.map directory.child) path)
      (file : (host.read path).IsFile) : Candidate host directory path
  | project (unnamed : ∀ q ∈ fileNames.map directory.child, ¬ (host.read q).IsFile)
      (holds : HoldsOptions host (directory.child projectName)) :
      Candidate host directory (directory.child projectName)

/-- A directory that a search does not get past, and the fault that stops the search. -/
inductive Stops (host : Host) (directory : FilePath) : Fault → Prop
  /-- The system does not say whether a named file is there, and none was found before. -/
  | named {path : FilePath} (first : Past (host.read · = .absent) (fileNames.map directory.child) path)
      (refused : host.read path = .refused) : Stops host directory .system
  /-- No named file is there, and the project file stops the search. -/
  | project {fault : Fault} (unnamed : ∀ q ∈ fileNames.map directory.child, host.read q = .absent)
      (trips : Trips host (directory.child projectName) fault) : Stops host directory fault

/-- What a search for files gives at a path. -/
def fileAt (host : Host) (path : FilePath) : Except Fault (Option FilePath) :=
  match host.read path with
  | .absent => .ok none
  | .refused => .error .system
  | _ => .ok (some path)

theorem findM?_isFile (host : Host) (paths : List FilePath) :
    paths.findM? host.isFile = paths.findSomeM? (fileAt host) := by
  have hfile : fileAt host = fun q => do return if (← host.isFile q) then some q else none := by
    funext q
    rw [fileAt, Host.isFile]
    cases host.read q <;> rfl
  rw [hfile, List.findM?_eq_findSomeM?]

theorem fileAt_eq_none_iff : fileAt host path = .ok none ↔ host.read path = .absent := by
  rw [fileAt]
  cases host.read path <;> simp

theorem fileAt_eq_some_iff {found : FilePath} :
    fileAt host path = .ok (some found) ↔ path = found ∧ (host.read path).IsFile := by
  rw [fileAt]
  cases host.read path with
  | absent => exact ⟨nofun, nofun⟩
  | refused => exact ⟨nofun, nofun⟩
  | unreadable detail => simpa using fun _ => Content.IsFile.unreadable detail
  | bytes content => simpa using fun _ => Content.IsFile.bytes content

theorem fileAt_eq_error_iff : fileAt host path = .error fault ↔ host.read path = .refused ∧ fault = .system := by
  rw [fileAt]
  cases host.read path <;> simp [eq_comm]

section

variable {paths : List FilePath}

theorem findM?_isFile_eq_none_iff : paths.findM? host.isFile = .ok none ↔ ∀ q ∈ paths, host.read q = .absent := by
  rw [findM?_isFile, findSomeM?_eq_ok_none_iff]
  simp only [fileAt_eq_none_iff]

theorem findM?_isFile_eq_some_iff : paths.findM? host.isFile = .ok (some path) ↔
    Past (host.read · = .absent) paths path ∧ (host.read path).IsFile := by
  rw [findM?_isFile, findSomeM?_eq_iff (by simp)]
  simp only [fileAt_eq_none_iff, fileAt_eq_some_iff]
  constructor
  · rintro ⟨q, hpast, rfl, hfile⟩
    exact ⟨hpast, hfile⟩
  · rintro ⟨hpast, hfile⟩
    exact ⟨path, hpast, rfl, hfile⟩

theorem findM?_isFile_eq_error_iff : paths.findM? host.isFile = .error fault ↔
    fault = .system ∧ ∃ q, Past (host.read · = .absent) paths q ∧ host.read q = .refused := by
  rw [findM?_isFile, findSomeM?_eq_iff (by simp)]
  simp only [fileAt_eq_none_iff, fileAt_eq_error_iff]
  constructor
  · rintro ⟨q, hpast, hrefused, rfl⟩
    exact ⟨rfl, q, hpast, hrefused⟩
  · rintro ⟨rfl, q, hpast, hrefused⟩
    exact ⟨q, hpast, hrefused, rfl⟩

end

/-- A directory with none of the named files has its project file only. -/
theorem findIn_of_none (h : (fileNames.map directory.child).findM? host.isFile = .ok none) :
    findIn host directory = (holdsOptions host (directory.child projectName)).map
      fun holds => if holds then some (directory.child projectName) else none := by
  rw [findIn, h]
  change (holdsOptions host (directory.child projectName) >>= fun holds => .ok (if holds then _ else none)) = _
  cases holdsOptions host (directory.child projectName) <;> rfl

theorem findIn_of_some (h : (fileNames.map directory.child).findM? host.isFile = .ok (some path)) :
    findIn host directory = .ok (some path) := by
  rw [findIn, h]
  rfl

theorem findIn_of_error (h : (fileNames.map directory.child).findM? host.isFile = .error fault) :
    findIn host directory = .error fault := by
  rw [findIn, h]
  rfl

/-- A search of a directory fails where the directory stops it. -/
theorem findIn_eq_error_iff : findIn host directory = .error fault ↔ Stops host directory fault := by
  constructor
  · intro h
    cases hnames : (fileNames.map directory.child).findM? host.isFile with
    | error found =>
      obtain ⟨rfl, q, hpast, hrefused⟩ := findM?_isFile_eq_error_iff.mp hnames
      cases (findIn_of_error hnames).symm.trans h
      exact .named hpast hrefused
    | ok found =>
      cases found with
      | some path => cases (findIn_of_some hnames).symm.trans h
      | none =>
        have hproject := (findIn_of_none hnames).symm.trans h
        refine .project (findM?_isFile_eq_none_iff.mp hnames) (holdsOptions_eq_error_iff.mp ?_)
        cases hholds : holdsOptions host (directory.child projectName) with
        | error found =>
          rw [hholds] at hproject
          rw [Except.error.inj hproject]
        | ok holds =>
          rw [hholds] at hproject
          cases hproject
  · intro h
    cases h with
    | named first refused => exact findIn_of_error (findM?_isFile_eq_error_iff.mpr ⟨rfl, _, first, refused⟩)
    | project unnamed trips =>
      rw [findIn_of_none (findM?_isFile_eq_none_iff.mpr unnamed), trips.holdsOptions]
      rfl

theorem Stops.unique {fault' : Fault} (h : Stops host directory fault) (h' : Stops host directory fault') :
    fault = fault' :=
  Except.error.inj ((findIn_eq_error_iff.mpr h).symm.trans (findIn_eq_error_iff.mpr h'))

theorem not_isFile_of_absent {content : Content} (h : content = .absent) : ¬ content.IsFile := by
  rw [h]
  nofun

/-- What a search of a directory finds is its configuration file. -/
theorem candidate_of_findIn (h : findIn host directory = .ok (some path)) : Candidate host directory path := by
  cases hnames : (fileNames.map directory.child).findM? host.isFile with
  | error fault => cases (findIn_of_error hnames).symm.trans h
  | ok found =>
    cases found with
    | some q =>
      obtain rfl : q = path := by simpa using (findIn_of_some hnames).symm.trans h
      obtain ⟨hpast, hfile⟩ := findM?_isFile_eq_some_iff.mp hnames
      exact .named (hpast.mono fun _ => not_isFile_of_absent) hfile
    | none =>
      rw [findIn_of_none hnames] at h
      have hunnamed := findM?_isFile_eq_none_iff.mp hnames
      rcases hholds : holdsOptions host (directory.child projectName) with fault | _ | _
      · rw [hholds] at h
        cases h
      · rw [hholds] at h
        cases h
      · rw [hholds] at h
        cases h
        exact .project (fun q hq => not_isFile_of_absent (hunnamed q hq)) (holdsOptions_eq_true_iff.mp hholds)

/-- A search that gets past a directory did not miss a configuration file there. -/
theorem not_candidate_of_findIn (h : findIn host directory = .ok none) : ¬ Candidate host directory path := by
  have hnames : (fileNames.map directory.child).findM? host.isFile = .ok none := by
    rcases hnames : (fileNames.map directory.child).findM? host.isFile with fault | _ | q
    · cases (findIn_of_error hnames).symm.trans h
    · rfl
    · cases (findIn_of_some hnames).symm.trans h
  have hunnamed := findM?_isFile_eq_none_iff.mp hnames
  intro hcandidate
  cases hcandidate with
  | named first file => exact not_isFile_of_absent (hunnamed path first.mem) file
  | project unnamed holds =>
    rw [findIn_of_none hnames, holds.holdsOptions] at h
    cases h

theorem Candidate.unique {path' : FilePath} (h : Candidate host directory path) (h' : Candidate host directory path') :
    path = path' := by
  cases h with
  | named first file =>
    cases h' with
    | named first' file' => exact first.unique first' (not_not_intro file) (not_not_intro file')
    | project unnamed' holds' => exact absurd file (unnamed' _ first.mem)
  | project unnamed holds =>
    cases h' with
    | named first' file' => exact absurd file' (unnamed _ first'.mem)
    | project unnamed' holds' => rfl

/-! ## The way up -/

/-- The answer that a search among directories should give, which is the configuration file of the first that has one,
and the directories up to that one. -/
inductive Nearest (host : Host) : (directories reached : List FilePath) → (answer : Option FilePath) → Prop
  | nowhere : Nearest host [] [] none
  | here {directory path : FilePath} {directories : List FilePath} (candidate : Candidate host directory path) :
      Nearest host (directory :: directories) [directory] (some path)
  | further {directory : FilePath} {directories reached : List FilePath} {answer : Option FilePath}
      (bare : ∀ path, ¬ Candidate host directory path) (above : Nearest host directories reached answer) :
      Nearest host (directory :: directories) (directory :: reached) answer

/-- A directory that a search gets past, or finds its configuration file in. -/
def Sound (host : Host) (directory : FilePath) : Prop := ∀ fault, ¬ Stops host directory fault

variable {directories reached : List FilePath} {answer : Option FilePath}

theorem exists_nearest (host : Host) (directories : List FilePath) :
    ∃ reached answer, Nearest host directories reached answer := by
  induction directories with
  | nil => exact ⟨[], none, .nowhere⟩
  | cons directory directories ih =>
    by_cases hbare : ∃ path, Candidate host directory path
    · obtain ⟨path, hcandidate⟩ := hbare
      exact ⟨_, _, .here hcandidate⟩
    · obtain ⟨reached, answer, habove⟩ := ih
      exact ⟨_, _, .further (not_exists.mp hbare) habove⟩

/-- A directory stops a search, or what the search finds there is its configuration file. -/
theorem findIn_of_sound (h : Sound host directory) :
    ∃ found, findIn host directory = .ok found ∧ ∀ path, found = some path ↔ Candidate host directory path := by
  cases hfind : findIn host directory with
  | error fault => exact absurd (findIn_eq_error_iff.mp hfind) (h fault)
  | ok found =>
    refine ⟨found, rfl, fun path => ?_⟩
    cases found with
    | none => exact ⟨nofun, fun hcandidate => absurd hcandidate (not_candidate_of_findIn hfind)⟩
    | some q =>
      have hcandidate := candidate_of_findIn hfind
      constructor
      · rintro ⟨⟩
        exact hcandidate
      · intro hcandidate'
        rw [hcandidate.unique hcandidate']

theorem findAmong_cons_of_stops (h : Stops host directory fault) :
    findAmong host (directory :: directories) = .error fault := by
  rw [findAmong, findIn_eq_error_iff.mpr h]
  rfl

theorem findAmong_cons_of_candidate (h : Sound host directory) (candidate : Candidate host directory path) :
    findAmong host (directory :: directories) = .ok (some path) := by
  obtain ⟨found, hfind, hiff⟩ := findIn_of_sound h
  rw [findAmong, hfind, (hiff path).mpr candidate]
  rfl

theorem findAmong_cons_of_bare (h : Sound host directory) (bare : ∀ path, ¬ Candidate host directory path) :
    findAmong host (directory :: directories) = findAmong host directories := by
  obtain ⟨found, hfind, hiff⟩ := findIn_of_sound h
  obtain rfl : found = none := Option.eq_none_iff_forall_not_mem.mpr fun path hp => bare path ((hiff path).mp hp)
  rw [findAmong, hfind]
  rfl

/-- A search finds what it should, unless a directory on the way stops it: then it fails at the first that does. -/
theorem Nearest.findAmong (h : Nearest host directories reached answer) :
    (findAmong host directories = .ok answer ∧ ∀ d ∈ reached, Sound host d) ∨
      ∃ d fault, Past (Sound host) reached d ∧ Stops host d fault ∧ findAmong host directories = .error fault := by
  induction h with
  | nowhere => exact .inl ⟨rfl, List.forall_mem_nil _⟩
  | @here directory path directories candidate =>
    by_cases hsound : Sound host directory
    · exact .inl ⟨findAmong_cons_of_candidate hsound candidate, List.forall_mem_singleton.mpr hsound⟩
    · obtain ⟨fault, hstops⟩ := not_forall_not.mp hsound
      exact .inr ⟨directory, fault, past_cons_iff.mpr (.inl rfl), hstops, findAmong_cons_of_stops hstops⟩
  | @further directory directories reached answer bare above ih =>
    by_cases hsound : Sound host directory
    · rw [findAmong_cons_of_bare hsound bare]
      obtain ⟨hfind, hall⟩ | ⟨d, fault, hpast, hstops, hfind⟩ := ih
      · exact .inl ⟨hfind, List.forall_mem_cons.mpr ⟨hsound, hall⟩⟩
      · exact .inr ⟨d, fault, past_cons_iff.mpr (.inr ⟨hsound, hpast⟩), hstops, hfind⟩
    · obtain ⟨fault, hstops⟩ := not_forall_not.mp hsound
      exact .inr ⟨directory, fault, past_cons_iff.mpr (.inl rfl), hstops, findAmong_cons_of_stops hstops⟩

theorem find_eq_findAmong {start : FilePath} (h : ∀ name ∈ start.names, name.contains '\x00' = false) :
    find host start = findAmong host (searched host start) := by
  have hclean : ¬ start.names.any (·.contains '\x00') := by simpa using h
  rw [find, if_neg hclean]

/-- **Discovery.**  From every directory there is a way up to a root, and on it a nearest configuration file or none.
A search finds that, and fails in no way, exactly if no directory up to that of the file stops it, each of which is
told by `Stops`.  Otherwise it fails with the fault of the first directory that stops it. -/
theorem find_account (host : Host) (start : FilePath) (h : ∀ name ∈ start.names, name.contains '\x00' = false) :
    ∃ directories, (host.directory.under start).resolved.Climbs directories ∧
      (∃ reached answer, Nearest host directories reached answer) ∧
      ∀ reached answer, Nearest host directories reached answer →
        (∀ found, find host start = .ok found ↔ found = answer ∧ ∀ d ∈ reached, Sound host d) ∧
        ∀ fault, find host start = .error fault ↔ ∃ d, Past (Sound host) reached d ∧ Stops host d fault := by
  rw [find_eq_findAmong h]
  refine ⟨searched host start, FilePath.climbs_iff.mpr rfl, exists_nearest _ _, fun reached answer hnearest => ?_⟩
  obtain ⟨hfind, hsound⟩ | ⟨d, fault, hpast, hstops, hfind⟩ := hnearest.findAmong
  · rw [hfind]
    refine ⟨fun found => ⟨?_, ?_⟩, fun fault => ⟨nofun, ?_⟩⟩
    · rintro ⟨⟩
      exact ⟨rfl, hsound⟩
    · rintro ⟨rfl, -⟩
      rfl
    · rintro ⟨d, hpast, hstops⟩
      exact absurd hstops (hsound d hpast.mem fault)
  · have hstuck {d : FilePath} {fault : Fault} (hstops : Stops host d fault) : ¬ Sound host d := fun h => h fault hstops
    rw [hfind]
    refine ⟨fun found => ⟨nofun, ?_⟩, fun fault' => ⟨?_, ?_⟩⟩
    · rintro ⟨-, hsound⟩
      exact absurd (hsound d hpast.mem) (hstuck hstops)
    · rintro ⟨⟩
      exact ⟨d, hpast, hstops⟩
    · rintro ⟨d', hpast', hstops'⟩
      obtain rfl := hpast.unique hpast' (hstuck hstops) (hstuck hstops')
      rw [hstops.unique hstops']

theorem fromUTF8?_toUTF8 (text : String) : String.fromUTF8? text.toUTF8 = some text :=
  dif_pos text.isValidUTF8

/-- A project file with a number under `tool`, below a directory with a configuration file. -/
def crossedHost : Host where
  directory := ⟨"/", ["work", "part"]⟩
  configVariable := ""
  read path :=
    if path = ⟨"/", ["work", "part", "pyproject.toml"]⟩ then .bytes "tool = 1\n".toUTF8
    else if path = ⟨"/", ["work", ".panfilter.toml"]⟩ then .bytes "json_indent = 2\n".toUTF8
    else .absent

theorem trips_crossedHost : Trips crossedHost ⟨"/", ["work", "part", "pyproject.toml"]⟩ .attribute := by
  have hfile : HasText crossedHost ⟨"/", ["work", "part", "pyproject.toml"]⟩ "tool = 1\n" :=
    .intro rfl (fromUTF8?_toUTF8 _)
  have hread : ((Toml.read "tool = 1\n").toOption.bind (Plain.find? "tool")).map Plain.isTable = some false := by
    decide +kernel
  obtain ⟨found, hfound, hnoTable⟩ := Option.map_eq_some_iff.mp hread
  obtain ⟨entries, hentries, htool⟩ := Option.bind_eq_some_iff.mp hfound
  cases htoml : Toml.read "tool = 1\n" with
  | error e =>
    rw [htoml] at hentries
    cases hentries
  | ok table =>
    rw [htoml] at hentries
    cases hentries
    exact .tool hfile htoml htool (Bool.eq_false_iff.mp hnoTable)

theorem crossedHost_unnamed :
    ∀ q ∈ fileNames.map (FilePath.child ⟨"/", ["work", "part"]⟩), crossedHost.read q = .absent := by
  simp only [fileNames, FilePath.child, List.map_cons, List.map_nil, List.forall_mem_cons]
  exact ⟨rfl, rfl, rfl, rfl, List.forall_mem_nil _⟩

theorem sound_crossedHost : Sound crossedHost ⟨"/", ["work"]⟩ := by
  have hanswered (path : FilePath) : crossedHost.read path ≠ .refused := by
    simp only [crossedHost]
    split_ifs <;> nofun
  intro fault hstops
  cases hstops with
  | named first refused => exact absurd refused (hanswered _)
  | project unnamed trips => cases unnamed ⟨"/", ["work", ".panfilter.toml"]⟩ (List.mem_map_of_mem (.head _))

/-- The nearest configuration file is in the directory above.  A search from there finds it, but one from below it
fails at the project file. -/
theorem find_crossed :
    (∃ reached, Nearest crossedHost [⟨"/", ["work", "part"]⟩, ⟨"/", ["work"]⟩, ⟨"/", []⟩] reached
      (some ⟨"/", ["work", ".panfilter.toml"]⟩)) ∧
    find crossedHost ⟨"/", ["work"]⟩ = .ok (some ⟨"/", ["work", ".panfilter.toml"]⟩) ∧
    find crossedHost {} = .error .attribute := by
  have hstops : Stops crossedHost ⟨"/", ["work", "part"]⟩ .attribute := .project crossedHost_unnamed trips_crossedHost
  have hbare : ∀ path, ¬ Candidate crossedHost ⟨"/", ["work", "part"]⟩ path := by
    intro path hpath
    cases hpath with
    | named first file => exact not_isFile_of_absent (crossedHost_unnamed path first.mem) file
    | project unnamed holds => cases holds.holdsOptions.symm.trans trips_crossedHost.holdsOptions
  have habove : Nearest crossedHost [⟨"/", ["work"]⟩, ⟨"/", []⟩] [⟨"/", ["work"]⟩]
      (some ⟨"/", ["work", ".panfilter.toml"]⟩) := .here (.named ⟨[], _, rfl, List.forall_mem_nil _⟩ (.bytes _))
  have hnearest := Nearest.further hbare habove
  refine ⟨⟨_, hnearest⟩, ?_, ?_⟩
  · obtain ⟨directories, hclimbs, -, haccount⟩ := find_account crossedHost ⟨"/", ["work"]⟩ (by simp)
    obtain rfl := FilePath.climbs_iff.mp hclimbs
    exact ((haccount _ _ habove).1 _).mpr ⟨rfl, List.forall_mem_singleton.mpr sound_crossedHost⟩
  · obtain ⟨directories, hclimbs, -, haccount⟩ := find_account crossedHost {} (List.forall_mem_nil _)
    obtain rfl := FilePath.climbs_iff.mp hclimbs
    exact ((haccount _ _ hnearest).2 _).mpr ⟨_, past_cons_iff.mpr (.inl rfl), hstops⟩

end Config

end DocFilter
