import DocFilter.Proofs.Toml.Refused

/-!
# Fuel that is enough for a TOML text

The readers that call themselves take fuel, and a text is read with as much as it is long.  More of it changes nothing.

* `Toml.AgreeBelow` says that two readers agree on the texts below some length; readers made of them in the same way
  agree too, and on longer texts if something is taken first.
* `Toml.readBasic_agree`, `Toml.readKeyRest_agree`, `Toml.values_agree` and `Toml.readLines_agree` say how long a text
  may be for some fuel.
* `Toml.fuel_suffices` is the result.
-/

namespace DocFilter.Toml

variable {α β : Type} {size : Nat} {cs rest : List Char} {m m' n n' : Reader α}

theorem run_ifAccept {mark : String}
    (h : mark.toList <+: cs → m.run (cs.drop mark.length) = m'.run (cs.drop mark.length)) (h' : n.run cs = n'.run cs) :
    (do if ← accept mark then m else n).run cs = (do if ← accept mark then m' else n').run cs := by
  rw [StateT.run_bind, StateT.run_bind, run_accept]
  split
  next hmark => exact h (List.isPrefixOf_iff_prefix.mp hmark)
  next => exact h'

/-- Two readers agree on the texts below some length. -/
def AgreeBelow (size : Nat) (m m' : Reader α) : Prop := ∀ cs, cs.length < size → m.run cs = m'.run cs

namespace AgreeBelow

variable {f f' : α → Reader β}

theorem refl (m : Reader α) : AgreeBelow size m m := fun _ _ => rfl

theorem zero : AgreeBelow 0 m m' := fun _ hcs => absurd hcs (Nat.not_lt_zero _)

theorem bind (h : AgreeBelow size m m') (hm : Follows m) (hf : ∀ a, AgreeBelow size (f a) (f' a)) :
    AgreeBelow size (m >>= f) (m' >>= f') := by
  intro cs hcs
  have hrest := hm cs
  rw [StaysIn] at hrest
  rw [StateT.run_bind, StateT.run_bind, ← h cs hcs]
  cases hrun : m.run cs with
  | error e => rfl
  | ok read =>
    rw [hrun] at hrest
    exact hf read.1 read.2 (Nat.lt_of_le_of_lt (List.IsSuffix.length_le hrest) hcs)

/-- Readers that begin alike agree if they do afterwards. -/
theorem after (hm : Follows m) (hf : ∀ a, AgreeBelow size (f a) (f' a)) : AgreeBelow size (m >>= f) (m >>= f') :=
  (refl m).bind hm hf

theorem ite {p : Prop} [Decidable p] (h : AgreeBelow size m m') (h' : AgreeBelow size n n') :
    AgreeBelow size (if p then m else n) (if p then m' else n') := by
  split
  · exact h
  · exact h'

/-- Where a mark is taken, less of the text is left. -/
theorem ifAccept {mark : String} (hmark : 0 < mark.length) (h : AgreeBelow (size - 1) m m')
    (h' : AgreeBelow size n n') :
    AgreeBelow size (do if ← accept mark then m else n) (do if ← accept mark then m' else n') := by
  refine fun cs hcs => run_ifAccept (fun hprefix => ?_) (h' cs hcs)
  have hle := hprefix.length_le
  rw [String.length_toList] at hle
  exact h (cs.drop mark.length) (by rw [List.length_drop]; omega)

theorem advance {f f' : Unit → Reader β} {c : Char} (h : AgreeBelow size (f ()) (f' ())) (hrest : rest.length < size) :
    (advance 1 >>= f).run (c :: rest) = (advance 1 >>= f').run (c :: rest) := h rest hrest

/-- What readers do may depend on all that is to come. -/
theorem get {f f' : List Char → Reader β} (h : ∀ cs, cs.length < size → (f cs).run cs = (f' cs).run cs) :
    AgreeBelow size (get >>= f) (get >>= f') := h

/-- What readers do may depend on the character to come, if there is one. -/
theorem peek {f f' : Option Char → Reader β} (hnone : (f none).run [] = (f' none).run [])
    (h : ∀ c rest, rest.length < size - 1 → (f (some c)).run (c :: rest) = (f' (some c)).run (c :: rest)) :
    AgreeBelow size (peek >>= f) (peek >>= f') := by
  intro cs hcs
  cases cs with
  | nil => exact hnone
  | cons c rest => exact h c rest (Nat.lt_sub_of_add_lt hcs)

end AgreeBelow

/-! ## Strings and keys -/

theorem readBasic_agree (long : Bool) (fuel more : Nat) (read : List Char) :
    AgreeBelow fuel (readBasic long fuel read) (readBasic long (fuel + more) read) := by
  induction fuel generalizing read with
  | zero => exact .zero
  | succ fuel ih =>
    rw [Nat.add_right_comm]
    refine .get fun cs hcs => ?_
    split
    · rfl
    next rest =>
      have hrest := ih ('"' :: read) rest (Nat.lt_of_succ_lt_succ hcs)
      split
      · exact run_ifAccept (fun _ => rfl) hrest
      · exact run_ifAccept (fun _ => rfl) hrest
    next rest =>
      have hescape := readEscape_yields long ('\\' :: rest)
      rw [StateT.run_bind, StateT.run_bind]
      cases hrun : (readEscape long).run ('\\' :: rest) with
      | error e => rfl
      | ok escaped =>
        rw [hrun] at hescape
        have hrest : escaped.2 <:+ rest := List.IsSuffix.trans hescape (List.drop_suffix 1 rest)
        exact ih _ escaped.2 (Nat.lt_of_le_of_lt hrest.length_le (Nat.lt_of_succ_lt_succ hcs))
    next c rest _ _ =>
      split
      · exact ih (c :: read) rest (Nat.lt_of_succ_lt_succ hcs)
      · rfl

theorem readKeyRest_agree (fuel more : Nat) (parents : Path) (name : String) :
    AgreeBelow fuel (readKeyRest fuel parents name) (readKeyRest (fuel + more) parents name) := by
  induction fuel generalizing parents name with
  | zero => exact .zero
  | succ fuel ih =>
    rw [Nat.add_right_comm]
    refine .after (follows_skip isGap) fun _ => .ifAccept (by decide) ?_ (.refl _)
    exact .after (follows_skip isGap) fun _ => .after follows_readKeyPart fun next => ih _ next

/-! ## Values -/

/-- A value takes two pieces of fuel for each character: one for the container and one for what is in it. -/
theorem values_agree (fuel more : Nat) :
    (∀ size, 2 * size ≤ fuel + 1 → AgreeBelow size (readValue fuel) (readValue (fuel + more))) ∧
    (∀ size, 2 * size ≤ fuel → AgreeBelow size (readItems fuel) (readItems (fuel + more))) ∧
    ∀ size draft, 2 * size ≤ fuel → AgreeBelow size (readMembers fuel draft) (readMembers (fuel + more) draft) := by
  induction fuel with
  | zero =>
    refine ⟨fun size hsize => ?_, fun size hsize => ?_, fun size draft hsize => ?_⟩
    all_goals
      obtain rfl : size = 0 := by omega
      exact .zero
  | succ fuel ih =>
    obtain ⟨hvalue, hitems, hmembers⟩ := ih
    have hmore : fuel + 1 + more = fuel + more + 1 := Nat.add_right_comm fuel 1 more
    simp only [hmore]
    refine ⟨fun size hsize => ?_, fun size hsize => ?_, fun size draft hsize => ?_⟩
    · refine .peek rfl fun c rest hrest => ?_
      split
      · rfl
      · rfl
      · refine AgreeBelow.advance (.after follows_skipLayout fun _ => ?_) hrest
        refine .after (follows_accept _) fun _ => .ite (.refl _) ?_
        exact (hitems (size - 1) (by omega)).bind (follows_values fuel).2.1 fun _ => .refl _
      · refine AgreeBelow.advance (.after (follows_skip isGap) fun _ => ?_) hrest
        refine .after (follows_accept _) fun _ => .ite (.refl _) ?_
        exact (hmembers (size - 1) {} (by omega)).bind ((follows_values fuel).2.2 {}) fun _ => .refl _
      · rfl
    · refine (hvalue size (by omega)).bind (follows_values fuel).1 fun item => .after follows_skipLayout fun _ => ?_
      refine .after (follows_accept _) fun _ => .ite (.refl _) (.ifAccept (by decide) ?_ (.refl _))
      refine .after follows_skipLayout fun _ => .after (follows_accept _) fun _ => .ite (.refl _) ?_
      exact (hitems (size - 1) (by omega)).bind (follows_values fuel).2.1 fun _ => .refl _
    · refine .after follows_readKey fun key => .after follows_readEquals fun _ => ?_
      refine (hvalue size (by omega)).bind (follows_values fuel).1 fun value => ?_
      refine .after (follows_require _) fun draft => .after (follows_skip isGap) fun _ => ?_
      refine .after (follows_accept _) fun _ => .ite (.refl _) ?_
      refine .ifAccept (by decide) ?_ (.refl _)
      exact .after (follows_skip isGap) fun _ => hmembers (size - 1) draft (by omega)

/-! ## Documents -/

theorem readLines_agree (fuel more : Nat) (p : Progress) :
    AgreeBelow fuel (readLines fuel p) (readLines (fuel + more) p) := by
  induction fuel generalizing p with
  | zero => exact .zero
  | succ fuel ih =>
    rw [Nat.add_right_comm]
    refine .after (follows_readStatement p) fun p => .after (follows_skip isGap) fun _ => ?_
    refine .after follows_skipComment fun _ => .peek rfl fun c rest hrest => ?_
    split
    next h => cases h
    · exact ih p rest hrest
    · rfl

/-! ## What the readers are given -/

/-- **Enough fuel.**  The fuel that the readers are given for a text is enough for it: with any more they read the
same. -/
theorem fuel_suffices (cs : List Char) (more : Nat) :
    (∀ p, (readLines (cs.length + 1) p).run cs = (readLines (cs.length + 1 + more) p).run cs) ∧
    (readValue (2 * cs.length + 2)).run cs = (readValue (2 * cs.length + 2 + more)).run cs ∧
    (∀ parents name,
      (readKeyRest (cs.length + 1) parents name).run cs = (readKeyRest (cs.length + 1 + more) parents name).run cs) ∧
    ∀ long text,
      (readBasic long (cs.length + 1) text).run cs = (readBasic long (cs.length + 1 + more) text).run cs := by
  have hlength : cs.length < cs.length + 1 := Nat.lt_succ_self _
  refine ⟨fun p => ?_, ?_, fun parents name => ?_, fun long text => ?_⟩
  · exact readLines_agree _ more p cs hlength
  · exact (values_agree _ more).1 (cs.length + 1) (by omega) cs hlength
  · exact readKeyRest_agree _ more parents name cs hlength
  · exact readBasic_agree long _ more text cs hlength

end DocFilter.Toml
