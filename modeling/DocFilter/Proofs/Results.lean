import Mathlib.Data.List.Forall2

/-!
# Results

Steps that may be refused one after the other, and working through a list with a function that may refuse
a member.  `List.Forall₂` says what holds of each member and its result, so that statements about one member
carry over to the list.
-/

namespace DocFilter

variable {α β γ ε : Type}

/-- Two steps succeed if the first one does, and the second one on its result. -/
theorem bind_eq_ok_iff {x : Except ε α} {f : α → Except ε β} {y : β} :
    x >>= f = .ok y ↔ ∃ a, x = .ok a ∧ f a = .ok y := by
  cases x <;> simp [bind, Except.bind]

theorem exists_of_map_eq_ok {x : Except ε α} {f : α → β} {y : β} (h : x.map f = .ok y) :
    ∃ a, x = .ok a ∧ f a = y := by
  cases x with
  | error e => cases h
  | ok a => exact ⟨a, rfl, Except.ok.inj h⟩

/-- A list is worked through without an error exactly if every member is. -/
theorem mapM_eq_ok_iff {f : α → Except ε β} {xs : List α} {ys : List β} :
    xs.mapM f = .ok ys ↔ List.Forall₂ (fun x y => f x = .ok y) xs ys := by
  induction xs generalizing ys with
  | nil => cases ys <;> simp [pure, Except.pure]
  | cons x xs ih =>
    rw [List.mapM_cons, List.forall₂_cons_left_iff]
    cases hx : f x with
    | error e => simp [bind, Except.bind]
    | ok y =>
      cases hxs : xs.mapM f with
      | error e =>
        have hno : ∀ zs, ¬ List.Forall₂ (fun x y => f x = .ok y) xs zs := fun zs hzs => by
          rw [ih.mpr hzs] at hxs
          cases hxs
        simp [bind, Except.bind, hno]
      | ok zs =>
        have hzs : ∀ us, List.Forall₂ (fun x y => f x = .ok y) xs us ↔ zs = us := fun us => by
          rw [← ih, hxs, Except.ok.injEq]
        simp [bind, Except.bind, pure, Except.pure, hzs, eq_comm]

/-- Each member of the second of two related lists belongs to a member of the first. -/
theorem exists_of_mem_right {good : α → β → Prop} {xs : List α} {ys : List β} (h : List.Forall₂ good xs ys) :
    ∀ y ∈ ys, ∃ x ∈ xs, good x y := by
  induction h with
  | nil => exact nofun
  | @cons x y xs ys hxy _ ih =>
    refine List.forall_mem_cons.mpr ⟨⟨x, List.mem_cons_self, hxy⟩, fun z hz => ?_⟩
    obtain ⟨w, hw, hwz⟩ := ih z hz
    exact ⟨w, List.mem_cons_of_mem _ hw, hwz⟩

/-- What a list gives is what its members give. -/
theorem exists_of_mem_mapM {f : α → Except ε β} {xs : List α} {ys : List β} (h : xs.mapM f = .ok ys) :
    ∀ y ∈ ys, ∃ x ∈ xs, f x = .ok y := exists_of_mem_right (mapM_eq_ok_iff.mp h)

/-- A list is worked through exactly if every member is. -/
theorem mapM_eq_some_iff {f : α → Option β} {xs : List α} {ys : List β} :
    xs.mapM f = some ys ↔ List.Forall₂ (fun x y => f x = some y) xs ys := by
  induction xs generalizing ys with
  | nil => cases ys <;> simp
  | cons x xs ih =>
    rw [List.mapM_cons, List.forall₂_cons_left_iff]
    constructor
    · intro h
      obtain ⟨y, hy, h⟩ := Option.bind_eq_some_iff.mp h
      obtain ⟨zs, hzs, h⟩ := Option.bind_eq_some_iff.mp h
      cases h
      exact ⟨y, zs, hy, ih.mp hzs, rfl⟩
    · rintro ⟨y, zs, hy, hzs, rfl⟩
      rw [hy, ih.mpr hzs]
      rfl

/-- Two lists are worked through alike if their members are, one by one. -/
theorem mapM_eq_mapM {m : Type → Type} [Monad m] [LawfulMonad m] {f : α → m γ} {g : β → m γ} {xs : List α}
    {ys : List β} (h : List.Forall₂ (fun x y => f x = g y) xs ys) : xs.mapM f = ys.mapM g := by
  induction h with
  | nil => rw [List.mapM_nil, List.mapM_nil]
  | cons hxy _ ih => rw [List.mapM_cons, List.mapM_cons, hxy, ih]

theorem mapM_congr {m : Type → Type} [Monad m] [LawfulMonad m] {f g : α → m γ} {xs : List α}
    (h : ∀ x ∈ xs, f x = g x) : xs.mapM f = xs.mapM g := mapM_eq_mapM (List.forall₂_same.mpr h)

theorem exists_of_mem_mapM_some {f : α → Option β} {xs : List α} {ys : List β} (h : xs.mapM f = some ys) :
    ∀ y ∈ ys, ∃ x ∈ xs, f x = some y := exists_of_mem_right (mapM_eq_some_iff.mp h)

/-- A result that, if it is an error, is one of some errors. -/
def FailsOnly (allowed : ε → Prop) (x : Except ε α) : Prop := ∀ e, x = .error e → allowed e

section FailsOnly

variable {allowed : ε → Prop}

theorem FailsOnly.ok {a : α} : FailsOnly allowed (.ok a) := nofun

theorem FailsOnly.error {e : ε} (h : allowed e) : FailsOnly allowed (.error e : Except ε α) := by
  intro e' heq
  cases heq
  exact h

theorem FailsOnly.bind {x : Except ε α} {f : α → Except ε β} (hx : FailsOnly allowed x)
    (hf : ∀ a, x = .ok a → FailsOnly allowed (f a)) : FailsOnly allowed (x >>= f) := by
  cases x with
  | error e => exact .error (hx e rfl)
  | ok a => exact hf a rfl

theorem FailsOnly.map {x : Except ε α} {f : α → β} (hx : FailsOnly allowed x) : FailsOnly allowed (x.map f) := by
  cases x with
  | error e => exact .error (hx e rfl)
  | ok a => exact .ok

theorem FailsOnly.mapM {f : α → Except ε β} {xs : List α} (h : ∀ x ∈ xs, FailsOnly allowed (f x)) :
    FailsOnly allowed (xs.mapM f) := by
  induction xs with
  | nil => exact .ok
  | cons x xs ih =>
    obtain ⟨hx, hxs⟩ := List.forall_mem_cons.mp h
    rw [List.mapM_cons]
    exact hx.bind fun _ _ => (ih hxs).bind fun _ _ => .ok

theorem FailsOnly.cases {x : Except ε α} (h : FailsOnly allowed x) :
    (∃ a, x = .ok a) ∨ ∃ e, allowed e ∧ x = .error e := by
  cases x with
  | error e => exact .inr ⟨e, h e rfl, rfl⟩
  | ok a => exact .inl ⟨a, rfl⟩

end FailsOnly

/-- What a step gives is good, or its error is one of some. -/
def Yields (allowed : ε → Prop) (good : α → Prop) : Except ε α → Prop
  | .ok a => good a
  | .error e => allowed e

section Yields

variable {allowed : ε → Prop} {good : α → Prop} {fine : β → Prop} {x y : Except ε α} {f : α → Except ε β}

@[simp] theorem Yields.ok_iff {a : α} : Yields allowed good (.ok a) ↔ good a := Iff.rfl

theorem Yields.bind (h : Yields allowed good x) (hf : ∀ a, good a → Yields allowed fine (f a)) :
    Yields allowed fine (x >>= f) := by
  cases x with
  | ok a => exact hf a h
  | error e => exact h

theorem Yields.map {g : α → β} (h : Yields allowed good x) (hg : ∀ a, good a → fine (g a)) :
    Yields allowed fine (x.map g) := by
  cases x with
  | ok a => exact hg a h
  | error e => exact h

theorem Yields.imp {allowed' : ε → Prop} {good' : α → Prop} (h : Yields allowed good x)
    (hallowed : ∀ e, allowed e → allowed' e) (hgood : ∀ a, good a → good' a) : Yields allowed' good' x := by
  cases x with
  | ok a => exact hgood a h
  | error e => exact hallowed e h

theorem Yields.ite {p : Prop} [Decidable p] (hx : p → Yields allowed good x) (hy : ¬p → Yields allowed good y) :
    Yields allowed good (if p then x else y) := by
  split
  next h => exact hx h
  next h => exact hy h

theorem Yields.foldlM {step : β → α → Except ε β} {xs : List α} {b : β} (hb : fine b)
    (h : ∀ b, ∀ x ∈ xs, fine b → Yields allowed fine (step b x)) : Yields allowed fine (xs.foldlM step b) := by
  induction xs generalizing b with
  | nil => exact hb
  | cons x xs ih =>
    rw [List.foldlM_cons]
    exact (h b x List.mem_cons_self hb).bind fun b' hb' => ih hb' fun b x hx => h b x (List.mem_cons_of_mem _ hx)

theorem Yields.mapM {xs : List α} (h : ∀ x ∈ xs, Yields allowed fine (f x)) :
    Yields allowed (fun ys => ∀ y ∈ ys, fine y) (xs.mapM f) := by
  induction xs with
  | nil => exact List.forall_mem_nil _
  | cons x xs ih =>
    obtain ⟨hx, hxs⟩ := List.forall_mem_cons.mp h
    rw [List.mapM_cons]
    exact hx.bind fun y hy => (ih hxs).bind fun ys hys => List.forall_mem_cons.mpr ⟨hy, hys⟩

end Yields

/-- A result that is no error. -/
def Succeeds (x : Except ε α) : Prop := ∃ a, x = .ok a

section Succeeds

variable {x : Except ε α} {f : α → Except ε β}

theorem succeeds_ok (a : α) : Succeeds (.ok a : Except ε α) := ⟨a, rfl⟩

theorem not_succeeds_error (e : ε) : ¬ Succeeds (.error e : Except ε α) := nofun

theorem succeeds_bind_iff : Succeeds (x >>= f) ↔ ∃ a, x = .ok a ∧ Succeeds (f a) := by
  cases x with
  | error e => exact ⟨nofun, nofun⟩
  | ok a => exact ⟨fun h => ⟨a, rfl, h⟩, fun ⟨_, heq, h⟩ => Except.ok.inj heq ▸ h⟩

theorem succeeds_map_iff {g : α → β} : Succeeds (x.map g) ↔ Succeeds x := by
  cases x with
  | error e => exact iff_of_false (not_succeeds_error e) (not_succeeds_error e)
  | ok a => exact iff_of_true (succeeds_ok _) (succeeds_ok _)

theorem succeeds_mapError_iff {ε' : Type} {g : ε → ε'} : Succeeds (x.mapError g) ↔ Succeeds x := by
  cases x with
  | error e => exact iff_of_false (not_succeeds_error _) (not_succeeds_error e)
  | ok a => exact iff_of_true (succeeds_ok a) (succeeds_ok a)

/-- Two steps that do not depend on each other succeed together, if nothing is refused after them. -/
theorem succeeds_both_iff {y : Except ε β} {g : α → β → Except ε γ} (hg : ∀ a b, Succeeds (g a b)) :
    Succeeds (x >>= fun a => y >>= g a) ↔ Succeeds x ∧ Succeeds y := by
  cases x with
  | error e => exact ⟨nofun, fun h => absurd h.1 (not_succeeds_error e)⟩
  | ok a =>
    cases y with
    | error e => exact ⟨nofun, fun h => absurd h.2 (not_succeeds_error e)⟩
    | ok b => exact ⟨fun _ => ⟨succeeds_ok a, succeeds_ok b⟩, fun _ => hg a b⟩

theorem succeeds_mapM_iff {xs : List α} : Succeeds (xs.mapM f) ↔ ∀ x ∈ xs, Succeeds (f x) := by
  induction xs with
  | nil => exact ⟨fun _ => nofun, fun _ => ⟨[], rfl⟩⟩
  | cons x xs ih =>
    rw [List.mapM_cons, List.forall_mem_cons, ← ih]
    cases hx : f x with
    | error e => exact ⟨nofun, fun h => by cases h.1.choose_spec⟩
    | ok y =>
      cases hxs : xs.mapM f with
      | error e => exact ⟨nofun, fun h => by cases h.2.choose_spec⟩
      | ok ys => exact ⟨fun _ => ⟨⟨y, rfl⟩, ⟨ys, rfl⟩⟩, fun _ => ⟨y :: ys, rfl⟩⟩

/-- A list that was worked through with one function can be worked through with another one exactly if all its
members are good, if this is so for each of them. -/
theorem succeeds_mapM_of_mapM {ε' : Type} {read : β → Except ε' γ} {good : α → Prop} {xs : List α} {ys : List β}
    (hwrite : xs.mapM f = .ok ys) (h : ∀ x ∈ xs, ∀ y ∈ ys, f x = .ok y → (Succeeds (read y) ↔ good x)) :
    Succeeds (ys.mapM read) ↔ ∀ x ∈ xs, good x := by
  rw [succeeds_mapM_iff]
  have hall := mapM_eq_ok_iff.mp hwrite
  clear hwrite
  induction hall with
  | nil => exact ⟨fun _ => nofun, fun _ => nofun⟩
  | @cons x y xs ys hxy _ ih =>
    have hrest := ih fun z hz w hw => h z (List.mem_cons_of_mem _ hz) w (List.mem_cons_of_mem _ hw)
    rw [List.forall_mem_cons, List.forall_mem_cons, h x List.mem_cons_self y List.mem_cons_self hxy]
    exact and_congr_right' hrest

end Succeeds

/-- A list is read back by what reads each member back. -/
theorem mapM_map_of_inverse {f : β → Option α} {g : α → β} (h : ∀ x, f (g x) = some x)
    (xs : List α) : (xs.map g).mapM f = some xs := by
  induction xs with
  | nil => rfl
  | cons x xs ih =>
    rw [List.map_cons, List.mapM_cons, h, ih]
    rfl

theorem exists_forall₂ {good : α → β → Prop} {xs : List α} (h : ∀ x ∈ xs, ∃ y, good x y) :
    ∃ ys, List.Forall₂ good xs ys := by
  induction xs with
  | nil => exact ⟨[], .nil⟩
  | cons x xs ih =>
    obtain ⟨y, hy⟩ := h x (by simp)
    obtain ⟨ys, hys⟩ := ih fun z hz => h z (by simp [hz])
    exact ⟨y :: ys, .cons hy hys⟩

theorem exists_head?_of_forall₂ {R : α → β → Prop} {xs : List α} {ys : List β} {y : β}
    (h : List.Forall₂ R xs ys) (hy : ys.head? = some y) : ∃ x, xs.head? = some x ∧ R x y := by
  cases h with
  | nil => exact nomatch hy
  | cons hxy _ =>
    obtain rfl := Option.some.inj hy
    exact ⟨_, rfl, hxy⟩

theorem forall₂_trans {R : α → β → Prop} {S : β → γ → Prop} {T : α → γ → Prop} {xs : List α} {ys : List β}
    {zs : List γ} (h : List.Forall₂ R xs ys) (h' : List.Forall₂ S ys zs) (htrans : ∀ x y z, R x y → S y z → T x z) :
    List.Forall₂ T xs zs := by
  induction h generalizing zs with
  | nil =>
    cases h'
    exact .nil
  | cons hxy _ ih =>
    cases h' with
    | cons hyz hrest => exact .cons (htrans _ _ _ hxy hyz) (ih hrest)

/-- If every member is read as a function of the one it belongs to, so is the list. -/
theorem mapM_eq_ok_map {read : β → Except ε γ} {g : α → γ} {xs : List α} {ys : List β}
    (h : List.Forall₂ (fun x y => read y = .ok (g x)) xs ys) : ys.mapM read = .ok (xs.map g) := by
  rw [mapM_eq_ok_iff, List.forall₂_map_right_iff]
  exact h.flip

/-- Two lists that are related member by member stay so under a weaker relation, which may use that
the members are members. -/
theorem forall₂_imp_mem {good good' : α → β → Prop} {xs : List α} {ys : List β}
    (h : List.Forall₂ good xs ys) (himp : ∀ x ∈ xs, ∀ y ∈ ys, good x y → good' x y) :
    List.Forall₂ good' xs ys := by
  induction h with
  | nil => exact .nil
  | cons hxy _ ih =>
    exact .cons (himp _ (by simp) _ (by simp) hxy)
      (ih fun x hx y hy => himp x (by simp [hx]) y (by simp [hy]))

end DocFilter
