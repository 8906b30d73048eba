import FormulaSql.Proofs.Data.Lists

/-!
# Computations that can fail

Queries are compiled and cut by computations that can fail. What is known of a result follows from
the steps that led to it: a sequence of steps succeeds if every step does, and fails at one of them.
-/

namespace FormulaSql

/-! ## Results -/

theorem bind_eq_ok {ε α β : Type} {x : Except ε α} {f : α → Except ε β} {b : β} :
    (x >>= f) = .ok b ↔ ∃ a, x = .ok a ∧ f a = .ok b := by
  cases x with
  | error e =>
      constructor
      · exact fun h => absurd h (by simp [bind, Except.bind])
      · rintro ⟨_, h, _⟩
        exact absurd h (by simp)
  | ok a =>
      constructor
      · exact fun h => ⟨a, rfl, h⟩
      · rintro ⟨a', ha, h⟩
        obtain rfl := Except.ok.inj ha
        exact h

theorem pure_eq_ok {ε α : Type} {x y : α} : (pure x : Except ε α) = .ok y ↔ y = x :=
  ⟨fun h => (Except.ok.inj h).symm, fun h => congrArg Except.ok h.symm⟩

/-- A computation whose result passes a test gives a result. -/
theorem exists_eq_ok {ε α : Type} {x : Except ε α} {p : α → Bool}
    (h : x.toOption.any p = true) : ∃ a, x = .ok a ∧ p a = true := by
  cases x with
  | error e => exact absurd h (by simp [Except.toOption])
  | ok a => exact ⟨a, rfl, by simpa [Except.toOption] using h⟩

theorem mapM_eq_ok {ε α β : Type} {f : α → Except ε β} {xs : List α} {ys : List β}
    (h : xs.mapM f = .ok ys) : List.Forall₂ (fun x y => f x = .ok y) xs ys := by
  induction xs generalizing ys with
  | nil =>
      obtain rfl := Except.ok.inj h
      exact .nil
  | cons x xs ih =>
      rw [List.mapM_cons] at h
      obtain ⟨y, hy, h⟩ := bind_eq_ok.mp h
      obtain ⟨zs, hzs, h⟩ := bind_eq_ok.mp h
      obtain rfl := Except.ok.inj h
      exact .cons hy (ih hzs)

theorem mapM_of_forall₂ {ε α β : Type} {f : α → Except ε β} {xs : List α} {ys : List β}
    (h : List.Forall₂ (fun x y => f x = .ok y) xs ys) : xs.mapM f = .ok ys := by
  induction h with
  | nil => rfl
  | cons hx _ ih =>
      rw [List.mapM_cons]
      exact bind_eq_ok.mpr ⟨_, hx, bind_eq_ok.mpr ⟨_, ih, rfl⟩⟩

theorem mapM_congr {ε α β : Type} {f g : α → Except ε β} {xs : List α} (h : ∀ x ∈ xs, f x = g x) :
    xs.mapM f = xs.mapM g := by
  induction xs with
  | nil => rfl
  | cons x xs ih =>
      rw [List.mapM_cons, List.mapM_cons, h x List.mem_cons_self,
        ih fun y hy => h y (List.mem_cons_of_mem x hy)]

theorem forM_eq_ok {ε α : Type} {f : α → Except ε Unit} {xs : List α} :
    xs.forM f = .ok () ↔ ∀ x ∈ xs, f x = .ok () := by
  induction xs with
  | nil => exact ⟨fun _ _ h => absurd h List.not_mem_nil, fun _ => rfl⟩
  | cons x xs ih =>
      have hcons : (x :: xs).forM f = f x >>= fun _ => xs.forM f := rfl
      rw [hcons, bind_eq_ok, List.forall_mem_cons, ← ih]
      constructor
      · rintro ⟨⟨⟩, hx, hxs⟩
        exact ⟨hx, hxs⟩
      · rintro ⟨hx, hxs⟩
        exact ⟨(), hx, hxs⟩

/-- An invariant of the members done so far and the accumulator holds at the end of a fold. -/
theorem foldlM_invariant {ε α β : Type} {f : β → α → Except ε β} {I : List α → β → Prop}
    {xs : List α}
    (step : ∀ done, ∀ x ∈ xs, ∀ acc acc', I done acc → f acc x = .ok acc' → I (done ++ [x]) acc')
    (done : List α) {acc last : β} (h : I done acc) (hlast : xs.foldlM f acc = .ok last) :
    I (done ++ xs) last := by
  induction xs generalizing done acc with
  | nil =>
      obtain rfl := Except.ok.inj hlast
      rwa [List.append_nil]
  | cons x xs ih =>
      rw [List.foldlM_cons] at hlast
      obtain ⟨acc', hacc, hlast⟩ := bind_eq_ok.mp hlast
      rw [List.append_cons]
      exact ih (fun d y hy => step d y (List.mem_cons_of_mem x hy)) (done ++ [x])
        (step done x List.mem_cons_self acc acc' h hacc) hlast

/-! ## Computations that succeed -/

theorem exists_mapM {ε α β : Type} {f : α → Except ε β} {xs : List α}
    (h : ∀ x ∈ xs, ∃ y, f x = .ok y) : ∃ ys, xs.mapM f = .ok ys := by
  induction xs with
  | nil => exact ⟨[], rfl⟩
  | cons x xs ih =>
      obtain ⟨y, hy⟩ := h x List.mem_cons_self
      obtain ⟨ys, hys⟩ := ih fun x' hx' => h x' (List.mem_cons_of_mem x hx')
      refine ⟨y :: ys, ?_⟩
      rw [List.mapM_cons, hy, hys]
      rfl

theorem exists_mapM_eq_ok_iff {ε α β : Type} {f : α → Except ε β} {xs : List α} {P : β → Prop} :
    (∃ ys, xs.mapM f = .ok ys ∧ ∀ y ∈ ys, P y) ↔ ∀ x ∈ xs, ∃ y, f x = .ok y ∧ P y := by
  constructor
  · rintro ⟨ys, hys, hall⟩ x hx
    obtain ⟨y, hy, hxy⟩ := forall₂_exists_right (mapM_eq_ok hys) hx
    exact ⟨y, hxy, hall y hy⟩
  · intro h
    induction xs with
    | nil => exact ⟨[], rfl, by simp⟩
    | cons x xs ih =>
        obtain ⟨y, hy, hP⟩ := h x List.mem_cons_self
        obtain ⟨ys, hys, hall⟩ := ih fun z hz => h z (List.mem_cons_of_mem x hz)
        refine ⟨y :: ys, ?_, List.forall_mem_cons.mpr ⟨hP, hall⟩⟩
        rw [List.mapM_cons, hy, hys]
        rfl

/-- If each member that gives a result with one function gives a related one with another, so does
the list. -/
theorem exists_mapM_of_forall {ε α β γ : Type} {f : α → Except ε β} {g : α → Except ε γ}
    {R : β → γ → Prop} {xs : List α} {ys : List β}
    (h : ∀ x ∈ xs, ∀ y, f x = .ok y → ∃ z, g x = .ok z ∧ R y z) (hys : xs.mapM f = .ok ys) :
    ∃ zs, xs.mapM g = .ok zs ∧ List.Forall₂ R ys zs := by
  induction xs generalizing ys with
  | nil =>
      obtain rfl := Except.ok.inj hys
      exact ⟨[], rfl, .nil⟩
  | cons x xs ih =>
      rw [List.mapM_cons] at hys
      obtain ⟨y, hy, hys⟩ := bind_eq_ok.mp hys
      obtain ⟨ys', hys', hys⟩ := bind_eq_ok.mp hys
      obtain rfl := Except.ok.inj hys
      obtain ⟨z, hz, hyz⟩ := h x List.mem_cons_self y hy
      obtain ⟨zs, hzs, hall⟩ := ih (fun w hw => h w (List.mem_cons_of_mem x hw)) hys'
      refine ⟨z :: zs, ?_, .cons hyz hall⟩
      rw [List.mapM_cons]
      exact bind_eq_ok.mpr ⟨z, hz, bind_eq_ok.mpr ⟨zs, hzs, rfl⟩⟩

/-- A fold gets through if each step does, as long as what it needs for the rest is kept. -/
theorem exists_foldlM {ε α β : Type} {f : β → α → Except ε β} {P : List α → β → Prop}
    (step : ∀ x xs y, P (x :: xs) y → ∃ y', f y x = .ok y' ∧ P xs y') {xs : List α} {y : β}
    (h : P xs y) : ∃ z, xs.foldlM f y = .ok z := by
  induction xs generalizing y with
  | nil => exact ⟨y, rfl⟩
  | cons x xs ih =>
      obtain ⟨y', hy', h'⟩ := step x xs y h
      obtain ⟨z, hz⟩ := ih h'
      refine ⟨z, ?_⟩
      rw [List.foldlM_cons, hy']
      exact hz

/-! ## Computations that fail -/

/-- The error of a computation that fails. -/
def error? {ε α : Type} : Except ε α → Option ε
  | .error e => some e
  | .ok _ => none

theorem eq_error_of_error? {ε α : Type} {x : Except ε α} {e : ε} (h : error? x = some e) :
    x = .error e := by
  cases x with
  | error e' => exact congrArg Except.error (Option.some.inj h)
  | ok a => exact absurd h (by simp [error?])

theorem bind_eq_error {ε α β : Type} {x : Except ε α} {f : α → Except ε β} {e : ε}
    (h : (x >>= f) = .error e) : x = .error e ∨ ∃ a, x = .ok a ∧ f a = .error e := by
  cases x with
  | error e' => exact Or.inl (congrArg Except.error (Except.error.inj h))
  | ok a => exact Or.inr ⟨a, rfl, h⟩

theorem mapM_eq_error {ε α β : Type} {f : α → Except ε β} {xs : List α} {e : ε}
    (h : xs.mapM f = .error e) : ∃ x ∈ xs, f x = .error e := by
  induction xs with
  | nil => cases h
  | cons x xs ih =>
      rw [List.mapM_cons] at h
      rcases bind_eq_error h with h | ⟨_, -, h⟩
      · exact ⟨x, List.mem_cons_self, h⟩
      · rcases bind_eq_error h with h | ⟨_, -, h⟩
        · obtain ⟨y, hy, hfails⟩ := ih h
          exact ⟨y, List.mem_cons_of_mem x hy, hfails⟩
        · cases h

theorem foldlM_eq_error {ε α β : Type} {f : β → α → Except ε β} {xs : List α} {y : β} {e : ε}
    (h : xs.foldlM f y = .error e) : ∃ x ∈ xs, ∃ z, f z x = .error e := by
  induction xs generalizing y with
  | nil => cases h
  | cons x xs ih =>
      rw [List.foldlM_cons] at h
      rcases bind_eq_error h with h | ⟨_, -, h⟩
      · exact ⟨x, List.mem_cons_self, y, h⟩
      · obtain ⟨x', hx', hfails⟩ := ih h
        exact ⟨x', List.mem_cons_of_mem x hx', hfails⟩

end FormulaSql
