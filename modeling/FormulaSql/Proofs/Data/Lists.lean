import Mathlib.Data.List.Forall2
import Mathlib.Data.List.Nodup
import Mathlib.Data.List.Perm.Basic

/-!
# Lists

What the proofs about formulas, queries and statements need to know about lists: members of two
lists that go together, repetitions that are dropped, and what is found first in a sorted list.
-/

namespace FormulaSql

/-! ## Lists that go together -/

/-- Pointwise relations may be changed member by member. -/
theorem forall₂_of_mem {α β : Type} {R S : α → β → Prop} {xs : List α} {ys : List β}
    (h : List.Forall₂ R xs ys) (step : ∀ x ∈ xs, ∀ y ∈ ys, R x y → S x y) :
    List.Forall₂ S xs ys := by
  induction h with
  | nil => exact .nil
  | cons hxy _ ih =>
      refine .cons (step _ List.mem_cons_self _ List.mem_cons_self hxy) (ih ?_)
      intro x hx y hy
      exact step x (List.mem_cons_of_mem _ hx) y (List.mem_cons_of_mem _ hy)

theorem forall₂_exists_right {α β : Type} {R : α → β → Prop} {xs : List α} {ys : List β}
    (h : List.Forall₂ R xs ys) {x : α} (hx : x ∈ xs) : ∃ y ∈ ys, R x y := by
  induction h with
  | nil => exact absurd hx List.not_mem_nil
  | cons hab _ ih =>
      rcases List.mem_cons.mp hx with rfl | hx
      · exact ⟨_, List.mem_cons_self, hab⟩
      · obtain ⟨y, hy, hR⟩ := ih hx
        exact ⟨y, List.mem_cons_of_mem _ hy, hR⟩

/-- Elements that are kept as long as they have a property are all kept if they have it. -/
theorem eq_of_forall₂_kept {α : Type} {P : α → Prop} {xs ys : List α}
    (h : List.Forall₂ (fun x y => P x → y = x) xs ys) (hxs : ∀ x ∈ xs, P x) : ys = xs := by
  induction h with
  | nil => rfl
  | cons hxy _ ih =>
      rw [List.forall_mem_cons] at hxs
      rw [hxy hxs.1, ih hxs.2]

theorem forall₂_exists_left {α β : Type} {R : α → β → Prop} {xs : List α} {ys : List β}
    (h : List.Forall₂ R xs ys) {y : β} (hy : y ∈ ys) : ∃ x ∈ xs, R x y :=
  forall₂_exists_right (List.Forall₂.flip h) hy

theorem exists_getElem?_of_forall₂ {α β : Type} {R : α → β → Prop} {xs : List α} {ys : List β}
    {i : Nat} {x : α} (h : List.Forall₂ R xs ys) (hx : xs[i]? = some x) :
    ∃ y, ys[i]? = some y ∧ R x y := by
  induction h generalizing i with
  | nil => exact absurd hx (by simp)
  | @cons a b _ _ hab _ ih =>
      cases i with
      | zero => exact ⟨b, rfl, Option.some.inj hx ▸ hab⟩
      | succ i => exact ih hx

theorem exists_getLast?_of_forall₂ {α β : Type} {R : α → β → Prop} {xs : List α} {ys : List β}
    {x : α} (h : List.Forall₂ R xs ys) (hx : xs.getLast? = some x) :
    ∃ y, ys.getLast? = some y ∧ R x y := by
  rw [List.getLast?_eq_getElem?] at hx
  rw [List.getLast?_eq_getElem?, ← h.length_eq]
  exact exists_getElem?_of_forall₂ h hx

theorem forall₂_append_iff {α β : Type} {R : α → β → Prop} {xs xs' : List α} {ys ys' : List β}
    (h : xs.length = ys.length) :
    List.Forall₂ R (xs ++ xs') (ys ++ ys') ↔ List.Forall₂ R xs ys ∧ List.Forall₂ R xs' ys' := by
  induction xs generalizing ys with
  | nil =>
      obtain rfl := List.length_eq_zero_iff.mp h.symm
      simp
  | cons x xs ih =>
      cases ys with
      | nil => exact absurd h (by simp)
      | cons y ys =>
          simp only [List.cons_append, List.forall₂_cons, ih (Nat.succ.inj h), and_assoc]

theorem forall₂_set {α : Type} {R : α → α → Prop} (refl : ∀ x, R x x) {xs : List α} {i : Nat}
    {c d : α} (hc : xs[i]? = some c) (h : R c d) : List.Forall₂ R xs (xs.set i d) := by
  induction xs generalizing i with
  | nil => exact .nil
  | cons x xs ih =>
      cases i with
      | zero =>
          obtain rfl := Option.some.inj hc
          exact .cons h (List.forall₂_same.mpr fun y _ => refl y)
      | succ i => exact .cons (refl x) (ih hc)

/-- Where lists go together in two steps, they go together in one. -/
theorem forall₂_through {α β γ : Type} {R : α → β → Prop} {S : β → γ → Prop} {xs : List α}
    {ys : List β} {zs : List γ} (h : List.Forall₂ R xs ys) (h' : List.Forall₂ S ys zs) :
    List.Forall₂ (fun x z => ∃ y, R x y ∧ S y z) xs zs := by
  induction h generalizing zs with
  | nil =>
      cases h'
      exact .nil
  | cons hxy _ ih =>
      cases h' with
      | cons hyz h' => exact .cons ⟨_, hxy, hyz⟩ (ih h')

theorem flatMap_eq_of_forall₂ {α β γ : Type} {f : α → List γ} {g : β → List γ} {xs : List α}
    {ys : List β} (h : List.Forall₂ (fun x y => f x = g y) xs ys) :
    xs.flatMap f = ys.flatMap g := by
  induction h with
  | nil => rfl
  | cons hxy _ ih => rw [List.flatMap_cons, List.flatMap_cons, hxy, ih]

/-! ## Equal lists and repetitions -/

theorem list_beq_iff {α : Type} [BEq α] {xs ys : List α} :
    (xs == ys) = true ↔ List.Forall₂ (fun x y => (x == y) = true) xs ys := by
  induction xs generalizing ys with
  | nil => cases ys <;> simp
  | cons x xs ih => cases ys <;> simp [ih]

theorem exists_beq_of_mem {α : Type} [BEq α] {xs ys : List α} (h : (xs == ys) = true) {y : α}
    (hy : y ∈ ys) : ∃ x ∈ xs, (x == y) = true := by
  induction ys generalizing xs with
  | nil => exact absurd hy List.not_mem_nil
  | cons z zs ih =>
      cases xs with
      | nil => exact absurd h (by simp)
      | cons x xs =>
          rw [List.cons_beq_cons, Bool.and_eq_true] at h
          rcases List.mem_cons.mp hy with rfl | hy
          · exact ⟨x, List.mem_cons_self, h.1⟩
          · obtain ⟨x', hx', heq⟩ := ih h.2 hy
            exact ⟨x', List.mem_cons_of_mem x hx', heq⟩

theorem mem_of_mem_eraseDups {α : Type} [BEq α] {xs : List α} {x : α} (h : x ∈ xs.eraseDups) :
    x ∈ xs := by
  induction hlen : xs.length using Nat.strongRecOn generalizing xs with
  | ind n ih =>
      cases xs with
      | nil => exact h
      | cons y ys =>
          rw [List.eraseDups_cons] at h
          rcases List.mem_cons.mp h with rfl | h
          · exact List.mem_cons_self
          · have hlt : (ys.filter fun b => !b == y).length < n := by
              have := List.length_filter_le (fun b => !b == y) ys
              simp only [List.length_cons] at hlen
              omega
            exact List.mem_cons_of_mem y (List.mem_filter.mp (ih _ hlt h rfl)).1

/-- Every member of a list is like one that is left when repetitions are dropped. -/
theorem eq_nil_of_eraseDups {α : Type} [BEq α] {xs : List α} (h : xs.eraseDups = []) :
    xs = [] := by
  cases xs with
  | nil => rfl
  | cons x xs =>
      rw [List.eraseDups_cons] at h
      exact absurd h (by simp)

theorem exists_beq_eraseDups {α : Type} [BEq α] [EquivBEq α] {xs : List α} {x : α} (h : x ∈ xs) :
    ∃ y ∈ xs.eraseDups, (x == y) = true := by
  induction hlen : xs.length using Nat.strongRecOn generalizing xs with
  | ind n ih =>
      cases xs with
      | nil => exact absurd h List.not_mem_nil
      | cons z zs =>
          rw [List.eraseDups_cons]
          by_cases hz : (x == z) = true
          · exact ⟨z, List.mem_cons_self, hz⟩
          · have hmem : x ∈ zs.filter fun b => !b == z := by
              rcases List.mem_cons.mp h with rfl | h
              · exact absurd BEq.rfl hz
              · exact List.mem_filter.mpr ⟨h, by simpa using hz⟩
            have hlt : (zs.filter fun b => !b == z).length < n := by
              have := List.length_filter_le (fun b => !b == z) zs
              simp only [List.length_cons] at hlen
              omega
            obtain ⟨y, hy, hxy⟩ := ih _ hlt hmem rfl
            exact ⟨y, List.mem_cons_of_mem z hy, hxy⟩

theorem nodup_map_append {α : Type} {f : α → String} {as : List α} {a : α}
    (h : (as.map f).Nodup) (ha : f a ∉ as.map f) : ((as ++ [a]).map f).Nodup := by
  rw [List.map_append, List.map_singleton, ← List.concat_eq_append]
  exact h.concat ha

theorem not_mem_of_nodup_map {α : Type} {f : α → String} {as bs : List α} {a : α}
    (h : ((as ++ a :: bs).map f).Nodup) : f a ∉ as.map f := by
  rw [List.map_append, List.nodup_append'] at h
  exact fun hmem => h.2.2 hmem List.mem_cons_self

theorem eq_of_countP_le_one {α : Type} {p : α → Bool} {xs : List α} {x y : α}
    (h : xs.countP p ≤ 1) (hx : x ∈ xs) (hy : y ∈ xs) (hpx : p x = true) (hpy : p y = true) :
    x = y := by
  induction xs with
  | nil => exact absurd hx List.not_mem_nil
  | cons z zs ih =>
      have hrest {w : α} (hz : p z = true) (hw : w ∈ zs) (hpw : p w = true) : False := by
        rw [List.countP_cons, if_pos hz] at h
        exact absurd (List.countP_pos_iff.mpr ⟨w, hw, hpw⟩) (by omega)
      rcases List.mem_cons.mp hx with rfl | hx' <;> rcases List.mem_cons.mp hy with rfl | hy'
      · rfl
      · exact (hrest hpx hy' hpy).elim
      · exact (hrest hpy hx' hpx).elim
      · exact ih (Nat.le_trans (List.countP_cons ▸ Nat.le_add_right _ _) h) hx' hy'

theorem eq_of_nodup_filterMap {α β : Type} [DecidableEq β] {f : α → Option β} {xs : List α}
    {x y : α} {b : β} (h : (xs.filterMap f).Nodup) (hx : x ∈ xs) (hy : y ∈ xs) (hfx : f x = some b)
    (hfy : f y = some b) : x = y := by
  have hcount := List.nodup_iff_count_le_one.mp h b
  rw [List.count_filterMap] at hcount
  exact eq_of_countP_le_one hcount hx hy (beq_iff_eq.mpr hfx) (beq_iff_eq.mpr hfy)

/-! ## Positions and pairs -/

theorem perm_eraseIdx {α : Type} {xs : List α} {i : Nat} {x : α} (h : xs[i]? = some x) :
    (x :: xs.eraseIdx i).Perm xs := by
  obtain ⟨hi, rfl⟩ := List.getElem?_eq_some_iff.mp h
  exact List.getElem_cons_eraseIdx_perm hi

theorem pairwise_zipIdx {α : Type} (xs : List α) :
    xs.zipIdx.Pairwise fun a b => a.2 ≠ b.2 := by
  have hnodup : (xs.zipIdx.map Prod.snd).Nodup := by
    rw [List.zipIdx_map_snd]
    exact List.nodup_range'
  exact List.pairwise_map.mp hnodup

theorem mem_of_lookup {α β : Type} [BEq α] [LawfulBEq α] {k : α} {v : β} {l : List (α × β)}
    (h : l.lookup k = some v) : (k, v) ∈ l := by
  obtain ⟨l₁, l₂, rfl, -⟩ := List.lookup_eq_some_iff.mp h
  simp

/-! ## Ranks -/

/-- Where a relation holds among the members of each rank, it holds of members of one rank. -/
theorem pairwise_of_ranks {α : Type} (rank : α → Nat) {xs : List α} {R : α → α → Prop}
    {ranks : List Nat} (hrank : ∀ a ∈ xs, rank a ∈ ranks)
    (h : ∀ n ∈ ranks, (xs.filter fun a => rank a == n).Pairwise R) :
    xs.Pairwise fun a b => rank a = rank b → R a b := by
  refine List.pairwise_iff_getElem.mpr fun i j hi hj hij heq => ?_
  have hsame := List.pairwise_filter.mp (h (rank xs[i]) (hrank _ (List.getElem_mem hi)))
  exact List.pairwise_iff_getElem.mp hsame i j hi hj hij (beq_iff_eq.mpr rfl)
    (beq_iff_eq.mpr heq.symm)

section Sorted

variable {α : Type} (rank : α → Nat) {p : α → Bool} {xs ys : List α}

/-- What is found first in a sorted list has the least rank of all that could be found. -/
theorem rank_le_of_find? (hxs : xs.Pairwise fun a b => rank a ≤ rank b) {a b : α}
    (ha : xs.find? p = some a) (hb : b ∈ xs) (hpb : p b = true) : rank a ≤ rank b := by
  obtain ⟨-, before, after, rfl, hbefore⟩ := List.find?_eq_some_iff_append.mp ha
  rcases List.mem_append.mp hb with hb | hb
  · have hnot := hbefore b hb
    rw [hpb] at hnot
    exact absurd hnot (by decide)
  · rcases List.mem_cons.mp hb with rfl | hb
    · exact Nat.le_refl _
    · have hafter := (List.pairwise_append.mp hxs).2.1
      exact (List.pairwise_cons.mp hafter).1 b hb

/-- Two sorted lists with the same members give the same first find, if it is the only one of its
rank. -/
theorem find?_eq_of_perm (hperm : xs.Perm ys) (hxs : xs.Pairwise fun a b => rank a ≤ rank b)
    (hys : ys.Pairwise fun a b => rank a ≤ rank b)
    (hunique : ∀ a ∈ xs, ∀ b ∈ xs, p a = true → p b = true → rank a = rank b → a = b) :
    xs.find? p = ys.find? p := by
  cases hx : xs.find? p with
  | none =>
      refine (List.find?_eq_none.mpr fun b hb => ?_).symm
      exact List.find?_eq_none.mp hx b (hperm.mem_iff.mpr hb)
  | some a =>
      have ha := List.mem_of_find?_eq_some hx
      have hpa := List.find?_some hx
      cases hy : ys.find? p with
      | none => exact absurd hpa (List.find?_eq_none.mp hy a (hperm.mem_iff.mp ha))
      | some b =>
          have hb := hperm.mem_iff.mpr (List.mem_of_find?_eq_some hy)
          have hpb := List.find?_some hy
          have hab := rank_le_of_find? rank hxs hx hb hpb
          have hba := rank_le_of_find? rank hys hy (hperm.mem_iff.mp ha) hpa
          exact congrArg some (hunique a ha b hb hpa hpb (Nat.le_antisymm hab hba))

end Sorted

theorem le_foldl_max {n : Nat} {ns : List Nat} (hn : n ∈ ns) : n ≤ ns.foldl max 0 := by
  rw [List.foldl_max]
  obtain ⟨m, hm⟩ := Option.isSome_iff_exists.mp (List.isSome_max?_of_mem hn)
  rw [hm, Option.getD_some]
  exact Nat.le_trans ((List.max?_eq_some_iff.mp hm).2 n hn) (Nat.le_max_right 0 m)

theorem foldl_max_mem {ns : List Nat} (h : 0 < ns.foldl max 0) : ns.foldl max 0 ∈ ns := by
  rw [List.foldl_max] at h ⊢
  cases hm : ns.max? with
  | none => simp [hm] at h
  | some m =>
      rw [Option.getD_some, Nat.max_eq_right (Nat.zero_le m)]
      exact (List.max?_eq_some_iff.mp hm).1

end FormulaSql
