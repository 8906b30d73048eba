import FormulaSql.Proofs.Function.Grades

/-!
# The common type of several values

Types are joined from left to right, and where neither of two types fits the other, the first one
stays. What is joined on the way depends on the order: dates and date-times do not fit each other,
and both fit a generic date-time. If one of the types is such that all others fit it, the types are
nevertheless joined to that one in every order, and only then.

* `DataType.foldl_join_eq`: what is left when a list of types is joined
* `DataType.compatible_iff`: when the order of the types does not matter
-/

namespace FormulaSql

namespace BaseType

variable {a b c : BaseType}

theorem mem_all (a : BaseType) : a ∈ all := by
  cases a <;> decide

theorem widensTo_antisymm (h : a.widensTo b = true) (h' : b.widensTo a = true) : a = b := by
  have htable : ∀ a ∈ all, ∀ b ∈ all, a.widensTo b = true → b.widensTo a = true → a = b := by
    decide
  exact htable a (mem_all a) b (mem_all b) h h'

theorem widensTo_trans (h : a.widensTo b = true) (h' : b.widensTo c = true) :
    a.widensTo c = true := by
  have htable : ∀ a ∈ all, ∀ b ∈ all, a.widensTo b = true → ∀ c ∈ all, b.widensTo c = true →
      a.widensTo c = true := by
    decide
  exact htable a (mem_all a) b (mem_all b) h c (mem_all c) h'

end BaseType

namespace DataType

variable {c t u v : DataType} {ts us : List DataType}

/-! ## Casting as an order -/

@[simp]
theorem castsTo_refl (t : DataType) : t.castsTo t = true := by
  simp [castsTo]

theorem castsTo_trans (h : t.castsTo u = true) (h' : u.castsTo v = true) : t.castsTo v = true := by
  rw [castsTo_iff] at h h' ⊢
  rcases h with hnull | ⟨hwidens, hconst⟩
  · exact Or.inl hnull
  · rcases h' with hnull | ⟨hwidens', hconst'⟩
    · exact Or.inl (isNull_of_widensTo hwidens hnull)
    · exact Or.inr ⟨BaseType.widensTo_trans hwidens hwidens', hconst ∘ hconst'⟩

/-- NULL apart, two types that fit each other are the same. -/
theorem castsTo_antisymm (ht : t.isNull = false) (hu : u.isNull = false)
    (h : t.castsTo u = true) (h' : u.castsTo t = true) : t = u := by
  rw [castsTo_iff, ht, Bool.false_eq_true, false_or] at h
  rw [castsTo_iff, hu, Bool.false_eq_true, false_or] at h'
  exact FirmsTo.antisymm ⟨BaseType.widensTo_antisymm h'.1 h.1, h'.2⟩
    ⟨BaseType.widensTo_antisymm h.1 h'.1, h.2⟩

/-! ## Joining two types -/

theorem join_of_castsTo (h : t.castsTo c = true) : c.join t = c :=
  if_pos h

theorem join_eq_or (c t : DataType) : c.join t = c ∨ c.join t = t := by
  rw [join]
  split
  · exact Or.inl rfl
  · split
    · exact Or.inr rfl
    · exact Or.inl rfl

/-- The current type fits the join, whatever it is joined with. -/
theorem castsTo_join (c t : DataType) : c.castsTo (c.join t) = true := by
  rw [join]
  split
  · exact castsTo_refl c
  · split
    · assumption
    · exact castsTo_refl c

theorem join_eq_right (hc : c.isNull = false) (ht : t.isNull = false) (h : c.castsTo t = true) :
    c.join t = t := by
  rw [join, if_pos h]
  split
  next h' => exact castsTo_antisymm hc ht h h'
  next => rfl

/-! ## Joining a list of types -/

theorem foldl_join_mem (c : DataType) (ts : List DataType) : ts.foldl join c ∈ c :: ts := by
  induction ts generalizing c with
  | nil => exact List.mem_cons_self
  | cons t ts ih =>
      rw [List.foldl_cons]
      rcases List.mem_cons.mp (ih (c.join t)) with heq | hmem
      · rw [heq]
        rcases join_eq_or c t with hjoin | hjoin <;> simp [hjoin]
      · exact List.mem_cons_of_mem _ (List.mem_cons_of_mem _ hmem)

theorem castsTo_foldl_join (c : DataType) (ts : List DataType) :
    c.castsTo (ts.foldl join c) = true := by
  induction ts generalizing c with
  | nil => exact castsTo_refl c
  | cons t ts ih => exact castsTo_trans (castsTo_join c t) (ih (c.join t))

/-- Whatever the types are joined to on the way, a type that all others fit is left at the end. -/
theorem foldl_join_eq (hmem : t ∈ c :: ts)
    (hcasts : ∀ u ∈ c :: ts, u.isNull = false ∧ u.castsTo t = true) : ts.foldl join c = t := by
  induction ts generalizing c with
  | nil => exact (List.mem_singleton.mp hmem).symm
  | cons u us ih =>
      have ht : t.isNull = false := (hcasts t hmem).1
      simp only [List.forall_mem_cons] at hcasts
      obtain ⟨hc, hu, hus⟩ := hcasts
      have hjoined : (c.join u).isNull = false ∧ (c.join u).castsTo t = true := by
        rcases join_eq_or c u with hjoin | hjoin
        · rwa [hjoin]
        · rwa [hjoin]
      have hstill : t ∈ c.join u :: us := by
        simp only [List.mem_cons] at hmem
        rcases hmem with rfl | rfl | hmem
        · rw [join_of_castsTo hu.2]
          exact List.mem_cons_self
        · rw [join_eq_right hc.1 ht hc.2]
          exact List.mem_cons_self
        · exact List.mem_cons_of_mem _ hmem
      exact ih hstill (List.forall_mem_cons.mpr ⟨hjoined, hus⟩)

/-! ## The widest type -/

/-- The types that count: those that are not NULL, in their plain grades. -/
def counted (ts : List DataType) : List DataType := (ts.map nonConst).filter fun t => !t.isNull

theorem mem_counted : t ∈ counted ts ↔ t ∈ ts.map nonConst ∧ t.isNull = false := by
  rw [counted, List.mem_filter, Bool.not_eq_true']

theorem counted_eq_nil : counted ts = [] ↔ ∀ t ∈ ts, t.isNull = true := by
  rw [counted, List.filter_eq_nil_iff, List.forall_mem_map]
  simp only [Bool.not_eq_true, Bool.not_eq_false']
  rfl

theorem common_of_counted_nil (h : counted ts = []) : common ts = .plain .null := by
  rw [common, ← counted, h]

theorem common_of_counted_cons (h : counted ts = c :: us) : common ts = us.foldl join c := by
  rw [common, ← counted, h]

theorem common_mem (h : counted ts ≠ []) : common ts ∈ counted ts := by
  cases hcounted : counted ts with
  | nil => exact absurd hcounted h
  | cons c us =>
      rw [common_of_counted_cons hcounted]
      exact foldl_join_mem c us

theorem nonConst_common (ts : List DataType) : (common ts).nonConst = common ts := by
  by_cases h : counted ts = []
  · rw [common_of_counted_nil h]
    rfl
  · obtain ⟨t, -, ht⟩ := List.mem_map.mp (mem_counted.mp (common_mem h)).1
    rw [← ht]
    rfl

/-- The type is one of the plain grades, and not NULL. All others but NULL fit it. -/
structure IsWidest (t : DataType) (ts : List DataType) : Prop where
  mem : t ∈ ts.map nonConst
  isNull_eq : t.isNull = false
  castsTo : ∀ u ∈ ts, u.isNull = false → u.nonConst.castsTo t = true

theorem isWidest_iff : t.IsWidest ts ↔ t ∈ counted ts ∧ ∀ u ∈ counted ts, u.castsTo t = true := by
  constructor
  · intro h
    refine ⟨mem_counted.mpr ⟨h.mem, h.isNull_eq⟩, fun u hu => ?_⟩
    obtain ⟨hu, hnull⟩ := mem_counted.mp hu
    obtain ⟨v, hv, rfl⟩ := List.mem_map.mp hu
    exact h.castsTo v hv hnull
  · rintro ⟨hmem, hcasts⟩
    obtain ⟨hmem, hnull⟩ := mem_counted.mp hmem
    exact ⟨hmem, hnull, fun u hu hunull =>
      hcasts _ (mem_counted.mpr ⟨List.mem_map_of_mem hu, hunull⟩)⟩

theorem IsWidest.perm (h : t.IsWidest ts) (hperm : us.Perm ts) : t.IsWidest us :=
  ⟨(hperm.map nonConst).mem_iff.mpr h.mem, h.isNull_eq,
    fun u hu => h.castsTo u (hperm.mem_iff.mp hu)⟩

theorem IsWidest.common_eq (h : t.IsWidest ts) : common ts = t := by
  obtain ⟨hmem, hcasts⟩ := isWidest_iff.mp h
  cases hcounted : counted ts with
  | nil =>
      rw [hcounted] at hmem
      exact absurd hmem List.not_mem_nil
  | cons c us =>
      rw [common_of_counted_cons hcounted]
      refine foldl_join_eq (hcounted ▸ hmem) fun u hu => ?_
      rw [← hcounted] at hu
      exact ⟨(mem_counted.mp hu).2, hcasts u hu⟩

/-- Types that have one base type in common have it for their common type. -/
theorem base_common {b : BaseType} (hne : ts ≠ []) (h : ∀ t ∈ ts, t.base = b) :
    (common ts).base = b := by
  by_cases hnull : (plain b).isNull = true
  · have hcounted : counted ts = [] :=
      counted_eq_nil.mpr fun t ht => by rwa [isNull, h t ht]
    rw [common_of_counted_nil hcounted]
    exact (beq_iff_eq.mp hnull).symm
  · obtain ⟨t, ht⟩ := List.exists_mem_of_ne_nil ts hne
    have hwidest : (plain b).IsWidest ts := by
      refine ⟨List.mem_map.mpr ⟨t, ht, congrArg plain (h t ht)⟩, Bool.not_eq_true _ ▸ hnull,
        fun u hu _ => ?_⟩
      rw [nonConst, h u hu]
      exact castsTo_refl _
    rw [hwidest.common_eq]
    rfl

/-! ## Types whose order does not matter -/

/-- The types that are not NULL, if there are any, have a widest one among them. -/
def Compatible (ts : List DataType) : Prop :=
  (∀ t ∈ ts, t.isNull = true) ∨ ∃ t : DataType, t.IsWidest ts

theorem Compatible.perm (h : Compatible ts) (hperm : us.Perm ts) : Compatible us :=
  h.imp (fun h t ht => h t (hperm.mem_iff.mp ht)) fun ⟨t, ht⟩ => ⟨t, ht.perm hperm⟩

theorem Compatible.common_perm (h : Compatible ts) (hperm : us.Perm ts) :
    common us = common ts := by
  rcases h with hnull | ⟨t, ht⟩
  · rw [common_of_counted_nil (counted_eq_nil.mpr hnull), common_of_counted_nil]
    exact counted_eq_nil.mpr fun u hu => hnull u (hperm.mem_iff.mp hu)
  · rw [ht.common_eq, (ht.perm hperm).common_eq]

/-- The order does not matter exactly if the types are compatible. -/
theorem compatible_iff : Compatible ts ↔ ∀ us, us.Perm ts → common us = common ts := by
  refine ⟨fun h us hperm => h.common_perm hperm, fun h => ?_⟩
  by_cases hnone : counted ts = []
  · exact Or.inl (counted_eq_nil.mp hnone)
  · have hfits : ∀ u ∈ counted ts, u.castsTo (common ts) = true := fun u hu => by
      obtain ⟨hu, hnull⟩ := mem_counted.mp hu
      obtain ⟨v, hv, rfl⟩ := List.mem_map.mp hu
      have hfirst : counted (v :: ts.erase v) = v.nonConst :: counted (ts.erase v) := by
        rw [counted, List.map_cons, List.filter_cons_of_pos (by simp [hnull])]
        rfl
      rw [← h _ (List.perm_cons_erase hv).symm, common_of_counted_cons hfirst]
      exact castsTo_foldl_join _ _
    exact Or.inr ⟨common ts, isWidest_iff.mpr ⟨common_mem hnone, hfits⟩⟩

/-- Dates and date-times without a generic date-time among them. -/
example : common [.plain .date, .plain .datetime] = .plain .date ∧
    common [.plain .datetime, .plain .date] = .plain .datetime := by
  decide

/-- Types any two of which fit one into the other are compatible. -/
theorem compatible_of_pairwise (h : ts.Pairwise fun t u =>
    t.nonConst.castsTo u.nonConst = true ∨ u.nonConst.castsTo t.nonConst = true) :
    Compatible ts := by
  induction ts with
  | nil => exact Or.inl fun t ht => absurd ht List.not_mem_nil
  | cons t ts ih =>
      obtain ⟨ht, hts⟩ := List.pairwise_cons.mp h
      cases hnull : t.isNull with
      | true =>
          refine (ih hts).imp (fun hts => List.forall_mem_cons.mpr ⟨hnull, hts⟩) ?_
          rintro ⟨w, hw⟩
          exact ⟨w, List.mem_cons_of_mem _ hw.mem, hw.isNull_eq,
            List.forall_mem_cons.mpr ⟨fun h => absurd h (by simp [hnull]), hw.castsTo⟩⟩
      | false =>
          right
          rcases ih hts with hts | ⟨w, hw⟩
          · exact ⟨t.nonConst, List.mem_cons_self, hnull, List.forall_mem_cons.mpr
              ⟨fun _ => castsTo_refl _, fun u hu h => absurd (hts u hu) (by simp [h])⟩⟩
          · obtain ⟨v, hv, rfl⟩ := List.mem_map.mp hw.mem
            rcases ht v hv with hfits | hfits
            · exact ⟨v.nonConst, List.mem_cons_of_mem _ hw.mem, hw.isNull_eq,
                List.forall_mem_cons.mpr ⟨fun _ => hfits, hw.castsTo⟩⟩
            · exact ⟨t.nonConst, List.mem_cons_self, hnull, List.forall_mem_cons.mpr
                ⟨fun _ => castsTo_refl _, fun u hu h => castsTo_trans (hw.castsTo u hu h) hfits⟩⟩

end DataType

end FormulaSql
