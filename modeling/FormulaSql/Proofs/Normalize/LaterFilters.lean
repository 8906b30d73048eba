import FormulaSql.Proofs.Formula.Positions
import FormulaSql.Proofs.Query.Stages

/-!
# Window calls and forks before the filters of those around them

The rule on later filters looks at the nodes above a node as they were at the start, and what it
has made of the nodes below does not matter to it. So each node can be followed by its path: what
stands there in the end is what the rule offers for the node that stood there, and the nodes it
looks at are those at the paths before.

* `Formula.at?_offered_laterFilters` follows a node by its path
* `Formula.laterFilters?_offered` says what the rule makes of one node
* `Formula.transform_laterFilters` is the result for a whole formula
-/

namespace FormulaSql

/-- The kind before no filters, if it is one that can come before some. -/
def Kind.withoutLater {α : Type} : Kind α → Kind α
  | .window w => .window { w with beforeFilterBy := NameSet.empty }
  | .fork q => .fork { q with beforeFilterBy := NameSet.empty }
  | k => k

namespace Formula

/-- The formula with all its window calls and forks before no filters. -/
def withoutLater (f : Formula) : Formula := f.recur fun f k => .mk k.withoutLater f.notes

section LaterFilters

variable {available own : NameSet} {above : List Formula} {f g r : Formula} {p : Path} {n : String}

theorem withoutLater_eq (f : Formula) :
    f.withoutLater = .mk (f.kind.map withoutLater).withoutLater f.notes := recur_eq _ f

/-! ## One node -/

theorem withoutLater_of_offer (h : Normalize.laterFilters available above f = some r) :
    r.withoutLater = f.withoutLater := by
  rcases Normalize.laterFilters_cases h with ⟨w, filters, hk, rfl⟩ | ⟨q, filters, hk, rfl⟩
  · rw [withoutLater_eq, withoutLater_eq f, hk]
    rfl
  · rw [withoutLater_eq, withoutLater_eq f, hk]
    rfl

/-- A node that the rule offers something for or not is followed by the children that it offers
for the children. -/
theorem children_offered_laterFilters (available : NameSet) (above : List Formula) (f : Formula) :
    (f.offered (Normalize.laterFilters available) above).children =
      f.children.map (offered (Normalize.laterFilters available) (above ++ [f])) := by
  rw [offered_eq (alters_laterFilters available).renews, ← children_rebuilt]
  cases hr : Normalize.laterFilters available above
      (f.rebuilt (Normalize.laterFilters available) above) with
  | none => rfl
  | some r =>
      obtain ⟨-, -, -, -, hchildren, -⟩ := laterFilters_full hr
      exact hchildren

/-- Whatever can come before filters gets the full set of them. -/
theorem laterFilters?_offered (available : NameSet) (above : List Formula) (f : Formula) :
    Normalize.laterFilters? (f.offered (Normalize.laterFilters available) above) =
      (Normalize.laterFilters? f).map (Normalize.fullLaterFilters available above) := by
  have hrebuilt := laterFilters?_eq_of_outline
    (outline_rebuilt (Normalize.laterFilters available) above f)
  rw [offered_eq (alters_laterFilters available).renews, ← hrebuilt]
  cases hr : Normalize.laterFilters available above
      (f.rebuilt (Normalize.laterFilters available) above) with
  | some r =>
      obtain ⟨own, hown, -, hfull, -⟩ := laterFilters_full hr
      rw [hown]
      exact hfull
  | none =>
      rw [Option.getD_none]
      cases hown : Normalize.laterFilters?
          (f.rebuilt (Normalize.laterFilters available) above) with
      | none => rfl
      | some own => rw [Option.map_some, fullLaterFilters_eq hr hown]

/-! ## A node and its path -/

/-- What stands at a path is what the rule offers for the node that stood there. -/
theorem at?_offered_laterFilters (available : NameSet) (above : List Formula) (f : Formula)
    (p : Path) :
    (f.offered (Normalize.laterFilters available) above).at? p =
      (f.at? p).map (offered (Normalize.laterFilters available) (above ++ f.along p)) := by
  induction p generalizing f above with
  | nil => rw [along, List.append_nil]; rfl
  | cons i p ih =>
      rw [at?, at?, children_offered_laterFilters, List.getElem?_map]
      cases hc : f.children[i]? with
      | none => rfl
      | some c =>
          have hbelow := ih (above ++ [f]) c
          rwa [← List.append_cons, ← along_cons hc] at hbelow

/-- The members of a set in the end. -/
theorem mem_laterFilters_iff
    (hg : (f.transform (Normalize.laterFilters available)).at? p = some g)
    (hown : Normalize.laterFilters? g = some own) :
    n ∈ own.toList ↔ n ∈ available.toList ∧ ∃ i a s, i <+: p ∧ f.at? i = some a ∧
      Normalize.laterFilters? a = some s ∧ n ∈ s.toList := by
  rw [transform_eq_offered (alters_laterFilters available).renews, at?_offered_laterFilters] at hg
  obtain ⟨f₀, hf₀, rfl⟩ := Option.map_eq_some_iff.mp hg
  rw [laterFilters?_offered] at hown
  obtain ⟨own₀, hown₀, rfl⟩ := Option.map_eq_some_iff.mp hown
  rw [mem_fullLaterFilters, List.nil_append]
  constructor
  · rintro ⟨hn | ⟨a, ha, s, hs, hn⟩, havailable⟩
    · exact ⟨havailable, p, f₀, own₀, List.prefix_refl p, hf₀, hown₀, hn⟩
    · obtain ⟨i, hi, -, hat⟩ := mem_along_iff.mp ha
      exact ⟨havailable, i, a, s, hi, hat, hs, hn⟩
  · rintro ⟨havailable, i, a, s, hi, hat, hs, hn⟩
    refine ⟨?_, havailable⟩
    by_cases hip : i = p
    · subst hip
      obtain rfl := Option.some.inj (hf₀.symm.trans hat)
      obtain rfl := Option.some.inj (hown₀.symm.trans hs)
      exact Or.inl hn
    · exact Or.inr ⟨a, mem_along_iff.mpr ⟨i, hi, hip, hat⟩, s, hs, hn⟩

/-! ## The whole formula -/

theorem withoutLater_offered (available : NameSet) (above : List Formula) (f : Formula) :
    (f.offered (Normalize.laterFilters available) above).withoutLater = f.withoutLater := by
  induction f using induction_children generalizing above with
  | step f ih =>
      have hrebuilt : (f.rebuilt (Normalize.laterFilters available) above).withoutLater =
          f.withoutLater := by
        rw [rebuilt_eq, withoutLater_eq, withoutLater_eq f, kind, Kind.map_map]
        have hkind := Kind.map_congr fun c hc => ih c hc (above ++ [f])
        exact congrArg (fun k => mk (Kind.withoutLater k) f.notes) hkind
      rw [offered_eq (alters_laterFilters available).renews]
      cases hr : Normalize.laterFilters available above
          (f.rebuilt (Normalize.laterFilters available) above) with
      | none => exact hrebuilt
      | some r => exact (withoutLater_of_offer hr).trans hrebuilt

/-- A node comes before all filters that the nodes above it come before. -/
theorem subset_of_prefix {p q : Path} {inner outer : NameSet}
    (hpq : p <+: q) (hf : (r.transform (Normalize.laterFilters available)).at? p = some f)
    (hg : (r.transform (Normalize.laterFilters available)).at? q = some g)
    (houter : Normalize.laterFilters? f = some outer)
    (hinner : Normalize.laterFilters? g = some inner) : ∀ n ∈ outer.toList, n ∈ inner.toList := by
  intro n hn
  obtain ⟨havailable, i, a, s, hi, hat, hs, hns⟩ := (mem_laterFilters_iff hf houter).mp hn
  exact (mem_laterFilters_iff hg hinner).mpr ⟨havailable, i, a, s, hi.trans hpq, hat, hs, hns⟩

theorem throughout_filtersLater (available : NameSet) (f : Formula) :
    (f.transform (Normalize.laterFilters available)).Throughout (FiltersLater available) [] := by
  intro p g hg own hown
  constructor
  · intro n hn
    exact ((mem_laterFilters_iff hg hown).mp hn).1
  · intro a ha s hs
    obtain ⟨i, hi, -, hat⟩ := mem_along_iff.mp ha
    exact subset_of_prefix hi hat hg hs hown

/-- Nothing changes but the filters that window calls and forks come before. Each of them comes
before those filters of the query that it came before itself or that one around it came before. So
what is inside comes before all that those around it come before, and the rule has nothing to
offer a second time. -/
theorem transform_laterFilters (available : NameSet) (f : Formula) :
    (f.transform (Normalize.laterFilters available)).withoutLater = f.withoutLater ∧
    (∀ p g own, (f.transform (Normalize.laterFilters available)).at? p = some g →
      Normalize.laterFilters? g = some own → ∀ n, n ∈ own.toList ↔ n ∈ available.toList ∧
        ∃ i a s, i <+: p ∧ f.at? i = some a ∧ Normalize.laterFilters? a = some s ∧
          n ∈ s.toList) ∧
    (∀ p q g h outer inner, p <+: q →
      (f.transform (Normalize.laterFilters available)).at? p = some g →
      (f.transform (Normalize.laterFilters available)).at? q = some h →
      Normalize.laterFilters? g = some outer → Normalize.laterFilters? h = some inner →
      ∀ n ∈ outer.toList, n ∈ inner.toList) ∧
    (f.transform (Normalize.laterFilters available)).transform
      (Normalize.laterFilters available) = f.transform (Normalize.laterFilters available) := by
  refine ⟨?_, ?_, ?_, ?_⟩
  · rw [transform_eq_offered (alters_laterFilters available).renews]
    exact withoutLater_offered available [] f
  · intro p g own hg hown n
    exact mem_laterFilters_iff hg hown
  · intro p q g h outer inner hpq hg hh houter hinner
    exact subset_of_prefix hpq hg hh houter hinner
  · exact transform_eq_self (rests_laterFilters (throughout_filtersLater available f))

end LaterFilters

/-- The inner of two window calls comes to stand before the filter of the outer one, too. -/
example :
    let inner := window "rmax" [field "sales"] .total [] (NameSet.ofList ["b"])
    let outer := window "rsum" [inner] .total [] (NameSet.ofList ["a", "gone"])
    ((outer.transform (Normalize.laterFilters (NameSet.ofList ["a", "b"]))).at? [0]).bind
      Normalize.laterFilters? = some (NameSet.ofList ["a", "b"]) := by
  decide

end Formula

end FormulaSql
