import FormulaSql.Formula.Build
import FormulaSql.Proofs.Formula.Rewriting
import FormulaSql.Proofs.Formula.Outline

/-!
# Reading and replacing at paths

A path goes from child to child through the children of each node, whatever places of the node they
stand in. Reading and replacing at a path obey the laws of a field of a record: what has been put at
a path is read there, putting back what is there changes nothing, and what happens at paths that do
not lead through each other does not interfere.

* `Formula.replaceAt?_comm`: replacements at separate paths can be made in any order
* `Formula.replaceAt?_obeys_paths` puts the laws together
-/

namespace FormulaSql.Formula

variable {f g c r s : Formula} {i : Nat} {p q : Path}

/-! ## Reading after replacing -/

theorem at?_append (f : Formula) (p p' : Path) :
    f.at? (p ++ p') = (f.at? p).bind fun g => g.at? p' := by
  induction p generalizing f with
  | nil => rfl
  | cons i p ih =>
      rw [List.cons_append, at?, at?]
      cases f.children[i]? with
      | none => rfl
      | some c => exact ih c

/-- A replacement changes nothing beside the node that is replaced. -/
theorem at?_replaceAt? {f r g : Formula} {c p : Path} (h : f.replaceAt? r c = some g)
    (hcp : ¬ c <+: p) (hpc : ¬ p <+: c) : g.at? p = f.at? p := by
  induction c generalizing f g p with
  | nil => exact absurd List.nil_prefix hcp
  | cons i c ih =>
      obtain ⟨x, d, hx, hd, rfl⟩ := replaceAt?_cons h
      cases p with
      | nil => exact absurd List.nil_prefix hpc
      | cons j p =>
          rw [at?, at?, children_withChildren_set]
          by_cases hij : i = j
          · subst hij
            have hi : i < f.children.length := (List.getElem?_eq_some_iff.mp hx).1
            rw [List.getElem?_set_self hi, hx]
            refine ih hd (fun hpre => hcp ?_) (fun hpre => hpc ?_)
            · exact List.cons_prefix_cons.mpr ⟨rfl, hpre⟩
            · exact List.cons_prefix_cons.mpr ⟨rfl, hpre⟩
          · rw [List.getElem?_set_ne hij]

/-- Inside the node that is replaced there is the replacement. -/
theorem at?_replaceAt?_below {f r g : Formula} {c : Path} (h : f.replaceAt? r c = some g)
    (p : Path) : g.at? (c ++ p) = r.at? p := by
  induction c generalizing f g with
  | nil =>
      obtain rfl := Option.some.inj h
      rfl
  | cons i c ih =>
      obtain ⟨x, d, hx, hd, rfl⟩ := replaceAt?_cons h
      have hi : i < f.children.length := (List.getElem?_eq_some_iff.mp hx).1
      rw [List.cons_append, at?, children_withChildren_set, List.getElem?_set_self hi]
      exact ih hd

/-! ## Where a replacement can be made -/

theorem isSome_replaceAt? (f r : Formula) (p : Path) :
    (f.replaceAt? r p).isSome = (f.at? p).isSome := by
  induction p generalizing f with
  | nil => rfl
  | cons i p ih =>
      rw [replaceAt?, at?]
      cases f.children[i]? with
      | none => rfl
      | some c => exact Option.isSome_map.trans (ih c)

theorem exists_replaceAt? {f x : Formula} {p : Path} (h : f.at? p = some x) (r : Formula) :
    ∃ g, f.replaceAt? r p = some g :=
  Option.isSome_iff_exists.mp ((isSome_replaceAt? f r p).trans (h ▸ rfl))

/-- Putting back what is there changes nothing. -/
theorem replaceAt?_self (h : f.at? p = some c) : f.replaceAt? c p = some f := by
  induction p generalizing f with
  | nil =>
      obtain rfl := Option.some.inj h
      rfl
  | cons i p ih =>
      rw [at?] at h
      split at h
      next d hd =>
        obtain ⟨hi, rfl⟩ := List.getElem?_eq_some_iff.mp hd
        rw [replaceAt?, hd]
        simp only [ih h, Option.map_some, List.set_getElem_self, withChildren_children]
      next => exact absurd h (by simp)

/-! ## Two replacements -/

theorem replaceAt?_cons_eq (f r : Formula) (i : Nat) (p : Path) :
    f.replaceAt? r (i :: p) = f.children[i]?.bind fun c =>
      (c.replaceAt? r p).map fun d => f.withChildren (f.children.set i d) := by
  rw [replaceAt?]
  cases f.children[i]? <;> rfl

/-- A replacement in a node that has got another child before. -/
theorem replaceAt?_set (f d r : Formula) (j i : Nat) (p : Path) :
    (f.withChildren (f.children.set j d)).replaceAt? r (i :: p) =
      (f.children.set j d)[i]?.bind fun c =>
        (c.replaceAt? r p).map fun e => f.withChildren ((f.children.set j d).set i e) := by
  have hrebuilt (e : Formula) :
      (f.withChildren (f.children.set j d)).withChildren ((f.children.set j d).set i e) =
        f.withChildren ((f.children.set j d).set i e) :=
    withChildren_withChildren f List.length_set (by simp)
  rw [replaceAt?_cons_eq, children_withChildren_set]
  simp only [hrebuilt]

/-- Of two replacements below the same child the second finds what the first has left. -/
theorem replaceAt?_replaceAt?_cons (f r s : Formula) (i : Nat) (p q : Path) :
    (f.replaceAt? r (i :: p)).bind (·.replaceAt? s (i :: q)) =
      f.children[i]?.bind fun c =>
        ((c.replaceAt? r p).bind (·.replaceAt? s q)).map fun e =>
          f.withChildren (f.children.set i e) := by
  rw [replaceAt?_cons_eq]
  cases hc : f.children[i]? with
  | none => rfl
  | some c =>
      have hi : i < f.children.length := (List.getElem?_eq_some_iff.mp hc).1
      simp only [Option.bind_some, Option.bind_map, Option.map_bind, Function.comp_def,
        replaceAt?_set, List.getElem?_set_self hi, List.set_set]

/-- Replacements below different children can be made in any order. -/
theorem replaceAt?_comm_of_ne (f r s : Formula) {i j : Nat} (hij : i ≠ j) (p q : Path) :
    (f.replaceAt? r (i :: p)).bind (·.replaceAt? s (j :: q)) =
      (f.replaceAt? s (j :: q)).bind (·.replaceAt? r (i :: p)) := by
  simp only [replaceAt?_cons_eq f, Option.bind_assoc, Option.bind_map, Function.comp_def,
    replaceAt?_set, List.getElem?_set_ne hij, List.getElem?_set_ne (Ne.symm hij)]
  cases f.children[i]? with
  | none => cases f.children[j]? <;> simp
  | some c =>
      cases f.children[j]? with
      | none => simp
      | some d =>
          simp only [Option.bind_some]
          cases c.replaceAt? r p with
          | none => cases d.replaceAt? s q <;> rfl
          | some x =>
              cases d.replaceAt? s q with
              | none => rfl
              | some y => simp [List.set_comm _ _ hij]

/-- Replacements at paths that do not lead through each other can be made in any order. -/
theorem replaceAt?_comm (f r s : Formula) (hpq : ¬ p <+: q) (hqp : ¬ q <+: p) :
    (f.replaceAt? r p).bind (·.replaceAt? s q) = (f.replaceAt? s q).bind (·.replaceAt? r p) := by
  induction p generalizing f q with
  | nil => exact absurd List.nil_prefix hpq
  | cons i p ih =>
      cases q with
      | nil => exact absurd List.nil_prefix hqp
      | cons j q =>
          by_cases hij : i = j
          · subst hij
            have hp : ¬ p <+: q := fun h => hpq (List.cons_prefix_cons.mpr ⟨rfl, h⟩)
            have hq : ¬ q <+: p := fun h => hqp (List.cons_prefix_cons.mpr ⟨rfl, h⟩)
            simp only [replaceAt?_replaceAt?_cons, ih _ hp hq]
          · exact replaceAt?_comm_of_ne f r s hij p q

/-- What happens at a path is as if the path were a field. A replacement can be made where there is
a node; then the replacement is at the path, with all that is in it, and putting back what was there
changes nothing. At paths that do not lead through each other all stays as it was, and two
replacements can be made in any order. -/
theorem replaceAt?_obeys_paths (f r s : Formula) (p q : Path) :
    (f.replaceAt? r p).isSome = (f.at? p).isSome ∧
      (∀ g, f.replaceAt? r p = some g → g.at? p = some r ∧ ∀ k, g.at? (p ++ k) = r.at? k) ∧
      (∀ c, f.at? p = some c → f.replaceAt? c p = some f) ∧
      (¬ p <+: q → ¬ q <+: p →
        (∀ g, f.replaceAt? r p = some g → g.at? q = f.at? q) ∧
          (f.replaceAt? r p).bind (·.replaceAt? s q) =
            (f.replaceAt? s q).bind (·.replaceAt? r p)) := by
  refine ⟨isSome_replaceAt? f r p, fun g hg => ⟨?_, at?_replaceAt?_below hg⟩,
    fun c => replaceAt?_self, fun hpq hqp => ⟨fun g hg => at?_replaceAt? hg hpq hqp, ?_⟩⟩
  · have hbelow := at?_replaceAt?_below hg []
    rwa [List.append_nil] at hbelow
  · exact replaceAt?_comm f r s hpq hqp

/-- Totals of the week before, joined back by city and by date. -/
def totalsWeekBefore (measure date : Formula) : Formula :=
  weekBefore (call "sum" [measure]) (field "City") date (field "Week") (field "City") date
    (field "Week")

theorem replaceAt?_obeys_paths_totals :
    ¬ [0, 0] <+: [2] ∧ ¬ [2] <+: [0, 0] ∧
      (totalsWeekBefore (field "Sales") (field "Date")).at? [0, 0] = some (field "Sales") ∧
      (totalsWeekBefore (field "Sales") (field "Date")).replaceAt? (field "Profit") [0, 0] =
        some (totalsWeekBefore (field "Profit") (field "Date")) ∧
      (totalsWeekBefore (field "Sales") (field "Date")).replaceAt? (field "Sales") [0, 0] =
        some (totalsWeekBefore (field "Sales") (field "Date")) ∧
      (totalsWeekBefore (field "Profit") (field "Date")).at? [2] =
        (totalsWeekBefore (field "Sales") (field "Date")).at? [2] :=
  have hp : ¬ [0, 0] <+: [2] := by decide
  have hq : ¬ [2] <+: [0, 0] := by decide
  have h := replaceAt?_obeys_paths (totalsWeekBefore (field "Sales") (field "Date"))
    (field "Profit") (field "Month") [0, 0] [2]
  ⟨hp, hq, rfl, rfl, h.2.2.1 _ rfl, (h.2.2.2 hp hq).1 _ rfl⟩

end FormulaSql.Formula
