import FormulaSql.Proofs.Split.Coverage

/-!
# Queries read from earlier ones

A round replaces one query by several. The new sub-queries come before the cropped query that reads
from them, and the cropped query keeps the names of what it selects, so that later queries can still
read from it. For that no entry may get lost: every entry that is not constant gets a new column,
whether it is a dimension or is cut. The only entries that can get lost are errors that an earlier
round left behind, and these are reported in the end.
-/

namespace FormulaSql

namespace Split

/-! ## Nothing gets lost -/

theorem CutsOf.exists_cut {q : Query} {forks : List Cut} {masks : List Mask}
    (h : CutsOf q forks (masks.flatMap Mask.cuts)) {p : Part} {i : Nat} {e : Entry}
    (hp : p ∈ Part.splittable) (hfilters : p ≠ .filters) (he : (q.part p)[i]? = some e)
    (hconst : e.formula.isConstantExpression = false)
    (halias : hasAliasIn (dimensionAliases q) e = false) : ∃ c, c ∈ cutsAt masks p i := by
  by_cases hfork : ∃ c ∈ forks, c.part = p ∧ c.index = i
  · obtain ⟨c, hc, hplace⟩ := hfork
    exact ⟨c, mem_cutsAt.mpr ⟨h.fork_mem c hc, hplace⟩⟩
  · have hnone : (forks.filter fun c => c.part == p && c.index == i) = [] := by
      refine List.filter_eq_nil_iff.mpr fun c hc hplace => hfork ⟨c, hc, ?_⟩
      simpa using hplace
    have huncut : uncutEntry q forks p e i = [[]] := by
      simp [uncutEntry, hnone, halias, hconst, hfilters, Formula.uncutPaths_of_no_cut hconst]
    obtain ⟨n, hn⟩ := h.uncut_mem p i [] ⟨hp, e, he, huncut ▸ List.mem_singleton.mpr rfl⟩
    exact ⟨_, mem_cutsAt.mpr ⟨hn, rfl, rfl⟩⟩

theorem replaceCuts_mentions {q : Query} {cuts : List Cut} {f g : Formula} (hcuts : cuts ≠ [])
    (h : replaceCuts q cuts f = .ok g) : ∃ c ∈ cuts, g.Mentions c.aliasName := by
  induction cuts generalizing f with
  | nil => exact absurd rfl hcuts
  | cons c cs ih =>
      obtain ⟨f', hf', h⟩ := replaceCuts_cons h
      by_cases hcs : cs = []
      · subst hcs
        obtain rfl := Except.ok.inj h
        have hnode := Formula.mem_nodes_of_replaceAt? hf'
        exact ⟨c, List.mem_cons_self, _, hnode, rfl⟩
      · obtain ⟨d, hd, hmentions⟩ := ih hcs h
        exact ⟨d, List.mem_cons_of_mem c hd, hmentions⟩

/-- The formula is the error of a round whose sub-queries cannot be joined. -/
def IsIncompatible (f : Formula) : Prop := (f == incompatible) = true

theorem IsIncompatible.kind {f : Formula} (h : IsIncompatible f) :
    ∃ message code, f.kind = .error message code := by
  have hshape := (Formula.same_iff.mp h).1
  cases hk : f.kind with
  | error message code => exact ⟨message, code, rfl⟩
  | _ => rw [hk] at hshape; cases hshape

theorem IsIncompatible.not_constant {f : Formula} (h : IsIncompatible f) :
    f.isConstantExpression = false := by
  obtain ⟨message, code, hk⟩ := h.kind
  have hany : (f.any fun g => g.field?.isSome || g.isWindowCall || g.isFork || g.isError ||
      g.isAggregateCall) = true :=
    Formula.any_iff.mpr ⟨f, Formula.self_mem_nodes f, by simp [Formula.isError, hk]⟩
  rw [Formula.isConstantExpression, hany]
  rfl

theorem IsIncompatible.errors_ne_nil {f : Formula} (h : IsIncompatible f) : f.errors ≠ [] := by
  obtain ⟨message, code, hk⟩ := h.kind
  have hmem : FormulaError.ofNode code message ∈ f.errors :=
    List.mem_filterMap.mpr ⟨f, Formula.self_mem_nodes f, by rw [hk]⟩
  exact List.ne_nil_of_mem hmem

/-- A part of which the answer depends on the order of the entries. -/
def Part.IsOrdered (p : Part) : Prop := p = .select ∨ p = .orderBy

section Lost

variable {q : Query} {masks : List Mask} {base : Mask} {others : List Mask} {compatible : Bool}
  {p : Part} {a b : Names} {i : Nat} {e : Entry}

/-- An entry that gets lost is an error already. -/
theorem isIncompatible_of_lost {forks : List Cut} (hq : Unused a q)
    (hmasks : MasksOf q a b (base :: others))
    (hcuts : CutsOf q forks ((base :: others).flatMap Mask.cuts)) (hp : Part.IsOrdered p)
    (he : (q.part p)[i]? = some e)
    (h : cropEntry q (base :: others) base compatible p e i = .ok none) :
    IsIncompatible e.formula := by
  have hparts : p ∈ Part.splittable ∧ p ≠ .filters ∧ p ≠ .joinOn := by
    rcases hp with rfl | rfl <;> simp [Part.splittable]
  have hnew : ∀ n, IsColumn (base :: others) n → ¬ e.formula.Mentions n := fun n hn hmentions =>
    hq.not_fresh ⟨p, hparts.2.2, e, List.mem_of_getElem? he, hmentions⟩ (hmasks.freshColumn hn)
  obtain ⟨f, hf, hsame, hconst⟩ := cropEntry_none h
  cases hf with
  | constant hconst' => exact absurd (hconst.symm.trans hconst') (by simp)
  | dimension _ _ hn =>
      have hmentions := (mentions_columnAt e.formula _).of_same hsame
      exact absurd hmentions (hnew _ (isColumn_dimensionColumn hn))
  | incompatible => exact Formula.same_symm hsame
  | cut _ halias _ hg =>
      obtain ⟨c, hc⟩ := hcuts.exists_cut hparts.1 hparts.2.1 he hconst halias
      obtain ⟨d, hd, hmentions⟩ := replaceCuts_mentions (List.ne_nil_of_mem hc) hg
      rw [if_neg (by simpa using hparts.2.1)] at hsame
      exact absurd (hmentions.of_same hsame) (hnew _ (isColumn_cutsAt hd))

end Lost

/-- Some selected expression or ordering of the query is an error of an earlier round. -/
def Spoiled (q : Query) : Prop :=
  ∃ p, Part.IsOrdered p ∧ ∃ e ∈ q.part p, IsIncompatible e.formula

theorem IsIncompatible.at? {f g : Formula} {path : Path} (h : IsIncompatible f)
    (hg : f.at? path = some g) : g = f := by
  obtain ⟨message, code, hk⟩ := h.kind
  cases path with
  | nil => exact (Option.some.inj hg).symm
  | cons i path =>
      rw [Formula.at?, Formula.children, hk] at hg
      exact absurd hg (by simp [Kind.children])

theorem IsIncompatible.plainAggregate {f : Formula} (h : IsIncompatible f) :
    plainAggregate f = f := by
  obtain ⟨message, code, hk⟩ := h.kind
  rw [Split.plainAggregate, hk]

section Spoil

variable {q c : Query} {p : Plan} {subs : List Query} {a b : Names}

/-- An error that is cut again is selected by a sub-query. -/
theorem RoundOf.spoiled (h : RoundOf q p subs c) (hp : Planned q a b p) (hq : Spoiled q) :
    ∃ s ∈ subs, Spoiled s := by
  obtain ⟨part, hpart, e, hmem, herror⟩ := hq
  obtain ⟨i, he⟩ := List.mem_iff_getElem?.mp hmem
  obtain ⟨base, others, hmasks, -, hcropped, -⟩ := h.cropped
  suffices ∃ m ∈ p.masks, ∀ s, SubqueryOf q m s → ∃ e' ∈ s.select, IsIncompatible e'.formula by
    obtain ⟨m, hm, hselect⟩ := this
    obtain ⟨s, hs, hsub⟩ := forall₂_exists_right h.subqueries hm
    exact ⟨s, hs, .select, Or.inl rfl, hselect s hsub⟩
  by_cases halias : hasAliasIn (dimensionAliases q) e = true
  · have hcrop : PartCropped q p.masks base p.compatible part [] (c.part part) := by
      rcases hpart with rfl | rfl
      · exact hcropped.select
      · exact hcropped.orderBy
    obtain ⟨f, hf⟩ := exists_cropped (hcrop.outcome he List.not_mem_nil)
    obtain ⟨x, hx, -, hexpr, -⟩ : ∃ x ∈ base.extras, x.isGroupBy = true ∧
        (x.expr == e.formula) = true ∧ ∃ n, x.aliasName = n := by
      cases hf with
      | constant hconst => exact absurd (herror.not_constant.symm.trans hconst) (by simp)
      | dimension _ _ hn =>
          obtain ⟨x, hx, hgroup, hexpr, hname⟩ := dimensionColumn_eq_some hn
          exact ⟨x, hx, hgroup, hexpr, _, hname⟩
      | incompatible _ hnone | cut _ hnone => exact absurd (halias.symm.trans hnone) (by simp)
    refine ⟨base, hmasks ▸ List.mem_cons_self, fun s hs => ?_⟩
    obtain ⟨es, -, hselect⟩ := hs.select
    refine ⟨extraEntry x, ?_, Formula.same_trans hexpr herror⟩
    rw [hselect]
    exact List.mem_append_right _ (List.mem_map_of_mem hx)
  · rw [Bool.not_eq_true] at halias
    obtain ⟨forks, hcuts⟩ := hp.cuts
    have hparts : part ∈ Part.splittable ∧ part ≠ .filters := by
      rcases hpart with rfl | rfl <;> simp [Part.splittable]
    obtain ⟨cut, hcut⟩ := hcuts.exists_cut hparts.1 hparts.2 he herror.not_constant halias
    obtain ⟨hall, rfl, rfl⟩ := mem_cutsAt.mp hcut
    obtain ⟨m, hm, hcut⟩ := List.mem_flatMap.mp hall
    refine ⟨m, hm, fun s hs => ?_⟩
    obtain ⟨es, hes, hselect⟩ := hs.select
    obtain ⟨e', he', t, ht, -, hsame⟩ := hes.column cut hcut
    obtain ⟨e₀, f, he₀, hf, hformula, -⟩ := cutEntry_eq_ok he'
    obtain rfl := Option.some.inj (he.symm.trans he₀)
    rw [hformula, herror.at? hf, herror.plainAggregate] at hsame
    exact ⟨t, hselect ▸ List.mem_append_left _ ht, Formula.same_trans hsame herror⟩

end Spoil

/-! ## Outlines -/

/-- The names and directions of entries. -/
def outline (es : List Entry) : List (Option String × Option Direction) :=
  es.map fun e => (e.aliasName, e.direction)

/-- The two queries select and sort under the same names. -/
def SameOutline (c q : Query) : Prop :=
  outline c.select = outline q.select ∧ outline c.orderBy = outline q.orderBy

theorem outline_filterMap {xs : List (Entry × Nat)} {os : List (Option Entry)}
    (h : List.Forall₂ (fun ei o => ∃ e', o = some e' ∧ e'.aliasName = ei.1.aliasName ∧
      e'.direction = ei.1.direction) xs os) :
    outline (os.filterMap id) = outline (xs.map Prod.fst) := by
  induction h with
  | nil => rfl
  | cons hxy _ ih =>
      obtain ⟨e', rfl, halias, hdirection⟩ := hxy
      simpa [outline, halias, hdirection] using ih

theorem PartCropped.outline {q : Query} {masks : List Mask} {base : Mask} {compatible : Bool}
    {p : Part} {es : List Entry} (h : PartCropped q masks base compatible p [] es)
    (hkept : ∀ e i, (q.part p)[i]? = some e → cropEntry q masks base compatible p e i ≠ .ok none) :
    outline es = outline (q.part p) := by
  obtain ⟨os, hos, rfl⟩ := h
  have hall : (q.part p).zipIdx.filter (fun ei => !([] : List Nat).contains ei.2) =
      (q.part p).zipIdx := List.filter_eq_self.mpr fun _ _ => rfl
  rw [hall] at hos
  have hsome : List.Forall₂ (fun (ei : Entry × Nat) o => ∃ e', o = some e' ∧
      e'.aliasName = ei.1.aliasName ∧ e'.direction = ei.1.direction) (q.part p).zipIdx os := by
    refine forall₂_of_mem hos fun ei hei o _ hcrop => ?_
    cases o with
    | none => exact absurd hcrop (hkept ei.1 ei.2 (List.mem_zipIdx_iff_getElem?.mp hei))
    | some e' =>
        obtain ⟨-, halias, hdirection, -⟩ := cropEntry_some hcrop
        exact ⟨e', rfl, halias, hdirection⟩
  have hmap := outline_filterMap hsome
  rwa [List.zipIdx_map_fst] at hmap

/-- Unless the query holds an error of an earlier round, cropping keeps all names in order. -/
theorem RoundOf.sameOutline {q c : Query} {p : Plan} {subs : List Query} {a b : Names}
    (h : RoundOf q p subs c) (hp : Planned q a b p) (hunused : Unused a q) (hq : ¬ Spoiled q) :
    SameOutline c q := by
  obtain ⟨base, others, hmasks, -, hcropped, -⟩ := h.cropped
  obtain ⟨forks, hcuts⟩ := hp.cuts
  have hof := hp.masks
  rw [hmasks] at hcropped hcuts hof
  have hkept : ∀ part, Part.IsOrdered part → ∀ e i, (q.part part)[i]? = some e →
      cropEntry q (base :: others) base p.compatible part e i ≠ .ok none := by
    intro part hpart e i he hnone
    have herror := isIncompatible_of_lost hunused hof hcuts hpart he hnone
    exact hq ⟨part, hpart, e, List.mem_of_getElem? he, herror⟩
  exact ⟨hcropped.select.outline (hkept .select (Or.inl rfl)),
    hcropped.orderBy.outline (hkept .orderBy (Or.inr rfl))⟩

/-! ## Reading from earlier queries -/

/-- Every query that `q` reads is among those before it and selects the columns that are read. -/
def ReadsFrom (before : List Query) (q : Query) : Prop :=
  ∀ id aliasName queryId columns, .subquery id aliasName queryId columns ∈ q.sources →
    ∃ x ∈ before, x.id = queryId ∧ ∀ n ∈ columns, ∃ e ∈ x.select, e.aliasName = some n

/-- Each query only reads from those before it, the ones in `before` included. -/
def Chained : List Query → List Query → Prop
  | _, [] => True
  | before, q :: qs => ReadsFrom before q ∧ Chained (before ++ [q]) qs

/-- Whoever reads from `xs` can read from `ys`. -/
def Provides (ys xs : List Query) : Prop :=
  ∀ x ∈ xs, ∃ y ∈ ys, y.id = x.id ∧
    ∀ e ∈ x.select, ∃ e' ∈ y.select, e'.aliasName = e.aliasName

theorem Provides.of_subset {xs ys : List Query} (h : xs ⊆ ys) : Provides ys xs :=
  fun x hx => ⟨x, h hx, rfl, fun e he => ⟨e, he, rfl⟩⟩

theorem Provides.append {xs ys : List Query} (h : Provides ys xs) (zs : List Query) :
    Provides (ys ++ zs) (xs ++ zs) := by
  intro x hx
  rcases List.mem_append.mp hx with hx | hx
  · obtain ⟨y, hy, hread⟩ := h x hx
    exact ⟨y, List.mem_append_left zs hy, hread⟩
  · exact ⟨x, List.mem_append_right ys hx, rfl, fun e he => ⟨e, he, rfl⟩⟩

theorem ReadsFrom.mono {xs ys : List Query} {q : Query} (hys : Provides ys xs)
    (h : ReadsFrom xs q) : ReadsFrom ys q := by
  intro id aliasName queryId columns hmem
  obtain ⟨x, hx, hid, hcolumns⟩ := h id aliasName queryId columns hmem
  obtain ⟨y, hy, hid', hselect⟩ := hys x hx
  refine ⟨y, hy, hid'.trans hid, fun n hn => ?_⟩
  obtain ⟨e, he, halias⟩ := hcolumns n hn
  obtain ⟨e', he', halias'⟩ := hselect e he
  exact ⟨e', he', halias'.trans halias⟩

theorem Chained.mono {xs ys qs : List Query} (hys : Provides ys xs) (h : Chained xs qs) :
    Chained ys qs := by
  induction qs generalizing xs ys with
  | nil => trivial
  | cons q qs ih => exact ⟨h.1.mono hys, ih (hys.append [q]) h.2⟩

theorem chained_append {before xs ys : List Query} :
    Chained before (xs ++ ys) ↔ Chained before xs ∧ Chained (before ++ xs) ys := by
  induction xs generalizing before with
  | nil => simp [Chained]
  | cons x xs ih => simp [Chained, ih, and_assoc]

theorem Chained.readsFrom {before qs : List Query} {q : Query} {j : Nat} (h : Chained before qs)
    (hq : qs[j]? = some q) : ReadsFrom (before ++ qs.take j) q := by
  induction qs generalizing before j with
  | nil => exact absurd hq (by simp)
  | cons x xs ih =>
      cases j with
      | zero =>
          obtain rfl := Option.some.inj hq
          simpa using h.1
      | succ j =>
          have hread := ih h.2 hq
          rwa [List.append_assoc] at hread

section Step

variable {q c : Query} {p : Plan} {subs : List Query} {a b : Names}

/-- Sub-queries read what the query that is cut reads. -/
theorem chained_subs {masks : List Mask} {before : List Query}
    (h : List.Forall₂ (SubqueryOf q) masks subs) (hq : ReadsFrom before q) :
    Chained before subs := by
  induction h generalizing before with
  | nil => trivial
  | cons hs _ ih =>
      refine ⟨fun id aliasName queryId columns hmem => ?_, ih (hq.mono ?_)⟩
      · exact hq id aliasName queryId columns (hs.sources ▸ hmem)
      · exact Provides.of_subset (List.subset_append_left _ _)

theorem SubqueryOf.column {m : Mask} {s : Query} (h : SubqueryOf q m s) {n : String}
    (hn : n ∈ m.columns) : ∃ e ∈ s.select, e.aliasName = some n := by
  obtain ⟨es, hes, hselect⟩ := h.select
  rw [hselect]
  rcases mem_columns_iff.mp hn with ⟨cut, hcut, rfl⟩ | ⟨x, hx, rfl⟩
  · obtain ⟨-, -, t, ht, halias, -⟩ := hes.column cut hcut
    exact ⟨t, List.mem_append_left _ ht, halias⟩
  · exact ⟨extraEntry x, List.mem_append_right _ (List.mem_map_of_mem hx), rfl⟩

/-- The cropped query reads from the sub-queries of its round. -/
theorem RoundOf.readsFrom (h : RoundOf q p subs c) (before : List Query) :
    ReadsFrom (before ++ subs) c := by
  obtain ⟨base, others, -, -, hcropped, -⟩ := h.cropped
  intro id aliasName queryId columns hmem
  rw [hcropped.sources] at hmem
  obtain ⟨m, hm, heq⟩ := List.mem_map.mp hmem
  obtain ⟨-, -, rfl, rfl⟩ := Source.subquery.inj heq
  obtain ⟨s, hs, hsub⟩ := forall₂_exists_right h.subqueries hm
  exact ⟨s, List.mem_append_right _ hs, hsub.id, fun n hn => hsub.column hn⟩

theorem SameOutline.provides (h : SameOutline c q) (hid : c.id = q.id) : Provides [c] [q] := by
  intro x hx
  obtain rfl := List.mem_singleton.mp hx
  refine ⟨c, List.mem_singleton.mpr rfl, hid, fun e he => ?_⟩
  have hmem : (e.aliasName, e.direction) ∈ outline c.select := h.1 ▸ List.mem_map_of_mem he
  obtain ⟨e', he', heq⟩ := List.mem_map.mp hmem
  exact ⟨e', he', (Prod.mk.inj heq).1⟩

theorem RoundOf.chained {before after : List Query} (h : RoundOf q p subs c)
    (houtline : SameOutline c q) (hchained : Chained [] (before ++ q :: after)) :
    Chained [] (before ++ (subs ++ [c]) ++ after) := by
  obtain ⟨base, others, -, -, hcropped, -⟩ := h.cropped
  obtain ⟨hbefore, hq, hafter⟩ := chained_append.mp hchained
  rw [List.nil_append] at hq hafter
  simp only [List.append_assoc, List.singleton_append]
  refine chained_append.mpr ⟨hbefore, chained_append.mpr ⟨?_, ?_, hafter.mono ?_⟩⟩
  · exact chained_subs h.subqueries hq
  · exact h.readsFrom before
  · intro x hx
    rcases List.mem_append.mp hx with hx | hx
    · exact ⟨x, by simp [hx], rfl, fun e he => ⟨e, he, rfl⟩⟩
    · obtain ⟨y, hy, hread⟩ := houtline.provides hcropped.id x hx
      exact ⟨y, List.mem_append_right _ hy, hread⟩

end Step

/-! ## The invariant of splitting -/

/-- The queries that splitting `q₀` has led to when the names before `a` are taken. -/
structure Linked (q₀ : Query) (a : Names) (qs : List Query) : Prop where
  nodup : (qs.map Query.id).Nodup
  named : ∀ q ∈ qs, q.id = q₀.id ∨ FreshQuery .start a q.id
  chained : Chained [] qs
  top : ∃ t, qs.getLast? = some t ∧ t.id = q₀.id ∧ SameOutline t q₀

section LinkedStep

variable {q₀ q c : Query} {p : Plan} {subs before after : List Query} {a b : Names}

theorem ids_subqueries {masks : List Mask} (h : List.Forall₂ (SubqueryOf q) masks subs) :
    subs.map Query.id = masks.map Mask.queryId := by
  induction h with
  | nil => rfl
  | cons hs _ ih => rw [List.map_cons, List.map_cons, hs.id, ih]

theorem freshQuery_of_subquery (h : RoundOf q p subs c) (hp : MasksOf q a b p.masks) {n : String}
    (hn : n ∈ subs.map Query.id) : FreshQuery a b n := by
  rw [ids_subqueries h.subqueries] at hn
  obtain ⟨m, hm, rfl⟩ := List.mem_map.mp hn
  exact (hp.mask m hm).queryId

theorem Linked.step (hid : ∀ n : Nat, q₀.id ≠ "q" ++ toString n) (ha : Names.start.Le a)
    (hab : a.Le b) (hp : MasksOf q a b p.masks) (h : RoundOf q p subs c)
    (houtline : SameOutline c q) (hlinked : Linked q₀ a (before ++ q :: after)) :
    Linked q₀ b (before ++ (subs ++ [c]) ++ after) := by
  obtain ⟨base, others, -, -, hcropped, -⟩ := h.cropped
  have hids : (before ++ c :: after).map Query.id = (before ++ q :: after).map Query.id := by
    simp [hcropped.id]
  have hperm : (before ++ (subs ++ [c]) ++ after).Perm (subs ++ (before ++ c :: after)) := by
    simp only [List.append_assoc, List.singleton_append]
    exact List.perm_append_comm_assoc before subs (c :: after)
  refine ⟨?_, ?_, h.chained houtline hlinked.chained, ?_⟩
  · rw [(hperm.map Query.id).nodup_iff, List.map_append, hids]
    refine List.nodup_append.mpr ⟨?_, hlinked.nodup, fun n hn n' hn' heq => ?_⟩
    · rw [ids_subqueries h.subqueries]
      exact hp.nodup
    · subst heq
      have hfresh := freshQuery_of_subquery h hp hn
      obtain ⟨x, hx, rfl⟩ := List.mem_map.mp hn'
      rcases hlinked.named x hx with hx | hx
      · obtain ⟨k, -, -, hk⟩ := hfresh
        exact hid k (hx.symm.trans (hk.trans (by rw [ha.queryStem]; rfl)))
      · exact hx.ne ha hfresh rfl
  · intro x hx
    have hnamed : ∀ y ∈ before ++ q :: after, y.id = q₀.id ∨ FreshQuery .start b y.id := fun y hy =>
      (hlinked.named y hy).imp_right fun hy => hy.widen (Names.Le.refl _) hab
    simp only [List.append_assoc, List.singleton_append, List.mem_append, List.mem_cons] at hx
    rcases hx with hx | hx | rfl | hx
    · exact hnamed x (by simp [hx])
    · have hfresh := freshQuery_of_subquery h hp (List.mem_map_of_mem hx)
      exact Or.inr (hfresh.widen ha (Names.Le.refl b))
    · rw [hcropped.id]
      exact hnamed q (by simp)
    · exact hnamed x (by simp [hx])
  · obtain ⟨t, ht, htid, htop⟩ := hlinked.top
    rcases List.eq_nil_or_concat' after with rfl | ⟨xs, x, rfl⟩
    · obtain rfl : q = t := by simpa using ht
      refine ⟨c, by simp, hcropped.id.trans htid, ?_⟩
      exact ⟨houtline.1.trans htop.1, houtline.2.trans htop.2⟩
    · have hlast : ∀ ys : List Query, (ys ++ (xs ++ [x])).getLast? = some x := fun ys => by
        rw [← List.append_assoc, List.getLast?_concat]
      obtain rfl := Option.some.inj ((hlast (before ++ [q])).symm.trans (by simpa using ht))
      exact ⟨x, hlast _, htid, htop⟩

end LinkedStep

/-- What holds after every round: either all is linked, or an error waits to be reported. -/
structure Sound (q₀ : Query) (a : Names) (qs : List Query) : Prop where
  names : Names.start.Le a
  unused : ∀ q ∈ qs, Unused a q
  linked : Linked q₀ a qs ∨ ∃ q ∈ qs, Spoiled q

theorem Sound.step {q₀ q c : Query} {p : Plan} {subs before after : List Query} {a b : Names}
    (hid : ∀ n : Nat, q₀.id ≠ "q" ++ toString n) (hplan : plan q a = (some p, b))
    (h : RoundOf q p subs c) (hsound : Sound q₀ a (before ++ q :: after)) :
    Sound q₀ b (before ++ (subs ++ [c]) ++ after) := by
  obtain ⟨hab, hplanned⟩ := plan_spec hplan
  have hunused := hsound.unused q (by simp)
  refine ⟨hsound.names.trans hab, ?_, ?_⟩
  · intro x hx
    simp only [List.mem_append] at hx
    rcases hx with (hx | hx) | hx
    · exact (hsound.unused x (by simp [hx])).later hab
    · exact h.unused hab hplanned.masks hunused x (List.mem_append.mpr hx)
    · exact (hsound.unused x (by simp [hx])).later hab
  · by_cases hspoiled : ∃ x ∈ before ++ q :: after, Spoiled x
    · obtain ⟨x, hx, hspoiled⟩ := hspoiled
      simp only [List.mem_append, List.mem_cons] at hx
      rcases hx with hx | rfl | hx
      · exact Or.inr ⟨x, by simp [hx], hspoiled⟩
      · obtain ⟨s, hs, hspoiled⟩ := h.spoiled hplanned hspoiled
        exact Or.inr ⟨s, by simp [hs], hspoiled⟩
      · exact Or.inr ⟨x, by simp [hx], hspoiled⟩
    · have houtline := h.sameOutline hplanned hunused fun hq => hspoiled ⟨q, by simp, hq⟩
      have hlinked := hsound.linked.resolve_right hspoiled
      exact Or.inl (hlinked.step hid hsound.names hab hplanned.masks h houtline)

theorem Spoiled.errors {q : Query} (h : Spoiled q) : ∃ e ∈ q.entries, e.2.formula.errors ≠ [] := by
  obtain ⟨p, -, e, he, herror⟩ := h
  exact ⟨(p, e), Query.mem_entries he, herror.errors_ne_nil⟩

theorem sound_start {q : Query} (htables : ∀ s ∈ q.sources, s.queryId? = none)
    (hfields : ∀ e ∈ q.entries, ∀ n : Nat, ¬ e.2.formula.Mentions ("_cp" ++ toString n)) :
    Sound q .start [q] := by
  refine ⟨Names.Le.refl _, fun x hx => ?_, Or.inl ⟨List.nodup_singleton _, ?_, ⟨?_, trivial⟩, ?_⟩⟩
  · obtain rfl := List.mem_singleton.mp hx
    rintro n ⟨p, -, e, he, hn⟩ k - rfl
    exact hfields (p, e) (Query.mem_entries he) k hn
  · exact fun x hx => Or.inl (congrArg Query.id (List.mem_singleton.mp hx))
  · intro id aliasName queryId columns hmem
    exact absurd (htables _ hmem) (by simp [Source.queryId?])
  · exact ⟨q, rfl, rfl, rfl, rfl⟩

end Split

open Split in
/-- Splitting gives queries with different ids, of which each reads only what earlier ones select.
The last one has the id of the query that was split and its selected expressions and orderings,
name by name. -/
theorem Query.split_linked {q : Query} {m : MultiQuery} (h : q.split = .ok m)
    (htables : ∀ s ∈ q.sources, s.queryId? = none)
    (hid : ∀ n : Nat, q.id ≠ "q" ++ toString n)
    (hfields : ∀ e ∈ q.entries, ∀ n : Nat, ¬ e.2.formula.Mentions ("_cp" ++ toString n)) :
    (m.queries.map Query.id).Nodup ∧
      (∃ top, m.top? = some top ∧ top.id = q.id ∧
        outline top.select = outline q.select ∧ outline top.orderBy = outline q.orderBy) ∧
      ∀ (j : Nat) (x : Query), m.queries[j]? = some x → ∀ id aliasName queryId columns,
        Source.subquery id aliasName queryId columns ∈ x.sources →
        ∃ (i : Nat) (y : Query), i < j ∧ m.queries[i]? = some y ∧ y.id = queryId ∧
          ∀ n ∈ columns, ∃ e ∈ y.select, e.aliasName = some n := by
  obtain ⟨⟨done, hrun⟩, herrors⟩ := split_run h
  obtain ⟨b, hsound⟩ := hrun.invariant
    (fun _ _ _ _ _ _ _ _ _ hplan hround hsound => hsound.step hid hplan hround)
    (sound_start htables hfields)
  have hlinked : Linked q b m.queries := by
    refine hsound.linked.resolve_right ?_
    rintro ⟨x, hx, hspoiled⟩
    obtain ⟨e, he, hne⟩ := hspoiled.errors
    exact hne (herrors x hx e he)
  refine ⟨hlinked.nodup, ?_, ?_⟩
  · obtain ⟨top, htop, htopid, houtline⟩ := hlinked.top
    exact ⟨top, htop, htopid, houtline.1, houtline.2⟩
  · intro j x hx id aliasName queryId columns hmem
    obtain ⟨y, hy, hyid, hcolumns⟩ := hlinked.chained.readsFrom hx id aliasName queryId columns hmem
    rw [List.nil_append] at hy
    obtain ⟨i, hi⟩ := List.mem_iff_getElem?.mp hy
    rw [List.getElem?_take] at hi
    split at hi
    next hlt => exact ⟨i, y, hlt, hi, hyid, hcolumns⟩
    next => exact absurd hi (by simp)

/-- The share of each city in all sales, with the cities sorted downwards. -/
def shareByCity : Query :=
  { Query.empty "report" with
    select :=
      [{ Entry.of (.field "city") with aliasName := some "city" },
       { Entry.of (.binary "/" (.call "sum" [.field "sales"])
           (.fork .left (.call "sum" [.field "sales"]) [.same (.int 1)] (.fixed []))) with
         aliasName := some "share" }]
    groupBy := [{ Entry.of (.field "city") with aliasName := some "city" }]
    orderBy :=
      [{ Entry.of (.field "city") with aliasName := some "city", direction := some .desc }]
    sources := [.table "t" "t" "orders"] }

theorem Query.split_linked_shareByCity :
    ∃ m, shareByCity.split = .ok m ∧ (m.queries.map Query.id).Nodup ∧
      ∃ top, m.top? = some top ∧ Split.outline top.orderBy = [(some "city", some .desc)] := by
  have hfields : ∀ e ∈ shareByCity.entries, ∀ g ∈ e.2.formula.nodes, ∀ x ∈ g.field?,
      x.toList.take "_cp".toList.length ≠ "_cp".toList := by decide
  have hok : (shareByCity.split.toOption.any fun m => m.queries.length == 3) = true := by
    decide +kernel
  obtain ⟨m, hm, -⟩ := exists_eq_ok hok
  obtain ⟨hnodup, ⟨top, htop, -, -, horder⟩, -⟩ := Query.split_linked hm (by decide)
    (fun n => Split.ne_numbered n (by decide))
    fun e he n ⟨g, hg, hn⟩ => Split.ne_numbered n (hfields e he g hg _ hn) rfl
  exact ⟨m, hm, hnodup, top, htop, horder⟩

end FormulaSql
