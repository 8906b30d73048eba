import FormulaSql.Proofs.Query.Lookups

/-!
# Forks in the places of aggregations

An aggregation with a level of detail of its own becomes the result of a fork, at the dimensions
that follow from its level and from what is around it. The rule passes over one that is the result
of a fork already.

* `Formula.levelsIn_levelOfDetail` says which levels are left
* `Formula.Awaits.settled` says where forks have come in
* `Formula.enclosed_transform` says that the rules for window calls, filters and tags keep this
-/

namespace FormulaSql.Formula

/-! ## Forks in the places of aggregations -/

/-- A fork at the dimensions `own`, the result of which calls `n` and takes them over. -/
def IsForkAt (n : String) (own : List Formula) (f : Formula) : Prop :=
  ∃ q c, f.fork? = some q ∧ q.result.kind = .call c ∧ c.name = n ∧ c.lod = .inherited ∧
    (q.lod == .fixed own) = true

/-- What a fork or a parenthesis is put around. -/
def wrapped? (f : Formula) : Option Formula :=
  match f.kind with
  | .fork q => some q.result
  | .paren e => some e
  | _ => none

/-- The way down the path comes to an error, or it ends at a fork for `n` at the dimensions `own`.
It may lead through forks and parentheses that were not there before. -/
inductive Settled (n : String) (own : List Formula) : Path → Formula → Prop
  | error {p : Path} {f : Formula} (h : f.isError = true) : Settled n own p f
  | fork {f : Formula} (h : f.IsForkAt n own) : Settled n own [] f
  | inner {p : Path} {f c : Formula} (hc : f.wrapped? = some c) (h : Settled n own p c) :
      Settled n own p f
  | child {i : Nat} {p : Path} {f c : Formula} (hc : f.children[i]? = some c)
      (h : Settled n own p c) : Settled n own (i :: p) f

section Settled

variable {f g r c : Formula} {n : String} {own : List Formula} {p : Path}

theorem wrapped?_eq_some (h : f.wrapped? = some c) :
    (∃ q, f.kind = .fork q ∧ q.result = c) ∨ f.kind = .paren c := by
  rw [wrapped?] at h
  split at h
  next q hk => exact Or.inl ⟨q, hk, Option.some.inj h⟩
  next e hk => exact Or.inr (hk.trans (congrArg Kind.paren (Option.some.inj h)))
  next => exact absurd h (by simp)

theorem mem_children_of_wrapped? (h : f.wrapped? = some c) : c ∈ f.children := by
  rw [children]
  rcases wrapped?_eq_some h with ⟨q, hk, rfl⟩ | hk
  · rw [hk]
    exact List.mem_cons_self
  · rw [hk]
    exact List.mem_singleton.mpr rfl

theorem Flat.not_settled (hf : f.Flat) : ¬ Settled n own p f := by
  intro h
  induction h with
  | error h => exact absurd (hf.not_isError.symm.trans h) (by simp)
  | fork h =>
      obtain ⟨q, -, hq, -⟩ := h
      exact absurd ((hf.forkless.fork?_eq_none (self_mem_nodes _)).symm.trans hq) (by simp)
  | inner hc _ ih => exact ih (hf.of_child (mem_children_of_wrapped? hc))
  | child hc _ ih => exact ih (hf.of_child (List.mem_of_getElem? hc))

theorem isError_of_same (h : (f == g) = true) (hf : f.isError = true) : g.isError = true := by
  obtain ⟨message, code, hk⟩ := kind_of_isError hf
  have houtline := outline_eq_of_same h (by simp [hk])
  rw [isError]
  cases hg : g.kind with
  | error message' code' => rfl
  | _ => simp [hk, hg, Kind.outline, Kind.map] at houtline

theorem IsForkAt.of_same (h : (f == g) = true) (hf : f.IsForkAt n own) : g.IsForkAt n own := by
  obtain ⟨q, c, hq, hc, hname, hlod, hown⟩ := hf
  obtain ⟨q', hq', hresult, hlods⟩ := exists_fork?_of_same h hq
  obtain ⟨c', hc', hname', hlod', -⟩ := exists_call_of_same hresult hc
  rw [hlod] at hlod'
  exact ⟨q', c', hq', hc', hname'.trans hname, Kind.eq_inherited_of_outline hlod',
    BEq.trans (BEq.symm hlods) hown⟩

theorem exists_wrapped?_of_same (h : (f == g) = true) (hc : f.wrapped? = some c) :
    ∃ d, g.wrapped? = some d ∧ (c == d) = true := by
  rcases wrapped?_eq_some hc with ⟨q, hk, rfl⟩ | hk
  · obtain ⟨q', hq', hresult, -⟩ := exists_fork?_of_same h (show f.fork? = some q by rw [fork?, hk])
    exact ⟨q'.result, by rw [wrapped?, kind_of_fork? hq'], hresult⟩
  · have houtline := outline_eq_of_same h (by simp [hk])
    have hcs := (same_iff.mp h).2.2
    cases hg : g.kind with
    | paren d =>
        rw [children, children, hk, hg] at hcs
        exact ⟨d, by rw [wrapped?, hg], (List.forall₂_cons.mp hcs).1⟩
    | _ => simp [hk, hg, Kind.outline, Kind.map] at houtline

theorem Settled.of_same (h : (f == g) = true) (hf : Settled n own p f) : Settled n own p g := by
  induction hf generalizing g with
  | error hf => exact .error (isError_of_same h hf)
  | fork hf => exact .fork (hf.of_same h)
  | inner hc _ ih =>
      obtain ⟨d, hd, hcd⟩ := exists_wrapped?_of_same h hc
      exact .inner hd (ih hcd)
  | child hc _ ih =>
      obtain ⟨d, hd, hcd⟩ := exists_getElem?_of_forall₂ (same_iff.mp h).2.2 hc
      exact .child hd (ih hcd)

end Settled

/-! ## Aggregations -/

section LevelOfDetail

variable {f g r : Formula} {dims above : List Formula} {n : String} {l : Lod Formula}

theorem isForkResult_iff : Normalize.isForkResult above g = true ↔
    ∃ a q, above.getLast? = some a ∧ a.fork? = some q ∧ (q.result == g) = true := by
  rw [Normalize.isForkResult]
  constructor
  · intro h
    split at h
    next q hq =>
      obtain ⟨a, ha, hq⟩ := Option.bind_eq_some_iff.mp hq
      exact ⟨a, q, ha, hq, h⟩
    next => exact absurd h (by simp)
  · rintro ⟨a, q, ha, hq, h⟩
    rw [ha, Option.bind_some, hq]
    exact h

/-- An aggregation with a level of its own is passed over only as the result of a fork. -/
theorem levelOfDetail_of_ownLevel? (dims : List Formula) (h : g.ownLevel? = some (n, l))
    (hresult : Normalize.isForkResult above g = false) :
    ∃ r, Normalize.levelOfDetail dims above g = some r ∧
      (r.isError = true ∨ r.IsForkAt n (l.resolve (contextDimensions dims above))) := by
  obtain ⟨c, hk, haggregate, hinherited, rfl, rfl⟩ := ownLevel?_eq_some.mp h
  unfold Normalize.levelOfDetail
  rw [hk]
  dsimp only
  rw [isAggregateCall_of_kind hk, haggregate, hresult, Normalize.needsFork, hinherited]
  simp only [Bool.not_false, Bool.true_or, Bool.and_self, if_true]
  split
  · exact ⟨_, rfl, Or.inl rfl⟩
  · exact ⟨_, rfl, Or.inr ⟨_, _, rfl, rfl, rfl, rfl, BEq.rfl⟩⟩

theorem flat_resolve {c : Call Formula} (hdims : ∀ d ∈ dims, d.Flat)
    (habove : ∀ a ∈ above, a.Regular) (hg : g.Regular) (hk : g.kind = .call c)
    (haggregate : Function.isAggregate c.name = true) :
    ∀ d ∈ c.lod.resolve (contextDimensions dims above), d.Flat :=
  forall_resolve (flat_contextDimensions hdims habove) (hg.flat_dims hk haggregate)

/-- Without its level, a call is as regular as before. -/
theorem regular_inherited {c : Call Formula} {notes : Notes} (hg : g.Regular)
    (hk : g.kind = .call c) (haggregate : Function.isAggregate c.name = true) :
    (mk (.call { c with lod := .inherited }) notes).Regular := by
  refine all_iff.mpr ⟨?_, ?_⟩
  · intro d hd
    apply hg.flat_sides d
    rw [hk]
    simp only [kind, Kind.sides, Kind.mainCount, ofName?_of_isAggregate haggregate,
      Option.isSome_none, Bool.false_eq_true, if_false, Kind.children, Lod.dims,
      List.append_nil, List.append_assoc, List.drop_left] at hd ⊢
    exact List.mem_append_right _ hd
  · intro d hd
    exact hg.of_child (Normalize.mem_children_of_inherited hk hd)

theorem keepsFlat_levelOfDetail (hdims : ∀ d ∈ dims, d.Flat) :
    Rule.KeepsFlat (Normalize.levelOfDetail dims) where
  skips above f hrow := by
    apply Option.eq_none_iff_forall_ne_some.mpr
    intro r hr
    obtain ⟨c, hk, haggregate, -⟩ := Normalize.levelOfDetail_cases hr
    rw [hk, Kind.isRowwise, haggregate] at hrow
    exact absurd hrow (by simp)
  regular above f r habove hf hr := by
    obtain ⟨c, hk, haggregate, herror | rfl⟩ := Normalize.levelOfDetail_cases hr
    · exact regular_of_isError herror
    · have hown := flat_resolve hdims habove hf hk haggregate
      exact regular_forkAt (regular_inherited hf hk haggregate)
        (fun d hd => hown d (List.mem_filter.mp hd).1) hown

/-- The call in a fork of its own has no level, and its children are as they were. -/
theorem levelsIn_inherited {T : String → Lod Formula → Prop} {c : Call Formula} {notes : Notes}
    (hk : g.kind = .call c) (hcs : ∀ d ∈ g.children, d.LevelsIn T) :
    (mk (.call { c with lod := .inherited }) notes).LevelsIn T := by
  refine all_iff.mpr ⟨?_, ?_⟩
  · intro n l h
    obtain ⟨c', hk', -, hinherited, -⟩ := ownLevel?_eq_some.mp h
    obtain rfl := Kind.call.inj hk'
    exact absurd hinherited (by simp [Lod.isInherited])
  · intro x hx
    exact hcs x (Normalize.mem_children_of_inherited hk hx)

/-- If the levels below forks are allowed, all levels that are left are. -/
theorem levelsIn_levelOfDetail {T : String → Lod Formula → Prop} {f₁ : Formula}
    (hT : ∀ n l l', (l == l') = true → T n l → T n l') (hdims : ∀ d ∈ dims, d.Flat)
    (hf₁ : f₁.Regular)
    (hresult : ∀ x ∈ f₁.nodes, ∀ q, x.fork? = some q →
      ∀ n l, q.result.ownLevel? = some (n, l) → T n l) :
    (f₁.transform (Normalize.levelOfDetail dims)).LevelsIn T := by
  refine transform_all (P := LevelsIn T) (fun _ _ h hf => hf.of_same hT h) ?_
  intro above f habove hf hcs
  have hrule := keepsFlat_levelOfDetail hdims
  have hregular : ∀ a ∈ above, a.Regular := fun a ha => hf₁.of_node (habove a ha)
  have hbelow := (passes_transformBelow hrule (hf₁.of_node hf) hregular).regular
  rw [offered]
  cases hr : Normalize.levelOfDetail dims above
      (f.transformBelow (Normalize.levelOfDetail dims) above) with
  | none =>
      refine all_iff.mpr ⟨fun n l hown => ?_, hcs⟩
      have hpassed : Normalize.isForkResult above
          (f.transformBelow (Normalize.levelOfDetail dims) above) = true := by
        rw [← Bool.not_eq_false]
        intro hnot
        obtain ⟨r, hsome, -⟩ := levelOfDetail_of_ownLevel? dims hown hnot
        exact absurd (hr.symm.trans hsome) (by simp)
      obtain ⟨a, q, ha, hq, hsame⟩ := isForkResult_iff.mp hpassed
      obtain ⟨l', hl', hll'⟩ := exists_ownLevel?_of_same (BEq.symm hsame) hown
      have hmem := habove a (List.mem_of_getLast? ha)
      exact hT n l' l (BEq.symm hll') (hresult a hmem q hq n l' hl')
  | some r =>
      obtain ⟨c, hk, -, herror | rfl⟩ := Normalize.levelOfDetail_cases hr
      · exact levelsIn_of_isError herror
      · refine all_iff.mpr ⟨?_, ?_⟩
        · intro n l h
          exact absurd ((ownLevel?_eq_none rfl).symm.trans h) (by simp)
        · intro d hd
          rcases List.mem_cons.mp hd with rfl | hd
          · exact levelsIn_inherited hk hcs
          · exact ((hrule.regular above _ _ hregular hbelow hr).flat_sides d hd).levelsIn

/-- The rule leaves errors alone. -/
theorem isError_offered (hdims : ∀ d ∈ dims, d.Flat) (hf : f.Regular)
    (habove : ∀ a ∈ above, a.Regular) (h : f.isError = true) :
    (f.offered (Normalize.levelOfDetail dims) above).isError = true := by
  have hbelow : (f.transformBelow (Normalize.levelOfDetail dims) above).isError = true := by
    obtain ⟨cs, -, heq⟩ := exists_transformBelow_eq (keepsFlat_levelOfDetail hdims) hf habove
    rw [heq, isError_withChildren, h]
  rw [offered]
  cases hr : Normalize.levelOfDetail dims above
      (f.transformBelow (Normalize.levelOfDetail dims) above) with
  | none => exact hbelow
  | some r =>
      obtain ⟨c, hcall, -⟩ := Normalize.levelOfDetail_cases hr
      obtain ⟨message, code, hk⟩ := kind_of_isError hbelow
      exact absurd (hcall.symm.trans hk) (by simp)

/-- What is settled below an aggregation stays so when the aggregation gets a fork of its own. -/
theorem settled_fork {own : List Formula} {p : Path} {d : Formula} {i : Nat} {c : Call Formula}
    {notes : Notes} {q : Fork Formula} (hg : g.Regular) (hk : g.kind = .call c)
    (haggregate : Function.isAggregate c.name = true)
    (hq : q.result = .mk (.call { c with lod := .inherited }) notes)
    (hd : g.children[i]? = some d) (h : Settled n own p d) :
    Settled n own (i :: p) (.of (.fork q)) := by
  rw [children, hk] at hd
  have hlt : i < c.args.length := by
    by_contra hge
    refine (hg.flat_sides d ?_).not_settled h
    rw [hk, Kind.sides, Kind.mainCount, ofName?_of_isAggregate haggregate]
    refine List.mem_of_getElem? (i := i - c.args.length) ?_
    simp only [Option.isSome_none, Bool.false_eq_true, if_false, List.getElem?_drop]
    rw [Nat.add_sub_cancel' (Nat.le_of_not_lt hge), ← hd]
  rw [Kind.children, List.append_assoc, List.getElem?_append_left hlt] at hd
  refine .inner (c := q.result) rfl (.child ?_ h)
  rw [hq, children, kind, Kind.children, List.append_assoc, List.getElem?_append_left hlt]
  exact hd

/-- What waits for a fork gets one, or an error around it. -/
theorem Awaits.settled {own outer : List Formula} {b : Bool} {p : Path}
    (h : Awaits n own outer b p f) (hdims : ∀ d ∈ dims, d.Flat) (hf : f.Regular)
    (habove : ∀ a ∈ above, a.Regular) (houter : outer = contextDimensions dims above)
    (hlast : b = false → ∀ a ∈ above.getLast?, a.isFork = false) :
    Settled n own p (f.offered (Normalize.levelOfDetail dims) above) := by
  have hrule := keepsFlat_levelOfDetail hdims
  induction h generalizing above with
  | error herror => exact .error (isError_offered hdims hf habove herror)
  | @level outer f l hown hresolve =>
      obtain ⟨cs, hcs, heq⟩ := exists_transformBelow_eq hrule hf habove
      have hbelow := (ownLevel?_withChildren hf hcs).trans hown
      have hresult : Normalize.isForkResult above (f.withChildren cs) = false := by
        rw [← Bool.not_eq_true]
        intro hresult
        obtain ⟨a, q, ha, hq, -⟩ := isForkResult_iff.mp hresult
        have hfork := hlast rfl a ha
        rw [isFork, hq] at hfork
        exact absurd hfork (by simp)
      obtain ⟨r, hr, hcases⟩ := levelOfDetail_of_ownLevel? dims hbelow hresult
      rw [offered, heq, hr, Option.getD_some]
      rcases hcases with herror | hfork
      · exact .error herror
      · rw [← houter, hresolve] at hfork
        exact .fork hfork
  | @child outer b i p f c hc _ ih =>
      have hhere : ∀ a ∈ above ++ [f], a.Regular :=
        List.forall_mem_append.mpr ⟨habove, List.forall_mem_singleton.mpr hf⟩
      have hbelow := (passes_transformBelow hrule hf habove).regular
      obtain ⟨d, hd, hcd⟩ := exists_getElem?_of_forall₂
        (children_transformBelow (Normalize.levelOfDetail dims) above f) hc
      have hsettled : Settled n own p d := by
        refine .of_same hcd (ih (hf.of_child (List.mem_of_getElem? hc)) hhere ?_ fun hreads => ?_)
        · rw [houter, contextDimensions_append]
        · simp only [readsFirst, Bool.or_eq_false_iff] at hreads
          simp [hreads.1]
      rw [offered]
      cases hr : Normalize.levelOfDetail dims above
          (f.transformBelow (Normalize.levelOfDetail dims) above) with
      | none => exact .child hd hsettled
      | some r =>
          obtain ⟨k, hk, haggregate, herror | rfl⟩ := Normalize.levelOfDetail_cases hr
          · exact .error herror
          · exact settled_fork hbelow hk haggregate rfl hd hsettled

end LevelOfDetail

/-! ## Window calls, filters and tags -/

/-- Something is put around a node that is no call, or its filters are changed. -/
structure Encloses (g r : Formula) : Prop where
  call : g.call? = none
  level : ∀ x ∈ r.nodes, ∀ n l, x.ownLevel? = some (n, l) → x ∈ g.nodes
  settled : ∀ n own p, Settled n own p g → Settled n own p r

/-- Calls and levels stay, and so does what is settled. -/
structure Enclosed (f g : Formula) : Prop where
  call : ∀ c, f.kind = .call c → ∃ c', g.kind = .call c' ∧ c'.name = c.name ∧
    (c.lod = .inherited → c'.lod = .inherited)
  level : ∀ x ∈ g.nodes, ∀ n l, x.ownLevel? = some (n, l) → ∃ y ∈ f.nodes, y.ownLevel? = some (n, l)
  settled : ∀ n own p, Settled n own p f → Settled n own p g

section Enclosed

variable {f g r : Formula} {cs dims above : List Formula} {rule : Rule}

theorem Enclosed.refl (f : Formula) : Enclosed f f :=
  ⟨fun c hk => ⟨c, hk, rfl, id⟩, fun x hx _ _ h => ⟨x, hx, h⟩, fun _ _ _ h => h⟩

theorem Encloses.of_wrapped (hcall : g.call? = none) (hr : r.wrapped? = some g)
    (hflat : ∀ c ∈ r.children, c = g ∨ c.Flat) : Encloses g r where
  call := hcall
  level x hx n l h := by
    rcases mem_nodes_iff.mp hx with rfl | ⟨c, hc, hx⟩
    · have hnone : x.call? = none := by
        rw [call?]
        rcases wrapped?_eq_some hr with ⟨q, hk, -⟩ | hk <;> rw [hk]
      exact absurd ((ownLevel?_eq_none hnone).symm.trans h) (by simp)
    · rcases hflat c hc with rfl | hc
      · exact hx
      · exact absurd ((Flat.ownLevel? (hc.of_node hx)).symm.trans h) (by simp)
  settled _ _ _ h := .inner hr h

theorem windowForks_encloses (hdims : ∀ d ∈ dims, d.Flat)
    (hr : Normalize.windowForks dims above g = some r) : Encloses g r := by
  obtain ⟨w, hw, rfl⟩ := Normalize.windowForks_cases hr
  refine .of_wrapped (by rw [call?, kind_of_window? hw]) rfl ?_
  intro c hc
  rw [of, children, kind, Normalize.children_forkAt, List.mem_cons, List.mem_append] at hc
  rcases hc with rfl | hc | hc
  · exact Or.inl rfl
  · exact Or.inr (hdims c hc)
  · exact Or.inr (hdims c hc)

theorem levelTags_encloses (hr : Normalize.levelTags above g = some r) : Encloses g r := by
  obtain ⟨w, notes, hw, rfl⟩ := Normalize.levelTags_cases hr
  exact .of_wrapped (by rw [call?, kind_of_window? hw]) rfl
    fun c hc => Or.inl (List.mem_singleton.mp hc)

theorem Encloses.of_children (hg : g.call? = none) (hr : r.call? = none)
    (herror : g.isError = false) (hchildren : r.children = g.children)
    (hwrapped : r.wrapped? = g.wrapped?) (hfork : ∀ n own, g.IsForkAt n own → r.IsForkAt n own) :
    Encloses g r where
  call := hg
  level x hx n l h := by
    rcases mem_nodes_iff.mp hx with rfl | ⟨c, hc, hx⟩
    · exact absurd ((ownLevel?_eq_none hr).symm.trans h) (by simp)
    · exact mem_nodes_of_child (hchildren ▸ hc) hx
  settled n own p h := by
    cases h with
    | error h => exact absurd (herror.symm.trans h) (by simp)
    | fork h => exact .fork (hfork n own h)
    | inner hc h => exact .inner (hwrapped.trans hc) h
    | child hc h => exact .child (hchildren ▸ hc) h

theorem laterFilters_encloses {available : NameSet}
    (hr : Normalize.laterFilters available above g = some r) : Encloses g r := by
  rcases Normalize.laterFilters_cases hr with ⟨w, filters, hk, rfl⟩ | ⟨q, filters, hk, rfl⟩
  · refine .of_children (by rw [call?, hk]) rfl (by rw [isError, hk])
      (by rw [children, children, hk]; rfl) (by rw [wrapped?, wrapped?, hk]; rfl) ?_
    intro n own hfork
    obtain ⟨q, -, hq, -⟩ := hfork
    exact absurd (hk.symm.trans (kind_of_fork? hq)) (by simp)
  · refine .of_children (by rw [call?, hk]) rfl (by rw [isError, hk])
      (by rw [children, children, hk]; rfl) (by rw [wrapped?, wrapped?, hk]; rfl) ?_
    intro n own hfork
    obtain ⟨q', c, hq', hrest⟩ := hfork
    obtain rfl := Kind.fork.inj (hk.symm.trans (kind_of_fork? hq'))
    exact ⟨_, c, rfl, hrest⟩

theorem window?_eq_none_of_isRowwise (h : f.kind.isRowwise = true) : f.window? = none := by
  rw [window?]
  split
  next w hk =>
    rw [hk] at h
    exact absurd h (by simp [Kind.isRowwise])
  next => rfl

theorem keepsFlat_windowForks (hdims : ∀ d ∈ dims, d.Flat) :
    Rule.KeepsFlat (Normalize.windowForks dims) where
  skips above f hrow := by
    rw [Normalize.windowForks, window?_eq_none_of_isRowwise hrow]
    rfl
  regular above f r _ hf hr := by
    obtain ⟨w, -, rfl⟩ := Normalize.windowForks_cases hr
    exact regular_forkAt hf hdims hdims

theorem keepsFlat_levelTags : Rule.KeepsFlat Normalize.levelTags where
  skips above f hrow := by
    rw [Normalize.levelTags, window?_eq_none_of_isRowwise hrow]
    rfl
  regular above f r _ hf hr := by
    obtain ⟨w, notes, -, rfl⟩ := Normalize.levelTags_cases hr
    exact all_iff.mpr ⟨fun d hd => absurd hd List.not_mem_nil,
      fun d hd => List.mem_singleton.mp hd ▸ hf⟩

theorem keepsFlat_laterFilters (available : NameSet) :
    Rule.KeepsFlat (Normalize.laterFilters available) where
  skips above f hrow := by
    apply Option.eq_none_iff_forall_ne_some.mpr
    intro r hr
    rcases Normalize.laterFilters_cases hr with ⟨w, -, hk, -⟩ | ⟨q, -, hk, -⟩
    · rw [hk] at hrow
      exact absurd hrow (by simp [Kind.isRowwise])
    · rw [hk] at hrow
      exact absurd hrow (by simp [Kind.isRowwise])
  regular above f r _ hf hr := by
    have hsides := hf.flat_sides
    have hcs : ∀ c ∈ f.children, c.Regular := fun c hc => hf.of_child hc
    rcases Normalize.laterFilters_cases hr with ⟨w, filters, hk, rfl⟩ | ⟨q, filters, hk, rfl⟩
    · rw [children, hk] at hcs
      rw [hk] at hsides
      exact all_iff.mpr ⟨hsides, hcs⟩
    · rw [children, hk] at hcs
      rw [hk] at hsides
      exact all_iff.mpr ⟨hsides, hcs⟩

theorem exists_wrapped?_withChildren {R : Formula → Formula → Prop} {c : Formula}
    (hcs : List.Forall₂ R f.children cs) (hc : f.wrapped? = some c) :
    ∃ d, (f.withChildren cs).wrapped? = some d ∧ R c d := by
  rcases wrapped?_eq_some hc with ⟨q, hk, rfl⟩ | hk
  · obtain ⟨q', hk', -, hresult, -⟩ := exists_fork_withChildren hcs hk
    exact ⟨q'.result, by rw [wrapped?, hk'], hresult⟩
  · have hout := outline_withChildren f cs
    have hpairs := forall₂_withChildren hcs
    rw [hk] at hout hpairs
    cases hk' : (f.withChildren cs).kind with
    | paren d =>
        rw [hk'] at hpairs
        exact ⟨d, by rw [wrapped?, hk'], (List.forall₂_cons.mp hpairs).1⟩
    | _ => simp [hk', Kind.outline, Kind.map] at hout

theorem enclosed_withChildren (hf : f.Regular)
    (hcs : List.Forall₂ (fun c d => Passes c d ∧ Enclosed c d) f.children cs) :
    Enclosed f (f.withChildren cs) := by
  have hpasses := hcs.imp fun _ _ h => h.1
  have hchildren := children_withChildren f cs hcs.length_eq.symm
  constructor
  · intro c hk
    obtain ⟨c', hk', hname, hlod, -⟩ := exists_call_withChildren hcs hk
    refine ⟨c', hk', hname, fun hinherited => ?_⟩
    rw [hinherited] at hlod
    exact Kind.eq_inherited_of_outline hlod
  · intro x hx n l h
    rcases mem_nodes_iff.mp hx with rfl | ⟨d, hd, hx⟩
    · exact ⟨f, self_mem_nodes f, (ownLevel?_withChildren hf hpasses).symm.trans h⟩
    · rw [hchildren] at hd
      obtain ⟨c, hc, hcd⟩ := forall₂_exists_left hcs hd
      obtain ⟨y, hy, hlevel⟩ := hcd.2.level x hx n l h
      exact ⟨y, mem_nodes_of_child hc hy, hlevel⟩
  · intro n own p h
    cases h with
    | error h => exact .error ((isError_withChildren f cs).trans h)
    | fork h =>
        obtain ⟨q, c, hq, hc, hname, hlod, hown⟩ := h
        have hk := kind_of_fork? hq
        obtain ⟨q', hk', hlods, hresult, hdims⟩ := exists_fork_withChildren hcs hk
        obtain ⟨c', hc', hname', hlod'⟩ := hresult.2.call c hc
        have hsame : q'.lod = q.lod := Kind.eq_of_dims hlods
          (eq_of_passes (hdims.imp fun _ _ h => h.1) (hf.flat_fork_dims hk))
        exact .fork ⟨q', c', by rw [fork?, hk'], hc', hname'.trans hname, hlod' hlod, hsame ▸ hown⟩
    | inner hc h =>
        obtain ⟨d, hd, hcd⟩ := exists_wrapped?_withChildren hcs hc
        exact .inner hd (hcd.2.settled n own p h)
    | child hc h =>
        obtain ⟨d, hd, hcd⟩ := exists_getElem?_of_forall₂ hcs hc
        rw [← hchildren] at hd
        exact .child hd (hcd.2.settled n own _ h)

theorem Enclosed.step (h : Enclosed f g) (hgr : Encloses g r) : Enclosed f r where
  call c hk := by
    obtain ⟨c', hk', -⟩ := h.call c hk
    have hcall := hgr.call
    rw [call?, hk'] at hcall
    exact absurd hcall (by simp)
  level x hx n l hlevel := h.level x (hgr.level x hx n l hlevel) n l hlevel
  settled n own p hsettled := hgr.settled n own p (h.settled n own p hsettled)

theorem enclosed_transform (hrule : rule.KeepsFlat)
    (hencloses : ∀ above g r, rule above g = some r → Encloses g r) (hf : f.Regular) :
    (f.transform rule).Regular ∧ Enclosed f (f.transform rule) := by
  obtain ⟨hpasses, henclosed⟩ := transform_passes (R := Enclosed) (Q := fun _ => True) hrule
    (fun _ _ _ _ => trivial) (fun f _ _ => .refl f)
    (fun _ _ _ hregular hcs => enclosed_withChildren hregular hcs)
    (fun above _ g r _ _ _ hfg hr => hfg.step (hencloses above g r hr)) trivial hf
  exact ⟨hpasses.regular, henclosed⟩

end Enclosed

end FormulaSql.Formula
