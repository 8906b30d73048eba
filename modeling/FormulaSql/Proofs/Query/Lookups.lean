import FormulaSql.Proofs.Query.Passes

/-!
# Lookups become forks

Lookups are put into forks before aggregations are. A lookup becomes an error or a fork around the
value that it looks up, and what is below stays in its place. An aggregation that a lookup reads
directly is then the result of a fork; there is no other way for one with a level of its own to
get there.

* `Formula.lookedUp_transform` says what has become of each level
* `Formula.levelsIn_lookups` says that no level has come in
-/

namespace FormulaSql.Formula

/-! ## Places -/

/-- The nodes passed on the way down a path. -/
def along (f : Formula) : Path → List Formula
  | [] => []
  | i :: p =>
    match f.children[i]? with
    | some c => f :: c.along p
    | none => [f]

/-- A lookup or a fork: a sub-query computes its first child. -/
def readsFirst (f : Formula) : Bool := f.isFork || (Normalize.lookup? f).isSome

/-- The way down the path comes to an error, or it ends at an aggregation of the function `n` that
is computed at the dimensions `own`, when those around the formula are `outer`. The flag says that
the node above is a lookup or a fork; the aggregation is not to stand right below one. -/
inductive Awaits (n : String) (own : List Formula) : List Formula → Bool → Path → Formula → Prop
  | error {outer : List Formula} {b : Bool} {p : Path} {f : Formula} (h : f.isError = true) :
      Awaits n own outer b p f
  | level {outer : List Formula} {f : Formula} {l : Lod Formula} (h : f.ownLevel? = some (n, l))
      (hown : l.resolve outer = own) : Awaits n own outer false [] f
  | child {outer : List Formula} {b : Bool} {i : Nat} {p : Path} {f c : Formula}
      (hc : f.children[i]? = some c)
      (h : Awaits n own (contextDimensions outer [f]) f.readsFirst p c) :
      Awaits n own outer b (i :: p) f

section Places

variable {f g x : Formula} {p : Path} {n : String} {own outer : List Formula} {l : Lod Formula}

theorem along_cons {c : Formula} {i : Nat} (hc : f.children[i]? = some c) :
    f.along (i :: p) = f :: c.along p := by
  rw [along, hc]

theorem mem_nodes_of_along {p : Path} {a : Formula} (ha : a ∈ f.along p) : a ∈ f.nodes := by
  induction p generalizing f with
  | nil => exact absurd ha List.not_mem_nil
  | cons i p ih =>
      rw [along] at ha
      split at ha
      next c hc =>
        rcases List.mem_cons.mp ha with rfl | ha
        · exact self_mem_nodes a
        · exact mem_nodes_of_child (List.mem_of_getElem? hc) (ih ha)
      next => exact List.mem_singleton.mp ha ▸ self_mem_nodes f

/-- The nodes passed on the way down a path are those at the paths before it. -/
theorem mem_along_iff {a : Formula} :
    a ∈ f.along p ↔ ∃ i, i <+: p ∧ i ≠ p ∧ f.at? i = some a := by
  induction p generalizing f with
  | nil =>
      constructor
      · intro ha
        exact absurd ha List.not_mem_nil
      · rintro ⟨i, hi, hne, -⟩
        exact absurd (List.prefix_nil.mp hi) hne
  | cons j p ih =>
      constructor
      · intro ha
        rw [along] at ha
        split at ha
        next c hc =>
          rcases List.mem_cons.mp ha with rfl | ha
          · exact ⟨[], List.nil_prefix, by simp, rfl⟩
          · obtain ⟨i, hi, hne, hat⟩ := ih.mp ha
            exact ⟨j :: i, (List.prefix_cons_inj j).mpr hi, by simpa using hne,
              (at?_cons_of_child i hc).trans hat⟩
        next => exact ⟨[], List.nil_prefix, by simp, List.mem_singleton.mp ha ▸ rfl⟩
      · rintro ⟨i, hi, hne, hat⟩
        cases i with
        | nil =>
            obtain rfl := Option.some.inj hat
            rw [along]
            split <;> simp
        | cons k i =>
            obtain ⟨rfl, hbefore⟩ := List.cons_prefix_cons.mp hi
            rw [at?] at hat
            split at hat
            next c hc =>
              rw [along_cons hc]
              exact List.mem_cons_of_mem _ (ih.mpr ⟨i, hbefore, by simpa using hne, hat⟩)
            next => exact absurd hat (by simp)

theorem contextDimensions_append (dims above below : List Formula) :
    contextDimensions dims (above ++ below) =
      contextDimensions (contextDimensions dims above) below :=
  List.foldl_append

theorem awaits_of_at? {b : Bool} (hx : f.at? p = some x) (hlevel : x.ownLevel? = some (n, l))
    (hlast : ∀ a ∈ (f.along p).getLast?, a.readsFirst = false) (hb : p = [] → b = false) :
    Awaits n (l.resolve (contextDimensions outer (f.along p))) outer b p f := by
  induction p generalizing f outer b with
  | nil =>
      obtain rfl := Option.some.inj hx
      rw [hb rfl]
      exact .level hlevel rfl
  | cons i p ih =>
      rw [at?] at hx
      split at hx
      next c hc =>
        rw [along_cons hc] at hlast ⊢
        refine .child hc (ih hx (fun a ha => hlast a ?_) fun hp => ?_)
        · rw [List.getLast?_cons, Option.mem_def.mp ha]
          rfl
        · subst hp
          exact hlast f rfl
      next => exact absurd hx (by simp)

/-- What is flat has nothing in wait. -/
theorem Flat.not_awaits {b : Bool} (hf : f.Flat) : ¬ Awaits n own outer b p f := by
  intro h
  induction h with
  | error h => exact absurd (hf.not_isError.symm.trans h) (by simp)
  | level h => exact absurd (hf.ownLevel?.symm.trans h) (by simp)
  | child hc _ ih => exact ih (hf.of_child (List.mem_of_getElem? hc))

end Places

/-! ## Lookups -/

/-- A lookup in the formula reads an aggregation of `n` at the level `l` directly. -/
def LooksUp (f : Formula) (n : String) (l : Lod Formula) : Prop :=
  ∃ g ∈ f.nodes, ∃ c kind measure rest, Normalize.lookup? g = some (c, kind) ∧
    c.args = measure :: rest ∧ measure.ownLevel? = some (n, l)

section Lookups

variable {f g r : Formula} {cs dims above : List Formula} {allowEmpty : Bool}

theorem lookup?_of_kind {c : Call Formula} (hk : f.kind = .call c) :
    Normalize.lookup? f = (Normalize.LookupKind.ofName? c.name).map (c, ·) := by
  rw [Normalize.lookup?, call?, hk, Option.bind_eq_bind, Option.bind_some]
  cases Normalize.LookupKind.ofName? c.name <;> rfl

/-- A lookup is rebuilt from the arguments of a lookup. -/
theorem exists_lookup?_of_withChildren {R : Formula → Formula → Prop} {c' : Call Formula}
    {kind : Normalize.LookupKind} (hcs : List.Forall₂ R f.children cs)
    (h : Normalize.lookup? (f.withChildren cs) = some (c', kind)) :
    ∃ c, Normalize.lookup? f = some (c, kind) ∧ List.Forall₂ R c.args c'.args := by
  have hk' := Normalize.lookup?_eq_some h
  have houtline : f.kind.outline = (Kind.call c').outline := by
    rw [← hk', outline_withChildren]
  have hpairs : List.Forall₂ (fun d c => R c d) (Kind.call c').children f.kind.children := by
    rw [← hk']
    exact (forall₂_withChildren hcs).flip
  obtain ⟨c, hk, hname, -, hargs, -⟩ := Kind.exists_call_of_outline houtline hpairs
  rw [lookup?_of_kind hk'] at h
  obtain ⟨kind', hkind, heq⟩ := Option.map_eq_some_iff.mp h
  obtain ⟨-, rfl⟩ := Prod.mk.inj heq
  refine ⟨c, ?_, hargs.flip⟩
  rw [lookup?_of_kind hk, hname, hkind]
  rfl

theorem readsFirst_withChildren (f : Formula) (cs : List Formula) :
    (f.withChildren cs).readsFirst = f.readsFirst := by
  have hview {x y : Formula} (h : x.kind.outline = y.kind.outline) :
      (Normalize.lookup? x).isSome = (Normalize.lookup? y).isSome := by
    have hcall {z : Formula} : (Normalize.lookup? z).isSome =
        (z.call?.bind fun c => Normalize.LookupKind.ofName? c.name).isSome := by
      cases hz : z.call? with
      | none => rw [Normalize.lookup?, hz]; rfl
      | some c =>
          rw [lookup?_of_kind (kind_of_call? hz), Option.isSome_map]
          rfl
    rw [hcall, hcall, call?, call?]
    cases hx : x.kind <;> cases hy : y.kind <;>
      simp_all [Kind.outline, Kind.map]
  have houtline := outline_withChildren f cs
  rw [readsFirst, readsFirst, isFork_eq_of_outline houtline, hview houtline]

theorem flat_call {name : String} {args : List Formula} (hname : name ∈ ["dateadd", "day"])
    (hargs : ∀ x ∈ args, x.Flat) : (call name args).Flat := by
  refine all_iff.mpr ⟨?_, fun x hx => hargs x ?_⟩
  · have hrow : ∀ m ∈ ["dateadd", "day"], (!Function.isAggregate m &&
        (Normalize.LookupKind.ofName? m).isNone) = true := by decide +kernel
    exact hrow name hname
  · simpa [call, callWith, of, children, kind, Kind.children, Lod.dims] using hx

/-- The further arguments of a lookup are flat. -/
theorem Regular.flat_rest {c : Call Formula} {k : Normalize.LookupKind} {measure : Formula}
    {rest : List Formula} (hg : g.Regular) (h : Normalize.lookup? g = some (c, k))
    (hargs : c.args = measure :: rest) : ∀ x ∈ rest, x.Flat := by
  have hk := Normalize.lookup?_eq_some h
  intro x hx
  apply hg.flat_sides x
  rw [lookup?_of_kind hk] at h
  obtain ⟨kind', hkind, -⟩ := Option.map_eq_some_iff.mp h
  rw [hk]
  simp [Kind.sides, Kind.mainCount, Kind.children, hkind, hargs, hx]

theorem keepsFlat_lookups (hdims : ∀ d ∈ dims, d.Flat) :
    Rule.KeepsFlat (Normalize.lookups dims allowEmpty) where
  skips above f hrow := by
    apply Option.eq_none_iff_forall_ne_some.mpr
    intro r hr
    obtain ⟨c, kind, hlookup, -⟩ := Normalize.lookups_cases hr
    exact absurd hrow (by simp [not_isRowwise_of_lookup? hlookup])
  regular above f r habove hf hr := by
    obtain ⟨c, kind, hlookup, herror | ⟨measure, dimension, rest, hargs, rfl⟩⟩ :=
      Normalize.lookups_cases hr
    · exact regular_of_isError herror
    · have hrest := hf.flat_rest hlookup hargs
      rw [List.forall_mem_cons] at hrest
      refine regular_fork (by simp only [Kind.children, Lod.dims, List.append_nil]; rfl) ?_
        (Normalize.forall_sides_lookupFork (fun _ hname _ => flat_call hname)
          (flat_contextDimensions hdims habove) hrest.1 hrest.2)
      apply hf.of_child
      rw [children, Normalize.lookup?_eq_some hlookup]
      simp [Kind.children, hargs]

/-- What becomes of a part of `f₀` when lookups are put into forks. -/
structure LookedUp (f₀ f g : Formula) : Prop where
  level : ∀ n l, g.ownLevel? = some (n, l) → f.ownLevel? = some (n, l)
  measure : ∀ c kind measure rest, Normalize.lookup? g = some (c, kind) →
    c.args = measure :: rest → ∀ n l, measure.ownLevel? = some (n, l) → f₀.LooksUp n l
  result : ∀ x ∈ g.nodes, ∀ q, x.fork? = some q →
    ∀ n l, q.result.ownLevel? = some (n, l) → f₀.LooksUp n l
  awaits : ∀ n own outer b p, Awaits n own outer b p f → Awaits n own outer b p g

theorem lookedUp_withChildren {f₀ : Formula} (hf : f.Regular) (hmem : f ∈ f₀.nodes)
    (hforkless : f.Forkless)
    (hcs : List.Forall₂ (fun c d => Passes c d ∧ LookedUp f₀ c d) f.children cs) :
    LookedUp f₀ f (f.withChildren cs) := by
  have hpasses := hcs.imp fun _ _ h => h.1
  have hchildren := children_withChildren f cs hcs.length_eq.symm
  constructor
  · intro n l h
    rwa [ownLevel?_withChildren hf hpasses] at h
  · intro c' kind m' rest' hlookup hargs n l h
    obtain ⟨c, hlookup, hpairs⟩ := exists_lookup?_of_withChildren hcs hlookup
    rw [hargs] at hpairs
    obtain ⟨m, rest, hm, -, heq⟩ := List.forall₂_cons_right_iff.mp hpairs
    exact ⟨f, hmem, c, kind, m, rest, hlookup, heq, hm.2.level n l h⟩
  · intro x hx q hq
    rcases mem_nodes_iff.mp hx with rfl | ⟨d, hd, hx⟩
    · have hfork := (isFork_withChildren f cs).trans hforkless.not_isFork
      rw [isFork, hq] at hfork
      exact absurd hfork (by simp)
    · rw [hchildren] at hd
      obtain ⟨c, -, hcd⟩ := forall₂_exists_left hcs hd
      exact hcd.2.result x hx q hq
  · intro n own outer b p h
    cases h with
    | error h => exact .error ((isError_withChildren f cs).trans h)
    | level h hown => exact .level ((ownLevel?_withChildren hf hpasses).trans h) hown
    | child hc h =>
        obtain ⟨d, hd, hcd⟩ := exists_getElem?_of_forall₂ hcs hc
        rw [← hchildren] at hd
        refine .child hd ?_
        rw [contextDimensions_withChildren hf hpasses, readsFirst_withChildren]
        exact hcd.2.awaits _ _ _ _ _ h

theorem lookedUp_refl {f₀ : Formula} (hmem : f ∈ f₀.nodes) (hforkless : f.Forkless) :
    LookedUp f₀ f f where
  level _ _ h := h
  measure c kind measure rest hlookup hargs n l h :=
    ⟨f, hmem, c, kind, measure, rest, hlookup, hargs, h⟩
  result x hx q hq := absurd ((hforkless.fork?_eq_none hx).symm.trans hq) (by simp)
  awaits _ _ _ _ _ h := h

theorem lookup?_eq_none (h : r.call? = none) : Normalize.lookup? r = none := by
  rw [Normalize.lookup?, h]
  rfl

/-- The first child of a lookup is its measure, and the others are flat. -/
theorem Regular.lookup_children {c : Call Formula} {k : Normalize.LookupKind} {measure : Formula}
    {rest : List Formula} (hg : g.Regular) (h : Normalize.lookup? g = some (c, k))
    (hargs : c.args = measure :: rest) :
    ∃ others, g.children = measure :: others ∧ ∀ x ∈ others, x.Flat := by
  have hk := Normalize.lookup?_eq_some h
  rw [lookup?_of_kind hk] at h
  obtain ⟨kind', hkind, -⟩ := Option.map_eq_some_iff.mp h
  refine ⟨rest ++ c.lod.dims ++ c.ignored, by simp [children, hk, Kind.children, hargs],
    fun x hx => hg.flat_sides x ?_⟩
  rw [hk, Kind.sides, Kind.mainCount, hkind, Kind.children, hargs]
  exact hx

theorem lookedUp_of_isError {f₀ : Formula} (h : r.isError = true) : LookedUp f₀ f r := by
  obtain ⟨message, code, hk⟩ := kind_of_isError h
  have hcall : r.call? = none := by rw [call?, hk]
  constructor
  · intro n l hown
    exact absurd ((ownLevel?_eq_none hcall).symm.trans hown) (by simp)
  · intro c kind measure rest hlookup
    exact absurd ((lookup?_eq_none hcall).symm.trans hlookup) (by simp)
  · intro x hx q hq
    rcases mem_nodes_iff.mp hx with rfl | ⟨d, hd, -⟩
    · rw [fork?, hk] at hq
      exact absurd hq (by simp)
    · rw [children, hk] at hd
      exact absurd hd List.not_mem_nil
  · intro n own outer b p _
    exact .error h

/-- A fork around what a lookup reads changes nothing about the dimensions there. -/
theorem contextDimensions_fork {c : Call Formula} {kind : Normalize.LookupKind} {q : Fork Formula}
    (outer : List Formula) (hlookup : Normalize.lookup? g = some (c, kind))
    (hlod : q.lod = .inherited) :
    contextDimensions outer [.of (.fork q)] = contextDimensions outer [g] := by
  have hnone : g.lod? = none := by
    rw [lod?_of_call (Normalize.lookup?_eq_some hlookup), not_isAggregateCall_of_lookup? hlookup]
    rfl
  simp only [contextDimensions, List.foldl_cons, List.foldl_nil, hnone]
  rw [lod?_of_fork rfl, hlod]
  rfl

/-- What is in wait below a lookup is so below the fork in its place. -/
theorem Awaits.fork {n : String} {own outer rest : List Formula} {b : Bool} {p : Path}
    {c : Call Formula} {kind : Normalize.LookupKind} {q : Fork Formula}
    (h : Awaits n own outer b p g) (hg : g.Regular)
    (hlookup : Normalize.lookup? g = some (c, kind)) (hargs : c.args = q.result :: rest)
    (hlod : q.lod = .inherited) : Awaits n own outer b p (.of (.fork q)) := by
  cases h with
  | error herror =>
      obtain ⟨message, code, hk⟩ := kind_of_isError herror
      exact absurd ((Normalize.lookup?_eq_some hlookup).symm.trans hk) (by simp)
  | level hown =>
      obtain ⟨c', hk, haggregate, -⟩ := ownLevel?_eq_some.mp hown
      obtain rfl := Kind.call.inj (hk.symm.trans (Normalize.lookup?_eq_some hlookup))
      exact absurd (not_isAggregateCall_of_lookup? hlookup) (by simp [haggregate])
  | @child _ _ i p _ x hx hbelow =>
      obtain ⟨others, hchildren, hothers⟩ := hg.lookup_children hlookup hargs
      rw [hchildren] at hx
      cases i with
      | zero =>
          obtain rfl := Option.some.inj hx
          have hreads : (of (.fork q)).readsFirst = g.readsFirst := by
            rw [readsFirst, readsFirst, hlookup, Option.isSome_some, Bool.or_true]
            rfl
          refine .child (c := q.result) rfl ?_
          rw [contextDimensions_fork outer hlookup hlod, hreads]
          exact hbelow
      | succ i => exact absurd hbelow (hothers x (List.mem_of_getElem? hx)).not_awaits

theorem LookedUp.step {f₀ : Formula} (hg : g.Regular) (h : LookedUp f₀ f g)
    (hr : Normalize.lookups dims allowEmpty above g = some r) (hregular : r.Regular) :
    LookedUp f₀ f r := by
  obtain ⟨c, kind, hlookup, herror | ⟨measure, dimension, rest, hargs, heq⟩⟩ :=
    Normalize.lookups_cases hr
  · exact lookedUp_of_isError herror
  · obtain ⟨q, rfl, rfl, hlod⟩ : ∃ q, r = .of (.fork q) ∧ q.result = measure ∧
        q.lod = .inherited := ⟨_, heq, rfl, rfl⟩
    constructor
    · intro n l hown
      exact absurd ((ownLevel?_eq_none rfl).symm.trans hown) (by simp)
    · intro c' kind' m rest' hlookup'
      exact absurd ((lookup?_eq_none rfl).symm.trans hlookup') (by simp)
    · intro x hx q' hq'
      rcases mem_nodes_iff.mp hx with rfl | ⟨d, hd, hx⟩
      · obtain rfl := Option.some.inj hq'
        exact h.measure c kind _ _ hlookup hargs
      · rcases List.mem_cons.mp hd with rfl | hd
        · obtain ⟨others, hchildren, -⟩ := hg.lookup_children hlookup hargs
          refine h.result x (mem_nodes_of_child ?_ hx) q' hq'
          rw [hchildren]
          exact List.mem_cons_self
        · have hforkless := (hregular.flat_sides d hd).forkless
          exact absurd ((hforkless.fork?_eq_none hx).symm.trans hq') (by simp)
    · intro n own outer b p hawaits
      exact (h.awaits n own outer b p hawaits).fork hg hlookup hargs hlod

/-- Lookups are put into forks, and what they read directly is the only level below a fork. -/
theorem lookedUp_transform {f₀ : Formula} (hdims : ∀ d ∈ dims, d.Flat) (hf : f₀.Regular)
    (hforkless : f₀.Forkless) :
    (f₀.transform (Normalize.lookups dims allowEmpty)).Regular ∧
      LookedUp f₀ f₀ (f₀.transform (Normalize.lookups dims allowEmpty)) := by
  have hrule : Rule.KeepsFlat (Normalize.lookups dims allowEmpty) := keepsFlat_lookups hdims
  obtain ⟨hpasses, hlooked⟩ := transform_passes (R := LookedUp f₀)
    (Q := fun f => f ∈ f₀.nodes) hrule
    (fun f hf c hc => mem_nodes_trans hf (mem_nodes_of_child hc (self_mem_nodes c)))
    (fun f hmem hregular => lookedUp_refl hmem (hforkless.of_node hmem))
    (fun f cs hmem hregular hcs =>
      lookedUp_withChildren hregular hmem (hforkless.of_node hmem) hcs)
    (fun above f g r habove _ hfg hlooked hr =>
      hlooked.step hfg.regular hr (hfg.step hrule habove hr).regular)
    (self_mem_nodes f₀) hf
  exact ⟨hpasses.regular, hlooked⟩

/-- Putting lookups into forks brings in no level. -/
theorem levelsIn_lookups {T : String → Lod Formula → Prop}
    (hT : ∀ n l l', (l == l') = true → T n l → T n l') (hdims : ∀ d ∈ dims, d.Flat)
    (hf : f.Regular) (hlevels : f.LevelsIn T) :
    (f.transform (Normalize.lookups dims allowEmpty)).LevelsIn T := by
  have hrule : Rule.KeepsFlat (Normalize.lookups dims allowEmpty) := keepsFlat_lookups hdims
  refine transform_all (P := LevelsIn T) (fun _ _ h hx => hx.of_same hT h) ?_
  intro above x habove hx hcs
  have hregular : ∀ a ∈ above, a.Regular := fun a ha => hf.of_node (habove a ha)
  obtain ⟨cs, hpasses, hbelow⟩ := exists_transformBelow_eq hrule (hf.of_node hx) hregular
  rw [offered]
  rw [hbelow] at hcs ⊢
  cases hr : Normalize.lookups dims allowEmpty above (x.withChildren cs) with
  | none =>
      refine all_iff.mpr ⟨fun n l hown => hlevels x hx n l ?_, hcs⟩
      exact (ownLevel?_withChildren (hf.of_node hx) hpasses).symm.trans hown
  | some r =>
      have hout := (passes_withChildren (hf.of_node hx) hpasses).step hrule hregular hr
      obtain ⟨c, kind, hlookup, herror | ⟨measure, dimension, rest, hargs, rfl⟩⟩ :=
        Normalize.lookups_cases hr
      · exact levelsIn_of_isError herror
      · refine all_iff.mpr ⟨?_, ?_⟩
        · intro n l hown
          exact absurd ((ownLevel?_eq_none rfl).symm.trans hown) (by simp)
        · intro d hd
          rcases List.mem_cons.mp hd with rfl | hd
          · apply hcs d
            rw [children, Normalize.lookup?_eq_some hlookup]
            simp [Kind.children, hargs]
          · exact (hout.regular.flat_sides d hd).levelsIn

end Lookups

end FormulaSql.Formula
