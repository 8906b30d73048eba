import FormulaSql.Proofs.Query.AggregationForks

/-!
# Where window calls stand

Three rules settle the place of window calls: one puts the outermost of them into forks, one gives
window calls and forks the filters that come later, and one puts window calls into tagged
parentheses. Each leaves alone what those before it have brought about.

* `Formula.throughout_windowForks` says that every window call is inside a fork of a window call
* `Formula.throughout_laterFilters` says which filters come later
* `Formula.throughout_levelTags` says that every window call is in a tagged parenthesis
-/

namespace FormulaSql.Formula

/-! ## Views of nodes -/

section Views

variable {f g : Formula}

theorem isWindowCall_eq_of_outline (h : f.kind.outline = g.kind.outline) :
    f.isWindowCall = g.isWindowCall := by
  refine eq_of_outline isWindowCall (fun x => ?_) h
  rw [isWindowCall, isWindowCall, window?, window?]
  cases x.kind <;> rfl

theorem laterFilters?_eq_of_outline (h : f.kind.outline = g.kind.outline) :
    Normalize.laterFilters? f = Normalize.laterFilters? g := by
  refine eq_of_outline Normalize.laterFilters? (fun x => ?_) h
  rw [Normalize.laterFilters?, Normalize.laterFilters?]
  cases x.kind <;> rfl

theorem unwrapped_of_paren {e : Formula} (h : f.kind = .paren e) : f.unwrapped = e.unwrapped := by
  rw [unwrapped, recur_eq, h]
  rfl

theorem unwrapped_of_not_paren (h : ∀ e, f.kind ≠ .paren e) : f.unwrapped = f := by
  rw [unwrapped, recur_eq]
  cases hk : f.kind with
  | paren e => exact absurd hk (h e)
  | _ => rfl

theorem unwrapped_of_fork {q : Fork Formula} (h : f.kind = .fork q) : f.unwrapped = f :=
  unwrapped_of_not_paren (by simp [h])

theorem unwrapped_of_isWindowCall (h : f.isWindowCall = true) : f.unwrapped = f := by
  apply unwrapped_of_not_paren
  intro e hk
  rw [isWindowCall, window?, hk] at h
  exact absurd h (by simp)

theorem isWindowFork_of_kind {q : Fork Formula} (hk : f.kind = .fork q) :
    f.isWindowFork = q.result.unwrapped.isWindowCall := by
  rw [isWindowFork, fork?, hk]

theorem exists_fork_of_isWindowFork (h : f.isWindowFork = true) :
    ∃ q, f.kind = .fork q ∧ q.result.unwrapped.isWindowCall = true := by
  rw [isWindowFork] at h
  split at h
  next q hq => exact ⟨q, kind_of_fork? hq, h⟩
  next => exact absurd h (by simp)

/-- Parentheses are rebuilt as parentheses. -/
theorem kind_rebuilt_of_paren {rule : Rule} {above : List Formula} {e : Formula}
    (hk : f.kind = .paren e) :
    (f.rebuilt rule above).kind = .paren (e.offered rule (above ++ [f])) := by
  rw [rebuilt, children, hk, withChildren, kind, hk]
  rfl

theorem window?_isSome_of_isWindowCall (h : f.isWindowCall = true) : ∃ w, f.window? = some w :=
  Option.isSome_iff_exists.mp h

end Views

/-! ## Rules that keep window calls -/

section Keeping

variable {rule : Rule} {above : List Formula} {f : Formula}

/-- Where the rule offers window calls for window calls, those in parentheses stay there. -/
theorem isWindowCall_unwrapped_offered (hrule : rule.Alters)
    (hkeeps : ∀ below g r, rule (above ++ below) g = some r →
      g.unwrapped.isWindowCall = true → r.unwrapped.isWindowCall = true)
    (h : f.unwrapped.isWindowCall = true) :
    (f.offered rule above).unwrapped.isWindowCall = true := by
  induction f using induction_children generalizing above with
  | step f ih =>
      have hrebuilt : (f.rebuilt rule above).unwrapped.isWindowCall = true := by
        cases hk : f.kind with
        | paren e =>
            rw [unwrapped_of_paren hk] at h
            rw [unwrapped_of_paren (kind_rebuilt_of_paren hk)]
            refine ih e (by rw [children, hk]; exact List.mem_singleton.mpr rfl) ?_ h
            intro below g r hr
            rw [List.append_assoc] at hr
            exact hkeeps _ g r hr
        | _ =>
            rw [unwrapped_of_not_paren (by simp [hk])] at h
            have hwindow := (isWindowCall_eq_of_outline (outline_rebuilt rule above f)).trans h
            rw [unwrapped_of_isWindowCall hwindow, hwindow]
      rw [offered_eq hrule.renews]
      cases hr : rule above (f.rebuilt rule above) with
      | none => exact hrebuilt
      | some r => exact hkeeps [] _ r (by rw [List.append_nil, hr]) hrebuilt

/-- A fork of a window call is rebuilt as one. -/
theorem isWindowFork_rebuilt (hrule : rule.Alters)
    (hkeeps : ∀ below g r, rule (above ++ [f] ++ below) g = some r →
      g.unwrapped.isWindowCall = true → r.unwrapped.isWindowCall = true)
    (h : f.isWindowFork = true) : (f.rebuilt rule above).isWindowFork = true := by
  obtain ⟨q, hk, hresult⟩ := exists_fork_of_isWindowFork h
  obtain ⟨q', hk', -, hoffered, -⟩ :=
    exists_fork_withChildren (forall₂_children_rebuilt rule above f) hk
  have hkind : (f.rebuilt rule above).kind = .fork q' := hk'
  rw [isWindowFork_of_kind hkind, hoffered]
  exact isWindowCall_unwrapped_offered hrule hkeeps hresult

end Keeping

/-! ## Forks of window calls -/

/-- A window call has a fork of a window call above it. -/
def WindowForked (above : List Formula) (f : Formula) : Prop :=
  f.isWindowCall = true → above.any isWindowFork = true

section WindowForks

variable {dims above : List Formula} {f : Formula}

theorem any_append_of_any {p : Formula → Bool} {xs : List Formula} (ys : List Formula)
    (h : xs.any p = true) : (xs ++ ys).any p = true := by
  rw [List.any_append, h, Bool.true_or]

theorem throughout_windowForked (h : above.any isWindowFork = true) (f : Formula) :
    f.Throughout WindowForked above := fun _ _ _ _ => any_append_of_any _ h

theorem alters_windowForks (dims : List Formula) : Rule.Alters (Normalize.windowForks dims) := by
  apply Rule.alters_of_outline
  intro above g r hr
  obtain ⟨w, hw, rfl⟩ := Normalize.windowForks_cases hr
  rw [kind_of_window? hw]
  exact ⟨by simp [of, kind], by simp [of, kind, Kind.outline, Kind.map]⟩

theorem windowForks_eq_none (h : above.any isWindowFork = true) :
    Normalize.windowForks dims above f = none := by
  rw [Normalize.windowForks, h, Bool.or_true]
  cases f.window? <;> rfl

theorem any_of_windowForks_eq_none (h : Normalize.windowForks dims above f = none)
    (hf : f.isWindowCall = true) :
    above.any isWindowCall = true ∨ above.any isWindowFork = true := by
  obtain ⟨w, hw⟩ := window?_isSome_of_isWindowCall hf
  rw [Normalize.windowForks, hw, Option.bind_eq_bind, Option.bind_some] at h
  split at h
  next hany => exact Bool.or_eq_true_iff.mp hany
  next => exact absurd h (by simp)

/-- The outermost window calls are put into forks, and all others are inside of these. -/
theorem throughout_windowForks (dims : List Formula) (f : Formula) :
    (f.transform (Normalize.windowForks dims)).Throughout WindowForked [] := by
  rw [transform_eq_offered (alters_windowForks dims).renews]
  refine throughout_offered (alters_windowForks dims).renews (Q := fun _ _ => True)
    (I := fun above above' => above.any isWindowCall = true ∨ above.any isWindowFork = true →
      above'.any isWindowFork = true) ?_ ?_ (fun _ _ _ => trivial) (by simp)
  · intro above above' f hI _ hnone
    have houtline := outline_rebuilt (Normalize.windowForks dims) above f
    have hroot : WindowForked above' (f.rebuilt (Normalize.windowForks dims) above) :=
      fun hwindow => hI (any_of_windowForks_eq_none hnone hwindow)
    refine ⟨hroot, ?_⟩
    simp only [List.any_append, List.any_cons, List.any_nil, Bool.or_false, Bool.or_eq_true]
    rintro ((h | h) | h | h)
    · exact Or.inl (hI (Or.inl h))
    · exact Or.inl (hroot ((isWindowCall_eq_of_outline houtline).trans h))
    · exact Or.inl (hI (Or.inr h))
    · right
      apply isWindowFork_rebuilt (alters_windowForks dims) ?_ h
      intro below g r hr
      rw [windowForks_eq_none (by simp [h])] at hr
      exact absurd hr (by simp)
  · intro above above' f r _ _ hr hchildren
    obtain ⟨w, hw, rfl⟩ := Normalize.windowForks_cases hr
    have hwindow : (f.rebuilt (Normalize.windowForks dims) above).isWindowCall = true := by
      rw [isWindowCall, hw]
      rfl
    refine throughout_iff.mpr ⟨fun h => absurd h (by simp [of, isWindowCall, window?, kind]), ?_⟩
    intro d _
    apply throughout_windowForked
    rw [List.any_append, List.any_cons, isWindowFork_of_kind rfl]
    simp [Normalize.forkAt, unwrapped_of_isWindowCall hwindow, hwindow]

end WindowForks

/-! ## Filters that come later -/

/-- A window call or a fork comes before filters of the query only, and before all that those
around it come before. -/
def FiltersLater (available : NameSet) (above : List Formula) (f : Formula) : Prop :=
  ∀ own, Normalize.laterFilters? f = some own →
    (∀ n ∈ own.toList, n ∈ available.toList) ∧
      ∀ a ∈ above, ∀ s, Normalize.laterFilters? a = some s → ∀ n ∈ s.toList, n ∈ own.toList

section LaterFilters

variable {available own : NameSet} {above : List Formula} {f r : Formula} {n : String}

theorem mem_union {s t : NameSet} : n ∈ (s.union t).toList ↔ n ∈ s.toList ∨ n ∈ t.toList := by
  have hfold (ms : List String) (s : NameSet) :
      n ∈ (ms.foldl NameSet.insert s).toList ↔ n ∈ s.toList ∨ n ∈ ms := by
    induction ms generalizing s with
    | nil => simp
    | cons m ms ih =>
        rw [List.foldl_cons, ih, NameSet.mem_toList_insert, List.mem_cons]
        tauto
  exact hfold t.toList s

theorem mem_fullLaterFilters :
    n ∈ (Normalize.fullLaterFilters available above own).toList ↔
      (n ∈ own.toList ∨ ∃ a ∈ above, ∃ s, Normalize.laterFilters? a = some s ∧ n ∈ s.toList) ∧
        n ∈ available.toList := by
  have hfold (sets : List NameSet) :
      n ∈ (sets.foldr (fun s acc => s.union acc) own).toList ↔
        n ∈ own.toList ∨ ∃ s ∈ sets, n ∈ s.toList := by
    induction sets with
    | nil => simp
    | cons s sets ih =>
        rw [List.foldr_cons, mem_union, ih]
        simp only [List.mem_cons, exists_eq_or_imp]
        tauto
  have hmem : n ∈ (Normalize.fullLaterFilters available above own).toList ↔
      n ∈ ((above.filterMap Normalize.laterFilters?).foldr (fun s acc => s.union acc) own).toList ∧
        available.contains n = true := List.mem_filter
  rw [hmem, hfold, NameSet.contains_iff]
  simp only [List.mem_filterMap]
  constructor
  · rintro ⟨h | ⟨s, ⟨a, ha, hs⟩, hn⟩, havailable⟩
    · exact ⟨Or.inl h, havailable⟩
    · exact ⟨Or.inr ⟨a, ha, s, hs, hn⟩, havailable⟩
  · rintro ⟨h | ⟨a, ha, s, hs, hn⟩, havailable⟩
    · exact ⟨Or.inl h, havailable⟩
    · exact ⟨Or.inr ⟨s, ⟨a, ha, hs⟩, hn⟩, havailable⟩

/-- The rule passes over what has the full set already. -/
theorem fullLaterFilters_eq (h : Normalize.laterFilters available above f = none)
    (hown : Normalize.laterFilters? f = some own) :
    Normalize.fullLaterFilters available above own = own := by
  rw [Normalize.laterFilters, hown, Option.bind_eq_bind, Option.bind_some] at h
  dsimp only at h
  split at h
  next hfull => exact beq_iff_eq.mp hfull
  next =>
    rw [Normalize.laterFilters?] at hown
    split at h
    next => exact absurd h (by simp)
    next => exact absurd h (by simp)
    next hwindow hfork =>
      split at hown
      next w hk => exact absurd hk (hwindow w)
      next q hk => exact absurd hk (hfork q)
      next => exact absurd hown (by simp)

/-- What the rule offers is the same node before the full set of filters. -/
theorem laterFilters_full (h : Normalize.laterFilters available above f = some r) :
    ∃ own, Normalize.laterFilters? f = some own ∧
      Normalize.fullLaterFilters available above own ≠ own ∧
      Normalize.laterFilters? r = some (Normalize.fullLaterFilters available above own) ∧
      r.children = f.children ∧ r.isWindowCall = f.isWindowCall ∧
      r.isWindowFork = f.isWindowFork ∧ r.unwrapped.isWindowCall = f.unwrapped.isWindowCall := by
  obtain ⟨own, hown, h⟩ := Option.bind_eq_some_iff.mp h
  refine ⟨own, hown, ?_⟩
  dsimp only at h
  split at h
  next => exact absurd h (by simp)
  next hne =>
    refine ⟨fun heq => hne (beq_iff_eq.mpr heq), ?_⟩
    split at h
    next w hk =>
      obtain rfl := Option.some.inj h
      have hwindow : f.isWindowCall = true := by
        rw [isWindowCall, window?, hk]
        rfl
      refine ⟨rfl, by rw [children, children, hk]; rfl, hwindow.symm, ?_, ?_⟩
      · rw [isWindowFork, isWindowFork, fork?, fork?, hk]
        rfl
      · rw [unwrapped_of_isWindowCall hwindow, unwrapped_of_isWindowCall rfl]
        exact hwindow.symm
    next q hk =>
      obtain rfl := Option.some.inj h
      refine ⟨rfl, by rw [children, children, hk]; rfl, ?_, ?_, ?_⟩
      · rw [isWindowCall, isWindowCall, window?, window?, hk]
        rfl
      · rw [isWindowFork_of_kind hk, isWindowFork_of_kind rfl]
      · rw [unwrapped_of_fork hk, unwrapped_of_fork rfl, isWindowCall, isWindowCall, window?,
          window?, hk]
        rfl
    next => exact absurd h (by simp)

theorem alters_laterFilters (available : NameSet) :
    Rule.Alters (Normalize.laterFilters available) := by
  apply Rule.alters_of_outline
  intro above g r hr
  obtain ⟨own, hown, hne, hfull, -⟩ := laterFilters_full hr
  constructor
  · intro v hk
    rw [Normalize.laterFilters?, hk] at hfull
    exact absurd hfull (by simp)
  · intro houtline
    rw [laterFilters?_eq_of_outline houtline, hown] at hfull
    exact hne (Option.some.inj hfull).symm

/-- How the nodes that were above a node go together with those that are above it now: these come
before filters that are available and that came later before. -/
structure Gathering (available : NameSet) (above above' : List Formula) : Prop where
  forks : above.any isWindowFork = true → above'.any isWindowFork = true
  filters : ∀ a' ∈ above', ∀ s', Normalize.laterFilters? a' = some s' → ∀ n ∈ s'.toList,
    n ∈ available.toList ∧ ∃ a ∈ above, ∃ s, Normalize.laterFilters? a = some s ∧ n ∈ s.toList

theorem Gathering.concat {above' : List Formula} {g : Formula}
    (h : Gathering available above above')
    (hfork : (f.rebuilt (Normalize.laterFilters available) above).isWindowFork = g.isWindowFork)
    (hset : ∀ s', Normalize.laterFilters? g = some s' → ∀ n ∈ s'.toList, n ∈ available.toList ∧
      ∃ a ∈ above ++ [f], ∃ s, Normalize.laterFilters? a = some s ∧ n ∈ s.toList) :
    Gathering available (above ++ [f]) (above' ++ [g]) where
  forks := by
    simp only [List.any_append, List.any_cons, List.any_nil, Bool.or_false, Bool.or_eq_true]
    rintro (hany | hf)
    · exact Or.inl (h.forks hany)
    · right
      rw [← hfork]
      apply isWindowFork_rebuilt (alters_laterFilters available) ?_ hf
      intro below x r hr hwindow
      obtain ⟨-, -, -, -, -, -, -, hunwrapped⟩ := laterFilters_full hr
      exact hunwrapped.trans hwindow
  filters a' ha' s' hs' n hn := by
    rcases List.mem_append.mp ha' with ha' | ha'
    · obtain ⟨havailable, a, ha, hset⟩ := h.filters a' ha' s' hs' n hn
      exact ⟨havailable, a, List.mem_append_left _ ha, hset⟩
    · obtain rfl := List.mem_singleton.mp ha'
      exact hset s' hs' n hn

/-- What has the full set of filters comes before all that those above it come before. -/
theorem Gathering.filtersLater {above' : List Formula} (h : Gathering available above above')
    (hfull : Normalize.laterFilters? f =
      some (Normalize.fullLaterFilters available above own)) :
    FiltersLater available above' f := by
  intro s hs
  obtain rfl := Option.some.inj (hfull.symm.trans hs)
  refine ⟨fun n hn => (mem_fullLaterFilters.mp hn).2, fun a ha s hs n hn => ?_⟩
  obtain ⟨havailable, hbefore⟩ := h.filters a ha s hs n hn
  exact mem_fullLaterFilters.mpr ⟨Or.inr hbefore, havailable⟩

theorem exists_of_mem_fullLaterFilters (hown : Normalize.laterFilters? f = some own)
    (hn : n ∈ (Normalize.fullLaterFilters available above own).toList) :
    n ∈ available.toList ∧
      ∃ a ∈ above ++ [f], ∃ s, Normalize.laterFilters? a = some s ∧ n ∈ s.toList := by
  obtain ⟨hn | ⟨a, ha, hset⟩, havailable⟩ := mem_fullLaterFilters.mp hn
  · exact ⟨havailable, f, by simp, own, hown, hn⟩
  · exact ⟨havailable, a, List.mem_append_left _ ha, hset⟩

/-- Filters come after a window call or a fork and all that is inside of it. Window calls stay in
the forks that they are in. -/
theorem throughout_laterFilters (available : NameSet) (hf : f.Throughout WindowForked []) :
    (f.transform (Normalize.laterFilters available)).Throughout
      (fun above g => WindowForked above g ∧ FiltersLater available above g) [] := by
  rw [transform_eq_offered (alters_laterFilters available).renews]
  refine throughout_offered (I := Gathering available) (alters_laterFilters available).renews ?_ ?_ hf
    ⟨id, fun _ ha => absurd ha List.not_mem_nil⟩
  · intro above above' f hI hf hnone
    have houtline := outline_rebuilt (Normalize.laterFilters available) above f
    have hsets := laterFilters?_eq_of_outline houtline
    refine ⟨⟨?_, ?_⟩, hI.concat rfl ?_⟩
    · intro hwindow
      exact hI.forks (hf.root ((isWindowCall_eq_of_outline houtline).symm.trans hwindow))
    · intro own hown
      have hfull := (fullLaterFilters_eq hnone hown).symm
      exact hI.filtersLater (hown.trans (congrArg some hfull)) own hown
    · intro s' hs' n hn
      rw [← fullLaterFilters_eq hnone hs'] at hn
      exact exists_of_mem_fullLaterFilters (hsets.symm.trans hs') hn
  · intro above above' f r hI hf hr hchildren
    have houtline := outline_rebuilt (Normalize.laterFilters available) above f
    obtain ⟨own, hown, -, hfull, hcs, hwindow, hfork, -⟩ := laterFilters_full hr
    rw [laterFilters?_eq_of_outline houtline] at hown
    refine throughout_iff.mpr ⟨⟨?_, hI.filtersLater hfull⟩, ?_⟩
    · intro hr
      exact hI.forks (hf.root ((isWindowCall_eq_of_outline houtline).symm.trans (hwindow ▸ hr)))
    · intro d hd
      refine hchildren d (hcs ▸ hd) _ (hI.concat hfork.symm fun s' hs' n hn => ?_)
      obtain rfl := Option.some.inj (hfull.symm.trans hs')
      exact exists_of_mem_fullLaterFilters hown hn

end LaterFilters

/-! ## Tags -/

/-- A window call stands in a parenthesis with a tag. -/
def Tagged (above : List Formula) (f : Formula) : Prop :=
  f.isWindowCall = true → Normalize.isTagged above = true

section LevelTags

variable {available : NameSet} {above : List Formula} {f r : Formula}

theorem alters_levelTags : Rule.Alters Normalize.levelTags := by
  apply Rule.alters_of_outline
  intro above g r hr
  obtain ⟨w, notes, hw, rfl⟩ := Normalize.levelTags_cases hr
  rw [kind_of_window? hw]
  exact ⟨by simp [kind], by simp [kind, Kind.outline, Kind.map]⟩

/-- The node is a pair of parentheses. -/
def isParen (f : Formula) : Bool :=
  match f.kind with
  | .paren _ => true
  | _ => false

theorem isTagged_concat (above : List Formula) (f : Formula) :
    Normalize.isTagged (above ++ [f]) = (f.isParen && f.level.isSome) := by
  rw [Normalize.isTagged, List.getLast?_concat]
  cases f with
  | mk k notes => cases k <;> simp [isParen, kind, level, Formula.notes]

theorem isTagged_rebuilt {rule : Rule} (above above' : List Formula) (f : Formula) :
    Normalize.isTagged (above' ++ [f.rebuilt rule above]) = Normalize.isTagged (above ++ [f]) := by
  have hparen : (f.rebuilt rule above).isParen = f.isParen := by
    refine eq_of_outline isParen (fun x => ?_) (outline_rebuilt rule above f)
    rw [isParen, isParen]
    cases x.kind <;> rfl
  rw [isTagged_concat, isTagged_concat, hparen]
  rfl

theorem isTagged_of_levelTags_eq_none (h : Normalize.levelTags above f = none)
    (hf : f.isWindowCall = true) : Normalize.isTagged above = true := by
  obtain ⟨w, hw⟩ := window?_isSome_of_isWindowCall hf
  rw [Normalize.levelTags, hw, Option.bind_eq_bind, Option.bind_some] at h
  split at h
  next htagged => exact htagged
  next => exact absurd h (by simp)

/-- How the nodes that were above a node go together with those that are above it now: there are
more parentheses. -/
structure Wrapping (above above' : List Formula) : Prop where
  tagged : Normalize.isTagged above = true → Normalize.isTagged above' = true
  forks : above.any isWindowFork = true → above'.any isWindowFork = true
  filters : ∀ a' ∈ above', ∀ s, Normalize.laterFilters? a' = some s →
    ∃ a ∈ above, Normalize.laterFilters? a = some s

theorem Wrapping.windowForked {above' : List Formula} {g : Formula} (h : Wrapping above above')
    (houtline : g.kind.outline = f.kind.outline) (hf : WindowForked above f) :
    WindowForked above' g := fun hwindow =>
  h.forks (hf ((isWindowCall_eq_of_outline houtline).symm.trans hwindow))

theorem Wrapping.filtersLater {above' : List Formula} {g : Formula} (h : Wrapping above above')
    (houtline : g.kind.outline = f.kind.outline) (hf : FiltersLater available above f) :
    FiltersLater available above' g := by
  intro own hown
  rw [laterFilters?_eq_of_outline houtline] at hown
  refine ⟨(hf own hown).1, fun a' ha' s hs => ?_⟩
  obtain ⟨a, ha, hs⟩ := h.filters a' ha' s hs
  exact (hf own hown).2 a ha s hs

/-- A parenthesis more. -/
theorem Wrapping.paren {above' : List Formula} {e : Formula} (h : Wrapping above above')
    (hf : r.kind = .paren e) (hlevel : r.level.isSome = true) : Wrapping above (above' ++ [r]) where
  tagged _ := by rw [isTagged_concat, isParen, hf, hlevel]; rfl
  forks hany := any_append_of_any _ (h.forks hany)
  filters a' ha' s hs := by
    rcases List.mem_append.mp ha' with ha' | ha'
    · exact h.filters a' ha' s hs
    · rw [List.mem_singleton.mp ha', Normalize.laterFilters?, hf] at hs
      exact absurd hs (by simp)

theorem Wrapping.rebuilt {above' : List Formula} (h : Wrapping above above') (f : Formula) :
    Wrapping (above ++ [f]) (above' ++ [f.rebuilt Normalize.levelTags above]) where
  tagged htagged := (isTagged_rebuilt above above' f).trans htagged
  forks := by
    simp only [List.any_append, List.any_cons, List.any_nil, Bool.or_false, Bool.or_eq_true]
    rintro (hany | hfork)
    · exact Or.inl (h.forks hany)
    · right
      apply isWindowFork_rebuilt alters_levelTags ?_ hfork
      intro below g r hr hwindow
      obtain ⟨w, notes, -, rfl⟩ := Normalize.levelTags_cases hr
      rwa [unwrapped_of_paren rfl]
  filters a' ha' s hs := by
    rcases List.mem_append.mp ha' with ha' | ha'
    · obtain ⟨a, ha, hs⟩ := h.filters a' ha' s hs
      exact ⟨a, List.mem_append_left _ ha, hs⟩
    · rw [List.mem_singleton.mp ha', laterFilters?_eq_of_outline (outline_rebuilt _ above f)] at hs
      exact ⟨f, by simp, hs⟩

/-- Window calls are put into tagged parentheses, and nothing else changes about their place. -/
theorem throughout_levelTags
    (hf : f.Throughout (fun above g => WindowForked above g ∧ FiltersLater available above g) []) :
    (f.transform Normalize.levelTags).Throughout (fun above g =>
      WindowForked above g ∧ FiltersLater available above g ∧ Tagged above g) [] := by
  rw [transform_eq_offered alters_levelTags.renews]
  refine throughout_offered (I := Wrapping) alters_levelTags.renews ?_ ?_ hf
    ⟨id, id, fun _ ha => absurd ha List.not_mem_nil⟩
  · intro above above' f hI hf hnone
    have houtline := outline_rebuilt Normalize.levelTags above f
    refine ⟨⟨hI.windowForked houtline hf.root.1, hI.filtersLater houtline hf.root.2, ?_⟩, ?_⟩
    · exact fun hwindow => hI.tagged (isTagged_of_levelTags_eq_none hnone hwindow)
    · exact hI.rebuilt f
  · intro above above' f r hI hf hr hchildren
    have houtline := outline_rebuilt Normalize.levelTags above f
    obtain ⟨w, hw, hlevel, hr⟩ : ∃ w, (f.rebuilt Normalize.levelTags above).window? = some w ∧
        r.level.isSome = true ∧ r.kind = .paren (f.rebuilt Normalize.levelTags above) := by
      obtain ⟨w, hw, hr⟩ := Option.bind_eq_some_iff.mp hr
      split at hr
      next => exact absurd hr (by simp)
      next => exact ⟨w, hw, Option.some.inj hr ▸ rfl, Option.some.inj hr ▸ rfl⟩
    have hwrapping := hI.paren hr hlevel
    refine throughout_iff.mpr ⟨⟨?_, ?_, ?_⟩, ?_⟩
    · intro h
      rw [isWindowCall, window?, hr] at h
      exact absurd h (by simp)
    · intro own h
      rw [Normalize.laterFilters?, hr] at h
      exact absurd h (by simp)
    · intro h
      rw [isWindowCall, window?, hr] at h
      exact absurd h (by simp)
    · intro d hd
      rw [children, hr] at hd
      obtain rfl := List.mem_singleton.mp hd
      refine throughout_iff.mpr ⟨⟨hwrapping.windowForked houtline hf.root.1,
        hwrapping.filtersLater houtline hf.root.2, fun _ => ?_⟩,
        fun d hd => hchildren d hd _ (hwrapping.rebuilt f)⟩
      rw [isTagged_concat, isParen, hr, hlevel]
      rfl

end LevelTags

end FormulaSql.Formula
