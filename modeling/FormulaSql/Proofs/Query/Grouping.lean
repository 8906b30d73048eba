import FormulaSql.Proofs.Query.NormalForm
import FormulaSql.Proofs.Query.Orderings
import FormulaSql.Query.Compile

/-!
# Values for each group and for each row

The checker sorts formulas into states. Two properties of a formula say the same without states:
it has a value for each group if every field in it is aggregated or stands in a dimension, and a
value for each row if nothing in it is aggregated outside of the dimensions. A formula is accepted
exactly if it has one of the two.

* `Formula.perGroup_iff` and `Formula.perRow_iff` tie the two properties to the checker
* `Formula.PerGroup.mono` and `Formula.PerRow.mono` say that dimensions can be added
-/

namespace FormulaSql

/-! ## States of expressions -/

namespace GroupState

variable {states : List GroupState} {s : GroupState}

theorem combine_eq_none_iff :
    combine states = none ↔ aggregated ∈ states ∧ unaggregated ∈ states := by
  unfold combine
  by_cases ha : aggregated ∈ states <;> by_cases hu : unaggregated ∈ states <;>
    simp [ha, hu]
  split <;> simp

/-- Of the two states that do not go together an expression has the one that its parts have. -/
theorem of_combine (h : combine states = some s) :
    (s = aggregated ↔ aggregated ∈ states) ∧ (s = unaggregated ↔ unaggregated ∈ states) := by
  unfold combine at h
  by_cases ha : aggregated ∈ states <;> by_cases hu : unaggregated ∈ states <;>
    simp [ha, hu] at h ⊢
  · simp [← h]
  · simp [← h]
  · split at h <;> simp [← Option.some.inj h]

end GroupState

namespace Formula

variable {dims dims' : List Formula} {f g : Formula} {inside : Bool}

/-- The node gives one value for many rows. -/
def gathers (f : Formula) : Bool := f.isFork || f.isWindowCall || f.isAggregateCall

/-- The formula has a value for each row: nothing is aggregated outside of the dimensions. -/
inductive PerRow (dims : List Formula) : Formula → Prop where
  | dimension {f : Formula} : dims.contains f = true → PerRow dims f
  | node {f : Formula} : f.gathers = false → (∀ c ∈ f.autonomous, PerRow dims c) → PerRow dims f

/-- The formula has a value for each group: every field is aggregated or in a dimension. What a
window call is computed over can be a value for each row too. -/
inductive PerGroup (dims : List Formula) : Formula → Prop where
  | dimension {f : Formula} : dims.contains f = true → PerGroup dims f
  | fork {f : Formula} : f.isFork = true → PerGroup dims f
  | aggregate {f : Formula} : f.isAggregateCall = true → PerGroup dims f
  | window {f : Formula} : f.isWindowCall = true →
      (∀ c ∈ f.autonomous, ¬ PerRow dims c → PerGroup dims c) → PerGroup dims f
  | node {f : Formula} : f.gathers = false → f.field? = none →
      (∀ c ∈ f.autonomous, PerGroup dims c) → PerGroup dims f

/-! ## The checker, node by node -/

/-- The checker below a node that may stand inside an aggregation. -/
def stateIn (dims : List Formula) (nested : Bool) :
    Formula → Bool → Except ValidationError GroupState :=
  recur fun f k inside =>
    if dims.contains f then .ok .dimension
    else
      match k with
      | .literal _ => .ok .constant
      | .field _ => .ok .unaggregated
      | .fork _ => .ok .aggregated
      | .window w => do
        let _ ← w.args.mapM (· inside)
        return .aggregated
      | k =>
        if f.isAggregateCall then
          if inside && !nested then .error (.doubleAggregation f.text)
          else do
            let _ ← k.autonomous.mapM (· true)
            return .aggregated
        else do
          let states ← k.autonomous.mapM (· inside)
          match GroupState.combine states with
          | some s => return s
          | none =>
            if inside then return .aggregated else .error (.inconsistentAggregation f.text)

theorem groupState_eq_stateIn (f : Formula) (dims : List Formula) (nested : Bool) :
    f.groupState dims nested = f.stateIn dims nested false :=
  rfl

section StateIn

variable {nested : Bool}

theorem stateIn_dimension (h : dims.contains f = true) :
    f.stateIn dims nested inside = .ok .dimension := by
  rw [stateIn, recur_eq]
  exact if_pos h

theorem stateIn_field {n : String} (h : dims.contains f = false) (hf : f.field? = some n) :
    f.stateIn dims nested inside = .ok .unaggregated := by
  obtain ⟨k, notes⟩ := f
  rw [field?_eq] at hf
  cases k <;> simp [fieldName?, kind] at hf
  rw [stateIn, recur_eq, h]
  rfl

theorem stateIn_fork (h : dims.contains f = false) (hf : f.isFork = true) :
    f.stateIn dims nested inside = .ok .aggregated := by
  obtain ⟨k, notes⟩ := f
  rw [isFork_eq] at hf
  cases k <;> simp [isForkNode, kind] at hf
  rw [stateIn, recur_eq, h]
  rfl

theorem stateIn_window (h : dims.contains f = false) (hf : f.isWindowCall = true) :
    f.stateIn dims nested inside =
      (f.autonomous.mapM (stateIn dims nested · inside)) >>= fun _ => .ok .aggregated := by
  obtain ⟨k, notes⟩ := f
  cases k <;> simp [isWindowCall, window?, kind] at hf
  next w =>
    have hargs : (Formula.mk (.window w) notes).autonomous = w.args := by
      simp [autonomous, Kind.autonomous, Kind.autonomousCount, Kind.children, kind]
    rw [hargs, stateIn, recur_eq, h]
    simp only [kind, Kind.map, Bool.false_eq_true, if_false, List.mapM_map]
    rfl

/-- An aggregation inside of another one is refused, unless such nesting is allowed. -/
theorem stateIn_aggregate (h : dims.contains f = false) (hf : f.isAggregateCall = true) :
    f.stateIn dims nested inside =
      if inside && !nested then .error (.doubleAggregation f.text)
      else (f.autonomous.mapM (stateIn dims nested · true)) >>= fun _ => .ok .aggregated := by
  rw [stateIn, recur_eq, h]
  obtain ⟨k, notes⟩ := f
  cases k with
  | call c =>
      simp only [Bool.false_eq_true, if_false, hf, if_true]
      refine if_congr Iff.rfl rfl ?_
      show (Kind.autonomous (Kind.map _ (.call c))).mapM _ >>= _ = _
      rw [Kind.autonomous_map, List.mapM_map]
      rfl
  | _ => cases hf

theorem stateIn_node (h : dims.contains f = false) (hf : f.gathers = false)
    (hfield : f.field? = none) :
    f.stateIn dims nested inside =
      (f.autonomous.mapM (stateIn dims nested · inside)) >>= fun states =>
        match GroupState.combine states with
        | some s => .ok s
        | none =>
          if inside then .ok .aggregated else .error (.inconsistentAggregation f.text) := by
  simp only [gathers, Bool.or_eq_false_iff] at hf
  rw [stateIn, recur_eq, h]
  obtain ⟨⟨hfork, hwindow⟩, haggregate⟩ := hf
  obtain ⟨k, notes⟩ := f
  cases k with
  | field | fork | window => cases hfield <;> cases hfork <;> cases hwindow
  | literal => rfl
  | _ =>
      simp only [Bool.false_eq_true, if_false, haggregate]
      show (Kind.autonomous (Kind.map _ _)).mapM _ >>= _ = _
      rw [Kind.autonomous_map, List.mapM_map]
      rfl

end StateIn

/-! ## The checker that allows nesting -/

/-- The same for the checker that accepts aggregations inside of others. -/
def stateBelow (dims : List Formula) : Formula → Bool → Except ValidationError GroupState :=
  recur fun f k inside =>
    if dims.contains f then .ok .dimension
    else
      match k with
      | .literal _ => .ok .constant
      | .field _ => .ok .unaggregated
      | .fork _ => .ok .aggregated
      | .window w => do
        let _ ← w.args.mapM (· inside)
        return .aggregated
      | k =>
        if f.isAggregateCall then do
          let _ ← k.autonomous.mapM (· true)
          return .aggregated
        else do
          let states ← k.autonomous.mapM (· inside)
          match GroupState.combine states with
          | some s => return s
          | none =>
            if inside then return .aggregated else .error (.inconsistentAggregation f.text)

theorem stateBelow_eq (dims : List Formula) : stateBelow dims = stateIn dims true := by
  rw [stateBelow, stateIn]
  refine congrArg recur (funext fun f => funext fun k => funext fun inside => ?_)
  cases inside <;> rfl

theorem groupState_eq_stateBelow (f : Formula) (dims : List Formula) :
    f.groupState dims true = f.stateBelow dims false := by
  rw [stateBelow_eq, groupState_eq_stateIn]

theorem stateBelow_dimension (h : dims.contains f = true) :
    f.stateBelow dims inside = .ok .dimension := by
  rw [stateBelow_eq]
  exact stateIn_dimension h

theorem stateBelow_field {n : String} (h : dims.contains f = false) (hf : f.field? = some n) :
    f.stateBelow dims inside = .ok .unaggregated := by
  rw [stateBelow_eq]
  exact stateIn_field h hf

theorem stateBelow_fork (h : dims.contains f = false) (hf : f.isFork = true) :
    f.stateBelow dims inside = .ok .aggregated := by
  rw [stateBelow_eq]
  exact stateIn_fork h hf

theorem stateBelow_window (h : dims.contains f = false) (hf : f.isWindowCall = true) :
    f.stateBelow dims inside =
      (f.autonomous.mapM (stateBelow dims · inside)) >>= fun _ => .ok .aggregated := by
  rw [stateBelow_eq]
  exact stateIn_window h hf

theorem stateBelow_aggregate (h : dims.contains f = false) (hf : f.isAggregateCall = true) :
    f.stateBelow dims inside =
      (f.autonomous.mapM (stateBelow dims · true)) >>= fun _ => .ok .aggregated := by
  rw [stateBelow_eq, stateIn_aggregate h hf]
  exact if_neg (by simp)

theorem stateBelow_node (h : dims.contains f = false) (hf : f.gathers = false)
    (hfield : f.field? = none) :
    f.stateBelow dims inside =
      (f.autonomous.mapM (stateBelow dims · inside)) >>= fun states =>
        match GroupState.combine states with
        | some s => .ok s
        | none =>
          if inside then .ok .aggregated else .error (.inconsistentAggregation f.text) := by
  rw [stateBelow_eq]
  exact stateIn_node h hf hfield

theorem autonomous_of_field? {n : String} (h : f.field? = some n) : f.autonomous = [] := by
  rw [field?_eq] at h
  obtain ⟨k, notes⟩ := f
  cases k <;> simp [fieldName?, kind] at h
  rfl

/-- What the checker tells apart when a node is no dimension. -/
inductive Standing (f : Formula) : Prop where
  | field {n : String} : f.field? = some n → f.gathers = false → Standing f
  | fork : f.isFork = true → f.gathers = true → Standing f
  | window : f.isWindowCall = true → f.gathers = true → Standing f
  | aggregate : f.isAggregateCall = true → f.gathers = true → Standing f
  | node : f.gathers = false → f.field? = none → Standing f

theorem standing (f : Formula) : f.Standing := by
  cases hgathers : f.gathers with
  | true =>
      have hsome := hgathers
      simp only [gathers, Bool.or_eq_true] at hsome
      rcases hsome with (hfork | hwindow) | haggregate
      · exact .fork hfork hgathers
      · exact .window hwindow hgathers
      · exact .aggregate haggregate hgathers
  | false =>
      cases hfield : f.field? with
      | some n => exact .field hfield hgathers
      | none => exact .node hgathers hfield

/-- Inside an aggregation everything is accepted. -/
theorem exists_stateBelow_inside (f : Formula) : ∃ s, f.stateBelow dims true = .ok s := by
  induction f using induction_children with
  | step f ih =>
      obtain ⟨states, hstates, -⟩ : ∃ states,
          f.autonomous.mapM (stateBelow dims · true) = .ok states ∧ ∀ s ∈ states, True :=
        exists_mapM_eq_ok_iff.mpr fun c hc =>
          (ih c (mem_children_of_autonomous hc)).imp fun s hs => ⟨hs, trivial⟩
      cases hdim : dims.contains f with
      | true => exact ⟨_, stateBelow_dimension hdim⟩
      | false =>
          cases f.standing with
          | field hfield => exact ⟨_, stateBelow_field hdim hfield⟩
          | fork hfork => exact ⟨_, stateBelow_fork hdim hfork⟩
          | window hwindow => exact ⟨_, by rw [stateBelow_window hdim hwindow, hstates]; rfl⟩
          | aggregate haggregate =>
              exact ⟨_, by rw [stateBelow_aggregate hdim haggregate, hstates]; rfl⟩
          | node hgathers hfield =>
              rw [stateBelow_node hdim hgathers hfield, hstates]
              cases hcombine : GroupState.combine states with
              | some s => exact ⟨s, by simp only [bind, Except.bind, hcombine]⟩
              | none => exact ⟨.aggregated, by simp only [bind, Except.bind, hcombine, if_true]⟩

theorem stateBelow_of_aggregate (h : dims.contains f = false) (hf : f.isAggregateCall = true) :
    f.stateBelow dims inside = .ok .aggregated := by
  obtain ⟨states, hstates, -⟩ : ∃ states,
      f.autonomous.mapM (stateBelow dims · true) = .ok states ∧ ∀ s ∈ states, True :=
    exists_mapM_eq_ok_iff.mpr fun c _ =>
      (exists_stateBelow_inside c).imp fun s hs => ⟨hs, trivial⟩
  rw [stateBelow_aggregate h hf, hstates]
  rfl

/-! ## The two properties -/

theorem perRow_iff_node (h : dims.contains f = false) :
    f.PerRow dims ↔ f.gathers = false ∧ ∀ c ∈ f.autonomous, c.PerRow dims := by
  constructor
  · rintro (hdim | ⟨hgathers, hbelow⟩)
    · exact absurd (h.symm.trans hdim) (by simp)
    · exact ⟨hgathers, hbelow⟩
  · exact fun ⟨hgathers, hbelow⟩ => .node hgathers hbelow

theorem perGroup_iff_node (h : dims.contains f = false) (hf : f.gathers = false) :
    f.PerGroup dims ↔ f.field? = none ∧ ∀ c ∈ f.autonomous, c.PerGroup dims := by
  have hkinds := hf
  simp only [gathers, Bool.or_eq_false_iff] at hkinds
  constructor
  · intro hgroup
    cases hgroup with
    | dimension hdim => exact absurd (h.symm.trans hdim) (by simp)
    | fork hfork => exact absurd (hkinds.1.1.symm.trans hfork) (by simp)
    | aggregate haggregate => exact absurd (hkinds.2.symm.trans haggregate) (by simp)
    | window hwindow => exact absurd (hkinds.1.2.symm.trans hwindow) (by simp)
    | node _ hfield hbelow => exact ⟨hfield, hbelow⟩
  · exact fun ⟨hfield, hbelow⟩ => .node hf hfield hbelow

theorem stateBelow_node_eq_ok_iff (h : dims.contains f = false) (hf : f.gathers = false)
    (hfield : f.field? = none) {s : GroupState} :
    f.stateBelow dims false = .ok s ↔
      ∃ states, f.autonomous.mapM (stateBelow dims · false) = .ok states ∧
        GroupState.combine states = some s := by
  rw [stateBelow_node h hf hfield, bind_eq_ok]
  refine exists_congr fun states => and_congr_right fun _ => ?_
  cases GroupState.combine states with
  | some t => simp
  | none => simp

/-- The formula is accepted under the dimensions, and its state is another than the given one. -/
def Avoids (dims : List Formula) (bad : GroupState) (f : Formula) : Prop :=
  ∃ s, f.stateBelow dims false = .ok s ∧ s ≠ bad

/-- An expression avoids one of the two states that do not go together exactly if all of its parts
do. -/
theorem avoids_node_iff {bad : GroupState} (hbad : bad = .aggregated ∨ bad = .unaggregated)
    (h : dims.contains f = false) (hf : f.gathers = false) (hfield : f.field? = none) :
    f.Avoids dims bad ↔ ∀ c ∈ f.autonomous, c.Avoids dims bad := by
  refine Iff.trans ?_ exists_mapM_eq_ok_iff
  simp only [Avoids, stateBelow_node_eq_ok_iff h hf hfield]
  have hmem {states : List GroupState} : (∀ s ∈ states, s ≠ bad) ↔ bad ∉ states :=
    ⟨fun hall hmem => hall bad hmem rfl, fun hbad s hs heq => hbad (heq ▸ hs)⟩
  have hown {states : List GroupState} {s : GroupState}
      (hs : GroupState.combine states = some s) : s = bad ↔ bad ∈ states := by
    rcases hbad with rfl | rfl
    · exact (GroupState.of_combine hs).1
    · exact (GroupState.of_combine hs).2
  constructor
  · rintro ⟨s, ⟨states, hstates, hs⟩, hne⟩
    exact ⟨states, hstates, hmem.mpr fun hin => hne ((hown hs).mpr hin)⟩
  · rintro ⟨states, hstates, hall⟩
    have hnotin := hmem.mp hall
    cases hs : GroupState.combine states with
    | none =>
        obtain ⟨ha, hu⟩ := GroupState.combine_eq_none_iff.mp hs
        rcases hbad with rfl | rfl
        · exact absurd ha hnotin
        · exact absurd hu hnotin
    | some s => exact ⟨s, ⟨states, hstates, hs⟩, fun heq => hnotin ((hown hs).mp heq)⟩

theorem exists_stateBelow_iff :
    (∃ s, f.stateBelow dims false = .ok s) ↔
      f.Avoids dims .unaggregated ∨ f.Avoids dims .aggregated := by
  constructor
  · rintro ⟨s, hs⟩
    by_cases hne : s = .unaggregated
    · exact Or.inr ⟨s, hs, hne ▸ by decide⟩
    · exact Or.inl ⟨s, hs, hne⟩
  · rintro (⟨s, hs, -⟩ | ⟨s, hs, -⟩)
    · exact ⟨s, hs⟩
    · exact ⟨s, hs⟩

theorem not_avoids_of_state {bad : GroupState} (h : f.stateBelow dims false = .ok bad) :
    ¬ f.Avoids dims bad := by
  rintro ⟨s, hs, hne⟩
  exact hne (Except.ok.inj (h.symm.trans hs)).symm

/-- A window call is accepted if its arguments are, and is then aggregated. -/
theorem avoids_window_iff (h : dims.contains f = false) (hf : f.isWindowCall = true)
    {bad : GroupState} :
    f.Avoids dims bad ↔
      (∀ c ∈ f.autonomous, ∃ s, c.stateBelow dims false = .ok s) ∧ bad ≠ .aggregated := by
  have hargs : (∃ states, f.autonomous.mapM (stateBelow dims · false) = .ok states) ↔
      ∀ c ∈ f.autonomous, ∃ s, c.stateBelow dims false = .ok s := by
    simpa using exists_mapM_eq_ok_iff (f := (stateBelow dims · false)) (P := fun _ => True)
  rw [← hargs, Avoids, stateBelow_window h hf]
  simp only [bind_eq_ok]
  constructor
  · rintro ⟨s, ⟨states, hstates, hs⟩, hne⟩
    exact ⟨⟨states, hstates⟩, Except.ok.inj hs ▸ hne.symm⟩
  · rintro ⟨⟨states, hstates⟩, hne⟩
    exact ⟨.aggregated, ⟨states, hstates, rfl⟩, hne.symm⟩

theorem perGroup_window_iff (h : dims.contains f = false) (hf : f.isWindowCall = true) :
    f.PerGroup dims ↔ ∀ c ∈ f.autonomous, ¬ c.PerRow dims → c.PerGroup dims := by
  obtain ⟨k, notes⟩ := f
  cases k with
  | window w =>
      constructor
      · intro hgroup
        cases hgroup with
        | dimension hdim => exact absurd (h.symm.trans hdim) (by simp)
        | window _ hbelow => exact hbelow
        | fork hfork | aggregate hfork | node hfork => cases hfork
      · exact .window hf
  | _ => cases hf

/-- The two properties are what the checker finds. -/
theorem avoids_iff (f : Formula) :
    (f.PerGroup dims ↔ f.Avoids dims .unaggregated) ∧
      (f.PerRow dims ↔ f.Avoids dims .aggregated) := by
  induction f using induction_children with
  | step f ih =>
      have hbelow : ∀ c ∈ f.autonomous, _ := fun c hc => ih c (mem_children_of_autonomous hc)
      cases hdim : dims.contains f with
      | true =>
          exact ⟨iff_of_true (.dimension hdim) ⟨_, stateBelow_dimension hdim, by decide⟩,
            iff_of_true (.dimension hdim) ⟨_, stateBelow_dimension hdim, by decide⟩⟩
      | false =>
          have hnot : f.gathers = true → ¬ f.PerRow dims := fun hgathers hrow =>
            absurd ((perRow_iff_node hdim).mp hrow).1 (by simp [hgathers])
          have hgathered (hgathers : f.gathers = true)
              (hstate : f.stateBelow dims false = .ok .aggregated) (hgroup : f.PerGroup dims) :
              (f.PerGroup dims ↔ f.Avoids dims .unaggregated) ∧
                (f.PerRow dims ↔ f.Avoids dims .aggregated) :=
            ⟨iff_of_true hgroup ⟨_, hstate, by decide⟩,
              iff_of_false (hnot hgathers) (not_avoids_of_state hstate)⟩
          cases f.standing with
          | field hfield hgathers =>
              have hstate : f.stateBelow dims false = _ := stateBelow_field hdim hfield
              refine ⟨iff_of_false ?_ (not_avoids_of_state hstate),
                iff_of_true ?_ ⟨_, hstate, by decide⟩⟩
              · rw [perGroup_iff_node hdim hgathers, hfield]
                simp
              · refine .node hgathers fun c hc => ?_
                rw [autonomous_of_field? hfield] at hc
                exact absurd hc List.not_mem_nil
          | fork hfork hgathers =>
              exact hgathered hgathers (stateBelow_fork hdim hfork) (.fork hfork)
          | aggregate haggregate hgathers =>
              exact hgathered hgathers (stateBelow_of_aggregate hdim haggregate)
                (.aggregate haggregate)
          | window hwindow hgathers =>
              rw [avoids_window_iff hdim hwindow, avoids_window_iff hdim hwindow,
                perGroup_window_iff hdim hwindow]
              refine ⟨?_, iff_of_false (hnot hgathers) (by simp)⟩
              rw [and_iff_left (by decide)]
              refine forall₂_congr fun c hc => ?_
              rw [exists_stateBelow_iff, ← (hbelow c hc).1, ← (hbelow c hc).2]
              exact or_iff_not_imp_right.symm
          | node hgathers hfield =>
              rw [avoids_node_iff (Or.inr rfl) hdim hgathers hfield,
                avoids_node_iff (Or.inl rfl) hdim hgathers hfield, perRow_iff_node hdim,
                perGroup_iff_node hdim hgathers]
              simp only [hfield, hgathers, true_and]
              exact ⟨forall₂_congr fun c hc => (hbelow c hc).1,
                forall₂_congr fun c hc => (hbelow c hc).2⟩

theorem perGroup_iff :
    f.PerGroup dims ↔ ∃ s, f.groupState dims true = .ok s ∧ s ≠ .unaggregated := by
  rw [groupState_eq_stateBelow]
  exact (avoids_iff f).1

theorem perRow_iff :
    f.PerRow dims ↔ ∃ s, f.groupState dims true = .ok s ∧ s ≠ .aggregated := by
  rw [groupState_eq_stateBelow]
  exact (avoids_iff f).2

/-- A formula is accepted exactly if it has a value for each group or for each row. -/
theorem exists_groupState_iff :
    (∃ s, f.groupState dims true = .ok s) ↔ f.PerGroup dims ∨ f.PerRow dims := by
  rw [groupState_eq_stateBelow, exists_stateBelow_iff, ← (avoids_iff f).1, ← (avoids_iff f).2]

/-! ## Equal formulas and constants -/

theorem gathers_eq_of_outline (h : f.kind.outline = g.kind.outline) : f.gathers = g.gathers := by
  rw [gathers, gathers, isFork_eq_of_outline h, isWindowCall_eq_of_outline h,
    isAggregateCall_eq_of_outline h]

theorem gathers_eq_of_same (h : (f == g) = true) : f.gathers = g.gathers := by
  rw [gathers, gathers, isFork_eq_of_same h, isWindowCall_eq_of_same h,
    isAggregateCall_eq_of_same h]

theorem contains_eq_of_same (h : (f == g) = true) : dims.contains f = dims.contains g := by
  rw [Bool.eq_iff_iff, contains_eq_true, contains_eq_true]
  exact exists_congr fun d => and_congr_right fun _ =>
    ⟨BEq.trans (BEq.symm h), BEq.trans h⟩

theorem PerRow.of_same (h : (f == g) = true) (hf : f.PerRow dims) : g.PerRow dims := by
  induction f using induction_children generalizing g with
  | step f ih =>
      cases hf with
      | dimension hdim => exact .dimension (contains_eq_of_same h ▸ hdim)
      | node hgathers hbelow =>
          refine .node (gathers_eq_of_same h ▸ hgathers) fun d hd => ?_
          obtain ⟨c, hc, hcd⟩ := forall₂_exists_left (forall₂_autonomous h) hd
          exact ih c (mem_children_of_autonomous hc) hcd (hbelow c hc)

theorem PerGroup.of_same (h : (f == g) = true) (hf : f.PerGroup dims) : g.PerGroup dims := by
  induction f using induction_children generalizing g with
  | step f ih =>
      cases hf with
      | dimension hdim => exact .dimension (contains_eq_of_same h ▸ hdim)
      | fork hfork => exact .fork (isFork_eq_of_same h ▸ hfork)
      | aggregate haggregate => exact .aggregate (isAggregateCall_eq_of_same h ▸ haggregate)
      | window hwindow hbelow =>
          refine .window (isWindowCall_eq_of_same h ▸ hwindow) fun d hd hrow => ?_
          obtain ⟨c, hc, hcd⟩ := forall₂_exists_left (forall₂_autonomous h) hd
          exact ih c (mem_children_of_autonomous hc) hcd
            (hbelow c hc fun hrow' => hrow (hrow'.of_same hcd))
      | node hgathers hfield hbelow =>
          refine .node (gathers_eq_of_same h ▸ hgathers) (field?_eq_of_same h ▸ hfield)
            fun d hd => ?_
          obtain ⟨c, hc, hcd⟩ := forall₂_exists_left (forall₂_autonomous h) hd
          exact ih c (mem_children_of_autonomous hc) hcd (hbelow c hc)

theorem constant_iff :
    f.isConstantExpression = true ↔ ∀ g ∈ f.nodes, g.gathers = false ∧ g.field? = none ∧
      g.isError = false := by
  rw [isConstantExpression, Bool.not_eq_true', any, List.any_eq_false]
  refine forall₂_congr fun g _ => ?_
  cases hfield : g.field? <;> simp [gathers]
  tauto

theorem constant_of_autonomous {c : Formula} (h : f.isConstantExpression = true)
    (hc : c ∈ f.autonomous) : c.isConstantExpression = true :=
  constant_iff.mpr fun g hg =>
    constant_iff.mp h g (mem_nodes_of_child (mem_children_of_autonomous hc) hg)

/-- A constant has a value for each row and for each group. -/
theorem perRow_of_constant (h : f.isConstantExpression = true) : f.PerRow dims := by
  induction f using induction_children with
  | step f ih =>
      refine .node (constant_iff.mp h f (self_mem_nodes f)).1 fun c hc => ?_
      exact ih c (mem_children_of_autonomous hc) (constant_of_autonomous h hc)

theorem perGroup_of_constant (h : f.isConstantExpression = true) : f.PerGroup dims := by
  induction f using induction_children with
  | step f ih =>
      obtain ⟨hgathers, hfield, -⟩ := constant_iff.mp h f (self_mem_nodes f)
      refine .node hgathers hfield fun c hc => ?_
      exact ih c (mem_children_of_autonomous hc) (constant_of_autonomous h hc)

/-! ## More dimensions -/

/-- Every dimension is constant or among the others. -/
def CoveredBy (dims dims' : List Formula) : Prop :=
  ∀ f, dims.contains f = true → f.isConstantExpression = true ∨ dims'.contains f = true

theorem CoveredBy.nil : CoveredBy [] dims := fun _ hf => absurd hf (by simp)

theorem PerRow.mono (hdims : CoveredBy dims dims') (h : f.PerRow dims) : f.PerRow dims' := by
  induction f using induction_children with
  | step f ih =>
      cases h with
      | dimension hdim => exact (hdims f hdim).elim perRow_of_constant .dimension
      | node hgathers hbelow =>
          exact .node hgathers fun c hc => ih c (mem_children_of_autonomous hc) (hbelow c hc)

theorem PerGroup.mono (hdims : CoveredBy dims dims') (h : f.PerGroup dims) : f.PerGroup dims' := by
  induction f using induction_children with
  | step f ih =>
      cases h with
      | dimension hdim => exact (hdims f hdim).elim perGroup_of_constant .dimension
      | fork hfork => exact .fork hfork
      | aggregate haggregate => exact .aggregate haggregate
      | window hwindow hbelow =>
          refine .window hwindow fun c hc hrow => ?_
          exact ih c (mem_children_of_autonomous hc)
            (hbelow c hc fun hrow' => hrow (hrow'.mono hdims))
      | node hgathers hfield hbelow =>
          exact .node hgathers hfield fun c hc =>
            ih c (mem_children_of_autonomous hc) (hbelow c hc)

/-! ## Rewriting values for each row -/

/-- The rule puts values for each row in the place of others. -/
def ReplacesRows (rule : Rule) : Prop :=
  ∀ above f r, rule above f = some r → r.PerRow [] ∧ ¬ f.PerGroup []

theorem perRow_withChildren {cs : List Formula}
    (hkept : dims.contains f = true → f.withChildren cs = f)
    (hcs : List.Forall₂ (fun c d => c.PerRow dims → d.PerRow dims) f.children cs)
    (h : f.PerRow dims) : (f.withChildren cs).PerRow dims := by
  cases h with
  | dimension hdim => exact (hkept hdim).symm ▸ .dimension hdim
  | node hgathers hbelow =>
      refine .node (gathers_eq_of_outline (outline_withChildren f cs) ▸ hgathers) fun d hd => ?_
      obtain ⟨c, hc, hcd⟩ := exists_autonomous_of_withChildren hcs hd
      exact hcd (hbelow c hc)

theorem perGroup_withChildren {cs : List Formula}
    (hkept : dims.contains f = true → f.withChildren cs = f)
    (hcs : List.Forall₂ (fun c d => (c.PerRow dims → d.PerRow dims) ∧
      (c.PerGroup dims → d.PerGroup dims)) f.children cs)
    (h : f.PerGroup dims) : (f.withChildren cs).PerGroup dims := by
  have houtline := outline_withChildren f cs
  cases h with
  | dimension hdim => exact (hkept hdim).symm ▸ .dimension hdim
  | fork hfork => exact .fork (isFork_eq_of_outline houtline ▸ hfork)
  | aggregate haggregate => exact .aggregate (isAggregateCall_eq_of_outline houtline ▸ haggregate)
  | window hwindow hbelow =>
      refine .window (isWindowCall_eq_of_outline houtline ▸ hwindow) fun d hd hrow => ?_
      obtain ⟨c, hc, hrows, hgroups⟩ := exists_autonomous_of_withChildren hcs hd
      exact hgroups (hbelow c hc fun hrow' => hrow (hrows hrow'))
  | node hgathers hfield hbelow =>
      refine .node (gathers_eq_of_outline houtline ▸ hgathers)
        (field?_withChildren f cs ▸ hfield) fun d hd => ?_
      obtain ⟨c, hc, -, hgroups⟩ := exists_autonomous_of_withChildren hcs hd
      exact hgroups (hbelow c hc)

/-- Rewriting values for each row keeps whether a formula has a value for each row or group. -/
theorem transform_replacesRows {rule : Rule} (hrule : ReplacesRows rule) (f : Formula) :
    (f.PerRow [] → (f.transform rule).PerRow []) ∧
      (f.PerGroup [] → (f.transform rule).PerGroup []) := by
  refine transform_rel (Q := fun _ => True)
    (R := fun f g => (f.PerRow [] → g.PerRow []) ∧ (f.PerGroup [] → g.PerGroup []))
    (fun _ _ _ _ => trivial) (fun _ _ => ⟨id, id⟩) ?_ ?_ trivial
  · intro f cs _ hcs
    have hkept : ([] : List Formula).contains f = true → f.withChildren cs = f :=
      fun h => absurd h (by simp)
    exact ⟨perRow_withChildren hkept (hcs.imp fun _ _ h => h.1), perGroup_withChildren hkept hcs⟩
  · intro above f g r _ _ hfg hr
    obtain ⟨hrow, hgroup⟩ := hrule above g r hr
    exact ⟨fun _ => hrow, fun hf => absurd (hfg.2 hf) hgroup⟩

theorem isAggregateExpression_iff : f.isAggregateExpression = true ↔
    f.gathers = true ∨ ∃ c ∈ f.autonomous, c.isAggregateExpression = true := by
  rw [isAggregateExpression, recur_eq, Kind.autonomous_map, List.any_map, gathers]
  show (f.isWindowCall || f.isFork || f.isAggregateCall ||
    f.kind.autonomous.any isAggregateExpression) = true ↔ _
  simp only [Bool.or_eq_true, List.any_eq_true, autonomous]
  tauto

/-- Without dimensions, a formula with a value for each row is one that nothing is aggregated
in. -/
theorem perRow_nil_iff : f.PerRow [] ↔ f.isAggregateExpression = false := by
  induction f using induction_children with
  | step f ih =>
      have hbelow : (∀ c ∈ f.autonomous, c.PerRow []) ↔
          ∀ c ∈ f.autonomous, c.isAggregateExpression = false :=
        forall₂_congr fun c hc => ih c (mem_children_of_autonomous hc)
      rw [perRow_iff_node (by simp), hbelow, ← Bool.not_eq_true f.isAggregateExpression,
        isAggregateExpression_iff]
      simp

end Formula

/-! ## The check of a query -/

namespace Query

variable {q : Query}

/-- The query passes the check of its aggregations. -/
def Accepted (q : Query) : Prop := Compile.mixedErrors q = [] ∧ Compile.rowErrors q = []

instance (q : Query) : Decidable q.Accepted := inferInstanceAs (Decidable (_ ∧ _))

theorem mixedErrors_eq_nil_iff :
    Compile.mixedErrors q = [] ↔ ∀ e ∈ q.select ++ q.orderBy ++ q.filters,
      e.formula.PerGroup q.dimensions ∨ e.formula.PerRow q.dimensions := by
  rw [Compile.mixedErrors, List.filterMap_eq_nil_iff]
  refine forall₂_congr fun e _ => ?_
  rw [← Formula.exists_groupState_iff]
  cases e.formula.groupState q.dimensions true with
  | ok s => simp
  | error e => simp

theorem mem_groupStates_iff {x : Formula × GroupState} :
    x ∈ Compile.groupStates q ↔ ∃ e ∈ q.select ++ q.orderBy,
      e.formula = x.1 ∧ e.formula.groupState q.dimensions true = .ok x.2 := by
  obtain ⟨f, s⟩ := x
  rw [Compile.groupStates, List.mem_filterMap]
  refine exists_congr fun e => and_congr_right fun _ => ?_
  cases e.formula.groupState q.dimensions true with
  | ok t => simp
  | error e => simp

theorem rowErrors_eq_nil_iff :
    Compile.rowErrors q = [] ↔ (∀ x ∈ Compile.groupStates q, x.2 ≠ .unaggregated) ∨
      q.dimensions = [] ∧ ∀ x ∈ Compile.groupStates q, x.2 ≠ .aggregated := by
  have hfilter : (Compile.groupStates q).filter (·.2 == .unaggregated) = [] ↔
      ∀ x ∈ Compile.groupStates q, x.2 ≠ .unaggregated := by
    simp [List.filter_eq_nil_iff]
  have hgrouped : (!q.dimensions.isEmpty || (Compile.groupStates q).any (·.2 == .aggregated)) =
      false ↔ q.dimensions = [] ∧ ∀ x ∈ Compile.groupStates q, x.2 ≠ .aggregated := by
    rw [Bool.or_eq_false_iff, Bool.not_eq_false', List.isEmpty_iff, List.any_eq_false]
    simp
  rw [Compile.rowErrors, ← hgrouped, ← hfilter]
  cases !q.dimensions.isEmpty || (Compile.groupStates q).any (·.2 == .aggregated) <;> simp

/-- All formulas that are selected or ordered by have a value for each group, or all have one for
each row and there are no groups. -/
theorem accepted_iff :
    q.Accepted ↔ ((∀ e ∈ q.select ++ q.orderBy, e.formula.PerGroup q.dimensions) ∨
      q.dimensions = [] ∧ ∀ e ∈ q.select ++ q.orderBy, e.formula.PerRow []) ∧
      ∀ e ∈ q.filters, e.formula.PerGroup q.dimensions ∨ e.formula.PerRow q.dimensions := by
  have hgroup {e : Entry} {s : GroupState} (hs : e.formula.groupState q.dimensions true = .ok s) :
      e.formula.PerGroup q.dimensions ↔ s ≠ .unaggregated := by
    rw [Formula.perGroup_iff, hs]
    simp
  have hrow {e : Entry} {s : GroupState} (hs : e.formula.groupState q.dimensions true = .ok s) :
      e.formula.PerRow q.dimensions ↔ s ≠ .aggregated := by
    rw [Formula.perRow_iff, hs]
    simp
  rw [Accepted, mixedErrors_eq_nil_iff, rowErrors_eq_nil_iff, List.forall_mem_append]
  constructor
  · rintro ⟨⟨hitems, hfilters⟩, hstates⟩
    have hstate {e : Entry} (he : e ∈ q.select ++ q.orderBy) :
        ∃ s, e.formula.groupState q.dimensions true = .ok s ∧
          (e.formula, s) ∈ Compile.groupStates q := by
      obtain ⟨s, hs⟩ := Formula.exists_groupState_iff.mpr (hitems e he)
      exact ⟨s, hs, mem_groupStates_iff.mpr ⟨e, he, rfl, hs⟩⟩
    refine ⟨hstates.imp (fun hall e he => ?_) fun ⟨hdims, hall⟩ => ⟨hdims, fun e he => ?_⟩,
      hfilters⟩
    · obtain ⟨s, hs, hmem⟩ := hstate he
      exact (hgroup hs).mpr (hall _ hmem)
    · obtain ⟨s, hs, hmem⟩ := hstate he
      exact hdims ▸ (hrow hs).mpr (hall _ hmem)
  · rintro ⟨hitems, hfilters⟩
    refine ⟨⟨fun e he => ?_, hfilters⟩,
      hitems.imp (fun hall x hx => ?_) fun ⟨hdims, hall⟩ => ⟨hdims, fun x hx => ?_⟩⟩
    · exact hitems.imp (fun hall => hall e he) fun ⟨hdims, hall⟩ => hdims ▸ hall e he
    · obtain ⟨e, he, -, hs⟩ := mem_groupStates_iff.mp hx
      exact (hgroup hs).mp (hall e he)
    · obtain ⟨e, he, -, hs⟩ := mem_groupStates_iff.mp hx
      exact (hrow hs).mp (hdims ▸ hall e he)

end Query

end FormulaSql
