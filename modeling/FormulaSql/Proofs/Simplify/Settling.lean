import FormulaSql.Proofs.Simplify.Lowered
import FormulaSql.Proofs.Simplify.Shrinking
import FormulaSql.Proofs.Simplify.Styles
import Mathlib.Data.List.Induction
import Mathlib.Logic.Function.Iterate

/-!
# How many rounds simplifying takes

A round applies each rule once to the whole formula, so what a rule makes possible for an earlier
one has to wait for the next round. A node waits for what stands below it only: once its children
are finished, it is finished one round later. So a formula takes as many rounds as it has levels
below the top, and if these are not more than the rounds that there are, simplifying it again
changes nothing. Of a higher formula a part may be left to do.

* `Simplifying.finishedBelow_transformAll`: each round finishes one level more
* `Simplify.simplifying_filterRules` is the case analysis of the rules
* `Formula.optimize_optimize`: when simplifying again changes nothing
-/

namespace FormulaSql

namespace Formula

variable {f g c r : Formula} {rule : Rule} {rules : List Rule} {n : Nat}

/-! ## Levels -/

/-- The number of levels below the top node. -/
def height (f : Formula) : Nat := f.recur fun _ k => (k.children.map (· + 1)).foldr max 0

theorem height_eq (f : Formula) : f.height = (f.children.map (height · + 1)).foldr max 0 := by
  rw [height, recur_eq, Kind.children_map, List.map_map]
  rfl

theorem height_lt_of_child (hc : c ∈ f.children) : c.height < f.height := by
  have hle {ns : List Nat} {n : Nat} (hn : n ∈ ns) : n ≤ ns.foldr max 0 := by
    induction ns with
    | nil => exact absurd hn List.not_mem_nil
    | cons m ns ih =>
        rw [List.foldr_cons]
        rcases List.mem_cons.mp hn with rfl | hn
        · exact Nat.le_max_left _ _
        · exact Nat.le_trans (ih hn) (Nat.le_max_right _ _)
  rw [height_eq f]
  exact hle (List.mem_map.mpr ⟨c, hc, rfl⟩)

/-! ## Finished formulas -/

/-- No rule offers anything for a node of the formula. -/
def Finished (rules : List Rule) : Formula → Prop := All fun g => ∀ rule ∈ rules, rule [] g = none

/-- All that is more than so many levels below the top is finished. -/
def FinishedBelow (rules : List Rule) : Nat → Formula → Prop
  | 0, f => f.Finished rules
  | n + 1, f => ∀ c ∈ f.children, FinishedBelow rules n c

theorem finished_iff : f.Finished rules ↔
    (∀ rule ∈ rules, rule [] f = none) ∧ ∀ c ∈ f.children, c.Finished rules := all_iff

theorem FinishedBelow.succ (hf : FinishedBelow rules n f) : FinishedBelow rules (n + 1) f := by
  induction n generalizing f with
  | zero => exact (finished_iff.mp hf).2
  | succ n ih => exact fun c hc => ih (hf c hc)

theorem finishedBelow_of_children_eq_nil (hf : f.children = []) :
    FinishedBelow rules (n + 1) f := by
  intro c hc
  rw [hf] at hc
  exact absurd hc List.not_mem_nil

/-- What a rule offers for a node is made of what stands below the node. -/
inductive Descends (rules : List Rule) (f : Formula) : Formula → Prop where
  /-- A constant takes the place of the node. -/
  | leaf {r : Formula} (h : r.children = []) : Descends rules f r
  /-- A child takes the place of the node. -/
  | child {r : Formula} (h : r ∈ f.children) : Descends rules f r
  /-- A node with some of the children takes its place, and no rule has anything to add. -/
  | parent {r : Formula} (h : r.children ⊆ f.children) (hroot : ∀ rule ∈ rules, rule [] r = none) :
      Descends rules f r
  /-- A child in another form takes its place. -/
  | inverse {c r : Formula} (hc : c ∈ f.children) (h : r.children = c.children)
      (hroot : ∀ rule ∈ rules, rule [] c = none → rule [] r = none) : Descends rules f r

theorem Descends.mono {rules' : List Rule} (hrules : rules' ⊆ rules) (h : Descends rules f r) :
    Descends rules' f r := by
  cases h with
  | leaf h => exact .leaf h
  | child h => exact .child h
  | parent h hroot => exact .parent h fun rule hrule => hroot rule (hrules hrule)
  | inverse hc h hroot => exact .inverse hc h fun rule hrule => hroot rule (hrules hrule)

/-- Rules that look at one node and take something away. -/
structure Simplifying (rules : List Rule) : Prop where
  shrinks : ∀ rule ∈ rules, rule.Shrinks
  nodewise : ∀ rule ∈ rules, ∀ above f, rule above f = rule [] f
  descends : ∀ rule ∈ rules, ∀ f r, rule [] f = some r → Descends rules f r

section Simplifying

variable (h : Simplifying rules)

include h

theorem Simplifying.finished_of_leaf (hf : f.children = []) : f.Finished rules := by
  refine finished_iff.mpr ⟨fun rule hrule => ?_, finishedBelow_of_children_eq_nil (n := 0) hf⟩
  rw [Option.eq_none_iff_forall_ne_some]
  intro r hr
  have hlt := h.shrinks rule hrule [] f r hr
  rw [size_eq_sum f, hf] at hlt
  exact absurd (size_pos r) (Nat.not_lt_of_le (Nat.le_of_lt_succ hlt))

theorem Simplifying.finishedBelow_of_leaf (hf : f.children = []) : FinishedBelow rules n f := by
  cases n with
  | zero => exact h.finished_of_leaf hf
  | succ n => exact finishedBelow_of_children_eq_nil hf

theorem Simplifying.finishedBelow_of_height (hf : f.height ≤ n) : FinishedBelow rules n f := by
  induction n generalizing f with
  | zero =>
      refine h.finishedBelow_of_leaf (List.eq_nil_iff_forall_not_mem.mpr fun c hc => ?_)
      exact absurd (height_lt_of_child hc) (Nat.not_lt_of_le (Nat.le_trans hf (Nat.zero_le _)))
  | succ n ih =>
      exact fun c hc => ih (Nat.le_of_lt_succ (Nat.lt_of_lt_of_le (height_lt_of_child hc) hf))

/-! ### One rule -/

/-- The nodes above make no difference. -/
theorem Simplifying.offered_eq (hrule : rule ∈ rules) (above : List Formula) (f : Formula) :
    f.offered rule above = f.offered rule [] := by
  induction f using induction_children generalizing above with
  | step f ih =>
      have hchildren : f.rebuilt rule above = f.rebuilt rule [] := by
        rw [rebuilt, rebuilt]
        refine congrArg f.withChildren (List.map_congr_left fun c hc => ?_)
        exact (ih c hc _).trans (ih c hc _).symm
      have hrenews := (h.shrinks rule hrule).renews
      rw [Formula.offered_eq hrenews, Formula.offered_eq hrenews, hchildren,
        h.nodewise rule hrule above]

/-- A rule goes over the children first and then looks at the node with what has become of them. -/
theorem Simplifying.transform_eq (hrule : rule ∈ rules) (f : Formula) :
    f.transform rule = (rule [] (f.withChildren (f.children.map (transform rule)))).getD
      (f.withChildren (f.children.map (transform rule))) := by
  have hrenews := (h.shrinks rule hrule).renews
  have hchild : f.children.map (offered rule ([] ++ [f])) = f.children.map (transform rule) := by
    refine List.map_congr_left fun c _ => ?_
    rw [h.offered_eq hrule, transform_eq_offered hrenews]
  rw [transform_eq_offered hrenews, Formula.offered_eq hrenews, rebuilt, hchild]

theorem Simplifying.transform_cases (hrule : rule ∈ rules) (f : Formula) :
    ∃ g, g.children = f.children.map (transform rule) ∧ Shrunk f g ∧
      ((rule [] g = none ∧ f.transform rule = g) ∨
        ∃ r, rule [] g = some r ∧ f.transform rule = r ∧ Descends rules g r) := by
  refine ⟨f.withChildren (f.children.map (transform rule)),
    children_withChildren f _ (List.length_map _), ?_, ?_⟩
  · refine shrunk_withChildren (List.forall₂_map_right_iff.mpr (List.forall₂_same.mpr ?_))
    exact fun c _ => shrunk_transform (h.shrinks rule hrule) c
  · rw [h.transform_eq hrule]
    cases hr : rule [] (f.withChildren (f.children.map (transform rule))) with
    | none => exact Or.inl ⟨rfl, rfl⟩
    | some r => exact Or.inr ⟨r, rfl, rfl, h.descends rule hrule _ r hr⟩

omit h in
theorem rests_of_nodewise (hnodewise : ∀ above f, rule above f = rule [] f)
    (hf : f.All fun g => rule [] g = none) : f.Rests rule [] := by
  refine (throughout_of_all hf).imp ?_
  intro above g hg
  rw [hnodewise above g, hg]

theorem Simplifying.transform_eq_self (hf : f.Finished rules) (hrule : rule ∈ rules) :
    f.transform rule = f :=
  Formula.transform_eq_self <| rests_of_nodewise (h.nodewise rule hrule)
    fun g hg => hf g hg rule hrule

omit h in
/-- What is offered is finished as far down as the node was. -/
theorem Descends.finishedBelow (hr : Descends rules g r) (hg : FinishedBelow rules (n + 1) g) :
    FinishedBelow rules (n + 1) r := by
  cases hr with
  | leaf hleaf => exact finishedBelow_of_children_eq_nil hleaf
  | child hchild => exact (hg r hchild).succ
  | parent hsub => exact fun d hd => hg d (hsub hd)
  | inverse hc hchildren =>
      intro d hd
      exact (hg _ hc).succ d (hchildren ▸ hd)

theorem Simplifying.finishedBelow_transform (hrule : rule ∈ rules) (hf : FinishedBelow rules n f) :
    FinishedBelow rules n (f.transform rule) := by
  induction n generalizing f with
  | zero =>
      rw [h.transform_eq_self hf hrule]
      exact hf
  | succ n ih =>
      obtain ⟨g, hchildren, -, hcases⟩ := h.transform_cases hrule f
      have hg : FinishedBelow rules (n + 1) g := by
        intro d hd
        rw [hchildren] at hd
        obtain ⟨c, hc, rfl⟩ := List.mem_map.mp hd
        exact ih (hf c hc)
      rcases hcases with ⟨-, heq⟩ | ⟨r, -, heq, hr⟩ <;> rw [heq]
      · exact hg
      · exact hr.finishedBelow hg

/-! ### One round -/

omit h in
/-- A property of what the rules so far have made of a formula. -/
theorem transformAll_induction {P : List Rule → Formula → Prop} (start : P [] f)
    (step : ∀ earlier, ∀ rule ∈ rules, ∀ g, P earlier g → P (earlier ++ [rule]) (g.transform rule)) :
    P rules (f.transformAll rules) := by
  induction rules using List.reverseRecOn with
  | nil => exact start
  | append_singleton rules rule ih =>
      rw [transformAll, List.foldl_append, ← transformAll]
      exact step _ rule (List.mem_append_right _ (List.mem_singleton_self rule)) _
        (ih fun earlier x hx => step earlier x (List.mem_append_left _ hx))

theorem Simplifying.transformAll_eq_self (hf : f.Finished rules) : f.transformAll rules = f :=
  transformAll_induction (P := fun _ g => g = f) rfl fun _ _ hrule _ hg =>
    hg ▸ h.transform_eq_self (hg ▸ hf) hrule

/-- A node whose children are finished is finished after one round: the rules that have been applied
have nothing to add, and as soon as one offers something, all that it offers is finished. -/
theorem Simplifying.finished_transformAll (hf : FinishedBelow rules 1 f) :
    (f.transformAll rules).Finished rules := by
  have hround : (f.transformAll rules).Finished rules ∨
      (FinishedBelow rules 1 (f.transformAll rules) ∧
        ∀ rule ∈ rules, rule [] (f.transformAll rules) = none) := by
    refine transformAll_induction (P := fun earlier g => g.Finished rules ∨
      (FinishedBelow rules 1 g ∧ ∀ rule ∈ earlier, rule [] g = none))
      (Or.inr ⟨hf, fun _ hrule => absurd hrule List.not_mem_nil⟩) ?_
    rintro earlier rule hrule g (hg | ⟨hg, hearlier⟩)
    · rw [h.transform_eq_self hg hrule]
      exact Or.inl hg
    obtain ⟨x, hchildren, hshrunk, hcases⟩ := h.transform_cases hrule g
    obtain rfl : x = g := by
      refine hshrunk.resolve_right (Nat.not_lt_of_le (Nat.le_of_eq ?_))
      have hsame : g.children.map (transform rule) = g.children :=
        (List.map_congr_left fun c hc => h.transform_eq_self (hg c hc) hrule).trans
          (List.map_id' _)
      rw [size_eq_sum x, size_eq_sum g, hchildren, hsame]
    rcases hcases with ⟨hnone, heq⟩ | ⟨r, -, heq, hr⟩ <;> rw [heq]
    · rw [List.forall_mem_append]
      exact Or.inr ⟨hg, hearlier, fun y hy => List.mem_singleton.mp hy ▸ hnone⟩
    left
    cases hr with
    | leaf hleaf => exact h.finished_of_leaf hleaf
    | child hchild => exact hg r hchild
    | parent hsub hnone => exact finished_iff.mpr ⟨hnone, fun d hd => hg d (hsub hd)⟩
    | inverse hc hsame hnone =>
        obtain ⟨hown, hbelow⟩ := finished_iff.mp (hg _ hc)
        exact finished_iff.mpr
          ⟨fun y hy => hnone y hy (hown y hy), fun d hd => hbelow d (hsame ▸ hd)⟩
  rcases hround with hround | ⟨hbelow, hroot⟩
  · exact hround
  · exact finished_iff.mpr ⟨hroot, hbelow⟩

/-- Each round finishes one level more. Until a rule takes the node away, its children are what the
rules so far make of the children before; after that they are finished already. -/
theorem Simplifying.finishedBelow_transformAll (hf : FinishedBelow rules (n + 1) f) :
    FinishedBelow rules n (f.transformAll rules) := by
  induction n generalizing f with
  | zero => exact h.finished_transformAll hf
  | succ n ih =>
      have hround : FinishedBelow rules (n + 1) (f.transformAll rules) ∨
          ∀ d ∈ (f.transformAll rules).children, FinishedBelow rules (n + 1) d ∧
            ∃ c, FinishedBelow rules (n + 1) c ∧ d = c.transformAll rules := by
        refine transformAll_induction (P := fun earlier g => FinishedBelow rules (n + 1) g ∨
          ∀ d ∈ g.children, FinishedBelow rules (n + 1) d ∧
            ∃ c, FinishedBelow rules (n + 1) c ∧ d = c.transformAll earlier)
          (Or.inr fun d hd => ⟨hf d hd, d, hf d hd, rfl⟩) ?_
        rintro earlier rule hrule g (hg | hg)
        · exact Or.inl (h.finishedBelow_transform hrule hg)
        obtain ⟨x, hchildren, -, hcases⟩ := h.transform_cases hrule g
        have hx : ∀ d ∈ x.children, FinishedBelow rules (n + 1) d ∧
            ∃ c, FinishedBelow rules (n + 1) c ∧ d = c.transformAll (earlier ++ [rule]) := by
          intro d hd
          rw [hchildren] at hd
          obtain ⟨y, hy, rfl⟩ := List.mem_map.mp hd
          obtain ⟨hbelow, c, hc, rfl⟩ := hg y hy
          refine ⟨h.finishedBelow_transform hrule hbelow, c, hc, ?_⟩
          rw [transformAll, transformAll, List.foldl_append]
          rfl
        rcases hcases with ⟨-, heq⟩ | ⟨r, -, heq, hr⟩ <;> rw [heq]
        · exact Or.inr hx
        cases hr with
        | leaf hleaf => exact Or.inl (finishedBelow_of_children_eq_nil hleaf)
        | child hchild => exact Or.inl (hx r hchild).1
        | parent hsub => exact Or.inr fun d hd => hx d (hsub hd)
        | inverse hc hsame => exact Or.inl fun d hd => (hx _ hc).1 d (hsame ▸ hd)
      rcases hround with hround | hround
      · exact hround
      · intro d hd
        obtain ⟨-, c, hc, rfl⟩ := hround d hd
        exact ih hc

/-- A rule that leaves a formula alone has nothing to offer for any of its nodes. -/
theorem Simplifying.all_none_of_transform_eq (hrule : rule ∈ rules) (hf : f.transform rule = f) :
    f.All fun g => rule [] g = none := by
  induction f using induction_children with
  | step f ih =>
      obtain ⟨g, hchildren, hshrunk, ⟨hnone, heq⟩ | ⟨r, hr, heq, -⟩⟩ := h.transform_cases hrule f
      · obtain rfl : f = g := hf.symm.trans heq
        have hsame : f.children.map (transform rule) = f.children.map id :=
          hchildren.symm.trans (List.map_id _).symm
        exact all_iff.mpr ⟨hnone, fun c hc => ih c hc (List.map_inj_left.mp hsame c hc)⟩
      · have hlt := Nat.lt_of_lt_of_le (h.shrinks rule hrule [] g r hr) hshrunk.size_le
        rw [← heq, hf] at hlt
        exact absurd hlt (Nat.lt_irrefl _)

/-- Formulas that a round leaves alone are finished, and no others are. -/
theorem Simplifying.transformAll_eq_self_iff : f.transformAll rules = f ↔ f.Finished rules := by
  refine ⟨fun hf => ?_, h.transformAll_eq_self⟩
  have hround : (∀ rule ∈ rules, f.transform rule = f) ∧ f.transformAll rules = f ∨
      (f.transformAll rules).size < f.size := by
    refine transformAll_induction (P := fun earlier g =>
      (∀ rule ∈ earlier, f.transform rule = f) ∧ g = f ∨ g.size < f.size)
      (Or.inl ⟨fun _ hrule => absurd hrule List.not_mem_nil, rfl⟩) ?_
    rintro earlier rule hrule g hg
    have hshrunk (g : Formula) := shrunk_transform (h.shrinks rule hrule) g
    rcases hg with ⟨hearlier, rfl⟩ | hg
    · rcases hshrunk g with heq | hlt
      · rw [List.forall_mem_append]
        exact Or.inl ⟨⟨hearlier, fun x hx => List.mem_singleton.mp hx ▸ heq⟩, heq⟩
      · exact Or.inr hlt
    · exact Or.inr (Nat.lt_of_le_of_lt (hshrunk g).size_le hg)
  rw [hf] at hround
  obtain ⟨hrules, -⟩ := hround.resolve_right (Nat.lt_irrefl _)
  exact fun g hg rule hrule => h.all_none_of_transform_eq hrule (hrules rule hrule) g hg

/-! ### All rounds -/

omit h in
/-- Simplifying goes on for all rounds: where it stops, a further one changes nothing. -/
theorem settle_eq_iterate (hshrinks : ∀ rule ∈ rules, rule.Shrinks) (n : Nat) (f : Formula) :
    settle rules n f = (transformAll rules)^[n] f := by
  induction n generalizing f with
  | zero => rfl
  | succ n ih =>
      unfold settle
      dsimp only
      split
      next hsame =>
        have hfixed := (shrunk_transformAll hshrinks f).beq_iff.mp hsame
        rw [hfixed]
        exact (Function.iterate_fixed hfixed (n + 1)).symm
      next => rw [ih, Function.iterate_succ_apply]

theorem Simplifying.finished_settle (hf : f.height ≤ n) :
    (settle rules n f).Finished rules := by
  have hrounds := h.finishedBelow_of_height hf
  rw [settle_eq_iterate h.shrinks]
  clear hf
  induction n generalizing f with
  | zero => exact hrounds
  | succ n ih => exact ih (h.finishedBelow_transformAll hrounds)

/-- Settling leaves a formula alone if a single round does, and else it makes it smaller. -/
theorem Simplifying.settle_beq_iff (hn : 0 < n) :
    (settle rules n f == f) = true ↔ f.Finished rules := by
  rw [(shrunk_settle h.shrinks n f).beq_iff, ← h.transformAll_eq_self_iff,
    settle_eq_iterate h.shrinks]
  constructor
  · intro hf
    obtain ⟨m, rfl⟩ := Nat.exists_eq_add_of_lt hn
    rw [Nat.zero_add, Function.iterate_succ_apply] at hf
    have hrounds : Shrunk (f.transformAll rules) f := by
      have hshrunk := shrunk_settle h.shrinks m (f.transformAll rules)
      rwa [settle_eq_iterate h.shrinks, hf] at hshrunk
    refine (shrunk_transformAll h.shrinks f).resolve_right ?_
    exact Nat.not_lt_of_le hrounds.size_le
  · exact fun hf => Function.iterate_fixed hf n

end Simplifying

end Formula

/-! ## The rules of simplification -/

namespace Simplify

open Formula

variable {dialect : Dialects} {f r e : Formula} {bs : List (Branch Formula)} {b : Branch Formula}
  {v : Literal}

theorem descends_of_folds {rule : Rule} {rules : List Rule} (h : Folds rule)
    (hr : rule [] f = some r) : Descends rules f r := by
  obtain ⟨⟨v, rfl⟩, -⟩ := h [] f r hr
  exact .leaf rfl

/-! ### Conditionals -/

/-- Only one rule is about nodes that are no operators and, if they are calls, conditionals. -/
theorem none_of_not_binary (hbinary : ∀ op x y, f.kind ≠ .binary op x y)
    (hcall : ∀ c, f.kind = .call c → c.name.toLower ∈ conditionalNames)
    (hconditional : conditional [] f = none) : ∀ rule ∈ filterRules dialect, rule [] f = none := by
  have hoperators : ∀ rule ∈ [arithmetic, comparison, connective, zeroOne], rule [] f = none :=
    fun rule hrule => onOperators rule hrule [] f hbinary
  simp only [List.forall_mem_cons, List.not_mem_nil, false_imp_iff, implies_true,
    and_true] at hoperators
  obtain ⟨harithmetic, hcomparison, hconnective, hzeroOne⟩ := hoperators
  have hcalls : doubleAggregation [] f = none ∧ test dialect [] f = none := by
    cases hk : f.kind with
    | call c =>
        have hname := hcall c hk
        exact ⟨doubleAggregation_conditional hk hname, test_conditional hk hname⟩
    | _ => simp only [doubleAggregation, test, call?, hk, Option.bind_eq_bind, Option.bind_none,
        and_self]
  simp only [filterRules, rules, List.forall_mem_cons]
  exact ⟨hzeroOne, harithmetic, hcalls.1, hcomparison, hconnective, hcalls.2, hconditional,
    fun _ h => absurd h List.not_mem_nil⟩

theorem none_of_conditional (hf : f.reading = .conditional bs e)
    (htests : ∀ b ∈ bs, b.test.literal? = none) :
    ∀ rule ∈ filterRules dialect, rule [] f = none := by
  refine none_of_not_binary (fun op x y hk => ?_) (fun c hk => ?_) ?_
  · rw [reading_of_kind hk] at hf
    exact nomatch hf
  · rcases kind_of_conditional hf with ⟨c', hk', hname, -⟩ | hk'
    · obtain rfl := Kind.call.inj (hk.symm.trans hk')
      rw [hname]
      decide
    · exact nomatch hk.symm.trans hk'
  · rw [conditional_of_reading hf, rebuilt_eq_none, pruneIf_eq, length_pruneBy_eq]
    exact fun b hb => isTrue?_eq_none.mpr (htests b hb)

theorem none_of_choice {subject : Formula} (hf : f.reading = .choice subject bs e)
    (htests : ∀ b ∈ bs, b.test.literal? = none) :
    ∀ rule ∈ filterRules dialect, rule [] f = none := by
  refine none_of_not_binary (fun op x y hk => ?_) (fun c hk => ?_) ?_
  · rw [reading_of_kind hk] at hf
    exact nomatch hf
  · rcases kind_of_choice hf with ⟨c', hk', hname, -⟩ | hk'
    · obtain rfl := Kind.call.inj (hk.symm.trans hk')
      rw [hname]
      decide
    · exact nomatch hk.symm.trans hk'
  · rw [conditional_of_choice hf, Option.bind_eq_none_iff]
    intro v _
    rw [rebuilt_eq_none, pruneCase_eq, length_pruneBy_eq]
    exact fun b hb => isSubject?_eq_none.mpr (htests b hb)

theorem descends_conditional (hr : conditional [] f = some r) :
    Descends (filterRules dialect) f r := by
  rcases conditional_child_or_sublist hr with hchild | ⟨hbuilt, hsub, -⟩
  · exact .child hchild
  refine .parent hsub.subset ?_
  rcases hbuilt with ⟨bs, e, hf, rfl⟩ | ⟨subject, v, bs, e, hf, rfl⟩
  · exact none_of_conditional (reading_withBranches_conditional hf _ _)
      fun b hb => isTrue?_eq_none.mp (known_of_mem_pruneBy hb)
  · exact none_of_choice (reading_withBranches_choice hf _ _)
      fun b hb => isSubject?_eq_none.mp (known_of_mem_pruneBy hb)

/-! ### Comparisons of truth values -/

theorem comparison_eq_none {op : String} {x y : Formula} (hk : f.kind = .binary op x y) :
    comparison [] f = none ↔ ∀ nullSafe v w,
      (equalityOperators.lookup op).map Prod.snd = some nullSafe → x.literal? = some v →
        y.literal? = some w → literalsEqual? nullSafe v w = none := by
  unfold comparison
  rw [hk]
  simp only [Option.bind_eq_bind, Option.bind_eq_none_iff, reduceCtorEq, imp_false]
  constructor
  · intro h nullSafe v w hop hv hw
    obtain ⟨p, hp, rfl⟩ := Option.map_eq_some_iff.mp hop
    exact Option.eq_none_iff_forall_ne_some.mpr (h p hp v hv w hw)
  · intro h p hp v hv w hw
    exact Option.eq_none_iff_forall_ne_some.mp (h p.2 v w (by rw [hp]; rfl) hv hw)

/-- What no rule finds in a comparison, none finds in its inverse. -/
theorem none_of_inverse {op op' : String} {x y : Formula} (hk : f.kind = .binary op x y)
    (hop : inversions.lookup op = some op') : ∀ rule ∈ filterRules dialect, rule [] f = none →
      rule [] (Formula.binary op' x y) = none := by
  have hk' : (Formula.binary op' x y).kind = .binary op' x y := rfl
  have hmem := mem_of_lookup hop
  simp only [filterRules, rules, List.forall_mem_cons]
  refine ⟨?_, ?_, fun _ => rfl, ?_, ?_, fun _ => rfl, fun _ => rfl,
    fun _ h => absurd h List.not_mem_nil⟩
  · have hequality : ∀ p ∈ inversions, p.1 ≠ "==" ∧ p.1 ≠ "!=" → p.2 ≠ "==" ∧ p.2 ≠ "!=" := by
      decide
    rw [zeroOne_eq_none hk, zeroOne_eq_none hk']
    exact Or.imp_left (hequality _ hmem)
  · intro _
    have hmath : ∀ p ∈ inversions, p.2 ∉ Function.mathNames := by decide
    rw [← Option.not_isSome_iff_eq_none, Option.isSome_iff_exists]
    rintro ⟨r, hr⟩
    obtain ⟨_, -, hr⟩ := Option.bind_eq_some_iff.mp hr
    obtain ⟨_, -, hr⟩ := Option.bind_eq_some_iff.mp hr
    obtain ⟨v, hv, -⟩ := Option.bind_eq_some_iff.mp hr
    exact hmath _ hmem (math?_eq_some hv).1
  · have hsame : ∀ p ∈ inversions, (equalityOperators.lookup p.2).map Prod.snd =
        (equalityOperators.lookup p.1).map Prod.snd := by decide
    rw [comparison_eq_none hk, comparison_eq_none hk', hsame _ hmem]
    exact id
  · intro _
    have hconnective : ∀ p ∈ inversions, p.2 ≠ "and" ∧ p.2 ≠ "or" := by decide
    exact (connective_eq_none hk').mpr (Or.inr (hconnective _ hmem))

theorem descends_inverted {c : Formula} (hc : c ∈ f.children) :
    Descends (filterRules dialect) f (inverted c) := by
  rcases inverted_cases c with ⟨op, op', x, y, hk, hop, heq⟩ | heq <;> rw [heq]
  · refine .inverse hc ?_ (none_of_inverse hk hop)
    rw [children, children, hk]
    rfl
  · have hk : (unary "not" c).kind = .unary "not" c := rfl
    refine .parent ?_ (none_of_not_binary (by simp [hk]) (by simp [hk]) rfl)
    exact fun x hx => List.mem_singleton.mp hx ▸ hc

theorem descends_zeroOne (hr : zeroOne [] f = some r) : Descends (filterRules dialect) f r := by
  obtain ⟨op, x, y, negated, hk, -, hchosen⟩ := zeroOne_cases hr
  have hx : x ∈ f.children := mem_children_of_binary hk List.mem_cons_self
  have hy : y ∈ f.children := mem_children_of_binary hk (by simp)
  rcases hchosen with ⟨-, b, -, rfl⟩ | ⟨-, b, -, rfl⟩ <;> split
  · exact .child hx
  · exact descends_inverted hx
  · exact .child hy
  · exact descends_inverted hy

/-! ### All rules -/

theorem simplifying_filterRules (dialect : Dialects) : Simplifying (filterRules dialect) where
  shrinks := shrinks_filterRules dialect
  nodewise := filterRules_eq dialect
  descends := by
    simp only [filterRules, rules, List.forall_mem_cons]
    refine ⟨fun _ _ => descends_zeroOne, fun _ _ => descends_of_folds folds_arithmetic,
      fun _ _ hr => .child (child_of_doubleAggregation hr),
      fun _ _ => descends_of_folds folds_comparison, fun f r hr => ?_,
      fun _ _ => descends_of_folds (folds_test dialect), fun _ _ => descends_conditional,
      fun _ h => absurd h List.not_mem_nil⟩
    rcases connective_child_or_folded hr with hchild | ⟨⟨v, rfl⟩, -⟩
    · exact .child hchild
    · exact .leaf rfl

theorem simplifying_rules (dialect : Dialects) : Simplifying (rules dialect) where
  shrinks := shrinks_rules dialect
  nodewise rule hrule := filterRules_eq dialect rule (List.mem_cons_of_mem _ hrule)
  descends rule hrule f r hr :=
    ((simplifying_filterRules dialect).descends rule (List.mem_cons_of_mem _ hrule) f r hr).mono
      (List.subset_cons_self _ _)

end Simplify

/-! ## Simplifying again -/

namespace Formula

open Simplify

/-- Simplifying again changes nothing exactly if no rule has anything to add, at any node. For a
formula that has no more levels below the top than there are rounds, none has. -/
theorem optimize_optimize (f : Formula) (dialect : Dialects) :
    ((((f.optimize dialect).optimize dialect == f.optimize dialect) = true ↔
        (f.optimize dialect).Finished (rules dialect)) ∧
      (f.height ≤ maxRounds → (f.optimize dialect).optimize dialect = f.optimize dialect)) ∧
    (((f.optimizeFilter dialect).optimizeFilter dialect == f.optimizeFilter dialect) = true ↔
        (f.optimizeFilter dialect).Finished (filterRules dialect)) ∧
      (f.height ≤ maxRounds →
        (f.optimizeFilter dialect).optimizeFilter dialect = f.optimizeFilter dialect) := by
  have hrounds : 0 < maxRounds := by decide
  have hagain {rules : List Rule} (h : Simplifying rules) :
      ((settle rules maxRounds (settle rules maxRounds f) == settle rules maxRounds f) = true ↔
        (settle rules maxRounds f).Finished rules) ∧
      (f.height ≤ maxRounds →
        settle rules maxRounds (settle rules maxRounds f) = settle rules maxRounds f) := by
    refine ⟨h.settle_beq_iff hrounds, fun hheight => ?_⟩
    refine (shrunk_settle h.shrinks maxRounds _).beq_iff.mp ((h.settle_beq_iff hrounds).mpr ?_)
    exact h.finished_settle hheight
  exact ⟨hagain (simplifying_rules dialect), hagain (simplifying_filterRules dialect)⟩

/-- A comparison of a conditional with one, whose condition is such a comparison again, and so on.
The innermost condition is given. -/
def nestedTest (t : Formula) : Nat → Formula
  | 0 => t
  | n + 1 => .binary "==" (.ifBlock [⟨nestedTest t n, .int 1⟩] (.int 0)) (.int 1)

/-- One equals one. -/
def truth : Formula := .binary "==" (.int 1) (.int 1)

theorem optimize_optimize_truth :
    (nestedTest truth 3).height ≤ maxRounds ∧
      ((nestedTest truth 3).optimize .dummy).optimize .dummy = (nestedTest truth 3).optimize .dummy :=
  have hheight : (nestedTest truth 3).height ≤ maxRounds := by decide
  ⟨hheight, (optimize_optimize (nestedTest truth 3) .dummy).1.2 hheight⟩

section NestedTest

variable {dialect : Dialects} {rule : Rule} {x t t' : Formula} {n : Nat}

theorem transform_int (hrule : rule ∈ filterRules dialect) (n : Int64) :
    (Formula.int n).transform rule = .int n := by
  have h := simplifying_filterRules dialect
  exact h.transform_eq_self (h.finished_of_leaf rfl) hrule

theorem transform_block (hrule : rule ∈ filterRules dialect) (t : Formula) :
    (Formula.ifBlock [⟨t, .int 1⟩] (.int 0)).transform rule =
      (rule [] (.ifBlock [⟨t.transform rule, .int 1⟩] (.int 0))).getD
        (.ifBlock [⟨t.transform rule, .int 1⟩] (.int 0)) := by
  have hchildren : (Formula.ifBlock [⟨t, .int 1⟩] (.int 0)).children.map (transform rule) =
      [t.transform rule, .int 1, .int 0] := by
    conv_rhs => rw [← transform_int hrule 1, ← transform_int hrule 0]
    rfl
  rw [(simplifying_filterRules dialect).transform_eq hrule, hchildren]
  rfl

theorem transform_test (hrule : rule ∈ filterRules dialect) (x : Formula) :
    (Formula.binary "==" x (.int 1)).transform rule =
      (rule [] (.binary "==" (x.transform rule) (.int 1))).getD
        (.binary "==" (x.transform rule) (.int 1)) := by
  have hchildren : (Formula.binary "==" x (.int 1)).children.map (transform rule) =
      [x.transform rule, .int 1] := by
    conv_rhs => rw [← transform_int hrule 1]
    rfl
  rw [(simplifying_filterRules dialect).transform_eq hrule, hchildren]
  rfl

/-- Most rules only look at the innermost condition. -/
theorem transform_nestedTest (hrule : rule ∈ filterRules dialect)
    (hblock : ∀ c, rule [] (.ifBlock [⟨c, .int 1⟩] (.int 0)) = none)
    (htest : ∀ c, rule [] (.binary "==" (.ifBlock [⟨c, .int 1⟩] (.int 0)) (.int 1)) = none)
    (ht : t.transform rule = t') (n : Nat) :
    (nestedTest t n).transform rule = nestedTest t' n := by
  induction n with
  | zero => exact ht
  | succ n ih =>
      rw [nestedTest, transform_test hrule, transform_block hrule, ih, hblock, Option.getD_none,
        htest]
      rfl

/-- The innermost conditional is taken away, and the comparison around it becomes the innermost
condition. -/
theorem transform_conditional_nestedTest (n : Nat) :
    (nestedTest (.bool true) (n + 1)).transform conditional = nestedTest truth n := by
  have hrule : conditional ∈ filterRules .dummy := by simp [filterRules, rules]
  have htrue : (Formula.bool true).transform conditional = .bool true :=
    (simplifying_rules .dummy).transform_eq_self
      ((simplifying_rules .dummy).finished_of_leaf rfl) (by simp [rules])
  induction n with
  | zero =>
      show (Formula.binary "==" (.ifBlock [⟨.bool true, .int 1⟩] (.int 0)) (.int 1)).transform
        conditional = truth
      rw [transform_test hrule, transform_block hrule, htrue]
      rfl
  | succ n ih =>
      rw [nestedTest, transform_test hrule, transform_block hrule, ih]
      cases n <;> rfl

/-- A round takes one conditional away. -/
theorem transformAll_nestedTest (dialect : Dialects) (n : Nat) :
    (nestedTest truth (n + 1)).transformAll (rules dialect) = nestedTest truth n ∧
      (nestedTest truth (n + 1)).transformAll (filterRules dialect) = nestedTest truth n := by
  have hquiet (rule : Rule) (hrule : rule ∈ filterRules dialect)
      (hblock : ∀ c, rule [] (.ifBlock [⟨c, .int 1⟩] (.int 0)) = none)
      (htest : ∀ c, rule [] (.binary "==" (.ifBlock [⟨c, .int 1⟩] (.int 0)) (.int 1)) = none)
      (htruth : rule [] truth = none) :
      (nestedTest truth (n + 1)).transform rule = nestedTest truth (n + 1) ∧
        (nestedTest (.bool true) (n + 1)).transform rule = nestedTest (.bool true) (n + 1) := by
    have h := simplifying_filterRules dialect
    refine ⟨transform_nestedTest hrule hblock htest ?_ _,
      transform_nestedTest hrule hblock htest ?_ _⟩
    · rw [truth, transform_test hrule, transform_int hrule, ← truth, htruth]
      rfl
    · exact h.transform_eq_self (h.finished_of_leaf rfl) hrule
  have hzeroOne := hquiet zeroOne (by simp [filterRules]) (fun _ => rfl) (fun _ => rfl) rfl
  have harithmetic := hquiet arithmetic (by simp [filterRules, rules]) (fun _ => rfl)
    (fun _ => rfl) rfl
  have hdouble := hquiet doubleAggregation (by simp [filterRules, rules]) (fun _ => rfl)
    (fun _ => rfl) rfl
  have hconnective := hquiet connective (by simp [filterRules, rules]) (fun _ => rfl)
    (fun _ => rfl) rfl
  have htest := hquiet (test dialect) (by simp [filterRules, rules]) (fun _ => rfl)
    (fun _ => rfl) rfl
  have hcomparison : (nestedTest truth (n + 1)).transform comparison =
      nestedTest (.bool true) (n + 1) := by
    have hrule : comparison ∈ filterRules dialect := by simp [filterRules, rules]
    refine transform_nestedTest hrule (fun _ => rfl) (fun _ => rfl) ?_ _
    rw [truth, transform_test hrule, transform_int hrule]
    rfl
  have hround : (nestedTest truth (n + 1)).transformAll (rules dialect) = nestedTest truth n := by
    simp only [transformAll, rules, List.foldl_cons, List.foldl_nil, harithmetic.1, hdouble.1,
      hcomparison, hconnective.2, htest.2, transform_conditional_nestedTest]
  refine ⟨hround, ?_⟩
  rw [filterRules, transformAll, List.foldl_cons, hzeroOne.1, ← transformAll, hround]

/-- Sixteen rounds are not enough for sixteen conditionals: the last of them leaves `1 = 1`. -/
theorem optimize_optimize_nested :
    (((nestedTest truth 16).optimize .dummy).optimize .dummy ==
        (nestedTest truth 16).optimize .dummy) = false ∧
      (((nestedTest truth 16).optimizeFilter .dummy).optimizeFilter .dummy ==
        (nestedTest truth 16).optimizeFilter .dummy) = false := by
  have hunfinished {rules : List Rule} (h : Simplifying rules) (hcomparison : comparison ∈ rules)
      (hround : ∀ n, (nestedTest truth (n + 1)).transformAll rules = nestedTest truth n) :
      (settle rules maxRounds (settle rules maxRounds (nestedTest truth 16)) ==
        settle rules maxRounds (nestedTest truth 16)) = false := by
    have hsettle (n : Nat) : settle rules n (nestedTest truth n) = truth := by
      rw [settle_eq_iterate h.shrinks]
      induction n with
      | zero => rfl
      | succ n ih => rw [Function.iterate_succ_apply, hround, ih]
    rw [show settle rules maxRounds (nestedTest truth 16) = truth from hsettle 16,
      ← Bool.not_eq_true, h.settle_beq_iff (by decide)]
    intro hfinished
    exact absurd ((finished_iff.mp hfinished).1 comparison hcomparison) (by decide)
  exact ⟨hunfinished (simplifying_rules .dummy) (by simp [rules])
      fun n => (transformAll_nestedTest .dummy n).1,
    hunfinished (simplifying_filterRules .dummy) (by simp [filterRules, rules])
      fun n => (transformAll_nestedTest .dummy n).2⟩

end NestedTest

end Formula

end FormulaSql
