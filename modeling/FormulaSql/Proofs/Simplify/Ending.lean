import FormulaSql.Proofs.Query.Compile
import FormulaSql.Proofs.Query.Rules
import FormulaSql.Proofs.Simplify.Shrinking

/-!
# Simplifying comes to an end by itself

The number of rounds is bounded, but no bound is needed for an end: a round that changes a formula
takes nodes away, so there are fewer such rounds than nodes. Without the bound the same formula
comes out as with any bound that leaves enough rounds.

* `Formula.Settles` is simplifying without a bound
* `Simplify.shrinks_and_settles`: each rule shrinks what it changes and brings in no field, so that
  simplifying ends
-/

namespace FormulaSql

namespace Formula

variable {f g : Formula} {rules : List Rule} {n : Nat}

/-- A rule that only offers the fields it finds brings in none. -/
theorem usedFieldNames_transform {rule : Rule} (hrule : ∀ S, Rule.Keeps S rule) (f : Formula) :
    (f.transform rule).usedFieldNames.subset f.usedFieldNames = true := by
  have hwithin : (f.transform rule).Within f.Mentions :=
    within_transform (hrule f.Mentions) fun _ hx => hx
  refine List.all_eq_true.mpr fun x hx => ?_
  rw [NameSet.contains_iff, mem_usedFieldNames_iff]
  exact hwithin x (mem_usedFieldNames_iff.mp hx)

/-! ## Without a bound -/

/-- Applying the rules until nothing changes takes so many rounds that change something, and then
one that does not, and gives `g`. -/
inductive Settles (rules : List Rule) : Nat → Formula → Formula → Prop where
  | done {f : Formula} (h : (f.transformAll rules == f) = true) :
      Settles rules 0 f (f.transformAll rules)
  | round {n : Nat} {f g : Formula} (h : (f.transformAll rules == f) = false)
      (rest : Settles rules n (f.transformAll rules) g) : Settles rules (n + 1) f g

/-- A bound does not show if there is a round left for finding out that nothing changes. -/
theorem Settles.settle_eq (h : Settles rules n f g) {rounds : Nat} (hrounds : n < rounds) :
    settle rules rounds f = g := by
  induction h generalizing rounds with
  | @done f h =>
      obtain ⟨rounds, rfl⟩ := Nat.exists_eq_succ_of_ne_zero (Nat.ne_of_gt hrounds)
      rw [settle, if_pos h]
  | @round n f g h _ ih =>
      obtain ⟨rounds, rfl⟩ :=
        Nat.exists_eq_succ_of_ne_zero (Nat.ne_of_gt (Nat.zero_lt_of_lt hrounds))
      rw [settle, if_neg (by simp [h])]
      exact ih (Nat.lt_of_succ_lt_succ hrounds)

section Shrinks

variable (hrules : ∀ rule ∈ rules, rule.Shrinks)

include hrules

/-- A round that changes a formula takes nodes away. -/
theorem size_transformAll_lt (h : (f.transformAll rules == f) = false) :
    (f.transformAll rules).size < f.size := by
  rcases shrunk_transformAll hrules f with heq | hlt
  · rw [heq, BEq.rfl] at h
    exact absurd h (by decide)
  · exact hlt

/-- Each of the rounds has taken a node at least, and a node is left. -/
theorem Settles.add_size_le (h : Settles rules n f g) : n + g.size ≤ f.size := by
  induction h with
  | @done f h => exact Nat.zero_add _ ▸ (shrunk_transformAll hrules f).size_le
  | @round n f g h _ ih =>
      have hlt := size_transformAll_lt hrules h
      omega

theorem exists_settles (f : Formula) : ∃ n g, Settles rules n f g := by
  induction hsize : f.size using Nat.strongRecOn generalizing f with
  | ind size ih =>
      cases h : f.transformAll rules == f with
      | true => exact ⟨0, _, .done h⟩
      | false =>
          have hlt := size_transformAll_lt hrules h
          obtain ⟨n, g, hg⟩ := ih _ (hsize ▸ hlt) (f.transformAll rules) rfl
          exact ⟨n + 1, g, .round h hg⟩

end Shrinks

end Formula

namespace Simplify

open Formula

/-- Going over a formula, each rule leaves it alone or takes nodes away, and it brings in no field.
So whichever of the rules are applied until nothing changes, this ends without a bound, after fewer
rounds with a change than there are nodes; with any bound above these it ends with the same. -/
theorem shrinks_and_settles (dialect : Dialects) (f : Formula) :
    (∀ rule ∈ filterRules dialect,
        ((f.transform rule == f) = true ∨ (f.transform rule).size < f.size) ∧
          (f.transform rule).usedFieldNames.subset f.usedFieldNames = true) ∧
      ∀ rules ⊆ filterRules dialect,
        (∃ n g, Settles rules n f g) ∧
          ∀ n g, Settles rules n f g →
            n < f.size ∧ ∀ rounds, n < rounds → settle rules rounds f = g := by
  refine ⟨fun rule hrule => ⟨?_, ?_⟩, fun rules hrules => ?_⟩
  · have hshrunk := shrunk_transform (shrinks_filterRules dialect rule hrule) f
    exact hshrunk.imp_left fun heq => hshrunk.beq_iff.mpr heq
  · exact usedFieldNames_transform (fun S => keeps_filterRules dialect rule hrule) f
  · have hshrinks : ∀ rule ∈ rules, rule.Shrinks :=
      fun rule hrule => shrinks_filterRules dialect rule (hrules hrule)
    refine ⟨exists_settles hshrinks f, fun n g hg => ⟨?_, fun rounds => hg.settle_eq⟩⟩
    have hle := hg.add_size_le hshrinks
    have hpos := size_pos g
    omega

/-- A comparison that is to be false. -/
def notAbove : Formula := .binary "==" (.bool false) (.binary ">" (.field "x") (.int 5))

theorem settles_notAbove :
    Settles (filterRules .dummy) 1 notAbove (.binary "<=" (.field "x") (.int 5)) :=
  .round (by decide) (.done (by decide))

theorem shrinks_and_settles_notAbove :
    zeroOne ∈ filterRules .dummy ∧
      ((notAbove.transform zeroOne == notAbove) = true ∨
        (notAbove.transform zeroOne).size < notAbove.size) ∧
      Settles (filterRules .dummy) 1 notAbove (.binary "<=" (.field "x") (.int 5)) ∧
      1 < notAbove.size ∧
      notAbove.optimizeFilter .dummy = .binary "<=" (.field "x") (.int 5) :=
  have hrule : zeroOne ∈ filterRules .dummy := List.mem_cons_self
  have h := shrinks_and_settles .dummy notAbove
  have hends := (h.2 (filterRules .dummy) (List.Subset.refl _)).2 _ _ settles_notAbove
  ⟨hrule, (h.1 zeroOne hrule).1, settles_notAbove, hends.1, hends.2 maxRounds (by decide)⟩

end Simplify

end FormulaSql
