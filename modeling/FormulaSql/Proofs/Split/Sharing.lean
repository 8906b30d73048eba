import FormulaSql.Proofs.Query.Compile
import FormulaSql.Proofs.Split.Columns
import FormulaSql.Proofs.Split.Joins
import Mathlib.Data.List.Forall2
import Mathlib.Data.List.Pairwise

/-!
# Forks that share a column

Agreement of signatures is an equivalence, so the groups of a round are its classes, and within a
group equal results share a column. Two forks are given one column exactly if their results are
equal and their signatures agree. A signature does not say how a fork shifts its filters: the whole
group follows the fork that it was made for.
-/

namespace FormulaSql

/-! ## Forks of equal formulas -/

namespace Formula

/-- Equal formulas have their outermost forks at the same paths. -/
theorem exists_outermostFork_of_same {f g : Formula} {p : Path} {q : Fork Formula}
    (h : f.same g = true) (hq : (p, q) ∈ f.outermostForks) :
    ∃ q', (p, q') ∈ g.outermostForks ∧ (q.lod == q'.lod) = true := by
  induction f using induction_children generalizing g p with
  | step f ih =>
      rcases mem_outermostForks_iff.mp hq with ⟨rfl, hfork⟩ | ⟨hnone, i, c, p', hc, rfl, hmem⟩
      · obtain ⟨q', hq', -, hlod⟩ := exists_fork?_of_same h hfork
        exact ⟨q', mem_outermostForks_iff.mpr (Or.inl ⟨rfl, hq'⟩), hlod⟩
      · obtain ⟨d, hd, hcd⟩ := exists_getElem?_of_forall₂ (forall₂_autonomous h) hc
        have hchild := mem_children_of_autonomous (List.mem_of_getElem? hc)
        obtain ⟨q', hq', hlod⟩ := ih c hchild hcd hmem
        have hnone' : g.fork? = none := by
          refine Option.eq_none_iff_forall_ne_some.mpr fun k hk => ?_
          obtain ⟨k', hk', -⟩ := exists_fork?_of_same (same_symm h) hk
          exact absurd (hnone.symm.trans hk') (by simp)
        exact ⟨q', mem_outermostForks_iff.mpr (Or.inr ⟨hnone', i, d, p', hd, rfl, hq'⟩), hlod⟩

end Formula

namespace Split

/-! ## Agreement is an equivalence -/

section SameMembers

variable {α : Type} [BEq α]

theorem sameMembers_iff {xs ys : List α} :
    sameMembers xs ys = true ↔
      (∀ x ∈ xs, ∃ y ∈ ys, (x == y) = true) ∧ ∀ y ∈ ys, ∃ x ∈ xs, (y == x) = true := by
  simp only [sameMembers, Bool.and_eq_true, List.all_eq_true, List.contains_iff_exists_mem_beq]

theorem sameMembers_symm {xs ys : List α} (h : sameMembers xs ys = true) :
    sameMembers ys xs = true := by
  rw [sameMembers_iff] at h ⊢
  exact h.symm

theorem sameMembers_trans [EquivBEq α] {xs ys zs : List α} (h : sameMembers xs ys = true)
    (h' : sameMembers ys zs = true) : sameMembers xs zs = true := by
  rw [sameMembers_iff] at h h' ⊢
  have hchain : ∀ {us vs ws : List α}, (∀ u ∈ us, ∃ v ∈ vs, (u == v) = true) →
      (∀ v ∈ vs, ∃ w ∈ ws, (v == w) = true) → ∀ u ∈ us, ∃ w ∈ ws, (u == w) = true := by
    intro us vs ws huv hvw u hu
    obtain ⟨v, hv, huv⟩ := huv u hu
    obtain ⟨w, hw, hvw⟩ := hvw v hv
    exact ⟨w, hw, BEq.trans huv hvw⟩
  exact ⟨hchain h.1 h'.1, hchain h'.2 h.2⟩

end SameMembers

theorem sameMembers_childLods {f g : Formula} (h : (f == g) = true) :
    sameMembers (childLods f) (childLods g) = true := by
  have hone : ∀ {f g : Formula}, (f == g) = true →
      ∀ l ∈ childLods f, ∃ l' ∈ childLods g, (l == l') = true := by
    intro f g h l hl
    obtain ⟨⟨p, q⟩, hq, rfl⟩ := List.mem_map.mp (mem_of_mem_eraseDups hl)
    obtain ⟨q', hq', hlod⟩ := Formula.exists_outermostFork_of_same h hq
    obtain ⟨l', hl', hsame⟩ := exists_beq_eraseDups
      (List.mem_map_of_mem (f := fun s : Path × Fork Formula => s.2.lod) hq')
    exact ⟨l', hl', BEq.trans hlod hsame⟩
  exact sameMembers_iff.mpr ⟨hone h, hone (BEq.symm h)⟩

namespace Signature

theorem agrees_iff {a b : Signature} :
    a.agrees b = true ↔ sameMembers a.dims b.dims = true ∧
      sameMembers a.childLods b.childLods = true ∧ a.joinType = b.joinType ∧
      a.laterFilters = b.laterFilters ∧ (a.joining == b.joining) = true := by
  simp only [agrees, Bool.and_eq_true, beq_iff_eq, and_assoc]

theorem agrees_symm {a b : Signature} (h : a.agrees b = true) : b.agrees a = true := by
  obtain ⟨hdims, hlods, htype, hlater, hjoining⟩ := agrees_iff.mp h
  exact agrees_iff.mpr ⟨sameMembers_symm hdims, sameMembers_symm hlods, htype.symm, hlater.symm,
    BEq.symm hjoining⟩

theorem agrees_trans {a b c : Signature} (h : a.agrees b = true) (h' : b.agrees c = true) :
    a.agrees c = true := by
  obtain ⟨hdims, hlods, htype, hlater, hjoining⟩ := agrees_iff.mp h
  obtain ⟨hdims', hlods', htype', hlater', hjoining'⟩ := agrees_iff.mp h'
  exact agrees_iff.mpr ⟨sameMembers_trans hdims hdims', sameMembers_trans hlods hlods',
    htype.trans htype', hlater.trans hlater', BEq.trans hjoining hjoining'⟩

end Signature

/-! ## Groups as classes -/

/-- A fork gets the column of an equal result, or the next one. -/
theorem addFork_cases (g : ForkGroup) (s : Site) (b : Names) :
    (∃ known ∈ g.columns, (known.1 == s.fork.result) = true ∧
      addFork g s b = ({ g with cuts := g.cuts ++ [s.cut known.2] }, b)) ∨
    ((∀ c ∈ g.columns, (c.1 == s.fork.result) = false) ∧
      addFork g s b =
        ({ g with
           columns := g.columns ++ [(s.fork.result, (freshColumn b).1)]
           cuts := g.cuts ++ [s.cut (freshColumn b).1] }, (freshColumn b).2)) := by
  cases hfind : g.columns.find? fun c => c.1 == s.fork.result with
  | some known =>
      refine Or.inl ⟨known, List.mem_of_find?_eq_some hfind, ?_, ?_⟩
      · simpa using List.find?_some hfind
      · simp only [addFork, hfind]
        rfl
  | none =>
      refine Or.inr ⟨fun c hc => by simpa using List.find?_eq_none.mp hfind c hc, ?_⟩
      simp only [addFork, hfind]
      rfl

/-- A fork is put into the one group that it agrees with, or into a new one at the end. -/
theorem placeFork_cases (q : Query) (s : Site) (sig : Signature) (gs : List ForkGroup) (b : Names) :
    (∃ before g after, gs = before ++ g :: after ∧ g.signature.agrees sig = true ∧
      placeFork q s sig gs b = (before ++ (addFork g s b).1 :: after, (addFork g s b).2)) ∨
    ((∀ g ∈ gs, g.signature.agrees sig = false) ∧
      placeFork q s sig gs b =
        (gs ++ [(addFork (newGroup q s sig b).1 s (newGroup q s sig b).2).1],
          (addFork (newGroup q s sig b).1 s (newGroup q s sig b).2).2)) := by
  induction gs with
  | nil => exact Or.inr ⟨fun g hg => absurd hg List.not_mem_nil, rfl⟩
  | cons g gs ih =>
      cases hagrees : g.signature.agrees sig with
      | true =>
          refine Or.inl ⟨[], g, gs, rfl, hagrees, ?_⟩
          rw [placeFork, if_pos hagrees]
          rfl
      | false =>
          have hstep : placeFork q s sig (g :: gs) b =
              (g :: (placeFork q s sig gs b).1, (placeFork q s sig gs b).2) := by
            rw [placeFork, if_neg (by simp [hagrees])]
            rfl
          rw [hstep]
          rcases ih with ⟨before, h, after, rfl, hh, heq⟩ | ⟨hnone, heq⟩
          · exact Or.inl ⟨g :: before, h, after, rfl, hh, by rw [heq]; rfl⟩
          · exact Or.inr ⟨List.forall_mem_cons.mpr ⟨hagrees, hnone⟩, by rw [heq]; rfl⟩

/-- The first of the forks that agrees with a signature. -/
def leader? (q : Query) (found : List Site) (sig : Signature) : Option Site :=
  found.find? fun t => (signatureOf q t).agrees sig

/-- A group as the forks `done` have left it, when the names from `a` to `b` were taken. It follows
the first of them that it agrees with, and gives each of its results one column. -/
structure Formed (q : Query) (done : List Site) (a b : Names) (g : ForkGroup) : Prop where
  leader : ∃ t, leader? q done g.signature = some t ∧ g.signature = signatureOf q t ∧
    g.shifts = t.fork.shifts
  column : ∀ c ∈ g.columns, FreshColumn a b c.2
  columns : g.columns.Pairwise fun c d => (c.1 == d.1) = false ∧ c.2 ≠ d.2
  cut : ∀ c ∈ g.cuts, ∃ s ∈ done, c = s.cut c.aliasName ∧
    g.signature.agrees (signatureOf q s) = true ∧
    ∃ r, (r, c.aliasName) ∈ g.columns ∧ (r == s.fork.result) = true

/-- Columns of a group are known by their results as well as by their names. -/
theorem Formed.column_eq {q : Query} {done : List Site} {a b : Names} {g : ForkGroup}
    {c d : Formula × String} (h : Formed q done a b g) (hc : c ∈ g.columns) (hd : d ∈ g.columns)
    (hcd : (c.1 == d.1) = true ∨ c.2 = d.2) : c = d := by
  have hsymm : Std.Symm fun c d : Formula × String => (c.1 == d.1) = false ∧ c.2 ≠ d.2 :=
    ⟨fun c d h => ⟨BEq.comm.trans h.1, h.2.symm⟩⟩
  by_contra hne
  obtain ⟨hresult, hname⟩ := h.columns.forall hc hd hne
  rcases hcd with hcd | hcd
  · exact absurd (hresult.symm.trans hcd) (by simp)
  · exact hname hcd

/-- The groups have neither forks nor columns in common. -/
def Apart (g h : ForkGroup) : Prop :=
  g.signature.agrees h.signature = false ∧ ∀ c ∈ g.columns, ∀ d ∈ h.columns, c.2 ≠ d.2

/-- The groups of the forks `done`. -/
structure Grouped (q : Query) (done : List Site) (a b : Names) (gs : List ForkGroup) : Prop where
  formed : ∀ g ∈ gs, Formed q done a b g
  apart : gs.Pairwise Apart
  covers : ∀ s ∈ done, ∃ g ∈ gs, g.signature.agrees (signatureOf q s) = true

theorem Apart.symm {g h : ForkGroup} (hgh : Apart g h) : Apart h g := by
  refine ⟨?_, fun c hc d hd => (hgh.2 d hd c hc).symm⟩
  rw [← Bool.not_eq_true]
  exact fun hagrees => absurd (hgh.1.symm.trans (Signature.agrees_symm hagrees)) (by simp)

instance : Std.Symm Apart := ⟨fun _ _ => Apart.symm⟩

theorem FreshColumn.ne {a b c : Names} {m n : String} (hab : a.Le b) (hm : FreshColumn a b m)
    (hn : FreshColumn b c n) : m ≠ n := by
  obtain ⟨k, -, hk, rfl⟩ := hm
  obtain ⟨l, hl, -, rfl⟩ := hn
  rw [hab.columnStem]
  intro heq
  have := numbered_injective heq
  omega

section Step

variable {q : Query} {done : List Site} {a b : Names} {s : Site}

theorem Formed.widen {c : Names} {g : ForkGroup} (hbc : b.Le c) (h : Formed q done a b g) :
    Formed q done a c g :=
  ⟨h.leader, fun d hd => (h.column d hd).widen (Names.Le.refl a) hbc, h.columns, h.cut⟩

/-- A group still follows the same fork when others come later. -/
theorem Formed.snoc {g : ForkGroup} (s : Site) (h : Formed q done a b g) :
    Formed q (done ++ [s]) a b g where
  leader := by
    obtain ⟨t, ht, hsig, hshifts⟩ := h.leader
    refine ⟨t, ?_, hsig, hshifts⟩
    rw [leader?] at ht ⊢
    rw [List.find?_append, ht, Option.some_or]
  column := h.column
  columns := h.columns
  cut d hd := by
    obtain ⟨t, ht, hcut⟩ := h.cut d hd
    exact ⟨t, List.mem_append_left _ ht, hcut⟩

/-- Adding a fork to its group leaves the signature, and every column but a new one. -/
theorem Formed.addFork {g : ForkGroup} (hs : s ∈ done) (hab : a.Le b) (h : Formed q done a b g)
    (hagrees : g.signature.agrees (signatureOf q s) = true) :
    b.Le (addFork g s b).2 ∧ Formed q done a (addFork g s b).2 (addFork g s b).1 ∧
      (addFork g s b).1.signature = g.signature ∧
      ∀ c ∈ (addFork g s b).1.columns, c ∈ g.columns ∨ FreshColumn b (addFork g s b).2 c.2 := by
  rcases addFork_cases g s b with ⟨known, hknown, hsame, heq⟩ | ⟨hnew, heq⟩
  · rw [heq]
    refine ⟨Names.Le.refl b, ⟨h.leader, h.column, h.columns, fun c hc => ?_⟩, rfl,
      fun c hc => Or.inl hc⟩
    rcases List.mem_append.mp hc with hc | hc
    · exact h.cut c hc
    · obtain rfl := List.mem_singleton.mp hc
      exact ⟨s, hs, rfl, hagrees, known.1, hknown, hsame⟩
  · obtain ⟨hle, hfresh⟩ := freshColumn_ensures b
    have hwide := h.widen hle
    rw [heq]
    refine ⟨hle, ⟨hwide.leader, fun c hc => ?_, ?_, fun c hc => ?_⟩, rfl, fun c hc => ?_⟩
    · rcases List.mem_append.mp hc with hc | hc
      · exact hwide.column c hc
      · obtain rfl := List.mem_singleton.mp hc
        exact hfresh.widen hab (Names.Le.refl _)
    · refine List.pairwise_append.mpr ⟨h.columns, List.pairwise_singleton _ _, ?_⟩
      intro c hc d hd
      obtain rfl := List.mem_singleton.mp hd
      exact ⟨hnew c hc, (h.column c hc).ne hab hfresh⟩
    · rcases List.mem_append.mp hc with hc | hc
      · obtain ⟨t, ht, hplace, hsig, r, hr, hsame⟩ := hwide.cut c hc
        exact ⟨t, ht, hplace, hsig, r, List.mem_append_left _ hr, hsame⟩
      · obtain rfl := List.mem_singleton.mp hc
        exact ⟨s, hs, rfl, hagrees, s.fork.result,
          List.mem_append_right _ (List.mem_singleton.mpr rfl), BEq.rfl⟩
    · rcases List.mem_append.mp hc with hc | hc
      · exact Or.inl hc
      · obtain rfl := List.mem_singleton.mp hc
        exact Or.inr hfresh

/-- A new group follows the fork that it is made for, if that agrees with none before it. -/
theorem formed_newGroup (hab : a.Le b)
    (hnone : ∀ t ∈ done, (signatureOf q t).agrees (signatureOf q s) = false) :
    b.Le (newGroup q s (signatureOf q s) b).2 ∧
      Formed q (done ++ [s]) a (newGroup q s (signatureOf q s) b).2
        (newGroup q s (signatureOf q s) b).1 ∧
      (newGroup q s (signatureOf q s) b).1.signature = signatureOf q s ∧
      (newGroup q s (signatureOf q s) b).1.columns = [] := by
  obtain ⟨hle, -, hsig⟩ := newGroup_spec (q := q) (List.mem_singleton.mpr (rfl : s = s)) hab
  refine ⟨hle, ⟨⟨s, ?_, hsig, rfl⟩, ?_, List.Pairwise.nil, ?_⟩, hsig, rfl⟩
  · rw [hsig, leader?, List.find?_append, List.find?_eq_none.mpr (by simpa using hnone)]
    simp [Signature.agrees_refl]
  · exact fun c hc => absurd hc List.not_mem_nil
  · exact fun c hc => absurd hc List.not_mem_nil

/-- A fork that agrees with a group joins it. -/
theorem Grouped.joined {before after : List ForkGroup} {g : ForkGroup} (hab : a.Le b)
    (h : Grouped q done a b (before ++ g :: after))
    (hagrees : g.signature.agrees (signatureOf q s) = true) :
    b.Le (addFork g s b).2 ∧
      Grouped q (done ++ [s]) a (addFork g s b).2 (before ++ (addFork g s b).1 :: after) := by
  have hs : s ∈ done ++ [s] := List.mem_append_right _ (List.mem_singleton.mpr rfl)
  obtain ⟨hle, hformed, hsig, hcolumns⟩ := ((h.formed g (by simp)).snoc s).addFork hs hab hagrees
  obtain ⟨hbefore, hafter, hcross⟩ := List.pairwise_append.mp h.apart
  obtain ⟨hhead, hafter⟩ := List.pairwise_cons.mp hafter
  have happart : ∀ x ∈ before ++ g :: after, Apart g x → Apart (addFork g s b).1 x := by
    intro x hx hgx
    refine ⟨hsig ▸ hgx.1, fun c hc d hd => ?_⟩
    rcases hcolumns c hc with hc | hc
    · exact hgx.2 c hc d hd
    · exact (((h.formed x hx).column d hd).ne hab hc).symm
  refine ⟨hle, ⟨fun x hx => ?_, ?_, fun t ht => ?_⟩⟩
  · simp only [List.mem_append, List.mem_cons] at hx
    rcases hx with hx | rfl | hx
    · exact ((h.formed x (by simp [hx])).snoc s).widen hle
    · exact hformed
    · exact ((h.formed x (by simp [hx])).snoc s).widen hle
  · refine List.pairwise_append.mpr ⟨hbefore, List.pairwise_cons.mpr ⟨fun x hx => ?_, hafter⟩, ?_⟩
    · exact happart x (by simp [hx]) (hhead x hx)
    · intro x hx y hy
      rcases List.mem_cons.mp hy with rfl | hy
      · exact (happart x (by simp [hx]) (hcross x hx g List.mem_cons_self).symm).symm
      · exact hcross x hx y (List.mem_cons_of_mem g hy)
  · rcases List.mem_append.mp ht with ht | ht
    · obtain ⟨x, hx, hxt⟩ := h.covers t ht
      simp only [List.mem_append, List.mem_cons] at hx
      rcases hx with hx | rfl | hx
      · exact ⟨x, by simp [hx], hxt⟩
      · exact ⟨_, by simp, hsig ▸ hxt⟩
      · exact ⟨x, by simp [hx], hxt⟩
    · obtain rfl := List.mem_singleton.mp ht
      exact ⟨_, by simp, hsig ▸ hagrees⟩

/-- A fork that agrees with no group gets one of its own. -/
theorem Grouped.extended {gs : List ForkGroup} (hab : a.Le b) (h : Grouped q done a b gs)
    (hnone : ∀ g ∈ gs, g.signature.agrees (signatureOf q s) = false) :
    b.Le (addFork (newGroup q s (signatureOf q s) b).1 s
        (newGroup q s (signatureOf q s) b).2).2 ∧
      Grouped q (done ++ [s]) a
        (addFork (newGroup q s (signatureOf q s) b).1 s (newGroup q s (signatureOf q s) b).2).2
        (gs ++ [(addFork (newGroup q s (signatureOf q s) b).1 s
          (newGroup q s (signatureOf q s) b).2).1]) := by
  have hs : s ∈ done ++ [s] := List.mem_append_right _ (List.mem_singleton.mpr rfl)
  have hdone : ∀ t ∈ done, (signatureOf q t).agrees (signatureOf q s) = false := by
    intro t ht
    obtain ⟨g, hg, hgt⟩ := h.covers t ht
    rw [← Bool.not_eq_true]
    intro hts
    exact absurd ((hnone g hg).symm.trans (Signature.agrees_trans hgt hts)) (by simp)
  obtain ⟨hle, hnew, hsig, hnil⟩ := formed_newGroup (a := a) hab hdone
  obtain ⟨hle', hformed, hsig', hcolumns⟩ :=
    hnew.addFork hs (hab.trans hle) (hsig ▸ Signature.agrees_refl _)
  refine ⟨hle.trans hle', ⟨fun x hx => ?_, ?_, fun t ht => ?_⟩⟩
  · rcases List.mem_append.mp hx with hx | hx
    · exact ((h.formed x hx).snoc s).widen (hle.trans hle')
    · exact List.mem_singleton.mp hx ▸ hformed
  · refine List.pairwise_append.mpr ⟨h.apart, List.pairwise_singleton _ _, fun x hx y hy => ?_⟩
    obtain rfl := List.mem_singleton.mp hy
    refine ⟨by rw [hsig', hsig]; exact hnone x hx, fun c hc d hd => ?_⟩
    have hfresh := (hcolumns d hd).resolve_left (by simp [hnil])
    exact (((h.formed x hx).column c hc).widen (Names.Le.refl a) hle).ne (hab.trans hle) hfresh
  · rcases List.mem_append.mp ht with ht | ht
    · obtain ⟨x, hx, hxt⟩ := h.covers t ht
      exact ⟨x, List.mem_append_left _ hx, hxt⟩
    · obtain rfl := List.mem_singleton.mp ht
      refine ⟨_, List.mem_append_right _ (List.mem_singleton.mpr rfl), ?_⟩
      rw [hsig', hsig]
      exact Signature.agrees_refl _

/-- Placing a fork keeps the groups apart. -/
theorem Grouped.placeFork {gs : List ForkGroup} (hab : a.Le b) (h : Grouped q done a b gs) :
    b.Le (placeFork q s (signatureOf q s) gs b).2 ∧
      Grouped q (done ++ [s]) a (placeFork q s (signatureOf q s) gs b).2
        (placeFork q s (signatureOf q s) gs b).1 := by
  rcases placeFork_cases q s (signatureOf q s) gs b with
    ⟨before, g, after, rfl, hagrees, heq⟩ | ⟨hnone, heq⟩
  · rw [heq]
    exact h.joined hab hagrees
  · rw [heq]
    exact h.extended hab hnone

end Step

/-- The groups of a round are the classes of the forks it takes. -/
theorem forkGroups_grouped (q : Query) (found : List Site) (a : Names) :
    Grouped q found a (forkGroups q found a).2 (forkGroups q found a).1 := by
  have hstart : Grouped q [] a a [] :=
    ⟨fun g hg => absurd hg List.not_mem_nil, List.Pairwise.nil,
      fun s hs => absurd hs List.not_mem_nil⟩
  have hstep : ∀ done, ∀ s ∈ found, ∀ a b gs, a.Le b → Grouped q done a b gs →
      b.Le (placeFork q s (signatureOf q s) gs b).2 ∧
        Grouped q (done ++ [s]) a (placeFork q s (signatureOf q s) gs b).2
          (placeFork q s (signatureOf q s) gs b).1 :=
    fun _ _ _ _ _ _ hab h => h.placeFork hab
  exact (Naming.ensures_foldlM hstep [] (Names.Le.refl a) hstart).2

/-! ## Columns of a plan -/

/-- The column that a plan gives to a fork. -/
def Plan.Gives (p : Plan) (s : Site) (n : String) : Prop :=
  s.cut n ∈ p.masks.flatMap Mask.cuts

/-- A plan gives a fork the column that its group has for it. -/
theorem gives_iff {q : Query} {a b : Names} {p : Plan} {s : Site} {n : String}
    (hplan : plan q a = (some p, b)) :
    p.Gives s n ↔ ∃ g ∈ (forkGroups q (taken q) a).1, s.cut n ∈ g.cuts := by
  obtain ⟨based, rfl, rfl, -⟩ := plan_eq_some hplan
  obtain ⟨hle, hmasks, -, -⟩ := forkMasks_spec q a
  obtain ⟨-, -, hcuts⟩ := withBase_spec hle hmasks
  obtain ⟨-, huncut, -⟩ := uncutCuts_ensures q ((forkMasks q a).1.flatMap Mask.cuts)
    (forkMasks q a).2
  have hnot : s.cut n ∉ (uncutCuts q ((forkMasks q a).1.flatMap Mask.cuts) (forkMasks q a).2).1 :=
    fun hmem => absurd (huncut _ hmem).2.1 (by simp [Site.cut])
  rw [Plan.Gives, completeBase_cuts, mergeWindows_cuts, hcuts, or_iff_left hnot, cuts_forkMasks,
    List.mem_flatMap]

section Shared

variable {q : Query} {a b : Names} {p : Plan} {s t : Site}

theorem column_eq_iff {n k : String} (hplan : plan q a = (some p, b)) (hs : s ∈ taken q)
    (ht : t ∈ taken q) (hn : p.Gives s n) (hk : p.Gives t k) :
    n = k ↔ (s.fork.result == t.fork.result) = true ∧
      (signatureOf q s).agrees (signatureOf q t) = true := by
  have hgrouped := forkGroups_grouped q (taken q) a
  obtain ⟨g, hg, hcut⟩ := (gives_iff hplan).mp hn
  obtain ⟨h, hh, hcut'⟩ := (gives_iff hplan).mp hk
  obtain ⟨s', hs', hplace, hgs, r, hr, hrs⟩ := (hgrouped.formed g hg).cut _ hcut
  obtain ⟨t', ht', hplace', hht, r', hr', hrt⟩ := (hgrouped.formed h hh).cut _ hcut'
  obtain rfl := eq_of_cut_eq (mem_sites_of_taken hs) (mem_sites_of_taken hs') hplace
  obtain rfl := eq_of_cut_eq (mem_sites_of_taken ht) (mem_sites_of_taken ht') hplace'
  have hr : (r, n) ∈ g.columns := hr
  have hr' : (r', k) ∈ h.columns := hr'
  constructor
  · rintro rfl
    obtain rfl : g = h := by
      by_contra hne
      exact (hgrouped.apart.forall hg hh hne).2 _ hr _ hr' rfl
    obtain ⟨rfl, -⟩ := Prod.mk.inj ((hgrouped.formed g hg).column_eq hr hr' (Or.inr rfl))
    exact ⟨BEq.trans (BEq.symm hrs) hrt, Signature.agrees_trans (Signature.agrees_symm hgs) hht⟩
  · rintro ⟨hresult, hagrees⟩
    obtain rfl : g = h := by
      by_contra hne
      have hgh := Signature.agrees_trans (Signature.agrees_trans hgs hagrees)
        (Signature.agrees_symm hht)
      exact absurd ((hgrouped.apart.forall hg hh hne).1.symm.trans hgh) (by simp)
    have hsame : (r == r') = true := BEq.trans (BEq.trans hrs hresult) (BEq.symm hrt)
    exact (Prod.mk.inj ((hgrouped.formed g hg).column_eq hr hr' (Or.inl hsame))).2

/-- Every fork that a round takes is given one column. -/
theorem exists_column (hplan : plan q a = (some p, b)) (hs : s ∈ taken q) :
    ∃ n, ∀ k, p.Gives s k ↔ k = n := by
  obtain ⟨-, hplanned⟩ := plan_spec hplan
  obtain ⟨forks, hcuts⟩ := hplanned.cuts
  obtain ⟨n, hn⟩ := hcuts.site s hs
  have hgives : p.Gives s n := hcuts.fork_mem _ hn
  refine ⟨n, fun k => ⟨fun hk => ?_, fun hk => hk ▸ hgives⟩⟩
  exact (column_eq_iff hplan hs hs hk hgives).mpr ⟨BEq.rfl, Signature.agrees_refl _⟩

/-- Two forks that a round takes get the same column exactly if their results are equal, they have
the same dimensions, join type and later filters, and they are joined on the same conditions; forks
without dimensions are all joined on a constant. How they shift their filters does not count. -/
theorem forks_share_column_iff (hplan : plan q a = (some p, b)) (hs : s ∈ taken q)
    (ht : t ∈ taken q) :
    ∃ n k, (∀ x, p.Gives s x ↔ x = n) ∧ (∀ x, p.Gives t x ↔ x = k) ∧
      (n = k ↔ (s.fork.result == t.fork.result) = true ∧
        sameMembers (signatureOf q s).dims (signatureOf q t).dims = true ∧
        s.fork.joinType = t.fork.joinType ∧ s.laterFilters = t.laterFilters ∧
        ((signatureOf q s).joining == (signatureOf q t).joining) = true) ∧
      (forkDims q s.fork.lod ≠ [] → forkDims q t.fork.lod ≠ [] → n = k →
        sameMembers (forkDims q s.fork.lod) (forkDims q t.fork.lod) = true ∧
        (s.fork.joining == t.fork.joining) = true) := by
  obtain ⟨n, hn⟩ := exists_column hplan hs
  obtain ⟨k, hk⟩ := exists_column hplan ht
  have hiff : n = k ↔ (s.fork.result == t.fork.result) = true ∧
      sameMembers (signatureOf q s).dims (signatureOf q t).dims = true ∧
      s.fork.joinType = t.fork.joinType ∧ s.laterFilters = t.laterFilters ∧
      ((signatureOf q s).joining == (signatureOf q t).joining) = true := by
    rw [column_eq_iff hplan hs ht ((hn n).mpr rfl) ((hk k).mpr rfl), Signature.agrees_iff]
    refine and_congr_right fun hresult => and_congr_right fun _ => ?_
    exact and_iff_right (sameMembers_childLods hresult)
  refine ⟨n, k, hn, hk, hiff, fun hsd htd hnk => ?_⟩
  obtain ⟨-, hdims, -, -, hjoining⟩ := hiff.mp hnk
  rw [joining_signatureOf hsd, joining_signatureOf htd] at hjoining
  exact ⟨by simpa [signatureOf, hsd, htd] using hdims, hjoining⟩

end Shared

/-! ## Examples -/

/-- Whether a city has made only a part of all sales, and there are any. -/
def onlyPart : QuerySpec :=
  let total := Formula.callWith "sum" [.field "sales"] (.fixed []) NameSet.empty
  figureBy "city" (.binary "and" (.binary "<" sumOfSales total) (.binary ">" total (.int 0)))

theorem forks_share_column_onlyPart :
    ∃ q p b s t n, onlyPart.compile orders .default = .ok q ∧
      plan q .start = (some p, b) ∧ s ∈ taken q ∧ t ∈ taken q ∧ s.path ≠ t.path ∧
      p.Gives s n ∧ p.Gives t n := by
  have hok : ((onlyPart.compile orders .default).toOption.any fun q =>
      (plan q .start).1.isSome && (taken q).any fun s => (taken q).any fun t =>
        decide (s.path ≠ t.path) && (s.fork.result == t.fork.result &&
          (sameMembers (signatureOf q s).dims (signatureOf q t).dims &&
          (s.fork.joinType == t.fork.joinType && (s.laterFilters == t.laterFilters &&
            (signatureOf q s).joining == (signatureOf q t).joining))))) = true := by
    decide +kernel
  obtain ⟨q, hq, htest⟩ := exists_eq_ok hok
  simp only [Bool.and_eq_true, List.any_eq_true, decide_eq_true_eq, beq_iff_eq] at htest
  obtain ⟨hsome, s, hs, t, ht, hpath, halike⟩ := htest
  obtain ⟨p, hp⟩ := Option.isSome_iff_exists.mp hsome
  have hplan : plan q .start = (some p, (plan q .start).2) := Prod.ext hp rfl
  obtain ⟨n, k, hn, hk, hiff, -⟩ := forks_share_column_iff hplan hs ht
  exact ⟨q, p, _, s, t, n, hq, hplan, hs, ht, hpath, (hn n).mpr rfl, (hk n).mpr (hiff.mpr halike)⟩

/-- The largest change of sales from the week before to the day before a date, over all rows. -/
def weekChange : QuerySpec :=
  let ago (days : Int64) :=
    Formula.call "ago" [sumOfSales, .field "date", .lit (.string "day"), .int days]
  { QuerySpec.empty with
    select := [⟨.call "max" [.binary "-" (ago 1) (ago 7)], none, none⟩]
    filters := [⟨.binary "==" (.field "date") (.date 2024 1 8), some "date", none⟩] }

/-- The round gives one column to two forks that shift filters differently. -/
def mixesShifts (q : Query) (a : Names) : Bool :=
  (plan q a).1.any fun p => (taken q).any fun s => (taken q).any fun t =>
    s.fork.shifts.flatMap FilterShift.parts != t.fork.shifts.flatMap FilterShift.parts &&
      (p.masks.flatMap Mask.cuts).any fun c =>
        c == s.cut c.aliasName && (p.masks.flatMap Mask.cuts).contains (t.cut c.aliasName)

theorem exists_of_mixesShifts {q : Query} {a : Names} (h : mixesShifts q a = true) :
    ∃ p b s t n, plan q a = (some p, b) ∧ s ∈ taken q ∧ t ∈ taken q ∧ p.Gives s n ∧ p.Gives t n ∧
      (s.fork.shifts.flatMap FilterShift.parts == t.fork.shifts.flatMap FilterShift.parts) =
        false := by
  simp only [mixesShifts, Option.any_eq_true, List.any_eq_true, Bool.and_eq_true, bne,
    Bool.not_eq_true', beq_iff_eq, List.contains_iff_mem] at h
  obtain ⟨p, hp, s, hs, t, ht, hshifts, c, hc, hsc, htc⟩ := h
  exact ⟨p, (plan q a).2, s, t, c.aliasName, Prod.ext hp rfl, hs, ht, hsc ▸ hc, htc, hshifts⟩

/-- Without dimensions, the sales of the day before and of the week before share a column. -/
theorem forks_share_column_weekChange :
    ∃ q p b qs x, weekChange.compile orders { Settings.default with allowEmptyDimensions := true } =
        .ok q ∧ plan q .start = (some p, b) ∧ p.queries q = .ok qs ∧ x ∈ qs ∧
      ∃ p' b' s t n, plan x b = (some p', b') ∧ s ∈ taken x ∧ t ∈ taken x ∧
        p'.Gives s n ∧ p'.Gives t n ∧
        (s.fork.shifts.flatMap FilterShift.parts == t.fork.shifts.flatMap FilterShift.parts) =
          false := by
  have hok : ((weekChange.compile orders
      { Settings.default with allowEmptyDimensions := true }).toOption.any fun q =>
      (plan q .start).1.any fun p => (p.queries q).toOption.any fun qs =>
        qs.any fun x => mixesShifts x (plan q .start).2) = true := by decide +kernel
  obtain ⟨q, hq, htest⟩ := exists_eq_ok hok
  rw [Option.any_eq_true] at htest
  obtain ⟨p, hp, htest⟩ := htest
  obtain ⟨qs, hqs, htest⟩ := exists_eq_ok htest
  obtain ⟨x, hx, hmixes⟩ := List.any_eq_true.mp htest
  exact ⟨q, p, _, qs, x, hq, Prod.ext hp rfl, hqs, hx, exists_of_mixesShifts hmixes⟩

end Split

end FormulaSql
