import FormulaSql.Proofs.Formula.Positions
import FormulaSql.Proofs.Query.Stages
import Mathlib.Order.Bounds.Basic

/-!
# Window calls in tagged parentheses

The rule on level tags counts on children that it has changed already, and looks at the nodes above
as they were at the start. Parentheses do not count in a chain of window calls, so the chains are
those of the formula at the start. In a formula without tags the rule therefore puts exactly the
window calls into parentheses, and the tag of each one can be read off that formula.

* `Formula.isGreatest_chainBelow` says what is counted: the longest chain of nearest calls
* `Formula.windowChain_offered`: parentheses leave the chains as they are
* `Formula.at?_offered_levelTags` follows a node to where it stands among the parentheses
* `Formula.transform_levelTags` is the result for a whole formula
-/

namespace FormulaSql

namespace Formula

/-! ## Chains of window calls -/

/-- The window call is a nearest one below the formula: neither a window call nor a fork stands
between the two. -/
inductive NearestWindow : Formula → Formula → Prop
  | child {f w : Formula} (hw : w ∈ f.children) (hwindow : w.isWindowCall = true) :
      NearestWindow f w
  | through {f c w : Formula} (hc : c ∈ f.children) (hwindow : c.isWindowCall = false)
      (hfork : c.isFork = false) (h : NearestWindow c w) : NearestWindow f w

/-- Window calls before the filters `s`, one inside the other, the first a nearest one below the
formula and each other a nearest one below the one before it. -/
def IsWindowChain (s : NameSet) (f : Formula) (ws : List Formula) : Prop :=
  (f :: ws).IsChain NearestWindow ∧
    ∀ w ∈ ws, ∃ c, w.window? = some c ∧ c.beforeFilterBy = s

/-- What the step of `windowChain` finds below a node. -/
def chainBelow (s : NameSet) (f : Formula) : Nat := (f.children.map (·.windowChain s)).foldl max 0

section Chains

variable {s : NameSet} {f c w : Formula} {call : WindowCall Formula} {ws : List Formula}

theorem windowChain_eq (s : NameSet) (f : Formula) :
    f.windowChain s = match f.kind with
      | .window w => if w.beforeFilterBy == s then 1 + f.chainBelow s else 0
      | .fork _ => 0
      | _ => f.chainBelow s := by
  rw [windowChain, recur_eq, Kind.children_map]
  rfl

theorem windowChain_of_window (h : f.window? = some call) (hs : call.beforeFilterBy = s) :
    f.windowChain s = 1 + f.chainBelow s := by
  rw [windowChain_eq, kind_of_window? h]
  simp [hs]

theorem windowChain_of_plain (hwindow : f.isWindowCall = false) (hfork : f.isFork = false) :
    f.windowChain s = f.chainBelow s := by
  rw [windowChain_eq]
  rw [isWindowCall, window?] at hwindow
  rw [isFork, fork?] at hfork
  cases hk : f.kind with
  | window c => simp [hk] at hwindow
  | fork q => simp [hk] at hfork
  | _ => rfl

theorem windowChain_le_chainBelow (hc : c ∈ f.children) : c.windowChain s ≤ f.chainBelow s :=
  le_foldl_max (List.mem_map_of_mem hc)

/-- A nearest call makes a chain longer by one. -/
theorem NearestWindow.lt_chainBelow (h : NearestWindow f w) (hw : w.window? = some call)
    (hs : call.beforeFilterBy = s) : w.chainBelow s < f.chainBelow s := by
  induction h with
  | child hc _ =>
      have hle := windowChain_le_chainBelow (s := s) hc
      rw [windowChain_of_window hw hs] at hle
      omega
  | through hc hwindow hfork _ ih =>
      have hle := windowChain_le_chainBelow (s := s) hc
      rw [windowChain_of_plain hwindow hfork] at hle
      exact Nat.lt_of_lt_of_le (ih hw) hle

theorem IsWindowChain.length_le (h : IsWindowChain s f ws) : ws.length ≤ f.chainBelow s := by
  induction ws generalizing f with
  | nil => exact Nat.zero_le _
  | cons w ws ih =>
      obtain ⟨hchain, hall⟩ := h
      rw [List.forall_mem_cons] at hall
      obtain ⟨⟨c, hc, hs⟩, hall⟩ := hall
      rw [List.isChain_cons_cons] at hchain
      have hrest := ih ⟨hchain.2, hall⟩
      have hlt := hchain.1.lt_chainBelow hc hs
      rw [List.length_cons]
      omega

/-- Between a node and a nearest call there may be nodes that are passed over. -/
theorem IsWindowChain.above (hc : c ∈ f.children) (hwindow : c.isWindowCall = false)
    (hfork : c.isFork = false) (h : IsWindowChain s c ws) : IsWindowChain s f ws := by
  refine ⟨?_, h.2⟩
  cases ws with
  | nil => exact List.IsChain.singleton f
  | cons w ws =>
      obtain ⟨hnearest, hrest⟩ := List.isChain_cons_cons.mp h.1
      exact List.isChain_cons_cons.mpr ⟨.through hc hwindow hfork hnearest, hrest⟩

theorem exists_isWindowChain (s : NameSet) (f : Formula) :
    ∃ ws, IsWindowChain s f ws ∧ ws.length = f.chainBelow s := by
  induction f using induction_children with
  | step f ih =>
      by_cases hpos : 0 < f.chainBelow s
      · obtain ⟨c, hc, hlongest⟩ := List.mem_map.mp (foldl_max_mem hpos)
        replace hlongest : c.windowChain s = f.chainBelow s := hlongest
        obtain ⟨ws, hws, hlength⟩ := ih c hc
        cases hwindow : c.window? with
        | some call =>
            by_cases hs : call.beforeFilterBy = s
            · rw [windowChain_of_window hwindow hs] at hlongest
              have hnearest := NearestWindow.child hc (isWindowCall_of_window? hwindow)
              refine ⟨c :: ws, ⟨List.isChain_cons_cons.mpr ⟨hnearest, hws.1⟩, ?_⟩, ?_⟩
              · exact List.forall_mem_cons.mpr ⟨⟨call, hwindow, hs⟩, hws.2⟩
              · rw [List.length_cons, hlength, ← hlongest, Nat.add_comm]
            · rw [windowChain_eq, kind_of_window? hwindow] at hlongest
              simp only [beq_iff_eq, hs, if_false] at hlongest
              omega
        | none =>
            have hcall := not_isWindowCall_of_window? hwindow
            cases hfork : c.isFork with
            | false =>
                rw [windowChain_of_plain hcall hfork] at hlongest
                exact ⟨ws, hws.above hc hcall hfork, hlength.trans hlongest⟩
            | true =>
                obtain ⟨q, hq⟩ := Option.isSome_iff_exists.mp hfork
                rw [windowChain_eq, kind_of_fork? hq] at hlongest
                exact absurd hlongest (Nat.ne_of_lt hpos)
      · refine ⟨[], ⟨List.IsChain.singleton f, ?_⟩, ?_⟩
        · exact fun w hw => absurd hw List.not_mem_nil
        · exact (Nat.eq_zero_of_not_pos hpos).symm

/-- What is counted below a node is the length of the longest chain. -/
theorem isGreatest_chainBelow (s : NameSet) (f : Formula) :
    IsGreatest {n | ∃ ws, IsWindowChain s f ws ∧ ws.length = n} (f.chainBelow s) := by
  constructor
  · exact exists_isWindowChain s f
  · rintro n ⟨ws, hws, rfl⟩
    exact hws.length_le

end Chains

/-! ## What the rule makes of one node -/

/-- The formula without its tagged parentheses. -/
def withoutTags (f : Formula) : Formula :=
  f.recur fun f k =>
    match k, f.level with
    | .paren inner, some _ => inner
    | k, _ => .mk k f.notes

/-- The path of a node when there is a parenthesis around every window call on the way to it. -/
def throughTags (f : Formula) : Path → Path
  | [] => []
  | i :: p =>
    let rest :=
      match f.children[i]? with
      | some c => i :: c.throughTags p
      | none => i :: p
    if f.isWindowCall then 0 :: rest else rest

/-- The tag of the window call `c` that stands at the node `f`, below the nodes `above`: its own
filters, its place among the calls before the same filters, and the number of forks around it. -/
structure IsLevelTag (above : List Formula) (f : Formula) (c : WindowCall Formula)
    (tag : LevelTag) : Prop where
  filters : tag.filters = c.beforeFilterBy
  funcNesting : ∃ n : Nat,
    IsGreatest {n | ∃ ws, IsWindowChain c.beforeFilterBy f ws ∧ ws.length = n} n ∧
      tag.funcNesting = Int32.ofInt (Normalize.groupingOffset c.grouping - n)
  forkNesting :
    tag.forkNesting = Int32.ofInt (min (above.filter isFork).length Int32.maxValue.toInt)

section LevelTags

variable {s : NameSet} {above : List Formula} {f g w : Formula} {c : WindowCall Formula}
  {p : Path}

theorem isLevelTag_levelTagOf (above : List Formula) (f : Formula) (c : WindowCall Formula) :
    IsLevelTag above f c (Normalize.levelTagOf above f c) where
  filters := rfl
  funcNesting := by
    refine ⟨f.chainBelow c.beforeFilterBy, isGreatest_chainBelow _ f, ?_⟩
    rw [Normalize.levelTagOf, chainBelow]
  forkNesting := rfl

/-- Parentheses do not count in a chain. -/
theorem windowChain_paren (s : NameSet) (f : Formula) (notes : Notes) :
    (mk (.paren f) notes).windowChain s = f.windowChain s := by
  rw [windowChain_eq]
  show max 0 (f.windowChain s) = f.windowChain s
  exact Nat.max_eq_right (Nat.zero_le _)

theorem isWindowCall_rebuilt (rule : Rule) (above : List Formula) (f : Formula) :
    (f.rebuilt rule above).isWindowCall = f.isWindowCall :=
  isWindowCall_eq_of_outline (outline_rebuilt rule above f)

theorem offered_levelTags_of_plain (h : f.isWindowCall = false) :
    f.offered Normalize.levelTags above = f.rebuilt Normalize.levelTags above := by
  rw [← isWindowCall_rebuilt Normalize.levelTags above f, isWindowCall,
    Option.isSome_eq_false_iff, Option.isNone_iff_eq_none] at h
  rw [offered_eq alters_levelTags.renews, Normalize.levelTags, h]
  rfl

theorem windowChain_offered (s : NameSet) (above : List Formula) (f : Formula) :
    (f.offered Normalize.levelTags above).windowChain s = f.windowChain s := by
  induction f using induction_children generalizing above with
  | step f ih =>
      have hbelow : (f.rebuilt Normalize.levelTags above).chainBelow s = f.chainBelow s := by
        rw [chainBelow, children_rebuilt, List.map_map]
        exact congrArg (List.foldl max 0) (List.map_congr_left fun c hc => ih c hc _)
      have hrebuilt : (f.rebuilt Normalize.levelTags above).windowChain s = f.windowChain s := by
        rw [windowChain_eq, windowChain_eq s f, hbelow, rebuilt_eq, kind]
        cases f.kind <;> rfl
      rw [offered_eq alters_levelTags.renews]
      cases hr : Normalize.levelTags above (f.rebuilt Normalize.levelTags above) with
      | none => exact hrebuilt
      | some r =>
          obtain ⟨w, notes, -, rfl⟩ := Normalize.levelTags_cases hr
          exact (windowChain_paren s _ notes).trans hrebuilt

/-- The tag is the one that the call has with its children as they were. -/
theorem exists_window?_rebuilt (above : List Formula) (hw : f.window? = some c) :
    ∃ c', (f.rebuilt Normalize.levelTags above).window? = some c' ∧
      Normalize.levelTagOf above (f.rebuilt Normalize.levelTags above) c' =
        Normalize.levelTagOf above f c := by
  have hchains : ∀ s, ((f.rebuilt Normalize.levelTags above).children.map (·.windowChain s)) =
      f.children.map (·.windowChain s) := by
    intro s
    rw [children_rebuilt, List.map_map]
    exact List.map_congr_left fun d _ => windowChain_offered s _ d
  have hoffset {h : Formula → Formula} : Normalize.groupingOffset (c.grouping.map h) =
      Normalize.groupingOffset c.grouping := by
    cases c.grouping <;> rfl
  have hkind : (f.rebuilt Normalize.levelTags above).kind =
      (Kind.window c).map (offered Normalize.levelTags (above ++ [f])) := by
    rw [rebuilt_eq, ← kind_of_window? hw]
    rfl
  refine ⟨_, by rw [window?, hkind]; rfl, ?_⟩
  rw [Normalize.levelTagOf, Normalize.levelTagOf, hchains, hoffset]

theorem offered_levelTags_of_window (hclear : Normalize.isTagged above = false)
    (hw : f.window? = some c) :
    f.offered Normalize.levelTags above = mk (.paren (f.rebuilt Normalize.levelTags above))
      ⟨some (Normalize.levelTagOf above f c), none⟩ := by
  obtain ⟨c', hc', htag⟩ := exists_window?_rebuilt above hw
  rw [offered_eq alters_levelTags.renews, Normalize.levelTags, hc', Option.bind_eq_bind,
    Option.bind_some, hclear, htag]
  rfl

/-! ## A node and its path -/

/-- No node of the formula has a tag. -/
def Untagged (f : Formula) : Prop := f.All fun g => g.level = none

theorem Untagged.level (h : f.Untagged) : f.level = none := h f (self_mem_nodes f)

theorem Untagged.isTagged (h : f.Untagged) (above : List Formula) :
    Normalize.isTagged (above ++ [f]) = false := by
  rw [isTagged_concat, h.level]
  exact Bool.and_false _

theorem Untagged.isTagged_along (h : f.Untagged) (p : Path) :
    Normalize.isTagged (f.along p) = false := by
  rcases List.eq_nil_or_concat (f.along p) with hnil | ⟨above, a, hlast⟩
  · rw [hnil]
    rfl
  · have ha : a ∈ f.nodes := mem_nodes_of_along (p := p) (by simp [hlast])
    rw [hlast, List.concat_eq_append, isTagged_concat, h a ha]
    exact Bool.and_false _

theorem Untagged.of_child {d : Formula} (h : f.Untagged) (hd : d ∈ f.children) : d.Untagged :=
  All.of_child h hd

/-- A node is found inside of all parentheses that have been put around it and around the window
calls above it. -/
theorem at?_offered_levelTags (hf : f.Untagged) (hclear : Normalize.isTagged above = false)
    (p : Path) :
    (f.offered Normalize.levelTags above).at? (f.throughTags p) =
      (f.at? p).map (offered Normalize.levelTags (above ++ f.along p)) := by
  induction p generalizing f above with
  | nil => rw [along, List.append_nil]; rfl
  | cons i p ih =>
      have hrest : (f.rebuilt Normalize.levelTags above).at?
          (match f.children[i]? with
            | some c => i :: c.throughTags p
            | none => i :: p) =
          (f.at? (i :: p)).map (offered Normalize.levelTags (above ++ f.along (i :: p))) := by
        cases hc : f.children[i]? with
        | none => simp [at?, children_rebuilt, hc]
        | some d =>
            have hd := List.mem_of_getElem? hc
            have hbelow := ih (hf.of_child hd) (hf.isTagged above)
            rw [← List.append_cons, ← along_cons hc] at hbelow
            rw [at?, at?, children_rebuilt, List.getElem?_map, hc]
            exact hbelow
      rw [throughTags]
      cases hw : f.window? with
      | some c =>
          have hwindow := isWindowCall_of_window? hw
          rw [offered_levelTags_of_window hclear hw, hwindow, if_pos rfl]
          exact hrest
      | none =>
          have hwindow := not_isWindowCall_of_window? hw
          rw [offered_levelTags_of_plain hwindow, hwindow]
          exact hrest

theorem throughTags_injective (f : Formula) : Function.Injective f.throughTags := by
  intro p q h
  induction p generalizing f q with
  | nil =>
      cases q with
      | nil => rfl
      | cons j q => cases hc : f.children[j]? <;> cases hw : f.isWindowCall <;>
          simp [throughTags, hc, hw] at h
  | cons i p ih =>
      cases q with
      | nil => cases hc : f.children[i]? <;> cases hw : f.isWindowCall <;>
          simp [throughTags, hc, hw] at h
      | cons j q =>
          have hrest : (match f.children[i]? with
              | some c => i :: c.throughTags p
              | none => i :: p) =
              match f.children[j]? with
              | some c => j :: c.throughTags q
              | none => j :: q := by
            rw [throughTags, throughTags] at h
            split at h
            next => exact (List.cons.inj h).2
            next => exact h
          have hij : i = j := by
            have hhead := congrArg List.head? hrest
            split at hhead <;> split at hhead <;> exact Option.some.inj hhead
          subst hij
          split at hrest
          next c hc =>
            exact congrArg (i :: ·) (ih c (List.cons.inj hrest).2)
          next => exact hrest

/-- Every tag in the end belongs to a window call. -/
theorem exists_of_level_offered {q : Path} (hf : f.Untagged)
    (hclear : Normalize.isTagged above = false)
    (hg : (f.offered Normalize.levelTags above).at? q = some g) (hlevel : g.level.isSome = true) :
    ∃ p w, q = f.throughTags p ∧ f.at? p = some w ∧ w.isWindowCall = true := by
  induction f using induction_children generalizing above q with
  | step f ih =>
      have hrest : ∀ {q}, (f.rebuilt Normalize.levelTags above).at? q = some g →
          ∃ i c p w, f.children[i]? = some c ∧ q = i :: c.throughTags p ∧ c.at? p = some w ∧
            w.isWindowCall = true := by
        intro q hq
        cases q with
        | nil =>
            obtain rfl := Option.some.inj hq
            rw [rebuilt_eq] at hlevel
            rw [show (mk _ f.notes).level = f.level from rfl, hf.level] at hlevel
            exact absurd hlevel (by simp)
        | cons i q =>
            rw [at?, children_rebuilt, List.getElem?_map] at hq
            cases hc : f.children[i]? with
            | none => simp [hc] at hq
            | some c =>
                rw [hc] at hq
                have hmem := List.mem_of_getElem? hc
                obtain ⟨p, w, rfl, hw, hwindow⟩ :=
                  ih c hmem (hf.of_child hmem) (hf.isTagged above) hq
                exact ⟨i, c, p, w, hc, rfl, hw, hwindow⟩
      cases hw : f.window? with
      | none =>
          have hwindow := not_isWindowCall_of_window? hw
          rw [offered_levelTags_of_plain hwindow] at hg
          obtain ⟨i, c, p, w, hc, rfl, hp, hcall⟩ := hrest hg
          refine ⟨i :: p, w, ?_, (at?_cons_of_child p hc).trans hp, hcall⟩
          simp [throughTags, hc, hwindow]
      | some call =>
          have hwindow := isWindowCall_of_window? hw
          rw [offered_levelTags_of_window hclear hw] at hg
          cases q with
          | nil => exact ⟨[], f, rfl, rfl, hwindow⟩
          | cons j q =>
              cases j with
              | succ j => exact absurd hg (by simp [at?, children, kind, Kind.children])
              | zero =>
                  obtain ⟨i, c, p, w, hc, rfl, hp, hcall⟩ := hrest hg
                  refine ⟨i :: p, w, ?_, (at?_cons_of_child p hc).trans hp, hcall⟩
                  simp [throughTags, hc, hwindow]

/-! ## The whole formula -/

theorem withoutTags_eq (f : Formula) : f.withoutTags =
    match f.kind.map withoutTags, f.level with
    | .paren inner, some _ => inner
    | k, _ => .mk k f.notes := recur_eq _ f

theorem withoutTags_of_level (h : f.level = none) :
    f.withoutTags = mk (f.kind.map withoutTags) f.notes := by
  rw [withoutTags_eq, h]
  cases f.kind.map withoutTags <;> rfl

theorem withoutTags_offered (hf : f.Untagged) (hclear : Normalize.isTagged above = false) :
    (f.offered Normalize.levelTags above).withoutTags = f ∧
      (f.rebuilt Normalize.levelTags above).withoutTags = f := by
  induction f using induction_children generalizing above with
  | step f ih =>
      have hrebuilt : (f.rebuilt Normalize.levelTags above).withoutTags = f := by
        have hkind : (f.kind.map (offered Normalize.levelTags (above ++ [f]))).map withoutTags =
            f.kind := by
          rw [Kind.map_map]
          refine (Kind.map_congr fun c hc => ?_).trans f.kind.map_id
          exact (ih c hc (hf.of_child hc) (hf.isTagged above)).1
        have hlevel : (f.rebuilt Normalize.levelTags above).level = none := hf.level
        rw [withoutTags_of_level hlevel, rebuilt_eq, kind, hkind]
        exact mk_kind_notes f
      refine ⟨?_, hrebuilt⟩
      cases hw : f.window? with
      | none =>
          have hwindow := not_isWindowCall_of_window? hw
          rw [offered_levelTags_of_plain hwindow]
          exact hrebuilt
      | some c =>
          rw [offered_levelTags_of_window hclear hw, withoutTags_eq]
          exact hrebuilt

/-- Each window call comes to stand in a parenthesis with a tag, whatever the formula. -/
theorem throughout_tagged (f : Formula) :
    (f.transform Normalize.levelTags).Throughout Tagged [] := by
  rw [transform_eq_offered alters_levelTags.renews]
  refine throughout_offered (Q := fun _ _ => True)
    (I := fun above above' => Normalize.isTagged above = true → Normalize.isTagged above' = true)
    alters_levelTags.renews ?_ ?_ (fun _ _ _ => trivial) id
  · intro above above' f hI _ hnone
    constructor
    · intro hwindow
      exact hI (isTagged_of_levelTags_eq_none hnone hwindow)
    · intro htagged
      rwa [isTagged_rebuilt]
  · intro above above' f r hI _ hr hchildren
    obtain ⟨w, hw, hr⟩ := Option.bind_eq_some_iff.mp hr
    split at hr
    next => exact absurd hr (by simp)
    next =>
      obtain rfl := Option.some.inj hr
      refine throughout_iff.mpr ⟨fun h => absurd h (by simp [isWindowCall, window?, kind,
        withLevel, paren, of]), fun d hd => ?_⟩
      obtain rfl := List.mem_singleton.mp hd
      refine throughout_iff.mpr ⟨fun _ => by rw [isTagged_concat]; rfl, fun d hd => ?_⟩
      refine hchildren d hd _ fun htagged => ?_
      rwa [isTagged_rebuilt]

/-- A formula without tags comes out with a tagged parenthesis right around each window call and
with no other tags, and without these parentheses it is what it was. The tag of a call says which
filters come after it, how many forks are around it, and how long the longest chain of calls before
the same filters is below it. A second time the rule has nothing to offer. -/
theorem transform_levelTags (hf : f.Untagged) :
    (f.transform Normalize.levelTags).withoutTags = f ∧
    Function.Injective f.throughTags ∧
    (∀ p w c, f.at? p = some w → w.window? = some c →
      ∃ inner tag, (f.transform Normalize.levelTags).at? (f.throughTags p) =
          some (mk (.paren inner) ⟨some tag, none⟩) ∧
        inner.isWindowCall = true ∧ inner.withoutTags = w ∧ IsLevelTag (f.along p) w c tag) ∧
    (∀ q g, (f.transform Normalize.levelTags).at? q = some g → g.level.isSome = true →
      ∃ p w, q = f.throughTags p ∧ f.at? p = some w ∧ w.isWindowCall = true) ∧
    (f.transform Normalize.levelTags).transform Normalize.levelTags =
      f.transform Normalize.levelTags := by
  have hclear : Normalize.isTagged [] = false := rfl
  refine ⟨?_, throughTags_injective f, ?_, ?_, ?_⟩
  · rw [transform_eq_offered alters_levelTags.renews]
    exact (withoutTags_offered hf hclear).1
  · intro p w c hw hc
    have hplace := hf.isTagged_along p
    have hat := at?_offered_levelTags hf hclear p
    rw [hw, Option.map_some, List.nil_append, offered_levelTags_of_window hplace hc] at hat
    rw [transform_eq_offered alters_levelTags.renews]
    refine ⟨_, _, hat, ?_, ?_, isLevelTag_levelTagOf _ w c⟩
    · rw [isWindowCall_rebuilt, isWindowCall_of_window? hc]
    · exact (withoutTags_offered (hf.of_node (mem_nodes_of_at? hw)) hplace).2
  · intro q g hg hlevel
    rw [transform_eq_offered alters_levelTags.renews] at hg
    exact exists_of_level_offered hf hclear hg hlevel
  · exact transform_eq_self (rests_levelTags (throughout_tagged f))

end LevelTags

/-- A fork of a running maximum of a running sum, both before one filter. -/
def nestedCalls : Formula :=
  let filters := NameSet.ofList ["city"]
  let inner := window "rsum" [field "sales"] (.within [field "date"]) [] filters
  fork .left (window "rmax" [inner] .total [] filters) [] (.fixed [])

/-- The outer call is a total with one more call before the filter below it, inside of one fork. -/
theorem transform_levelTags_nestedCalls :
    (∀ g ∈ nestedCalls.nodes, g.level = none) ∧
    (nestedCalls.transform Normalize.levelTags).withoutTags = nestedCalls ∧
    ((nestedCalls.transform Normalize.levelTags).at? [0]).bind level =
      some ⟨NameSet.ofList ["city"], -2, 1⟩ := by
  have huntagged : ∀ g ∈ nestedCalls.nodes, g.level = none := by decide
  exact ⟨huntagged, (transform_levelTags huntagged).1, by decide⟩

end Formula

end FormulaSql
