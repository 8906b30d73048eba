import FormulaSql.Sql.Text
import Mathlib.Data.List.Basic

/-!
# Conditions in the text of SQL

A reader of SQL applies NOT before AND and AND before OR, except where brackets, quotes, CASE or
BETWEEN keep words together. The text of an expression is read in this way whatever its tree was, so
an OR below an AND needs a `grouped` node around it.

* `Sql.reads_of_legible`: the expressions whose texts are read as they are
-/

namespace FormulaSql

/-! ## Words -/

/-- Where a reader of SQL is between two characters. -/
inductive Spot where
  /-- Outside of quotes, in this many brackets. -/
  | bare (depth : Nat)
  | quoted (depth : Nat) (quote : Char)
  /-- After a bracket that closes none. -/
  | lost
  deriving DecidableEq

namespace Spot

def outside : Spot := bare 0

def next : Spot → Char → Spot
  | bare depth, c =>
    if c = '\'' ∨ c = '"' then quoted depth c
    else if c = '(' ∨ c = '[' then bare (depth + 1)
    else if c = ')' ∨ c = ']' then
      match depth with
      | 0 => lost
      | depth + 1 => bare depth
    else bare depth
  | quoted depth quote, c => if c = quote then bare depth else quoted depth quote
  | lost, _ => lost

def after (p : Spot) (cs : List Char) : Spot := cs.foldl next p

/-- The words of a text: it is split at blanks outside of brackets and quotes. The first word goes
on from `w`. -/
def words (p : Spot) (w : List Char) : List Char → List (List Char)
  | [] => [w]
  | c :: cs =>
    if p = outside ∧ c = ' ' then w :: words outside [] cs else words (p.next c) (w ++ [c]) cs

variable {p : Spot} {w cs x y : List Char}

@[simp] theorem after_nil : p.after [] = p := rfl

@[simp] theorem after_cons (c : Char) : p.after (c :: cs) = (p.next c).after cs := rfl

theorem after_append : p.after (x ++ y) = (p.after x).after y := List.foldl_append

theorem next_blank : outside.next ' ' = outside := by decide

theorem words_ne_nil : p.words w cs ≠ [] := by
  fun_induction words p w cs with
  | case1 => exact List.cons_ne_nil _ _
  | case2 => exact List.cons_ne_nil _ _
  | case3 p w c cs hsplit ih => exact ih

/-- Nothing is lost between the words. -/
theorem intercalate_words : [' '].intercalate (p.words w cs) = w ++ cs := by
  fun_induction words p w cs with
  | case1 => simp
  | case2 p w c cs hsplit ih =>
      have hne : outside.words [] cs ≠ [] := words_ne_nil
      obtain ⟨v, vs, hv⟩ := List.exists_cons_of_ne_nil hne
      rw [hv] at ih ⊢
      rw [List.intercalate_cons_cons, ih, hsplit.2]
      simp
  | case3 p w c cs hsplit ih => simpa using ih

/-- A text that ends outside of brackets and quotes shares no word with what follows. -/
theorem words_append (h : p.after x = outside) :
    p.words w (x ++ ' ' :: y) = p.words w x ++ outside.words [] y := by
  induction x generalizing p w with
  | nil =>
      obtain rfl : p = outside := h
      simp [words]
  | cons c x ih =>
      rw [after_cons] at h
      rw [List.cons_append, words, words]
      split
      next hsplit =>
        rw [hsplit.1, hsplit.2, next_blank] at h
        rw [ih h, List.cons_append]
      next => exact ih h

end Spot

/-! ## Pieces -/

/-- What the words of a condition are to its reader. -/
inductive Piece where
  | conj
  | disj
  | word (w : List Char)
  deriving DecidableEq

def Piece.chars : Piece → List Char
  | conj => "AND".toList
  | disj => "OR".toList
  | word w => w

/-- How many words of a kind are to come: an END for each CASE and an AND for each BETWEEN. -/
structure Awaited where
  ends : Nat
  ands : Nat
  deriving DecidableEq

namespace Awaited

def nothing : Awaited := ⟨0, 0⟩

/-- All words of a CASE belong to it, and so does the AND of a BETWEEN. -/
def piece (a : Awaited) (w : List Char) : Piece :=
  if a = nothing ∧ w = "AND".toList then .conj
  else if a.ends = 0 ∧ w = "OR".toList then .disj
  else .word w

def next (a : Awaited) (w : List Char) : Awaited :=
  if w = "CASE".toList then { a with ends := a.ends + 1 }
  else if w = "END".toList then { a with ends := a.ends - 1 }
  else if 0 < a.ends then a
  else if w = "BETWEEN".toList then { a with ands := a.ands + 1 }
  else if w = "AND".toList then { a with ands := a.ands - 1 }
  else a

def after (a : Awaited) (ws : List (List Char)) : Awaited := ws.foldl next a

def pieces (a : Awaited) : List (List Char) → List Piece
  | [] => []
  | w :: ws => a.piece w :: pieces (a.next w) ws

variable {a : Awaited} {ws ws' : List (List Char)}

theorem after_append : a.after (ws ++ ws') = (a.after ws).after ws' := List.foldl_append

theorem pieces_append : a.pieces (ws ++ ws') = a.pieces ws ++ (a.after ws).pieces ws' := by
  induction ws generalizing a with
  | nil => rfl
  | cons w ws ih => exact congrArg _ ih

end Awaited

/-! ## Reading -/

namespace Condition

open Spot Awaited

/-- The words of a text. -/
def wordsOf (x : List Char) : List (List Char) := outside.words [] x

/-- The pieces of a text. -/
def piecesOf (x : List Char) : List Piece := nothing.pieces (wordsOf x)

/-- A text that has all of its brackets, quotes, ENDs and ANDs. -/
structure Whole (x : List Char) : Prop where
  after : outside.after x = outside
  awaited : nothing.after (wordsOf x) = nothing

/-- An operator between two texts. -/
def joined (op : String) (x y : List Char) : List Char := x ++ ' ' :: (op.toList ++ ' ' :: y)

variable {op : String} {x y : List Char}

theorem wordsOf_append (h : outside.after x = outside) :
    wordsOf (x ++ ' ' :: y) = wordsOf x ++ wordsOf y :=
  words_append h

theorem intercalate_wordsOf (x : List Char) : [' '].intercalate (wordsOf x) = x :=
  intercalate_words.trans (List.nil_append x)

theorem pieces_wordsOf_append (hx : Whole x) :
    piecesOf (x ++ ' ' :: y) = piecesOf x ++ piecesOf y := by
  rw [piecesOf, wordsOf_append hx.after, pieces_append, hx.awaited]
  rfl

theorem Whole.append (hx : Whole x) (hy : Whole y) : Whole (x ++ ' ' :: y) where
  after := by
    rw [Spot.after_append, hx.after, after_cons, next_blank]
    exact hy.after
  awaited := by
    rw [wordsOf_append hx.after, Awaited.after_append, hx.awaited]
    exact hy.awaited

theorem whole_op (h : op = "AND" ∨ op = "OR" ∨ op = "NOT") : Whole op.toList := by
  rcases h with rfl | rfl | rfl <;> exact ⟨by decide, by decide⟩

theorem Whole.joined (hx : Whole x) (hy : Whole y) (h : op = "AND" ∨ op = "OR") :
    Whole (joined op x y) :=
  hx.append ((whole_op (h.imp_right .inl)).append hy)

theorem piecesOf_joined (hx : Whole x) (h : op = "AND" ∨ op = "OR") :
    piecesOf (joined op x y) = piecesOf x ++ (piecesOf op.toList ++ piecesOf y) := by
  rw [joined, pieces_wordsOf_append hx, pieces_wordsOf_append (whole_op (h.imp_right .inl))]

/-! ### Truth -/

variable {v : String → Prop} {ps qs : List Piece}

/-- The truth of words without connectives is that of their text. A NOT in front negates them. -/
def Factor (v : String → Prop) : List Piece → Prop
  | [] => v ""
  | p :: ps =>
    if p = .word "NOT".toList then ¬ Factor v ps
    else v (String.ofList ([' '].intercalate ((p :: ps).map Piece.chars)))

/-- What is between the ANDs holds. -/
def Term (v : String → Prop) (ps : List Piece) : Prop :=
  ∀ factor ∈ ps.splitOnP (· == .conj), Factor v factor

/-- Something between the ORs holds. -/
def Reading (v : String → Prop) (ps : List Piece) : Prop :=
  ∃ term ∈ ps.splitOnP (· == .disj), Term v term

/-- What is nowhere splits nothing. -/
theorem splitOnP_of_not_mem {p : Piece} (h : p ∉ ps) : ps.splitOnP (· == p) = [ps] :=
  List.splitOnP_eq_singleton fun _ hq => beq_eq_false_iff_ne.mpr fun heq => h (heq ▸ hq)

theorem term_append : Term v (ps ++ .conj :: qs) ↔ Term v ps ∧ Term v qs := by
  rw [Term, List.splitOnP_append_cons (p := (· == Piece.conj)) ps qs rfl, List.forall_mem_append]
  rfl

theorem reading_append : Reading v (ps ++ .disj :: qs) ↔ Reading v ps ∨ Reading v qs := by
  rw [Reading, List.splitOnP_append_cons (p := (· == Piece.disj)) ps qs rfl]
  simp only [List.mem_append, or_and_right, exists_or]
  rfl

theorem term_iff_factor (h : .conj ∉ ps) : Term v ps ↔ Factor v ps := by
  rw [Term, splitOnP_of_not_mem h, List.forall_mem_singleton]

theorem reading_iff_term (h : .disj ∉ ps) : Reading v ps ↔ Term v ps := by
  rw [Reading, splitOnP_of_not_mem h]
  simp

/-- A text is read as the proposition `P`, also next to a NOT at level 0, next to an AND at level 1
and next to an OR at level 2. -/
structure Reads (v : String → Prop) (level : Nat) (x : List Char) (P : Prop) : Prop where
  whole : Whole x
  disj : level < 2 → .disj ∉ piecesOf x
  conj : level < 1 → .conj ∉ piecesOf x
  reading : Reading v (piecesOf x) ↔ P

namespace Reads

variable {level : Nat} {P Q : Prop}

theorem term (h : Reads v 1 x P) : Term v (piecesOf x) ↔ P := by
  rw [← reading_iff_term (h.disj (by decide)), h.reading]

theorem factor (h : Reads v 0 x P) : Factor v (piecesOf x) ↔ P := by
  rw [← term_iff_factor (h.conj (by decide)), ← reading_iff_term (h.disj (by decide)), h.reading]

theorem and (hx : Reads v 1 x P) (hy : Reads v 1 y Q) (hlevel : 1 ≤ level) :
    Reads v level (joined "AND" x y) (P ∧ Q) := by
  have hpieces : piecesOf (joined "AND" x y) = piecesOf x ++ .conj :: piecesOf y :=
    piecesOf_joined hx.whole (.inl rfl)
  have hdisj : .disj ∉ piecesOf (joined "AND" x y) := by
    rw [hpieces]
    simp [hx.disj (by decide), hy.disj (by decide)]
  refine ⟨hx.whole.joined hy.whole (.inl rfl), fun _ => hdisj, fun h => by omega, ?_⟩
  rw [reading_iff_term hdisj, hpieces, term_append, hx.term, hy.term]

theorem or (hx : Reads v 2 x P) (hy : Reads v 2 y Q) (hlevel : 2 ≤ level) :
    Reads v level (joined "OR" x y) (P ∨ Q) := by
  have hpieces : piecesOf (joined "OR" x y) = piecesOf x ++ .disj :: piecesOf y :=
    piecesOf_joined hx.whole (.inr rfl)
  refine ⟨hx.whole.joined hy.whole (.inr rfl), fun h => by omega, fun h => by omega, ?_⟩
  rw [hpieces, reading_append, hx.reading, hy.reading]

theorem not (hx : Reads v 0 x P) : Reads v level ("NOT".toList ++ ' ' :: x) ¬ P := by
  have hnot : Whole "NOT".toList := whole_op (.inr (.inr rfl))
  have hpieces : piecesOf ("NOT".toList ++ ' ' :: x) = .word "NOT".toList :: piecesOf x :=
    pieces_wordsOf_append hnot
  have hdisj : .disj ∉ piecesOf ("NOT".toList ++ ' ' :: x) := by
    rw [hpieces]
    simp [hx.disj (by decide)]
  have hconj : .conj ∉ piecesOf ("NOT".toList ++ ' ' :: x) := by
    rw [hpieces]
    simp [hx.conj (by decide)]
  refine ⟨hnot.append hx.whole, fun _ => hdisj, fun _ => hconj, ?_⟩
  rw [reading_iff_term hdisj, term_iff_factor hconj, hpieces, Factor, if_pos rfl, hx.factor]

end Reads

/-- A text without connectives. -/
def IsAtom (x : List Char) : Prop :=
  outside.after x = outside ∧ nothing.after (wordsOf x) = nothing ∧
    piecesOf x = (wordsOf x).map .word ∧ (wordsOf x).head? ≠ some "NOT".toList

instance : Decidable (IsAtom x) := inferInstanceAs (Decidable (_ ∧ _ ∧ _ ∧ _))

theorem IsAtom.reads {level : Nat} (h : IsAtom x) : Reads v level x (v (String.ofList x)) := by
  obtain ⟨hafter, hawaited, hpieces, hhead⟩ := h
  have hdisj : .disj ∉ piecesOf x := by simp [hpieces]
  have hconj : .conj ∉ piecesOf x := by simp [hpieces]
  refine ⟨⟨hafter, hawaited⟩, fun _ => hdisj, fun _ => hconj, ?_⟩
  rw [reading_iff_term hdisj, term_iff_factor hconj, hpieces]
  have hx := intercalate_wordsOf x
  generalize wordsOf x = ws at hhead hx
  cases ws with
  | nil => rw [← hx]; rfl
  | cons w ws =>
      have hw : Piece.word w ≠ .word "NOT".toList := fun heq =>
        hhead (congrArg some (Piece.word.inj heq))
      have hchars : ((w :: ws).map Piece.word).map Piece.chars = w :: ws := by
        rw [List.map_map]
        exact List.map_id _
      rw [List.map_cons, Factor, if_neg hw, ← List.map_cons, hchars, hx]

end Condition

/-! ## Expressions -/

namespace Sql

open Condition

/-- The expressions between the connectives AND, OR and NOT. -/
def atoms : Sql → List Sql
  | binary op l r =>
    if op = "AND" ∨ op = "OR" then l.atoms ++ r.atoms else [binary op l r]
  | prefixOp op e => if op = "NOT" then e.atoms else [prefixOp op e]
  | e => [e]

/-- The truth of an expression whose atoms are true as `v` says. -/
def holds (v : Sql → Prop) : Sql → Prop
  | binary op l r =>
    if op = "AND" then l.holds v ∧ r.holds v
    else if op = "OR" then l.holds v ∨ r.holds v
    else v (binary op l r)
  | prefixOp op e => if op = "NOT" then ¬ e.holds v else v (prefixOp op e)
  | e => v e

/-- The expression is read as it is: below a NOT at level 0, below an AND at level 1 and below an OR
or alone at level 2. -/
def legible (level : Nat) : Sql → Bool
  | binary op l r =>
    if op = "AND" then decide (1 ≤ level) && l.legible 1 && r.legible 1
    else if op = "OR" then decide (2 ≤ level) && l.legible 2 && r.legible 2
    else decide (IsAtom (binary op l r).text.toList)
  | prefixOp op e =>
    if op = "NOT" then e.legible 0 else decide (IsAtom (prefixOp op e).text.toList)
  | e => decide (IsAtom e.text.toList)

variable {u u' : Sql → Prop} {v : String → Prop} {level : Nat} {e : Sql}

theorem holds_congr (h : ∀ a ∈ e.atoms, (u a ↔ u' a)) : e.holds u ↔ e.holds u' := by
  fun_induction atoms e with
  | case1 op l r hop ihl ihr =>
      have hl := ihl fun a ha => h a (List.mem_append_left _ ha)
      have hr := ihr fun a ha => h a (List.mem_append_right _ ha)
      rcases hop with rfl | rfl <;> simp [holds, hl, hr]
  | case2 op l r hop =>
      rw [not_or] at hop
      simpa [holds, hop] using h
  | case3 e ih => simp [holds, ih h]
  | case4 op e hop => simpa [holds, hop] using h
  | case5 e hbinary hprefix =>
      rw [holds, holds]
      · exact h e List.mem_cons_self
      all_goals assumption

theorem reads_of_isAtom (h : decide (IsAtom e.text.toList) = true) :
    Reads v level e.text.toList (v e.text) := by
  have hreads : Reads v level e.text.toList (v (String.ofList e.text.toList)) :=
    (of_decide_eq_true h).reads
  rwa [String.ofList_toList] at hreads

theorem toList_binary (op : String) (l r : Sql) :
    (binary op l r).text.toList = joined op l.text.toList r.text.toList := by
  simp [text, joined]

theorem toList_not (e : Sql) :
    (prefixOp "NOT" e).text.toList = "NOT".toList ++ ' ' :: e.text.toList := by
  simp [text]

/-- The text of a legible expression is read as the expression. -/
theorem reads_of_legible (h : e.legible level = true) :
    Reads v level e.text.toList (e.holds fun a => v a.text) := by
  fun_induction legible level e with
  | case1 level l r ihl ihr =>
      simp only [Bool.and_eq_true, decide_eq_true_eq] at h
      rw [toList_binary, holds, if_pos rfl]
      exact (ihl h.1.2).and (ihr h.2) h.1.1
  | case2 level l r hop ihl ihr =>
      simp only [Bool.and_eq_true, decide_eq_true_eq] at h
      rw [toList_binary, holds, if_neg hop, if_pos rfl]
      exact (ihl h.1.2).or (ihr h.2) h.1.1
  | case3 level op l r hand hor =>
      rw [holds, if_neg hand, if_neg hor]
      exact reads_of_isAtom h
  | case4 level e ih =>
      rw [toList_not, holds, if_pos rfl]
      exact (ih h).not
  | case5 level op e hop =>
      rw [holds, if_neg hop]
      exact reads_of_isAtom h
  | case6 level e hbinary hprefix =>
      rw [holds]
      · exact reads_of_isAtom h
      · exact hbinary
      · exact hprefix

/-- Legible conditions with AND between them are read as their conjunction. -/
theorem reads_conjunction {es : List Sql} (h : ∀ x ∈ e :: es, x.legible 1 = true) :
    Reads v 1 (" AND ".intercalate ((e :: es).map text)).toList
      (∀ x ∈ e :: es, x.holds fun a => v a.text) := by
  induction es generalizing e with
  | nil => simpa using reads_of_legible (h e List.mem_cons_self)
  | cons e' es ih =>
      rw [List.forall_mem_cons] at h
      have htext : (" AND ".intercalate ((e :: e' :: es).map text)).toList =
          joined "AND" e.text.toList (" AND ".intercalate ((e' :: es).map text)).toList := by
        simp [joined]
      rw [htext, List.forall_mem_cons]
      exact (reads_of_legible h.1).and (ih h.2) Nat.le.refl

end Sql

end FormulaSql
