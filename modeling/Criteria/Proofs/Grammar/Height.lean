import Criteria.Proofs.Grammar.Earliest
import Criteria.Proofs.Grammar.Image

/-!
# The height of filters

The nesting of a text bounds its tree.  The left side of a combinator is read on the level of the
combinator, so one level may hide two edges of the tree, one for `,` and one for `;`, but it takes
a right side to have either, and that is on a level of its own.  The bounds follow from the least
nesting of the tree, by the rule of the grammar that derives it.

**Results.**
* `Expr.heightOver_le`: a tree is at most twice as high as it is nested, and one list higher at its
  leaves.
* `Expr.leastNesting_part_le`: no part of a tree is nested deeper than the tree.
* `Expr.parse_bounded`: the bounds for all that is read, and that each of them is attained.
-/

namespace Criteria

/-! ### Heights -/

mutual

/-- The greatest number of lists around an item of the value. -/
def Value.itemDepth : Value → Nat
  | .list items => Value.greatestItemDepth items
  | _ => 0

/-- The greatest number of lists around an item of the list, this list counted. -/
def Value.greatestItemDepth : List Value → Nat
  | [] => 0
  | v :: vs => max (1 + v.itemDepth) (Value.greatestItemDepth vs)

end

/-- The greatest number of lists around an item of the constraint's value. -/
def Constraint.itemDepth : Constraint → Nat
  | .presence _ => 0
  | .comparison _ _ v => v.itemDepth

namespace Expr

/-- The height of a filter in its combinators, over leaves with a height of their own. -/
def heightOver (leaf : Constraint → Nat) : Expr → Nat
  | .constraint c => leaf c
  | .and l r | .or l r => 1 + max (l.heightOver leaf) (r.heightOver leaf)

/-- The height in combinators alone. -/
def height : Expr → Nat :=
  heightOver fun _ => 0

/-- The height in combinators and in the lists around the items of a leaf's value. -/
def itemHeight : Expr → Nat :=
  heightOver Constraint.itemDepth

/-- The number of links of the conjunction that starts here and goes on to the right. -/
def andLinks : Expr → Nat
  | .and _ r => 1 + r.andLinks
  | _ => 0

/-- The number of links of the disjunction that starts here and goes on to the right. -/
def orLinks : Expr → Nat
  | .or _ r => 1 + r.orLinks
  | _ => 0

end Expr

mutual

theorem Value.itemDepth_le : ∀ v : Value, v.itemDepth ≤ v.listDepth
  | .list items => by
      rw [itemDepth, listDepth]
      exact Value.greatestItemDepth_le items
  | .text _ | .integer _ | .float _ | .boolean _ => Nat.le_refl 0

theorem Value.greatestItemDepth_le : ∀ vs : List Value,
    Value.greatestItemDepth vs ≤ 1 + Value.greatestListDepth vs
  | [] => Nat.zero_le _
  | v :: vs => by
      have hv := v.itemDepth_le
      have hvs := Value.greatestItemDepth_le vs
      rw [greatestItemDepth, greatestListDepth]
      omega

end

/-- Items need lists, so a value without lists has no height. -/
theorem Constraint.itemDepth_le (c : Constraint) : c.itemDepth ≤ c.listDepth := by
  cases c with
  | presence name => exact Nat.le_refl 0
  | comparison name op v => exact v.itemDepth_le

/-! ### Height and nesting -/

/-- The edges that a rule of the grammar cannot put on the level it is on. -/
def Grammar.Place.missing : Grammar.Place → Nat
  | .disjunction => 0
  | .conjunction => 1
  | .constraint => 2

namespace Expr

/-- A level gives room for two edges, less those that the rule cannot make there.  Leaves that are a
little higher than their lists allow for make the whole a little higher. -/
theorem heightOver_le {leaf : Constraint → Nat} {k : Nat} (hk : k ≤ 1)
    (hleaf : ∀ c, leaf c ≤ 2 * c.listDepth + k - 2) (e : Expr) (place : Grammar.Place) :
    e.heightOver leaf ≤ 2 * e.leastNesting place + k - place.missing := by
  induction e generalizing place with
  | constraint c =>
    have hc := hleaf c
    cases place <;> simp only [heightOver, leastNesting, Grammar.Place.missing] <;> omega
  | and l r ihl ihr =>
    have hl := ihl .constraint
    have hr := ihr .conjunction
    cases place <;>
      simp only [heightOver, leastNesting, Grammar.Place.missing, reduceCtorEq, if_true, if_false]
        at hl hr ⊢ <;> omega
  | or l r ihl ihr =>
    have hl := ihl .conjunction
    have hr := ihr .disjunction
    cases place <;>
      simp only [heightOver, leastNesting, Grammar.Place.missing, reduceCtorEq, if_true, if_false]
        at hl hr ⊢ <;> omega

theorem height_le (e : Expr) : e.height ≤ 2 * e.leastNesting .disjunction :=
  e.heightOver_le (Nat.zero_le 1) (fun _ => Nat.zero_le _) .disjunction

theorem itemHeight_le (e : Expr) : e.itemHeight ≤ 2 * e.leastNesting .disjunction + 1 := by
  refine e.heightOver_le (Nat.le_refl 1) (fun c => ?_) .disjunction
  have hc := c.itemDepth_le
  omega

/-! ### Parts -/

theorem self_mem_parts (e : Expr) : e ∈ e.parts := by
  cases e with
  | constraint c => exact List.mem_singleton_self _
  | and l r | or l r => exact List.mem_append_right _ (List.mem_singleton_self _)

theorem constraint_mem_parts {e : Expr} {c : Constraint} (h : c ∈ e.constraints) :
    .constraint c ∈ e.parts := by
  induction e with
  | constraint c' =>
    obtain rfl := List.mem_singleton.1 h
    exact List.mem_singleton_self _
  | and l r ihl ihr | or l r ihl ihr =>
    rw [parts, List.append_assoc]
    rcases List.mem_append.1 h with h | h
    · exact List.mem_append_left _ (ihl h)
    · exact List.mem_append_right _ (List.mem_append_left _ (ihr h))

/-- No part of a filter is nested deeper than the filter, also where it stands in a group. -/
theorem leastNesting_part_le {e part : Expr} (h : part ∈ e.parts) :
    part.leastNesting .disjunction ≤ e.leastNesting .disjunction := by
  induction e with
  | constraint c =>
    obtain rfl := List.mem_singleton.1 h
    exact Nat.le_refl _
  | and l r ihl ihr =>
    rw [parts, List.mem_append, List.mem_append, List.mem_singleton] at h
    have hl := l.leastNesting_disjunction_le.trans l.leastNesting_conjunction_le
    have hr := r.leastNesting_disjunction_le
    simp only [leastNesting, reduceCtorEq, if_false]
    rcases h with (h | h) | rfl
    · have := ihl h
      omega
    · have := ihr h
      omega
    · simp only [leastNesting, reduceCtorEq, if_false, Nat.le_refl]
  | or l r ihl ihr =>
    rw [parts, List.mem_append, List.mem_append, List.mem_singleton] at h
    have hl := l.leastNesting_disjunction_le
    simp only [leastNesting, if_true]
    rcases h with (h | h) | rfl
    · have := ihl h
      omega
    · have := ihr h
      omega
    · simp only [leastNesting, if_true, Nat.le_refl]

/-- Each link of a chain takes a level. -/
theorem andLinks_le (e : Expr) : e.andLinks ≤ e.leastNesting .disjunction := by
  induction e with
  | constraint c => exact Nat.zero_le _
  | and l r _ ihr =>
    have hr := r.leastNesting_disjunction_le
    rw [andLinks, leastNesting, if_neg (by decide)]
    omega
  | or l r => exact Nat.zero_le _

theorem orLinks_le (e : Expr) : e.orLinks ≤ e.leastNesting .disjunction := by
  induction e with
  | constraint c => exact Nat.zero_le _
  | and l r => exact Nat.zero_le _
  | or l r _ ihr =>
    rw [orLinks, leastNesting, if_pos rfl]
    omega

end Expr

/-! ### Filters that attain the bounds -/

open Grammar

/-- Writable tokens are those of a text. -/
theorem Grammar.Disjunction.exists_derives {d : Disjunction} (h : ∀ t ∈ d.tokens, t.Writable) :
    ∃ text, Derives text d := by
  obtain ⟨cs, hwrites⟩ := Token.exists_writes_iff.2 h
  rw [← String.toList_ofList (l := cs)] at hwrites
  exact ⟨_, derives_iff_writes.2 hwrites⟩

/-- A list in a list in a list, and so on, around one text. -/
def Value.nested : Nat → Value
  | 0 => .text "a"
  | n + 1 => .list [Value.nested n]

namespace Expr

/-- A tree that can be written is read from some text, unless it is nested too deep. -/
theorem exists_parse_of_writable {e : Expr} (h : ∀ c ∈ e.constraints, c.Writable)
    (hn : e.leastNesting .disjunction ≤ maxNesting) : ∃ text, Expr.parse text = .ok e := by
  obtain ⟨d, rfl, hd, htokens⟩ := (derivable h).disjunction
  obtain ⟨text, hderives⟩ := d.exists_derives htokens
  exact ⟨text, parse_eq_ok_iff_derives.2 ⟨d, hderives, rfl, hd.trans_le hn⟩⟩

/-- A leaf as simple as they are. -/
def leaf : Expr :=
  .constraint (.presence "a")

/-- A chain of leaves with `n` links. -/
def chain (join : Expr → Expr → Expr) : Nat → Expr
  | 0 => leaf
  | n + 1 => join leaf (chain join n)

/-- A conjunction and a disjunction around a filter, `n` times, and always on the left. -/
def ladder (start : Expr) : Nat → Expr
  | 0 => start
  | n + 1 => .or (.and (ladder start n) leaf) leaf

theorem heightOver_ladder {height : Constraint → Nat} (h : height (.presence "a") = 0)
    (start : Expr) (n : Nat) :
    (ladder start n).heightOver height = 2 * n + start.heightOver height := by
  induction n with
  | zero => simp only [ladder, Nat.mul_zero, Nat.zero_add]
  | succ n ih =>
    simp only [ladder, leaf, heightOver, ih, h]
    omega

/-- Two more edges take one more level. -/
theorem leastNesting_ladder {start : Expr} (h : start.leastNesting .constraint ≤ 1) (n : Nat) :
    (ladder start n).leastNesting .constraint ≤ n + 1 := by
  induction n with
  | zero => exact h
  | succ n ih =>
    simp only [ladder, leaf, leastNesting, Constraint.listDepth, reduceCtorEq, if_false]
    omega

theorem leastNesting_ladder_succ {start : Expr} (h : start.leastNesting .constraint ≤ 1) (n : Nat) :
    (ladder start (n + 1)).leastNesting .disjunction ≤ n + 1 := by
  have hn := leastNesting_ladder h n
  simp only [ladder, leaf, leastNesting, Constraint.listDepth, reduceCtorEq, if_false, if_true]
  omega

theorem isWord_a : Token.IsWord "a".toList :=
  (IsFiller.writable (.inl rfl) : (Token.selector "a").Writable)

theorem writable_leaf : ∀ c ∈ leaf.constraints, c.Writable :=
  List.forall_mem_singleton.2 isWord_a

theorem writable_ladder {start : Expr} (h : ∀ c ∈ start.constraints, c.Writable) (n : Nat) :
    ∀ c ∈ (ladder start n).constraints, c.Writable := by
  induction n with
  | zero => exact h
  | succ n ih =>
    rw [ladder, constraints, constraints]
    exact List.forall_mem_append.2 ⟨List.forall_mem_append.2 ⟨ih, writable_leaf⟩, writable_leaf⟩

/-- A text that is read as a tree of the greatest height, over a leaf that is nested once. -/
theorem exists_parse_ladder {start : Expr} (h : ∀ c ∈ start.constraints, c.Writable)
    (hn : start.leastNesting .constraint ≤ 1) :
    ∃ text, Expr.parse text = .ok (ladder start 256) :=
  exists_parse_of_writable (writable_ladder h 256) (leastNesting_ladder_succ hn 255)

theorem leastNesting_chain_and (n : Nat) : (chain .and n).leastNesting .conjunction ≤ n := by
  induction n with
  | zero => exact Nat.le_refl 0
  | succ n ih =>
    simp only [chain, leaf, leastNesting, Constraint.listDepth, reduceCtorEq, if_false]
    omega

theorem leastNesting_chain_or (n : Nat) : (chain .or n).leastNesting .disjunction ≤ n := by
  induction n with
  | zero => exact Nat.le_refl 0
  | succ n ih =>
    simp only [chain, leaf, leastNesting, Constraint.listDepth, if_true]
    omega

theorem andLinks_chain (n : Nat) : (chain .and n).andLinks = n := by
  induction n with
  | zero => rfl
  | succ n ih => rw [chain, andLinks, ih, Nat.add_comm]

theorem orLinks_chain (n : Nat) : (chain .or n).orLinks = n := by
  induction n with
  | zero => rfl
  | succ n ih => rw [chain, orLinks, ih, Nat.add_comm]

theorem writable_chain {join : Expr → Expr → Expr} (hjoin : join = .and ∨ join = .or) (n : Nat) :
    ∀ c ∈ (chain join n).constraints, c.Writable := by
  induction n with
  | zero => exact writable_leaf
  | succ n ih =>
    rw [chain]
    rcases hjoin with rfl | rfl <;> exact List.forall_mem_append.2 ⟨writable_leaf, ih⟩

/-- A leaf with a text in `n` lists. -/
def nestedLeaf (n : Nat) : Expr :=
  .constraint (.comparison "a" .equal (.nested n))

end Expr

theorem Value.listDepth_nested (n : Nat) : (Value.nested n).listDepth = n := by
  induction n with
  | zero => rfl
  | succ n ih =>
    rw [nested, listDepth, greatestListDepth, greatestListDepth, ih, Nat.max_zero, Nat.add_comm]

theorem Value.writable_nested (n : Nat) : (Value.nested n).Writable := by
  induction n with
  | zero => exact .inl (Token.Rule.isBare_of_isSelector Expr.isWord_a.1)
  | succ n ih => exact ⟨ih, trivial⟩

namespace Expr

theorem writable_nestedLeaf (n : Nat) : ∀ c ∈ (nestedLeaf n).constraints, c.Writable :=
  List.forall_mem_singleton.2 ⟨isWord_a, trivial, Value.writable_nested n⟩

/-- What the limit on the nesting means for a tree. -/
structure Bounded (e : Expr) : Prop where
  height_le : e.height ≤ 512
  itemHeight_le : e.itemHeight ≤ 513
  listDepth_le : ∀ c ∈ e.constraints, c.listDepth ≤ 256
  andLinks_le : ∀ part ∈ e.parts, part.andLinks ≤ 256
  orLinks_le : ∀ part ∈ e.parts, part.orLinks ≤ 256

theorem bounded_of_leastNesting_le {e : Expr} (h : e.leastNesting .disjunction ≤ 256) :
    e.Bounded where
  height_le := e.height_le.trans (Nat.mul_le_mul_left 2 h)
  itemHeight_le := e.itemHeight_le.trans (Nat.succ_le_succ (Nat.mul_le_mul_left 2 h))
  listDepth_le _ hc := (leastNesting_part_le (constraint_mem_parts hc)).trans h
  andLinks_le part hpart := part.andLinks_le.trans ((leastNesting_part_le hpart).trans h)
  orLinks_le part hpart := part.orLinks_le.trans ((leastNesting_part_le hpart).trans h)

/-- **The nesting limit bounds the tree.**  A tree that is read is at most 512 combinators high, 513
with the lists around its items; no list is nested deeper than 256, and no chain to the right has
more than 256 links.  Each of the bounds is attained. -/
theorem parse_bounded :
    (∀ text e, Expr.parse text = .ok e → e.Bounded) ∧
    (∃ text e, Expr.parse text = .ok e ∧ e.height = 512) ∧
    (∃ text e, Expr.parse text = .ok e ∧ e.itemHeight = 513) ∧
    (∃ text e, Expr.parse text = .ok e ∧ ∃ c ∈ e.constraints, c.listDepth = 256) ∧
    (∃ text e, Expr.parse text = .ok e ∧ ∃ part ∈ e.parts, part.andLinks = 256) ∧
    ∃ text e, Expr.parse text = .ok e ∧ ∃ part ∈ e.parts, part.orLinks = 256 := by
  refine ⟨?bounded, ?height, ?itemHeight, ?lists, ?conjunctions, ?disjunctions⟩
  case bounded =>
    intro text e hparse
    obtain ⟨d, -, rfl, hn⟩ := parse_eq_ok_iff_derives.1 hparse
    exact bounded_of_leastNesting_le (d.leastNesting_le.trans hn)
  case height =>
    obtain ⟨text, hparse⟩ := exists_parse_ladder writable_leaf (Nat.zero_le 1)
    exact ⟨text, _, hparse, heightOver_ladder rfl leaf 256⟩
  case itemHeight =>
    obtain ⟨text, hparse⟩ := exists_parse_ladder (writable_nestedLeaf 1) (Nat.le_refl 1)
    exact ⟨text, _, hparse, heightOver_ladder rfl (nestedLeaf 1) 256⟩
  case lists =>
    have hdepth := Value.listDepth_nested 256
    obtain ⟨text, hparse⟩ := exists_parse_of_writable (writable_nestedLeaf 256) hdepth.le
    exact ⟨text, _, hparse, _, List.mem_singleton_self _, hdepth⟩
  case conjunctions =>
    have hn := (leastNesting_disjunction_le _).trans (leastNesting_chain_and 256)
    obtain ⟨text, hparse⟩ := exists_parse_of_writable (writable_chain (.inl rfl) 256) hn
    exact ⟨text, _, hparse, _, self_mem_parts _, andLinks_chain 256⟩
  case disjunctions =>
    have hn := leastNesting_chain_or 256
    obtain ⟨text, hparse⟩ := exists_parse_of_writable (writable_chain (.inr rfl) 256) hn
    exact ⟨text, _, hparse, _, self_mem_parts _, orLinks_chain 256⟩

end Expr

end Criteria
