import Criteria.Proofs.Grammar.Texts
import Criteria.Proofs.Token.Writable

/-!
# The filters that can be written

Which trees some text is read as.  The names, tags, texts and numbers of the tree need lexemes, and
the tree needs a derivation that is not nested too deep.  A tree leaves open where its groups are,
so the least nesting is that of the derivation which groups only where the grammar asks for it.

**Results.**
* `Grammar.Disjunction.leastNesting_le`: no derivation of a tree is nested less.
* `Expr.derivable`: a tree that can be written has a derivation with the least nesting.
* `Expr.exists_parse_iff`: the trees that are read from some text.
-/

namespace Criteria

/-! ### What needs a lexeme -/

mutual

/-- Each text and each float of the value can be written. -/
def Value.Writable : Value → Prop
  | .text s => Token.IsText s.toList
  | .integer _ => True
  | .float x => x.isFinite = true
  | .boolean _ => True
  | .list items => Value.AllWritable items

/-- Each of the values is writable. -/
def Value.AllWritable : List Value → Prop
  | [] => True
  | v :: vs => v.Writable ∧ Value.AllWritable vs

end

/-- The tag of the operator can be written, if it has one. -/
def Operator.Writable : Operator → Prop
  | .equal => True
  | .notEqual => True
  | .tagged tag => Token.IsTag tag.toList

/-- Each part of the constraint can be written. -/
def Constraint.Writable : Constraint → Prop
  | .presence name => Token.IsWord name.toList
  | .comparison name op v => Token.IsWord name.toList ∧ op.Writable ∧ v.Writable

/-! ### The least nesting -/

mutual

/-- How deep the lists of a value are nested. -/
def Value.listDepth : Value → Nat
  | .list items => 1 + Value.greatestListDepth items
  | _ => 0

def Value.greatestListDepth : List Value → Nat
  | [] => 0
  | v :: vs => max v.listDepth (Value.greatestListDepth vs)

end

/-- How deep the lists of a constraint are nested. -/
def Constraint.listDepth : Constraint → Nat
  | .presence _ => 0
  | .comparison _ _ v => v.listDepth

/-- The rules of the grammar that derive a filter. -/
inductive Grammar.Place where
  | disjunction
  | conjunction
  | constraint
deriving DecidableEq

/-- The least nesting that it takes to write a filter where a rule of the grammar stands.  A
combinator that the rule does not derive is put in a group, which is one more level; the right
operand of a chain is one more level, too. -/
def Expr.leastNesting : Expr → Grammar.Place → Nat
  | .constraint c, _ => c.listDepth
  | .and l r, place =>
      let chain := max (l.leastNesting .constraint) (1 + r.leastNesting .conjunction)
      if place = .constraint then 1 + chain else chain
  | .or l r, place =>
      let chain := max (l.leastNesting .conjunction) (1 + r.leastNesting .disjunction)
      if place = .disjunction then chain else 1 + chain

theorem Expr.leastNesting_disjunction_le (e : Expr) :
    e.leastNesting .disjunction ≤ e.leastNesting .conjunction := by
  cases e with
  | constraint c => exact Nat.le_refl _
  | and l r => exact Nat.le_refl _
  | or l r => simp [leastNesting]

theorem Expr.leastNesting_conjunction_le (e : Expr) :
    e.leastNesting .conjunction ≤ e.leastNesting .constraint := by
  cases e with
  | constraint c => exact Nat.le_refl _
  | and l r => simp [leastNesting]
  | or l r => exact Nat.le_refl _

/-- A group around the filter is enough for any place. -/
theorem Expr.leastNesting_constraint_le (e : Expr) :
    e.leastNesting .constraint ≤ 1 + e.leastNesting .disjunction := by
  cases e with
  | constraint c => exact Nat.le_add_left _ _
  | and l r => exact Nat.le_refl _
  | or l r => exact Nat.le_refl _

namespace Grammar

mutual

/-- The lists of a value are nested as deep as its derivation. -/
theorem Argument.listDepth_value : ∀ v : Argument, v.value.listDepth = v.nesting
  | .list items => by
      rw [Argument.value, Value.listDepth, Argument.nesting, items.listDepth_values, Nat.add_comm]
  | .empty | .text _ | .selector _ | .integer _ | .float _ | .boolean _ => rfl

theorem Arguments.listDepth_values : ∀ items : Arguments,
    Value.greatestListDepth items.values = items.nesting
  | .last v => by
      rw [Arguments.values, Value.greatestListDepth, Value.greatestListDepth, Nat.max_zero,
        Arguments.nesting, v.listDepth_value]
  | .more v rest => by
      rw [Arguments.values, Value.greatestListDepth, Arguments.nesting, v.listDepth_value,
        rest.listDepth_values]

end

mutual

/-- No derivation of a tree is nested less than the least nesting. -/
theorem Disjunction.leastNesting_le : ∀ d : Disjunction,
    d.tree.leastNesting .disjunction ≤ d.nesting
  | .single left => left.tree.leastNesting_disjunction_le.trans left.leastNesting_le
  | .link left right => by
      have hleft := left.leastNesting_le
      have hright := right.leastNesting_le
      rw [Disjunction.tree, Disjunction.nesting, Expr.leastNesting, if_pos rfl]
      omega

theorem Conjunction.leastNesting_le : ∀ d : Conjunction,
    d.tree.leastNesting .conjunction ≤ d.nesting
  | .single left => left.tree.leastNesting_conjunction_le.trans left.leastNesting_le
  | .link left right => by
      have hleft := left.leastNesting_le
      have hright := right.leastNesting_le
      rw [Conjunction.tree, Conjunction.nesting, Expr.leastNesting, if_neg (by decide)]
      omega

theorem Phrase.leastNesting_le : ∀ d : Phrase, d.tree.leastNesting .constraint ≤ d.nesting
  | .group inner => by
      have hgroup := inner.tree.leastNesting_constraint_le
      have hinner := inner.leastNesting_le
      rw [Phrase.tree, Phrase.nesting]
      omega
  | .presence name => Nat.le_refl 0
  | .comparison name op v => v.listDepth_value.le

end

/-! ### The parts of a derivation can be written -/

section Writable

mutual

theorem Argument.writable_value : ∀ v : Argument, (∀ t ∈ v.tokens, t.Writable) → v.value.Writable
  | .text s, h => h (.text s) List.mem_cons_self
  | .selector name, h => by
      have hword : Token.IsWord name.toList := h (.selector name) List.mem_cons_self
      exact .inl (Token.Rule.isBare_of_isSelector hword.1)
  | .float x, h => h (.float x) List.mem_cons_self
  | .integer _, _ | .boolean _, _ | .empty, _ => trivial
  | .list items, h => by
      refine items.writable_values fun t ht => h t ?_
      rw [Argument.tokens]
      exact List.mem_cons_of_mem _ (List.mem_append_left _ ht)

theorem Arguments.writable_values : ∀ items : Arguments,
    (∀ t ∈ items.tokens, t.Writable) → Value.AllWritable items.values
  | .last v, h => ⟨v.writable_value h, trivial⟩
  | .more v rest, h =>
      ⟨v.writable_value fun t ht => h t (List.mem_append_left _ ht),
        rest.writable_values fun t ht => h t (List.mem_append_right _ (List.mem_cons_of_mem _ ht))⟩

end

theorem writable_operatorToken {op : Operator} : (operatorToken op).Writable ↔ op.Writable := by
  cases op <;> exact Iff.rfl

mutual

theorem Disjunction.writable_constraints : ∀ d : Disjunction,
    (∀ t ∈ d.tokens, t.Writable) → ∀ c ∈ d.tree.constraints, c.Writable
  | .single left, h => left.writable_constraints h
  | .link left right, h => by
      rw [Disjunction.tokens, List.forall_mem_append, List.forall_mem_cons] at h
      rw [Disjunction.tree, Expr.constraints, List.forall_mem_append]
      exact ⟨left.writable_constraints h.1, right.writable_constraints h.2.2⟩

theorem Conjunction.writable_constraints : ∀ d : Conjunction,
    (∀ t ∈ d.tokens, t.Writable) → ∀ c ∈ d.tree.constraints, c.Writable
  | .single left, h => left.writable_constraints h
  | .link left right, h => by
      rw [Conjunction.tokens, List.forall_mem_append, List.forall_mem_cons] at h
      rw [Conjunction.tree, Expr.constraints, List.forall_mem_append]
      exact ⟨left.writable_constraints h.1, right.writable_constraints h.2.2⟩

theorem Phrase.writable_constraints : ∀ d : Phrase,
    (∀ t ∈ d.tokens, t.Writable) → ∀ c ∈ d.tree.constraints, c.Writable
  | .group inner, h => by
      rw [Phrase.tokens, List.forall_mem_cons, List.forall_mem_append] at h
      exact inner.writable_constraints h.2.1
  | .presence name, h => List.forall_mem_singleton.2 (h (.selector name) List.mem_cons_self)
  | .comparison name op v, h => by
      rw [Phrase.tokens, List.forall_mem_cons, List.forall_mem_cons] at h
      refine List.forall_mem_singleton.2 ⟨h.1, writable_operatorToken.1 h.2.1, ?_⟩
      exact v.writable_value h.2.2

end

end Writable

/-! ### A derivation with the least nesting -/

mutual

/-- A value that can be written has a derivation. -/
theorem exists_argument : ∀ v : Value, v.Writable →
    ∃ a : Argument, a.value = v ∧ ∀ t ∈ a.tokens, t.Writable
  | .text s, h => ⟨.text s, rfl, List.forall_mem_singleton.2 h⟩
  | .integer n, _ => ⟨.integer n, rfl, List.forall_mem_singleton.2 trivial⟩
  | .float x, h => ⟨.float x, rfl, List.forall_mem_singleton.2 h⟩
  | .boolean b, _ => ⟨.boolean b, rfl, List.forall_mem_singleton.2 trivial⟩
  | .list items, h => by
      rcases exists_arguments items h with rfl | ⟨arguments, rfl, htokens⟩
      · exact ⟨.empty, rfl, List.forall_mem_cons.2 ⟨trivial, List.forall_mem_singleton.2 trivial⟩⟩
      · refine ⟨.list arguments, rfl, ?_⟩
        rw [Argument.tokens, List.forall_mem_cons, List.forall_mem_append]
        exact ⟨trivial, htokens, List.forall_mem_singleton.2 trivial⟩

theorem exists_arguments : ∀ vs : List Value, Value.AllWritable vs →
    vs = [] ∨ ∃ items : Arguments, items.values = vs ∧ ∀ t ∈ items.tokens, t.Writable
  | [], _ => .inl rfl
  | v :: vs, h => by
      obtain ⟨a, rfl, htokens⟩ := exists_argument v h.1
      rcases exists_arguments vs h.2 with rfl | ⟨items, rfl, hrest⟩
      · exact .inr ⟨.last a, rfl, htokens⟩
      · refine .inr ⟨.more a items, rfl, ?_⟩
        rw [Arguments.tokens, List.forall_mem_append, List.forall_mem_cons]
        exact ⟨htokens, trivial, hrest⟩

end

theorem exists_phrase {c : Constraint} (h : c.Writable) :
    ∃ p : Phrase, p.tree = .constraint c ∧
      p.nesting = (Expr.constraint c).leastNesting .constraint ∧ ∀ t ∈ p.tokens, t.Writable := by
  cases c with
  | presence name => exact ⟨.presence name, rfl, rfl, List.forall_mem_singleton.2 h⟩
  | comparison name op v =>
    obtain ⟨hname, hop, hv⟩ := h
    obtain ⟨a, rfl, htokens⟩ := exists_argument v hv
    refine ⟨.comparison name op a, rfl, a.listDepth_value.symm, ?_⟩
    rw [Phrase.tokens, List.forall_mem_cons, List.forall_mem_cons]
    exact ⟨hname, writable_operatorToken.2 hop, htokens⟩

/-- Where the grammar derives a filter from each of its rules. -/
structure Derivable (e : Expr) : Prop where
  disjunction : ∃ d : Disjunction, d.tree = e ∧ d.nesting = e.leastNesting .disjunction ∧
    ∀ t ∈ d.tokens, t.Writable
  conjunction : ∃ d : Conjunction, d.tree = e ∧ d.nesting = e.leastNesting .conjunction ∧
    ∀ t ∈ d.tokens, t.Writable
  phrase : ∃ d : Phrase, d.tree = e ∧ d.nesting = e.leastNesting .constraint ∧
    ∀ t ∈ d.tokens, t.Writable

theorem writable_group {d : Disjunction} (h : ∀ t ∈ d.tokens, t.Writable) :
    ∀ t ∈ (Phrase.group d).tokens, t.Writable := by
  rw [Phrase.tokens, List.forall_mem_cons, List.forall_mem_append]
  exact ⟨trivial, h, List.forall_mem_singleton.2 trivial⟩

theorem Derivable.of_phrase {p : Phrase} (hn : p.nesting = p.tree.leastNesting .constraint)
    (hd : p.tree.leastNesting .disjunction = p.tree.leastNesting .constraint)
    (hc : p.tree.leastNesting .conjunction = p.tree.leastNesting .constraint)
    (h : ∀ t ∈ p.tokens, t.Writable) : Derivable p.tree :=
  ⟨⟨.single (.single p), rfl, hn.trans hd.symm, h⟩, ⟨.single p, rfl, hn.trans hc.symm, h⟩,
    ⟨p, rfl, hn, h⟩⟩

/-- A conjunction stands for a constraint in a group. -/
theorem Derivable.of_conjunction {c : Conjunction}
    (hn : c.nesting = c.tree.leastNesting .conjunction)
    (hd : c.tree.leastNesting .disjunction = c.tree.leastNesting .conjunction)
    (hp : c.tree.leastNesting .constraint = 1 + c.tree.leastNesting .conjunction)
    (h : ∀ t ∈ c.tokens, t.Writable) : Derivable c.tree :=
  ⟨⟨.single c, rfl, hn.trans hd.symm, h⟩, ⟨c, rfl, hn, h⟩,
    ⟨.group (.single c), rfl, by rw [hp, ← hn, Nat.add_comm]; rfl, writable_group h⟩⟩

/-- A disjunction stands for anything else in a group. -/
theorem Derivable.of_disjunction {d : Disjunction}
    (hn : d.nesting = d.tree.leastNesting .disjunction)
    (hc : d.tree.leastNesting .conjunction = 1 + d.tree.leastNesting .disjunction)
    (hp : d.tree.leastNesting .constraint = 1 + d.tree.leastNesting .disjunction)
    (h : ∀ t ∈ d.tokens, t.Writable) : Derivable d.tree :=
  ⟨⟨d, rfl, hn, h⟩,
    ⟨.single (.group d), rfl, by rw [hc, ← hn, Nat.add_comm]; rfl, writable_group h⟩,
    ⟨.group d, rfl, by rw [hp, ← hn, Nat.add_comm]; rfl, writable_group h⟩⟩

end Grammar

open Grammar

/-- A tree that can be written has a derivation with the least nesting from each rule. -/
theorem Expr.derivable {e : Expr} (h : ∀ c ∈ e.constraints, c.Writable) : Derivable e := by
  induction e with
  | constraint c =>
    obtain ⟨p, htree, hn, htokens⟩ := exists_phrase (List.forall_mem_singleton.1 h)
    rw [← htree] at hn ⊢
    exact .of_phrase hn (by rw [htree]; rfl) (by rw [htree]; rfl) htokens
  | and l r ihl ihr =>
    rw [constraints, List.forall_mem_append] at h
    obtain ⟨p, rfl, hp, hleft⟩ := (ihl h.1).phrase
    obtain ⟨d, rfl, hd, hright⟩ := (ihr h.2).conjunction
    have hn : (Conjunction.link p d).nesting =
        (Conjunction.link p d).tree.leastNesting .conjunction := by
      rw [Conjunction.nesting, Conjunction.tree, leastNesting, if_neg (by decide), hp, hd,
        Nat.add_comm]
    have htokens : ∀ t ∈ (Conjunction.link p d).tokens, t.Writable :=
      List.forall_mem_append.2 ⟨hleft, List.forall_mem_cons.2 ⟨trivial, hright⟩⟩
    exact .of_conjunction hn rfl rfl htokens
  | or l r ihl ihr =>
    rw [constraints, List.forall_mem_append] at h
    obtain ⟨p, rfl, hp, hleft⟩ := (ihl h.1).conjunction
    obtain ⟨d, rfl, hd, hright⟩ := (ihr h.2).disjunction
    have hn : (Disjunction.link p d).nesting =
        (Disjunction.link p d).tree.leastNesting .disjunction := by
      rw [Disjunction.nesting, Disjunction.tree, leastNesting, if_pos rfl, hp, hd, Nat.add_comm]
    have htokens : ∀ t ∈ (Disjunction.link p d).tokens, t.Writable :=
      List.forall_mem_append.2 ⟨hleft, List.forall_mem_cons.2 ⟨trivial, hright⟩⟩
    exact .of_disjunction hn rfl rfl htokens

/-- **The image of the parser.**  A tree is read from some text exactly if its selectors are words
that are no number and no boolean, its tags are words, its floats are finite, its texts can be
quoted or stand by themselves, and its least nesting is at most 256. -/
theorem Expr.exists_parse_iff (e : Expr) :
    (∃ text, Expr.parse text = .ok e) ↔
      (∀ c ∈ e.constraints, c.Writable) ∧ e.leastNesting .disjunction ≤ 256 := by
  constructor
  · rintro ⟨text, hparse⟩
    obtain ⟨d, hderives, rfl, hn⟩ := parse_eq_ok_iff_derives.1 hparse
    have htokens := (derives_iff_writes.1 hderives).writable
    exact ⟨d.writable_constraints htokens, d.leastNesting_le.trans hn⟩
  · rintro ⟨hwritable, hn⟩
    obtain ⟨d, rfl, hd, htokens⟩ := (Expr.derivable hwritable).disjunction
    obtain ⟨cs, hwrites⟩ := Token.exists_writes_iff.2 htokens
    have hderives : Derives (String.ofList cs) d := by
      rw [derives_iff_writes, String.toList_ofList]
      exact hwrites
    exact ⟨_, parse_eq_ok_iff_derives.2 ⟨d, hderives, rfl, hd.trans_le hn⟩⟩

end Criteria
