import Criteria.Sql.Query
import Mathlib.Data.List.Basic
import Mathlib.Data.List.Induction
import Mathlib.Data.List.Perm.Basic

/-!
# The selectors that a filter mentions

Both sides of a combinator start from the list that the combinator has received, so the two lists
that come back overlap in it, and often in more.  Merging adds only what is not there yet.  Hence
the shape of a filter leaves no trace: a walk inserts the names of the constraints from left to
right.

**Results.**
* `Selectors.visitor_walk`: what a walk makes of any list, in any monad.
* `Selectors.FirstMet.unique`: what is new to a list is fixed by its members and their order.
* `Selectors.selectors_eq`: the selectors of a filter are those of its constraints, each once.
* `Selectors.selectors_first_met`: a walk adds what it meets first, and the selected columns are
  what a walk from nothing collects.
-/

namespace Criteria
namespace Selectors

/-- The names of a list that were not seen before, each once, in the order in which the list has
them first. -/
structure FirstMet (seen names new : List String) : Prop where
  mem_iff : ∀ name, name ∈ new ↔ name ∈ names ∧ name ∉ seen
  ordered : new.Pairwise fun a b => names.idxOf a < names.idxOf b

/-! ### Inserting names one by one -/

section Insert

variable {name : String}

theorem insert_of_mem {seen : List String} (h : name ∈ seen) : insert seen name = seen := by
  simp [insert, h]

theorem insert_of_not_mem {seen : List String} (h : name ∉ seen) :
    insert seen name = seen ++ [name] := by
  simp [insert, h]

/-- Inserting names one by one keeps the first of equal ones. -/
theorem foldl_insert (names seen : List String) :
    names.foldl insert seen = seen ++ (names.removeAll seen).eraseDups := by
  induction names generalizing seen with
  | nil => simp [List.removeAll]
  | cons name names ih =>
    rw [List.foldl_cons, ih, insert]
    by_cases h : name ∈ seen
    · simp [h, List.removeAll]
    · have hrest : names.removeAll (seen ++ [name]) =
          (names.removeAll seen).filter fun other => !other == name := by
        simp only [List.removeAll, List.filter_filter]
        refine List.filter_congr fun other _ => ?_
        by_cases hseen : other ∈ seen <;> simp [hseen, beq_eq_decide]
      have hcons : (name :: names).removeAll seen = name :: names.removeAll seen := by
        simp [List.removeAll, h]
      simp [h, hrest, hcons, List.eraseDups_cons]

theorem mem_foldl_insert (names seen : List String) :
    name ∈ names.foldl insert seen ↔ name ∈ seen ∨ name ∈ names := by
  rw [foldl_insert, List.mem_append, List.mem_eraseDups]
  by_cases h : name ∈ seen <;> simp [List.removeAll, h]

/-- Names that are there already change nothing. -/
theorem foldl_insert_of_subset {names seen : List String} (h : names ⊆ seen) :
    names.foldl insert seen = seen := by
  induction names with
  | nil => rfl
  | cons name names ih =>
    obtain ⟨hname, hnames⟩ := List.cons_subset.1 h
    rw [List.foldl_cons, insert_of_mem hname, ih hnames]

/-- It makes no difference whether names are inserted one by one, or collected before that. -/
theorem foldl_insert_foldl (names collected seen : List String) :
    (names.foldl insert collected).foldl insert seen =
      names.foldl insert (collected.foldl insert seen) := by
  have hstep (name : String) (collected : List String) :
      (insert collected name).foldl insert seen = insert (collected.foldl insert seen) name := by
    by_cases h : name ∈ collected
    · have hmem : name ∈ collected.foldl insert seen := (mem_foldl_insert _ _).2 (.inr h)
      rw [insert_of_mem h, insert_of_mem hmem]
    · rw [insert_of_not_mem h, List.foldl_append, List.foldl_cons, List.foldl_nil]
  induction names generalizing collected with
  | nil => rfl
  | cons name names ih => rw [List.foldl_cons, ih, hstep, List.foldl_cons]

end Insert

/-! ### What is new to a list -/

section FirstMet

variable {seen names new new' : List String} {name : String}

theorem FirstMet.nodup (h : FirstMet seen names new) : new.Nodup :=
  h.ordered.imp fun hlt heq => absurd (heq ▸ hlt) (Nat.lt_irrefl _)

/-- What is new to a list is fixed by its members and their order. -/
theorem FirstMet.unique (h : FirstMet seen names new) (h' : FirstMet seen names new') :
    new = new' := by
  have hmem (name : String) : name ∈ new ↔ name ∈ new' :=
    (h.mem_iff name).trans (h'.mem_iff name).symm
  have hperm : new.Perm new' := (List.perm_ext_iff_of_nodup h.nodup h'.nodup).2 hmem
  refine hperm.eq_of_pairwise (fun a b _ _ hab hba => ?_) h.ordered h'.ordered
  exact absurd (Nat.lt_trans hab hba) (Nat.lt_irrefl _)

theorem FirstMet.nil : FirstMet seen [] [] :=
  ⟨fun name => by simp, .nil⟩

/-- A name that is no longer new may follow. -/
theorem FirstMet.concat_old (h : FirstMet seen names new) (hname : name ∈ seen ∨ name ∈ names) :
    FirstMet seen (names ++ [name]) new where
  mem_iff other := by
    rw [h.mem_iff, List.mem_append, List.mem_singleton]
    constructor
    · exact fun ⟨hother, hseen⟩ => ⟨.inl hother, hseen⟩
    · rintro ⟨hother | rfl, hseen⟩
      · exact ⟨hother, hseen⟩
      · exact ⟨hname.resolve_left hseen, hseen⟩
  ordered := by
    refine h.ordered.imp_of_mem fun {a b} ha hb hlt => ?_
    rwa [List.idxOf_append_of_mem ((h.mem_iff a).1 ha).1,
      List.idxOf_append_of_mem ((h.mem_iff b).1 hb).1]

/-- A new name comes last. -/
theorem FirstMet.concat_new (h : FirstMet seen names new) (hseen : name ∉ seen)
    (hnames : name ∉ names) : FirstMet seen (names ++ [name]) (new ++ [name]) where
  mem_iff other := by
    rw [List.mem_append, List.mem_append, List.mem_singleton, h.mem_iff, or_and_right]
    refine or_congr_right ⟨?_, And.left⟩
    rintro rfl
    exact ⟨rfl, hseen⟩
  ordered := by
    have hfirst {other : String} (hother : other ∈ new) :
        (names ++ [name]).idxOf other = names.idxOf other :=
      List.idxOf_append_of_mem ((h.mem_iff other).1 hother).1
    rw [List.pairwise_append]
    refine ⟨h.ordered.imp_of_mem fun {a b} ha hb hlt => ?_, List.pairwise_singleton _ _, ?_⟩
    · rwa [hfirst ha, hfirst hb]
    · intro other hother last hlast
      have hplace := List.idxOf_lt_length_of_mem ((h.mem_iff other).1 hother).1
      rw [List.mem_singleton.1 hlast, hfirst hother, List.idxOf_append_of_notMem hnames]
      exact Nat.lt_of_lt_of_le hplace (Nat.le_add_right _ _)

/-- Inserting names one by one adds what is new. -/
theorem exists_firstMet (seen names : List String) :
    ∃ new, FirstMet seen names new ∧ names.foldl insert seen = seen ++ new := by
  induction names using List.reverseRecOn with
  | nil => exact ⟨[], .nil, (List.append_nil _).symm⟩
  | append_singleton names name ih =>
    obtain ⟨new, hnew, hfold⟩ := ih
    rw [List.foldl_append, List.foldl_cons, List.foldl_nil]
    by_cases hold : name ∈ seen ∨ name ∈ names
    · refine ⟨new, hnew.concat_old hold, ?_⟩
      rw [insert_of_mem ((mem_foldl_insert _ _).2 hold), hfold]
    · obtain ⟨hseen, hnames⟩ := not_or.1 hold
      refine ⟨new ++ [name], hnew.concat_new hseen hnames, ?_⟩
      rw [insert_of_not_mem (mt (mem_foldl_insert _ _).1 hold), hfold, List.append_assoc]

end FirstMet

/-! ### Walks -/

section Walk

variable {m : Type → Type} [Monad m] [LawfulMonad m]

/-- A walk inserts the names of the constraints from left to right, and has no effect in any monad:
where it could fail, it does not.  Both sides start from `seen`, so the names seen before come back
a second time; they are there already when the sides are merged. -/
theorem visitor_walk (root e : Expr) (seen : List String) :
    (visitor (m := m)).walk root e seen =
      pure ((e.constraints.map Constraint.selector).foldl insert seen) := by
  induction e with
  | constraint leaf =>
    cases leaf with
    | presence name => rfl
    | comparison name op value => cases op <;> rfl
  | and l r ihl ihr | or l r ihl ihr =>
    have hmerge (left right : List String) :
        merge (left.foldl insert seen) (right.foldl insert seen) =
          (left ++ right).foldl insert seen := by
      have hseen : seen ⊆ left.foldl insert seen := fun name hname =>
        (mem_foldl_insert _ _).2 (.inl hname)
      rw [merge, foldl_insert_foldl, foldl_insert_of_subset hseen, List.foldl_append]
    rw [Visitor.walk, ihl, ihr, pure_bind, pure_bind, Expr.constraints, List.map_append, ← hmerge]
    rfl

theorem selectors_eq_foldl (e : Expr) :
    e.selectors = (e.constraints.map Constraint.selector).foldl insert [] :=
  congrArg Id.run (visitor_walk (m := Id) e e [])

theorem visitor_run_eq_pure (e : Expr) : (visitor (m := m)).run e = pure e.selectors := by
  have hinit : (visitor (m := m)).init e = pure [] := rfl
  rw [Visitor.run, hinit, pure_bind, visitor_walk, pure_bind, selectors_eq_foldl]
  rfl

end Walk

/-- The selectors of a filter are those of its constraints, each once, in the order of first
appearance. -/
theorem selectors_eq (e : Expr) :
    e.selectors = (e.constraints.map Constraint.selector).eraseDups := by
  have hall (names : List String) : names.removeAll [] = names := by simp [List.removeAll]
  rw [selectors_eq_foldl, foldl_insert, hall, List.nil_append]

/-- **Each selector once, where it is met first.**  Walking any part of a filter, from whatever list
of names, succeeds; it leaves the list as it is and adds the selectors of the constraints that are
not in it, each once, from left to right.  A complete walk starts from nothing.  If the columns of a
query are the selectors of its filter, they are what this walk gives, and depend on the selectors
from left to right only, not on the shape of the filter. -/
theorem selectors_first_met (root e : Expr) (seen : List String) :
    (∃ new, (∀ names, FirstMet seen (e.constraints.map Constraint.selector) names ↔ names = new) ∧
      (visitor (m := Except BuildError)).walk root e seen = .ok (seen ++ new)) ∧
    (visitor (m := Except BuildError)).run e = .ok e.selectors ∧
    (∀ names, FirstMet [] (e.constraints.map Constraint.selector) names ↔ names = e.selectors) ∧
    ∀ options : Sql.Options, options.select = .fromSelectors →
      options.projection e = ", ".intercalate e.selectors ∧
      ∀ e' : Expr, e'.constraints.map Constraint.selector = e.constraints.map Constraint.selector →
        options.projection e' = options.projection e := by
  have hiff {seen names new : List String} (h : FirstMet seen names new) (other : List String) :
      FirstMet seen names other ↔ other = new :=
    ⟨fun hother => hother.unique h, fun heq => heq ▸ h⟩
  refine ⟨?walk, visitor_run_eq_pure e, ?run, fun options hselect => ?columns⟩
  case walk =>
    obtain ⟨new, hnew, hfold⟩ := exists_firstMet seen (e.constraints.map Constraint.selector)
    exact ⟨new, hiff hnew, (visitor_walk root e seen).trans (congrArg Except.ok hfold)⟩
  case run =>
    obtain ⟨new, hnew, hfold⟩ := exists_firstMet [] (e.constraints.map Constraint.selector)
    rw [selectors_eq_foldl, hfold]
    exact hiff hnew
  case columns =>
    have hcolumns (e : Expr) : options.projection e = ", ".intercalate e.selectors := by
      rw [Sql.Options.projection, hselect]
    refine ⟨hcolumns e, fun e' hnames => ?_⟩
    rw [hcolumns, hcolumns, selectors_eq, selectors_eq, hnames]

end Selectors
end Criteria
