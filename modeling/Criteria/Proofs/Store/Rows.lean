import Criteria.Store.Table
import Mathlib.Data.List.Forall2

/-!
# Rows, objects and records

Rows become objects and objects become records in the same way: one after the other, with their
number at hand, up to the first that does not do.  What is known of this one recursion says when a
table has records, and which row is named when it has none.

**Results.**
* `Table.numbered_eq_ok_iff` and `Table.numbered_eq_error_iff`: all items do, or a first one does
  not.
* `Table.objects_eq_ok_iff` and `Table.objects_eq_error_iff`: when a table has objects.
* `Table.records_eq_ok_iff` and `Table.records_eq_error_iff`: when it has records, too.
-/

namespace Criteria
namespace Table

section Numbered

variable {α β δ ε : Type} {g : α → Except δ β} {report : Nat → δ → ε} {index : Nat} {xs : List α}

/-- Makes the items of a list into others.  The first one that cannot be made is reported, with its
number; `index` is the number of the first item. -/
def numbered (g : α → Except δ β) (report : Nat → δ → ε) (index : Nat) :
    List α → Except ε (List β)
  | [] => .ok []
  | x :: xs =>
      match g x with
      | .error d => .error (report index d)
      | .ok y => (numbered g report (index + 1) xs).map (y :: ·)

theorem numbered_eq_ok_iff {ys : List β} :
    numbered g report index xs = .ok ys ↔ List.Forall₂ (fun x y => g x = .ok y) xs ys := by
  induction xs generalizing index ys with
  | nil => cases ys <;> simp [numbered]
  | cons x xs ih =>
    rw [numbered, List.forall₂_cons_left_iff]
    cases hx : g x with
    | error d => simp
    | ok y =>
      simp only [← @ih (index + 1)]
      cases numbered g report (index + 1) xs with
      | error e => simp [Except.map]
      | ok rest => simp [Except.map, eq_comm]

/-- The first item that cannot be made is the one that is reported. -/
theorem numbered_of_first {before after : List α} {x : α} {d : δ}
    (hbefore : ∀ earlier ∈ before, ∃ y, g earlier = .ok y) (hx : g x = .error d) :
    numbered g report index (before ++ x :: after) =
      .error (report (index + before.length) d) := by
  induction before generalizing index with
  | nil =>
    rw [List.nil_append, numbered, hx]
    rfl
  | cons first before ih =>
    obtain ⟨⟨y, hy⟩, hrest⟩ := List.forall_mem_cons.1 hbefore
    rw [List.cons_append, numbered, hy, List.length_cons, Nat.add_comm before.length,
      ← Nat.add_assoc]
    exact congrArg (Except.map (y :: ·)) (ih hrest)

theorem numbered_eq_error_iff {e : ε} :
    numbered g report index xs = .error e ↔ ∃ before x after d,
      xs = before ++ x :: after ∧ (∀ earlier ∈ before, ∃ y, g earlier = .ok y) ∧ g x = .error d ∧
        e = report (index + before.length) d := by
  constructor
  · intro h
    induction xs generalizing index with
    | nil => cases h
    | cons x xs ih =>
      rw [numbered] at h
      cases hx : g x with
      | error d =>
        rw [hx] at h
        exact ⟨[], x, xs, d, rfl, List.forall_mem_nil _, hx, (Except.error.inj h).symm⟩
      | ok y =>
        rw [hx] at h
        cases hrest : numbered g report (index + 1) xs with
        | ok ys => rw [hrest] at h; cases h
        | error e' =>
          rw [hrest] at h
          obtain rfl : e' = e := Except.error.inj h
          obtain ⟨before, x', after, d, rfl, hbefore, hx', rfl⟩ := ih hrest
          refine ⟨x :: before, x', after, d, rfl, ?_, hx', ?_⟩
          · exact List.forall_mem_cons.2 ⟨⟨y, hx⟩, hbefore⟩
          · rw [List.length_cons, Nat.add_comm before.length, ← Nat.add_assoc]
  · rintro ⟨before, x, after, d, rfl, hbefore, hx, rfl⟩
    exact numbered_of_first hbefore hx

end Numbered

variable {α ρ : Type} {columns : List String} {index : Nat}

/-- The object of a row, or the number of its cells if it has too many or too few. -/
def measured (columns : List String) (row : List α) : Except Nat (Object α) :=
  if row.length = columns.length then .ok (object columns row) else .error row.length

theorem measured_eq_ok_iff {row : List α} {o : Object α} :
    measured columns row = .ok o ↔ row.length = columns.length ∧ object columns row = o := by
  unfold measured
  split <;> simp_all

theorem measured_eq_error_iff {row : List α} {cells : Nat} :
    measured columns row = .error cells ↔ row.length ≠ columns.length ∧ row.length = cells := by
  unfold measured
  split <;> simp_all

theorem objectsFrom_eq_numbered (rows : List (List α)) :
    objectsFrom columns index rows =
      numbered (measured columns)
        (fun row cells => .storeResponse (.ragged row cells columns.length)) index rows := by
  induction rows generalizing index with
  | nil => rfl
  | cons row rows ih =>
    rw [objectsFrom, numbered, measured]
    split
    · rw [ih]
      rfl
    · rfl

theorem recordsFrom_eq_numbered (decode : Object α → Except String ρ) (os : List (Object α)) :
    recordsFrom decode index os =
      numbered decode (fun row reason => .storeResponse (.unreadable row reason)) index os := by
  induction os generalizing index with
  | nil => rfl
  | cons o os ih =>
    rw [recordsFrom, numbered, ih]
    cases decode o <;> rfl

variable {t : Table α} {decode : Object α → Except String ρ} {e : BuildError}

/-- A table has objects if all its rows have a cell for each column. -/
theorem objects_eq_ok_iff {os : List (Object α)} :
    t.objects = .ok os ↔ (∀ row ∈ t.rows, row.length = t.columns.length) ∧
      os = t.rows.map (object t.columns) := by
  rw [objects, objectsFrom_eq_numbered, numbered_eq_ok_iff]
  simp only [measured_eq_ok_iff, List.forall₂_and_left]
  rw [← List.forall₂_map_left_iff (R := Eq), List.forall₂_eq_eq_eq, eq_comm]

/-- Otherwise the first row that has too many or too few is named, with its number of cells. -/
theorem objects_eq_error_iff :
    t.objects = .error e ↔ ∃ before row after, t.rows = before ++ row :: after ∧
      (∀ earlier ∈ before, earlier.length = t.columns.length) ∧
      row.length ≠ t.columns.length ∧
      e = .storeResponse (.ragged before.length row.length t.columns.length) := by
  rw [objects, objectsFrom_eq_numbered, numbered_eq_error_iff]
  simp only [measured_eq_ok_iff, measured_eq_error_iff, Nat.zero_add, exists_and_left, exists_eq',
    and_true]
  constructor
  · rintro ⟨before, row, after, hsplit, hbefore, cells, ⟨hne, rfl⟩, he⟩
    exact ⟨before, row, after, hsplit, hbefore, hne, he⟩
  · rintro ⟨before, row, after, hsplit, hbefore, hne, he⟩
    exact ⟨before, row, after, hsplit, hbefore, row.length, ⟨hne, rfl⟩, he⟩

/-- Rows of the right length have objects, which are numbered as the rows are. -/
theorem records_of_measured (h : ∀ row ∈ t.rows, row.length = t.columns.length) :
    t.records decode =
      numbered decode (fun row reason => .storeResponse (.unreadable row reason)) 0
        (t.rows.map (object t.columns)) := by
  have hobjects := objects_eq_ok_iff.2 ⟨h, rfl⟩
  rw [Table.records, hobjects, ← recordsFrom_eq_numbered]
  rfl

theorem records_of_objects_error (h : t.objects = .error e) : t.records decode = .error e := by
  rw [Table.records, h]
  rfl

/-- A table has records if all its rows have the right length and can be decoded. -/
theorem records_eq_ok_iff {records : List ρ} :
    t.records decode = .ok records ↔ (∀ row ∈ t.rows, row.length = t.columns.length) ∧
      List.Forall₂ (fun row record => decode (object t.columns row) = .ok record)
        t.rows records := by
  cases hobjects : t.objects with
  | ok os =>
    have hrows := (objects_eq_ok_iff.1 hobjects).1
    rw [records_of_measured hrows, numbered_eq_ok_iff, List.forall₂_map_left_iff,
      and_iff_right hrows]
  | error e =>
    obtain ⟨before, row, after, hsplit, -, hne, -⟩ := objects_eq_error_iff.1 hobjects
    have hmem : row ∈ t.rows := hsplit ▸ List.mem_append_right _ List.mem_cons_self
    rw [records_of_objects_error hobjects]
    exact iff_of_false (by rintro ⟨⟩) fun h => hne (h.1 row hmem)

/-- Where all rows have the right length, the first one that cannot be decoded is named. -/
theorem records_eq_error_iff (h : ∀ row ∈ t.rows, row.length = t.columns.length) :
    t.records decode = .error e ↔ ∃ before row after reason, t.rows = before ++ row :: after ∧
      (∀ earlier ∈ before, ∃ record, decode (object t.columns earlier) = .ok record) ∧
      decode (object t.columns row) = .error reason ∧
      e = .storeResponse (.unreadable before.length reason) := by
  rw [records_of_measured h, numbered_eq_error_iff]
  constructor
  · rintro ⟨before', o, after', reason, hsplit, hbefore, hdecode, he⟩
    obtain ⟨before, rest, hrows, rfl, hrest⟩ := List.map_eq_append_iff.1 hsplit
    obtain ⟨row, after, rfl, rfl, -⟩ := List.map_eq_cons_iff.1 hrest
    rw [List.length_map, Nat.zero_add] at he
    refine ⟨before, row, after, reason, hrows, fun earlier hearlier => ?_, hdecode, he⟩
    exact hbefore _ (List.mem_map_of_mem hearlier)
  · rintro ⟨before, row, after, reason, hsplit, hbefore, hdecode, rfl⟩
    refine ⟨before.map (object t.columns), _, after.map (object t.columns), reason, ?_,
      fun o ho => ?_, hdecode, ?_⟩
    · rw [hsplit, List.map_append, List.map_cons]
    · obtain ⟨earlier, hearlier, rfl⟩ := List.mem_map.1 ho
      exact hbefore earlier hearlier
    · rw [List.length_map, Nat.zero_add]

end Table
end Criteria
