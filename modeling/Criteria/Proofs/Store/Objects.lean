import Criteria.Proofs.Store.Rows
import Mathlib.Data.List.Induction
import Mathlib.Data.List.Dedup

/-!
# The objects of a table

What the object of a row holds.  A row is taken cell by cell, and each cell is put under the name of
its column; a later cell takes the place of an earlier one of the same name.  So the object of a row
with one cell more is known from the object of the row without it, and the rest is an induction on
columns and cells from the right.

**Results.**
* `Table.isObjectOf_object` and `Table.IsObjectOf.unique`: the object of a row, by its names and
  their values.
* `Table.IsObjectOf.arranged`: where all names differ, the order of the columns makes no difference.
* `Table.objects_lossless`: rows become objects without loss.
-/

namespace Criteria
namespace Table

variable {α β : Type} {columns : List String} {row : List α} {o o' : Object α} {name : String}
  {cell : α} {k k' : Nat}

/-- Of the columns with this name, the one at place `k` is the last. -/
def IsLast (columns : List String) (name : String) (k : Nat) : Prop :=
  columns[k]? = some name ∧ ∀ j, k < j → columns[j]? ≠ some name

/-- The object of a row: it has the names of the columns, each once, and under each name the cell
in the last column of that name. -/
structure IsObjectOf (columns : List String) (row : List α) (o : Object α) : Prop where
  keys_perm : o.keys.Perm columns.dedup
  value : ∀ name ∈ columns, ∃ k cell,
    IsLast columns name k ∧ row[k]? = some cell ∧ o[name]? = some cell

/-- What stands at the given places of a list. -/
def arranged (places : List Nat) (xs : List β) : List β :=
  places.filterMap fun k => xs[k]?

/-- The table with its columns, and the cells of each row, in another order. -/
def rearranged (places : List Nat) (t : Table α) : Table α :=
  ⟨arranged places t.columns, t.rows.map (arranged places)⟩

/-! ### Last columns -/

section Last

theorem isLast_concat_self (columns : List String) (name : String) :
    IsLast (columns ++ [name]) name columns.length := by
  refine ⟨List.getElem?_concat_length, fun j hj => ?_⟩
  rw [List.getElem?_eq_none (by rw [List.length_append, List.length_singleton]; omega)]
  exact nofun

theorem IsLast.concat {other : String} (h : IsLast columns name k) (hne : other ≠ name) :
    IsLast (columns ++ [other]) name k := by
  obtain ⟨hk, hlater⟩ := h
  have hlt : k < columns.length := (List.getElem?_eq_some_iff.1 hk).1
  refine ⟨by rwa [List.getElem?_append_left hlt], fun j hj => ?_⟩
  rcases Nat.lt_trichotomy j columns.length with hj' | rfl | hj'
  · rw [List.getElem?_append_left hj']
    exact hlater j hj
  · rw [List.getElem?_concat_length]
    exact fun h => hne (Option.some.inj h)
  · rw [List.getElem?_eq_none (by rw [List.length_append, List.length_singleton]; omega)]
    exact nofun

theorem IsLast.unique (h : IsLast columns name k) (h' : IsLast columns name k') : k = k' := by
  rcases Nat.lt_trichotomy k k' with hlt | rfl | hlt
  · exact absurd h'.1 (h.2 k' hlt)
  · rfl
  · exact absurd h.1 (h'.2 k hlt)

/-- Where all names differ, every column is the last of its name. -/
theorem isLast_of_nodup (hnodup : columns.Nodup) (hk : columns[k]? = some name) :
    IsLast columns name k := by
  refine ⟨hk, fun j hj hname => ?_⟩
  have hlt : k < columns.length := (List.getElem?_eq_some_iff.1 hk).1
  exact absurd ((List.getElem?_inj hlt hnodup).1 (hk.trans hname.symm)) (Nat.ne_of_lt hj)

end Last

/-! ### The object of a row -/

theorem keys_perm_iff : o.keys.Perm columns.dedup ↔ ∀ name, name ∈ o ↔ name ∈ columns := by
  rw [List.perm_ext_iff_of_nodup Std.ExtTreeMap.nodup_keys (List.nodup_dedup _)]
  simp only [Std.ExtTreeMap.mem_keys, List.mem_dedup]

theorem IsObjectOf.mem_iff (h : IsObjectOf columns row o) : name ∈ o ↔ name ∈ columns :=
  keys_perm_iff.1 h.keys_perm name

theorem isObjectOf_nil : IsObjectOf [] [] (∅ : Object α) :=
  ⟨keys_perm_iff.2 (by simp), by simp⟩

/-- One cell more is put under the name of its column. -/
theorem IsObjectOf.insert (h : IsObjectOf columns row o) (hlength : row.length = columns.length)
    (name : String) (cell : α) :
    IsObjectOf (columns ++ [name]) (row ++ [cell]) (o.insert name cell) where
  keys_perm := by
    refine keys_perm_iff.2 fun other => ?_
    rw [Std.ExtTreeMap.mem_insert, h.mem_iff, Std.compare_eq_iff_eq, List.mem_append,
      List.mem_singleton, or_comm, eq_comm]
  value other hother := by
    by_cases heq : name = other
    · subst heq
      refine ⟨columns.length, cell, isLast_concat_self columns name, ?_, ?_⟩
      · rw [← hlength, List.getElem?_concat_length]
      · rw [Std.ExtTreeMap.getElem?_insert, if_pos (Std.compare_eq_iff_eq.2 rfl)]
    · have hmem : other ∈ columns := by
        rcases List.mem_append.1 hother with hmem | hmem
        · exact hmem
        · exact absurd (List.mem_singleton.1 hmem).symm heq
      obtain ⟨k, value, hlast, hvalue, ho⟩ := h.value other hmem
      have hlt : k < row.length := (List.getElem?_eq_some_iff.1 hvalue).1
      refine ⟨k, value, hlast.concat heq, by rwa [List.getElem?_append_left hlt], ?_⟩
      rwa [Std.ExtTreeMap.getElem?_insert, if_neg (fun h => heq (Std.compare_eq_iff_eq.1 h))]

theorem object_concat (hlength : row.length = columns.length) :
    object (columns ++ [name]) (row ++ [cell]) = (object columns row).insert name cell := by
  rw [object, List.zip_append hlength.symm, List.foldl_append]
  rfl

theorem isObjectOf_object (hlength : row.length = columns.length) :
    IsObjectOf columns row (object columns row) := by
  induction columns using List.reverseRecOn generalizing row with
  | nil =>
    obtain rfl := List.length_eq_zero_iff.1 hlength
    exact isObjectOf_nil
  | append_singleton columns name ih =>
    rcases List.eq_nil_or_concat' row with rfl | ⟨row, cell, rfl⟩
    · simp at hlength
    · have hrest : row.length = columns.length := by simpa using hlength
      rw [object_concat hrest]
      exact (ih hrest).insert hrest name cell

/-- A row has one object only. -/
theorem IsObjectOf.unique (h : IsObjectOf columns row o) (h' : IsObjectOf columns row o') :
    o = o' := by
  refine Std.ExtTreeMap.ext_getElem? fun name => ?_
  by_cases hmem : name ∈ columns
  · obtain ⟨k, cell, hlast, hcell, ho⟩ := h.value name hmem
    obtain ⟨k', cell', hlast', hcell', ho'⟩ := h'.value name hmem
    obtain rfl := hlast.unique hlast'
    rw [ho, ho', ← hcell, ← hcell']
  · rw [Std.ExtTreeMap.getElem?_eq_none (mt h.mem_iff.1 hmem),
      Std.ExtTreeMap.getElem?_eq_none (mt h'.mem_iff.1 hmem)]

/-! ### Names that all differ -/

section Distinct

variable {places : List Nat}

/-- No cell is lost. -/
theorem IsObjectOf.getElem?_eq (h : IsObjectOf columns row o) (hnodup : columns.Nodup)
    (hk : columns[k]? = some name) : o[name]? = row[k]? := by
  obtain ⟨k', cell, hlast, hcell, ho⟩ := h.value name (List.mem_of_getElem? hk)
  obtain rfl := (isLast_of_nodup hnodup hk).unique hlast
  rw [ho, hcell]

theorem getElem?_arranged {xs : List β} (hplaces : ∀ k ∈ places, k < xs.length) (i : Nat) :
    (arranged places xs)[i]? = places[i]?.bind fun k => xs[k]? := by
  induction places generalizing i with
  | nil => rfl
  | cons k places ih =>
    obtain ⟨hk, hrest⟩ := List.forall_mem_cons.1 hplaces
    rw [arranged, List.filterMap_cons_some (List.getElem?_eq_getElem hk)]
    cases i with
    | zero => exact (List.getElem?_eq_getElem hk).symm
    | succ i => exact ih hrest i

theorem length_arranged {xs : List β} (hplaces : ∀ k ∈ places, k < xs.length) :
    (arranged places xs).length = places.length := by
  rw [arranged, List.filterMap_length_eq_length]
  exact fun k hk => (List.getElem?_eq_getElem (hplaces k hk)) ▸ rfl

/-- All places, in another order, give the same list in another order. -/
theorem perm_arranged {xs : List β} (hplaces : places.Perm (List.range xs.length)) :
    (arranged places xs).Perm xs := by
  have hrange : arranged (List.range xs.length) xs = xs := by
    refine List.ext_getElem? fun i => ?_
    rw [getElem?_arranged fun k hk => List.mem_range.1 hk]
    by_cases hi : i < xs.length
    · rw [List.getElem?_range hi]
      rfl
    · rw [List.getElem?_eq_none (by simpa using hi), List.getElem?_eq_none (by simpa using hi)]
      rfl
  have hperm := hplaces.filterMap fun k => xs[k]?
  rwa [← arranged, ← arranged, hrange] at hperm

/-- The object of a row is also that of its cells in another order, if the columns come in the same
order. -/
theorem IsObjectOf.arranged (h : IsObjectOf columns row o) (hlength : row.length = columns.length)
    (hnodup : columns.Nodup) (hplaces : places.Perm (List.range columns.length)) :
    IsObjectOf (arranged places columns) (arranged places row) o := by
  have hlt : ∀ k ∈ places, k < columns.length := fun k hk =>
    List.mem_range.1 (hplaces.mem_iff.1 hk)
  have hperm := perm_arranged hplaces
  refine ⟨keys_perm_iff.2 fun name => ?_, fun name hname => ?_⟩
  · rw [h.mem_iff, hperm.mem_iff]
  · obtain ⟨i, hi⟩ := List.mem_iff_getElem?.1 hname
    have hcolumn := hi
    rw [getElem?_arranged hlt, Option.bind_eq_some_iff] at hcolumn
    obtain ⟨k, hk, hkname⟩ := hcolumn
    have hkrow : k < row.length := hlength ▸ (List.getElem?_eq_some_iff.1 hkname).1
    have hcell := List.getElem?_eq_getElem hkrow
    refine ⟨i, row[k], isLast_of_nodup (hperm.nodup_iff.2 hnodup) hi, ?_, ?_⟩
    · rw [getElem?_arranged (by rwa [hlength]), hk]
      exact hcell
    · rw [h.getElem?_eq hnodup hkname, hcell]

end Distinct

/-! ### The objects of all rows -/

variable {t : Table α} {os : List (Object α)}

theorem objects_eq_ok_iff_isObjectOf :
    t.objects = .ok os ↔ (∀ row ∈ t.rows, row.length = t.columns.length) ∧
      List.Forall₂ (IsObjectOf t.columns) t.rows os := by
  rw [objects_eq_ok_iff]
  refine and_congr_right fun hlength => ?_
  have hobjects : List.Forall₂ (IsObjectOf t.columns) t.rows (t.rows.map (object t.columns)) :=
    List.forall₂_map_right_iff.2
      (List.forall₂_same.2 fun row hrow => isObjectOf_object (hlength row hrow))
  constructor
  · rintro rfl
    exact hobjects
  · intro h
    have hunique : Relator.RightUnique (IsObjectOf (α := α) t.columns) :=
      fun _ _ _ => IsObjectOf.unique
    exact List.right_unique_forall₂' hunique h hobjects

/-- Where all names differ, a table in another order of its columns has the same objects. -/
theorem objects_rearranged (h : t.objects = .ok os) (hnodup : t.columns.Nodup) {places : List Nat}
    (hplaces : places.Perm (List.range t.columns.length)) :
    (t.rearranged places).objects = .ok os := by
  have hlt : ∀ k ∈ places, k < t.columns.length := fun k hk =>
    List.mem_range.1 (hplaces.mem_iff.1 hk)
  obtain ⟨hlength, hrows⟩ := objects_eq_ok_iff_isObjectOf.1 h
  refine objects_eq_ok_iff_isObjectOf.2 ⟨?_, List.forall₂_map_left_iff.2 ?_⟩
  · refine List.forall_mem_map.2 fun row hrow => ?_
    rw [length_arranged (by rwa [hlength row hrow])]
    exact (length_arranged hlt).symm
  · have hboth := (List.forall₂_and_left _ _).2 ⟨hlength, hrows⟩
    exact hboth.imp fun row o hrow => hrow.2.arranged hrow.1 hnodup hplaces

/-- **Rows become objects without loss.**  A table has objects if and only if each row has as many
cells as there are columns.  There is one object for each row, then, with the names of the columns
and under each name the cell in its last column; so no cell is lost where all names differ, and the
order of the columns makes no difference.  Otherwise the error names the first row that has too many
or too few cells, their number, and the number of columns. -/
theorem objects_lossless (t : Table α) :
    ((∃ os, t.objects = .ok os) ↔ ∀ row ∈ t.rows, row.length = t.columns.length) ∧
    (∀ os, t.objects = .ok os →
      os.length = t.rows.length ∧ List.Forall₂ (IsObjectOf t.columns) t.rows os ∧
      (t.columns.Nodup →
        List.Forall₂
          (fun row o => ∀ (k : Nat) (name : String), t.columns[k]? = some name → o[name]? = row[k]?)
          t.rows os ∧
        ∀ places : List Nat, places.Perm (List.range t.columns.length) →
          (t.rearranged places).objects = .ok os)) ∧
    (∀ e, t.objects = .error e ↔ ∃ before row after, t.rows = before ++ row :: after ∧
      (∀ earlier ∈ before, earlier.length = t.columns.length) ∧
      row.length ≠ t.columns.length ∧
      e = .storeResponse (.ragged before.length row.length t.columns.length) ∧
      e.message = "unexpected store response: " ++ ("row " ++ toString before.length ++ " has " ++
        toString row.length ++ " cells, expected " ++ toString t.columns.length)) := by
  refine ⟨⟨?sound, ?complete⟩, fun os h => ?objects, fun e => ?error⟩
  case sound =>
    rintro ⟨os, h⟩
    exact (objects_eq_ok_iff.1 h).1
  case complete => exact fun h => ⟨_, objects_eq_ok_iff.2 ⟨h, rfl⟩⟩
  case objects =>
    obtain ⟨-, hrows⟩ := objects_eq_ok_iff_isObjectOf.1 h
    refine ⟨hrows.length_eq.symm, hrows, fun hnodup => ⟨?_, fun places hplaces => ?_⟩⟩
    · refine hrows.imp fun row o ho => ?_
      intro k name hk
      exact ho.getElem?_eq hnodup hk
    · exact objects_rearranged h hnodup hplaces
  case error =>
    rw [objects_eq_error_iff]
    constructor
    · rintro ⟨before, row, after, hrows, hbefore, hrow, rfl⟩
      exact ⟨before, row, after, hrows, hbefore, hrow, rfl, rfl⟩
    · rintro ⟨before, row, after, hrows, hbefore, hrow, he, -⟩
      exact ⟨before, row, after, hrows, hbefore, hrow, he⟩

/-- Of two columns with one name the last counts. -/
example : (object ["a", "b", "a"] [1, 2, 3])["a"]? = some 3 := by decide

end Table
end Criteria
