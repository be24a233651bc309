import Criteria.Proofs.Store.Objects
import Criteria.Store.Fetch

/-!
# The effects of fetching

What fetching answers, and what it asks the store.  The store is any function from a query to a
table or an error, and it is made to write down the queries that it is asked, so that none of them
can go unnoticed.

**Results.**
* `Table.Decodes`: what the decoder makes of a row, by the names and cells of its object.
* `Sql.Fetched`: the ways in which fetching may end, each with the queries that it takes.
* `Sql.fetch_effects`: fetching ends in the one of these ways that the filter, the store and the
  decoder call for.
-/

namespace Criteria

namespace Table

variable {α ρ : Type} {columns : List String} {row : List α} {t : Table α}
  {decode : Object α → Except String ρ}

/-- What the decoder makes of the object of a row. -/
def Decodes (columns : List String) (decode : Object α → Except String ρ) (row : List α)
    (answer : Except String ρ) : Prop :=
  ∃ o, IsObjectOf columns row o ∧ decode o = answer

theorem decodes_iff {answer : Except String ρ} (hlength : row.length = columns.length) :
    Decodes columns decode row answer ↔ decode (object columns row) = answer := by
  constructor
  · rintro ⟨o, ho, hanswer⟩
    rwa [(isObjectOf_object hlength).unique ho]
  · exact fun hanswer => ⟨_, isObjectOf_object hlength, hanswer⟩

theorem records_eq_ok_iff_decodes {records : List ρ} :
    t.records decode = .ok records ↔ (∀ row ∈ t.rows, row.length = t.columns.length) ∧
      List.Forall₂ (fun row record => Decodes t.columns decode row (.ok record))
        t.rows records := by
  rw [records_eq_ok_iff]
  refine and_congr_right fun hlength => ⟨fun h => ?_, fun h => ?_⟩
  · have hboth := (List.forall₂_and_left _ _).2 ⟨hlength, h⟩
    exact hboth.imp fun row record hrow => (decodes_iff hrow.1).2 hrow.2
  · have hboth := (List.forall₂_and_left _ _).2 ⟨hlength, h⟩
    exact hboth.imp fun row record hrow => (decodes_iff hrow.1).1 hrow.2

theorem records_eq_error_iff_decodes {e : BuildError}
    (hlength : ∀ row ∈ t.rows, row.length = t.columns.length) :
    t.records decode = .error e ↔ ∃ before row after reason, t.rows = before ++ row :: after ∧
      (∀ earlier ∈ before, ∃ record, Decodes t.columns decode earlier (.ok record)) ∧
      Decodes t.columns decode row (.error reason) ∧
      e = .storeResponse (.unreadable before.length reason) := by
  rw [records_eq_error_iff hlength]
  refine exists_congr fun before => exists_congr fun row => exists_congr fun after =>
    exists_congr fun reason => and_congr_right fun hrows => ?_
  rw [hrows, List.forall_mem_append, List.forall_mem_cons] at hlength
  obtain ⟨hbefore, hrow, -⟩ := hlength
  refine and_congr ?_ (and_congr_left' (decodes_iff hrow).symm)
  refine forall₂_congr fun earlier hearlier => exists_congr fun record => ?_
  exact (decodes_iff (hbefore earlier hearlier)).symm

end Table

namespace Sql

variable {α ρ : Type}

/-- The store that writes down the queries that it is asked. -/
def recording (store : String → Except BuildError (Table α)) :
    String → ExceptT BuildError (StateM (List String)) (Table α) :=
  fun query => ExceptT.mk fun asked => (store query, asked ++ [query])

/-- The answer of fetching, and the queries that the store is asked on the way. -/
def Options.fetched (options : Options) (store : String → Except BuildError (Table α))
    (decode : Object α → Except String ρ) (root : Expr) :
    Except BuildError (List ρ) × List String :=
  Id.run ((options.fetch (recording store) decode root).run.run [])

/-- How fetching ends, given what became of building the query. -/
inductive Fetched (query : Except BuildError String) (store : String → Except BuildError (Table α))
    (decode : Object α → Except String ρ) : Except BuildError (List ρ) × List String → Prop
  /-- Without a query the store is not asked. -/
  | unbuilt {e : BuildError} (hquery : query = .error e) : Fetched query store decode (.error e, [])
  /-- The store is asked that query, once, and its error is returned as it is. -/
  | refused {sql : String} {e : BuildError} (hquery : query = .ok sql)
      (hstore : store sql = .error e) : Fetched query store decode (.error e, [sql])
  /-- The first row with too many or too few cells is named, whatever could be decoded. -/
  | ragged {sql : String} {t : Table α} {before after : List (List α)} {row : List α}
      (hquery : query = .ok sql) (hstore : store sql = .ok t)
      (hrows : t.rows = before ++ row :: after)
      (hbefore : ∀ earlier ∈ before, earlier.length = t.columns.length)
      (hrow : row.length ≠ t.columns.length) :
      Fetched query store decode
        (.error (.storeResponse (.ragged before.length row.length t.columns.length)), [sql])
  /-- If all rows have the right length, the first one that cannot be decoded is named. -/
  | unreadable {sql : String} {t : Table α} {before after : List (List α)} {row : List α}
      {reason : String} (hquery : query = .ok sql) (hstore : store sql = .ok t)
      (hmeasured : ∀ row ∈ t.rows, row.length = t.columns.length)
      (hrows : t.rows = before ++ row :: after)
      (hbefore : ∀ earlier ∈ before, ∃ record, Table.Decodes t.columns decode earlier (.ok record))
      (hrow : Table.Decodes t.columns decode row (.error reason)) :
      Fetched query store decode
        (.error (.storeResponse (.unreadable before.length reason)), [sql])
  /-- Otherwise each row gives the record in its place. -/
  | complete {sql : String} {t : Table α} {records : List ρ} (hquery : query = .ok sql)
      (hstore : store sql = .ok t) (hmeasured : ∀ row ∈ t.rows, row.length = t.columns.length)
      (hrecords : List.Forall₂
        (fun row record => Table.Decodes t.columns decode row (.ok record)) t.rows records) :
      Fetched query store decode (.ok records, [sql])

/-! ### Fetching in any monad -/

section Effects

variable {m : Type → Type} [Monad m] [LawfulMonad m] {options : Options} {root : Expr}
  {store : String → ExceptT BuildError m (Table α)} {decode : Object α → Except String ρ}

/-- Without a query the store has no effect. -/
theorem fetch_of_error {e : BuildError} (h : options.toSql root = .error e) :
    options.fetch store decode root = throw e := by
  refine ExceptT.ext ?_
  rw [Options.fetch, h, ExceptT.run_bind, ExceptT.run_mk, pure_bind, ExceptT.run_throw]

/-- The effects of fetching are those of asking the store for the query. -/
theorem fetch_of_query {sql : String} (h : options.toSql root = .ok sql) :
    options.fetch store decode root =
      store sql >>= fun t => ExceptT.mk (pure (t.records decode)) := by
  rw [Options.fetch, h]
  exact pure_bind sql _

end Effects

/-! ### Fetching from a store that writes down -/

section Fetched

variable {options : Options} {store : String → Except BuildError (Table α)}
  {decode : Object α → Except String ρ} {root : Expr}

theorem fetched_of_error {e : BuildError} (h : options.toSql root = .error e) :
    options.fetched store decode root = (.error e, []) := by
  rw [Options.fetched, fetch_of_error h]
  rfl

theorem fetched_of_query {sql : String} (h : options.toSql root = .ok sql) :
    options.fetched store decode root =
      ((store sql).bind fun t => t.records decode, [sql]) := by
  have hstore : Id.run ((recording store sql).run.run []) = (store sql, [sql]) := rfl
  rw [Options.fetched, fetch_of_query h]
  simp only [ExceptT.run_bind, StateT.run_bind, Id.run_bind]
  rw [hstore]
  cases store sql <;> rfl

/-- A way in which fetching ends is what fetching answers. -/
theorem Fetched.eq_fetched {outcome : Except BuildError (List ρ) × List String}
    (h : Fetched (options.toSql root) store decode outcome) :
    options.fetched store decode root = outcome := by
  cases h with
  | unbuilt hquery => exact fetched_of_error hquery
  | refused hquery hstore =>
    rw [fetched_of_query hquery, hstore]
    rfl
  | ragged hquery hstore hrows hbefore hrow =>
    have hobjects := Table.objects_eq_error_iff.2 ⟨_, _, _, hrows, hbefore, hrow, rfl⟩
    rw [fetched_of_query hquery, hstore, Except.bind, Table.records_of_objects_error hobjects]
  | unreadable hquery hstore hmeasured hrows hbefore hrow =>
    rw [fetched_of_query hquery, hstore, Except.bind,
      (Table.records_eq_error_iff_decodes hmeasured).2 ⟨_, _, _, _, hrows, hbefore, hrow, rfl⟩]
  | complete hquery hstore hmeasured hrecords =>
    rw [fetched_of_query hquery, hstore, Except.bind,
      Table.records_eq_ok_iff_decodes.2 ⟨hmeasured, hrecords⟩]

/-- Fetching ends in one of the ways. -/
theorem fetched_fetched (options : Options) (store : String → Except BuildError (Table α))
    (decode : Object α → Except String ρ) (root : Expr) :
    Fetched (options.toSql root) store decode (options.fetched store decode root) := by
  cases hquery : options.toSql root with
  | error e =>
    rw [fetched_of_error hquery]
    exact .unbuilt rfl
  | ok sql =>
    rw [fetched_of_query hquery]
    cases hstore : store sql with
    | error e => exact .refused rfl hstore
    | ok t =>
      rw [Except.bind]
      cases hobjects : t.objects with
      | error e =>
        obtain ⟨before, row, after, hrows, hbefore, hrow, rfl⟩ :=
          Table.objects_eq_error_iff.1 hobjects
        rw [Table.records_of_objects_error hobjects]
        exact .ragged rfl hstore hrows hbefore hrow
      | ok os =>
        have hmeasured := (Table.objects_eq_ok_iff.1 hobjects).1
        cases hrecords : t.records decode with
        | error e =>
          obtain ⟨before, row, after, reason, hrows, hbefore, hrow, rfl⟩ :=
            (Table.records_eq_error_iff_decodes hmeasured).1 hrecords
          exact .unreadable rfl hstore hmeasured hrows hbefore hrow
        | ok records =>
          exact .complete rfl hstore hmeasured (Table.records_eq_ok_iff_decodes.1 hrecords).2

/-- **Fetching.**  The store is asked at most once, with the query, and only if there is one.
Errors come in this order: of the query, of the store, of the first row with too many or too few
cells, of the first row that cannot be decoded; none of them is changed on the way.  Without an
error there is a record for each row, in its place. -/
theorem fetch_effects (options : Options) (store : String → Except BuildError (Table α))
    (decode : Object α → Except String ρ) (root : Expr)
    (outcome : Except BuildError (List ρ) × List String) :
    options.fetched store decode root = outcome ↔
      Fetched (options.toSql root) store decode outcome := by
  constructor
  · rintro rfl
    exact fetched_fetched options store decode root
  · exact Fetched.eq_fetched

end Fetched

end Sql
end Criteria
