import Criteria.Proofs.Sql.Syntax
import Criteria.Sql.Configuration

/-!
# Loading options from an object

Each option has one way to be written as a JSON value, and what is read for it is the value that is
so written.  A member of an object sets one option and leaves the others alone, so what is loaded
can be told from the members as a set.

**Results.**
* `Configuration.Field.set_eq_ok` and `Configuration.Field.exists_set_iff`: what one member does.
* `Configuration.setMembers_eq_ok` and `Configuration.exists_setMembers_iff`: what all of them do.
* `Options.load_object`: the options that an object gives.
-/

namespace Criteria
namespace Sql
namespace Configuration

/-! ### Options as JSON -/

/-- A list of texts as JSON. -/
def ofTexts (names : List String) : Json :=
  .array (names.map .text) none

/-- A value that may be missing as JSON. -/
def orNull {α : Type} (write : α → Json) (x : Option α) : Json :=
  x.elim .null write

/-- A projection as JSON. -/
def ofProjection : Projection → Json
  | .all => .text "all"
  | .fromSelectors => .text "from_selectors"
  | .columns names => ofTexts names

/-- The value of an option as JSON. -/
def Field.written (options : Options) : Field → Json
  | .table => .text options.table
  | .select => ofProjection options.select
  | .only => orNull ofTexts options.only
  | .except => orNull ofTexts options.except
  | .orderBy => orNull .text options.orderBy
  | .limit => orNull .text options.limit
  | .offset => orNull .text options.offset
  | .caseSensitive => .boolean options.caseSensitive

/-- The value has the shape of the option. -/
def Field.Admits : Field → Json → Prop
  | .table, value => ∃ s, value = .text s
  | .select, value =>
      value = .text "all" ∨ value = .text "from_selectors" ∨ ∃ names, value = ofTexts names
  | .only, value | .except, value => value = .null ∨ ∃ names, value = ofTexts names
  | .orderBy, value | .limit, value | .offset, value => value = .null ∨ ∃ s, value = .text s
  | .caseSensitive, value => ∃ b, value = .boolean b

/-! ### Readers -/

/-- What is read is what is so written. -/
def Reads {α : Type} (read : Json → Except ConfigError α) (write : α → Json) : Prop :=
  ∀ value a, read value = .ok a ↔ value = write a

section Readers

variable {α : Type} {read : Json → Except ConfigError α} {write : α → Json}

theorem map_eq_ok_iff {ε α β : Type} {x : Except ε α} {f : α → β} {b : β} :
    x.map f = .ok b ↔ ∃ a, x = .ok a ∧ f a = b := by
  cases x <;> simp [Except.map]

theorem reads_text : Reads readText .text := by
  intro value s
  cases value <;> simp [readText]

theorem reads_boolean : Reads readBoolean .boolean := by
  intro value b
  cases value <;> simp [readBoolean]

theorem mapM_readText_eq_ok {items : List Json} {names : List String} :
    items.mapM readText = .ok names ↔ items = names.map .text := by
  induction items generalizing names with
  | nil => cases names <;> simp [pure, Except.pure]
  | cons item items ih =>
    rw [List.mapM_cons, bind_eq_ok]
    constructor
    · rintro ⟨s, hs, h⟩
      obtain ⟨rest, hrest, h⟩ := bind_eq_ok.1 h
      cases h
      rw [(reads_text item s).1 hs, ih.1 hrest, List.map_cons]
    · intro h
      cases names with
      | nil => cases h
      | cons s rest =>
        obtain ⟨hitem, hitems⟩ := List.cons.inj h
        exact ⟨s, (reads_text item s).2 hitem, bind_eq_ok.2 ⟨rest, ih.2 hitems, rfl⟩⟩

theorem reads_list : Reads readList ofTexts := by
  intro value names
  cases value with
  | array items stop =>
    cases stop with
    | none =>
      show (items.mapM readText >>= fun texts => .ok texts) = .ok names ↔ _
      rw [bind_eq_ok]
      simp [mapM_readText_eq_ok, ofTexts]
    | some fault =>
      show (items.mapM readText >>= fun _ => .error (.fault fault)) = .ok names ↔ _
      rw [bind_eq_ok]
      simp [ofTexts]
  | _ => simp [readList, ofTexts]

theorem readOptional_of_ne_null {value : Json} (hvalue : value ≠ .null) :
    readOptional read value = (read value).map some := by
  cases value <;> first | rfl | exact absurd rfl hvalue

theorem reads_orNull (h : Reads read write) (hnull : ∀ a, write a ≠ .null) :
    Reads (readOptional read) (orNull write) := by
  intro value x
  by_cases hvalue : value = .null
  · subst hvalue
    cases x with
    | none => exact iff_of_true rfl rfl
    | some a => exact iff_of_false nofun (hnull a).symm
  · rw [readOptional_of_ne_null hvalue, map_eq_ok_iff]
    cases x with
    | none => exact iff_of_false nofun hvalue
    | some a => simp [orNull, h value]

theorem reads_projection : Reads readProjection ofProjection := by
  intro value projection
  cases value with
  | text word =>
    simp only [readProjection, Json.fault?]
    split_ifs with hall hselectors
    · cases projection <;> simp [ofProjection, ofTexts, hall]
    · cases projection <;> simp [ofProjection, ofTexts, hselectors]
    · cases projection <;> simp [ofProjection, ofTexts, hall, hselectors]
  | array items stop =>
    cases stop with
    | none =>
      show (readList (.array items none)).map .columns = .ok projection ↔ _
      have hlist := reads_list (.array items none)
      cases projection <;> simp [map_eq_ok_iff, hlist, ofProjection]
    | some fault => cases projection <;> simp [readProjection, Json.fault?, ofProjection, ofTexts]
  | object members stop =>
    cases stop <;> cases projection <;>
      simp [readProjection, Json.fault?, readList, Except.map, ofProjection, ofTexts]
  | _ =>
    cases projection <;>
      simp [readProjection, Json.fault?, readList, Except.map, ofProjection, ofTexts]

theorem reads_texts : Reads (readOptional readList) (orNull ofTexts) :=
  reads_orNull reads_list nofun

theorem reads_optional_text : Reads (readOptional readText) (orNull .text) :=
  reads_orNull reads_text nofun

theorem exists_orNull_iff {value : Json} :
    (∃ x, value = orNull write x) ↔ value = .null ∨ ∃ a, value = write a := by
  constructor
  · rintro ⟨_ | a, h⟩
    · exact .inl h
    · exact .inr ⟨a, h⟩
  · rintro (h | ⟨a, h⟩)
    · exact ⟨none, h⟩
    · exact ⟨some a, h⟩

theorem exists_ofProjection_iff {value : Json} :
    (∃ projection, value = ofProjection projection) ↔
      value = .text "all" ∨ value = .text "from_selectors" ∨ ∃ names, value = ofTexts names := by
  constructor
  · rintro ⟨_ | _ | names, h⟩
    · exact .inl h
    · exact .inr (.inl h)
    · exact .inr (.inr ⟨names, h⟩)
  · rintro (h | h | ⟨names, h⟩)
    · exact ⟨.all, h⟩
    · exact ⟨.fromSelectors, h⟩
    · exact ⟨.columns names, h⟩

end Readers

/-! ### One member -/

/-- The options `next` are `options` but for one field, which has the value. -/
structure Field.Sets (field : Field) (options : Options) (value : Json) (next : Options) :
    Prop where
  written : field.written next = value
  others : ∀ other, other ≠ field → other.written next = other.written options
  transformer : next.transformer = options.transformer

section Member

variable {α : Type} {read : Json → Except ConfigError α} {write : α → Json} {put : α → Options}
variable {options next : Options} {value : Json} {field : Field}

theorem sets_of_reads (hread : Reads read write)
    (h : (read value >>= fun a => pure (put a)) = .ok next)
    (hput : ∀ a, field.Sets options (write a) (put a)) : field.Sets options value next := by
  obtain ⟨a, ha, hnext⟩ := bind_eq_ok.1 h
  cases hnext
  rw [(hread value a).1 ha]
  exact hput a

theorem exists_of_reads (hread : Reads read write) :
    (∃ next, (read value >>= fun a => pure (put a)) = Except.ok next) ↔ ∃ a, value = write a := by
  constructor
  · rintro ⟨next, h⟩
    obtain ⟨a, ha, -⟩ := bind_eq_ok.1 h
    exact ⟨a, (hread value a).1 ha⟩
  · rintro ⟨a, h⟩
    exact ⟨put a, bind_eq_ok.2 ⟨a, (hread value a).2 h, rfl⟩⟩

/-- A member sets its option to its value, and leaves the other options as they are. -/
theorem Field.set_eq_ok (h : field.set options value = .ok next) :
    field.Sets options value next := by
  cases field with
  | table =>
    refine sets_of_reads reads_text h fun s => ⟨rfl, fun other hother => ?_, rfl⟩
    cases other <;> first | rfl | exact absurd rfl hother
  | select =>
    refine sets_of_reads reads_projection h fun p => ⟨rfl, fun other hother => ?_, rfl⟩
    cases other <;> first | rfl | exact absurd rfl hother
  | only | except =>
    refine sets_of_reads reads_texts h fun names => ⟨rfl, fun other hother => ?_, rfl⟩
    cases other <;> first | rfl | exact absurd rfl hother
  | orderBy | limit | offset =>
    refine sets_of_reads reads_optional_text h fun s => ⟨rfl, fun other hother => ?_, rfl⟩
    cases other <;> first | rfl | exact absurd rfl hother
  | caseSensitive =>
    refine sets_of_reads reads_boolean h fun b => ⟨rfl, fun other hother => ?_, rfl⟩
    cases other <;> first | rfl | exact absurd rfl hother

/-- A member is accepted exactly if its value has the shape of its option. -/
theorem Field.exists_set_iff :
    (∃ next, field.set options value = .ok next) ↔ field.Admits value := by
  cases field with
  | table => exact exists_of_reads reads_text
  | select => exact (exists_of_reads reads_projection).trans exists_ofProjection_iff
  | only | except => exact (exists_of_reads reads_texts).trans exists_orNull_iff
  | orderBy | limit | offset => exact (exists_of_reads reads_optional_text).trans exists_orNull_iff
  | caseSensitive => exact exists_of_reads reads_boolean

end Member

/-! ### All members -/

section Members

variable {members : List (String × Json)} {options result : Options} {seen : List Field}

theorem Field.name_injective : Function.Injective Field.name := by
  intro a b h
  cases a <;> cases b <;> first | rfl | exact absurd h (by decide)

theorem Field.ofName?_eq_some_iff {name : String} {field : Field} :
    Field.ofName? name = some field ↔ field.name = name := by
  have hall : field ∈ Field.all := by cases field <;> decide
  constructor
  · intro h
    simpa using List.find?_some h
  · intro h
    cases hfind : Field.ofName? name with
    | none =>
      have hne := List.find?_eq_none.1 hfind field hall
      exact absurd h (by simpa using hne)
    | some other =>
      have hother : other.name = name := by simpa using List.find?_some hfind
      rw [Field.name_injective (hother.trans h.symm)]

/-- The first member is taken if its name is one of an option that has not been set. -/
theorem setMembers_cons_eq_ok_iff {name : String} {value : Json} :
    setMembers seen options ((name, value) :: members) = .ok result ↔
      ∃ field next, field.name = name ∧ field ∉ seen ∧ field.set options value = .ok next ∧
        setMembers (field :: seen) next members = .ok result := by
  rw [setMembers]
  cases hname : Field.ofName? name with
  | none =>
    refine iff_of_false nofun ?_
    rintro ⟨field, next, hfield, -⟩
    rw [Field.ofName?_eq_some_iff.2 hfield] at hname
    cases hname
  | some field =>
    have hfield := Field.ofName?_eq_some_iff.1 hname
    constructor
    · intro h
      simp only at h
      split at h
      · cases h
      · next hseen =>
        obtain ⟨next, hset, hrest⟩ := bind_eq_ok.1 h
        exact ⟨field, next, hfield, by simpa using hseen, hset, hrest⟩
    · rintro ⟨other, next, hother, hseen, hset, hrest⟩
      obtain rfl := Field.name_injective (hother.trans hfield.symm)
      simp only
      rw [if_neg (by simpa using hseen)]
      exact bind_eq_ok.2 ⟨next, hset, hrest⟩

/-- The members are accepted exactly if each of them is, and no option is set twice. -/
theorem exists_setMembers_iff :
    (∃ result, setMembers seen options members = .ok result) ↔
      (∀ member ∈ members, ∃ field : Field, field.name = member.1 ∧ field ∉ seen ∧
        field.Admits member.2) ∧ (members.map Prod.fst).Nodup := by
  induction members generalizing seen options with
  | nil => exact iff_of_true ⟨options, rfl⟩ ⟨List.forall_mem_nil _, List.nodup_nil⟩
  | cons member members ih =>
    obtain ⟨name, value⟩ := member
    simp only [setMembers_cons_eq_ok_iff, List.forall_mem_cons, List.map_cons, List.nodup_cons]
    constructor
    · rintro ⟨result, field, next, rfl, hseen, hset, hrest⟩
      obtain ⟨hmembers, hnodup⟩ := ih.1 ⟨result, hrest⟩
      refine ⟨⟨⟨field, rfl, hseen, Field.exists_set_iff.1 ⟨next, hset⟩⟩, fun member hmember => ?_⟩,
        fun hmem => ?_, hnodup⟩
      · obtain ⟨other, hname, hother, hadmits⟩ := hmembers member hmember
        exact ⟨other, hname, fun h => hother (List.mem_cons_of_mem _ h), hadmits⟩
      · obtain ⟨member, hmember, hname⟩ := List.mem_map.1 hmem
        obtain ⟨other, hother, hnew, -⟩ := hmembers member hmember
        obtain rfl := Field.name_injective (hother.trans hname)
        exact hnew List.mem_cons_self
    · rintro ⟨⟨⟨field, rfl, hseen, hadmits⟩, hmembers⟩, hnew, hnodup⟩
      obtain ⟨next, hset⟩ := Field.exists_set_iff.2 hadmits
      have hrest : ∃ result, setMembers (field :: seen) next members = .ok result := by
        refine ih.2 ⟨fun member hmember => ?_, hnodup⟩
        obtain ⟨other, hname, hother, hadmits⟩ := hmembers member hmember
        refine ⟨other, hname, ?_, hadmits⟩
        rw [List.mem_cons, not_or]
        refine ⟨?_, hother⟩
        rintro rfl
        exact hnew (List.mem_map.2 ⟨member, hmember, hname.symm⟩)
      obtain ⟨result, hrest⟩ := hrest
      exact ⟨result, field, next, rfl, hseen, hset, hrest⟩

/-- Each member sets its option, and what has no member stays as it was. -/
theorem setMembers_eq_ok (h : setMembers seen options members = .ok result) :
    (∀ field value, (Field.name field, value) ∈ members → field.written result = value) ∧
      (∀ field, Field.name field ∉ members.map Prod.fst →
        field.written result = field.written options) ∧
      result.transformer = options.transformer := by
  induction members generalizing seen options with
  | nil =>
    cases h
    exact ⟨fun _ _ hmem => absurd hmem List.not_mem_nil, fun _ _ => rfl, rfl⟩
  | cons member members ih =>
    obtain ⟨name, value⟩ := member
    have hnodup := (exists_setMembers_iff.1 ⟨result, h⟩).2
    obtain ⟨field, next, rfl, -, hset, hrest⟩ := setMembers_cons_eq_ok_iff.1 h
    obtain ⟨hwritten, hothers, htransformer⟩ := ih hrest
    have hsets := Field.set_eq_ok hset
    rw [List.map_cons, List.nodup_cons] at hnodup
    refine ⟨fun other value' hmem => ?_, fun other hmem => ?_,
      htransformer.trans hsets.transformer⟩
    · rcases List.mem_cons.1 hmem with heq | hmem
      · -- No later member has this name, so the value stays.
        obtain ⟨hname, rfl⟩ := Prod.mk.inj heq
        obtain rfl := Field.name_injective hname
        rw [hothers _ hnodup.1, hsets.written]
      · exact hwritten other value' hmem
    · rw [List.map_cons, List.mem_cons, not_or] at hmem
      rw [hothers other hmem.2, hsets.others other fun heq => hmem.1 (congrArg Field.name heq)]

end Members

/-! ### Options are told by what is written -/

/-- What can be read back is written in one way only. -/
theorem Reads.injective {α : Type} {read : Json → Except ConfigError α} {write : α → Json}
    (h : Reads read write) : Function.Injective write := by
  intro a b heq
  have ha := (h (write a) a).2 rfl
  have hb := (h (write a) b).2 heq
  exact Except.ok.inj (ha.symm.trans hb)

theorem ext_written {a b : Options} (h : ∀ field : Field, field.written a = field.written b)
    (htransformer : a.transformer = b.transformer) : a = b := by
  obtain ⟨table, select, only, except, orderBy, limit, offset, caseSensitive, transformer⟩ := a
  obtain rfl := reads_text.injective (h .table)
  obtain rfl := reads_projection.injective (h .select)
  obtain rfl := reads_texts.injective (h .only)
  obtain rfl := reads_texts.injective (h .except)
  obtain rfl := reads_optional_text.injective (h .orderBy)
  obtain rfl := reads_optional_text.injective (h .limit)
  obtain rfl := reads_optional_text.injective (h .offset)
  obtain rfl := reads_boolean.injective (h .caseSensitive)
  cases htransformer
  rfl

end Configuration

/-! ### Objects -/

open Criteria.Sql.Configuration

/-- The members name options, none of them twice, and give each a value of its shape. -/
structure Configuration.Accepted (members : List (String × Json)) : Prop where
  known : ∀ name value, (name, value) ∈ members → name ∈
    ["table", "select", "only", "except", "order_by", "limit", "offset", "case_sensitive"]
  nodup : (members.map Prod.fst).Nodup
  admits : ∀ (field : Field) value, (field.name, value) ∈ members → field.Admits value

/-- The options have the values that the members give, and for the rest the defaults. -/
structure Configuration.Gives (members : List (String × Json)) (options : Options) : Prop where
  given : ∀ (field : Field) value, (field.name, value) ∈ members → field.written options = value
  default : ∀ field : Field, field.name ∉ members.map Prod.fst →
    field.written options = field.written {}
  transformer : options.transformer = fun _ value => value

section Objects

variable {text : String} {members : List (String × Json)} {options : Options}

theorem load_eq_setMembers (h : Json.Document.ofString text = ⟨.object members none, none⟩) :
    Options.load text = setMembers [] {} members := by
  rw [Options.load, h]
  simp only [ofJson]
  cases setMembers [] {} members <;> rfl

theorem exists_field_iff {name : String} : (∃ field : Field, field.name = name) ↔ name ∈
    ["table", "select", "only", "except", "order_by", "limit", "offset", "case_sensitive"] := by
  have hall : Field.all.map Field.name =
      ["table", "select", "only", "except", "order_by", "limit", "offset", "case_sensitive"] := rfl
  rw [← hall, List.mem_map]
  exact exists_congr fun field => (and_iff_right (by cases field <;> decide)).symm

theorem exists_setMembers_iff_accepted :
    (∃ options, setMembers [] {} members = .ok options) ↔ Accepted members := by
  rw [exists_setMembers_iff]
  constructor
  · rintro ⟨hmembers, hnodup⟩
    refine ⟨fun name value hmem => ?_, hnodup, fun field value hmem => ?_⟩
    · obtain ⟨field, hname, -⟩ := hmembers _ hmem
      exact exists_field_iff.1 ⟨field, hname⟩
    · obtain ⟨other, hname, -, hadmits⟩ := hmembers _ hmem
      rwa [Field.name_injective hname] at hadmits
  · intro h
    refine ⟨fun member hmem => ?_, h.nodup⟩
    obtain ⟨field, hname⟩ := exists_field_iff.2 (h.known _ _ hmem)
    exact ⟨field, hname, List.not_mem_nil, h.admits field _ (hname ▸ hmem)⟩

theorem gives_of_setMembers (h : setMembers [] {} members = .ok options) :
    Gives members options := by
  obtain ⟨hgiven, hdefault, htransformer⟩ := setMembers_eq_ok h
  exact ⟨hgiven, hdefault, htransformer⟩

theorem Configuration.Gives.unique {options' : Options} (h : Gives members options)
    (h' : Gives members options') : options = options' := by
  refine ext_written (fun field => ?_) (h.transformer.trans h'.transformer.symm)
  by_cases hmem : field.name ∈ members.map Prod.fst
  · obtain ⟨⟨_, value⟩, hmember, rfl⟩ := List.mem_map.1 hmem
    rw [h.given field value hmember, h'.given field value hmember]
  · rw [h.default field hmem, h'.default field hmem]

/-- The order of the members makes no difference. -/
theorem Configuration.Accepted.perm {members' : List (String × Json)} (h : Accepted members)
    (hperm : members.Perm members') : Accepted members' where
  known name value hmem := h.known name value (hperm.mem_iff.2 hmem)
  nodup := (hperm.map Prod.fst).nodup_iff.1 h.nodup
  admits field value hmem := h.admits field value (hperm.mem_iff.2 hmem)

theorem Configuration.Gives.perm {members' : List (String × Json)} (h : Gives members options)
    (hperm : members.Perm members') : Gives members' options where
  given field value hmem := h.given field value (hperm.mem_iff.2 hmem)
  default field hmem := h.default field fun hmem' => hmem ((hperm.map Prod.fst).mem_iff.1 hmem')
  transformer := h.transformer

/-- The options that are loaded are those that the members give, if these are accepted. -/
theorem load_eq_ok_iff (h : Json.Document.ofString text = ⟨.object members none, none⟩) :
    Options.load text = .ok options ↔ Accepted members ∧ Gives members options := by
  rw [load_eq_setMembers h]
  constructor
  · intro hset
    exact ⟨exists_setMembers_iff_accepted.1 ⟨options, hset⟩, gives_of_setMembers hset⟩
  · rintro ⟨haccepted, hgives⟩
    obtain ⟨result, hset⟩ := exists_setMembers_iff_accepted.2 haccepted
    rw [hset, (gives_of_setMembers hset).unique hgives]

end Objects

/-- **Options from an object.**  An object is loaded exactly if its members name options, none of
them twice, with values of their shapes; then each option has the value of its member, or its
default.  The order of the members makes no difference, and an access list that is given is in
force. -/
theorem Options.load_object {text : String} {members : List (String × Json)}
    (h : Json.Document.ofString text = ⟨.object members none, none⟩) :
    ((∃ options, Options.load text = .ok options) ↔ Accepted members) ∧
    (∀ options, Options.load text = .ok options → Gives members options) ∧
    (∀ text' members', Json.Document.ofString text' = ⟨.object members' none, none⟩ →
      members.Perm members' → ∀ options, Options.load text' = .ok options ↔
        Options.load text = .ok options) ∧
    ∀ options, Options.load text = .ok options → ∀ names,
      (("only", ofTexts names) ∈ members → options.only = some names) ∧
      (("except", ofTexts names) ∈ members → options.except = some names) := by
  refine ⟨?_, fun options hload => ((load_eq_ok_iff h).1 hload).2, ?_, ?_⟩
  · rw [load_eq_setMembers h]
    exact exists_setMembers_iff_accepted
  · intro text' members' h' hperm options
    rw [load_eq_ok_iff h, load_eq_ok_iff h']
    constructor
    · exact fun ⟨haccepted, hgives⟩ => ⟨haccepted.perm hperm.symm, hgives.perm hperm.symm⟩
    · exact fun ⟨haccepted, hgives⟩ => ⟨haccepted.perm hperm, hgives.perm hperm⟩
  · intro options hload names
    have hgives := ((load_eq_ok_iff h).1 hload).2
    constructor
    · intro hmem
      have honly : orNull ofTexts options.only = orNull ofTexts (some names) :=
        hgives.given .only _ hmem
      exact reads_texts.injective honly
    · intro hmem
      have hexcept : orNull ofTexts options.except = orNull ofTexts (some names) :=
        hgives.given .except _ hmem
      exact reads_texts.injective hexcept

/-- An allow-list and a clause, with the other options left out. -/
theorem Options.load_object_only :
    Json.Document.ofString "\x7b\"only\": [\"a\", \"b\"], \"limit\": \"10\"\x7d" =
      ⟨.object [("only", ofTexts ["a", "b"]), ("limit", .text "10")] none, none⟩ ∧
    ∃ options, Options.load "\x7b\"only\": [\"a\", \"b\"], \"limit\": \"10\"\x7d" = .ok options ∧
      options.only = some ["a", "b"] := by
  have h : Json.Document.ofString "\x7b\"only\": [\"a\", \"b\"], \"limit\": \"10\"\x7d" =
      ⟨.object [("only", ofTexts ["a", "b"]), ("limit", .text "10")] none, none⟩ := by
    with_unfolding_all rfl
  obtain ⟨hexists, -, -, hlists⟩ := Options.load_object h
  have haccepted : Accepted [("only", ofTexts ["a", "b"]), ("limit", .text "10")] := by
    refine ⟨fun name value hmem => ?_, by decide, fun field value hmem => ?_⟩
    · simp only [List.mem_cons, Prod.mk.injEq, List.not_mem_nil, or_false] at hmem
      rcases hmem with ⟨rfl, -⟩ | ⟨rfl, -⟩ <;> decide
    · simp only [List.mem_cons, Prod.mk.injEq, List.not_mem_nil, or_false] at hmem
      rcases hmem with ⟨hname, rfl⟩ | ⟨hname, rfl⟩
      · obtain rfl : field = .only := Field.name_injective hname
        exact .inr ⟨_, rfl⟩
      · obtain rfl : field = .limit := Field.name_injective hname
        exact .inr ⟨_, rfl⟩
  obtain ⟨options, hload⟩ := hexists.2 haccepted
  exact ⟨h, options, hload, (hlists options hload _).1 List.mem_cons_self⟩

end Sql
end Criteria
