import Criteria.Json.Document
import Criteria.Sql.Options

/-!
# Options from a configuration text

Options are loaded from a JSON object with a member for each option to be set, or from an array
of the options in their order.  What is missing keeps its default.  Unknown and repeated names
are refused, so that a misspelt access list is never silently left out.

Problems count from left to right: the first one decides, be it a fault of the text or a value
of the wrong kind.  Only the projection is read completely before it is looked at.
-/

namespace Criteria
namespace Sql

/-- Why a configuration cannot be loaded. -/
inductive ConfigError where
  /-- The text is not JSON. -/
  | fault (f : Json.Fault)
  /-- The text is JSON, but of the wrong shape. -/
  | mismatch
  /-- The projection is a word without meaning. -/
  | unknownProjection (word : String)
deriving DecidableEq, Repr

/-- The wording of the error. -/
def ConfigError.message : ConfigError → String
  | .fault .endOfText => "configuration error: unexpected end of the text"
  | .fault .malformed => "configuration error: the text is not JSON"
  | .mismatch => "configuration error: unexpected option or value"
  | .unknownProjection word =>
      "configuration error: unknown select mode '" ++ word ++
        "', expected \"all\", \"from_selectors\" or a list"

namespace Configuration

/-- The options that a configuration may set. -/
inductive Field where
  | table
  | select
  | only
  | except
  | orderBy
  | limit
  | offset
  | caseSensitive
deriving DecidableEq, Repr

/-- All fields, in the order of the array form. -/
def Field.all : List Field :=
  [.table, .select, .only, .except, .orderBy, .limit, .offset, .caseSensitive]

/-- The name of a field in the object form. -/
def Field.name : Field → String
  | .table => "table"
  | .select => "select"
  | .only => "only"
  | .except => "except"
  | .orderBy => "order_by"
  | .limit => "limit"
  | .offset => "offset"
  | .caseSensitive => "case_sensitive"

/-- The field with a given name. -/
def Field.ofName? (name : String) : Option Field :=
  Field.all.find? fun field => field.name = name

/-- A text. -/
def readText : Json → Except ConfigError String
  | .text s => .ok s
  | .broken f => .error (.fault f)
  | _ => .error .mismatch

/-- A truth value. -/
def readBoolean : Json → Except ConfigError Bool
  | .boolean b => .ok b
  | .broken f => .error (.fault f)
  | _ => .error .mismatch

/-- Texts up to the end of a list, at which reading may have stopped. -/
def readTexts (items : List Json) (stop : Option Json.Fault) :
    Except ConfigError (List String) := do
  let texts ← items.mapM readText
  stop.elim (.ok texts) fun f => .error (.fault f)

/-- A list of texts. -/
def readList : Json → Except ConfigError (List String)
  | .array items stop => readTexts items stop
  | .broken f => .error (.fault f)
  | _ => .error .mismatch

/-- A value that may be missing, which `null` says. -/
def readOptional {α : Type} (read : Json → Except ConfigError α) :
    Json → Except ConfigError (Option α)
  | .null => .ok none
  | value => (read value).map some

/-- A projection: a word, or a list of columns. -/
def readProjection (value : Json) : Except ConfigError Projection :=
  match value.fault? with
  | some f => .error (.fault f)
  | none =>
      match value with
      | .text word =>
          if word = "all" then .ok .all
          else if word = "from_selectors" then .ok .fromSelectors
          else .error (.unknownProjection word)
      | value => (readList value).map .columns

/-- Sets a field to what a value says. -/
def Field.set (options : Options) (value : Json) : Field → Except ConfigError Options
  | .table => do
      let text ← readText value
      pure { options with table := text }
  | .select => do
      let projection ← readProjection value
      pure { options with select := projection }
  | .only => do
      let names ← readOptional readList value
      pure { options with only := names }
  | .except => do
      let names ← readOptional readList value
      pure { options with except := names }
  | .orderBy => do
      let text ← readOptional readText value
      pure { options with orderBy := text }
  | .limit => do
      let text ← readOptional readText value
      pure { options with limit := text }
  | .offset => do
      let text ← readOptional readText value
      pure { options with offset := text }
  | .caseSensitive => do
      let flag ← readBoolean value
      pure { options with caseSensitive := flag }

/-- Goes through the members of an object; `seen` holds the fields that have been set. -/
def setMembers (seen : List Field) (options : Options) :
    List (String × Json) → Except ConfigError Options
  | [] => .ok options
  | (name, value) :: rest =>
      match Field.ofName? name with
      | none => .error .mismatch
      | some field =>
          if seen.contains field then .error .mismatch
          else do
            let next ← field.set options value
            setMembers (field :: seen) next rest

/-- Goes through the items of an array with the fields that they set. -/
def setItems (options : Options) : List Field → List Json → Except ConfigError Options
  | _, [] => .ok options
  | [], _ :: _ => .error (.fault .malformed)
  | field :: fields, value :: values => do
      let next ← field.set options value
      setItems next fields values

/-- The options that a value gives, with the default for what it leaves out. -/
def ofJson : Json → Except ConfigError Options
  | .object members stop => do
      let options ← setMembers [] {} members
      stop.elim (.ok options) fun f => .error (.fault f)
  | .array items stop => do
      let options ← setItems {} Field.all items
      stop.elim (.ok options) fun f => .error (.fault f)
  | .broken f => .error (.fault f)
  | _ => .error .mismatch

end Configuration

/-- Loads options from a configuration text. -/
def Options.load (text : String) : Except ConfigError Options := do
  let document := Json.Document.ofString text
  let options ← Configuration.ofJson document.value
  document.trailing.elim (.ok options) fun f => .error (.fault f)

end Sql
end Criteria
