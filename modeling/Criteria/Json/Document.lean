import Criteria.Json.Token

/-!
# Reading JSON documents

A state machine goes through the tokens of a text once.  Its state is what may come next,
together with the arrays and objects that are still open around that place.  At the first token
that does not fit, or at the end of the tokens, all that is open is closed and marked with the
fault.
-/

namespace Criteria
namespace Json

/-- Arrays and objects nest at most this deep. -/
def maxDepth : Nat := 127

/-- The surroundings of a value that is being read.  Items and members that are complete stand
there with the latest first. -/
inductive Hole where
  /-- The value of the document. -/
  | top
  /-- An item of an array. -/
  | item (items : List Json) (outer : Hole)
  /-- The value of a member of an object. -/
  | member (members : List (String × Json)) (name : String) (outer : Hole)

/-- The number of arrays and objects around a value. -/
def Hole.depth : Hole → Nat
  | .top => 0
  | .item _ outer | .member _ _ outer => outer.depth + 1

/-- Puts a value into its place and closes all that is open around it, with the fault that made
reading stop. -/
def Hole.close (fault : Fault) : Hole → Json → Json
  | .top, value => value
  | .item items outer, value =>
      outer.close fault (.array (value :: items).reverse (some fault))
  | .member members name outer, value =>
      outer.close fault (.object ((name, value) :: members).reverse (some fault))

/-- What may come next. -/
inductive State where
  /-- A value. -/
  | value (hole : Hole)
  /-- The first item of an array, or its end. -/
  | firstItem (outer : Hole)
  /-- The end of an array, or a comma. -/
  | afterItem (items : List Json) (outer : Hole)
  /-- The first name of an object, or its end. -/
  | firstName (outer : Hole)
  /-- A name. -/
  | name (members : List (String × Json)) (outer : Hole)
  /-- A colon. -/
  | colon (members : List (String × Json)) (name : String) (outer : Hole)
  /-- The end of an object, or a comma. -/
  | afterMember (members : List (String × Json)) (outer : Hole)
  /-- Nothing: the document is complete. -/
  | done (value : Json)

/-- The state behind a value that has been read completely. -/
def Hole.fill : Hole → Json → State
  | .top, value => .done value
  | .item items outer, value => .afterItem (value :: items) outer
  | .member members name outer, value => .afterMember ((name, value) :: members) outer

namespace State

/-- The document when reading stops in a state. -/
def stop (fault : Fault) : State → Document
  | .value hole => ⟨hole.close fault (.broken fault), none⟩
  | .firstItem outer => ⟨outer.close fault (.array [] (some fault)), none⟩
  | .afterItem items outer => ⟨outer.close fault (.array items.reverse (some fault)), none⟩
  | .firstName outer => ⟨outer.close fault (.object [] (some fault)), none⟩
  | .name members outer => ⟨outer.close fault (.object members.reverse (some fault)), none⟩
  | .colon members key outer =>
      ⟨outer.close fault (.object ((key, .broken fault) :: members).reverse (some fault)), none⟩
  | .afterMember members outer => ⟨outer.close fault (.object members.reverse (some fault)), none⟩
  | .done json => ⟨json, some fault⟩

/-- Goes on from a place where a value has to start. -/
def stepValue (hole : Hole) : Token → Except Fault State
  | .scalar json => .ok (hole.fill json)
  | .text s => .ok (hole.fill (.text s))
  | .openArray => if hole.depth < maxDepth then .ok (.firstItem hole) else .error .malformed
  | .openObject => if hole.depth < maxDepth then .ok (.firstName hole) else .error .malformed
  | .broken fault _ => .error fault
  | _ => .error .malformed

/-- Goes on from a place where the name of a member has to start. -/
def stepName (members : List (String × Json)) (outer : Hole) : Token → Except Fault State
  | .text s => .ok (.colon members s outer)
  | .broken fault true => .error fault
  | _ => .error .malformed

/-- The state behind one more token. -/
def step : State → Token → Except Fault State
  | .value hole, token => stepValue hole token
  | .firstItem outer, .closeArray => .ok (outer.fill (.array [] none))
  | .firstItem outer, token => stepValue (.item [] outer) token
  | .afterItem items outer, .comma => .ok (.value (.item items outer))
  | .afterItem items outer, .closeArray => .ok (outer.fill (.array items.reverse none))
  | .firstName outer, .closeObject => .ok (outer.fill (.object [] none))
  | .firstName outer, token => stepName [] outer token
  | .name members outer, token => stepName members outer token
  | .colon members key outer, .colon => .ok (.value (.member members key outer))
  | .afterMember members outer, .comma => .ok (.name members outer)
  | .afterMember members outer, .closeObject => .ok (outer.fill (.object members.reverse none))
  | _, _ => .error .malformed

/-- The document that the tokens complete. -/
def run : State → List Token → Document
  | .done json, [] => ⟨json, none⟩
  | state, [] => state.stop .endOfText
  | state, token :: tokens =>
      match state.step token with
      | .ok next => next.run tokens
      | .error fault => state.stop fault

end State

/-- Reads a JSON text. -/
def Document.ofString (text : String) : Document :=
  (State.value .top).run (Token.scan text.toList)

end Json
end Criteria
