import QueryPlan.Json.Reader
/-!
# QueryPlan.Json.Record

**Records in JSON.** A record is written as an object with a member for each field, or as an
array with the values of the fields in order. Members beyond the fields are ignored, but a
field may be given only once; an array may stop early.

What is ignored has to be well formed and need not have a value. So a text is read by its
`Shape`, which says where its records are and what fields they have: `Shape.ofText` finds the
values of the fields and leaves out the rest.
-/

namespace QueryPlan

namespace Json

/-- What is read of a value. -/
inductive Shape
  /-- All of it. -/
  | whole
  /-- The elements of an array. -/
  | list (element : Shape)
  /-- The fields of a record. -/
  | record (fields : List (String × Shape))

namespace Shape

mutual

/-- The value that is written, less the members that its shape does not read. -/
def select? : Shape → Written → Option Json
  | list element, .array elements => (selectAll? element elements).map .array
  | record fields, .object members => (selectMembers? fields members).map .object
  | record fields, .array elements => (selectEach? fields elements).map .array
  | _, w => w.value?

/-- Elements of one shape. -/
def selectAll? (element : Shape) : List Written → Option (List Json)
  | [] => some []
  | w :: rest => do return (← select? element w) :: (← selectAll? element rest)

/-- The members of a record. -/
def selectMembers? (fields : List (String × Shape)) :
    List (List Piece × Written) → Option (List (String × Json))
  | [] => some []
  | (name, w) :: rest => do
    let name ← Piece.text? name
    match List.lookup name fields with
    | some shape => return (name, ← select? shape w) :: (← selectMembers? fields rest)
    | none => selectMembers? fields rest

/-- The values of a record without names. There are no more than fields. -/
def selectEach? : List (String × Shape) → List Written → Option (List Json)
  | _, [] => some []
  | [], _ :: _ => none
  | (_, shape) :: fields, w :: rest => do
    return (← select? shape w) :: (← selectEach? fields rest)

end

/-- What a text holds as far as it is read; anything else is malformed. -/
def ofText (shape : Shape) (text : String) : Result Json :=
  .ofOption .malformed do shape.select? (← Written.ofText? text)

end Shape

/-- The value of the only member with a name: nothing at all if there are several, and
no value if there is none. -/
def single? (name : String) (members : List (String × Json)) : Option (Option Json) :=
  match members.filter fun m => m.1 == name with
  | [] => some none
  | [(_, value)] => some (some value)
  | _ => none

/-- The values of the fields of a record, in the order of the fields. -/
def record? (fields : List (String × Shape)) : Json → Option (List (Option Json))
  | .object members => fields.mapM fun f => single? f.1 members
  | .array elements =>
    if elements.length ≤ fields.length then
      some (elements.map some ++ List.replicate (fields.length - elements.length) none)
    else none
  | _ => none

/-- A field read by `read`, or `default` if the field is not given. -/
def fieldOr {α : Type} (default : α) (read : Json → Option α) : Option Json → Option α
  | none => some default
  | some j => read j

end Json

end QueryPlan
