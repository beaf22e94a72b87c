import FieldWire.Field.Header
import FieldWire.Field.Kind

/-!
# Fields

A field has a name, a kind of value, a header, and three properties: whether its value stands behind
a length, whether it is written at all, and whether signatures cover it. Two names are reserved for
the fields whose headers end an object and an array.
-/

namespace FieldWire

/-- A named field of objects. -/
structure Field where
  /-- The name in plain objects. -/
  name : String
  /-- What the field holds. -/
  kind : Kind
  /-- The codes on the wire. -/
  header : Header
  /-- Whether the length of the value stands before it. -/
  variableLength : Bool
  /-- Whether the field is written. -/
  serialized : Bool
  /-- Whether signatures cover the field. -/
  signing : Bool
deriving DecidableEq, Repr

/-- The name of the field whose header ends an object. -/
def objectEndName : String := "ObjectEndMarker"

/-- The name of the field whose header ends an array. -/
def arrayEndName : String := "ArrayEndMarker"

/-- The byte that ends an object. -/
def objectEnd : UInt8 := 0xE1

/-- The byte that ends an array. -/
def arrayEnd : UInt8 := 0xF1

namespace Field

/-- The sort key of a field. -/
def ordinal (f : Field) : Nat := f.header.ordinal

/-- Whether the field holds an object. -/
def isObject (f : Field) : Bool := f.kind = .object

/-- Whether the field's header ends an object or an array. -/
def isMarker (f : Field) : Bool := f.name = objectEndName || f.name = arrayEndName

/-- Whether the field can wrap an element of an array. -/
def isElement (f : Field) : Bool := f.kind = .object && f.name ≠ objectEndName

end Field

end FieldWire
