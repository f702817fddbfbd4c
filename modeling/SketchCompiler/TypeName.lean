/-
Type names.  A type is known by its name; the names of the primitive
types may be written in any letter case, and a value of one type may
stand where certain others are expected.
-/
import SketchCompiler.Text.Blank
import SketchCompiler.Text.Case

namespace SketchCompiler.TypeName

open Text

/-- The primitive types: the lower-case spelling and the name. -/
def primitives : List (String × String) :=
  [("int", "int"), ("float", "float"), ("bool", "bool"), ("string", "string"),
   ("void", "void"), ("pin", "Pin"), ("duration", "Duration"), ("unknown", "unknown")]

/-- The name of a type as checks compare it: a primitive in its own
spelling, anything else without the blanks around it. -/
def normalize (name : String) : String :=
  let name := trim name
  (primitives.lookup (lower name)).getD name

/-- The name is that of a primitive type, in its own spelling. -/
def isPrimitive (name : String) : Bool :=
  primitives.any (·.2 == name)

/-- A value of type `actual` may stand where one of type `expected` is
wanted: the same type, or an integer for a float, a pin or a duration. -/
def isAssignable (expected actual : String) : Bool :=
  let expected := normalize expected
  let actual := normalize actual
  expected == actual || (actual == "int" && ["float", "Pin", "Duration"].contains expected)

/-- The types of generated code for the primitive types. -/
def generated : List (String × String) :=
  [("int", "int32_t"), ("float", "float"), ("bool", "bool"), ("string", "String"),
   ("void", "void"), ("pin", "uint8_t"), ("duration", "uint32_t")]

/-- The type in generated code; a name without an entry stays. -/
def toGenerated (name : String) : String :=
  (generated.lookup (lower name)).getD name

end SketchCompiler.TypeName
