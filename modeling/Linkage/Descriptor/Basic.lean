/-!
# Descriptors

The types a field, a parameter or a result can have, and the text that spells each of them. The
reader in `Linkage.Descriptor.Parser` inverts the spelling.
-/

namespace Linkage

/-- A primitive type. -/
inductive Primitive where
  | boolean | byte | char | short | int | long | float | double
  deriving DecidableEq, Repr

namespace Primitive

/-- The primitive types, in the order in which their array classes are set up. -/
def all : List Primitive := [boolean, byte, char, short, int, long, float, double]

/-- The letter that stands for a primitive type in a descriptor. -/
def letter : Primitive → Char
  | boolean => 'Z'
  | byte => 'B'
  | char => 'C'
  | short => 'S'
  | int => 'I'
  | long => 'J'
  | float => 'F'
  | double => 'D'

/-- The primitive type a letter stands for. -/
def ofLetter? : Char → Option Primitive
  | 'Z' => some boolean
  | 'B' => some byte
  | 'C' => some char
  | 'S' => some short
  | 'I' => some int
  | 'J' => some long
  | 'F' => some float
  | 'D' => some double
  | _ => none

/-- The element type that an operand of `newarray` selects. -/
def ofNewarrayCode? : Nat → Option Primitive
  | 4 => some boolean
  | 5 => some char
  | 6 => some float
  | 7 => some double
  | 8 => some byte
  | 9 => some short
  | 10 => some int
  | 11 => some long
  | _ => none

/-- The name of a primitive type. -/
def name : Primitive → String
  | boolean => "Boolean"
  | byte => "Byte"
  | char => "Char"
  | short => "Short"
  | int => "Int"
  | long => "Long"
  | float => "Float"
  | double => "Double"

/-- The name of the one-dimensional array class over a primitive type. -/
def arrayName (p : Primitive) : String := String.ofList ['[', p.letter]

@[simp]
theorem ofLetter?_letter (p : Primitive) : ofLetter? p.letter = some p := by
  cases p <;> rfl

theorem letter_of_ofLetter? {c : Char} {p : Primitive} (h : ofLetter? c = some p) :
    p.letter = c := by
  unfold ofLetter? at h
  split at h <;> simp_all <;> subst h <;> rfl

end Primitive

/-- A type a variable can have. -/
inductive FieldType where
  /-- A primitive type. -/
  | primitive (p : Primitive)
  /-- The objects of the class with this name. -/
  | object (name : String)
  /-- The arrays of a component type. -/
  | array (component : FieldType)
  deriving DecidableEq, Repr

namespace FieldType

/-- The characters of a type's descriptor. -/
def chars : FieldType → List Char
  | primitive p => [p.letter]
  | object name => 'L' :: (name.toList ++ [';'])
  | array component => '[' :: component.chars

/-- The descriptor that spells a type. -/
def text (t : FieldType) : String := String.ofList t.chars

/-- The primitive type, unless the type is a reference type. -/
def primitive? : FieldType → Option Primitive
  | primitive p => some p
  | _ => none

/-- Whether values of the type are references. -/
def isReference : FieldType → Bool
  | primitive _ => false
  | _ => true

/-- The number of array levels. -/
def dimension : FieldType → Nat
  | array component => component.dimension + 1
  | _ => 0

/-- The type below all array levels. -/
def element : FieldType → FieldType
  | array component => component.element
  | t => t

/-- The name a loader looks the type up under: the plain name of an object type, the descriptor of
an array type. -/
def className? : FieldType → Option String
  | primitive _ => none
  | object name => some name
  | array component => some (array component).text

/-- The name of the class below all array levels, which is what loading constraints speak of. -/
def elementClassName? : FieldType → Option String
  | primitive _ => none
  | object name => some name
  | array component => component.elementClassName?

@[simp]
theorem dimension_array (t : FieldType) : (array t).dimension = t.dimension + 1 := rfl

@[simp]
theorem element_array (t : FieldType) : (array t).element = t.element := rfl

@[simp]
theorem elementClassName?_array (t : FieldType) :
    (array t).elementClassName? = t.elementClassName? := rfl

@[simp]
theorem toList_text (t : FieldType) : t.text.toList = t.chars := by
  simp [text]

end FieldType

/-- What a method returns. -/
inductive ReturnType where
  /-- No value. -/
  | void
  /-- A value of the given type. -/
  | value (t : FieldType)
  deriving DecidableEq, Repr

namespace ReturnType

/-- The characters of a return type's descriptor. -/
def chars : ReturnType → List Char
  | void => ['V']
  | value t => t.chars

/-- The descriptor that spells a return type. -/
def text (r : ReturnType) : String := String.ofList r.chars

/-- The type of the returned value. -/
def type? : ReturnType → Option FieldType
  | void => none
  | value t => some t

end ReturnType

/-- The parameter types and the return type of a method. -/
structure MethodDescriptor where
  /-- The parameter types, in order. -/
  parameters : List FieldType
  /-- What the method returns. -/
  result : ReturnType
  deriving DecidableEq, Repr

namespace MethodDescriptor

/-- The characters of a method descriptor. -/
def chars (d : MethodDescriptor) : List Char :=
  '(' :: (d.parameters.flatMap FieldType.chars ++ ')' :: d.result.chars)

/-- The text that spells a method descriptor. -/
def text (d : MethodDescriptor) : String := String.ofList d.chars

/-- The types that occur in a method descriptor, the return type last. -/
def types (d : MethodDescriptor) : List FieldType :=
  d.parameters ++ d.result.type?.toList

end MethodDescriptor

end Linkage
