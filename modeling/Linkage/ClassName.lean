/-!
# Class names

How the name of a class is taken apart: the package it stands in, and, for an array class, the
name of its component.
-/

namespace Linkage

/-- The name of the class at the top of every hierarchy. -/
def objectName : String := "java/lang/Object"

/-- The name of the first of the two interfaces that every array class implements. -/
def cloneableName : String := "java/lang/Cloneable"

/-- The name of the second of the two interfaces that every array class implements. -/
def serializableName : String := "java/io/Serializable"

/-- Whether a class name is the name of one of the proper supertypes of every array class. -/
def isArraySupertypeName (name : String) : Bool :=
  name = objectName || name = cloneableName || name = serializableName

/-- What stands between a leading `L` and a final `;`, if the text has both. -/
def unwrapObject? : List Char → Option (List Char)
  | 'L' :: cs => if cs.getLast? = some ';' then some cs.dropLast else none
  | _ => none

/-- The part of a text before its last `/`, or nothing without one. -/
def beforeLastSlash (cs : List Char) : List Char :=
  ((cs.reverse.dropWhile (· ≠ '/')).drop 1).reverse

/-- The package of a class name; an array class stands in the package of its element class. -/
def packageOf (name : String) : String :=
  let cs := name.toList.dropWhile (· = '[')
  String.ofList (beforeLastSlash ((unwrapObject? cs).getD cs))

/-- A class name taken apart: array names give away the name of their component. -/
inductive Spelling where
  /-- A name that does not start with `[`. -/
  | plain (name : String)
  /-- A `[` in front of the name of an array class. -/
  | nested (name : String) (component : Spelling)
  /-- A `[` in front of a class name between `L` and `;`. -/
  | object (name : String) (component : Spelling)
  /-- A `[` in front of an `L` that no final `;` closes. -/
  | unclosed (name : String)
  /-- A `[` in front of anything else, such as the letter of a primitive type. -/
  | bare (name : String) (component : String)
  deriving DecidableEq, Repr

namespace Spelling

/-- The name that was taken apart. -/
def name : Spelling → String
  | plain n => n
  | nested n _ => n
  | object n _ => n
  | unclosed n => n
  | bare n _ => n

/-- Whether an array name has exactly one byte after its first `[`. -/
def isShort (s : Spelling) : Bool :=
  s.name.utf8ByteSize = 2

theorem length_lt_of_unwrapObject? {cs element : List Char} (h : unwrapObject? cs = some element) :
    element.length < cs.length := by
  unfold unwrapObject? at h
  split at h
  · next cs =>
    split at h
    · cases h
      simp only [List.length_dropLast, List.length_cons]
      omega
    · cases h
  · cases h

/-- Takes a class name apart, given as characters. -/
def ofChars (cs : List Char) : Spelling :=
  match cs with
  | '[' :: rest =>
    match rest.head? with
    | some '[' => nested (String.ofList cs) (ofChars rest)
    | some 'L' =>
      match h : unwrapObject? rest with
      | some element =>
        have : element.length < rest.length := length_lt_of_unwrapObject? h
        object (String.ofList cs) (ofChars element)
      | none => unclosed (String.ofList cs)
    | _ => bare (String.ofList cs) (String.ofList rest)
  | _ => plain (String.ofList cs)
termination_by cs.length

/-- Takes a class name apart. -/
def ofName (name : String) : Spelling :=
  ofChars name.toList

/-- Nothing of a name is lost when it is taken apart. -/
@[simp]
theorem name_ofChars (cs : List Char) : (ofChars cs).name = String.ofList cs := by
  unfold ofChars
  split
  · split
    · rfl
    · split <;> rfl
    · rfl
  · rfl

@[simp]
theorem name_ofName (n : String) : (ofName n).name = n := by
  simp [ofName]

end Spelling

end Linkage
