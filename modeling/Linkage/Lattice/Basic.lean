import Linkage.Lattice.Mention

/-!
# Types of values during verification

What is known of a value at a point of the code. A reference type that comes out of a join of
control flow remembers the classes of all branches.
-/

namespace Linkage

/-- What is known of the class of an object. -/
structure ReferenceType where
  /-- The class, or a common supertype of all branches. -/
  mention : Mention
  /-- The number of array levels, 255 standing also for more. -/
  dimension : Nat
  /-- The primitive type below the array levels. -/
  elementType : Option Primitive
  /-- The class below the array levels. -/
  elementClass : Option Mention
  /-- The classes of the branches of a join. -/
  merged : Option (List Mention)

/-- What is known of a value. -/
inductive ValueType where
  /-- A value of some primitive type. -/
  | primitive
  /-- The address that a subroutine returns to, given by its block. -/
  | returnAddress (block : Nat)
  /-- The null reference. -/
  | null
  /-- An object whose constructor has not run, given by the instruction that made it. -/
  | uninitialized (instruction : Nat)
  /-- A reference to an object. -/
  | reference (r : ReferenceType)

/-- A class name without its leading array levels, and their number. -/
def splitDimensions (name : String) : Nat × List Char :=
  let cs := name.toList
  ((cs.takeWhile (· = '[')).length, cs.dropWhile (· = '['))

namespace ReferenceType

/-- The type of the instances of a loaded class. -/
def ofClass (c : Class) : ReferenceType :=
  ⟨.loaded c, c.dimension, c.elementType?, c.elementClass?.map .loaded, none⟩

/-- The type of the instances of a named class. The name tells the array levels and the element. -/
def ofClassRef (r : ClassRef) : ReferenceType :=
  let (levels, element) := splitDimensions r.name
  let dimension := min levels maxDimension
  if dimension = 0 then ⟨.symbolic r, 0, none, none, none⟩
  else
    match unwrapObject? element with
    | some name =>
      ⟨.symbolic r, dimension, none, some (.symbolic ⟨r.referer, String.ofList name⟩), none⟩
    | none => ⟨.symbolic r, dimension, element.head?.bind Primitive.ofLetter?, none, none⟩

/-- The type of the instances of a mentioned class. -/
def ofMention : Mention → ReferenceType
  | .loaded c => ofClass c
  | .symbolic r => ofClassRef r

/-- Whether the type is one of arrays. -/
def isArray (t : ReferenceType) : Bool := t.dimension ≠ 0

/-- The classes an object of this type may have come with: those of the branches of a join, or the
class itself. -/
def branches (t : ReferenceType) : List Mention := t.merged.getD [t.mention]

/-- Whether two lists have the same length and hold the same mentions in the same order. -/
def sameMentions : List Mention → List Mention → Bool
  | [], [] => true
  | a :: as, b :: bs => a.same b && sameMentions as bs
  | _, _ => false

/-- Whether two optional values are both missing or both there and alike. -/
def sameOption {α : Type} (eq : α → α → Bool) : Option α → Option α → Bool
  | none, none => true
  | some a, some b => eq a b
  | _, _ => false

/-- Whether two reference types are the same as expressions. -/
def same (a b : ReferenceType) : Bool :=
  a.mention.same b.mention && a.dimension = b.dimension && a.elementType = b.elementType &&
    sameOption Mention.same a.elementClass b.elementClass &&
    sameOption sameMentions a.merged b.merged

/-- A reference type as messages show it. -/
def text (t : ReferenceType) : String :=
  match t.merged with
  | some ms => t.mention.name ++ " " ++ mentionsText ms
  | none => t.mention.name

end ReferenceType

namespace ValueType

/-- The type of the instances of a mentioned class. -/
def ofMention (m : Mention) : ValueType := .reference (.ofMention m)

/-- The type of a variable that code of a referring class declares. -/
def ofFieldType (referer : Class) (t : FieldType) : ValueType :=
  match t.className? with
  | some name => .reference (.ofClassRef ⟨referer, name⟩)
  | none => .primitive

/-- The reference type, if the value is one. -/
def reference? : ValueType → Option ReferenceType
  | reference r => some r
  | _ => none

/-- Whether two types are the same as expressions. -/
def same : ValueType → ValueType → Bool
  | primitive, primitive => true
  | returnAddress a, returnAddress b => a = b
  | null, null => true
  | uninitialized a, uninitialized b => a = b
  | reference a, reference b => a.same b
  | _, _ => false

/-- A type as messages show it. -/
def text : ValueType → String
  | primitive => "primitive"
  | returnAddress block => s!"returnAddress(B{block})"
  | null => "null"
  | uninitialized instruction => s!"uninitialized(new@{instruction})"
  | reference r => r.text

end ValueType

end Linkage
