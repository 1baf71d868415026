import Linkage.Area.Array
import Linkage.Descriptor.Basic

/-!
# The classes that are there from the start

The bootstrap loader starts with the top of the hierarchy, the two interfaces of arrays, a string
class and the array classes over the primitive types, all of them initialized.
-/

namespace Linkage

namespace Boot

/-- The name of the string class. -/
def stringName : String := "java/lang/String"

/-- The name of the stand-in for the common supertype of arrays. -/
def arrayStubName : String := "$ARRAYSTUB$"

/-- A public method. -/
def method (name : String) (parameters : List FieldType) (result : ReturnType) :
    MethodDefinition :=
  ⟨Flag.accPublic.mask, name, ⟨parameters, result⟩⟩

/-- The type of all objects. -/
def objectType : FieldType := .object objectName

/-- The type of strings. -/
def stringType : FieldType := .object stringName

/-- The definition of the top of the hierarchy. -/
def objectDefinition : Definition :=
  { name := objectName
    flags := Flag.accPublic.mask
    superclass := none
    methods :=
      [method "<init>" [] .void,
       method "equals" [objectType] (.value (.primitive .boolean)),
       method "hashCode" [] (.value (.primitive .int)),
       method "toString" [] (.value stringType),
       ⟨Flag.accProtected.mask, "clone", ⟨[], .value objectType⟩⟩] }

/-- The definition of a public interface without members. -/
def interfaceDefinition (name : String) : Definition :=
  { name := name
    flags := Flag.accPublic.mask ||| Flag.accInterface.mask ||| Flag.accAbstract.mask }

/-- The definition of the string class. -/
def stringDefinition : Definition :=
  { name := stringName
    flags := Flag.accPublic.mask ||| Flag.accFinal.mask
    interfaces := [serializableName]
    fields := [⟨0, "length", .primitive .long⟩, ⟨0, "value", .array (.primitive .char)⟩]
    methods :=
      [method "<init>" [] .void,
       method "length" [] (.value (.primitive .int)),
       method "charAt" [.primitive .int] (.value (.primitive .char)),
       method "concat" [stringType] (.value stringType),
       method "equals" [objectType] (.value (.primitive .boolean)),
       method "toString" [] (.value stringType)] }

/-- The top of the hierarchy. -/
def object : Class := .root (objectDefinition.link ⟨0⟩ .bootstrap none)

/-- Links a definition directly below the top of the hierarchy. -/
def below (d : Definition) (id : Nat) (interfaces : List Class) : Class :=
  .derived (d.link ⟨id⟩ .bootstrap (some object)) object interfaces

/-- The first interface of arrays. -/
def cloneable : Class := below (interfaceDefinition cloneableName) 1 []

/-- The second interface of arrays. -/
def serializable : Class := below (interfaceDefinition serializableName) 2 []

/-- The string class. -/
def string : Class := below stringDefinition 3 [serializable]

/-- The stand-in for the common supertype of arrays. -/
def arrayStub : Class :=
  .derived
    { id := ⟨4⟩
      name := arrayStubName
      loader := .bootstrap
      flags := Flag.accPublic.mask ||| Flag.accAbstract.mask
      instanceSize := headerSize
      vtableLength := 0 }
    object [cloneable, serializable]

/-- The classes that the rules of the language speak of. -/
def core : CoreClasses := ⟨object, cloneable, serializable, arrayStub⟩

/-- The array class over a primitive type. -/
def primitiveArray (p : Primitive) (id : Nat) : Class :=
  .primitiveArray (arrayData core ⟨id⟩ p.arrayName .bootstrap Flag.accPublic.mask)
    object core.arrayInterfaces p

/-- The array classes over the primitive types. -/
def primitiveArrays : List Class :=
  Primitive.all.zipIdx.map fun e => primitiveArray e.1 (e.2 + 5)

/-- The classes in the table of the bootstrap loader. -/
def classes : List Class := [object, cloneable, serializable, string] ++ primitiveArrays

end Boot

/-- The class area at the start. -/
def Area.initial : Area :=
  { loaders := ⟨[(.bootstrap, { loaded := ⟨Boot.classes.map fun c => (c.name, c)⟩ })]⟩
    phases := ⟨(Boot.arrayStub :: Boot.classes).map fun c => (c.id, .initialized)⟩
    nextId := 13
    core := Boot.core }

end Linkage
