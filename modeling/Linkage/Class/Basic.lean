import Linkage.ClassName
import Linkage.Descriptor.Basic
import Linkage.Flags
import Linkage.LoaderId

/-!
# Classes

A linked class is a tree: it holds its superclass, its interfaces and, for an array class, its
component. The tree never changes once it is built. What makes a class *this* class is its
identity; two classes may agree on all their contents and still be different ones.
-/

namespace Linkage

/-- The identity of a linked class. -/
structure ClassId where
  /-- Classes are numbered in the order in which they are linked. -/
  number : Nat
  deriving DecidableEq, Repr

/-- The number under which the machine keeps what an initializer does. -/
structure InitializerId where
  /-- Initializers are numbered in the order in which they are registered. -/
  number : Nat
  deriving DecidableEq, Repr

/-- A field of a linked class. -/
structure Field where
  flags : Flags
  name : String
  descriptor : FieldType
  /-- The byte offset inside an instance, or, for a static field, the index of its slot in the
  static storage of the declaring class. -/
  offset : Nat
  deriving DecidableEq, Repr

/-- A method of a linked class. -/
structure Method where
  flags : Flags
  name : String
  descriptor : MethodDescriptor
  /-- The slot in the virtual table of every class that inherits the method. -/
  vtableIndex : Option Nat
  /-- The position among the virtual methods of the declaring interface. -/
  itableIndex : Option Nat
  deriving DecidableEq, Repr

/-- Whether the field belongs to its class rather than to the instances. -/
def Field.isStatic (f : Field) : Bool := f.flags.has .accStatic

/-- The name of every constructor. -/
def constructorName : String := "<init>"

/-- The name of every class initializer. -/
def classInitializerName : String := "<clinit>"

namespace Method

/-- Whether the method belongs to its class rather than to the instances. -/
def isStatic (m : Method) : Bool := m.flags.has .accStatic

/-- Whether only the declaring class may call the method. -/
def isPrivate (m : Method) : Bool := m.flags.has .accPrivate

/-- Whether everyone may call the method. -/
def isPublic (m : Method) : Bool := m.flags.has .accPublic

/-- Whether the method has no body. -/
def isAbstract (m : Method) : Bool := m.flags.has .accAbstract

/-- Whether the method is a constructor or a class initializer. -/
def isInitializer (m : Method) : Bool :=
  m.name = constructorName || m.name = classInitializerName

/-- Whether calls of the method are dispatched on the instance. -/
def isVirtual (m : Method) : Bool := !m.isStatic && !m.isPrivate && !m.isInitializer

/-- Whether the method goes by this name and descriptor. -/
def hasSignature (m : Method) (name : String) (descriptor : MethodDescriptor) : Bool :=
  m.name = name && m.descriptor = descriptor

end Method

/-- What a linked class says about itself, without its links to other classes. -/
structure ClassData where
  /-- The identity of the class. -/
  id : ClassId
  name : String
  /-- The loader that defined the class. -/
  loader : LoaderId
  flags : Flags
  fields : List Field := []
  methods : List Method := []
  /-- The bytes an instance takes, header included. -/
  instanceSize : Nat
  /-- The number of slots in the virtual table. -/
  vtableLength : Nat
  /-- The number of slots in the static storage. -/
  staticSlots : Nat := 0
  /-- What runs when the class is initialized. -/
  initializer : Option InitializerId := none
  deriving DecidableEq, Repr

/-- A linked class with the classes it is linked to. -/
inductive Class where
  /-- The class at the top of the hierarchy, the only one without a superclass. -/
  | root (data : ClassData)
  /-- A class or an interface. -/
  | derived (data : ClassData) (superclass : Class) (interfaces : List Class)
  /-- A one-dimensional array class over a primitive type. -/
  | primitiveArray (data : ClassData) (superclass : Class) (interfaces : List Class)
      (component : Primitive)
  /-- An array class over another class. -/
  | array (data : ClassData) (superclass : Class) (interfaces : List Class) (component : Class)

namespace Class

/-- What the class says about itself. -/
def data : Class → ClassData
  | root d => d
  | derived d _ _ => d
  | primitiveArray d _ _ _ => d
  | array d _ _ _ => d

/-- The direct superclass. -/
def superclass? : Class → Option Class
  | root _ => none
  | derived _ s _ => some s
  | primitiveArray _ s _ _ => some s
  | array _ s _ _ => some s

/-- The direct superinterfaces, in the order in which they were declared. -/
def interfaces : Class → List Class
  | root _ => []
  | derived _ _ is => is
  | primitiveArray _ _ is _ => is
  | array _ _ is _ => is

/-- The identity of the class. -/
def id (c : Class) : ClassId := c.data.id

/-- The loader that defined the class. -/
def loader (c : Class) : LoaderId := c.data.loader

/-- The access flags of the class. -/
def flags (c : Class) : Flags := c.data.flags

/-- The fields the class declares. -/
def fields (c : Class) : List Field := c.data.fields

/-- The methods the class declares. -/
def methods (c : Class) : List Method := c.data.methods

/-- Whether two classes are the same one. -/
def same (a b : Class) : Bool := a.id = b.id

/-- Whether the class is an interface. -/
def isInterface (c : Class) : Bool := c.flags.has .accInterface

/-- Whether every class may name this one. -/
def isPublic (c : Class) : Bool := c.flags.has .accPublic

/-- Whether the class is declared abstract. -/
def isAbstract (c : Class) : Bool := c.flags.has .accAbstract

/-- Whether the class is an array class. -/
def isArray : Class → Bool
  | primitiveArray .. | array .. => true
  | _ => false

/-- The name of the class; array classes are named by their descriptor. -/
def name : Class → String
  | root d => d.name
  | derived d _ _ => d.name
  | primitiveArray _ _ _ p => p.arrayName
  | array _ _ _ c => if c.isArray then "[" ++ c.name else "[L" ++ c.name ++ ";"

/-- The number of array levels. -/
def dimension : Class → Nat
  | primitiveArray .. => 1
  | array _ _ _ c => c.dimension + 1
  | _ => 0

/-- The primitive type below all array levels of an array class. -/
def elementType? : Class → Option Primitive
  | primitiveArray _ _ _ p => some p
  | array _ _ _ c => c.elementType?
  | _ => none

/-- The class below all array levels; a class that is no array is its own element. -/
def element? : Class → Option Class
  | primitiveArray .. => none
  | array _ _ _ c => c.element?
  | c => some c

/-- The class below all array levels of an array class. -/
def elementClass? (c : Class) : Option Class :=
  if c.isArray then c.element? else none

/-- The package of the class. -/
def package (c : Class) : String := packageOf c.name

/-- Whether two classes are in the same runtime package: same package name, same loader. -/
def samePackage (a b : Class) : Bool :=
  a.loader = b.loader && a.package = b.package

/-- The class itself, its superclass, and so on to the top. -/
def superclasses : Class → List Class
  | root d => [root d]
  | derived d s is => derived d s is :: s.superclasses
  | primitiveArray d s is p => primitiveArray d s is p :: s.superclasses
  | array d s is c => array d s is c :: s.superclasses

@[simp]
theorem same_self (c : Class) : c.same c = true := by simp [same]

theorem same_iff {a b : Class} : a.same b = true ↔ a.id = b.id := by simp [same]

theorem same_comm (a b : Class) : a.same b = b.same a := by simp [same, eq_comm]

/-- Every class heads its own list of superclasses. -/
theorem superclasses_eq_cons (c : Class) :
    c.superclasses = c :: (c.superclass?.map superclasses).getD [] := by
  cases c <;> rfl

theorem mem_superclasses_self (c : Class) : c ∈ c.superclasses := by
  rw [superclasses_eq_cons]
  exact List.mem_cons_self

end Class

/-- A field together with the class that declares it. -/
structure FieldHandle where
  /-- The declaring class. -/
  owner : Class
  /-- The position among the fields of the declaring class. -/
  index : Nat
  /-- The field. -/
  field : Field
  /-- The field stands at its position. -/
  found : owner.fields[index]? = some field

namespace FieldHandle

/-- Whether two handles stand for the same field of the same class. -/
def same (a b : FieldHandle) : Bool := a.owner.same b.owner && a.index = b.index

/-- A field as messages show it. -/
def text (h : FieldHandle) : String :=
  s!"{h.owner.name}.{h.field.name}:{h.field.descriptor.text}"

end FieldHandle

/-- A method together with the class that declares it. -/
structure MethodHandle where
  /-- The declaring class. -/
  owner : Class
  /-- The position among the methods of the declaring class. -/
  index : Nat
  /-- The method. -/
  method : Method
  /-- The method stands at its position. -/
  found : owner.methods[index]? = some method

namespace MethodHandle

/-- Whether two handles stand for the same method of the same class. -/
def same (a b : MethodHandle) : Bool := a.owner.same b.owner && a.index = b.index

/-- A method as messages show it. -/
def text (h : MethodHandle) : String :=
  s!"{h.owner.name}.{h.method.name}{h.method.descriptor.text}"

end MethodHandle

end Linkage
