import Linkage.Class.Lookup

/-!
# Linking a definition

A definition names the classes it depends on. Once these are there, linking lays out the fields
behind those of the superclass and gives every virtual method a slot: the one of the method it
overrides, or a new one.
-/

namespace Linkage

/-- A field as a definition declares it. -/
structure FieldDefinition where
  flags : Flags
  name : String
  descriptor : FieldType
  deriving DecidableEq, Repr

/-- A method as a definition declares it. -/
structure MethodDefinition where
  flags : Flags
  name : String
  descriptor : MethodDescriptor
  deriving DecidableEq, Repr

/-- What a loader knows of a class before it is loaded: names only. -/
structure Definition where
  name : String
  flags : Flags
  /-- Only the top of the hierarchy names no superclass. -/
  superclass : Option String := some objectName
  interfaces : List String := []
  fields : List FieldDefinition := []
  methods : List MethodDefinition := []
  /-- What runs when the class is initialized. -/
  initializer : Option InitializerId := none
  deriving DecidableEq, Repr

/-- The bytes in front of the first field of every object. -/
def headerSize : Nat := 16

/-- The bytes that every instance field takes. -/
def fieldSize : Nat := 8

/-- How many fields have been placed so far. -/
structure FieldLayout where
  /-- The offset of the next instance field. -/
  nextOffset : Nat
  /-- The slot of the next static field. -/
  nextSlot : Nat := 0
  deriving DecidableEq, Repr

/-- Places the fields of a class one after the other, static and instance fields apart. -/
def FieldLayout.place (layout : FieldLayout) :
    List FieldDefinition → List Field × FieldLayout
  | [] => ([], layout)
  | f :: fs =>
    if f.flags.has .accStatic then
      let r := FieldLayout.place { layout with nextSlot := layout.nextSlot + 1 } fs
      (⟨f.flags, f.name, f.descriptor, layout.nextSlot⟩ :: r.1, r.2)
    else
      let r := FieldLayout.place { layout with nextOffset := layout.nextOffset + fieldSize } fs
      (⟨f.flags, f.name, f.descriptor, layout.nextOffset⟩ :: r.1, r.2)

/-- A method that has no slot yet. -/
def MethodDefinition.bare (m : MethodDefinition) : Method :=
  ⟨m.flags, m.name, m.descriptor, none, none⟩

/-- The slot of the virtual method that a method of a subclass overrides. -/
def Class.overriddenSlot? (superclass : Class) (m : Method) : Option Nat :=
  ((superclass.superclasses.flatMap Class.methods).find? fun o =>
    o.isVirtual && o.hasSignature m.name m.descriptor).bind Method.vtableIndex

/-- Gives the virtual methods of an interface their positions, counting from `next`. -/
def placeInterfaceMethods (next : Nat) : List MethodDefinition → List Method
  | [] => []
  | m :: ms =>
    if m.bare.isVirtual then
      { m.bare with itableIndex := some next } :: placeInterfaceMethods (next + 1) ms
    else m.bare :: placeInterfaceMethods next ms

/-- Gives the virtual methods of a class their slots; a method that overrides none gets the next
free slot. The number of slots in use comes back with the methods. -/
def placeMethods (overridden : Method → Option Nat) (next : Nat) :
    List MethodDefinition → List Method × Nat
  | [] => ([], next)
  | m :: ms =>
    if m.bare.isVirtual then
      match overridden m.bare with
      | some slot =>
        let r := placeMethods overridden next ms
        ({ m.bare with vtableIndex := some slot } :: r.1, r.2)
      | none =>
        let r := placeMethods overridden (next + 1) ms
        ({ m.bare with vtableIndex := some next } :: r.1, r.2)
    else
      let r := placeMethods overridden next ms
      (m.bare :: r.1, r.2)

namespace Definition

/-- Whether the definition is one of an interface. -/
def isInterface (d : Definition) : Bool := d.flags.has .accInterface

/-- What a class says about itself once it is linked below a superclass, if it has one. -/
def link (d : Definition) (id : ClassId) (loader : LoaderId) (superclass : Option Class) :
    ClassData :=
  let start : FieldLayout := ⟨superclass.elim headerSize fun s => s.data.instanceSize, 0⟩
  let (fields, layout) := start.place d.fields
  let inherited := superclass.elim 0 fun s => s.data.vtableLength
  let (methods, slots) :=
    if d.isInterface then (placeInterfaceMethods 0 d.methods, inherited)
    else placeMethods (fun m => superclass.bind fun s => s.overriddenSlot? m) inherited d.methods
  { id := id
    name := d.name
    loader := loader
    flags := d.flags
    fields := fields
    methods := methods
    instanceSize := layout.nextOffset
    vtableLength := slots
    staticSlots := layout.nextSlot
    initializer := d.initializer }

end Definition

end Linkage
