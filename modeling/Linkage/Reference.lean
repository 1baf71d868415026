import Linkage.Lattice.Basic

/-!
# Uses of classes and members

A use is a symbolic reference in the code of a method together with what verification knows of the
values involved. What is known is kept as sets of classes that have to be checked when the
reference is resolved.
-/

namespace Linkage

/-! ### Symbolic references -/

/-- A field named from the code of a referring class. -/
structure FieldRef where
  /-- The class in which the field is looked for. -/
  container : ClassRef
  name : String
  descriptor : FieldType

/-- A method named from the code of a referring class. -/
structure MethodRef where
  /-- The class in which the method is looked for. -/
  container : ClassRef
  name : String
  descriptor : MethodDescriptor
  /-- Whether the reference says that the container is an interface. -/
  isInterface : Bool

/-- A field reference as messages show it. -/
def FieldRef.text (r : FieldRef) : String :=
  s!"{r.container.name}.{r.name}:{r.descriptor.text}"

/-- A method reference as messages show it. -/
def MethodRef.text (r : MethodRef) : String :=
  s!"{r.container.name}.{r.name}{r.descriptor.text}"

/-- The class of the values of a field, as its reference names it. -/
def FieldRef.typeRef? (r : FieldRef) : Option ClassRef :=
  r.descriptor.className?.map fun name => ⟨r.container.referer, name⟩

/-! ### Subtype sets -/

/-- Classes that have to be subtypes of a class that is known later. -/
abbrev SubtypeSet := List Mention

/-- The classes to check when a value is stored where a class with the name `declared` is expected.
Nothing has to be checked against the top of the hierarchy or against a class of the same name. -/
def SubtypeSet.ofValue (t : ValueType) (declared : String) : SubtypeSet :=
  match t with
  | .reference r =>
    if declared = objectName then []
    else
      match r.merged with
      | some ms => ms
      | none => if r.mention.name = declared then [] else [r.mention]
  | _ => []

/-! ### Uses -/

/-- The use of a class in a method. -/
structure ClassUse where
  /-- The method with the code. -/
  method : MethodHandle
  /-- The class that is named. -/
  target : ClassRef
  /-- Classes that have to be subtypes of the named one. -/
  values : SubtypeSet

/-- The use of a field in a method. -/
structure FieldUse where
  /-- The method with the code. -/
  method : MethodHandle
  /-- The field that is named. -/
  target : FieldRef
  /-- Whether a static field is expected. -/
  isStatic : Bool
  /-- Whether a value is stored. -/
  isPut : Bool
  /-- The classes of the object whose field is used. -/
  instances : SubtypeSet
  /-- The classes of the value that is stored. -/
  values : SubtypeSet

/-- The use of a method in a method. -/
structure MethodUse where
  /-- The method with the code. -/
  method : MethodHandle
  /-- The method that is named. -/
  target : MethodRef
  /-- Whether a static method is expected. -/
  isStatic : Bool
  /-- Whether the very method that is found is called, whatever the class of the object. -/
  isSpecial : Bool
  /-- The classes of the object whose method is called. -/
  instances : SubtypeSet
  /-- The classes of the arguments, one set for each parameter, if anything has to be checked. -/
  arguments : Option (List SubtypeSet)

/-- The use of something in a method. -/
inductive Use where
  | ofClass (u : ClassUse)
  | ofField (u : FieldUse)
  | ofMethod (u : MethodUse)

/-- The class whose code uses the class. -/
def ClassUse.referer (u : ClassUse) : Class := u.target.referer

/-- The class whose code uses the field. -/
def FieldUse.referer (u : FieldUse) : Class := u.target.container.referer

/-- The class whose code uses the method. -/
def MethodUse.referer (u : MethodUse) : Class := u.target.container.referer

/-- A part of the text of a use that is left out when there is nothing to say. -/
def setText (label : String) (s : SubtypeSet) : String :=
  if s.isEmpty then "" else s!" {label} {mentionsText s}"

/-- The use of a class as messages show it. -/
def ClassUse.text (u : ClassUse) : String :=
  s!"class {u.target.name} from {u.method.text}"

/-- The use of a field as messages show it. -/
def FieldUse.text (u : FieldUse) : String :=
  let instances := setText "instance" u.instances
  let values := setText "value" u.values
  s!"field {u.target.text} from {u.method.text}{instances}{values}"

/-- The use of a method as messages show it. -/
def MethodUse.text (u : MethodUse) : String :=
  let instances := setText "instance" u.instances
  s!"method {u.target.text} from {u.method.text}{instances}"

/-- A use as messages show it. -/
def Use.text : Use → String
  | ofClass u => u.text
  | ofField u => u.text
  | ofMethod u => u.text

/-! ### Creating uses -/

/-- The use of a class against which a value may be checked. -/
def ClassUse.create (method : MethodHandle) (target : ClassRef) (value : Option ValueType) :
    ClassUse :=
  ⟨method, target, value.elim [] fun t => .ofValue t target.name⟩

/-- The classes to check for the object of a member that is looked for in the class `declared`. An
object under construction counts as one of the class whose code this is, where that is allowed. -/
def instanceSet (method : MethodHandle) (declared : String) (object : Option ValueType)
    (underConstruction : Bool) : Except Fault SubtypeSet :=
  match object with
  | none | some .null => .ok []
  | some (.reference r) => .ok (.ofValue (.reference r) declared)
  | some (.uninitialized _) =>
    if underConstruction then .ok (.ofValue (.ofMention (.loaded method.owner)) declared)
    else .error (.uninitializedAccess method.text)
  | some t => .error (.notAnObject method.text t.text)

/-- The use of a field of an object; constructors may store into the object under construction. -/
def FieldUse.create (method : MethodHandle) (target : FieldRef) (isStatic isPut : Bool)
    (object value : Option ValueType) : Except Fault FieldUse := do
  let inConstructor := isPut && method.method.name = constructorName
  let instances ←
    if isStatic then pure []
    else instanceSet method target.container.name object inConstructor
  let values ←
    match target.descriptor.className?, value with
    | some declared, some t =>
      if isPut then
        match t with
        | .reference _ | .null => pure (SubtypeSet.ofValue t declared)
        | _ => throw (.badStore method.text t.text target.text)
      else pure []
    | _, _ => pure []
  return ⟨method, target, isStatic, isPut, instances, values⟩

/-- The classes to check for the arguments of a call. -/
def argumentSets (method : MethodHandle) (target : MethodRef) (arguments : List ValueType) :
    Except Fault (Option (List SubtypeSet)) :=
  if arguments.isEmpty then .ok none
  else if arguments.length ≠ target.descriptor.parameters.length then
    .error (.argumentCount method.text arguments.length target.text)
  else
    let sets := List.zipWith
      (fun (p : FieldType) t => p.className?.elim [] fun declared => SubtypeSet.ofValue t declared)
      target.descriptor.parameters arguments
    .ok (if sets.any fun s => !s.isEmpty then some sets else none)

/-- The use of a method of an object; only a constructor may be called on an object under
construction, and then there is nothing to check for the object. -/
def MethodUse.create (method : MethodHandle) (target : MethodRef) (isStatic isSpecial : Bool)
    (object : Option ValueType) (arguments : List ValueType) : Except Fault MethodUse := do
  if isStatic && isSpecial then throw (.staticAndSpecial method.text target.text)
  let isConstructor := target.name = constructorName
  let instances ←
    if isStatic then pure []
    else do
      let set ← instanceSet method target.container.name object isConstructor
      match object with
      | some (.uninitialized _) => pure (if isConstructor then [] else set)
      | _ => pure set
  let arguments ← argumentSets method target arguments
  return ⟨method, target, isStatic, isSpecial, instances, arguments⟩

end Linkage
