import Linkage.Class.Relations

/-!
# Member lookup

Where a field or a method of a given name and descriptor is found, starting from a class. The
superinterfaces of a class are visited breadth first, each of them once.
-/

namespace Linkage

namespace Class

/-! ### Members of one class -/

/-- The field at a position. -/
def fieldAt? (c : Class) (index : Nat) : Option FieldHandle :=
  match h : c.fields[index]? with
  | some f => some ⟨c, index, f, h⟩
  | none => none

/-- The method at a position. -/
def methodAt? (c : Class) (index : Nat) : Option MethodHandle :=
  match h : c.methods[index]? with
  | some m => some ⟨c, index, m, h⟩
  | none => none

/-- The first field of the class with this name and type. -/
def findField? (c : Class) (name : String) (descriptor : FieldType) : Option FieldHandle :=
  (c.fields.findIdx? fun f => f.name = name && f.descriptor = descriptor).bind c.fieldAt?

/-- The first method of the class that a test accepts. -/
def findMethodBy? (c : Class) (p : Method → Bool) : Option MethodHandle :=
  (c.methods.findIdx? p).bind c.methodAt?

/-- The first method of the class with this name and descriptor. -/
def findMethod? (c : Class) (name : String) (descriptor : MethodDescriptor) :
    Option MethodHandle :=
  c.findMethodBy? fun m => m.hasSignature name descriptor

/-- The method that a call through a slot of the virtual table runs: the one of the most derived
class that has a method in the slot. -/
def vtableMethod? (c : Class) (slot : Nat) : Option MethodHandle :=
  c.superclasses.findSome? fun s => s.findMethodBy? fun m => m.vtableIndex = some slot

/-! ### Superinterfaces -/

mutual

/-- One more than the number of ways that lead from a class to its superinterfaces. -/
def weight : Class → Nat
  | root _ => 1
  | derived _ _ is => weightSum is + 1
  | primitiveArray _ _ is _ => weightSum is + 1
  | array _ _ is _ => weightSum is + 1

/-- The sum of the weights of several classes. -/
def weightSum : List Class → Nat
  | [] => 0
  | c :: cs => c.weight + weightSum cs

end

theorem weight_eq (c : Class) : c.weight = weightSum c.interfaces + 1 := by
  cases c <;> simp [weight, weightSum, interfaces]

@[simp]
theorem weightSum_append (as bs : List Class) :
    weightSum (as ++ bs) = weightSum as + weightSum bs := by
  induction as with
  | nil => simp [weightSum]
  | cons a as ih => simp [weightSum, ih, Nat.add_assoc]

/-- Visits the classes of a queue and, behind them, their superinterfaces. A class that was
visited before is skipped. -/
def visitInterfaces (queue visited : List Class) : List Class :=
  match queue with
  | [] => visited
  | i :: rest =>
    if visited.any fun v => v.same i then visitInterfaces rest visited
    else visitInterfaces (rest ++ i.interfaces) (visited ++ [i])
termination_by weightSum queue
decreasing_by
  · have := i.weight_eq
    simp only [weightSum]
    omega
  · have := i.weight_eq
    simp only [weightSum, weightSum_append]
    omega

/-- Every superinterface of a class and of its superclasses, breadth first and each of them once. -/
def superinterfaces (c : Class) : List Class :=
  visitInterfaces (c.superclasses.flatMap interfaces) []

/-! ### Lookup through the hierarchy -/

mutual

/-- The field that a reference finds: in the class itself, then in its superinterfaces, then in
its superclass. -/
def lookupField? (c : Class) (name : String) (descriptor : FieldType) : Option FieldHandle :=
  (c.findField? name descriptor).or <|
    match c with
    | root _ => none
    | derived _ s is =>
      (lookupFieldAny? is name descriptor).or (s.lookupField? name descriptor)
    | primitiveArray _ s is _ =>
      (lookupFieldAny? is name descriptor).or (s.lookupField? name descriptor)
    | array _ s is _ =>
      (lookupFieldAny? is name descriptor).or (s.lookupField? name descriptor)

/-- The field found in the first of several classes that has one. -/
def lookupFieldAny? (cs : List Class) (name : String) (descriptor : FieldType) :
    Option FieldHandle :=
  match cs with
  | [] => none
  | c :: cs => (c.lookupField? name descriptor).or (lookupFieldAny? cs name descriptor)

end

/-- The instance method that a superinterface other than the starting point contributes. -/
def inheritedMethod? (c : Class) (name : String) (descriptor : MethodDescriptor) :
    Option MethodHandle :=
  c.superinterfaces.findSome? fun i =>
    (i.findMethod? name descriptor).filter fun m => !m.method.isStatic && !m.method.isPrivate

/-- The method that a reference to a class finds: along the superclasses, then among the
superinterfaces. -/
def lookupMethod? (c : Class) (name : String) (descriptor : MethodDescriptor) :
    Option MethodHandle :=
  (c.superclasses.findSome? fun s => s.findMethod? name descriptor).or
    (c.inheritedMethod? name descriptor)

/-- The method that a reference to an interface finds: in the interface, among the public instance
methods of the top class, then among the superinterfaces. -/
def lookupInterfaceMethod? (c top : Class) (name : String) (descriptor : MethodDescriptor) :
    Option MethodHandle :=
  (c.findMethod? name descriptor).or <|
    ((top.findMethod? name descriptor).filter fun m =>
      !m.method.isStatic && m.method.isPublic).or
    (c.inheritedMethod? name descriptor)

end Class

end Linkage
