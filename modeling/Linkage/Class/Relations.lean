import Linkage.Class.Basic

/-!
# Relations between classes

Subclassing, implementing and assignability of linked classes. All of them follow the tree of a
class and compare classes by their identity.
-/

namespace Linkage

namespace Class

/-- Whether `b` is `a` or one of its superclasses. -/
def isSubclassOf (a b : Class) : Bool :=
  a.superclasses.any fun c => c.same b

mutual

/-- Whether an interface is a superinterface of a class or of one of its superclasses. -/
def implements (a i : Class) : Bool :=
  match a with
  | root _ => false
  | derived _ s is => anyImplements is i || s.implements i
  | primitiveArray _ s is _ => anyImplements is i || s.implements i
  | array _ s is _ => anyImplements is i || s.implements i

/-- Whether an interface is one of the given ones or a superinterface of one of them. -/
def anyImplements (js : List Class) (i : Class) : Bool :=
  match js with
  | [] => false
  | j :: js => j.same i || j.implements i || anyImplements js i

end

/-- Whether values of class `a` may be used as values of class `b`. Arrays of classes are
covariant, and the only class that is no array and takes them is the top of the hierarchy. -/
def isAssignableTo (a b : Class) : Bool :=
  a.same b ||
    if b.isInterface then a.implements b
    else
      match a, b with
      | array _ _ _ c, array _ _ _ d => c.isAssignableTo d
      | a, b =>
        if a.isArray then !b.isArray && b.superclass?.isNone
        else !b.isArray && a.isSubclassOf b

/-- The first of a class's superclasses that another class also has. Interfaces share none. -/
def commonSuperclass? (a b : Class) : Option Class :=
  if a.isInterface || b.isInterface then none
  else a.superclasses.find? fun c => b.isSubclassOf c

@[simp]
theorem isAssignableTo_self (c : Class) : c.isAssignableTo c = true := by
  unfold isAssignableTo
  simp

end Class

end Linkage
