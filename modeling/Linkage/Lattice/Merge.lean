import Linkage.Lattice.Assignable

/-!
# Joins of types

The type of a value where two paths of control flow meet. The join of two reference types names a
class above both and keeps the classes of all branches.
-/

namespace Linkage

namespace ReferenceType

/-- The classes of the branches of two types, without those of the second that are known to be
among those before them. -/
def joinBranches (as : List Mention) : List Mention → List Mention
  | [] => as
  | b :: bs => joinBranches (if as.any fun a => a.knownSame b then as else as ++ [b]) bs

/-- The class that an optional mention means, if it is loaded. -/
def findElement (m : Option Mention) : AreaM (Option Class) :=
  match m with
  | some m => m.find
  | none => return none

/-- The class above two array types: an array over a common superclass of loaded elements, or else
the stand-in for the common supertype of arrays. -/
def commonArray (a b : ReferenceType) : AreaM (Option Class) := do
  let x ← findElement a.elementClass
  let y ← findElement b.elementClass
  let sameShape := a.dimension = b.dimension && a.elementType = b.elementType
  let stub := (← get).core.arrayStub
  match x, y with
  | some x, some y =>
    match if sameShape then x.commonSuperclass? y else none with
    | some common => Area.arrayOfDimension? common a.dimension
    | none => return some stub
  | _, _ => return some stub

/-- The most precise class above two types that can be named without loading. There is none if the
array class that would be it cannot be made. -/
def commonSupertype (a b : ReferenceType) : AreaM (Option Class) := do
  let object := (← get).core.object
  if a.isArray && b.isArray then commonArray a b
  else if a.isArray || b.isArray then return some object
  else
    let x ← a.mention.find
    let y ← b.mention.find
    match x, y with
    | some x, some y => return some ((x.commonSuperclass? y).getD object)
    | _, _ => return some object

/-- The join of two reference types. -/
def merge (a b : ReferenceType) : AreaM (Option ReferenceType) := do
  if a.merged.isNone && b.merged.isNone && a.mention.knownSame b.mention then return some a
  match joinBranches a.branches b.branches with
  | [m] => return some (ofMention m)
  | ms =>
    match ← commonSupertype a b with
    | some c => return some { ofClass c with merged := some ms }
    | none => return none

end ReferenceType

namespace ValueType

/-- The join of two types, unless values of the two have nothing in common. -/
def merge (a b : ValueType) : AreaM (Option ValueType) := do
  match a, b with
  | primitive, primitive => return some primitive
  | returnAddress m, returnAddress n => return if m = n then some a else none
  | uninitialized m, uninitialized n => return if m = n then some a else none
  | null, null => return some null
  | null, reference r => return some (reference r)
  | reference r, null => return some (reference r)
  | reference r, reference s => return (← r.merge s).map reference
  | _, _ => return none

end ValueType

end Linkage
