import Linkage.Class.Basic

/-!
# Access rules

Which classes and members code of a referring class may use. A protected member of another package
is left open: it asks for a subclass relation that the resolver checks.
-/

namespace Linkage

/-- The answer of the access rules for a member. -/
inductive MemberAccess where
  | allowed
  | denied
  /-- Allowed if the referring class is a subclass of the declaring one. -/
  | requiresSubclass
  deriving DecidableEq, Repr

/-- The name of an answer. -/
def MemberAccess.name : MemberAccess → String
  | allowed => "Allowed"
  | denied => "Denied"
  | requiresSubclass => "RequiresSubclass"

/-- Whether a class that is no array may be named by a referring class. -/
def Class.isVisibleTo (c referer : Class) : Bool :=
  c.isPublic || referer.samePackage c

/-- Whether a referring class may name a class; an array class is as accessible as its element. -/
def Class.canAccess (referer c : Class) : Bool :=
  c.element?.all fun e => e.isVisibleTo referer

/-- Whether a referring class may use a member with these flags of a declaring class. -/
def Class.memberAccess (referer declaring : Class) (flags : Flags) : MemberAccess :=
  let allowedIf (b : Bool) : MemberAccess := if b then .allowed else .denied
  match flags.visibility with
  | .everywhere => .allowed
  | .declarer => allowedIf (referer.same declaring)
  | .package => allowedIf (referer.samePackage declaring)
  | .subclasses => if referer.samePackage declaring then .allowed else .requiresSubclass

end Linkage
