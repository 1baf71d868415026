import Linkage.Lattice.Assignable
import Linkage.Resolver.Basic

/-!
# Checks of a resolution

Subtype sets are checked once real classes are known, and so is the access to protected members of
another package.
-/

namespace Linkage

namespace Resolver

/-- Checks every class of a set against a class: each has to be assignable to it, or, if
`reversed`, it to each of them. -/
def checkMembers (referer type : Class) (reversed : Bool) (mode : ResolveMode)
    (kind : FaultKind) : SubtypeSet → ResolutionM Unit
  | [] => return ()
  | m :: ms => do
    let c ← counted (resolveMention m mode)
    let (value, dest) := if reversed then (type, c) else (c, type)
    let answer ← perform ((ValueType.ofMention (.loaded value)).assignableToClass (.loaded dest))
    if answer = .yes then checkMembers referer type reversed mode kind ms
    else fail (.notAssignable kind value.name dest.name referer.name)

/-- Checks a subtype set against a mentioned class. An interface takes every value, for the call
itself checks the object. -/
def checkSubtypes (referer : Class) (set : SubtypeSet) (type : Mention) (reversed : Bool)
    (mode : ResolveMode) (kind : FaultKind) : ResolutionM Unit := do
  if set.isEmpty then return ()
  let type ← counted (resolveMention type mode)
  if !reversed && type.isInterface then return ()
  checkMembers referer type reversed mode kind set

/-- Checks whether a referring class may use a member of a declaring class. A protected member of
another package asks for a subclass of the declaring class, and an object of the member for one of
the referring class. -/
def checkAccess (referer declaring : Class) (flags : Flags) (isStatic : Bool)
    (instances : SubtypeSet) (mode : ResolveMode) (member : String) : ResolutionM Unit := do
  match referer.memberAccess declaring flags with
  | .allowed => return ()
  | .denied => fail (.memberInaccessible referer.name member)
  | .requiresSubclass =>
    counted (checkSubtypes referer [.loaded declaring] (.loaded referer) true mode .illegalAccess)
    if !isStatic then
      counted (checkSubtypes referer instances (.loaded referer) false mode .illegalAccess)

/-- Makes the loaders of a declaring and a referring class agree on a name. -/
def constrain (name : String) (declaring referer : Class) : ResolverM Unit := do
  if (← get).config.loadingConstraints && declaring.loader ≠ referer.loader then
    let _ ← onArea (Area.addConstraint name declaring.loader referer.loader fun l =>
      Area.findLoaded l name)

/-- Makes the loaders of a declaring and a referring class agree on several names. -/
def constrainAll (declaring referer : Class) : List String → ResolverM Unit
  | [] => return ()
  | name :: names => do
    constrain name declaring referer
    constrainAll declaring referer names

end Resolver

end Linkage
