import Linkage.Resolver.Check

/-!
# Resolving uses

From the use of a class, a field or a method to the thing itself: the container is resolved, the
member is looked up, and everything that verification left open is checked.
-/

namespace Linkage

namespace Resolver

/-- The class that a use names. -/
def resolveClass (u : ClassUse) (mode : ResolveMode) : ResolutionM Class := do
  count fun s => { s with classes := s.classes + 1 }
  let c ← counted (resolveName u.target.referer (some u.method) u.target.name mode true)
  counted (checkSubtypes u.referer u.values (.loaded c) false mode .linkage)
  report u.text c.name
  return c

/-- The class in which a member is to be looked up. -/
def resolveContainer (r : ClassRef) (method : MethodHandle) (mode : ResolveMode) :
    ResolutionM Class :=
  counted (resolveName r.referer (some method) r.name mode true)

/-- The field that a use names. -/
def resolveField (u : FieldUse) (mode : ResolveMode) : ResolutionM FieldHandle := do
  count fun s => { s with fields := s.fields + 1 }
  let container ← resolveContainer u.target.container u.method mode
  let some field := container.lookupField? u.target.name u.target.descriptor
    | fail (.fieldMissing u.target.text)
  if field.field.isStatic ≠ u.isStatic then
    fail (.wrongStaticness u.isStatic s!"field {field.text}")
  if !u.isStatic then
    counted (checkSubtypes u.referer u.instances (.loaded field.owner) false mode .linkage)
  match u.isPut, u.target.typeRef? with
  | true, some type =>
    counted (checkSubtypes u.referer u.values (.symbolic type) false mode .linkage)
  | _, _ => pure ()
  counted (checkAccess u.referer field.owner field.field.flags u.isStatic u.instances mode
    s!"field {field.text}")
  OptionT.lift (constrainAll field.owner u.referer u.target.descriptor.elementClassName?.toList)
  report u.text field.text
  return field

/-- The method of a container that a reference finds. -/
def lookupTarget (container : Class) (target : MethodRef) : ResolutionM MethodHandle := do
  let r ← current
  if target.isInterface then
    if !container.isInterface then fail (.interfaceExpected container.name)
  else if container.isInterface then fail (.classExpected container.name)
  let found :=
    if target.isInterface then
      container.lookupInterfaceMethod? r.area.core.object target.name target.descriptor
    else container.lookupMethod? target.name target.descriptor
  match found with
  | some m => return m
  | none => fail (.methodMissing target.text)

/-- Checks the arguments of a call against the parameters that a reference names. -/
def checkArguments (referer : Class) (mode : ResolveMode) :
    List FieldType → List SubtypeSet → ResolutionM Unit
  | p :: ps, s :: ss => do
    match p.className? with
    | some name =>
      let type : Mention := .symbolic ⟨referer, name⟩
      counted (checkSubtypes referer s type false mode .linkage)
    | none => pure ()
    checkArguments referer mode ps ss
  | _, _ => return ()

/-- The method that an object of a loaded class runs when a virtual method is called on it. -/
def overrideIn? (c : Class) (m : MethodHandle) : Option MethodHandle :=
  match m.method.vtableIndex with
  | some slot => c.vtableMethod? slot
  | none =>
    c.superclasses.findSome? fun s =>
      (s.findMethod? m.method.name m.method.descriptor).filter fun o =>
        o.method.isVirtual && !o.method.isAbstract

/-- The method that is really called, if the object is known to be of one loaded class. -/
def devirtualize (m : MethodHandle) (instances : SubtypeSet) : ResolverM MethodHandle := do
  if !m.method.isVirtual then return m
  match instances with
  | [mention] =>
    match ← onArea mention.find with
    | some c =>
      if !c.isInterface && !c.isArray && c.isAssignableTo m.owner then
        return (overrideIn? c m).getD m
      else return m
    | none => return m
  | _ => return m

/-- The names on which the loaders of a method's class and of its caller's have to agree. -/
def agreedNames (m : MethodHandle) : List String :=
  m.method.descriptor.types.filterMap FieldType.elementClassName? ++ [m.owner.name]

/-- The method that a use names. Unless the use asks for the very method that is found, a call on
an object of a known class resolves to what that class runs. -/
def resolveMethod (u : MethodUse) (mode : ResolveMode) : ResolutionM MethodHandle := do
  count fun s => { s with methods := s.methods + 1 }
  let container ← resolveContainer u.target.container u.method mode
  let m ← lookupTarget container u.target
  if m.method.isStatic ≠ u.isStatic then
    fail (.wrongStaticness u.isStatic s!"method {m.text}")
  if !u.isStatic then
    counted (checkSubtypes u.referer u.instances (.loaded container) false mode .linkage)
  checkArguments u.referer mode u.target.descriptor.parameters (u.arguments.getD [])
  counted (checkAccess u.referer m.owner m.method.flags u.isStatic u.instances mode
    s!"method {m.text}")
  OptionT.lift (constrainAll m.owner u.referer (agreedNames m))
  let target ← if u.isSpecial then pure m else OptionT.lift (devirtualize m u.instances)
  report u.text target.text
  return target

/-- The interface method that a call through an interface goes to, found anew from the reference:
what the object is known to run does not matter there. -/
def interfaceTarget (target : MethodRef) : ResolutionM MethodHandle := do
  let container ← resolveName target.container.referer none target.container.name .eager false
  let r ← current
  match container.lookupInterfaceMethod? r.area.core.object target.name target.descriptor with
  | some m => return m
  | none => fail (.methodMissing target.text)

end Resolver

end Linkage
