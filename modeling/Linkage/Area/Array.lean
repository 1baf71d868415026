import Linkage.Area.Basic

/-!
# Array classes

The array class over a component belongs to the loader of the component, shares its accessibility
and is made when it is first asked for. Looking a loaded class up by name makes the array classes
over loaded components on the way.
-/

namespace Linkage

/-- The largest number of dimensions an array class can have. -/
def maxDimension : Nat := 255

/-- The name of the array class over a component. -/
def Class.arrayName (component : Class) : String :=
  if component.isArray then "[" ++ component.name else "[L" ++ component.name ++ ";"

/-- What every array class says about itself. -/
def arrayData (core : CoreClasses) (id : ClassId) (name : String) (loader : LoaderId)
    (access : Flags) : ClassData :=
  { id := id
    name := name
    loader := loader
    flags := access ||| Flag.accFinal.mask ||| Flag.accAbstract.mask
    instanceSize := headerSize
    vtableLength := core.object.data.vtableLength }

namespace Area

/-- Makes the array class over a component. -/
def makeArray (component : Class) : AreaM Class := do
  if component.dimension = maxDimension then throw (.tooManyDimensions component.arrayName)
  let core := (← get).core
  let id ← freshId
  let data := arrayData core id component.arrayName component.loader
    (component.flags &&& Flag.accPublic.mask)
  return .array data core.object core.arrayInterfaces component

/-- The array class over a component, made on first request. -/
def arrayOf (component : Class) : AreaM Class := do
  match (← get).published? component.loader component.arrayName with
  | some c => return c
  | none =>
    let c ← makeArray component
    publish component.loader c
    return c

/-- The array class over a component, if it can be had. -/
def arrayOf? (component : Class) : AreaM (Option Class) :=
  tryCatch (some <$> arrayOf component) fun _ => pure none

/-- Wraps a class into a number of array levels. -/
def arrayOfDimension? (c : Class) : Nat → AreaM (Option Class)
  | 0 => return some c
  | n + 1 => do
    match ← arrayOf? c with
    | some array => arrayOfDimension? array n
    | none => return none

/-- The array class with a name that a loader has in its table or that stands over a component that
is found. One-letter names are looked for in the bootstrap loader only. -/
def findArray (l : LoaderId) (name : String) (short : Bool) (component : AreaM (Option Class)) :
    AreaM (Option Class) := do
  let a ← get
  match a.published? l name with
  | some c => return some c
  | none =>
    if short then return a.published? .bootstrap name
    else
      match ← component with
      | some c => arrayOf? c
      | none => return none

/-- Finds a loaded class by its name, taken apart. Nothing is loaded. -/
def findSpelled (l : LoaderId) : Spelling → AreaM (Option Class)
  | .plain name => return (← get).published? l name
  | .nested name s => findArray l name (Spelling.nested name s).isShort (findSpelled l s)
  | .object name s => findArray l name (Spelling.object name s).isShort (findSpelled l s)
  | .unclosed name => findArray l name (Spelling.unclosed name).isShort (pure none)
  | .bare name s => findArray l name (Spelling.bare name s).isShort (pure none)

/-- Finds a class among those a loader has loaded. Nothing is loaded, but array classes over loaded
components are made. -/
def findLoaded (l : LoaderId) (name : String) : AreaM (Option Class) :=
  findSpelled l (.ofName name)

/-- Makes two loaders agree on a class name, in view of what they have loaded. -/
def addConstraint (name : String) (a b : LoaderId)
    (loaded : LoaderId → AreaM (Option Class)) : AreaM Bool := do
  let t := (← get).constraints
  if t.related name a b then return false
  let ask (l : LoaderId) : AreaM (Option Class) :=
    if (t.bound? name l).isSome then pure none else loaded l
  let forA ← ask a
  let forB ← ask b
  match t.add name a b fun l => if l = a then forA else forB with
  | .error e => throw e
  | .ok (changed, t') =>
    modify fun s => { s with constraints := t' }
    return changed

end Area

end Linkage
