import Linkage.Area.Array

/-!
# Loading classes

A loader asks the loaders it delegates to before it defines a class itself, unless it prefers its
own definitions. Defining a class loads its supertypes through the same loader first; a class that
reaches itself this way is refused.

Delegation along a circle of parents can go on for ever, so loading counts its steps. `load` allows
for more of them than any loading that ends can take.
-/

namespace Linkage

namespace Area

/-- Whether a loader can define a class or has loaded it. -/
def knows (a : Area) (name : String) (l : LoaderId) : Bool :=
  match a.loaders.get? l with
  | some d => d.definitions.contains name || d.loaded.contains name
  | none => false

/-- The loaders from `l` along the parents, up to the first one that comes again or is missing. The
fuel is the number of steps that may be taken. -/
def delegates (a : Area) (seen : List LoaderId) (l : LoaderId) : Nat → List LoaderId
  | 0 => seen
  | n + 1 =>
    if l ∈ seen then seen
    else
      match (a.loaders.get? l).bind LoaderData.parent with
      | some p => a.delegates (seen ++ [l]) p n
      | none => seen ++ [l]

/-- The loader that is to define a class: a loader that prefers its own definitions and has one,
else the farthest one along the parents that knows the class. -/
def definer? (a : Area) (l : LoaderId) (name : String) : Option LoaderId :=
  if ((a.loaders.get? l).map LoaderData.childFirst).getD false && a.knows name l then some l
  else (a.delegates [] l (a.loaders.size + 1)).reverse.find? (a.knows name)

/-- Runs an operation while a class counts as being defined. -/
def whileDefining {α : Type} (l : LoaderId) (name : String) (x : AreaM α) : AreaM α := fun a =>
  let done (a : Area) : Area := { a with defining := a.defining.erase (l, name) }
  match x { a with defining := (l, name) :: a.defining } with
  | .ok c a => .ok c (done a)
  | .error e a => .error e (done a)

/-- The superclass of a definition, loaded by `load`. -/
def linkSuperclass (load : String → AreaM Class) (l : LoaderId) (d : Definition) :
    AreaM (Option Class) := do
  match d.superclass with
  | some name =>
    let s ← load name
    if s.isInterface then throw (.superclassIsInterface d.name name)
    return some s
  | none =>
    if d.name = objectName && l = .bootstrap then return none
    else throw (.superclassMissing d.name)

/-- The interfaces with the given names, loaded by `load`. -/
def linkInterfaces (load : String → AreaM Class) (d : Definition) :
    List String → AreaM (List Class)
  | [] => return []
  | name :: names => do
    let i ← load name
    if !i.isInterface then throw (.interfaceIsClass d.name name)
    let is ← linkInterfaces load d names
    return i :: is

/-- Links a class that a loader has a definition of. -/
def derive (load : String → AreaM Class) (l : LoaderId) (name : String) : AreaM Class := do
  let some d := ((← get).loaders.get? l).bind fun data => data.definitions.get? name
    | throw (.classMissing name)
  let superclass ← linkSuperclass load l d
  let interfaces ← linkInterfaces load d d.interfaces
  let data := d.link (← freshId) l superclass
  return match superclass with
  | some s => .derived data s interfaces
  | none => .root data

/-- Defines a class from the definition that a loader has. -/
def defineClass (load : String → AreaM Class) (l : LoaderId) (name : String) : AreaM Class := do
  if (l, name) ∈ (← get).defining then throw (.circularity name)
  let c ← whileDefining l name (derive load l name)
  recordLoaded l c
  modify fun a => { a with loads := a.loads + 1 }
  return c

/-- Loads a class by its name, taken apart, where `loadPlain` loads classes that are no arrays and
that the loader does not have yet. -/
def loadSpelled (loadPlain : LoaderId → String → AreaM Class) (l : LoaderId) :
    Spelling → AreaM Class
  | .plain name => do
    match ← findSpelled l (.plain name) with
    | some c => return c
    | none => loadPlain l name
  | .nested name s => do
    match ← findSpelled l (.nested name s) with
    | some c => return c
    | none => arrayOf (← loadSpelled loadPlain l s)
  | .object name s => do
    match ← findSpelled l (.object name s) with
    | some c => return c
    | none => arrayOf (← loadSpelled loadPlain l s)
  | .unclosed name => do
    match ← findSpelled l (.unclosed name) with
    | some c => return c
    | none => loadBare (.unclosed name)
  | .bare name component => do
    match ← findSpelled l (.bare name component) with
    | some c => return c
    | none => loadBare (.bare name component)
where
  /-- Arrays over primitive types are all there from the start. -/
  loadBare (s : Spelling) : AreaM Class := do
    match ← findSpelled .bootstrap s with
    | some c => return c
    | none => throw (.classMissing s.name)

/-- Loads a class that is no array and that the loader does not have yet, in at most so many
nested steps. -/
def loadPlain : Nat → LoaderId → String → AreaM Class
  | 0, _, name => throw (.unboundedLoading name)
  | n + 1, l, name => do
    match (← get).definer? l name with
    | none => throw (.classUnknown name l)
    | some d =>
      if d = l then defineClass (fun s => loadSpelled (loadPlain n) l (.ofName s)) l name
      else
        let c ← loadSpelled (loadPlain n) d (.plain name)
        recordLoaded l c
        return c

/-- Loads a class in at most so many nested steps. -/
def loadWithin (steps : Nat) (l : LoaderId) (name : String) : AreaM Class :=
  loadSpelled (loadPlain steps) l (.ofName name)

/-- More steps than a loading that ends can take: it enters no definition twice, and on the way from
one definition to the next it asks no loader twice. -/
def loadBound (a : Area) : Nat := (a.definitionCount + 1) * (a.loaders.size + 1) + 1

/-- Loads and links a class through a loader. -/
def load (l : LoaderId) (name : String) : AreaM Class := do
  loadWithin (← get).loadBound l name

end Area

end Linkage
