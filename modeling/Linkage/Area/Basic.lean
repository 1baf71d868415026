import Linkage.Class.Definition
import Linkage.Constraints

/-!
# The class area

All loaders with the definitions they hold and the classes they have loaded, the loading
constraints between them, and how far each class is initialized. Operations on the area may fail;
what they changed before failing stays changed.
-/

namespace Linkage

/-- How far a class is initialized. -/
inductive Phase where
  | linked
  | initializing
  | initialized
  | erroneous
  deriving DecidableEq, Repr

/-- The name of a phase. -/
def Phase.name : Phase → String
  | linked => "Linked"
  | initializing => "Initializing"
  | initialized => "Initialized"
  | erroneous => "Erroneous"

/-- What belongs to one class loader. -/
structure LoaderData where
  /-- The loader to delegate to; only the bootstrap loader has none. -/
  parent : Option LoaderId := none
  /-- Whether the loader looks at its own definitions before it asks its parent. -/
  childFirst : Bool := false
  /-- The classes the loader can define. -/
  definitions : Table String Definition := {}
  /-- The classes the loader has loaded, those it got from other loaders included. -/
  loaded : Table String Class := {}

/-- The classes that the rules of the language speak of. -/
structure CoreClasses where
  /-- The top of the hierarchy. -/
  object : Class
  /-- The first interface of every array class. -/
  cloneable : Class
  /-- The second interface of every array class. -/
  serializable : Class
  /-- A stand-in for the common supertype of arrays that have no more precise one. It is in no
  loader's table. -/
  arrayStub : Class

/-- The interfaces of every array class. -/
def CoreClasses.arrayInterfaces (core : CoreClasses) : List Class :=
  [core.cloneable, core.serializable]

/-- The state of the class area. -/
structure Area where
  /-- The loaders, numbered in the order in which they were added. -/
  loaders : Table LoaderId LoaderData
  /-- The classes that are being defined right now. -/
  defining : List (LoaderId × String) := []
  /-- What loaders have to agree on. -/
  constraints : Constraints := {}
  /-- How far the classes are that are no longer just linked. -/
  phases : Table ClassId Phase
  /-- The identity of the next class. -/
  nextId : Nat
  /-- How many classes were defined since the start. -/
  loads : Nat := 0
  /-- The classes that the rules of the language speak of. -/
  core : CoreClasses

/-- An operation on the class area that may fail. -/
abbrev AreaM := EStateM Fault Area

namespace Area

/-- The class a loader has in its table under a name. -/
def published? (a : Area) (l : LoaderId) (name : String) : Option Class :=
  (a.loaders.get? l).bind fun d => d.loaded.get? name

/-- How far a class is initialized. Array classes have nothing to initialize. -/
def phase (a : Area) (c : Class) : Phase :=
  if c.isArray then .initialized else (a.phases.get? c.id).getD .linked

/-- Records how far a class is initialized. -/
def setPhase (a : Area) (c : Class) (p : Phase) : Area :=
  { a with phases := a.phases.insert c.id p }

/-- A class with its loader and its phase, for diagnosis. -/
def describe (a : Area) (c : Class) : String :=
  s!"{c.name} ({c.loader.text}, Some({(a.phase c).name}))"

/-- Adds a loader that delegates to `parent`, which need not exist. -/
def addLoader (a : Area) (parent : LoaderId) (childFirst : Bool) : LoaderId × Area :=
  let l : LoaderId := ⟨a.loaders.size⟩
  (l, { a with loaders := a.loaders.insert l ⟨some parent, childFirst, {}, {}⟩ })

/-- Makes a class known to a loader. A class that is loaded already stays as it is, and an unknown
loader learns nothing. -/
def define (a : Area) (l : LoaderId) (d : Definition) : Area :=
  { a with loaders := a.loaders.modify l fun data =>
      { data with definitions := data.definitions.insert d.name d } }

/-- How many definitions the loaders hold. -/
def definitionCount (a : Area) : Nat :=
  a.loaders.total fun d => d.definitions.size

/-- How many entries the tables of the loaders have. -/
def loadedCount (a : Area) : Nat :=
  a.loaders.total fun d => d.loaded.size

/-- Takes the identity of a new class. -/
def freshId : AreaM ClassId := do
  let a ← get
  set { a with nextId := a.nextId + 1 }
  return ⟨a.nextId⟩

/-- Puts a class into the table of a loader unless it has one of that name. -/
def publish (l : LoaderId) (c : Class) : AreaM Unit := do
  let a ← get
  if a.loaders.contains l then
    set { a with loaders := a.loaders.modify l fun data =>
            { data with loaded := data.loaded.insertNew c.name c } }
  else throw (.loaderMissing l)

/-- Lets a loader have a class: `publish` runs if the loading constraints agree, and if it succeeds
the constraints remember the class. -/
def checkLoaded (l : LoaderId) (c : Class) (publish : AreaM Unit) : AreaM Unit := do
  match (← get).constraints.accept l c with
  | .error e => throw e
  | .ok t =>
    publish
    modify fun a => { a with constraints := t }

/-- Makes a loader an initiating loader of a class. -/
def recordLoaded (l : LoaderId) (c : Class) : AreaM Unit :=
  checkLoaded l c (publish l c)

end Area

end Linkage
