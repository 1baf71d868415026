import Linkage.Code.Builder
import Linkage.Machine.Program

/-!
# The machine

The resolver with the code area and everything that was compiled into it. Compiled methods are
found by any address inside them as long as they are registered; what is forgotten keeps its place
in the code area.
-/

namespace Linkage

/-- The state of the machine. -/
structure Machine where
  /-- The resolver, with the class area. -/
  resolver : Resolver
  /-- The code area. -/
  memory : CodeMemory
  /-- Every method that was ever compiled, by number. -/
  methods : List CompiledMethod := []
  /-- The numbers of the methods that are registered, by their addresses. -/
  registered : List Nat := []
  /-- The methods that were compiled under a label. -/
  labels : Table String Nat := {}
  /-- What the initializers do when they run for a class, by number. -/
  programs : List (Class → Program) := []
  /-- The notes that programs left, the oldest first. -/
  notes : List String := []
  /-- How many definitions that come with an initializer programs may still make known. Nothing in
  a program bounds them. -/
  spare : Nat := 0

/-- An operation of the machine that may fail. -/
abbrev MachineM := EStateM Fault Machine

namespace Machine

/-- Runs an operation of the resolver. -/
def onResolver {α : Type} (x : ResolverM α) : MachineM α := fun m =>
  match x m.resolver with
  | .ok v r => .ok v { m with resolver := r }
  | .error e r => .error e { m with resolver := r }

/-- Runs an operation on the class area. -/
def onArea {α : Type} (x : AreaM α) : MachineM α := onResolver (Resolver.onArea x)

/-- Runs an operation and gives its fault as a value. -/
def attempt {α : Type} (x : MachineM α) : MachineM (Except Fault α) := fun m =>
  match x m with
  | .ok v m => .ok (.ok v) m
  | .error e m => .ok (.error e) m

/-- The class area. -/
def area (m : Machine) : Area := m.resolver.area

/-- Leaves a note. -/
def note (text : String) : MachineM Unit :=
  modify fun m => { m with notes := m.notes ++ [text] }

/-- Keeps what an initializer does when it runs for a class. -/
def addProgram (p : Class → Program) : MachineM InitializerId := do
  let m ← get
  set { m with programs := m.programs ++ [p] }
  return ⟨m.programs.length⟩

/-- Makes a class known to a loader on behalf of a program. An initializer that comes with it is one
of those that the machine has to spare. -/
def define (l : LoaderId) (d : Definition) : MachineM Unit := do
  let m ← get
  let needed := if d.initializer.isSome then 1 else 0
  if m.spare < needed then throw (.unboundedInitialization d.name)
  else
    set { m with
      resolver := { m.resolver with area := m.area.define l d }
      spare := m.spare - needed }

/-! ### Compiled methods -/

/-- The registered method with the highest address that does not lie behind the given one, if the
address is in it. -/
def find? (m : Machine) (address : Address) : Option CompiledMethod :=
  let before := m.registered.filterMap fun n =>
    (m.methods[n]?).filter fun c => c.start ≤ address
  before.getLast?.filter fun c => c.contains address

/-- The method that was compiled under a label. -/
def labelled? (m : Machine) (label : String) : Option CompiledMethod :=
  (m.labels.get? label).bind fun n => m.methods[n]?

/-- Puts code into the code area and registers its method. -/
def install (label : String) (method : MethodHandle) (b : Builder) : MachineM CompiledMethod := do
  let (start, memory) ← ofExcept ((← get).memory.allocate b.reservation)
  let memory ← ofExcept (memory.writeAll start b.words)
  modify fun m => { m with memory := memory }
  let number := (← get).methods.length
  let compiled ← ofExcept (b.compiled number method start)
  modify fun m =>
    { m with
      methods := m.methods ++ [compiled]
      registered := m.registered ++ [number]
      labels := m.labels.insert label number }
  return compiled

/-- Compiles a method. -/
def compile (label : String) (method : MethodHandle) (code : List Instruction) :
    MachineM CompiledMethod := do
  let b ← onArea (({} : Builder).emitAll code)
  install label method b

/-- Forgets a compiled method; the answer says whether it was registered. -/
def unload (number : Nat) : MachineM Bool := do
  let m ← get
  set { m with registered := m.registered.filter (· ≠ number) }
  return number ∈ m.registered

/-- The word at an address. -/
def read (address : Address) : MachineM Word := do
  match (← get).memory.read? address with
  | some w => return w
  | none => throw (.outsideCodeArea address)

/-- Writes a word. -/
def write (address : Address) (w : Word) : MachineM Unit := do
  let memory ← ofExcept ((← get).memory.write address w)
  modify fun m => { m with memory := memory }

/-- How far a site of a compiled method is bound. -/
def siteState? (m : Machine) (number index : Nat) : Option PatchState :=
  ((m.methods[number]?).bind fun c => c.sites[index]?).map PatchSite.state

/-- Records how far a site of a compiled method is bound. -/
def setSiteState (number index : Nat) (s : PatchState) : MachineM Unit :=
  modify fun m =>
    { m with methods := m.methods.modify number fun c =>
        { c with sites := c.sites.modify index fun site => { site with state := s } } }

end Machine

end Linkage
