import Linkage.Machine.Trap

/-!
# Running the machine

Initializers can make the machine initialize further classes, and make classes known whose
initializers can do the same. Each nested initializer belongs to another class, so their nesting is
bounded by the number of classes that there are and that may still be made known; the operations
here count it down and never reach the bottom.
-/

namespace Linkage

namespace Machine

/-- Answers a request of a program. -/
def serve (init : Class → MachineM Unit) : (r : Request) → MachineM (Reply r)
  | .load l name => onArea (Area.load l name)
  | .start c => init c
  | .phase c => return ((← get).area.phase c : Phase)
  | .code label => return ((← get).labelled? label : Option CompiledMethod)
  | .trap address => trapWith init address
  | .execute address => executeWith init address
  | .siteState number address =>
    return (((← get).methods[number]?).bind fun c => c.site? address).map PatchSite.state
  | .define l d => define l d
  | .compile label method code => compile label method code
  | .unload number => unload number

/-- Initializes a class, with at most so many initializers running inside one another. -/
def initializeWithin : Nat → Class → MachineM Unit
  | 0 => initializeBy fun c => do
    if ((← get).programOf? c).isSome then throw (.unboundedInitialization c.name)
  | n + 1 => initializeBy (runInitializer (serve (initializeWithin n)))

/-- More initializers than can run inside one another: one for each class that is loaded, one for
each that may still be, and those that programs may still make known. -/
def nestingBound (m : Machine) : Nat :=
  m.area.definitionCount + m.area.loadedCount + m.spare + 1

/-- Initializes a class. -/
def initializeClass (c : Class) : MachineM Unit := do
  initializeWithin (← get).nestingBound c

/-- Deals with a trap at an address. -/
def trap (address : Address) : MachineM TrapOutcome :=
  trapWith initializeClass address

/-- Runs the instruction at an address. -/
def execute (address : Address) : MachineM (Option Execution) :=
  executeWith initializeClass address

end Machine

end Linkage
