import Linkage.Machine.Basic

/-!
# Initializing classes

A class is initialized once, after its superclass. While its initializer runs the class counts as
usable, so that an initializer may come back to its own class. A class whose initializer fails
stays unusable.
-/

namespace Linkage

namespace Machine

/-- Records how far a class is initialized. -/
def setPhase (c : Class) (p : Phase) : MachineM Unit :=
  onArea (modify fun a => a.setPhase c p)

/-- Brings a class from linked to initialized by running `body`, or finds it erroneous. -/
def enterClass (c : Class) (body : MachineM Unit) : MachineM Unit := do
  match (← get).area.phase c with
  | .initialized | .initializing => return ()
  | .erroneous => throw (.erroneousClass c.name)
  | .linked =>
    setPhase c .initializing
    match ← attempt body with
    | .ok () => setPhase c .initialized
    | .error f =>
      setPhase c .erroneous
      throw f

/-- Initializes a class, its superclass first. Interfaces leave their superclass alone. `run` runs
the initializer of a class. -/
def initializeBy (run : Class → MachineM Unit) : Class → MachineM Unit
  | .root d => enterClass (.root d) (run (.root d))
  | .derived d s is =>
    enterClass (.derived d s is) do
      if !(Class.derived d s is).isInterface then initializeBy run s
      run (.derived d s is)
  | .primitiveArray .. => return ()
  | .array .. => return ()

/-- The fault that a failing initializer shows to the code that started it. -/
def initializerFault (c : Class) (f : Fault) : Fault :=
  if f.kind = .inInitializer || f.kind = .noClassDefFound then f
  else .initializerFailed f c.name

/-- Runs a program, where `serve` answers its requests. -/
def runProgram (serve : (r : Request) → MachineM (Reply r)) : Program → MachineM Unit
  | .done => return ()
  | .fail f => throw f
  | .note text p => do
    note text
    runProgram serve p
  | .call r k => do
    let answer ← attempt (serve r)
    runProgram serve (k answer)

/-- What the initializer of a class does. -/
def programOf? (m : Machine) (c : Class) : Option Program :=
  (c.data.initializer.bind fun i => m.programs[i.number]?).map fun p => p c

/-- Runs the initializer of a class. -/
def runInitializer (serve : (r : Request) → MachineM (Reply r)) (c : Class) : MachineM Unit := do
  match (← get).programOf? c with
  | none => return ()
  | some p =>
    match ← attempt (runProgram serve p) with
    | .ok () => return ()
    | .error f => throw (initializerFault c f)

end Machine

end Linkage
