import Linkage.Proofs.Machine.Stages

/-!
# A journal of initializations

An initializer can make the machine initialize further classes, and they their superclasses, so
initializations lie inside one another. Here every operation that initializes a class is given a
second form that keeps a journal. Each initialization leaves an entry there when it is asked for, at
every change of a phase, when the initializer starts to run, and when it ends, with the machine as
it is at that moment and the classes in whose initialization this happens.

`Follows x y` says that keeping a journal changes nothing: without it `x` is `y`.
-/

namespace Linkage

/-- What happens while classes are initialized. -/
inductive Milestone where
  /-- A class is to be initialized. -/
  | called (c : Class)
  /-- A class went on to another phase. -/
  | moved (c : Class)
  /-- The initializer of a class starts to run. -/
  | started (c : Class)
  /-- What was called for a class ends. -/
  | answered (c : Class) (outcome : Except Fault Unit)

/-- An entry of the journal. -/
structure Entry where
  milestone : Milestone
  /-- The classes in whose initialization this happens, the innermost first. -/
  within : List Class
  /-- The machine when it happens. -/
  machine : Machine

/-- A machine with a journal. -/
structure Journal where
  /-- What happened, the oldest first. -/
  entries : List Entry := []
  machine : Machine

/-- An operation of a machine with a journal. -/
abbrev JournalM := EStateM Fault Journal

namespace Journal

variable {α β : Type}

/-- Makes an entry. -/
def note (what : Milestone) (within : List Class) : JournalM Unit :=
  modify fun j => { j with entries := j.entries ++ [⟨what, within, j.machine⟩] }

/-- Runs an operation in which no class is initialized. -/
def onMachine (x : MachineM α) : JournalM α := fun j =>
  match x j.machine with
  | .ok v m => .ok v { j with machine := m }
  | .error e m => .error e { j with machine := m }

/-- Runs an operation and gives its fault as a value. -/
def attempt (x : JournalM α) : JournalM (Except Fault α) := fun j =>
  match x j with
  | .ok v j => .ok (.ok v) j
  | .error e j => .ok (.error e) j

/-- Records how far a class is initialized. -/
def setPhase (within : List Class) (c : Class) (p : Phase) : JournalM Unit := do
  onMachine (Machine.setPhase c p)
  note (.moved c) within

/-- Brings a class from linked to initialized by running `body`, or finds it erroneous. -/
def enterClass (outer : List Class) (c : Class) (body : JournalM Unit) : JournalM Unit := do
  match (← onMachine get).area.phase c with
  | .initialized | .initializing => return ()
  | .erroneous => throw (.erroneousClass c.name)
  | .linked =>
    setPhase (c :: outer) c .initializing
    match ← attempt body with
    | .ok () => setPhase (c :: outer) c .initialized
    | .error f =>
      setPhase (c :: outer) c .erroneous
      throw f

/-- Notes that a class is to be initialized, and how that ends. -/
def during (outer : List Class) (c : Class) (x : JournalM Unit) : JournalM Unit := do
  note (.called c) outer
  let outcome ← attempt x
  note (.answered c outcome) outer
  ofExcept outcome

/-- Initializes a class, its superclass first, inside the initialization of other classes. `run`
runs the initializer of a class. -/
def initializeBy (run : List Class → Class → JournalM Unit) : Class → List Class → JournalM Unit
  | .root d, outer =>
    during outer (.root d) <| enterClass outer (.root d) (run (.root d :: outer) (.root d))
  | .derived d s is, outer =>
    during outer (.derived d s is) <| enterClass outer (.derived d s is) do
      if !(Class.derived d s is).isInterface then initializeBy run s (.derived d s is :: outer)
      run (.derived d s is :: outer) (.derived d s is)
  | .primitiveArray d s is p, outer => during outer (.primitiveArray d s is p) (return ())
  | .array d s is c, outer => during outer (.array d s is c) (return ())

/-- Answers a request, where `init` initializes a class. -/
def serve (init : Class → JournalM Unit) (r : Request) : JournalM (Reply r) := do
  match ← onMachine (Machine.requestStage r) with
  | .ended v => return v
  | .waits c rest =>
    let outcome ← attempt (init c)
    onMachine (rest outcome)

/-- Runs a program. -/
def runProgram (init : Class → JournalM Unit) : Program → JournalM Unit
  | .done => return ()
  | .fail f => throw f
  | .note text p => do
    onMachine (Machine.note text)
    runProgram init p
  | .call r k => do
    let answer ← attempt (serve init r)
    runProgram init (k answer)

/-- Runs the initializer of a class. -/
def runInitializer (init : List Class → Class → JournalM Unit) (within : List Class) (c : Class) :
    JournalM Unit := do
  match (← onMachine get).programOf? c with
  | none => return ()
  | some p =>
    note (.started c) within
    match ← attempt (runProgram (init within) p) with
    | .ok () => return ()
    | .error f => throw (Machine.initializerFault c f)

/-- Refuses to run the initializer of a class. -/
def refuseInitializer (c : Class) : JournalM Unit := do
  if ((← onMachine get).programOf? c).isSome then throw (.unboundedInitialization c.name)

/-- Initializes a class inside the initialization of others, with at most so many initializers
running inside one another. -/
def initializeWithin : Nat → List Class → Class → JournalM Unit
  | 0, outer, c => initializeBy (fun _ c => refuseInitializer c) c outer
  | n + 1, outer, c => initializeBy (runInitializer (initializeWithin n)) c outer

/-- Initializes a class. -/
def initializeClass (c : Class) : JournalM Unit := do
  initializeWithin (← onMachine get).nestingBound [] c

/-- Carries out a call. -/
def perform : Call → JournalM Unit
  | .request r => Functor.discard (serve initializeClass r)
  | c => onMachine c.perform

/-- The machine and its journal after a number of calls, whether they fail or not. -/
def after (j : Journal) : List Call → Journal
  | [] => j
  | c :: cs => (finalState (perform c) j).after cs

/-! ### The journal changes nothing -/

/-- The outcome of an operation without the journal. -/
def unrecorded : EStateM.Result Fault Journal α → EStateM.Result Fault Machine α
  | .ok v j => .ok v j.machine
  | .error e j => .error e j.machine

/-- Without the journal, an operation does what another does. -/
def Follows (x : JournalM α) (y : MachineM α) : Prop :=
  ∀ j, unrecorded (x j) = y j.machine

variable {x : JournalM α} {y : MachineM α}

lemma Follows.finalState (h : Follows x y) (j : Journal) :
    (finalState x j).machine = Linkage.finalState y j.machine := by
  have hrun := h j
  unfold Linkage.finalState
  rw [← hrun]
  cases x j <;> rfl

lemma Follows.bind {f : α → JournalM β} {g : α → MachineM β} (h : Follows x y)
    (hf : ∀ v, Follows (f v) (g v)) : Follows (x >>= f) (y >>= g) := by
  intro j
  have hrun := h j
  cases hx : x j with
  | ok v j' =>
    rw [hx] at hrun
    rw [bind_of_ok hx, bind_of_ok hrun.symm]
    exact hf v j'
  | error e j' =>
    rw [hx] at hrun
    rw [bind_of_error hx, bind_of_error hrun.symm]
    rfl

lemma follows_pure (v : α) : Follows (pure v) (pure v) := fun _ => rfl

lemma follows_throw (e : Fault) : Follows (throw e : JournalM α) (throw e) := fun _ => rfl

lemma follows_ofExcept (v : Except Fault α) : Follows (ofExcept v) (ofExcept v) := by
  cases v <;> exact fun _ => rfl

lemma follows_onMachine (y : MachineM α) : Follows (onMachine y) y := by
  intro j
  unfold onMachine
  cases h : y j.machine <;> simp [unrecorded]

lemma Follows.attempt (h : Follows x y) : Follows (attempt x) (Machine.attempt y) := by
  intro j
  have hrun := h j
  unfold Journal.attempt Machine.attempt
  rw [← hrun]
  cases x j <;> rfl

/-- An entry does nothing to the machine. -/
lemma Follows.note {what : Milestone} {within : List Class} {f : Unit → JournalM α}
    (h : Follows (f ()) y) : Follows (note what within >>= f) y := fun _ => h _

lemma follows_setPhase (within : List Class) (c : Class) (p : Phase) :
    Follows (setPhase within c p) (Machine.setPhase c p) := fun _ => rfl

lemma Follows.during {x : JournalM Unit} {y : MachineM Unit} (h : Follows x y)
    (outer : List Class) (c : Class) : Follows (during outer c x) y := by
  refine Follows.note ?_
  rw [← Watch.attempt_ofExcept y]
  exact h.attempt.bind fun outcome => Follows.note (follows_ofExcept outcome)

section

variable {init : Class → JournalM Unit} {init' : Class → MachineM Unit}

lemma follows_serve (hinit : ∀ c, Follows (init c) (init' c)) (r : Request) :
    Follows (serve init r) (Machine.serve init' r) := by
  rw [Machine.serve_eq]
  refine (follows_onMachine _).bind fun s => ?_
  cases s with
  | ended v => exact follows_pure v
  | waits c rest => exact (hinit c).attempt.bind fun outcome => follows_onMachine (rest outcome)

lemma follows_runProgram (hinit : ∀ c, Follows (init c) (init' c)) (p : Program) :
    Follows (runProgram init p) (Machine.runProgram (Machine.serve init') p) := by
  induction p with
  | done => exact follows_pure ()
  | fail f => exact follows_throw f
  | note text p ih => exact (follows_onMachine _).bind fun _ => ih
  | call r k ih => exact (follows_serve hinit r).attempt.bind ih

end

lemma follows_runInitializer {init : List Class → Class → JournalM Unit}
    {init' : Class → MachineM Unit} (hinit : ∀ outer c, Follows (init outer c) (init' c))
    (within : List Class) (c : Class) :
    Follows (runInitializer init within c) (Machine.runInitializer (Machine.serve init') c) := by
  refine (follows_onMachine get).bind fun m => ?_
  cases m.programOf? c with
  | none => exact follows_pure ()
  | some p =>
    refine Follows.note ?_
    refine (follows_runProgram (hinit within) p).attempt.bind fun outcome => ?_
    cases outcome with
    | ok v => exact follows_pure ()
    | error f => exact follows_throw _

lemma follows_enterClass {body : JournalM Unit} {body' : MachineM Unit} (h : Follows body body')
    (outer : List Class) (c : Class) :
    Follows (enterClass outer c body) (Machine.enterClass c body') := by
  refine (follows_onMachine get).bind fun m => ?_
  cases m.area.phase c with
  | initialized => exact follows_pure ()
  | initializing => exact follows_pure ()
  | erroneous => exact follows_throw _
  | linked =>
    refine (follows_setPhase _ c _).bind fun _ => ?_
    refine h.attempt.bind fun outcome => ?_
    cases outcome with
    | ok v => exact follows_setPhase _ c _
    | error f => exact (follows_setPhase _ c _).bind fun _ => follows_throw f

lemma follows_initializeBy {run : List Class → Class → JournalM Unit} {run' : Class → MachineM Unit}
    (hrun : ∀ within c, Follows (run within c) (run' c)) :
    ∀ c outer, Follows (initializeBy run c outer) (Machine.initializeBy run' c)
  | .root d, outer => (follows_enterClass (hrun _ _) _ _).during _ _
  | .derived d s is, outer => by
    refine (follows_enterClass ?_ _ _).during _ _
    split
    · exact (follows_initializeBy hrun s _).bind fun _ => hrun _ _
    · exact hrun _ _
  | .primitiveArray .., outer => (follows_pure ()).during _ _
  | .array .., outer => (follows_pure ()).during _ _

lemma follows_initializeWithin (n : Nat) (outer : List Class) (c : Class) :
    Follows (initializeWithin n outer c) (Machine.initializeWithin n c) := by
  induction n generalizing outer c with
  | zero =>
    refine follows_initializeBy (fun _ c => ?_) c outer
    refine (follows_onMachine get).bind fun m => ?_
    split
    · exact follows_throw _
    · exact follows_pure ()
  | succ n ih => exact follows_initializeBy (follows_runInitializer ih) c outer

lemma follows_initializeClass (c : Class) :
    Follows (initializeClass c) (Machine.initializeClass c) :=
  (follows_onMachine get).bind fun _ => follows_initializeWithin _ _ c

lemma Follows.discard (h : Follows x y) :
    Follows (Functor.discard x) (Functor.discard y) := by
  intro j
  have hrun := h j
  rw [discard_apply, discard_apply, ← hrun]
  cases x j <;> rfl

lemma follows_perform (c : Call) : Follows (perform c) c.perform := by
  cases c with
  | request r => exact (follows_serve follows_initializeClass r).discard
  | register p => exact follows_onMachine (Call.register p).perform
  | operate op => exact follows_onMachine (Call.operate op).perform

/-- A machine with a journal goes where it would go anyway. -/
lemma machine_after (calls : List Call) (j : Journal) :
    (j.after calls).machine = j.machine.after calls := by
  induction calls generalizing j with
  | nil => rfl
  | cons c cs ih =>
    unfold after Machine.after
    rw [ih, (follows_perform c).finalState j]

end Journal

end Linkage
