import Linkage.Proofs.Machine.Sites
import Linkage.Proofs.Resolver.Run

/-!
# Watching the machine

What the machine does while it answers a call is not seen in the answer: an initializer makes calls
of its own, and each of them may trap on a site whose patcher is still at work. Here every operation
that can run an initializer is given a second form that keeps a history. Each call, each trap and
each patcher leaves an observation there when it starts and when it ends, with the machine as it is
at that moment.

`Follows x y` says that watching changes nothing: without its history `x` is `y`.
-/

namespace Linkage

/-- What can be asked of the machine from outside. -/
inductive Call where
  /-- What a program can ask for as well. -/
  | request (r : Request)
  /-- Keep what an initializer does. -/
  | register (p : Class → Program)
  /-- Let the resolver work. -/
  | operate (op : Resolver.Operation)

/-- Carries out a call, its answer left out. -/
def Call.perform : Call → MachineM Unit
  | request r => Functor.discard (Machine.serve Machine.initializeClass r)
  | register p => Functor.discard (Machine.addProgram p)
  | operate op => Machine.onResolver op.perform

/-- The machine after a number of calls, whether they fail or not. -/
def Machine.after (m : Machine) : List Call → Machine
  | [] => m
  | c :: cs => (finalState c.perform m).after cs

/-- What happens while the machine is at work. A trap is known by the place of its start in the
history. -/
inductive Event where
  /-- A call starts. -/
  | called (c : Call)
  /-- A call ends. -/
  | ended (c : Call)
  /-- A trap on a patch site starts. -/
  | trapped (id : SiteId)
  /-- The patcher of the site starts. -/
  | asked (trap : Nat) (id : SiteId)
  /-- The patcher of the site returns a word. -/
  | returned (trap : Nat) (id : SiteId) (w : Word)
  /-- The trap ends. -/
  | settled (trap : Nat) (id : SiteId) (outcome : Except Fault TrapOutcome)

/-- An event and the machine when it happens. -/
structure Observation where
  event : Event
  machine : Machine

/-- A machine that is watched. -/
structure Watch where
  /-- What was seen, the oldest first. -/
  history : List Observation := []
  machine : Machine

/-- An operation of a machine that is watched. -/
abbrev WatchM := EStateM Fault Watch

namespace Watch

variable {α β : Type}

/-- Notes an event and gives its place in the history. -/
def see (e : Event) : WatchM Nat := fun t =>
  .ok t.history.length { t with history := t.history ++ [⟨e, t.machine⟩] }

/-- Runs an operation in which no initializer can run. -/
def onMachine (x : MachineM α) : WatchM α := fun t =>
  match x t.machine with
  | .ok v m => .ok v { t with machine := m }
  | .error e m => .error e { t with machine := m }

/-- Runs an operation and gives its fault as a value. -/
def attempt (x : WatchM α) : WatchM (Except Fault α) := fun t =>
  match x t with
  | .ok v t => .ok (.ok v) t
  | .error e t => .ok (.error e) t

/-! ### Traps -/

/-- The part of a patcher in which no initializer runs: the class to be initialized, if any, and
the data word. -/
def patchPlan : Patcher → PatchOperand → MachineM (Option Class × Except Fault Word)
  | .staticField, .use (.ofField u) => do
    let f ← Machine.eagerly u.text (Resolver.resolveField u .eager)
    return (some f.owner, staticFieldWord f)
  | .directCall, .use (.ofMethod u) => do
    let m ← Machine.eagerly u.text (Resolver.resolveMethod u .eager)
    return (if u.isStatic then some m.owner else none, .ok (.methodAddress m))
  | .newObject, .use (.ofClass u) => do
    let c ← Machine.eagerly u.text (Resolver.resolveClass u .eager)
    if c.isInterface || c.isAbstract then throw (.notInstantiable c.name)
    return (some c, .ok (.classAddress c))
  | .initializer, .whenInitialized c w => return (some c, .ok w)
  | patcher, operand => do
    let w ← Machine.patchWord (fun _ => return ()) patcher operand
    return (none, .ok w)

/-- The data word of a site. -/
def patchWord (init : Class → WatchM Unit) (patcher : Patcher) (operand : PatchOperand) :
    WatchM Word := do
  let (target, w) ← onMachine (patchPlan patcher operand)
  target.elim (pure ()) init
  ofExcept w

/-- Ends a trap. -/
def settle (trap : Nat) (id : SiteId) (outcome : Except Fault TrapOutcome) :
    WatchM TrapOutcome := do
  let _ ← see (.settled trap id outcome)
  ofExcept outcome

/-- Whether a site is bound. -/
def isPatched (id : SiteId) : WatchM Bool :=
  return (← onMachine get).siteState? id.method id.index = some .patched

/-- Ends a trap whose patcher failed. -/
def leaveSite (trap : Nat) (id : SiteId) (f : Fault) : WatchM TrapOutcome := do
  if !(← isPatched id) then onMachine (Machine.setSiteState id.method id.index .unpatched)
  settle trap id (.error f)

/-- Ends a trap whose patcher returned a word. -/
def finishSite (trap : Nat) (id : SiteId) (s : PatchSite) (w : Word) : WatchM TrapOutcome := do
  if ← isPatched id then settle trap id (.ok .alreadyPatched)
  else do
    onMachine (Machine.bindSite s w)
    onMachine (Machine.setSiteState id.method id.index .patched)
    settle trap id (.ok .patched)

/-- Asks the patcher of a site and ends the trap. -/
def askPatcher (init : Class → WatchM Unit) (trap : Nat) (id : SiteId) (s : PatchSite) :
    WatchM TrapOutcome := do
  match ← attempt (patchWord init s.patcher s.operand) with
  | .error f => leaveSite trap id f
  | .ok w =>
    let _ ← see (.returned trap id w)
    finishSite trap id s w

/-- Binds a site of a compiled method. -/
def patchSite (init : Class → WatchM Unit) (id : SiteId) (s : PatchSite) : WatchM TrapOutcome := do
  let trap ← see (.trapped id)
  if ← isPatched id then settle trap id (.ok .alreadyPatched)
  else do
    onMachine (Machine.setSiteState id.method id.index .patching)
    let _ ← see (.asked trap id)
    askPatcher init trap id s

/-- Deals with a trap at an address. -/
def trapWith (init : Class → WatchM Unit) (address : Address) : WatchM TrapOutcome := do
  match (← onMachine get).find? address with
  | none => return .noPatchSite
  | some c =>
    match c.siteIndex? address with
    | none => return .noPatchSite
    | some i =>
      match c.sites[i]? with
      | some s => patchSite init ⟨c.number, i⟩ s
      | none => return .noPatchSite

/-- Runs the instruction at an address. -/
def executeWith (init : Class → WatchM Unit) (address : Address) : WatchM (Option Execution) := do
  match (← onMachine get).find? address with
  | none => return none
  | some c =>
    let w ← onMachine (Machine.read address)
    if w.isTrap then
      if (← trapWith init address) = .noPatchSite then return none
      else onMachine do return some (← Machine.fetched c.entry address (← Machine.read address))
    else onMachine do return some (← Machine.fetched c.entry address w)

/-! ### Initializers -/

/-- Answers a request. -/
def serve (init : Class → WatchM Unit) : (r : Request) → WatchM (Reply r)
  | .start c => init c
  | .trap address => trapWith init address
  | .execute address => executeWith init address
  | r => onMachine (Machine.serve (fun _ => return ()) r)

/-- Notes the start and the end of a call. -/
def during (c : Call) (x : WatchM α) : WatchM α := do
  let _ ← see (.called c)
  let answer ← attempt x
  let _ ← see (.ended c)
  ofExcept answer

/-- Brings a class from linked to initialized by running `body`, or finds it erroneous. -/
def enterClass (c : Class) (body : WatchM Unit) : WatchM Unit := do
  match (← onMachine get).area.phase c with
  | .initialized | .initializing => return ()
  | .erroneous => throw (.erroneousClass c.name)
  | .linked =>
    onMachine (Machine.setPhase c .initializing)
    match ← attempt body with
    | .ok () => onMachine (Machine.setPhase c .initialized)
    | .error f =>
      onMachine (Machine.setPhase c .erroneous)
      throw f

/-- Initializes a class, its superclass first. -/
def initializeBy (run : Class → WatchM Unit) : Class → WatchM Unit
  | .root d => enterClass (.root d) (run (.root d))
  | .derived d s is =>
    enterClass (.derived d s is) do
      if !(Class.derived d s is).isInterface then initializeBy run s
      run (.derived d s is)
  | .primitiveArray .. => return ()
  | .array .. => return ()

/-- Runs a program. Its requests are calls. -/
def runProgram (init : Class → WatchM Unit) : Program → WatchM Unit
  | .done => return ()
  | .fail f => throw f
  | .note text p => do
    onMachine (Machine.note text)
    runProgram init p
  | .call r k => do
    let answer ← attempt (during (.request r) (serve init r))
    runProgram init (k answer)

/-- Runs the initializer of a class. -/
def runInitializer (init : Class → WatchM Unit) (c : Class) : WatchM Unit := do
  match (← onMachine get).programOf? c with
  | none => return ()
  | some p =>
    match ← attempt (runProgram init p) with
    | .ok () => return ()
    | .error f => throw (Machine.initializerFault c f)

/-- Initializes a class, with at most so many initializers running inside one another. -/
def initializeWithin : Nat → Class → WatchM Unit
  | 0 => initializeBy fun c => do
    if ((← onMachine get).programOf? c).isSome then throw (.unboundedInitialization c.name)
  | n + 1 => initializeBy (runInitializer (initializeWithin n))

/-- Initializes a class. -/
def initializeClass (c : Class) : WatchM Unit := do
  initializeWithin (← onMachine get).nestingBound c

/-- Carries out a call. -/
def perform (c : Call) : WatchM Unit :=
  during c <| match c with
    | .request r => Functor.discard (serve initializeClass r)
    | c => onMachine c.perform

/-- The machine and its history after a number of calls, whether they fail or not. -/
def after (t : Watch) : List Call → Watch
  | [] => t
  | c :: cs => (finalState (perform c) t).after cs

/-! ### Watching changes nothing -/

/-- The outcome of an operation without the history. -/
def unwatched : EStateM.Result Fault Watch α → EStateM.Result Fault Machine α
  | .ok v t => .ok v t.machine
  | .error e t => .error e t.machine

/-- Without its history, an operation does what another does. -/
def Follows (x : WatchM α) (y : MachineM α) : Prop :=
  ∀ t, unwatched (x t) = y t.machine

variable {x : WatchM α} {y : MachineM α}

lemma Follows.finalState (h : Follows x y) (t : Watch) :
    (finalState x t).machine = Linkage.finalState y t.machine := by
  have hrun := h t
  unfold Linkage.finalState
  rw [← hrun]
  cases x t <;> rfl

lemma Follows.bind {f : α → WatchM β} {g : α → MachineM β} (h : Follows x y)
    (hf : ∀ v, Follows (f v) (g v)) : Follows (x >>= f) (y >>= g) := by
  intro t
  have hrun := h t
  cases hx : x t with
  | ok v u =>
    rw [hx] at hrun
    rw [bind_of_ok hx, bind_of_ok hrun.symm]
    exact hf v u
  | error e u =>
    rw [hx] at hrun
    rw [bind_of_error hx, bind_of_error hrun.symm]
    rfl

lemma follows_pure (v : α) : Follows (pure v) (pure v) := fun _ => rfl

lemma follows_throw (e : Fault) : Follows (throw e : WatchM α) (throw e) := fun _ => rfl

lemma follows_ofExcept (v : Except Fault α) : Follows (ofExcept v) (ofExcept v) := by
  cases v <;> exact fun _ => rfl

lemma follows_onMachine (y : MachineM α) : Follows (onMachine y) y := by
  intro t
  unfold onMachine
  cases h : y t.machine <;> simp [unwatched]

lemma Follows.attempt (h : Follows x y) : Follows (attempt x) (Machine.attempt y) := by
  intro t
  have hrun := h t
  unfold Watch.attempt Machine.attempt
  rw [← hrun]
  cases x t <;> rfl

/-- Noting an event does nothing to the machine. -/
lemma Follows.see {e : Event} {f : Nat → WatchM α} (h : ∀ n, Follows (f n) y) :
    Follows (see e >>= f) y := fun _ => h _ _

lemma attempt_ofExcept (y : MachineM α) : (Machine.attempt y >>= fun v => ofExcept v) = y := by
  funext m
  cases h : y m with
  | ok v m' =>
    have hrun : Machine.attempt y m = .ok (.ok v) m' := by simp [Machine.attempt, h]
    exact bind_of_ok hrun
  | error e m' =>
    have hrun : Machine.attempt y m = .ok (.error e) m' := by simp [Machine.attempt, h]
    exact bind_of_ok hrun

lemma Follows.during (h : Follows x y) (c : Call) : Follows (during c x) y := by
  refine Follows.see fun _ => ?_
  rw [← attempt_ofExcept y]
  exact h.attempt.bind fun v => Follows.see fun _ => follows_ofExcept v

/-- A patcher finds its class and its word before it has the class initialized. -/
lemma patchWord_eq (init : Class → MachineM Unit) (patcher : Patcher) (operand : PatchOperand) :
    Machine.patchWord init patcher operand = (do
      let (target, w) ← patchPlan patcher operand
      target.elim (pure ()) init
      ofExcept w) := by
  rcases operand with (u | u | u) | ⟨c, w⟩
  · cases patcher with
    | newObject =>
      simp only [Machine.patchWord, patchPlan, bind_assoc]
      refine bind_congr fun c => ?_
      split
      · rfl
      · simp
    | _ => simp [Machine.patchWord, patchPlan]
  · cases patcher <;> simp [Machine.patchWord, patchPlan]
  · cases patcher with
    | directCall =>
      simp only [Machine.patchWord, patchPlan, bind_assoc]
      refine bind_congr fun m => ?_
      split <;> simp
    | _ => simp [Machine.patchWord, patchPlan]
  · cases patcher <;> simp [Machine.patchWord, patchPlan]

section

variable {init : Class → WatchM Unit} {init' : Class → MachineM Unit}

lemma follows_patchWord (hinit : ∀ c, Follows (init c) (init' c)) (patcher : Patcher)
    (operand : PatchOperand) :
    Follows (patchWord init patcher operand) (Machine.patchWord init' patcher operand) := by
  rw [patchWord_eq]
  refine (follows_onMachine _).bind fun (target, w) => ?_
  refine Follows.bind ?_ fun _ => follows_ofExcept w
  cases target with
  | none => exact follows_pure ()
  | some c => exact hinit c

lemma follows_settle (trap : Nat) (id : SiteId) (outcome : Except Fault TrapOutcome) :
    Follows (settle trap id outcome) (ofExcept outcome) :=
  Follows.see fun _ => follows_ofExcept outcome

lemma follows_isPatched (id : SiteId) : Follows (isPatched id)
    (do return (← get).siteState? id.method id.index = some .patched) :=
  (follows_onMachine get).bind fun _ => follows_pure _

lemma follows_patchSite (hinit : ∀ c, Follows (init c) (init' c)) (id : SiteId) (s : PatchSite) :
    Follows (patchSite init id s) (Machine.patchSite init' id.method id.index s) := by
  refine Follows.see fun trap => ?_
  refine (follows_isPatched id).bind fun patched => ?_
  cases patched with
  | true => exact follows_settle _ _ _
  | false =>
    refine (follows_onMachine _).bind fun _ => ?_
    refine Follows.see fun _ => ?_
    refine (follows_patchWord hinit _ _).attempt.bind fun outcome => ?_
    cases outcome with
    | error f =>
      refine (follows_isPatched id).bind fun patched => ?_
      cases patched
      · exact (follows_onMachine _).bind fun _ => follows_settle _ _ _
      · exact follows_settle _ _ _
    | ok w =>
      refine Follows.see fun _ => ?_
      refine (follows_isPatched id).bind fun patched => ?_
      cases patched
      · refine (follows_onMachine _).bind fun _ => ?_
        exact (follows_onMachine _).bind fun _ => follows_settle _ _ _
      · exact follows_settle _ _ _

lemma follows_trapWith (hinit : ∀ c, Follows (init c) (init' c)) (address : Address) :
    Follows (trapWith init address) (Machine.trapWith init' address) := by
  refine (follows_onMachine get).bind fun m => ?_
  cases m.find? address with
  | none => exact follows_pure _
  | some c =>
    dsimp only
    cases c.siteIndex? address with
    | none => exact follows_pure _
    | some i =>
      dsimp only
      cases c.sites[i]? with
      | none => exact follows_pure _
      | some s => exact follows_patchSite hinit ⟨c.number, i⟩ s

lemma follows_executeWith (hinit : ∀ c, Follows (init c) (init' c)) (address : Address) :
    Follows (executeWith init address) (Machine.executeWith init' address) := by
  refine (follows_onMachine get).bind fun m => ?_
  cases m.find? address with
  | none => exact follows_pure _
  | some c =>
    refine (follows_onMachine _).bind fun w => ?_
    by_cases hw : w.isTrap
    · simp only [hw, if_true]
      refine (follows_trapWith hinit address).bind fun outcome => ?_
      split
      · exact follows_pure _
      · exact follows_onMachine _
    · simp only [hw]
      exact follows_onMachine _

lemma follows_serve (hinit : ∀ c, Follows (init c) (init' c)) (r : Request) :
    Follows (serve init r) (Machine.serve init' r) := by
  have hplain : ∀ r, serve init r = onMachine (Machine.serve (fun _ => return ()) r) →
      Machine.serve init' r = Machine.serve (fun _ => return ()) r →
      Follows (serve init r) (Machine.serve init' r) := by
    intro r h h'
    rw [h, h']
    exact follows_onMachine _
  cases r with
  | start c => exact hinit c
  | trap address => exact follows_trapWith hinit address
  | execute address => exact follows_executeWith hinit address
  | _ => exact hplain _ rfl rfl

lemma follows_runProgram (hinit : ∀ c, Follows (init c) (init' c)) (p : Program) :
    Follows (runProgram init p) (Machine.runProgram (Machine.serve init') p) := by
  induction p with
  | done => exact follows_pure ()
  | fail f => exact follows_throw f
  | note text p ih => exact (follows_onMachine _).bind fun _ => ih
  | call r k ih => exact ((follows_serve hinit r).during _).attempt.bind ih

lemma follows_runInitializer (hinit : ∀ c, Follows (init c) (init' c)) (c : Class) :
    Follows (runInitializer init c) (Machine.runInitializer (Machine.serve init') c) := by
  refine (follows_onMachine get).bind fun m => ?_
  cases m.programOf? c with
  | none => exact follows_pure ()
  | some p =>
    refine (follows_runProgram hinit p).attempt.bind fun outcome => ?_
    cases outcome with
    | ok v => exact follows_pure ()
    | error f => exact follows_throw _

end

lemma follows_enterClass {body : WatchM Unit} {body' : MachineM Unit} (h : Follows body body')
    (c : Class) : Follows (enterClass c body) (Machine.enterClass c body') := by
  refine (follows_onMachine get).bind fun m => ?_
  cases m.area.phase c with
  | initialized => exact follows_pure ()
  | initializing => exact follows_pure ()
  | erroneous => exact follows_throw _
  | linked =>
    refine (follows_onMachine _).bind fun _ => ?_
    refine h.attempt.bind fun outcome => ?_
    cases outcome with
    | ok v => exact follows_onMachine _
    | error f => exact (follows_onMachine _).bind fun _ => follows_throw f

lemma follows_initializeBy {run : Class → WatchM Unit} {run' : Class → MachineM Unit}
    (hrun : ∀ c, Follows (run c) (run' c)) :
    ∀ c, Follows (initializeBy run c) (Machine.initializeBy run' c)
  | .root d => follows_enterClass (hrun _) _
  | .derived d s is => by
    refine follows_enterClass ?_ _
    split
    · exact (follows_initializeBy hrun s).bind fun _ => hrun _
    · exact hrun _
  | .primitiveArray .. => follows_pure ()
  | .array .. => follows_pure ()

lemma follows_initializeWithin (n : Nat) (c : Class) :
    Follows (initializeWithin n c) (Machine.initializeWithin n c) := by
  induction n generalizing c with
  | zero =>
    refine follows_initializeBy (fun c => ?_) c
    refine (follows_onMachine get).bind fun m => ?_
    split
    · exact follows_throw _
    · exact follows_pure ()
  | succ n ih => exact follows_initializeBy (follows_runInitializer ih) c

lemma follows_initializeClass (c : Class) :
    Follows (initializeClass c) (Machine.initializeClass c) :=
  (follows_onMachine get).bind fun _ => follows_initializeWithin _ c

lemma Follows.discard (h : Follows x y) :
    Follows (Functor.discard x) (Functor.discard y) := by
  intro t
  have hrun := h t
  rw [discard_apply, discard_apply, ← hrun]
  cases x t <;> rfl

lemma follows_perform (c : Call) : Follows (perform c) c.perform := by
  refine Follows.during ?_ c
  cases c with
  | request r => exact (follows_serve follows_initializeClass r).discard
  | register p => exact follows_onMachine _
  | operate op => exact follows_onMachine _

/-- A machine that is watched goes where it would go anyway. -/
lemma machine_after (calls : List Call) (t : Watch) :
    (t.after calls).machine = t.machine.after calls := by
  induction calls generalizing t with
  | nil => rfl
  | cons c cs ih =>
    unfold after Machine.after
    rw [ih, (follows_perform c).finalState t]

/-! ### Properties of operations -/

/-- A property of operations that sequences of operations inherit. -/
structure Sequential (K : ∀ {α : Type}, WatchM α → Prop) : Prop where
  pure {α : Type} (v : α) : K (pure v : WatchM α)
  throw {α : Type} (e : Fault) : K (throw e : WatchM α)
  bind {α β : Type} {x : WatchM α} {f : α → WatchM β} (hx : K x) (hf : ∀ v, K (f v)) :
    K (x >>= f)
  attempt {α : Type} {x : WatchM α} (hx : K x) : K (attempt x)
  get : K (onMachine get)

/-- A property of operations that initializers keep if the requests of their programs have it. -/
structure Composable (K : ∀ {α : Type}, WatchM α → Prop) : Prop extends Sequential K where
  note (text : String) : K (onMachine (Machine.note text))
  enterClass {body : WatchM Unit} (hbody : K body) (c : Class) : K (enterClass c body)

/-- A class is taken through its phases one after the other. -/
lemma Sequential.enterClass {K : ∀ {α : Type}, WatchM α → Prop} (hK : Sequential K)
    (hphase : ∀ c p, K (onMachine (Machine.setPhase c p))) {body : WatchM Unit} (hbody : K body)
    (c : Class) : K (enterClass c body) := by
  refine hK.bind hK.get fun m => ?_
  cases m.area.phase c with
  | initialized => exact hK.pure ()
  | initializing => exact hK.pure ()
  | erroneous => exact hK.throw _
  | linked =>
    refine hK.bind (hphase c _) fun _ => ?_
    refine hK.bind (hK.attempt hbody) fun outcome => ?_
    cases outcome with
    | ok v => exact hphase c _
    | error f => exact hK.bind (hphase c _) fun _ => hK.throw f

namespace Composable

variable {K : ∀ {α : Type}, WatchM α → Prop} {init : Class → WatchM Unit}

lemma runProgram (hK : Composable K)
    (hserve : ∀ r, K (during (.request r) (serve init r))) (p : Program) :
    K (runProgram init p) := by
  induction p with
  | done => exact hK.pure ()
  | fail f => exact hK.throw f
  | note text p ih => exact hK.bind (hK.note text) fun _ => ih
  | call r k ih => exact hK.bind (hK.attempt (hserve r)) ih

lemma runInitializer (hK : Composable K)
    (hserve : ∀ r, K (during (.request r) (serve init r))) (c : Class) :
    K (runInitializer init c) := by
  refine hK.bind hK.get fun m => ?_
  cases m.programOf? c with
  | none => exact hK.pure ()
  | some p =>
    refine hK.bind (hK.attempt (hK.runProgram hserve p)) fun outcome => ?_
    cases outcome with
    | ok v => exact hK.pure ()
    | error f => exact hK.throw _

lemma initializeBy (hK : Composable K) {run : Class → WatchM Unit} (hrun : ∀ c, K (run c)) :
    ∀ c, K (initializeBy run c)
  | .root d => hK.enterClass (hrun _) _
  | .derived d s is => by
    refine hK.enterClass ?_ _
    split
    · exact hK.bind (hK.initializeBy hrun s) fun _ => hrun _
    · exact hrun _
  | .primitiveArray .. => hK.pure ()
  | .array .. => hK.pure ()

/-- Initializers may run inside one another. -/
lemma initializeWithin (hK : Composable K)
    (hserve : ∀ init, (∀ c, K (init c)) → ∀ r, K (during (.request r) (serve init r))) (n : Nat)
    (c : Class) : K (initializeWithin n c) := by
  induction n generalizing c with
  | zero =>
    refine hK.initializeBy (fun c => ?_) c
    refine hK.bind hK.get fun m => ?_
    split
    · exact hK.throw _
    · exact hK.pure ()
  | succ n ih => exact hK.initializeBy (hK.runInitializer (hserve _ ih)) c

end Composable

end Watch

end Linkage
