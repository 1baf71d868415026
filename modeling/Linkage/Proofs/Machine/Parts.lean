import Linkage.Machine.Run
import Linkage.Proofs.Resolver.Parts

/-!
# What the machine is made of

Everything that the machine does, with all that initializers make it do in between, is put together
from a few parts: it lets the resolver work, changes the code area and what it knows of compiled
methods, catches faults, and takes classes through their phases. What is true of these parts, and of
operations that are put together from others of which it is true, is true of every answer of the
machine.
-/

namespace Linkage

namespace Machine

variable {α β : Type}

/-- Operations that are put together from parts of the machine, with classes that are initialized
among them or not. -/
inductive Built (enters : Bool) : {α : Type} → MachineM α → Prop
  | pure {α : Type} (v : α) : Built enters (pure v)
  | throw {α : Type} (e : Fault) : Built enters (throw e : MachineM α)
  | bind {α β : Type} {x : MachineM α} {f : α → MachineM β} (hx : Built enters x)
      (hf : ∀ v, Built enters (f v)) : Built enters (x >>= f)
  | attempt {α : Type} {x : MachineM α} (hx : Built enters x) : Built enters (attempt x)
  /-- Goes on in a way that depends on the machine. -/
  | look {α : Type} {f : Machine → MachineM α} (hf : ∀ m, Built enters (f m)) :
      Built enters (get >>= f)
  /-- Changes the machine, but neither its resolver nor what it has to spare. -/
  | change {f : Machine → Machine}
      (kept : ∀ m, (f m).resolver = m.resolver ∧ (f m).spare = m.spare) : Built enters (modify f)
  /-- Makes a class known. -/
  | define (l : LoaderId) (d : Definition) : Built enters (define l d)
  /-- Lets the resolver work. -/
  | resolve {α : Type} {x : ResolverM α} (hx : Resolver.Built x) : Built enters (onResolver x)
  /-- Takes a class through its phases. -/
  | enter (allowed : enters = true) (c : Class) {body : MachineM Unit} (hbody : Built enters body) :
      Built enters (enterClass c body)

variable {enters : Bool}

/-- The machine with a class made known to a loader and so much to spare. -/
def withDefinition (m : Machine) (l : LoaderId) (d : Definition) (spare : Nat) : Machine :=
  { m with resolver := { m.resolver with area := m.area.define l d }, spare := spare }

/-- A class is made known, at the expense of what there is to spare if it has an initializer, or the
machine stays as it is. -/
lemma define_cases (l : LoaderId) (d : Definition) (m : Machine) :
    define l d m = .error (.unboundedInitialization d.name) m ∨
      ∃ spare, spare + (if d.initializer.isSome then 1 else 0) = m.spare ∧
        define l d m = .ok () (m.withDefinition l d spare) := by
  unfold define
  rw [bind_of_ok (get_apply m)]
  by_cases hroom : m.spare < if d.initializer.isSome then 1 else 0
  · exact .inl (by simp only [if_pos hroom, throw_apply])
  · exact .inr ⟨_, Nat.sub_add_cancel (Nat.le_of_not_lt hroom), by
      simp only [if_neg hroom, set_apply, withDefinition]⟩

lemma built_ofExcept (v : Except Fault α) : Built enters (ofExcept v) := by
  cases v with
  | ok v => exact .pure v
  | error e => exact .throw e

lemma built_onArea {x : AreaM α} (hx : Performs Area.Quiet Area.Sound x fun _ _ => True) :
    Built enters (onArea x) :=
  .resolve (.onArea hx)

lemma built_arrays {x : AreaM α} (hx : MakesArrays x) : Built enters (onArea x) :=
  built_onArea (Area.Performs.ofArraySteps hx)

/-! ### Traps -/

lemma built_eagerly (what : String) {x : ResolutionM α} (hx : Resolver.Built x.run) :
    Built enters (eagerly what x) := by
  refine .bind (.resolve hx) fun found => ?_
  cases found with
  | some v => exact .pure v
  | none => exact .throw _

lemma built_read (address : Address) : Built enters (read address) := by
  refine .look fun m => ?_
  cases m.memory.read? address with
  | some w => exact .pure w
  | none => exact .throw _

lemma built_write (address : Address) (w : Word) : Built enters (write address w) :=
  .look fun _ => .bind (built_ofExcept _) fun _ => .change fun _ => ⟨rfl, rfl⟩

lemma built_setSiteState (number index : Nat) (s : PatchState) :
    Built enters (setSiteState number index s) :=
  .change fun _ => ⟨rfl, rfl⟩

section

variable {init : Class → MachineM Unit}

lemma built_patchWord (hinit : ∀ c, Built enters (init c)) (patcher : Patcher)
    (operand : PatchOperand) : Built enters (patchWord init patcher operand) := by
  unfold patchWord
  split
  · refine .bind (built_eagerly _ (Resolver.built_resolveField _ _)) fun f => ?_
    exact .bind (hinit _) fun _ => built_ofExcept _
  · exact .bind (built_eagerly _ (Resolver.built_resolveField _ _)) fun f => .pure _
  · refine .bind (built_eagerly _ (Resolver.built_resolveMethod _ _)) fun m => ?_
    split
    · exact .bind (hinit _) fun _ => .pure _
    · exact .pure _
  · exact .bind (built_eagerly _ (Resolver.built_resolveMethod _ _)) fun m => .pure _
  · refine .bind (built_eagerly _ (Resolver.built_resolveMethod _ _)) fun m => ?_
    exact .bind (built_eagerly _ (Resolver.built_interfaceTarget _)) fun _ => .pure _
  · refine .bind (built_eagerly _ (Resolver.built_resolveClass _ _)) fun c => ?_
    split
    · exact .bind (.throw _) fun _ => .bind (hinit _) fun _ => .pure _
    · exact .bind (hinit _) fun _ => .pure _
  · refine .bind (built_eagerly _ (Resolver.built_resolveClass _ _)) fun c => ?_
    exact .bind (built_arrays (Area.performs_arrayOf c)) fun _ => .pure _
  · exact .bind (built_eagerly _ (Resolver.built_resolveClass _ _)) fun c => .pure _
  · exact .bind (hinit _) fun _ => .pure _
  · exact .throw _

lemma built_patchSite (hinit : ∀ c, Built enters (init c)) (number index : Nat) (s : PatchSite) :
    Built enters (patchSite init number index s) := by
  have hpatched : ∀ {α : Type} {f : Bool → MachineM α}, (∀ v, Built enters (f v)) →
      Built enters ((do return (← get).siteState? number index = some .patched : MachineM Bool) >>=
        f) := fun hf => .bind (.look fun _ => .pure _) hf
  refine hpatched fun isPatched => ?_
  cases isPatched with
  | true => exact .pure _
  | false =>
    refine .bind (built_setSiteState _ _ _) fun _ => ?_
    refine .bind (.attempt (built_patchWord hinit _ _)) fun outcome => ?_
    cases outcome with
    | error f =>
      refine hpatched fun isPatched => ?_
      cases isPatched with
      | true => exact .throw f
      | false => exact .bind (built_setSiteState _ _ _) fun _ => .throw f
    | ok w =>
      refine hpatched fun isPatched => ?_
      cases isPatched with
      | true => exact .pure _
      | false =>
        refine .bind (.bind (built_write _ _) fun _ => built_write _ _) fun _ => ?_
        exact .bind (built_setSiteState _ _ _) fun _ => .pure _

lemma built_trapWith (hinit : ∀ c, Built enters (init c)) (address : Address) :
    Built enters (trapWith init address) := by
  refine .look fun m => ?_
  split
  · exact .pure _
  · split
    · exact .pure _
    · split
      · exact built_patchSite hinit _ _ _
      · exact .pure _

lemma built_fetched (entry address : Address) (w : Word) :
    Built enters (fetched entry address w) := by
  refine .bind ?_ fun (op, displacement) => ?_
  · unfold decodeWord
    split
    · split
      · exact .pure _
      · exact .throw _
    · exact .pure _
  · dsimp only
    split
    · exact .pure _
    · exact .bind (built_read _) fun _ => .pure _

lemma built_executeWith (hinit : ∀ c, Built enters (init c)) (address : Address) :
    Built enters (executeWith init address) := by
  refine .look fun m => ?_
  split
  · exact .pure _
  · refine .bind (built_read address) fun w => ?_
    split
    · refine .bind (built_trapWith hinit address) fun outcome => ?_
      split
      · exact .pure _
      · exact .bind (built_read address) fun w => .bind (built_fetched _ _ w) fun _ => .pure _
    · exact .bind (built_fetched _ _ w) fun _ => .pure _

/-! ### Compiling -/

lemma built_install (label : String) (method : MethodHandle) (b : Builder) :
    Built enters (install label method b) := by
  refine .look fun m => .bind (built_ofExcept _) fun (start, memory) => ?_
  refine .bind (built_ofExcept _) fun memory => .bind (.change fun _ => ⟨rfl, rfl⟩) fun _ => ?_
  refine .look fun m => .bind (built_ofExcept _) fun compiled => ?_
  exact .bind (.change fun _ => ⟨rfl, rfl⟩) fun _ => .pure _

lemma built_compile (label : String) (method : MethodHandle) (code : List Instruction) :
    Built enters (compile label method code) :=
  .bind (built_arrays (Resolver.makesArrays_emitAll _ code)) fun b => built_install label method b

lemma built_unload (number : Nat) : Built enters (unload number) := by
  have hrun : unload number = do
      let m ← get
      modify fun m => { m with registered := m.registered.filter (· ≠ number) }
      return number ∈ m.registered := rfl
  rw [hrun]
  exact .look fun m => .bind (.change fun _ => ⟨rfl, rfl⟩) fun _ => .pure _

/-! ### Initializers -/

lemma built_serve (hinit : ∀ c, Built enters (init c)) (r : Request) :
    Built enters (serve init r) := by
  cases r with
  | load l name => exact built_onArea (Area.performs_load l name)
  | start c => exact hinit c
  | phase c => exact .look fun _ => .pure _
  | code label => exact .look fun _ => .pure _
  | trap address => exact built_trapWith hinit address
  | execute address => exact built_executeWith hinit address
  | siteState number address => exact .look fun _ => .pure _
  | define l d => exact .define l d
  | compile label method code => exact built_compile label method code
  | unload number => exact built_unload number

lemma built_note (text : String) : Built enters (note text) := .change fun _ => ⟨rfl, rfl⟩

lemma built_runProgram {serve : (r : Request) → MachineM (Reply r)}
    (hserve : ∀ r, Built enters (serve r)) (p : Program) :
    Built enters (runProgram serve p) := by
  induction p with
  | done => exact .pure ()
  | fail f => exact .throw f
  | note text p ih => exact .bind (built_note text) fun _ => ih
  | call r k ih => exact .bind (.attempt (hserve r)) ih

lemma built_runInitializer {serve : (r : Request) → MachineM (Reply r)}
    (hserve : ∀ r, Built enters (serve r)) (c : Class) : Built enters (runInitializer serve c) := by
  refine .look fun m => ?_
  split
  · exact .pure ()
  · refine .bind (.attempt (built_runProgram hserve _)) fun outcome => ?_
    cases outcome with
    | ok v => exact .pure ()
    | error f => exact .throw _

lemma built_initializeBy {run : Class → MachineM Unit} (hrun : ∀ c, Built true (run c)) :
    ∀ c, Built true (initializeBy run c)
  | .root d => .enter rfl _ (hrun _)
  | .derived d s is => by
    refine .enter rfl _ ?_
    split
    · exact .bind (built_initializeBy hrun s) fun _ => hrun _
    · exact hrun _
  | .primitiveArray .. => .pure ()
  | .array .. => .pure ()

lemma built_initializeWithin (n : Nat) (c : Class) : Built true (initializeWithin n c) := by
  induction n generalizing c with
  | zero =>
    refine built_initializeBy (fun c => .look fun m => ?_) c
    split
    · exact .throw _
    · exact .pure ()
  | succ n ih => exact built_initializeBy (built_runInitializer (built_serve ih)) c

lemma built_initializeClass (c : Class) : Built true (initializeClass c) :=
  .look fun _ => built_initializeWithin _ c

end

end Machine

end Linkage
