import Linkage.Proofs.Machine.Patching

/-!
# What all calls have in common

A call is put together from few parts: the resolver works, a word is written, the state of a site
changes, a method is compiled or forgotten, a program is kept, something is noted. A property of
these parts that sequences of operations inherit is a property of every call, with all that
initializers do while it is carried out.
-/

namespace Linkage

namespace Watch

variable {α β : Type}

lemma onMachine_bind (x : MachineM α) (f : α → MachineM β) :
    onMachine (x >>= f) = onMachine x >>= fun v => onMachine (f v) := by
  funext t
  cases hx : x t.machine with
  | ok v m =>
    have hfirst : onMachine x t = .ok v ⟨t.history, m⟩ := by simp [onMachine, hx]
    rw [bind_of_ok hfirst]
    simp only [onMachine, bind_of_ok hx]
  | error e m =>
    have hfirst : onMachine x t = .error e ⟨t.history, m⟩ := by simp [onMachine, hx]
    rw [bind_of_error hfirst]
    simp only [onMachine, bind_of_error hx]

lemma discard_eq (x : WatchM α) : Functor.discard x = (do let _ ← x; return ()) := by
  funext t
  rw [discard_apply]
  cases hx : x t with
  | ok v t' => rw [bind_of_ok hx]; rfl
  | error e t' => rw [bind_of_error hx]

/-- A property of operations that all calls have if their parts have it. -/
structure Routine (K : ∀ {α : Type}, WatchM α → Prop) : Prop extends Composable K where
  see (e : Event) : K (see e)
  resolve {α : Type} {x : ResolverM α} (hx : Resolver.Built x) :
    K (onMachine (Machine.onResolver x))
  write (address : Address) (w : Word) : K (onMachine (Machine.write address w))
  setSiteState (number index : Nat) (s : PatchState) :
    K (onMachine (Machine.setSiteState number index s))
  compile (label : String) (method : MethodHandle) (code : List Instruction) :
    K (onMachine (Machine.compile label method code))
  unload (number : Nat) : K (onMachine (Machine.unload number))
  addProgram (p : Class → Program) : K (onMachine (Machine.addProgram p))
  define (l : LoaderId) (d : Definition) : K (onMachine (Machine.define l d))

namespace Routine

variable {K : ∀ {α : Type}, WatchM α → Prop} {init : Class → WatchM Unit}

lemma given (hK : Routine K) (v : Except Fault α) : K (ofExcept v : WatchM α) := by
  cases v with
  | ok v => exact hK.pure v
  | error e => exact hK.throw e

/-- An operation in which no initializer runs, put together from two. -/
lemma onMachine_bind (hK : Routine K) {x : MachineM α} {f : α → MachineM β} (hx : K (onMachine x))
    (hf : ∀ v, K (onMachine (f v))) : K (onMachine (x >>= f)) := by
  rw [Watch.onMachine_bind]
  exact hK.bind hx hf

lemma onMachine_pure (hK : Routine K) (v : α) : K (onMachine (pure v)) := hK.pure v

lemma onMachine_throw (hK : Routine K) (e : Fault) : K (onMachine (throw e : MachineM α)) :=
  hK.throw e

lemma onMachine_given (hK : Routine K) (v : Except Fault α) :
    K (onMachine (ofExcept v : MachineM α)) := by
  cases v with
  | ok v => exact hK.pure v
  | error e => exact hK.throw e

lemma eagerly (hK : Routine K) (what : String) {x : ResolutionM α} (hx : Resolver.Built x.run) :
    K (onMachine (Machine.eagerly what x)) := by
  refine hK.onMachine_bind (hK.resolve hx) fun found => ?_
  cases found with
  | some v => exact hK.onMachine_pure v
  | none => exact hK.onMachine_throw _

lemma read (hK : Routine K) (address : Address) : K (onMachine (Machine.read address)) := by
  refine hK.onMachine_bind hK.get fun m => ?_
  cases m.memory.read? address with
  | some w => exact hK.onMachine_pure w
  | none => exact hK.onMachine_throw _

lemma fetched (hK : Routine K) (entry address : Address) (w : Word) :
    K (onMachine (do return some (← Machine.fetched entry address w))) := by
  refine hK.onMachine_bind (hK.onMachine_bind ?_ fun (op, displacement) => ?_) fun e =>
    hK.onMachine_pure _
  · unfold Machine.decodeWord
    split
    · split
      · exact hK.onMachine_pure _
      · exact hK.onMachine_throw _
    · exact hK.onMachine_pure _
  · dsimp only
    split
    · exact hK.onMachine_pure _
    · exact hK.onMachine_bind (hK.read _) fun _ => hK.onMachine_pure _

/-! ### Traps -/

/-- The word of a patcher, no class initialized. -/
lemma plainWord (hK : Routine K) (patcher : Patcher) (operand : PatchOperand) :
    K (onMachine (Machine.patchWord (fun _ => return ()) patcher operand)) := by
  have hskip : ∀ {f : Unit → MachineM Word}, K (onMachine (f ())) →
      K (onMachine ((do return ()) >>= f)) :=
    fun hf => hK.onMachine_bind (hK.onMachine_pure ()) fun _ => hf
  have hfield : ∀ u : FieldUse,
      K (onMachine (Machine.eagerly u.text (Resolver.resolveField u .eager))) :=
    fun u => hK.eagerly _ (Resolver.built_resolveField u .eager)
  have hmethod : ∀ u : MethodUse,
      K (onMachine (Machine.eagerly u.text (Resolver.resolveMethod u .eager))) :=
    fun u => hK.eagerly _ (Resolver.built_resolveMethod u .eager)
  have hclass : ∀ u : ClassUse,
      K (onMachine (Machine.eagerly u.text (Resolver.resolveClass u .eager))) :=
    fun u => hK.eagerly _ (Resolver.built_resolveClass u .eager)
  unfold Machine.patchWord
  split
  · exact hK.onMachine_bind (hfield _) fun f => hskip (hK.onMachine_given _)
  · exact hK.onMachine_bind (hfield _) fun f => hK.onMachine_pure _
  · refine hK.onMachine_bind (hmethod _) fun m => ?_
    split
    · exact hskip (hK.onMachine_pure _)
    · exact hK.onMachine_pure _
  · exact hK.onMachine_bind (hmethod _) fun m => hK.onMachine_pure _
  · refine hK.onMachine_bind (hmethod _) fun m => ?_
    exact hK.onMachine_bind (hK.eagerly _ (Resolver.built_interfaceTarget _)) fun m =>
      hK.onMachine_pure _
  · refine hK.onMachine_bind (hclass _) fun c => ?_
    split
    · exact hK.onMachine_bind (hK.onMachine_throw _) fun _ => hskip (hK.onMachine_pure _)
    · exact hskip (hK.onMachine_pure _)
  · refine hK.onMachine_bind (hclass _) fun c => ?_
    have hmakes : Resolver.Built (Resolver.onArea (Area.arrayOf c)) :=
      .onArea (Area.Performs.ofArraySteps (Area.performs_arrayOf c))
    exact hK.onMachine_bind (hK.resolve hmakes) fun _ => hK.onMachine_pure _
  · exact hK.onMachine_bind (hclass _) fun c => hK.onMachine_pure _
  · exact hskip (hK.onMachine_pure _)
  · exact hK.onMachine_throw _

lemma patchPlan (hK : Routine K) (patcher : Patcher) (operand : PatchOperand) :
    K (onMachine (patchPlan patcher operand)) := by
  unfold Watch.patchPlan
  split
  · exact hK.onMachine_bind (hK.eagerly _ (Resolver.built_resolveField _ _)) fun f =>
      hK.onMachine_pure _
  · exact hK.onMachine_bind (hK.eagerly _ (Resolver.built_resolveMethod _ _)) fun m =>
      hK.onMachine_pure _
  · refine hK.onMachine_bind (hK.eagerly _ (Resolver.built_resolveClass _ _)) fun c => ?_
    split
    · exact hK.onMachine_bind (hK.onMachine_throw _) fun _ => hK.onMachine_pure _
    · exact hK.onMachine_pure _
  · exact hK.onMachine_pure _
  · exact hK.onMachine_bind (hK.plainWord _ _) fun _ => hK.onMachine_pure _

lemma patchWord (hK : Routine K) (hinit : ∀ c, K (init c)) (patcher : Patcher)
    (operand : PatchOperand) : K (patchWord init patcher operand) := by
  refine hK.bind (hK.patchPlan patcher operand) fun (target, w) => ?_
  refine hK.bind ?_ fun _ => hK.given w
  cases target with
  | none => exact hK.pure ()
  | some c => exact hinit c

lemma settle (hK : Routine K) (trap : Nat) (id : SiteId) (outcome : Except Fault TrapOutcome) :
    K (settle trap id outcome) :=
  hK.bind (hK.see _) fun _ => hK.given outcome

lemma isPatched (hK : Routine K) (id : SiteId) : K (isPatched id) :=
  hK.bind hK.get fun _ => hK.pure _

lemma askPatcher (hK : Routine K) (hinit : ∀ c, K (init c)) (trap : Nat) (id : SiteId)
    (s : PatchSite) : K (askPatcher init trap id s) := by
  refine hK.bind (hK.attempt (hK.patchWord hinit _ _)) fun outcome => ?_
  cases outcome with
  | error f =>
    refine hK.bind (hK.isPatched id) fun patched => ?_
    cases patched with
    | true => exact hK.settle _ _ _
    | false => exact hK.bind (hK.setSiteState _ _ _) fun _ => hK.settle _ _ _
  | ok w =>
    refine hK.bind (hK.see _) fun _ => hK.bind (hK.isPatched id) fun patched => ?_
    cases patched with
    | true => exact hK.settle _ _ _
    | false =>
      refine hK.bind (hK.onMachine_bind (hK.write _ _) fun _ => hK.write _ _) fun _ => ?_
      exact hK.bind (hK.setSiteState _ _ _) fun _ => hK.settle _ _ _

lemma patchSite (hK : Routine K) (hinit : ∀ c, K (init c)) (id : SiteId) (s : PatchSite) :
    K (patchSite init id s) := by
  refine hK.bind (hK.see _) fun trap => hK.bind (hK.isPatched id) fun patched => ?_
  cases patched with
  | true => exact hK.settle _ _ _
  | false =>
    refine hK.bind (hK.setSiteState _ _ _) fun _ => ?_
    exact hK.bind (hK.see _) fun _ => hK.askPatcher hinit trap id s

lemma trapWith (hK : Routine K) (hinit : ∀ c, K (init c)) (address : Address) :
    K (trapWith init address) := by
  refine hK.bind hK.get fun m => ?_
  split
  · exact hK.pure _
  · split
    · exact hK.pure _
    · split
      · exact hK.patchSite hinit _ _
      · exact hK.pure _

lemma executeWith (hK : Routine K) (hinit : ∀ c, K (init c)) (address : Address) :
    K (executeWith init address) := by
  refine hK.bind hK.get fun m => ?_
  split
  · exact hK.pure _
  · refine hK.bind (hK.read address) fun w => ?_
    split
    · refine hK.bind (hK.trapWith hinit address) fun outcome => ?_
      split
      · exact hK.pure _
      · exact hK.onMachine_bind (hK.read address) fun w => hK.fetched _ _ w
    · exact hK.fetched _ _ w

/-! ### Calls -/

lemma serve (hK : Routine K) (hinit : ∀ c, K (init c)) (r : Request) : K (serve init r) := by
  have hlook : ∀ {α : Type} (f : Machine → α), K (onMachine (do return f (← get))) :=
    fun f => hK.onMachine_bind hK.get fun _ => hK.onMachine_pure _
  cases r with
  | load l name => exact hK.resolve (.onArea (Area.performs_load l name))
  | start c => exact hinit c
  | phase c => exact hlook fun m => m.area.phase c
  | code label => exact hlook fun m => m.labelled? label
  | trap address => exact hK.trapWith hinit address
  | execute address => exact hK.executeWith hinit address
  | siteState number address =>
    exact hlook fun m => ((m.methods[number]?).bind fun c => c.site? address).map PatchSite.state
  | define l d => exact hK.define l d
  | compile label method code => exact hK.compile label method code
  | unload number => exact hK.unload number

lemma during (hK : Routine K) {x : WatchM α} (hx : K x) (c : Call) : K (during c x) :=
  hK.bind (hK.see _) fun _ => hK.bind (hK.attempt hx) fun answer =>
    hK.bind (hK.see _) fun _ => hK.given answer

lemma initializeClass (hK : Routine K) (c : Class) : K (initializeClass c) :=
  hK.bind hK.get fun _ =>
    hK.initializeWithin (fun _ hinit r => hK.during (hK.serve hinit r) _) _ c

/-- Calls are put together from the parts, apart from what the resolver may do from outside. -/
lemma perform (hK : Routine K) {c : Call}
    (hc : ∀ op, c = .operate op → K (onMachine (Machine.onResolver op.perform))) :
    K (perform c) := by
  refine hK.during ?_ c
  cases c with
  | request r =>
    dsimp only
    rw [discard_eq]
    exact hK.bind (hK.serve hK.initializeClass r) fun _ => hK.pure ()
  | register p =>
    have hdiscard : onMachine (Functor.discard (Machine.addProgram p)) =
        (do let _ ← onMachine (Machine.addProgram p); return ()) := rfl
    change K (onMachine (Functor.discard (Machine.addProgram p)))
    rw [hdiscard]
    exact hK.bind (hK.addProgram p) fun _ => hK.pure ()
  | operate op => exact hc op rfl

end Routine

end Watch

end Linkage
