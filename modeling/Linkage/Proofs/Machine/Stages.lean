import Linkage.Proofs.Machine.Parts
import Linkage.Proofs.Machine.Watch

/-!
# Where requests wait for a class

A request of a program has at most one class initialized on its way. It is taken apart here into
what comes before, the class, and what comes after. So initializing classes can be followed from one
class to the next, with nothing in between that could start another initializer.
-/

namespace Linkage

/-- How far an operation gets without initializing a class: to its end, or to a class with the rest
of the operation, which depends on how the initialization of the class ends. -/
inductive Stage (α : Type) where
  | ended (v : α)
  | waits (c : Class) (rest : Except Fault Unit → MachineM α)

namespace Stage

variable {α β : Type} {enters : Bool} {init : Class → MachineM Unit}

/-- Goes on from a stage, where `init` initializes a class. -/
def resume (init : Class → MachineM Unit) : Stage α → MachineM α
  | ended v => return v
  | waits c rest => do rest (← Machine.attempt (init c))

/-- Goes on to another operation in which no class is initialized. -/
def andThen (f : α → MachineM β) : Stage α → MachineM (Stage β)
  | ended v => do return ended (← f v)
  | waits c rest => return waits c fun outcome => do f (← rest outcome)

@[simp] lemma resume_ended (v : α) : (ended v).resume init = pure v := rfl

@[simp] lemma resume_waits (c : Class) (rest : Except Fault Unit → MachineM α) :
    (waits c rest).resume init = (Machine.attempt (init c) >>= rest) := rfl

lemma andThen_resume (f : α → MachineM β) (s : Stage α) :
    (do (← s.andThen f).resume init) = (do f (← s.resume init)) := by
  cases s <;> simp [andThen]

/-- In what is left of the operation no class is initialized. -/
def Built : Stage α → Prop
  | ended _ => True
  | waits _ rest => ∀ outcome, Machine.Built false (rest outcome)

end Stage

namespace Machine

variable {α β : Type} {enters : Bool} {init : Class → MachineM Unit}

/-! ### Traps and requests in two parts -/

/-- Ends a trap on a site when its patcher has ended. -/
def finishSite (number index : Nat) (s : PatchSite) : Except Fault Word → MachineM TrapOutcome
  | .error f => do
    if !((← get).siteState? number index = some .patched) then
      setSiteState number index .unpatched
    throw f
  | .ok w => do
    if (← get).siteState? number index = some .patched then return .alreadyPatched
    bindSite s w
    setSiteState number index .patched
    return .patched

/-- Binds a site of a compiled method, up to the class that its patcher has initialized. -/
def patchSiteStage (number index : Nat) (s : PatchSite) : MachineM (Stage TrapOutcome) := do
  if (← get).siteState? number index = some .patched then return .ended .alreadyPatched
  setSiteState number index .patching
  match ← attempt (Watch.patchPlan s.patcher s.operand) with
  | .error f => return .ended (← finishSite number index s (.error f))
  | .ok (none, w) => return .ended (← finishSite number index s w)
  | .ok (some c, w) =>
    return .waits c fun outcome => finishSite number index s (outcome.bind fun _ => w)

/-- Deals with a trap at an address. -/
def trapStage (address : Address) : MachineM (Stage TrapOutcome) := do
  match (← get).find? address with
  | none => return .ended .noPatchSite
  | some c =>
    match c.siteIndex? address with
    | none => return .ended .noPatchSite
    | some i =>
      match c.sites[i]? with
      | some s => patchSiteStage c.number i s
      | none => return .ended .noPatchSite

/-- Runs the instruction at an address. -/
def executeStage (address : Address) : MachineM (Stage (Option Execution)) := do
  match (← get).find? address with
  | none => return .ended none
  | some c =>
    let w ← read address
    if w.isTrap then
      (← trapStage address).andThen fun outcome => do
        if outcome = .noPatchSite then return none
        else return some (← fetched c.entry address (← read address))
    else return .ended (some (← fetched c.entry address w))

/-- Answers a request. -/
def requestStage : (r : Request) → MachineM (Stage (Reply r))
  | .start c => return .waits c fun outcome => ofExcept outcome
  | .trap address => trapStage address
  | .execute address => executeStage address
  | r => do return .ended (← serve (fun _ => return ()) r)

/-! ### Both parts together -/

lemma attempt_patchWord (patcher : Patcher) (operand : PatchOperand) :
    attempt (patchWord init patcher operand) = (do
      match ← attempt (Watch.patchPlan patcher operand) with
      | .error f => return .error f
      | .ok (none, w) => return w
      | .ok (some c, w) =>
        let outcome ← attempt (init c)
        return outcome.bind fun _ => w) := by
  rw [Watch.patchWord_eq]
  funext m
  cases hplan : Watch.patchPlan patcher operand m with
  | error f m' =>
    have hrun : attempt (Watch.patchPlan patcher operand) m = .ok (.error f) m' := by
      simp [attempt, hplan]
    rw [bind_of_ok hrun]
    simp [attempt, bind_of_error hplan]
  | ok v m' =>
    obtain ⟨target, w⟩ := v
    have hrun : attempt (Watch.patchPlan patcher operand) m = .ok (.ok (target, w)) m' := by
      simp [attempt, hplan]
    rw [bind_of_ok hrun]
    cases target with
    | none =>
      cases w <;> simp [attempt, bind_of_ok hplan, ofExcept]
    | some c =>
      cases hinit : init c m' with
      | error f m'' =>
        have hrun : attempt (init c) m' = .ok (.error f) m'' := by simp [attempt, hinit]
        dsimp only
        rw [bind_of_ok hrun]
        simp [attempt, bind_of_ok hplan, bind_of_error hinit, Except.bind]
      | ok v m'' =>
        have hrun : attempt (init c) m' = .ok (.ok v) m'' := by simp [attempt, hinit]
        dsimp only
        rw [bind_of_ok hrun]
        cases w <;> simp [attempt, bind_of_ok hplan, bind_of_ok hinit, Except.bind, ofExcept]

lemma patchSite_eq (number index : Nat) (s : PatchSite) :
    patchSite init number index s = (do (← patchSiteStage number index s).resume init) := by
  unfold patchSite patchSiteStage
  rw [attempt_patchWord]
  simp only [bind_assoc, pure_bind]
  refine bind_congr fun m => ?_
  by_cases hpatched : m.siteState? number index = some .patched
  · simp [hpatched]
  · simp only [hpatched, decide_false, Bool.false_eq_true, if_false, bind_assoc]
    refine bind_congr fun _ => bind_congr fun plan => ?_
    rcases plan with f | ⟨_ | c, w⟩
    · simp [finishSite]
    · cases w <;> simp [finishSite]
    · simp only [pure_bind, Stage.resume_waits, bind_assoc]
      refine bind_congr fun outcome => ?_
      cases outcome.bind fun _ => w <;> simp [finishSite]

lemma trapWith_eq (address : Address) :
    trapWith init address = (do (← trapStage address).resume init) := by
  unfold trapWith trapStage
  simp only [bind_assoc]
  refine bind_congr fun m => ?_
  cases m.find? address with
  | none => rfl
  | some c =>
    dsimp only
    cases c.siteIndex? address with
    | none => rfl
    | some i =>
      dsimp only
      cases c.sites[i]? with
      | none => rfl
      | some s => exact patchSite_eq c.number i s

lemma executeWith_eq (address : Address) :
    executeWith init address = (do (← executeStage address).resume init) := by
  unfold executeWith executeStage
  simp only [bind_assoc]
  refine bind_congr fun m => ?_
  cases m.find? address with
  | none => rfl
  | some c =>
    simp only [bind_assoc]
    refine bind_congr fun w => ?_
    split
    · rw [trapWith_eq]
      simp only [bind_assoc, Stage.andThen_resume]
    · simp

/-- A request is answered stage by stage. -/
lemma serve_eq (init : Class → MachineM Unit) (r : Request) :
    serve init r = (do (← requestStage r).resume init) := by
  have hplain : ∀ r, requestStage r = (do return .ended (← serve (fun _ => return ()) r)) →
      serve init r = serve (fun _ => return ()) r →
      serve init r = (do (← requestStage r).resume init) := by
    intro r h h'
    rw [h, h']
    simp
  cases r with
  | start c =>
    change init c = (attempt (init c) >>= fun outcome => ofExcept outcome)
    exact (Watch.attempt_ofExcept (init c)).symm
  | trap address =>
    change trapWith init address = (trapStage address >>= fun s => s.resume init)
    exact trapWith_eq address
  | execute address =>
    change executeWith init address = (executeStage address >>= fun s => s.resume init)
    exact executeWith_eq address
  | _ => exact hplain _ rfl rfl

/-! ### What the parts are made of -/

/-- An operation that is put together from parts of the machine, like what it leaves to be done. -/
structure Staged (x : MachineM (Stage α)) : Prop where
  built : Built false x
  left : ∀ m s m', x m = .ok s m' → s.Built

lemma staged_ended {x : MachineM α} (hx : Built false x) : Staged (do return .ended (← x)) where
  built := .bind hx fun _ => .pure _
  left m s m' h := by
    obtain ⟨v, m₁, -, h⟩ := bind_eq_ok.1 h
    cases h
    trivial

lemma staged_waits {c : Class} {rest : Except Fault Unit → MachineM α}
    (h : ∀ outcome, Built false (rest outcome)) : Staged (pure (.waits c rest)) where
  built := .pure _
  left m s m' hs := by
    cases hs
    exact h

lemma Staged.bind {x : MachineM β} {f : β → MachineM (Stage α)} (hx : Built false x)
    (hf : ∀ v, Staged (f v)) : Staged (x >>= f) where
  built := hx.bind fun v => (hf v).built
  left m s m' h := by
    obtain ⟨v, m₁, -, h⟩ := bind_eq_ok.1 h
    exact (hf v).left m₁ s m' h

lemma Staged.look {f : Machine → MachineM (Stage α)} (hf : ∀ m, Staged (f m)) :
    Staged (get >>= f) where
  built := .look fun m => (hf m).built
  left m s m' h := (hf m).left m s m' h

lemma Staged.andThen {x : MachineM (Stage α)} (hx : Staged x) {f : α → MachineM β}
    (hf : ∀ v, Built false (f v)) : Staged (do (← x).andThen f) where
  built := by
    refine hx.built.bind fun s => ?_
    cases s with
    | ended v => exact (staged_ended (hf v)).built
    | waits c rest => exact .pure _
  left m s m' h := by
    obtain ⟨s₁, m₁, hs₁, h⟩ := bind_eq_ok.1 h
    cases s₁ with
    | ended v => exact (staged_ended (hf v)).left m₁ s m' h
    | waits c rest =>
      cases h
      exact fun outcome => (hx.left m _ m' hs₁ outcome).bind hf

lemma built_patchPlan (patcher : Patcher) (operand : PatchOperand) :
    Built enters (Watch.patchPlan patcher operand) := by
  unfold Watch.patchPlan
  split
  · exact .bind (built_eagerly _ (Resolver.built_resolveField _ _)) fun f => .pure _
  · exact .bind (built_eagerly _ (Resolver.built_resolveMethod _ _)) fun m => .pure _
  · refine .bind (built_eagerly _ (Resolver.built_resolveClass _ _)) fun c => ?_
    split
    · exact .bind (.throw _) fun _ => .pure _
    · exact .pure _
  · exact .pure _
  · exact .bind (built_patchWord (fun _ => .pure ()) _ _) fun _ => .pure _

lemma built_finishSite (number index : Nat) (s : PatchSite) (outcome : Except Fault Word) :
    Built enters (finishSite number index s outcome) := by
  cases outcome with
  | error f =>
    refine .look fun m => ?_
    split
    · exact .bind (built_setSiteState _ _ _) fun _ => .throw f
    · exact .throw f
  | ok w =>
    refine .look fun m => ?_
    split
    · exact .pure _
    · refine .bind (.bind (built_write _ _) fun _ => built_write _ _) fun _ => ?_
      exact .bind (built_setSiteState _ _ _) fun _ => .pure _

lemma staged_patchSite (number index : Nat) (s : PatchSite) :
    Staged (patchSiteStage number index s) := by
  refine .look fun m => ?_
  split
  · exact staged_ended (.pure _)
  · refine .bind (built_setSiteState _ _ _) fun _ => ?_
    refine .bind (.attempt (built_patchPlan _ _)) fun plan => ?_
    rcases plan with f | ⟨_ | c, w⟩
    · exact staged_ended (built_finishSite _ _ _ _)
    · exact staged_ended (built_finishSite _ _ _ _)
    · exact staged_waits fun _ => built_finishSite _ _ _ _

lemma staged_trap (address : Address) : Staged (trapStage address) := by
  refine .look fun m => ?_
  split
  · exact staged_ended (.pure _)
  · split
    · exact staged_ended (.pure _)
    · split
      · exact staged_patchSite _ _ _
      · exact staged_ended (.pure _)

lemma staged_execute (address : Address) : Staged (executeStage address) := by
  refine .look fun m => ?_
  split
  · exact staged_ended (.pure _)
  · refine .bind (built_read address) fun w => ?_
    split
    · refine (staged_trap address).andThen fun outcome => ?_
      split
      · exact .pure _
      · exact .bind (built_read address) fun w => .bind (built_fetched _ _ w) fun _ => .pure _
    · exact .bind (built_fetched _ _ w) fun _ => staged_ended (.pure _)

/-- Both parts of a request are put together from parts of the machine. -/
lemma staged_request (r : Request) : Staged (requestStage r) := by
  cases r with
  | start c => exact staged_waits fun outcome => built_ofExcept outcome
  | trap address => exact staged_trap address
  | execute address => exact staged_execute address
  | _ => exact staged_ended (built_serve (fun _ => .pure ()) _)

end Machine

end Linkage
