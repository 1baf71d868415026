import Linkage.Proofs.Area.Ownership
import Linkage.Proofs.Machine.Conduct
import Linkage.Proofs.Machine.Failing

/-!
# How classes are initialized

Calls follow one another, and while a call lasts initializers may make any further requests. The
protocol of initialization holds from the first call to the last.
-/

namespace Linkage

open Relation
open Resolver (Evolves)

/-- In an area that is in order, initializers belong to definitions and classes that loaders
have. -/
lemma Area.Tidy.initializersIn {a : Area} (h : a.Tidy) : a.InitializersIn Set.univ where
  home _ hc _ := (h.rooted_of_published hc).owned
  above c hc _ s hs _ := h.rooted _ _ c hc s (Class.mem_superclasses_of_superclass? hs)
  definitions _ _ _ _ _ := Set.mem_univ _
  classes _ _ _ _ := Set.mem_univ _

/-- No class is being initialized from the start. -/
lemma Area.initial_phase_ne (c : Class) : initial.phase c ≠ .initializing := by
  unfold phase
  split
  · simp
  · cases h : initial.phases.get? c.id with
    | none => simp
    | some p =>
      obtain ⟨d, -, hd⟩ := List.mem_map.1 (Table.mem_entries_of_get? h)
      obtain ⟨-, rfl⟩ := Prod.mk.inj hd
      simp

namespace Journal

variable {m m' : Machine} {es : List Entry} {j : Journal}

/-! ### Calls -/

/-- What holds between calls. -/
structure Between (start : Machine) (j : Journal) : Prop where
  protocol : Protocol start j
  inside : Inside [] Supplied j

lemma Between.work (h : Between m ⟨es, m'⟩) {q : Machine} (hq : Evolves m'.resolver q.resolver)
    (hphases : ∀ c, q.area.phase c = m'.area.phase c)
    (hsupplied : q.area.InitializersIn Set.univ) : Between m ⟨es, q⟩ where
  protocol := h.protocol.work hphases
  inside := ⟨h.inside.1.work hq hphases, hsupplied⟩

lemma finalState_onMachine {α : Type} (x : MachineM α) (j : Journal) :
    finalState (onMachine x) j = ⟨j.entries, finalState x j.machine⟩ := by
  unfold finalState onMachine
  cases x j.machine <;> rfl

lemma finalState_of_attempt {α : Type} {x : JournalM α} {v : Except Fault α} {j' : Journal}
    (h : attempt x j = .ok v j') : finalState x j = j' := by
  unfold attempt at h
  unfold finalState
  cases hx : x j <;> rw [hx] at h <;> cases h <;> rfl

/-- Whatever the resolver is to do, classes stay in their phases. -/
lemma Between.operate (h : Between m j) {op : Resolver.Operation}
    (hop : (Call.operate op).setsPhase = false) :
    Between m (finalState (perform (.operate op)) j) := by
  obtain ⟨es, m'⟩ := j
  have hm' : m'.area.Sound := h.inside.1.sound
  have hsupplied : m'.area.InitializersIn Set.univ := h.inside.2
  have hquiet : op.isQuiet = true →
      Between m ⟨es, finalState (Machine.onResolver op.perform) m'⟩ := fun hquiet => by
    have hadvances := (show Machine.Built false (Machine.onResolver op.perform) from .resolve
      (Resolver.Operation.built hquiet)).advances hm'
    exact h.work hadvances.evolves hadvances.phase_eq (hadvances.initializers.univ hsupplied)
  change Between m (finalState (onMachine (Machine.onResolver op.perform)) ⟨es, m'⟩)
  rw [finalState_onMachine]
  cases op with
  | setPhase c p => cases hop
  | addLoader parent childFirst =>
    exact h.work ⟨.single (.addLoader _ parent childFirst), rfl⟩ (fun _ => rfl)
      (hsupplied.addLoader hm' parent childFirst)
  | define l d =>
    exact h.work ⟨.single (.define _ l d), rfl⟩ (fun _ => rfl)
      (hsupplied.define fun _ => Set.mem_univ _)
  | _ => exact hquiet rfl

lemma Between.request (h : Between m j) (r : Request) :
    Between m (finalState (perform (.request r)) j) := by
  obtain ⟨v, j', hrun, hsteps, hinside⟩ :=
    acts_serve (supplied_stable []) acts_initializeClass r j h.inside
  change Between m (finalState (Functor.discard (serve initializeClass r)) j)
  rw [finalState_discard, finalState_of_attempt hrun]
  exact ⟨(protocol_stable m []).reflTransGen hsteps h.protocol, hinside⟩

lemma Between.register (h : Between m j) (p : Class → Program) :
    Between m (finalState (perform (.register p)) j) := by
  obtain ⟨es, m'⟩ := j
  change Between m (finalState (onMachine (Functor.discard (Machine.addProgram p))) ⟨es, m'⟩)
  rw [finalState_onMachine, finalState_discard]
  exact h.work (.refl _) (fun _ => rfl) h.inside.2

lemma Between.after (h : Between m j) {calls : List Call}
    (hcalls : ∀ call ∈ calls, call.setsPhase = false) : Between m (j.after calls) := by
  induction calls generalizing j with
  | nil => exact h
  | cons c cs ih =>
    refine ih ?_ fun call hcall => hcalls call (List.mem_cons_of_mem _ hcall)
    have hc := hcalls c List.mem_cons_self
    cases c with
    | request r => exact h.request r
    | register p => exact h.register p
    | operate op => exact h.operate hc

lemma between_start (hstart : m.area = Area.initial) : Between m ⟨[], m⟩ where
  protocol :=
    { phases := .singleton m
      current := by simp
      once := .nil
      superclass := by simp
      succeeded := by simp
      failed := by simp
      kinds := by simp
      refused := fun i e c he => by simp at he }
  inside := by
    have hphase : ∀ c, m.area.phase c ≠ .initializing := fun c =>
      hstart ▸ Area.initial_phase_ne c
    refine ⟨⟨hstart ▸ Area.initial_sound, fun c => ?_, by simp, by simp⟩, ?_⟩
    · simpa using hphase c
    · exact show m.area.InitializersIn Set.univ from hstart ▸ Area.initial_tidy.initializersIn

/-- However initializers make the machine initialize classes inside one another, and however they
end, every class is initialized as the protocol says. -/
theorem classes_initialized_in_order (hstart : m.area = Area.initial) {calls : List Call}
    (hcalls : ∀ call ∈ calls, call.setsPhase = false) :
    (∀ c, Follows (initializeClass c) (Machine.initializeClass c)) ∧
      (after ⟨[], m⟩ calls).machine = m.after calls ∧ Protocol m (after ⟨[], m⟩ calls) :=
  ⟨follows_initializeClass, machine_after calls ⟨[], m⟩,
    ((between_start hstart).after hcalls).protocol⟩

/-! ### A superclass that needs its subclass -/

/-- The classes for which calls ended, in the order of their ends, with the kinds of their
faults. -/
def answers (j : Journal) : List (String × Option FaultKind) :=
  j.entries.filterMap fun e =>
    match e.milestone with
    | .answered c (.ok ()) => some (c.name, none)
    | .answered c (.error f) => some (c.name, some f.kind)
    | _ => none

/-- The classes whose initializers started, in this order. -/
def starts (j : Journal) : List String :=
  j.entries.filterMap fun e =>
    match e.milestone with
    | .started c => some c.name
    | _ => none

/-- A class whose initializer asks for a subclass to be initialized and then fails, and the
subclass, which has an initializer of its own. -/
def entangled : List Call :=
  [.register fun _ => .ask (.load .bootstrap "p/B") fun c => .ask (.start c) fun _ =>
      .fail Watch.unlucky,
    .register fun _ => .done,
    .operate (.define .bootstrap
      { name := "p/A", flags := Flag.accPublic.mask, initializer := some ⟨0⟩ }),
    .operate (.define .bootstrap
      { name := "p/B", flags := Flag.accPublic.mask, superclass := some "p/A"
        initializer := some ⟨1⟩ }),
    .request (.load .bootstrap "p/B")]

/-- The subclass is to be initialized twice. -/
def startTwice? (m : Machine) : Option (List Call) :=
  (m.area.published? .bootstrap "p/B").map fun c => [.request (.start c), .request (.start c)]

/-- The call that the initializer makes for the subclass succeeds at once, for the subclass is being
initialized already. When the initializer fails, both classes are erroneous, and the initializer of
the subclass never starts. -/
theorem entangled_classes_initialized_in_order :
    ∃ calls, startTwice? (Watch.smallMachine.after entangled) = some calls ∧
      answers (after ⟨[], Watch.smallMachine⟩ (entangled ++ calls)) =
        [(objectName, none), ("p/B", none), ("p/A", some .inInitializer),
          ("p/B", some .inInitializer), ("p/B", some .noClassDefFound)] ∧
      starts (after ⟨[], Watch.smallMachine⟩ (entangled ++ calls)) = ["p/A"] ∧
      (after ⟨[], Watch.smallMachine⟩ (entangled ++ calls)).machine =
        Watch.smallMachine.after (entangled ++ calls) ∧
      Protocol Watch.smallMachine (after ⟨[], Watch.smallMachine⟩ (entangled ++ calls)) := by
  have htest : ((startTwice? (Watch.smallMachine.after entangled)).any fun calls =>
      (entangled ++ calls).all (fun call => !call.setsPhase) &&
      answers (after ⟨[], Watch.smallMachine⟩ (entangled ++ calls)) =
        [(objectName, none), ("p/B", none), ("p/A", some .inInitializer),
          ("p/B", some .inInitializer), ("p/B", some .noClassDefFound)] &&
      starts (after ⟨[], Watch.smallMachine⟩ (entangled ++ calls)) = ["p/A"]) = true := by
    decide +kernel
  obtain ⟨calls, hcalls, htest⟩ := (Option.any_eq_true _ _).1 htest
  simp only [Bool.and_eq_true, decide_eq_true_eq, List.all_eq_true, Bool.not_eq_true'] at htest
  obtain ⟨⟨hphases, hanswers⟩, hstarts⟩ := htest
  obtain ⟨-, hmachine, hprotocol⟩ :=
    classes_initialized_in_order (m := Watch.smallMachine) rfl hphases
  exact ⟨calls, hcalls, hanswers, hstarts, hmachine, hprotocol⟩

end Journal

end Linkage
