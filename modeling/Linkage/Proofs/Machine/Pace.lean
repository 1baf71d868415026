import Linkage.Proofs.Machine.Prompt
import Linkage.Proofs.Machine.Readiness
import Linkage.Proofs.Machine.Routine

/-!
# One state after the other

Initializers run inside one another, and what is seen of the machine may lie deep inside them. Still
the resolver only goes forward: of any two observations the second shows it in a state that comes
after that of the first. A class that an operation takes into its second phase is there still when
the operation goes on to the third, whatever else initializers do in between.
-/

namespace Linkage

open Resolver (Evolves)

namespace Watch

variable {α β : Type} {r : Resolver} {h : List Observation} {m m' : Machine} {t : Watch}

/-- What was seen of the resolver came one after the other, all of it after a first state. -/
structure Paced (r : Resolver) (t : Watch) : Prop where
  first : ∀ o ∈ t.history, Evolves r o.machine.resolver
  pairwise : t.history.Pairwise fun o o' => Evolves o.machine.resolver o'.machine.resolver
  last : ∀ o ∈ t.history, Evolves o.machine.resolver t.machine.resolver
  now : Evolves r t.machine.resolver

lemma Paced.change (ht : Paced r ⟨h, m⟩) (hm : Evolves m.resolver m'.resolver) :
    Paced r ⟨h, m'⟩ :=
  ⟨ht.first, ht.pairwise, fun o ho => (ht.last o ho).trans hm, ht.now.trans hm⟩

lemma Paced.see (ht : Paced r ⟨h, m⟩) (e : Event) : Paced r ⟨h ++ [⟨e, m⟩], m⟩ where
  first o ho := by
    rcases List.mem_append.1 ho with ho | ho
    · exact ht.first o ho
    · rw [List.mem_singleton.1 ho]
      exact ht.now
  pairwise := by
    refine List.pairwise_append.2 ⟨ht.pairwise, List.pairwise_singleton _ _, fun o ho o' ho' => ?_⟩
    rw [List.mem_singleton.1 ho']
    exact ht.last o ho
  last o ho := by
    rcases List.mem_append.1 ho with ho | ho
    · exact ht.last o ho
    · rw [List.mem_singleton.1 ho]
      exact .refl _
  now := ht.now

/-- What was seen up to an observation was seen in the same order. -/
lemma Paced.earlier (ht : Paced r t) {k : Nat} {o : Observation} (ho : t.history[k]? = some o) :
    Paced r ⟨t.history.take (k + 1), o.machine⟩ where
  first o' ho' := ht.first o' (List.mem_of_mem_take ho')
  pairwise := ht.pairwise.sublist (List.take_sublist _ _)
  last o' ho' := by
    obtain ⟨hk, rfl⟩ := List.getElem?_eq_some_iff.1 ho
    obtain ⟨j, hj, rfl⟩ := List.mem_take_iff_getElem.1 ho'
    have hle : j ≤ k := Nat.le_of_lt_succ (Nat.lt_of_lt_of_le hj (Nat.min_le_left _ _))
    rcases Nat.lt_or_eq_of_le hle with hlt | rfl
    · exact List.pairwise_iff_getElem.1 ht.pairwise j k _ hk hlt
    · exact .refl _
  now := ht.first o (List.mem_of_getElem? ho)

/-! ### Operations -/

/-- An operation after which the resolver is in a later state, as it is from each observation to the
next, and no class but those that were there before is in its second phase. -/
def Pacing (r : Resolver) (x : WatchM α) : Prop :=
  ∀ t, t.machine.area.Sound → Paced r t →
    Paced r (finalState x t) ∧ Machine.Advances true t.machine (finalState x t).machine

lemma pacing_onMachine {y : MachineM α}
    (hy : ∀ m : Machine, m.area.Sound → Machine.Advances true m (finalState y m)) :
    Pacing r (onMachine y) := by
  intro t hsound ht
  rw [finalState_onMachine]
  exact ⟨ht.change (hy t.machine hsound).evolves, hy t.machine hsound⟩

lemma pacing_built {y : MachineM α} (hy : Machine.Built true y) : Pacing r (onMachine y) :=
  pacing_onMachine fun _ hm => hy.advances hm

lemma Pacing.bind {x : WatchM α} {f : α → WatchM β} (hx : Pacing r x) (hf : ∀ v, Pacing r (f v)) :
    Pacing r (x >>= f) := by
  intro t hsound ht
  obtain ⟨hpaced, hadvances⟩ := hx t hsound ht
  rw [finalState_bind]
  cases hrun : x t with
  | error e t' =>
    rw [finalState_of_error hrun] at hpaced hadvances
    exact ⟨hpaced, hadvances⟩
  | ok v t' =>
    rw [finalState_of_ok hrun] at hpaced hadvances
    obtain ⟨hpaced', hadvances'⟩ := hf v t' (hadvances.evolves.sound hsound) hpaced
    exact ⟨hpaced', hadvances.trans hadvances'⟩

lemma finalState_attempt (x : WatchM α) (t : Watch) :
    finalState (attempt x) t = finalState x t := by
  unfold finalState attempt
  cases x t <;> rfl

/-- What becomes of the machine and its history when a class is taken through its phases. -/
lemma enterClass_cases (c : Class) (body : WatchM Unit) (t : Watch) :
    finalState (enterClass c body) t = t ∨
      t.machine.area.phase c = .linked ∧ ∃ u p, (p = .initialized ∨ p = .erroneous) ∧
        finalState body ⟨t.history, t.machine.withPhase c .initializing⟩ = u ∧
        finalState (enterClass c body) t = ⟨u.history, u.machine.withPhase c p⟩ := by
  have hget : onMachine get t = .ok t.machine t := rfl
  unfold enterClass
  rw [finalState_congr (bind_of_ok hget)]
  cases hphase : t.machine.area.phase c with
  | initialized => exact .inl rfl
  | initializing => exact .inl rfl
  | erroneous => exact .inl rfl
  | linked =>
    refine .inr ⟨rfl, ?_⟩
    have hset : onMachine (Machine.setPhase c .initializing) t =
        .ok () ⟨t.history, t.machine.withPhase c .initializing⟩ := rfl
    dsimp only
    rw [finalState_congr (bind_of_ok hset)]
    cases hbody : body ⟨t.history, t.machine.withPhase c .initializing⟩ with
    | ok v u =>
      have hrun : attempt body ⟨t.history, t.machine.withPhase c .initializing⟩ =
          .ok (.ok v) u := by simp [attempt, hbody]
      rw [finalState_congr (bind_of_ok hrun)]
      exact ⟨u, .initialized, .inl rfl, finalState_of_ok hbody, rfl⟩
    | error f u =>
      have hrun : attempt body ⟨t.history, t.machine.withPhase c .initializing⟩ =
          .ok (.error f) u := by simp [attempt, hbody]
      rw [finalState_congr (bind_of_ok hrun)]
      exact ⟨u, .erroneous, .inr rfl, finalState_of_error hbody, rfl⟩

/-- A class goes on to its last phase, for whatever happens in its second phase leaves it there. -/
lemma Pacing.enterClass {body : WatchM Unit} (hbody : Pacing r body) (c : Class) :
    Pacing r (enterClass c body) := by
  intro t hsound ht
  rcases enterClass_cases c body t with hfinal | ⟨hlinked, u, p, hp, hu, hfinal⟩
  · rw [hfinal]
    exact ⟨ht, .refl _⟩
  · have hfirst : Evolves t.machine.resolver (t.machine.withPhase c .initializing).resolver :=
      ⟨.single (.phase (.inl ⟨hlinked, rfl⟩)), rfl⟩
    obtain ⟨hpaced, hadvances⟩ :=
      hbody ⟨t.history, t.machine.withPhase c .initializing⟩ (hfirst.sound hsound)
        (ht.change hfirst)
    rw [hu] at hpaced hadvances
    have hbusy : u.machine.area.phase c = .initializing := by
      refine (hadvances.busy c).2 ?_
      rw [Machine.phase_withPhase, Area.isArray_of_phase (a := t.machine.area) (by simp [hlinked])]
      simp
    have hlast : Evolves u.machine.resolver (u.machine.withPhase c p).resolver :=
      ⟨.single (.phase (.inr ⟨hbusy, hp⟩)), rfl⟩
    rw [hfinal]
    exact ⟨hpaced.change hlast, Machine.advances_withPhase hlinked hp hadvances⟩

lemma sequential_pacing : Sequential (Pacing r) where
  pure _ := fun _ _ ht => ⟨ht, .refl _⟩
  throw _ := fun _ _ ht => ⟨ht, .refl _⟩
  bind hx hf := hx.bind hf
  attempt hx := fun t hsound ht => by
    rw [finalState_attempt]
    exact hx t hsound ht
  get := fun _ _ ht => ⟨ht, .refl _⟩

/-- Whatever is called, what is seen on the way is seen in order. -/
lemma routine_pacing : Routine (Pacing r) where
  toSequential := sequential_pacing
  note text := pacing_built (Machine.built_note text)
  enterClass hbody c := hbody.enterClass c
  see e := fun _ _ ht => ⟨ht.see e, .refl _⟩
  resolve hx := pacing_built (.resolve hx)
  write address w := pacing_built (Machine.built_write address w)
  setSiteState number index s := pacing_built (Machine.built_setSiteState number index s)
  compile label method code := pacing_built (Machine.built_compile label method code)
  unload number := pacing_built (Machine.built_unload number)
  addProgram _ := pacing_onMachine fun _ _ => .of_kept rfl rfl
  define l d := pacing_built (.define l d)

lemma Initializes.pacing {init : Class → WatchM Unit} {init' : Class → MachineM Unit}
    (h : Initializes init init') (c : Class) : Pacing r (init c) := by
  cases h with
  | outside => exact routine_pacing.initializeClass c
  | inside n =>
    exact routine_pacing.initializeWithin
      (fun _ hinit q => routine_pacing.during (routine_pacing.serve hinit q) _) n c

/-! ### Runs -/

lemma Paced.perform {c : Call} (hc : c.setsPhase = false) (hr : r.area.Sound) (ht : Paced r t) :
    Paced r (finalState (perform c) t) := by
  have hbuilt : (∀ op, c ≠ .operate op) → Paced r (finalState (Watch.perform c) t) := fun hne =>
    (routine_pacing.perform (fun op heq => absurd heq (hne op)) t (ht.now.sound hr) ht).1
  cases c with
  | request q => exact hbuilt fun _ => by simp
  | register p => exact hbuilt fun _ => by simp
  | operate op =>
    have hlater : Evolves t.machine.resolver
        (finalState (Machine.onResolver op.perform) t.machine).resolver := by
      rw [Machine.finalState_onResolver]
      exact op.evolves (ht.now.sound hr) (orderly_of_setsPhase hc _)
    unfold Watch.perform
    rw [finalState_during]
    dsimp only [Call.perform]
    rw [finalState_onMachine]
    exact ((ht.see _).change hlater).see _

lemma Paced.after {calls : List Call} (hcalls : ∀ call ∈ calls, call.setsPhase = false)
    (hr : r.area.Sound) (ht : Paced r t) : Paced r (t.after calls) := by
  induction calls generalizing t with
  | nil => exact ht
  | cons c cs ih =>
    exact ih (fun c' hc' => hcalls c' (List.mem_cons_of_mem _ hc'))
      (ht.perform (hcalls c List.mem_cons_self) hr)

/-- What is seen of the machine while calls are made is seen in order. -/
lemma Sees.paced {calls : List Call} (hcalls : ∀ call ∈ calls, call.setsPhase = false)
    (hm : m.area.Sound) (ht : Sees m calls t) : Paced m.resolver t := by
  have hstart : Paced m.resolver ⟨[], m⟩ := ⟨by simp, .nil, by simp, .refl _⟩
  cases ht with
  | between => exact hstart.after hcalls hm
  | during ho => exact (hstart.after hcalls hm).earlier ho

end Watch

end Linkage
