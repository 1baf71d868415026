import Linkage.Lattice.Merge
import Linkage.Proofs.Area.Steps

/-!
# Questions about types

Whether a value may be stored somewhere, and what two types have in common, is asked without loading
a class. All that such a question can leave behind are array classes.
-/

namespace Linkage

/-- An operation on the area that changes nothing but for array classes that it makes. -/
def MakesArrays {α : Type} (x : AreaM α) : Prop :=
  Performs Area.ArrayStep (fun _ => True) x fun _ _ => True

namespace MakesArrays

variable {α β : Type}

lemma pure (v : α) : MakesArrays (Pure.pure v) := Performs.pure fun _ _ => trivial

lemma bind {x : AreaM α} {f : α → AreaM β} (hx : MakesArrays x) (hf : ∀ v, MakesArrays (f v)) :
    MakesArrays (x >>= f) :=
  Performs.seq .true hx fun v _ => hf v

end MakesArrays

namespace Area.Carries

variable {step : Area → Area → Prop} {P : Area → Prop} {N : Class → Area → Prop}
  (h : Carries step P N)
include h

lemma find (m : Mention) : Performs step P m.find fun _ _ => True := by
  cases m with
  | loaded c => exact .pure fun _ _ => trivial
  | symbolic r => exact (h.findLoaded _ _).weaken (fun _ h => h) fun _ _ _ => trivial

omit h in
lemma shapeAssignable (t dest : ReferenceType) {element : Mention → AreaM Assignable}
    (helement : ∀ m, Performs step P (element m) fun _ _ => True) :
    Performs step P (t.shapeAssignable dest element) fun _ _ => True := by
  unfold ReferenceType.shapeAssignable
  split
  · split <;> exact .pure fun _ _ => trivial
  · split
    · exact .pure fun _ _ => trivial
    · split
      · exact .pure fun _ _ => trivial
      · exact .pure fun _ _ => trivial
      · split
        · exact .pure fun _ _ => trivial
        · split
          · exact .pure fun _ _ => trivial
          · exact helement _

lemma classAssignable (value dest : Mention) :
    Performs step P (ReferenceType.classAssignable value dest) fun _ _ => True := by
  induction hn : dest.depth using Nat.strongRecOn generalizing value dest with
  | ind n ih =>
    subst hn
    rw [ReferenceType.classAssignable]
    split
    · exact .pure fun _ _ => trivial
    · refine Performs.seq h.stable (h.find value) fun v _ => ?_
      refine Performs.seq h.stable (h.find dest) fun d _ => ?_
      split
      · exact .pure fun _ _ => trivial
      · split
        · next e he =>
          exact shapeAssignable _ _ fun m =>
            ih _ (ReferenceType.depth_of_elementClass he) m e rfl
        · exact shapeAssignable _ _ fun _ => .pure fun _ _ => trivial

lemma assignableToClass (t : ReferenceType) (dest : Mention) :
    Performs step P (t.assignableToClass dest) fun _ _ => True := by
  unfold ReferenceType.assignableToClass
  induction t.branches with
  | nil => exact .pure fun _ _ => trivial
  | cons m ms ih =>
    refine Performs.seq h.stable (h.classAssignable m dest) fun _ _ => ?_
    exact Performs.seq h.stable ih fun _ _ => .pure fun _ _ => trivial

lemma valueAssignable (t : ValueType) (dest : Mention) :
    Performs step P (t.assignableToClass dest) fun _ _ => True := by
  unfold ValueType.assignableToClass
  split
  · exact .pure fun _ _ => trivial
  · exact h.assignableToClass _ dest
  · exact .pure fun _ _ => trivial

lemma assignable (t dest : ValueType) : Performs step P (t.assignable dest) fun _ _ => True := by
  unfold ValueType.assignable
  split <;> first | exact .pure fun _ _ => trivial | exact h.assignableToClass _ _

/-- The element of an array type, if it is a class and not only a name, was handed on. -/
lemma findElement (m : Option Mention) :
    Performs step (fun a => P a ∧ ∀ c, m = some (.loaded c) → N c a) (ReferenceType.findElement m)
      fun v a => ∀ c ∈ v, N c a := by
  match m with
  | none => exact .pure fun _ _ => by simp
  | some (.loaded c) =>
    refine .pure fun a ha x hx => ?_
    cases hx
    exact ha.2 c rfl
  | some (.symbolic r) => exact (h.findLoaded _ _).weaken (fun _ ha => ha.1) fun _ _ hv => hv

/-- What two types have in common is found among the superclasses of a class. -/
lemma commonArray (hup : ∀ a c s, N c a → s ∈ c.superclasses → N s a) (t u : ReferenceType) :
    Performs step (fun a => P a ∧ ∀ c, t.elementClass = some (.loaded c) → N c a)
      (t.commonArray u) fun _ _ => True := by
  have hstable : Stable step fun a => P a ∧ ∀ c, t.elementClass = some (.loaded c) → N c a :=
    fun a b hstep ha => ⟨h.stable a b hstep ha.1,
      fun c hc => (h.carried c a b hstep ⟨ha.1, ha.2 c hc⟩).2⟩
  have hsecond : Performs step P (ReferenceType.findElement u.elementClass) fun _ _ => True := by
    unfold ReferenceType.findElement
    split
    · exact h.find _
    · exact .pure fun _ _ => trivial
  unfold ReferenceType.commonArray
  refine Performs.bind_stable hstable (h.findElement t.elementClass) fun x => ?_
  match x with
  | none =>
    refine Performs.weaken (P := P) (Q := fun _ _ => True) ?_ (fun _ ha => ha.1.1) fun _ _ h => h
    refine Performs.seq h.stable hsecond fun y _ => ?_
    exact Performs.bind .get fun _ => .pure fun _ _ => trivial
  | some x =>
    refine Performs.weaken (P := fun a => P a ∧ N x a) (Q := fun _ _ => True) ?_
      (fun _ ha => ⟨ha.1.1, ha.2 x rfl⟩) fun _ _ h => h
    refine Performs.seq (h.carried x) (hsecond.weaken (fun _ ha => ha.1) fun _ _ h => h)
      fun y _ => ?_
    refine Performs.bind .get fun s => ?_
    refine Performs.weaken (P := fun a => P a ∧ N x a) (Q := fun _ _ => True) ?_
      (fun _ ha => ha.2) fun _ _ h => h
    match y with
    | none => exact .pure fun _ _ => trivial
    | some y =>
      dsimp only
      split
      · next common hcommon =>
        have hmem : common ∈ x.superclasses := by
          split at hcommon
          · unfold Class.commonSuperclass? at hcommon
            split at hcommon
            · cases hcommon
            · exact List.mem_of_find?_eq_some hcommon
          · cases hcommon
        exact (h.arrayOfDimension? common _).weaken
          (fun a ha => ⟨ha.1, hup a x common ha.2 hmem⟩) fun _ _ _ => trivial
      · exact .pure fun _ _ => trivial

lemma merge (hup : ∀ a c s, N c a → s ∈ c.superclasses → N s a) (t u : ReferenceType) :
    Performs step (fun a => P a ∧ ∀ c, t.elementClass = some (.loaded c) → N c a)
      (t.merge u) fun _ _ => True := by
  have hsupertype : Performs step (fun a => P a ∧ ∀ c, t.elementClass = some (.loaded c) → N c a)
      (t.commonSupertype u) fun _ _ => True := by
    unfold ReferenceType.commonSupertype
    refine Performs.bind .get fun s => ?_
    refine Performs.weaken (Q := fun _ _ => True) ?_ (fun _ ha => ha.2) fun _ _ h => h
    split
    · exact h.commonArray hup t u
    · refine Performs.weaken (P := P) (Q := fun _ _ => True) ?_ (fun _ ha => ha.1) fun _ _ h => h
      split
      · exact .pure fun _ _ => trivial
      · refine Performs.seq h.stable (h.find _) fun x _ => ?_
        refine Performs.seq h.stable (h.find _) fun y _ => ?_
        split <;> exact .pure fun _ _ => trivial
  unfold ReferenceType.merge
  split
  · exact .pure fun _ _ => trivial
  · split
    · exact .pure fun _ _ => trivial
    · refine Performs.bind hsupertype fun c => ?_
      split <;> exact .pure fun _ _ => trivial

/-- Joining two types of which the first is over a class that was handed on, if over an array. -/
lemma mergeTypes (hup : ∀ a c s, N c a → s ∈ c.superclasses → N s a) (t u : ValueType) :
    Performs step
      (fun a => P a ∧ ∀ r c, t = .reference r → r.elementClass = some (.loaded c) → N c a)
      (t.merge u) fun _ _ => True := by
  unfold ValueType.merge
  split
  case h_7 r s =>
    refine Performs.bind (Q := fun _ _ => True)
      ((h.merge hup r s).weaken (fun _ ha => ⟨ha.1, fun c => ha.2 r c rfl⟩) fun _ _ _ => trivial)
      fun _ => .pure fun _ _ => trivial
  all_goals exact .pure fun _ _ => trivial

end Area.Carries

lemma MakesArrays.find (m : Mention) : MakesArrays m.find := Area.carries_arraySteps.find m

namespace ValueType

lemma makesArrays_assignableToClass (t : ValueType) (dest : Mention) :
    MakesArrays (t.assignableToClass dest) :=
  Area.carries_arraySteps.valueAssignable t dest

lemma makesArrays_assignable (t dest : ValueType) : MakesArrays (t.assignable dest) :=
  Area.carries_arraySteps.assignable t dest

lemma makesArrays_merge (a b : ValueType) : MakesArrays (a.merge b) :=
  (Area.carries_arraySteps.mergeTypes (fun _ _ _ _ _ => trivial) a b).weaken
    (fun _ _ => ⟨trivial, fun _ _ _ _ => trivial⟩) fun _ _ h => h

end ValueType

end Linkage
