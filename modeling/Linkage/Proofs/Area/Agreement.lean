import Linkage.Proofs.Area.Steps

/-!
# Constraints and loaded classes

The loading constraints of an area agree with the tables of its loaders, for every class name that
is not the name of an array class. No step breaks the agreement, and no step separates two loaders
that have to agree, on whatever name.
-/

namespace Linkage

open Relation Constraints

namespace Area

variable {a b : Area}

/-- The groups of every plain name agree with what the loaders have under it. -/
def Agrees (a : Area) : Prop :=
  ∀ n, IsPlain n → Agree (a.constraints.groupsOf n) fun l => a.published? l n

/-- Two loaders have to agree on a name. -/
def Bound (n : String) (x y : LoaderId) (a : Area) : Prop :=
  x = y ∨ Together (a.constraints.groupsOf n) x y

lemma initial_agrees : initial.Agrees := by
  intro n _
  exact ⟨List.Pairwise.nil, fun g hg => by cases hg⟩

/-- Array classes have no plain names. -/
lemma published?_withArray {n : String} (hn : IsPlain n) (l l' : LoaderId) (d : ClassData)
    (s : Class) (is : List Class) (component : Class) :
    (a.withClass l (.array d s is component)).published? l' n = a.published? l' n := by
  rw [published?_withClass, if_neg]
  rintro ⟨-, hname, -⟩
  exact Class.not_isPlain_array d s is component (hname ▸ hn)

lemma groupsOf_accept {t t' : Constraints} {l : LoaderId} {c : Class} {n : String}
    (h : t.accept l c = .ok t') (hn : n ≠ c.name) : t'.groupsOf n = t.groupsOf n := by
  obtain ⟨rfl, -⟩ := accept_eq_ok h
  simp [Constraints.bind, groupsOf, hn.symm]

lemma groupsOf_add {t t' : Constraints} {name n : String} {x y : LoaderId}
    {found : LoaderId → Option Class} {changed : Bool}
    (h : t.add name x y found = .ok (changed, t')) (hn : n ≠ name) :
    t'.groupsOf n = t.groupsOf n := by
  rcases add_eq_ok h with ⟨-, rfl⟩ | ⟨-, bound, rfl, -⟩
  · rfl
  · rw [groupsOf_join, if_neg hn.symm]

/-- What the constraints let a loader have, it may get or not. -/
lemma Agrees.accept (h : a.Agrees) {l : LoaderId} {c : Class} {t : Constraints}
    (haccept : a.constraints.accept l c = .ok t) :
    Agrees { a.withClass l c with constraints := t } := by
  intro n hn
  have hpublished : ∀ x d, (a.withClass l c).published? x n = some d →
      (if x = l ∧ n = c.name then (a.published? l n).or (some c) else a.published? x n) =
        some d := by
    intro x d hd
    rw [published?_withClass] at hd
    by_cases hx : x = l ∧ n = c.name
    · obtain ⟨rfl, rfl⟩ := hx
      cases hp : a.published? x c.name <;> simp_all
    · rw [if_neg hx]
      rwa [if_neg fun hcond => hx ⟨hcond.1.symm, hcond.2.1.symm⟩] at hd
  by_cases hname : n = c.name
  · subst hname
    refine ((h c.name hn).accept haccept).mono fun x d hd => ?_
    simpa using hpublished x d hd
  · refine Agree.mono ?_ fun x d hd => hpublished x d hd
    simpa [hname, groupsOf_accept haccept hname] using h n hn

/-- Every step keeps the agreement. -/
lemma agrees_stable : Stable Step Agrees := by
  intro a b hstep h
  cases hstep with
  | array hstep =>
    cases hstep with
    | identity => exact h
    | array d s is component =>
      intro n hn
      simpa only [published?_withArray hn, withClass_constraints] using h n hn
  | enter | leave | counted | phase => exact h
  | record _ haccept => exact h.accept haccept
  | accept haccept =>
    intro n hn
    refine (h.accept haccept n hn).mono fun x d hd => ?_
    change (a.withClass _ _).published? x n = some d
    rw [published?_withClass]
    split
    · rw [show a.published? x n = some d from hd]
      rfl
    · exact hd
  | @constrain name _ _ _ _ _ hfound hadd =>
    intro n hn
    by_cases hname : n = name
    · subst hname
      exact (h n hn).add (hfound hn) hadd
    · rw [groupsOf_add hadd hname]
      exact h n hn
  | addLoader parent childFirst =>
    intro n hn
    refine (h n hn).mono fun x d hd => ?_
    rw [published?_addLoader] at hd
    split at hd
    · cases hd
    · exact hd
  | define l d =>
    intro n hn
    simpa only [published?_define, define_constraints] using h n hn

/-- No loader is in two groups of a name. -/
def ApartOn (n : String) (a : Area) : Prop :=
  (a.constraints.groupsOf n).Pairwise fun g h => ∀ l ∈ g.loaders, l ∉ h.loaders

lemma Agrees.apartOn (h : a.Agrees) {n : String} (hn : IsPlain n) : a.ApartOn n := (h n hn).disjoint

lemma initial_apartOn (n : String) : initial.ApartOn n := List.Pairwise.nil

/-- No step puts a loader into a second group. -/
lemma apartOn_stable (n : String) : Stable Step (ApartOn n) := by
  intro a b hstep h
  have haccept : ∀ {l c t}, a.constraints.accept l c = .ok t →
      (t.groupsOf n).Pairwise fun g h => ∀ l ∈ g.loaders, l ∉ h.loaders := by
    intro l c t haccept
    obtain ⟨rfl, -⟩ := accept_eq_ok haccept
    exact pairwise_bind h l c
  cases hstep with
  | array hstep =>
    cases hstep with
    | identity => exact h
    | array => exact h
  | enter | leave | counted | phase | addLoader | define => exact h
  | record _ hrun => exact haccept hrun
  | accept hrun => exact haccept hrun
  | @constrain name _ _ _ _ _ _ hadd =>
    by_cases hname : n = name
    · subst hname
      rcases add_eq_ok hadd with ⟨-, rfl⟩ | ⟨hnew, bound, rfl, -⟩
      · exact h
      · -- Nothing has to be known about the classes of the loaders here.
        have hagree : Agree (a.constraints.groupsOf n) fun _ => none := ⟨h, by simp⟩
        exact (hagree.join hnew (by simp)).disjoint
    · unfold ApartOn
      rwa [groupsOf_add hadd hname]

/-- Every step leaves loaders together that have to agree on a name. -/
lemma bound_stable (n : String) (x y : LoaderId) :
    Stable Step fun a => a.ApartOn n ∧ Bound n x y a := by
  rintro a b hstep ⟨h, hbound⟩
  refine ⟨apartOn_stable n a b hstep h, ?_⟩
  rcases hbound with rfl | hbound
  · exact .inl rfl
  refine .inr ?_
  have haccept : ∀ {l c t}, a.constraints.accept l c = .ok t → Together (t.groupsOf n) x y := by
    intro l c t haccept
    obtain ⟨rfl, -⟩ := accept_eq_ok haccept
    exact hbound.bind l c
  cases hstep with
  | array hstep =>
    cases hstep with
    | identity => exact hbound
    | array => exact hbound
  | enter | leave | counted | phase | addLoader | define => exact hbound
  | record _ hrun => exact haccept hrun
  | accept hrun => exact haccept hrun
  | @constrain name _ _ _ _ _ _ hadd =>
    by_cases hname : n = name
    · subst hname
      rcases add_eq_ok hadd with ⟨-, rfl⟩ | ⟨hnew, bound, rfl, -⟩
      · exact hbound
      · exact hbound.join h hnew bound
    · change Together (Constraints.groupsOf _ n) x y
      rwa [groupsOf_add hadd hname]

/-- Loaders that have to agree are related in the table of constraints. -/
lemma ApartOn.related {n : String} (h : a.ApartOn n) {x y : LoaderId} (hbound : Bound n x y a) :
    a.constraints.related n x y = true := by
  rcases hbound with rfl | hbound
  · simp [Constraints.related]
  · exact related_of_together h hbound

/-- Two loaders that have to agree on a plain name have the same class under it. -/
lemma Agrees.same (h : a.Agrees) {n : String} (hn : IsPlain n) {x y : LoaderId}
    (hbound : Bound n x y a) {c d : Class} (hc : a.published? x n = some c)
    (hd : a.published? y n = some d) : c.same d = true := by
  rcases hbound with rfl | hbound
  · obtain rfl : c = d := by simpa [hc] using hd
    exact c.same_self
  · exact (h n hn).same hbound hc hd

/-- After two loaders were made to agree on a name, they have to. -/
lemma ApartOn.bound_of_addConstraint {n : String} (h : a.ApartOn n) {x y : LoaderId}
    {changed : Bool}
    (hrun : addConstraint n x y (fun l => findLoaded l n) a = .ok changed b) : Bound n x y b := by
  rcases addConstraint_cases n x y a with ⟨hrelated, hrun'⟩ | ⟨c, hc, ⟨e, hrun'⟩ |
    ⟨found, _, t, -, hadd, hrun'⟩⟩
  · rw [hrun] at hrun'
    cases hrun'
    exact together_of_related hrelated
  · rw [hrun] at hrun'
    cases hrun'
  · rw [hrun] at hrun'
    cases hrun'
    rw [ArrayStep.constraints_eq hc] at hadd
    rcases add_eq_ok hadd with ⟨hrelated, rfl⟩ | ⟨hnew, bound, rfl, -⟩
    · exact together_of_related hrelated
    · exact .inr (together_join h hnew bound)

end Area

end Linkage
