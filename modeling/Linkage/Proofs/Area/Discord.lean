import Linkage.Proofs.Area.Agreement
import Linkage.Proofs.Area.Lasting

/-!
# Loaders that disagree

What a plain name means to a loader is settled once its group is bound to a class or the loader has
one. Nothing that happens later unsettles it: groups are only ever put together if they agree, and a
group that is bound stays bound. So two loaders that were once found to disagree on a name disagree
for ever, and every later attempt to make them agree fails in the same way.
-/

namespace Linkage

open Relation

namespace Constraints

variable {t t' : Constraints} {l x y : LoaderId} {c d : Class} {n : String}

/-- The group of the loader is bound to the class. -/
def Tied (gs : List LoaderGroup) (l : LoaderId) (c : Class) : Prop :=
  ∃ g ∈ gs, l ∈ g.loaders ∧ ∃ d, g.bound = some d ∧ d.same c = true

lemma Tied.bind (h : Tied (t.groupsOf n) x d) (l : LoaderId) (c : Class) :
    Tied ((t.bind l c).groupsOf n) x d := by
  obtain ⟨g, hg, hx, e, he, hsame⟩ := h
  obtain ⟨k, hk⟩ := List.getElem?_of_mem hg
  have hbind := getElem?_groupsOf_bind t l c n k
  rw [hk] at hbind
  split at hbind
  · exact ⟨_, List.mem_of_getElem? hbind, hx, e, by simp [he], hsame⟩
  · exact ⟨g, List.mem_of_getElem? hbind, hx, e, he, hsame⟩

lemma Tied.accept (h : Tied (t.groupsOf n) x d) (haccept : t.accept l c = .ok t') :
    Tied (t'.groupsOf n) x d := by
  obtain ⟨rfl, -⟩ := accept_eq_ok haccept
  exact h.bind l c

/-- A group that is put together with another stays bound, for the other agrees. -/
lemma Tied.add {found : LoaderId → Option Class} {changed : Bool}
    (hdisjoint : (t.groupsOf n).Pairwise fun g h => ∀ l ∈ g.loaders, l ∉ h.loaders)
    (h : Tied (t.groupsOf n) l c) (hadd : t.add n x y found = .ok (changed, t')) :
    Tied (t'.groupsOf n) l c := by
  rcases add_eq_ok hadd with ⟨-, rfl⟩ | ⟨hnew, bound, rfl, hbound⟩
  · exact h
  obtain ⟨taken, rest, joined, hperm, hgroups, rfl, hloaders, htaken, -⟩ :=
    exists_join hdisjoint hnew bound
  obtain ⟨g, hg, hl, d, hd, hsame⟩ := h
  rw [hgroups]
  rcases List.mem_append.1 (hperm.subset hg) with hmem | hmem
  · have hjoined : l ∈ joined.loaders := (hloaders l).2 (.inr (.inr ⟨g, hmem, hl⟩))
    obtain ⟨z, hz, hgroup⟩ : ∃ z, (z = x ∨ z = y) ∧ t.group? n z = some g :=
      (htaken g hmem).elim (fun h => ⟨x, .inl rfl, h⟩) fun h => ⟨y, .inr rfl, h⟩
    obtain ⟨e, he, hed⟩ := hbound z d hz (by simp [bound?, hgroup, hd])
    refine ⟨joined, by simp, hjoined, e, he, ?_⟩
    exact Class.same_iff.2 ((Class.same_iff.1 hed).trans (Class.same_iff.1 hsame))
  · exact ⟨g, List.mem_append_left _ hmem, hl, d, hd, hsame⟩

lemma group?_of_mem
    (hdisjoint : (t.groupsOf n).Pairwise fun g h => ∀ l ∈ g.loaders, l ∉ h.loaders)
    {g : LoaderGroup} (hg : g ∈ t.groupsOf n) (hl : l ∈ g.loaders) : t.group? n l = some g := by
  obtain ⟨k, hk⟩ := List.getElem?_of_mem hg
  obtain ⟨g', hk', hgroup, -⟩ := groupIndex?_eq_some (groupIndex?_of_mem hdisjoint hk hl)
  rw [hgroup, ← hk, hk']

lemma tied_of_bound? (h : t.bound? n l = some c) : Tied (t.groupsOf n) l c := by
  obtain ⟨g, hgroup, hbound⟩ := Option.bind_eq_some_iff.1 h
  exact ⟨g, List.mem_of_find?_eq_some hgroup, by simpa using List.find?_some hgroup, c, hbound,
    c.same_self⟩

/-- Making two loaders agree fails exactly if they are known to have different classes. -/
lemma add_eq_error {found : LoaderId → Option Class} {e : Fault} :
    t.add n x y found = .error e ↔
      t.related n x y = false ∧ e = .loadersDisagree x y n ∧
      ∃ c d, (t.bound? n x).or (found x) = some c ∧ (t.bound? n y).or (found y) = some d ∧
        c.same d = false := by
  unfold add
  cases t.related n x y with
  | true => simp
  | false =>
    simp only [Bool.false_eq_true, if_false, true_and]
    cases (t.bound? n x).or (found x) with
    | none => simp
    | some c =>
      cases (t.bound? n y).or (found y) with
      | none => simp
      | some d =>
        simp only [Option.some.injEq]
        split
        · next hsame =>
          refine ⟨by rintro ⟨⟩, ?_⟩
          rintro ⟨-, _, _, rfl, rfl, hne⟩
          rw [hsame] at hne
          cases hne
        · next hsame =>
          refine ⟨?_, fun h => by rw [h.1]⟩
          rintro ⟨⟩
          exact ⟨rfl, c, d, rfl, rfl, by simpa using hsame⟩

end Constraints

open Constraints

namespace Area

variable {a b : Area} {n : String} {x y l : LoaderId} {c d : Class}

/-- The name means the class to the loader: the loader has it, or its group is bound to it. -/
def Means (n : String) (l : LoaderId) (c : Class) (a : Area) : Prop :=
  a.published? l n = some c ∨ Tied (a.constraints.groupsOf n) l c

/-- No step changes what a name means to a loader. -/
lemma means_stable (n : String) (l : LoaderId) (c : Class) :
    Stable Step fun a => (a.Sound ∧ a.ApartOn n) ∧ Means n l c a := by
  rintro a b hstep ⟨⟨hsound, hapart⟩, hmeans⟩
  refine ⟨⟨sound_stable a b hstep hsound, apartOn_stable n a b hstep hapart⟩, ?_⟩
  rcases hmeans with hc | htied
  · exact .inl (kept_of_steps (.single hstep) hsound hc)
  refine .inr ?_
  cases hstep with
  | array hstep =>
    cases hstep with
    | identity => exact htied
    | array => exact htied
  | enter | leave | counted | phase | addLoader | define => exact htied
  | record _ haccept => exact htied.accept haccept
  | accept haccept => exact htied.accept haccept
  | @constrain name _ _ _ _ _ _ hadd =>
    by_cases hname : n = name
    · subst hname
      exact htied.add hapart hadd
    · rwa [groupsOf_add hadd hname]

/-- The group of a loader to which a plain name means a class is bound to that class. -/
lemma Agrees.bound_of_means (h : a.Agrees) (hn : IsPlain n) (hmeans : Means n l c a)
    {g : LoaderGroup} (hg : g ∈ a.constraints.groupsOf n) (hl : l ∈ g.loaders) :
    ∃ d, g.bound = some d ∧ d.same c = true := by
  rcases hmeans with hc | ⟨g', hg', hl', hbound⟩
  · exact (h n hn).bound g hg l hl c hc
  · have heq := group?_of_mem (h.apartOn hn) hg hl
    rw [group?_of_mem (h.apartOn hn) hg' hl'] at heq
    cases heq
    exact hbound

/-- What is known of a loader that is to agree on a plain name is what the name means to it. -/
lemma Agrees.known (h : a.Agrees) (hn : IsPlain n) (hmeans : Means n l c a) (found : Option Class)
    (hfound : a.constraints.bound? n l = none → found = a.published? l n) :
    ∃ d, (a.constraints.bound? n l).or found = some d ∧ d.same c = true := by
  cases hgroup : a.constraints.group? n l with
  | some g =>
    obtain ⟨d, hd, hsame⟩ := h.bound_of_means hn hmeans (List.mem_of_find?_eq_some hgroup)
      (by simpa using List.find?_some hgroup)
    exact ⟨d, by simp [bound?, hgroup, hd], hsame⟩
  | none =>
    have hnone : a.constraints.bound? n l = none := by simp [bound?, hgroup]
    rcases hmeans with hc | ⟨g, hg, hl, -⟩
    · exact ⟨c, by rw [hnone, hfound hnone, hc]; rfl, c.same_self⟩
    · rw [group?_of_mem (h.apartOn hn) hg hl] at hgroup
      cases hgroup

/-- To two loaders the name means different classes. -/
def Discord (n : String) (x y : LoaderId) (a : Area) : Prop :=
  ∃ c d, Means n x c a ∧ Means n y d a ∧ c.same d = false

lemma discord_of_steps (hsteps : ReflTransGen Step a b) (hsound : a.Sound) (hapart : a.ApartOn n)
    (h : Discord n x y a) : Discord n x y b := by
  obtain ⟨c, d, hc, hd, hne⟩ := h
  exact ⟨c, d, ((means_stable n x c).reflTransGen hsteps ⟨⟨hsound, hapart⟩, hc⟩).2,
    ((means_stable n y d).reflTransGen hsteps ⟨⟨hsound, hapart⟩, hd⟩).2, hne⟩

lemma not_same_of_same {c' d' : Class} (hne : c.same d = false) (hc : c'.same c = true)
    (hd : d'.same d = true) : c'.same d' = false := by
  rw [Class.same_iff] at hc hd
  rw [← Bool.not_eq_true, Class.same_iff] at hne ⊢
  rwa [hc, hd]

/-- Loaders that disagree on a name do not have to agree on it. -/
lemma Agrees.not_related (h : a.Agrees) (hn : IsPlain n) (hdiscord : Discord n x y a) :
    a.constraints.related n x y = false := by
  obtain ⟨c, d, hc, hd, hne⟩ := hdiscord
  rw [← Bool.not_eq_true]
  intro hrelated
  rcases together_of_related hrelated with rfl | ⟨g, hg, hx, hy⟩
  · obtain ⟨e, he, hec⟩ := h.known hn hc (a.published? x n) fun _ => rfl
    obtain ⟨e', he', hed⟩ := h.known hn hd (a.published? x n) fun _ => rfl
    cases he.symm.trans he'
    exact Bool.false_ne_true ((not_same_of_same hne hec hed).symm.trans e.same_self)
  · obtain ⟨e, he, hec⟩ := h.bound_of_means hn hc hg hx
    obtain ⟨e', he', hed⟩ := h.bound_of_means hn hd hg hy
    cases he.symm.trans he'
    exact Bool.false_ne_true ((not_same_of_same hne hec hed).symm.trans e.same_self)

/-- What a loader answers about a plain name, asked only if its group is not bound. -/
def answer? (a : Area) (n : String) (l : LoaderId) : Option Class :=
  if (a.constraints.bound? n l).isSome then none else a.published? l n

lemma answer?_of_none (h : a.constraints.bound? n l = none) : a.answer? n l = a.published? l n := by
  simp [answer?, h]

lemma askLoaded_plain (hn : IsPlain n) (l : LoaderId) :
    askLoaded a.constraints n l a = .ok (a.answer? n l) a := by
  unfold askLoaded answer?
  split
  · rfl
  · exact findLoaded_of_isPlain hn l a

/-- Making loaders agree on a plain name is up to the constraints. -/
lemma addConstraint_plain (hn : IsPlain n) (hnew : a.constraints.related n x y = false) :
    addConstraint n x y (fun l => findLoaded l n) a =
      match a.constraints.add n x y (a.answer? n) with
      | .error e => .error e a
      | .ok (changed, t) => .ok changed { a with constraints := t } := by
  rw [addConstraint_of_not_related hnew, bind_of_ok (askLoaded_plain hn x),
    bind_of_ok (askLoaded_plain hn y)]
  have hadd : (a.constraints.add n x y fun l => if l = x then a.answer? n x else a.answer? n y) =
      a.constraints.add n x y (a.answer? n) := by
    have hy : (if y = x then a.answer? n x else a.answer? n y) = a.answer? n y := by
      split
      · next h => rw [h]
      · rfl
    simp only [add, hy, if_true]
  rw [hadd]
  cases a.constraints.add n x y (a.answer? n) <;> rfl

/-- Loaders that disagree on a name cannot be made to agree on it. -/
lemma Agrees.addConstraint_of_discord (h : a.Agrees) (hn : IsPlain n)
    (hdiscord : Discord n x y a) :
    addConstraint n x y (fun l => findLoaded l n) a = .error (.loadersDisagree x y n) a := by
  have hnew := h.not_related hn hdiscord
  obtain ⟨c, d, hc, hd, hne⟩ := hdiscord
  obtain ⟨c', hc', hcsame⟩ := h.known hn hc _ answer?_of_none
  obtain ⟨d', hd', hdsame⟩ := h.known hn hd _ answer?_of_none
  have hadd : a.constraints.add n x y (a.answer? n) = .error (.loadersDisagree x y n) :=
    add_eq_error.2 ⟨hnew, rfl, c', d', hc', hd', not_same_of_same hne hcsame hdsame⟩
  rw [addConstraint_plain hn hnew, hadd]

/-- Loaders that cannot be made to agree on a plain name disagree on it. -/
lemma discord_of_addConstraint (hn : IsPlain n) {e : Fault}
    (h : addConstraint n x y (fun l => findLoaded l n) a = .error e b) :
    e = .loadersDisagree x y n ∧ b = a ∧ Discord n x y a := by
  have hmeans : ∀ z c, (a.constraints.bound? n z).or (a.answer? n z) = some c → Means n z c a := by
    intro z c hc
    cases hbound : a.constraints.bound? n z with
    | some d =>
      rw [hbound] at hc
      cases hc
      exact .inr (tied_of_bound? hbound)
    | none =>
      rw [hbound, Option.none_or, answer?_of_none hbound] at hc
      exact .inl hc
  cases hrelated : a.constraints.related n x y with
  | true =>
    rw [addConstraint_of_related hrelated] at h
    cases h
  | false =>
    rw [addConstraint_plain hn hrelated] at h
    cases hadd : a.constraints.add n x y (a.answer? n) with
    | ok r =>
      rw [hadd] at h
      cases h
    | error e' =>
      rw [hadd] at h
      cases h
      obtain ⟨-, rfl, c, d, hc, hd, hne⟩ := add_eq_error.1 hadd
      exact ⟨rfl, rfl, c, d, hmeans x c hc, hmeans y d hd, hne⟩

end Area

end Linkage
