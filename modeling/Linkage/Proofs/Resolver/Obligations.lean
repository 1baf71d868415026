import Linkage.Proofs.Area.Partition
import Linkage.Proofs.Resolver.RecurMembers

/-!
# What a failed resolution leaves the loaders to agree on

The loaders of a method's class and of its caller's are made to agree on one name after the other,
and the resolution of the method may fail at each. There is no way back: nothing but demands that
were accepted changes who has to agree with whom, and a resolution that fails keeps those it had
accepted before.
-/

namespace Linkage

open Relation

/-! ### Demands on several names -/

namespace Constraints

variable {t t' t'' : Constraints} {n : String} {x y u v : LoaderId}

/-- Two loaders have to agree on a name, after `x` and `y` were made to agree on several names if
not before. -/
def MustAgree (t : Constraints) (names : List String) (x y : LoaderId) (n : String) :
    LoaderId → LoaderId → Prop :=
  EqvGen fun u v => v ∈ t.loadersOf n u ∨ n ∈ names ∧ u = x ∧ v = y

/-- In one table the loaders have to agree that do in another one, after two of them were made to
agree on several names, and no others. -/
structure Adds (t : Constraints) (names : List String) (x y : LoaderId) (t' : Constraints) : Prop
    where
  partitioned : t'.Partitioned
  mem_loadersOf : ∀ n u v, v ∈ t'.loadersOf n u ↔ t.MustAgree names x y n u v

lemma Partitioned.mustAgree_of_not_mem (h : t.Partitioned) {names : List String}
    (hn : n ∈ names → y ∈ t.loadersOf n x) : t.MustAgree names x y n u v ↔ v ∈ t.loadersOf n u := by
  rw [← (h.equivalence n).eqvGen_iff]
  refine ⟨fun htied => htied.mono ?_, fun hrel => hrel.mono fun _ _ hpq => Or.inl hpq⟩
  rintro p q (hpq | ⟨hmem, rfl, rfl⟩)
  · exact hpq
  · exact hn hmem

lemma Partitioned.adds_of_same (h : t'.Partitioned) (ht : t.Partitioned)
    (hsame : ∀ n u, t'.loadersOf n u = t.loadersOf n u) {names : List String}
    (hnames : ∀ n ∈ names, y ∈ t.loadersOf n x) : Adds t names x y t' :=
  ⟨h, fun n u v => by rw [ht.mustAgree_of_not_mem (hnames n), hsame]⟩

/-- Demands are accepted one after the other. -/
lemma Adds.cons {names : List String} (h : Adds t [n] x y t') (h' : Adds t' names x y t'') :
    Adds t (n :: names) x y t'' := by
  refine ⟨h'.partitioned, fun m u v => ?_⟩
  rw [h'.mem_loadersOf]
  unfold MustAgree
  constructor
  · intro htied
    refine (EqvGen.is_equivalence _).eqvGen_iff.1 (htied.mono ?_)
    rintro p q (hpq | ⟨hmem, hp, hq⟩)
    · refine ((h.mem_loadersOf m p q).1 hpq).mono ?_
      rintro p q (hpq | ⟨hmem, hp, hq⟩)
      · exact .inl hpq
      · exact .inr ⟨List.mem_singleton.1 hmem ▸ List.mem_cons_self, hp, hq⟩
    · exact .rel p q (.inr ⟨List.mem_cons_of_mem n hmem, hp, hq⟩)
  · intro htied
    refine htied.mono ?_
    rintro p q (hpq | ⟨hmem, rfl, rfl⟩)
    · exact .inl ((h.mem_loadersOf m p q).2 (.rel p q (.inl hpq)))
    · rcases List.mem_cons.1 hmem with rfl | hmem
      · exact .inl ((h.mem_loadersOf m p q).2
          (.rel p q (.inr ⟨List.mem_singleton_self m, rfl, rfl⟩)))
      · exact .inr ⟨hmem, rfl, rfl⟩

lemma Partitioned.adds_join (h : t.Partitioned) (hnew : t.related n x y = false)
    (bound : Option Class) : Adds t [n] x y (t.join n x y bound) := by
  have hjoined := h.join hnew bound
  refine ⟨hjoined, fun m u v => ?_⟩
  by_cases hm : n = m
  · subst hm
    constructor
    · intro huv
      refine (h.eqvGen_of_join hnew bound huv).mono ?_
      rintro p q (hpq | hpq)
      · exact .inl hpq
      · exact .inr ⟨List.mem_singleton_self n, hpq⟩
    · intro htied
      refine (hjoined.equivalence n).eqvGen_iff.1 (htied.mono ?_)
      rintro p q (hpq | ⟨-, rfl, rfl⟩)
      · rw [hjoined.mem_loadersOf]
        refine (h.mem_loadersOf.1 hpq).imp_right fun htogether => ?_
        exact htogether.join (h.disjoint n) hnew bound
      · rw [hjoined.mem_loadersOf]
        exact .inr (together_join (h.disjoint n) hnew bound)
  · have hother : (t.join n x y bound).loadersOf m u = t.loadersOf m u := by
      rw [loadersOf_eq, loadersOf_eq, groupsOf_join, if_neg hm]
    rw [hother, h.mustAgree_of_not_mem fun hmem => absurd (List.mem_singleton.1 hmem).symm hm]

/-- What an accepted demand changes. -/
lemma Partitioned.adds_of_add (h : t.Partitioned) {found : LoaderId → Option Class} {changed : Bool}
    (hadd : t.add n x y found = .ok (changed, t')) : Adds t [n] x y t' := by
  rcases add_eq_ok hadd with ⟨hrelated, rfl⟩ | ⟨hnew, bound, rfl, -⟩
  · refine h.adds_of_same h (fun _ _ => rfl) fun m hm => ?_
    rw [List.mem_singleton.1 hm]
    exact h.related_iff.1 hrelated
  · exact h.adds_join hnew bound

lemma Partitioned.of_accept (h : t.Partitioned) {l : LoaderId} {c : Class}
    (haccept : t.accept l c = .ok t') : t'.Partitioned := by
  rw [(accept_eq_ok haccept).1]
  exact h.bind l c

end Constraints

/-! ### What changes the groups -/

namespace Area

variable {a b : Area} {n : String} {x y : LoaderId}

/-- Every step keeps the groups apart. -/
lemma partitioned_stable : Stable Step fun a => a.constraints.Partitioned := by
  intro a b hstep h
  cases hstep with
  | array hstep => rwa [ArrayStep.constraints_eq (.single hstep)]
  | enter | leave | counted | phase | addLoader | define => exact h
  | record _ haccept => exact h.of_accept haccept
  | accept haccept => exact h.of_accept haccept
  | constrain _ hadd => exact (h.adds_of_add hadd).partitioned

/-- Loading makes no loaders agree. -/
lemma LoadStep.loadersOf_eq (h : LoadStep a b) (n : String) (l : LoaderId) :
    b.constraints.loadersOf n l = a.constraints.loadersOf n l := by
  cases h with
  | array hstep => rw [ArrayStep.constraints_eq (.single hstep)]
  | enter | leave | counted => rfl
  | record _ haccept =>
    obtain ⟨rfl, -⟩ := Constraints.accept_eq_ok haccept
    exact Constraints.loadersOf_bind _ _ _ n l

lemma loadersOf_of_sourced (h : ReflTransGen SourcedStep a b) (n : String) (l : LoaderId) :
    b.constraints.loadersOf n l = a.constraints.loadersOf n l := by
  induction h with
  | refl => rfl
  | tail _ hstep ih => rw [hstep.step.loadersOf_eq, ih]

/-- Asking what a loader has never fails. -/
lemma ArraysNamed.askLoaded (h : a.ArraysNamed) (t : Constraints) (n : String) (l : LoaderId) :
    ∃ v b, Area.askLoaded t n l a = .ok v b ∧ b.ArraysNamed := by
  unfold Area.askLoaded
  split
  · exact ⟨none, a, rfl, h⟩
  · obtain ⟨v, b, hfind, hb, -⟩ := h.findLoaded l n
    exact ⟨v, b, hfind, hb⟩

/-- A demand fails only because the loaders disagree, and nothing but array classes was asked for
then. -/
lemma ArraysNamed.addConstraint_eq_error (h : a.ArraysNamed) {e : Fault}
    (hrun : addConstraint n x y (fun l => Area.findLoaded l n) a = .error e b) :
    e = .loadersDisagree x y n ∧ ReflTransGen ArrayStep a b := by
  cases hrelated : a.constraints.related n x y with
  | true =>
    rw [addConstraint_of_related hrelated] at hrun
    cases hrun
  | false =>
    obtain ⟨forX, a₁, hforX, ha₁⟩ := h.askLoaded a.constraints n x
    obtain ⟨forY, a₂, hforY, -⟩ := ha₁.askLoaded a.constraints n y
    have hstepsX := (performs_askLoaded a.constraints n x a trivial).1
    have hstepsY := (performs_askLoaded a.constraints n y a₁ trivial).1
    rw [finalState_of_ok hforX] at hstepsX
    rw [finalState_of_ok hforY] at hstepsY
    rw [addConstraint_of_not_related hrelated, bind_of_ok hforX, bind_of_ok hforY] at hrun
    cases hadd : a.constraints.add n x y fun l => if l = x then forX else forY with
    | ok p =>
      rw [hadd] at hrun
      cases hrun
    | error e' =>
      rw [hadd] at hrun
      cases hrun
      obtain ⟨-, rfl, -⟩ := Constraints.add_eq_error.1 hadd
      exact ⟨rfl, hstepsX.trans hstepsY⟩

/-- A demand that is accepted changes no more than it says. -/
lemma adds_of_addConstraint (h : a.constraints.Partitioned) {changed : Bool}
    (hrun : addConstraint n x y (fun l => Area.findLoaded l n) a = .ok changed b) :
    Constraints.Adds a.constraints [n] x y b.constraints := by
  rcases addConstraint_cases n x y a with ⟨hrelated, hsame⟩ |
    ⟨a', hsteps, ⟨e, hfails⟩ | ⟨found, changed', t, -, hadd, hok⟩⟩
  · rw [hsame] at hrun
    cases hrun
    refine h.adds_of_same h (fun _ _ => rfl) fun m hm => ?_
    rw [List.mem_singleton.1 hm]
    exact h.related_iff.1 hrelated
  · rw [hfails] at hrun
    cases hrun
  · rw [hok] at hrun
    cases hrun
    rw [ArrayStep.constraints_eq hsteps] at hadd
    exact h.adds_of_add hadd

/-- What holds of the constraints and the tables in every state. -/
structure Grouped (a : Area) : Prop where
  partitioned : a.constraints.Partitioned
  arrays : a.ArraysNamed

lemma grouped_stable : Stable Step Grouped := fun a b hstep h =>
  ⟨partitioned_stable a b hstep h.partitioned, arraysNamed_stable a b hstep h.arrays⟩

lemma initial_grouped : initial.Grouped :=
  ⟨Constraints.partitioned_empty, initial_arraysNamed⟩

end Area

namespace Resolver

variable {r r' : Resolver} {declaring referer : Class} {n : String} {e : Fault}

/-! ### Making loaders agree -/

/-- Loaders that are made to agree on a name. Without constraints, or for one loader, there is
nothing to do. -/
lemma constrain_cases (n : String) (declaring referer : Class) (r : Resolver) :
    (r.config.loadingConstraints = false ∨ declaring.loader = referer.loader) ∧
      constrain n declaring referer r = .ok () r ∨
    constrain n declaring referer r = (do
      let _ ← onArea (Area.addConstraint n declaring.loader referer.loader fun l =>
        Area.findLoaded l n)
      return () : ResolverM Unit) r := by
  unfold constrain
  rw [bind_of_ok (get_apply r)]
  by_cases hneeded : r.config.loadingConstraints = true ∧ declaring.loader ≠ referer.loader
  · exact .inr (by rw [if_pos (by simpa using hneeded)])
  · refine .inl ⟨?_, by rw [if_neg (by simpa using hneeded)]; rfl⟩
    rw [← Bool.not_eq_true, ← not_ne_iff (b := referer.loader)]
    exact not_and_or.1 hneeded

lemma constrain_rejected (h : r.area.Grouped)
    (hfails : constrain n declaring referer r = .error e r') :
    e = .loadersDisagree declaring.loader referer.loader n ∧
      r'.area.constraints = r.area.constraints := by
  rcases constrain_cases n declaring referer r with ⟨-, hok⟩ | hrun
  · rw [hok] at hfails
    cases hfails
  · rw [hrun] at hfails
    rcases bind_eq_error.1 hfails with hfails | ⟨_, _, -, hpure⟩
    · obtain ⟨a, hadd, rfl⟩ := onArea_eq_error.1 hfails
      obtain ⟨rfl, hsteps⟩ := h.arrays.addConstraint_eq_error hadd
      exact ⟨rfl, Area.ArrayStep.constraints_eq hsteps⟩
    · cases hpure

lemma adds_of_constrain (h : r.area.Grouped) (hc : r.config.loadingConstraints = true)
    (hok : constrain n declaring referer r = .ok () r') :
    r.area.constraints.Adds [n] declaring.loader referer.loader r'.area.constraints := by
  rcases constrain_cases n declaring referer r with ⟨hnone, hsame⟩ | hrun
  · have hself := hnone.resolve_left (by simp [hc])
    rw [hsame] at hok
    cases hok
    refine h.partitioned.adds_of_same h.partitioned (fun _ _ => rfl) fun m _ => ?_
    rw [hself]
    exact (h.partitioned.equivalence m).refl _
  · rw [hrun] at hok
    obtain ⟨_, s, hadd, hpure⟩ := bind_eq_ok.1 hok
    cases hpure
    obtain ⟨a, hagreed, rfl⟩ := onArea_eq_ok.1 hadd
    exact Area.adds_of_addConstraint h.partitioned hagreed

/-- Where the constraints are switched off nothing is rejected. -/
lemma loadingConstraints_of_rejected {names : List String}
    (hfails : constrainAll declaring referer names r = .error e r') :
    r.config.loadingConstraints = true := by
  by_contra hoff
  have hall : constrainAll declaring referer names r = .ok () r := by
    clear hfails
    induction names with
    | nil => rfl
    | cons name names ih =>
      have hfirst : constrain name declaring referer r = .ok () r := by
        unfold constrain
        rw [bind_of_ok (get_apply r), if_neg (by simp [hoff])]
        rfl
      exact (bind_of_ok hfirst).trans ih
  rw [hall] at hfails
  cases hfails

/-- When loaders cannot be made to agree on one of several names, they were made to agree on those
before it, and on no others. -/
lemma constrainAll_rejected {names : List String} (hr : r.area.Sound) (h : r.area.Grouped)
    (hfails : constrainAll declaring referer names r = .error e r') :
    ∃ before name after, names = before ++ name :: after ∧
      e = .loadersDisagree declaring.loader referer.loader name ∧
      r.area.constraints.Adds before declaring.loader referer.loader r'.area.constraints := by
  have hc := loadingConstraints_of_rejected hfails
  induction names generalizing r with
  | nil => cases hfails
  | cons name names ih =>
    rcases bind_eq_error.1 hfails with hfirst | ⟨_, s, hfirst, hrest⟩
    · obtain ⟨rfl, hsame⟩ := constrain_rejected h hfirst
      refine ⟨[], name, names, rfl, rfl, ?_⟩
      rw [hsame]
      exact h.partitioned.adds_of_same h.partitioned (fun _ _ => rfl) (by simp)
    · have hs := evolves_of_ok hfirst (covers_built.constrain _ _ _) hr
      obtain ⟨before, name', after, rfl, rfl, hadds⟩ :=
        ih (hs.sound hr) (Area.grouped_stable.reflTransGen hs.area h) hrest (hs.config ▸ hc)
      exact ⟨name :: before, name', after, rfl, rfl, (adds_of_constrain h hc hfirst).cons hadds⟩

/-! ### Methods -/

/-- Once the loaders agree, a method is given. -/
lemma fails_giveMethod {u : MethodUse} {m : MethodHandle} (hr : r.area.Sound) (h : r.area.Grouped)
    (hfails : Fails (giveMethod u m) r e r') :
    constrainAll m.owner u.referer (agreedNames m) r = .error e r' := by
  rcases fails_bind.1 hfails with hrejected | ⟨_, s, hagreed, hrest⟩
  · exact fails_lift.1 hrejected
  · have hs := (gives_lift.1 hagreed)
    have hlater := evolves_of_ok hs (covers_built.constrainAll _ _ _) hr
    have hgrouped := Area.grouped_stable.reflTransGen hlater.area h
    split at hrest
    · rcases fails_bind.1 hrest with hrest | ⟨_, _, -, hrest⟩
      · exact absurd hrest fails_pure
      · exact absurd hrest (not_fails_reported _ _ _ _ _)
    · rcases fails_bind.1 hrest with hrest | ⟨_, _, -, hrest⟩
      · exact absurd (fails_lift.1 hrest) (devirtualize_ne_error hgrouped.arrays _ _)
      · exact absurd hrest (not_fails_reported _ _ _ _ _)

/-- What a failed resolution of a method use leaves. Whatever fails before the loaders are to agree,
whatever was loaded until then, the same loaders have to agree as before. After that nothing fails
but a demand that is rejected, for the loaders disagree on a name; then the demands on the names
before it stand, and who has to agree with whom is what those tie together, no more and no less. -/
theorem loaders_tied_after_failed_method {start : Resolver} (hstart : start.area = Area.initial)
    (hrun : Run start r) {u : MethodUse} {mode : ResolveMode}
    (h : Fails (resolveMethod u mode) r e r') :
    (Fails (checkedMethod u mode) r e r' ∧
      ∀ n l, r'.area.constraints.loadersOf n l = r.area.constraints.loadersOf n l) ∨
    ∃ m s before name after, Gives (checkedMethod u mode) r m s ∧
      agreedNames m = before ++ name :: after ∧
      e = .loadersDisagree m.owner.loader u.referer.loader name ∧
      ∀ n l x, x ∈ r'.area.constraints.loadersOf n l ↔
        r.area.constraints.MustAgree before m.owner.loader u.referer.loader n l x := by
  have hevolves := hrun.evolves (hstart ▸ Area.initial_sound)
  have hr : r.area.Sound := hevolves.sound (hstart ▸ Area.initial_sound)
  have hgrouped : r.area.Grouped :=
    Area.grouped_stable.reflTransGen hevolves.area (hstart ▸ Area.initial_grouped)
  have hsteps := asks_sources.checkedMethod u mode r hr
  rw [resolveMethod_eq] at h
  rcases fails_bind.1 h with hchecked | ⟨m, s, hm, hgive⟩
  · rw [finalState_of_error hchecked] at hsteps
    exact .inl ⟨hchecked, Area.loadersOf_of_sourced hsteps⟩
  · have hs := hm.evolves (covers_built.checkedMethod u mode) hr
    rw [finalState_of_ok hm] at hsteps
    have hgroupedS := Area.grouped_stable.reflTransGen hs.area hgrouped
    obtain ⟨before, name, after, hnames, rfl, hadds⟩ :=
      constrainAll_rejected (hs.sound hr) hgroupedS (fails_giveMethod (hs.sound hr) hgroupedS hgive)
    refine .inr ⟨m, s, before, name, after, hm, hnames, rfl, fun n l x => ?_⟩
    rw [hadds.mem_loadersOf, Constraints.MustAgree, Constraints.MustAgree]
    simp only [Area.loadersOf_of_sourced hsteps]

/-! ### A demand that stands -/

/-- A loader and one that asks it last have different classes of one name. A class of the first one
declares a method that speaks of this name and of another one, and the second loader has a class
that is to call it. -/
def twoLibraries : List Operation :=
  [.addLoader .bootstrap false, .addLoader ⟨1⟩ true,
    .define ⟨1⟩ { name := "lib/T", flags := Flag.accPublic.mask },
    .define ⟨1⟩
      { name := "lib/Api"
        flags := Flag.accPublic.mask
        methods := [⟨Flag.accPublic.mask ||| Flag.accStatic.mask, "make",
          ⟨[.object "lib/A"], .value (.object "lib/T")⟩⟩] },
    .define ⟨2⟩ { name := "lib/T", flags := Flag.accPublic.mask },
    .define ⟨2⟩
      { name := "app/User"
        flags := Flag.accPublic.mask
        methods := [⟨Flag.accPublic.mask, "run", ⟨[], .void⟩⟩] },
    .load ⟨1⟩ "lib/T", .load ⟨2⟩ "lib/T", .load ⟨2⟩ "app/User"]

/-- The resolver when all is there for the call. -/
def beforeRejection : Resolver := performAll twoLibraries { area := Area.initial }

/-- The call of the method. -/
def rejectedCall? : Option MethodUse :=
  (beforeRejection.area.published? ⟨2⟩ "app/User").bind fun c => (c.methodAt? 0).bind fun run =>
    (MethodUse.create run
      ⟨⟨c, "lib/Api"⟩, "make", ⟨[.object "lib/A"], .value (.object "lib/T")⟩, false⟩ true false none
      []).toOption

lemma exists_rejectedCall : ∃ u r' m s,
    Fails (resolveMethod u .eager) beforeRejection (.loadersDisagree ⟨1⟩ ⟨2⟩ "lib/T") r' ∧
    ⟨1⟩ ∈ r'.area.constraints.loadersOf "lib/A" ⟨2⟩ ∧
    ⟨1⟩ ∉ beforeRejection.area.constraints.loadersOf "lib/A" ⟨2⟩ ∧
    Gives (checkedMethod u .eager) beforeRejection m s ∧
    agreedNames m = ["lib/A", "lib/T", "lib/Api"] ∧ m.owner.loader = ⟨1⟩ ∧
    u.referer.loader = ⟨2⟩ := by
  have htest : (rejectedCall?.any fun u =>
      failsWhere (resolveMethod u .eager) (fun e r' =>
        e = .loadersDisagree ⟨1⟩ ⟨2⟩ "lib/T" &&
          ⟨1⟩ ∈ r'.area.constraints.loadersOf "lib/A" ⟨2⟩ &&
          ⟨1⟩ ∉ beforeRejection.area.constraints.loadersOf "lib/A" ⟨2⟩) beforeRejection &&
      givesWhere (checkedMethod u .eager) (fun m _ =>
        agreedNames m = ["lib/A", "lib/T", "lib/Api"] && m.owner.loader = ⟨1⟩ &&
          u.referer.loader = ⟨2⟩) beforeRejection) = true := by
    decide +kernel
  obtain ⟨u, -, htest⟩ := (Option.any_eq_true _ _).1 htest
  obtain ⟨hfails, hgives⟩ := Bool.and_eq_true_iff.1 htest
  obtain ⟨e, r', hr', hfails⟩ := exists_fails hfails
  obtain ⟨m, s, hm, hgives⟩ := exists_gives hgives
  simp only [Bool.and_eq_true, decide_eq_true_eq] at hfails hgives
  obtain ⟨⟨rfl, hafter⟩, hbefore⟩ := hfails
  obtain ⟨⟨hnames, howner⟩, hreferer⟩ := hgives
  exact ⟨u, r', m, s, hr', hafter, hbefore, hm, hnames, howner, hreferer⟩

/-- The demand on the type of the parameter stands, although the one on the result was rejected. -/
theorem loaders_tied_after_rejected_call : ∃ u r' m s,
    Fails (resolveMethod u .eager) beforeRejection (.loadersDisagree ⟨1⟩ ⟨2⟩ "lib/T") r' ∧
    Gives (checkedMethod u .eager) beforeRejection m s ∧
    agreedNames m = ["lib/A", "lib/T", "lib/Api"] ∧
    ∀ n l x, x ∈ r'.area.constraints.loadersOf n l ↔
      beforeRejection.area.constraints.MustAgree ["lib/A"] ⟨1⟩ ⟨2⟩ n l x := by
  obtain ⟨u, r', m, s, hfails, hafter, hbefore, hm, hnames, howner, hreferer⟩ :=
    exists_rejectedCall
  refine ⟨u, r', m, s, hfails, hm, hnames, ?_⟩
  rcases loaders_tied_after_failed_method rfl
    (run_performAll (by simp [twoLibraries, Operation.Orderly]) _) hfails with
    ⟨-, hsame⟩ | ⟨m', s', before, name, after, hm', hsplit, hfault, hties⟩
  · rw [hsame] at hafter
    exact absurd hafter hbefore
  · obtain ⟨rfl, rfl⟩ := Gives.unique hm hm'
    obtain ⟨-, -, rfl⟩ := Fault.loadersDisagree.inj hfault
    have hprefix : before = ["lib/A"] := by
      rw [hnames] at hsplit
      rcases before with _ | ⟨x, _ | ⟨y, _ | ⟨z, rest⟩⟩⟩ <;> simp_all
    rwa [howner, hreferer, hprefix] at hties

/-- A failed resolution of a method use does not leave the same loaders to agree as before. -/
theorem loaders_not_released_by_failure :
    ¬ ∀ (start r r' : Resolver) (u : MethodUse) (mode : ResolveMode) (e : Fault),
      start.area = Area.initial → Run start r → Fails (resolveMethod u mode) r e r' →
      ∀ n l x, x ∈ r'.area.constraints.loadersOf n l ↔ x ∈ r.area.constraints.loadersOf n l := by
  intro h
  obtain ⟨u, r', -, -, hfails, hafter, hbefore, -⟩ := exists_rejectedCall
  exact hbefore ((h _ _ r' u .eager _ rfl
    (run_performAll (by simp [twoLibraries, Operation.Orderly]) _) hfails "lib/A" ⟨2⟩ ⟨1⟩).1 hafter)

end Resolver

end Linkage
