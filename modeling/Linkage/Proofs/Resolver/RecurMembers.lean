import Linkage.Proofs.Dispatch.Calls
import Linkage.Proofs.Resolver.Recur

/-!
# Failures that come again, for members

Fields and methods are looked up and checked as they were before. What is left is the last check of
all, by which loaders have to agree on the names that a member speaks of. Such a name is a plain
one, and then loaders that disagree on it once disagree for ever; or it is spelled like the name of
an array in which no class is named, and then there is nothing to disagree on.
-/

namespace Linkage

open Relation

/-- A name that a member can speak of. -/
def IsMemberName (name : String) : Prop := IsPlain name ∨ IsElementless name

lemma IsDescriptorName.isMemberName {name : String} (h : IsDescriptorName name) :
    IsMemberName name := by
  by_cases hplain : IsPlain name
  · exact .inl hplain
  · exact .inr ⟨hplain, fun hmem => by simpa [isNameEnd] using h.2 ';' hmem⟩

namespace Area

variable {a : Area} {c x : Class} {m : MethodHandle} {n : String}

/-! ### Names that members speak of -/

lemma Tidy.superclass_known (ha : a.Tidy) (hc : a.Known c) {s : Class}
    (hs : c.superclass? = some s) : a.Known s :=
  ha.admitted_of_known hc s (Class.mem_superclasses_of_superclass? hs)

/-- The type of a field that is found from a class names no class but under a name that may be
agreed on. -/
lemma Regular.isMemberName_of_field (ha : a.Regular) (hx : a.Known x) {name : String}
    {type : FieldType} {f : FieldHandle} (hf : x.lookupField? name type = some f)
    (hn : n ∈ type.elementClassName?.toList) : IsMemberName n := by
  obtain ⟨howner, htype⟩ := Class.lookupField?_eq_some (P := a.Known)
    (fun c hc => ⟨fun s => ha.tidy.superclass_known hc,
      fun i hi => (ha.tidy.interface_known hc c.mem_superclasses_self hi).2⟩) hx hf
  have hmem : f.field ∈ f.owner.fields := List.mem_of_getElem? f.found
  have howned : a.Owned f.owner := by
    refine howner.resolve_right fun hstub => ?_
    rw [hstub, ha.tidy.core] at hmem
    cases hmem
  have hspelled := (ha.spelled.classes f.owner ⟨_, _, howned⟩).fields f.field hmem
  rw [htype] at hspelled
  exact (hspelled.of_elementClassName? (Option.mem_toList.1 hn)).isMemberName

/-- Array classes have no methods. -/
lemma Tidy.not_isArray_of_mem (ha : a.Tidy) (hc : a.Owned c) {m : Method} (hm : m ∈ c.methods) :
    c.isArray = false := by
  cases c with
  | root | derived => rfl
  | primitiveArray d s is p =>
    change m ∈ d.methods at hm
    rw [(ha.described _ hc).1] at hm
    cases hm
  | array d s is e =>
    change m ∈ d.methods at hm
    rw [(ha.described _ hc).1] at hm
    cases hm

/-- The names on which loaders have to agree for the sake of a method. -/
lemma Regular.isMemberName_of_method (ha : a.Regular) (hm : a.Known m.owner)
    (hn : n ∈ Resolver.agreedNames m) : IsMemberName n := by
  have howned := ha.tidy.owned_of_mem hm m.mem_methods
  rcases List.mem_append.1 hn with htype | howner
  · obtain ⟨t, ht, hname⟩ := List.mem_filterMap.1 htype
    have hspelled := (ha.spelled.classes m.owner ⟨_, _, howned⟩).methods m.method m.mem_methods
    exact ((hspelled.of_mem_types ht).of_elementClassName? hname).isMemberName
  · rw [List.mem_singleton.1 howner]
    refine .inl (by_contra fun hplain => ?_)
    have harray := ha.tidy.arrays _ _ m.owner howned hplain
    rw [ha.tidy.not_isArray_of_mem howned m.mem_methods] at harray
    cases harray

end Area

namespace Resolver

variable {r r' : Resolver} {declaring referer : Class} {n : String} {e : Fault}

/-! ### Loading constraints -/

/-- Loaders fail to be made to agree on a name only if they have different classes of it. -/
lemma constrain_eq_error (hr : r.area.Regular) (hn : IsMemberName n) :
    constrain n declaring referer r = .error e r' ↔
      (r.config.loadingConstraints = true ∧ declaring.loader ≠ referer.loader) ∧
      (IsPlain n ∧ Area.Discord n declaring.loader referer.loader r.area) ∧
      e = .loadersDisagree declaring.loader referer.loader n ∧ r' = r := by
  unfold constrain
  rw [bind_of_ok (get_apply r)]
  by_cases hneeded : r.config.loadingConstraints = true ∧ declaring.loader ≠ referer.loader
  · rw [if_pos (by simpa using hneeded), bind_eq_error]
    constructor
    · rintro (h | ⟨_, _, -, h⟩)
      · obtain ⟨a, hadd, rfl⟩ := onArea_eq_error.1 h
        rcases hn with hplain | helementless
        · obtain ⟨rfl, rfl, hdiscord⟩ := Area.discord_of_addConstraint hplain hadd
          exact ⟨hneeded, ⟨hplain, hdiscord⟩, rfl, rfl⟩
        · obtain ⟨v, b, hok, -⟩ := hr.bonded.exists_addConstraint hr.tidy (hr.apart n) helementless
            declaring.loader referer.loader
          rw [hok] at hadd
          cases hadd
      · cases h
    · rintro ⟨-, ⟨hplain, hdiscord⟩, rfl, rfl⟩
      exact .inl (onArea_eq_error.2
        ⟨_, hr.agrees.addConstraint_of_discord hplain hdiscord, rfl⟩)
  · rw [if_neg (by simpa using hneeded)]
    exact ⟨fun h => (by cases h), fun h => absurd h.1 hneeded⟩

/-- Loaders that could not be made to agree on some names never can. -/
lemma failsAgain_constrainAll {names : List String} (hr : r.area.Regular)
    (hnames : ∀ n ∈ names, IsMemberName n) :
    FailsAgain r (OptionT.lift (constrainAll declaring referer names))
      (OptionT.lift (constrainAll declaring referer names)) := by
  intro e r' hfails
  simp only [fails_lift] at hfails ⊢
  induction names generalizing r with
  | nil => cases hfails
  | cons n names ih =>
    rcases bind_eq_error.1 hfails with hfirst | ⟨_, s, hfirst, hrest⟩
    · obtain ⟨hneeded, ⟨hplain, hdiscord⟩, rfl, rfl⟩ :=
        (constrain_eq_error hr (hnames n List.mem_cons_self)).1 hfirst
      refine ⟨.refl r', fun q hq hregular => ⟨q, bind_of_error ?_⟩⟩
      refine (constrain_eq_error hregular (.inl hplain)).2 ⟨?_, ⟨hplain, ?_⟩, rfl, rfl⟩
      · rwa [hq.config]
      · exact Area.discord_of_steps hq.area hr.sound (hr.apart n) hdiscord
    · have hsafe : Safe (constrain n declaring referer) := covers_safe.constrain n declaring referer
      have hs := hsafe.2 r hr
      rw [finalState_of_ok hfirst] at hs
      obtain ⟨hlater, hagain⟩ := ih hs (fun m hm => hnames m (List.mem_cons_of_mem n hm)) hrest
      refine ⟨(evolves_of_ok hfirst hsafe.1 hr.sound).trans hlater, fun q hq hregular => ?_⟩
      obtain ⟨q', hq'⟩ := hagain q hq hregular
      have hfirst' := constrain_again hr.sound (hr.apart n) hfirst (hlater.trans hq)
      exact ⟨q', (bind_of_ok hfirst').trans hq'⟩

/-! ### Fields -/

/-- A check that is made under a condition only. -/
lemma FailsAgain.check {α : Type} {p : Prop} [Decidable p] {x y : ResolutionM Unit}
    {f g : Unit → ResolutionM α} (hr : Patient r) (hx : Final x y)
    (h : ∀ s, Patient s → FailsAgain s (f ()) (g ())) :
    FailsAgain r (if p then x >>= f else f ()) (if p then y >>= g else g ()) := by
  split
  · exact .bind_final hr hx fun _ s _ hs => h s hs
  · exact h r hr

lemma final_checkStored (u : FieldUse) (mode : ResolveMode) :
    Final (checkStored u .lazy) (checkStored u mode) := by
  unfold checkStored
  split
  · exact final_checkSubtypes mode _ _ _ _ _
  · exact final_pure ()

/-- A field that cannot be given can never be given. -/
lemma failsAgain_giveField (u : FieldUse) (mode : ResolveMode) (f : FieldHandle) (hr : Patient r)
    (hnames : ∀ n ∈ u.target.descriptor.elementClassName?.toList, IsMemberName n) :
    FailsAgain r (giveField u .lazy f) (giveField u mode f) := by
  refine .bind_final hr (final_checkAccess mode _ _ _ _ _ _).counted fun _ s _ hs => ?_
  exact .bind_of_not (failsAgain_constrainAll hs.regular hnames) fun _ _ _ =>
    not_fails_reported _ _ _

/-- A use of a field that cannot be resolved lazily can never be resolved. -/
lemma failsAgain_resolveField (u : FieldUse) (mode : ResolveMode) (hr : Patient r) :
    FailsAgain r (resolveField u .lazy) (resolveField u mode) := by
  have hasked : Patient r.fieldAsked := ⟨hr.regular, hr.lazy⟩
  rw [resolveField_eq, resolveField_eq]
  refine .count (.bind_final hasked (final_resolveContainer mode _ _) fun x s hx hs => ?_)
  have hrooted := rooted_of_resolveContainer hasked.regular.tidy hx
  cases hlookup : x.lookupField? u.target.name u.target.descriptor with
  | none => exact failsAgain_fail _
  | some f =>
    have hnames : ∀ n ∈ u.target.descriptor.elementClassName?.toList, IsMemberName n := fun n hn =>
      hs.regular.isMemberName_of_field hrooted.owned.known hlookup hn
    refine .check hs (final_fail _) fun s₁ hs₁ => ?_
    refine .check hs₁ (final_checkSubtypes mode _ _ _ _ _).counted fun s₂ hs₂ => ?_
    exact .bind_final hs₂ (final_checkStored u mode).counted fun _ s₃ _ hs₃ =>
      failsAgain_giveField u mode f hs₃ hnames

/-! ### Methods -/

/-- A question that looks at the state in one respect only, which never changes. -/
lemma FailsAgain.current {α : Type} {f : Resolver → ResolutionM α}
    (hsame : ∀ q, Evolves r q → f q = f r) (h : FailsAgain r (f r) (f r)) :
    FailsAgain r (current >>= f) (current >>= f) := by
  intro e r' hfails
  rcases fails_bind.1 hfails with hnever | ⟨_, _, hcurrent, hbody⟩
  · exact absurd hnever fails_current
  obtain ⟨rfl, rfl⟩ := gives_current.1 hcurrent
  obtain ⟨hlater, hagain⟩ := h e r' hbody
  refine ⟨hlater, fun q hq hregular => ?_⟩
  obtain ⟨q', hq'⟩ := hagain q hq hregular
  rw [← hsame q (hlater.trans hq)] at hq'
  exact ⟨q', fails_bind.2 (.inr ⟨q, q, gives_current.2 ⟨rfl, rfl⟩, hq'⟩)⟩

/-- The method that was found is given, or there is none. -/
lemma failsAgain_found (found : Option MethodHandle) (fault : Fault) (hr : Patient r) :
    FailsAgain r
      (match found with
        | some m => pure m
        | none => fail fault : ResolutionM MethodHandle)
      (match found with
        | some m => pure m
        | none => fail fault) := by
  cases found with
  | some m => exact (final_pure m).again r hr
  | none => exact failsAgain_fail _

lemma final_lookupTarget (container : Class) (target : MethodRef) :
    Final (lookupTarget container target) (lookupTarget container target) where
  safe := covers_safe.lookupTarget container target
  repeats := repeats_lookupTarget container target
  again r hr := by
    unfold lookupTarget
    refine .current (fun q hq => by rw [Area.core_eq_of_steps hq.area]) ?_
    dsimp only
    split
    · exact .check hr (final_fail _) fun s hs => failsAgain_found _ _ hs
    · exact .check hr (final_fail _) fun s hs => failsAgain_found _ _ hs

/-- The method that is found is one of a class that is there. -/
lemma known_of_lookupTarget {x : Class} {target : MethodRef} {m : MethodHandle}
    (hr : r.area.Tidy) (hx : r.area.Known x) (h : Gives (lookupTarget x target) r m r') :
    r.area.Known m.owner := by
  obtain ⟨-, hfound, -⟩ := gives_lookupTarget.1 h
  split at hfound
  · rcases Option.or_eq_some_iff.1 hfound with hown | ⟨-, hfound⟩
    · rwa [(Class.findMethodBy?_eq_some hown).1]
    rcases Option.or_eq_some_iff.1 hfound with htop | ⟨-, hinherited⟩
    · obtain ⟨hfound, -⟩ := Option.filter_eq_some_iff.1 htop
      rw [(Class.findMethodBy?_eq_some hfound).1]
      exact hr.top.owned.known
    · obtain ⟨i, hi, hfound⟩ := List.exists_of_findSome?_eq_some hinherited
      obtain ⟨hfound, -⟩ := Option.filter_eq_some_iff.1 hfound
      rw [(Class.findMethodBy?_eq_some hfound).1]
      exact (hr.superinterface_known hx i hi).2
  · rcases (Class.lookupMethod?_eq_some hfound).2 with hsuper | hinterface
    · exact hr.admitted_of_known hx _ hsuper
    · exact (hr.superinterface_known hx _ hinterface).2

/-- Looking at the object of a call never fails. -/
lemma devirtualize_ne_error (hr : r.area.ArraysNamed) (m : MethodHandle) (instances : SubtypeSet) :
    devirtualize m instances r ≠ .error e r' := by
  by_cases hsingle : m.method.isVirtual = true → ∀ mention, instances ≠ [mention]
  · rw [devirtualize_of_not_single hsingle]
    rintro ⟨⟩
  push Not at hsingle
  obtain ⟨hvirtual, mention, rfl⟩ := hsingle
  obtain ⟨v, a, hfind⟩ : ∃ v a, mention.find r.area = .ok v a := by
    cases mention with
    | loaded c => exact ⟨some c, r.area, rfl⟩
    | symbolic ref =>
      obtain ⟨v, a, hfind, -⟩ := hr.findLoaded ref.referer.loader ref.name
      exact ⟨v, a, hfind⟩
  rw [devirtualize_single hvirtual mention hfind]
  rintro ⟨⟩

/-- A use of a method that cannot be resolved lazily can never be resolved. -/
lemma failsAgain_resolveMethod (u : MethodUse) (mode : ResolveMode) (hr : Patient r) :
    FailsAgain r (resolveMethod u .lazy) (resolveMethod u mode) := by
  have hasked : Patient r.methodAsked := ⟨hr.regular, hr.lazy⟩
  refine .count (.bind_final hasked (final_resolveContainer mode _ _) fun x s₁ hx hs₁ => ?_)
  have hknown := (rooted_of_resolveContainer hasked.regular.tidy hx).owned.known
  refine .bind_final hs₁ (final_lookupTarget _ _) fun m s₂ hm hs₂ => ?_
  have howner := known_of_lookupTarget hs₁.regular.tidy hknown hm
  refine .check hs₂ (final_fail _) fun s₃ hs₃ => ?_
  refine .check hs₃ (final_checkSubtypes mode _ _ _ _ _).counted fun s₄ hs₄ => ?_
  refine .bind_final hs₄ (final_checkArguments mode _ _ _) fun _ s₅ _ hs₅ => ?_
  refine .bind_final hs₅ (final_checkAccess mode _ _ _ _ _ _).counted fun _ s₆ _ hs₆ => ?_
  refine .bind_of_not (failsAgain_constrainAll hs₆.regular fun n hn =>
    hs₁.regular.isMemberName_of_method howner hn) fun _ s₇ hs₇ e r' hfails => ?_
  have hs₇ := hs₆.gives hs₇ (covers_safe.lift (covers_safe.constrainAll _ _ _))
  split at hfails
  · rcases fails_bind.1 hfails with h | ⟨_, _, -, h⟩
    · exact fails_pure h
    · exact not_fails_reported _ _ _ _ _ h
  · rcases fails_bind.1 hfails with h | ⟨_, _, -, h⟩
    · exact devirtualize_ne_error hs₇.regular.tidy.arrays _ _ (fails_lift.1 h)
    · exact not_fails_reported _ _ _ _ _ h

/-! ### Whole runs -/

/-- What fails again does so in every state that a run leads to. -/
lemma FailsAgain.run {α : Type} {x y : ResolutionM α} {q : Resolver} (h : FailsAgain r x y)
    (hr : r.area.Regular) (hx : Keeps x.run) (hfails : Fails x r e r') (hq : AdmissibleRun r' q) :
    ∃ q', Fails y q e q' := by
  obtain ⟨hlater, hagain⟩ := h e r' hfails
  have hr' := hx r hr
  rw [finalState_of_error hfails] at hr'
  exact hagain q (hq.run.evolves hr'.sound) (hq.regular hr')

/-- What fails when it is looked at lazily fails for ever. Whatever happens after a lazy resolution
of the use of a class, a field or a method failed, another resolution of it, lazy or eager, fails
with the same fault. -/
theorem lazy_failure_recurs {start r : Resolver} (hstart : start.area = Area.initial)
    (hlazy : start.config.eager = false) (hrun : AdmissibleRun start r) :
    (∀ (u : ClassUse) (e : Fault) (r' : Resolver), Fails (resolveClass u .lazy) r e r' →
      ∀ q, AdmissibleRun r' q → ∀ mode, ∃ q', Fails (resolveClass u mode) q e q') ∧
    (∀ (u : FieldUse) (e : Fault) (r' : Resolver), Fails (resolveField u .lazy) r e r' →
      ∀ q, AdmissibleRun r' q → ∀ mode, ∃ q', Fails (resolveField u mode) q e q') ∧
    (∀ (u : MethodUse) (e : Fault) (r' : Resolver), Fails (resolveMethod u .lazy) r e r' →
      ∀ q, AdmissibleRun r' q → ∀ mode, ∃ q', Fails (resolveMethod u mode) q e q') := by
  have hregular := hrun.regular (hstart ▸ Area.initial_regular)
  have hconfig := (hrun.run.evolves (hstart ▸ Area.initial_sound)).config
  have hr : Patient r := ⟨hregular, by rw [hconfig, hlazy]⟩
  refine ⟨fun u e r' h q hq mode => ?_, fun u e r' h q hq mode => ?_, fun u e r' h q hq mode => ?_⟩
  · exact (failsAgain_resolveClass u mode hr).run hregular (covers_keeps.resolveClass _ _) h hq
  · exact (failsAgain_resolveField u mode hr).run hregular (covers_keeps.resolveField _ _) h hq
  · exact (failsAgain_resolveMethod u mode hr).run hregular (covers_keeps.resolveMethod _ _) h hq

/-- A class with a field and a class that uses it, by two loaders that have different classes for
the type of the field; all these classes are loaded. -/
def disagreeingLoaders : List Operation :=
  [.addLoader .bootstrap false, .addLoader ⟨1⟩ true,
    .define ⟨1⟩ { name := "p/T", flags := Flag.accPublic.mask },
    .define ⟨2⟩ { name := "p/T", flags := Flag.accPublic.mask },
    .define ⟨1⟩
      { name := "p/D"
        flags := Flag.accPublic.mask
        fields := [⟨Flag.accPublic.mask, "f", .object "p/T"⟩] },
    .define ⟨2⟩
      { name := "q/R"
        flags := Flag.accPublic.mask
        methods := [⟨Flag.accPublic.mask, "m", ⟨[], .void⟩⟩] },
    .load ⟨1⟩ "p/T", .load ⟨2⟩ "p/T", .load ⟨2⟩ "p/D", .load ⟨2⟩ "q/R"]

/-- A third loader is made to agree with the first one, which has the effect that it cannot be made
to agree with the second. -/
def agreeingOtherwise : List Operation :=
  [.addLoader .bootstrap false, .constrain "p/T" ⟨1⟩ ⟨3⟩, .constrain "p/T" ⟨3⟩ ⟨2⟩]

lemma admissible_disagreeing :
    AdmissibleRun { area := Area.initial }
      (performAll disagreeingLoaders { area := Area.initial }) := by
  refine admissibleRun_performAll (fun op hop r => ⟨?_, ?_, ?_, ?_⟩) _
  · revert op
    simp [disagreeingLoaders, Operation.Orderly]
  · revert op
    simp [disagreeingLoaders, Operation.Genuine]
  · revert op
    simp [disagreeingLoaders]
  · rintro l d rfl
    simp only [disagreeingLoaders, List.mem_cons, Operation.define.injEq, reduceCtorEq, false_or,
      List.not_mem_nil, or_false] at hop
    rcases hop with ⟨-, rfl⟩ | ⟨-, rfl⟩ | ⟨-, rfl⟩ | ⟨-, rfl⟩ <;> decide

/-- Loaders that disagree on the type of a field do so in a later state too, where more loaders have
to agree. -/
theorem disagreement_recurs :
    ∃ u r' q', fieldOfParent? (performAll disagreeingLoaders { area := Area.initial }) = some u ∧
      Fails (resolveField u .lazy) (performAll disagreeingLoaders { area := Area.initial })
        (.loadersDisagree ⟨1⟩ ⟨2⟩ "p/T") r' ∧
      Fails (resolveField u .eager) (performAll agreeingOtherwise r')
        (.loadersDisagree ⟨1⟩ ⟨2⟩ "p/T") q' := by
  have htest : ((fieldOfParent? (performAll disagreeingLoaders { area := Area.initial })).any
      fun u => failsWhere (resolveField u .lazy) (fun e _ => e = .loadersDisagree ⟨1⟩ ⟨2⟩ "p/T")
        (performAll disagreeingLoaders { area := Area.initial })) = true := by
    decide +kernel
  obtain ⟨u, hu, htest⟩ := (Option.any_eq_true _ _).1 htest
  obtain ⟨e, r', hfails, he⟩ := exists_fails htest
  obtain rfl := of_decide_eq_true he
  have hlater : AdmissibleRun r' (performAll agreeingOtherwise r') := by
    refine admissibleRun_performAll (fun op hop s => ?_) r'
    simp only [agreeingOtherwise, List.mem_cons, List.not_mem_nil, or_false] at hop
    rcases hop with rfl | rfl | rfl <;> exact ⟨trivial, trivial, by simp, by simp⟩
  obtain ⟨-, hfields, -⟩ := lazy_failure_recurs rfl rfl admissible_disagreeing
  obtain ⟨q', hagain⟩ := hfields u _ r' hfails _ hlater .eager
  exact ⟨u, r', q', hu, hfails, hagain⟩

end Resolver

end Linkage
