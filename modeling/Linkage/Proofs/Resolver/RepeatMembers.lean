import Linkage.Proofs.Resolver.Agreement
import Linkage.Proofs.Resolver.Repeat

/-!
# Resolving members again

A use of a field or a method that was resolved once is resolved again in every later state. Lookup,
subtype checks and access speak of classes that are known by then; the loaders that were made to
agree still have to; and the object of a virtual call was looked at, so that its class is known.
Only a call through an interface looks at no object, and may go to another method of the object's
class once that is loaded: there the target is found anew from the reference.
-/

namespace Linkage

open Relation

namespace Area

variable {a : Area}

/-- What holds of every area and makes resolutions of members repeatable. -/
structure Steady (a : Area) : Prop where
  sound : a.Sound
  apart : ∀ n, a.ApartOn n
  arrays : a.ArraysNamed

lemma steady_stable : Stable Step Steady := fun a b hstep h =>
  ⟨sound_stable a b hstep h.sound, fun n => apartOn_stable n a b hstep (h.apart n),
    arraysNamed_stable a b hstep h.arrays⟩

lemma initial_steady : initial.Steady := ⟨initial_sound, initial_apartOn, initial_arraysNamed⟩

end Area

namespace Resolver

variable {r r' q : Resolver}

lemma Evolves.steady (h : Evolves r r') (hr : r.area.Steady) : r'.area.Steady :=
  Area.steady_stable.reflTransGen h.area hr

/-! ### Checks -/

lemma repeats_resolveContainer (ref : ClassRef) (method : MethodHandle)
    (mode mode' : ResolveMode) :
    Repeats (resolveContainer ref method mode) (resolveContainer ref method mode') :=
  (repeats_resolveName _ _ _ _ _ _).counted

lemma repeats_checkStored (u : FieldUse) (mode mode' : ResolveMode) :
    Repeats (checkStored u mode) (checkStored u mode') := by
  unfold checkStored
  split
  · exact repeats_checkSubtypes _ _ _ _ _ _ _
  · exact repeats_pure ()

lemma repeats_checkAccess (referer declaring : Class) (flags : Flags) (isStatic : Bool)
    (instances : SubtypeSet) (mode mode' : ResolveMode) (member : String) :
    Repeats (checkAccess referer declaring flags isStatic instances mode member)
      (checkAccess referer declaring flags isStatic instances mode' member) := by
  unfold checkAccess
  split
  · exact repeats_pure ()
  · exact repeats_fail _ _
  · refine (repeats_checkSubtypes _ _ _ _ _ _ _).counted.bind
      (closed_built.counted (covers_built.checkSubtypes _ _ _ _ _ _)) (fun _ => ?_) (fun _ => ?_)
    · split
      · exact (repeats_checkSubtypes _ _ _ _ _ _ _).counted
      · exact repeats_pure ()
    · split
      · exact closed_built.counted (covers_built.checkSubtypes _ _ _ _ _ _)
      · exact closed_built.option_pure _

lemma repeats_checkArguments (referer : Class) (mode mode' : ResolveMode) (ps : List FieldType)
    (ss : List SubtypeSet) :
    Repeats (checkArguments referer mode ps ss) (checkArguments referer mode' ps ss) := by
  induction ps generalizing ss with
  | nil => exact repeats_pure ()
  | cons p ps ih =>
    cases ss with
    | nil => exact repeats_pure ()
    | cons s ss =>
      unfold checkArguments
      dsimp only
      split
      · exact (repeats_checkSubtypes _ _ _ _ _ _ _).counted.bind
          (closed_built.counted (covers_built.checkSubtypes _ _ _ _ _ _)) (fun _ => ih ss)
          fun _ => covers_built.checkArguments _ _ _ _
      · exact ih ss

lemma Repeats.passes {x y : ResolutionM Unit} (h : Repeats x y) {p : Prop} [Decidable p]
    (hr : r.area.Sound) (hx : Passes p x r r') (hq : Evolves r' q) : Passes p y q q := by
  unfold Passes at hx ⊢
  split at hx
  · next hp =>
    rw [if_pos hp]
    exact h r () r' hr hx q hq
  · next hp => rw [if_neg hp]

/-! ### Lookup -/

/-- A method is looked up where the reference says it is, in an interface or in a class. -/
lemma gives_lookupTarget {container : Class} {target : MethodRef} {m : MethodHandle} :
    Gives (lookupTarget container target) r m r' ↔
      container.isInterface = target.isInterface ∧
      (if target.isInterface then
        container.lookupInterfaceMethod? r.area.core.object target.name target.descriptor
      else container.lookupMethod? target.name target.descriptor) = some m ∧ r = r' := by
  unfold lookupTarget
  simp only [gives_bind, gives_current]
  constructor
  · rintro ⟨_, _, ⟨rfl, rfl⟩, h⟩
    cases htarget : target.isInterface <;> cases hcontainer : container.isInterface <;>
      simp only [htarget, hcontainer, if_true, if_false, Bool.not_true, Bool.not_false,
        Bool.false_eq_true, gives_bind, gives_fail, false_and, exists_false] at h ⊢
    all_goals
      split at h
      · next m' hm =>
        obtain ⟨rfl, rfl⟩ := gives_pure.1 h
        exact ⟨trivial, hm, rfl⟩
      · exact absurd h gives_fail
  · rintro ⟨hkind, hm, rfl⟩
    refine ⟨r, r, ⟨rfl, rfl⟩, ?_⟩
    rw [hkind]
    cases htarget : target.isInterface <;> rw [htarget] at hm <;>
      simp only [if_true, if_false, Bool.not_true, Bool.false_eq_true] at hm ⊢ <;> rw [hm] <;>
      exact gives_pure.2 ⟨rfl, rfl⟩

lemma repeats_lookupTarget (container : Class) (target : MethodRef) :
    Repeats (lookupTarget container target) (lookupTarget container target) := by
  intro r m r' _ h q hq
  obtain ⟨hkind, hm, rfl⟩ := gives_lookupTarget.1 h
  exact gives_lookupTarget.2 ⟨hkind, by rwa [Area.core_eq_of_steps hq.area], rfl⟩

lemma repeats_interfaceTarget (target : MethodRef) :
    Repeats (interfaceTarget target) (interfaceTarget target) := by
  unfold interfaceTarget
  refine (repeats_resolveName _ _ _ .eager .eager _).bind (covers_built.resolveName _ _ _ _ _)
    (fun c => ?_) fun c => ?_
  · intro r m r' _ h q hq
    obtain ⟨_, _, hcurrent, h⟩ := gives_bind.1 h
    obtain ⟨rfl, rfl⟩ := gives_current.1 hcurrent
    refine gives_bind.2 ⟨q, q, gives_current.2 ⟨rfl, rfl⟩, ?_⟩
    split at h
    · next m' hm =>
      obtain ⟨rfl, rfl⟩ := gives_pure.1 h
      rw [Area.core_eq_of_steps hq.area, hm]
      exact gives_pure.2 ⟨rfl, rfl⟩
    · exact absurd h gives_fail
  · refine closed_built.current_bind (fun r r' h => by rw [h.area]) fun r => ?_
    split
    · exact closed_built.option_pure _
    · exact closed_built.fail _

/-! ### Loading constraints -/

/-- Loaders that were made to agree on a name have nothing to agree on any more. -/
lemma constrain_again {declaring referer : Class} {n : String} (hr : r.area.Sound)
    (hapart : r.area.ApartOn n) (h : constrain n declaring referer r = .ok () r')
    (hq : Evolves r' q) : constrain n declaring referer q = .ok () q := by
  have hfirst : Evolves r r' := evolves_of_ok h (covers_built.constrain _ _ _) hr
  unfold constrain
  rw [bind_of_ok (get_apply q)]
  split
  · next hneeded =>
    simp only [Bool.and_eq_true, decide_eq_true_eq] at hneeded
    have hconfig : r.config.loadingConstraints = true := by
      rw [← hfirst.config, ← hq.config]
      exact hneeded.1
    have hbound := hq.bound_of_apartOn (hfirst.apartOn hapart)
      (bound_of_constrain hapart hconfig h)
    have hrelated := ((hfirst.trans hq).apartOn hapart).related hbound
    exact bind_of_ok (onArea_eq_ok.2 ⟨q.area, Area.addConstraint_of_related hrelated, rfl⟩)
  · rfl

lemma constrainAll_again {declaring referer : Class} {names : List String} (hr : r.area.Sound)
    (hapart : ∀ n, r.area.ApartOn n) (h : constrainAll declaring referer names r = .ok () r')
    (hq : Evolves r' q) : constrainAll declaring referer names q = .ok () q := by
  induction names generalizing r with
  | nil => rfl
  | cons n names ih =>
    obtain ⟨⟨⟩, s, hfirst, hrest⟩ := bind_eq_ok.1 h
    have hs := evolves_of_ok hfirst (covers_built.constrain _ _ _) hr
    have hr' := evolves_of_ok hrest (covers_built.constrainAll _ _ _) (hs.sound hr)
    have hagain := constrain_again hr (hapart n) hfirst (hr'.trans hq)
    exact (bind_of_ok hagain).trans
      (ih (hs.sound hr) (fun n => hs.apartOn (hapart n)) hrest)

/-! ### The method that an object runs -/

/-- What a method call on an object that may be of a loaded class goes to. -/
def calledOn (m : MethodHandle) : Option Class → MethodHandle
  | some c =>
    if !c.isInterface && !c.isArray && c.isAssignableTo m.owner then (overrideIn? c m).getD m else m
  | none => m

lemma calledOn_of_isArray {m : MethodHandle} {v : Option Class}
    (h : ∀ c ∈ v, c.isArray = true) : calledOn m v = m := by
  cases v with
  | none => rfl
  | some c => simp [calledOn, h c rfl]

/-- A virtual call is looked at if the object is of one class. -/
lemma devirtualize_single {m : MethodHandle} (hvirtual : m.method.isVirtual = true)
    (mention : Mention) {v : Option Class} {a : Area} (hfind : mention.find r.area = .ok v a) :
    devirtualize m [mention] r = .ok (calledOn m v) { r with area := a } := by
  have hrun : onArea mention.find r = .ok v { r with area := a } := onArea_eq_ok.2 ⟨a, hfind, rfl⟩
  simp only [devirtualize, hvirtual, Bool.not_true, Bool.false_eq_true, if_false]
  rw [bind_of_ok hrun]
  cases v with
  | none => rfl
  | some c =>
    simp only [calledOn]
    split <;> rfl

lemma devirtualize_of_not_single {m : MethodHandle} {instances : SubtypeSet}
    (h : m.method.isVirtual = true → ∀ mention, instances ≠ [mention]) :
    devirtualize m instances r = .ok m r := by
  unfold devirtualize
  split
  · rfl
  · next hvirtual =>
    split
    · next mention => exact absurd rfl (h (by simpa using hvirtual) mention)
    · rfl

/-- Whatever class a plain name was resolved to, the loader has it. -/
lemma published?_of_resolveName {referer c : Class} {method : Option MethodHandle} {name : String}
    {mode : ResolveMode} {check : Bool} (hplain : IsPlain name) (hr : r.area.Sound)
    (h : Gives (resolveName referer method name mode check) r c r') :
    r'.area.published? referer.loader name = some c := by
  obtain ⟨mode', _, hmode, hclass⟩ := gives_bind.1 h
  obtain ⟨-, rfl⟩ := gives_effective.1 hmode
  obtain ⟨c', s, hspelled, haccess⟩ := gives_bind.1 hclass
  rw [Spelling.ofName_eq_plain hplain] at hspelled
  split at haccess
  · exact absurd haccess gives_fail
  · obtain ⟨rfl, rfl⟩ := gives_pure.1 haccess
    exact published?_of_resolvePlain hplain hr hspelled

/-- The class of a plain name that a check came across is known. -/
lemma published?_of_checkSubtypes {referer type : Class} {ref : ClassRef} {mode : ResolveMode}
    {kind : FaultKind} (hr : r.area.Sound) (htype : type.isInterface = false)
    (hplain : IsPlain ref.name)
    (h : Gives (checkSubtypes referer [.symbolic ref] (.loaded type) false mode kind) r () r') :
    ∃ c, r'.area.published? ref.referer.loader ref.name = some c := by
  obtain ⟨_, _, hmention, h⟩ := (gives_checkSubtypes_iff (by simp)).1 h
  obtain ⟨rfl, rfl⟩ := gives_pure.1 hmention
  rw [htype, Bool.and_false, if_neg (by simp)] at h
  obtain ⟨c, s, hname, -, h⟩ := gives_checkMembers_cons.1 h
  obtain ⟨-, rfl⟩ := gives_pure.1 h
  exact ⟨c, published?_of_resolveName hplain hr hname⟩

/-- The class of the object of a call through an interface: the one class that the object may be of,
if its loader did not have it in one state and has it in a later one. Nothing else is looked at
again when such a call is resolved again. -/
structure FoundLater (u : MethodUse) (m : MethodHandle) (a b : Area) (c : Class) : Prop where
  isInterface : u.target.isInterface = true
  isStatic : u.isStatic = false
  isSpecial : u.isSpecial = false
  isVirtual : m.method.isVirtual = true
  found : ∃ ref, u.instances = [.symbolic ref] ∧
    a.published? ref.referer.loader ref.name = none ∧
    b.published? ref.referer.loader ref.name = some c
  isClass : c.isInterface = false
  isPlain : c.isArray = false
  isAssignable : c.isAssignableTo m.owner = true

/-- What a call that went to one method goes to when it is resolved again: to the same method, or to
what the class of the object runs if that was found in between. -/
structure Recalled (u : MethodUse) (a b : Area) (m m' : MethodHandle) : Prop where
  found : ∀ c, FoundLater u m a b c → m' = (overrideIn? c m).getD m
  same : (∀ c, ¬ FoundLater u m a b c) → m' = m

section

variable {a b : Area}

lemma recalled_self {u : MethodUse} {m : MethodHandle} (h : ∀ c, ¬ FoundLater u m a b c) :
    Recalled u a b m m :=
  ⟨fun c hc => absurd hc (h c), fun _ => rfl⟩

/-- Nothing is found later for a call on no object, for a special one, or for one of a method that
is looked for in a class. -/
lemma Recalled.eq {u : MethodUse} {m m' : MethodHandle} (h : Recalled u a b m m')
    (hu : u.target.isInterface = false ∨ u.isStatic = true ∨ u.isSpecial = true) : m' = m := by
  refine h.same fun c hc => ?_
  rcases hu with hinterface | hstatic | hspecial
  · rw [hc.isInterface] at hinterface
    cases hinterface
  · rw [hc.isStatic] at hstatic
    cases hstatic
  · rw [hc.isSpecial] at hspecial
    cases hspecial

/-- An object of a class that was not there when the call was resolved. -/
lemma recalled_calledOn {u : MethodUse} {m : MethodHandle} {ref : ClassRef}
    (hinterface : u.target.isInterface = true) (hstatic : u.isStatic = false)
    (hspecial : u.isSpecial = false) (hvirtual : m.method.isVirtual = true)
    (hinstances : u.instances = [.symbolic ref])
    (hmissing : a.published? ref.referer.loader ref.name = none) :
    Recalled u a b m (calledOn m (b.published? ref.referer.loader ref.name)) where
  found c hc := by
    obtain ⟨ref', heq, -, hfound⟩ := hc.found
    cases hinstances.symm.trans heq
    simp [hfound, calledOn, hc.isClass, hc.isPlain, hc.isAssignable]
  same hnot := by
    cases hfound : b.published? ref.referer.loader ref.name with
    | none => rfl
    | some c =>
      unfold calledOn
      dsimp only
      split
      · next hcond =>
        simp only [Bool.and_eq_true, Bool.not_eq_true'] at hcond
        obtain ⟨⟨hclass, hplain⟩, hassignable⟩ := hcond
        exact absurd ⟨hinterface, hstatic, hspecial, hvirtual, ⟨ref, hinstances, hmissing, hfound⟩,
          hclass, hplain, hassignable⟩ (hnot c)
      · rfl

end

/-- The object of a call is of one class, named by a plain name. -/
lemma devirtualize_symbolic {m : MethodHandle} (hvirtual : m.method.isVirtual = true)
    {ref : ClassRef} (hplain : IsPlain ref.name) (r : Resolver) :
    devirtualize m [.symbolic ref] r =
      .ok (calledOn m (r.area.published? ref.referer.loader ref.name)) r :=
  devirtualize_single hvirtual _ (Area.findLoaded_of_isPlain hplain _ _)

/-- An array class runs no method of its own. -/
lemma devirtualize_array {m : MethodHandle} (hvirtual : m.method.isVirtual = true) {ref : ClassRef}
    (hplain : ¬ IsPlain ref.name) (hr : r.area.Steady) :
    ∃ a, devirtualize m [.symbolic ref] r = .ok m { r with area := a } := by
  obtain ⟨v, a, hfind, -, hv⟩ := hr.arrays.findLoaded ref.referer.loader ref.name
  refine ⟨a, ?_⟩
  rw [devirtualize_single hvirtual (.symbolic ref) hfind, calledOn_of_isArray (hv hplain)]

/-- The object of a call is of a class that was there already, and it stays. -/
lemma recalled_of_published {a b : Area} {u : MethodUse} {ref : ClassRef} {c : Class}
    (hinstances : u.instances = [.symbolic ref])
    (hc : a.published? ref.referer.loader ref.name = some c) (m : MethodHandle) :
    Recalled u a b m m := by
  refine recalled_self fun d hd => ?_
  obtain ⟨ref', heq, hmissing, -⟩ := hd.found
  cases hinstances.symm.trans heq
  rw [hc] at hmissing
  cases hmissing

/-- The object of a call is of a class with a plain name, which may have been found since if the
method was looked for in an interface. -/
lemma devirtualize_plain_again {u : MethodUse} {m target : MethodHandle} {ref : ClassRef}
    (hvirtual : m.method.isVirtual = true) (hinstances : u.instances = [.symbolic ref])
    (hplain : IsPlain ref.name) (hspecial : u.isSpecial = false) (hobject : u.isStatic = false)
    (hknown : u.target.isInterface = false →
      ∃ c, r.area.published? ref.referer.loader ref.name = some c)
    (hr : r.area.Sound) (h : devirtualize m [.symbolic ref] r = .ok target r')
    (hr' : Evolves r r') (hq : Evolves r' q) :
    ∃ target' q', devirtualize m [.symbolic ref] q = .ok target' q' ∧
      Recalled u r'.area q.area target target' := by
  rw [devirtualize_symbolic hvirtual hplain] at h
  refine ⟨_, q, devirtualize_symbolic hvirtual hplain q, ?_⟩
  cases hc : r.area.published? ref.referer.loader ref.name with
  | some c =>
    have hkept := Area.kept_of_steps hr'.area hr hc
    rw [hc] at h
    cases h
    rw [Area.kept_of_steps hq.area hr hc]
    exact recalled_of_published hinstances hkept _
  | none =>
    rw [hc] at h
    cases h
    -- Had the object been checked against a class, its class would have been there.
    have hinterface : u.target.isInterface = true := by
      by_contra hclass
      obtain ⟨c, hc'⟩ := hknown (by simpa using hclass)
      rw [hc] at hc'
      cases hc'
    exact recalled_calledOn hinterface hobject hspecial hvirtual hinstances hc

/-- Whether the object of a call was looked at or not when the call was resolved, later the call
goes to the same method, unless the class of the object has been found since. -/
lemma devirtualize_again {u : MethodUse} {m target : MethodHandle} (hr : r.area.Steady)
    (hspecial : u.isSpecial = false) (hstatic : m.method.isStatic = u.isStatic)
    (hknown : u.target.isInterface = false → m.method.isVirtual = true →
      ∀ ref : ClassRef, u.instances = [.symbolic ref] → IsPlain ref.name →
        ∃ c, r.area.published? ref.referer.loader ref.name = some c)
    (h : devirtualize m u.instances r = .ok target r') (hq : Evolves r' q) :
    ∃ target' q', devirtualize m u.instances q = .ok target' q' ∧
      Recalled u r'.area q.area target target' := by
  have hr' : Evolves r r' := evolves_of_ok h (covers_built.devirtualize _ _) hr.sound
  by_cases hsingle : m.method.isVirtual = true → ∀ mention, u.instances ≠ [mention]
  · rw [devirtualize_of_not_single hsingle] at h
    cases h
    refine ⟨m, q, devirtualize_of_not_single hsingle, recalled_self fun c hc => ?_⟩
    obtain ⟨ref, hinstances, -⟩ := hc.found
    exact hsingle hc.isVirtual _ hinstances
  push Not at hsingle
  obtain ⟨hvirtual, mention, hinstances⟩ := hsingle
  rw [hinstances] at h ⊢
  cases mention with
  | loaded c =>
    rw [devirtualize_single hvirtual (.loaded c) rfl] at h
    cases h
    refine ⟨_, q, devirtualize_single hvirtual (.loaded c) rfl, recalled_self fun d hd => ?_⟩
    obtain ⟨ref, heq, -⟩ := hd.found
    cases hinstances.symm.trans heq
  | symbolic ref =>
    by_cases hplain : IsPlain ref.name
    · have hobject : u.isStatic = false := by
        simp only [Method.isVirtual, Bool.and_eq_true, Bool.not_eq_true'] at hvirtual
        exact hstatic ▸ hvirtual.1.1
      exact devirtualize_plain_again hvirtual hinstances hplain hspecial hobject
        (fun hclass => hknown hclass hvirtual ref hinstances hplain) hr.sound h hr' hq
    · obtain ⟨a, hbefore⟩ := devirtualize_array hvirtual hplain hr
      have hlater := (hr'.trans hq).steady hr
      obtain ⟨a', hafter⟩ := devirtualize_array hvirtual hplain hlater
      rw [hbefore] at h
      cases h
      refine ⟨m, _, hafter, recalled_self fun c hc => ?_⟩
      obtain ⟨ref', heq, -, hfound⟩ := hc.found
      cases hinstances.symm.trans heq
      have harray := hlater.arrays _ _ c hfound hplain
      rw [hc.isPlain] at harray
      cases harray

/-! ### Fields and methods -/

/-- A use of a field that was resolved once is resolved to the same field from then on, and nothing
changes but for what is counted and reported. -/
lemma gives_resolveField_again {u : FieldUse} {mode : ResolveMode} {f : FieldHandle}
    (hr : r.area.Steady) (h : Gives (resolveField u mode) r f r') (hq : Evolves r' q)
    (mode' : ResolveMode) :
    Gives (resolveField u mode') q f (q.fieldAsked.reported u.text f.text) := by
  obtain ⟨container, r₁, r₂, r₃, r₄, r₅, h₁, hlookup, hstatic, h₂, h₃, h₄, h₅, rfl⟩ :=
    gives_resolveField.1 h
  obtain ⟨e₁, e₂, e₃, e₄, e₅⟩ := evolves_resolveField hr.sound h₁ h₂ h₃ h₄ h₅
  have hr₁ := e₁.steady hr
  have hr₂ := e₂.steady hr₁
  have hr₃ := e₃.steady hr₂
  have hr₄ := e₄.steady hr₃
  have later₅ : Evolves r₅ q.fieldAsked := ⟨hq.area, hq.config⟩
  have later₄ := e₅.trans later₅
  have later₃ := e₄.trans later₄
  have later₂ := e₃.trans later₃
  have later₁ := e₂.trans later₂
  refine gives_resolveField.2 ⟨container, q.fieldAsked, q.fieldAsked, q.fieldAsked, q.fieldAsked,
    q.fieldAsked, ?_, hlookup, hstatic, ?_, ?_, ?_, ?_, rfl⟩
  · exact repeats_resolveContainer _ _ mode mode' r.fieldAsked container r₁ hr.sound h₁ _ later₁
  · exact (repeats_checkSubtypes _ _ _ _ mode mode' _).passes hr₁.sound h₂ later₂
  · exact repeats_checkStored u mode mode' r₂ () r₃ hr₂.sound h₃ _ later₃
  · exact repeats_checkAccess _ _ _ _ _ mode mode' _ r₃ () r₄ hr₃.sound h₄ _ later₄
  · exact constrainAll_again hr₄.sound hr₄.apart h₅ later₅

/-- Something is called in every later state when something was called once. -/
lemma called_again {u : MethodUse} {m target : MethodHandle} (hr : r.area.Steady)
    (hstatic : m.method.isStatic = u.isStatic)
    (hknown : u.target.isInterface = false → m.method.isVirtual = true →
      ∀ ref : ClassRef, u.instances = [.symbolic ref] → IsPlain ref.name →
        ∃ c, r.area.published? ref.referer.loader ref.name = some c)
    (h : if u.isSpecial then target = m ∧ r = r' else devirtualize m u.instances r = .ok target r')
    (hq : Evolves r' q) :
    ∃ target' q',
      (if u.isSpecial then target' = m ∧ q = q'
        else devirtualize m u.instances q = .ok target' q') ∧
      Recalled u r'.area q.area target target' ∧ (u.isStatic = true → q' = q) := by
  by_cases hspecial : u.isSpecial = true
  · simp only [if_pos hspecial] at h ⊢
    obtain ⟨rfl, rfl⟩ := h
    refine ⟨target, q, ⟨rfl, rfl⟩, recalled_self fun c hc => ?_, fun _ => rfl⟩
    rw [hc.isSpecial] at hspecial
    cases hspecial
  · simp only [if_neg hspecial] at h ⊢
    obtain ⟨target', q', hagain, hrecalled⟩ :=
      devirtualize_again hr (by simpa using hspecial) hstatic hknown h hq
    refine ⟨target', q', hagain, hrecalled, fun husestatic => ?_⟩
    rw [devirtualize_of_not_single (by simp [Method.isVirtual, hstatic, husestatic])] at hagain
    cases hagain
    rfl

/-- A use of a method that was resolved once is resolved again from then on, to the same method
unless the class of its object has been found since. -/
lemma gives_resolveMethod_again {u : MethodUse} {mode : ResolveMode} {target : MethodHandle}
    (hr : r.area.Steady) (h : Gives (resolveMethod u mode) r target r') (hq : Evolves r' q)
    (mode' : ResolveMode) :
    ∃ target' q', Gives (resolveMethod u mode') q target' q' ∧
      Recalled u r'.area q.area target target' ∧ (u.isStatic = true → Alike q q') := by
  obtain ⟨container, m, r₁, r₂, r₃, r₄, r₅, r₆, r₇, h₁, h₂, hstatic, h₃, h₄, h₅, h₆, h₇, rfl⟩ :=
    gives_resolveMethod.1 h
  obtain ⟨e₁, e₂, e₃, e₄, e₅, e₆, e₇⟩ := evolves_resolveMethod hr.sound h₁ h₂ h₃ h₄ h₅ h₆ h₇
  have hr₁ := e₁.steady hr
  have hr₂ := e₂.steady hr₁
  have hr₃ := e₃.steady hr₂
  have hr₄ := e₄.steady hr₃
  have hr₅ := e₅.steady hr₄
  have hr₆ := e₆.steady hr₅
  have later₇ : Evolves r₇ q.methodAsked := ⟨hq.area, hq.config⟩
  have later₆ := e₇.trans later₇
  have later₅ := e₆.trans later₆
  have later₄ := e₅.trans later₅
  have later₃ := e₄.trans later₄
  have later₂ := e₃.trans later₃
  have later₁ := e₂.trans later₂
  -- Where the container is a class, the check of the object has loaded the object's class.
  have hknown : u.target.isInterface = false → m.method.isVirtual = true →
      ∀ ref : ClassRef, u.instances = [.symbolic ref] → IsPlain ref.name →
        ∃ c, r₆.area.published? ref.referer.loader ref.name = some c := by
    intro hkind hvirtual ref hinstances hplain
    have hobject : u.isStatic = false := by
      rw [← hstatic]
      simp only [Method.isVirtual, Bool.and_eq_true, Bool.not_eq_true'] at hvirtual
      exact hvirtual.1.1
    have hclass : container.isInterface = false := (gives_lookupTarget.1 h₂).1.trans hkind
    simp only [Passes, hobject, Bool.not_false, if_true, hinstances] at h₃
    obtain ⟨c, hc⟩ := published?_of_checkSubtypes hr₂.sound hclass hplain h₃
    exact ⟨c, Area.kept_of_steps ((e₄.trans e₅).trans e₆).area hr₃.sound hc⟩
  obtain ⟨target', q₇, hcalled, hrecalled, hleft⟩ := called_again hr₆ hstatic hknown h₇ later₇
  refine ⟨target', q₇.reported u.text target'.text, ?_, hrecalled, ?_⟩
  · refine gives_resolveMethod.2 ⟨container, m, q.methodAsked, q.methodAsked, q.methodAsked,
      q.methodAsked, q.methodAsked, q.methodAsked, q₇, ?_, ?_, hstatic, ?_, ?_, ?_, ?_, hcalled,
      rfl⟩
    · exact repeats_resolveContainer _ _ mode mode' r.methodAsked container r₁ hr.sound h₁ _ later₁
    · exact repeats_lookupTarget _ _ r₁ m r₂ hr₁.sound h₂ _ later₂
    · exact (repeats_checkSubtypes _ _ _ _ mode mode' _).passes hr₂.sound h₃ later₃
    · exact repeats_checkArguments _ mode mode' _ _ r₃ () r₄ hr₃.sound h₄ _ later₄
    · exact repeats_checkAccess _ _ _ _ _ mode mode' _ r₄ () r₅ hr₄.sound h₅ _ later₅
    · exact constrainAll_again hr₅.sound hr₅.apart h₆ later₆
  · intro husestatic
    rw [hleft husestatic]
    exact ⟨rfl, rfl⟩

end Resolver

end Linkage
