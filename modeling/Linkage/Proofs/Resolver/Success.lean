import Linkage.Proofs.Outcome
import Linkage.Resolver.Resolve

/-!
# Successful resolutions

A resolution that is neither deferred nor fails went through every one of its checks. The inversion
lemmas here say, for each part of the resolver, which checks these were and between which states
they passed. What `resolveField` and `resolveMethod` do is said once, in `gives_resolveField` and
`gives_resolveMethod`.
-/

namespace Linkage

namespace Resolver

open ReferenceType

variable {α β : Type}

/-- From one state a resolution gives a value, neither deferred nor failing, and ends in another. -/
def Gives (x : ResolutionM α) (r : Resolver) (v : α) (r' : Resolver) : Prop :=
  x.run r = .ok (some v) r'

lemma Gives.unique {x : ResolutionM α} {r r₁ r₂ : Resolver} {v w : α} (h : Gives x r v r₁)
    (h' : Gives x r w r₂) : v = w ∧ r₁ = r₂ := by
  unfold Gives at h h'
  rw [h] at h'
  cases h'
  exact ⟨rfl, rfl⟩

/-- Whether a resolution gives a value and ends in a state that a test accepts. -/
def givesWhere (x : ResolutionM α) (accept : α → Resolver → Bool) (r : Resolver) : Bool :=
  match x.run r with
  | .ok (some v) r' => accept v r'
  | _ => false

lemma exists_gives {x : ResolutionM α} {accept : α → Resolver → Bool} {r : Resolver}
    (h : givesWhere x accept r = true) : ∃ v r', Gives x r v r' ∧ accept v r' = true := by
  unfold givesWhere at h
  split at h
  · next v r' hx => exact ⟨v, r', hx, h⟩
  · cases h

/-! ### Building blocks -/

lemma gives_bind {x : ResolutionM α} {f : α → ResolutionM β} {r r' : Resolver} {v : β} :
    Gives (x >>= f) r v r' ↔ ∃ w s, Gives x r w s ∧ Gives (f w) s v r' := by
  have hrun : (x >>= f).run = x.run >>= fun o => o.elim (pure none) fun w => (f w).run := by
    rw [OptionT.run_bind]
    rfl
  unfold Gives
  rw [hrun, bind_eq_ok]
  constructor
  · rintro ⟨_ | w, s, hx, hf⟩
    · cases hf
    · exact ⟨w, s, hx, hf⟩
  · rintro ⟨w, s, hx, hf⟩
    exact ⟨some w, s, hx, hf⟩

@[simp] lemma gives_pure {v w : α} {r r' : Resolver} :
    Gives (pure v) r w r' ↔ v = w ∧ r = r' := by
  change EStateM.Result.ok (some v) r = .ok (some w) r' ↔ _
  simp

@[simp] lemma gives_fail {f : Fault} {v : α} {r r' : Resolver} : ¬ Gives (fail f) r v r' := by
  intro h
  cases h

@[simp] lemma gives_defer {v : α} {r r' : Resolver} : ¬ Gives defer r v r' := by
  intro h
  cases h

@[simp] lemma gives_current {r v r' : Resolver} : Gives current r v r' ↔ r = v ∧ r = r' := by
  change EStateM.Result.ok (some r) r = .ok (some v) r' ↔ _
  simp

@[simp] lemma gives_counted {x : ResolutionM α} {r r' : Resolver} {v : α} :
    Gives (counted x) r v r' ↔ Gives x r v r' := by
  unfold Gives counted
  rw [OptionT.run_mk, bind_eq_ok]
  constructor
  · rintro ⟨_ | w, s, hx, h⟩
    · cases h
    · cases h
      exact hx
  · intro hx
    exact ⟨some v, r', hx, rfl⟩

lemma gives_lift {x : ResolverM α} {r r' : Resolver} {v : α} :
    Gives (OptionT.lift x) r v r' ↔ x r = .ok v r' := by
  unfold Gives OptionT.lift
  rw [OptionT.run_mk, bind_eq_ok]
  constructor
  · rintro ⟨w, s, hx, h⟩
    cases h
    exact hx
  · intro hx
    exact ⟨v, r', hx, rfl⟩

lemma onArea_eq_ok {x : AreaM α} {r r' : Resolver} {v : α} :
    onArea x r = .ok v r' ↔ ∃ a, x r.area = .ok v a ∧ r' = { r with area := a } := by
  unfold onArea
  cases x r.area <;> simp [eq_comm, and_comm]

lemma gives_perform {x : AreaM α} {r r' : Resolver} {v : α} :
    Gives (perform x) r v r' ↔ ∃ a, x r.area = .ok v a ∧ r' = { r with area := a } := by
  rw [perform, gives_lift, onArea_eq_ok]

lemma gives_count {f : ResolverStats → ResolverStats} {r r' : Resolver} {v : Unit} :
    Gives (count f) r v r' ↔ r' = { r with stats := f r.stats } := by
  rw [count, gives_lift, modify_apply]
  simp [eq_comm]

lemma gives_report {what result : String} {r r' : Resolver} {v : Unit} :
    Gives (report what result) r v r' ↔
      r' = { r with reports := r.reports ++ [s!"Resolved {what} to {result}"] } := by
  rw [report, gives_lift, modify_apply]
  simp [eq_comm]

/-! ### Checks on the way -/

/-- A check that is made only under a condition passes between two states. -/
def Passes (p : Prop) [Decidable p] (x : ResolutionM Unit) (r s : Resolver) : Prop :=
  if p then Gives x r () s else r = s

lemma passes_counted {p : Prop} [Decidable p] {x : ResolutionM Unit} {r s : Resolver} :
    Passes p (counted x) r s ↔ Passes p x r s := by
  unfold Passes
  split
  · exact gives_counted
  · exact Iff.rfl

/-- A resolution that makes a check under a condition and goes on. -/
lemma gives_check {p : Prop} [Decidable p] {x : ResolutionM Unit} {k : Unit → ResolutionM α}
    {r r' : Resolver} {v : α} :
    Gives (if p then x >>= k else k ()) r v r' ↔ ∃ s, Passes p x r s ∧ Gives (k ()) s v r' := by
  by_cases h : p
  · simp only [h, if_true, Passes, gives_bind]
    constructor
    · rintro ⟨⟨⟩, s, hx, hk⟩
      exact ⟨s, hx, hk⟩
    · rintro ⟨s, hx, hk⟩
      exact ⟨(), s, hx, hk⟩
  · simp [h, Passes]

/-- A resolution that fails under a condition and goes on otherwise. -/
lemma gives_unless {p : Prop} [Decidable p] {f : Fault} {k : Unit → ResolutionM α}
    {r r' : Resolver} {v : α} :
    Gives (if p then fail f >>= k else k ()) r v r' ↔ ¬ p ∧ Gives (k ()) r v r' := by
  by_cases h : p <;> simp [h, gives_bind]

/-! ### Subtype checks -/

/-- What the resolver accepts as a value of a class: what is assignable to it, and everything if
the class goes by the name of the top of the hierarchy. -/
def accepts (dest value : Class) : Bool := value.isAssignableTo dest || dest.name = objectName

lemma classAssignable_loaded (v d : Class) :
    classAssignable (.loaded v) (.loaded d) = pure (.ofBool (accepts d v)) := by
  rw [classAssignable]
  by_cases hs : v.same d
  · have hv : v.isAssignableTo d = true := by
      unfold Class.isAssignableTo
      simp [hs]
    simp [Mention.knownSame, hs, accepts, hv, Assignable.ofBool]
  · by_cases ho : d.name = objectName
    · simp [Mention.isObject, Mention.name, ho, accepts, Assignable.ofBool]
    · simp [Mention.knownSame, hs, Mention.isObject, Mention.name, ho, Mention.find, accepts]

lemma assignableToClass_loaded (v d : Class) :
    (ValueType.ofMention (.loaded v)).assignableToClass (.loaded d) =
      pure (.ofBool (accepts d v)) := by
  change allAssignable (.loaded d) [.loaded v] = _
  simp [allAssignable, classAssignable_loaded]

/-- The classes of a set are resolved and compared one after the other. -/
lemma gives_checkMembers_cons {referer type : Class} {reversed : Bool} {mode : ResolveMode}
    {kind : FaultKind} {m : Mention} {ms : SubtypeSet} {r r' : Resolver} :
    Gives (checkMembers referer type reversed mode kind (m :: ms)) r () r' ↔
      ∃ c s, Gives (resolveMention m mode) r c s ∧
        accepts (if reversed then c else type) (if reversed then type else c) = true ∧
        Gives (checkMembers referer type reversed mode kind ms) s () r' := by
  -- Once both classes are known, the area is not looked at.
  have hanswer : ∀ (value dest : Class) (s : Resolver),
      Gives (do
        let answer ← perform
          ((ValueType.ofMention (.loaded value)).assignableToClass (.loaded dest))
        if answer = .yes then checkMembers referer type reversed mode kind ms
        else fail (.notAssignable kind value.name dest.name referer.name)) s () r' ↔
      accepts dest value = true ∧
        Gives (checkMembers referer type reversed mode kind ms) s () r' := by
    intro value dest s
    simp only [assignableToClass_loaded, gives_bind, gives_perform, pure_apply,
      EStateM.Result.ok.injEq]
    constructor
    · rintro ⟨_, _, ⟨_, ⟨rfl, rfl⟩, rfl⟩, h⟩
      cases haccepts : accepts dest value with
      | true =>
        rw [haccepts] at h
        exact ⟨rfl, h⟩
      | false =>
        rw [haccepts] at h
        exact absurd h gives_fail
    · rintro ⟨haccepts, h⟩
      refine ⟨_, s, ⟨_, ⟨rfl, rfl⟩, rfl⟩, ?_⟩
      rw [haccepts]
      exact h
  rw [checkMembers, gives_bind]
  simp only [gives_counted]
  refine exists_congr fun c => exists_congr fun s => and_congr_right fun _ => ?_
  cases reversed with
  | true => exact hanswer type c s
  | false => exact hanswer c type s

lemma gives_checkMembers {referer type : Class} {reversed : Bool} {mode : ResolveMode}
    {kind : FaultKind} {set : SubtypeSet} {r r' : Resolver}
    (h : Gives (checkMembers referer type reversed mode kind set) r () r') {c : Class}
    (hc : .loaded c ∈ set) :
    if reversed then accepts c type else accepts type c := by
  induction set generalizing r with
  | nil => cases hc
  | cons m ms ih =>
    obtain ⟨c', r₁, hm, haccepts, h⟩ := gives_checkMembers_cons.1 h
    rcases List.mem_cons.1 hc with rfl | hms
    · obtain ⟨rfl, rfl⟩ := gives_pure.1 hm
      cases reversed <;> exact haccepts
    · exact ih h hms

/-- A set that has something to check is checked against the class that is mentioned, unless that is
an interface that takes every value. -/
lemma gives_checkSubtypes_iff {referer : Class} {type : Mention} {reversed : Bool}
    {mode : ResolveMode} {kind : FaultKind} {set : SubtypeSet} {r r' : Resolver} (hne : set ≠ []) :
    Gives (checkSubtypes referer set type reversed mode kind) r () r' ↔
      ∃ c s, Gives (resolveMention type mode) r c s ∧
        if !reversed && c.isInterface then s = r'
        else Gives (checkMembers referer c reversed mode kind set) s () r' := by
  have hempty : set.isEmpty = false := by simpa using hne
  have hafter : ∀ (c : Class) (s : Resolver),
      Gives (if !reversed && c.isInterface then pure ()
        else checkMembers referer c reversed mode kind set) s () r' ↔
      if !reversed && c.isInterface then s = r'
      else Gives (checkMembers referer c reversed mode kind set) s () r' := by
    intro c s
    split
    · simp only [gives_pure, true_and]
    · exact Iff.rfl
  simp only [checkSubtypes, hempty, Bool.false_eq_true, if_false, gives_bind, gives_counted]
  exact exists_congr fun c => exists_congr fun s => and_congr_right fun _ => hafter c s

/-- Unless the class is an interface that takes every value, a check that passes was made for every
loaded class of the set. -/
lemma gives_checkSubtypes {referer type : Class} {reversed : Bool} {mode : ResolveMode}
    {kind : FaultKind} {set : SubtypeSet} {r r' : Resolver}
    (h : Gives (checkSubtypes referer set (.loaded type) reversed mode kind) r () r')
    (hi : type.isInterface = true → reversed = true) {c : Class} (hc : .loaded c ∈ set) :
    if reversed then accepts c type else accepts type c := by
  have hne : set ≠ [] := List.ne_nil_of_mem hc
  obtain ⟨_, _, hm, h⟩ := (gives_checkSubtypes_iff hne).1 h
  obtain ⟨rfl, rfl⟩ := gives_pure.1 hm
  split at h
  · next hboth =>
    simp only [Bool.and_eq_true, Bool.not_eq_true'] at hboth
    exact absurd (hi hboth.2) (by simp [hboth.1])
  · exact gives_checkMembers h hc

/-- An access to a protected member of another package was checked against the referring class. -/
lemma gives_checkAccess {referer declaring : Class} {flags : Flags} {isStatic : Bool}
    {instances : SubtypeSet} {mode : ResolveMode} {member : String} {r r' : Resolver}
    (h : Gives (checkAccess referer declaring flags isStatic instances mode member) r () r')
    (hp : flags.visibility = .subclasses) (hd : referer.samePackage declaring = false) :
    accepts declaring referer ∧
      (isStatic = false → referer.isInterface = false → ∀ c, .loaded c ∈ instances →
        accepts referer c) := by
  simp only [checkAccess, Class.memberAccess, hp, hd, Bool.false_eq_true, if_false, gives_bind,
    gives_counted] at h
  obtain ⟨⟨⟩, r₁, hsub, h⟩ := h
  refine ⟨?_, ?_⟩
  · exact gives_checkSubtypes hsub (fun _ => rfl) List.mem_cons_self
  · rintro rfl hi c hc
    simp only [Bool.not_false, if_true, gives_counted] at h
    exact gives_checkSubtypes h (by simp [hi]) hc

/-! ### Fields, methods and classes -/

/-- The check of the value that a field use stores. -/
def checkStored (u : FieldUse) (mode : ResolveMode) : ResolutionM Unit :=
  match u.isPut, u.target.typeRef? with
  | true, some type => checkSubtypes u.referer u.values (.symbolic type) false mode .linkage
  | _, _ => pure ()

/-- The resolver after one more question about a field. -/
def fieldAsked (r : Resolver) : Resolver :=
  { r with stats := { r.stats with fields := r.stats.fields + 1 } }

/-- The resolver after one more question about a class. -/
def classAsked (r : Resolver) : Resolver :=
  { r with stats := { r.stats with classes := r.stats.classes + 1 } }

/-- The resolver after one more question about a method. -/
def methodAsked (r : Resolver) : Resolver :=
  { r with stats := { r.stats with methods := r.stats.methods + 1 } }

/-- The resolver after a report. -/
def reported (r : Resolver) (what result : String) : Resolver :=
  { r with reports := r.reports ++ [s!"Resolved {what} to {result}"] }

/-- What is left to do with a field that suits its use: the access is checked, the loaders have to
agree on the type, and the field is given. -/
def giveField (u : FieldUse) (mode : ResolveMode) (field : FieldHandle) :
    ResolutionM FieldHandle := do
  counted (checkAccess u.referer field.owner field.field.flags u.isStatic u.instances mode
    s!"field {field.text}")
  OptionT.lift (constrainAll field.owner u.referer u.target.descriptor.elementClassName?.toList)
  report u.text field.text
  return field

/-- The steps by which a field use is resolved. -/
lemma resolveField_eq (u : FieldUse) (mode : ResolveMode) :
    resolveField u mode = (do
      count fun s => { s with fields := s.fields + 1 }
      let container ← resolveContainer u.target.container u.method mode
      let some field := container.lookupField? u.target.name u.target.descriptor
        | fail (.fieldMissing u.target.text)
      if field.field.isStatic ≠ u.isStatic then
        fail (.wrongStaticness u.isStatic s!"field {field.text}")
      if !u.isStatic then
        counted (checkSubtypes u.referer u.instances (.loaded field.owner) false mode .linkage)
      counted (checkStored u mode)
      giveField u mode field) := by
  unfold resolveField giveField checkStored
  refine congrArg _ (funext fun _ => congrArg _ (funext fun c => ?_))
  -- A use that stores nothing goes on at once.
  cases c.lookupField? u.target.name u.target.descriptor <;> cases u.isPut <;>
    cases u.target.typeRef? <;> rfl

lemma gives_giveField {u : FieldUse} {mode : ResolveMode} {r r' : Resolver} {f g : FieldHandle} :
    Gives (giveField u mode f) r g r' ↔ ∃ r₁ r₂,
      Gives (checkAccess u.referer f.owner f.field.flags u.isStatic u.instances mode
        s!"field {f.text}") r () r₁ ∧
      constrainAll f.owner u.referer u.target.descriptor.elementClassName?.toList r₁ = .ok () r₂ ∧
      f = g ∧ r' = r₂.reported u.text f.text := by
  unfold giveField
  simp only [gives_bind, gives_counted, gives_lift, gives_report, gives_pure]
  constructor
  · rintro ⟨⟨⟩, r₁, ha, ⟨⟩, r₂, hl, -, _, rfl, rfl, rfl⟩
    exact ⟨r₁, r₂, ha, hl, rfl, rfl⟩
  · rintro ⟨r₁, r₂, ha, hl, rfl, rfl⟩
    exact ⟨(), r₁, ha, (), r₂, hl, (), _, rfl, rfl, rfl⟩

/-- A field use is resolved by finding its container and the field, checking the object, the value
to be stored and the access, in this order, and making the loaders agree on the type of the
field. -/
lemma gives_resolveField {u : FieldUse} {mode : ResolveMode} {r r' : Resolver}
    {f : FieldHandle} :
    Gives (resolveField u mode) r f r' ↔
    ∃ container r₁ r₂ r₃ r₄ r₅,
      Gives (resolveContainer u.target.container u.method mode) r.fieldAsked container r₁ ∧
      container.lookupField? u.target.name u.target.descriptor = some f ∧
      f.field.isStatic = u.isStatic ∧
      Passes (!u.isStatic)
        (checkSubtypes u.referer u.instances (.loaded f.owner) false mode .linkage) r₁ r₂ ∧
      Gives (checkStored u mode) r₂ () r₃ ∧
      Gives (checkAccess u.referer f.owner f.field.flags u.isStatic u.instances mode
        s!"field {f.text}") r₃ () r₄ ∧
      constrainAll f.owner u.referer u.target.descriptor.elementClassName?.toList r₄ = .ok () r₅ ∧
      r' = r₅.reported u.text f.text := by
  rw [resolveField_eq]
  simp only [gives_bind, gives_count]
  constructor
  · rintro ⟨-, _, rfl, container, r₁, hc, h⟩
    split at h
    case h_2 => exact absurd h gives_fail
    next field hlookup =>
    rw [gives_unless, gives_check] at h
    obtain ⟨hstatic, r₂, hi, h⟩ := h
    obtain ⟨⟨⟩, r₃, hs, h⟩ := gives_bind.1 h
    obtain ⟨r₄, r₅, ha, hl, rfl, rfl⟩ := gives_giveField.1 h
    exact ⟨container, r₁, r₂, r₃, r₄, r₅, hc, hlookup, not_not.1 hstatic, passes_counted.1 hi,
      gives_counted.1 hs, ha, hl, rfl⟩
  · rintro ⟨container, r₁, r₂, r₃, r₄, r₅, hc, hlookup, hstatic, hi, hs, ha, hl, rfl⟩
    refine ⟨(), _, rfl, container, r₁, hc, ?_⟩
    rw [hlookup]
    dsimp only
    rw [gives_unless, gives_check]
    exact ⟨not_not.2 hstatic, r₂, passes_counted.2 hi, gives_bind.2
      ⟨(), r₃, gives_counted.2 hs, gives_giveField.2 ⟨r₄, r₅, ha, hl, rfl, rfl⟩⟩⟩

/-- The method that a use finds by lookup, whatever the object runs. -/
def foundMethod (u : MethodUse) (mode : ResolveMode) : ResolutionM MethodHandle := do
  count fun s => { s with methods := s.methods + 1 }
  let container ← resolveContainer u.target.container u.method mode
  lookupTarget container u.target

lemma gives_foundMethod {u : MethodUse} {mode : ResolveMode} {r r' : Resolver} {m : MethodHandle} :
    Gives (foundMethod u mode) r m r' ↔
      ∃ container r₁,
        Gives (resolveContainer u.target.container u.method mode) r.methodAsked container r₁ ∧
        Gives (lookupTarget container u.target) r₁ m r' := by
  simp only [foundMethod, gives_bind, gives_count]
  constructor
  · rintro ⟨-, _, rfl, container, r₁, hc, hm⟩
    exact ⟨container, r₁, hc, hm⟩
  · rintro ⟨container, r₁, hc, hm⟩
    exact ⟨(), _, rfl, container, r₁, hc, hm⟩

/-- The method that a use finds, when everything is checked but the agreement of the loaders. -/
def checkedMethod (u : MethodUse) (mode : ResolveMode) : ResolutionM MethodHandle := do
  count fun s => { s with methods := s.methods + 1 }
  let container ← resolveContainer u.target.container u.method mode
  let m ← lookupTarget container u.target
  if m.method.isStatic ≠ u.isStatic then
    fail (.wrongStaticness u.isStatic s!"method {m.text}")
  if !u.isStatic then
    counted (checkSubtypes u.referer u.instances (.loaded container) false mode .linkage)
  checkArguments u.referer mode u.target.descriptor.parameters (u.arguments.getD [])
  counted (checkAccess u.referer m.owner m.method.flags u.isStatic u.instances mode
    s!"method {m.text}")
  return m

/-- What is left to do with a method that suits its use: the loaders have to agree on the names in
it, and what a call really goes to is given. -/
def giveMethod (u : MethodUse) (m : MethodHandle) : ResolutionM MethodHandle := do
  OptionT.lift (constrainAll m.owner u.referer (agreedNames m))
  let target ← if u.isSpecial then pure m else OptionT.lift (devirtualize m u.instances)
  report u.text target.text
  return target

/-- The steps by which a method use is resolved. -/
lemma resolveMethod_eq (u : MethodUse) (mode : ResolveMode) :
    resolveMethod u mode = checkedMethod u mode >>= giveMethod u := by
  unfold resolveMethod checkedMethod giveMethod
  simp only [bind_assoc]
  refine congrArg _ (funext fun _ => congrArg _ (funext fun c => congrArg _ (funext fun m => ?_)))
  -- Both tests come out the same on either side.
  cases m.method.isStatic <;> cases u.isStatic <;> simp [bind_assoc]

/-- A method use is resolved by finding its container and the method, checking the object, the
arguments and the access, in this order, and making the loaders agree on the names in the method.
The method that is really called, `target`, need not be the one that was found, `m`. -/
lemma gives_resolveMethod {u : MethodUse} {mode : ResolveMode} {r r' : Resolver}
    {target : MethodHandle} :
    Gives (resolveMethod u mode) r target r' ↔
    ∃ container m r₁ r₂ r₃ r₄ r₅ r₆ r₇,
      Gives (resolveContainer u.target.container u.method mode) r.methodAsked container r₁ ∧
      Gives (lookupTarget container u.target) r₁ m r₂ ∧
      m.method.isStatic = u.isStatic ∧
      Passes (!u.isStatic)
        (checkSubtypes u.referer u.instances (.loaded container) false mode .linkage) r₂ r₃ ∧
      Gives (checkArguments u.referer mode u.target.descriptor.parameters (u.arguments.getD []))
        r₃ () r₄ ∧
      Gives (checkAccess u.referer m.owner m.method.flags u.isStatic u.instances mode
        s!"method {m.text}") r₄ () r₅ ∧
      constrainAll m.owner u.referer (agreedNames m) r₅ = .ok () r₆ ∧
      (if u.isSpecial then target = m ∧ r₆ = r₇
        else devirtualize m u.instances r₆ = .ok target r₇) ∧
      r' = r₇.reported u.text target.text := by
  unfold resolveMethod
  simp only [gives_bind, gives_count]
  constructor
  · rintro ⟨-, _, rfl, container, r₁, hc, m, r₂, hm, h⟩
    rw [gives_unless, gives_check] at h
    obtain ⟨hstatic, r₃, hi, h⟩ := h
    rw [passes_counted] at hi
    simp only [gives_bind, gives_counted, gives_lift] at h
    obtain ⟨⟨⟩, r₄, hargs, ⟨⟩, r₅, ha, ⟨⟩, r₆, hl, h⟩ := h
    split at h
    · next hspecial =>
      simp only [gives_bind, gives_pure, gives_report] at h
      obtain ⟨_, _, ⟨rfl, rfl⟩, ⟨⟩, _, rfl, rfl, rfl⟩ := h
      exact ⟨container, m, r₁, r₂, r₃, r₄, r₅, r₆, r₆, hc, hm, not_not.1 hstatic, hi, hargs, ha, hl,
        by simp [hspecial], rfl⟩
    · next hspecial =>
      simp only [gives_bind, gives_lift, gives_pure, gives_report] at h
      obtain ⟨_, r₇, hd, ⟨⟩, _, rfl, rfl, rfl⟩ := h
      exact ⟨container, m, r₁, r₂, r₃, r₄, r₅, r₆, r₇, hc, hm, not_not.1 hstatic, hi, hargs, ha, hl,
        by simp [hspecial, hd], rfl⟩
  · rintro ⟨container, m, r₁, r₂, r₃, r₄, r₅, r₆, r₇, hc, hm, hstatic, hi, hargs, ha, hl, hd, rfl⟩
    refine ⟨(), _, rfl, container, r₁, hc, m, r₂, hm, ?_⟩
    rw [gives_unless, gives_check]
    refine ⟨not_not.2 hstatic, r₃, passes_counted.2 hi, ?_⟩
    simp only [gives_bind, gives_counted, gives_lift]
    refine ⟨(), r₄, hargs, (), r₅, ha, (), r₆, hl, ?_⟩
    split at hd
    · next hspecial =>
      obtain ⟨rfl, rfl⟩ := hd
      rw [if_pos hspecial]
      simp only [gives_bind, gives_pure, gives_report]
      exact ⟨_, _, ⟨rfl, rfl⟩, (), _, rfl, rfl, rfl⟩
    · next hspecial =>
      rw [if_neg hspecial]
      simp only [gives_bind, gives_lift, gives_pure, gives_report]
      exact ⟨target, r₇, hd, (), _, rfl, rfl, rfl⟩

/-- A class use is resolved by resolving the name and checking the values. -/
lemma gives_resolveClass {u : ClassUse} {mode : ResolveMode} {r r' : Resolver} {c : Class} :
    Gives (resolveClass u mode) r c r' ↔
      ∃ r₁ r₂, Gives (resolveName u.referer (some u.method) u.target.name mode true)
          r.classAsked c r₁ ∧
        Gives (checkSubtypes u.referer u.values (.loaded c) false mode .linkage) r₁ () r₂ ∧
        r' = r₂.reported u.text c.name := by
  unfold resolveClass
  simp only [gives_bind, gives_count, gives_counted, gives_report, gives_pure]
  constructor
  · rintro ⟨-, _, rfl, _, r₁, hc, ⟨⟩, r₂, hs, ⟨⟩, _, rfl, rfl, rfl⟩
    exact ⟨r₁, r₂, hc, hs, rfl⟩
  · rintro ⟨r₁, r₂, hc, hs, rfl⟩
    exact ⟨(), _, rfl, c, r₁, hc, (), r₂, hs, (), _, rfl, rfl, rfl⟩

end Resolver

end Linkage
