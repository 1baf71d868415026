import Linkage.Area.Boot
import Linkage.Proofs.Resolver.Success

/-!
# Protected members of objects

A protected member of another package may be used on objects of the referring class only. The
classes to check are collected when the use is created, with the class in mind that the reference
names; what needs no check against *that* class is left out, and then it is missing when the object
is checked against the referring class.
-/

namespace Linkage

/-! ### The classes to check -/

/-- No class is left to check when an object of type `t` is expected to be of a class with the name
`declared`. -/
def ReferenceType.Exempt (t : ReferenceType) (declared : String) : Prop :=
  declared = objectName ∨ t.merged = none ∧ t.mention.name = declared

lemma SubtypeSet.mem_ofValue {t : ReferenceType} {declared : String} {m : Mention}
    (h : ¬ t.Exempt declared) (hm : m ∈ t.branches) :
    m ∈ SubtypeSet.ofValue (.reference t) declared := by
  simp only [ReferenceType.Exempt, not_or, not_and] at h
  unfold ReferenceType.branches at hm
  cases hmerged : t.merged with
  | some ms => simpa [SubtypeSet.ofValue, h.1, hmerged] using hm
  | none => simpa [SubtypeSet.ofValue, h.1, hmerged, h.2 hmerged] using hm

lemma FieldUse.create_object {method : MethodHandle} {target : FieldRef} {isPut : Bool}
    {value : Option ValueType} {t : ReferenceType} {u : FieldUse}
    (h : FieldUse.create method target false isPut (some (.reference t)) value = .ok u) :
    u.target = target ∧ u.isStatic = false ∧
      u.instances = SubtypeSet.ofValue (.reference t) target.container.name := by
  simp only [FieldUse.create, instanceSet, Bool.false_eq_true, if_false, pure_bind] at h
  split at h
  · split at h
    · split at h <;> cases h <;> exact ⟨rfl, rfl, rfl⟩
    · cases h
      exact ⟨rfl, rfl, rfl⟩
  · cases h
    exact ⟨rfl, rfl, rfl⟩

lemma MethodUse.create_object {method : MethodHandle} {target : MethodRef} {isSpecial : Bool}
    {arguments : List ValueType} {t : ReferenceType} {u : MethodUse}
    (h : MethodUse.create method target false isSpecial (some (.reference t)) arguments = .ok u) :
    u.target = target ∧ u.isStatic = false ∧
      u.instances = SubtypeSet.ofValue (.reference t) target.container.name := by
  simp only [MethodUse.create, instanceSet, Bool.false_and, Bool.false_eq_true, if_false] at h
  cases hsets : argumentSets method target arguments with
  | error e =>
    rw [hsets] at h
    cases h
  | ok sets =>
    rw [hsets] at h
    cases h
    exact ⟨rfl, rfl, rfl⟩

namespace Resolver

/-! ### What is checked -/

/-- The use of an instance member on an object of type `t` was created and resolved. The reference
looks for the member in `container`; the member that lookup finds has these flags and is declared
in `owner`. -/
inductive UsesObject (t : ReferenceType) : ClassRef → Class → Flags → Prop where
  | field {method : MethodHandle} {target : FieldRef} {isPut : Bool} {value : Option ValueType}
      {u : FieldUse} {mode : ResolveMode} {r r' : Resolver} {f : FieldHandle}
      (created : FieldUse.create method target false isPut (some (.reference t)) value = .ok u)
      (resolved : Gives (resolveField u mode) r f r') :
      UsesObject t target.container f.owner f.field.flags
  | method {method : MethodHandle} {target : MethodRef} {isSpecial : Bool}
      {arguments : List ValueType} {u : MethodUse} {mode : ResolveMode} {r r₁ r' : Resolver}
      {m called : MethodHandle}
      (created : MethodUse.create method target false isSpecial (some (.reference t)) arguments =
        .ok u)
      (found : Gives (foundMethod u mode) r m r₁)
      (resolved : Gives (resolveMethod u mode) r called r') :
      UsesObject t target.container m.owner m.method.flags

section

variable {t : ReferenceType} {container : ClassRef} {owner : Class} {flags : Flags}

/-- What a resolved use of a protected member of another package was checked for. -/
lemma UsesObject.accepted (h : UsesObject t container owner flags)
    (hp : flags.visibility = .subclasses) (hd : container.referer.samePackage owner = false) :
    accepts owner container.referer ∧
      (container.referer.isInterface = false →
        ∀ c, .loaded c ∈ SubtypeSet.ofValue (.reference t) container.name →
          accepts container.referer c) := by
  cases h with
  | field created resolved =>
    obtain ⟨htarget, hstatic, hinstances⟩ := FieldUse.create_object created
    obtain ⟨_, _, _, _, _, _, -, -, -, -, -, haccess, -⟩ := gives_resolveField.1 resolved
    rw [FieldUse.referer, htarget, hstatic, hinstances] at haccess
    obtain ⟨howner, hobject⟩ := gives_checkAccess haccess hp hd
    exact ⟨howner, hobject rfl⟩
  | method created found resolved =>
    obtain ⟨htarget, hstatic, hinstances⟩ := MethodUse.create_object created
    obtain ⟨_, m, _, _, _, _, _, _, _, hcontainer, hlookup, -, -, -, haccess, -⟩ :=
      gives_resolveMethod.1 resolved
    obtain ⟨rfl, -⟩ := Gives.unique (gives_foundMethod.2 ⟨_, _, hcontainer, hlookup⟩) found
    rw [MethodUse.referer, htarget, hstatic, hinstances] at haccess
    obtain ⟨howner, hobject⟩ := gives_checkAccess haccess hp hd
    exact ⟨howner, hobject rfl⟩

/-- Protected members of another package are used by subclasses, and on objects of the referring
class, exactly if this is so in the cases that no check covers: a declaring class that goes by the
name of the top of the hierarchy, a referring class that does, and objects whose type is exempt
from checks against the class that the reference names. -/
theorem protected_use_iff (h : UsesObject t container owner flags)
    (hp : flags.visibility = .subclasses) (hd : container.referer.samePackage owner = false) :
    (container.referer.isAssignableTo owner = true ∧
      (container.referer.isInterface = false →
        ∀ c, .loaded c ∈ t.branches → c.isAssignableTo container.referer = true)) ↔
    ((owner.name = objectName → container.referer.isAssignableTo owner = true) ∧
      (container.referer.isInterface = false →
        t.Exempt container.name ∨ container.referer.name = objectName →
          ∀ c, .loaded c ∈ t.branches → c.isAssignableTo container.referer = true)) := by
  obtain ⟨howner, hobject⟩ := h.accepted hp hd
  simp only [accepts, Bool.or_eq_true, decide_eq_true_eq] at howner hobject
  constructor
  · rintro ⟨hsub, hbranches⟩
    exact ⟨fun _ => hsub, fun hi _ => hbranches hi⟩
  · rintro ⟨hsub, hbranches⟩
    refine ⟨howner.elim id hsub, fun hi c hc => ?_⟩
    by_cases hopen : t.Exempt container.name ∨ container.referer.name = objectName
    · exact hbranches hi hopen c hc
    · obtain ⟨hexempt, hname⟩ := not_or.1 hopen
      exact (hobject hi c (SubtypeSet.mem_ofValue hexempt hc)).resolve_right hname

end

/-! ### A protected field -/

/-- A class with a protected field. -/
def baseDefinition : Definition :=
  { name := "a/Base"
    flags := Flag.accPublic.mask
    fields := [⟨Flag.accProtected.mask, "f", .primitive .int⟩] }

/-- A subclass in another package. -/
def subDefinition : Definition :=
  { name := "b/Sub"
    flags := Flag.accPublic.mask
    superclass := some "a/Base"
    methods := [⟨Flag.accPublic.mask, "m", ⟨[], .void⟩⟩] }

/-- The resolver when both classes are defined. -/
def protectedStart : Resolver :=
  { area := (Area.initial.define .bootstrap baseDefinition).define .bootstrap subDefinition }

/-- Reads the field from the code of the subclass, on an object of the class with a name. The
object's class and the subclass come back with the field. -/
def readProtected (object : String) : ResolutionM (Class × Class × FieldHandle) := do
  let c ← perform (Area.load .bootstrap object)
  let sub ← perform (Area.load .bootstrap subDefinition.name)
  match sub.methodAt? 0 with
  | none => defer
  | some m =>
    match FieldUse.create m ⟨⟨sub, baseDefinition.name⟩, "f", .primitive .int⟩ false false
      (some (.reference (.ofClass c))) none with
    | .error e => fail e
    | .ok u =>
      let f ← resolveField u .eager
      return (c, sub, f)

lemma usesObject_of_readProtected {object : String} {r r' : Resolver} {c sub : Class}
    {f : FieldHandle} (h : Gives (readProtected object) r (c, sub, f) r') :
    UsesObject (.ofClass c) ⟨sub, baseDefinition.name⟩ f.owner f.field.flags := by
  unfold readProtected at h
  simp only [gives_bind] at h
  obtain ⟨c', r₁, -, sub', r₂, -, h⟩ := h
  split at h
  · exact absurd h gives_defer
  · split at h
    · exact absurd h gives_fail
    · next u hcreate =>
      simp only [gives_bind, gives_pure] at h
      obtain ⟨f', r₃, hf, heq, -⟩ := h
      cases heq
      exact .field hcreate hf

/-- On an object of the subclass the field is read as it should be. -/
theorem protected_use_of_sub :
    ∃ c sub f r', Gives (readProtected subDefinition.name) protectedStart (c, sub, f) r' ∧
      f.field.flags.visibility = .subclasses ∧ sub.samePackage f.owner = false ∧
      sub.isAssignableTo f.owner = true ∧
      (sub.isInterface = false →
        ∀ d, .loaded d ∈ (ReferenceType.ofClass c).branches → d.isAssignableTo sub = true) := by
  have htest : givesWhere (readProtected subDefinition.name) (fun (c, sub, f) _ =>
      f.field.flags.visibility = .subclasses && !sub.samePackage f.owner &&
        f.owner.name ≠ objectName && sub.name ≠ objectName && c.name = subDefinition.name)
      protectedStart = true := by
    decide +kernel
  obtain ⟨⟨c, sub, f⟩, r', hgives, haccept⟩ := exists_gives htest
  simp only [Bool.and_eq_true, decide_eq_true_eq, Bool.not_eq_true'] at haccept
  obtain ⟨⟨⟨⟨hp, hd⟩, howner⟩, hsub⟩, hc⟩ := haccept
  have hexempt : ¬ (ReferenceType.ofClass c).Exempt baseDefinition.name := by
    simp only [ReferenceType.Exempt, ReferenceType.ofClass, Mention.name, hc]
    decide
  refine ⟨c, sub, f, r', hgives, hp, hd,
    (protected_use_iff (usesObject_of_readProtected hgives) hp hd).2 ⟨fun h => absurd h howner, ?_⟩⟩
  rintro - (h | h)
  · exact absurd h hexempt
  · exact absurd h hsub

/-- On an object of the class that the reference names the field is read as well, although that
class is not assignable to the referring one. -/
theorem protected_use_of_base :
    ∃ c sub f r', Gives (readProtected baseDefinition.name) protectedStart (c, sub, f) r' ∧
      UsesObject (.ofClass c) ⟨sub, baseDefinition.name⟩ f.owner f.field.flags ∧
      f.field.flags.visibility = .subclasses ∧ sub.samePackage f.owner = false ∧
      sub.isInterface = false ∧ .loaded c ∈ (ReferenceType.ofClass c).branches ∧
      c.isAssignableTo sub = false := by
  have htest : givesWhere (readProtected baseDefinition.name) (fun (c, sub, f) _ =>
      f.field.flags.visibility = .subclasses && !sub.samePackage f.owner && !sub.isInterface &&
        !c.isAssignableTo sub) protectedStart = true := by
    decide +kernel
  obtain ⟨⟨c, sub, f⟩, r', hgives, haccept⟩ := exists_gives htest
  simp only [Bool.and_eq_true, decide_eq_true_eq, Bool.not_eq_true'] at haccept
  obtain ⟨⟨⟨hp, hd⟩, hi⟩, hno⟩ := haccept
  exact ⟨c, sub, f, r', hgives, usesObject_of_readProtected hgives, hp, hd, hi,
    List.mem_cons_self, hno⟩

end Resolver

end Linkage
