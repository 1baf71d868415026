import Linkage.Proofs.Resolver.RepeatMembers
import Linkage.Proofs.Resolver.Values

/-!
# Objects whose members are used

A use of an instance member is checked against the object it is made on: the object has to be of the
class that declares the field, or of the class in which the method is looked for, unless that is an
interface. Asked again afterwards, the type of the object is known to be assignable to that class.

One case is not checked. An object that goes by the name in the reference is taken to be fine, which
it is for the class that the reference names. The field may be declared elsewhere: lookup goes from
an interface on to its superclass, and that class is not above the one it started from.
-/

namespace Linkage

open Relation

/-! ### Well-formed names -/

/-- The characters of the name of an array class: brackets in front of the letter of a primitive
type, or of a class name between `L` and `;`. -/
inductive IsArrayName : List Char → Prop where
  | primitive (p : Primitive) : IsArrayName ['[', p.letter]
  | object {cs : List Char} (h : '[' ∉ cs ∧ ';' ∉ cs) : IsArrayName ('[' :: 'L' :: (cs ++ [';']))
  | nested {cs : List Char} (h : IsArrayName cs) : IsArrayName ('[' :: cs)

/-- Whether a class name is well formed. -/
def IsWellFormed (name : String) : Prop :=
  ('[' ∉ name.toList ∧ ';' ∉ name.toList) ∨ IsArrayName name.toList

lemma readable_of_not_mem {cs : List Char} (h : '[' ∉ cs) : (Spelling.ofChars cs).Readable := by
  unfold Spelling.ofChars
  split
  · next rest => exact absurd List.mem_cons_self h
  · trivial

lemma IsArrayName.readable {cs : List Char} (h : IsArrayName cs) :
    (Spelling.ofChars cs).Readable := by
  induction h with
  | primitive p =>
    cases p <;>
    · simp only [Primitive.letter]
      unfold Spelling.ofChars
      rfl
  | @object cs h =>
    have hunwrap := unwrapObject?_object cs
    unfold Spelling.ofChars
    simp only [List.head?_cons]
    split
    · next element helement =>
      rw [hunwrap] at helement
      cases helement
      exact readable_of_not_mem h.1
    · trivial
  | @nested cs h ih =>
    have hhead : cs.head? = some '[' := by cases h <;> rfl
    unfold Spelling.ofChars
    simp only [hhead]
    exact ih

lemma IsWellFormed.isReadable {name : String} (h : IsWellFormed name) : IsReadable name := by
  rcases h with h | h
  · exact readable_of_not_mem h.1
  · exact h.readable

/-! ### Types of objects -/

/-- Types that come from classes named in the code of a referring class, with joins of control flow
in between. -/
inductive ValueType.Joined (referer : Class) : ValueType → Prop where
  | named {name : String} (h : IsWellFormed name) :
      Joined referer (.ofMention (.symbolic ⟨referer, name⟩))
  | join {t u v : ValueType} {a b : Area} (ht : Joined referer t) (hu : Joined referer u)
      (h : t.merge u a = .ok (some v) b) : Joined referer v

namespace ReferenceType

lemma mem_joinBranches {as bs : List Mention} {m : Mention} (h : m ∈ joinBranches as bs) :
    m ∈ as ∨ m ∈ bs := by
  induction bs generalizing as with
  | nil => exact .inl h
  | cons b bs ih =>
    rcases ih h with hmem | hmem
    · split at hmem
      · exact .inl hmem
      · rcases List.mem_append.1 hmem with hmem | hmem
        · exact .inl hmem
        · exact .inr (List.mem_cons.2 (.inl (List.mem_singleton.1 hmem)))
    · exact .inr (List.mem_cons_of_mem _ hmem)

/-- A join that keeps its branches is below a common supertype. -/
lemma of_commonSupertype {t u v : ReferenceType} {a b : Area} {ms : List Mention} (h : (do
      match ← commonSupertype t u with
      | some c => return some { ofClass c with merged := some ms }
      | none => return none : AreaM (Option ReferenceType)) a = .ok (some v) b) :
    ∃ c, commonSupertype t u a = .ok (some c) b ∧ v = { ofClass c with merged := some ms } := by
  obtain ⟨c, s, hc, h⟩ := bind_eq_ok.1 h
  cases c with
  | none => cases h
  | some c =>
    cases h
    exact ⟨c, hc, rfl⟩

/-- A join is the first type, or names the one class that is left, or keeps all branches below a
common supertype. -/
lemma merge_cases {t u v : ReferenceType} {a b : Area} (h : t.merge u a = .ok (some v) b) :
    v = t ∧ b = a ∧ t.merged = none ∧ u.merged = none ∧ t.mention.knownSame u.mention = true ∨
      (∃ m, joinBranches t.branches u.branches = [m] ∧ v = ofMention m ∧ b = a) ∨
      ∃ c, commonSupertype t u a = .ok (some c) b ∧
        v = { ofClass c with merged := some (joinBranches t.branches u.branches) } := by
  unfold merge at h
  split at h
  · next hsame =>
    cases h
    simp only [Bool.and_eq_true, Option.isNone_iff_eq_none] at hsame
    exact .inl ⟨rfl, rfl, hsame.1.1, hsame.1.2, hsame.2⟩
  · refine .inr ?_
    generalize joinBranches t.branches u.branches = ms at h
    rcases ms with _ | ⟨m, _ | ⟨m', ms⟩⟩
    · exact .inr (of_commonSupertype h)
    · cases h
      exact .inl ⟨m, rfl, rfl, rfl⟩
    · exact .inr (of_commonSupertype h)

/-- The branches of a join are branches of what is joined, provided that these are named. -/
lemma mem_branches_merge {t u v : ReferenceType} {a b : Area} (h : t.merge u a = .ok (some v) b)
    (hnamed : ∀ m, m ∈ t.branches ∨ m ∈ u.branches → ∃ ref, m = .symbolic ref) {m : Mention}
    (hm : m ∈ v.branches) : m ∈ t.branches ∨ m ∈ u.branches := by
  rcases merge_cases h with ⟨rfl, -⟩ | ⟨m', hone, rfl, -⟩ | ⟨c, -, rfl⟩
  · exact .inl hm
  · have hmem : m' ∈ t.branches ∨ m' ∈ u.branches :=
      mem_joinBranches (by rw [hone]; exact List.mem_singleton_self _)
    obtain ⟨ref, rfl⟩ := hnamed m' hmem
    rw [ofMention, branches_ofClassRef, List.mem_singleton] at hm
    exact hm ▸ hmem
  · exact mem_joinBranches hm

end ReferenceType

lemma ValueType.Joined.named_from {referer : Class} {t : ValueType} (h : t.Joined referer) :
    ∃ s, t = .reference s ∧ t.NamedFrom referer := by
  induction h with
  | @named name h =>
    refine ⟨_, rfl, ?_⟩
    rintro s ⟨⟩ m hm
    rw [ReferenceType.ofMention, ReferenceType.branches_ofClassRef, List.mem_singleton] at hm
    exact ⟨name, hm, h.isReadable⟩
  | @join t u v a b _ _ h iht ihu =>
    obtain ⟨t, rfl, ht⟩ := iht
    obtain ⟨u, rfl, hu⟩ := ihu
    have hboth : ∀ m, m ∈ t.branches ∨ m ∈ u.branches →
        ∃ n, m = .symbolic ⟨referer, n⟩ ∧ IsReadable n :=
      fun m hm => hm.elim (ht t rfl m) (hu u rfl m)
    simp only [ValueType.merge] at h
    obtain ⟨w, s, hw, h⟩ := bind_eq_ok.1 h
    cases w with
    | none => cases h
    | some w =>
      cases h
      refine ⟨w, rfl, ?_⟩
      rintro _ ⟨⟩ m hm
      refine hboth m (ReferenceType.mem_branches_merge hw (fun m hm => ?_) hm)
      obtain ⟨n, rfl, -⟩ := hboth m hm
      exact ⟨_, rfl⟩

namespace Resolver

/-! ### What runs keep -/

section

variable {r r' : Resolver}

/-- A class that a loader has stays there, whatever is done. -/
lemma GenuineRun.kept (h : GenuineRun r r') (hr : r.area.Tidy) {l : LoaderId} {n : String}
    {c : Class} (hc : r.area.published? l n = some c) : r'.area.published? l n = some c := by
  induction h with
  | refl => exact hc
  | @tail s _ hrun hnext ih =>
    obtain ⟨op, -, rfl⟩ := hnext
    have hs := (GenuineRun.tidy hrun hr).sound
    have hother : op.Orderly s → (finalState op.perform s).area.published? l n = some c :=
      fun horderly => Area.kept_of_steps (op.evolves hs horderly).area hs ih
    cases op with
    | setPhase => exact ih
    | _ => exact hother trivial

/-- No field is found in the top of the hierarchy. -/
lemma lookupField?_object (name : String) (descriptor : FieldType) :
    Boot.object.lookupField? name descriptor = none := by
  have hfields : Boot.object.fields = [] := rfl
  unfold Class.lookupField?
  simp only [Class.findField?, hfields]
  rfl

/-- What a name means to a loader that is the name of the top of the hierarchy, if no loader but the
bootstrap loader has defined a class of that name. -/
lemma eq_object_of_published (htidy : r.area.Tidy)
    (hhome : r.area.published? .bootstrap objectName = some Boot.object)
    (htop : ∀ l c, r.area.published? l objectName = some c → c.loader = .bootstrap)
    {l : LoaderId} {c : Class} (hc : r.area.published? l objectName = some c) :
    c = Boot.object := by
  have howned : r.area.published? c.loader c.name = some c := (htidy.rooted l objectName c hc).owned
  rw [htop l c hc, htidy.sound.keyed l objectName c hc, hhome] at howned
  cases howned
  rfl

end

/-! ### What is checked -/

/-- The use of an instance member on an object of type `t` was created and resolved. The reference
names the class `container`, and the object has to be of the class `expected`: the one that declares
the field, or, for a method, the one that the reference names. -/
inductive ExpectsObject (r r' : Resolver) (t : ValueType) : ClassRef → Class → Class → Prop where
  | field {method : MethodHandle} {target : FieldRef} {isPut : Bool} {value : Option ValueType}
      {u : FieldUse} {mode : ResolveMode} {f : FieldHandle} {container : Class} {s : Resolver}
      (created : FieldUse.create method target false isPut (some t) value = .ok u)
      (named : Gives (resolveContainer u.target.container u.method mode) r.fieldAsked container s)
      (resolved : Gives (resolveField u mode) r f r') :
      ExpectsObject r r' t target.container container f.owner
  | method {method : MethodHandle} {target : MethodRef} {isSpecial : Bool}
      {arguments : List ValueType} {u : MethodUse} {mode : ResolveMode} {called : MethodHandle}
      {container : Class} {s : Resolver}
      (created : MethodUse.create method target false isSpecial (some t) arguments = .ok u)
      (named : Gives (resolveContainer u.target.container u.method mode) r.methodAsked container s)
      (resolved : Gives (resolveMethod u mode) r called r') :
      ExpectsObject r r' t target.container container container

section

variable {r r' : Resolver} {t : ReferenceType} {ref : ClassRef} {container expected : Class}

lemma ExpectsObject.tidy {t : ValueType} (h : ExpectsObject r r' t ref container expected)
    (hr : r.area.Tidy) : r'.area.Tidy := by
  cases h with
  | field _ _ resolved => exact resolved.tidy (covers_tidies.resolveField _ _) hr
  | method _ _ resolved => exact resolved.tidy (covers_tidies.resolveMethod _ _) hr

lemma ExpectsObject.evolves {t : ValueType} (h : ExpectsObject r r' t ref container expected)
    (hr : r.area.Sound) : Evolves r r' := by
  cases h with
  | field _ _ resolved => exact resolved.evolves (covers_built.resolveField _ _) hr
  | method _ _ resolved => exact resolved.evolves (covers_built.resolveMethod _ _) hr

/-- The steps of a resolution that the object and the class which the reference names went
through. -/
lemma ExpectsObject.checked (h : ExpectsObject r r' (.reference t) ref container expected)
    (hr : r.area.Sound) :
    (∃ method mode p p', p.area.Sound ∧
      Gives (resolveName ref.referer method ref.name mode true) p container p' ∧ Evolves p' r') ∧
    (∃ mode p p', p.area.Sound ∧
      Gives (checkSubtypes ref.referer (.ofValue (.reference t) ref.name) (.loaded expected) false
        mode .linkage) p () p' ∧ Evolves p' r') ∧
    (expected = container ∨ ∃ name descriptor f,
      container.lookupField? name descriptor = some f ∧ expected = f.owner) := by
  cases h with
  | @field method target _ _ u mode f container s created named resolved =>
    obtain ⟨htarget, hstatic, hinstances⟩ := FieldUse.create_object created
    obtain ⟨_, r₁, r₂, r₃, r₄, r₅, h₁, hlookup, -, h₂, h₃, h₄, h₅, rfl⟩ :=
      gives_resolveField.1 resolved
    obtain ⟨e₁, e₂, e₃, e₄, e₅⟩ := evolves_resolveField hr h₁ h₂ h₃ h₄ h₅
    have later := ((e₃.trans e₄).trans e₅).trans (reported_evolves r₅ u.text f.text)
    obtain ⟨rfl, rfl⟩ := named.unique h₁
    refine ⟨⟨some u.method, mode, r.fieldAsked, s, hr, ?_, e₂.trans later⟩,
      ⟨mode, s, r₂, e₁.sound hr, ?_, later⟩, .inr ⟨_, _, f, hlookup, rfl⟩⟩
    · rw [← htarget]
      exact gives_counted.1 named
    · rw [hstatic, hinstances, FieldUse.referer, htarget] at h₂
      exact h₂
  | @method method target _ _ u mode called container s created named resolved =>
    obtain ⟨htarget, hstatic, hinstances⟩ := MethodUse.create_object created
    obtain ⟨_, m, r₁, r₂, r₃, r₄, r₅, r₆, r₇, h₁, h₂, -, h₃, h₄, h₅, h₆, h₇, rfl⟩ :=
      gives_resolveMethod.1 resolved
    obtain ⟨e₁, e₂, e₃, e₄, e₅, e₆, e₇⟩ := evolves_resolveMethod hr h₁ h₂ h₃ h₄ h₅ h₆ h₇
    have later := (((e₄.trans e₅).trans e₆).trans e₇).trans
      (reported_evolves r₇ u.text called.text)
    obtain ⟨rfl, rfl⟩ := named.unique h₁
    refine ⟨⟨some u.method, mode, r.methodAsked, s, hr, ?_, (e₂.trans e₃).trans later⟩,
      ⟨mode, r₂, r₃, (e₁.trans e₂).sound hr, ?_, later⟩, .inl rfl⟩
    · rw [← htarget]
      exact gives_counted.1 named
    · rw [hstatic, hinstances, MethodUse.referer, htarget] at h₃
      exact h₃

/-- An object that is not exempt from the check is known to be of the class that is expected. -/
lemma assignable_of_checkObject {referer : Class} {name : String} {mode : ResolveMode}
    {q : Resolver} (hr : r.area.Sound) (hnamed : (ValueType.reference t).NamedFrom referer)
    (hexempt : ¬ t.Exempt name) (hclass : expected.isInterface = false)
    (h : Gives (checkSubtypes referer (.ofValue (.reference t) name) (.loaded expected) false mode
      .linkage) r () r') (hq : Evolves r' q) (htidy : q.area.Tidy) :
    t.assignableToClass (.loaded expected) q.area = .ok .yes q.area := by
  refine ReferenceType.allAssignable_of_forall fun m hm => ?_
  have hmem := SubtypeSet.mem_ofValue hexempt hm
  obtain ⟨_, _, hexpected, h⟩ := (gives_checkSubtypes_iff (List.ne_nil_of_mem hmem)).1 h
  obtain ⟨rfl, rfl⟩ := gives_pure.1 hexpected
  simp only [hclass, Bool.and_false, Bool.false_eq_true, if_false] at h
  obtain ⟨n, rfl, hread⟩ := hnamed t rfl m hm
  exact assignable_of_checkMembers hr h hq htidy (pure_apply _ _) decide_eq_true hread hmem

/-- An object that goes by the name in a reference is compared as an object of the class that the
reference names. -/
lemma assignable_of_same_name {a : Area} (ht : t.branches = [.symbolic ref])
    (hfound : Area.findLoaded ref.referer.loader ref.name a = .ok (some container) a) :
    t.assignableToClass (.loaded expected) a = .ok .yes a ↔
      (Mention.symbolic ref).knownSame (.loaded expected) = true ∨
        accepts expected container = true := by
  have hanswer : ReferenceType.classAssignable (.symbolic ref) (.loaded expected) a = .ok
      (.ofBool ((Mention.symbolic ref).knownSame (.loaded expected) ||
        accepts expected container)) a := by
    rw [ReferenceType.classAssignable]
    cases hknown : (Mention.symbolic ref).knownSame (.loaded expected) with
    | true => rfl
    | false =>
      by_cases hobject : expected.name = objectName
      · simp [Mention.isObject, Mention.name, accepts, hobject, Assignable.ofBool]
      · have hfind : (Mention.symbolic ref).find a = .ok (some container) a := hfound
        have hexpected : (Mention.loaded expected).find a = .ok (some expected) a := rfl
        simp [Mention.isObject, Mention.name, accepts, hobject, bind_of_ok hfind,
          bind_of_ok hexpected]
  have hone : t.assignableToClass (.loaded expected) a =
      .ok (.ofBool ((Mention.symbolic ref).knownSame (.loaded expected) ||
        accepts expected container)) a := by
    rw [ReferenceType.assignableToClass, ht, ReferenceType.allAssignable, bind_of_ok hanswer]
    simp [ReferenceType.allAssignable]
  rw [hone, ← Bool.or_eq_true]
  cases (Mention.symbolic ref).knownSame (.loaded expected) || accepts expected container <;>
    simp [Assignable.ofBool]

/-- The object is named like the class in a reference, not joined from several classes. -/
def GoesBy (t : ValueType) (name : String) : Prop :=
  ∃ s, t = .reference s ∧ s.merged = none ∧ s.mention.name = name

/-- Objects are checked before their members are used. When the use of an instance member was
resolved, the object is known to be of the class that declares the field, or in which the method is
looked for, unless that is an interface: exactly if this is so where the object goes by the name in
the reference, and then it is a matter of the class with that name. For methods that is the class
which is expected. -/
theorem object_assignable_iff {start : Resolver} {t : ValueType}
    (hstart : start.area = Area.initial) (hrun : GenuineRun start r)
    (htop : ∀ l c, r'.area.published? l objectName = some c → c.loader = .bootstrap)
    (h : ExpectsObject r r' t ref container expected) (ht : t.Joined ref.referer) :
    (expected.isInterface = false →
      t.assignableToClass (.loaded expected) r'.area = .ok .yes r'.area) ↔
    (expected.isInterface = false → GoesBy t ref.name →
      (Mention.symbolic ref).knownSame (.loaded expected) = true ∨
        accepts expected container = true) := by
  obtain ⟨t, rfl, hnamed⟩ := ht.named_from
  have hinitial : start.area.Tidy := hstart ▸ Area.initial_tidy
  have hr : r.area.Tidy := hrun.tidy hinitial
  have hr' : r'.area.Tidy := h.tidy hr
  obtain ⟨⟨method, mode', p, p', hp, hresolved, hp'⟩, ⟨mode, q, q', hq, hchecked, hq'⟩,
    hdeclared⟩ := h.checked hr.sound
  -- An object that goes by the name in the reference has the class that the reference names.
  have hsame : GoesBy (.reference t) ref.name →
      (t.assignableToClass (.loaded expected) r'.area = .ok .yes r'.area ↔
        (Mention.symbolic ref).knownSame (.loaded expected) = true ∨
          accepts expected container = true) := by
    rintro ⟨_, ⟨⟩, hmerged, hname⟩
    have hbranches : t.branches = [t.mention] := by simp [ReferenceType.branches, hmerged]
    obtain ⟨n, hmention, hread⟩ := hnamed t rfl t.mention (by simp [hbranches])
    rw [hmention] at hname hbranches
    obtain rfl : n = ref.name := hname
    exact assignable_of_same_name hbranches (find_of_resolveName hread hp hresolved hp' hr')
  constructor
  · intro hyes hclass hgoes
    exact (hsame hgoes).1 (hyes hclass)
  · intro hcovered hclass
    by_cases hgoes : GoesBy (.reference t) ref.name
    · exact (hsame hgoes).2 (hcovered hclass hgoes)
    by_cases hobject : ref.name = objectName
    · -- Everything is of the class at the top, which has no fields.
      have hplain : IsPlain objectName := by decide
      rw [hobject] at hresolved
      have hpublished := Area.kept_of_steps hp'.area
        ((hresolved.evolves (covers_built.resolveName _ _ _ _ _) hp).sound hp)
        (published?_of_resolveName hplain hp hresolved)
      have hstarted : start.area.published? .bootstrap objectName = some Boot.object :=
        hstart ▸ Area.initial_owned (c := Boot.object) List.mem_cons_self
      have hhome := Area.kept_of_steps (h.evolves hr.sound).area hr.sound
        (hrun.kept hinitial hstarted)
      obtain rfl := eq_object_of_published hr' hhome htop hpublished
      rcases hdeclared with rfl | ⟨name, descriptor, f, hlookup, -⟩
      · exact ReferenceType.allAssignable_of_forall fun m _ =>
          ReferenceType.classAssignable_of_known (.inr rfl)
      · rw [lookupField?_object] at hlookup
        cases hlookup
    · have hexempt : ¬ t.Exempt ref.name := by
        rintro (hname | ⟨hmerged, hname⟩)
        · exact hobject hname
        · exact hgoes ⟨t, rfl, hmerged, hname⟩
      exact assignable_of_checkObject hq hnamed hexempt hclass hchecked hq' hr'

end

/-! ### A field of the superclass of an interface -/

/-- A class with a field, a subclass, an interface below the class, a class that implements the
interface, and a class that reads. -/
def inheritingClasses : List Operation :=
  [.define .bootstrap
      { name := "p/S"
        flags := Flag.accPublic.mask
        fields := [⟨Flag.accPublic.mask, "f", .primitive .int⟩] },
    .define .bootstrap { name := "p/E", flags := Flag.accPublic.mask, superclass := some "p/S" },
    .define .bootstrap
      { name := "p/I"
        flags := Flag.accPublic.mask ||| Flag.accInterface.mask ||| Flag.accAbstract.mask
        superclass := some "p/S" },
    .define .bootstrap { name := "p/C", flags := Flag.accPublic.mask, interfaces := ["p/I"] },
    .define .bootstrap
      { name := "q/R"
        flags := Flag.accPublic.mask
        methods := [⟨Flag.accPublic.mask, "m", ⟨[], .void⟩⟩] },
    .load .bootstrap "q/R"]

/-- The resolver when the class that reads is loaded. -/
def inheriting : Resolver := performAll inheritingClasses { area := Area.initial }

/-- The method that reads. -/
def reader? : Option MethodHandle :=
  (inheriting.area.published? .bootstrap "q/R").bind fun c => c.methodAt? 0

/-- The use of the field of an object, the field being looked for in a class. -/
def read (m : MethodHandle) (container object : String) : Except Fault FieldUse :=
  FieldUse.create m ⟨⟨m.owner, container⟩, "f", .primitive .int⟩ false false
    (some (objectOf m object)) none

/-- Whether the read is resolved and a test accepts the field and the state. -/
def readsWhere (container object : String) (accept : MethodHandle → FieldHandle → Resolver → Bool) :
    Bool :=
  reader?.any fun m =>
    match read m container object with
    | .error _ => false
    | .ok u => givesWhere (resolveField u .eager) (accept m) inheriting

lemma exists_read {container object : String}
    {accept : MethodHandle → FieldHandle → Resolver → Bool}
    (h : readsWhere container object accept = true) :
    ∃ m f c r', reader? = some m ∧
      ExpectsObject inheriting r' (objectOf m object) ⟨m.owner, container⟩ c f.owner ∧
      accept m f r' = true := by
  obtain ⟨m, hm, h⟩ := (Option.any_eq_true _ _).1 h
  split at h
  · cases h
  · next u hu =>
    obtain ⟨f, r', hf, haccept⟩ := exists_gives h
    obtain ⟨c, _, _, _, _, _, hc, -⟩ := gives_resolveField.1 hf
    exact ⟨m, f, c, r', hm, .field hu hc hf, haccept⟩

lemma genuineRun_inheriting : GenuineRun { area := Area.initial } inheriting :=
  genuineRun_performAll (by simp [inheritingClasses, Operation.Genuine]) _

lemma joined_objectOf (m : MethodHandle) {value : String}
    (h : '[' ∉ value.toList ∧ ';' ∉ value.toList) : (objectOf m value).Joined m.owner :=
  .named (.inl h)

/-- Where there is no loader but the bootstrap loader, all classes are its own. -/
lemma loader_of_single {r : Resolver} (htidy : r.area.Tidy) (hsize : r.area.loaders.size = 1)
    {l : LoaderId} {n : String} {c : Class} (hc : r.area.published? l n = some c) :
    c.loader = .bootstrap := by
  obtain ⟨data, hdata, -⟩ := Option.bind_eq_some_iff.1 hc
  have hnumber := (htidy.sound.numbered l).1 (by rw [hdata]; rfl)
  obtain ⟨number⟩ := l
  obtain rfl : number = 0 := by
    rw [hsize] at hnumber
    exact Nat.lt_one_iff.1 hnumber
  exact htidy.home n c hc

/-- The field of an object of a subclass is read, and then the object is known to be of the class
that declares it. -/
theorem object_of_subclass_assignable :
    ∃ (m : MethodHandle) (f : FieldHandle) (c : Class) (r' : Resolver), reader? = some m ∧
      ExpectsObject inheriting r' (objectOf m "p/E") ⟨m.owner, "p/S"⟩ c f.owner ∧
      f.owner.isInterface = false ∧
      (objectOf m "p/E").assignableToClass (.loaded f.owner) r'.area = .ok .yes r'.area := by
  have htest : readsWhere "p/S" "p/E" (fun _ f r' =>
      r'.area.loaders.size = 1 && !f.owner.isInterface) = true := by
    decide +kernel
  obtain ⟨m, f, c, r', hm, hread, haccept⟩ := exists_read htest
  simp only [Bool.and_eq_true, decide_eq_true_eq, Bool.not_eq_true'] at haccept
  obtain ⟨hsize, hclass⟩ := haccept
  have htidy := hread.tidy (genuineRun_inheriting.tidy Area.initial_tidy)
  refine ⟨m, f, c, r', hm, hread, hclass, (object_assignable_iff rfl genuineRun_inheriting
    (fun _ _ => loader_of_single htidy hsize) hread (joined_objectOf m (by decide))).2 ?_ hclass⟩
  rintro - ⟨_, ⟨⟩, -, hname⟩
  rw [ReferenceType.ofMention, ReferenceType.mention_ofClassRef] at hname
  exact absurd hname (by simp [Mention.name])

/-- An object of a class that implements the interface is not of the class above the interface, and
yet its field is read. -/
theorem object_below_interface_not_assignable :
    ∃ (m : MethodHandle) (f : FieldHandle) (c : Class) (r' : Resolver) (a : Area),
      reader? = some m ∧ GenuineRun { area := Area.initial } inheriting ∧
      (∀ l d, r'.area.published? l objectName = some d → d.loader = .bootstrap) ∧
      ExpectsObject inheriting r' (objectOf m "p/C") ⟨m.owner, "p/C"⟩ c f.owner ∧
      (objectOf m "p/C").Joined m.owner ∧ f.owner.isInterface = false ∧
      (objectOf m "p/C").assignableToClass (.loaded f.owner) r'.area = .ok .no a := by
  have htest : readsWhere "p/C" "p/C" (fun m f r' =>
      r'.area.loaders.size = 1 && !f.owner.isInterface &&
        yields (fun answer => answer = .no)
          ((objectOf m "p/C").assignableToClass (.loaded f.owner) r'.area)) = true := by
    decide +kernel
  obtain ⟨m, f, c, r', hm, hread, haccept⟩ := exists_read htest
  simp only [Bool.and_eq_true, decide_eq_true_eq, Bool.not_eq_true'] at haccept
  obtain ⟨⟨hsize, hclass⟩, hno⟩ := haccept
  have htidy := hread.tidy (genuineRun_inheriting.tidy Area.initial_tidy)
  obtain ⟨answer, a, ha, hanswer⟩ := exists_of_yields hno
  obtain rfl := of_decide_eq_true hanswer
  exact ⟨m, f, c, r', a, hm, genuineRun_inheriting, fun _ _ => loader_of_single htidy hsize,
    hread, joined_objectOf m (by decide), hclass, ha⟩

end Resolver

end Linkage
