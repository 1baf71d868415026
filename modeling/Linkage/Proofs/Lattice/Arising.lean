import Linkage.Proofs.Lattice.Shape

/-!
# Types that arise

The type of a value is made from a class that a loader has or from the name of one, or is joined
from other types. A join remembers the classes of its branches, and it names a class above them.
Here the ways in which that class is found are told apart, and what all types that arise have in
common is carried from one join to the next.
-/

namespace Linkage

open Relation

/-! ### Types of mentioned classes -/

/-- A mentioned class that is loaded is one that its loader has. -/
def Mention.Published (a : Area) : Mention → Prop
  | .loaded c => a.Owned c
  | .symbolic _ => True

lemma Mention.Published.given {a : Area} {m : Mention} (h : m.Published a) : m.Given a := by
  cases m with
  | loaded c => exact Area.Owned.known h
  | symbolic r => trivial

lemma Area.Later.published {a q : Area} (hlater : Later a q) {m : Mention} (h : m.Published a) :
    m.Published q := by
  cases m with
  | loaded c => exact hlater.kept _ _ c h
  | symbolic r => trivial

namespace ReferenceType

/-- A type is that of a mentioned class, but for the branches of a join. The class is one of those
there are, and the branches were mentioned by name or published. -/
structure Formed (a : Area) (t : ReferenceType) : Prop where
  dimension : t.dimension = (ofMention t.mention).dimension
  elementClass : t.elementClass = (ofMention t.mention).elementClass
  given : t.mention.Given a
  branches : ∀ m ∈ t.branches, m.Published a
  nonempty : t.branches ≠ []

section

variable {a q : Area} {t : ReferenceType} {m e : Mention}

lemma formed_ofMention (h : m.Published a) : (ofMention m).Formed a := by
  refine ⟨by simp, by simp, ?_, ?_, by simp⟩
  · rw [mention_ofMention]
    exact h.given
  · simpa using h

lemma Formed.later (h : t.Formed a) (hlater : Area.Later a q) : t.Formed q :=
  ⟨h.dimension, h.elementClass, hlater.given h.given,
    fun m hm => hlater.published (h.branches m hm), h.nonempty⟩

lemma Formed.element_given (h : t.Formed a) (ha : a.Tidy) (he : t.elementClass = some e) :
    e.Given a :=
  ha.element_given h.given (h.elementClass ▸ he)

end

/-! ### The class above two types -/

/-- How the class above two types was found: it is the top of the hierarchy, or the stand-in for the
common supertype of arrays, or the first common superclass of two classes, or an array over that of
the elements of two arrays. -/
inductive Common (a : Area) (t u : ReferenceType) : Class → Area → Prop where
  | object {b : Area} (asked : Area.Asked a b) : Common a t u Boot.object b
  | stub {b : Area} (asked : Area.Asked a b) (left : t.isArray = true) (right : u.isArray = true) :
      Common a t u Boot.arrayStub b
  | superclass {b : Area} {x y c : Class} (asked : Area.Asked a b) (left : t.isArray = false)
      (right : u.isArray = false) (first : b.Known x ∧ a.look t.mention = some x.form)
      (second : b.Known y ∧ a.look u.mention = some y.form)
      (common : x.commonSuperclass? y = some c) : Common a t u c b
  | array {s b : Area} {x y d c : Class} {e f : Mention} (asked : Area.Asked a s)
      (left : t.isArray = true) (right : u.isArray = true) (dimension : t.dimension = u.dimension)
      (firstElement : t.elementClass = some e) (secondElement : u.elementClass = some f)
      (first : s.Known x ∧ a.look e = some x.form) (second : s.Known y ∧ a.look f = some y.form)
      (common : x.commonSuperclass? y = some d)
      (made : Area.arrayOfDimension? d t.dimension s = .ok (some c) b) : Common a t u c b

section

variable {a b : Area} {t u : ReferenceType} {c : Class}

/-- An element that is looked for is found if it has a form. -/
lemma findElement_look (ha : a.Tidy) {o : Option Mention} (ho : ∀ e ∈ o, e.Given a) :
    ∃ v b, findElement o a = .ok v b ∧ Area.Asked a b ∧
      ∀ x ∈ v, b.Known x ∧ ∃ e ∈ o, a.look e = some x.form := by
  cases o with
  | none => exact ⟨none, a, rfl, ReflTransGen.refl, by simp⟩
  | some e =>
    obtain ⟨v, b, hrun, hasked, hform, hknown⟩ := ha.find_look (ho e rfl)
    refine ⟨v, b, hrun, hasked, fun x hx => ⟨hknown x hx, e, rfl, ?_⟩⟩
    rw [← hform, Option.mem_def.1 hx, Option.map_some]

lemma common_of_commonArray (ha : a.Tidy) (ht : t.Formed a) (hu : u.Formed a)
    (hleft : t.isArray = true) (hright : u.isArray = true)
    (h : commonArray t u a = .ok (some c) b) : Common a t u c b := by
  obtain ⟨x, s₁, hx, hs₁, hxfound⟩ :=
    findElement_look ha (o := t.elementClass) fun e he => ht.element_given ha he
  have hs₁tidy := hs₁.tidy ha
  obtain ⟨y, s₂, hy, hs₂, hyfound⟩ :=
    findElement_look hs₁tidy (o := u.elementClass) fun e he =>
      hs₁.given ha (hu.element_given ha he)
  have hasked : Area.Asked a s₂ := hs₁.trans hs₂
  have hstub : s₂.core.arrayStub = Boot.arrayStub := by
    rw [(hasked.tidy ha).core]
    rfl
  rw [commonArray, bind_of_ok hx, bind_of_ok hy, bind_of_ok (get_apply s₂)] at h
  simp only [hstub] at h
  rcases x with _ | x
  · cases h
    exact .stub hasked hleft hright
  rcases y with _ | y
  · cases h
    exact .stub hasked hleft hright
  · obtain ⟨hxknown, e, he, hex⟩ := hxfound x rfl
    obtain ⟨hyknown, f, hf, hfy⟩ := hyfound y rfl
    rw [hs₁.look_eq ha] at hfy
    by_cases hsame : t.dimension = u.dimension ∧ t.elementType = u.elementType
    · simp only [hsame.1, hsame.2, decide_true, Bool.and_self, if_true] at h
      cases hcommon : x.commonSuperclass? y with
      | none =>
        rw [hcommon] at h
        cases h
        exact .stub hasked hleft hright
      | some d =>
        rw [hcommon] at h
        exact .array hasked hleft hright hsame.1 he hf ⟨hs₂.known hs₁tidy hxknown, hex⟩
          ⟨hyknown, hfy⟩ hcommon (hsame.1 ▸ h)
    · have hshape : (decide (t.dimension = u.dimension) && decide (t.elementType = u.elementType)) =
          false := by
        rw [Bool.eq_false_iff, ne_eq, Bool.and_eq_true, decide_eq_true_eq, decide_eq_true_eq]
        exact hsame
      simp only [hshape, Bool.false_eq_true, if_false] at h
      cases h
      exact .stub hasked hleft hright

/-- The class above two types is found in one of the four ways. -/
lemma common_of_commonSupertype (ha : a.Tidy) (ht : t.Formed a) (hu : u.Formed a)
    (h : commonSupertype t u a = .ok (some c) b) : Common a t u c b := by
  have hobject : a.core.object = Boot.object := by
    rw [ha.core]
    rfl
  rw [commonSupertype, bind_of_ok (get_apply a)] at h
  simp only [hobject] at h
  split at h
  · next harrays =>
    rw [Bool.and_eq_true] at harrays
    exact common_of_commonArray ha ht hu harrays.1 harrays.2 h
  · split at h
    · cases h
      exact .object ReflTransGen.refl
    · next hplain =>
      rw [Bool.not_eq_true, Bool.or_eq_false_iff] at hplain
      obtain ⟨x, s₁, hx, hs₁, hxform, hxknown⟩ := ha.find_look ht.given
      have hs₁tidy := hs₁.tidy ha
      obtain ⟨y, s₂, hy, hs₂, hyform, hyknown⟩ := hs₁tidy.find_look (hs₁.given ha hu.given)
      have hasked : Area.Asked a s₂ := hs₁.trans hs₂
      rw [hs₁.look_eq ha] at hyform
      rw [bind_of_ok hx, bind_of_ok hy] at h
      rcases x with _ | x
      · cases h
        exact .object hasked
      rcases y with _ | y
      · cases h
        exact .object hasked
      · dsimp only at h
        cases hcommon : x.commonSuperclass? y with
        | none =>
          rw [hcommon] at h
          cases h
          exact .object hasked
        | some d =>
          rw [hcommon] at h
          cases h
          exact .superclass hasked hplain.1 hplain.2
            ⟨hs₂.known hs₁tidy (hxknown x rfl), hxform.symm⟩ ⟨hyknown y rfl, hyform.symm⟩ hcommon

/-- A common superclass is one of both classes, and neither of them is an interface. -/
lemma commonSuperclass?_eq_some {x y d : Class} (h : x.commonSuperclass? y = some d) :
    (x.isInterface = false ∧ y.isInterface = false) ∧ d ∈ x.superclasses ∧
      y.isSubclassOf d = true := by
  unfold Class.commonSuperclass? at h
  split at h
  · cases h
  · next hclass =>
    rw [Bool.not_eq_true, Bool.or_eq_false_iff] at hclass
    exact ⟨hclass, List.mem_of_find?_eq_some h, by simpa using List.find?_some h⟩

/-- Whatever the class above two types is, it is one of those there are, and finding it leaves what
loaders had. -/
lemma Common.later_known (h : Common a t u c b) (ha : a.Tidy) : Area.Later a b ∧ b.Known c := by
  cases h with
  | object asked =>
    have hlater := asked.later ha
    exact ⟨hlater, hlater.after.known_boot (by simp [Boot.classes])⟩
  | stub asked =>
    have hlater := asked.later ha
    refine ⟨hlater, .inr ?_⟩
    rw [hlater.after.core]
    rfl
  | superclass asked _ _ first _ common =>
    have hlater := asked.later ha
    exact ⟨hlater,
      (hlater.after.admitted_of_known first.1) c (commonSuperclass?_eq_some common).2.1⟩
  | @array s _ _ _ d _ _ _ asked _ _ _ _ _ first _ common made =>
    have hlater := asked.later ha
    have hadmitted : s.Admitted d :=
      (hlater.after.admitted_of_known first.1).superclass (commonSuperclass?_eq_some common).2.1
    obtain ⟨hsteps, hmade⟩ :=
      Area.carries_admitted.arrayOfDimension? d t.dimension s ⟨hlater.after, hadmitted⟩
    rw [finalState_of_ok made] at hsteps
    exact ⟨hlater.trans (Area.later_of_tidySteps hsteps hlater.after),
      (hmade _ b made c rfl).known⟩

end

/-! ### Joins -/

section

variable {a b : Area} {t u v : ReferenceType}

lemma joinBranches_ne_nil {as bs : List Mention} (h : as ≠ []) : joinBranches as bs ≠ [] := by
  induction bs generalizing as with
  | nil => exact h
  | cons m ms ih =>
    apply ih
    split
    · exact h
    · simp

/-- A join has the branches of both types, without those of the second that are known to be among
those before them. -/
lemma branches_merge (h : t.merge u a = .ok (some v) b) :
    v.branches = joinBranches t.branches u.branches := by
  rcases merge_cases h with ⟨rfl, -, ht, hu, hsame⟩ | ⟨m, hone, rfl, -⟩ | ⟨c, -, rfl⟩
  · simp [branches, ht, hu, joinBranches, hsame]
  · rw [branches_ofMention, hone]
  · rfl

/-- Joins hand on what types that arise have in common. -/
lemma Formed.merge (ha : a.Tidy) (ht : t.Formed a) (hu : u.Formed a)
    (h : t.merge u a = .ok (some v) b) : Area.Later a b ∧ v.Formed b := by
  have hboth : ∀ m ∈ joinBranches t.branches u.branches, m.Published a :=
    fun m hm => (mem_joinBranches hm).elim (ht.branches m) (hu.branches m)
  rcases merge_cases h with ⟨rfl, rfl, -⟩ | ⟨m, hone, rfl, rfl⟩ | ⟨c, hcommon, rfl⟩
  · exact ⟨.refl ha, ht⟩
  · refine ⟨.refl ha, formed_ofMention (hboth m ?_)⟩
    rw [hone]
    exact List.mem_singleton_self m
  · obtain ⟨hlater, hknown⟩ := (common_of_commonSupertype ha ht hu hcommon).later_known ha
    exact ⟨hlater, ⟨rfl, rfl, hknown, fun m hm => hlater.published (hboth m hm),
      joinBranches_ne_nil ht.nonempty⟩⟩

end

end ReferenceType

/-! ### Types of values -/

/-- Two types are joined if they are the same and no references, or one of them is null and the
other a reference, or both are references. -/
lemma ValueType.merge_cases {t u v : ValueType} {a b : Area} (h : t.merge u a = .ok (some v) b) :
    (b = a ∧ v = t ∧ u = t ∧ t.reference? = none) ∨
      (∃ s, b = a ∧ v = .reference s ∧
        (t = .null ∧ u = .reference s ∨ t = .reference s ∧ u = .null)) ∨
      ∃ s w x, t = .reference s ∧ u = .reference w ∧ v = .reference x ∧
        s.merge w a = .ok (some x) b := by
  cases t with
  | reference s =>
    cases u with
    | reference w =>
      obtain ⟨x, c, hx, h⟩ := bind_eq_ok.1 h
      cases x with
      | none => cases h
      | some x =>
        cases h
        exact .inr (.inr ⟨s, w, x, rfl, rfl, rfl, hx⟩)
    | null =>
      cases h
      exact .inr (.inl ⟨s, rfl, rfl, .inr ⟨rfl, rfl⟩⟩)
    | _ => cases h
  | null =>
    cases u with
    | null =>
      cases h
      exact .inl ⟨rfl, rfl, rfl, rfl⟩
    | reference w =>
      cases h
      exact .inr (.inl ⟨w, rfl, rfl, .inl ⟨rfl, rfl⟩⟩)
    | _ => cases h
  | primitive =>
    cases u with
    | primitive =>
      cases h
      exact .inl ⟨rfl, rfl, rfl, rfl⟩
    | _ => cases h
  | returnAddress m =>
    cases u with
    | returnAddress n =>
      by_cases hmn : m = n
      · simp only [merge, hmn, if_true] at h
        cases h
        exact .inl ⟨rfl, by rw [hmn], by rw [hmn], rfl⟩
      · simp [merge, hmn] at h
    | _ => cases h
  | uninitialized m =>
    cases u with
    | uninitialized n =>
      by_cases hmn : m = n
      · simp only [merge, hmn, if_true] at h
        cases h
        exact .inl ⟨rfl, by rw [hmn], by rw [hmn], rfl⟩
      · simp [merge, hmn] at h
    | _ => cases h

namespace Resolver

/-- The types that there are when operations have led from a state to another one: those of values
that are no references, those of published classes and of names, and joins of such. -/
inductive Arises (start : Resolver) : Resolver → ValueType → Prop where
  | value {r : Resolver} {t : ValueType} (run : GenuineRun start r) (ht : t.reference? = none) :
      Arises start r t
  | loaded {r : Resolver} {l : LoaderId} {n : String} {c : Class} (run : GenuineRun start r)
      (hc : r.area.published? l n = some c) : Arises start r (.ofMention (.loaded c))
  | symbolic {r : Resolver} (run : GenuineRun start r) (ref : ClassRef) :
      Arises start r (.ofMention (.symbolic ref))
  | join {r : Resolver} {t u v : ValueType} {a : Area} (ht : Arises start r t)
      (hu : Arises start r u) (h : t.merge u r.area = .ok (some v) a) :
      Arises start { r with area := a } v
  | later {r q : Resolver} {t : ValueType} (ht : Arises start r t) (run : GenuineRun r q) :
      Arises start q t

/-- A join is one of the operations, if the first type is over a class that can be had. -/
lemma genuineRun_merge {r : Resolver} {t u : ValueType} {v : Option ValueType} {a : Area}
    (hr : r.area.Tidy) (ht : ∀ s, t = .reference s → s.Formed r.area)
    (h : t.merge u r.area = .ok v a) : GenuineRun r { r with area := a } := by
  refine ReflTransGen.single ⟨.merge t u, fun s c hs hc => ?_, ?_⟩
  · rcases (ht s hs).element_given hr hc with howned | hstub
    · exact .inl ⟨_, _, howned⟩
    · exact .inr hstub
  · have hrun : Operation.perform (.merge t u) r = .ok () { r with area := a } := by
      simp only [Operation.perform, onArea, discard_apply, h]
    exact (finalState_of_ok hrun).symm

/-- Types that arise are over classes there are, and operations lead to where they arise. -/
lemma Arises.formed {start r : Resolver} {t : ValueType} (h : Arises start r t)
    (hstart : start.area.Tidy) :
    GenuineRun start r ∧ ∀ s, t = .reference s → s.Formed r.area := by
  induction h with
  | value run ht =>
    refine ⟨run, ?_⟩
    rintro s rfl
    cases ht
  | loaded run hc =>
    refine ⟨run, ?_⟩
    rintro s ⟨⟩
    exact ReferenceType.formed_ofMention ((run.tidy hstart).rooted _ _ _ hc).owned
  | symbolic run ref =>
    refine ⟨run, ?_⟩
    rintro s ⟨⟩
    exact ReferenceType.formed_ofMention (m := .symbolic ref) trivial
  | @join r t u v a _ _ h iht ihu =>
    have hr := iht.1.tidy hstart
    refine ⟨iht.1.trans (genuineRun_merge hr iht.2 h), ?_⟩
    rcases ValueType.merge_cases h with ⟨rfl, rfl, -⟩ | ⟨s, rfl, rfl, hnull⟩ |
      ⟨s, w, x, rfl, rfl, rfl, hmerge⟩
    · exact iht.2
    · rintro s ⟨⟩
      rcases hnull with ⟨-, hu⟩ | ⟨ht, -⟩
      · exact ihu.2 s hu
      · exact iht.2 s ht
    · rintro x ⟨⟩
      exact (ReferenceType.Formed.merge hr (iht.2 s rfl) (ihu.2 w rfl) hmerge).2
  | @later r q t _ run ih =>
    exact ⟨ih.1.trans run, fun s hs => (ih.2 s hs).later (run.later (ih.1.tidy hstart))⟩

end Resolver

end Linkage
