import Linkage.Proofs.Lattice.Final
import Linkage.Proofs.Lattice.Superclass

/-!
# The order of classes

Assignability compares a class with another in three ways: along the superclasses, among the
superinterfaces, or, for arrays, component by component. Whatever a class may be used as is a part
of the tree that the class is, so no two classes may be used as each other.

A step along the superclasses may follow one among the superinterfaces. Nothing keeps an interface
from being linked below another class than the top of the hierarchy, and a class that implements
such an interface may be used as the interface, but not as the class above the interface. Apart from
this, what may be used as a class may be used as whatever that class may be used as.
-/

namespace Linkage

namespace Class

variable {a b c i j s t : Class}

/-! ### Superinterfaces -/

lemma anyImplements_iff {js : List Class} :
    anyImplements js i = true ↔ ∃ j ∈ js, j.same i = true ∨ j.implements i = true := by
  induction js with
  | nil => simp [anyImplements]
  | cons k ks ih => simp [anyImplements, ih]

/-- What a class implements is an interface of one of its superclasses, or implemented by one. -/
lemma implements_iff : ∀ {a : Class}, a.implements i = true ↔
    ∃ s ∈ a.superclasses, ∃ j ∈ s.interfaces, j.same i = true ∨ j.implements i = true
  | .root d => by simp [implements, superclasses, interfaces]
  | .derived d s is => by
    rw [implements, Bool.or_eq_true, anyImplements_iff, implements_iff, superclasses]
    simp only [List.mem_cons, exists_eq_or_imp, interfaces]
  | .primitiveArray d s is p => by
    rw [implements, Bool.or_eq_true, anyImplements_iff, implements_iff, superclasses]
    simp only [List.mem_cons, exists_eq_or_imp, interfaces]
  | .array d s is e => by
    rw [implements, Bool.or_eq_true, anyImplements_iff, implements_iff, superclasses]
    simp only [List.mem_cons, exists_eq_or_imp, interfaces]

/-- What a superclass implements, the class implements. -/
lemma implements_of_superclass (hs : s ∈ a.superclasses) (h : s.implements i = true) :
    a.implements i = true := by
  obtain ⟨t, ht, hj⟩ := implements_iff.1 h
  exact implements_iff.2 ⟨t, superclasses_trans ht hs, hj⟩

/-! ### Supertypes are parts of the tree -/

lemma sizeOf_le_of_superclass : ∀ {a : Class}, s ∈ a.superclasses →
    s = a ∨ sizeOf s < sizeOf a
  | .root d, hs => .inl (List.mem_singleton.1 hs)
  | .derived d t is, hs => by
    rcases List.mem_cons.1 hs with rfl | hs
    · exact .inl rfl
    · rcases sizeOf_le_of_superclass hs with rfl | hlt <;> right <;> simp <;> omega
  | .primitiveArray d t is p, hs => by
    rcases List.mem_cons.1 hs with rfl | hs
    · exact .inl rfl
    · rcases sizeOf_le_of_superclass hs with rfl | hlt <;> right <;> simp <;> omega
  | .array d t is e, hs => by
    rcases List.mem_cons.1 hs with rfl | hs
    · exact .inl rfl
    · rcases sizeOf_le_of_superclass hs with rfl | hlt <;> right <;> simp <;> omega

lemma sizeOf_lt_of_interface (hi : i ∈ a.interfaces) : sizeOf i < sizeOf a := by
  cases a with
  | root d => cases hi
  | derived d s is =>
    have := List.sizeOf_lt_of_mem hi
    simp only [interfaces, derived.sizeOf_spec] at this ⊢
    omega
  | primitiveArray d s is p =>
    have := List.sizeOf_lt_of_mem hi
    simp only [interfaces, primitiveArray.sizeOf_spec] at this ⊢
    omega
  | array d s is e =>
    have := List.sizeOf_lt_of_mem hi
    simp only [interfaces, array.sizeOf_spec] at this ⊢
    omega

lemma sizeOf_lt_of_superclass_interface (hs : s ∈ a.superclasses) (hi : i ∈ s.interfaces) :
    sizeOf i < sizeOf a := by
  have hlt := sizeOf_lt_of_interface hi
  rcases sizeOf_le_of_superclass hs with rfl | hle
  · exact hlt
  · exact hlt.trans hle

end Class

namespace Area

variable {a : Area} {b c d i j s : Class} {f g k : Form}

/-! ### Classes that are no arrays -/

/-- The interfaces of the superclasses of a class are interfaces that are there. -/
lemma Tidy.interface_known (ha : a.Tidy) (hc : a.Known c) (hs : s ∈ c.superclasses)
    (hi : i ∈ s.interfaces) : i.isInterface = true ∧ a.Known i := by
  rcases ha.admitted_of_known hc s hs with hs | rfl
  · exact (ha.woven s hs i hi).imp_right Owned.known
  · rw [ha.core] at hi
    obtain ⟨hinterface, hknown⟩ :=
      initial_woven ((List.mem_cons.1 hi).imp_right List.mem_singleton.1)
    exact ⟨hinterface, (ha.started i hknown).known⟩

/-- What a class implements is an interface of one of its superclasses, or implemented by one. -/
lemma Tidy.implements_iff (ha : a.Tidy) (hc : a.Known c) (hi : a.Known i) :
    c.implements i = true ↔
      ∃ s ∈ c.superclasses, ∃ j ∈ s.interfaces, a.Known j ∧ (j = i ∨ j.implements i = true) := by
  rw [Class.implements_iff]
  refine exists_congr fun s => and_congr_right fun hs => exists_congr fun j =>
    and_congr_right fun hj => ?_
  have hknown := (ha.interface_known hc hs hj).2
  rw [ha.same_iff hknown hi]
  exact (and_iff_right hknown).symm

/-- An interface is reached from the classes that implement it by way of interfaces of
superclasses. -/
lemma Tidy.implements_induction (ha : a.Tidy) (hi : a.Known i) {motive : Class → Prop}
    (direct : ∀ c s, s ∈ c.superclasses → i ∈ s.interfaces → motive c)
    (indirect : ∀ c s j, s ∈ c.superclasses → j ∈ s.interfaces → motive j → motive c)
    (hc : a.Known c) (h : c.implements i = true) : motive c := by
  induction hsize : sizeOf c using Nat.strong_induction_on generalizing c with
  | _ n ih =>
    subst hsize
    obtain ⟨s, hs, j, hj, hknown, himplements⟩ := (ha.implements_iff hc hi).1 h
    rcases himplements with rfl | himplements
    · exact direct c s hs hj
    · have hlt := Class.sizeOf_lt_of_superclass_interface hs hj
      exact indirect c s j hs hj (ih _ hlt hknown himplements rfl)

/-- What a class implements is a part of its tree. -/
lemma Tidy.sizeOf_lt_of_implements (ha : a.Tidy) (hc : a.Known c) (hi : a.Known i)
    (h : c.implements i = true) : sizeOf i < sizeOf c := by
  refine ha.implements_induction hi (motive := fun c => sizeOf i < sizeOf c) ?_ ?_ hc h
  · intro c s hs hi
    exact Class.sizeOf_lt_of_superclass_interface hs hi
  · intro c s j hs hj hlt
    exact hlt.trans (Class.sizeOf_lt_of_superclass_interface hs hj)

/-- What an interface of a class implements, the class implements. -/
lemma Tidy.implements_trans (ha : a.Tidy) (hc : a.Known c) (hi : a.Known i)
    (h : c.implements i = true) (hd : i.implements d = true) : c.implements d = true := by
  refine ha.implements_induction hi (motive := fun c => c.implements d = true) ?_ ?_ hc h
  · intro c s hs hi
    exact Class.implements_iff.2 ⟨s, hs, i, hi, .inr hd⟩
  · intro c s j hs hj himplements
    exact Class.implements_iff.2 ⟨s, hs, j, hj, .inr himplements⟩

/-- Under an interface stand the interface itself and what implements it. -/
lemma Tidy.isAssignableTo_iff_implements (ha : a.Tidy) (hc : a.Known c) (hd : a.Known d)
    (hinterface : d.isInterface = true) :
    c.isAssignableTo d = true ↔ c = d ∨ c.implements d = true := by
  unfold Class.isAssignableTo
  rw [if_pos hinterface, Bool.or_eq_true, ha.same_iff hc hd]

/-- Of two classes that are no arrays, one may be used as the other only if they are the same or the
other is a part of its tree. -/
lemma Tidy.eq_or_sizeOf_lt (ha : a.Tidy) (hc : a.Known c) (hd : a.Known d)
    (hcplain : c.isArray = false) (hdplain : d.isArray = false) (h : c.isAssignableTo d = true) :
    c = d ∨ sizeOf d < sizeOf c := by
  cases hinterface : d.isInterface with
  | true =>
    rcases (ha.isAssignableTo_iff_implements hc hd hinterface).1 h with rfl | himplements
    · exact .inl rfl
    · exact .inr (ha.sizeOf_lt_of_implements hc hd himplements)
  | false =>
    have hmem := (ha.isAssignableTo_iff_mem hc hd hcplain hdplain hinterface).1 h
    exact (Class.sizeOf_le_of_superclass hmem).imp_left Eq.symm

end Area

namespace Form

/-- Below equally many array levels, the second class is an interface and the third one is a class
that is not above the first one. -/
def Skips : Form → Form → Form → Prop
  | object a, object b, object c =>
    b.isInterface = true ∧ c.isInterface = false ∧ c ∉ a.superclasses
  | array f, array g, array h => f.Skips g h
  | _, _, _ => False

end Form

namespace Area

variable {a : Area} {b c d : Class} {f g k : Form}

/-- Two steps of assignability between classes that are no arrays make one, unless the first goes to
an interface and the second to a class above the interface. -/
lemma Tidy.isAssignableTo_iff_not_skips (ha : a.Tidy) (hb : a.Known b) (hc : a.Known c)
    (hd : a.Known d) (hbplain : b.isArray = false) (hcplain : c.isArray = false)
    (hdplain : d.isArray = false) (hbc : b.isAssignableTo c = true)
    (hcd : c.isAssignableTo d = true) :
    b.isAssignableTo d = true ↔ ¬ (Form.object b).Skips (.object c) (.object d) := by
  cases hdinterface : d.isInterface with
  | true =>
    refine iff_of_true ?_ fun hskips => absurd hskips.2.1 (by simp [hdinterface])
    rw [ha.isAssignableTo_iff_implements hb hd hdinterface]
    rcases (ha.isAssignableTo_iff_implements hc hd hdinterface).1 hcd with rfl | hcd
    · exact (ha.isAssignableTo_iff_implements hb hc hdinterface).1 hbc
    refine .inr ?_
    cases hcinterface : c.isInterface with
    | true =>
      rcases (ha.isAssignableTo_iff_implements hb hc hcinterface).1 hbc with rfl | hbc
      · exact hcd
      · exact ha.implements_trans hb hc hbc hcd
    | false =>
      have hmem := (ha.isAssignableTo_iff_mem hb hc hbplain hcplain hcinterface).1 hbc
      exact Class.implements_of_superclass hmem hcd
  | false =>
    rw [ha.isAssignableTo_iff_mem hb hd hbplain hdplain hdinterface]
    have hmem := (ha.isAssignableTo_iff_mem hc hd hcplain hdplain hdinterface).1 hcd
    simp only [Form.Skips, hdinterface, true_and, not_and, not_not]
    refine ⟨fun habove _ => habove, fun hnot => ?_⟩
    cases hcinterface : c.isInterface with
    | true => exact hnot hcinterface
    | false =>
      have hbelow := (ha.isAssignableTo_iff_mem hb hc hbplain hcplain hcinterface).1 hbc
      exact Class.superclasses_trans hmem hbelow

/-- Above the supertypes of arrays there are only supertypes of arrays. -/
lemma Tidy.takesArrays_of_isAssignableTo (ha : a.Tidy) (hc : a.Known c) (hd : a.Known d)
    (hdplain : d.isArray = false) (hcd : c.isAssignableTo d = true) (h : c.takesArrays = true) :
    d.takesArrays = true := by
  have heq : ∀ i ∈ Boot.classes, c.same i = true → c = i :=
    fun i hi => (ha.same_iff hc (ha.known_boot hi)).1
  have hcases : c = Boot.object ∨ c = Boot.cloneable ∨ c = Boot.serializable := by
    simp only [Class.takesArrays, Bool.or_eq_true] at h
    rcases h with (hsame | hsame) | hsame
    · exact .inl (heq _ (by simp [Boot.classes]) hsame)
    · exact .inr (.inl (heq _ (by simp [Boot.classes]) hsame))
    · exact .inr (.inr (heq _ (by simp [Boot.classes]) hsame))
  have hcplain : c.isArray = false := by rcases hcases with rfl | rfl | rfl <;> rfl
  have hnone : c.implements d = false := by rcases hcases with rfl | rfl | rfl <;> rfl
  have habove : ∀ s ∈ c.superclasses, s = c ∨ s = Boot.object := by
    intro s hs
    rcases hcases with rfl | rfl | rfl
    · exact .inl (List.mem_singleton.1 hs)
    · exact (List.mem_cons.1 hs).imp_right List.mem_singleton.1
    · exact (List.mem_cons.1 hs).imp_right List.mem_singleton.1
  cases hinterface : d.isInterface with
  | true =>
    rcases (ha.isAssignableTo_iff_implements hc hd hinterface).1 hcd with rfl | himplements
    · exact h
    · rw [hnone] at himplements
      cases himplements
  | false =>
    have hmem := (ha.isAssignableTo_iff_mem hc hd hcplain hdplain hinterface).1 hcd
    rcases habove d hmem with rfl | rfl
    · exact h
    · rfl

/-! ### Forms -/

/-- Two forms of which each fits the other are the same. -/
lemma Tidy.fits_antisymm (ha : a.Tidy) (hf : a.Grounded f) (hg : a.Grounded g)
    (hfg : f.fits g = true) (hgf : g.fits f = true) : f = g := by
  induction f generalizing g with
  | object b =>
    cases g with
    | object c =>
      obtain ⟨hb, hbplain⟩ := hf b rfl
      obtain ⟨hc, hcplain⟩ := hg c rfl
      rcases ha.eq_or_sizeOf_lt hb hc hbplain hcplain hfg with rfl | hlt
      · rfl
      rcases ha.eq_or_sizeOf_lt hc hb hcplain hbplain hgf with rfl | hgt
      · rfl
      · exact absurd (hlt.trans hgt) (lt_irrefl _)
    | primitives p => cases hfg
    | array g => cases hfg
  | primitives p =>
    cases g with
    | object c => cases hgf
    | primitives q => rw [of_decide_eq_true hfg]
    | array g => cases hfg
  | array f ih =>
    cases g with
    | object c => cases hgf
    | primitives q => cases hfg
    | array g => rw [ih (g := g) hf hg hfg hgf]

/-- What takes arrays fits nothing but what takes arrays. -/
lemma Tidy.exists_of_takesArrays (ha : a.Tidy) (hc : a.Grounded (.object c)) (hk : a.Grounded k)
    (hck : (Form.object c).fits k = true) (h : c.takesArrays = true) :
    ∃ d, k = .object d ∧ d.takesArrays = true := by
  cases k with
  | object d =>
    obtain ⟨hd, hdplain⟩ := hk d rfl
    exact ⟨d, rfl, ha.takesArrays_of_isAssignableTo (hc c rfl).1 hd hdplain hck h⟩
  | primitives q => cases hck
  | array k => cases hck

/-- Two steps of fitting make one, unless the first goes to an interface and the second to a class
above the interface. -/
lemma Tidy.fits_iff_not_skips (ha : a.Tidy) (hf : a.Grounded f) (hg : a.Grounded g)
    (hk : a.Grounded k) (hfg : f.fits g = true) (hgk : g.fits k = true) :
    f.fits k = true ↔ ¬ f.Skips g k := by
  induction f generalizing g k with
  | object b =>
    cases g with
    | object c =>
      cases k with
      | object d =>
        obtain ⟨hb, hbplain⟩ := hf b rfl
        obtain ⟨hc, hcplain⟩ := hg c rfl
        obtain ⟨hd, hdplain⟩ := hk d rfl
        exact ha.isAssignableTo_iff_not_skips hb hc hd hbplain hcplain hdplain hfg hgk
      | primitives q => cases hgk
      | array k => cases hgk
    | primitives q => cases hfg
    | array g => cases hfg
  | primitives p =>
    refine iff_of_true ?_ fun hskips => by cases g <;> cases k <;> cases hskips
    cases g with
    | object c =>
      obtain ⟨d, rfl, htakes⟩ := ha.exists_of_takesArrays hg hk hgk hfg
      exact htakes
    | primitives q =>
      rw [of_decide_eq_true hfg]
      exact hgk
    | array g => cases hfg
  | array f ih =>
    cases g with
    | object c =>
      obtain ⟨d, rfl, htakes⟩ := ha.exists_of_takesArrays hg hk hgk hfg
      exact iff_of_true htakes fun hskips => hskips
    | primitives q => cases hfg
    | array g =>
      cases k with
      | object d => exact iff_of_true hgk fun hskips => hskips
      | primitives q => cases hgk
      | array k =>
        exact ih (g := g) (k := k) hf hg hk hfg hgk

/-- Where interfaces stand directly below the top of the hierarchy, nothing is skipped. -/
lemma Tidy.not_skips (ha : a.Tidy)
    (hflat : ∀ i, a.Known i → i.isInterface = true → i.superclass? = some Boot.object)
    (hf : a.Grounded f) (hg : a.Grounded g) (hk : a.Grounded k) (hgk : g.fits k = true) :
    ¬ f.Skips g k := by
  fun_induction Form.Skips f g k with
  | case1 b c d =>
    rintro ⟨hinterface, hclass, habove⟩
    obtain ⟨hb, -⟩ := hf b rfl
    obtain ⟨hc, hcplain⟩ := hg c rfl
    obtain ⟨hd, hdplain⟩ := hk d rfl
    have hmem := (ha.isAssignableTo_iff_mem hc hd hcplain hdplain hclass).1 hgk
    rw [Class.superclasses_eq_cons, hflat c hc hinterface] at hmem
    rcases List.mem_cons.1 hmem with rfl | hmem
    · rw [hinterface] at hclass
      cases hclass
    · rw [List.mem_singleton.1 hmem] at habove
      exact habove (Class.object_mem_superclasses fun t ht =>
        ha.linked_of_known (ha.admitted_of_known hb t ht))
  | case2 f g k ih => exact ih hf hg hk hgk
  | case3 f g k => exact fun hskips => hskips

/-- Where interfaces stand directly below the top of the hierarchy, two steps of assignability
always make one. -/
theorem Tidy.isAssignableTo_trans (ha : a.Tidy)
    (hflat : ∀ i, a.Known i → i.isInterface = true → i.superclass? = some Boot.object)
    (hb : a.Known b) (hc : a.Known c) (hd : a.Known d) (hbc : b.isAssignableTo c = true)
    (hcd : c.isAssignableTo d = true) : b.isAssignableTo d = true := by
  rw [ha.isAssignableTo_eq_fits hb hc] at hbc
  rw [ha.isAssignableTo_eq_fits hc hd] at hcd
  rw [ha.isAssignableTo_eq_fits hb hd]
  have hf := ha.grounded_of_known hb
  have hg := ha.grounded_of_known hc
  have hk := ha.grounded_of_known hd
  exact (ha.fits_iff_not_skips hf hg hk hbc hcd).2 (ha.not_skips hflat hf hg hk hcd)

end Area

namespace Resolver

/-- Assignability orders the classes that loaders have, in every state that is reached: a class may
be used as itself, no two classes may be used as each other, and what may be used as a class may be
used as whatever that class may be used as, unless that leads past an interface to a class above
it. -/
theorem assignability_orders_classes_iff {start r : Resolver} (hstart : start.area = Area.initial)
    (hrun : GenuineRun start r) {b c d : Class} (hb : r.area.Published b)
    (hc : r.area.Published c) (hd : r.area.Published d) :
    b.isAssignableTo b = true ∧
    (b.isAssignableTo c = true → c.isAssignableTo b = true → b = c) ∧
    (b.isAssignableTo c = true → c.isAssignableTo d = true →
      (b.isAssignableTo d = true ↔ ¬ b.form.Skips c.form d.form)) := by
  have hr : r.area.Tidy := hrun.tidy (hstart ▸ Area.initial_tidy)
  have hbknown := (hr.rooted_of_published hb).owned.known
  have hcknown := (hr.rooted_of_published hc).owned.known
  have hdknown := (hr.rooted_of_published hd).owned.known
  have hf := hr.grounded_of_known hbknown
  have hg := hr.grounded_of_known hcknown
  have hk := hr.grounded_of_known hdknown
  rw [hr.isAssignableTo_eq_fits hbknown hcknown, hr.isAssignableTo_eq_fits hcknown hbknown,
    hr.isAssignableTo_eq_fits hcknown hdknown, hr.isAssignableTo_eq_fits hbknown hdknown]
  refine ⟨b.isAssignableTo_self, fun hbc hcb => ?_, hr.fits_iff_not_skips hf hg hk⟩
  exact hr.form_inj hbknown hcknown (hr.fits_antisymm hf hg hbc hcb)

/-- A class with a subclass, an interface below the class, and a class that implements the
interface, all of them loaded. -/
def ordered : Resolver :=
  performAll [.load .bootstrap "p/E", .load .bootstrap "p/C"] inheriting

lemma genuineRun_ordered : GenuineRun { area := Area.initial } ordered :=
  genuineRun_inheriting.trans (genuineRun_performAll (by simp [Operation.Genuine]) _)

/-- Whether three classes of that state, found by their names, are accepted by a test. -/
def orderedWhere (first second third : String) (accept : Class → Class → Class → Bool) : Bool :=
  (ordered.area.published? .bootstrap first).any fun b =>
    (ordered.area.published? .bootstrap second).any fun c =>
      (ordered.area.published? .bootstrap third).any fun d => accept b c d

lemma exists_of_orderedWhere {first second third : String} {accept : Class → Class → Class → Bool}
    (h : orderedWhere first second third accept = true) :
    ∃ b c d, ordered.area.Published b ∧ ordered.area.Published c ∧ ordered.area.Published d ∧
      accept b c d = true := by
  obtain ⟨b, hb, h⟩ := Area.exists_published h
  obtain ⟨c, hc, h⟩ := Area.exists_published h
  obtain ⟨d, hd, h⟩ := Area.exists_published h
  exact ⟨b, c, d, hb, hc, hd, h⟩

/-- The subclass may be used as the class, the class as the top of the hierarchy, and so may the
subclass. -/
theorem subclass_below_top :
    ∃ b c d, ordered.area.Published b ∧ ordered.area.Published c ∧ ordered.area.Published d ∧
      b.isAssignableTo c = true ∧ c.isAssignableTo d = true ∧ c.superclass?.isSome = true ∧
      b ≠ c ∧ b.isAssignableTo d = true := by
  have htest : orderedWhere "p/E" "p/S" objectName (fun b c d =>
      !c.isInterface && !c.isArray && c.superclass?.isSome && !b.isArray && !d.isArray &&
        !b.same c && b.isAssignableTo c && c.isAssignableTo d) = true := by
    decide +kernel
  obtain ⟨b, c, d, hb, hc, hd, htest⟩ := exists_of_orderedWhere htest
  simp only [Bool.and_eq_true, Bool.not_eq_true'] at htest
  obtain ⟨⟨⟨⟨⟨⟨⟨hclass, hcplain⟩, habove⟩, hbplain⟩, hdplain⟩, hne⟩, hbc⟩, hcd⟩ := htest
  refine ⟨b, c, d, hb, hc, hd, hbc, hcd, habove, ?_, ?_⟩
  · rintro rfl
    rw [Class.same_self] at hne
    cases hne
  obtain ⟨-, -, htrans⟩ := assignability_orders_classes_iff rfl genuineRun_ordered hb hc hd
  refine (htrans hbc hcd).2 ?_
  rw [Class.form_of_not_isArray hbplain, Class.form_of_not_isArray hcplain,
    Class.form_of_not_isArray hdplain]
  rintro ⟨hinterface, -⟩
  rw [hclass] at hinterface
  cases hinterface

/-- A class may be used as an interface, and the interface as the class above it, but not the first
class as that one. -/
theorem assignability_not_transitive :
    ∃ b c d, GenuineRun { area := Area.initial } ordered ∧ ordered.area.Published b ∧
      ordered.area.Published c ∧ ordered.area.Published d ∧ b.isAssignableTo c = true ∧
      c.isAssignableTo d = true ∧ b.isAssignableTo d = false := by
  have htest : orderedWhere "p/C" "p/I" "p/S" (fun b c d =>
      b.isAssignableTo c && c.isAssignableTo d && !b.isAssignableTo d) = true := by
    decide +kernel
  obtain ⟨b, c, d, hb, hc, hd, htest⟩ := exists_of_orderedWhere htest
  simp only [Bool.and_eq_true, Bool.not_eq_true'] at htest
  obtain ⟨⟨hbc, hcd⟩, hbd⟩ := htest
  exact ⟨b, c, d, genuineRun_ordered, hb, hc, hd, hbc, hcd, hbd⟩

end Resolver

end Linkage
