import Linkage.Proofs.Lattice.Order
import Linkage.Proofs.Lattice.Branches

/-!
# What a join finds above its types

A join goes by one class of each type, the one below all array levels, provided that it is loaded
and no interface. Above two types of as many levels it names the first common superclass of these,
or the arrays over it; above others the top of the hierarchy, or the stand-in for the common
supertype of arrays. What is above the class that it names is what is above both types, if nothing
is said of the stand-in.
-/

namespace Linkage

open Relation ReferenceType

/-! ### The first common superclass -/

namespace Class

variable {c d s : Class} {p : Class → Bool}

lemma mem_superclasses_of_find?_cons {x : Class} {rest : List Class}
    (hx : x.superclasses = x :: rest) (hp : p s = true)
    (hrest : rest.find? p = some d → s ∈ rest → s ∈ d.superclasses)
    (h : x.superclasses.find? p = some d) (hs : s ∈ x.superclasses) : s ∈ d.superclasses := by
  rw [hx, List.find?_cons] at h
  cases hpx : p x with
  | true =>
    rw [hpx] at h
    cases h
    exact hs
  | false =>
    rw [hpx] at h
    rw [hx] at hs
    rcases List.mem_cons.1 hs with rfl | hs
    · rw [hp] at hpx
      cases hpx
    · exact hrest h hs

/-- The superclasses that a test accepts are above the first of them. -/
lemma mem_superclasses_of_find? (hp : p s = true) : ∀ {x : Class},
    x.superclasses.find? p = some d → s ∈ x.superclasses → s ∈ d.superclasses
  | .root _ => mem_superclasses_of_find?_cons rfl hp (by simp)
  | .derived _ _ _ => mem_superclasses_of_find?_cons rfl hp (mem_superclasses_of_find? hp)
  | .primitiveArray _ _ _ _ => mem_superclasses_of_find?_cons rfl hp (mem_superclasses_of_find? hp)
  | .array _ _ _ _ => mem_superclasses_of_find?_cons rfl hp (mem_superclasses_of_find? hp)

/-- No two classes are above one another. -/
lemma eq_of_mem_superclasses (h : c ∈ d.superclasses) (h' : d ∈ c.superclasses) : c = d := by
  rcases sizeOf_le_of_superclass h with heq | hlt
  · exact heq
  rcases sizeOf_le_of_superclass h' with heq | hgt
  · exact heq.symm
  · exact absurd (hlt.trans hgt) (lt_irrefl _)

end Class

namespace Area

variable {a q : Area} {c d e s x y : Class} {m : Mention}

lemma Tidy.object_mem_superclasses (ha : a.Tidy) (hc : a.Known c) : Boot.object ∈ c.superclasses :=
  Class.object_mem_superclasses fun t ht => ha.linked_of_known (ha.admitted_of_known hc t ht)

/-- Two classes that are no interfaces have a first common superclass, and above it there is what is
above both. -/
lemma Tidy.exists_commonSuperclass (ha : a.Tidy) (hx : a.Known x) (hy : a.Known y)
    (hxclass : x.isInterface = false) (hyclass : y.isInterface = false) :
    ∃ d, x.commonSuperclass? y = some d ∧
      ∀ s, s ∈ d.superclasses ↔ s ∈ x.superclasses ∧ s ∈ y.superclasses := by
  have habove : ∀ s, s ∈ y.superclasses → y.isSubclassOf s = true :=
    fun s hs => List.any_eq_true.2 ⟨s, hs, s.same_self⟩
  have hcommon : x.commonSuperclass? y = x.superclasses.find? fun c => y.isSubclassOf c := by
    simp only [Class.commonSuperclass?, hxclass, hyclass, Bool.or_self, Bool.false_eq_true,
      if_false]
  obtain ⟨d, hd⟩ : ∃ d, x.commonSuperclass? y = some d := by
    rw [hcommon, ← Option.isSome_iff_exists, List.find?_isSome]
    exact ⟨Boot.object, ha.object_mem_superclasses hx, habove _ (ha.object_mem_superclasses hy)⟩
  obtain ⟨-, hdx, hdy⟩ := ReferenceType.commonSuperclass?_eq_some hd
  rw [ha.isSubclassOf_iff_mem hy (ha.admitted_of_known hx d hdx)] at hdy
  refine ⟨d, hd, fun s => ⟨fun hs => ?_, fun ⟨hsx, hsy⟩ => ?_⟩⟩
  · exact ⟨Class.superclasses_trans hs hdx, Class.superclasses_trans hs hdy⟩
  · exact Class.mem_superclasses_of_find? (habove s hsy) (hcommon ▸ hd) hsx

/-! ### The class that a join goes by -/

/-- The class that a mention of a class that is no array means, if it is loaded. -/
def plain? (a : Area) : Mention → Option Class
  | .loaded c => some c
  | .symbolic r => a.published? r.referer.loader r.name

end Area

/-- What is mentioned below all array levels; what is no array is its own element. -/
def Mention.element? (m : Mention) : Option Mention :=
  if (ofMention m).isArray then (ofMention m).elementClass else some m

/-- The class that a join goes by: the one below all array levels, if it is loaded and no
interface. -/
def Area.base? (a : Area) (m : Mention) : Option Class :=
  (m.element?.bind a.plain?).filter fun c => !c.isInterface

lemma Mention.element?_of_array {m : Mention} (h : (ofMention m).isArray = true) :
    m.element? = (ofMention m).elementClass := if_pos h

lemma Mention.element?_of_plain {m : Mention} (h : (ofMention m).isArray = false) :
    m.element? = some m := if_neg (by simp [h])

lemma Mention.WellNamed.plain_of_element? {m e : Mention} (h : m.WellNamed)
    (he : m.element? = some e) : (ofMention e).dimension = 0 := by
  cases harray : (ofMention m).isArray with
  | true => exact h.dimension_element (m.element?_of_array harray ▸ he)
  | false =>
    rw [Mention.element?_of_plain harray] at he
    cases he
    simpa [isArray] using harray

lemma Mention.find_of_plain {m : Mention} (h : (ofMention m).dimension = 0) (a : Area) :
    m.find a = .ok (a.plain? m) a := by
  cases m with
  | loaded c => rfl
  | symbolic r => exact Area.findLoaded_of_isPlain (isPlain_iff_dimension.1 h) _ a

namespace Area

variable {a q : Area} {c d e s x y : Class} {m : Mention} {k n : Nat}

lemma base?_eq_some_iff :
    a.base? m = some x ↔ m.element?.bind a.plain? = some x ∧ x.isInterface = false := by
  simp [base?, Option.filter_eq_some_iff]

lemma Tidy.known_of_plain? (ha : a.Tidy) (hm : m.Given a) (hplain : (ofMention m).dimension = 0)
    (h : a.plain? m = some c) : a.Known c ∧ c.isArray = false := by
  cases m with
  | loaded d =>
    cases h
    refine ⟨hm, ?_⟩
    rw [Bool.eq_false_iff]
    exact fun harray => Nat.ne_of_gt (Class.dimension_pos_of_isArray harray) hplain
  | symbolic r =>
    refine ⟨(ha.rooted _ _ c h).owned.known, ?_⟩
    rw [Bool.eq_false_iff]
    intro harray
    refine Class.not_isPlain_of_isArray harray ?_
    rw [ha.sound.keyed _ _ c h]
    exact isPlain_iff_dimension.1 hplain

lemma Tidy.element?_given (ha : a.Tidy) (hm : m.Given a) {e : Mention} (he : m.element? = some e) :
    e.Given a := by
  cases harray : (ofMention m).isArray with
  | true => exact ha.element_given hm (m.element?_of_array harray ▸ he)
  | false =>
    rw [Mention.element?_of_plain harray] at he
    cases he
    exact hm

/-- The class that a join goes by is one of those there are, and no array. -/
lemma Tidy.known_of_base? (ha : a.Tidy) (hm : m.Given a) (hname : m.WellNamed)
    (h : a.base? m = some x) : (a.Known x ∧ x.isArray = false) ∧ x.isInterface = false := by
  obtain ⟨hfound, hclass⟩ := base?_eq_some_iff.1 h
  obtain ⟨e, he, hx⟩ := Option.bind_eq_some_iff.1 hfound
  exact ⟨ha.known_of_plain? (ha.element?_given hm he) (hname.plain_of_element? he) hx, hclass⟩

/-- A join goes by the class below the levels of an array class. -/
lemma base?_of_form (hform : c.form = Form.array^[n] d.form) (hplain : d.isArray = false)
    (hclass : d.isInterface = false) : a.base? (.loaded c) = some d ∧ c.dimension = n := by
  have helement : c.element? = some d := by
    rw [← Class.element?_form, hform, Form.element?_iterate, Class.form_of_not_isArray hplain]
    rfl
  have hdim : c.dimension = n := by
    rw [← Class.dimension_form, hform, Form.dimension_iterate, Class.form_of_not_isArray hplain]
    exact Nat.zero_add n
  refine ⟨base?_eq_some_iff.2 ⟨?_, hclass⟩, hdim⟩
  cases harray : (ofMention (.loaded c)).isArray with
  | true =>
    have hc : c.isArray = true := by
      rw [← Class.isArray_form, Form.isArray_iff, Class.dimension_form]
      exact Nat.pos_of_ne_zero (of_decide_eq_true harray)
    rw [Mention.element?_of_array harray]
    simp only [ofMention, ofClass, Class.elementClass?, hc, if_true, helement, Option.map_some,
      Option.bind_some, plain?]
  | false =>
    have hzero : n = 0 := by
      rw [← hdim]
      exact of_decide_eq_false harray |> not_not.1
    subst hzero
    rw [Mention.element?_of_plain harray]
    have hobject := hform.trans (Class.form_of_not_isArray hplain)
    exact congrArg some (Class.eq_of_form_eq_object hobject)

/-! ### Areas with more array classes -/

/-- One area has the classes of another one that are no arrays, and no others but arrays. -/
structure Wider (a q : Area) : Prop extends Later a q where
  plain : ∀ l n, IsPlain n → q.published? l n = a.published? l n

namespace Wider

lemma refl (ha : a.Tidy) : a.Wider a := ⟨.refl ha, fun _ _ _ => rfl⟩

lemma trans {b : Area} (h : a.Wider b) (h' : b.Wider q) : a.Wider q :=
  ⟨h.toLater.trans h'.toLater, fun l n hn => (h'.plain l n hn).trans (h.plain l n hn)⟩

lemma of_arraySteps (hlater : Later a q) (hsteps : ReflTransGen ArrayStep a q) : a.Wider q :=
  ⟨hlater, (LazyStep.nothing_loaded (ArrayStep.lazily hsteps)).2⟩

variable (h : a.Wider q)
include h

lemma unshadowed (hclear : a.Unshadowed) : q.Unshadowed :=
  (h.plain _ _ (by decide)).trans hclear

lemma plainAbove (hplain : a.PlainAbove) : q.PlainAbove := by
  intro c hc hother
  refine hplain c ?_ hother
  rw [Owned, ← h.plain _ _ (h.after.isPlain_of_not_isArray hc.known hother)]
  exact hc

lemma base?_eq (hname : m.WellNamed) : q.base? m = a.base? m := by
  have hfound : m.element?.bind q.plain? = m.element?.bind a.plain? := by
    cases he : m.element? with
    | none => rfl
    | some e =>
      have hplain := hname.plain_of_element? he
      cases e with
      | loaded c => rfl
      | symbolic r => exact h.plain _ _ (isPlain_iff_dimension.1 hplain)
  rw [base?, base?, hfound]

end Wider

end Area

/-! ### What is above a type -/

/-- Arrays of so many levels over a class are above a mentioned class, as far as a join can see. Of
the stand-in for the common supertype of arrays nothing is said. -/
def Mention.Reaches (a : Area) (m : Mention) (k : Nat) (s : Class) : Prop :=
  k = 0 ∧ s = Boot.object ∨
    (ofMention m).dimension = k ∧ (k = 0 → s ≠ Boot.arrayStub) ∧
      ∃ x, a.base? m = some x ∧ s ∈ x.superclasses

namespace Mention

variable {a q : Area} {m n : Mention} {c d s : Class} {k j : Nat}

lemma reaches_iff_of_base (hbase : a.base? m = some d) :
    m.Reaches a k s ↔ k = 0 ∧ s = Boot.object ∨
      (ofMention m).dimension = k ∧ (k = 0 → s ≠ Boot.arrayStub) ∧ s ∈ d.superclasses := by
  simp only [Reaches, hbase, Option.some.injEq, exists_eq_left']

lemma reaches_wider (h : a.Wider q) (hname : m.WellNamed) : m.Reaches q k s ↔ m.Reaches a k s := by
  rw [Reaches, Reaches, h.base?_eq hname]

/-- A join goes by the same class of two mentions that have as many levels, if the same is found for
them and for their elements. -/
lemma base?_congr (hdim : (ofMention m).dimension = (ofMention n).dimension)
    (hplain : a.plain? m = a.plain? n)
    (helement : (ofMention m).elementClass.bind a.plain? =
      (ofMention n).elementClass.bind a.plain?) : a.base? m = a.base? n := by
  have harrays : (ofMention m).isArray = (ofMention n).isArray := by rw [isArray, isArray, hdim]
  suffices heq : m.element?.bind a.plain? = n.element?.bind a.plain? by
    rw [Area.base?, Area.base?, heq]
  cases harray : (ofMention m).isArray with
  | true => rw [element?_of_array harray, element?_of_array (harrays ▸ harray), helement]
  | false =>
    rw [element?_of_plain harray, element?_of_plain (harrays ▸ harray), Option.bind_some,
      Option.bind_some, hplain]

/-- A join goes by the same class of a published class and of its name. -/
lemma base?_of_owned (ha : a.Tidy) {r : ClassRef} (hc : a.Owned c)
    (hstub : ¬ (Mention.symbolic r).NamesStubArray) (hname : c.name = r.name)
    (hloader : c.loader = r.referer.loader) :
    (ofMention (.loaded c)).dimension = (ofMention (.symbolic r)).dimension ∧
      a.base? (.loaded c) = a.base? (.symbolic r) := by
  obtain ⟨hlevels, -, hclass⟩ :=
    (Area.HasForm.owned hc).parts_ofClassRef ha (c.name_form.trans hname)
  rw [Class.dimension_form] at hlevels
  rw [Form.elementClass?_form] at hclass
  refine ⟨hlevels.symm, base?_congr hlevels.symm ?_ ?_⟩
  · rw [Area.plain?, Area.plain?, ← hname, ← hloader]
    exact Eq.symm hc
  change (c.elementClass?.map Mention.loaded).bind a.plain? = (ofClassRef r).elementClass.bind _
  rw [hclass]
  cases hx : c.elementClass? with
  | none => rfl
  | some x =>
    have he : (ofMention (.loaded c)).elementClass = some (.loaded x) := by
      simp only [ofMention, ofClass, hx, Option.map_some]
    have hxloader : x.loader = c.loader := ha.loader_element (m := .loaded c) hc.known he
    rcases ha.element_given (m := .loaded c) hc.known he with hxowned | hxstub
    · change some x = a.published? r.referer.loader x.name
      rw [← hloader, ← hxloader]
      exact Eq.symm hxowned
    · refine absurd ⟨_, hclass.trans (congrArg _ hx), ?_⟩ hstub
      rw [hxstub, ha.core]
      rfl

/-- A join goes by the same class of mentions that are known to be the same. -/
lemma base?_of_key (ha : a.Tidy) (hm : m.Published a) (hn : n.Published a)
    (hmstub : ¬ m.NamesStubArray) (hnstub : ¬ n.NamesStubArray) (hkey : m.key = n.key) :
    (ofMention m).dimension = (ofMention n).dimension ∧ a.base? m = a.base? n := by
  obtain ⟨hname, hloader⟩ := Prod.mk.inj hkey
  match m, n with
  | .loaded c, .loaded d =>
    obtain rfl : c = d := Area.Owned.eq_of_name hm hn hname hloader
    exact ⟨rfl, rfl⟩
  | .loaded c, .symbolic r => exact base?_of_owned ha hm hnstub hname hloader
  | .symbolic r, .loaded c =>
    exact (base?_of_owned ha hn hmstub hname.symm hloader.symm).imp Eq.symm Eq.symm
  | .symbolic r, .symbolic q =>
    have hname : r.name = q.name := hname
    have hloader : r.referer.loader = q.referer.loader := hloader
    have hdim : (ofClassRef r).dimension = (ofClassRef q).dimension := by
      rw [dimension_ofClassRef, dimension_ofClassRef, hname]
    refine ⟨hdim, base?_congr hdim ?_ ?_⟩
    · rw [Area.plain?, Area.plain?, hname, hloader]
    · simp only [ofMention, ofClassRef, hname]
      split
      · rfl
      · split
        · simp only [Option.bind_some, Area.plain?, hloader]
        · rfl

end Mention

/-! ### The class above two types -/

namespace Area

variable {a b : Area} {c d e s x y : Class} {n k : Nat}

/-- Arrays over a class that is there can be had, if they are not of too many levels. -/
lemma Tidy.exists_arrayOfDimension (ha : a.Tidy) (hclear : a.Unshadowed) (hc : a.Known c)
    (hle : c.dimension + n ≤ maxDimension) :
    ∃ d b, arrayOfDimension? c n a = .ok (some d) b ∧ a.Wider b ∧ b.Known d ∧
      d.form = Form.array^[n] c.form := by
  induction n generalizing a c with
  | zero => exact ⟨c, a, rfl, .refl ha, hc, rfl⟩
  | succ n ih =>
    obtain ⟨d, s, hd⟩ := ha.exists_arrayOf hc (by omega)
    obtain ⟨hsteps, hrooted⟩ := tidy_arrayOf c a ⟨ha, ha.admitted_of_known hc⟩
    have harrays := arrayOf_steps c a
    rw [finalState_of_ok hd] at hsteps harrays
    have hwider : a.Wider s := .of_arraySteps (later_of_tidySteps hsteps ha) harrays
    have hform : d.form = .array c.form :=
      hwider.after.form_of_arrayName (hwider.unshadowed hclear) (hwider.known hc)
        (published?_of_arrayOf hd)
    have hdim : d.dimension = c.dimension + 1 := by
      rw [← Class.dimension_form, hform, Form.dimension, Class.dimension_form]
    obtain ⟨e, b, he, hlast, hknown, hlevels⟩ :=
      ih hwider.after (hwider.unshadowed hclear) (hrooted d s hd).owned.known (by omega)
    refine ⟨e, b, ?_, hwider.trans hlast, hknown, ?_⟩
    · have hfound : arrayOf? c a = .ok (some d) s := by rw [arrayOf?_eq, hd]
      exact (bind_of_ok hfound).trans he
    · rw [hlevels, hform, Function.iterate_succ_apply]

/-- A class is the arrays of so many levels over a class that is no array and no interface. -/
structure Tops (a : Area) (c : Class) (n : Nat) (d : Class) : Prop where
  known : a.Known c
  form : c.form = Form.array^[n] d.form
  base : a.Known d
  plain : d.isArray = false
  proper : d.isInterface = false

lemma Tops.self (hc : a.Known c) (hplain : c.isArray = false) (hproper : c.isInterface = false) :
    a.Tops c 0 c := ⟨hc, rfl, hc, hplain, hproper⟩

lemma Tops.reaches_iff (h : a.Tops c n d) : (Mention.loaded c).Reaches a k s ↔
    k = 0 ∧ s = Boot.object ∨ n = k ∧ (k = 0 → s ≠ Boot.arrayStub) ∧ s ∈ d.superclasses := by
  obtain ⟨hbase, hdim⟩ := base?_of_form (a := a) h.form h.plain h.proper
  rw [Mention.reaches_iff_of_base hbase]
  subst hdim
  rfl

lemma Tidy.dimension_le_of_given (ha : a.Tidy) {m : Mention} (hm : m.Given a) :
    (ofMention m).dimension ≤ maxDimension := by
  cases m with
  | loaded c => exact (ha.linked_of_known hm).dimension_le
  | symbolic r =>
    rw [ofMention, dimension_ofClassRef]
    exact Nat.min_le_right _ _

end Area

namespace ReferenceType

variable {a b : Area} {t u v : ReferenceType} {c d x y : Class} {k : Nat}

/-- What joins need of a type: it is as types that arise are, and the class that it names is not
named by an ill-formed name or by that of an array over the stand-in for the common supertype of
arrays. -/
structure Ready (a : Area) (t : ReferenceType) : Prop extends Formed a t, Plural t where
  bounded : t.Bounded a
  wellNamed : t.mention.WellNamed
  unstubbed : ¬ t.mention.NamesStubArray

lemma Ready.later {q : Area} (h : t.Ready a) (hlater : Area.Later a q) (hclear : q.Unshadowed) :
    t.Ready q :=
  ⟨h.toFormed.later hlater, h.toPlural, h.bounded.later hlater hclear, h.wellNamed, h.unstubbed⟩

lemma Formed.isArray_eq (h : t.Formed a) : t.isArray = (ofMention t.mention).isArray := by
  rw [isArray, isArray, h.dimension]

lemma elementType_of_elementClass {m e : Mention} (he : (ofMention m).elementClass = some e) :
    (ofMention m).elementType = none := by
  cases m with
  | loaded c =>
    obtain ⟨x, hx, -⟩ := Option.map_eq_some_iff.1 he
    rw [Class.elementClass?] at hx
    split at hx
    · change c.elementType? = none
      rw [← Class.elementType?_form]
      exact Form.elementType?_of_element? (c.element?_form.trans hx)
    · cases hx
  | symbolic r =>
    obtain ⟨hlevels, e, hunwrap, -⟩ := elementClass_ofClassRef_iff.1 he
    have hne : min (splitDimensions r.name).1 maxDimension ≠ 0 := by
      rw [ne_eq, Nat.min_eq_zero_iff, not_or]
      exact ⟨hlevels, by decide⟩
    simp only [ofMention, ofClassRef, hne, if_false, hunwrap]

lemma findElement_of_plain {o : Option Mention} (h : ∀ e ∈ o, (ofMention e).dimension = 0)
    (a : Area) : findElement o a = .ok (o.bind a.plain?) a := by
  cases o with
  | none => rfl
  | some e => exact Mention.find_of_plain (h e rfl) a

/-- The class above two array types, in terms of what is below their levels. -/
lemma commonArray_eq (ha : a.Tidy) (ht : t.Ready a) (hu : u.Ready a) (htarray : t.isArray = true)
    (huarray : u.isArray = true) : commonArray t u a =
      (match t.mention.element?.bind a.plain?, u.mention.element?.bind a.plain? with
      | some x, some y =>
        match if t.dimension = u.dimension && t.elementType = u.elementType
          then x.commonSuperclass? y else none with
        | some common => Area.arrayOfDimension? common t.dimension
        | none => return some Boot.arrayStub
      | _, _ => return some Boot.arrayStub) a := by
  have helement : ∀ {s : ReferenceType}, s.Ready a → s.isArray = true →
      s.elementClass = s.mention.element? := by
    intro s hs harray
    rw [hs.elementClass, Mention.element?_of_array (hs.isArray_eq ▸ harray)]
  rw [commonArray, helement ht htarray, helement hu huarray,
    bind_of_ok (findElement_of_plain (fun e he => ht.wellNamed.plain_of_element? he) a),
    bind_of_ok (findElement_of_plain (fun e he => hu.wellNamed.plain_of_element? he) a),
    bind_of_ok (get_apply a), ha.core]
  rfl

/-- The class above two types that are none of arrays, in terms of the classes that are found. -/
lemma commonSupertype_of_plain (ha : a.Tidy) (ht : t.Ready a) (hu : u.Ready a)
    (htplain : t.isArray = false) (huplain : u.isArray = false) : commonSupertype t u a =
      .ok (match t.mention.element?.bind a.plain?, u.mention.element?.bind a.plain? with
      | some x, some y => some ((x.commonSuperclass? y).getD Boot.object)
      | _, _ => some Boot.object) a := by
  have hmention : ∀ {s : ReferenceType}, s.Ready a → s.isArray = false →
      s.mention.element? = some s.mention ∧ s.mention.find a = .ok (a.plain? s.mention) a := by
    intro s hs hplain
    rw [hs.isArray_eq] at hplain
    exact ⟨Mention.element?_of_plain hplain,
      Mention.find_of_plain (by simpa [isArray] using hplain) a⟩
  rw [commonSupertype, bind_of_ok (get_apply a), ha.core, (hmention ht htplain).1,
    (hmention hu huplain).1]
  simp only [htplain, huplain, Bool.and_self, Bool.or_self, Bool.false_eq_true, if_false,
    Option.bind_some]
  rw [bind_of_ok (hmention ht htplain).2, bind_of_ok (hmention hu huplain).2]
  cases a.plain? t.mention with
  | none => rfl
  | some x => cases a.plain? u.mention <;> rfl

lemma commonSupertype_of_arrays (ht : t.isArray = true) (hu : u.isArray = true) :
    commonSupertype t u a = commonArray t u a := by
  rw [commonSupertype, bind_of_ok (get_apply a)]
  simp only [ht, hu, Bool.and_self, if_true]

lemma commonSupertype_of_mixed (ha : a.Tidy) (h : t.isArray ≠ u.isArray) :
    commonSupertype t u a = .ok (some Boot.object) a := by
  rw [commonSupertype, bind_of_ok (get_apply a), ha.core]
  cases ht : t.isArray <;> cases hu : u.isArray <;> rw [ht, hu] at h
  · exact absurd rfl h
  · rfl
  · rfl
  · exact absurd rfl h

/-- Above two types of as many levels for which a join has classes to go by, it names the first
common superclass of these, or the arrays over it. -/
lemma commonSupertype_of_bases (ha : a.Tidy) (hclear : a.Unshadowed) (hplain : a.PlainAbove)
    (ht : t.Ready a) (hu : u.Ready a) (hx : a.base? t.mention = some x)
    (hy : a.base? u.mention = some y) (hdim : t.dimension = u.dimension) :
    ∃ c b d, commonSupertype t u a = .ok (some c) b ∧ a.Wider b ∧ b.Tops c t.dimension d ∧
      ∀ s, s ∈ d.superclasses ↔ s ∈ x.superclasses ∧ s ∈ y.superclasses := by
  obtain ⟨⟨hxknown, hxplain⟩, hxclass⟩ := ha.known_of_base? ht.given ht.wellNamed hx
  obtain ⟨⟨hyknown, -⟩, hyclass⟩ := ha.known_of_base? hu.given hu.wellNamed hy
  obtain ⟨d, hd, habove⟩ := ha.exists_commonSuperclass hxknown hyknown hxclass hyclass
  have hdmem : d ∈ x.superclasses := ((habove d).1 d.mem_superclasses_self).1
  have hdknown := ha.admitted_of_known hxknown d hdmem
  have hdplain := hplain.known ha hxknown hxplain d hdmem
  have hdclass := ha.not_isInterface_of_superclass hxknown hxclass d hdmem
  have hxfound := (Area.base?_eq_some_iff.1 hx).1
  have hyfound := (Area.base?_eq_some_iff.1 hy).1
  have harrays : t.isArray = u.isArray := by rw [isArray, isArray, hdim]
  cases harray : t.isArray with
  | true =>
    have htype : ∀ {s : ReferenceType} {z : Class}, s.Ready a → s.isArray = true →
        s.mention.element?.bind a.plain? = some z → s.elementType = none := by
      intro s z hs hsarray hz
      obtain ⟨e, he, -⟩ := Option.bind_eq_some_iff.1 hz
      rw [Mention.element?_of_array (hs.isArray_eq ▸ hsarray)] at he
      rw [hs.elementType, elementType_of_elementClass he]
    have hzero : d.dimension = 0 := by
      rw [← Class.dimension_form, Class.form_of_not_isArray hdplain]
      rfl
    have hle : d.dimension + t.dimension ≤ maxDimension := by
      rw [hzero, Nat.zero_add, ht.dimension]
      exact ha.dimension_le_of_given ht.given
    obtain ⟨c, b, hc, hwider, hknown, hform⟩ := ha.exists_arrayOfDimension hclear hdknown hle
    refine ⟨c, b, d, ?_, hwider, ⟨hknown, hform, hwider.known hdknown, hdplain, hdclass⟩, habove⟩
    rw [commonSupertype_of_arrays harray (harrays ▸ harray),
      commonArray_eq ha ht hu harray (harrays ▸ harray), hxfound, hyfound]
    simp only [hdim, htype ht harray hxfound, htype hu (harrays ▸ harray) hyfound, decide_true,
      Bool.and_self, if_true, hd]
    exact hdim ▸ hc
  | false =>
    have hlevels : t.dimension = 0 := by simpa [isArray] using harray
    refine ⟨d, a, d, ?_, .refl ha, hlevels ▸ .self hdknown hdplain hdclass, habove⟩
    rw [commonSupertype_of_plain ha ht hu harray (harrays ▸ harray), hxfound, hyfound]
    simp only [hd, Option.getD_some]

/-- Above other types a join names the top of the hierarchy or the stand-in for the common supertype
of arrays. -/
lemma commonSupertype_of_apart (ha : a.Tidy) (ht : t.Ready a) (hu : u.Ready a)
    (hapart : ∀ x y, a.base? t.mention = some x → a.base? u.mention = some y →
      t.dimension ≠ u.dimension) :
    ∃ c, commonSupertype t u a = .ok (some c) a ∧ (c = Boot.arrayStub ∨ c = Boot.object) := by
  have hnone : ∀ {x y}, t.mention.element?.bind a.plain? = some x →
      u.mention.element?.bind a.plain? = some y → t.dimension = u.dimension →
      x.commonSuperclass? y = none := by
    intro x y hx hy hdim
    rw [Class.commonSuperclass?, if_pos]
    by_contra hclass
    rw [Bool.not_eq_true, Bool.or_eq_false_iff] at hclass
    exact hapart x y (Area.base?_eq_some_iff.2 ⟨hx, hclass.1⟩)
      (Area.base?_eq_some_iff.2 ⟨hy, hclass.2⟩) hdim
  by_cases harrays : t.isArray = u.isArray
  · cases harray : t.isArray with
    | true =>
      refine ⟨Boot.arrayStub, ?_, .inl rfl⟩
      rw [commonSupertype_of_arrays harray (harrays ▸ harray),
        commonArray_eq ha ht hu harray (harrays ▸ harray)]
      cases hx : t.mention.element?.bind a.plain? with
      | none => rfl
      | some x =>
        cases hy : u.mention.element?.bind a.plain? with
        | none => rfl
        | some y =>
          by_cases hdim : t.dimension = u.dimension
          · simp only [hnone hx hy hdim, ite_self]
            rfl
          · simp only [hdim, decide_false, Bool.false_and, Bool.false_eq_true, if_false]
            rfl
    | false =>
      refine ⟨Boot.object, ?_, .inr rfl⟩
      rw [commonSupertype_of_plain ha ht hu harray (harrays ▸ harray)]
      have hdim : t.dimension = u.dimension := by
        rw [harray] at harrays
        rw [of_not_not (of_decide_eq_false harray), of_not_not (of_decide_eq_false harrays.symm)]
      cases hx : t.mention.element?.bind a.plain? with
      | none => rfl
      | some x =>
        cases hy : u.mention.element?.bind a.plain? with
        | none => rfl
        | some y => simp only [hnone hx hy hdim, Option.getD_none]
  · exact ⟨Boot.object, commonSupertype_of_mixed ha harrays, .inr rfl⟩

/-- The class above two types can always be named, and what is above it is what is above both types,
the stand-in for the common supertype of arrays apart. -/
lemma exists_commonSupertype (ha : a.Tidy) (hclear : a.Unshadowed) (hplain : a.PlainAbove)
    (ht : t.Ready a) (hu : u.Ready a) :
    ∃ c b n d, commonSupertype t u a = .ok (some c) b ∧ a.Wider b ∧ b.Tops c n d ∧
      ∀ k s, (Mention.loaded c).Reaches b k s ↔
        t.mention.Reaches a k s ∧ u.mention.Reaches a k s := by
  by_cases hboth : ∃ x y, a.base? t.mention = some x ∧ a.base? u.mention = some y ∧
      t.dimension = u.dimension
  · obtain ⟨x, y, hx, hy, hdim⟩ := hboth
    obtain ⟨c, b, d, hc, hwider, htops, habove⟩ :=
      commonSupertype_of_bases ha hclear hplain ht hu hx hy hdim
    refine ⟨c, b, t.dimension, d, hc, hwider, htops, fun k s => ?_⟩
    rw [htops.reaches_iff, Mention.reaches_iff_of_base hx, Mention.reaches_iff_of_base hy,
      ← ht.dimension, ← hu.dimension, ← hdim, habove]
    tauto
  · obtain ⟨c, hc, hcases⟩ := commonSupertype_of_apart ha ht hu fun x y hx hy hdim =>
      hboth ⟨x, y, hx, hy, hdim⟩
    have hobject : a.Known Boot.object := ha.known_boot (by simp [Boot.classes])
    have hstub : a.Known Boot.arrayStub := by
      refine .inr ?_
      rw [ha.core]
      rfl
    have htops : a.Tops c 0 c := by
      rcases hcases with rfl | rfl
      · exact .self hstub rfl rfl
      · exact .self hobject rfl rfl
    refine ⟨c, a, 0, c, hc, .refl ha, htops, fun k s => ?_⟩
    have habove : ∀ s, s ∈ c.superclasses → s = Boot.arrayStub ∨ s = Boot.object := by
      intro s hs
      rcases hcases with rfl | rfl
      · exact (List.mem_cons.1 hs).imp_right List.mem_singleton.1
      · exact .inr (List.mem_singleton.1 hs)
    rw [htops.reaches_iff]
    constructor
    · rintro (htop | ⟨rfl, hne, hs⟩)
      · exact ⟨.inl htop, .inl htop⟩
      · have htop := (habove s hs).resolve_left (hne rfl)
        exact ⟨.inl ⟨rfl, htop⟩, .inl ⟨rfl, htop⟩⟩
    · rintro ⟨htop | ⟨htdim, -, x, hx, -⟩, hu'⟩
      · exact .inl htop
      rcases hu' with htop | ⟨hudim, -, y, hy, -⟩
      · exact .inl htop
      · refine absurd ⟨x, y, hx, hy, ?_⟩ hboth
        rw [ht.dimension, hu.dimension, htdim, hudim]

end ReferenceType

end Linkage
