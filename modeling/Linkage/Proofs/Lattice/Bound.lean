import Linkage.Proofs.Lattice.Join
import Linkage.Proofs.Lattice.Superclass

/-!
# The class above a join

A join names a class that the classes of all branches are below: the top of the hierarchy, a common
superclass, or an array over one. Both types may be stored where that class is expected, now and
later. Only the stand-in for the common supertype of arrays is no such class: arrays cannot be
stored where it is expected.

Two things are left aside. A class may go by the name of the stand-in, and a class that is no array
may have been given an array class for its superclass, which takes no objects of it.
-/

namespace Linkage

open Relation ReferenceType

/-! ### Mentions below a class -/

/-- A mentioned class is below a class: the class is the top of the hierarchy, or the mentioned one
is found below it, or both are arrays of as many levels and the element is found below the other
one. -/
inductive Mention.Below (a : Area) (m : Mention) : Class → Prop where
  | top : Below a m Boot.object
  | found {f : Form} {c : Class} (look : a.look m = some f) (fits : f.fits c.form = true) :
      Below a m c
  | element {e : Mention} {f : Form} {c d : Class} (element : (ofMention m).elementClass = some e)
      (look : a.look e = some f) (dimension : c.dimension = (ofMention m).dimension)
      (below : c.element? = some d) (fits : f.fits d.form = true) : Below a m c

lemma Mention.dimension_ne_zero_of_elementClass {m e : Mention}
    (he : (ofMention m).elementClass = some e) : (ofMention m).dimension ≠ 0 := by
  cases m with
  | loaded c =>
    obtain ⟨x, hx, rfl⟩ := Option.map_eq_some_iff.1 he
    rw [Class.elementClass?] at hx
    split at hx
    · next harray => exact Nat.ne_of_gt (Class.dimension_pos_of_isArray harray)
    · cases hx
  | symbolic r =>
    obtain ⟨hlevels, -⟩ := elementClass_ofClassRef_iff.1 he
    exact fun hdim => hlevels (levels_eq_zero_iff.2 (isPlain_iff_dimension.1 hdim))

/-- What is found is an array if and only if it is mentioned as one. -/
lemma Area.Tidy.dimension_eq_zero_iff {a : Area} (ha : a.Tidy) {m : Mention} {f : Form}
    (hf : a.look m = some f) : (ofMention m).dimension = 0 ↔ f.dimension = 0 := by
  cases m with
  | loaded c =>
    cases hf
    rw [Class.dimension_form]
    rfl
  | symbolic r =>
    rw [ofMention, isPlain_iff_dimension]
    constructor
    · intro hplain
      rw [Area.look, Spelling.ofName_eq_plain hplain] at hf
      obtain ⟨c, hc, rfl⟩ := Option.map_eq_some_iff.1 hf
      rw [Class.dimension_form]
      by_contra hdim
      have harray : c.isArray = true := by
        rw [← Class.isArray_form, Form.isArray_iff, Class.dimension_form]
        omega
      exact Class.not_isPlain_of_isArray harray (ha.sound.keyed _ _ c hc ▸ hplain)
    · intro hdim
      obtain ⟨c, rfl⟩ : ∃ c, f = .object c := by
        cases f with
        | object c => exact ⟨c, rfl⟩
        | primitives | array => cases hdim
      have hplain : IsPlain (Form.object c).name :=
        (Area.hasForm_of_form? ha _ hf).element_plain ha c rfl
      have hname := Area.plain_of_form? ha (Spelling.faithful_ofName r.name) hf hplain
      rw [← Spelling.name_ofName r.name, hname]
      exact hplain

/-- A class that is found may be stored where a class is expected that it fits. -/
lemma ReferenceType.verdict_of_fits {a : Area} {m : Mention} {f : Form} {c : Class}
    (hlook : a.look m = some f) (hfits : f.fits c.form = true) :
    verdict a.look m (.loaded c) = .yes := by
  cases hknown : m.knownSame (.loaded c) || (Mention.loaded c).isObject with
  | true => exact verdict_of_known hknown
  | false =>
    rw [verdict_of_found hknown hlook (g := c.form) rfl, hfits]
    rfl

namespace Mention.Below

variable {a q : Area} {m e : Mention} {f : Form} {c d s x : Class}

lemma later (hlater : Area.Later a q) (hclear : q.Unshadowed) (h : m.Below a c) : m.Below q c := by
  cases h with
  | top => exact .top
  | found look fits => exact .found (hlater.look_unshadowed hclear look) fits
  | element element look dimension below fits =>
    exact .element element (hlater.look_unshadowed hclear look) dimension below fits

/-- What is below a class may be stored where the class is expected. -/
lemma verdict_eq (ha : a.Tidy) (hclear : a.Unshadowed) (h : m.Below a c) :
    verdict a.look m (.loaded c) = .yes := by
  cases h with
  | top => exact verdict_of_known (Bool.or_eq_true_iff.2 (.inr (by decide)))
  | found look fits => exact verdict_of_fits look fits
  | @element e f _ d element look dimension below fits =>
    have hd : d.form = .object d := Class.form_of_not_isArray (Class.isArray_of_element? below)
    have hform : c.form = Form.array^[(ofMention m).dimension] d.form := by
      rw [Form.eq_iterate (c.element?_form.trans below), Class.dimension_form, dimension, hd]
    rcases ha.look_of_element hclear element look with hfound | ⟨hmissing, -⟩
    · refine verdict_of_fits hfound ?_
      rw [hform, Form.fits_iterate, fits]
    cases hknown : m.knownSame (.loaded c) || (Mention.loaded c).isObject with
    | true => exact verdict_of_known hknown
    | false =>
      have hlevels : c.dimension ≠ 0 :=
        dimension ▸ Mention.dimension_ne_zero_of_elementClass element
      have harray : c.isArray = true := by
        rw [← Class.isArray_form, Form.isArray_iff, Class.dimension_form]
        omega
      have htype : c.elementType? = none := by
        rw [← Class.elementType?_form]
        exact Form.elementType?_of_element? (c.element?_form.trans below)
      have hclass : (ofMention (.loaded c)).elementClass = some (.loaded d) := by
        simp only [ofMention, ofClass, Class.elementClass?, harray, if_true, below, Option.map_some]
      rw [verdict_of_missing hknown (.inl hmissing), shapeVerdict_of_class hlevels htype hclass,
        show (ofMention (.loaded c)).dimension = c.dimension from rfl, dimension,
        if_neg (Nat.lt_irrefl _), if_neg (Nat.lt_irrefl _), element]
      simp only [Option.map_some, Option.getD_some, elementVerdict, hclass]
      exact verdict_of_fits look fits

/-- What is below an array is an array. -/
lemma dimension_ne_zero (ha : a.Tidy) (h : m.Below a c) (hc : c.dimension ≠ 0) :
    (ofMention m).dimension ≠ 0 := by
  cases h with
  | top => exact absurd rfl hc
  | found look fits =>
    have hle := Form.dimension_le_of_fits fits
    rw [Class.dimension_form] at hle
    rw [ne_eq, ha.dimension_eq_zero_iff look]
    omega
  | element _ _ dimension => exact dimension ▸ hc

/-- What is below a class is below its superclasses. -/
lemma superclass (ha : a.Tidy) (hplain : a.PlainAbove) (hm : m.Given a) (h : m.Below a x)
    (hx : a.Known x) (hclass : x.isInterface = false) (hs : s ∈ x.superclasses) : m.Below a s := by
  cases h with
  | top =>
    rw [List.mem_singleton.1 (show s ∈ [Boot.object] from hs)]
    exact .top
  | found look fits =>
    exact .found look (ha.fits_superclass hplain (ha.grounded_of_look hm look) hx hclass hs fits)
  | element element look dimension below fits =>
    have harray : x.isArray = true := by
      rw [← Class.isArray_form, Form.isArray_iff, Class.dimension_form, dimension]
      exact Nat.pos_of_ne_zero (Mention.dimension_ne_zero_of_elementClass element)
    rw [ha.superclasses_of_isArray hx harray] at hs
    rcases List.mem_cons.1 hs with rfl | hs
    · exact .element element look dimension below fits
    · rw [List.mem_singleton.1 hs]
      exact .top

/-- An array over something below a class that is no array is below the arrays over that class. -/
lemma of_element (hs : s.isArray = false) (he : (ofMention m).elementClass = some e)
    (hlook : a.look e = some f) (hfits : f.fits s.form = true)
    (hform : d.form = Form.array^[(ofMention m).dimension] s.form) : m.Below a d := by
  refine .element he hlook ?_ ?_ hfits
  · rw [← Class.dimension_form, hform, Form.dimension_iterate, Class.form_of_not_isArray hs]
    exact Nat.zero_add _
  · rw [← Class.element?_form, hform, Form.element?_iterate, Class.form_of_not_isArray hs]
    rfl

/-- An array that is below an array over a class is below the arrays over superclasses of it. -/
lemma array (ha : a.Tidy) (hplain : a.PlainAbove) (hm : m.Given a) (h : m.Below a c)
    (hlevels : c.dimension ≠ 0) (hx : c.element? = some x) (hxknown : a.Known x)
    (hclass : x.isInterface = false) (hs : s ∈ x.superclasses)
    (hform : d.form = Form.array^[c.dimension] s.form) : m.Below a d := by
  have hxplain := Class.isArray_of_element? hx
  cases h with
  | top => exact absurd rfl hlevels
  | @found f _ look fits =>
    refine .found look ?_
    rw [Form.eq_iterate (c.element?_form.trans hx), Class.dimension_form] at fits
    obtain ⟨g, rfl, hg⟩ := Form.exists_of_fits_iterate fits
    have hground := ha.grounded_of_look hm look
    simp only [Area.Grounded, Form.element?_iterate] at hground
    rw [hform, Form.fits_iterate]
    rw [← Class.form_of_not_isArray hxplain] at hg
    exact ha.fits_superclass hplain hground hxknown hclass hs hg
  | element element look dimension below fits =>
    rw [hx] at below
    cases below
    rw [dimension] at hform
    have hground := ha.grounded_of_look (ha.element_given hm element) look
    exact of_element (hplain.known ha hxknown hxplain s hs) element look
      (ha.fits_superclass hplain hground hxknown hclass hs fits) hform

/-- An array over a class that is found is below the arrays over its superclasses. -/
lemma of_array (ha : a.Tidy) (hclear : a.Unshadowed) (hplain : a.PlainAbove)
    (he : (ofMention m).elementClass = some e) (hlook : a.look e = some x.form) (hx : a.Known x)
    (hclass : x.isInterface = false) (hs : s ∈ x.superclasses) (hd : a.Known d)
    (hform : d.form = Form.array^[(ofMention m).dimension] s.form) : m.Below a d := by
  have hself : x.form.fits x.form = true := by
    rw [← ha.isAssignableTo_eq_fits hx hx, Class.isAssignableTo_self]
  cases hsplain : s.isArray with
  | false =>
    exact of_element hsplain he hlook
      (ha.fits_superclass hplain (ha.grounded_of_known hx) hx hclass hs hself) hform
  | true =>
    -- The class is an array class itself, and there is no other array class above it.
    have harray : x.isArray = true := by
      by_contra hnot
      have hsfalse := hplain.known ha hx (by simpa using hnot) s hs
      rw [hsplain] at hsfalse
      cases hsfalse
    rw [ha.superclasses_of_isArray hx harray] at hs
    rcases List.mem_cons.1 hs with rfl | hs
    · rcases ha.look_of_element hclear he hlook with hfound | ⟨-, hzero | hmany⟩
      · refine .found hfound ?_
        rw [hform, Form.fits_iterate, hself]
      · rw [← Class.isArray_form, Form.isArray_iff] at harray
        omega
      · have hle := (ha.linked_of_known hd).dimension_le
        rw [← Class.dimension_form, hform, Form.dimension_iterate] at hle
        omega
    · rw [List.mem_singleton.1 hs] at hsplain
      cases hsplain

end Mention.Below

/-! ### Bounds -/

/-- A class bounds some branches: all of them are below it, or it is the stand-in for the common
supertype of arrays and all of them are arrays. -/
inductive Area.Bounds (a : Area) (ms : List Mention) : Class → Prop where
  | below {c : Class} (owned : a.Owned c) (below : ∀ m ∈ ms, m.Below a c) : Bounds a ms c
  | arrays (arrays : ∀ m ∈ ms, (ofMention m).dimension ≠ 0) : Bounds a ms Boot.arrayStub

/-- The class that a join names bounds its branches. -/
def ReferenceType.Bounded (a : Area) (t : ReferenceType) : Prop :=
  t.merged = none ∨ ∃ c, t.mention = .loaded c ∧ a.Bounds t.branches c

section

variable {a b q : Area} {ms ns ks : List Mention} {t u v : ReferenceType} {c d x : Class}
  {e m : Mention}

lemma Area.Tidy.not_owned_stub (ha : a.Tidy) : ¬ a.Owned Boot.arrayStub := by
  have hstub := ha.unlisted
  rw [ha.core] at hstub
  exact hstub

/-- No array may be stored where the stand-in for the common supertype of arrays is expected. -/
lemma ReferenceType.verdict_stub (ha : a.Tidy) (hm : m.Given a)
    (harray : (ofMention m).dimension ≠ 0) :
    verdict a.look m (.loaded Boot.arrayStub) = .no := by
  have hknown : (m.knownSame (.loaded Boot.arrayStub) ||
      (Mention.loaded Boot.arrayStub).isObject) = false := by
    rw [Bool.or_eq_false_iff, Bool.eq_false_iff]
    refine ⟨fun hsame => harray ?_, by decide⟩
    cases m with
    | loaded c =>
      have hstub : a.Known Boot.arrayStub := by
        refine .inr ?_
        rw [ha.core]
        rfl
      rw [(ha.same_iff hm hstub).1 hsame]
      rfl
    | symbolic r =>
      obtain ⟨hname, -⟩ := Mention.symbolic_knownSame.1 hsame
      refine isPlain_iff_dimension.2 ?_
      rw [hname]
      exact (by decide : IsPlain Boot.arrayStubName)
  cases hf : a.look m with
  | none =>
    rw [verdict_of_missing hknown (.inl hf), shapeVerdict_of_plain rfl, if_neg harray,
      mention_ofMention]
    decide
  | some f =>
    rw [verdict_of_found hknown hf rfl]
    rw [ne_eq, ha.dimension_eq_zero_iff hf] at harray
    have htakes : Boot.arrayStub.takesArrays = false := by decide
    cases f with
    | object v => exact absurd rfl harray
    | primitives p => exact congrArg Assignable.ofBool htakes
    | array f => exact congrArg Assignable.ofBool htakes

namespace Area.Bounds

lemma later (hlater : Area.Later a q) (hclear : q.Unshadowed) (h : a.Bounds ms c) :
    q.Bounds ms c := by
  cases h with
  | below owned below =>
    exact .below (hlater.kept _ _ c owned) fun m hm => (below m hm).later hlater hclear
  | arrays arrays => exact .arrays arrays

/-- What bounds the branches of two types bounds those of their join. -/
lemma union (ha : a.Tidy) (h : a.Bounds ms c) (h' : a.Bounds ns c)
    (hks : ∀ m ∈ ks, m ∈ ms ∨ m ∈ ns) : a.Bounds ks c := by
  cases h with
  | below owned below =>
    cases h' with
    | below _ below' => exact .below owned fun m hm => (hks m hm).elim (below m) (below' m)
    | arrays => exact absurd owned ha.not_owned_stub
  | arrays arrays =>
    cases h' with
    | below owned => exact absurd owned ha.not_owned_stub
    | arrays arrays' => exact .arrays fun m hm => (hks m hm).elim (arrays m) (arrays' m)

/-- All branches may be stored where the class is expected that bounds them. -/
lemma verdicts_eq_yes (ha : a.Tidy) (hclear : a.Unshadowed) (h : a.Bounds ms c)
    (hc : c ≠ Boot.arrayStub) : verdicts a.look (.loaded c) ms = .yes := by
  cases h with
  | arrays => exact absurd rfl hc
  | below _ below =>
    induction ms with
    | nil => rfl
    | cons m ms ih =>
      rw [verdicts, (below m List.mem_cons_self).verdict_eq ha hclear, Assignable.yes_and]
      exact ih fun n hn => below n (List.mem_cons_of_mem _ hn)

/-- Nothing that the stand-in for the common supertype of arrays bounds may be stored there. -/
lemma verdicts_eq_no (ha : a.Tidy) (hms : ∀ m ∈ ms, m.Given a) (hne : ms ≠ [])
    (h : a.Bounds ms Boot.arrayStub) : verdicts a.look (.loaded Boot.arrayStub) ms = .no := by
  cases h with
  | below owned => exact absurd owned ha.not_owned_stub
  | arrays arrays =>
    cases ms with
    | nil => exact absurd rfl hne
    | cons m ms =>
      rw [verdicts, verdict_stub ha (hms m List.mem_cons_self) (arrays m List.mem_cons_self),
        Assignable.no_and]

end Area.Bounds

namespace ReferenceType

/-- The classes of all branches of a type of arrays are arrays. -/
lemma Bounded.arrays (ha : a.Tidy) (ht : t.Formed a) (h : t.Bounded a) (harray : t.isArray = true) :
    ∀ m ∈ t.branches, (ofMention m).dimension ≠ 0 := by
  have hlevels : (ofMention t.mention).dimension ≠ 0 := by
    rw [← ht.dimension]
    exact of_decide_eq_true harray
  rcases h with hnone | ⟨c, hmention, hbounds⟩
  · simpa [branches, hnone] using hlevels
  · rw [hmention] at hlevels
    cases hbounds with
    | below _ below => exact fun m hm => (below m hm).dimension_ne_zero ha hlevels
    | arrays => exact absurd rfl hlevels

/-- No class that is named or published is the stand-in for the common supertype of arrays. -/
lemma ne_stub_of_published (ha : a.Tidy) (hm : m.Published a) :
    a.look m ≠ some Boot.arrayStub.form := by
  intro hlook
  cases m with
  | loaded c =>
    rw [Class.eq_of_form_eq_object (Option.some.inj hlook)] at hm
    exact ha.not_owned_stub hm
  | symbolic r =>
    have hform := Area.hasForm_of_form? ha _ hlook
    generalize hg : Boot.arrayStub.form = g at hform
    cases hform with
    | @owned c hc =>
      rw [Class.eq_of_form_eq_object hg.symm] at hc
      exact ha.not_owned_stub hc
    | array => cases hg

/-- A superclass of the class that a type names bounds its branches. -/
lemma Bounded.superclass (ha : a.Tidy) (hplain : a.PlainAbove) (ht : t.Formed a) (h : t.Bounded a)
    (hx : a.Known x) (hlook : a.look t.mention = some x.form) (hclass : x.isInterface = false)
    (hc : c ∈ x.superclasses) : a.Bounds t.branches c := by
  have hstub : a.core.arrayStub = Boot.arrayStub := by
    rw [ha.core]
    rfl
  have hnamed : ∀ {d}, t.mention = .loaded d → d = x := by
    intro d hmention
    have hd := ht.given
    rw [hmention] at hd hlook
    exact ha.form_inj hd hx (Option.some.inj hlook)
  rcases ha.admitted_of_known hx c hc with howned | hcstub
  · refine .below howned ?_
    rcases h with hnone | ⟨d, hmention, hbounds⟩
    · have hself : x.form.fits x.form = true := by
        rw [← ha.isAssignableTo_eq_fits hx hx, Class.isAssignableTo_self]
      simp only [branches, hnone, Option.getD_none, List.mem_singleton]
      rintro m rfl
      exact .found hlook (ha.fits_superclass hplain (ha.grounded_of_known hx) hx hclass hc hself)
    · obtain rfl := hnamed hmention
      cases hbounds with
      | below _ below =>
        exact fun m hm => (below m hm).superclass ha hplain (ht.branches m hm).given hx hclass hc
      | arrays =>
        rcases List.mem_cons.1 (show c ∈ [Boot.arrayStub, Boot.object] from hc) with rfl | hc
        · exact absurd howned ha.not_owned_stub
        · rw [List.mem_singleton.1 hc]
          exact fun _ _ => .top
  · -- Nothing but the stand-in has the stand-in above it.
    have hxstub : x = Boot.arrayStub := by
      rcases hx with hx | hx
      · have hrooted := ha.rooted _ _ x hx c hc
        rw [hcstub, hstub] at hrooted
        exact absurd hrooted ha.not_owned_stub
      · exact hx.trans hstub
    rcases h with hnone | ⟨d, hmention, hbounds⟩
    · have hpublished := ht.branches t.mention (by simp [branches, hnone])
      rw [hxstub] at hlook
      exact absurd hlook (ne_stub_of_published ha hpublished)
    · rw [hnamed hmention, hxstub, ← hstub, ← hcstub] at hbounds
      exact hbounds

/-- The arrays over a superclass of the element of a type bound its branches. -/
lemma Bounded.array (ha : a.Tidy) (hclear : a.Unshadowed) (hplain : a.PlainAbove) (ht : t.Formed a)
    (h : t.Bounded a) (he : t.elementClass = some e) (hx : a.Known x)
    (hlook : a.look e = some x.form) (hclass : x.isInterface = false) (hd : d ∈ x.superclasses)
    (hc : a.Owned c) (hform : c.form = Form.array^[t.dimension] d.form) :
    a.Bounds t.branches c := by
  have hegiven := ht.element_given ha he
  rw [ht.elementClass] at he
  rw [ht.dimension] at hform
  refine .below hc ?_
  rcases h with hnone | ⟨y, hmention, hbounds⟩
  · simp only [branches, hnone, Option.getD_none, List.mem_singleton]
    rintro m rfl
    exact .of_array ha hclear hplain he hlook hx hclass hd hc.known hform
  · rw [hmention] at he hform
    obtain ⟨z, hz, rfl⟩ := Option.map_eq_some_iff.1 he
    obtain rfl := ha.form_inj hegiven hx (Option.some.inj hlook)
    have hlevels := Mention.dimension_ne_zero_of_elementClass he
    rw [Class.elementClass?] at hz
    split at hz
    · cases hbounds with
      | below _ below =>
        exact fun m hm => (below m hm).array ha hplain (ht.branches m hm).given hlevels hz hx hclass
          hd hform
      | arrays => exact absurd rfl hlevels
    · cases hz

lemma Bounded.later (hlater : Area.Later a q) (hclear : q.Unshadowed) (h : t.Bounded a) :
    t.Bounded q :=
  h.imp_right fun ⟨c, hmention, hbounds⟩ => ⟨c, hmention, hbounds.later hlater hclear⟩

/-- The class above two types bounds the branches of both. -/
lemma bounds_of_common (ha : a.Tidy) (ht : t.Formed a) (hu : u.Formed a) (htb : t.Bounded a)
    (hub : u.Bounded a) (h : Common a t u c b) (hclear : b.Unshadowed) (hplain : b.PlainAbove) :
    b.Bounds t.branches c ∧ b.Bounds u.branches c := by
  obtain ⟨hlater, hknown⟩ := h.later_known ha
  have hb := hlater.after
  have htb' := htb.later hlater hclear
  have hub' := hub.later hlater hclear
  cases h with
  | object =>
    have howned : b.Owned Boot.object :=
      hb.started _ (Area.initial_owned (by simp [Boot.classes]))
    exact ⟨.below howned fun _ _ => .top, .below howned fun _ _ => .top⟩
  | stub _ left right =>
    exact ⟨.arrays (htb'.arrays hb (ht.later hlater) left),
      .arrays (hub'.arrays hb (hu.later hlater) right)⟩
  | superclass _ _ _ first second common =>
    obtain ⟨⟨hx, hy⟩, hmem, hsub⟩ := commonSuperclass?_eq_some common
    have hmem' := (hb.isSubclassOf_iff_mem second.1 hknown).1 hsub
    exact ⟨htb'.superclass hb hplain (ht.later hlater) first.1
        (hlater.look_unshadowed hclear first.2) hx hmem,
      hub'.superclass hb hplain (hu.later hlater) second.1
        (hlater.look_unshadowed hclear second.2) hy hmem'⟩
  | @array s _ x y d _ e f asked left _ dimension firstElement secondElement first second common
      made =>
    have hs := asked.tidy ha
    obtain ⟨⟨hx, hy⟩, hmem, hsub⟩ := commonSuperclass?_eq_some common
    have hdknown := hs.admitted_of_known first.1 d hmem
    have hmem' := (hs.isSubclassOf_iff_mem second.1 hdknown).1 hsub
    obtain ⟨hrest, -, hform⟩ := hs.form_of_arrayOfDimension? hdknown made
    have hform := hform hclear
    have howned : b.Owned c := by
      refine hknown.resolve_right fun hstub => ?_
      have hdim := congrArg Form.dimension hform
      rw [hstub, hb.core, Form.dimension_iterate] at hdim
      have hzero : Boot.core.arrayStub.form.dimension = 0 := rfl
      have hpos : t.dimension ≠ 0 := of_decide_eq_true left
      omega
    exact ⟨htb'.array hb hclear hplain (ht.later hlater) firstElement (hrest.known first.1)
        (hlater.look_unshadowed hclear first.2) hx hmem howned hform,
      hub'.array hb hclear hplain (hu.later hlater) secondElement (hrest.known second.1)
        (hlater.look_unshadowed hclear second.2) hy hmem' howned (dimension ▸ hform)⟩

/-- The class that a join names bounds its branches. -/
lemma Bounded.merge (ha : a.Tidy) (ht : t.Formed a) (hu : u.Formed a) (htb : t.Bounded a)
    (hub : u.Bounded a) (h : t.merge u a = .ok (some v) b) (hclear : b.Unshadowed)
    (hplain : b.PlainAbove) : v.Bounded b := by
  rcases merge_cases h with ⟨rfl, -, hnone, -⟩ | ⟨m, -, rfl, -⟩ | ⟨c, hcommon, rfl⟩
  · exact .inl hnone
  · exact .inl (merged_ofMention m)
  · have hcommon := common_of_commonSupertype ha ht hu hcommon
    obtain ⟨hleft, hright⟩ := bounds_of_common ha ht hu htb hub hcommon hclear hplain
    exact .inr ⟨c, rfl, hleft.union (hcommon.later_known ha).1.after hright
      fun m hm => mem_joinBranches hm⟩

/-- If one branch is left of several, all are known to be the same. -/
lemma knownSame_of_joinBranches {as bs : List Mention} (hne : as ≠ [])
    (h : joinBranches as bs = [m]) : as = [m] ∧ ∀ n ∈ bs, m.knownSame n = true := by
  induction bs generalizing as with
  | nil => exact ⟨h, by simp⟩
  | cons n ns ih =>
    rw [joinBranches] at h
    split at h
    · next hknown =>
      obtain ⟨rfl, hns⟩ := ih hne h
      refine ⟨rfl, fun k hk => ?_⟩
      rcases List.mem_cons.1 hk with rfl | hk
      · simpa using hknown
      · exact hns k hk
    · obtain ⟨hsingle, -⟩ := ih (by simp) h
      cases as with
      | nil => exact absurd rfl hne
      | cons k ks => simp at hsingle

lemma verdicts_of_known {look : Mention → Option Form} {ms : List Mention}
    (h : ∀ n ∈ ms, n.knownSame m = true) : verdicts look m ms = .yes := by
  induction ms with
  | nil => rfl
  | cons n ns ih =>
    rw [verdicts, verdict_of_known (by rw [h n List.mem_cons_self, Bool.true_or]),
      Assignable.yes_and]
    exact ih fun k hk => h k (List.mem_cons_of_mem _ hk)

end ReferenceType

end

end Linkage
