import Linkage.Proofs.Resolver.Names
import Linkage.Proofs.Resolver.Recur
import Linkage.Proofs.Lattice.Superclass

/-!
# Array classes by their names

The name of an array class is made of brackets in front of the letter of a primitive type, or of a
class name between `L` and `;`. Loading a class by such a name is asking for the array class over
the element as many times as there are brackets, which succeeds as long as there are no more of them
than an array class can have levels. The class that is loaded is what its name shows, and it is
public if its element is.
-/

namespace Linkage

open Relation ReferenceType

/-! ### Names of arrays -/

/-- What the brackets in the name of an array class stand in front of: a primitive type, or the
class of a name. -/
inductive ElementName where
  | primitive (p : Primitive)
  | object (name : String)

namespace ElementName

/-- How the element is spelled. -/
def chars : ElementName → List Char
  | primitive p => [p.letter]
  | object name => 'L' :: (name.toList ++ [';'])

/-- The name of the array class of so many levels. -/
def arrayName (e : ElementName) (k : Nat) : String :=
  String.ofList (List.replicate k '[' ++ e.chars)

/-- The primitive type, if it is one. -/
def primitive? : ElementName → Option Primitive
  | primitive p => some p
  | object _ => none

/-- Loads what array classes over the element are made from: the array class of one level over a
primitive type, or the class of the name. -/
def loadBase (l : LoaderId) : ElementName → AreaM Class
  | primitive p => Area.load .bootstrap p.arrayName
  | object name => Area.load l name

/-- How many levels that class has itself. -/
def baseLevels : ElementName → Nat
  | primitive _ => 1
  | object _ => 0

/-- The element class, if array classes are made from the given class. -/
def class? (base : Class) : ElementName → Option Class
  | primitive _ => none
  | object _ => some base

/-- The element is a primitive type, or a class that a loader loads by its name. The name is no
array name, and not that of the stand-in for the common supertype of arrays. -/
inductive Loadable (a : Area) (l : LoaderId) : ElementName → Prop where
  | primitive (p : Primitive) : Loadable a l (.primitive p)
  | object {name : String} {c : Class} {b : Area} (plain : IsPlain name)
      (other : name ≠ Boot.arrayStubName) (loads : Area.load l name a = .ok c b) :
      Loadable a l (.object name)

end ElementName

namespace Spelling

lemma isShort_eq_false {s : Spelling} {cs : List Char} (hname : s.name = String.ofList cs)
    (h : 3 ≤ cs.length) : s.isShort = false := by
  rw [isShort, hname]
  exact decide_eq_false (size_ne_of_three_le h)

/-- More brackets in front of the name of an array are taken off one by one. -/
lemma parts_replicate (cs : List Char) (hcs : cs ≠ []) (k : Nat) :
    (ofChars (List.replicate (k + 1) '[' ++ cs)).core = (ofChars ('[' :: cs)).core ∧
      (ofChars (List.replicate (k + 1) '[' ++ cs)).levels = (ofChars ('[' :: cs)).levels + k ∧
      (ofChars (List.replicate (k + 1) '[' ++ cs)).dangling? = (ofChars ('[' :: cs)).dangling? := by
  induction k with
  | zero => exact ⟨rfl, rfl, rfl⟩
  | succ k ih =>
    have hhead : (List.replicate (k + 1) '[' ++ cs).head? = some '[' := rfl
    have hlength : 2 ≤ (List.replicate (k + 1) '[' ++ cs).length := by
      have hpos := List.length_pos_iff.2 hcs
      simp only [List.length_append, List.length_replicate]
      omega
    rw [List.replicate_succ, List.cons_append]
    generalize List.replicate (k + 1) '[' ++ cs = rest at ih hhead hlength
    rw [ofChars_nested hhead]
    have hshort : (nested (String.ofList ('[' :: rest)) (ofChars rest)).isShort = false :=
      isShort_eq_false rfl (Nat.succ_le_succ hlength)
    have hwraps : Wraps (nested (String.ofList ('[' :: rest)) (ofChars rest)) (ofChars rest) :=
      .nested _ _
    obtain ⟨hcore, hlevels, hend⟩ := ih
    rw [hwraps.core_eq hshort, hwraps.levels_eq hshort, hwraps.dangling?_eq hshort]
    exact ⟨hcore, by rw [hlevels, Nat.add_assoc], hend⟩

lemma ofChars_primitive (p : Primitive) : ofChars ['[', p.letter] =
    .bare p.arrayName (String.ofList [p.letter]) := by
  cases p <;>
  · rw [Primitive.letter, ofChars]
    rfl

lemma isShort_primitive (p : Primitive) (s : String) : (bare p.arrayName s).isShort = true := by
  cases p <;> rfl

/-- What is left of the name of an array over a primitive type. -/
lemma parts_primitive (p : Primitive) (k : Nat) :
    (ofName ((ElementName.primitive p).arrayName (k + 1))).core.name = p.arrayName ∧
      (ofName ((ElementName.primitive p).arrayName (k + 1))).levels = k ∧
      (ofName ((ElementName.primitive p).arrayName (k + 1))).dangling? = none ∧
      ∀ n, (ofName ((ElementName.primitive p).arrayName (k + 1))).core ≠ .plain n := by
  obtain ⟨hcore, hlevels, hend⟩ := parts_replicate [p.letter] (by simp) k
  rw [ofName, ElementName.arrayName, String.toList_ofList, ElementName.chars, hcore, hlevels, hend,
    ofChars_primitive]
  simp [core, levels, dangling?, isShort_primitive, name]

/-- What is left of the name of an array over a class. -/
lemma parts_object {x : String} (hplain : IsPlain x) (k : Nat) :
    (ofName ((ElementName.object x).arrayName (k + 1))).core = .plain x ∧
      (ofName ((ElementName.object x).arrayName (k + 1))).levels = k + 1 ∧
      (ofName ((ElementName.object x).arrayName (k + 1))).dangling? = none := by
  have hunwrap := unwrapObject?_object x.toList
  have hshort : (object (String.ofList ('[' :: 'L' :: (x.toList ++ [';']))) (plain x)).isShort =
      false :=
    isShort_eq_false rfl (by simp)
  obtain ⟨hcore, hlevels, hend⟩ :=
    parts_replicate ('L' :: (x.toList ++ [';'])) (by simp) k
  rw [ofName, ElementName.arrayName, String.toList_ofList, ElementName.chars, hcore, hlevels, hend,
    ofChars_object hunwrap, ofChars_plain hplain, String.ofList_toList]
  simp only [core, levels, dangling?, hshort, Bool.false_eq_true, if_false, Nat.zero_add,
    Nat.add_comm 1 k, and_self]

end Spelling

/-! ### Forms of arrays -/

namespace Form

lemma elementType?_iterate (n : Nat) (f : Form) :
    (array^[n] f).elementType? = f.elementType? := by
  induction n with
  | zero => rfl
  | succ n ih => rw [Function.iterate_succ_apply', elementType?, ih]

lemma loader_iterate (n : Nat) (f : Form) : (array^[n] f).loader = f.loader := by
  induction n with
  | zero => rfl
  | succ n ih => rw [Function.iterate_succ_apply', loader, ih]

end Form

namespace Area

variable {a b : Area} {l : LoaderId} {c d : Class} {n : Nat} {name : String}

/-! ### Asking for array classes -/

lemma ne_stub_of_isArray (h : c.isArray = true) : c.name ≠ Boot.arrayStubName := by
  intro hname
  refine Class.not_isPlain_of_isArray h ?_
  rw [hname]
  decide

/-- The array class over a class is that in all respects, unless the class goes by the name of the
stand-in for the common supertype of arrays. -/
lemma Tidy.exists_arrayOver (ha : a.Tidy) (hc : a.Owned c) (hother : c.name ≠ Boot.arrayStubName)
    (hdim : c.dimension ≠ maxDimension) :
    ∃ d b, arrayOf c a = .ok d b ∧ b.Tidy ∧ b.Owned d ∧ d.form = .array c.form ∧
      d.isPublic = c.isPublic := by
  obtain ⟨d, b, hd⟩ := ha.exists_arrayOf hc.known hdim
  obtain ⟨hsteps, hrooted⟩ := tidy_arrayOf c a ⟨ha, ha.admitted_of_known hc.known⟩
  rw [finalState_of_ok hd] at hsteps
  have hlater := later_of_tidySteps hsteps ha
  have hb := hlater.after
  have howned : b.Owned d := (hrooted d b hd).owned
  have hform : d.form = .array c.form := by
    obtain ⟨v, s, hv, hover⟩ := ha.arrayOf?_form hc
    rw [arrayOf?_eq, hd] at hv
    cases hv
    rw [(HasForm.owned hc).formOver_eq ha (.inr (by rwa [Class.name_form])), Class.dimension_form,
      if_neg hdim] at hover
    exact Option.some.inj hover
  refine ⟨d, b, hd, hb, howned, hform, ?_⟩
  have hdescribed := hb.described d howned
  cases d with
  | root | derived | primitiveArray => cases hform
  | array data s is e =>
    obtain rfl : e = c :=
      hb.form_inj (hb.component_known howned.known).1 (hlater.known hc.known) (Form.array.inj hform)
    exact hdescribed.2.2

/-- Array classes over a class can be had up to the greatest number of levels, and no further. -/
lemma Tidy.arraysOver_cases (ha : a.Tidy) (hc : a.Owned c) (hother : c.name ≠ Boot.arrayStubName)
    (n : Nat) :
    (c.dimension + n ≤ maxDimension ∧ ∃ d b, arraysOver n c a = .ok d b ∧ b.Tidy ∧ b.Owned d ∧
        d.form = Form.array^[n] c.form ∧ d.isPublic = c.isPublic ∧
        d.name ≠ Boot.arrayStubName) ∨
      maxDimension < c.dimension + n ∧
        ∃ f b, arraysOver n c a = .error f b ∧ f.kind = .classNotFound := by
  induction n with
  | zero =>
    exact .inl ⟨(ha.linked c hc).dimension_le, c, a, rfl, ha, hc, rfl, rfl, hother⟩
  | succ n ih =>
    rcases ih with ⟨hle, d, b, hd, hb, howned, hform, hpublic, hdother⟩ | ⟨hlt, f, b, hf, hkind⟩
    · have hdim : d.dimension = c.dimension + n := by
        rw [← Class.dimension_form, hform, Form.dimension_iterate, Class.dimension_form]
      by_cases hfull : d.dimension = maxDimension
      · have hfails := (hb.arrayOf_eq_error howned).2 ⟨hfull, rfl, rfl⟩
        exact .inr ⟨by omega, _, b, (bind_of_ok hd).trans hfails, rfl⟩
      · obtain ⟨x, q, hx, hq, hxowned, hxform, hxpublic⟩ := hb.exists_arrayOver howned hdother hfull
        have hxarray : x.isArray = true := by
          rw [← Class.isArray_form, hxform]
          rfl
        refine .inl ⟨by omega, x, q, (bind_of_ok hd).trans hx, hq, hxowned, ?_,
          hxpublic.trans hpublic, ne_stub_of_isArray hxarray⟩
        rw [hxform, hform, Function.iterate_succ_apply']
    · exact .inr ⟨by omega, f, b, bind_of_error hf, hkind⟩

/-! ### Loading array classes -/

/-- The array class of one level over a primitive type is there from the start, and every loader
loads it. -/
lemma Tidy.load_primitive (ha : a.Tidy) (p : Primitive) :
    ∃ i, a.published? .bootstrap p.arrayName = some (Boot.primitiveArray p i) ∧
      ∀ l, load l p.arrayName a = .ok (Boot.primitiveArray p i) a := by
  have hmem : p ∈ Primitive.all := by cases p <;> decide
  obtain ⟨i, hi⟩ := List.mem_iff_getElem?.1 hmem
  have hboot : Boot.primitiveArray p (i + 5) ∈ Boot.classes :=
    List.mem_append_right _ (List.mem_map.2 ⟨(p, i), List.mk_mem_zipIdx_iff_getElem?.2 hi, rfl⟩)
  have hhome : a.published? .bootstrap p.arrayName = some (Boot.primitiveArray p (i + 5)) :=
    ha.started _ (initial_owned hboot)
  have hshort : IsShortArray p.arrayName := by
    constructor <;> cases p <;> decide
  refine ⟨i + 5, hhome, fun l => ?_⟩
  have hclass : a.shortClass? l p.arrayName = some (Boot.primitiveArray p (i + 5)) := by
    unfold shortClass?
    cases hl : a.published? l p.arrayName with
    | none => exact hhome
    | some c =>
      have hsame := ha.published?_short hshort hl
      rw [hhome] at hsame
      cases hsame
      rfl
  rcases ha.sound.load_short hshort l with ⟨c, hc, hload⟩ | ⟨hnone, -⟩
  · rw [hclass] at hc
    cases hc
    exact hload
  · rw [hclass] at hnone
    cases hnone

/-- A class is what array classes over an element are made from. -/
structure MadeFrom (a : Area) (l : LoaderId) (e : ElementName) (c : Class) (b : Area) : Prop where
  loaded : e.loadBase l a = .ok c b
  tidy : b.Tidy
  owned : b.Owned c
  other : c.name ≠ Boot.arrayStubName
  levels : c.dimension = e.baseLevels
  elementType : c.elementType? = e.primitive?
  element : c.element? = e.class? c
  named : ∀ x, e = .object x → c.name = x
  boot : ∀ p, e = .primitive p → a.published? .bootstrap p.arrayName = some c ∧ b = a ∧
    c.loader = .bootstrap ∧ c.isPublic = true
  arrays : ∀ k, k ≠ 0 → load l (e.arrayName k) a = arraysOver (k - e.baseLevels) c b

lemma Tidy.madeFrom_primitive (ha : a.Tidy) (p : Primitive) (l : LoaderId) :
    ∃ c, a.MadeFrom l (.primitive p) c a := by
  obtain ⟨i, hhome, hload⟩ := ha.load_primitive p
  refine ⟨Boot.primitiveArray p i, hload .bootstrap, ha, hhome, ne_stub_of_isArray rfl, rfl, rfl,
    rfl, fun x hx => ?_, fun q hq => ?_, fun k hk => ?_⟩
  · cases hx
  · cases hq
    have howned : a.Owned (Boot.primitiveArray p i) := hhome
    exact ⟨hhome, rfl, rfl, (ha.described _ howned).2.2⟩
  · obtain ⟨k, rfl⟩ := Nat.exists_eq_succ_of_ne_zero hk
    obtain ⟨hcore, hlevels, hend, hplain⟩ := Spelling.parts_primitive p k
    rw [ha.load_eq hend fun hstub => hplain _ hstub.core, assemble, hcore, hlevels]
    exact bind_of_ok (hload l)

lemma Tidy.madeFrom_object (ha : a.Tidy) (hplain : IsPlain name)
    (hother : name ≠ Boot.arrayStubName) (hload : load l name a = .ok c b) :
    a.MadeFrom l (.object name) c b := by
  have hb := tidy_of_ok (tidy_load l name) ha hload
  have hc := published?_of_load hplain ha.sound hload
  have hkeyed : c.name = name := hb.sound.keyed l name c hc
  have hsingle : c.isArray = false := by
    rw [Bool.eq_false_iff]
    exact fun harray => Class.not_isPlain_of_isArray harray (hkeyed ▸ hplain)
  have hform := Class.form_of_not_isArray hsingle
  refine ⟨hload, hb, (hb.rooted l name c hc).owned, hkeyed ▸ hother, ?_, ?_, ?_,
    fun x hx => ?_, fun p hp => ?_, fun k hk => ?_⟩
  · rw [← Class.dimension_form, hform]
    rfl
  · rw [← Class.elementType?_form, hform]
    rfl
  · rw [← Class.element?_form, hform]
    rfl
  · cases hx
    exact hkeyed
  · cases hp
  · obtain ⟨k, rfl⟩ := Nat.exists_eq_succ_of_ne_zero hk
    obtain ⟨hcore, hlevels, hend⟩ := Spelling.parts_object hplain k
    have hstub : ¬ a.StandsIn l (.ofName ((ElementName.object name).arrayName (k + 1))) := by
      intro hstub
      have hstands := hcore.symm.trans hstub.core
      rw [ha.core] at hstands
      exact hother (Spelling.plain.inj hstands)
    rw [ha.load_eq hend hstub, assemble, hcore, hlevels]
    exact bind_of_ok hload

lemma Tidy.exists_madeFrom (ha : a.Tidy) {e : ElementName} (he : e.Loadable a l) :
    ∃ c b, a.MadeFrom l e c b := by
  cases he with
  | primitive p =>
    obtain ⟨c, hc⟩ := ha.madeFrom_primitive p l
    exact ⟨c, a, hc⟩
  | object plain other loads => exact ⟨_, _, ha.madeFrom_object plain other loads⟩

/-- An array class over an element shows the element, and goes by the name of so many levels over
it. -/
lemma MadeFrom.element_eq {e : ElementName} (h : a.MadeFrom l e c b) (hk : c.dimension + n ≠ 0)
    (hd : d.form = Form.array^[n] c.form) :
    d.dimension = c.dimension + n ∧ d.elementType? = e.primitive? ∧ d.elementClass? = e.class? c ∧
      d.name = e.arrayName (c.dimension + n) := by
  have hdim : d.form.dimension = c.dimension + n := by
    rw [hd, Form.dimension_iterate, Class.dimension_form]
  have harray : d.form.isArray = true := by
    rw [Form.isArray_iff]
    omega
  have htype : d.form.elementType? = e.primitive? := by
    rw [hd, Form.elementType?_iterate, Class.elementType?_form, h.elementType]
  have hclass : d.form.elementClass? = e.class? c := by
    rw [Form.elementClass?, harray, if_pos rfl, hd, Form.element?_iterate, Class.element?_form,
      h.element]
  refine ⟨by rw [← Class.dimension_form, hdim], by rw [← Class.elementType?_form, htype],
    by rw [← Form.elementClass?_form, hclass], ?_⟩
  rw [← Class.name_form, ← String.ofList_toList (s := d.form.name), ElementName.arrayName]
  congr 1
  cases e with
  | primitive p =>
    rw [Form.toList_name_of_elementType? htype, hdim]
    rfl
  | object x =>
    rw [Form.toList_name_of_elementClass? hclass, hdim, h.named x rfl]
    rfl

end Area

namespace Resolver

open ReferenceType

variable {r : Resolver} {l : LoaderId} {e : ElementName} {k : Nat}

/-- What loading by the name of an array gives. It is what asking for the array class so many times
gives, over the element or over the array class of one level that there is over a primitive type.
There is such a class unless the levels are too many, and then it is not found. The class has that
many levels over the element, belongs to the loader of the element and is public if the element is;
and what a type tells of the class is what it tells of the name. -/
theorem arrays_loaded_by_name {start : Resolver} (hstart : start.area = Area.initial)
    (hrun : GenuineRun start r) (he : e.Loadable r.area l) (hk : k ≠ 0) :
    ∃ c b, e.loadBase l r.area = .ok c b ∧
      (∀ p, e = .primitive p → r.area.published? .bootstrap p.arrayName = some c ∧ b = r.area ∧
        c.loader = .bootstrap ∧ c.isPublic = true) ∧
      Area.load l (e.arrayName k) r.area = Area.arraysOver (k - e.baseLevels) c b ∧
      (k ≤ maxDimension → ∃ d q, Area.load l (e.arrayName k) r.area = .ok d q ∧
        d.dimension = k ∧ d.elementType? = e.primitive? ∧ d.elementClass? = e.class? c ∧
        d.loader = c.loader ∧ d.isPublic = c.isPublic ∧
        ∀ R, (ofClass d).dimension = (ofClassRef ⟨R, e.arrayName k⟩).dimension ∧
          (ofClass d).elementType = (ofClassRef ⟨R, e.arrayName k⟩).elementType ∧
          (ofClass d).elementClass.map Mention.name =
            (ofClassRef ⟨R, e.arrayName k⟩).elementClass.map Mention.name) ∧
      (maxDimension < k → ∃ f q, Area.load l (e.arrayName k) r.area = .error f q ∧
        f.kind = .classNotFound) := by
  have hr : r.area.Tidy := hrun.tidy (hstart ▸ Area.initial_tidy)
  obtain ⟨c, b, hmade⟩ := hr.exists_madeFrom he
  have hlevels : c.dimension + (k - e.baseLevels) = k := by
    have hbase : e.baseLevels ≤ 1 := by cases e <;> simp [ElementName.baseLevels]
    rw [hmade.levels]
    omega
  have hload := hmade.arrays k hk
  refine ⟨c, b, hmade.loaded, hmade.boot, hload, ?_⟩
  rw [hload]
  rcases hmade.tidy.arraysOver_cases hmade.owned hmade.other (k - e.baseLevels) with
    ⟨hle, d, q, hd, hq, howned, hform, hpublic, -⟩ | ⟨hlt, f, q, hf, hkind⟩
  · obtain ⟨hdim, htype, hclass, hname⟩ := hmade.element_eq (by rwa [hlevels]) hform
    rw [hlevels] at hle hdim hname
    have hloader : d.loader = c.loader := by
      rw [← hq.loader_form howned.known, hform, Form.loader_iterate,
        hmade.tidy.loader_form hmade.owned.known]
    have hhas : q.HasForm d.form := .owned howned
    refine ⟨fun _ => ⟨d, q, hd, hdim, htype, hclass, hloader, hpublic, fun R => ?_⟩,
      fun hlt => absurd hle (Nat.not_le.2 hlt)⟩
    have hloaded := shows_ofClass d
    have hnamed : (ofClassRef ⟨R, e.arrayName k⟩).Shows d.form :=
      shows_ofClassRef (d.name_form.trans hname) (hhas.element_plain hq) (hhas.dimension_le hq)
    exact ⟨hloaded.dimension.trans hnamed.dimension.symm,
      hloaded.elementType.trans hnamed.elementType.symm,
      hloaded.elementClass.trans hnamed.elementClass.symm⟩
  · rw [hlevels] at hlt
    exact ⟨fun hle => absurd hle (Nat.not_le.2 hlt), fun _ => ⟨f, q, hf, hkind⟩⟩

/-- Two brackets in front of the name of a class that is there name an array class of two levels
over it, and one bracket more than there may be levels names none. -/
theorem class_in_brackets : ∃ d q, Area.load .bootstrap "[[Lp/X;" withClass.area = .ok d q ∧
    d.dimension = 2 ∧ (d.elementClass?.map Class.name) = some "p/X" ∧
    ∃ f q, Area.load .bootstrap ((ElementName.object "p/X").arrayName 256) withClass.area =
      .error f q ∧ f.kind = .classNotFound := by
  have hloads : yields (fun c => c.name == "p/X")
      (Area.load .bootstrap "p/X" withClass.area) = true := by
    decide +kernel
  obtain ⟨x, a, hx, hxname⟩ := exists_of_yields hloads
  have he : (ElementName.object "p/X").Loadable withClass.area .bootstrap :=
    .object (by decide) (by decide) hx
  obtain ⟨c, b, hc, -, -, hfound, -⟩ :=
    arrays_loaded_by_name rfl genuineRun_withClass he (k := 2) (by decide)
  obtain ⟨-, -, -, -, -, -, hmissing⟩ :=
    arrays_loaded_by_name rfl genuineRun_withClass he (k := 256) (by decide)
  obtain ⟨d, q, hd, hdim, -, hclass, -⟩ := hfound (by decide)
  rw [show (ElementName.object "p/X").arrayName 2 = "[[Lp/X;" from rfl] at hd
  have hsame : c = x := by
    rw [ElementName.loadBase, hx] at hc
    cases hc
    rfl
  refine ⟨d, q, hd, hdim, ?_, hmissing (by decide)⟩
  rw [hclass, hsame]
  exact congrArg some (eq_of_beq hxname)

end Resolver

end Linkage
