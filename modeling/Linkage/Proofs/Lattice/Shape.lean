import Mathlib.Data.List.TakeWhile
import Linkage.Proofs.Lattice.Verdict

/-!
# What names show

The type of the instances of a named class is read off its name: the array levels and what is below
them. If a class of that name is found, it has these levels and that element, so what is answered
from names alone is what the classes answer.
-/

namespace Linkage

open Relation

lemma Class.isArray_of_element? {c e : Class} (h : c.element? = some e) : e.isArray = false := by
  rw [Bool.eq_false_iff]
  intro harray
  have hpos := dimension_pos_of_isArray harray
  rw [dimension_of_element? h] at hpos
  exact absurd hpos (Nat.lt_irrefl 0)

/-! ### Names of forms -/

namespace Form

/-- The class below all array levels of an array. -/
def elementClass? (f : Form) : Option Class :=
  if f.isArray then f.element? else none

@[simp] lemma elementClass?_form (c : Class) : c.form.elementClass? = c.elementClass? := by
  simp only [elementClass?, Class.elementClass?, Class.isArray_form, Class.element?_form]

/-- There is a primitive type or a class below the array levels. -/
lemma element_cases (f : Form) :
    (∃ p, f.elementType? = some p ∧ f.element? = none) ∨
      ∃ c, f.element? = some c ∧ f.elementType? = none := by
  induction f with
  | object c => exact .inr ⟨c, rfl, rfl⟩
  | primitives p => exact .inl ⟨p, rfl, rfl⟩
  | array f ih => exact ih

lemma loader_of_element? {f : Form} {c : Class} (h : f.element? = some c) :
    f.loader = c.loader := by
  induction f with
  | object d =>
    cases h
    rfl
  | primitives p => cases h
  | array f ih => exact ih h

lemma elementType?_of_element? {f : Form} {c : Class} (h : f.element? = some c) :
    f.elementType? = none := by
  rcases f.element_cases with ⟨p, -, hnone⟩ | ⟨d, -, hnone⟩
  · rw [hnone] at h
    cases h
  · exact hnone

lemma isArray_of_elementType? {f : Form} {p : Primitive} (h : f.elementType? = some p) :
    f.isArray = true := by
  cases f with
  | object c => cases h
  | primitives | array => rfl

lemma toList_name_of_elementType? {f : Form} {p : Primitive} (h : f.elementType? = some p) :
    f.name.toList = List.replicate f.dimension '[' ++ [p.letter] := by
  induction f with
  | object c => cases h
  | primitives q =>
    cases h
    simp [name, Primitive.arrayName, dimension]
  | array f ih =>
    rw [toList_name_array, if_pos (isArray_of_elementType? (f := f) h), ih h]
    rfl

lemma toList_name_of_elementClass? {f : Form} {c : Class} (h : f.elementClass? = some c) :
    f.name.toList = List.replicate f.dimension '[' ++ 'L' :: (c.name.toList ++ [';']) := by
  induction f with
  | object d => cases h
  | primitives q => cases h
  | array f ih =>
    rw [toList_name_array]
    cases f with
    | object d =>
      cases h
      rfl
    | primitives q => cases h
    | array g =>
      rw [if_pos (by rfl), ih h]
      rfl

lemma not_isPlain_name_array (f : Form) : ¬ IsPlain (array f).name := by
  rw [IsPlain, toList_name_array]
  simp

end Form

lemma size_ne_of_three_le {cs : List Char} (h : 3 ≤ cs.length) :
    (String.ofList cs).utf8ByteSize ≠ 2 := by
  have hle := Spelling.length_le_utf8ByteSize cs
  omega

namespace Form

/-- The names of arrays over something else than a primitive type are not short. -/
lemma size_name_array (f : Form) : (array f).name.utf8ByteSize ≠ 2 := by
  have hlength : 3 ≤ (array f).name.toList.length := by
    rcases f.element_cases with ⟨p, hp, -⟩ | ⟨c, hc, -⟩
    · have harray := isArray_of_elementType? hp
      rw [isArray_iff] at harray
      rw [toList_name_of_elementType? (f := array f) hp]
      simp only [dimension, List.length_append, List.length_replicate, List.length_singleton]
      omega
    · rw [toList_name_of_elementClass? (f := array f) (c := c) hc]
      simp only [dimension, List.length_append, List.length_replicate, List.length_cons,
        List.length_nil]
      omega
  rw [← String.ofList_toList (s := (array f).name)]
  exact size_ne_of_three_le hlength

end Form

/-! ### Names taken apart -/

lemma splitDimensions_eq {name : String} {k : Nat} {rest : List Char}
    (hname : name.toList = List.replicate k '[' ++ rest) (hrest : rest.head? ≠ some '[') :
    splitDimensions name = (k, rest) := by
  have hstop : rest.takeWhile (fun c => decide (c = '[')) = [] ∧
      rest.dropWhile (fun c => decide (c = '[')) = rest := by
    cases rest with
    | nil => exact ⟨rfl, rfl⟩
    | cons c rest =>
      have hc : c ≠ '[' := by simpa using hrest
      simp [hc]
  have hall : ∀ c ∈ List.replicate k '[', decide (c = '[') = true := by
    intro c hc
    simp [(List.mem_replicate.1 hc).2]
  simp only [splitDimensions, hname, List.takeWhile_append_of_pos hall,
    List.dropWhile_append_of_pos hall, hstop.1, hstop.2]
  simp

/-- A name is made of its levels and the rest. -/
lemma toList_eq_of_splitDimensions (name : String) :
    name.toList = List.replicate (splitDimensions name).1 '[' ++ (splitDimensions name).2 := by
  have hlevels : name.toList.takeWhile (fun c => decide (c = '[')) =
      List.replicate (splitDimensions name).1 '[' := by
    refine List.eq_replicate_iff.2 ⟨rfl, fun c hc => ?_⟩
    simpa using List.mem_takeWhile_imp hc
  rw [← hlevels, splitDimensions, List.takeWhile_append_dropWhile]

lemma eq_of_unwrapObject? {cs element : List Char} (h : unwrapObject? cs = some element) :
    cs = 'L' :: (element ++ [';']) := by
  unfold unwrapObject? at h
  split at h
  · next rest =>
    split at h
    · next hlast =>
      cases h
      rw [List.dropLast_append_getLast? _ hlast]
    · cases h
  · cases h

lemma Form.levels_name {f : Form} (hplain : ∀ c ∈ f.element?, IsPlain c.name) :
    (splitDimensions f.name).1 = f.dimension := by
  rcases f.element_cases with ⟨p, hp, -⟩ | ⟨c, hc, -⟩
  · rw [splitDimensions_eq (toList_name_of_elementType? hp)
      (by cases p <;> simp [Primitive.letter])]
  · cases f with
    | object d =>
      cases hc
      have hchars : (object c).name.toList = List.replicate 0 '[' ++ c.name.toList := rfl
      rw [splitDimensions_eq hchars (hplain c rfl)]
      rfl
    | primitives p => cases hc
    | array g =>
      have hclass : (array g).elementClass? = some c := hc
      rw [splitDimensions_eq (toList_name_of_elementClass? hclass) (by simp)]

/-- What a type tells of a class is right. -/
structure ReferenceType.Shows (t : ReferenceType) (f : Form) : Prop where
  dimension : t.dimension = f.dimension
  elementType : t.elementType = f.elementType?
  elementClass : t.elementClass.map Mention.name = f.elementClass?.map Class.name

namespace ReferenceType

lemma shows_ofClass (c : Class) : (ofClass c).Shows c.form := by
  refine ⟨c.dimension_form.symm, c.elementType?_form.symm, ?_⟩
  simp only [ofClass, Option.map_map, Form.elementClass?_form]
  rfl

/-- The element of a named array is named from the same class, between `L` and `;`. -/
lemma elementClass_ofClassRef_iff {r : ClassRef} {m : Mention} :
    (ofClassRef r).elementClass = some m ↔ (splitDimensions r.name).1 ≠ 0 ∧
      ∃ e, unwrapObject? (splitDimensions r.name).2 = some e ∧
        m = .symbolic ⟨r.referer, String.ofList e⟩ := by
  have hzero :
      min (splitDimensions r.name).1 maxDimension = 0 ↔ (splitDimensions r.name).1 = 0 := by
    rw [Nat.min_eq_zero_iff]
    simp [maxDimension]
  simp only [ofClassRef, hzero]
  split
  · next h => simp [h]
  · next h =>
    split
    · next e he => simp [h, he, eq_comm]
    · next he => simp [he]

lemma levels_eq_zero_iff {name : String} : (splitDimensions name).1 = 0 ↔ IsPlain name := by
  simp only [splitDimensions, List.length_eq_zero_iff, IsPlain]
  cases name.toList with
  | nil => simp
  | cons c cs => by_cases hc : c = '[' <;> simp [hc]

lemma dimension_ofClassRef (r : ClassRef) :
    (ofClassRef r).dimension = min (splitDimensions r.name).1 maxDimension := by
  simp only [ofClassRef]
  split
  · next h => exact h.symm
  · split <;> rfl

lemma isPlain_iff_dimension {r : ClassRef} : (ofClassRef r).dimension = 0 ↔ IsPlain r.name := by
  rw [dimension_ofClassRef, Nat.min_eq_zero_iff, levels_eq_zero_iff]
  simp [maxDimension]

/-- The type of the instances of a class that is named, in terms of a form with that name. -/
lemma parts_ofClassRef {r : ClassRef} {f : Form} (hname : f.name = r.name)
    (hplain : ∀ c ∈ f.element?, IsPlain c.name) (hdim : f.dimension ≤ maxDimension) :
    (ofClassRef r).dimension = f.dimension ∧ (ofClassRef r).elementType = f.elementType? ∧
      (ofClassRef r).elementClass =
        f.elementClass?.map fun c => .symbolic ⟨r.referer, c.name⟩ := by
  rcases f.element_cases with ⟨p, hp, hnone⟩ | ⟨c, hc, hnone⟩
  · have hsplit := splitDimensions_eq (hname ▸ Form.toList_name_of_elementType? hp)
      (by cases p <;> simp [Primitive.letter])
    have hpos : f.dimension ≠ 0 := by
      have harray := Form.isArray_of_elementType? hp
      rw [Form.isArray_iff] at harray
      omega
    have hunwrap : unwrapObject? [p.letter] = none := by cases p <;> rfl
    simp only [ofClassRef, hsplit, Nat.min_eq_left hdim, hpos, if_false, hunwrap, List.head?_cons,
      Option.bind_some, Primitive.ofLetter?_letter, hp, Form.elementClass?, hnone, ite_self,
      Option.map_none, and_self]
  · cases harray : f.isArray with
    | true =>
      have hclass : f.elementClass? = some c := by
        simp only [Form.elementClass?, harray, if_true, hc]
      have hsplit := splitDimensions_eq (hname ▸ Form.toList_name_of_elementClass? hclass)
        (by simp)
      have hpos : f.dimension ≠ 0 := by
        rw [Form.isArray_iff] at harray
        omega
      have hunwrap := unwrapObject?_object c.name.toList
      simp only [ofClassRef, hsplit, Nat.min_eq_left hdim, hpos, if_false, hunwrap, hnone, hclass,
        Option.map_some, String.ofList_toList, and_self]
    | false =>
      obtain rfl : f = .object c := by
        cases f with
        | object d =>
          cases hc
          rfl
        | primitives | array => cases harray
      have hchars : r.name.toList = List.replicate 0 '[' ++ c.name.toList := by
        rw [← hname]
        rfl
      have hsplit := splitDimensions_eq hchars (hplain c hc)
      simp only [ofClassRef, hsplit, Nat.zero_min, if_true, Form.dimension, Form.elementType?,
        Form.elementClass?, Form.isArray, Bool.false_eq_true, if_false, Option.map_none, and_self]

lemma shows_ofClassRef {r : ClassRef} {f : Form} (hname : f.name = r.name)
    (hplain : ∀ c ∈ f.element?, IsPlain c.name) (hdim : f.dimension ≤ maxDimension) :
    (ofClassRef r).Shows f := by
  obtain ⟨h₁, h₂, h₃⟩ := parts_ofClassRef hname hplain hdim
  refine ⟨h₁, h₂, ?_⟩
  rw [h₃, Option.map_map]
  rfl

end ReferenceType

namespace Spelling

lemma ofChars_nested {rest : List Char} (h : rest.head? = some '[') :
    ofChars ('[' :: rest) = .nested (String.ofList ('[' :: rest)) (ofChars rest) := by
  rw [ofChars]
  simp only [h]

lemma ofChars_object {rest e : List Char} (h : unwrapObject? rest = some e) :
    ofChars ('[' :: rest) = .object (String.ofList ('[' :: rest)) (ofChars e) := by
  have hhead : rest.head? = some 'L' := by
    unfold unwrapObject? at h
    split at h
    · rfl
    · cases h
  rw [ofChars]
  simp only [hhead]
  split
  · next e' he' =>
    rw [h] at he'
    cases he'
    rfl
  · next hnone =>
    rw [h] at hnone
    cases hnone

lemma ofChars_plain {cs : List Char} (h : cs.head? ≠ some '[') :
    ofChars cs = .plain (String.ofList cs) := by
  rw [← ofName_eq_plain (isPlain_ofList.2 h), ofName, String.toList_ofList]

end Spelling

lemma IsArrayName.head?_eq {cs : List Char} (h : IsArrayName cs) : cs.head? = some '[' := by
  cases h <;> rfl

/-! ### Classes that are found -/

namespace Area

variable {a q : Area} {l : LoaderId} {name : String} {s : Spelling} {f x : Form}

/-- No class of the bootstrap loader goes by the name of the stand-in for the common supertype of
arrays. -/
def Unshadowed (a : Area) : Prop := a.published? .bootstrap Boot.arrayStubName = none

lemma Tidy.isPlain_of_not_isArray (h : a.Tidy) {c : Class} (hc : a.Known c)
    (harray : c.isArray = false) : IsPlain c.name := by
  rcases hc with hc | rfl
  · by_contra hplain
    have htrue := h.arrays _ _ c hc hplain
    rw [harray] at htrue
    cases htrue
  · exact h.stub.2.1

/-- The loader of an array is that of its element. -/
lemma Tidy.loader_element (h : a.Tidy) {m e : Mention} (hm : m.Given a)
    (he : (ReferenceType.ofMention m).elementClass = some e) :
    e.loader = m.loader := by
  cases m with
  | loaded c =>
    obtain ⟨x, hx, rfl⟩ := Option.map_eq_some_iff.1 he
    rw [← Form.elementClass?_form, Form.elementClass?] at hx
    split at hx
    · exact (Form.loader_of_element? hx).symm.trans (h.loader_form hm)
    · cases hx
  | symbolic r =>
    obtain ⟨-, e, -, rfl⟩ := ReferenceType.elementClass_ofClassRef_iff.1 he
    rfl

/-- What is below all array levels of a form is one of the classes there are, and no array. -/
def Grounded (a : Area) (f : Form) : Prop :=
  ∀ c, f.element? = some c → a.Known c ∧ c.isArray = false

lemma Tidy.grounded_of_known (ha : a.Tidy) {c : Class} (hc : a.Known c) : a.Grounded c.form := by
  intro e he
  rw [Class.element?_form] at he
  exact ⟨ha.element_known hc he, Class.isArray_of_element? he⟩

lemma HasForm.grounded (ha : a.Tidy) (hf : a.HasForm f) : a.Grounded f := by
  induction hf with
  | owned h => exact ha.grounded_of_known h.known
  | array _ _ _ ih => exact ih

lemma HasForm.dimension_le (ha : a.Tidy) (hf : a.HasForm f) : f.dimension ≤ maxDimension := by
  induction hf with
  | @owned c hc =>
    rw [Class.dimension_form]
    exact (ha.linked c hc).dimension_le
  | array _ _ hdim ih => exact lt_of_le_of_ne ih hdim

lemma HasForm.element_plain (ha : a.Tidy) (hf : a.HasForm f) :
    ∀ c ∈ f.element?, IsPlain c.name := by
  intro c hc
  obtain ⟨hknown, harray⟩ := hf.grounded ha c hc
  exact ha.isPlain_of_not_isArray hknown harray

/-- The name of a class that is found tells its levels and its element. -/
lemma HasForm.parts_ofClassRef (ha : a.Tidy) (hf : a.HasForm f) {r : ClassRef}
    (hname : f.name = r.name) :
    (ReferenceType.ofClassRef r).dimension = f.dimension ∧
      (ReferenceType.ofClassRef r).elementType = f.elementType? ∧
      (ReferenceType.ofClassRef r).elementClass =
        f.elementClass?.map fun c => .symbolic ⟨r.referer, c.name⟩ :=
  ReferenceType.parts_ofClassRef hname (hf.element_plain ha) (hf.dimension_le ha)

/-! ### Names of classes that are found -/

/-- Nothing but arrays is found by the names of such. -/
lemma formArray?_isArray (ha : a.Tidy) (hname : ¬ IsPlain name) {short : Bool}
    {component : Option Form} (h : a.formArray? l name short component = some f) :
    f.isArray = true := by
  have hentry : ∀ l n c, ¬ IsPlain n → a.published? l n = some c → c.form.isArray = true := by
    intro l n c hn hc
    rw [Class.isArray_form]
    exact ha.arrays l n c hc hn
  simp only [formArray?] at h
  split at h
  · next c hc =>
    cases h
    exact hentry l name c hname hc
  · split at h
    · obtain ⟨c, hc, rfl⟩ := Option.map_eq_some_iff.1 h
      exact hentry .bootstrap name c hname hc
    · obtain ⟨g, -, h⟩ := Option.bind_eq_some_iff.1 h
      simp only [formOver] at h
      split at h
      · next c hc =>
        cases h
        exact hentry _ _ c g.not_isPlain_name_array hc
      · split at h
        · cases h
        · cases h
          rfl

lemma formArray?_named (ha : a.Tidy) {short : Bool} {component : Option Form}
    (hcomponent : ∀ g ∈ component, (Form.array g).name = name)
    (h : a.formArray? l name short component = some f) : f.name = name := by
  have hentry : ∀ l c, a.published? l name = some c → c.form.name = name := by
    intro l c hc
    rw [Class.name_form]
    exact ha.sound.keyed l name c hc
  simp only [formArray?] at h
  split at h
  · next c hc =>
    cases h
    exact hentry l c hc
  · split at h
    · obtain ⟨c, hc, rfl⟩ := Option.map_eq_some_iff.1 h
      exact hentry .bootstrap c hc
    · obtain ⟨g, hg, h⟩ := Option.bind_eq_some_iff.1 h
      have hover := hcomponent g hg
      simp only [formOver, hover] at h
      split at h
      · next c hc =>
        cases h
        exact hentry _ c hc
      · split at h
        · cases h
        · cases h
          exact hover

/-- Whatever is found is over a class there is, or over a primitive type. -/
lemma Tidy.grounded_of_look (ha : a.Tidy) {m : Mention} (hm : m.Given a) (hf : a.look m = some f) :
    a.Grounded f := by
  cases m with
  | loaded c =>
    cases hf
    exact ha.grounded_of_known hm
  | symbolic r => exact (hasForm_of_form? ha _ hf).grounded ha

/-- What is found by a name that is no array name has that name, and is no array. -/
lemma plain_of_form? (ha : a.Tidy) (hs : s.Faithful) (h : a.form? l s = some f)
    (hplain : IsPlain f.name) : s = .plain f.name := by
  have harray : f.isArray ≠ true := fun harray => hplain (Form.head?_name harray)
  cases s with
  | plain n =>
    obtain ⟨c, hc, rfl⟩ := Option.map_eq_some_iff.1 h
    rw [Class.name_form, ha.sound.keyed l n c hc]
  | nested n s => exact absurd (formArray?_isArray ha hs.1 h) harray
  | object n s => exact absurd (formArray?_isArray ha hs.1 h) harray
  | unclosed n => exact absurd (formArray?_isArray ha hs.1 h) harray
  | bare n s => exact absurd (formArray?_isArray ha hs.1 h) harray

lemma name_of_isArrayName (ha : a.Tidy) {cs : List Char} (hcs : IsArrayName cs)
    (h : a.form? l (.ofChars cs) = some f) : f.isArray = true ∧ f.name = String.ofList cs := by
  have hnamed : ∀ f rest short component,
      a.formArray? l (String.ofList ('[' :: rest)) short component = some f →
      (∀ g ∈ component, (Form.array g).name = String.ofList ('[' :: rest)) →
      f.isArray = true ∧ f.name = String.ofList ('[' :: rest) :=
    fun f rest _ _ h hcomponent =>
      ⟨formArray?_isArray ha (not_isPlain_bracket _) h, formArray?_named ha hcomponent h⟩
  induction hcs generalizing f with
  | primitive p =>
    have hbare : Spelling.ofChars ['[', p.letter] =
        .bare (String.ofList ['[', p.letter]) (String.ofList [p.letter]) := by
      cases p <;>
      · rw [Primitive.letter, Spelling.ofChars]
        rfl
    rw [hbare] at h
    exact hnamed _ _ _ _ h (by simp)
  | @object cs hcs =>
    have hunwrap := unwrapObject?_object cs
    have hplain : cs.head? ≠ some '[' := fun hhead => hcs.1 (List.mem_of_mem_head? hhead)
    rw [Spelling.ofChars_object hunwrap] at h
    refine hnamed _ _ _ _ h fun g hg => ?_
    rw [Spelling.ofChars_plain hplain] at hg
    obtain ⟨c, hc, rfl⟩ := Option.map_eq_some_iff.1 hg
    have hname := ha.sound.keyed l _ c hc
    have hplain : IsPlain c.name := by
      rw [hname]
      exact isPlain_ofList.2 hplain
    rw [Class.name_array_form, Class.arrayName_of_isPlain hplain, hname]
    apply String.toList_inj.1
    simp
  | @nested cs hcs ih =>
    rw [Spelling.ofChars_nested hcs.head?_eq] at h
    refine hnamed _ _ _ _ h fun g hg => ?_
    obtain ⟨harray, hname⟩ := ih hg
    apply String.toList_inj.1
    rw [Form.toList_name_array, if_pos harray, hname, String.toList_ofList, String.toList_ofList]

/-- A class that is found by a well-formed name has that name. -/
lemma Tidy.name_of_form? (ha : a.Tidy) (hname : IsWellFormed name)
    (h : a.form? l (.ofName name) = some f) : f.name = name := by
  rcases hname with hplain | harray
  · have hhead : name.toList.head? ≠ some '[' :=
      fun hhead => hplain.1 (List.mem_of_mem_head? hhead)
    rw [Spelling.ofName_eq_plain hhead] at h
    obtain ⟨c, hc, rfl⟩ := Option.map_eq_some_iff.1 h
    rw [Class.name_form]
    exact ha.sound.keyed l name c hc
  · rw [(name_of_isArrayName ha harray h).2, String.ofList_toList]

/-! ### Arrays over what is found -/

/-- What a loader has under the name of an array is over what the rest of the name means, unless it
is over the stand-in for the common supertype of arrays. -/
lemma Tidy.entry_cases (ha : a.Tidy) (hname : ¬ IsPlain name) (hlong : name.utf8ByteSize ≠ 2)
    (hover : ∀ e : Class, e.arrayName = name → s = .ofName e.name) {c : Class}
    (hc : a.published? l name = some c) :
    (∃ e, a.Owned e ∧ e.loader = l ∧ e.arrayName = name ∧ c.form = .array e.form ∧
      e.dimension < maxDimension ∧ a.form? l s = some e.form) ∨
    l = .bootstrap ∧ s = .plain Boot.arrayStubName := by
  have hkeyed := ha.sound.keyed l name c hc
  have harray := ha.arrays l name c hc hname
  have hlinked := ha.linked c (ha.rooted l name c hc).owned
  match c with
  | .root _ => cases harray
  | .derived .. => cases harray
  | .primitiveArray _ _ _ p =>
    refine absurd ?_ hlong
    rw [← hkeyed]
    change p.arrayName.utf8ByteSize = 2
    cases p <;> decide
  | .array d t is e =>
    obtain ⟨hloader, hknown⟩ := ha.component l name d t is e hc
    have hspelled := hover e hkeyed
    rcases hknown with howned | rfl
    · refine .inl ⟨e, howned, hloader, hkeyed, rfl, hlinked.1, ?_⟩
      rw [hspelled]
      exact form?_of_published (hloader ▸ howned)
    · obtain ⟨hstub, hplain, -⟩ := ha.stub
      refine .inr ⟨hloader.symm.trans hstub, ?_⟩
      rw [hspelled, Spelling.ofName_eq_plain hplain, ha.core]
      rfl

/-- No class but the stand-in itself can be mistaken for it. -/
def Clear (a : Area) (f : Form) : Prop := a.Unshadowed ∨ f.name ≠ Boot.arrayStubName

/-- The array class over what is found is just that. -/
lemma HasForm.formOver_eq (ha : a.Tidy) (hf : a.HasForm f) (hclear : a.Clear f) :
    a.formOver f = if f.dimension = maxDimension then none else some (.array f) := by
  have hover : ∀ e : Class, e.arrayName = (Form.array f).name →
      Spelling.ofName f.name = .ofName e.name := by
    intro e he
    rw [← Class.name_array_form] at he
    rw [← (Form.name_inj he).2, Class.name_form]
  cases hc : a.published? f.loader (Form.array f).name with
  | none => simp only [formOver, hc]
  | some c =>
    rw [formOver_of_published hc]
    rcases ha.entry_cases f.not_isPlain_name_array (Form.size_name_array f) hover hc with
      ⟨e, he, hloader, hname, hform, hdim, -⟩ | ⟨hloader, hstub⟩
    · obtain rfl := hf.eq_form ha he hloader.symm hname.symm
      rw [Class.dimension_form, if_neg (Nat.ne_of_lt hdim), hform]
    · have hname : f.name = Boot.arrayStubName := by
        rw [← Spelling.name_ofName f.name, hstub]
        rfl
      rcases hclear with hnone | hne
      · cases hf with
        | @owned d hd =>
          rw [ha.loader_form hd.known] at hloader
          rw [Class.name_form] at hname
          have howned : a.published? .bootstrap Boot.arrayStubName = some d := by
            rw [← hname, ← hloader]
            exact hd
          rw [Unshadowed, howned] at hnone
          cases hnone
        | @array g hg =>
          refine absurd (show IsPlain Boot.arrayStubName by decide) ?_
          rw [← hname]
          exact g.not_isPlain_name_array
      · exact absurd hname hne

/-- The name of an array over what is found means the array class over it. -/
lemma Tidy.formArray?_eq_over (ha : a.Tidy) (hname : ¬ IsPlain name)
    (hlong : name.utf8ByteSize ≠ 2) (hover : ∀ e : Class, e.arrayName = name → s = .ofName e.name)
    (hx : a.form? l s = some x) (hclear : a.Clear x) :
    a.formArray? l name false (some x) =
      if x.dimension = maxDimension then none else some (.array x) := by
  have hform := hasForm_of_form? ha s hx
  cases hc : a.published? l name with
  | none =>
    simp only [formArray?, hc, Bool.false_eq_true, if_false, Option.bind_some]
    exact hform.formOver_eq ha hclear
  | some c =>
    rw [formArray?_of_published hc]
    rcases ha.entry_cases hname hlong hover hc with ⟨e, -, -, -, he, hdim, hfound⟩ | ⟨rfl, rfl⟩
    · rw [hx] at hfound
      cases hfound
      rw [Class.dimension_form, if_neg (Nat.ne_of_lt hdim), he]
    · obtain ⟨d, hd, rfl⟩ := Option.map_eq_some_iff.1 hx
      rcases hclear with hnone | hne
      · rw [Unshadowed, hd] at hnone
        cases hnone
      · rw [Class.name_form] at hne
        exact absurd (ha.sound.keyed _ _ d hd) hne

/-! ### Later states -/

/-- One area comes after another: what loaders had they still have. -/
structure Later (a q : Area) : Prop where
  before : a.Tidy
  after : q.Tidy
  kept : ∀ l n c, a.published? l n = some c → q.published? l n = some c

lemma Later.refl (h : a.Tidy) : Later a a := ⟨h, h, fun _ _ _ hc => hc⟩

lemma Later.known (h : Later a q) {c : Class} (hc : a.Known c) : q.Known c := by
  rcases hc with hc | rfl
  · exact .inl (h.kept _ _ c hc)
  · refine .inr ?_
    rw [h.before.core, h.after.core]

lemma Later.given (h : Later a q) {m : Mention} (hm : m.Given a) : m.Given q := by
  cases m with
  | loaded c => exact h.known hm
  | symbolic r => trivial

lemma Later.trans {b : Area} (h : Later a b) (h' : Later b q) : Later a q :=
  ⟨h.before, h'.after, fun l n c hc => h'.kept l n c (h.kept l n c hc)⟩

lemma later_of_tidySteps {b : Area} (h : ReflTransGen TidyStep a b) (ha : a.Tidy) : Later a b := by
  refine ⟨ha, tidy_stable.reflTransGen h ha, fun l n c hc => ?_⟩
  have hstable : Stable TidyStep fun a => a.Tidy ∧ a.published? l n = some c :=
    fun _ _ hstep ha => ⟨(hstep ha.1).1, (hstep ha.1).2.1.kept l n c ha.2⟩
  exact (hstable.reflTransGen h ⟨ha, hc⟩).2

lemma Asked.tidySteps {b : Area} (h : Asked a b) (ha : a.Tidy) : ReflTransGen TidyStep a b := by
  have hstable : Stable Makes fun b => b.Tidy ∧ ReflTransGen TidyStep a b :=
    fun b c hmakes hb => ⟨makes_stable b c hmakes hb.1, hb.2.trans (hmakes.tidySteps hb.1)⟩
  exact (hstable.reflTransGen h ⟨ha, .refl⟩).2

lemma Asked.later {b : Area} (h : Asked a b) (ha : a.Tidy) : Later a b :=
  later_of_tidySteps (h.tidySteps ha) ha

/-- What is found by the name of an array is found later, if what the rest of the name means is. -/
lemma Later.formArray?_eq (hlater : Later a q) (hname : ¬ IsPlain name) {short : Bool}
    (hshort : short = true ↔ name.utf8ByteSize = 2)
    (hover : ∀ e : Class, e.arrayName = name → s = .ofName e.name) {o o' : Option Form}
    (hcomponent : ∀ x ∈ o, o' = some x ∧ a.form? l s = some x ∧ q.form? l s = some x ∧
      a.Clear x ∧ q.Clear x)
    (h : a.formArray? l name short o = some f) : q.formArray? l name short o' = some f := by
  simp only [formArray?] at h
  split at h
  · next c hc =>
    cases h
    exact formArray?_of_published (hlater.kept l name c hc) _ _
  · cases short with
    | true =>
      obtain ⟨c, hc, rfl⟩ := Option.map_eq_some_iff.1 h
      have hhome := hlater.kept .bootstrap name c hc
      simp only [formArray?]
      cases hx : q.published? l name with
      | none => simp only [if_true, hhome, Option.map_some]
      | some x =>
        have hsame := hlater.after.published?_short ⟨hname, hshort.1 rfl⟩ hx
        rw [hhome] at hsame
        cases hsame
        rfl
    | false =>
      simp only [Bool.false_eq_true, if_false] at h
      obtain ⟨x, hx, h⟩ := Option.bind_eq_some_iff.1 h
      obtain ⟨rfl, hax, hqx, hclear, hclear'⟩ := hcomponent x hx
      rw [(hasForm_of_form? hlater.before s hax).formOver_eq hlater.before hclear] at h
      rw [hlater.after.formArray?_eq_over hname (fun hsize => absurd (hshort.2 hsize) (by simp))
        hover hqx hclear', h]

end Area

/-- Nothing in a spelling is an array over a class of the given name. -/
def Spelling.Avoids (n : String) : Spelling → Prop
  | .nested _ s => s.name ≠ n ∧ s.Avoids n
  | .object _ s => s.name ≠ n ∧ s.Avoids n
  | _ => True

namespace Area

variable {a q : Area} {l : LoaderId} {name : String} {s : Spelling} {f x : Form}

lemma Later.unshadowed (hlater : Later a q) (h : q.Unshadowed) : a.Unshadowed := by
  rw [Unshadowed, Option.eq_none_iff_forall_ne_some]
  intro c hc
  rw [Unshadowed, hlater.kept _ _ c hc] at h
  cases h

/-- Names mean what they meant before, unless the stand-in for the common supertype of arrays comes
in the way. -/
lemma Later.form?_eq (hlater : Later a q) (hs : s.Faithful)
    (hclear : q.Unshadowed ∨ s.Avoids Boot.arrayStubName) (h : a.form? l s = some f) :
    q.form? l s = some f := by
  have hboth : ∀ s : Spelling, s.Faithful →
      (q.Unshadowed ∨ s.name ≠ Boot.arrayStubName) → ∀ x, a.form? l s = some x →
        a.Clear x ∧ q.Clear x := by
    intro s hs hclear x hx
    have hnamed : x.name = Boot.arrayStubName → q.Unshadowed := by
      intro hname
      have hspelled := plain_of_form? hlater.before hs hx (by rw [hname]; decide)
      refine hclear.resolve_right fun hne => hne ?_
      rw [hspelled, ← hname]
      rfl
    exact ⟨or_iff_not_imp_right.2 fun h => hlater.unshadowed (hnamed (not_not.1 h)),
      or_iff_not_imp_right.2 fun h => hnamed (not_not.1 h)⟩
  induction s generalizing f with
  | plain n =>
    obtain ⟨c, hc, rfl⟩ := Option.map_eq_some_iff.1 h
    simp only [form?, hlater.kept l n c hc, Option.map_some]
  | nested n s ih =>
    obtain ⟨hname, hs, hover⟩ := hs
    refine hlater.formArray?_eq hname (Spelling.isShort_iff (s := .nested n s)) hover
      (fun x hx => ?_) h
    have hlater := ih hs (hclear.imp_right And.right) hx
    exact ⟨hlater, hx, hlater, hboth s hs (hclear.imp_right And.left) x hx⟩
  | object n s ih =>
    obtain ⟨hname, hs, hover⟩ := hs
    refine hlater.formArray?_eq hname (Spelling.isShort_iff (s := .object n s)) hover
      (fun x hx => ?_) h
    have hlater := ih hs (hclear.imp_right And.right) hx
    exact ⟨hlater, hx, hlater, hboth s hs (hclear.imp_right And.left) x hx⟩
  | unclosed n =>
    obtain ⟨hname, hs⟩ := hs
    exact hlater.formArray?_eq (s := .unclosed n) hname Spelling.isShort_iff
      (fun e he => absurd he (hs e)) (by simp) h
  | bare n s =>
    obtain ⟨hname, hs⟩ := hs
    exact hlater.formArray?_eq (s := .bare n s) hname Spelling.isShort_iff
      (fun e he => absurd he (hs e)) (by simp) h

end Area

namespace Resolver

lemma GenuineRun.later {r q : Resolver} (h : GenuineRun r q) (hr : r.area.Tidy) :
    Area.Later r.area q.area :=
  ⟨hr, h.tidy hr, fun _ _ _ hc => h.kept hr hc⟩

end Resolver

end Linkage
