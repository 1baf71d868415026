import Linkage.Proofs.Resolver.Identity

/-!
# Forms of classes

There is one array class over a component, but its identity depends on when it was first asked for.
The form of a class leaves that out: a class that is no array is its own form, and the form of an
array class is told by the form of its component. Assignability of classes is a matter of their
forms.
-/

namespace Linkage

/-- What a class is, the identities of array classes apart. -/
inductive Form where
  /-- A class that is no array. -/
  | object (c : Class)
  /-- The arrays over a primitive type. -/
  | primitives (p : Primitive)
  /-- The arrays over something else. -/
  | array (component : Form)

/-- The form of a class. -/
def Class.form : Class → Form
  | .root d => .object (.root d)
  | .derived d s is => .object (.derived d s is)
  | .primitiveArray _ _ _ p => .primitives p
  | .array _ _ _ c => .array c.form

namespace Form

/-- The loader of the class that is no array, at the bottom of the form. -/
def loader : Form → LoaderId
  | object c => c.loader
  | primitives _ => .bootstrap
  | array f => f.loader

/-- Whether the form is one of arrays. -/
def isArray : Form → Bool
  | object _ => false
  | primitives _ => true
  | array _ => true

/-- The name of the classes of a form. -/
def name : Form → String
  | object c => c.name
  | primitives p => p.arrayName
  | array f => if f.isArray then "[" ++ f.name else "[L" ++ f.name ++ ";"

/-- The number of array levels. -/
def dimension : Form → Nat
  | object _ => 0
  | primitives _ => 1
  | array f => f.dimension + 1

/-- The primitive type below all array levels. -/
def elementType? : Form → Option Primitive
  | object _ => none
  | primitives p => some p
  | array f => f.elementType?

/-- The class below all array levels. -/
def element? : Form → Option Class
  | object c => some c
  | primitives _ => none
  | array f => f.element?

@[simp] lemma isArray_iff {f : Form} : f.isArray = true ↔ 0 < f.dimension := by
  cases f <;> simp [isArray, dimension]

lemma toList_name_array (f : Form) :
    (array f).name.toList =
      '[' :: if f.isArray then f.name.toList else 'L' :: (f.name.toList ++ [';']) := by
  simp only [name]
  split <;> simp

lemma head?_name {f : Form} (h : f.isArray = true) : f.name.toList.head? = some '[' := by
  cases f with
  | object c => cases h
  | primitives p => simp [name, Primitive.arrayName]
  | array f => simp [toList_name_array]

/-- The name of the arrays over a form tells the name of the form. -/
lemma name_inj {f g : Form} (h : (array f).name = (array g).name) :
    f.isArray = g.isArray ∧ f.name = g.name := by
  have hchars := congrArg String.toList h
  simp only [toList_name_array, List.cons.injEq, true_and] at hchars
  cases hf : f.isArray <;> cases hg : g.isArray <;>
    simp only [hf, hg, Bool.false_eq_true, if_true, if_false, List.cons.injEq, true_and] at hchars
  · exact ⟨rfl, String.toList_inj.1 (List.append_cancel_right hchars)⟩
  · have hhead := head?_name hg
    rw [← hchars] at hhead
    cases hhead
  · have hhead := head?_name hf
    rw [hchars] at hhead
    cases hhead
  · exact ⟨rfl, String.toList_inj.1 hchars⟩

end Form

namespace Class

lemma form_of_not_isArray {c : Class} (h : c.isArray = false) : c.form = .object c := by
  cases c with
  | root | derived => rfl
  | primitiveArray | array => cases h

lemma eq_of_form_eq_object {c d : Class} (h : c.form = .object d) : c = d := by
  cases c with
  | root | derived => exact Form.object.inj h
  | primitiveArray | array => cases h

@[simp] lemma isArray_form (c : Class) : c.form.isArray = c.isArray := by
  cases c <;> rfl

@[simp] lemma name_form (c : Class) : c.form.name = c.name := by
  match c with
  | .root _ => rfl
  | .derived .. => rfl
  | .primitiveArray .. => rfl
  | .array _ _ _ e => simp only [form, Form.name, name, isArray_form, name_form e]

@[simp] lemma dimension_form (c : Class) : c.form.dimension = c.dimension := by
  match c with
  | .root _ => rfl
  | .derived .. => rfl
  | .primitiveArray .. => rfl
  | .array _ _ _ e => simp only [form, Form.dimension, dimension, dimension_form e]

@[simp] lemma elementType?_form (c : Class) : c.form.elementType? = c.elementType? := by
  match c with
  | .root _ => rfl
  | .derived .. => rfl
  | .primitiveArray .. => rfl
  | .array _ _ _ e => simp only [form, Form.elementType?, elementType?, elementType?_form e]

@[simp] lemma element?_form (c : Class) : c.form.element? = c.element? := by
  match c with
  | .root _ => rfl
  | .derived .. => rfl
  | .primitiveArray .. => rfl
  | .array _ _ _ e => simp only [form, Form.element?, element?, element?_form e]

@[simp] lemma name_array_form (c : Class) : (Form.array c.form).name = c.arrayName := by
  simp only [Form.name, isArray_form, name_form, arrayName]

end Class

/-! ### Assignability -/

/-- Whether the class is one of those that are no arrays and take arrays. -/
def Class.takesArrays (d : Class) : Bool :=
  d.same Boot.object || d.same Boot.cloneable || d.same Boot.serializable

/-- Whether values of the classes of one form may be used as values of the classes of another. -/
def Form.fits : Form → Form → Bool
  | object v, object d => v.isAssignableTo d
  | primitives _, object d => d.takesArrays
  | array _, object d => d.takesArrays
  | primitives p, primitives q => p = q
  | array f, array g => f.fits g
  | object _, primitives _ => false
  | object _, array _ => false
  | primitives _, array _ => false
  | array _, primitives _ => false

/-- An array takes nothing of fewer levels. -/
lemma Form.dimension_le_of_fits {f g : Form} (h : f.fits g = true) :
    g.dimension ≤ f.dimension := by
  induction f generalizing g with
  | object v => cases g <;> simp_all [fits, dimension]
  | primitives p => cases g <;> simp_all [fits, dimension]
  | array f ih =>
    cases g with
    | object d => exact Nat.zero_le _
    | primitives q => cases h
    | array g => exact Nat.succ_le_succ (ih h)

namespace Area

variable {a : Area}

lemma Tidy.known_boot (h : a.Tidy) {c : Class} (hc : c ∈ Boot.classes) : a.Known c :=
  (h.started c (initial_owned hc)).known

lemma Tidy.same_iff (h : a.Tidy) {c d : Class} (hc : a.Known c) (hd : a.Known d) :
    c.same d = true ↔ c = d := by
  constructor
  · intro hsame
    exact h.identity c d hc hd (Class.same_iff.1 hsame)
  · rintro rfl
    exact c.same_self

/-- The component of an array class is one of the classes there are, and its loader has the array
class. -/
lemma Tidy.component_known (h : a.Tidy) {d : ClassData} {s e : Class} {is : List Class}
    (hc : a.Known (.array d s is e)) : a.Known e ∧ e.loader = d.loader := by
  rcases hc with hc | hstub
  · obtain ⟨hloader, hknown⟩ := h.component _ _ d s is e hc
    exact ⟨hknown, hloader⟩
  · rw [h.core] at hstub
    cases hstub

lemma Tidy.loader_form (h : a.Tidy) {c : Class} (hc : a.Known c) : c.form.loader = c.loader := by
  match c with
  | .root _ => rfl
  | .derived .. => rfl
  | .primitiveArray .. => exact (h.linked_of_known hc).1.symm
  | .array d s is e =>
    obtain ⟨he, hloader⟩ := h.component_known hc
    exact (h.loader_form he).trans hloader

/-- Classes there are of one form are the same class. -/
lemma Tidy.form_inj (h : a.Tidy) {c d : Class} (hc : a.Known c) (hd : a.Known d)
    (hform : c.form = d.form) : c = d := by
  rcases hc with hc | rfl
  · rcases hd with hd | rfl
    · refine hc.eq_of_name hd ?_ ?_
      · rw [← c.name_form, hform, d.name_form]
      · rw [← h.loader_form hc.known, hform, h.loader_form hd.known]
    · rw [h.core] at hform ⊢
      exact Class.eq_of_form_eq_object hform
  · rw [h.core] at hform ⊢
    exact (Class.eq_of_form_eq_object hform.symm).symm

lemma Tidy.not_isInterface_of_isArray (h : a.Tidy) {c : Class} (hc : a.Known c)
    (harray : c.isArray = true) : c.isInterface = false := by
  have hlinked := h.linked_of_known hc
  match c with
  | .root _ => cases harray
  | .derived .. => cases harray
  | .primitiveArray .. => exact hlinked.2.2.2
  | .array .. => exact hlinked.2.2.2

/-- The interfaces of arrays have no superinterfaces, and the top of the hierarchy has none. -/
lemma implements_of_array {v d : Class} (harray : v.isArray = true) (hlinked : v.Linked) :
    v.implements d = (Boot.cloneable.same d || Boot.serializable.same d) := by
  have hobject : Boot.object.implements d = false := rfl
  have hinterfaces : Class.anyImplements Boot.core.arrayInterfaces d =
      (Boot.cloneable.same d || Boot.serializable.same d) := by
    simp only [CoreClasses.arrayInterfaces, Class.anyImplements, Boot.core, Boot.cloneable,
      Boot.serializable, Boot.below, Class.implements, hobject, Bool.or_false]
  match v with
  | .root _ => cases harray
  | .derived .. => cases harray
  | .primitiveArray _ _ _ _ =>
    obtain ⟨-, rfl, rfl, -⟩ := hlinked
    simp only [Class.implements, hinterfaces, hobject, Bool.or_false]
  | .array _ _ _ _ =>
    obtain ⟨-, rfl, rfl, -⟩ := hlinked
    simp only [Class.implements, hinterfaces, hobject, Bool.or_false]

/-- Of the classes that are no arrays, the top of the hierarchy and the two interfaces of arrays
take arrays, and no others do. -/
lemma Tidy.isAssignableTo_of_array (h : a.Tidy) {v d : Class} (hv : a.Known v) (hd : a.Known d)
    (harray : v.isArray = true) (hother : d.isArray = false) :
    v.isAssignableTo d = d.takesArrays := by
  have hne : v.same d = false := by
    rw [Bool.eq_false_iff]
    intro hsame
    rw [(h.same_iff hv hd).1 hsame, hother] at harray
    cases harray
  have hobject : a.Known Boot.object := h.known_boot (by simp [Boot.classes])
  have hcloneable : a.Known Boot.cloneable := h.known_boot (by simp [Boot.classes])
  have hserializable : a.Known Boot.serializable := h.known_boot (by simp [Boot.classes])
  have hdirect : v.isAssignableTo d =
      if d.isInterface then v.implements d else d.superclass?.isNone := by
    cases v with
    | root | derived => cases harray
    | primitiveArray | array =>
      cases d with
      | primitiveArray | array => cases hother
      | root | derived =>
        unfold Class.isAssignableTo
        simp only [hne, Bool.false_or, Class.isArray, if_true, Bool.not_false, Bool.true_and]
  rw [hdirect]
  cases hinterface : d.isInterface with
  | true =>
    have hnot : d.same Boot.object = false := by
      rw [Bool.eq_false_iff]
      intro hsame
      rw [(h.same_iff hd hobject).1 hsame] at hinterface
      cases hinterface
    rw [if_pos rfl, implements_of_array harray (h.linked_of_known hv), Class.takesArrays, hnot,
      Bool.false_or, Class.same_comm d, Class.same_comm d]
  | false =>
    have hnot : ∀ i, a.Known i → i.isInterface = true → d.same i = false := by
      intro i hi htrue
      rw [Bool.eq_false_iff]
      intro hsame
      rw [(h.same_iff hd hi).1 hsame, htrue] at hinterface
      cases hinterface
    rw [if_neg (by simp), Class.takesArrays, hnot _ hcloneable rfl, hnot _ hserializable rfl,
      Bool.or_false, Bool.or_false, Bool.eq_iff_iff, h.same_iff hd hobject]
    constructor
    · intro hnone
      have hlinked := h.linked_of_known hd
      cases d with
      | root => exact hlinked
      | derived => cases hnone
      | primitiveArray | array => cases hother
    · rintro rfl
      rfl

/-- An array over a primitive type takes nothing but itself. -/
lemma Tidy.isAssignableTo_primitiveArray (h : a.Tidy) {v : Class} (hv : a.Known v) {d : ClassData}
    {s : Class} {is : List Class} {q : Primitive} (hd : a.Known (.primitiveArray d s is q)) :
    v.isAssignableTo (.primitiveArray d s is q) = v.form.fits (.primitives q) := by
  have hinterface := h.not_isInterface_of_isArray hd rfl
  have hsame := h.same_iff hv hd
  cases v with
  | primitiveArray d' s' is' p =>
    have hform : p = q ↔ Class.primitiveArray d' s' is' p = Class.primitiveArray d s is q := by
      constructor
      · rintro rfl
        exact h.form_inj hv hd rfl
      · intro heq
        cases heq
        rfl
    rw [Bool.eq_iff_iff]
    unfold Class.isAssignableTo
    simp only [hinterface, Class.isArray, Class.form, Form.fits, Bool.or_eq_true,
      Bool.false_eq_true, if_true, if_false, Bool.not_true, Bool.false_and, or_false, hsame,
      decide_eq_true_eq, hform]
  | root | derived | array =>
    have hne := Bool.eq_false_iff.2 fun heq => Class.noConfusion (hsame.1 heq)
    unfold Class.isAssignableTo
    simp only [hne, hinterface, Class.isArray, Class.form, Form.fits, Bool.false_or,
      Bool.false_eq_true, if_true, if_false, Bool.not_true, Bool.false_and]

/-- An array takes the arrays whose components its component takes. -/
lemma Tidy.isAssignableTo_array (h : a.Tidy) {v : Class} (hv : a.Known v) {d : ClassData}
    {s : Class} {is : List Class} {e : Class} (hd : a.Known (.array d s is e))
    (hcomponent : ∀ d' s' is' x, v = .array d' s' is' x → x.isAssignableTo e = x.form.fits e.form) :
    v.isAssignableTo (.array d s is e) = v.form.fits (.array e.form) := by
  have hinterface := h.not_isInterface_of_isArray hd rfl
  have hsame := h.same_iff hv hd
  cases v with
  | root | derived | primitiveArray =>
    have hne := Bool.eq_false_iff.2 fun heq => Class.noConfusion (hsame.1 heq)
    unfold Class.isAssignableTo
    simp only [hne, hinterface, Class.isArray, Class.form, Form.fits, Bool.false_or,
      Bool.false_eq_true, if_true, if_false, Bool.not_true, Bool.false_and]
  | array d' s' is' x =>
    have hcomponents := hcomponent d' s' is' x rfl
    unfold Class.isAssignableTo
    simp only [hinterface, Class.form, Form.fits, Bool.false_eq_true, if_false, hcomponents]
    rw [Bool.or_eq_right_iff_imp]
    intro heq
    cases hsame.1 heq
    rw [← hcomponents, Class.isAssignableTo_self]

/-- Assignability of classes is a matter of their forms. -/
lemma Tidy.isAssignableTo_eq_fits (h : a.Tidy) {v d : Class} (hv : a.Known v) (hd : a.Known d) :
    v.isAssignableTo d = v.form.fits d.form := by
  cases d with
  | root | derived =>
    by_cases harray : v.isArray = true
    · rw [h.isAssignableTo_of_array hv hd harray rfl]
      cases v with
      | root | derived => cases harray
      | primitiveArray | array => rfl
    · rw [Class.form_of_not_isArray (by simpa using harray)]
      rfl
  | primitiveArray => exact h.isAssignableTo_primitiveArray hv hd
  | array d₂ s₂ is₂ e₂ =>
    refine h.isAssignableTo_array hv hd ?_
    rintro d₁ s₁ is₁ e₁ rfl
    exact h.isAssignableTo_eq_fits (h.component_known hv).1 (h.component_known hd).1

end Area

end Linkage
