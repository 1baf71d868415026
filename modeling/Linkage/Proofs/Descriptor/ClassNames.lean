import Linkage.Proofs.Area.Change
import Linkage.Proofs.Descriptor.Grammar

/-!
# Types by class name and by descriptor

A reference type is written in two ways: as a descriptor, and as the name a loader knows its class
by. Array types look the same in both, so only object types can be read differently. In a descriptor
the name of an object type may not hold a parenthesis, and as a class name it may not start with a
`[`; apart from these two the readers accept the same types.
-/

namespace Linkage

namespace FieldType

/-- A name that stands for an object type: it is not empty, it is not the name of an array, and
nothing in it closes a name inside a descriptor. -/
def IsObjectName (name : String) : Prop :=
  name ≠ "" ∧ IsPlain name ∧ ';' ∉ name.toList

instance (name : String) : Decidable (IsObjectName name) :=
  inferInstanceAs (Decidable (_ ∧ _))

/-- A type whose class name is read as this type again. -/
def HasReadableName : FieldType → Prop
  | primitive _ => False
  | object name => IsObjectName name
  | array component => component.WellFormed

/-! ### Reading class names -/

lemma not_isPlain_text_array (t : FieldType) : ¬ IsPlain (array t).text := by
  simp [IsPlain, chars]

/-- The descriptor of a type starts with a `[` only if the type is an array type. -/
lemma exists_array_of_not_isPlain_text {t : FieldType} (h : ¬ IsPlain t.text) :
    ∃ component, t = array component := by
  cases t with
  | primitive p => cases p <;> simp [IsPlain, chars, Primitive.letter] at h
  | object name => simp [IsPlain, chars] at h
  | array component => exact ⟨component, rfl⟩

/-- The names of arrays are read as descriptors. -/
lemma ofClassName?_of_not_isPlain {name : String} (h : ¬ IsPlain name) :
    ofClassName? name = parse? name := by
  obtain ⟨cs, hcs⟩ : ∃ cs, name.toList = '[' :: cs := by
    simpa [IsPlain, List.head?_eq_some_iff] using h
  simp [ofClassName?, hcs]

/-- Any other name is read as an object type, if at all. -/
lemma ofClassName?_of_isPlain {name : String} (h : IsPlain name) :
    ofClassName? name = if IsObjectName name then some (object name) else none := by
  unfold ofClassName?
  split
  · next hnil => simp [IsObjectName, String.toList_eq_nil_iff.mp hnil]
  · next cs hcs => exact absurd (by rw [hcs, List.head?_cons]) h
  · next hcons _ =>
    have hne : name ≠ "" := fun hempty => hcons (by rw [hempty, String.toList_empty])
    by_cases hclose : ';' ∈ name.toList <;> simp [IsObjectName, hne, h, hclose]

/-- A class name is read as a type exactly if it is the name of this type and would not be read as
another one. -/
lemma ofClassName?_eq_some {name : String} {t : FieldType} :
    ofClassName? name = some t ↔ t.HasReadableName ∧ t.className? = some name := by
  by_cases hname : IsPlain name
  · rw [ofClassName?_of_isPlain hname]
    cases t with
    | primitive p => simp [HasReadableName]
    | object n =>
      simp only [Option.ite_none_right_eq_some, Option.some.injEq, object.injEq, HasReadableName,
        className?]
      constructor
      · rintro ⟨hn, rfl⟩
        exact ⟨hn, rfl⟩
      · rintro ⟨hn, rfl⟩
        exact ⟨hn, rfl⟩
    | array t =>
      have hne : (array t).text ≠ name := fun h => not_isPlain_text_array t (h ▸ hname)
      simp [className?, hne]
  · rw [ofClassName?_of_not_isPlain hname, parse?_eq_some]
    cases t with
    | primitive p =>
      simp only [HasReadableName, false_and, iff_false, not_and]
      rintro - rfl
      obtain ⟨component, h⟩ := exists_array_of_not_isPlain_text hname
      cases h
    | object n =>
      constructor
      · rintro ⟨-, rfl⟩
        obtain ⟨component, h⟩ := exists_array_of_not_isPlain_text hname
        cases h
      · rintro ⟨hn, heq⟩
        cases heq
        exact absurd hn.2.1 hname
    | array t => simp [HasReadableName, className?]

/-! ### Both ways of writing a type -/

/-- Different types have different descriptors, also where these cannot be read. -/
lemma chars_inj {t u : FieldType} (h : t.chars = u.chars) : t = u := by
  induction t generalizing u with
  | primitive p =>
    cases u with
    | primitive q =>
      have hletter : p.letter = q.letter := by simpa [chars] using h
      simpa using congrArg Primitive.ofLetter? hletter
    | object n => cases p <;> simp [chars, Primitive.letter] at h
    | array u => cases p <;> simp [chars, Primitive.letter] at h
  | object n =>
    cases u with
    | primitive q => cases q <;> simp [chars, Primitive.letter] at h
    | object m =>
      have hname : n.toList = m.toList := by simpa [chars] using h
      rw [String.toList_inj.mp hname]
    | array u => simp [chars] at h
  | array t ih =>
    cases u with
    | primitive q => cases q <;> simp [chars, Primitive.letter] at h
    | object m => simp [chars] at h
    | array u =>
      rw [ih (by simpa [chars] using h)]

/-- A type that a descriptor spells has a readable name as well, unless it is an object type whose
name is that of an array. -/
lemma WellFormed.hasReadableName_iff {t : FieldType} (h : t.WellFormed)
    (href : t.isReference = true) :
    t.HasReadableName ↔ ∀ name, t = object name → IsPlain name := by
  cases t with
  | primitive p => simp [isReference] at href
  | object name =>
    have hclose : ';' ∉ name.toList := fun hmem => absurd (h.2 ';' hmem) (by decide)
    simp [HasReadableName, IsObjectName, h.1, hclose]
  | array t => simpa [HasReadableName] using h

/-- A type with a readable name is spelt by a descriptor as well, unless it is an object type with a
parenthesis in its name. -/
lemma HasReadableName.wellFormed_iff {t : FieldType} (h : t.HasReadableName) :
    t.WellFormed ↔ ∀ name, t = object name → '(' ∉ name.toList ∧ ')' ∉ name.toList := by
  cases t with
  | primitive p => simp
  | object name =>
    obtain ⟨hne, -, hclose⟩ := h
    simp only [wellFormed_object, IsDescriptorName, object.injEq, forall_eq']
    constructor
    · rintro ⟨-, hall⟩
      exact ⟨fun hmem => absurd (hall '(' hmem) (by decide),
        fun hmem => absurd (hall ')' hmem) (by decide)⟩
    · rintro ⟨hopen, hshut⟩
      refine ⟨hne, fun c hc => ?_⟩
      have h₁ : c ≠ ';' := fun heq => hclose (heq ▸ hc)
      have h₂ : c ≠ '(' := fun heq => hopen (heq ▸ hc)
      have h₃ : c ≠ ')' := fun heq => hshut (heq ▸ hc)
      simp [isNameEnd, h₁, h₂, h₃]
  | array t => simpa [HasReadableName] using h

lemma exists_className? {t : FieldType} (href : t.isReference = true) :
    ∃ name, t.className? = some name := by
  cases t with
  | primitive p => simp [isReference] at href
  | object name => exact ⟨name, rfl⟩
  | array t => exact ⟨_, rfl⟩

/-- A reference type that is read from a descriptor is read from its class name as well, unless it
is an object type with the name of an array, and this name is then read as a descriptor. A type that
is read from a class name has this class name and is read from its descriptor as well, unless it is
an object type with a parenthesis in its name, and nothing is then read. -/
theorem types_by_class_name_and_descriptor (t : FieldType) :
    (∀ s, parse? s = some t → t.isReference = true →
      ∃ name, t.className? = some name ∧
        (ofClassName? name = some t ↔ ∀ n, t = object n → IsPlain n) ∧
        (ofClassName? name ≠ some t → ofClassName? name = parse? name)) ∧
    ∀ name, ofClassName? name = some t →
      t.className? = some name ∧
        (parse? t.text = some t ↔ ∀ n, t = object n → '(' ∉ n.toList ∧ ')' ∉ n.toList) ∧
        (parse? t.text ≠ some t → parse? t.text = none) := by
  constructor
  · intro s hs href
    have hwell : t.WellFormed := (parse?_eq_some.mp hs).1
    obtain ⟨name, hname⟩ := exists_className? href
    have hagain : ofClassName? name = some t ↔ ∀ n, t = object n → IsPlain n := by
      rw [ofClassName?_eq_some, and_iff_left hname, hwell.hasReadableName_iff href]
    refine ⟨name, hname, hagain, fun hlost => ofClassName?_of_not_isPlain fun hplain => ?_⟩
    refine hlost (hagain.mpr ?_)
    rintro n rfl
    cases hname
    exact hplain
  · intro name hname
    obtain ⟨hread, hclass⟩ := ofClassName?_eq_some.mp hname
    have hagain : parse? t.text = some t ↔ t.WellFormed := by rw [parse?_eq_some, and_iff_left rfl]
    refine ⟨hclass, hagain.trans hread.wellFormed_iff, fun hlost => ?_⟩
    by_contra hsome
    obtain ⟨u, hu⟩ := Option.ne_none_iff_exists'.mp hsome
    have htext : u.text = t.text := (parse?_eq_some.mp hu).2
    have hut : u = t := chars_inj (by simpa using congrArg String.toList htext)
    exact hlost (hut ▸ hu)

/-- The descriptor of an array and the class name of an object type are read in the other way as
well. -/
theorem types_of_string_arrays :
    (∃ name, (array (object "java/lang/String")).className? = some name ∧
      ofClassName? name = some (array (object "java/lang/String"))) ∧
    parse? (object "java/lang/String").text = some (object "java/lang/String") := by
  obtain ⟨hdescriptor, -⟩ :=
    types_by_class_name_and_descriptor (array (object "java/lang/String"))
  obtain ⟨-, hname⟩ := types_by_class_name_and_descriptor (object "java/lang/String")
  obtain ⟨name, hclass, hread, -⟩ := hdescriptor "[Ljava/lang/String;" (by decide) rfl
  obtain ⟨-, hparse, -⟩ := hname "java/lang/String" (by decide)
  refine ⟨⟨name, hclass, hread.mpr (by simp)⟩, hparse.mpr ?_⟩
  rintro n h
  cases h
  decide

/-- The object type that is called like the arrays of integers is lost: its class name is read as
the type of these arrays. -/
theorem type_lost_in_class_name :
    ¬ ((∀ s t, parse? s = some t → t.isReference = true →
        ∃ name, t.className? = some name ∧ ofClassName? name = some t) ∧
      ∀ name t, ofClassName? name = some t →
        t.className? = some name ∧ parse? t.text = some t) := by
  rintro ⟨hdescriptor, -⟩
  obtain ⟨name, hclass, hread⟩ := hdescriptor "L[I;" (object "[I") (by decide) rfl
  cases hclass
  exact absurd hread (by decide)

end FieldType

end Linkage
