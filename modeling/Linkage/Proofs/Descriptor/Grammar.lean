import Linkage.Descriptor.Parser
import Mathlib.Data.List.TakeWhile

/-!
# The grammar of descriptors

A type is well formed if every class name in it may stand inside a descriptor; the absence of a
value is no type, so only a return type can be spelt `V`. What can be read off the front of a text
is exactly a well-formed type, what stands before the rest is exactly its spelling, and so no text
can be split in two ways.
-/

namespace Linkage

/-- A name that may stand inside a descriptor: it is not empty and nothing in it ends a name. -/
def IsDescriptorName (name : String) : Prop :=
  name ≠ "" ∧ ∀ c ∈ name.toList, isNameEnd c = false

-- Only the characters of the name are looked at, not every character there is.
instance (name : String) : Decidable (IsDescriptorName name) :=
  @instDecidableAnd _ _ _ (List.decidableBAll (fun c => isNameEnd c = false) name.toList)

namespace FieldType

/-- A type in which every class name may stand inside a descriptor. -/
def WellFormed : FieldType → Prop
  | primitive _ => True
  | object name => IsDescriptorName name
  | array component => component.WellFormed

/-- Whether a type is well formed can be decided by looking at the one name in it. -/
def decideWellFormed : (t : FieldType) → Decidable t.WellFormed
  | primitive _ => instDecidableTrue
  | object name => inferInstanceAs (Decidable (IsDescriptorName name))
  | array component => component.decideWellFormed

instance : DecidablePred WellFormed :=
  decideWellFormed

@[simp]
lemma wellFormed_primitive (p : Primitive) : (primitive p).WellFormed :=
  trivial

@[simp]
lemma wellFormed_object {name : String} : (object name).WellFormed ↔ IsDescriptorName name :=
  Iff.rfl

@[simp]
lemma wellFormed_array {t : FieldType} : (array t).WellFormed ↔ t.WellFormed :=
  Iff.rfl

lemma WellFormed.of_elementClassName? {t : FieldType} (h : t.WellFormed) {name : String}
    (hname : t.elementClassName? = some name) : IsDescriptorName name := by
  induction t with
  | primitive => simp [elementClassName?] at hname
  | object n =>
    obtain rfl : n = name := by simpa [elementClassName?] using hname
    exact h
  | array t ih => exact ih h hname

/-! ### One type -/

/-- A name is read up to the first character that ends it, which has to be a `;`. -/
lemma readName_eq_some {cs rest : List Char} {t : FieldType} :
    readName cs = some (t, rest) ↔
      ∃ name, IsDescriptorName name ∧ t = object name ∧ cs = name.toList ++ ';' :: rest := by
  constructor
  · intro h
    have hsplit := List.takeWhile_append_dropWhile (p := fun c => !isNameEnd c) (l := cs)
    have hall : ∀ c ∈ cs.takeWhile (fun c => !isNameEnd c), isNameEnd c = false :=
      fun c hc => by simpa using List.mem_takeWhile_imp hc
    rw [readName] at h
    generalize cs.takeWhile (fun c => !isNameEnd c) = name at h hsplit hall
    generalize cs.dropWhile (fun c => !isNameEnd c) = tail at h hsplit
    split at h
    · cases h
    · next rest' hne =>
      cases h
      refine ⟨String.ofList name, ⟨?_, by simpa using hall⟩, rfl, ?_⟩
      · intro hempty
        exact hne (by simpa using congrArg String.toList hempty)
      · rw [String.toList_ofList, hsplit]
    · cases h
  · rintro ⟨name, ⟨hne, hname⟩, rfl, rfl⟩
    have hall : ∀ c ∈ name.toList, (!isNameEnd c) = true := fun c hc => by simp [hname c hc]
    have hstop : isNameEnd ';' = true := by decide
    rw [readName, List.takeWhile_append_of_pos hall, List.dropWhile_append_of_pos hall]
    simp only [List.takeWhile_cons, List.dropWhile_cons, hstop, Bool.not_true, Bool.false_eq_true,
      if_false, List.append_nil]
    have hnil : name.toList ≠ [] := fun h => hne (String.toList_inj.mp h)
    generalize hcs : name.toList = ns at hnil
    cases ns with
    | nil => exact absurd rfl hnil
    | cons c ns =>
      show some (object (String.ofList (c :: ns)), rest) = some (object name, rest)
      rw [← hcs, String.ofList_toList]

/-- A primitive type takes up its letter. -/
lemma read_letter (p : Primitive) (rest : List Char) :
    read (p.letter :: rest) = some (primitive p, rest) := by
  cases p <;> rfl

/-- A type is read off the front of a text exactly if it is well formed and spelt there. -/
lemma read_eq_some {cs rest : List Char} {t : FieldType} :
    read cs = some (t, rest) ↔ t.WellFormed ∧ cs = t.chars ++ rest := by
  constructor
  · intro h
    induction cs using read.induct generalizing t with
    | case1 => cases h
    | case2 cs ih =>
      simp only [read, Option.map_eq_some_iff] at h
      obtain ⟨⟨t', rest'⟩, hread, heq⟩ := h
      cases heq
      obtain ⟨ht, rfl⟩ := ih hread
      exact ⟨ht, rfl⟩
    | case3 cs =>
      obtain ⟨name, hname, rfl, rfl⟩ := readName_eq_some.mp h
      exact ⟨hname, by simp [chars]⟩
    | case4 c cs hbracket hl =>
      rw [read.eq_4 c cs hbracket hl, Option.map_eq_some_iff] at h
      obtain ⟨p, hp, heq⟩ := h
      cases heq
      exact ⟨trivial, by simp [chars, Primitive.letter_of_ofLetter? hp]⟩
  · rintro ⟨ht, rfl⟩
    induction t with
    | primitive p => exact read_letter p rest
    | object name => exact readName_eq_some.mpr ⟨name, ht, rfl, by simp⟩
    | array t ih => simp [chars, read, ih ht]

/-- Nothing is read where no type starts. -/
lemma read_close (cs : List Char) : read (')' :: cs) = none :=
  rfl

lemma read_void (cs : List Char) : read ('V' :: cs) = none :=
  rfl

/-- A text that starts with one type starts with no other. -/
lemma WellFormed.chars_append_inj {t t' : FieldType} (ht : t.WellFormed) (ht' : t'.WellFormed)
    {rest rest' : List Char} (h : t.chars ++ rest = t'.chars ++ rest') : t = t' ∧ rest = rest' := by
  have hread : read (t'.chars ++ rest') = some (t, rest) := read_eq_some.mpr ⟨ht, h.symm⟩
  rw [read_eq_some.mpr ⟨ht', rfl⟩] at hread
  simpa [eq_comm] using hread

/-- A whole text spells a type exactly if the type is well formed and spelt so. -/
lemma parse?_eq_some {s : String} {t : FieldType} :
    parse? s = some t ↔ t.WellFormed ∧ t.text = s := by
  have hread : parse? s = some t ↔ read s.toList = some (t, []) := by
    rw [parse?]
    split
    · next heq => simp [heq]
    · next hno =>
      constructor
      · intro h
        cases h
      · intro h
        exact absurd h (hno t)
  rw [hread, read_eq_some, List.append_nil, ← toList_text, String.toList_inj, eq_comm (a := s)]

/-! ### Several types -/

lemma readAll_of_none {cs : List Char} (h : read cs = none) : readAll cs = ([], cs) := by
  rw [readAll]
  split <;> simp_all

lemma readAll_of_some {cs rest : List Char} {t : FieldType} (h : read cs = some (t, rest)) :
    readAll cs = (t :: (readAll rest).1, (readAll rest).2) := by
  rw [readAll]
  split <;> simp_all

/-- The types in front of a text are read until none follows. -/
lemma readAll_eq {cs rest : List Char} {ts : List FieldType} :
    readAll cs = (ts, rest) ↔
      (∀ t ∈ ts, t.WellFormed) ∧ cs = ts.flatMap chars ++ rest ∧ read rest = none := by
  induction cs using readAll.induct generalizing ts with
  | case1 cs hnone =>
    rw [readAll_of_none hnone]
    constructor
    · intro h
      cases h
      exact ⟨by simp, by simp, hnone⟩
    · rintro ⟨hts, rfl, -⟩
      cases ts with
      | nil => rfl
      | cons t ts =>
        have hread : read (t.chars ++ (ts.flatMap chars ++ rest)) = some (t, _) :=
          read_eq_some.mpr ⟨hts t List.mem_cons_self, rfl⟩
        simp [List.flatMap_cons, hread] at hnone
  | case2 cs t rest' hread hlt ih =>
    rw [readAll_of_some hread]
    obtain ⟨ht, rfl⟩ := read_eq_some.mp hread
    constructor
    · intro h
      cases h
      obtain ⟨hts, heq, hstop⟩ := ih.mp rfl
      refine ⟨List.forall_mem_cons.mpr ⟨ht, hts⟩, ?_, hstop⟩
      rw [List.flatMap_cons, List.append_assoc, ← heq]
    · rintro ⟨hts, heq, hstop⟩
      cases ts with
      | nil =>
        rw [List.flatMap_nil, List.nil_append] at heq
        rw [heq, hstop] at hread
        cases hread
      | cons t₁ ts =>
        rw [List.flatMap_cons, List.append_assoc] at heq
        obtain ⟨rfl, hrest⟩ := ht.chars_append_inj (hts t₁ List.mem_cons_self) heq
        rw [ih.mpr ⟨fun u hu => hts u (List.mem_cons_of_mem _ hu), hrest, hstop⟩]

end FieldType

namespace ReturnType

/-- Nothing is returned, or a value of a well-formed type. -/
def WellFormed : ReturnType → Prop
  | void => True
  | value t => t.WellFormed

instance : DecidablePred WellFormed
  | void => instDecidableTrue
  | value t => inferInstanceAs (Decidable t.WellFormed)

/-- A return type is read off the front of a text exactly if it is well formed and spelt there. -/
lemma read_eq_some {cs rest : List Char} {r : ReturnType} :
    read cs = some (r, rest) ↔ r.WellFormed ∧ cs = r.chars ++ rest := by
  have hvalue : ∀ cs : List Char, (FieldType.read cs).map (fun x => (value x.1, x.2)) =
      some (r, rest) ↔ ∃ t, r = value t ∧ t.WellFormed ∧ cs = t.chars ++ rest := by
    intro cs
    simp only [Option.map_eq_some_iff, Prod.exists, FieldType.read_eq_some, Prod.mk.injEq]
    constructor
    · rintro ⟨t, rest', h, rfl, rfl⟩
      exact ⟨t, rfl, h⟩
    · rintro ⟨t, rfl, h⟩
      exact ⟨t, rest, h, rfl, rfl⟩
  rw [read.eq_def]
  split
  · next cs =>
    cases r with
    | void => simp [WellFormed, chars, eq_comm]
    | value t =>
      -- no type starts with the letter that stands for no value
      have hno : ¬('V' :: cs = t.chars ++ rest ∧ t.WellFormed) := by
        rintro ⟨heq, ht⟩
        have hread := FieldType.read_eq_some.mpr ⟨ht, heq⟩
        rw [FieldType.read_void] at hread
        cases hread
      constructor
      · intro h
        cases h
      · intro h
        exact absurd h.symm hno
  · next cs hv =>
    rw [hvalue]
    cases r with
    | void =>
      constructor
      · rintro ⟨t, h, -⟩
        cases h
      · rintro ⟨-, h⟩
        exact absurd h (hv rest)
    | value t => simp [WellFormed, chars]

end ReturnType

namespace MethodDescriptor

/-- A method descriptor whose types are all well formed. -/
def WellFormed (d : MethodDescriptor) : Prop :=
  (∀ t ∈ d.parameters, t.WellFormed) ∧ d.result.WellFormed

instance : DecidablePred WellFormed :=
  fun _ => inferInstanceAs (Decidable (_ ∧ _))

lemma WellFormed.of_mem_types {d : MethodDescriptor} (h : d.WellFormed) {t : FieldType}
    (ht : t ∈ d.types) : t.WellFormed := by
  rcases List.mem_append.mp ht with hp | hr
  · exact h.1 t hp
  · obtain ⟨ps, r⟩ := d
    cases r with
    | void => simp [ReturnType.type?] at hr
    | value u =>
      obtain rfl : t = u := by simpa [ReturnType.type?] using hr
      exact h.2

/-- A whole text spells a method descriptor exactly if it is well formed and spelt so. -/
lemma parseChars?_eq_some {cs : List Char} {d : MethodDescriptor} :
    parseChars? cs = some d ↔ d.WellFormed ∧ cs = d.chars := by
  constructor
  · intro h
    unfold parseChars? at h
    split at h
    · next cs =>
      split at h
      · next parameters rest hall =>
        split at h
        · next result hresult =>
          cases h
          obtain ⟨hps, rfl, -⟩ := FieldType.readAll_eq.mp hall
          obtain ⟨hr, rfl⟩ := ReturnType.read_eq_some.mp hresult
          exact ⟨⟨hps, hr⟩, by simp [chars]⟩
        · cases h
      · cases h
    · cases h
  · rintro ⟨⟨hps, hr⟩, rfl⟩
    have hall := FieldType.readAll_eq.mpr
      ⟨hps, rfl, FieldType.read_close d.result.chars⟩
    have hresult := ReturnType.read_eq_some.mpr ⟨hr, (List.append_nil d.result.chars).symm⟩
    simp [chars, parseChars?, hall, hresult]

lemma parse?_eq_some {s : String} {d : MethodDescriptor} :
    parse? s = some d ↔ d.WellFormed ∧ d.text = s := by
  rw [parse?, parseChars?_eq_some, text, ← String.toList_inj, String.toList_ofList,
    eq_comm (a := s.toList)]

end MethodDescriptor

end Linkage
