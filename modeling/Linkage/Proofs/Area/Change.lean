import Linkage.Area.Boot
import Linkage.Area.Load
import Linkage.Proofs.Constraints
import Linkage.Proofs.Outcome

/-!
# Changes of the class area

`Area.Step` lists every change that the operations on the class area are made of. What holds of
every area that is reached is shown step by step: tables are keyed by the names of what they hold,
loaders are numbered from 0 on, and classes that a loader has it keeps.
-/

namespace Linkage

open Relation

namespace Table

variable {κ υ : Type} [DecidableEq κ]

lemma size_insert (t : Table κ υ) (k : κ) (v : υ) :
    (t.insert k v).size = if (t.get? k).isSome then t.size else t.size + 1 := by
  obtain ⟨es⟩ := t
  simp only [size, insert, get?]
  induction es with
  | nil => simp [insertEntry, firstValue?]
  | cons e es ih =>
    by_cases he : e.1 = k
    · simp [insertEntry, firstValue?, he]
    · simp only [insertEntry, firstValue?, he, if_false, List.length_cons, ih]
      by_cases h : (firstValue? k es).isSome <;> simp [h]

lemma size_modify (t : Table κ υ) (k : κ) (f : υ → υ) : (t.modify k f).size = t.size := by
  unfold modify
  split
  · next v hv => simp [size_insert, hv]
  · rfl

lemma get?_insertNew (t : Table κ υ) (k k' : κ) (v : υ) :
    (t.insertNew k v).get? k' = if k = k' then (t.get? k').or (some v) else t.get? k' := by
  unfold insertNew contains
  by_cases h : k = k'
  · subst h
    cases hk : t.get? k <;> simp [hk]
  · split <;> simp [h]

end Table

/-! ### Names -/

/-- Whether a name can be the name of a class that is no array. -/
def IsPlain (name : String) : Prop := name.toList.head? ≠ some '['

instance (name : String) : Decidable (IsPlain name) :=
  inferInstanceAs (Decidable (name.toList.head? ≠ some '['))

lemma isPlain_ofList {cs : List Char} : IsPlain (String.ofList cs) ↔ cs.head? ≠ some '[' := by
  rw [IsPlain, String.toList_ofList]

lemma not_isPlain_bracket (cs : List Char) : ¬ IsPlain (String.ofList ('[' :: cs)) :=
  fun h => isPlain_ofList.1 h rfl

/-- Where names are taken apart, what is left without a bracket is no array. -/
lemma isPlain_of_forall {cs : List Char} (h : ∀ rest, cs = '[' :: rest → False) :
    IsPlain (String.ofList cs) := by
  rw [isPlain_ofList, ne_eq, List.head?_eq_some_iff, not_exists]
  exact h

lemma unwrapObject?_object (cs : List Char) : unwrapObject? ('L' :: (cs ++ [';'])) = some cs := by
  simp [unwrapObject?]

lemma Spelling.isShort_iff {s : Spelling} : s.isShort = true ↔ s.name.utf8ByteSize = 2 :=
  decide_eq_true_iff

/-- Whether a name has the form of the names of arrays over primitive types: a `[` and one byte. -/
def IsShortArray (name : String) : Prop := ¬ IsPlain name ∧ name.utf8ByteSize = 2

lemma Spelling.ofName_eq_plain {name : String} (h : IsPlain name) : ofName name = .plain name := by
  unfold IsPlain at h
  unfold ofName ofChars
  split
  · next rest hcs => simp [hcs] at h
  · simp

/-- The parts of a spelling that stand for classes that are no arrays have names of such classes. -/
def Spelling.Proper : Spelling → Prop
  | .plain name => IsPlain name
  | .nested _ s => s.Proper
  | .object _ s => s.Proper
  | .unclosed _ => True
  | .bare _ _ => True

lemma Spelling.proper_ofName (name : String) : (ofName name).Proper := by
  unfold ofName
  fun_induction ofChars name.toList with
  | case5 cs h => exact isPlain_of_forall h
  | _ => simp_all [Proper]

/-- The names of array classes have at least two bytes. -/
lemma Class.two_le_of_isArray {c : Class} (h : c.isArray = true) : 2 ≤ c.name.utf8ByteSize := by
  match c with
  | .root _ => cases h
  | .derived .. => cases h
  | .primitiveArray _ _ _ p =>
    change 2 ≤ p.arrayName.utf8ByteSize
    cases p <;> decide
  | .array _ _ _ c =>
    unfold name
    split
    · next hc =>
      have := two_le_of_isArray hc
      simp only [String.utf8ByteSize_append]
      omega
    · simp only [String.utf8ByteSize_append]
      have : "[L".utf8ByteSize = 2 := by decide
      omega

lemma Class.not_isPlain_array (d : ClassData) (s : Class) (is : List Class) (c : Class) :
    ¬ IsPlain (Class.array d s is c).name := by
  unfold IsPlain name
  split <;> simp

lemma Class.not_isShortArray_array (d : ClassData) (s : Class) (is : List Class) (c : Class) :
    ¬ IsShortArray (Class.array d s is c).name := by
  rintro ⟨-, hsize⟩
  unfold name at hsize
  split at hsize
  · next hc =>
    have := two_le_of_isArray hc
    have : "[".utf8ByteSize = 1 := by decide
    simp only [String.utf8ByteSize_append] at hsize
    omega
  · have : "[L".utf8ByteSize = 2 := by decide
    have : ";".utf8ByteSize = 1 := by decide
    simp only [String.utf8ByteSize_append] at hsize
    omega

/-! ### Steps -/

namespace Area

/-- The area when a loader has got a class, unless it had one of that name. -/
def withClass (a : Area) (l : LoaderId) (c : Class) : Area :=
  { a with loaders := a.loaders.modify l fun data =>
      { data with loaded := data.loaded.insertNew c.name c } }

/-- The loader that defined a class has it under its name. -/
def Owned (a : Area) (c : Class) : Prop := a.published? c.loader c.name = some c

/-- The class is in the table of some loader. -/
def Published (a : Area) (c : Class) : Prop := ∃ l n, a.published? l n = some c

/-- The changes that making array classes comes with. -/
inductive ArrayStep : Area → Area → Prop where
  /-- An identity is taken. -/
  | identity (a : Area) : ArrayStep a { a with nextId := a.nextId + 1 }
  /-- The loader of a component gets an array class over it. -/
  | array (a : Area) (d : ClassData) (s : Class) (is : List Class) (component : Class) :
      ArrayStep a (a.withClass component.loader (.array d s is component))

/-- The changes that the operations on the class area are made of. -/
inductive Step : Area → Area → Prop where
  /-- An array class is made, or an identity is taken. -/
  | array {a b : Area} (h : ArrayStep a b) : Step a b
  /-- A definition begins. -/
  | enter (a : Area) (l : LoaderId) (name : String) :
      Step a { a with defining := (l, name) :: a.defining }
  /-- A definition ends, well or not. -/
  | leave (a : Area) (l : LoaderId) (name : String) :
      Step a { a with defining := a.defining.erase (l, name) }
  /-- A definition is counted. -/
  | counted (a : Area) : Step a { a with loads := a.loads + 1 }
  /-- A loader gets a class that the constraints let it have. -/
  | record {a : Area} {l : LoaderId} {c : Class} {t : Constraints} (plain : IsPlain c.name)
      (accepted : a.constraints.accept l c = .ok t) :
      Step a { a.withClass l c with constraints := t }
  /-- The constraints let a loader have a class that it does not get. -/
  | accept {a : Area} {l : LoaderId} {c : Class} {t : Constraints}
      (accepted : a.constraints.accept l c = .ok t) : Step a { a with constraints := t }
  /-- Two loaders are made to agree. What is found of plain names is what the loaders have. -/
  | constrain {a : Area} {name : String} {x y : LoaderId} {found : LoaderId → Option Class}
      {changed : Bool} {t : Constraints}
      (found_eq : IsPlain name → ∀ z, z = x ∨ z = y → a.constraints.bound? name z = none →
        found z = a.published? z name)
      (added : a.constraints.add name x y found = .ok (changed, t)) :
      Step a { a with constraints := t }
  /-- A class goes on from one phase to the next. -/
  | phase {a : Area} {c : Class} {p : Phase}
      (next : a.phase c = .linked ∧ p = .initializing ∨
        a.phase c = .initializing ∧ (p = .initialized ∨ p = .erroneous)) :
      Step a (a.setPhase c p)
  /-- A loader is added. -/
  | addLoader (a : Area) (parent : LoaderId) (childFirst : Bool) :
      Step a (a.addLoader parent childFirst).2
  /-- A class is made known to a loader. -/
  | define (a : Area) (l : LoaderId) (d : Definition) : Step a (a.define l d)

variable {a b : Area}

@[simp] lemma withClass_constraints (l : LoaderId) (c : Class) :
    (a.withClass l c).constraints = a.constraints := rfl

@[simp] lemma define_constraints (l : LoaderId) (d : Definition) :
    (a.define l d).constraints = a.constraints := rfl

lemma get?_withClass (l l' : LoaderId) (c : Class) :
    (a.withClass l c).loaders.get? l' = if l = l' then
      (a.loaders.get? l').map fun data => { data with loaded := data.loaded.insertNew c.name c }
    else a.loaders.get? l' := by
  simp [withClass]

lemma published?_withClass (l l' : LoaderId) (c : Class) (n : String) :
    (a.withClass l c).published? l' n =
      if l = l' ∧ c.name = n ∧ (a.loaders.get? l).isSome then (a.published? l' n).or (some c)
      else a.published? l' n := by
  unfold published?
  rw [get?_withClass]
  by_cases hl : l = l'
  · subst hl
    cases hd : a.loaders.get? l with
    | none => simp
    | some data => simp [Table.get?_insertNew]
  · simp [hl]

lemma published?_define (l l' : LoaderId) (d : Definition) (n : String) :
    (a.define l d).published? l' n = a.published? l' n := by
  simp only [published?, define, Table.get?_modify]
  split
  · cases a.loaders.get? l' <;> rfl
  · rfl

lemma published?_addLoader (parent : LoaderId) (childFirst : Bool) (l : LoaderId) (n : String) :
    (a.addLoader parent childFirst).2.published? l n =
      if l = ⟨a.loaders.size⟩ then none else a.published? l n := by
  by_cases hl : l = ⟨a.loaders.size⟩
  · subst hl
    rw [if_pos rfl]
    simp only [published?, addLoader, Table.get?_insert_self]
    rfl
  · simp [published?, addLoader, Ne.symm hl, hl]

/-! ### What always holds -/

/-- The tables of an area fit together. -/
structure Sound (a : Area) : Prop where
  /-- Loaders are numbered from 0 on. -/
  numbered : ∀ l, (a.loaders.get? l).isSome = true ↔ l.number < a.loaders.size
  /-- Classes are found under their names. -/
  keyed : ∀ l n c, a.published? l n = some c → c.name = n
  /-- Definitions are found under their names. -/
  defined : ∀ l data n d, a.loaders.get? l = some data → data.definitions.get? n = some d →
    d.name = n
  /-- The names of array classes have at least two bytes. -/
  named : ∀ l n c, a.published? l n = some c → IsPlain n ∨ 2 ≤ n.utf8ByteSize

/-- A class that is published was so before, or it is the one that is new. -/
lemma published?_withClass_cases {l l' : LoaderId} {c d : Class} {n : String}
    (h : (a.withClass l c).published? l' n = some d) :
    a.published? l' n = some d ∨ l = l' ∧ c.name = n ∧ c = d := by
  rw [published?_withClass] at h
  split at h
  · next hcond =>
    cases hp : a.published? l' n with
    | none =>
      rw [hp] at h
      cases h
      exact .inr ⟨hcond.1, hcond.2.1, rfl⟩
    | some e =>
      rw [hp] at h
      cases h
      exact .inl rfl
  · exact .inl h

lemma Sound.withClass (h : a.Sound) (l : LoaderId) {c : Class}
    (hc : IsPlain c.name ∨ 2 ≤ c.name.utf8ByteSize) : (a.withClass l c).Sound where
  numbered l' := by
    rw [get?_withClass]
    have hsize : (a.withClass l c).loaders.size = a.loaders.size := Table.size_modify ..
    rw [hsize, ← h.numbered l']
    split <;> simp
  keyed l' n d hd := by
    rcases published?_withClass_cases hd with hd | ⟨-, hname, rfl⟩
    · exact h.keyed l' n d hd
    · exact hname
  named l' n d hd := by
    rcases published?_withClass_cases hd with hd | ⟨-, rfl, -⟩
    · exact h.named l' n d hd
    · exact hc
  defined l' data n d hdata hd := by
    rw [get?_withClass] at hdata
    split at hdata
    · obtain ⟨data', hdata', rfl⟩ := Option.map_eq_some_iff.1 hdata
      exact h.defined l' data' n d hdata' hd
    · exact h.defined l' data n d hdata hd

lemma Sound.addLoader (h : a.Sound) (parent : LoaderId) (childFirst : Bool) :
    (a.addLoader parent childFirst).2.Sound := by
  have hnew : a.loaders.get? ⟨a.loaders.size⟩ = none := by
    simpa using h.numbered ⟨a.loaders.size⟩
  refine ⟨fun l => ?_, fun l n c hc => ?_, fun l data n d hdata hd => ?_, fun l n c hc => ?_⟩
  · simp only [Area.addLoader, Table.get?_insert, Table.size_insert, hnew]
    split
    · next hl => simp [← hl]
    · next hl =>
      have hne : l.number ≠ a.loaders.size := fun h => hl (by rw [← h])
      rw [h.numbered l]
      simp only [Option.isSome_none, Bool.false_eq_true, if_false]
      omega
  · rw [published?_addLoader] at hc
    split at hc
    · cases hc
    · exact h.keyed l n c hc
  · simp only [Area.addLoader, Table.get?_insert] at hdata
    split at hdata
    · cases hdata
      cases hd
    · exact h.defined l data n d hdata hd
  · rw [published?_addLoader] at hc
    split at hc
    · cases hc
    · exact h.named l n c hc

lemma Sound.define (h : a.Sound) (l : LoaderId) (d : Definition) : (a.define l d).Sound := by
  refine ⟨fun l' => ?_, fun l' n c hc => ?_, fun l' data n d' hdata hd => ?_, fun l' n c hc => ?_⟩
  · have hsize : (a.define l d).loaders.size = a.loaders.size := Table.size_modify ..
    rw [hsize, ← h.numbered l']
    simp only [Area.define, Table.get?_modify]
    split <;> simp
  · rw [published?_define] at hc
    exact h.keyed l' n c hc
  · simp only [Area.define, Table.get?_modify] at hdata
    split at hdata
    · obtain ⟨data', hdata', rfl⟩ := Option.map_eq_some_iff.1 hdata
      rw [Table.get?_insert] at hd
      split at hd
      · next hname =>
        cases hd
        exact hname
      · exact h.defined l' data' n d' hdata' hd
    · exact h.defined l' data n d' hdata hd
  · rw [published?_define] at hc
    exact h.named l' n c hc

/-- Every step keeps the tables together. -/
lemma sound_stable : Stable Step Sound := by
  intro a b hstep h
  cases hstep with
  | enter | leave | counted | accept | constrain | phase =>
    exact ⟨h.numbered, h.keyed, h.defined, h.named⟩
  | record plain =>
    obtain ⟨hnumbered, hkeyed, hdefined, hnamed⟩ := h.withClass _ (.inl plain)
    exact ⟨hnumbered, hkeyed, hdefined, hnamed⟩
  | array hstep =>
    cases hstep with
    | identity => exact ⟨h.numbered, h.keyed, h.defined, h.named⟩
    | array => exact h.withClass _ (.inr (Class.two_le_of_isArray rfl))
  | addLoader => exact h.addLoader _ _
  | define => exact h.define _ _

lemma firstValue?_map_name {cs : List Class} {n : String} {c : Class}
    (h : Table.firstValue? n (cs.map fun c => (c.name, c)) = some c) : c ∈ cs ∧ c.name = n := by
  induction cs with
  | nil => cases h
  | cons d ds ih =>
    rw [List.map_cons, Table.firstValue?] at h
    split at h
    · next hd =>
      cases h
      exact ⟨List.mem_cons_self, hd⟩
    · obtain ⟨hmem, hname⟩ := ih h
      exact ⟨List.mem_cons_of_mem _ hmem, hname⟩

lemma initial_sound : initial.Sound := by
  have hget : ∀ l data, initial.loaders.get? l = some data →
      l = .bootstrap ∧ data = { loaded := ⟨Boot.classes.map fun c => (c.name, c)⟩ } := by
    intro l data hdata
    simp only [initial, Table.get?, Table.firstValue?] at hdata
    split at hdata
    · next hl =>
      cases hdata
      exact ⟨hl.symm, rfl⟩
    · cases hdata
  have hclasses : ∀ c ∈ Boot.classes, IsPlain c.name ∨ 2 ≤ c.name.utf8ByteSize := by
    decide +kernel
  refine ⟨fun l => ?_, fun l n c hc => ?_, fun l data n d hdata hd => ?_, fun l n c hc => ?_⟩
  · have hbootstrap : LoaderId.bootstrap = l ↔ l.number < 1 := by
      cases l
      simp [LoaderId.bootstrap, eq_comm]
    simp only [initial, Table.get?, Table.firstValue?, Table.size, List.length_singleton]
    split <;> simp_all
  · obtain ⟨data, hdata, hc⟩ := Option.bind_eq_some_iff.1 hc
    obtain ⟨-, rfl⟩ := hget l data hdata
    exact (firstValue?_map_name hc).2
  · obtain ⟨-, rfl⟩ := hget l data hdata
    cases hd
  · obtain ⟨data, hdata, hc⟩ := Option.bind_eq_some_iff.1 hc
    obtain ⟨-, rfl⟩ := hget l data hdata
    obtain ⟨hmem, hname⟩ := firstValue?_map_name hc
    exact hname ▸ hclasses c hmem

end Area

end Linkage
