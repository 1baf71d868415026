import Linkage.Lattice.Basic

/-!
# Assignability of values

Whether a value of one type may be stored where another is expected. As long as the classes
involved are not loaded the answer may have to be left open.
-/

namespace Linkage

/-- The answer to a question of assignability. -/
inductive Assignable where
  | yes
  | no
  /-- It depends on a class that is not loaded. -/
  | maybe
  deriving DecidableEq, Repr

namespace Assignable

/-- A definite answer. -/
def ofBool (b : Bool) : Assignable := if b then yes else no

/-- The conjunction: any `no` wins, then any `maybe`. -/
def and : Assignable → Assignable → Assignable
  | no, _ | _, no => no
  | maybe, _ | _, maybe => maybe
  | yes, yes => yes

/-- The name of an answer. -/
def name : Assignable → String
  | yes => "Yes"
  | no => "No"
  | maybe => "Maybe"

@[simp]
theorem yes_and (a : Assignable) : yes.and a = a := by cases a <;> rfl

@[simp]
theorem and_yes (a : Assignable) : a.and yes = a := by cases a <;> rfl

@[simp]
theorem no_and (a : Assignable) : no.and a = no := by cases a <;> rfl

@[simp]
theorem and_no (a : Assignable) : a.and no = no := by cases a <;> rfl

theorem and_comm (a b : Assignable) : a.and b = b.and a := by cases a <;> cases b <;> rfl

theorem and_assoc (a b c : Assignable) : (a.and b).and c = a.and (b.and c) := by
  cases a <;> cases b <;> cases c <;> rfl

end Assignable

/-! ### The depth of a mention -/

/-- A number that falls from a mention of an array class to the mention of its element. -/
def Mention.depth : Mention → Nat
  | .loaded c => c.dimension
  | .symbolic r => r.name.toList.length

theorem Class.dimension_of_element? {c e : Class} (h : c.element? = some e) : e.dimension = 0 := by
  match c with
  | .root d => simp only [element?, Option.some.injEq] at h; subst h; rfl
  | .derived d s is => simp only [element?, Option.some.injEq] at h; subst h; rfl
  | .primitiveArray d s is p => simp [element?] at h
  | .array d s is c => exact dimension_of_element? (by simpa [element?] using h)

theorem Class.dimension_pos_of_isArray {c : Class} (h : c.isArray = true) : 0 < c.dimension := by
  cases c <;> simp_all [isArray, dimension]

/-- The element of an array is less deep than the array. -/
theorem ReferenceType.depth_of_elementClass {m e : Mention}
    (h : (ReferenceType.ofMention m).elementClass = some e) : e.depth < m.depth := by
  cases m with
  | loaded c =>
    simp only [ofMention, ofClass, Option.map_eq_some_iff, Class.elementClass?] at h
    obtain ⟨c', hc, rfl⟩ := h
    split at hc
    · next ha =>
      simp only [Mention.depth, Class.dimension_of_element? hc]
      exact Class.dimension_pos_of_isArray ha
    · cases hc
  | symbolic r =>
    simp only [ofMention, ofClassRef] at h
    split at h
    · cases h
    · split at h
      · next name hu =>
        simp only [Option.some.injEq] at h
        subst h
        have hlt := Spelling.length_lt_of_unwrapObject? hu
        have hle : (r.name.toList.dropWhile (· = '[')).length ≤ r.name.toList.length :=
          (List.dropWhile_suffix _).length_le
        simp only [Mention.depth, String.toList_ofList]
        simp only [splitDimensions] at hlt
        omega
      · cases h

/-! ### The test -/

namespace ReferenceType

/-- What is known without looking at loaded classes of storing an object of type `t`, whose element
is asked about by `element`, where the class `dest` is expected. -/
def shapeAssignable (t dest : ReferenceType) (element : Mention → AreaM Assignable) :
    AreaM Assignable :=
  if !dest.isArray then
    if t.isArray then return .ofBool (isArraySupertypeName dest.mention.name) else return .maybe
  else if !t.isArray || t.dimension < dest.dimension then return .no
  else
    match dest.elementType, dest.elementClass with
    | some p, _ => return .ofBool (t.dimension = dest.dimension && t.elementType = some p)
    | none, none => return .maybe
    | none, some e =>
      if dest.dimension < t.dimension then return .ofBool (isArraySupertypeName e.name)
      else
        match t.elementClass with
        | none => return .no
        | some value => element value

/-- Whether an object whose class is mentioned by `value` may be stored where the class `dest` is
expected. -/
def classAssignable (value dest : Mention) : AreaM Assignable := do
  if value.knownSame dest || dest.isObject then return .yes
  let v ← value.find
  let d ← dest.find
  match v, d with
  | some v, some d => return .ofBool (v.isAssignableTo d)
  | _, _ =>
    match h : (ofMention dest).elementClass with
    | some e =>
      have : e.depth < dest.depth := depth_of_elementClass h
      shapeAssignable (ofMention value) (ofMention dest) fun v => classAssignable v e
    | none => shapeAssignable (ofMention value) (ofMention dest) fun _ => return .no
termination_by dest.depth

/-- Whether an object of each of several classes may be stored where the class `dest` is
expected. -/
def allAssignable (dest : Mention) : List Mention → AreaM Assignable
  | [] => return .yes
  | m :: ms => do
    let a ← classAssignable m dest
    let b ← allAssignable dest ms
    return a.and b

/-- Whether an object of a reference type may be stored where the class `dest` is expected. -/
def assignableToClass (t : ReferenceType) (dest : Mention) : AreaM Assignable :=
  allAssignable dest t.branches

end ReferenceType

namespace ValueType

/-- Whether a value may be stored where a class is expected. -/
def assignableToClass (t : ValueType) (dest : Mention) : AreaM Assignable :=
  match t with
  | null => return .yes
  | reference r => r.assignableToClass dest
  | _ => return .no

/-- Whether a value may be stored where another type is expected. -/
def assignable (t dest : ValueType) : AreaM Assignable :=
  match t, dest with
  | primitive, primitive => return .yes
  | returnAddress _, returnAddress _ => return .yes
  | null, null => return .yes
  | null, reference _ => return .yes
  | uninitialized a, uninitialized b => return .ofBool (a = b)
  | reference r, reference d => r.assignableToClass d.mention
  | _, _ => return .no

end ValueType

end Linkage
