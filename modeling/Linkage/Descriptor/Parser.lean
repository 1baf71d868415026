import Linkage.Descriptor.Basic

/-!
# Reading descriptors

Each reader takes the characters of one type off the front of a text and gives back what is left.
A name inside a descriptor ends at the first `;` and may not hold a parenthesis.
-/

namespace Linkage

/-- Whether a character ends a name inside a descriptor, rightly (`;`) or wrongly. -/
def isNameEnd (c : Char) : Bool :=
  c = ';' || c = '(' || c = ')'

namespace FieldType

/-- Takes a name and its closing `;` off the front of a text. -/
def readName (cs : List Char) : Option (FieldType × List Char) :=
  match cs.takeWhile (fun c => !isNameEnd c), cs.dropWhile (fun c => !isNameEnd c) with
  | [], _ => none
  | name, ';' :: rest => some (object (String.ofList name), rest)
  | _, _ => none

/-- Takes the descriptor of one type off the front of a text. -/
def read : List Char → Option (FieldType × List Char)
  | [] => none
  | '[' :: cs => (read cs).map fun r => (array r.1, r.2)
  | 'L' :: cs => readName cs
  | c :: cs => (Primitive.ofLetter? c).map fun p => (primitive p, cs)

/-- The type a whole text spells. -/
def parse? (s : String) : Option FieldType :=
  match read s.toList with
  | some (t, []) => some t
  | _ => none

/-- The type a class name stands for: array classes are named by their descriptor, all others by
their plain name. -/
def ofClassName? (name : String) : Option FieldType :=
  match name.toList with
  | [] => none
  | '[' :: _ => parse? name
  | cs => if ';' ∈ cs then none else some (object name)

theorem length_lt_of_readName {cs rest : List Char} {t : FieldType}
    (h : readName cs = some (t, rest)) : rest.length < cs.length := by
  have hlen := congrArg List.length
    (List.takeWhile_append_dropWhile : cs.takeWhile (fun c => !isNameEnd c) ++ _ = cs)
  simp only [List.length_append] at hlen
  unfold readName at h
  split at h
  · simp at h
  · next _ _ heq _ =>
    simp only [Option.some.injEq, Prod.mk.injEq] at h
    rw [heq, h.2] at hlen
    simp only [List.length_cons] at hlen
    omega
  · simp at h

/-- Reading one type uses up at least one character. -/
theorem length_lt_of_read {cs rest : List Char} {t : FieldType}
    (h : read cs = some (t, rest)) : rest.length < cs.length := by
  induction cs using read.induct generalizing t with
  | case1 => simp [read] at h
  | case2 cs ih =>
    simp only [read, Option.map_eq_some_iff] at h
    obtain ⟨⟨t', r'⟩, hr, heq⟩ := h
    simp only [Prod.mk.injEq] at heq
    have := ih (heq.2 ▸ hr)
    simp only [List.length_cons]
    omega
  | case3 cs =>
    simp only [read] at h
    have := length_lt_of_readName h
    simp only [List.length_cons]
    omega
  | case4 c cs h1 h2 =>
    rw [read] at h
    · simp only [Option.map_eq_some_iff, Prod.mk.injEq] at h
      obtain ⟨_, _, _, rfl⟩ := h
      simp
    · exact h1
    · exact h2

/-- Takes as many types as possible off the front of a text. -/
def readAll (cs : List Char) : List FieldType × List Char :=
  match h : read cs with
  | none => ([], cs)
  | some (t, rest) =>
    have : rest.length < cs.length := length_lt_of_read h
    let r := readAll rest
    (t :: r.1, r.2)
termination_by cs.length

end FieldType

namespace ReturnType

/-- Takes a return type off the front of a text. -/
def read : List Char → Option (ReturnType × List Char)
  | 'V' :: cs => some (void, cs)
  | cs => (FieldType.read cs).map fun r => (value r.1, r.2)

/-- The return type a whole text spells. -/
def parse? (s : String) : Option ReturnType :=
  match read s.toList with
  | some (r, []) => some r
  | _ => none

end ReturnType

namespace MethodDescriptor

/-- The method descriptor a list of characters spells. -/
def parseChars? : List Char → Option MethodDescriptor
  | '(' :: cs =>
    match FieldType.readAll cs with
    | (parameters, ')' :: rest) =>
      match ReturnType.read rest with
      | some (result, []) => some ⟨parameters, result⟩
      | _ => none
    | _ => none
  | _ => none

/-- The method descriptor a whole text spells. -/
def parse? (s : String) : Option MethodDescriptor :=
  parseChars? s.toList

end MethodDescriptor

end Linkage
