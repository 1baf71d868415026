import Linkage.Proofs.Descriptor.Grammar
import Mathlib.Data.String.Basic

/-!
# Reading descriptors by byte offsets

The readers take characters off the front of a text. Here they are written a second time, over a
text that is only ever cut at byte offsets, where a cut inside a character fails. No cut ever fails,
and what is read is the same. Together with the grammar this gives the main statement: the readers
accept exactly what the spelling of a well-formed descriptor produces.
-/

namespace Linkage

open String (utf8Len)

/-! ### Cutting a text at a byte offset -/

/-- The two parts of a text on either side of a byte offset, or nothing if the offset lies inside a
character or behind the end. -/
def splitAtByte? : Nat → List Char → Option (List Char × List Char)
  | 0, cs => some ([], cs)
  | _ + 1, [] => none
  | n + 1, c :: cs =>
    if c.utf8Size ≤ n + 1 then
      (splitAtByte? (n + 1 - c.utf8Size) cs).map fun parts => (c :: parts.1, parts.2)
    else none

/-- The part of a text from a byte offset on. -/
def dropBytes? (i : Nat) (cs : List Char) : Option (List Char) :=
  (splitAtByte? i cs).map Prod.snd

/-- The part of a text between two byte offsets. -/
def sliceBytes? (i j : Nat) (cs : List Char) : Option (List Char) := do
  let tail ← dropBytes? i cs
  let parts ← splitAtByte? (j - i) tail
  return parts.1

/-- The byte offset of the first character with a property. -/
def findByte? (p : Char → Bool) (cs : List Char) : Option Nat :=
  if cs.any p then some (utf8Len (cs.takeWhile (fun c => !p c))) else none

lemma splitAtByte?_append (front rest : List Char) :
    splitAtByte? (utf8Len front) (front ++ rest) = some (front, rest) := by
  induction front with
  | nil => simp [splitAtByte?]
  | cons c front ih =>
    have hpos := c.utf8Size_pos
    obtain ⟨n, hn⟩ : ∃ n, utf8Len (c :: front) = n + 1 :=
      ⟨utf8Len front + c.utf8Size - 1, by rw [String.utf8Len_cons]; omega⟩
    have hrest : n + 1 - c.utf8Size = utf8Len front := by
      rw [String.utf8Len_cons] at hn
      omega
    rw [hn, List.cons_append, splitAtByte?, if_pos (by rw [String.utf8Len_cons] at hn; omega),
      hrest, ih]
    rfl

lemma eq_append_of_splitAtByte? {n : Nat} {cs front rest : List Char}
    (h : splitAtByte? n cs = some (front, rest)) : cs = front ++ rest ∧ utf8Len front = n := by
  induction n, cs using splitAtByte?.induct generalizing front with
  | case1 cs =>
    cases (show some ([], cs) = some (front, rest) by simpa [splitAtByte?] using h)
    exact ⟨rfl, rfl⟩
  | case2 n => simp [splitAtByte?] at h
  | case3 n c cs hle ih =>
    rw [splitAtByte?, if_pos hle, Option.map_eq_some_iff] at h
    obtain ⟨⟨front', rest'⟩, hsplit, heq⟩ := h
    cases heq
    obtain ⟨rfl, hlen⟩ := ih hsplit
    refine ⟨rfl, ?_⟩
    rw [String.utf8Len_cons, hlen]
    omega
  | case4 n c cs hgt => simp [splitAtByte?, hgt] at h

lemma dropBytes?_append {i : Nat} (front rest : List Char) (h : utf8Len front = i) :
    dropBytes? i (front ++ rest) = some rest := by
  rw [dropBytes?, ← h, splitAtByte?_append]
  rfl

lemma sliceBytes?_append {i j : Nat} (front middle rest : List Char) (hi : utf8Len front = i)
    (hj : i + utf8Len middle = j) :
    sliceBytes? i j (front ++ (middle ++ rest)) = some middle := by
  have hlen : j - i = utf8Len middle := by omega
  simp [sliceBytes?, dropBytes?_append _ _ hi, hlen, splitAtByte?_append]

/-- A letter of a descriptor is one byte, so a cut right after it succeeds. -/
lemma dropBytes?_one {c : Char} (h : c.utf8Size = 1) (cs : List Char) :
    dropBytes? 1 (c :: cs) = some cs :=
  dropBytes?_append [c] cs (by simpa using h)

lemma length_lt_of_dropBytes?_one {cs tail : List Char} (h : dropBytes? 1 cs = some tail) :
    tail.length < cs.length := by
  obtain ⟨⟨front, rest⟩, hsplit, rfl⟩ := Option.map_eq_some_iff.mp h
  obtain ⟨rfl, hlen⟩ := eq_append_of_splitAtByte? hsplit
  cases front with
  | nil => simp at hlen
  | cons =>
    simp only [List.length_append, List.length_cons]
    omega

/-- The first character with a property is found behind all those without it. -/
lemma findByte?_append {p : Char → Bool} {front : List Char} (hfront : ∀ c ∈ front, p c = false)
    {c : Char} (hc : p c = true) (rest : List Char) :
    findByte? p (front ++ c :: rest) = some (utf8Len front) := by
  have hall : ∀ d ∈ front, (!p d) = true := fun d hd => by simp [hfront d hd]
  rw [findByte?, if_pos (by simp [hc]), List.takeWhile_append_of_pos hall]
  simp [hc]

lemma exists_of_findByte? {p : Char → Bool} {cs : List Char} {n : Nat}
    (h : findByte? p cs = some n) :
    ∃ front c rest, cs = front ++ c :: rest ∧ (∀ d ∈ front, p d = false) ∧ p c = true ∧
      utf8Len front = n := by
  rw [findByte?] at h
  split at h
  · next hany =>
    cases h
    have hsplit := List.takeWhile_append_dropWhile (p := fun c => !p c) (l := cs)
    have hhead := List.head?_dropWhile_not (fun c => !p c) cs
    obtain ⟨d, hd, hpd⟩ := List.any_eq_true.mp hany
    have hne : cs.dropWhile (fun c => !p c) ≠ [] := fun hnil => by
      simpa [hpd] using List.dropWhile_eq_nil_iff.mp hnil d hd
    obtain ⟨c, rest, hcons⟩ := List.exists_cons_of_ne_nil hne
    rw [hcons] at hsplit hhead
    refine ⟨_, c, rest, hsplit.symm, ?_, by simpa using hhead, rfl⟩
    intro x hx
    simpa using List.mem_takeWhile_imp hx
  · cases h

/-! ### The readers by byte offsets

In each reader the outer `none` is a cut that failed, the inner `none` a text that is refused.
-/

namespace FieldType

/-- Takes the descriptor of an object type off the front of a text. -/
def readNameSliced (cs : List Char) : Option (Option (FieldType × List Char)) := do
  let tail ← dropBytes? 1 cs
  match findByte? isNameEnd tail with
  | none => return none
  | some n =>
    let mark ← sliceBytes? (n + 1) (n + 2) cs
    if mark = [';'] ∧ 0 < n then
      let name ← sliceBytes? 1 (n + 1) cs
      let rest ← dropBytes? (n + 2) cs
      return some (object (String.ofList name), rest)
    else
      return none

/-- Takes the descriptor of one type off the front of a text. -/
def readSliced (cs : List Char) : Option (Option (FieldType × List Char)) :=
  match cs with
  | [] => some none
  | '[' :: cs =>
    match h : dropBytes? 1 ('[' :: cs) with
    | none => none
    | some tail =>
      have : tail.length < ('[' :: cs).length := length_lt_of_dropBytes?_one h
      (readSliced tail).map (Option.map fun r => (array r.1, r.2))
  | 'L' :: cs => readNameSliced ('L' :: cs)
  | c :: cs =>
    match Primitive.ofLetter? c with
    | none => some none
    | some p => (dropBytes? 1 (c :: cs)).map fun tail => some (primitive p, tail)
termination_by cs.length
decreasing_by simpa using this

/-- Every character that ends a name is a single byte. -/
lemma utf8Size_of_isNameEnd {c : Char} (h : isNameEnd c = true) : c.utf8Size = 1 := by
  obtain (rfl | rfl) | rfl : (c = ';' ∨ c = '(') ∨ c = ')' := by simpa [isNameEnd] using h
  all_goals rfl

/-- What is read before the first character that ends a name is the name, if that character is a `;`
and there is a name at all. -/
lemma readName_append {front : List Char} (hfront : ∀ c ∈ front, isNameEnd c = false) {c : Char}
    (hc : isNameEnd c = true) (rest : List Char) :
    readName (front ++ c :: rest) =
      if c = ';' ∧ front ≠ [] then some (object (String.ofList front), rest) else none := by
  have hall : ∀ d ∈ front, (!isNameEnd d) = true := fun d hd => by simp [hfront d hd]
  rw [readName, List.takeWhile_append_of_pos hall, List.dropWhile_append_of_pos hall]
  simp only [List.takeWhile_cons, List.dropWhile_cons, hc, Bool.not_true, Bool.false_eq_true,
    if_false, List.append_nil]
  cases front with
  | nil => simp
  | cons d front =>
    split
    · next heq => cases heq
    · next heq _ => simp_all
    · next hmark _ => simp_all

/-- No cut around a name fails: it starts behind a letter of one byte and ends before another
character of one byte. -/
lemma readNameSliced_eq (cs : List Char) : readNameSliced ('L' :: cs) = some (readName cs) := by
  have hl : 'L'.utf8Size = 1 := rfl
  have htail : dropBytes? 1 ('L' :: cs) = some cs := dropBytes?_one hl cs
  cases hfind : findByte? isNameEnd cs with
  | none =>
    have hnone : readName cs = none := by
      by_contra hsome
      obtain ⟨⟨t, rest⟩, hread⟩ := Option.ne_none_iff_exists'.mp hsome
      obtain ⟨name, ⟨-, hname⟩, -, rfl⟩ := readName_eq_some.mp hread
      rw [findByte?_append hname (by decide)] at hfind
      cases hfind
    simp [readNameSliced, htail, hfind, hnone]
  | some n =>
    obtain ⟨front, c, rest, rfl, hfront, hc, rfl⟩ := exists_of_findByte? hfind
    have hsize := utf8Size_of_isNameEnd hc
    have hmark : sliceBytes? (utf8Len front + 1) (utf8Len front + 2) ('L' :: (front ++ c :: rest)) =
        some [c] :=
      sliceBytes?_append ('L' :: front) [c] rest (by simp [hl]) (by simp [hsize])
    have hname : sliceBytes? 1 (utf8Len front + 1) ('L' :: (front ++ c :: rest)) = some front :=
      sliceBytes?_append ['L'] front (c :: rest) (by simp [hl]) (by omega)
    have hrest : dropBytes? (utf8Len front + 2) ('L' :: (front ++ c :: rest)) = some rest := by
      have := dropBytes?_append (i := utf8Len front + 2) ('L' :: (front ++ [c])) rest
        (by simp [hl, hsize])
      simpa using this
    have hpos : 0 < utf8Len front ↔ front ≠ [] := by
      rw [Nat.pos_iff_ne_zero, Ne, String.utf8Len_eq_zero]
    rw [readName_append hfront hc]
    simp only [readNameSliced, htail, hfind, hmark, hname, hrest, Option.bind_eq_bind,
      Option.bind_some, hpos, List.cons.injEq, and_true]
    split <;> rfl

/-- Reading by byte offsets never cuts a character, and reads the same. -/
lemma readSliced_eq (cs : List Char) : readSliced cs = some (read cs) := by
  induction cs using read.induct with
  | case1 => rw [readSliced, read]
  | case2 cs ih =>
    have htail : dropBytes? 1 ('[' :: cs) = some cs := dropBytes?_one rfl cs
    rw [readSliced]
    split
    · next hnone => rw [htail] at hnone; cases hnone
    · next tail hsome =>
      obtain rfl : cs = tail := Option.some_inj.mp (htail.symm.trans hsome)
      rw [ih, read]
      rfl
  | case3 cs => rw [readSliced, readNameSliced_eq, read]
  | case4 c cs hbracket hl =>
    rw [readSliced.eq_4 c cs hbracket hl, read.eq_4 c cs hbracket hl]
    cases hp : Primitive.ofLetter? c with
    | none => rfl
    | some p =>
      obtain rfl := Primitive.letter_of_ofLetter? hp
      have hsize : p.letter.utf8Size = 1 := by cases p <;> rfl
      simp [dropBytes?_one hsize cs]

/-- Takes as many types as possible off the front of a text. -/
def readAllSliced (cs : List Char) : Option (List FieldType × List Char) :=
  match h : readSliced cs with
  | none => none
  | some none => some ([], cs)
  | some (some (t, rest)) =>
    have : rest.length < cs.length :=
      length_lt_of_read (Option.some_inj.mp ((readSliced_eq cs).symm.trans h))
    (readAllSliced rest).map fun r => (t :: r.1, r.2)
termination_by cs.length

lemma readAllSliced_eq (cs : List Char) : readAllSliced cs = some (readAll cs) := by
  induction cs using readAll.induct with
  | case1 cs hnone =>
    have hsliced : readSliced cs = some none := by rw [readSliced_eq, hnone]
    rw [readAll_of_none hnone, readAllSliced]
    split <;> simp_all
  | case2 cs t rest hread hlt ih =>
    have hsliced : readSliced cs = some (some (t, rest)) := by rw [readSliced_eq, hread]
    rw [readAll_of_some hread, readAllSliced]
    split <;> simp_all

/-- The type a whole text spells. -/
def parseSliced? (s : String) : Option (Option FieldType) :=
  (readSliced s.toList).map fun
    | some (t, []) => some t
    | _ => none

end FieldType

namespace ReturnType

/-- Takes a return type off the front of a text. -/
def readSliced : List Char → Option (Option (ReturnType × List Char))
  | 'V' :: cs => (dropBytes? 1 ('V' :: cs)).map fun tail => some (void, tail)
  | cs => (FieldType.readSliced cs).map (Option.map fun r => (value r.1, r.2))

lemma readSliced_eq (cs : List Char) : readSliced cs = some (read cs) := by
  by_cases hv : ∃ rest, cs = 'V' :: rest
  · obtain ⟨rest, rfl⟩ := hv
    rw [readSliced, read, dropBytes?_one rfl rest]
    rfl
  · have hvalue : ∀ rest, cs = 'V' :: rest → False := fun rest h => hv ⟨rest, h⟩
    rw [readSliced.eq_2 cs hvalue, read.eq_2 cs hvalue, FieldType.readSliced_eq]
    rfl

end ReturnType

namespace MethodDescriptor

/-- The method descriptor a list of characters spells. -/
def parseCharsSliced? : List Char → Option (Option MethodDescriptor)
  | '(' :: cs => do
    match ← FieldType.readAllSliced cs with
    | (parameters, ')' :: rest) =>
      match ← ReturnType.readSliced rest with
      | some (result, []) => return some ⟨parameters, result⟩
      | _ => return none
    | _ => return none
  | _ => some none

/-- The method descriptor a whole text spells. -/
def parseSliced? (s : String) : Option (Option MethodDescriptor) :=
  parseCharsSliced? s.toList

lemma parseCharsSliced?_eq (cs : List Char) : parseCharsSliced? cs = some (parseChars? cs) := by
  unfold parseCharsSliced? parseChars?
  split
  · next cs =>
    rw [FieldType.readAllSliced_eq]
    simp only [Option.bind_eq_bind, Option.bind_some]
    generalize FieldType.readAll cs = row
    split
    · next parameters rest =>
      rw [ReturnType.readSliced_eq]
      simp only [Option.bind_some]
      generalize ReturnType.read rest = last
      split
      · rfl
      · simp
    · simp
  · simp

end MethodDescriptor

/-! ### The readers invert the spelling -/

/-- The readers of descriptors accept exactly their grammar and invert the spelling. A whole text is
read as a type, or as a method descriptor, exactly if that is well formed and spelt so. The front of
a text is read as a type exactly if the type is well formed and spelt there, and as a row of types
exactly if these are well formed, spelt there and followed by none, so that no text is split in two
ways. Cut at byte offsets alone, the readers give the same answers and never cut a character. -/
theorem descriptor_readers_invert_spelling :
    (∀ (s : String) (t : FieldType),
      FieldType.parse? s = some t ↔ t.WellFormed ∧ t.text = s) ∧
    (∀ (s : String) (d : MethodDescriptor),
      MethodDescriptor.parse? s = some d ↔ d.WellFormed ∧ d.text = s) ∧
    (∀ (cs : List Char) (t : FieldType) (rest : List Char),
      FieldType.read cs = some (t, rest) ↔ t.WellFormed ∧ cs = t.chars ++ rest) ∧
    (∀ (cs : List Char) (ts : List FieldType) (rest : List Char),
      FieldType.readAll cs = (ts, rest) ↔
        (∀ t ∈ ts, t.WellFormed) ∧ cs = ts.flatMap FieldType.chars ++ rest ∧
          FieldType.read rest = none) ∧
    (∀ s : String, FieldType.parseSliced? s = some (FieldType.parse? s)) ∧
    (∀ s : String, MethodDescriptor.parseSliced? s = some (MethodDescriptor.parse? s)) := by
  refine ⟨fun s t => FieldType.parse?_eq_some, fun s d => MethodDescriptor.parse?_eq_some,
    fun cs t rest => FieldType.read_eq_some, fun cs ts rest => FieldType.readAll_eq, ?_, ?_⟩
  · intro s
    rw [FieldType.parseSliced?, FieldType.readSliced_eq, FieldType.parse?]
    rfl
  · intro s
    exact MethodDescriptor.parseCharsSliced?_eq s.toList

/-- A name may hold characters of any width; a parenthesis, an empty name or a second type is
refused. -/
example : FieldType.parse? "[Lp/é€😀;" = some (.array (.object "p/é€😀")) ∧
    FieldType.parse? "Lé(;" = none ∧ FieldType.parse? "L;" = none ∧
    FieldType.parse? "II" = none := by
  decide

end Linkage
