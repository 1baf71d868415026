import Mathlib.Logic.Function.Iterate
import Linkage.Proofs.Lattice.Arising

/-!
# Superclasses and arrays over them

What may be used as a class may be used as the classes above it, and arrays of the one as arrays of
the others. The name of an array means an array class as soon as its element is found, unless there
would be too many levels.
-/

namespace Linkage

open Relation

/-! ### More array levels -/

namespace Form

variable {f g : Form} {c : Class}

@[simp] lemma dimension_iterate (n : Nat) (f : Form) :
    (array^[n] f).dimension = f.dimension + n := by
  induction n with
  | zero => rfl
  | succ n ih => rw [Function.iterate_succ_apply', dimension, ih, Nat.add_assoc]

@[simp] lemma element?_iterate (n : Nat) (f : Form) : (array^[n] f).element? = f.element? := by
  induction n with
  | zero => rfl
  | succ n ih => rw [Function.iterate_succ_apply', element?, ih]

@[simp] lemma fits_iterate (n : Nat) (f g : Form) :
    (array^[n] f).fits (array^[n] g) = f.fits g := by
  induction n with
  | zero => rfl
  | succ n ih => rw [Function.iterate_succ_apply', Function.iterate_succ_apply', fits, ih]

/-- What fits an array is an array over something that fits what the array is over. -/
lemma exists_of_fits_iterate {n : Nat} (h : f.fits (array^[n] g) = true) :
    ∃ x, f = array^[n] x ∧ x.fits g = true := by
  induction n generalizing f with
  | zero => exact ⟨f, rfl, h⟩
  | succ n ih =>
    rw [Function.iterate_succ_apply'] at h
    cases f with
    | object v => cases h
    | primitives p => cases h
    | array f =>
      obtain ⟨x, rfl, hx⟩ := ih h
      exact ⟨x, (Function.iterate_succ_apply' array n x).symm, hx⟩

lemma eq_iterate (h : f.element? = some c) : f = array^[f.dimension] (object c) := by
  induction f with
  | object d =>
    cases h
    rfl
  | primitives p => cases h
  | array f ih =>
    rw [dimension, Function.iterate_succ_apply', ← ih h]

end Form

namespace Area

variable {a b q : Area} {l : LoaderId} {f g : Form} {x c d s : Class}

/-! ### Arrays over what is found -/

/-- The name of an array over what is not found is not found. -/
lemma Tidy.formArray?_eq_none (ha : a.Tidy) {name : String} {sp : Spelling} (hname : ¬ IsPlain name)
    (hlong : name.utf8ByteSize ≠ 2) (hover : ∀ e : Class, e.arrayName = name → sp = .ofName e.name)
    (hmissing : a.form? l sp = none) (hstub : sp ≠ .plain Boot.arrayStubName) :
    a.formArray? l name false none = none := by
  cases hc : a.published? l name with
  | none => simp only [formArray?, hc, Bool.false_eq_true, if_false, Option.bind_none]
  | some c =>
    rcases ha.entry_cases hname hlong hover hc with ⟨e, -, -, -, -, -, hfound⟩ | ⟨-, heq⟩
    · rw [hmissing] at hfound
      cases hfound
    · exact absurd heq hstub

/-- An array over a class that is found is found itself, unless it has too many levels. -/
lemma Tidy.form?_object (ha : a.Tidy) (hclear : a.Unshadowed) {element : List Char}
    (hf : a.form? l (.ofChars element) = some f) :
    a.form? l (.ofChars ('[' :: 'L' :: (element ++ [';']))) =
      if f.dimension + 1 ≤ maxDimension then some (.array f) else none := by
  have hunwrap := unwrapObject?_object element
  have hlong : (String.ofList ('[' :: 'L' :: (element ++ [';']))).utf8ByteSize ≠ 2 :=
    size_ne_of_three_le (by simp)
  have hover : ∀ e : Class, e.arrayName = String.ofList ('[' :: 'L' :: (element ++ [';'])) →
      Spelling.ofChars element = .ofName e.name := by
    intro e he
    rw [Class.name_of_object he hunwrap, Spelling.ofName, String.toList_ofList]
  have hle := (hasForm_of_form? ha _ hf).dimension_le ha
  rw [Spelling.ofChars_object hunwrap, form?, hf]
  simp only [Spelling.isShort, Spelling.name, hlong, decide_false]
  rw [ha.formArray?_eq_over (not_isPlain_bracket _) hlong hover hf (.inl hclear)]
  by_cases hdim : f.dimension = maxDimension
  · rw [if_pos hdim, if_neg (by omega)]
  · rw [if_neg hdim, if_pos (by omega)]

/-- The same one level higher, where nothing is found over what is not found. -/
lemma Tidy.form?_nested (ha : a.Tidy) (hclear : a.Unshadowed) {rest : List Char}
    (hhead : rest.head? = some '[') (hlength : 2 ≤ rest.length) :
    a.form? l (.ofChars ('[' :: rest)) = (a.form? l (.ofChars rest)).bind fun g =>
      if g.dimension + 1 ≤ maxDimension then some (.array g) else none := by
  have hlong : (String.ofList ('[' :: rest)).utf8ByteSize ≠ 2 :=
    size_ne_of_three_le (Nat.succ_le_succ hlength)
  have hover : ∀ e : Class, e.arrayName = String.ofList ('[' :: rest) →
      Spelling.ofChars rest = .ofName e.name := by
    intro e he
    rw [Class.name_of_nested he hhead, Spelling.ofName, String.toList_ofList]
  rw [Spelling.ofChars_nested hhead, form?]
  simp only [Spelling.isShort, Spelling.name, hlong, decide_false]
  cases hg : a.form? l (.ofChars rest) with
  | some g =>
    have hle := (hasForm_of_form? ha _ hg).dimension_le ha
    rw [ha.formArray?_eq_over (not_isPlain_bracket rest) hlong hover hg (.inl hclear),
      Option.bind_some]
    by_cases hdim : g.dimension = maxDimension
    · rw [if_pos hdim, if_neg (by omega)]
    · rw [if_neg hdim, if_pos (by omega)]
  | none =>
    refine ha.formArray?_eq_none (not_isPlain_bracket rest) hlong hover hg fun hstub => ?_
    have hplain : String.ofList rest = Boot.arrayStubName := by
      rw [← Spelling.name_ofChars rest, hstub]
      rfl
    have hchars := congrArg String.toList hplain
    rw [String.toList_ofList] at hchars
    rw [hchars] at hhead
    exact absurd hhead (by decide)

/-- Arrays over a class that is found are found up to the highest number of levels. -/
lemma Tidy.form?_iterate (ha : a.Tidy) (hclear : a.Unshadowed) {element : List Char}
    (hf : a.form? l (.ofChars element) = some f) (k : Nat) :
    a.form? l (.ofChars (List.replicate (k + 1) '[' ++ 'L' :: (element ++ [';']))) =
      if f.dimension + (k + 1) ≤ maxDimension then some (Form.array^[k + 1] f) else none := by
  induction k with
  | zero => exact ha.form?_object hclear hf
  | succ k ih =>
    have hhead : (List.replicate (k + 1) '[' ++ 'L' :: (element ++ [';'])).head? = some '[' := rfl
    have hlength : 2 ≤ (List.replicate (k + 1) '[' ++ 'L' :: (element ++ [';'])).length := by
      simp
      omega
    rw [List.replicate_succ, List.cons_append, ha.form?_nested hclear hhead hlength, ih]
    by_cases hdim : f.dimension + (k + 1) ≤ maxDimension
    · rw [if_pos hdim, Option.bind_some, Form.dimension_iterate,
        Function.iterate_succ_apply' Form.array (k + 1), Nat.add_assoc]
    · rw [if_neg hdim, if_neg (by omega), Option.bind_none]

/-- What is found is found later. -/
lemma Later.look_unshadowed {m : Mention} (hlater : Later a q) (hclear : q.Unshadowed)
    (hf : a.look m = some f) : q.look m = some f := by
  cases m with
  | loaded c => exact hf
  | symbolic r => exact hlater.form?_eq (Spelling.faithful_ofName r.name) (.inl hclear) hf

/-- An array is found as one over its element, if the element is found, unless the array has too
many levels. -/
lemma Tidy.look_of_element (ha : a.Tidy) (hclear : a.Unshadowed) {m e : Mention}
    (he : (ReferenceType.ofMention m).elementClass = some e) (hf : a.look e = some f) :
    a.look m = some (Form.array^[(ReferenceType.ofMention m).dimension] f) ∨
      a.look m = none ∧ (f.dimension = 0 ∨
        maxDimension < f.dimension + (ReferenceType.ofMention m).dimension) := by
  cases m with
  | loaded c =>
    obtain ⟨x, hx, rfl⟩ := Option.map_eq_some_iff.1 he
    rw [Class.elementClass?] at hx
    split at hx
    · cases hf
      refine .inl (congrArg some ?_)
      rw [← Class.element?_form] at hx
      rw [Form.eq_iterate hx, Class.dimension_form]
      rw [Class.element?_form] at hx
      rw [Class.form_of_not_isArray (Class.isArray_of_element? hx)]
      rfl
    · cases hx
  | symbolic r =>
    obtain ⟨hlevels, element, hunwrap, rfl⟩ := ReferenceType.elementClass_ofClassRef_iff.1 he
    obtain ⟨k, hk⟩ := Nat.exists_eq_succ_of_ne_zero hlevels
    have hfound : a.form? r.referer.loader (.ofChars element) = some f := by
      rw [← String.toList_ofList (l := element)]
      exact hf
    have hname : Spelling.ofName r.name =
        .ofChars (List.replicate (k + 1) '[' ++ 'L' :: (element ++ [';'])) := by
      rw [Spelling.ofName, toList_eq_of_splitDimensions, hk, eq_of_unwrapObject? hunwrap]
    have hdim : (ReferenceType.ofMention (.symbolic r)).dimension = min (k + 1) maxDimension := by
      rw [ReferenceType.ofMention, ReferenceType.dimension_ofClassRef, hk]
    rw [look, hname, ha.form?_iterate hclear hfound, hdim]
    by_cases hle : f.dimension + (k + 1) ≤ maxDimension
    · rw [if_pos hle, Nat.min_eq_left (by omega)]
      exact .inl rfl
    · rw [if_neg hle]
      exact .inr ⟨rfl, by omega⟩

/-! ### Arrays that are made -/

/-- A name and a loader tell all classes there are apart. -/
lemma Tidy.eq_of_name (ha : a.Tidy) (hclear : a.Unshadowed) (hc : a.Known c) (hd : a.Known d)
    (hname : c.name = d.name) (hloader : c.loader = d.loader) : c = d := by
  have hstub : ∀ e, a.Owned e → e.name = a.core.arrayStub.name →
      e.loader = a.core.arrayStub.loader → False := by
    intro e he hname hloader
    rw [Owned, hname, hloader, ha.core] at he
    exact absurd (hclear.symm.trans he) (by simp)
  rcases hc with hc | rfl
  · rcases hd with hd | rfl
    · exact hc.eq_of_name hd hname hloader
    · exact (hstub c hc hname hloader).elim
  · rcases hd with hd | rfl
    · exact (hstub d hd hname.symm hloader.symm).elim
    · rfl

/-- Under the name of the array class over a class its loader has just that. -/
lemma Tidy.form_of_arrayName (ha : a.Tidy) (hclear : a.Unshadowed) {e : Class} (he : a.Known e)
    (hc : a.published? e.loader e.arrayName = some c) : c.form = .array e.form := by
  have hkeyed := ha.sound.keyed _ _ c hc
  have harray := ha.arrays _ _ c hc (not_isPlain_arrayName e)
  match c with
  | .root _ => cases harray
  | .derived .. => cases harray
  | .primitiveArray _ _ _ p =>
    have hlong := Form.size_name_array e.form
    rw [Class.name_array_form, ← hkeyed] at hlong
    refine absurd ?_ hlong
    change p.arrayName.utf8ByteSize = 2
    cases p <;> decide
  | .array _ _ _ d =>
    obtain ⟨hloader, hknown⟩ := ha.component _ _ _ _ _ d hc
    have hname : (Form.array d.form).name = (Form.array e.form).name := by
      rw [Class.name_array_form, Class.name_array_form]
      exact hkeyed
    have hsame := (Form.name_inj hname).2
    rw [Class.name_form, Class.name_form] at hsame
    rw [← ha.eq_of_name hclear hknown he hsame hloader]
    rfl

/-- The array class over a class that is there can be had, unless the class has all the levels there
can be. -/
lemma Tidy.exists_arrayOf (ha : a.Tidy) (hc : a.Known c) (hdim : c.dimension ≠ maxDimension) :
    ∃ d b, arrayOf c a = .ok d b := by
  rcases arrayOf_cases c a with ⟨d, -, hrun⟩ | ⟨-, ⟨hmax, -⟩ | ⟨hnone, -⟩ | ⟨-, -, hrun⟩⟩
  · exact ⟨d, a, hrun⟩
  · exact absurd hmax hdim
  · have hsome := ha.loader_isSome hc
    rw [hnone] at hsome
    cases hsome
  · exact ⟨_, _, hrun⟩

/-- Wrapping a class into array levels gives an array over it of as many levels. -/
lemma Tidy.form_of_arrayOfDimension? {n : Nat} (ha : a.Tidy) {e : Class} (he : a.Known e)
    (hrun : arrayOfDimension? e n a = .ok (some c) b) :
    Later a b ∧ b.Known c ∧ (b.Unshadowed → c.form = Form.array^[n] e.form) := by
  induction n generalizing a e with
  | zero =>
    cases hrun
    exact ⟨.refl ha, he, fun _ => rfl⟩
  | succ n ih =>
    obtain ⟨v, s, hv, hrun⟩ := bind_eq_ok.1 hrun
    rw [arrayOf?_eq] at hv
    cases harray : arrayOf e a with
    | error x t =>
      rw [harray] at hv
      cases hv
      cases hrun
    | ok d t =>
      rw [harray] at hv
      cases hv
      obtain ⟨hsteps, hrooted⟩ := tidy_arrayOf e a ⟨ha, ha.admitted_of_known he⟩
      rw [finalState_of_ok harray] at hsteps
      have hlater := later_of_tidySteps hsteps ha
      obtain ⟨hlast, hknown, hform⟩ :=
        ih hlater.after (hrooted d s harray).owned.known hrun
      refine ⟨hlater.trans hlast, hknown, fun hclear => ?_⟩
      rw [hform hclear, Function.iterate_succ_apply,
        hlater.after.form_of_arrayName (hlast.unshadowed hclear) (hlater.known he)
          (published?_of_arrayOf harray)]

/-! ### Superclasses -/

/-- The subclasses of a class are those that have it as a superclass. -/
lemma Tidy.isSubclassOf_iff_mem (ha : a.Tidy) (hc : a.Known c) (hd : a.Known d) :
    c.isSubclassOf d = true ↔ d ∈ c.superclasses := by
  rw [Class.isSubclassOf, List.any_eq_true]
  constructor
  · rintro ⟨s, hs, hsame⟩
    rwa [(ha.same_iff (ha.admitted_of_known hc s hs) hd).1 hsame] at hs
  · exact fun hmem => ⟨d, hmem, d.same_self⟩

/-- Under a class that is no interface stand those that have it as a superclass. -/
lemma Tidy.isAssignableTo_iff_mem (ha : a.Tidy) (hc : a.Known c) (hd : a.Known d)
    (hcplain : c.isArray = false) (hdplain : d.isArray = false) (hdclass : d.isInterface = false) :
    c.isAssignableTo d = true ↔ d ∈ c.superclasses := by
  have hdirect : c.isAssignableTo d = (c.same d || c.isSubclassOf d) := by
    unfold Class.isAssignableTo
    cases c with
    | root | derived => simp [hdclass, hcplain, hdplain]
    | primitiveArray | array => cases hcplain
  rw [hdirect, Bool.or_eq_true, ha.isSubclassOf_iff_mem hc hd, or_iff_right_iff_imp]
  intro hsame
  rw [(ha.same_iff hc hd).1 hsame]
  exact d.mem_superclasses_self

/-- No interface stands above a class that is none. -/
lemma Tidy.not_isInterface_of_superclass (ha : a.Tidy) : ∀ {c : Class}, a.Known c →
    c.isInterface = false → ∀ s ∈ c.superclasses, s.isInterface = false
  | .root d, _, hclass => by simpa [Class.superclasses] using hclass
  | .derived d t is, hc, hclass => by
    have ht : a.Known t := by
      refine ha.admitted_of_known hc t ?_
      exact List.mem_cons_of_mem _ t.mem_superclasses_self
    intro s hs
    rcases List.mem_cons.1 hs with rfl | hs
    · exact hclass
    · exact ha.not_isInterface_of_superclass ht (ha.linked_of_known hc) s hs
  | .primitiveArray d t is p, hc, hclass => by
    obtain ⟨-, rfl, -, -⟩ := ha.linked_of_known hc
    intro s hs
    rcases List.mem_cons.1 hs with rfl | hs
    · exact hclass
    · rw [List.mem_singleton.1 hs]
      rfl
  | .array d t is e, hc, hclass => by
    obtain ⟨-, rfl, -, -⟩ := ha.linked_of_known hc
    intro s hs
    rcases List.mem_cons.1 hs with rfl | hs
    · exact hclass
    · rw [List.mem_singleton.1 hs]
      rfl

/-- An array class stands below nothing but itself and the top of the hierarchy. -/
lemma Tidy.superclasses_of_isArray (ha : a.Tidy) (hc : a.Known c) (harray : c.isArray = true) :
    c.superclasses = [c, Boot.object] := by
  have hlinked := ha.linked_of_known hc
  match c with
  | .root _ => cases harray
  | .derived .. => cases harray
  | .primitiveArray .. =>
    obtain ⟨-, rfl, -, -⟩ := hlinked
    rfl
  | .array .. =>
    obtain ⟨-, rfl, -, -⟩ := hlinked
    rfl

/-- No class but an array class has array classes above it. -/
def PlainAbove (a : Area) : Prop :=
  ∀ c, a.Owned c → c.isArray = false → ∀ s ∈ c.superclasses, s.isArray = false

/-- The same for whatever stands in the tables of the loaders. -/
def plainTables (a : Area) : Bool :=
  a.loaders.values.all fun d => d.loaded.values.all fun c =>
    c.isArray || c.superclasses.all fun s => !s.isArray

lemma plainAbove_of_plainTables (h : a.plainTables = true) : a.PlainAbove := by
  intro c hc hplain s hs
  obtain ⟨d, hd, hloaded⟩ := Option.bind_eq_some_iff.1 hc
  have htable := List.all_eq_true.1 h d (Table.mem_values_of_get? hd)
  have habove := List.all_eq_true.1 htable c (Table.mem_values_of_get? hloaded)
  rw [hplain, Bool.false_or] at habove
  simpa using List.all_eq_true.1 habove s hs

lemma PlainAbove.known (h : a.PlainAbove) (ha : a.Tidy) (hc : a.Known c)
    (hplain : c.isArray = false) : ∀ s ∈ c.superclasses, s.isArray = false := by
  rcases hc with hc | rfl
  · exact h c hc hplain
  · rw [ha.core]
    intro s hs
    have hmem : s ∈ [Boot.arrayStub, Boot.object] := hs
    rcases List.mem_cons.1 hmem with rfl | hmem
    · rfl
    · rw [List.mem_singleton.1 hmem]
      rfl

lemma Later.plainAbove (hlater : Later a q) (h : q.PlainAbove) : a.PlainAbove :=
  fun c hc => h c (hlater.kept _ _ c hc)

/-- What fits a class fits the classes above it. -/
lemma Tidy.fits_superclass (ha : a.Tidy) (hplain : a.PlainAbove) (hf : a.Grounded f)
    (hx : a.Known x) (hclass : x.isInterface = false) (hs : s ∈ x.superclasses)
    (hfits : f.fits x.form = true) : f.fits s.form = true := by
  cases harray : x.isArray with
  | true =>
    rw [ha.superclasses_of_isArray hx harray] at hs
    rcases List.mem_cons.1 hs with rfl | hs
    · exact hfits
    rw [List.mem_singleton.1 hs]
    have hle := Form.dimension_le_of_fits hfits
    rw [← Class.isArray_form, Form.isArray_iff] at harray
    cases f with
    | object v => exact absurd (Nat.lt_of_lt_of_le harray hle) (Nat.lt_irrefl 0)
    | primitives p => rfl
    | array f => rfl
  | false =>
    have hsplain := hplain.known ha hx harray s hs
    have hsknown := ha.admitted_of_known hx s hs
    have hsclass := ha.not_isInterface_of_superclass hx hclass s hs
    rw [Class.form_of_not_isArray harray] at hfits
    rw [Class.form_of_not_isArray hsplain]
    have hobject : x.takesArrays = true → s.takesArrays = true := by
      intro htakes
      have heq : ∀ i ∈ Boot.classes, x.same i = true → x = i :=
        fun i hi => (ha.same_iff hx (ha.known_boot hi)).1
      simp only [Class.takesArrays, Bool.or_eq_true] at htakes
      rcases htakes with (hsame | hsame) | hsame
      · rw [heq _ (by simp [Boot.classes]) hsame] at hs
        rw [List.mem_singleton.1 hs]
        rfl
      · rw [heq _ (by simp [Boot.classes]) hsame] at hclass
        cases hclass
      · rw [heq _ (by simp [Boot.classes]) hsame] at hclass
        cases hclass
    cases f with
    | object v =>
      obtain ⟨hv, hvplain⟩ := hf v rfl
      have hmem := (ha.isAssignableTo_iff_mem hv hx hvplain harray hclass).1 hfits
      exact (ha.isAssignableTo_iff_mem hv hsknown hvplain hsplain hsclass).2
        (Class.superclasses_trans hs hmem)
    | primitives p => exact hobject hfits
    | array f => exact hobject hfits

end Area

end Linkage
