import Linkage.Proofs.Resolver.Objects

/-!
# Which class is which

A class is told apart by its name and the loader that defined it. Whatever is done, failed
operations included, a loader has under a name a class of that name, which the loader that defined
it has as well; a class that was found by a name is found by it from then on, although lookups make
array classes on the way; and every class that was defined is counted once.
-/

namespace Linkage

open Relation

/-- The parts of a spelling are the names of components: the array class over a class has such a
name only if the class has the name that is left. -/
def Spelling.Faithful : Spelling → Prop
  | .plain n => IsPlain n
  | .nested n s => ¬ IsPlain n ∧ s.Faithful ∧ ∀ e : Class, e.arrayName = n → s = .ofName e.name
  | .object n s => ¬ IsPlain n ∧ s.Faithful ∧ ∀ e : Class, e.arrayName = n → s = .ofName e.name
  | .unclosed n => ¬ IsPlain n ∧ ∀ e : Class, e.arrayName ≠ n
  | .bare n _ => ¬ IsPlain n ∧ ∀ e : Class, e.arrayName ≠ n

/-- The name of an array class goes on with the name of another one or with a name between `L` and
`;`. -/
lemma Class.arrayName_ne {rest : List Char} (hhead : rest.head? ≠ some '[')
    (hunwrap : unwrapObject? rest = none) (e : Class) :
    e.arrayName ≠ String.ofList ('[' :: rest) := by
  intro he
  have hchars := congrArg String.toList he
  simp only [arrayName] at hchars
  split at hchars
  · next harray =>
    have hrest : e.name.toList = rest := by simpa using hchars
    exact hhead (hrest ▸ not_not.1 (not_isPlain_of_isArray harray))
  · have hrest : 'L' :: (e.name.toList ++ [';']) = rest := by simpa using hchars
    subst hrest
    simp [unwrapObject?] at hunwrap

lemma Spelling.faithful_ofName (name : String) : (ofName name).Faithful := by
  simp only [ofName]
  fun_induction ofChars name.toList with
  | case1 rest hhead ih =>
    refine ⟨not_isPlain_bracket rest, ih, fun e he => ?_⟩
    rw [Class.name_of_nested he hhead, ofName, String.toList_ofList]
  | case2 rest hhead element helement hlt ih =>
    refine ⟨not_isPlain_bracket rest, ih, fun e he => ?_⟩
    rw [Class.name_of_object he helement, ofName, String.toList_ofList]
  | case3 rest hhead helement =>
    exact ⟨not_isPlain_bracket rest, Class.arrayName_ne (by simp [hhead]) helement⟩
  | case4 rest hnested hobject =>
    refine ⟨not_isPlain_bracket rest, Class.arrayName_ne hnested ?_⟩
    unfold unwrapObject?
    split
    · exact absurd rfl hobject
    · rfl
  | case5 cs hplain => exact isPlain_of_forall hplain

namespace Area

variable {a b q : Area} {l : LoaderId} {name : String} {c : Class}

@[simp]
lemma findSpelled_plain (l : LoaderId) (name : String) (a : Area) :
    findSpelled l (.plain name) a = .ok (a.published? l name) a := rfl

/-- An array class that is found stands in the table, is one over a primitive type, or is asked for
over a component that is found. -/
lemma findArray_eq_some {short : Bool} {component : AreaM (Option Class)}
    (h : findArray l name short component a = .ok (some c) b) :
    a.published? l name = some c ∧ b = a ∨
      a.published? l name = none ∧
        (short = true ∧ a.published? .bootstrap name = some c ∧ b = a ∨
          short = false ∧ ∃ e s, component a = .ok (some e) s ∧ arrayOf e s = .ok c b) := by
  simp only [findArray] at h
  rw [bind_of_ok (get_apply a)] at h
  cases hc : a.published? l name with
  | some d =>
    rw [hc] at h
    cases h
    exact .inl ⟨rfl, rfl⟩
  | none =>
    rw [hc] at h
    refine .inr ⟨rfl, ?_⟩
    cases short with
    | true =>
      simp only [if_true, pure_apply, EStateM.Result.ok.injEq] at h
      exact .inl ⟨rfl, h.1, h.2.symm⟩
    | false =>
      simp only [Bool.false_eq_true, if_false] at h
      obtain ⟨v, s, hv, h⟩ := bind_eq_ok.1 h
      cases v with
      | none => cases h
      | some e =>
        simp only [arrayOf?_eq] at h
        cases hrun : arrayOf e s with
        | error x t =>
          rw [hrun] at h
          cases h
        | ok d t =>
          rw [hrun] at h
          cases h
          exact .inr ⟨rfl, e, s, hv, hrun⟩

/-- What any loader has under the name of an array over a primitive type is what the bootstrap
loader has there. -/
lemma Tidy.published?_short (h : a.Tidy) (hname : IsShortArray name)
    (hc : a.published? l name = some c) : a.published? .bootstrap name = some c := by
  have howned := (h.rooted l name c hc).owned
  have hkeyed := h.sound.keyed l name c hc
  have harray := h.arrays l name c hc hname.1
  have hlinked := h.linked c howned
  subst hkeyed
  match c with
  | .root _ => cases harray
  | .derived .. => cases harray
  | .array d s is e => exact absurd hname (Class.not_isShortArray_array d s is e)
  | .primitiveArray d s is p =>
    rw [← hlinked.1]
    exact howned

/-- What was found under the name of an array once is found again, if its component is. -/
lemma Tidy.findArray_again (hq : q.Tidy)
    (hkept : ∀ l n c, b.published? l n = some c → q.published? l n = some c)
    (hname : ¬ IsPlain name) {short : Bool} (hshort : short = true ↔ name.utf8ByteSize = 2)
    {component : AreaM (Option Class)}
    (hcomponent : ∀ e s, component a = .ok (some e) s →
      (∀ l n c, s.published? l n = some c → q.published? l n = some c) →
      component q = .ok (some e) q ∧
        ∀ e' : Class, e'.arrayName = name → component = findSpelled l (.ofName e'.name))
    (hrun : Area.findArray l name short component a = .ok (some c) b) :
    Area.findArray l name short component q = .ok (some c) q := by
  rcases findArray_eq_some hrun with ⟨hc, rfl⟩ | ⟨-, ⟨rfl, hc, rfl⟩ | ⟨rfl, e, s, he, harray⟩⟩
  · exact findArray_of_published (hkept l name c hc) _ _
  · rw [findArray_short]
    have hhome := hkept .bootstrap name c hc
    cases hx : q.published? l name with
    | none => simp [shortClass?, hx, hhome]
    | some x =>
      have hsame := hq.published?_short ⟨hname, hshort.1 rfl⟩ hx
      rw [hhome] at hsame
      cases hsame
      simp [shortClass?, hx]
  · have hsteps := arrayOf_steps e s
    rw [finalState_of_ok harray] at hsteps
    have hgrown : Grown s b :=
      Grown.of_steps (ReflTransGen.mono (fun _ _ => LoadStep.array) _ _ hsteps)
    obtain ⟨hagain, hover⟩ :=
      hcomponent e s he fun l n d hd => hkept l n d (hgrown.kept l n d hd)
    exact hq.findArray hname (fun hsize => absurd (hshort.2 hsize) (by simp)) hagain
      (hkept _ _ c (published?_of_arrayOf harray)) hover

lemma Tidy.findSpelled_again (hq : q.Tidy) {s : Spelling} (hs : s.Faithful)
    (hkept : ∀ l n c, b.published? l n = some c → q.published? l n = some c)
    (hrun : findSpelled l s a = .ok (some c) b) : findSpelled l s q = .ok (some c) q := by
  induction s generalizing a b c with
  | plain n =>
    simp only [findSpelled_plain, EStateM.Result.ok.injEq, and_true] at hrun ⊢
    obtain ⟨hc, rfl⟩ := hrun
    exact hkept l n c hc
  | nested n s ih =>
    obtain ⟨hname, hs, hover⟩ := hs
    exact hq.findArray_again hkept hname Spelling.isShort_iff
      (fun e t he ht => ⟨ih hs ht he, fun e' he' => by rw [hover e' he']⟩) hrun
  | object n s ih =>
    obtain ⟨hname, hs, hover⟩ := hs
    exact hq.findArray_again hkept hname Spelling.isShort_iff
      (fun e t he ht => ⟨ih hs ht he, fun e' he' => by rw [hover e' he']⟩) hrun
  | unclosed n => exact hq.findArray_again hkept hs.1 Spelling.isShort_iff (by simp) hrun
  | bare n s => exact hq.findArray_again hkept hs.1 Spelling.isShort_iff (by simp) hrun

/-- A class that was found by a name is found by it, without another change, wherever the classes
are kept. -/
lemma Tidy.find_again (hq : q.Tidy)
    (hkept : ∀ l n c, b.published? l n = some c → q.published? l n = some c)
    (hrun : findLoaded l name a = .ok (some c) b) : findLoaded l name q = .ok (some c) q :=
  hq.findSpelled_again (Spelling.faithful_ofName name) hkept hrun

end Area

namespace Resolver

/-- A class that was found stays found, in whatever state the resolver is later. -/
lemma GenuineRun.find_again {r q : Resolver} {a : Area} {l : LoaderId} {name : String} {c : Class}
    (hr : r.area.Tidy) (hfind : Area.findLoaded l name r.area = .ok (some c) a)
    (hq : GenuineRun { r with area := a } q) :
    Area.findLoaded l name q.area = .ok (some c) q.area := by
  have ha : a.Tidy := Area.tidy_of_ok (Area.carries_rooted.findLoaded l name) hr hfind
  exact (hq.tidy ha).find_again (fun _ _ _ hd => hq.kept ha hd) hfind

/-- Classes are what their names and loaders say. In every state that operations lead to, failed
ones included, what a loader has under a name is a class of that name which the loader that defined
it has too, so that no two classes share their name and that loader; a class that is found by a name
is found by it in every later state; and the classes that were defined since the start are as many
as the area has counted. -/
theorem classes_identified {start r : Resolver} (hstart : start.area = Area.initial)
    (hrun : GenuineRun start r) :
    (∀ l n c, r.area.published? l n = some c →
      c.name = n ∧ r.area.published? c.loader n = some c) ∧
    (∀ l n c l' n' d, r.area.published? l n = some c → r.area.published? l' n' = some d →
      c.name = d.name → c.loader = d.loader → c = d) ∧
    (∀ l n c a, Area.findLoaded l n r.area = .ok (some c) a →
      ∀ q, GenuineRun { r with area := a } q →
        Area.findLoaded l n q.area = .ok (some c) q.area) ∧
    r.area.defined.encard = r.area.loads := by
  have hr : r.area.Tidy := hrun.tidy (hstart ▸ Area.initial_tidy)
  refine ⟨fun l n c hc => ?_, fun l n c l' n' d hc hd hname hloader => ?_,
    fun l n c a hfind q hq => hq.find_again hr hfind, hr.counted⟩
  · have hname := hr.sound.keyed l n c hc
    exact ⟨hname, hname ▸ (hr.rooted l n c hc).owned⟩
  · exact (hr.rooted l n c hc).owned.eq_of_name (hr.rooted l' n' d hd).owned hname hloader

/-- Two loaders, of which the second asks the first, a class of each, and a class that neither
knows. -/
def delegatingOperations : List Operation :=
  [.addLoader .bootstrap false,
    .addLoader ⟨1⟩ false,
    .define ⟨1⟩ { name := "p/A", flags := Flag.accPublic.mask },
    .define ⟨2⟩ { name := "p/B", flags := Flag.accPublic.mask, superclass := some "p/A" },
    .load ⟨2⟩ "p/B",
    .load ⟨2⟩ "p/Missing"]

/-- The resolver when the classes are loaded. -/
def delegating : Resolver := performAll delegatingOperations { area := Area.initial }

lemma genuineRun_delegating : GenuineRun { area := Area.initial } delegating :=
  genuineRun_performAll (by simp [delegatingOperations, Operation.Genuine]) _

/-- The class of the first loader is the one that the second loader has, two classes were defined,
and an array class that a lookup makes is found from then on. -/
theorem delegated_class_identified :
    ∃ c array a, delegating.area.published? ⟨2⟩ "p/A" = some c ∧ c.loader = ⟨1⟩ ∧
      delegating.area.published? c.loader "p/A" = some c ∧
      delegating.area.defined.encard = 2 ∧
      delegating.area.published? ⟨1⟩ "[Lp/A;" = none ∧
      Area.findLoaded ⟨2⟩ "[Lp/A;" delegating.area = .ok (some array) a ∧
      ∀ q, GenuineRun { delegating with area := a } q →
        Area.findLoaded ⟨2⟩ "[Lp/A;" q.area = .ok (some array) q.area := by
  obtain ⟨hentries, -, hfound, hcount⟩ := classes_identified rfl genuineRun_delegating
  have hloader : (delegating.area.published? ⟨2⟩ "p/A").map Class.loader = some ⟨1⟩ := by
    decide +kernel
  have hmissing : (delegating.area.published? ⟨1⟩ "[Lp/A;").isNone = true := by
    decide +kernel
  have hmade : yields Option.isSome (Area.findLoaded ⟨2⟩ "[Lp/A;" delegating.area) = true := by
    decide +kernel
  have hloads : delegating.area.loads = 2 := by
    decide +kernel
  obtain ⟨c, hc, hcl⟩ := Option.map_eq_some_iff.1 hloader
  obtain ⟨found, a, harray, hsome⟩ := exists_of_yields hmade
  obtain ⟨array, rfl⟩ := Option.isSome_iff_exists.1 hsome
  refine ⟨c, array, a, hc, hcl, (hentries _ _ c hc).2, ?_, Option.isNone_iff_eq_none.1 hmissing,
    harray, hfound _ _ array a harray⟩
  rw [hcount, hloads]
  rfl

end Resolver

end Linkage
