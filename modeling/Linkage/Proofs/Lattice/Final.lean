import Linkage.Proofs.Lattice.Shape

/-!
# Answers that stay

A question about types may be left open as long as a class is not loaded. Once it is answered with
yes or no the answer stays, whatever is loaded later: what names tell of classes that are not there
is what the classes will say.

One name is special. The stand-in for the common supertype of arrays is in no table, but the array
classes over it are, and a class of the same name may be loaded. What the arrays over that name are
is settled when they are first asked for, not before.
-/

namespace Linkage

open Relation

/-! ### What fits -/

namespace Form

lemma fits_iff_of_elementType? {f g : Form} {p : Primitive} (h : g.elementType? = some p) :
    f.fits g = true ↔ f.dimension = g.dimension ∧ f.elementType? = some p := by
  induction g generalizing f with
  | object d => cases h
  | primitives q =>
    cases h
    cases f with
    | object v => simp [fits, dimension]
    | primitives p' => simp [fits, dimension, elementType?]
    | array f =>
      cases f with
      | object v => simp [fits, elementType?]
      | primitives | array => simp [fits, dimension]
  | array g ih =>
    have hpos := isArray_of_elementType? (f := g) h
    rw [isArray_iff] at hpos
    cases f with
    | object v => simp [fits, dimension]
    | primitives p' =>
      simp only [fits, dimension, Bool.false_eq_true, false_iff]
      omega
    | array f => simp [fits, dimension, elementType?, ih h]

lemma fits_of_element? {f g : Form} {d : Class} (h : g.element? = some d) :
    f.fits g =
      if f.dimension < g.dimension then false
      else if g.dimension < f.dimension then d.takesArrays
      else (f.element?.map fun v => v.isAssignableTo d).getD false := by
  induction g generalizing f with
  | object d' =>
    cases h
    cases f <;> simp [fits, dimension, element?]
  | primitives q => cases h
  | array g ih =>
    cases f with
    | object v => simp [fits, dimension]
    | primitives p =>
      cases g with
      | object d' => simp [fits, dimension, element?]
      | primitives q => cases h
      | array g => simp [fits, dimension]
    | array f => simp [fits, dimension, element?, ih h]

end Form

namespace Assignable

lemma maybe_of_and {x y : Assignable} (h : x.and y = maybe) : x = maybe ∨ y = maybe := by
  cases x <;> cases y <;> simp_all [Assignable.and]

lemma and_eq_of_definite {x y x' y' : Assignable} (hx : x ≠ maybe → x' = x)
    (hy : y ≠ maybe → y' = y) (h : x.and y ≠ maybe) : x'.and y' = x.and y := by
  cases x with
  | yes =>
    rw [hx (by simp), yes_and, yes_and]
    exact hy (by simpa using h)
  | no => rw [hx (by simp), no_and, no_and]
  | maybe =>
    cases y with
    | no => rw [hy (by simp), and_no, and_no]
    | yes | maybe => exact absurd rfl h

end Assignable

namespace ReferenceType

section

variable {t dest : ReferenceType} {f g : Form} {element element' : Mention → Assignable}

/-- What names tell where a class that is no array is expected. -/
lemma shapeVerdict_eq_fits_of_plain (ht : t.Shows f) (hdest : dest.Shows g)
    (hname : dest.mention.name = g.name)
    (htakes : ∀ d, g.element? = some d → d.takesArrays = isArraySupertypeName d.name)
    (hplain : dest.dimension = 0) (hdefinite : t.shapeVerdict dest element ≠ .maybe) :
    t.shapeVerdict dest element = .ofBool (f.fits g) := by
  rw [shapeVerdict_of_plain hplain] at hdefinite ⊢
  obtain ⟨d, rfl⟩ : ∃ d, g = .object d := by
    rw [hdest.dimension] at hplain
    cases g with
    | object d => exact ⟨d, rfl⟩
    | primitives | array => cases hplain
  by_cases ht' : t.dimension = 0
  · exact absurd (if_pos ht') hdefinite
  · have hpos : 0 < f.dimension := by
      rw [ht.dimension] at ht'
      omega
    rw [if_neg ht', hname, Form.fits_of_element? (g := .object d) rfl]
    simp only [Form.dimension, Nat.not_lt_zero, if_false, hpos, if_true, htakes d rfl, Form.name]

/-- What names tell where an array over a class is expected. -/
lemma shapeVerdict_eq_fits_of_class (ht : t.Shows f) (hdest : dest.Shows g)
    (htakes : ∀ d, g.element? = some d → d.takesArrays = isArraySupertypeName d.name)
    (helement : ∀ value e, t.elementClass = some value → dest.elementClass = some e →
      f.dimension = g.dimension → element value ≠ .maybe → element value = .ofBool (f.fits g))
    (hplain : dest.dimension ≠ 0) {d : Class} (hd : g.element? = some d)
    (hnone : g.elementType? = none) (hdefinite : t.shapeVerdict dest element ≠ .maybe) :
    t.shapeVerdict dest element = .ofBool (f.fits g) := by
  have hclass : g.elementClass? = some d := by
    rw [hdest.dimension] at hplain
    rw [Form.elementClass?, if_pos (Form.isArray_iff.2 (Nat.pos_of_ne_zero hplain)), hd]
  obtain ⟨e, he, hename⟩ : ∃ e, dest.elementClass = some e ∧ e.name = d.name := by
    have hnames := hdest.elementClass
    rw [hclass] at hnames
    exact Option.map_eq_some_iff.1 hnames
  rw [shapeVerdict_of_class hplain (hdest.elementType.trans hnone) he, ht.dimension,
    hdest.dimension] at hdefinite ⊢
  rw [hdest.dimension] at hplain
  have hfits := Form.fits_of_element? (f := f) hd
  by_cases hlt : f.dimension < g.dimension
  · rw [if_pos hlt, hfits, if_pos hlt]
    rfl
  rw [if_neg hlt] at hdefinite hfits ⊢
  by_cases hgt : g.dimension < f.dimension
  · rw [if_pos hgt, hfits, if_pos hgt, hename, htakes d hd]
  rw [if_neg hgt] at hdefinite hfits ⊢
  cases hvalue : t.elementClass with
  | some value =>
    rw [hvalue] at hdefinite
    exact helement value e hvalue he (by omega) hdefinite
  | none =>
    have hnames := ht.elementClass
    have harray : f.isArray = true := Form.isArray_iff.2 (by omega)
    rw [hvalue, Form.elementClass?, if_pos harray, Option.map_none, eq_comm,
      Option.map_eq_none_iff] at hnames
    rw [hfits, hnames]
    rfl

/-- What names tell of two classes is what the classes say, as far as names tell anything. -/
lemma shapeVerdict_eq_fits (ht : t.Shows f) (hdest : dest.Shows g)
    (hname : dest.mention.name = g.name)
    (htakes : ∀ d, g.element? = some d → d.takesArrays = isArraySupertypeName d.name)
    (helement : ∀ value e, t.elementClass = some value → dest.elementClass = some e →
      f.dimension = g.dimension → element value ≠ .maybe → element value = .ofBool (f.fits g))
    (hdefinite : t.shapeVerdict dest element ≠ .maybe) :
    t.shapeVerdict dest element = .ofBool (f.fits g) := by
  by_cases hplain : dest.dimension = 0
  · exact shapeVerdict_eq_fits_of_plain ht hdest hname htakes hplain hdefinite
  rcases g.element_cases with ⟨p, hp, -⟩ | ⟨d, hd, hnone⟩
  · rw [shapeVerdict_of_primitive hplain (hdest.elementType.trans hp), ht.dimension,
      hdest.dimension, ht.elementType]
    congr 1
    rw [Bool.eq_iff_iff, Form.fits_iff_of_elementType? hp]
    simp
  · exact shapeVerdict_eq_fits_of_class ht hdest htakes helement hplain hd hnone hdefinite

lemma shapeVerdict_congr
    (h : ∀ value e, t.elementClass = some value → dest.elementClass = some e →
      element value ≠ .maybe → element' value = element value)
    (hdefinite : t.shapeVerdict dest element ≠ .maybe) :
    t.shapeVerdict dest element' = t.shapeVerdict dest element := by
  by_cases hplain : dest.dimension = 0
  · rw [shapeVerdict_of_plain hplain, shapeVerdict_of_plain hplain]
  cases hp : dest.elementType with
  | some p => rw [shapeVerdict_of_primitive hplain hp, shapeVerdict_of_primitive hplain hp]
  | none =>
    cases he : dest.elementClass with
    | none => simp only [shapeVerdict, hp, he]
    | some e =>
      rw [shapeVerdict_of_class hplain hp he] at hdefinite ⊢
      rw [shapeVerdict_of_class hplain hp he]
      split
      · rfl
      · next hlt =>
        rw [if_neg hlt] at hdefinite
        split
        · rfl
        · next hgt =>
          rw [if_neg hgt] at hdefinite
          cases hvalue : t.elementClass with
          | none => rfl
          | some value =>
            rw [hvalue] at hdefinite
            exact h value e hvalue he hdefinite

end

/-- Of two classes that are no arrays nothing is known until they are found. -/
lemma known_or_found {look : Mention → Option Form} {v d : Mention}
    (hv : (ofMention v).dimension = 0) (hd : (ofMention d).dimension = 0)
    (h : verdict look v d ≠ .maybe) :
    (v.knownSame d || d.isObject) = true ∨ ∃ f g, look v = some f ∧ look d = some g := by
  by_contra hcontra
  rw [not_or, Bool.not_eq_true] at hcontra
  refine h ?_
  rw [verdict_of_missing hcontra.1, shapeVerdict_of_plain hd, if_pos hv]
  by_contra hboth
  rw [not_or, ← ne_eq, ← ne_eq, Option.ne_none_iff_exists', Option.ne_none_iff_exists'] at hboth
  obtain ⟨⟨f, hf⟩, g, hg⟩ := hboth
  exact hcontra.2 ⟨f, g, hf, hg⟩

lemma missing_of_maybe {look : Mention → Option Form} {v d : Mention}
    (h : verdict look v d = .maybe) : look v = none ∨ look d = none := by
  cases hknown : v.knownSame d || d.isObject with
  | true =>
    rw [verdict_of_known hknown] at h
    cases h
  | false =>
    cases hv : look v with
    | none => exact .inl rfl
    | some f =>
      cases hd : look d with
      | none => exact .inr rfl
      | some g =>
        rw [verdict_of_found hknown hv hd] at h
        cases hfits : f.fits g <;> rw [hfits] at h <;> cases h

lemma exists_of_verdicts_maybe {look : Mention → Option Form} {d : Mention} {ms : List Mention}
    (h : verdicts look d ms = .maybe) : ∃ m ∈ ms, verdict look m d = .maybe := by
  induction ms with
  | nil => cases h
  | cons m ms ih =>
    rw [verdicts] at h
    rcases Assignable.maybe_of_and h with hm | hms
    · exact ⟨m, List.mem_cons_self, hm⟩
    · obtain ⟨m', hm', hmaybe⟩ := ih hms
      exact ⟨m', List.mem_cons_of_mem _ hm', hmaybe⟩

/-- A definite answer about several classes stays, if each definite answer about one of them
does. -/
lemma verdicts_eq {look look' : Mention → Option Form} {d : Mention} {ms : List Mention}
    (h : ∀ m ∈ ms, verdict look m d ≠ .maybe → verdict look' m d = verdict look m d)
    (hdefinite : verdicts look d ms ≠ .maybe) : verdicts look' d ms = verdicts look d ms := by
  induction ms with
  | nil => rfl
  | cons m ms ih =>
    exact Assignable.and_eq_of_definite (h m List.mem_cons_self)
      (ih fun m hm => h m (List.mem_cons_of_mem _ hm)) hdefinite

end ReferenceType

/-! ### Well-formed names -/

/-- A class that is only named is named by a well-formed name. -/
def Mention.WellNamed : Mention → Prop
  | .loaded _ => True
  | .symbolic r => IsWellFormed r.name

lemma IsArrayName.not_mem_element {cs e : List Char} (h : IsArrayName cs)
    (he : unwrapObject? (cs.dropWhile (· = '[')) = some e) : '[' ∉ e := by
  induction h with
  | primitive p => cases p <;> simp [Primitive.letter, unwrapObject?] at he
  | @object cs h =>
    have hcs : cs = e := by simpa [unwrapObject?] using he
    exact hcs ▸ h.1
  | nested h ih => exact ih (by simpa using he)

lemma IsArrayName.two_le_length {cs : List Char} (h : IsArrayName cs) : 2 ≤ cs.length := by
  induction h with
  | primitive p => simp
  | object h => simp
  | nested h ih => exact Nat.le_succ_of_le ih

/-- The name of an array over a class of another name. -/
lemma IsArrayName.avoids {cs : List Char} (h : IsArrayName cs) {n : String}
    (hn : IsPlain n)
    (helement : ∀ e, unwrapObject? (cs.dropWhile (· = '[')) = some e → String.ofList e ≠ n) :
    (Spelling.ofChars cs).Avoids n := by
  induction h with
  | primitive p =>
    cases p <;>
    · rw [Primitive.letter, Spelling.ofChars]
      trivial
  | @object cs h =>
    have hunwrap := unwrapObject?_object cs
    rw [Spelling.ofChars_object hunwrap, Spelling.ofChars_plain]
    · exact ⟨helement cs hunwrap, trivial⟩
    · exact fun hhead => h.1 (List.mem_of_mem_head? hhead)
  | @nested cs h ih =>
    rw [Spelling.ofChars_nested h.head?_eq]
    refine ⟨?_, ih fun e he => helement e (by simpa using he)⟩
    rw [Spelling.name_ofChars]
    rintro rfl
    exact isPlain_ofList.1 hn h.head?_eq

/-- The name of an array over the name of the stand-in for the common supertype of arrays. -/
def Mention.NamesStubArray : Mention → Prop
  | .loaded _ => False
  | .symbolic r =>
    ∃ e, (ReferenceType.ofClassRef r).elementClass = some e ∧ e.name = Boot.arrayStubName

open ReferenceType

/-- What is below the levels of an array is no array. -/
lemma Mention.WellNamed.dimension_element {m e : Mention} (h : m.WellNamed)
    (he : (ofMention m).elementClass = some e) : (ofMention e).dimension = 0 := by
  cases m with
  | loaded c =>
    obtain ⟨x, hx, rfl⟩ := Option.map_eq_some_iff.1 he
    simp only [Class.elementClass?] at hx
    split at hx
    · exact Class.dimension_of_element? hx
    · cases hx
  | symbolic r =>
    obtain ⟨hlevels, e, hunwrap, rfl⟩ := elementClass_ofClassRef_iff.1 he
    refine isPlain_iff_dimension.2 (isPlain_ofList.2 fun hhead => ?_)
    have hmem : '[' ∈ e := List.mem_of_mem_head? hhead
    rcases h with hplain | harray
    · refine hlevels (levels_eq_zero_iff.2 fun hhead => ?_)
      exact hplain.1 (List.mem_of_mem_head? hhead)
    · exact harray.not_mem_element hunwrap hmem

/-! ### The supertypes of arrays -/

/-- Every class stands below the top of the hierarchy. -/
lemma Class.object_mem_superclasses : ∀ {c : Class}, (∀ t ∈ c.superclasses, t.Linked) →
    Boot.object ∈ c.superclasses
  | .root d, h => by
    have hroot : Class.root d = Boot.object := h _ List.mem_cons_self
    rw [hroot]
    exact mem_superclasses_self _
  | .derived _ s _, h =>
    List.mem_cons_of_mem _ (object_mem_superclasses fun t ht => h t (List.mem_cons_of_mem _ ht))
  | .primitiveArray _ s _ _, h =>
    List.mem_cons_of_mem _ (object_mem_superclasses fun t ht => h t (List.mem_cons_of_mem _ ht))
  | .array _ s _ _, h =>
    List.mem_cons_of_mem _ (object_mem_superclasses fun t ht => h t (List.mem_cons_of_mem _ ht))

namespace Area

variable {a q : Area} {l : LoaderId} {m v d w e : Mention} {f g : Form} {c : Class}

/-- No loader but the bootstrap loader has defined a class that goes by the name of one of the
supertypes of arrays. -/
def StandardNames (a : Area) : Prop :=
  ∀ l n c, isArraySupertypeName n = true → a.published? l n = some c → c.loader = .bootstrap

lemma Tidy.isAssignableTo_object (h : a.Tidy) (hc : a.Known c) :
    c.isAssignableTo Boot.object = true := by
  cases harray : c.isArray with
  | true =>
    rw [h.isAssignableTo_of_array hc (h.known_boot (by simp [Boot.classes])) harray rfl]
    rfl
  | false =>
    have hmem := Class.object_mem_superclasses fun t ht =>
      h.linked_of_known (h.admitted_of_known hc t ht)
    have hsub : c.isSubclassOf Boot.object = true :=
      List.any_eq_true.2 ⟨Boot.object, hmem, Class.same_self _⟩
    have hplain : Boot.object.isInterface = false ∧ Boot.object.isArray = false := ⟨rfl, rfl⟩
    unfold Class.isAssignableTo
    cases c with
    | root | derived => simp [hplain, harray, hsub]
    | primitiveArray | array => cases harray

lemma StandardNames.eq_boot (hstd : a.StandardNames) (h : a.Tidy) {b : Class}
    (hb : b ∈ Boot.classes) (htop : isArraySupertypeName b.name = true) (hc : a.Known c)
    (hname : c.name = b.name) : c = b := by
  rcases hc with hc | rfl
  · refine hc.eq_of_name (h.started b (initial_owned hb)) hname ?_
    rw [boot_loader hb]
    exact hstd _ _ c (hname ▸ htop) hc
  · rw [← hname, h.core] at htop
    exact absurd htop (by decide)

/-- The classes that take arrays are told by their names. -/
lemma StandardNames.takesArrays_eq (hstd : a.StandardNames) (h : a.Tidy) (hc : a.Known c) :
    c.takesArrays = isArraySupertypeName c.name := by
  have hboot : ∀ b ∈ Boot.classes, isArraySupertypeName b.name = true →
      (c.same b = true ↔ c.name = b.name) := by
    intro b hb htop
    rw [h.same_iff hc (h.known_boot hb)]
    exact ⟨fun heq => by rw [heq], hstd.eq_boot h hb htop hc⟩
  rw [Bool.eq_iff_iff]
  simp only [Class.takesArrays, Bool.or_eq_true]
  rw [hboot Boot.object (by simp [Boot.classes]) (by decide),
    hboot Boot.cloneable (by simp [Boot.classes]) (by decide),
    hboot Boot.serializable (by simp [Boot.classes]) (by decide)]
  simp only [isArraySupertypeName, Bool.or_eq_true, decide_eq_true_eq]
  rfl

/-! ### Classes that are found -/

/-- A class that is found is as its mention shows. -/
lemma Tidy.shows (h : a.Tidy) (hm : m.WellNamed) (hf : a.look m = some f) :
    (ofMention m).Shows f ∧ f.name = m.name := by
  cases m with
  | loaded c =>
    cases hf
    exact ⟨shows_ofClass c, c.name_form⟩
  | symbolic r =>
    have hname : f.name = r.name := h.name_of_form? hm hf
    have hform := hasForm_of_form? h _ hf
    exact ⟨shows_ofClassRef hname (hform.element_plain h) (hform.dimension_le h), hname⟩

/-- Mentions that are known to mean the same class agree in name and loader. -/
lemma Tidy.names_of_knownSame (h : a.Tidy) (hv : v.Given a) (hd : d.Given a)
    (hsame : v.knownSame d = true) : v.name = d.name ∧ v.loader = d.loader := by
  match v, d with
  | .loaded x, .loaded y =>
    rw [(h.same_iff hv hd).1 hsame]
    exact ⟨rfl, rfl⟩
  | .symbolic r, d => simpa [Mention.knownSame] using hsame
  | .loaded x, .symbolic r => simpa [Mention.knownSame] using hsame

/-- Arrays of as many levels over elements that are known to be the same are the same, and known to
be so from their names. -/
lemma Tidy.element_eq (h : a.Tidy) (hv : v.Given a) (hd : d.Given a)
    (hw : (ofMention v).elementClass = some w) (he : (ofMention d).elementClass = some e)
    (hsame : w.knownSame e = true) (hknown : v.knownSame d = false) {f g : Form}
    (hf : a.look v = some f) (hg : a.look d = some g) (hfname : f.name = v.name)
    (hgname : g.name = d.name) (hdim : f.dimension = g.dimension) {x y : Class}
    (hx : f.elementClass? = some x) (hy : g.elementClass? = some y) (hxname : x.name = w.name)
    (hyname : y.name = e.name) : x = y := by
  have hwgiven := h.element_given hv hw
  have hegiven := h.element_given hd he
  obtain ⟨hname, hloader⟩ := h.names_of_knownSame hwgiven hegiven hsame
  rw [h.loader_element hv hw, h.loader_element hd he] at hloader
  have hnames : v.name = d.name := by
    rw [← hfname, ← hgname]
    apply String.toList_inj.1
    rw [Form.toList_name_of_elementClass? hx, Form.toList_name_of_elementClass? hy, hdim, hxname,
      hyname, hname]
  match v, d with
  | .loaded c₁, .loaded c₂ =>
    cases hf
    cases hg
    rw [Form.elementClass?_form] at hx hy
    simp only [ofMention, ofClass, hx, hy, Option.map_some, Option.some.injEq] at hw he
    subst hw he
    exact (h.same_iff hwgiven hegiven).1 hsame
  | .symbolic r, d => simp [Mention.knownSame, hnames, hloader] at hknown
  | .loaded c₁, .symbolic r => simp [Mention.knownSame, hnames, hloader] at hknown

/-- An array over a class that is found is found itself, unless it has too many levels. -/
lemma found_of_element (h : a.Tidy) {cs element : List Char} (hcs : IsArrayName cs)
    (hlevels : (splitDimensions (String.ofList cs)).1 ≤ maxDimension)
    (helement : unwrapObject? (cs.dropWhile (· = '[')) = some element)
    (hc : a.published? l (String.ofList element) = some c) :
    ∃ f, a.form? l (.ofChars cs) = some f := by
  have hfound : ∀ name x, name.utf8ByteSize ≠ 2 → x.dimension ≠ maxDimension →
      ∃ f, a.formArray? l name (decide (name.utf8ByteSize = 2)) (some x) = some f := by
    intro name x hlong hdim
    simp only [formArray?, hlong, decide_false, Bool.false_eq_true, if_false, Option.bind_some,
      formOver, hdim]
    split
    · exact ⟨_, rfl⟩
    · split <;> exact ⟨_, rfl⟩
  induction hcs with
  | primitive p => cases p <;> simp [Primitive.letter, unwrapObject?] at helement
  | @object cs hcs =>
    have hunwrap := unwrapObject?_object cs
    obtain rfl : cs = element := by simpa [unwrapObject?] using helement
    have hplain : cs.head? ≠ some '[' := fun hhead => hcs.1 (List.mem_of_mem_head? hhead)
    rw [Spelling.ofChars_object hunwrap, form?, Spelling.ofChars_plain hplain, form?, hc]
    refine hfound _ c.form (size_ne_of_three_le (by simp)) ?_
    have hcplain : c.isArray = false := by
      rw [Bool.eq_false_iff]
      intro harray
      refine Class.not_isPlain_of_isArray harray ?_
      rw [h.sound.keyed l _ c hc]
      exact isPlain_ofList.2 hplain
    rw [Class.form_of_not_isArray hcplain]
    exact (by decide : 0 ≠ maxDimension)
  | @nested cs hcs ih =>
    have hsplit : (splitDimensions (String.ofList ('[' :: cs))).1 =
        (splitDimensions (String.ofList cs)).1 + 1 := by
      simp [splitDimensions]
    rw [hsplit] at hlevels
    obtain ⟨f, hf⟩ := ih (by omega) (by simpa using helement)
    have hform := hasForm_of_form? h _ hf
    have hdim := Form.levels_name (hform.element_plain h)
    rw [(name_of_isArrayName h hcs hf).2] at hdim
    rw [Spelling.ofChars_nested hcs.head?_eq, form?, hf]
    exact hfound _ f (size_ne_of_three_le (Nat.succ_le_succ hcs.two_le_length)) (by omega)

/-! ### Later states -/

namespace Later

variable (hlater : Later a q)
include hlater

/-- A class that is no array and that is found stays found. -/
lemma look_of_plain (hm : (ofMention m).dimension = 0) (hf : a.look m = some f) :
    q.look m = some f := by
  cases m with
  | loaded c => exact hf
  | symbolic r =>
    have hplain := isPlain_iff_dimension.1 hm
    simp only [look, Spelling.ofName_eq_plain hplain, form?] at hf ⊢
    obtain ⟨c, hc, rfl⟩ := Option.map_eq_some_iff.1 hf
    rw [hlater.kept _ _ c hc, Option.map_some]

/-- If an array is found later and its element is found now, so is the array. -/
lemma found_before (hm : m.WellNamed) (he : (ofMention m).elementClass = some e)
    (hf : a.look e = some f) (hg : q.look m = some g) : ∃ x, a.look m = some x := by
  cases m with
  | loaded c => exact ⟨_, rfl⟩
  | symbolic r =>
    obtain ⟨hlevels, element, hunwrap, rfl⟩ := elementClass_ofClassRef_iff.1 he
    rcases hm with hplain | harray
    · refine absurd (levels_eq_zero_iff.2 fun hhead => ?_) hlevels
      exact hplain.1 (List.mem_of_mem_head? hhead)
    · have hplain : IsPlain (String.ofList element) := isPlain_ofList.2 fun hhead =>
        harray.not_mem_element hunwrap (List.mem_of_mem_head? hhead)
      simp only [look, Spelling.ofName_eq_plain hplain, form?] at hf
      obtain ⟨c, hc, rfl⟩ := Option.map_eq_some_iff.1 hf
      refine found_of_element hlater.before harray ?_ hunwrap hc
      have hform := hasForm_of_form? hlater.after _ hg
      rw [String.ofList_toList, ← hlater.after.name_of_form? (.inr harray) hg,
        Form.levels_name (hform.element_plain hlater.after)]
      exact hform.dimension_le hlater.after

/-- What is answered about the elements of two arrays that are not found yet is what the arrays say
when they are found. -/
lemma element_verdict (hstd : q.StandardNames) (hv : v.Given a) (hd : d.Given a)
    (hvn : v.WellNamed) (hdn : d.WellNamed) (hknown : v.knownSame d = false)
    (hmissing : a.look v = none ∨ a.look d = none) (hf : q.look v = some f)
    (hg : q.look d = some g) (hdim : f.dimension = g.dimension)
    (hw : (ofMention v).elementClass = some w) (he : (ofMention d).elementClass = some e)
    (hdefinite : verdict a.look w e ≠ .maybe) :
    verdict a.look w e = .ofBool (f.fits g) := by
  have hq := hlater.after
  obtain ⟨hfshows, hfname⟩ := hq.shows hvn hf
  obtain ⟨hgshows, hgname⟩ := hq.shows hdn hg
  have helement : ∀ {m w : Mention} {f : Form}, (ofMention m).Shows f →
      (ofMention m).elementClass = some w →
      ∃ x, f.elementClass? = some x ∧ x.name = w.name ∧ f.element? = some x := by
    intro m w f hshows hw
    have hnames := hshows.elementClass
    rw [hw, Option.map_some] at hnames
    obtain ⟨x, hx, hname⟩ := Option.map_eq_some_iff.1 hnames.symm
    refine ⟨x, hx, hname, ?_⟩
    rw [Form.elementClass?] at hx
    split at hx
    · exact hx
    · cases hx
  obtain ⟨x, hx, hxname, hxelement⟩ := helement hfshows hw
  obtain ⟨y, hy, hyname, hyelement⟩ := helement hgshows he
  have hvq := hlater.given hv
  have hdq := hlater.given hd
  have hfits : f.fits g = x.isAssignableTo y := by
    rw [Form.fits_of_element? hyelement, hdim, if_neg (Nat.lt_irrefl _), if_neg (Nat.lt_irrefl _),
      hxelement]
    rfl
  rcases known_or_found (hvn.dimension_element hw) (hdn.dimension_element he) hdefinite with
    hsame | ⟨_, _, hwfound, hefound⟩
  · rw [verdict_of_known hsame, hfits]
    rcases Bool.or_eq_true_iff.1 hsame with hsame | hobject
    · rw [hq.element_eq hvq hdq hw he hsame hknown hf hg hfname hgname hdim hx hy hxname hyname,
        Class.isAssignableTo_self]
      rfl
    · have hname : y.name = Boot.object.name := hyname.trans (of_decide_eq_true hobject)
      rw [hstd.eq_boot hq (by simp [Boot.classes]) (by decide)
        (hq.grounded_of_look hdq hg y hyelement).1 hname,
        hq.isAssignableTo_object (hq.grounded_of_look hvq hf x hxelement).1]
      rfl
  · obtain ⟨_, hvfound⟩ := hlater.found_before hvn hw hwfound hf
    obtain ⟨_, hdfound⟩ := hlater.found_before hdn he hefound hg
    rw [hvfound, hdfound] at hmissing
    simp at hmissing

/-- A definite answer about two classes that are no arrays stays. -/
lemma verdict_of_plain (hv : (ofMention v).dimension = 0) (hd : (ofMention d).dimension = 0)
    (hdefinite : verdict a.look v d ≠ .maybe) : verdict q.look v d = verdict a.look v d := by
  rcases known_or_found hv hd hdefinite with hknown | ⟨f, g, hf, hg⟩
  · rw [verdict_of_known hknown, verdict_of_known hknown]
  · cases hknown : v.knownSame d || d.isObject with
    | true => rw [verdict_of_known hknown, verdict_of_known hknown]
    | false =>
      rw [verdict_of_found hknown hf hg, verdict_of_found hknown (hlater.look_of_plain hv hf)
        (hlater.look_of_plain hd hg)]

/-- A definite answer about two classes stays, if what is found now is found later. -/
lemma verdict_eq (hstd : q.StandardNames) (hv : v.Given a) (hd : d.Given a)
    (hvn : v.WellNamed) (hdn : d.WellNamed) (hvkept : ∀ f, a.look v = some f → q.look v = some f)
    (hdkept : ∀ f, a.look d = some f → q.look d = some f)
    (hdefinite : verdict a.look v d ≠ .maybe) : verdict q.look v d = verdict a.look v d := by
  cases hknown : v.knownSame d || d.isObject with
  | true => rw [verdict_of_known hknown, verdict_of_known hknown]
  | false =>
    have hcases : ∀ b : Area, (∃ f g, b.look v = some f ∧ b.look d = some g) ∨
        (b.look v = none ∨ b.look d = none) := by
      intro b
      cases b.look v <;> cases b.look d <;> simp
    rcases hcases a with ⟨f, g, hf, hg⟩ | hmissing
    · rw [verdict_of_found hknown hf hg, verdict_of_found hknown (hvkept f hf) (hdkept g hg)]
    rw [verdict_of_missing hknown hmissing] at hdefinite ⊢
    obtain ⟨hsame, -⟩ := Bool.or_eq_false_iff.1 hknown
    rcases hcases q with ⟨f, g, hf, hg⟩ | hmissing'
    · rw [verdict_of_found hknown hf hg]
      symm
      obtain ⟨hfshows, -⟩ := hlater.after.shows hvn hf
      obtain ⟨hgshows, hgname⟩ := hlater.after.shows hdn hg
      refine shapeVerdict_eq_fits hfshows hgshows ?_ (fun y hy => ?_) (fun w e hw he hdim hw' => ?_)
        hdefinite
      · rw [mention_ofMention, hgname]
      · exact hstd.takesArrays_eq hlater.after
          (hlater.after.grounded_of_look (hlater.given hd) hg y hy).1
      · simp only [elementVerdict, he] at hw' ⊢
        exact hlater.element_verdict hstd hv hd hvn hdn hsame hmissing hf hg hdim hw he hw'
    · rw [verdict_of_missing hknown hmissing']
      refine shapeVerdict_congr (fun w e hw he hw' => ?_) hdefinite
      simp only [elementVerdict, he] at hw' ⊢
      exact hlater.verdict_of_plain (hvn.dimension_element hw) (hdn.dimension_element he) hw'

end Later

/-- A class that is found stays found, unless it is an array over the stand-in for the common
supertype of arrays or over a class of its name. -/
lemma Later.look_eq (hlater : Later a q) (hm : m.WellNamed)
    (hclear : q.Unshadowed ∨ ¬ m.NamesStubArray) (hf : a.look m = some f) : q.look m = some f := by
  cases m with
  | loaded c => exact hf
  | symbolic r =>
    refine hlater.form?_eq (Spelling.faithful_ofName r.name) (hclear.imp_right fun hnot => ?_) hf
    rcases hm with hplain | harray
    · have hhead : IsPlain r.name := fun hhead => hplain.1 (List.mem_of_mem_head? hhead)
      rw [Spelling.ofName_eq_plain hhead]
      trivial
    · refine harray.avoids (by decide) fun element hunwrap hname => hnot ?_
      refine ⟨_, elementClass_ofClassRef_iff.2 ⟨?_, element, hunwrap, rfl⟩, hname⟩
      rw [ne_eq, levels_eq_zero_iff]
      exact fun hplain => hplain harray.head?_eq

/-- What was found when it was asked for is found later. -/
lemma Tidy.look_of_find {b : Area} {x : Option Class} (h : a.Tidy) (hm : m.Given a)
    (hrun : m.find a = .ok x b) (hlater : Later b q) (hf : a.look m = some f) :
    q.look m = some f := by
  cases m with
  | loaded c => exact hf
  | symbolic r =>
    obtain ⟨x', b', hrun', -, hform, -⟩ := h.find_look hm
    rw [hrun] at hrun'
    cases hrun'
    rw [hf] at hform
    obtain ⟨c, rfl, rfl⟩ := Option.map_eq_some_iff.1 hform
    have hagain := hlater.after.find_again hlater.kept hrun
    obtain ⟨y, b', hrun', hform⟩ :=
      hlater.after.findSpelled_form r.referer.loader (.ofName r.name)
    rw [show findSpelled r.referer.loader (.ofName r.name) q = .ok (some c) q from hagain] at hrun'
    cases hrun'
    exact hform.symm

/-- A question that was answered has settled which classes it was about, if it had to look for
them. -/
lemma Later.look_of_answer {b : Area} {x : Assignable} (hlater : Later b q) (ha : a.Tidy)
    (hv : v.Given a) (hd : d.Given a) (hknown : (v.knownSame d || d.isObject) = false)
    (hrun : classAssignable v d a = .ok x b) :
    (∀ f, a.look v = some f → q.look v = some f) ∧
      ∀ f, a.look d = some f → q.look d = some f := by
  obtain ⟨xv, s, hxv, hs, hvform, hvknown⟩ := ha.find_look hv
  have hstidy := hs.tidy ha
  obtain ⟨xd, t, hxd, ht, hdform, hdknown⟩ := hstidy.find_look (hs.given ha hd)
  have hasked : Asked a t := hs.trans ht
  rw [classAssignable, if_neg (by simp [hknown]), bind_of_ok hxv, bind_of_ok hxd] at hrun
  have hlook := ht.look_eq hstidy
  obtain ⟨b', hrun', hb⟩ := answers_compared (ht.tidy hstidy) (hasked.given ha hv)
    (hasked.given ha hd) hknown (by rw [hvform, hasked.look_eq ha])
    (fun x hx => ht.known hstidy (hvknown x hx)) (by rw [hdform, hlook]) hdknown
    fun w e _ hw he => answers_classAssignable (ht.tidy hstidy) hw he
  obtain rfl : b' = b := by
    have heq := hrun'.symm.trans hrun
    cases heq
    rfl
  have htq : Later t q := (hb.later (ht.tidy hstidy)).trans hlater
  refine ⟨fun f hf => ?_, fun f hf => ?_⟩
  · exact ha.look_of_find hv hxv ((ht.later hstidy).trans htq) hf
  · rw [← hs.look_eq ha] at hf
    exact hstidy.look_of_find (hs.given ha hd) hxd htq hf

lemma Later.look_of_answers {b : Area} {ms : List Mention} {x : Assignable} (hlater : Later b q)
    (ha : a.Tidy) (hms : ∀ m ∈ ms, m.Given a) (hd : d.Given a)
    (hrun : allAssignable d ms a = .ok x b) :
    ∀ v ∈ ms, (v.knownSame d || d.isObject) = false →
      (∀ f, a.look v = some f → q.look v = some f) ∧
        ∀ f, a.look d = some f → q.look d = some f := by
  induction ms generalizing a x with
  | nil => simp
  | cons m ms ih =>
    have hm := hms m List.mem_cons_self
    obtain ⟨y, s, hy, hrest⟩ := bind_eq_ok.1 hrun
    obtain ⟨z, t, hz, hpure⟩ := bind_eq_ok.1 hrest
    cases hpure
    obtain ⟨s', hs', hasked⟩ := answers_classAssignable ha hm hd
    rw [hy] at hs'
    cases hs'
    have hstidy := hasked.tidy ha
    have hmsgiven : ∀ m ∈ ms, m.Given s :=
      fun m hm => hasked.given ha (hms m (List.mem_cons_of_mem _ hm))
    obtain ⟨t', ht', hlast⟩ := answers_allAssignable hstidy (hasked.given ha hd) hmsgiven
    rw [hz] at ht'
    cases ht'
    intro v hv hknown
    rcases List.mem_cons.1 hv with rfl | hv
    · exact ((hlast.later hstidy).trans hlater).look_of_answer ha hm hd hknown hy
    · have hrestlook := ih hstidy hmsgiven (hasked.given ha hd) hz v hv hknown
      rwa [hasked.look_eq ha] at hrestlook

/-- A definite answer about several classes stays, if what is found now and had to be looked for is
found later. -/
lemma Later.verdicts_eq {ms : List Mention} (hlater : Later a q) (hstd : q.StandardNames)
    (hms : ∀ m ∈ ms, m.Given a ∧ m.WellNamed) (hd : d.Given a ∧ d.WellNamed)
    (hkept : ∀ v ∈ ms, (v.knownSame d || d.isObject) = false →
      (∀ f, a.look v = some f → q.look v = some f) ∧
        ∀ f, a.look d = some f → q.look d = some f)
    (hdefinite : verdicts a.look d ms ≠ .maybe) :
    verdicts q.look d ms = verdicts a.look d ms := by
  refine ReferenceType.verdicts_eq (fun m hm hdefinite => ?_) hdefinite
  cases hknown : m.knownSame d || d.isObject with
  | true => rw [verdict_of_known hknown, verdict_of_known hknown]
  | false =>
    obtain ⟨hmkept, hdkept⟩ := hkept m hm hknown
    exact hlater.verdict_eq hstd (hms m hm).1 hd.1 (hms m hm).2 hd.2 hmkept hdkept hdefinite

/-- A mentioned class without a form is not found. -/
lemma Tidy.find_eq_none (h : a.Tidy) (hm : m.Given a) (hnone : a.look m = none) :
    ∃ b, m.find a = .ok none b := by
  obtain ⟨x, b, hrun, -, hform, -⟩ := h.find_look hm
  rw [hnone, Option.map_eq_none_iff] at hform
  exact ⟨b, hform ▸ hrun⟩

end Area

/-- A question about types is left open only if a class that it is about is not found. -/
lemma Area.Tidy.missing_of_verdict {a : Area} (h : a.Tidy) {t d : ValueType}
    (ht : t.Over (Mention.Given a)) (hd : d.Over (Mention.Given a))
    (hmaybe : t.verdict a.look d = .maybe) :
    ∃ s u m b, t = .reference s ∧ d = .reference u ∧ (m ∈ s.branches ∨ m = u.mention) ∧
      m.find a = .ok none b := by
  cases t with
  | reference s =>
    cases d with
    | reference u =>
      obtain ⟨m, hm, hmaybe⟩ := exists_of_verdicts_maybe hmaybe
      rcases missing_of_maybe hmaybe with hnone | hnone
      · obtain ⟨b, hb⟩ := h.find_eq_none ((ht s rfl).2 m hm) hnone
        exact ⟨s, u, m, b, rfl, rfl, .inl hm, hb⟩
      · obtain ⟨b, hb⟩ := h.find_eq_none (hd u rfl).1 hnone
        exact ⟨s, u, u.mention, b, rfl, rfl, .inr rfl, hb⟩
    | _ => cases hmaybe
  | uninitialized i =>
    cases d with
    | uninitialized j =>
      by_cases hij : i = j <;> simp [ValueType.verdict, Assignable.ofBool, hij] at hmaybe
    | _ => cases hmaybe
  | _ => cases d <;> cases hmaybe

namespace Resolver

/-- Definite answers stay. In every state that operations lead to, a question about types whose
named classes have well-formed names is answered. It is left open only if a class of the value or
the class that is expected is not found. An answer with yes or no is the answer in every later
state, as long as no other loader defines the supertypes of arrays: in every state that comes after
the question, and, whether it was asked or not, in every state in which no class of the bootstrap
loader goes by the name of the stand-in for the common supertype of arrays, or in all if no array
over that name is mentioned. -/
theorem definite_answers_final {start r : Resolver} (hstart : start.area = Area.initial)
    (hrun : GenuineRun start r) {t d : ValueType}
    (ht : t.Over fun m => m.Given r.area ∧ m.WellNamed)
    (hd : d.Over fun m => m.Given r.area ∧ m.WellNamed) :
    ∃ x a, t.assignable d r.area = .ok x a ∧
      (x = .maybe → ∃ s u m b, t = .reference s ∧ d = .reference u ∧
        (m ∈ s.branches ∨ m = u.mention) ∧ m.find r.area = .ok none b) ∧
      (x ≠ .maybe → ∀ q : Resolver, q.area.StandardNames →
        (GenuineRun { r with area := a } q ∨ GenuineRun r q ∧
          (q.area.Unshadowed ∨ t.Over (¬ Mention.NamesStubArray ·) ∧
            d.Over (¬ Mention.NamesStubArray ·))) →
        ∃ b, t.assignable d q.area = .ok x b) := by
  have hr : r.area.Tidy := hrun.tidy (hstart ▸ Area.initial_tidy)
  have htgiven : t.Over (Mention.Given r.area) := ht.imp fun _ hm => hm.1
  have hdgiven : d.Over (Mention.Given r.area) := hd.imp fun _ hm => hm.1
  obtain ⟨a, hanswer, hasked⟩ := ValueType.answers_assignable hr htgiven hdgiven
  refine ⟨_, a, hanswer, hr.missing_of_verdict htgiven hdgiven, fun hdefinite q hstd hq => ?_⟩
  have hlater : Area.Later r.area q.area := by
    rcases hq with hq | ⟨hq, -⟩
    · exact (hasked.later hr).trans (hq.later (hasked.tidy hr))
    · exact hq.later hr
  obtain ⟨b, hb, -⟩ := ValueType.answers_assignable hlater.after
    (htgiven.imp fun _ => hlater.given) (hdgiven.imp fun _ => hlater.given)
  suffices hsame : t.verdict q.area.look d = t.verdict r.area.look d from ⟨b, hsame ▸ hb⟩
  cases t with
  | reference s =>
    cases d with
    | reference u =>
      refine hlater.verdicts_eq hstd (ht s rfl).2 (hd u rfl).1 (fun v hv hknown => ?_) hdefinite
      rcases hq with hq | ⟨-, hclear⟩
      · exact (hq.later (hasked.tidy hr)).look_of_answers hr (htgiven s rfl).2 (hdgiven u rfl).1
          hanswer v hv hknown
      · refine ⟨fun f => hlater.look_eq ((ht s rfl).2 v hv).2 ?_,
          fun f => hlater.look_eq (hd u rfl).1.2 ?_⟩
        · exact hclear.imp_right fun h => (h.1 s rfl).2 v hv
        · exact hclear.imp_right fun h => (h.2 u rfl).1
    | _ => rfl
  | _ => cases d <;> rfl

/-! ### Arrays that are not there yet -/

/-- Whether an answer is the given one. -/
def answersWith (x : Assignable) (t d : ValueType) (r : Resolver) : Bool :=
  match t.assignable d r.area with
  | .ok y _ => y = x
  | .error _ _ => false

lemma exists_answer {x : Assignable} {t d : ValueType} {r : Resolver}
    (h : answersWith x t d r = true) : ∃ a, t.assignable d r.area = .ok x a := by
  simp only [answersWith] at h
  split at h
  · next y a hy => exact ⟨a, of_decide_eq_true h ▸ hy⟩
  · cases h

/-- The type of a class that is named by code of the bootstrap loader. -/
def named (name : String) : ValueType := .ofMention (.symbolic ⟨Boot.string, name⟩)

lemma over_named {r : Resolver} {name : String} (h : IsWellFormed name) :
    (named name).Over fun m => m.Given r.area ∧ m.WellNamed := by
  rintro s ⟨⟩
  rw [ofMention, mention_ofClassRef, branches_ofClassRef]
  refine ⟨⟨trivial, h⟩, fun m hm => ?_⟩
  rw [List.mem_singleton.1 hm]
  exact ⟨trivial, h⟩

lemma isWellFormed_array {e : String} (h : '[' ∉ e.toList ∧ ';' ∉ e.toList) :
    IsWellFormed ("[L" ++ e ++ ";") := by
  refine .inr ?_
  simpa using IsArrayName.object h

/-- Where there is no loader but the bootstrap loader, no other one defines anything. -/
lemma standardNames_of_single {r : Resolver} (hr : r.area.Tidy) (hsize : r.area.loaders.size = 1) :
    r.area.StandardNames :=
  fun _ _ _ _ hc => loader_of_single hr hsize hc

/-- A class and a subclass of it that nobody has loaded. -/
def unloadedOperations : List Operation :=
  [.define .bootstrap { name := "p/A", flags := Flag.accPublic.mask },
    .define .bootstrap { name := "p/B", flags := Flag.accPublic.mask, superclass := some "p/A" }]

/-- The resolver before the classes are loaded. -/
def unloaded : Resolver := performAll unloadedOperations { area := Area.initial }

/-- The resolver when they are loaded. -/
def loaded : Resolver := performAll [.load .bootstrap "p/B"] unloaded

lemma genuineRun_unloaded : GenuineRun { area := Area.initial } unloaded :=
  genuineRun_performAll (by simp [unloadedOperations, Operation.Genuine]) _

lemma genuineRun_loaded : GenuineRun unloaded loaded :=
  genuineRun_performAll (by simp [Operation.Genuine]) _

/-- That arrays of arrays may be stored in an array of an interface of arrays is known before the
class is loaded, and is so when it is. -/
theorem nested_array_fits_before_loading :
    (unloaded.area.published? .bootstrap "p/B").isNone = true ∧
      (loaded.area.published? .bootstrap "p/B").isSome = true ∧
      (∃ a, (named "[[Lp/B;").assignable (named "[Ljava/lang/Cloneable;") unloaded.area =
        .ok .yes a) ∧
      ∃ a, (named "[[Lp/B;").assignable (named "[Ljava/lang/Cloneable;") loaded.area =
        .ok .yes a := by
  have hanswer : answersWith .yes (named "[[Lp/B;") (named "[Ljava/lang/Cloneable;") unloaded =
      true := by
    decide +kernel
  have hsize : loaded.area.loaders.size = 1 := by decide +kernel
  have hunshadowed : (loaded.area.published? .bootstrap Boot.arrayStubName).isNone = true := by
    decide +kernel
  have hvalue : IsWellFormed "[[Lp/B;" := by
    refine .inr (.nested ?_)
    exact (isWellFormed_array (e := "p/B") (by decide)).resolve_left (by decide)
  have hdest : IsWellFormed "[Ljava/lang/Cloneable;" :=
    isWellFormed_array (e := "java/lang/Cloneable") (by decide)
  obtain ⟨a, ha⟩ := exists_answer hanswer
  obtain ⟨x, _, hx, -, hfinal⟩ :=
    definite_answers_final rfl genuineRun_unloaded (over_named hvalue) (over_named hdest)
  rw [ha] at hx
  cases hx
  have htidy : loaded.area.Tidy :=
    genuineRun_loaded.tidy (genuineRun_unloaded.tidy Area.initial_tidy)
  refine ⟨by decide +kernel, by decide +kernel, ⟨a, ha⟩, hfinal (by simp) loaded
    (standardNames_of_single htidy hsize) (.inr ⟨genuineRun_loaded, .inl ?_⟩)⟩
  exact Option.isNone_iff_eq_none.1 hunshadowed

/-- A class that goes by the name of the stand-in for the common supertype of arrays, below another
class. -/
def shadowingOperations : List Operation :=
  [.define .bootstrap { name := "p/S", flags := Flag.accPublic.mask },
    .define .bootstrap
      { name := Boot.arrayStubName, flags := Flag.accPublic.mask, superclass := some "p/S" },
    .load .bootstrap Boot.arrayStubName]

/-- The resolver when the class is loaded. -/
def shadowing : Resolver := performAll shadowingOperations { area := Area.initial }

/-- The resolver when the arrays over the stand-in are there. -/
def shadowed : Resolver := finalState (Operation.arrayOf Boot.arrayStub).perform shadowing

lemma genuineRun_shadowing : GenuineRun { area := Area.initial } shadowing :=
  genuineRun_performAll (by simp [shadowingOperations, Operation.Genuine]) _

lemma genuineRun_shadowed : GenuineRun shadowing shadowed := by
  have hr : shadowing.area.Tidy := genuineRun_shadowing.tidy Area.initial_tidy
  refine ReflTransGen.single ⟨.arrayOf Boot.arrayStub, .inr ?_, rfl⟩
  rw [hr.core]
  rfl

/-- The arrays over the name of the stand-in would be arrays over the class of that name, but the
array class over the stand-in comes first, and the answer is no longer the same. -/
theorem answer_about_stub_arrays_changes :
    GenuineRun { area := Area.initial } shadowing ∧ GenuineRun shadowing shadowed ∧
      shadowed.area.StandardNames ∧ IsWellFormed "[L$ARRAYSTUB$;" ∧ IsWellFormed "[Lp/S;" ∧
      (∃ a, (named "[L$ARRAYSTUB$;").assignable (named "[Lp/S;") shadowing.area = .ok .yes a) ∧
      ∃ a, (named "[L$ARRAYSTUB$;").assignable (named "[Lp/S;") shadowed.area = .ok .no a := by
  have hyes : answersWith .yes (named "[L$ARRAYSTUB$;") (named "[Lp/S;") shadowing = true := by
    decide +kernel
  have hno : answersWith .no (named "[L$ARRAYSTUB$;") (named "[Lp/S;") shadowed = true := by
    decide +kernel
  have hsize : shadowed.area.loaders.size = 1 := by decide +kernel
  have htidy : shadowed.area.Tidy :=
    genuineRun_shadowed.tidy (genuineRun_shadowing.tidy Area.initial_tidy)
  exact ⟨genuineRun_shadowing, genuineRun_shadowed, standardNames_of_single htidy hsize,
    isWellFormed_array (e := "$ARRAYSTUB$") (by decide),
    isWellFormed_array (e := "p/S") (by decide), exists_answer hyes, exists_answer hno⟩

end Resolver

end Linkage
