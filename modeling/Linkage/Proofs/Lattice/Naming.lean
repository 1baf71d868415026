import Linkage.Proofs.Lattice.Form

/-!
# What names mean

A name means to a loader a class that the loader has, or an array over what the rest of the name
means. Looking a name up may make array classes, so the class that is found may be new; its form is
not. Here the form that a name has is written down without making anything, and it is shown that
lookups find a class of that form and leave the forms of all names as they are.
-/

namespace Linkage

open Relation

namespace Area

variable {a b : Area} {l : LoaderId}

/-! ### Forms of names -/

/-- The form of the array class over a class of a form: of the one that is there, or of the one that
would be made. -/
def formOver (a : Area) (f : Form) : Option Form :=
  match a.published? f.loader (Form.array f).name with
  | some c => some c.form
  | none => if f.dimension = maxDimension then none else some (.array f)

lemma formOver_of_published {f : Form} {c : Class}
    (h : a.published? f.loader (Form.array f).name = some c) : a.formOver f = some c.form := by
  simp only [formOver, h]

lemma formOver_of_missing {f : Form} (h : a.published? f.loader (Form.array f).name = none)
    (hdim : f.dimension ≠ maxDimension) : a.formOver f = some (.array f) := by
  simp only [formOver, h, hdim, if_false]

/-- The form that the name of an array has, if its component has the given one. -/
def formArray? (a : Area) (l : LoaderId) (name : String) (short : Bool) (component : Option Form) :
    Option Form :=
  match a.published? l name with
  | some c => some c.form
  | none =>
    if short then (a.published? .bootstrap name).map Class.form else component.bind a.formOver

/-- The form that a name has, taken apart. -/
def form? (a : Area) (l : LoaderId) : Spelling → Option Form
  | .plain name => (a.published? l name).map Class.form
  | .nested name s => a.formArray? l name (Spelling.nested name s).isShort (a.form? l s)
  | .object name s => a.formArray? l name (Spelling.object name s).isShort (a.form? l s)
  | .unclosed name => a.formArray? l name (Spelling.unclosed name).isShort none
  | .bare name s => a.formArray? l name (Spelling.bare name s).isShort none

lemma formArray?_of_published {name : String} {c : Class} (h : a.published? l name = some c)
    (short : Bool) (component : Option Form) :
    a.formArray? l name short component = some c.form := by
  simp only [formArray?, h]

lemma form?_of_published {name : String} {c : Class} (h : a.published? l name = some c) :
    a.form? l (.ofName name) = some c.form := by
  have hname := Spelling.name_ofName name
  generalize Spelling.ofName name = s at hname
  subst hname
  cases s with
  | plain n => simp only [form?, show a.published? l n = some c from h, Option.map_some]
  | nested n s => exact formArray?_of_published h _ _
  | object n s => exact formArray?_of_published h _ _
  | unclosed n => exact formArray?_of_published h _ _
  | bare n s => exact formArray?_of_published h _ _

/-- The forms that names have: those of the classes that loaders have, and those of the array
classes over them that are still to be made. -/
inductive HasForm (a : Area) : Form → Prop where
  | owned {c : Class} (h : a.Owned c) : HasForm a c.form
  | array {f : Form} (h : HasForm a f)
      (missing : a.published? f.loader (Form.array f).name = none)
      (dimension : f.dimension ≠ maxDimension) : HasForm a (.array f)

/-- A name and a loader tell forms apart. -/
lemma HasForm.unique (ha : a.Tidy) {f g : Form} (hf : a.HasForm f) (hg : a.HasForm g)
    (hloader : f.loader = g.loader) (hname : f.name = g.name) : f = g := by
  induction hf generalizing g with
  | @owned c hc =>
    rw [ha.loader_form hc.known, Class.name_form] at *
    cases hg with
    | @owned d hd =>
      rw [ha.loader_form hd.known, Class.name_form] at *
      rw [hc.eq_of_name hd hname hloader]
    | @array g hg missing =>
      rw [← hname, show g.loader = c.loader from hloader.symm,
        show a.published? c.loader c.name = some c from hc] at missing
      cases missing
  | @array f hf missing _ ih =>
    cases hg with
    | @owned d hd =>
      rw [ha.loader_form hd.known, Class.name_form] at *
      rw [hname, show f.loader = d.loader from hloader,
        show a.published? d.loader d.name = some d from hd] at missing
      cases missing
    | @array g hg => rw [ih hg hloader (Form.name_inj hname).2]

/-- The form of a class is told by the place of the array class over it. -/
lemma HasForm.eq_form (ha : a.Tidy) {f : Form} (hf : a.HasForm f) {e : Class} (he : a.Owned e)
    (hloader : f.loader = e.loader) (hname : (Form.array f).name = e.arrayName) : f = e.form := by
  refine hf.unique ha (.owned he) ?_ (Form.name_inj ?_).2
  · rw [ha.loader_form he.known, hloader]
  · rw [hname, Class.name_array_form]

lemma hasForm_of_formOver (ha : a.Tidy) {f g : Form} (hf : a.HasForm f)
    (h : a.formOver f = some g) : a.HasForm g := by
  simp only [formOver] at h
  split at h
  · next c hc =>
    cases h
    exact .owned (ha.rooted _ _ c hc).owned
  · next hnone =>
    split at h
    · cases h
    · next hdim =>
      cases h
      exact hf.array hnone hdim

lemma hasForm_of_formArray? (ha : a.Tidy) {name : String} {short : Bool} {component : Option Form}
    (hcomponent : ∀ f ∈ component, a.HasForm f) {f : Form}
    (h : a.formArray? l name short component = some f) : a.HasForm f := by
  simp only [formArray?] at h
  split at h
  · next c hc =>
    cases h
    exact .owned (ha.rooted _ _ c hc).owned
  · split at h
    · obtain ⟨c, hc, rfl⟩ := Option.map_eq_some_iff.1 h
      exact .owned (ha.rooted _ _ c hc).owned
    · obtain ⟨g, hg, h⟩ := Option.bind_eq_some_iff.1 h
      exact hasForm_of_formOver ha (hcomponent g hg) h

lemma hasForm_of_form? (ha : a.Tidy) (s : Spelling) {f : Form} (h : a.form? l s = some f) :
    a.HasForm f := by
  induction s generalizing f with
  | plain n =>
    obtain ⟨c, hc, rfl⟩ := Option.map_eq_some_iff.1 h
    exact .owned (ha.rooted _ _ c hc).owned
  | nested n s ih => exact hasForm_of_formArray? ha (fun g hg => ih hg) h
  | object n s ih => exact hasForm_of_formArray? ha (fun g hg => ih hg) h
  | unclosed n => exact hasForm_of_formArray? ha (by simp) h
  | bare n s => exact hasForm_of_formArray? ha (by simp) h

/-! ### Array classes that are made -/

/-- The array class over a class that its loader has is asked for. -/
def Makes (a b : Area) : Prop := ∃ e c, a.Rooted e ∧ arrayOf e a = .ok c b

lemma Makes.tidySteps (ha : a.Tidy) (h : Makes a b) : ReflTransGen TidyStep a b := by
  obtain ⟨e, c, he, hrun⟩ := h
  have hsteps := (tidy_arrayOf e a ⟨ha, he.admitted⟩).1
  rwa [finalState_of_ok hrun] at hsteps

lemma makes_stable : Stable Makes Tidy :=
  fun _ _ hmakes ha => tidy_stable.reflTransGen (hmakes.tidySteps ha) ha

/-- All that questions about types do to an area is to ask for array classes over classes that
loaders have. -/
lemma carries_makes : Carries Makes Tidy fun c a => a.Rooted c where
  stable := makes_stable
  carried c _ _ hmakes ha := (rooted_stable c).reflTransGen (hmakes.tidySteps ha.1) ha
  published _ l n c ha hc := ha.rooted l n c hc
  arrayOf c := by
    intro a ha
    refine ⟨?_, (tidy_arrayOf c a ⟨ha.1, ha.2.admitted⟩).2⟩
    rcases arrayOf_cases c a with ⟨d, -, hrun⟩ | ⟨-, ⟨-, e, hrun⟩ | ⟨hnone, -⟩ | ⟨-, -, hrun⟩⟩
    · rw [finalState_of_ok hrun]
    · rw [finalState_of_error hrun]
    · have hsome := ha.2.owned.loader_isSome
      rw [hnone] at hsome
      cases hsome
    · rw [finalState_of_ok hrun]
      exact .single ⟨c, _, ha.2, hrun⟩

/-- An array class that is asked for is there or is the only one that is new. -/
lemma Makes.cases (h : Makes a b) : b = a ∨ ∃ e, a.Owned e ∧
    a.published? e.loader e.arrayName = none ∧ e.dimension ≠ maxDimension ∧
    ∀ l n, b.published? l n =
      if l = e.loader ∧ n = e.arrayName then some (a.newArray e) else a.published? l n := by
  obtain ⟨e, c, he, hrun⟩ := h
  rcases arrayOf_cases e a with ⟨d, -, hrun'⟩ | ⟨hnone, ⟨-, x, hrun'⟩ | ⟨-, x, hrun'⟩ |
    ⟨hdim, hl, hrun'⟩⟩ <;> rw [hrun] at hrun' <;> cases hrun'
  · exact .inl rfl
  · refine .inr ⟨e, he.owned, hnone, hdim, fun l n => ?_⟩
    rw [published?_withClass]
    have hname : (a.newArray e).name = e.arrayName := rfl
    by_cases hcond : l = e.loader ∧ n = e.arrayName
    · obtain ⟨rfl, rfl⟩ := hcond
      rw [if_pos ⟨rfl, hname, hl⟩, if_pos ⟨rfl, rfl⟩]
      change (a.published? e.loader e.arrayName).or _ = _
      rw [hnone]
      rfl
    · rw [if_neg hcond, if_neg]
      · rfl
      · rintro ⟨rfl, rfl, -⟩
        exact hcond ⟨rfl, hname⟩

lemma HasForm.makes (ha : a.Tidy) {f : Form} (hf : a.HasForm f) (h : Makes a b) : b.HasForm f := by
  have hb := makes_stable _ _ h ha
  rcases h.cases with rfl | ⟨e, he, hnone, hdim, hpublished⟩
  · exact hf
  induction hf with
  | @owned c hc =>
    have hkept := (rooted_stable c).reflTransGen (h.tidySteps ha) ⟨ha, ha.rooted _ _ c hc⟩
    exact .owned hkept.2.owned
  | @array f hf missing hdim ih =>
    by_cases hcond : f.loader = e.loader ∧ (Form.array f).name = e.arrayName
    · have howned : b.Owned (a.newArray e) := by
        refine (hb.rooted e.loader e.arrayName _ ?_).owned
        rw [hpublished, if_pos ⟨rfl, rfl⟩]
      rw [hf.eq_form ha he hcond.1 hcond.2]
      exact HasForm.owned howned
    · refine ih.array ?_ hdim
      rw [hpublished, if_neg hcond, missing]

/-- Making array classes does not change which form the arrays over a form have. -/
lemma HasForm.formOver_makes (ha : a.Tidy) {f : Form} (hf : a.HasForm f) (h : Makes a b) :
    b.formOver f = a.formOver f := by
  rcases h.cases with rfl | ⟨e, he, hnone, hdim, hpublished⟩
  · rfl
  by_cases hcond : f.loader = e.loader ∧ (Form.array f).name = e.arrayName
  · have hmade : b.published? f.loader (Form.array f).name = some (a.newArray e) := by
      rw [hpublished, if_pos hcond]
    have hmissing : a.published? f.loader (Form.array f).name = none := by
      rw [hcond.1, hcond.2, hnone]
    obtain rfl := hf.eq_form ha he hcond.1 hcond.2
    rw [formOver_of_published hmade, formOver_of_missing hmissing (by rwa [Class.dimension_form])]
    rfl
  · simp only [formOver, hpublished, if_neg hcond]

/-- Nor does it change which form the name of an array has. -/
lemma formArray?_makes (ha : a.Tidy) (h : Makes a b) {name : String} {short : Bool}
    (hshort : short = true → name.utf8ByteSize = 2) {component : Option Form}
    (hcomponent : ∀ f ∈ component, a.HasForm f)
    (hover : ∀ e : Class, e.arrayName = name → e.loader = l → a.Owned e →
      component = some e.form) :
    b.formArray? l name short component = a.formArray? l name short component := by
  have hbind : component.bind b.formOver = component.bind a.formOver := by
    cases component with
    | none => rfl
    | some f => exact (hcomponent f rfl).formOver_makes ha h
  rcases h.cases with rfl | ⟨e, he, hnone, hdim, hpublished⟩
  · rfl
  have hlong : name = e.arrayName → short = false := by
    rintro rfl
    rw [Bool.eq_false_iff]
    intro htrue
    exact Class.not_isShortArray_array e.data e [] e ⟨not_isPlain_arrayName e, hshort htrue⟩
  by_cases hcond : l = e.loader ∧ name = e.arrayName
  · have hmade : b.published? l name = some (a.newArray e) := by
      rw [hpublished, if_pos hcond]
    have hmissing : a.published? e.form.loader (Form.array e.form).name = none := by
      rw [ha.loader_form he.known, Class.name_array_form, hnone]
    rw [formArray?_of_published hmade]
    obtain ⟨rfl, rfl⟩ := hcond
    simp only [formArray?, hnone, hlong rfl, hover e rfl rfl he, Bool.false_eq_true, if_false,
      Option.bind_some]
    rw [formOver_of_missing hmissing (by rwa [Class.dimension_form])]
    rfl
  · cases short with
    | false => simp only [formArray?, hpublished, if_neg hcond, hbind, Bool.false_eq_true, if_false]
    | true =>
      have hhome : ¬ (LoaderId.bootstrap = e.loader ∧ name = e.arrayName) :=
        fun hcond => absurd (hlong hcond.2) (by simp)
      simp only [formArray?, hpublished, if_neg hcond, if_neg hhome, if_true]

/-- Making array classes changes no form that a name has. -/
lemma form?_makes (ha : a.Tidy) (h : Makes a b) {s : Spelling} (hs : s.Faithful) :
    b.form? l s = a.form? l s := by
  have hover : ∀ s : Spelling, (∀ e : Class, e.arrayName = s.name → False) →
      ∀ e : Class, e.arrayName = s.name → e.loader = l → a.Owned e → none = some e.form :=
    fun s hs e he => (hs e he).elim
  induction s with
  | plain n =>
    rcases h.cases with rfl | ⟨e, -, -, -, hpublished⟩
    · rfl
    · simp only [form?, hpublished]
      rw [if_neg]
      rintro ⟨-, rfl⟩
      exact not_isPlain_arrayName e hs
  | nested n s ih =>
    obtain ⟨-, hs, hname⟩ := hs
    simp only [form?, ih hs]
    refine formArray?_makes ha h (Spelling.isShort_iff (s := .nested n s)).1
      (fun f hf => hasForm_of_form? ha s hf) fun e he hloader howned => ?_
    rw [hname e he]
    exact form?_of_published (hloader ▸ howned)
  | object n s ih =>
    obtain ⟨-, hs, hname⟩ := hs
    simp only [form?, ih hs]
    refine formArray?_makes ha h (Spelling.isShort_iff (s := .object n s)).1
      (fun f hf => hasForm_of_form? ha s hf) fun e he hloader howned => ?_
    rw [hname e he]
    exact form?_of_published (hloader ▸ howned)
  | unclosed n =>
    exact formArray?_makes ha h Spelling.isShort_iff.1 (by simp) (hover (.unclosed n) hs.2)
  | bare n s =>
    exact formArray?_makes ha h Spelling.isShort_iff.1 (by simp) (hover (.bare n s) hs.2)

/-! ### Asking -/

/-- Array classes were made, as questions about types make them. -/
def Asked : Area → Area → Prop := ReflTransGen Makes

lemma Asked.tidy (h : Asked a b) (ha : a.Tidy) : b.Tidy := makes_stable.reflTransGen h ha

lemma Asked.formOver_eq (h : Asked a b) (ha : a.Tidy) {f : Form} (hf : a.HasForm f) :
    b.formOver f = a.formOver f := by
  have hstable : Stable Makes fun b => b.Tidy ∧ b.HasForm f ∧ b.formOver f = a.formOver f :=
    fun b c hmakes hb => ⟨makes_stable b c hmakes hb.1, hb.2.1.makes hb.1 hmakes,
      (hb.2.1.formOver_makes hb.1 hmakes).trans hb.2.2⟩
  exact (hstable.reflTransGen h ⟨ha, hf, rfl⟩).2.2

lemma Asked.form?_eq (h : Asked a b) (ha : a.Tidy) (l : LoaderId) (name : String) :
    b.form? l (.ofName name) = a.form? l (.ofName name) := by
  have hstable : Stable Makes fun b =>
      b.Tidy ∧ b.form? l (.ofName name) = a.form? l (.ofName name) :=
    fun b c hmakes hb => ⟨makes_stable b c hmakes hb.1,
      (form?_makes hb.1 hmakes (Spelling.faithful_ofName name)).trans hb.2⟩
  exact (hstable.reflTransGen h ⟨ha, rfl⟩).2

/-! ### Lookups -/

lemma Tidy.arrayOf?_form (h : a.Tidy) {e : Class} (he : a.Owned e) :
    ∃ v b, arrayOf? e a = .ok v b ∧ v.map Class.form = a.formOver e.form := by
  have hplace : a.published? e.form.loader (Form.array e.form).name =
      a.published? e.loader e.arrayName := by
    rw [h.loader_form he.known, Class.name_array_form]
  rw [arrayOf?_eq]
  rcases arrayOf_cases e a with ⟨d, hd, hrun⟩ | ⟨hnone, ⟨hdim, x, hrun⟩ | ⟨hl, -⟩ | ⟨hdim, -, hrun⟩⟩
  · rw [hrun]
    exact ⟨some d, a, rfl, (formOver_of_published (hplace.trans hd)).symm⟩
  · rw [hrun]
    refine ⟨none, a, rfl, ?_⟩
    simp only [formOver, hplace, hnone, Class.dimension_form, hdim, if_true, Option.map_none]
  · have hsome := he.loader_isSome
    rw [hl] at hsome
    cases hsome
  · rw [hrun]
    refine ⟨some (a.newArray e), _, rfl, ?_⟩
    rw [formOver_of_missing (hplace.trans hnone) (by rwa [Class.dimension_form])]
    rfl

lemma Tidy.findArray_form (h : a.Tidy) (name : String) (short : Bool)
    {component : AreaM (Option Class)} {o : Option Form}
    (hcomponent : ∃ v b, component a = .ok v b ∧ v.map Class.form = o ∧ Asked a b ∧
      ∀ c ∈ v, b.Rooted c)
    (hform : ∀ f ∈ o, a.HasForm f) :
    ∃ v b, Area.findArray l name short component a = .ok v b ∧
      v.map Class.form = a.formArray? l name short o := by
  simp only [Area.findArray, formArray?]
  rw [bind_of_ok (get_apply a)]
  cases hc : a.published? l name with
  | some c => exact ⟨_, a, rfl, rfl⟩
  | none =>
    cases short with
    | true => exact ⟨_, a, rfl, rfl⟩
    | false =>
      obtain ⟨v, b, hrun, rfl, hasked, hrooted⟩ := hcomponent
      simp only [Bool.false_eq_true, if_false]
      rw [bind_of_ok hrun]
      cases v with
      | none => exact ⟨none, b, rfl, rfl⟩
      | some e =>
        obtain ⟨v, c, hv, hover⟩ :=
          (hasked.tidy h).arrayOf?_form (hrooted e rfl).owned
        refine ⟨v, c, hv, hover.trans ?_⟩
        exact hasked.formOver_eq h (hform e.form rfl)

/-- Looking a name up finds a class of the form that the name has. -/
lemma Tidy.findSpelled_form (h : a.Tidy) (l : LoaderId) (s : Spelling) :
    ∃ v b, findSpelled l s a = .ok v b ∧ v.map Class.form = a.form? l s := by
  have hcomponent : ∀ s : Spelling, (∃ v b, findSpelled l s a = .ok v b ∧
      v.map Class.form = a.form? l s) → ∃ v b, findSpelled l s a = .ok v b ∧
        v.map Class.form = a.form? l s ∧ Asked a b ∧ ∀ c ∈ v, b.Rooted c := by
    rintro s ⟨v, b, hrun, hform⟩
    obtain ⟨hsteps, hrooted⟩ := carries_makes.findSpelled l s a h
    rw [finalState_of_ok hrun] at hsteps
    exact ⟨v, b, hrun, hform, hsteps, hrooted v b hrun⟩
  have hnone : ∃ v b, (pure none : AreaM (Option Class)) a = .ok v b ∧
      v.map Class.form = none ∧ Asked a b ∧ ∀ c ∈ v, b.Rooted c :=
    ⟨none, a, rfl, rfl, ReflTransGen.refl, by simp⟩
  induction s with
  | plain n => exact ⟨_, a, rfl, rfl⟩
  | nested n s ih =>
    exact h.findArray_form n _ (hcomponent s ih) fun f hf => hasForm_of_form? h s hf
  | object n s ih =>
    exact h.findArray_form n _ (hcomponent s ih) fun f hf => hasForm_of_form? h s hf
  | unclosed n => exact h.findArray_form n _ hnone (by simp)
  | bare n s => exact h.findArray_form n _ hnone (by simp)

end Area

end Linkage
