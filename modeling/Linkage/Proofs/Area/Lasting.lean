import Linkage.Proofs.Area.Loading

/-!
# What lasts

What a loader has it keeps, whatever happens later, and an initialized class stays initialized. So
an array class that was asked for once is found from then on, and names of arrays over primitive
types mean to every loader what they meant from the start. Nor does any loader ever get anything but
an array class under the name of one.
-/

namespace Linkage

open Relation

namespace Spelling

lemma length_le_utf8ByteSize (cs : List Char) : cs.length ≤ (String.ofList cs).utf8ByteSize := by
  induction cs with
  | nil => exact Nat.zero_le _
  | cons c cs ih =>
    have hc := c.utf8Size_pos
    rw [String.ofList_cons, String.utf8ByteSize_append, String.utf8ByteSize_singleton,
      List.length_cons]
    omega

/-- How names of the form of arrays over primitive types are taken apart. -/
lemma ofName_of_isShortArray {name : String} (h : IsShortArray name) :
    ofName name = .nested name (.bare "[" "") ∨ ofName name = .unclosed name ∨
      ∃ s, ofName name = .bare name s := by
  obtain ⟨hplain, hsize⟩ := h
  have hlength := length_le_utf8ByteSize name.toList
  rw [String.ofList_toList, hsize] at hlength
  have hname : String.ofList name.toList = name := String.ofList_toList
  have hhead : name.toList.head? = some '[' := not_not.1 hplain
  unfold ofName
  generalize name.toList = cs at hlength hname hhead
  obtain ⟨rest, rfl⟩ : ∃ rest, cs = '[' :: rest := by
    cases cs with
    | nil => cases hhead
    | cons c rest => exact ⟨rest, by rw [Option.some.inj hhead]⟩
  match rest with
  | [] =>
    unfold ofChars
    exact .inr (.inr ⟨_, by rw [← hname]; rfl⟩)
  | [c] =>
    by_cases hopen : c = '['
    · subst hopen
      refine .inl ?_
      unfold ofChars
      simp only [List.head?_cons, hname]
      unfold ofChars
      rfl
    · by_cases hobject : c = 'L'
      · subst hobject
        refine .inr (.inl ?_)
        unfold ofChars
        simp only [List.head?_cons]
        split
        · next element h => cases h
        · rw [hname]
      · refine .inr (.inr ⟨String.ofList [c], ?_⟩)
        unfold ofChars
        simp [hopen, hobject, hname]
  | _ :: _ :: _ =>
    simp only [List.length_cons] at hlength
    omega

end Spelling

namespace Area

variable {a b : Area}

/-! ### Published classes -/

lemma Step.kept (hstep : Step a b) (h : a.Sound) {l : LoaderId} {n : String} {c : Class}
    (hc : a.published? l n = some c) : b.published? l n = some c := by
  cases hstep with
  | array hstep => exact (LoadStep.array hstep).grown.kept l n c hc
  | record plain accepted => exact (LoadStep.record plain accepted).grown.kept l n c hc
  | addLoader parent childFirst =>
    rw [published?_addLoader, if_neg, hc]
    rintro rfl
    obtain ⟨data, hdata, -⟩ := Option.bind_eq_some_iff.1 hc
    have hlt := (h.numbered ⟨a.loaders.size⟩).1 (by rw [hdata]; rfl)
    exact Nat.lt_irrefl _ hlt
  | define l' d =>
    rw [published?_define]
    exact hc
  | _ => exact hc

/-- A loader keeps the classes it has. -/
lemma published?_stable (l : LoaderId) (n : String) (c : Class) :
    Stable Step fun a => a.Sound ∧ a.published? l n = some c :=
  fun a b hstep h => ⟨sound_stable a b hstep h.1, hstep.kept h.1 h.2⟩

lemma kept_of_steps (hsteps : ReflTransGen Step a b) (h : a.Sound) {l : LoaderId} {n : String}
    {c : Class} (hc : a.published? l n = some c) : b.published? l n = some c :=
  ((published?_stable l n c).reflTransGen hsteps ⟨h, hc⟩).2

/-- An array class that was asked for once is found from then on. -/
lemma arrayOf_of_published {component c : Class}
    (h : a.published? component.loader component.arrayName = some c) :
    arrayOf component a = .ok c a := by
  unfold arrayOf
  rw [bind_of_ok (get_apply a)]
  simp only [h]
  rfl

/-! ### Arrays over primitive types -/

/-- No class that is added has a name like those of arrays over primitive types. -/
lemma Step.short_eq (hstep : Step a b) (h : a.Sound) {n : String} (hn : IsShortArray n)
    (l : LoaderId) : b.published? l n = a.published? l n := by
  cases hstep with
  | array hstep =>
    cases hstep with
    | identity => rfl
    | array d s is component =>
      rw [published?_withClass, if_neg]
      rintro ⟨-, hname, -⟩
      exact Class.not_isShortArray_array d s is component (hname ▸ hn)
  | record plain accepted =>
    refine (published?_withClass _ l _ n).trans (if_neg ?_)
    rintro ⟨-, hname, -⟩
    exact hn.1 (hname ▸ plain)
  | addLoader parent childFirst =>
    rw [published?_addLoader]
    split
    · next hl =>
      subst hl
      have hnone : a.loaders.get? ⟨a.loaders.size⟩ = none := by
        simpa using h.numbered ⟨a.loaders.size⟩
      simp [published?, hnone]
    · rfl
  | define l' d => exact published?_define _ _ _ _
  | _ => rfl

lemma short_eq_of_steps (hsteps : ReflTransGen Step a b) (h : a.Sound) {n : String}
    (hn : IsShortArray n) (l : LoaderId) : b.published? l n = a.published? l n := by
  have hstable : Stable Step fun c => c.Sound ∧ c.published? l n = a.published? l n :=
    fun c d hstep hc => ⟨sound_stable c d hstep hc.1, (hstep.short_eq hc.1 hn l).trans hc.2⟩
  exact (hstable.reflTransGen hsteps ⟨h, rfl⟩).2

/-- What a name of this form means to a loader. -/
def shortClass? (a : Area) (l : LoaderId) (name : String) : Option Class :=
  (a.published? l name).or (a.published? .bootstrap name)

lemma findArray_short (l : LoaderId) (name : String) (component : AreaM (Option Class)) (a : Area) :
    findArray l name true component a = .ok (a.shortClass? l name) a := by
  unfold findArray shortClass?
  rw [bind_of_ok (get_apply a)]
  cases a.published? l name <;> rfl

lemma shortClass?_bootstrap {l : LoaderId} {name : String} (h : a.shortClass? l name = none) :
    a.shortClass? .bootstrap name = none := by
  obtain ⟨-, hbootstrap⟩ := Option.or_eq_none_iff.1 h
  simp [shortClass?, hbootstrap]

/-- A name of a single byte is the name of no array class. -/
lemma Sound.load_bracket (h : a.Sound) (loadPlain : LoaderId → String → AreaM Class)
    (l : LoaderId) : loadSpelled loadPlain l (.bare "[" "") a = .error (.classMissing "[") a := by
  have hnone : ∀ l, a.published? l "[" = none := by
    intro l
    cases hc : a.published? l "[" with
    | none => rfl
    | some c =>
      rcases h.named l "[" c hc with hplain | hsize
      · exact absurd hplain (by decide)
      · exact absurd hsize (by decide)
  have hfind : ∀ l, findSpelled l (.bare "[" "") a = .ok none a := by
    intro l
    change findArray l "[" false (pure none) a = _
    unfold findArray
    rw [bind_of_ok (get_apply a)]
    simp only [hnone l]
    rfl
  refine (bind_of_ok (hfind l)).trans ?_
  exact bind_of_ok (hfind .bootstrap)

/-- Loading a class by such a name finds it or fails if whatever is to be done about a name that
nothing is found for fails. -/
lemma load_or_error {name : String} {l : LoaderId} {s : Spelling} {otherwise : AreaM Class}
    {e : Fault} (hs : Spelling.ofName name = s)
    (hfind : findSpelled l s a = .ok (a.shortClass? l name) a)
    (hload : loadSpelled (loadPlain a.loadBound) l s = do
      match ← findSpelled l s with
      | some c => return c
      | none => otherwise)
    (hotherwise : a.shortClass? l name = none → otherwise a = .error e a) :
    (∃ c, a.shortClass? l name = some c ∧ load l name a = .ok c a) ∨
      a.shortClass? l name = none ∧ load l name a = .error e a := by
  have hrun : load l name a = loadSpelled (loadPlain a.loadBound) l s a := by
    rw [← hs]
    rfl
  rw [hrun, hload]
  cases hc : a.shortClass? l name with
  | some c =>
    rw [hc] at hfind
    exact .inl ⟨c, rfl, bind_of_ok hfind⟩
  | none =>
    rw [hc] at hfind
    exact .inr ⟨rfl, (bind_of_ok hfind).trans (hotherwise hc)⟩

/-- Loading a class by a name of the form of arrays over primitive types finds it or fails, and it
is up to the name alone how it fails. -/
lemma exists_load_short {name : String} (hname : IsShortArray name) :
    ∃ e, ∀ a : Area, a.Sound → ∀ l,
      (∃ c, a.shortClass? l name = some c ∧ load l name a = .ok c a) ∨
        a.shortClass? l name = none ∧ load l name a = .error e a := by
  have hfind : ∀ (a : Area) (s : Spelling) (component : AreaM (Option Class)), s.name = name →
      ∀ l', findArray l' name s.isShort component a = .ok (a.shortClass? l' name) a := by
    intro a s component hs l'
    have hshort : s.isShort = true := by simp [Spelling.isShort, hs, hname.2]
    rw [hshort]
    exact findArray_short l' name component a
  have hbare : ∀ (a : Area) (l : LoaderId) (s : Spelling), s.name = name →
      (∀ l', findSpelled l' s a = .ok (a.shortClass? l' name) a) →
      a.shortClass? l name = none → loadSpelled.loadBare s a = .error (.classMissing s.name) a := by
    intro a l s hs hfind hnone
    have hrun := hfind .bootstrap
    rw [shortClass?_bootstrap hnone] at hrun
    exact bind_of_ok hrun
  rcases Spelling.ofName_of_isShortArray hname with hs | hs | ⟨x, hs⟩
  · exact ⟨.classMissing "[", fun a h l => load_or_error hs (hfind a (.nested name _) _ rfl l) rfl
      fun _ => bind_of_error (h.load_bracket _ l)⟩
  · exact ⟨.classMissing name, fun a _ l => load_or_error hs (hfind a (.unclosed name) _ rfl l) rfl
      (hbare a l _ rfl (hfind a (.unclosed name) _ rfl))⟩
  · exact ⟨.classMissing name, fun a _ l => load_or_error hs (hfind a (.bare name x) _ rfl l) rfl
      (hbare a l _ rfl (hfind a (.bare name x) _ rfl))⟩

lemma Sound.load_short (h : a.Sound) {name : String} (hname : IsShortArray name) (l : LoaderId) :
    (∃ c, a.shortClass? l name = some c ∧ load l name a = .ok c a) ∨
      a.shortClass? l name = none ∧ ∃ e, load l name a = .error e a := by
  obtain ⟨e, he⟩ := exists_load_short hname
  exact (he a h l).imp_right fun h => ⟨h.1, e, h.2⟩

lemma shortClass?_eq_of_steps (hsteps : ReflTransGen Step a b) (h : a.Sound) {name : String}
    (hname : IsShortArray name) (l : LoaderId) : b.shortClass? l name = a.shortClass? l name := by
  unfold shortClass?
  rw [short_eq_of_steps hsteps h hname, short_eq_of_steps hsteps h hname]

/-- A class that was loaded by such a name once is found from then on. -/
lemma load_short_again (hsteps : ReflTransGen Step a b) (h : a.Sound) {name : String}
    (hname : IsShortArray name) {l : LoaderId} {c : Class} {a' : Area}
    (hrun : load l name a = .ok c a') : a' = a ∧ load l name b = .ok c b := by
  have hb : b.Sound := sound_stable.reflTransGen hsteps h
  have hsame := shortClass?_eq_of_steps hsteps h hname l
  rcases h.load_short hname l with ⟨c', hc, hload⟩ | ⟨-, e, hload⟩ <;> rw [hrun] at hload <;>
    cases hload
  refine ⟨rfl, ?_⟩
  rcases hb.load_short hname l with ⟨c', hc', hload⟩ | ⟨hnone, -⟩
  · rw [hsame, hc] at hc'
    cases hc'
    exact hload
  · rw [hsame, hc] at hnone
    cases hnone

/-- Loading by a name of this form that names no class fails in the same way from then on. -/
lemma load_short_fails_again (hsteps : ReflTransGen Step a b) (h : a.Sound) {name : String}
    (hname : IsShortArray name) {l : LoaderId} {e : Fault} {a' : Area}
    (hrun : load l name a = .error e a') : a' = a ∧ load l name b = .error e b := by
  obtain ⟨e', hload⟩ := exists_load_short hname
  have hsame := shortClass?_eq_of_steps hsteps h hname l
  rcases hload a h l with ⟨c, -, hfound⟩ | ⟨hnone, hfails⟩ <;> rw [hrun] at *
  · cases hfound
  cases hfails
  refine ⟨rfl, ?_⟩
  rcases hload b (sound_stable.reflTransGen hsteps h) l with ⟨c, hc, -⟩ | ⟨-, hagain⟩
  · rw [hsame, hnone] at hc
    cases hc
  · exact hagain

/-! ### Names of array classes -/

/-- What loaders have under names that are no plain ones are array classes. -/
def ArraysNamed (a : Area) : Prop :=
  ∀ l n c, a.published? l n = some c → ¬ IsPlain n → c.isArray = true

lemma ArraysNamed.withClass (h : a.ArraysNamed) (l : LoaderId) {c : Class}
    (hc : ¬ IsPlain c.name → c.isArray = true) : (a.withClass l c).ArraysNamed := by
  intro l' n d hd hn
  rcases published?_withClass_cases hd with hd | ⟨-, rfl, rfl⟩
  · exact h l' n d hd hn
  · exact hc hn

/-- No step gives a loader a class that is no array under such a name. -/
lemma arraysNamed_stable : Stable Step ArraysNamed := by
  intro a b hstep h
  cases hstep with
  | enter | leave | counted | accept | constrain | phase => exact h
  | record plain =>
    intro l' n d hd hn
    exact h.withClass _ (fun hnot => absurd plain hnot) l' n d hd hn
  | array hstep =>
    cases hstep with
    | identity => exact h
    | array => exact h.withClass _ fun _ => rfl
  | addLoader =>
    intro l n c hc hn
    rw [published?_addLoader] at hc
    split at hc
    · cases hc
    · exact h l n c hc hn
  | define =>
    intro l n c hc hn
    rw [published?_define] at hc
    exact h l n c hc hn

lemma initial_arraysNamed : initial.ArraysNamed := by
  have hclasses : ∀ c ∈ Boot.classes, ¬ IsPlain c.name → c.isArray = true := by
    decide +kernel
  intro l n c hc hn
  obtain ⟨data, hdata, hc⟩ := Option.bind_eq_some_iff.1 hc
  simp only [initial, Table.get?, Table.firstValue?] at hdata
  split at hdata
  · cases hdata
    obtain ⟨hmem, rfl⟩ := firstValue?_map_name hc
    exact hclasses c hmem hn
  · cases hdata

lemma ArraysNamed.of_arraySteps (h : a.ArraysNamed) (hsteps : ReflTransGen ArrayStep a b) :
    b.ArraysNamed :=
  arraysNamed_stable.reflTransGen (ReflTransGen.mono (fun _ _ => .array) _ _ hsteps) h

lemma not_isPlain_arrayName (c : Class) : ¬ IsPlain c.arrayName := by
  simp only [IsPlain, Class.arrayName]
  split <;> simp

lemma ArraysNamed.isArray_of_arrayOf (h : a.ArraysNamed) {component c : Class}
    (hrun : arrayOf component a = .ok c b) : c.isArray = true := by
  have hsteps := arrayOf_steps component a
  rw [finalState_of_ok hrun] at hsteps
  exact h.of_arraySteps hsteps _ _ c (published?_of_arrayOf hrun) (not_isPlain_arrayName component)

/-- An array class that is found by its name, over a component that is found. -/
lemma ArraysNamed.findArray (h : a.ArraysNamed) (l : LoaderId) {name : String}
    (hname : ¬ IsPlain name) (short : Bool) {component : AreaM (Option Class)}
    (hcomponent : ∃ v b, component a = .ok v b ∧ b.ArraysNamed) :
    ∃ v b, Area.findArray l name short component a = .ok v b ∧ b.ArraysNamed ∧
      ∀ c ∈ v, c.isArray = true := by
  unfold Area.findArray
  rw [bind_of_ok (get_apply a)]
  cases hc : a.published? l name with
  | some c => exact ⟨_, a, rfl, h, by simpa using h l name c hc hname⟩
  | none =>
    cases short with
    | true => exact ⟨_, a, rfl, h, fun c hc => h .bootstrap name c hc hname⟩
    | false =>
      obtain ⟨v, b, hrun, hb⟩ := hcomponent
      simp only [Bool.false_eq_true, if_false]
      rw [bind_of_ok hrun]
      cases v with
      | none => exact ⟨none, b, rfl, hb, by simp⟩
      | some component =>
        have hsteps := arrayOf_steps component b
        dsimp only
        rw [arrayOf?_eq]
        cases harray : arrayOf component b with
        | error e b' =>
          rw [finalState_of_error harray] at hsteps
          exact ⟨none, b', rfl, hb.of_arraySteps hsteps, by simp⟩
        | ok c b' =>
          rw [finalState_of_ok harray] at hsteps
          refine ⟨some c, b', rfl, hb.of_arraySteps hsteps, ?_⟩
          simpa using hb.isArray_of_arrayOf harray

lemma ArraysNamed.findSpelled (h : a.ArraysNamed) (l : LoaderId) (cs : List Char) :
    ∃ v b, Area.findSpelled l (Spelling.ofChars cs) a = .ok v b ∧ b.ArraysNamed ∧
      (¬ IsPlain (String.ofList cs) → ∀ c ∈ v, c.isArray = true) := by
  have harray : ∀ rest short (find : AreaM (Option Class)),
      (∃ v b, find a = .ok v b ∧ b.ArraysNamed) →
      ∃ v b, Area.findArray l (String.ofList ('[' :: rest)) short find a = .ok v b ∧
        b.ArraysNamed ∧ (¬ IsPlain (String.ofList ('[' :: rest)) → ∀ c ∈ v, c.isArray = true) := by
    intro rest short find hfind
    obtain ⟨v, b, hrun, hb, hv⟩ := h.findArray l (not_isPlain_bracket rest) short hfind
    exact ⟨v, b, hrun, hb, fun _ => hv⟩
  fun_induction Spelling.ofChars cs with
  | case1 rest hhead ih =>
    obtain ⟨v, b, hrun, hb, -⟩ := ih
    exact harray rest _ _ ⟨v, b, hrun, hb⟩
  | case2 rest hhead element helement hlt ih =>
    obtain ⟨v, b, hrun, hb, -⟩ := ih
    exact harray rest _ _ ⟨v, b, hrun, hb⟩
  | case3 rest hhead helement => exact harray rest _ _ ⟨none, a, rfl, h⟩
  | case4 rest hnested hobject => exact harray rest _ _ ⟨none, a, rfl, h⟩
  | case5 cs hplain => exact ⟨_, a, rfl, h, fun hnot c hc => h l _ c hc hnot⟩

/-- Looking for a loaded class never fails, and what is found under the name of an array is one. -/
lemma ArraysNamed.findLoaded (h : a.ArraysNamed) (l : LoaderId) (name : String) :
    ∃ v b, Area.findLoaded l name a = .ok v b ∧ b.ArraysNamed ∧
      (¬ IsPlain name → ∀ c ∈ v, c.isArray = true) := by
  have hspelled := h.findSpelled l name.toList
  rwa [String.ofList_toList] at hspelled

/-! ### The classes of the language -/

/-- The classes that the rules of the language speak of stay the same. -/
lemma core_eq_of_steps (hsteps : ReflTransGen Step a b) : b.core = a.core := by
  induction hsteps with
  | refl => rfl
  | tail _ hstep ih =>
    cases hstep with
    | array hstep =>
      cases hstep with
      | identity => exact ih
      | array => exact ih
    | _ => exact ih

/-! ### Initialized classes -/

/-- A class that is initialized stays so. -/
lemma initialized_stable (c : Class) : Stable Step fun a => a.phase c = .initialized := by
  intro a b hstep hc
  cases hstep with
  | @phase d p next =>
    unfold phase at hc next ⊢
    cases harray : c.isArray with
    | true => rfl
    | false =>
      rw [harray] at hc
      simp only [setPhase, Table.get?_insert, Bool.false_eq_true, if_false] at hc ⊢
      split
      · next hid =>
        rw [hid] at next
        cases hd : d.isArray <;> simp [hd, hc] at next
      · exact hc
  | array h =>
    cases h with
    | identity => exact hc
    | array => exact hc
  | _ => exact hc

end Area

end Linkage
