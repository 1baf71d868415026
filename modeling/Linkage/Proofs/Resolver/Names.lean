import Linkage.Proofs.Resolver.Laziness
import Linkage.Proofs.Resolver.Identity

/-!
# Names of arrays

Three functions take the name of an array apart, each in its own way: looking for a loaded class,
loading one, and resolving one. What resolving amounts to is simple: the brackets are taken off,
what is left is loaded, and array classes are asked for over it. Loading looks for the whole name
first, and for the name of the component, and so on, and yet it gives the same class or the same
fault and leaves the same tables, with two exceptions. If the brackets end in front of a text that
is neither a single letter nor a name between `L` and `;`, loading refuses the name, but resolving
takes the text for the name of a class. And arrays over the stand-in for the common supertype of
arrays, which no loader has, are found by their names.
-/

namespace Linkage

open Relation

namespace Spelling

/-- What is left of a name when the brackets in front of the names of components are taken off. -/
def core : Spelling → Spelling
  | .plain n => .plain n
  | .nested n s => if (nested n s).isShort then .nested n s else s.core
  | .object n s => if (object n s).isShort then .object n s else s.core
  | .unclosed n => .unclosed n
  | .bare n s => if (bare n s).isShort then .bare n s else .plain s

/-- How many brackets these are. -/
def levels : Spelling → Nat
  | .plain _ => 0
  | .nested n s => if (nested n s).isShort then 0 else s.levels + 1
  | .object n s => if (object n s).isShort then 0 else s.levels + 1
  | .unclosed _ => 0
  | .bare n s => if (bare n s).isShort then 0 else 1

/-- The innermost array of a name, if its bracket stands in front of a text that is neither a single
letter nor a name between `L` and `;`. -/
def dangling? : Spelling → Option String
  | .plain _ => none
  | .nested n s => if (nested n s).isShort then none else s.dangling?
  | .object n s => if (object n s).isShort then none else s.dangling?
  | .unclosed _ => none
  | .bare n s => if (bare n s).isShort then none else some n

/-- One spelling is another one with a bracket in front. -/
inductive Wraps : Spelling → Spelling → Prop where
  | nested (n : String) (s : Spelling) : Wraps (.nested n s) s
  | object (n : String) (s : Spelling) : Wraps (.object n s) s

section

variable {s t : Spelling}

lemma Wraps.core_eq (h : Wraps t s) (hshort : t.isShort = false) : t.core = s.core := by
  cases h <;> simp [core, hshort]

lemma Wraps.levels_eq (h : Wraps t s) (hshort : t.isShort = false) : t.levels = s.levels + 1 := by
  cases h <;> simp [levels, hshort]

lemma Wraps.dangling?_eq (h : Wraps t s) (hshort : t.isShort = false) :
    t.dangling? = s.dangling? := by
  cases h <;> simp [dangling?, hshort]

lemma Wraps.faithful (h : Wraps t s) (ht : t.Faithful) :
    ¬ IsPlain t.name ∧ s.Faithful ∧ ∀ e : Class, e.arrayName = t.name → s = .ofName e.name := by
  cases h <;> exact ht

/-- Nothing can be taken off a plain name, the name of an array over a primitive type, and a name
whose last `L` is not closed. -/
lemma alone_cases (h : s.levels = 0) :
    (∃ n, s = .plain n) ∨ (∃ n, s = .unclosed n ∧ s.isShort = false) ∨
      (∀ n, s ≠ .plain n) ∧ s.isShort = true := by
  cases s with
  | plain n => exact .inl ⟨n, rfl⟩
  | unclosed n =>
    cases hshort : (unclosed n).isShort with
    | false => exact .inr (.inl ⟨n, rfl, rfl⟩)
    | true => exact .inr (.inr ⟨nofun, rfl⟩)
  | _ => exact .inr (.inr ⟨nofun, by by_contra hlong; simp [levels, hlong] at h⟩)

/-- Induction over the brackets that are taken off a name. -/
@[elab_as_elim]
lemma bracket_induction {P : Spelling → Prop}
    (alone : ∀ s : Spelling, s.core = s → s.levels = 0 → s.dangling? = none → P s)
    (bare : ∀ n s, (Spelling.bare n s).isShort = false → P (.bare n s))
    (array : ∀ t s, Wraps t s → t.isShort = false → P s → P t) (s : Spelling) : P s := by
  induction s with
  | plain n => exact alone _ rfl rfl rfl
  | nested n s ih =>
    cases hshort : (nested n s).isShort with
    | true =>
      exact alone (nested n s) (by simp [core, hshort]) (by simp [levels, hshort])
        (by simp [dangling?, hshort])
    | false => exact array _ s (.nested n s) hshort ih
  | object n s ih =>
    cases hshort : (object n s).isShort with
    | true =>
      exact alone (object n s) (by simp [core, hshort]) (by simp [levels, hshort])
        (by simp [dangling?, hshort])
    | false => exact array _ s (.object n s) hshort ih
  | unclosed n => exact alone _ rfl rfl rfl
  | bare n s =>
    cases hshort : (Spelling.bare n s).isShort with
    | true =>
      exact alone (Spelling.bare n s) (by simp [core, hshort]) (by simp [levels, hshort])
        (by simp [dangling?, hshort])
    | false => exact bare n s hshort

end

lemma ofName_name_ofChars (cs : List Char) : ofName (ofChars cs).name = ofChars cs := by
  rw [name_ofChars, ofName, String.toList_ofList]

/-- What is left of a name is taken apart as it was within the name. -/
lemma ofName_core (name : String) : ofName (ofName name).core.name = (ofName name).core := by
  suffices hcore : ∀ cs, ∃ cs', (ofChars cs).core = ofChars cs' by
    obtain ⟨cs', hcs'⟩ := hcore name.toList
    change ofName (ofChars name.toList).core.name = (ofChars name.toList).core
    rw [hcs', ofName_name_ofChars]
  intro cs
  by_cases hself : (ofChars cs).core = ofChars cs
  · exact ⟨cs, hself⟩
  -- Something is taken off, so the name is not a short one.
  revert hself
  fun_induction ofChars cs with
  | case1 rest hhead ih =>
    intro hself
    unfold core at hself ⊢
    split at hself
    · exact absurd rfl hself
    · rw [if_neg ‹_›]
      by_cases hrest : (ofChars rest).core = ofChars rest
      · exact ⟨rest, hrest⟩
      · exact ih hrest
  | case2 rest hhead element helement hlt ih =>
    intro hself
    unfold core at hself ⊢
    split at hself
    · exact absurd rfl hself
    · rw [if_neg ‹_›]
      by_cases hrest : (ofChars element).core = ofChars element
      · exact ⟨element, hrest⟩
      · exact ih hrest
  | case3 rest hhead helement => exact fun hself => absurd rfl hself
  | case4 rest hnested hobject =>
    intro hself
    unfold core at hself ⊢
    split at hself
    · exact absurd rfl hself
    · rw [if_neg ‹_›]
      have hplain : IsPlain (String.ofList rest) := isPlain_ofList.2 hnested
      exact ⟨rest, by rw [← ofName_eq_plain hplain, ofName, String.toList_ofList]⟩
  | case5 cs hplain => exact fun hself => absurd rfl hself

end Spelling

namespace Area

variable {a b q : Area} {l : LoaderId} {name : String} {s t : Spelling} {c d : Class} {n : Nat}

/-! ### Arrays of several dimensions -/

/-- Asks for the array class of so many more dimensions over a class. -/
def arraysOver : Nat → Class → AreaM Class
  | 0, c => pure c
  | n + 1, c => do arrayOf (← arraysOver n c)

/-- Loads what is left of a name without brackets and asks for the array classes over it. -/
def assemble (l : LoaderId) (s : Spelling) : AreaM Class := do
  arraysOver s.levels (← load l s.core.name)

lemma tidy_arraysOver (c : Class) (n : Nat) :
    Performs TidyStep (fun a => a.Tidy ∧ a.Admitted c) (arraysOver n c)
      fun x a => a.Admitted x := by
  induction n with
  | zero => exact .pure fun _ ha => ha.2
  | succ n ih =>
    exact Performs.bind (ih.keeping (P := Tidy) tidy_stable fun _ ha => ha.1) fun x =>
      (tidy_arrayOf x).weaken (fun _ ha => ha) fun _ _ hx => hx.admitted

lemma grown_stable (a : Area) : Stable TidyStep fun b => b.Tidy ∧ Grown a b :=
  fun _ _ hstep hb => ⟨(hstep hb.1).1, hb.2.trans (hstep hb.1).2.1⟩

/-- What fails about the array class over a class that is there changes nothing. -/
lemma Tidy.eq_of_arrayOf_error (ha : a.Tidy) (hc : a.Known c) {e : Fault}
    (hrun : arrayOf c a = .error e b) : b = a := by
  rcases arrayOf_cases c a with ⟨d, -, hrun'⟩ | ⟨-, ⟨-, x, hrun'⟩ | ⟨hnone, -⟩ | ⟨-, -, hrun'⟩⟩
  · rw [hrun] at hrun'
    cases hrun'
  · rw [hrun] at hrun'
    cases hrun'
    rfl
  · have hsome := ha.loader_isSome hc
    rw [hnone] at hsome
    cases hsome
  · rw [hrun] at hrun'
    cases hrun'

lemma arraysOver_again (hrun : arraysOver n c a = .ok d b)
    (hkept : ∀ l n c, b.published? l n = some c → q.published? l n = some c) :
    arraysOver n c q = .ok d q := by
  induction n generalizing d b with
  | zero =>
    cases hrun
    rfl
  | succ n ih =>
    obtain ⟨x, s, hx, harray⟩ := bind_eq_ok.1 hrun
    have hsteps := arrayOf_steps x s
    rw [finalState_of_ok harray] at hsteps
    have hgrown : Grown s b :=
      Grown.of_steps (ReflTransGen.mono (fun _ _ => LoadStep.array) _ _ hsteps)
    have hagain := ih hx fun l n c hc => hkept l n c (hgrown.kept l n c hc)
    exact (bind_of_ok hagain).trans
      (arrayOf_of_published (hkept _ _ d (published?_of_arrayOf harray)))

/-- Arrays of too many dimensions are refused again, after those were made that are not too many. -/
lemma Tidy.arraysOver_error_again (ha : a.Tidy) (hc : a.Admitted c) {e : Fault}
    (hrun : arraysOver n c a = .error e b) : arraysOver n c b = .error e b := by
  induction n with
  | zero => cases hrun
  | succ n ih =>
    rcases bind_eq_error.1 hrun with hrun | ⟨x, s, hx, harray⟩
    · exact bind_of_error (ih hrun)
    · obtain ⟨hsteps, hadmitted⟩ := tidy_arraysOver c n a ⟨ha, hc⟩
      rw [finalState_of_ok hx] at hsteps
      have hs : s.Tidy := tidy_stable.reflTransGen hsteps ha
      obtain rfl := hs.eq_of_arrayOf_error (hadmitted x s hx).known harray
      exact (bind_of_ok (arraysOver_again hx fun _ _ _ h => h)).trans harray

/-! ### Looking for loaded classes -/

/-- The loader has made array classes over the stand-in for the common supertype of arrays, and the
name is that of one; but it has no class with the name of the stand-in. -/
structure StandsIn (a : Area) (l : LoaderId) (s : Spelling) : Prop where
  home : l = .bootstrap
  core : s.core = .plain a.core.arrayStub.name
  array : s.levels ≠ 0
  missing : a.published? .bootstrap a.core.arrayStub.name = none
  made : (a.published? .bootstrap a.core.arrayStub.arrayName).isSome = true

/-- The array class of so many more dimensions over a class, if there is one and it can be had. -/
def overFound (n : Nat) : Option Class → AreaM (Option Class)
  | some c => tryCatch (some <$> arraysOver n c) fun _ => pure none
  | none => pure none

lemma overFound_some (n : Nat) (c : Class) (a : Area) :
    overFound n (some c) a =
      match arraysOver n c a with
      | .ok d b => .ok (some d) b
      | .error _ b => .ok none b := by
  unfold overFound
  cases h : arraysOver n c a with
  | ok d b => exact tryCatch_of_ok (bind_of_ok h)
  | error e b => exact tryCatch_of_error (bind_of_error h)

lemma overFound_zero (v : Option Class) (a : Area) : overFound 0 v a = .ok v a := by
  cases v with
  | none => rfl
  | some c => rw [overFound_some]; rfl

lemma overFound_succ (n : Nat) (v : Option Class) (a : Area) :
    overFound (n + 1) v a = (do
      match ← overFound n v with
      | some c => arrayOf? c
      | none => return none : AreaM (Option Class)) a := by
  cases v with
  | none => rfl
  | some c =>
    rw [overFound_some]
    unfold arraysOver
    cases h : arraysOver n c a with
    | ok d b =>
      have hfound : overFound n (some c) a = .ok (some d) b := by rw [overFound_some, h]
      rw [bind_of_ok h, bind_of_ok hfound]
      exact (arrayOf?_eq d b).symm
    | error e b =>
      have hfound : overFound n (some c) a = .ok none b := by rw [overFound_some, h]
      rw [bind_of_error h, bind_of_ok hfound]
      rfl

lemma findSpelled_of_wraps (h : Spelling.Wraps t s) (l : LoaderId) :
    findSpelled l t = Area.findArray l t.name t.isShort (findSpelled l s) := by
  cases h <;> rfl

/-- Looking for the name of an array looks for the component first. -/
lemma Tidy.findArray_over (ha : a.Tidy) (hname : ¬ IsPlain name) (hlong : name.utf8ByteSize ≠ 2)
    (hover : ∀ e : Class, e.arrayName = name → s = .ofName e.name)
    (hstub : l = .bootstrap → s = .plain a.core.arrayStub.name →
      findSpelled l s a = .ok none a →
        a.published? .bootstrap a.core.arrayStub.arrayName = none) {v : Option Class}
    (hfind : findSpelled l s a = overFound n v a) :
    Area.findArray l name false (findSpelled l s) a = overFound (n + 1) v a := by
  rw [overFound_succ]
  cases hx : a.published? l name with
  | none =>
    unfold Area.findArray
    rw [bind_of_ok (get_apply a)]
    simp only [hx, Bool.false_eq_true, if_false]
    exact bind_of_eq hfind
  | some x =>
    rw [findArray_of_published hx]
    have hcomponent := ha.component_found hx hname hlong fun e he => congrArg _ (hover e he)
    rcases hcomponent with ⟨e, he, harray⟩ | ⟨rfl, rfl, hnone⟩
    · rw [bind_of_ok (hfind.symm.trans he)]
      dsimp only
      rw [arrayOf?_eq, harray]
    · have hs := (hover _ rfl).trans (Spelling.ofName_eq_plain ha.stub.2.1)
      rw [hstub rfl hs hnone] at hx
      cases hx

/-- What is found for the component of an array decides what is found for the array. -/
lemma Tidy.findSpelled_over (ha : a.Tidy) (h : Spelling.Wraps t s) (ht : t.Faithful)
    (hshort : t.isShort = false) (hstub : ¬ a.StandsIn l t) {v : Option Class}
    (hfind : findSpelled l s a = overFound s.levels v a) :
    findSpelled l t a = overFound t.levels v a := by
  obtain ⟨hname, -, hover⟩ := h.faithful ht
  rw [findSpelled_of_wraps h, hshort, h.levels_eq hshort]
  refine ha.findArray_over hname (of_decide_eq_false hshort) hover (fun hl hs hnone => ?_) hfind
  rw [Option.eq_none_iff_forall_ne_some]
  intro c hmade
  refine hstub ⟨hl, by rw [h.core_eq hshort, hs]; rfl, ?_, ?_, by rw [hmade]; rfl⟩
  · rw [h.levels_eq hshort]
    exact Nat.succ_ne_zero _
  · rw [hs, findSpelled_plain, EStateM.Result.ok.injEq] at hnone
    exact hl ▸ hnone.1

lemma StandsIn.of_component (h : a.StandsIn l s) (hwraps : Spelling.Wraps t s)
    (hshort : t.isShort = false) : a.StandsIn l t :=
  ⟨h.home, (hwraps.core_eq hshort).trans h.core, by rw [hwraps.levels_eq hshort]; omega, h.missing,
    h.made⟩

/-- Nothing is found under a name that is the name of no array class. -/
lemma Tidy.findArray_none (ha : a.Tidy) (hname : ¬ IsPlain name) (hlong : name.utf8ByteSize ≠ 2)
    (hno : ∀ e : Class, e.arrayName ≠ name) (l : LoaderId) :
    Area.findArray l name false (pure none) a = .ok none a := by
  have hnone : a.published? l name = none := by
    rw [Option.eq_none_iff_forall_ne_some]
    intro c hc
    obtain ⟨e, he, -⟩ := ha.exists_component hc hname hlong
    exact hno e he
  unfold Area.findArray
  rw [bind_of_ok (get_apply a)]
  simp only [hnone]
  rfl

lemma Tidy.findSpelled_unclosed (ha : a.Tidy) {n : String} (hs : (Spelling.unclosed n).Faithful)
    (hshort : (Spelling.unclosed n).isShort = false) (l : LoaderId) :
    findSpelled l (.unclosed n) a = .ok none a := by
  rw [findSpelled, hshort]
  exact ha.findArray_none hs.1 (of_decide_eq_false hshort) hs.2 l

lemma findSpelled_short (hplain : ∀ n, s ≠ .plain n) (hshort : s.isShort = true) (l : LoaderId)
    (a : Area) : findSpelled l s a = .ok (a.shortClass? l s.name) a := by
  cases s with
  | plain n => exact absurd rfl (hplain n)
  | _ =>
    unfold findSpelled
    rw [hshort]
    exact findArray_short l _ _ a

/-- Looking for a class by its name finds the array classes over what is found under the part of the
name without brackets. -/
lemma Tidy.findSpelled_eq (ha : a.Tidy) (hs : s.Faithful) (hend : s.dangling? = none)
    (hstub : ¬ a.StandsIn l s) :
    ∃ v, findSpelled l s.core a = .ok v a ∧ findSpelled l s a = overFound s.levels v a := by
  induction s using Spelling.bracket_induction with
  | alone s hcore hlevels =>
    have hfound : ∃ v, findSpelled l s a = .ok v a := by
      rcases Spelling.alone_cases hlevels with ⟨n, rfl⟩ | ⟨n, rfl, hshort⟩ | ⟨hplain, hshort⟩
      · exact ⟨_, findSpelled_plain l n a⟩
      · exact ⟨none, ha.findSpelled_unclosed hs hshort l⟩
      · exact ⟨_, findSpelled_short hplain hshort l a⟩
    obtain ⟨v, hv⟩ := hfound
    exact ⟨v, hcore.symm ▸ hv, by rw [hv, hlevels, overFound_zero]⟩
  | bare n s hshort => simp [Spelling.dangling?, hshort] at hend
  | array t s hwraps hshort ih =>
    obtain ⟨v, hv, hfind⟩ := ih (hwraps.faithful hs).2.1
      ((hwraps.dangling?_eq hshort).symm.trans hend) fun h => hstub (h.of_component hwraps hshort)
    exact ⟨v, (hwraps.core_eq hshort).symm ▸ hv, ha.findSpelled_over hwraps hs hshort hstub hfind⟩

/-! ### Loading -/

lemma loadSpelled_of_found {load : LoaderId → String → AreaM Class}
    (h : findSpelled l s a = .ok (some c) b) : loadSpelled load l s a = .ok c b := by
  cases s <;> exact bind_of_ok h

lemma loadSpelled_of_wraps {load : LoaderId → String → AreaM Class} (h : Spelling.Wraps t s)
    (hnone : findSpelled l t a = .ok none b) :
    loadSpelled load l t a = (loadSpelled load l s >>= arrayOf) b := by
  cases h <;> exact bind_of_ok hnone

/-- Loading a class by its name loads what is left without brackets and asks for the array classes
over it, although the whole name is looked for first. -/
lemma Tidy.loadSpelled_eq (ha : a.Tidy) (hs : s.Faithful) (hself : .ofName s.core.name = s.core)
    (hend : s.dangling? = none) (hstub : ¬ a.StandsIn l s) (k : Nat) :
    loadSpelled (loadPlain k) l s a =
      (loadSpelled (loadPlain k) l s.core >>= arraysOver s.levels) a := by
  induction s using Spelling.bracket_induction generalizing a with
  | alone s hcore hlevels =>
    rw [hcore, hlevels]
    exact congrFun (bind_pure _).symm a
  | bare n s hshort => simp [Spelling.dangling?, hshort] at hend
  | array t s hwraps hshort ih =>
    have hcore := hwraps.core_eq hshort
    have hlevels := hwraps.levels_eq hshort
    obtain ⟨v, hv, hfind⟩ := ha.findSpelled_eq hs hend hstub
    -- What loading the component amounts to, now and when the whole name was looked for in vain.
    have hcomponent : ∀ b : Area, b.Tidy → ¬ b.StandsIn l t →
        (loadSpelled (loadPlain k) l s >>= arrayOf) b =
          (loadSpelled (loadPlain k) l t.core >>= arraysOver t.levels) b := by
      intro b hb hstub
      rw [bind_of_eq (ih hb (hwraps.faithful hs).2.1 (hcore ▸ hself)
        ((hwraps.dangling?_eq hshort).symm.trans hend)
        fun h => hstub (h.of_component hwraps hshort)), bind_assoc, hcore, hlevels]
      rfl
    cases v with
    | none =>
      rw [loadSpelled_of_wraps hwraps (hfind.trans rfl)]
      exact hcomponent a ha hstub
    | some c =>
      rw [bind_of_ok (loadSpelled_of_found hv)]
      rw [overFound_some] at hfind
      cases hrun : arraysOver t.levels c a with
      | ok d b =>
        rw [hrun] at hfind
        exact loadSpelled_of_found hfind
      | error e b =>
        rw [hrun] at hfind
        have hc : a.Admitted c :=
          ((carries_rooted.findSpelled l t.core a ha).2 _ _ hv c rfl).admitted
        have hsteps := (tidy_arraysOver c t.levels a ⟨ha, hc⟩).1
        rw [finalState_of_error hrun] at hsteps
        obtain ⟨hb, hgrown⟩ := (grown_stable a).reflTransGen hsteps ⟨ha, .refl a⟩
        have hagain : findSpelled l t.core b = .ok (some c) b := by
          rw [← hself] at hv ⊢
          exact hb.find_again hgrown.kept hv
        rw [loadSpelled_of_wraps hwraps hfind, hcomponent b hb,
          bind_of_ok (loadSpelled_of_found hagain), ha.arraysOver_error_again hc hrun]
        intro hstub
        rw [hstub.core, findSpelled_plain, hstub.home, hstub.missing] at hagain
        cases hagain

/-- Nothing is loaded by a name that is the name of no array class. -/
lemma loadBare_of_none {load : LoaderId → String → AreaM Class}
    (hs : s = .unclosed name ∨ ∃ component, s = .bare name component)
    (hnone : ∀ l, findSpelled l s a = .ok none a) (l : LoaderId) :
    loadSpelled load l s a = .error (.classMissing name) a := by
  rcases hs with rfl | ⟨component, rfl⟩ <;>
    exact (bind_of_ok (hnone l)).trans (bind_of_ok (hnone .bootstrap))

/-- Loading refuses a name whose brackets end in front of a text that is neither a single letter nor
a name between `L` and `;`. -/
lemma Tidy.load_dangling (ha : a.Tidy) (hs : s.Faithful) (hend : s.dangling? = some name)
    (load : LoaderId → String → AreaM Class) (l : LoaderId) :
    findSpelled l s a = .ok none a ∧ loadSpelled load l s a = .error (.classMissing name) a := by
  induction s using Spelling.bracket_induction with
  | alone s hcore hlevels hnone =>
    rw [hnone] at hend
    cases hend
  | bare n s hshort =>
    obtain rfl : n = name := by simpa [Spelling.dangling?, hshort] using hend
    have hnone : ∀ l, findSpelled l (.bare n s) a = .ok none a := by
      intro l
      rw [findSpelled, hshort]
      exact ha.findArray_none hs.1 (of_decide_eq_false hshort) hs.2 l
    exact ⟨hnone l, loadBare_of_none (.inr ⟨s, rfl⟩) hnone l⟩
  | array t s hwraps hshort ih =>
    obtain ⟨hname, hs, hover⟩ := hwraps.faithful hs
    rw [hwraps.dangling?_eq hshort] at hend
    obtain ⟨hcomponent, hload⟩ := ih hs hend
    have hnone : a.published? l t.name = none := by
      rw [Option.eq_none_iff_forall_ne_some]
      intro c hc
      have hfound := ha.component_found hc hname (of_decide_eq_false hshort)
        fun e he => congrArg (findSpelled l) (hover e he)
      rcases hfound with ⟨e, he, -⟩ | ⟨-, hstub, -⟩
      · rw [hcomponent] at he
        cases he
      · -- The name of the stand-in is a plain one.
        rw [hover _ hstub.symm, Spelling.ofName_eq_plain ha.stub.2.1] at hend
        cases hend
    have hfind : findSpelled l t a = .ok none a := by
      rw [findSpelled_of_wraps hwraps, hshort]
      unfold Area.findArray
      rw [bind_of_ok (get_apply a)]
      simp only [hnone, Bool.false_eq_true, if_false]
      exact bind_of_ok hcomponent
    exact ⟨hfind, (loadSpelled_of_wraps hwraps hfind).trans (bind_of_error hload)⟩

lemma load_core (l : LoaderId) (name : String) (a : Area) :
    load l (Spelling.ofName name).core.name a =
      loadSpelled (loadPlain a.loadBound) l (Spelling.ofName name).core a := by
  rw [← Spelling.ofName_core name]
  simp only [Spelling.name_ofName]
  rfl

/-- How a class is loaded by its name. -/
lemma Tidy.load_eq (ha : a.Tidy) (hend : (Spelling.ofName name).dangling? = none)
    (hstub : ¬ a.StandsIn l (.ofName name)) : load l name a = assemble l (.ofName name) a := by
  have hload := ha.loadSpelled_eq (Spelling.faithful_ofName name) (Spelling.ofName_core name) hend
    hstub a.loadBound
  rw [show load l name a = _ from hload]
  exact bind_of_eq (load_core l name a).symm

end Area

namespace Resolver

variable {l : LoaderId} {s : Spelling} {r : Resolver} {name : String}

/-! ### Resolving -/

lemma run_perform {α : Type} (x : AreaM α) (r : Resolver) :
    (perform x).run r =
      match x r.area with
      | .ok v a => .ok (some v) { r with area := a }
      | .error e a => .error e { r with area := a } := by
  change (onArea x >>= fun v => pure (some v)) r = _
  cases h : x r.area with
  | ok v a =>
    have hrun : onArea x r = .ok v { r with area := a } := by simp only [onArea, h]
    exact bind_of_ok hrun
  | error e a =>
    have hrun : onArea x r = .error e { r with area := a } := by simp only [onArea, h]
    exact bind_of_error hrun

/-- An operation on the area that is part of a resolution goes on with another. -/
lemma run_bind_perform {x : ResolutionM Class} {y : AreaM Class} {f : Class → AreaM Class}
    (h : x.run r = (perform y).run r) :
    (x >>= fun c => perform (f c)).run r = (perform (y >>= f)).run r := by
  rw [run_perform] at h ⊢
  cases hrun : y r.area with
  | ok c a =>
    rw [hrun] at h
    rw [run_bind_of_some h, bind_of_ok hrun]
    exact run_perform (f c) { r with area := a }
  | error e a =>
    rw [hrun] at h
    rw [run_bind_of_error h, bind_of_error hrun]

lemma run_resolvePlain_eager (hplain : IsPlain name) (l : LoaderId) (r : Resolver) :
    (resolvePlain l .eager name).run r = (perform (Area.load l name)).run r := by
  rw [run_resolvePlain]
  cases hfound : r.area.published? l name with
  | none => rfl
  | some c =>
    have hload : Area.load l name r.area = .ok c r.area := by
      rw [Area.load_plain hplain, Area.loadSpelled_plain_of_some hfound]
    rw [run_perform, hload]

lemma resolveSpelled_short (hplain : ∀ n, s ≠ .plain n) (hshort : s.isShort = true)
    (l : LoaderId) (mode : ResolveMode) :
    resolveSpelled l mode s = perform (Area.load l s.name) := by
  cases s with
  | plain n => exact absurd rfl (hplain n)
  | _ => simp [resolveSpelled, hshort, Spelling.name]

/-- How a name is resolved. -/
lemma run_resolveSpelled (hr : r.area.Tidy) (hs : s.Faithful)
    (hself : .ofName s.core.name = s.core) (l : LoaderId) :
    (resolveSpelled l .eager s).run r = (perform (Area.assemble l s)).run r := by
  induction s using Spelling.bracket_induction with
  | alone s hcore hlevels =>
    have hload : Area.assemble l s = Area.load l s.name := by
      unfold Area.assemble
      rw [hcore, hlevels]
      exact bind_pure _
    rw [hload]
    rcases Spelling.alone_cases hlevels with ⟨n, rfl⟩ | ⟨n, rfl, hshort⟩ | ⟨hplain, hshort⟩
    · exact run_resolvePlain_eager hs l r
    · have hmissing : Area.load l n r.area = .error (.classMissing n) r.area := by
        have hname : Spelling.ofName n = .unclosed n := hself
        rw [show Area.load l n r.area =
          Area.loadSpelled (Area.loadPlain r.area.loadBound) l (.ofName n) r.area from rfl, hname]
        exact Area.loadBare_of_none (.inl rfl) (hr.findSpelled_unclosed hs hshort) l
      rw [run_perform, show (Spelling.unclosed n).name = n from rfl, hmissing]
      simp only [resolveSpelled, hshort, Bool.false_eq_true, if_false]
      rfl
    · rw [resolveSpelled_short hplain hshort]
  | bare n s hshort =>
    have hcore : (Spelling.bare n s).core = .plain s := by simp [Spelling.core, hshort]
    rw [hcore] at hself
    have hplain : IsPlain s := by
      have hproper := Spelling.proper_ofName s
      rwa [show Spelling.ofName s = .plain s from hself] at hproper
    have hassemble : Area.assemble l (.bare n s) = Area.load l s >>= Area.arrayOf := by
      unfold Area.assemble
      rw [hcore, show (Spelling.bare n s).levels = 1 by simp [Spelling.levels, hshort]]
      rfl
    have hrun : resolveSpelled l .eager (.bare n s) =
        resolvePlain l .eager s >>= fun c => perform (Area.arrayOf c) := by
      simp [resolveSpelled, hshort]
    rw [hrun, hassemble]
    exact run_bind_perform (run_resolvePlain_eager hplain l r)
  | array t s hwraps hshort ih =>
    have hcore := hwraps.core_eq hshort
    have hassemble : Area.assemble l t = Area.assemble l s >>= Area.arrayOf := by
      unfold Area.assemble
      rw [hcore, hwraps.levels_eq hshort, bind_assoc]
      rfl
    have hrun : resolveSpelled l .eager t =
        resolveSpelled l .eager s >>= fun c => perform (Area.arrayOf c) := by
      cases hwraps <;> simp [resolveSpelled, hshort]
    rw [hrun, hassemble]
    exact run_bind_perform (ih (hwraps.faithful hs).2.1 (hcore ▸ hself))

lemma run_resolveName (hr : r.area.Tidy) (R : Class) (method : Option MethodHandle)
    (name : String) :
    (resolveName R method name .eager false).run r =
      (perform (Area.assemble R.loader (.ofName name))).run r := by
  rw [← run_resolveSpelled hr (Spelling.faithful_ofName name) (Spelling.ofName_core name)]
  have heffective : (effective .eager).run r = .ok (some .eager) r := by
    change EStateM.Result.ok (some (if r.config.eager then _ else _)) r = _
    rw [ite_self]
  unfold resolveName
  rw [run_bind_of_some heffective]
  simp only [Bool.false_and, Bool.false_eq_true, if_false, bind_pure]

/-- What a name means to the resolver and to a loader. Asked eagerly and without a check of access,
the resolver takes the brackets off a name, loads what is left and asks for the array classes over
it. Loading the name with the loader of the referring class gives the same class or the same fault
and leaves everything in the same state, unless the brackets end in front of a text that is neither
a single letter nor a name between `L` and `;`, and loading refuses the name, or it is the name of
an array over the stand-in for the common supertype of arrays. -/
theorem resolves_like_load {start : Resolver} (hstart : start.area = Area.initial)
    (hrun : GenuineRun start r) (R : Class) (method : Option MethodHandle) (name : String) :
    (resolveName R method name .eager false).run r =
        (perform (Area.assemble R.loader (.ofName name))).run r ∧
      ((Spelling.ofName name).dangling? = none → ¬ r.area.StandsIn R.loader (.ofName name) →
        (resolveName R method name .eager false).run r =
          (perform (Area.load R.loader name)).run r) ∧
      ∀ n, (Spelling.ofName name).dangling? = some n →
        Area.load R.loader name r.area = .error (.classMissing n) r.area := by
  have hr : r.area.Tidy := hrun.tidy (hstart ▸ Area.initial_tidy)
  have hresolve := run_resolveName hr R method name
  refine ⟨hresolve, fun hend hstub => ?_, fun n hend => ?_⟩
  · rw [hresolve, run_perform, run_perform, hr.load_eq hend hstub]
  · exact (hr.load_dangling (Spelling.faithful_ofName name) hend _ R.loader).2

/-- The resolver after the bootstrap loader has loaded a class. -/
def withClass : Resolver :=
  performAll [.define .bootstrap { name := "p/X", flags := Flag.accPublic.mask },
    .load .bootstrap "p/X"] { area := Area.initial }

lemma genuineRun_withClass : GenuineRun { area := Area.initial } withClass :=
  genuineRun_performAll (by simp [Operation.Genuine]) _

/-- The name of an array of two dimensions means the same to both. -/
theorem nested_array_resolved : ∃ R c a, withClass.area.published? .bootstrap "p/X" = some R ∧
    Area.load R.loader "[[Lp/X;" withClass.area = .ok c a ∧
    (resolveName R none "[[Lp/X;" .eager false).run withClass =
      .ok (some c) { withClass with area := a } := by
  have hloader : (withClass.area.published? .bootstrap "p/X").map Class.loader =
      some .bootstrap := by
    decide +kernel
  have hloads : yields (fun c => c.name == "[[Lp/X;")
      (Area.load .bootstrap "[[Lp/X;" withClass.area) = true := by
    decide +kernel
  obtain ⟨R, hR, hRl⟩ := Option.map_eq_some_iff.1 hloader
  obtain ⟨c, a, hload, -⟩ := exists_of_yields hloads
  obtain ⟨-, hsame, -⟩ := resolves_like_load rfl genuineRun_withClass R none "[[Lp/X;"
  rw [← hRl] at hload
  refine ⟨R, c, a, hR, hload, ?_⟩
  rw [hsame (by decide +kernel) (fun h => absurd h.made (by decide +kernel)), run_perform, hload]

/-- A bracket in front of the name of a class, with neither `L` nor `;`, is the name of an array to
the resolver and of nothing to the loader. -/
theorem bracketed_name_resolved : ∃ R c r', GenuineRun { area := Area.initial } withClass ∧
    withClass.area.published? .bootstrap "p/X" = some R ∧
    Area.load R.loader "[p/X" withClass.area = .error (.classMissing "[p/X") withClass.area ∧
    Gives (resolveName R none "[p/X" .eager false) withClass c r' ∧ c.name = "[Lp/X;" := by
  have hgives : (withClass.area.published? .bootstrap "p/X").any (fun R =>
      givesWhere (resolveName R none "[p/X" .eager false) (fun c _ => c.name == "[Lp/X;")
        withClass) = true := by
    decide +kernel
  have hend : (Spelling.ofName "[p/X").dangling? = some "[p/X" := by decide +kernel
  obtain ⟨R, hR, hgives⟩ := (Option.any_eq_true _ _).1 hgives
  obtain ⟨c, r', hc, hname⟩ := exists_gives hgives
  have htidy := genuineRun_withClass.tidy Area.initial_tidy
  exact ⟨R, c, r', genuineRun_withClass, hR,
    (htidy.load_dangling (Spelling.faithful_ofName "[p/X") hend _ R.loader).2, hc, eq_of_beq hname⟩

/-- The resolver after the array class over the stand-in was asked for. -/
def withStubArray : Resolver :=
  performAll [.arrayOf Boot.arrayStub] { area := Area.initial }

lemma genuineRun_withStubArray : GenuineRun { area := Area.initial } withStubArray :=
  .single ⟨.arrayOf Boot.arrayStub, .inr rfl, rfl⟩

/-- The array class over the stand-in is loaded by its name, but not resolved. -/
theorem stub_array_not_resolved (R : Class) (hR : R.loader = .bootstrap) :
    withStubArray.area.StandsIn R.loader (.ofName "[L$ARRAYSTUB$;") ∧
      (∃ c a, Area.load R.loader "[L$ARRAYSTUB$;" withStubArray.area = .ok c a) ∧
      ∀ c r', ¬ Gives (resolveName R none "[L$ARRAYSTUB$;" .eager false) withStubArray c r' := by
  have hloads : yields (fun _ => true)
      (Area.load .bootstrap "[L$ARRAYSTUB$;" withStubArray.area) = true := by
    decide +kernel
  have hfails : yields (fun _ => true)
      (Area.assemble .bootstrap (.ofName "[L$ARRAYSTUB$;") withStubArray.area) = false := by
    decide +kernel
  have htidy := genuineRun_withStubArray.tidy Area.initial_tidy
  rw [hR]
  refine ⟨⟨rfl, ?_, by decide +kernel, Option.isNone_iff_eq_none.1 ?_, ?_⟩, ?_, fun c r' hc => ?_⟩
  · rw [htidy.core]
    decide +kernel
  · rw [htidy.core]
    decide +kernel
  · rw [htidy.core]
    decide +kernel
  · obtain ⟨c, a, hload, -⟩ := exists_of_yields hloads
    exact ⟨c, a, hload⟩
  · unfold Gives at hc
    rw [run_resolveName htidy, hR, run_perform] at hc
    cases hrun : Area.assemble .bootstrap (.ofName "[L$ARRAYSTUB$;") withStubArray.area with
    | ok d a =>
      rw [hrun] at hfails
      cases hfails
    | error e a =>
      rw [hrun] at hc
      cases hc

end Resolver

end Linkage
