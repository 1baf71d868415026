import Linkage.Proofs.Area.Ending
import Linkage.Proofs.Resolver.Names

/-!
# What a failed load leaves behind

A load may fail after any number of supertypes were loaded through several loaders, in the middle of
definitions within definitions. What is left then is no half of anything: the supertypes that were
loaded are in the tables of the loaders that defined them, every one of them is counted, no class
counts as being defined that did not before, and the class that was asked for is found nowhere it
was asked.
-/

namespace Linkage

open Relation

namespace Spelling

variable {s t : Spelling}

lemma Wraps.proper (h : Wraps t s) (ht : t.Proper) : s.Proper := by
  cases h <;> exact ht

/-- The component of a name that was taken apart is a name that was taken apart. -/
lemma Wraps.ofName_name (h : Wraps t s) (ht : ofName t.name = t) : ofName s.name = s := by
  rw [← ht] at h
  unfold ofName at h
  clear ht
  generalize t.name.toList = cs at h
  unfold ofChars at h
  split at h
  · split at h
    · cases h
      exact ofName_name_ofChars _
    · split at h
      · cases h
        exact ofName_name_ofChars _
      · cases h
    · cases h
  · cases h

end Spelling

namespace Area

variable {a b : Area} {l : LoaderId} {name : String} {s t : Spelling} {c : Class} {e : Fault}
  {k : Nat}

/-! ### Classes that are no arrays -/

section

variable {waiting : List LoaderId} {next : LoaderId → LoaderId} {y : LoaderId}

/-- If the definition of a class fails then neither the loader nor anyone who waits for it has got a
class of that name. -/
lemma missing_of_defineClass (hplain : IsPlain name) {load : String → AreaM Class}
    (hload : ∀ waiting next n, Performs (WaitStep name waiting next) (Waits name waiting next)
      (load n) fun _ _ => True)
    (ha : a.Sound) (hwait : Awaits name waiting next y a) (hy : y ∉ waiting)
    (hmissing : a.published? y name = none) (hself : a.definer? y name = some y)
    (hrun : defineClass load y name a = .error e b) :
    ∀ x ∈ y :: waiting, b.published? x name = none := by
  by_cases hmem : (y, name) ∈ a.defining
  · rw [defineClass_of_mem hmem] at hrun
    cases hrun
    exact (hwait.extend hy hmissing hself).1
  obtain ⟨hend, -⟩ := missing_of_derive hplain hload ha hwait hy hmissing hself
  rcases defineClass_cases load hmem with ⟨e', b', hb', hrun'⟩ | ⟨c, b', hb', ⟨e', hrun'⟩ |
    ⟨t, -, hrun'⟩⟩ <;> rw [hrun] at hrun' <;> cases hrun'
  · rw [finalState_of_error hb'] at hend
    exact hend
  · rw [finalState_of_ok hb'] at hend
    exact hend

/-- If a load fails then neither the loader nor anyone who waits for it has got a class of that
name. -/
lemma missing_of_loadPlain (hplain : IsPlain name) (ha : a.Sound)
    (hwait : Awaits name waiting next y a) (hmissing : a.published? y name = none)
    (hrun : loadPlain k y name a = .error e b) :
    ∀ x ∈ y :: waiting, b.published? x name = none := by
  have hnone : ∀ x ∈ y :: waiting, a.published? x name = none := by
    intro x hx
    rcases List.mem_cons.1 hx with rfl | hx
    · exact hmissing
    · exact hwait.missing x hx
  induction k generalizing y a b e waiting next with
  | zero =>
    cases hrun
    exact hnone
  | succ k ih =>
    by_cases hy : y ∈ waiting
    · obtain ⟨e', he'⟩ := (hwait.stuck hy).loadPlain hy (k + 1)
      rw [hrun] at he'
      cases he'
      exact hnone
    cases hd : a.definer? y name with
    | none =>
      rw [loadPlain_of_nobody hd] at hrun
      cases hrun
      exact hnone
    | some d =>
      rw [loadPlain_of_definer? hd] at hrun
      split at hrun
      · next hself =>
        subst hself
        exact missing_of_defineClass hplain (fun _ _ s => performs_loadSpelled_stuck hplain k d s)
          ha hwait hy hmissing hd hrun
      · next hne =>
        have hawaits := hwait.delegate hy hmissing hd hne
        cases hfound : a.published? d name with
        | some c₀ =>
          -- The loader that was asked has the class, so it is the constraints that refuse it.
          rcases handOver_eq_error hrun with hload | ⟨c, hload⟩ <;>
            rw [loadSpelled_plain_of_some hfound] at hload <;> cases hload
          exact hnone
        | none =>
          rcases handOver_eq_error hrun with hload | ⟨c, hload⟩ <;>
            rw [loadSpelled_plain_of_none hfound] at hload
          · intro x hx
            exact ih ha hawaits hfound hload
              (List.forall_mem_cons.2 ⟨hfound, hnone⟩) x (List.mem_cons_of_mem d hx)
          · exact (published?_of_loadPlain hplain ha hawaits hfound hload).2

end

/-- What loading a class that is no array gives is in the table of the loader, and nothing is there
if it fails. -/
lemma published?_of_loadSpelled_plain (hplain : IsPlain name) (ha : a.Sound) :
    (∀ c b, loadSpelled (loadPlain k) l (.plain name) a = .ok c b →
      b.published? l name = some c) ∧
    ∀ e b, loadSpelled (loadPlain k) l (.plain name) a = .error e b →
      b.published? l name = none := by
  cases hfound : a.published? l name with
  | some c₀ =>
    rw [loadSpelled_plain_of_some hfound]
    refine ⟨fun c b hrun => ?_, fun e b hrun => ?_⟩ <;> cases hrun
    exact hfound
  | none =>
    have hawaits := awaits_nil name l a
    rw [loadSpelled_plain_of_none hfound]
    refine ⟨fun c b hrun => ?_, fun e b hrun => ?_⟩
    · exact (published?_of_loadPlain hplain ha hawaits hfound hrun).1
    · exact missing_of_loadPlain hplain ha hawaits hfound hrun l List.mem_cons_self

/-! ### Array classes over the stand-in -/

/-- No array class over the stand-in for the common supertype of arrays was made. -/
def Unstacked (a : Area) : Prop :=
  ∀ l n d s is, a.published? l n ≠ some (.array d s is a.core.arrayStub)

/-- A change that keeps the tables tidy, and after which there are arrays over the stand-in only if
there were before. -/
def UnstackedStep (a b : Area) : Prop := TidyStep a b ∧ (a.Tidy → a.Unstacked → b.Unstacked)

lemma unstacked_stable : Stable UnstackedStep fun a => a.Tidy ∧ a.Unstacked :=
  fun _ _ hstep ha => ⟨(hstep.1 ha.1).1, hstep.2 ha.1 ha.2⟩

lemma TidyStep.of_steps (h : ReflTransGen TidyStep a b) : TidyStep a b := by
  intro ha
  induction h with
  | refl => exact ⟨ha, .refl a, rfl⟩
  | tail _ hstep ih =>
    obtain ⟨hb, hgrown, hcore⟩ := ih
    obtain ⟨hc, hgrown', hcore'⟩ := hstep hb
    exact ⟨hc, hgrown.trans hgrown', hcore'.trans hcore⟩

/-- An operation that keeps the tables tidy, seen as one step. -/
lemma performs_unstacked {α : Type} {x : AreaM α} {P : Area → Prop} {Q : α → Area → Prop}
    (hx : Performs TidyStep P x Q)
    (hfree : ∀ a, P a → a.Tidy ∧ (a.Unstacked → (finalState x a).Unstacked)) :
    Performs UnstackedStep (fun a => P a ∧ a.Unstacked) x Q := by
  intro a ha
  obtain ⟨hsteps, hq⟩ := hx a ha.1
  exact ⟨.single ⟨.of_steps hsteps, fun _ => (hfree a ha.1).2⟩, hq⟩

/-- What is not about the tables of the loaders makes no array classes. -/
lemma unstackedStep_of_eq (hloaders : b.loaders = a.loaders) (hcore : b.core = a.core)
    (hnext : a.nextId ≤ b.nextId) (hloads : b.loads = a.loads) : UnstackedStep a b := by
  refine ⟨tidyStep_of_eq hloaders hcore hnext hloads, fun _ ha => ?_⟩
  unfold Unstacked published?
  rw [hloaders, hcore]
  exact ha

lemma Unstacked.withClass (h : a.Unstacked)
    (hc : ∀ d s is, c ≠ .array d s is a.core.arrayStub) (l : LoaderId) :
    (a.withClass l c).Unstacked := by
  intro l' n d s is hx
  rcases published?_withClass_cases hx with hold | ⟨-, -, heq⟩
  · exact h l' n d s is hold
  · exact hc d s is heq

lemma Unstacked.recorded (h : a.Unstacked) (hplain : IsPlain c.name) (l : LoaderId)
    (t : Constraints) : (a.recorded l c t).Unstacked := by
  refine h.withClass (fun d s is heq => ?_) l
  rw [heq] at hplain
  exact Class.not_isPlain_array _ _ _ _ hplain

lemma Unstacked.arrayOf (h : a.Unstacked) (ha : a.Tidy) (hc : a.Owned c) :
    (finalState (arrayOf c) a).Unstacked := by
  rcases arrayOf_cases c a with ⟨d, -, hrun⟩ | ⟨-, ⟨-, e, hrun⟩ | ⟨-, e, hrun⟩ | ⟨-, -, hrun⟩⟩
  · rw [finalState_of_ok hrun]
    exact h
  · rw [finalState_of_error hrun]
    exact h
  · rw [finalState_of_error hrun]
    exact h
  · rw [finalState_of_ok hrun]
    have hfree : { a with nextId := a.nextId + 1 }.Unstacked := h
    refine hfree.withClass (fun d s is heq => ?_) _
    cases heq
    exact ha.unlisted hc

/-- Array classes over classes that loaders have are none over the stand-in. -/
lemma carries_unstacked : Carries UnstackedStep (fun a => a.Tidy ∧ a.Unstacked)
    fun c a => a.Rooted c where
  stable := unstacked_stable
  carried c := fun _ _ hstep ha =>
    ⟨unstacked_stable _ _ hstep ha.1, ha.2.mono (hstep.1 ha.1.1).2.1⟩
  published _ l n c ha hc := ha.1.rooted l n c hc
  arrayOf c := by
    have hrooted := carries_rooted.arrayOf c
    refine (performs_unstacked hrooted fun a ha => ⟨ha.1, fun h => ?_⟩).weaken
      (fun _ ha => ⟨⟨ha.1.1, ha.2⟩, ha.1.2⟩) fun _ _ hx => hx
    exact h.arrayOf ha.1 ha.2.owned

/-- Loading a class that is no array makes no array classes over the stand-in. -/
lemma unstacked_loadPlain (k : Nat) (l : LoaderId) (hplain : IsPlain name) :
    Performs UnstackedStep (fun a => (a.Tidy ∧ a.Unstacked) ∧ a.published? l name = none)
      (loadPlain k l name) fun c a => c.name = name ∧ a.Rooted c := by
  induction k generalizing l name with
  | zero => exact .throw _
  | succ k ih =>
    have hspelled : ∀ l {s : Spelling}, s.Proper →
        Performs UnstackedStep (fun a => a.Tidy ∧ a.Unstacked) (loadSpelled (loadPlain k) l s)
          fun c a => (∀ n, s = .plain n → c.name = n) ∧ a.Rooted c :=
      fun l _ => carries_unstacked.loadSpelled (fun _ h => h.1.sound) fun _ => ih l
    refine (performs_unstacked (tidy_loadPlain (k + 1) l hplain) fun a ha =>
      ⟨ha.1, fun hfree => ?_⟩).weaken (fun _ ha => ⟨⟨ha.1.1, ha.2⟩, ha.1.2⟩) fun _ _ hc => hc
    cases hd : a.definer? l name with
    | none =>
      rw [finalState_of_error (loadPlain_of_nobody hd)]
      exact hfree
    | some d =>
      rw [finalState_congr (loadPlain_of_definer? hd)]
      split
      · by_cases hmem : (l, name) ∈ a.defining
        · rw [finalState_of_error (defineClass_of_mem hmem)]
          exact hfree
        have hentering : UnstackedStep a (a.entering l name) :=
          unstackedStep_of_eq rfl rfl Nat.le.refl rfl
        have henter := unstacked_stable _ _ hentering ⟨ha.1, hfree⟩
        obtain ⟨hsteps, hderived⟩ := carries_unstacked.derive (fun _ h => h.1.sound)
          (fun a => unstackedStep_of_eq rfl rfl (Nat.le_succ _) rfl)
          (fun s => (hspelled l (Spelling.proper_ofName s)).weaken (fun _ h => h) fun _ _ h => h.2)
          l name _ henter
        have hend := (unstacked_stable.reflTransGen hsteps henter).2
        obtain ⟨b, hb, hrun | ⟨c, t, hc, -, hrun⟩⟩ :=
          finalState_defineClass (fun s => loadSpelled (loadPlain k) l (.ofName s)) hmem <;>
          rw [hb] at hend <;> rw [hrun]
        · exact hend
        · have hleft : (b.leaving l name).Unstacked := hend
          exact hleft.recorded ((hderived c b hc).named ▸ hplain) l t
      · obtain ⟨hsteps, hname⟩ := hspelled d (s := .plain name) hplain a ⟨ha.1, hfree⟩
        have hbefore := (unstacked_stable.reflTransGen hsteps ⟨ha.1, hfree⟩).2
        obtain ⟨b, hb, hrun | ⟨c, t, hc, hrun⟩⟩ :=
          finalState_handOver (loadSpelled (loadPlain k) d (.plain name)) l a <;>
          rw [hb] at hbefore <;> rw [hrun]
        · exact hbefore
        · exact hbefore.recorded ((hname c b hc).1 name rfl ▸ hplain) l t

/-! ### What is found after a load -/

/-- Looking for an array never fails if looking for its component does not. -/
lemma exists_findArray {find : AreaM (Option Class)} (hfind : ∀ a, ∃ v b, find a = .ok v b)
    (l : LoaderId) (name : String) (short : Bool) (a : Area) :
    ∃ v b, Area.findArray l name short find a = .ok v b := by
  unfold Area.findArray
  rw [bind_of_ok (get_apply a)]
  cases a.published? l name with
  | some c => exact ⟨_, _, rfl⟩
  | none =>
    cases short with
    | true => exact ⟨_, _, rfl⟩
    | false =>
      obtain ⟨v, b, hv⟩ := hfind a
      simp only [Bool.false_eq_true, if_false]
      rw [bind_of_ok hv]
      cases v with
      | none => exact ⟨_, _, rfl⟩
      | some c =>
        dsimp only
        rw [arrayOf?_eq]
        cases arrayOf c b <;> exact ⟨_, _, rfl⟩

/-- Looking for a class never fails. -/
lemma exists_findSpelled (l : LoaderId) (s : Spelling) (a : Area) :
    ∃ v b, findSpelled l s a = .ok v b := by
  induction s generalizing a with
  | plain n => exact ⟨_, _, findSpelled_plain l n a⟩
  | nested n s ih => exact exists_findArray ih l _ _ a
  | object n s ih => exact exists_findArray ih l _ _ a
  | unclosed n => exact exists_findArray (fun a => ⟨none, a, rfl⟩) l _ _ a
  | bare n s => exact exists_findArray (fun a => ⟨none, a, rfl⟩) l _ _ a

/-- What an operation gave, if it did not fail. -/
def outcome (x : AreaM Class) (a : Area) : Option Class :=
  match x a with
  | .ok c _ => some c
  | .error .. => none

/-- After an attempt to load a class, looking for it finds what loading gave, without another
change, and nothing if loading failed. -/
def Tells (l : LoaderId) (s : Spelling) (x : AreaM Class) (a : Area) : Prop :=
  findSpelled l s (finalState x a) = .ok (outcome x a) (finalState x a)

lemma tells_of_ok {x : AreaM Class} (hrun : x a = .ok c b) :
    Tells l s x a ↔ findSpelled l s b = .ok (some c) b := by
  simp only [Tells, outcome, finalState, hrun]

lemma tells_of_error {x : AreaM Class} (hrun : x a = .error e b) :
    Tells l s x a ↔ findSpelled l s b = .ok none b := by
  simp only [Tells, outcome, finalState, hrun]

lemma tells_congr {x y : AreaM Class} (h : x a = y b) : Tells l s x a ↔ Tells l s y b := by
  simp only [Tells, outcome, finalState, h]

/-- The names of arrays over primitive types are found or not, and nothing is loaded for them. -/
lemma Sound.tells_short (ha : a.Sound) (hself : .ofName s.name = s) (hplain : ¬ IsPlain s.name)
    (hshort : s.isShort = true) : Tells l s (loadSpelled (loadPlain k) l s) a := by
  have hspelled : ∀ n, s ≠ .plain n := by
    rintro n rfl
    have hproper := Spelling.proper_ofName n
    rw [show Spelling.ofName n = .plain n from hself] at hproper
    exact hplain hproper
  have hfind : ∀ l, findSpelled l s a = .ok (a.shortClass? l s.name) a :=
    fun l => findSpelled_short hspelled hshort l a
  cases hc : a.shortClass? l s.name with
  | some c =>
    have hfound := hfind l
    rw [hc] at hfound
    exact (tells_of_ok (loadSpelled_of_found hfound)).2 hfound
  | none =>
    have hnone := hfind l
    have hhome := hfind .bootstrap
    rw [hc] at hnone
    rw [shortClass?_bootstrap hc] at hhome
    suffices hfails : ∃ e, loadSpelled (loadPlain k) l s a = .error e a by
      obtain ⟨e, he⟩ := hfails
      exact (tells_of_error he).2 hnone
    have hsize : IsShortArray s.name := ⟨hplain, of_decide_eq_true hshort⟩
    rcases Spelling.ofName_of_isShortArray hsize with hs | hs | ⟨x, hs⟩ <;> rw [hself] at hs <;>
      rw [hs] at hnone hhome ⊢
    · exact ⟨_, (bind_of_ok hnone).trans (bind_of_error (ha.load_bracket _ l))⟩
    · exact ⟨_, (bind_of_ok hnone).trans (bind_of_ok hhome)⟩
    · exact ⟨_, (bind_of_ok hnone).trans (bind_of_ok hhome)⟩

/-- What is found under the name of an array whose component was found, or not, and which the loader
does not have itself. -/
lemma findArray_of_missing {v : Option Class} {find : AreaM (Option Class)}
    (hmissing : a.published? l name = none) (hfind : find a = .ok v a) :
    Area.findArray l name false find a = v.elim (pure none) arrayOf? a := by
  unfold Area.findArray
  rw [bind_of_ok (get_apply a)]
  simp only [hmissing, Bool.false_eq_true, if_false]
  rw [bind_of_ok hfind]
  cases v <;> rfl

/-- If nothing is found for the component of an array then nothing is found for the array, unless it
is one over the stand-in. -/
lemma Tidy.findSpelled_of_component_none (hb : b.Tidy) (hwraps : Spelling.Wraps t s)
    (ht : t.Faithful) (hshort : t.isShort = false)
    (hfree : l = .bootstrap → t.name = b.core.arrayStub.arrayName → b.Unstacked)
    (hnone : findSpelled l s b = .ok none b) :
    findSpelled l t b = .ok none b := by
  obtain ⟨hname, -, hover⟩ := hwraps.faithful ht
  have hlong : t.name.utf8ByteSize ≠ 2 := of_decide_eq_false hshort
  rw [findSpelled_of_wraps hwraps, hshort]
  refine findArray_of_missing (Option.eq_none_iff_forall_ne_some.2 fun x hx => ?_) hnone
  obtain ⟨d, u, is, e, rfl, he, rfl, howned | hstub⟩ := hb.exists_array hx hname hlong
  · rw [hover e he, findSpelled_of_published howned] at hnone
    cases hnone
  · subst hstub
    exact hfree hb.stub.1 he.symm _ _ d u is hx

/-- If an array class cannot be had over a component that is found then it is not found either. -/
lemma Tidy.findSpelled_of_component (hb : b.Tidy) (hwraps : Spelling.Wraps t s)
    (ht : t.Faithful) (hshort : t.isShort = false) (hfound : findSpelled l s b = .ok (some c) b)
    (hrun : arrayOf c b = .error e b) : findSpelled l t b = .ok none b := by
  obtain ⟨hname, -, hover⟩ := hwraps.faithful ht
  have hlong : t.name.utf8ByteSize ≠ 2 := of_decide_eq_false hshort
  rw [findSpelled_of_wraps hwraps, hshort]
  cases hx : b.published? l t.name with
  | none =>
    rw [findArray_of_missing hx hfound, Option.elim_some, arrayOf?_eq, hrun]
  | some x =>
    have hcomponent := hb.component_found hx hname hlong fun e he => congrArg _ (hover e he)
    rcases hcomponent with ⟨e', he', harray⟩ | ⟨-, -, hnone⟩
    · rw [hfound] at he'
      cases he'
      rw [hrun] at harray
      cases harray
    · rw [hfound] at hnone
      cases hnone

/-- Where no array class over the stand-in is found under its name, none was made. -/
lemma Tidy.unstacked_of_missing (ha : a.Tidy)
    (hmissing : a.published? .bootstrap a.core.arrayStub.arrayName = none) : a.Unstacked := by
  intro l n d s is hx
  have hname : a.core.arrayStub.arrayName = n := ha.sound.keyed l n _ hx
  obtain ⟨hloader, -⟩ := ha.component l n d s is _ hx
  rw [← hname, ← hloader, ha.stub.1, hmissing] at hx
  cases hx

/-- If looking for the array over the stand-in finds nothing then no such array was made. -/
lemma Tidy.unstacked_of_not_found (ha : a.Tidy)
    (hfind : findSpelled .bootstrap (.ofName a.core.arrayStub.arrayName) a = .ok none b) :
    a.Unstacked := by
  refine ha.unstacked_of_missing (Option.eq_none_iff_forall_ne_some.2 fun x hx => ?_)
  rw [findSpelled_of_published hx] at hfind
  cases hfind

/-- Making an array class over a class that is found tells what is found then. -/
lemma Tidy.tells_arrayOf (ha : a.Tidy) (hc : a.Rooted c) (hwraps : Spelling.Wraps t s)
    (hself : .ofName t.name = t) (hshort : t.isShort = false)
    (hfound : findSpelled l s a = .ok (some c) a) : Tells l t (arrayOf c) a := by
  have ht : t.Faithful := hself ▸ Spelling.faithful_ofName t.name
  cases harray : arrayOf c a with
  | error e b =>
    obtain rfl := ha.eq_of_arrayOf_error hc.owned.known harray
    rw [tells_of_error harray]
    exact ha.findSpelled_of_component hwraps ht hshort hfound harray
  | ok d b =>
    have hmakes := (carries_rooted.arrayOf c a ⟨ha, hc⟩).1
    rw [finalState_of_ok harray] at hmakes
    obtain ⟨hb, hgrown⟩ := (grown_stable a).reflTransGen hmakes ⟨ha, .refl a⟩
    obtain ⟨hname, -, hover⟩ := hwraps.faithful ht
    have hagain : findSpelled l s b = .ok (some c) b := by
      rw [← hwraps.ofName_name hself] at hfound ⊢
      exact hb.find_again hgrown.kept hfound
    rw [tells_of_ok harray, findSpelled_of_wraps hwraps, hshort]
    exact hb.findArray hname (of_decide_eq_false hshort) hagain (published?_of_arrayOf harray)
      fun e he => congrArg _ (hover e he)

/-- Loading an array class tells what is found then if loading its component does. -/
lemma Tidy.tells_array (ha : a.Tidy) (hwraps : Spelling.Wraps t s) (hself : .ofName t.name = t)
    (hshort : t.isShort = false)
    (hcomponent : ∀ b : Area, b.Tidy → Tells l s (loadSpelled (loadPlain k) l s) b) :
    Tells l t (loadSpelled (loadPlain k) l t) a := by
  have ht : t.Faithful := hself ▸ Spelling.faithful_ofName t.name
  have hproper : t.Proper := hself ▸ Spelling.proper_ofName t.name
  obtain ⟨v, a', hfind⟩ := exists_findSpelled l t a
  have ha' : a'.Tidy := tidy_of_ok (carries_rooted.findSpelled l t) ha hfind
  cases v with
  | some c =>
    rw [tells_of_ok (loadSpelled_of_found hfind)]
    rw [← hself] at hfind ⊢
    exact ha'.find_again (fun _ _ _ h => h) hfind
  | none =>
    have hload : loadSpelled (loadPlain k) l t a =
        (loadSpelled (loadPlain k) l s >>= arrayOf) a' := loadSpelled_of_wraps hwraps hfind
    have htells := hcomponent a' ha'
    obtain ⟨hsteps, hgives⟩ := carries_rooted.loadSpelled (fun _ h => h.sound)
      (fun _ => tidy_loadPlain k l) (hwraps.proper hproper) a' ha'
    cases hrun : loadSpelled (loadPlain k) l s a' with
    | error e b =>
      rw [finalState_of_error hrun] at hsteps
      have hb := tidy_stable.reflTransGen hsteps ha'
      have hfails := hload.trans (bind_of_error hrun)
      rw [tells_of_error hrun] at htells
      refine (tells_of_error hfails).2
        (hb.findSpelled_of_component_none hwraps ht hshort (fun hl hstub => ?_) htells)
      -- The array over the stand-in was not there before, or it would have been found.
      have hfree : a.Unstacked := by
        refine ha.unstacked_of_not_found (b := a') ?_
        rw [ha.core, ← hb.core, ← hstub, hself, ← hl]
        exact hfind
      have hloads := (carries_unstacked.loadSpelled (fun _ h => h.1.sound)
        (fun _ => unstacked_loadPlain k l) hproper a ⟨ha, hfree⟩).1
      rw [finalState_of_error hfails] at hloads
      exact (unstacked_stable.reflTransGen hloads ⟨ha, hfree⟩).2
    | ok c b =>
      rw [finalState_of_ok hrun] at hsteps
      have hb := tidy_stable.reflTransGen hsteps ha'
      have hrooted := (hgives c b hrun).2
      rw [tells_of_ok hrun] at htells
      rw [tells_congr (hload.trans (bind_of_ok hrun))]
      exact hb.tells_arrayOf hrooted hwraps hself hshort htells

/-- After an attempt to load a class, looking for it finds what loading gave. -/
lemma Tidy.tells_loadSpelled (ha : a.Tidy) (hself : .ofName s.name = s) :
    Tells l s (loadSpelled (loadPlain k) l s) a := by
  have hs : s.Faithful := hself ▸ Spelling.faithful_ofName s.name
  induction s using Spelling.bracket_induction generalizing a with
  | alone s hcore hlevels =>
    rcases Spelling.alone_cases hlevels with ⟨n, rfl⟩ | ⟨n, rfl, hshort⟩ | ⟨hplain, hshort⟩
    · obtain ⟨hok, herror⟩ := published?_of_loadSpelled_plain (k := k) (l := l) hs ha.sound
      cases hrun : loadSpelled (loadPlain k) l (.plain n) a with
      | ok c b => rw [tells_of_ok hrun, findSpelled_plain, hok c b hrun]
      | error e b => rw [tells_of_error hrun, findSpelled_plain, herror e b hrun]
    · have hnone := ha.findSpelled_unclosed hs hshort
      rw [tells_of_error (loadBare_of_none (.inl rfl) hnone l)]
      exact hnone l
    · refine ha.sound.tells_short hself (fun hname => ?_) hshort
      exact hplain _ (hself.symm.trans (Spelling.ofName_eq_plain hname))
  | bare n s hshort =>
    have hend : (Spelling.bare n s).dangling? = some n := by simp [Spelling.dangling?, hshort]
    obtain ⟨hnone, hrun⟩ := ha.load_dangling hs hend (loadPlain k) l
    exact (tells_of_error hrun).2 hnone
  | array t s hwraps hshort ih =>
    refine ha.tells_array hwraps hself hshort fun b hb => ?_
    exact ih hb (hwraps.ofName_name hself) (hwraps.faithful hs).2.1

/-- What was not loaded is in no loader's own table under its name. -/
lemma Tidy.missing_of_load (ha : a.Tidy) (hrun : load l name a = .error e b) :
    b.published? l name = none := by
  have htells : Tells l (.ofName name) (load l name) a :=
    ha.tells_loadSpelled (k := a.loadBound) (by rw [Spelling.name_ofName])
  rw [tells_of_error hrun] at htells
  rw [Option.eq_none_iff_forall_ne_some]
  intro c hc
  rw [findSpelled_of_published hc] at htells
  cases htells

/-! ### What was counted -/

/-- The count goes with the classes that were defined. -/
lemma Tidy.loads_eq (ha : a.Tidy) (hb : b.Tidy) (hgrown : Grown a b) :
    (b.loads : ℕ∞) =
      a.loads + {c | b.Owned c ∧ ¬ a.Owned c ∧ c.isArray = false}.encard := by
  have hsplit : b.defined =
      a.defined ∪ {c | b.Owned c ∧ ¬ a.Owned c ∧ c.isArray = false} := by
    ext c
    simp only [defined, Set.mem_ofPred_eq, Set.mem_union]
    constructor
    · rintro ⟨hc, hnew, harray⟩
      by_cases hold : a.Owned c
      · exact .inl ⟨hold, hnew, harray⟩
      · exact .inr ⟨hc, hold, harray⟩
    · rintro (⟨hc, hnew, harray⟩ | ⟨hc, hnew, harray⟩)
      · exact ⟨hgrown.kept _ _ c hc, hnew, harray⟩
      · exact ⟨hc, fun hstart => hnew (ha.started c hstart), harray⟩
  have hdisjoint : Disjoint a.defined {c | b.Owned c ∧ ¬ a.Owned c ∧ c.isArray = false} :=
    Set.disjoint_left.2 fun c hc hnew => hnew.2.1 hc.1
  rw [← hb.counted, hsplit, Set.encard_union_eq hdisjoint, ha.counted]

/-- After a load, whatever comes of it, no other classes are being defined than before. -/
lemma defining_load (ha : a.Sound) (l : LoaderId) (name : String) :
    (finalState (load l name) a).defining = a.defining := by
  have hload := performs_loadSpelled_balanced
    (fun _ hn => performs_loadPlain_balanced a.loadBound l hn) (Spelling.proper_ofName name) a ha
  exact (Balanced.of_steps hload.1).2

end Area

namespace Resolver

/-- A failed load leaves nothing half-done. However deep it fails, the same classes count as being
defined as before, no table has lost or changed an entry, the loader that was asked has no class of
that name, the classes that were loaded on the way are in the tables of the loaders that defined
them, array classes apart, and each of them was counted once. -/
theorem tidy_after_failed_load {start r : Resolver} (hstart : start.area = Area.initial)
    (hrun : GenuineRun start r) {l : LoaderId} {name : String} {e : Fault} {b : Area}
    (hfails : Area.load l name r.area = .error e b) :
    b.defining = r.area.defining ∧
    (∀ l' n c, r.area.published? l' n = some c → b.published? l' n = some c) ∧
    b.published? l name = none ∧
    (∀ l' n c, b.published? l' n = some c → r.area.published? l' n = none → c.isArray = false →
      b.published? c.loader c.name = some c) ∧
    (b.loads : ℕ∞) = r.area.loads +
      {c | b.Owned c ∧ ¬ r.area.Owned c ∧ c.isArray = false}.encard := by
  have hr : r.area.Tidy := hrun.tidy (hstart ▸ Area.initial_tidy)
  have hsteps := (Area.tidy_load l name r.area hr).1
  have hsame := Area.defining_load hr.sound l name
  rw [finalState_of_error hfails] at hsteps hsame
  obtain ⟨hb, hgrown, -⟩ := Area.TidyStep.of_steps hsteps hr
  refine ⟨hsame, hgrown.kept, hr.missing_of_load hfails, ?_, hr.loads_eq hb hgrown⟩
  intro l' n c hc _ _
  exact (hb.rooted l' n c hc).owned

/-- A loader has a class whose superclass the bootstrap loader has, and whose interface nobody
has. -/
def withoutInterface : Resolver :=
  performAll [.addLoader .bootstrap false,
    .define .bootstrap { name := "p/S", flags := Flag.accPublic.mask },
    .define ⟨1⟩
      { name := "p/C"
        flags := Flag.accPublic.mask
        superclass := some "p/S"
        interfaces := ["p/Missing"] }] { area := Area.initial }

lemma genuineRun_withoutInterface : GenuineRun { area := Area.initial } withoutInterface :=
  genuineRun_performAll (by simp [Operation.Genuine]) _

/-- When the interface is not found, the superclass stays with both loaders and is the one class
that was counted. -/
theorem superclass_kept_without_interface : ∃ e b s,
    Area.load ⟨1⟩ "p/C" withoutInterface.area = .error e b ∧ b.defining = [] ∧
      b.published? ⟨1⟩ "p/C" = none ∧ b.published? ⟨1⟩ "p/S" = some s ∧ s.loader = .bootstrap ∧
      b.published? .bootstrap "p/S" = some s ∧
      {c | b.Owned c ∧ ¬ withoutInterface.area.Owned c ∧ c.isArray = false}.encard = 1 := by
  have hrefused : yields (fun _ => true) (Area.load ⟨1⟩ "p/C" withoutInterface.area) = false := by
    decide +kernel
  have hnew : ((finalState (Area.load ⟨1⟩ "p/C") withoutInterface.area).published? ⟨1⟩ "p/S").any
      (fun s => s.loader == .bootstrap && s.name == "p/S" && !s.isArray) = true := by
    decide +kernel
  have hold : (withoutInterface.area.published? ⟨1⟩ "p/S").isNone = true ∧
      withoutInterface.area.defining = [] ∧ withoutInterface.area.loads = 0 := by
    decide +kernel
  have hcount : (finalState (Area.load ⟨1⟩ "p/C") withoutInterface.area).loads = 1 := by
    decide +kernel
  cases hfails : Area.load ⟨1⟩ "p/C" withoutInterface.area with
  | ok c b =>
    rw [hfails] at hrefused
    cases hrefused
  | error e b =>
    rw [finalState_of_error hfails] at hnew hcount
    obtain ⟨hdefining, -, hmissing, howned, hloads⟩ :=
      tidy_after_failed_load rfl genuineRun_withoutInterface hfails
    obtain ⟨s, hs, htest⟩ := (Option.any_eq_true _ _).1 hnew
    simp only [Bool.and_eq_true, beq_iff_eq, Bool.not_eq_true'] at htest
    obtain ⟨⟨hloader, hname⟩, harray⟩ := htest
    have hhome := howned _ _ s hs (Option.isNone_iff_eq_none.1 hold.1) harray
    rw [hloader, hname] at hhome
    refine ⟨e, b, s, rfl, hdefining.trans hold.2.1, hmissing, hs, hloader, hhome, ?_⟩
    rw [hcount, hold.2.2] at hloads
    simpa using hloads.symm

end Resolver

end Linkage
