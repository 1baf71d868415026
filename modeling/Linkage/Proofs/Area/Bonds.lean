import Linkage.Proofs.Area.Discord
import Linkage.Proofs.Resolver.Identity

/-!
# Agreement on arrays of primitive types

A name that is spelled like the name of an array and in which no class is named can only mean an
array over a primitive type, and there is one class of that name, the bootstrap loader's. As long as
nothing else is handed to the constraints, loaders cannot fail to agree on such a name.
-/

namespace Linkage

open Relation Constraints

/-- The name is spelled like that of an array, and nothing in it ends the name of a class. -/
def IsElementless (name : String) : Prop := ¬ IsPlain name ∧ ';' ∉ name.toList

lemma not_mem_of_unwrapObject? {cs element : List Char} (h : unwrapObject? cs = some element) :
    ';' ∈ cs := by
  unfold unwrapObject? at h
  split at h
  · split at h
    · next hlast => exact List.mem_cons_of_mem _ (List.mem_of_getLast? hlast)
    · cases h
  · cases h

/-- The array class over a class that is no array names that class. -/
lemma Class.isArray_of_arrayName {e : Class} (h : ';' ∉ e.arrayName.toList) : e.isArray = true := by
  by_contra harray
  simp [arrayName, harray] at h

lemma Class.arrayName_of_isArray {e : Class} (h : e.isArray = true) :
    e.arrayName = "[" ++ e.name := by
  simp [arrayName, h]

namespace Area

variable {a b : Area} {c : Class} {l x y : LoaderId} {n : String}

/-- Classes with such names belong to the bootstrap loader. -/
lemma Tidy.loader_of_elementless (h : a.Tidy) :
    ∀ {c : Class}, a.Owned c → IsElementless c.name → c.loader = .bootstrap
  | .root d, hc, hn => absurd (h.arrays _ _ _ hc hn.1) Bool.false_ne_true
  | .derived d s is, hc, hn => absurd (h.arrays _ _ _ hc hn.1) Bool.false_ne_true
  | .primitiveArray d s is p, hc, _ => (h.linked _ hc).1
  | .array d s is e, hc, hn => by
    obtain ⟨hloader, hknown⟩ := h.component _ _ d s is e hc
    have harray : e.isArray = true := Class.isArray_of_arrayName hn.2
    have howned : a.Owned e := by
      rcases hknown with howned | rfl
      · exact howned
      · exact absurd harray (h.core ▸ Bool.false_ne_true)
    have hname : (Class.array d s is e).name = "[" ++ e.name := Class.arrayName_of_isArray harray
    have helement : IsElementless e.name := by
      refine ⟨Class.not_isPlain_of_isArray harray, fun hmem => hn.2 ?_⟩
      rw [hname, String.toList_append]
      exact List.mem_append_right _ hmem
    rw [← hloader]
    exact h.loader_of_elementless howned helement

/-- There is one class of such a name. -/
lemma Tidy.eq_of_elementless (h : a.Tidy) {d : Class} (hn : IsElementless n) (hc : a.Owned c)
    (hcn : c.name = n) (hd : a.Owned d) (hdn : d.name = n) : c = d :=
  hc.eq_of_name hd (hcn.trans hdn.symm) <|
    (h.loader_of_elementless hc (hcn ▸ hn)).trans (h.loader_of_elementless hd (hdn ▸ hn)).symm

/-! ### Finding arrays over primitive types -/

/-- What is found under the name of an array has that name, if a component that is found is an array
class and makes up the rest of the name. -/
lemma name_of_findArray {rest : List Char} (hs : a.Sound) {short : Bool}
    {component : AreaM (Option Class)}
    (hcomponent : ∀ e s, component a = .ok (some e) s →
      s.Sound ∧ e.name = String.ofList rest ∧ e.isArray = true)
    (hrun : findArray l (String.ofList ('[' :: rest)) short component a = .ok (some c) b) :
    c.name = String.ofList ('[' :: rest) := by
  rcases findArray_eq_some hrun with ⟨hc, -⟩ | ⟨-, ⟨-, hc, -⟩ | ⟨-, e, s, he, harray⟩⟩
  · exact hs.keyed l _ c hc
  · exact hs.keyed .bootstrap _ c hc
  · obtain ⟨hs, hname, hearray⟩ := hcomponent e s he
    have hsteps := arrayOf_steps e s
    rw [finalState_of_ok harray] at hsteps
    have hb := sound_stable.reflTransGen (Quiet.steps (ArrayStep.quietly hsteps)) hs
    rw [hb.keyed _ _ c (published?_of_arrayOf harray), Class.arrayName_of_isArray hearray, hname,
      ← String.toList_inj]
    simp

/-- A class that is found by a name in which no class is named has that name. -/
lemma name_of_findLoaded (hs : a.Sound) (ha : a.ArraysNamed) (hn : ';' ∉ n.toList)
    (hrun : findLoaded l n a = .ok (some c) b) : c.name = n := by
  have hspelled : ∀ cs c b, ';' ∉ cs → findSpelled l (Spelling.ofChars cs) a = .ok (some c) b →
      c.name = String.ofList cs := by
    intro cs
    fun_induction Spelling.ofChars cs with
    | case1 rest hhead ih =>
      intro c b hmem hrun
      refine name_of_findArray hs (fun e s he => ?_) hrun
      have hsteps := (performs_findSpelled l (Spelling.ofChars rest) a trivial).1
      rw [finalState_of_ok he] at hsteps
      refine ⟨sound_stable.reflTransGen (Quiet.steps (ArrayStep.quietly hsteps)) hs,
        ih e s (fun h => hmem (List.mem_cons_of_mem _ h)) he, ?_⟩
      obtain ⟨v, s', hfind, -, harray⟩ := ha.findLoaded l (String.ofList rest)
      rw [findLoaded, Spelling.ofName, String.toList_ofList, he] at hfind
      cases hfind
      exact harray (by simpa [IsPlain] using hhead) e rfl
    | case2 rest hhead element helement hlt ih =>
      intro c b hmem hrun
      exact absurd (List.mem_cons_of_mem _ (not_mem_of_unwrapObject? helement)) hmem
    | case3 rest hhead helement =>
      intro c b hmem hrun
      exact name_of_findArray hs (fun e s he => by cases he) hrun
    | case4 rest hnested hobject =>
      intro c b hmem hrun
      exact name_of_findArray hs (fun e s he => by cases he) hrun
    | case5 cs hplain =>
      intro c b hmem hrun
      rw [findSpelled_plain] at hrun
      simp only [EStateM.Result.ok.injEq] at hrun
      exact hs.keyed l _ c hrun.1
  have hname := hspelled n.toList c b hn hrun
  rwa [String.ofList_toList] at hname

/-! ### What groups are bound to -/

/-- Groups that have to agree on such a name are bound to classes of that name only. -/
def Bonded (a : Area) : Prop :=
  ∀ n, IsElementless n → ∀ g ∈ a.constraints.groupsOf n, ∀ c, g.bound = some c →
    a.Owned c ∧ c.name = n

lemma initial_bonded : initial.Bonded := by
  intro n _ g hg
  cases hg

lemma Bonded.of_groups (h : a.Bonded) (hkept : ∀ c, a.Owned c → b.Owned c)
    (hgroups : ∀ n, IsElementless n → b.constraints.groupsOf n = a.constraints.groupsOf n) :
    b.Bonded := by
  intro n hn g hg c hc
  rw [hgroups n hn] at hg
  exact (h n hn g hg c hc).imp_left (hkept c)

/-- The constraints let a loader have a class that is there, or one of a plain name. -/
lemma Bonded.accept (h : a.Bonded) (hkept : ∀ c, a.Owned c → b.Owned c)
    (hc : IsPlain c.name ∨ a.Owned c) (haccept : a.constraints.accept l c = .ok b.constraints) :
    b.Bonded := by
  intro n hn g hg d hd
  obtain ⟨hbind, -⟩ := accept_eq_ok haccept
  rw [hbind] at hg
  obtain ⟨k, g', hk, -, hcase⟩ := exists_of_mem_bind hg
  have hold : ∀ e, g'.bound = some e → b.Owned e ∧ e.name = n := fun e he =>
    (h n hn g' (List.mem_of_getElem? hk) e he).imp_left (hkept e)
  split at hcase
  · next hname =>
    cases hbound : g'.bound with
    | some e =>
      rw [hcase, hbound] at hd
      cases hd
      exact hold _ hbound
    | none =>
      rw [hcase, hbound] at hd
      cases hd
      exact ⟨hkept c (hc.resolve_left fun hplain => hn.1 (hname.1 ▸ hplain)), hname.1⟩
  · exact hold d (hcase ▸ hd)

/-- No step of a load touches groups of such names. -/
lemma Bonded.of_loadStep (h : a.Bonded) (hs : a.Sound) (hstep : LoadStep a b) : b.Bonded := by
  have hkept : ∀ c, a.Owned c → b.Owned c := fun c hc => hstep.step.kept hs hc
  cases hstep with
  | array hstep =>
    refine h.of_groups hkept fun n _ => ?_
    rw [ArrayStep.constraints_eq (.single hstep)]
  | enter | leave | counted => exact h.of_groups hkept fun _ _ => rfl
  | record plain accepted => exact h.accept hkept (.inl plain) accepted

/-- A group that two loaders are put into is bound to what is known of one of them. -/
lemma mem_of_add {t t' : Constraints} {found : LoaderId → Option Class} {changed : Bool}
    (hdisjoint : (t.groupsOf n).Pairwise fun g h => ∀ l ∈ g.loaders, l ∉ h.loaders)
    (hadd : t.add n x y found = .ok (changed, t')) {g : LoaderGroup} (hg : g ∈ t'.groupsOf n) :
    g ∈ t.groupsOf n ∨
      ∀ c, g.bound = some c → ∃ z, (z = x ∨ z = y) ∧ (t.bound? n z).or (found z) = some c := by
  have hjoin : ∀ bound : Option Class, t.related n x y = false →
      g ∈ (t.join n x y bound).groupsOf n → g ∈ t.groupsOf n ∨ g.bound = bound := by
    intro bound hnew hg
    obtain ⟨taken, rest, joined, hperm, hgroups, rfl, -⟩ := exists_join hdisjoint hnew bound
    rw [hgroups] at hg
    rcases List.mem_append.1 hg with hmem | hmem
    · exact .inl (hperm.mem_iff.2 (List.mem_append_right _ hmem))
    · exact .inr (by rw [List.mem_singleton.1 hmem])
  unfold add at hadd
  split at hadd
  · cases hadd
    exact .inl hg
  next hnew =>
  have hnew : t.related n x y = false := by simpa using hnew
  dsimp only at hadd
  split at hadd
  · next d e hd he =>
    split at hadd
    · cases hadd
      refine (hjoin _ hnew hg).imp_right fun hbound c hc => ⟨x, .inl rfl, ?_⟩
      rw [hd, ← hbound, hc]
    · cases hadd
  · cases hadd
    refine (hjoin _ hnew hg).imp_right fun hbound c hc => ?_
    rw [hbound] at hc
    exact (Option.or_eq_some_iff.1 hc).elim (fun h => ⟨x, .inl rfl, h⟩)
      fun h => ⟨y, .inr rfl, h.2⟩

/-- A loader that is asked for a class of such a name gives one that is there. -/
lemma Tidy.askLoaded (h : a.Tidy) (hn : IsElementless n) (t : Constraints) (l : LoaderId) :
    ∃ v b, askLoaded t n l a = .ok v b ∧ b.Tidy ∧ ReflTransGen ArrayStep a b ∧
      ∀ c ∈ v, b.Owned c ∧ c.name = n := by
  unfold Area.askLoaded
  split
  · exact ⟨none, a, rfl, h, .refl, by simp⟩
  · obtain ⟨v, b, hrun, -⟩ := h.arrays.findLoaded l n
    have hfind := carries_rooted.findLoaded l n a h
    have hsteps := (performs_findLoaded l n a trivial).1
    rw [finalState_of_ok hrun] at hsteps hfind
    refine ⟨v, b, hrun, tidy_stable.reflTransGen hfind.1 h, hsteps, fun c hc => ?_⟩
    obtain rfl := Option.mem_def.1 hc
    exact ⟨(hfind.2 _ b hrun c rfl).owned, name_of_findLoaded h.sound h.arrays hn.2 hrun⟩

/-- Loaders agree on such names. -/
lemma Bonded.exists_addConstraint (h : a.Bonded) (ha : a.Tidy) (hapart : a.ApartOn n)
    (hn : IsElementless n) (x y : LoaderId) :
    ∃ v b, addConstraint n x y (fun l => findLoaded l n) a = .ok v b ∧ b.Bonded := by
  cases hrelated : a.constraints.related n x y with
  | true => exact ⟨false, a, addConstraint_of_related hrelated, h⟩
  | false =>
    rw [addConstraint_of_not_related hrelated]
    obtain ⟨forX, s, hrunX, hs, hstepsX, hforX⟩ := ha.askLoaded hn a.constraints x
    obtain ⟨forY, b, hrunY, hb, hstepsY, hforY⟩ := hs.askLoaded hn a.constraints y
    rw [bind_of_ok hrunX, bind_of_ok hrunY]
    have hkept : ∀ {a b : Area}, a.Tidy → ReflTransGen ArrayStep a b → ∀ c, a.Owned c → b.Owned c :=
      fun ha hsteps c hc => kept_of_steps (Quiet.steps (ArrayStep.quietly hsteps)) ha.sound hc
    have hbonds : ∀ z c, a.constraints.bound? n z = some c → b.Owned c ∧ c.name = n := by
      intro z c hc
      obtain ⟨g, hgroup, hbound⟩ := Option.bind_eq_some_iff.1 hc
      exact (h n hn g (List.mem_of_find?_eq_some hgroup) c hbound).imp_left
        (hkept ha (hstepsX.trans hstepsY) c)
    have hknown : ∀ z c, (a.constraints.bound? n z).or (if z = x then forX else forY) = some c →
        b.Owned c ∧ c.name = n := by
      intro z c hc
      rcases Option.or_eq_some_iff.1 hc with hbound | ⟨-, hfound⟩
      · exact hbonds z c hbound
      · split at hfound
        · exact (hforX c hfound).imp_left (hkept hs hstepsY c)
        · exact hforY c hfound
    cases hadd : a.constraints.add n x y fun l => if l = x then forX else forY with
    | error e =>
      obtain ⟨-, -, c, d, hc, hd, hne⟩ := add_eq_error.1 hadd
      have heq := hb.eq_of_elementless hn (hknown x c hc).1 (hknown x c hc).2 (hknown y d hd).1
        (hknown y d hd).2
      rw [heq, Class.same_self] at hne
      cases hne
    | ok r =>
      obtain ⟨changed, t⟩ := r
      refine ⟨changed, { b with constraints := t }, rfl, fun m hm g hg c hc => ?_⟩
      by_cases hname : m = n
      · subst hname
        rcases mem_of_add hapart hadd hg with hold | hbound
        · exact (h m hm g hold c hc).imp_left (hkept ha (hstepsX.trans hstepsY) c)
        · obtain ⟨z, -, hz⟩ := hbound c hc
          exact hknown z c hz
      · rw [groupsOf_add hadd hname] at hg
        exact (h m hm g hg c hc).imp_left (hkept ha (hstepsX.trans hstepsY) c)

/-- Making loaders agree on whatever name leaves it so. -/
lemma Bonded.final_addConstraint (h : a.Bonded) (ha : a.Tidy) (hapart : ∀ n, a.ApartOn n)
    (n : String) (x y : LoaderId) :
    (finalState (addConstraint n x y fun l => findLoaded l n) a).Bonded := by
  by_cases hn : IsElementless n
  · obtain ⟨v, b, hrun, hb⟩ := h.exists_addConstraint ha (hapart n) hn x y
    rwa [finalState_of_ok hrun]
  have harrays : ∀ {b : Area}, ReflTransGen ArrayStep a b → b.Bonded := fun hsteps =>
    h.of_groups (fun c hc => kept_of_steps (Quiet.steps (ArrayStep.quietly hsteps)) ha.sound hc)
      fun n _ => by rw [ArrayStep.constraints_eq hsteps]
  rcases addConstraint_cases n x y a with ⟨-, hrun⟩ | ⟨b, hsteps, ⟨e, hrun⟩ |
    ⟨found, changed, t, -, hadd, hrun⟩⟩
  · rwa [finalState_of_ok hrun]
  · rw [finalState_of_error hrun]
    exact harrays hsteps
  · rw [finalState_of_ok hrun]
    refine (harrays hsteps).of_groups (fun c hc => hc) fun m hm => ?_
    exact groupsOf_add hadd fun heq => hn (heq ▸ hm)

end Area

end Linkage
