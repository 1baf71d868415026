import Linkage.Proofs.Resolver.Tidy

/-!
# Asking the parent first

A loader does not ask its parent for a class, but the farthest loader along its parents that knows
the class. If the parents form no circle, that is the loader whose class the parent gives as well,
unless the parent has the class from elsewhere: because it prefers its own definitions, or because a
loader behind it came to know the class later.
-/

namespace Linkage

open Relation

namespace Area

variable {a b : Area} {l p q x y : LoaderId} {name : String} {c : Class}

/-! ### Parents without circles -/

/-- A loader has another one as its parent. -/
def Under (a : Area) (l p : LoaderId) : Prop := a.parent? l = some p

/-- The parents form no circle. -/
def Acyclic (a : Area) : Prop := ∀ l, ¬ TransGen a.Under l l

/-- The farthest loader along the parents of a loader that knows a class. -/
def farthest? (a : Area) (l : LoaderId) (name : String) : Option LoaderId :=
  (a.chain l).reverse.find? (a.knows name)

section

variable {parent : LoaderId → Option LoaderId} {seen seen' pre rest : List LoaderId}

lemma Walk.reaches (h : Walk parent seen x rest) :
    ∀ y ∈ rest, ReflTransGen (fun l p => parent l = some p) x y := by
  induction h with
  | stop => simp
  | last =>
    intro y hy
    rw [List.mem_singleton.1 hy]
  | next hl hp hrest ih =>
    intro y hy
    rcases List.mem_cons.1 hy with rfl | hy
    · exact .refl
    · exact .head hp (ih y hy)

/-- A walk depends only on what was seen of the loaders ahead. -/
lemma Walk.congr_seen (h : Walk parent seen x rest)
    (hsame : ∀ y, ReflTransGen (fun l p => parent l = some p) x y → (y ∈ seen ↔ y ∈ seen')) :
    Walk parent seen' x rest := by
  induction h generalizing seen' with
  | stop hl => exact .stop ((hsame _ .refl).1 hl)
  | last hl hp => exact .last (fun hmem => hl ((hsame _ .refl).2 hmem)) hp
  | next hl hp hrest ih =>
    refine .next (fun hmem => hl ((hsame _ .refl).2 hmem)) hp (ih fun y hy => ?_)
    simp only [List.mem_append, hsame y (.head hp hy)]

lemma Leads.reaches (h : Leads parent pre y) :
    ∀ x ∈ pre, TransGen (fun l p => parent l = some p) x y := by
  induction pre with
  | nil => simp
  | cons z pre ih =>
    obtain ⟨hz, hrest⟩ := h
    have hfirst : TransGen (fun l p => parent l = some p) z y := by
      cases pre with
      | nil => exact .single hz
      | cons w pre => exact .head hz (ih hrest w List.mem_cons_self)
    intro x hx
    rcases List.mem_cons.1 hx with rfl | hx
    · exact hfirst
    · exact ih hrest x hx

end

/-- Without circles, a loader is followed by its parent and those that follow the parent. -/
lemma Acyclic.chain_eq (h : a.Acyclic) (ha : a.Sound) (hp : a.parent? l = some p) :
    a.chain l = l :: a.chain p := by
  have hwalk := ha.chain_walk l
  generalize a.chain l = chain at hwalk
  cases hwalk with
  | stop hl => simp at hl
  | last _ hp' =>
    rw [hp] at hp'
    cases hp'
  | @next _ rest _ p' _ hp' hrest =>
    obtain rfl : p = p' := Option.some.inj (hp.symm.trans hp')
    have hfresh : Walk a.parent? [] p rest := hrest.congr_seen fun y hy => by
      have hne : y ≠ l := by
        rintro rfl
        exact h y (.head' hp hy)
      simpa using hne
    rw [hfresh.unique (ha.chain_walk p)]

lemma Sound.chain_of_none (ha : a.Sound) (hp : a.parent? l = none) : a.chain l = [l] :=
  (ha.chain_walk l).unique (.last (by simp) hp)

lemma Sound.mem_chain_self (ha : a.Sound) (l : LoaderId) : l ∈ a.chain l := by
  have hwalk := ha.chain_walk l
  generalize a.chain l = chain at hwalk
  cases hwalk with
  | stop hl => simp at hl
  | last => exact List.mem_cons_self
  | next => exact List.mem_cons_self

/-- Without circles, the loaders behind one are those that it asks in turn. -/
lemma Acyclic.chain_of_append (h : a.Acyclic) (ha : a.Sound) {before behind : List LoaderId}
    (hchain : a.chain l = before ++ q :: behind) : a.chain q = q :: behind := by
  obtain ⟨hwalk, hleads, -⟩ := (ha.chain_walk l).split hchain
  have hfresh : Walk a.parent? [] q (q :: behind) := hwalk.congr_seen fun y hy => by
    have hnot : y ∉ before := fun hmem => h y ((hleads.reaches y hmem).trans_left hy)
    simpa using hnot
  exact (ha.chain_walk q).unique hfresh

lemma mem_chain_of_reaches (h : a.Acyclic) (ha : a.Sound) (hy : ReflTransGen a.Under x y) :
    y ∈ a.chain x := by
  induction hy using ReflTransGen.head_induction_on with
  | refl => exact ha.mem_chain_self y
  | head hp _ ih =>
    rw [h.chain_eq ha hp]
    exact List.mem_cons_of_mem _ ih

lemma Sound.reaches_of_mem_chain (ha : a.Sound) (hy : y ∈ a.chain x) : ReflTransGen a.Under x y :=
  (ha.chain_walk x).reaches y hy

/-- Without circles, the loaders that one asks after itself are those that it lies under. -/
lemma Acyclic.transGen_iff_mem (h : a.Acyclic) (ha : a.Sound) {behind : List LoaderId}
    (hchain : a.chain q = q :: behind) (y : LoaderId) : TransGen a.Under q y ↔ y ∈ behind := by
  rw [TransGen.head'_iff]
  cases hp : a.parent? q with
  | none =>
    rw [ha.chain_of_none hp] at hchain
    simp [← (List.cons.inj hchain).2, Under, hp]
  | some r =>
    rw [h.chain_eq ha hp] at hchain
    rw [← (List.cons.inj hchain).2]
    constructor
    · rintro ⟨z, hz, hy⟩
      obtain rfl : r = z := Option.some.inj (hp.symm.trans hz)
      exact mem_chain_of_reaches h ha hy
    · exact fun hy => ⟨r, hp, ha.reaches_of_mem_chain hy⟩

lemma Sound.reaches_of_definer? (ha : a.Sound) (hd : a.definer? l name = some q) :
    ReflTransGen a.Under l q := by
  by_cases hprefers : a.Prefers name l
  · rw [definer?_of_prefers hprefers] at hd
    cases hd
    exact .refl
  · rw [definer?_of_not_prefers hprefers] at hd
    exact ha.reaches_of_mem_chain (List.mem_reverse.1 (List.mem_of_find?_eq_some hd))

/-- The farthest loader that knows a class, and those behind it, which do not know it. -/
lemma farthest?_cases (h : a.farthest? l name = some q) : ∃ before behind,
    a.chain l = before ++ q :: behind ∧ a.knows name q = true ∧
      ∀ x ∈ behind, a.knows name x = false := by
  obtain ⟨hq, behind, before, hchain, hbehind⟩ := List.find?_eq_some_iff_append.1 h
  refine ⟨before.reverse, behind.reverse, ?_, hq, fun x hx => ?_⟩
  · rw [← List.reverse_reverse (a.chain l), hchain]
    simp
  · simpa using hbehind x (List.mem_reverse.1 hx)

lemma farthest?_of_append {before behind : List LoaderId}
    (hchain : a.chain l = before ++ q :: behind) (hq : a.knows name q = true)
    (hbehind : ∀ x ∈ behind, a.knows name x = false) :
    a.farthest? l name = some q := by
  refine List.find?_eq_some_iff_append.2 ⟨hq, behind.reverse, before.reverse, ?_, fun x hx => ?_⟩
  · simp [hchain]
  · simp [hbehind x (List.mem_reverse.1 hx)]

/-- A loader along the parents that knows a class is asked for it, or one behind it is. -/
lemma exists_farthest? (hx : x ∈ a.chain l) (hknows : a.knows name x = true) :
    ∃ q, a.farthest? l name = some q := by
  refine Option.isSome_iff_exists.1 (List.find?_isSome.2 ⟨x, List.mem_reverse.2 hx, hknows⟩)

/-- The farthest loader that knows a class defines it itself. -/
lemma Acyclic.definer?_farthest (h : a.Acyclic) (ha : a.Sound) (hq : a.farthest? l name = some q) :
    a.definer? q name = some q := by
  by_cases hprefers : a.Prefers name q
  · exact definer?_of_prefers hprefers
  · obtain ⟨before, behind, hchain, hknows, hbehind⟩ := farthest?_cases hq
    have hback : a.chain q = [] ++ q :: behind := h.chain_of_append ha hchain
    rw [definer?_of_not_prefers hprefers]
    exact farthest?_of_append hback hknows hbehind

/-- A loader that does not prefer its own definitions asks the farthest loader that its parent would
find. -/
lemma Acyclic.definer?_child (h : a.Acyclic) (ha : a.Sound) (hp : a.parent? l = some p)
    (hprefers : ¬ a.Prefers name l) (hq : a.farthest? p name = some q) :
    a.definer? l name = some q := by
  obtain ⟨before, behind, hchain, hknows, hbehind⟩ := farthest?_cases hq
  have hchain' : a.chain l = (l :: before) ++ q :: behind := by
    rw [h.chain_eq ha hp, hchain]
    rfl
  rw [definer?_of_not_prefers hprefers]
  exact farthest?_of_append hchain' hknows hbehind

/-! ### What loading does not touch -/

/-- A step of loading in which some loaders get no classes of some names, arrays apart. -/
def Spares (spared : LoaderId → String → Prop) (a b : Area) : Prop :=
  LoadStep a b ∧ ∀ l n, spared l n → IsPlain n → b.published? l n = a.published? l n

section

variable {spared : LoaderId → String → Prop} {P : Area → Prop} {asked : LoaderId → Prop}

/-- Loaders are spared for which nobody is found who is to define the class. -/
lemma confined_spares (hP : Stable (Spares spared) P) (hsound : ∀ a, P a → a.Sound)
    (hask : ∀ a l n d, P a → asked l → a.definer? l n = some d → asked d ∧ ¬ spared l n) :
    Confined (Spares spared) P asked fun l n => ¬ spared l n where
  stable := hP
  sound := hsound
  array a b hstep := by
    refine ⟨.array hstep, fun l n _ hplain => ?_⟩
    cases hstep with
    | identity => rfl
    | array d s is component =>
      rw [published?_withClass, if_neg]
      rintro ⟨-, hname, -⟩
      exact Class.not_isPlain_array d s is component (hname ▸ hplain)
  enter a l n := ⟨.enter a l n, fun _ _ _ _ => rfl⟩
  leave a l n := ⟨.leave a l n, fun _ _ _ _ => rfl⟩
  counted a := ⟨.counted a, fun _ _ _ _ => rfl⟩
  record a l c t hgets hplain haccept := by
    refine ⟨.record hplain haccept, fun l' n hspared _ => ?_⟩
    refine (published?_withClass l l' c n).trans (if_neg ?_)
    rintro ⟨rfl, rfl, -⟩
    exact hgets hspared
  delegate := hask

lemma Confined.load {step : Area → Area → Prop} {gets : LoaderId → String → Prop}
    (h : Confined step P asked gets) (hl : asked l) (name : String) :
    Performs step P (load l name) fun _ _ => True := by
  unfold Area.load
  refine Performs.bind .get fun a => ?_
  unfold loadWithin
  exact (performs_loadSpelled h.stable h.sound h.array (fun _ => h.loadPlain _ hl)
    (Spelling.proper_ofName name)).weaken (fun _ ha => ha.2) fun _ _ _ => trivial

lemma Spares.same (h : ReflTransGen (Spares spared) a b) {n : String} (hspared : spared l n)
    (hplain : IsPlain n) : b.published? l n = a.published? l n := by
  induction h with
  | refl => rfl
  | tail _ hstep ih => exact (hstep.2 l n hspared hplain).trans ih

lemma Spares.grown (h : ReflTransGen (Spares spared) a b) : Grown a b :=
  .of_steps (ReflTransGen.mono (fun _ _ h => h.1) _ _ h)

/-- Tables that fit together, over the parents that there were. -/
def SameParents (a : Area) (b : Area) : Prop := b.Sound ∧ b.parent? = a.parent?

lemma SameParents.under (hb : SameParents a b) : b.Under = a.Under := by
  unfold Under
  rw [hb.2]

lemma sameParents_stable (a : Area) : Stable (Spares spared) (SameParents a) := fun _ _ hstep hb =>
  ⟨sound_stable_loading _ _ hstep.1 hb.1, hstep.1.grown.parent?_eq.trans hb.2⟩

end

/-- Loading a class leaves the loaders alone that lie in front of the one that is asked. -/
lemma Sound.load_spares (ha : a.Sound) (hl : ¬ ReflTransGen a.Under p l) {n m : String}
    (hplain : IsPlain m) (hrun : load p n a = .ok c b) :
    b.published? l m = a.published? l m := by
  have hconfined : Confined (Spares fun x _ => ¬ ReflTransGen a.Under p x) (SameParents a)
      (ReflTransGen a.Under p) fun x _ => ¬ ¬ ReflTransGen a.Under p x := by
    refine confined_spares (sameParents_stable a) (fun _ hb => hb.1) fun b x n d hb hx hd => ?_
    have hbehind := hb.1.reaches_of_definer? hd
    rw [hb.under] at hbehind
    exact ⟨hx.trans hbehind, not_not.2 hx⟩
  have hsteps := (hconfined.load .refl n a ⟨ha, rfl⟩).1
  rw [finalState_of_ok hrun] at hsteps
  exact Spares.same hsteps hl hplain

/-- The parents are as they were, and no loader behind a given one knows a class. -/
def UnknownBehind (a : Area) (q : LoaderId) (name : String) (b : Area) : Prop :=
  SameParents a b ∧ ∀ x, TransGen a.Under q x → b.knows name x = false

lemma confined_unknownBehind (hplain : IsPlain name) :
    Confined (Spares fun x m => TransGen a.Under q x ∧ m = name) (UnknownBehind a q name)
      (fun _ => True) fun x m => ¬ (TransGen a.Under q x ∧ m = name) := by
  refine confined_spares (fun b b' hstep hb => ?_) (fun _ hb => hb.1.1)
    fun b x m d hb _ hd => ⟨trivial, ?_⟩
  · refine ⟨sameParents_stable a b b' hstep hb.1, fun x hx => ?_⟩
    rw [hstep.1.grown.knows_eq_of_published (hstep.2 x name ⟨hx, rfl⟩ hplain)]
    exact hb.2 x hx
  · rintro ⟨hx, rfl⟩
    have hasked := hb.1.1.reaches_of_definer? hd
    rw [hb.1.under] at hasked
    have hunknown := hb.2 d (hx.trans_left hasked)
    rw [knows_of_definer? hd] at hunknown
    cases hunknown

/-- Nobody behind the farthest loader that knows a class comes to know it while something is loaded.
-/
lemma Acyclic.farthest?_of_load (h : a.Acyclic) (ha : a.Sound) (hplain : IsPlain name)
    (hq : a.farthest? l name = some q) {n : String} (hrun : load p n a = .ok c b) :
    b.farthest? l name = some q := by
  obtain ⟨before, behind, hchain, hknows, hbehind⟩ := farthest?_cases hq
  have hback := h.transGen_iff_mem ha (h.chain_of_append ha hchain)
  have hconfined : Confined _ (UnknownBehind a q name) _ _ := confined_unknownBehind hplain
  have hstart : UnknownBehind a q name a := ⟨⟨ha, rfl⟩, fun x hx => hbehind x ((hback x).1 hx)⟩
  have hsteps := (hconfined.load (l := p) trivial n a hstart).1
  rw [finalState_of_ok hrun] at hsteps
  have hgrown := Spares.grown hsteps
  refine farthest?_of_append ((hgrown.chain_eq l).trans hchain) (hgrown.knows hknows) fun x hx => ?_
  exact (hconfined.stable.reflTransGen hsteps hstart).2 x ((hback x).2 hx)

/-! ### Loads that are delegated -/

/-- A loader that is not to define a class itself gets it from the one that is. -/
lemma load_of_definer? (hplain : IsPlain name) (hmissing : a.published? l name = none)
    (hd : a.definer? l name = some q) (hne : q ≠ l) :
    ∃ k, load l name a = handOver (loadSpelled (loadPlain k) q (.plain name)) l a := by
  refine ⟨(a.definitionCount + 1) * (a.loaders.size + 1), ?_⟩
  rw [load_plain hplain, loadSpelled_plain_of_none hmissing, loadBound, loadPlain_of_definer? hd,
    if_neg hne]

/-- Giving a class to a loader that there is fails only if the constraints do not let it have the
class. -/
lemma recordLoaded_of_isSome (hl : (a.loaders.get? l).isSome = true) (c : Class) :
    recordLoaded l c a = match a.constraints.accept l c with
      | .ok t => .ok () (a.recorded l c t)
      | .error e => .error e a := by
  unfold recordLoaded checkLoaded
  rw [bind_of_ok (get_apply a)]
  cases a.constraints.accept l c with
  | error e => rfl
  | ok t =>
    dsimp only
    rw [bind_of_ok (publish_of_isSome c hl)]
    rfl

/-- A class that was defined belongs to the loader that defined it. -/
lemma loader_of_defineClass (ha : a.Sound) {k : Nat}
    (hrun : defineClass (fun s => loadSpelled (loadPlain k) l (.ofName s)) l name a = .ok c b) :
    c.loader = l := by
  have hmem : (l, name) ∉ a.defining := by
    intro hmem
    rw [defineClass_of_mem hmem] at hrun
    cases hrun
  have hload : ∀ n, Performs LoadStep Sound (loadSpelled (loadPlain k) l (.ofName n))
      fun _ _ => True := fun n =>
    (performs_loadSpelled sound_stable_loading (fun _ h => h) (fun _ _ => LoadStep.array)
      (fun _ => performs_loadPlain k l) (Spelling.proper_ofName n)).weaken (fun _ h => h)
      fun _ _ _ => trivial
  have hderive := (carries_any sound_stable_loading fun _ _ => LoadStep.array).derive
    (fun _ h => h) (fun a => .array (.identity a)) hload l name
  rcases defineClass_cases _ hmem with ⟨e, b', hb', hrun'⟩ | ⟨c', b', hb', ⟨e, hrun'⟩ |
    ⟨t, hl, hrun'⟩⟩ <;> rw [hrun] at hrun' <;> cases hrun'
  exact ((hderive _ (sound_stable_loading _ _ (.enter a l name) ha)).2 c b' hb').loader

/-- A loader that neither has a class nor prefers its own definition of it has the class afterwards
from the farthest loader that knows it. -/
lemma Acyclic.published?_farthest (h : a.Acyclic) (ha : a.Sound) (hplain : IsPlain name)
    (hmissing : a.published? p name = none) (hprefers : ¬ a.Prefers name p)
    (hrun : load p name a = .ok c b) :
    ∃ q, b.farthest? p name = some q ∧ b.published? q name = some c := by
  cases hd : a.definer? p name with
  | none =>
    rw [load_plain hplain, loadSpelled_plain_of_none hmissing, loadBound,
      loadPlain_of_nobody hd] at hrun
    cases hrun
  | some q =>
    have hq : a.farthest? p name = some q := (definer?_of_not_prefers hprefers).symm.trans hd
    refine ⟨q, h.farthest?_of_load ha hplain hq hrun, ?_⟩
    by_cases hqp : q = p
    · rw [hqp]
      exact published?_of_load hplain ha hrun
    · obtain ⟨k, hk⟩ := load_of_definer? hplain hmissing hd hqp
      rw [hk] at hrun
      obtain ⟨b', t, hload, -, rfl⟩ := handOver_eq_ok hrun
      have hgot : b'.published? q name = some c := by
        cases hfound : a.published? q name with
        | some c₀ =>
          rw [loadSpelled_plain_of_some hfound] at hload
          cases hload
          exact hfound
        | none =>
          rw [loadSpelled_plain_of_none hfound] at hload
          have hawaits := awaits_nil name q a
          exact (published?_of_loadPlain hplain ha hawaits hfound hload).1
      exact (grown_recorded b' p c t).kept q name c hgot

/-- A class that one loader has is not given to another one as a new class. -/
lemma Tidy.published?_of_load_child (ha : a.Tidy) (hplain : IsPlain name)
    (hmissing : a.published? l name = none) (hd : a.definer? l name = some q) (hne : q ≠ l)
    (hq : a.definer? q name = some q) (hc : a.Published c) (hrun : load l name a = .ok c b) :
    a.published? q name = some c := by
  obtain ⟨k, hk⟩ := load_of_definer? hplain hmissing hd hne
  rw [hk] at hrun
  obtain ⟨b', t, hload, -, rfl⟩ := handOver_eq_ok hrun
  cases hfound : a.published? q name with
  | some c₀ =>
    rw [loadSpelled_plain_of_some hfound] at hload
    cases hload
    rfl
  | none =>
    rw [loadSpelled_plain_of_none hfound] at hload
    have hname : c.name = name := (performs_loadPlain k q hplain a ha.sound).2 c b' hload
    have hloader : c.loader = q := by
      cases k with
      | zero => cases hload
      | succ k =>
        rw [loadPlain_of_definer? hq, if_pos rfl] at hload
        exact loader_of_defineClass ha.sound hload
    rw [← hfound, ← hloader, ← hname]
    exact (ha.rooted_of_published hc).owned

/-- After the parent has given a class, a loader that does not prefer its own definitions asks the
farthest loader that its parent finds. -/
lemma Acyclic.asks_farthest (h : a.Acyclic) (ha : a.Sound)
    (hfirst : ((a.loaders.get? l).map LoaderData.childFirst).getD false = false)
    (hparent : a.parent? l = some p) (hplain : IsPlain name)
    (hmissing : a.published? l name = none) (hload : load p name a = .ok c b) :
    b.Acyclic ∧ b.published? l name = none ∧ (b.loaders.get? l).isSome = true ∧
      ∃ q, b.farthest? p name = some q ∧ b.definer? l name = some q ∧ q ≠ l := by
  have hsteps := (confined_loading.load (l := p) trivial name a ha).1
  rw [finalState_of_ok hload] at hsteps
  have hb : b.Sound := sound_stable_loading.reflTransGen hsteps ha
  have hgrown := Grown.of_steps hsteps
  have hunder : b.Under = a.Under := by
    unfold Under
    rw [hgrown.parent?_eq]
  have hacyclic : b.Acyclic := by
    unfold Acyclic
    rw [hunder]
    exact h
  have hparent' : b.parent? l = some p := by rw [hgrown.parent?_eq, hparent]
  have hnot : ¬ ReflTransGen a.Under p l := fun hback => h l (.head' hparent hback)
  have hprefers : ¬ b.Prefers name l := by
    rintro ⟨hchild, -⟩
    rw [hgrown.childFirst_eq, hfirst] at hchild
    cases hchild
  have hknows : b.knows name p = true := by
    rw [knows_eq, published?_of_load hplain ha hload]
    simp
  obtain ⟨q, hq⟩ := exists_farthest? (hb.mem_chain_self p) hknows
  obtain ⟨data, hdata, -⟩ := Option.bind_eq_some_iff.1 hparent'
  refine ⟨hacyclic, (ha.load_spares hnot hplain hload).trans hmissing, by simp [hdata], q, hq,
    hacyclic.definer?_child hb hparent' hprefers hq, ?_⟩
  rintro rfl
  obtain ⟨before, behind, hchain, -⟩ := farthest?_cases hq
  have hmem : q ∈ b.chain p := by simp [hchain]
  exact hnot (hunder ▸ hb.reaches_of_mem_chain hmem)

/-- Parents that were there before their children form no circle. -/
lemma Sound.acyclic_of_lt (ha : a.Sound)
    (h : ∀ n < a.loaders.size, (a.parent? ⟨n⟩).all (fun p => p.number < n) = true) :
    a.Acyclic := by
  have hunder : ∀ l p, a.Under l p → p.number < l.number := by
    intro l p hp
    obtain ⟨data, hdata, -⟩ := Option.bind_eq_some_iff.1 hp
    have hlt := (ha.numbered l).1 (by simp [hdata])
    have hall := h l.number hlt
    rw [show a.parent? ⟨l.number⟩ = some p from hp] at hall
    simpa using hall
  have hless : ∀ l p, TransGen a.Under l p → p.number < l.number := by
    intro l p hp
    induction hp with
    | single hp => exact hunder _ _ hp
    | tail _ hp ih => exact Nat.lt_trans (hunder _ _ hp) ih
  exact fun l hl => Nat.lt_irrefl _ (hless l l hl)

end Area

namespace Resolver

variable {start r : Resolver} {l p : LoaderId} {name : String} {c : Class} {b : Area}

/-- When a loader gives what its parent gives. After the parent has given a class, a loader that
does not prefer its own definitions gives the same class, or is refused it by its loading
constraints, if the farthest loader that knows the class has it under its name; otherwise it never
gives that class. The farthest loader has the class whenever the parent neither had it before nor
preferred its own definition. -/
theorem gives_class_of_parent (hstart : start.area = Area.initial) (hrun : GenuineRun start r)
    (hacyclic : r.area.Acyclic)
    (hfirst : ((r.area.loaders.get? l).map LoaderData.childFirst).getD false = false)
    (hparent : r.area.parent? l = some p) (hplain : IsPlain name)
    (hmissing : r.area.published? l name = none) (hload : Area.load p name r.area = .ok c b) :
    ∃ q, b.farthest? p name = some q ∧
      (b.published? q name = some c → (∃ b', Area.load l name b = .ok c b') ∨
        ∃ x, b.constraints.bound? name l = some x ∧ x.same c = false ∧
          Area.load l name b = .error (.boundElsewhere l name c.loader x.loader) b) ∧
      (b.published? q name ≠ some c → ∀ b', Area.load l name b ≠ .ok c b') ∧
      (r.area.published? p name = none → ¬ r.area.Prefers name p →
        b.published? q name = some c) := by
  have hr : r.area.Tidy := hrun.tidy (hstart ▸ Area.initial_tidy)
  have hb : b.Tidy := Area.tidy_of_ok (Area.tidy_load p name) hr hload
  have hpublished := Area.published?_of_load hplain hr.sound hload
  have hname := hb.sound.keyed p name c hpublished
  obtain ⟨hacyclic', hmissing', hthere, q, hq, hd, hne⟩ :=
    hacyclic.asks_farthest hr.sound hfirst hparent hplain hmissing hload
  refine ⟨q, hq, fun hfound => ?_, fun hother b' hchild => ?_, fun hnone hprefers => ?_⟩
  · obtain ⟨k, hk⟩ := Area.load_of_definer? hplain hmissing' hd hne
    rw [hk, Area.handOver_of_ok (Area.loadSpelled_plain_of_some hfound)]
    have hrecord := Area.recordLoaded_of_isSome hthere c
    unfold Constraints.accept at hrecord
    rw [hname] at hrecord
    cases hx : b.constraints.bound? name l with
    | none =>
      simp only [hx] at hrecord
      exact .inl ⟨_, bind_of_ok hrecord⟩
    | some x =>
      simp only [hx] at hrecord
      cases hsame : x.same c with
      | true =>
        simp only [hsame, if_true] at hrecord
        exact .inl ⟨_, bind_of_ok hrecord⟩
      | false =>
        simp only [hsame, Bool.false_eq_true, if_false] at hrecord
        exact .inr ⟨x, rfl, hsame, bind_of_error hrecord⟩
  · exact hother (hb.published?_of_load_child hplain hmissing' hd hne
      (hacyclic'.definer?_farthest hb.sound hq) ⟨p, name, hpublished⟩ hchild)
  · obtain ⟨q', hq', hfound⟩ :=
      hacyclic.published?_farthest hr.sound hplain hnone hprefers hload
    obtain rfl : q = q' := Option.some.inj (hq.symm.trans hq')
    exact hfound

/-- A loader that prefers its own definitions, a child of it, and a class that the first one can
define; the bootstrap loader may have a definition of the class as well. -/
def preferringOperations (everywhere : Bool) : List Operation :=
  [.addLoader .bootstrap true,
    .addLoader ⟨1⟩ false,
    .define ⟨1⟩ { name := "p/X", flags := Flag.accPublic.mask }] ++
  if everywhere then [.define .bootstrap { name := "p/X", flags := Flag.accPublic.mask }] else []

/-- The resolver with these loaders. -/
def preferring (everywhere : Bool) : Resolver :=
  performAll (preferringOperations everywhere) { area := Area.initial }

lemma genuineRun_preferring (everywhere : Bool) :
    GenuineRun { area := Area.initial } (preferring everywhere) := by
  refine genuineRun_performAll (fun op hop r => ?_) _
  cases everywhere <;> simp [preferringOperations] at hop <;>
    rcases hop with rfl | rfl | rfl | rfl <;> trivial

lemma acyclic_preferring (everywhere : Bool) : (preferring everywhere).area.Acyclic := by
  have htidy := (genuineRun_preferring everywhere).tidy Area.initial_tidy
  refine htidy.sound.acyclic_of_lt ?_
  cases everywhere <;> decide +kernel

/-- The loaders of the classes that the parent gives and that its child gives afterwards. -/
def givenBy (r : Resolver) : Option (LoaderId × LoaderId) :=
  match Area.load ⟨1⟩ "p/X" r.area with
  | .ok c b =>
    match Area.load ⟨2⟩ "p/X" b with
    | .ok d _ => some (c.loader, d.loader)
    | .error .. => none
  | .error .. => none

lemma exists_of_givenBy {x y : LoaderId} (h : givenBy r = some (x, y)) :
    ∃ c b d b', Area.load ⟨1⟩ "p/X" r.area = .ok c b ∧ Area.load ⟨2⟩ "p/X" b = .ok d b' ∧
      c.loader = x ∧ d.loader = y := by
  unfold givenBy at h
  split at h
  · next c b hload =>
    split at h
    · next d b' hchild =>
      cases h
      exact ⟨c, b, d, b', hload, hchild, rfl, rfl⟩
    · cases h
  · cases h

/-- A class that only the parent knows is given by the child as well, although the parent prefers
its own definitions. -/
theorem preferred_class_given : ∃ c b b', (preferring false).area.Prefers "p/X" ⟨1⟩ ∧
    Area.load ⟨1⟩ "p/X" (preferring false).area = .ok c b ∧
    b.farthest? ⟨1⟩ "p/X" = some ⟨1⟩ ∧ Area.load ⟨2⟩ "p/X" b = .ok c b' := by
  have hgiven : givenBy (preferring false) = some (⟨1⟩, ⟨1⟩) := by decide +kernel
  have hprefers : (preferring false).area.Prefers "p/X" ⟨1⟩ := by
    constructor <;> decide +kernel
  have hfarthest : (preferring false).area.farthest? ⟨1⟩ "p/X" = some ⟨1⟩ := by decide +kernel
  have hplain : IsPlain "p/X" := by decide
  have htidy := (genuineRun_preferring false).tidy Area.initial_tidy
  obtain ⟨c, b, d, b', hload, hchild, -, -⟩ := exists_of_givenBy hgiven
  have hfarthest' := (acyclic_preferring false).farthest?_of_load htidy.sound hplain hfarthest hload
  obtain ⟨q, hq, hgives, -⟩ := gives_class_of_parent rfl (genuineRun_preferring false)
    (acyclic_preferring false) (l := ⟨2⟩) (by decide +kernel) (p := ⟨1⟩) (by decide +kernel) hplain
    (by decide +kernel) hload
  obtain rfl : ⟨1⟩ = q := Option.some.inj (hfarthest'.symm.trans hq)
  rcases hgives (Area.published?_of_load hplain htidy.sound hload) with ⟨b'', hsame⟩ |
    ⟨x, -, -, hrefused⟩
  · exact ⟨c, b, b'', hprefers, hload, hfarthest', hsame⟩
  · rw [hchild] at hrefused
    cases hrefused

/-- A class that the parent prefers its own definition of is not what its child gives if a loader
behind the parent can define it too. -/
theorem preferred_class_not_given : ∃ c b d b',
    GenuineRun { area := Area.initial } (preferring true) ∧
    (preferring true).area.Acyclic ∧ (preferring true).area.parent? ⟨2⟩ = some ⟨1⟩ ∧
    (((preferring true).area.loaders.get? ⟨2⟩).map LoaderData.childFirst).getD false = false ∧
    (preferring true).area.published? ⟨2⟩ "p/X" = none ∧
    Area.load ⟨1⟩ "p/X" (preferring true).area = .ok c b ∧
    Area.load ⟨2⟩ "p/X" b = .ok d b' ∧ d ≠ c := by
  have hgiven : givenBy (preferring true) = some (⟨1⟩, .bootstrap) := by decide +kernel
  obtain ⟨c, b, d, b', hload, hchild, hc, hd⟩ := exists_of_givenBy hgiven
  refine ⟨c, b, d, b', genuineRun_preferring true, acyclic_preferring true, by decide +kernel,
    by decide +kernel, Option.isNone_iff_eq_none.1 (by decide +kernel), hload, hchild, ?_⟩
  rintro rfl
  rw [hc] at hd
  cases hd

end Resolver

end Linkage
