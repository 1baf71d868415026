import Mathlib.Data.Finset.Card
import Linkage.Proofs.Area.Asking

/-!
# When loading ends

Loading ends unless some loader is asked for a class without end. The classes that are being defined
are marked, so a class that needs itself is refused, and of the others there are only finitely many.
What is left of them, times the loaders that may be asked on the way to each, bounds the steps that
loading takes. Classes that a circle of loaders is asked for are never loaded, however many steps
there are.
-/

namespace Linkage

open Relation

namespace Area

variable {a b : Area} {l d x : LoaderId} {name m : String} {k : Nat}

/-! ### What is being defined -/

/-- Steps of loading after which the same classes are being defined as before. -/
def Balanced (a b : Area) : Prop := ReflTransGen LoadStep a b ∧ b.defining = a.defining

lemma Balanced.of_steps (h : ReflTransGen Balanced a b) : Balanced a b := by
  induction h with
  | refl => exact ⟨.refl, rfl⟩
  | tail _ hstep ih => exact ⟨ih.1.trans hstep.1, hstep.2.trans ih.2⟩

lemma ArrayStep.balanced (h : ArrayStep a b) : Balanced a b := by
  refine ⟨.single (.array h), ?_⟩
  cases h <;> rfl

lemma balanced_stable : Stable Balanced Sound :=
  fun _ _ h => sound_stable_loading.reflTransGen h.1

lemma performs_loadSpelled_balanced {load : LoaderId → String → AreaM Class} {l : LoaderId}
    (hload : ∀ n, IsPlain n → Performs Balanced Sound (load l n) fun c _ => c.name = n)
    {s : Spelling} (hs : s.Proper) :
    Performs Balanced Sound (loadSpelled load l s) fun _ _ => True :=
  (performs_loadSpelled balanced_stable (fun _ h => h) (fun _ _ => ArrayStep.balanced) hload
    hs).weaken (fun _ h => h) fun _ _ _ => trivial

/-- When loading ends, whatever comes of it, no other classes are being defined than before. -/
lemma performs_loadPlain_balanced (n : Nat) (l : LoaderId) (hplain : IsPlain name) :
    Performs Balanced Sound (loadPlain n l name) fun c _ => c.name = name := by
  induction n generalizing l name with
  | zero => exact .throw _
  | succ n ih =>
    have hspelled : ∀ l {s : Spelling}, s.Proper →
        Performs Balanced Sound (loadSpelled (loadPlain n) l s) fun _ _ => True :=
      fun l _ => performs_loadSpelled_balanced fun _ hn => ih l hn
    intro a ha
    obtain ⟨hsteps, hname⟩ := performs_loadPlain (n + 1) l hplain a ha
    suffices hsame : (finalState (loadPlain (n + 1) l name) a).defining = a.defining from
      ⟨.single ⟨hsteps, hsame⟩, hname⟩
    cases hd : a.definer? l name with
    | none =>
      rw [finalState_of_error (loadPlain_of_nobody hd)]
    | some d =>
      rw [finalState_congr (loadPlain_of_definer? hd)]
      split
      · by_cases hmem : (l, name) ∈ a.defining
        · rw [finalState_of_error (defineClass_of_mem hmem)]
        have hentering : (a.entering l name).Sound := sound_stable_loading _ _ (.enter a l name) ha
        have hderive := (performs_derive balanced_stable (fun _ h => h)
          (fun _ _ => ArrayStep.balanced) (fun s => hspelled l (Spelling.proper_ofName s)) l name
          _ hentering).1
        obtain ⟨b, hb, hrun⟩ :=
          finalState_defineClass (fun s => loadSpelled (loadPlain n) l (.ofName s)) hmem
        have hleave : (b.leaving l name).defining = a.defining := by
          change b.defining.erase (l, name) = a.defining
          rw [← hb, (Balanced.of_steps hderive).2]
          exact List.erase_cons_head ..
        rcases hrun with hrun | ⟨c, t, -, -, hrun⟩ <;> rw [hrun]
        · exact hleave
        · exact hleave
      · have hbefore := (Balanced.of_steps (hspelled d (s := .plain name) hplain a ha).1).2
        obtain ⟨b, hb, hrun | ⟨c, t, -, hrun⟩⟩ :=
          finalState_handOver (loadSpelled (loadPlain n) d (.plain name)) l a <;>
          rw [hb] at hbefore <;> rw [hrun]
        · exact hbefore
        · exact hbefore

/-! ### Operations that do not run out of steps -/

section

variable {α β : Type} {x y : AreaM α} {f g : α → AreaM β} {P : Area → Prop}

/-- An operation that takes no part in counting steps. -/
def Unhurried (x : AreaM α) : Prop := ∀ a m b, x a ≠ .error (.unboundedLoading m) b

lemma unhurried_pure (v : α) : Unhurried (pure v : AreaM α) := by
  intro a m b h
  cases h

lemma unhurried_throw {e : Fault} (h : ∀ m, e ≠ .unboundedLoading m) :
    Unhurried (throw e : AreaM α) := by
  intro a m b hrun
  cases hrun
  exact h m rfl

lemma Unhurried.bind (hx : Unhurried x) (hf : ∀ v, Unhurried (f v)) : Unhurried (x >>= f) := by
  intro a m b hrun
  rcases bind_eq_error.1 hrun with hrun | ⟨v, c, -, hrun⟩
  · exact hx a m b hrun
  · exact hf v c m b hrun

lemma unhurried_of_total (h : ∀ a, ∃ v b, x a = .ok v b) : Unhurried x := by
  intro a m b hrun
  obtain ⟨v, c, hok⟩ := h a
  rw [hrun] at hok
  cases hok

lemma unhurried_get : Unhurried (get : AreaM Area) := unhurried_of_total fun a => ⟨a, a, rfl⟩

lemma unhurried_modify (f : Area → Area) : Unhurried (modify f : AreaM PUnit) :=
  unhurried_of_total fun a => ⟨_, f a, rfl⟩

lemma unhurried_freshId : Unhurried freshId := unhurried_of_total fun _ => ⟨_, _, rfl⟩

lemma unhurried_publish (l : LoaderId) (c : Class) : Unhurried (publish l c) := by
  intro a m b hrun
  cases hl : a.loaders.get? l with
  | none =>
    rw [publish_of_none c hl] at hrun
    cases hrun
  | some data =>
    rw [publish_of_isSome c (by simp [hl])] at hrun
    cases hrun

lemma unhurried_recordLoaded (l : LoaderId) (c : Class) : Unhurried (recordLoaded l c) := by
  refine unhurried_get.bind fun a => ?_
  split
  · next e he =>
    refine unhurried_throw fun m hm => ?_
    unfold Constraints.accept at he
    split at he
    · split at he
      · cases he
      · cases he
        cases hm
    · cases he
  · exact (unhurried_publish l c).bind fun _ => unhurried_modify _

lemma unhurried_arrayOf (c : Class) : Unhurried (arrayOf c) := by
  refine unhurried_get.bind fun a => ?_
  split
  · exact unhurried_pure _
  · refine Unhurried.bind ?_ fun d => (unhurried_publish _ _).bind fun _ => unhurried_pure _
    unfold makeArray
    split
    · exact (unhurried_throw fun _ h => by cases h).bind fun _ => unhurried_get.bind fun _ =>
        unhurried_freshId.bind fun _ => unhurried_pure _
    · exact unhurried_get.bind fun _ => unhurried_freshId.bind fun _ => unhurried_pure _

lemma unhurried_arrayOf? (c : Class) : Unhurried (arrayOf? c) := by
  refine unhurried_of_total fun a => ?_
  rw [arrayOf?_eq]
  cases arrayOf c a <;> exact ⟨_, _, rfl⟩

lemma unhurried_findArray (l : LoaderId) (name : String) (short : Bool)
    {component : AreaM (Option Class)} (h : Unhurried component) :
    Unhurried (findArray l name short component) := by
  refine unhurried_get.bind fun a => ?_
  split
  · exact unhurried_pure _
  · split
    · exact unhurried_pure _
    · refine h.bind fun v => ?_
      match v with
      | some c => exact unhurried_arrayOf? c
      | none => exact unhurried_pure _

lemma unhurried_findSpelled (l : LoaderId) (s : Spelling) : Unhurried (findSpelled l s) := by
  induction s with
  | plain n => exact unhurried_of_total fun _ => ⟨_, _, rfl⟩
  | nested n s ih => exact unhurried_findArray l n _ ih
  | object n s ih => exact unhurried_findArray l n _ ih
  | unclosed n => exact unhurried_findArray l n _ (unhurried_pure _)
  | bare n s => exact unhurried_findArray l n _ (unhurried_pure _)

lemma unhurried_loadBare (s : Spelling) : Unhurried (loadSpelled.loadBare s) := by
  refine (unhurried_findSpelled _ s).bind fun v => ?_
  match v with
  | some c => exact unhurried_pure _
  | none => exact unhurried_throw fun _ h => by cases h

/-- Two operations that differ in how many steps they allow for. From states with `P` both do the
same, and if steps run out, then because some class is asked for without end. -/
structure Enough (P : Area → Prop) (x y : AreaM α) : Prop where
  same : ∀ a, P a → x a = y a
  ends : ∀ a m b, P a → x a = .error (.unboundedLoading m) b → b.Endless m

lemma Unhurried.enough (h : Unhurried x) : Enough P x x :=
  ⟨fun _ _ => rfl, fun a m b _ hrun => absurd hrun (h a m b)⟩

lemma enough_throw_bind {e : Fault} (h : ∀ m, e ≠ .unboundedLoading m) (f g : α → AreaM β) :
    Enough P ((throw e : AreaM α) >>= f) ((throw e : AreaM α) >>= g) := by
  refine ⟨fun _ _ => rfl, fun a m b _ hrun => ?_⟩
  cases hrun
  exact absurd rfl (h m)

lemma Enough.at (h : Enough P x y) (ha : P a) : Enough (· = a) x y := by
  refine ⟨?_, ?_⟩
  · rintro _ rfl
    exact h.same _ ha
  · rintro _ m b rfl
    exact h.ends _ m b ha

lemma enough_of_forall (h : ∀ a, P a → Enough (· = a) x y) : Enough P x y :=
  ⟨fun a ha => (h a ha).same a rfl, fun a m b ha => (h a ha).ends a m b rfl⟩

/-- What two operations do in a state is all that counts there. -/
lemma Enough.of_eq {x' y' : AreaM α} (h : Enough (· = a) x' y') (hx : x a = x' a)
    (hy : y a = y' a) : Enough (· = a) x y := by
  refine ⟨?_, ?_⟩
  · rintro _ rfl
    rw [hx, hy, h.same _ rfl]
  · rintro _ m b rfl hrun
    exact h.ends _ m b rfl (hx.symm.trans hrun)

lemma Enough.followed (h : Enough P x y) (hf : ∀ v, Unhurried (f v)) :
    Enough P (x >>= f) (y >>= f) where
  same a ha := bind_of_eq (h.same a ha)
  ends a m b ha hrun := by
    rcases bind_eq_error.1 hrun with hrun | ⟨v, c, -, hrun⟩
    · exact h.ends a m b ha hrun
    · exact absurd hrun (hf v c m b)

/-- The area when certain classes are being defined, after steps of loading. -/
structure Within (start : Area) (defining : List (LoaderId × String)) (a : Area) : Prop where
  sound : a.Sound
  grown : Grown start a
  defining : a.defining = defining

variable {start : Area} {ds : List (LoaderId × String)}

lemma Within.of_balanced (h : Within start ds a) (hsteps : ReflTransGen Balanced a b) :
    Within start ds b := by
  obtain ⟨hloading, hsame⟩ := Balanced.of_steps hsteps
  exact ⟨sound_stable_loading.reflTransGen hloading h.sound,
    h.grown.trans (Grown.of_steps hloading), hsame.trans h.defining⟩

lemma Enough.bind {Q : α → Area → Prop} (h : Enough (Within start ds) x y)
    (hsteps : Performs Balanced Sound x Q) (hf : ∀ v, Enough (Within start ds) (f v) (g v)) :
    Enough (Within start ds) (x >>= f) (y >>= g) := by
  have hafter : ∀ {a v b}, Within start ds a → x a = .ok v b → Within start ds b := by
    intro a v b ha hrun
    have hfinal := (hsteps a ha.sound).1
    rw [finalState_of_ok hrun] at hfinal
    exact ha.of_balanced hfinal
  refine ⟨fun a ha => ?_, fun a m b ha hrun => ?_⟩
  · rw [bind_of_eq (h.same a ha).symm]
    cases hrun : x a with
    | ok v b => rw [bind_of_ok hrun, bind_of_ok hrun, (hf v).same b (hafter ha hrun)]
    | error e b => rw [bind_of_error hrun, bind_of_error hrun]
  · rcases bind_eq_error.1 hrun with hrun | ⟨v, c, hx, hrun⟩
    · exact h.ends a m b ha hrun
    · exact (hf v).ends c m b (hafter ha hx) hrun

/-! ### Linking -/

variable {load load' : String → AreaM Class}

lemma enough_linkSuperclass (hload : ∀ s, Enough (Within start ds) (load s) (load' s))
    (l : LoaderId) (d : Definition) :
    Enough (Within start ds) (linkSuperclass load l d) (linkSuperclass load' l d) := by
  unfold linkSuperclass
  split
  · refine (hload _).followed fun s => ?_
    split
    · exact (unhurried_throw fun _ h => by cases h).bind fun _ => unhurried_pure _
    · exact unhurried_pure _
  · split
    · exact (unhurried_pure _).enough
    · exact (unhurried_throw fun _ h => by cases h).enough

lemma enough_linkInterfaces (hload : ∀ s, Enough (Within start ds) (load s) (load' s))
    (hsteps : ∀ s, Performs Balanced Sound (load s) fun _ _ => True) (d : Definition)
    (names : List String) :
    Enough (Within start ds) (linkInterfaces load d names) (linkInterfaces load' d names) := by
  induction names with
  | nil => exact (unhurried_pure _).enough
  | cons name names ih =>
    unfold linkInterfaces
    refine (hload name).bind (hsteps name) fun i => ?_
    split
    · exact enough_throw_bind (fun _ h => by cases h) _ _
    · exact ih.followed fun _ => unhurried_pure _

lemma performs_linkSuperclass_balanced
    (hsteps : ∀ s, Performs Balanced Sound (load s) fun _ _ => True) (l : LoaderId)
    (d : Definition) : Performs Balanced Sound (linkSuperclass load l d) fun _ _ => True :=
  ((carries_any balanced_stable fun _ _ => ArrayStep.balanced).linkSuperclass hsteps l d).weaken
    (fun _ h => h) fun _ _ _ => trivial

lemma enough_derive (hload : ∀ s, Enough (Within start ds) (load s) (load' s))
    (hsteps : ∀ s, Performs Balanced Sound (load s) fun _ _ => True) (l : LoaderId)
    (name : String) : Enough (Within start ds) (derive load l name) (derive load' l name) := by
  unfold derive
  refine unhurried_get.enough.bind
    (Performs.get.weaken (fun _ h => h) fun _ _ _ => trivial) fun a => ?_
  cases (a.loaders.get? l).bind fun data => data.definitions.get? name with
  | none => exact (unhurried_throw fun _ h => by cases h).enough
  | some d =>
    refine (enough_linkSuperclass hload l d).bind
      (performs_linkSuperclass_balanced hsteps l d) fun s => ?_
    refine (enough_linkInterfaces hload hsteps d _).followed fun is => ?_
    exact unhurried_freshId.bind fun _ => unhurried_pure _

lemma derive_of_none (h : a.definition? l name = none) :
    derive load l name a = .error (.classMissing name) a := by
  unfold derive
  rw [bind_of_ok (get_apply a)]
  unfold definition? at h
  simp only [h]
  rfl

/-! ### Defining -/

/-- A class is asked for without end also after the definition of another one is over. -/
lemma Endless.leaving (h : a.Endless m) (l : LoaderId) (name : String) :
    (a.leaving l name).Endless m := by
  obtain ⟨hplain, x, hmissing, hasked⟩ := h
  exact ⟨hplain, x, hmissing, fun hx => hasked (hx.grown ⟨rfl, fun _ => rfl, fun _ _ _ h => h⟩)⟩

lemma Within.entering (h : Within start ds a) (l : LoaderId) (name : String) :
    Within start ((l, name) :: ds) (a.entering l name) :=
  ⟨sound_stable_loading _ _ (.enter a l name) h.sound, h.grown.trans (grown_entering a l name),
    congrArg _ h.defining⟩

lemma Enough.whileDefining {x y : AreaM α} (h : Enough (Within start ((l, name) :: ds)) x y) :
    Enough (Within start ds) (whileDefining l name x) (whileDefining l name y) := by
  refine ⟨fun a ha => ?_, fun a m b ha hrun => ?_⟩
  · have hsame := h.same _ (ha.entering l name)
    cases hx : x (a.entering l name) with
    | ok v b => rw [whileDefining_of_ok hx, whileDefining_of_ok (hsame.symm.trans hx)]
    | error e b => rw [whileDefining_of_error hx, whileDefining_of_error (hsame.symm.trans hx)]
  · cases hx : x (a.entering l name) with
    | ok v c =>
      rw [whileDefining_of_ok hx] at hrun
      cases hrun
    | error e c =>
      rw [whileDefining_of_error hx] at hrun
      cases hrun
      exact (h.ends _ m c (ha.entering l name) hx).leaving l name

/-- Defining a class takes the steps of the loads it makes, which need no more than is enough while
the class is being defined. If there is no definition of it, or it is being defined already, then no
loads are made. -/
lemma enough_defineClass
    (hload : (l, name) ∉ ds → start.definition? l name ≠ none →
      ∀ s, Enough (Within start ((l, name) :: ds)) (load s) (load' s))
    (hsteps : ∀ s, Performs Balanced Sound (load s) fun _ _ => True) :
    Enough (Within start ds) (defineClass load l name) (defineClass load' l name) := by
  by_cases hmem : (l, name) ∈ ds
  · refine enough_of_forall fun a ha => ?_
    have hdefining : (l, name) ∈ a.defining := ha.defining ▸ hmem
    exact (unhurried_throw fun _ h => by cases h).enough.of_eq (defineClass_of_mem hdefining)
      (defineClass_of_mem hdefining)
  · have hlink : Enough (Within start ((l, name) :: ds)) (derive load l name)
        (derive load' l name) := by
      cases hd : start.definition? l name with
      | some d => exact enough_derive (hload hmem (by simp [hd])) hsteps l name
      | none =>
        refine enough_of_forall fun a ha => ?_
        have hnone : a.definition? l name = none := (ha.grown.definition_eq l name).trans hd
        exact (unhurried_throw fun _ h => by cases h).enough.of_eq (derive_of_none hnone)
          (derive_of_none hnone)
    refine enough_of_forall fun a ha => ?_
    have hnot : (l, name) ∉ a.defining := ha.defining ▸ hmem
    refine (Enough.at ?_ ha).of_eq (defineClass_of_not_mem load hnot)
      (defineClass_of_not_mem load' hnot)
    exact hlink.whileDefining.followed fun c => (unhurried_recordLoaded l c).bind fun _ =>
      (unhurried_modify _).bind fun _ => unhurried_pure c

/-! ### Names taken apart -/

/-- What is not found is loaded; finding it takes no part in counting steps. -/
lemma Enough.orElse {x y : AreaM Class} (h : Enough (Within start ds) x y) (l : LoaderId)
    (s : Spelling) :
    Enough (Within start ds)
      (do
        match ← findSpelled l s with
        | some c => return c
        | none => x)
      (do
        match ← findSpelled l s with
        | some c => return c
        | none => y) := by
  have hfind : Performs Balanced Sound (findSpelled l s) fun _ _ => True :=
    ((performs_findSpelled l s).mono fun _ _ => ArrayStep.balanced).weaken
      (fun _ _ => trivial) fun _ _ h => h
  refine (unhurried_findSpelled l s).enough.bind hfind fun v => ?_
  cases v with
  | some c => exact (unhurried_pure c).enough
  | none => exact h

lemma enough_loadSpelled {load load' : LoaderId → String → AreaM Class} {l : LoaderId}
    (hload : ∀ n, IsPlain n →
      Enough (fun a => Within start ds a ∧ a.published? l n = none) (load l n) (load' l n))
    {s : Spelling} (hs : s.Proper) :
    Enough (Within start ds) (loadSpelled load l s) (loadSpelled load' l s) := by
  induction s with
  | plain n =>
    refine enough_of_forall fun a ha => ?_
    cases hn : a.published? l n with
    | some c =>
      exact (unhurried_pure c).enough.of_eq (loadSpelled_plain_of_some hn)
        (loadSpelled_plain_of_some hn)
    | none =>
      exact ((hload n hs).at ⟨ha, hn⟩).of_eq (loadSpelled_plain_of_none hn)
        (loadSpelled_plain_of_none hn)
  | nested n s ih => exact ((ih hs).followed unhurried_arrayOf).orElse l _
  | object n s ih => exact ((ih hs).followed unhurried_arrayOf).orElse l _
  | unclosed n => exact (unhurried_loadBare _).enough.orElse l _
  | bare n s => exact (unhurried_loadBare _).enough.orElse l _

/-! ### How many steps are enough -/

end

/-- The names of the definitions of the loaders. -/
def definedNames (a : Area) : List (LoaderId × String) :=
  a.loaders.entries.flatMap fun e => e.2.definitions.entries.map fun d => (e.1, d.1)

lemma length_definedNames (a : Area) : a.definedNames.length = a.definitionCount :=
  Table.length_flatMap_entries fun _ => List.length_map _

lemma mem_definedNames (h : a.definition? l name ≠ none) : (l, name) ∈ a.definedNames := by
  obtain ⟨d, hd⟩ := Option.ne_none_iff_exists'.1 h
  obtain ⟨data, hdata, hd⟩ := Option.bind_eq_some_iff.1 hd
  exact List.mem_flatMap.2 ⟨(l, data), Table.mem_entries_of_get? hdata,
    List.mem_map.2 ⟨(name, d), Table.mem_entries_of_get? hd, rfl⟩⟩

/-- How many definitions are left that are not entered yet. -/
def left (a : Area) (ds : List (LoaderId × String)) : Nat :=
  (a.definedNames.toFinset \ ds.toFinset).card

lemma left_le (a : Area) (ds : List (LoaderId × String)) : a.left ds ≤ a.definitionCount := by
  rw [← length_definedNames]
  exact (Finset.card_le_card Finset.sdiff_subset).trans (List.toFinset_card_le _)

/-- A definition that is entered is left no more. -/
lemma left_cons {ds : List (LoaderId × String)} (hnew : (l, name) ∉ ds)
    (h : a.definition? l name ≠ none) : a.left ((l, name) :: ds) < a.left ds := by
  unfold left
  rw [List.toFinset_cons, Finset.sdiff_insert]
  refine Finset.card_erase_lt_of_mem (Finset.mem_sdiff.2 ⟨?_, ?_⟩)
  · exact List.mem_toFinset.2 (mem_definedNames h)
  · exact fun hmem => hnew (List.mem_toFinset.1 hmem)

/-- A class that is asked for without end is not loaded in any number of steps. -/
lemma loadPlain_of_not_settles (hmissing : a.published? l name = none)
    (h : ¬ a.Settles name l) (n : Nat) :
    loadPlain n l name a = .error (.unboundedLoading name) a := by
  induction n generalizing l with
  | zero => rfl
  | succ n ih =>
    cases hd : a.asks? name l with
    | none => exact absurd (.done hd) h
    | some d =>
      obtain ⟨hdefiner, hne, hnone⟩ := asks?_eq_some.1 hd
      have hrest := ih hnone fun hsettles => h (.ask hd hsettles)
      rw [loadPlain_of_definer? hdefiner, if_neg hne]
      exact handOver_of_error ((loadSpelled_plain_of_none hnone).trans hrest) l

/-- If the class is asked for without end, all numbers of steps are alike. -/
lemma enough_of_not_settles (hplain : IsPlain name) (hmissing : a.published? l name = none)
    (h : ¬ a.Settles name l) (n n' : Nat) :
    Enough (· = a) (loadPlain n l name) (loadPlain n' l name) := by
  constructor
  · rintro _ rfl
    rw [loadPlain_of_not_settles hmissing h, loadPlain_of_not_settles hmissing h]
  · rintro _ m b rfl hrun
    rw [loadPlain_of_not_settles hmissing h] at hrun
    cases hrun
    exact ⟨hplain, l, hmissing, h⟩

/-- If at last a loader defines the class itself, it takes a step for each loader that is asked, and
then what is enough to define the class. -/
lemma SettlesIn.enough (h : a.SettlesIn name k l) (bound : Nat)
    (hdefine : ∀ d n n', bound ≤ n → n ≤ n' → Enough (· = a)
      (defineClass (fun s => loadSpelled (loadPlain n) d (.ofName s)) d name)
      (defineClass (fun s => loadSpelled (loadPlain n') d (.ofName s)) d name))
    {n n' : Nat} (hn : bound + k + 1 ≤ n) (hle : n ≤ n') :
    Enough (· = a) (loadPlain n l name) (loadPlain n' l name) := by
  have hrecord : ∀ l (c : Class), Unhurried (do recordLoaded l c; return c : AreaM Class) :=
    fun l c => (unhurried_recordLoaded l c).bind fun _ => unhurried_pure c
  induction k generalizing l n n' with
  | zero =>
    obtain ⟨n, rfl⟩ : ∃ i, n = i + 1 := ⟨n - 1, by omega⟩
    obtain ⟨n', rfl⟩ : ∃ i, n' = i + 1 := ⟨n' - 1, by omega⟩
    rcases asks?_eq_none h with hnobody | hself | ⟨d, c, hne, hd, hc⟩
    · exact (unhurried_throw fun _ h => by cases h).enough.of_eq
        (loadPlain_of_nobody hnobody) (loadPlain_of_nobody hnobody)
    · refine (hdefine l n n' (by omega) (by omega)).of_eq ?_ ?_ <;>
        rw [loadPlain_of_definer? hself, if_pos rfl]
    · refine (hrecord l c).enough.of_eq ?_ ?_ <;>
        rw [loadPlain_of_definer? hd, if_neg hne, handOver_of_ok (loadSpelled_plain_of_some hc)]
  | succ k ih =>
    obtain ⟨n, rfl⟩ : ∃ i, n = i + 1 := ⟨n - 1, by omega⟩
    obtain ⟨n', rfl⟩ : ∃ i, n' = i + 1 := ⟨n' - 1, by omega⟩
    obtain ⟨d, hd, hrest⟩ := h
    obtain ⟨hdefiner, hne, hnone⟩ := asks?_eq_some.1 hd
    have hnext : Enough (· = a) (loadPlain n d name) (loadPlain n' d name) :=
      ih hrest (by omega) (by omega)
    refine (hnext.followed (hrecord l)).of_eq ?_ ?_ <;>
      rw [loadPlain_of_definer? hdefiner, if_neg hne, handOver,
        bind_of_eq (loadSpelled_plain_of_none hnone)]

/-- For each definition that is left the loaders may be asked once, and once more. -/
lemma enough_loadPlain {start : Area} {ds : List (LoaderId × String)} {n n' : Nat}
    (hn : (start.left ds + 1) * (start.loaders.size + 1) ≤ n) (hle : n ≤ n') (l : LoaderId)
    (hplain : IsPlain name) :
    Enough (fun a => Within start ds a ∧ a.published? l name = none) (loadPlain n l name)
      (loadPlain n' l name) := by
  induction hleft : start.left ds using Nat.strong_induction_on generalizing ds n n' l name with
  | h count ih =>
    subst hleft
    refine enough_of_forall fun a hstate => ?_
    obtain ⟨ha, hmissing⟩ := hstate
    by_cases hsettles : a.Settles name l
    · obtain ⟨k, hk, hasked⟩ := hsettles.exists_settlesIn ha.sound
      rw [ha.grown.size] at hk
      rw [Nat.add_mul, Nat.one_mul] at hn
      refine hasked.enough (start.left ds * (start.loaders.size + 1)) ?_ (by omega) hle
      intro d n n' hn hle
      have hsteps : ∀ s, Performs Balanced Sound (loadSpelled (loadPlain n) d (.ofName s))
          fun _ _ => True := fun s =>
        performs_loadSpelled_balanced (fun _ => performs_loadPlain_balanced n d)
          (Spelling.proper_ofName s)
      refine (enough_defineClass (fun hnew hd s => ?_) hsteps).at ha
      have hless := left_cons hnew hd
      refine enough_loadSpelled (fun m hm => ?_) (Spelling.proper_ofName s)
      refine ih _ hless (le_trans ?_ hn) hle d hm rfl
      exact Nat.mul_le_mul_right _ hless
    · exact enough_of_not_settles hplain hmissing hsettles n n'

/-- As many steps as `loadBound` says are enough to load any class. -/
lemma Sound.enough_loadWithin (ha : a.Sound) (l : LoaderId) (name : String) {steps : Nat}
    (hsteps : a.loadBound ≤ steps) :
    Enough (· = a) (loadWithin a.loadBound l name) (loadWithin steps l name) := by
  refine Enough.at (P := Within a a.defining) ?_ ⟨ha, .refl a, rfl⟩
  refine enough_loadSpelled (fun m hm => ?_) (Spelling.proper_ofName name)
  refine enough_loadPlain (le_trans ?_ (Nat.le_succ _)) hsteps l hm
  exact Nat.mul_le_mul_right _ (Nat.succ_le_succ (left_le a _))

/-- What is asked for without end was so before other classes were loaded. -/
lemma Endless.of_grown (h : b.Endless m) (hgrown : Grown a b) : a.Endless m := by
  obtain ⟨hplain, x, hmissing, hasked⟩ := h
  refine ⟨hplain, x, ?_, fun hx => hasked (hx.grown hgrown)⟩
  rw [Option.eq_none_iff_forall_ne_some]
  intro c hc
  rw [hgrown.kept x m c hc] at hmissing
  cases hmissing

end Area

namespace Resolver

variable {start r : Resolver}

/-- When loading ends. `loadBound` says how many steps are enough to load any class by any loader:
more of them change nothing. If they are not, then some class is asked for without end, and these
are the classes that some loader does not load in any number of steps. Without circles of parents
there are none. -/
theorem loading_ends (hstart : start.area = Area.initial) (hrun : Run start r) :
    (∀ l name steps, r.area.loadBound ≤ steps →
      Area.loadWithin steps l name r.area = Area.load l name r.area) ∧
    (∀ l name m b, Area.load l name r.area = .error (.unboundedLoading m) b → r.area.Endless m) ∧
    (∀ m, r.area.Endless m ↔
      ∃ l, ∀ steps, Area.loadWithin steps l m r.area = .error (.unboundedLoading m) r.area) ∧
    (r.area.Acyclic → ∀ m, ¬ r.area.Endless m) := by
  have hr : r.area.Sound := (hrun.evolves (hstart ▸ Area.initial_sound)).sound
    (hstart ▸ Area.initial_sound)
  have hends : ∀ l name m b, Area.load l name r.area = .error (.unboundedLoading m) b →
      r.area.Endless m := by
    intro l name m b hload
    have hsteps : ReflTransGen Area.LoadStep r.area (finalState (Area.load l name) r.area) :=
      (Area.confined_loading.load trivial name r.area hr).1
    rw [finalState_of_error hload] at hsteps
    refine Area.Endless.of_grown ?_ (Area.Grown.of_steps hsteps)
    exact (hr.enough_loadWithin l name le_rfl).ends r.area m b rfl hload
  refine ⟨fun l name steps hsteps => ?_, hends, fun m => ⟨?_, ?_⟩, fun hacyclic m => ?_⟩
  · exact ((hr.enough_loadWithin l name hsteps).same r.area rfl).symm
  · rintro ⟨hplain, l, hmissing, hasked⟩
    refine ⟨l, fun steps => ?_⟩
    rw [Area.loadWithin, Spelling.ofName_eq_plain hplain, Area.loadSpelled_plain_of_none hmissing]
    exact Area.loadPlain_of_not_settles hmissing hasked steps
  · rintro ⟨l, hunbounded⟩
    exact hends l m m r.area (hunbounded r.area.loadBound)
  · rintro ⟨-, l, -, hasked⟩
    exact hasked (hacyclic.settles hr m l)

/-- Two loaders that are each other's parents, and a class that the first one can define; the second
one may have a definition of it as well. -/
def circlingOperations (both : Bool) : List Operation :=
  [.addLoader ⟨2⟩ false,
    .addLoader ⟨1⟩ false,
    .define ⟨1⟩ { name := "p/X", flags := Flag.accPublic.mask }] ++
  if both then [.define ⟨2⟩ { name := "p/X", flags := Flag.accPublic.mask }] else []

/-- The resolver with these loaders. -/
def circling (both : Bool) : Resolver :=
  performAll (circlingOperations both) { area := Area.initial }

lemma run_circling (both : Bool) : Run { area := Area.initial } (circling both) := by
  refine run_performAll (fun op hop r => ?_) _
  cases both <;> simp [circlingOperations] at hop <;>
    rcases hop with rfl | rfl | rfl | rfl <;> trivial

/-- The class that is nowhere to be found when the second loader is asked for the class, and the
loader that was asked for it. -/
def unknownBy (r : Resolver) : Option (String × LoaderId) :=
  match Area.load ⟨2⟩ "p/X" r.area with
  | .error (.classUnknown name l) _ => some (name, l)
  | _ => none

/-- If only the first loader of the circle can define the class, the second one asks it and loading
ends, although with no superclass to be found. -/
theorem circling_class_refused : ∃ b, ∀ steps, (circling false).area.loadBound ≤ steps →
    Area.loadWithin steps ⟨2⟩ "p/X" (circling false).area =
      .error (.classUnknown objectName ⟨1⟩) b := by
  have hunknown : unknownBy (circling false) = some (objectName, ⟨1⟩) := by decide +kernel
  have hload : ∃ b, Area.load ⟨2⟩ "p/X" (circling false).area =
      .error (.classUnknown objectName ⟨1⟩) b := by
    unfold unknownBy at hunknown
    split at hunknown
    · next name l b hload =>
      cases hunknown
      exact ⟨b, hload⟩
    · cases hunknown
  obtain ⟨b, hload⟩ := hload
  refine ⟨b, fun steps hsteps => ?_⟩
  rw [(loading_ends rfl (run_circling false)).1 ⟨2⟩ "p/X" steps hsteps, hload]

/-- A class that both loaders of the circle can define is never loaded: each asks the other one. -/
theorem circling_class_not_loaded : Run { area := Area.initial } (circling true) ∧
    ∀ steps, Area.loadWithin steps ⟨1⟩ "p/X" (circling true).area =
      .error (.unboundedLoading "p/X") (circling true).area := by
  have hfirst : (circling true).area.asks? "p/X" ⟨1⟩ = some ⟨2⟩ := by decide +kernel
  have hsecond : (circling true).area.asks? "p/X" ⟨2⟩ = some ⟨1⟩ := by decide +kernel
  have hasked : ∀ l, (circling true).area.Settles "p/X" l → l ≠ ⟨1⟩ ∧ l ≠ ⟨2⟩ := by
    intro l hl
    induction hl with
    | @done l hnone => constructor <;> rintro rfl <;> simp_all
    | @ask l d hd _ ih => constructor <;> rintro rfl <;> simp_all
  have hmissing : (circling true).area.published? ⟨1⟩ "p/X" = none :=
    Option.isNone_iff_eq_none.1 (by decide +kernel)
  refine ⟨run_circling true, fun steps => ?_⟩
  rw [Area.loadWithin, Spelling.ofName_eq_plain (by decide),
    Area.loadSpelled_plain_of_none hmissing]
  exact Area.loadPlain_of_not_settles hmissing (fun hl => (hasked _ hl).1 rfl) steps

end Resolver

end Linkage
