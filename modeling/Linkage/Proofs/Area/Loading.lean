import Linkage.Proofs.Area.Delegation

/-!
# What loading gives

A class that a loader has loaded is in its table: nothing that happens while a class is on its way
to a loader puts another class of that name there first. The loaders that wait for the class are
stuck until it is there. Each of them is to ask another of them, or is defining the class itself, so
every nested attempt to load the class through one of them fails.
-/

namespace Linkage

open Relation

namespace Area

variable {a b : Area} {name : String} {waiting : List LoaderId} {next : LoaderId → LoaderId}

/-- Loaders that cannot get a class for now: each is to ask another of them for it, or is defining
it. -/
structure Stuck (name : String) (waiting : List LoaderId) (next : LoaderId → LoaderId) (a : Area) :
    Prop where
  missing : ∀ x ∈ waiting, a.published? x name = none
  asks : ∀ x ∈ waiting, a.definer? x name = some (next x)
  closed : ∀ x ∈ waiting, next x ∈ waiting
  busy : ∀ x ∈ waiting, next x = x → (x, name) ∈ a.defining

/-! ### Defining a class -/

/-- The area when the definition of a class begins. -/
def entering (a : Area) (l : LoaderId) (name : String) : Area :=
  { a with defining := (l, name) :: a.defining }

/-- The area when the definition of a class ends. -/
def leaving (a : Area) (l : LoaderId) (name : String) : Area :=
  { a with defining := a.defining.erase (l, name) }

/-- The area when a loader has got a class that the constraints let it have. -/
def recorded (a : Area) (l : LoaderId) (c : Class) (t : Constraints) : Area :=
  { a.withClass l c with constraints := t }

lemma grown_entering (a : Area) (l : LoaderId) (name : String) : Grown a (a.entering l name) :=
  ⟨rfl, fun _ => rfl, fun _ _ _ h => h⟩

lemma recorded_published? {l l' : LoaderId} {c : Class} {t : Constraints} {n : String} :
    (a.recorded l c t).published? l' n =
      if l = l' ∧ c.name = n ∧ (a.loaders.get? l).isSome then (a.published? l' n).or (some c)
      else a.published? l' n :=
  published?_withClass l l' c n

lemma grown_recorded (a : Area) (l : LoaderId) (c : Class) (t : Constraints) :
    Grown a (a.recorded l c t) := by
  obtain ⟨hsize, hshape, hkept⟩ := grown_withClass a l c
  exact ⟨hsize, hshape, hkept⟩

lemma defineClass_of_mem {load : String → AreaM Class} {l : LoaderId}
    (h : (l, name) ∈ a.defining) : defineClass load l name a = .error (.circularity name) a := by
  unfold defineClass
  rw [bind_of_ok (get_apply a), if_pos h]
  rfl

lemma whileDefining_of_ok {α : Type} {x : AreaM α} {l : LoaderId} {v : α}
    (h : x (a.entering l name) = .ok v b) :
    whileDefining l name x a = .ok v (b.leaving l name) := by
  change x { a with defining := (l, name) :: a.defining } = _ at h
  rw [whileDefining_eq, h]
  rfl

lemma whileDefining_of_error {α : Type} {x : AreaM α} {l : LoaderId} {e : Fault}
    (h : x (a.entering l name) = .error e b) :
    whileDefining l name x a = .error e (b.leaving l name) := by
  change x { a with defining := (l, name) :: a.defining } = _ at h
  rw [whileDefining_eq, h]
  rfl

lemma defineClass_of_not_mem (load : String → AreaM Class) {l : LoaderId}
    (h : (l, name) ∉ a.defining) : defineClass load l name a = (do
      let c ← whileDefining l name (derive load l name)
      recordLoaded l c
      modify fun a => { a with loads := a.loads + 1 }
      return c : AreaM Class) a := by
  unfold defineClass
  rw [bind_of_ok (get_apply a), if_neg h]

/-- Defining a class links it and then gives it to the loader, and either may fail. -/
lemma defineClass_cases (load : String → AreaM Class) {l : LoaderId} (h : (l, name) ∉ a.defining) :
    (∃ e b, derive load l name (a.entering l name) = .error e b ∧
      defineClass load l name a = .error e (b.leaving l name)) ∨
    ∃ c b, derive load l name (a.entering l name) = .ok c b ∧
      ((∃ e, defineClass load l name a = .error e (b.leaving l name)) ∨
        ∃ t, (b.loaders.get? l).isSome = true ∧
          defineClass load l name a =
            .ok c { (b.leaving l name).recorded l c t with loads := b.loads + 1 }) := by
  have hrun := defineClass_of_not_mem load h
  cases hderive : derive load l name (a.entering l name) with
  | error e b =>
    exact .inl ⟨e, b, rfl, hrun.trans (bind_of_error (whileDefining_of_error hderive))⟩
  | ok c b =>
    refine .inr ⟨c, b, rfl, ?_⟩
    rw [hrun, bind_of_ok (whileDefining_of_ok hderive)]
    rcases recordLoaded_cases l c (b.leaving l name) with ⟨e, hrecord⟩ | ⟨t, -, hl, hrecord⟩
    · exact .inl ⟨e, bind_of_error hrecord⟩
    · exact .inr ⟨t, hl, bind_of_ok hrecord⟩

/-- Whether it fails or not, defining a class changes what linking changes, and at most the loader
gets the class besides. -/
lemma finalState_defineClass (load : String → AreaM Class) {l : LoaderId}
    (h : (l, name) ∉ a.defining) :
    ∃ b, finalState (derive load l name) (a.entering l name) = b ∧
      (finalState (defineClass load l name) a = b.leaving l name ∨
        ∃ c t, derive load l name (a.entering l name) = .ok c b ∧
          (b.loaders.get? l).isSome = true ∧
          finalState (defineClass load l name) a =
            { (b.leaving l name).recorded l c t with loads := b.loads + 1 }) := by
  rcases defineClass_cases load h with ⟨e, b, hb, hrun⟩ | ⟨c, b, hb, ⟨e, hrun⟩ | ⟨t, hl, hrun⟩⟩
  · exact ⟨b, finalState_of_error hb, .inl (finalState_of_error hrun)⟩
  · exact ⟨b, finalState_of_ok hb, .inl (finalState_of_error hrun)⟩
  · exact ⟨b, finalState_of_ok hb, .inr ⟨c, t, hb, hl, finalState_of_ok hrun⟩⟩

/-! ### Getting a class from another loader -/

/-- Gives a loader the class that another one loads. -/
def handOver (load : AreaM Class) (l : LoaderId) : AreaM Class := do
  let c ← load
  recordLoaded l c
  return c

/-- Whether it fails or not, getting a class from another loader changes what loading changes there,
and at most the loader gets the class besides. -/
lemma finalState_handOver (load : AreaM Class) (l : LoaderId) (a : Area) :
    ∃ b, finalState load a = b ∧ (finalState (handOver load l) a = b ∨
      ∃ c t, load a = .ok c b ∧ finalState (handOver load l) a = b.recorded l c t) := by
  unfold handOver
  rw [finalState_bind]
  cases hrun : load a with
  | error e b => exact ⟨b, finalState_of_error hrun, .inl rfl⟩
  | ok c b =>
    refine ⟨b, finalState_of_ok hrun, ?_⟩
    dsimp only
    rw [finalState_bind]
    rcases recordLoaded_cases l c b with ⟨e, hrecord⟩ | ⟨t, -, -, hrecord⟩ <;> rw [hrecord]
    · exact .inl rfl
    · exact .inr ⟨c, t, rfl, rfl⟩

lemma handOver_of_ok {load : AreaM Class} {c : Class} (h : load a = .ok c b) (l : LoaderId) :
    handOver load l a = (do recordLoaded l c; return c : AreaM Class) b := bind_of_ok h

lemma handOver_of_error {load : AreaM Class} {e : Fault} (h : load a = .error e b) (l : LoaderId) :
    handOver load l a = .error e b := bind_of_error h

lemma handOver_eq_ok {load : AreaM Class} {l : LoaderId} {c : Class}
    (h : handOver load l a = .ok c b) :
    ∃ a' t, load a = .ok c a' ∧ (a'.loaders.get? l).isSome = true ∧ b = a'.recorded l c t := by
  obtain ⟨c', a', hload, h⟩ := bind_eq_ok.1 h
  obtain ⟨⟨⟩, b', hrecord, h⟩ := bind_eq_ok.1 h
  cases h
  rcases recordLoaded_cases l c a' with ⟨e, hrecord'⟩ | ⟨t, -, hl, hrecord'⟩ <;>
    rw [hrecord] at hrecord' <;> cases hrecord'
  exact ⟨a', t, hload, hl, rfl⟩

/-- If the class that another loader gave is refused, nothing is changed any more. -/
lemma handOver_eq_error {load : AreaM Class} {l : LoaderId} {e : Fault}
    (h : handOver load l a = .error e b) : load a = .error e b ∨ ∃ c, load a = .ok c b := by
  rcases bind_eq_error.1 h with hload | ⟨c, a', hload, h⟩
  · exact .inl hload
  · rcases bind_eq_error.1 h with hrecord | ⟨⟨⟩, b', -, h⟩
    · rcases recordLoaded_cases l c a' with ⟨e', hrecord'⟩ | ⟨t, -, -, hrecord'⟩ <;>
        rw [hrecord] at hrecord' <;> cases hrecord'
      exact .inr ⟨c, hload⟩
    · cases h

/-! ### Attempts that fail -/

lemma loadSpelled_plain_of_none {loadPlain : LoaderId → String → AreaM Class} {l : LoaderId}
    (h : a.published? l name = none) :
    loadSpelled loadPlain l (.plain name) a = loadPlain l name a := by
  have hfind : findSpelled l (.plain name) a = .ok none a := by
    change EStateM.Result.ok (a.published? l name) a = _
    rw [h]
  exact bind_of_ok hfind

lemma loadSpelled_plain_of_some {loadPlain : LoaderId → String → AreaM Class} {l : LoaderId}
    {c : Class} (h : a.published? l name = some c) :
    loadSpelled loadPlain l (.plain name) a = .ok c a := by
  have hfind : findSpelled l (.plain name) a = .ok (some c) a := by
    change EStateM.Result.ok (a.published? l name) a = _
    rw [h]
  exact bind_of_ok hfind

lemma loadPlain_of_nobody {n : Nat} {l : LoaderId} (h : a.definer? l name = none) :
    loadPlain (n + 1) l name a = .error (.classUnknown name l) a := by
  rw [loadPlain, bind_of_ok (get_apply a)]
  simp only [h]
  rfl

lemma loadPlain_of_definer? {n : Nat} {l d : LoaderId} (h : a.definer? l name = some d) :
    loadPlain (n + 1) l name a =
      (if d = l then defineClass (fun s => loadSpelled (loadPlain n) l (.ofName s)) l name
      else handOver (loadSpelled (loadPlain n) d (.plain name)) l) a := by
  rw [loadPlain, bind_of_ok (get_apply a)]
  simp only [h]
  rfl

/-- Loading the class through a loader that is stuck fails and changes nothing. -/
lemma Stuck.loadPlain (h : Stuck name waiting next a) {x : LoaderId} (hx : x ∈ waiting) (n : Nat) :
    ∃ e, loadPlain n x name a = .error e a := by
  induction n generalizing x with
  | zero => exact ⟨_, rfl⟩
  | succ n ih =>
    rw [loadPlain_of_definer? (h.asks x hx)]
    by_cases hself : next x = x
    · rw [if_pos hself, defineClass_of_mem (h.busy x hx hself)]
      exact ⟨_, rfl⟩
    · have hnext := h.closed x hx
      obtain ⟨e, he⟩ := ih hnext
      rw [if_neg hself]
      exact ⟨e, handOver_of_error (by rw [loadSpelled_plain_of_none (h.missing _ hnext), he]) x⟩

/-! ### Loads that go on elsewhere -/

/-- What has no effect on who has the class leaves the loaders stuck. -/
lemma Stuck.of_same (h : Stuck name waiting next a) (hgrown : Grown a b)
    (hpublished : ∀ l, b.published? l name = a.published? l name)
    (hbusy : ∀ x ∈ waiting, next x = x → (x, name) ∈ a.defining → (x, name) ∈ b.defining) :
    Stuck name waiting next b where
  missing x hx := (hpublished x).trans (h.missing x hx)
  asks x hx := by
    rw [hgrown.definer?_eq (fun l => hgrown.knows_eq_of_published (hpublished l))]
    exact h.asks x hx
  closed := h.closed
  busy x hx hself := hbusy x hx hself (h.busy x hx hself)

lemma Stuck.array (h : Stuck name waiting next a) (hplain : IsPlain name) (hstep : ArrayStep a b) :
    Stuck name waiting next b := by
  have hgrown := (LoadStep.array hstep).grown
  cases hstep with
  | identity => exact h.of_same hgrown (fun _ => rfl) fun _ _ _ hx => hx
  | array d s is component =>
    refine h.of_same hgrown (fun l => ?_) fun _ _ _ hx => hx
    rw [published?_withClass, if_neg]
    rintro ⟨-, hname, -⟩
    exact Class.not_isPlain_array d s is component (hname ▸ hplain)

/-- A loader that is not stuck gets a class. If it is the class that the others wait for, then the
loader knew it or was sent to a loader that is not stuck either. -/
lemma Stuck.record (h : Stuck name waiting next a) {y : LoaderId} {c : Class} {t : Constraints}
    (hy : c.name = name → y ∉ waiting)
    (hasks : c.name = name → ∀ x ∈ waiting,
      (a.recorded y c t).definer? x name = some (next x)) :
    Stuck name waiting next (a.recorded y c t) := by
  by_cases hname : c.name = name
  · refine ⟨fun x hx => ?_, hasks hname, h.closed, h.busy⟩
    have hne : ¬ (y = x ∧ c.name = name ∧ (a.loaders.get? y).isSome = true) := by
      rintro ⟨rfl, -⟩
      exact hy hname hx
    rw [recorded_published?, if_neg hne]
    exact h.missing x hx
  · refine h.of_same (grown_recorded a y c t) (fun l => ?_) fun _ _ _ hx => hx
    rw [recorded_published?, if_neg fun hcond => hname hcond.2.1]

/-- The tables fit together and the loaders are stuck. -/
def Waits (name : String) (waiting : List LoaderId) (next : LoaderId → LoaderId) (a : Area) :
    Prop :=
  a.Sound ∧ Stuck name waiting next a

/-- A change after which the loaders are still stuck. -/
def WaitStep (name : String) (waiting : List LoaderId) (next : LoaderId → LoaderId)
    (a b : Area) : Prop :=
  Waits name waiting next a → Waits name waiting next b

lemma waits_stable : Stable (WaitStep name waiting next) (Waits name waiting next) :=
  fun _ _ hstep ha => hstep ha

lemma waitStep_array (hplain : IsPlain name) (a b : Area) (h : ArrayStep a b) :
    WaitStep name waiting next a b :=
  fun ha => ⟨sound_stable_loading a b (.array h) ha.1, ha.2.array hplain h⟩

/-- An operation after which the loaders are still stuck, and which only loads classes. -/
lemma performs_of_stuck {α : Type} {x : AreaM α} {Q : α → Area → Prop}
    (hx : Performs LoadStep Sound x Q)
    (hstuck : ∀ a, Waits name waiting next a → Stuck name waiting next (finalState x a)) :
    Performs (WaitStep name waiting next) (Waits name waiting next) x Q := by
  intro a ha
  obtain ⟨hsteps, hq⟩ := hx a ha.1
  refine ⟨.single fun _ => ⟨?_, hstuck a ha⟩, hq⟩
  exact sound_stable_loading.reflTransGen hsteps ha.1

/-- A definition that begins elsewhere, or of another class. -/
lemma Waits.entering (h : Waits name waiting next a) (y : LoaderId) (m : String) :
    Waits name waiting next (a.entering y m) :=
  ⟨sound_stable_loading _ _ (.enter a y m) h.1,
    h.2.of_same (grown_entering a y m) (fun _ => rfl)
      fun _ _ _ hx => List.mem_cons_of_mem _ hx⟩

/-- A definition that ends elsewhere, or of another class. -/
lemma Stuck.leaving (h : Stuck name waiting next a) {y : LoaderId} {m : String}
    (hother : ∀ x ∈ waiting, next x = x → (x, name) ≠ (y, m)) :
    Stuck name waiting next (a.leaving y m) :=
  h.of_same ⟨rfl, fun _ => rfl, fun _ _ _ h => h⟩ (fun _ => rfl)
    fun x hx hself hmem => (List.mem_erase_of_ne (hother x hx hself)).2 hmem

/-- Defining a class keeps the loaders stuck that wait for another one, or for this one to be
defined elsewhere. -/
lemma Stuck.defineClass {load : String → AreaM Class} (hplain : IsPlain name)
    (hsteps : ∀ n, Performs LoadStep Sound (load n) fun _ _ => True)
    (hload : ∀ n, Performs (WaitStep name waiting next) (Waits name waiting next) (load n)
      fun _ _ => True)
    (h : Waits name waiting next a) {y : LoaderId} {m : String}
    (hself : m = name → a.definer? y name = some y) :
    Stuck name waiting next (finalState (defineClass load y m) a) := by
  by_cases hmem : (y, m) ∈ a.defining
  · rw [finalState_of_error (defineClass_of_mem hmem)]
    exact h.2
  · have hother : ∀ x ∈ waiting, next x = x → (x, name) ≠ (y, m) := by
      intro x hx hnext heq
      exact hmem (heq ▸ h.2.busy x hx hnext)
    have hderive := performs_derive waits_stable (fun _ h => h.1) (waitStep_array hplain) hload y m
    have hlinked := performs_derive sound_stable_loading (fun _ h => h)
      (fun _ _ => LoadStep.array) hsteps y m
    have henter := h.entering y m
    obtain ⟨hwait, hname⟩ := hderive _ henter
    replace hwait := waits_stable.reflTransGen hwait henter
    have hgrown := Grown.of_steps (hlinked _ henter.1).1
    obtain ⟨b, hb, hrun | ⟨c, t, hc, -, hrun⟩⟩ := finalState_defineClass load hmem <;>
      rw [hb] at hwait hgrown <;> rw [hrun]
    · exact hwait.2.leaving hother
    · have hcname : c.name = m := hname c b hc
      have hleft := hwait.2.leaving hother
      have hrecorded : Stuck name waiting next ((b.leaving y m).recorded y c t) := by
        refine hleft.record (fun hc hy => ?_) fun hc x hx => ?_
        · -- A loader that waits and is to define the class is defining it.
          have hm : m = name := hcname.symm.trans hc
          have hnext := (h.2.asks y hy).symm.trans (hself hm)
          refine hother y hy (Option.some.inj hnext) ?_
          rw [hm]
        · have hm : m = name := hcname.symm.trans hc
          have hgrown : Grown a (b.leaving y m) := ⟨hgrown.size, hgrown.shape, hgrown.kept⟩
          have hknows := hgrown.knows (knows_of_definer? (hself hm))
          rw [(grown_recorded _ y c t).definer?_eq fun l => ?_]
          · exact hleft.asks x hx
          · by_cases hl : l = y
            · rw [hl, hknows, (grown_recorded _ y c t).knows hknows]
            · refine (grown_recorded _ y c t).knows_eq_of_published ?_
              rw [recorded_published?, if_neg fun hcond => hl hcond.1.symm]
      exact hrecorded.of_same ⟨rfl, fun _ => rfl, fun _ _ _ h => h⟩ (fun _ => rfl)
        fun _ _ _ hx => hx

/-- Getting a class from another loader keeps the loaders stuck: that loader is not stuck if it has
the class, so nobody who waits was to ask either of the two. -/
lemma Stuck.delegate {load : AreaM Class} {m : String} {y w : LoaderId}
    (hsteps : Performs LoadStep Sound load fun c _ => c.name = m)
    (hload : Performs (WaitStep name waiting next) (Waits name waiting next) load
      fun _ _ => True)
    (h : Waits name waiting next a) (hw : a.definer? y m = some w) (hwy : w ≠ y)
    (hfails : m = name → w ∈ waiting → ∃ e, load a = .error e a) :
    Stuck name waiting next (finalState (handOver load y) a) := by
  have hwait := waits_stable.reflTransGen (hload a h).1 h
  have hgrown := Grown.of_steps (hsteps a h.1).1
  obtain ⟨b, hb, hrun | ⟨c, t, hc, hrun⟩⟩ := finalState_handOver load y a <;>
    rw [hb] at hwait hgrown <;> rw [hrun]
  · exact hwait.2
  · have hcname : c.name = m := (hsteps a h.1).2 c b hc
    have hfree : m = name → w ∉ waiting := by
      intro hm hmem
      obtain ⟨e, he⟩ := hfails hm hmem
      rw [hc] at he
      cases he
    refine hwait.2.record (fun hc hy => ?_) fun hc x hx => ?_
    · have hm : m = name := hcname.symm.trans hc
      subst hm
      have hnext := Option.some.inj ((h.2.asks y hy).symm.trans hw)
      exact hfree rfl (hnext ▸ h.2.closed y hy)
    · have hm : m = name := hcname.symm.trans hc
      subst hm
      refine definer?_of_got h.1 hgrown (grown_recorded b y c t) (h.2.asks x hx)
        (hwait.2.asks x hx) hw (fun heq => ?_) (fun heq => ?_) fun l hl => ?_
      · exact hfree rfl (heq ▸ h.2.closed x hx)
      · subst heq
        have hnext := Option.some.inj ((h.2.asks x hx).symm.trans hw)
        exact hfree rfl (hnext ▸ h.2.closed x hx)
      · refine (grown_recorded b y c t).knows_eq_of_published ?_
        rw [recorded_published?, if_neg fun hcond => hl hcond.1.symm]

/-- Whatever is loaded meanwhile, loaders that are stuck stay so. -/
lemma performs_loadPlain_stuck (hplain : IsPlain name) (n : Nat) (y : LoaderId) {m : String}
    (hm : IsPlain m) :
    Performs (WaitStep name waiting next) (Waits name waiting next) (loadPlain n y m)
      fun c _ => c.name = m := by
  induction n generalizing y m with
  | zero => exact .throw _
  | succ n ih =>
    refine performs_of_stuck (performs_loadPlain (n + 1) y hm) fun a ha => ?_
    have hspelled : ∀ l {s : Spelling}, s.Proper →
        Performs (WaitStep name waiting next) (Waits name waiting next)
          (loadSpelled (loadPlain n) l s) fun c _ => ∀ n, s = .plain n → c.name = n := fun l _ =>
      performs_loadSpelled waits_stable (fun _ h => h.1) (waitStep_array hplain) fun n => ih l
    have hsteps : ∀ l {s : Spelling}, s.Proper → Performs LoadStep Sound
        (loadSpelled (loadPlain n) l s) fun c _ => ∀ n, s = .plain n → c.name = n := fun l _ =>
      performs_loadSpelled sound_stable_loading (fun _ h => h) (fun _ _ => LoadStep.array)
        fun _ => performs_loadPlain n l
    cases hd : a.definer? y m with
    | none =>
      rw [finalState_of_error (loadPlain_of_nobody hd)]
      exact ha.2
    | some w =>
      rw [finalState_congr (loadPlain_of_definer? hd)]
      split
      · next hself =>
        subst hself
        refine Stuck.defineClass hplain (fun s => ?_) (fun s => ?_) ha fun h => h ▸ hd
        · exact (hsteps w (Spelling.proper_ofName s)).weaken (fun _ h => h) fun _ _ _ => trivial
        · exact (hspelled w (Spelling.proper_ofName s)).weaken (fun _ h => h) fun _ _ _ => trivial
      · next hne =>
        refine Stuck.delegate (m := m) (w := w) ?_ ?_ ha hd hne fun h hw => ?_
        · exact (hsteps w (s := .plain m) hm).weaken (fun _ h => h) fun _ _ h => h m rfl
        · exact (hspelled w (s := .plain m) hm).weaken (fun _ h => h) fun _ _ _ => trivial
        · subst h
          rw [loadSpelled_plain_of_none (ha.2.missing w hw)]
          exact ha.2.loadPlain hw n

lemma performs_loadSpelled_stuck (hplain : IsPlain name) (n : Nat) (l : LoaderId) (m : String) :
    Performs (WaitStep name waiting next) (Waits name waiting next)
      (loadSpelled (loadPlain n) l (.ofName m)) fun _ _ => True :=
  (performs_loadSpelled waits_stable (fun _ h => h.1) (waitStep_array hplain)
    (fun _ => performs_loadPlain_stuck hplain n l) (Spelling.proper_ofName m)).weaken
    (fun _ h => h) fun _ _ _ => trivial

/-! ### Loads that succeed -/

/-- Loaders that wait for a class which another loader is to get: each is to ask that loader or
another one that waits. -/
structure Awaits (name : String) (waiting : List LoaderId) (next : LoaderId → LoaderId)
    (y : LoaderId) (a : Area) : Prop where
  missing : ∀ x ∈ waiting, a.published? x name = none
  asks : ∀ x ∈ waiting, a.definer? x name = some (next x)
  closed : ∀ x ∈ waiting, next x ∈ y :: waiting
  apart : ∀ x ∈ waiting, next x ≠ x

/-- Nobody waits for a loader that is asked first. -/
lemma awaits_nil (name : String) (y : LoaderId) (a : Area) : Awaits name [] id y a :=
  ⟨by simp, by simp, by simp, by simp⟩

/-- If the loader that they wait for waits itself, nobody ever gets the class. -/
lemma Awaits.stuck {y : LoaderId} (h : Awaits name waiting next y a) (hy : y ∈ waiting) :
    Stuck name waiting next a := by
  refine ⟨h.missing, h.asks, fun x hx => ?_, fun x hx hself => (h.apart x hx hself).elim⟩
  rcases List.mem_cons.1 (h.closed x hx) with hnext | hnext
  · exact hnext ▸ hy
  · exact hnext

lemma Awaits.not_mem {y : LoaderId} (h : Awaits name waiting next y a) {n : Nat} {c : Class}
    (hrun : loadPlain n y name a = .ok c b) : y ∉ waiting := by
  intro hy
  obtain ⟨e, he⟩ := (h.stuck hy).loadPlain hy n
  rw [hrun] at he
  cases he

/-- The loader that is waited for starts to wait for the next one. -/
lemma Awaits.extend {y d : LoaderId} (h : Awaits name waiting next y a) (hy : y ∉ waiting)
    (hmissing : a.published? y name = none) (hd : a.definer? y name = some d) :
    (∀ x ∈ y :: waiting, a.published? x name = none) ∧
      (∀ x ∈ y :: waiting, a.definer? x name = some (Function.update next y d x)) ∧
      ∀ x ∈ waiting, Function.update next y d x = next x := by
  have hupdate : ∀ x ∈ waiting, Function.update next y d x = next x := fun x hx =>
    Function.update_of_ne (fun heq : x = y => hy (heq ▸ hx)) d next
  refine ⟨fun x hx => ?_, fun x hx => ?_, hupdate⟩
  · rcases List.mem_cons.1 hx with rfl | hx
    · exact hmissing
    · exact h.missing x hx
  · rcases List.mem_cons.1 hx with rfl | hx
    · rw [Function.update_self, hd]
    · rw [hupdate x hx, h.asks x hx]

/-- The loader that is waited for asks another one, and now all of them wait for that one. -/
lemma Awaits.delegate {y d : LoaderId} (h : Awaits name waiting next y a) (hy : y ∉ waiting)
    (hmissing : a.published? y name = none) (hd : a.definer? y name = some d) (hne : d ≠ y) :
    Awaits name (y :: waiting) (Function.update next y d) d a := by
  obtain ⟨hnone, hasks, hupdate⟩ := h.extend hy hmissing hd
  refine ⟨hnone, hasks, fun x hx => ?_, fun x hx => ?_⟩
  · rcases List.mem_cons.1 hx with rfl | hx
    · rw [Function.update_self]
      exact List.mem_cons_self
    · rw [hupdate x hx]
      exact List.mem_cons_of_mem _ (h.closed x hx)
  · rcases List.mem_cons.1 hx with rfl | hx
    · rw [Function.update_self]
      exact hne
    · rw [hupdate x hx]
      exact h.apart x hx

/-- The loader that is waited for starts to define the class, and until that ends it is stuck with
those that wait for it. -/
lemma Awaits.entering {y : LoaderId} (h : Awaits name waiting next y a) (ha : a.Sound)
    (hy : y ∉ waiting) (hmissing : a.published? y name = none)
    (hself : a.definer? y name = some y) :
    Waits name (y :: waiting) (Function.update next y y) (a.entering y name) := by
  obtain ⟨hnone, hasks, hupdate⟩ := h.extend hy hmissing hself
  refine ⟨sound_stable_loading _ _ (.enter a y name) ha, hnone, fun x hx => ?_, fun x hx => ?_,
    fun x hx hnext => ?_⟩
  · rw [(grown_entering a y name).definer?_eq fun _ => rfl]
    exact hasks x hx
  · rcases List.mem_cons.1 hx with rfl | hx
    · rw [Function.update_self]
      exact List.mem_cons_self
    · rw [hupdate x hx]
      exact h.closed x hx
  · rcases List.mem_cons.1 hx with rfl | hx
    · exact List.mem_cons_self
    · rw [hupdate x hx] at hnext
      exact (h.apart x hx hnext).elim

/-- A loader that gets a class under a name that it does not have has the class then, and nobody
else has got it. -/
lemma published?_recorded {y : LoaderId} {c : Class} {t : Constraints} (hname : c.name = name)
    (hmissing : a.published? y name = none) (hy : (a.loaders.get? y).isSome = true) :
    (a.recorded y c t).published? y name = some c ∧
      ∀ x, x ≠ y → (a.recorded y c t).published? x name = a.published? x name := by
  constructor
  · rw [recorded_published?, if_pos ⟨rfl, hname, hy⟩, hmissing]
    rfl
  · intro x hx
    rw [recorded_published?, if_neg fun hcond => hx hcond.1.symm]

/-- While a loader links a class that it is to define, whether that fails or not, neither the loader
nor anyone who waits gets a class of that name. -/
lemma missing_of_derive (hplain : IsPlain name) {load : String → AreaM Class}
    (hload : ∀ waiting next n, Performs (WaitStep name waiting next) (Waits name waiting next)
      (load n) fun _ _ => True)
    {y : LoaderId} (ha : a.Sound) (hwait : Awaits name waiting next y a)
    (hy : y ∉ waiting) (hmissing : a.published? y name = none)
    (hself : a.definer? y name = some y) :
    (∀ x ∈ y :: waiting,
      (finalState (derive load y name) (a.entering y name)).published? x name = none) ∧
      ∀ c b, derive load y name (a.entering y name) = .ok c b → c.name = name := by
  have henter := hwait.entering ha hy hmissing hself
  obtain ⟨hsteps, hname⟩ := performs_derive waits_stable (fun _ h => h.1) (waitStep_array hplain)
    (hload _ _) y name _ henter
  exact ⟨(waits_stable.reflTransGen hsteps henter).2.missing, hname⟩

/-- A loader that has defined a class has it in its table, and no loader that waits has got it. -/
lemma published?_of_defineClass (hplain : IsPlain name) {load : String → AreaM Class}
    (hload : ∀ waiting next n, Performs (WaitStep name waiting next) (Waits name waiting next)
      (load n) fun _ _ => True)
    {y : LoaderId} {c : Class} (ha : a.Sound) (hwait : Awaits name waiting next y a)
    (hy : y ∉ waiting) (hmissing : a.published? y name = none)
    (hself : a.definer? y name = some y) (hrun : defineClass load y name a = .ok c b) :
    b.published? y name = some c ∧ ∀ x ∈ waiting, b.published? x name = none := by
  have hmem : (y, name) ∉ a.defining := by
    intro hmem
    rw [defineClass_of_mem hmem] at hrun
    cases hrun
  rcases defineClass_cases load hmem with ⟨e, b', hb', hrun'⟩ | ⟨c', b', hb', ⟨e, hrun'⟩ |
    ⟨t, hl, hrun'⟩⟩ <;> rw [hrun] at hrun' <;> cases hrun'
  obtain ⟨hend, hname⟩ := missing_of_derive hplain hload ha hwait hy hmissing hself
  rw [finalState_of_ok hb'] at hend
  replace hname := hname _ _ hb'
  obtain ⟨hgot, hothers⟩ := published?_recorded (a := b'.leaving y name) (t := t) hname
    (hend y List.mem_cons_self) hl
  refine ⟨hgot, fun x hx => ?_⟩
  refine (hothers x fun heq => hy (heq ▸ hx)).trans ?_
  exact hend x (List.mem_cons_of_mem _ hx)

/-- A loader that has loaded a class has it in its table, and no loader that waits has got it. -/
lemma published?_of_loadPlain (hplain : IsPlain name) {n : Nat} {y : LoaderId} {c : Class}
    (ha : a.Sound) (hwait : Awaits name waiting next y a) (hmissing : a.published? y name = none)
    (hrun : loadPlain n y name a = .ok c b) :
    b.published? y name = some c ∧ ∀ x ∈ waiting, b.published? x name = none := by
  induction n generalizing y a b waiting next with
  | zero => cases hrun
  | succ n ih =>
    have hy := hwait.not_mem hrun
    cases hd : a.definer? y name with
    | none =>
      rw [loadPlain_of_nobody hd] at hrun
      cases hrun
    | some d =>
      rw [loadPlain_of_definer? hd] at hrun
      split at hrun
      · next hself =>
        subst hself
        exact published?_of_defineClass hplain
          (fun _ _ s => performs_loadSpelled_stuck hplain n d s) ha hwait hy hmissing hd hrun
      · next hne =>
        obtain ⟨hnone, -⟩ := hwait.extend hy hmissing hd
        obtain ⟨b', t, hload, hl, rfl⟩ := handOver_eq_ok hrun
        -- The loader that was asked had the class, or it got the class while the others waited.
        have hbefore : (∀ x ∈ y :: waiting, b'.published? x name = none) ∧ c.name = name := by
          cases hfound : a.published? d name with
          | some c₀ =>
            rw [loadSpelled_plain_of_some hfound] at hload
            cases hload
            exact ⟨hnone, ha.keyed d name _ hfound⟩
          | none =>
            rw [loadSpelled_plain_of_none hfound] at hload
            have hawaits := hwait.delegate hy hmissing hd hne
            exact ⟨(ih ha hawaits hfound hload).2,
              (performs_loadPlain n d hplain a ha).2 c b' hload⟩
        obtain ⟨hgot, hothers⟩ := published?_recorded (t := t) hbefore.2
          (hbefore.1 y List.mem_cons_self) hl
        refine ⟨hgot, fun x hx => ?_⟩
        refine (hothers x fun heq => hy (heq ▸ hx)).trans ?_
        exact hbefore.1 x (List.mem_cons_of_mem _ hx)

lemma load_plain (hplain : IsPlain name) (l : LoaderId) (a : Area) :
    load l name a = loadSpelled (loadPlain a.loadBound) l (.plain name) a := by
  rw [← Spelling.ofName_eq_plain hplain]
  rfl

/-- Loading a class puts it into the table of the loader. -/
lemma published?_of_load (hplain : IsPlain name) {l : LoaderId} {c : Class} (ha : a.Sound)
    (hrun : load l name a = .ok c b) : b.published? l name = some c := by
  have hload : loadSpelled (loadPlain a.loadBound) l (.plain name) a = .ok c b := by
    rwa [← load_plain hplain]
  cases hfound : a.published? l name with
  | some c₀ =>
    rw [loadSpelled_plain_of_some hfound] at hload
    cases hload
    exact hfound
  | none =>
    rw [loadSpelled_plain_of_none hfound] at hload
    have hawaits := awaits_nil name l a
    exact (published?_of_loadPlain hplain ha hawaits hfound hload).1

end Area

end Linkage
