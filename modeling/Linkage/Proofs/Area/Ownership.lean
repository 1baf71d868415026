import Linkage.Proofs.Area.Census
import Linkage.Proofs.Area.Questions

/-!
# Who has a class

Every class that some loader has is also had, under its own name, by the loader that defined it, and
so are the classes above it and the component of an array. So a name and a loader tell a class apart
from all others. This does not come from the steps of the area alone: it rests on array classes
being asked for over such classes only, or over the stand-in for the common supertype of arrays,
which is what `Area.Admitted` hands on from one operation to the next.
-/

namespace Linkage

open Relation

lemma Class.mem_superclasses_of_superclass? {c s : Class} (h : c.superclass? = some s) :
    s ∈ c.superclasses := by
  rw [superclasses_eq_cons, h]
  exact List.mem_cons_of_mem _ s.mem_superclasses_self

/-- What is above a class is above those below it. -/
lemma Class.superclasses_trans {s t : Class} (ht : t ∈ s.superclasses) :
    ∀ {c : Class}, s ∈ c.superclasses → t ∈ c.superclasses
  | .root d, hs => by
    rw [superclasses, List.mem_singleton] at hs
    exact hs ▸ ht
  | .derived d u is, hs => by
    rcases List.mem_cons.1 hs with rfl | hs
    · exact ht
    · exact List.mem_cons_of_mem _ (superclasses_trans ht hs)
  | .primitiveArray d u is p, hs => by
    rcases List.mem_cons.1 hs with rfl | hs
    · exact ht
    · exact List.mem_cons_of_mem _ (superclasses_trans ht hs)
  | .array d u is e, hs => by
    rcases List.mem_cons.1 hs with rfl | hs
    · exact ht
    · exact List.mem_cons_of_mem _ (superclasses_trans ht hs)

lemma Class.not_isPlain_of_isArray {c : Class} (h : c.isArray = true) : ¬ IsPlain c.name := by
  match c with
  | .root _ => cases h
  | .derived .. => cases h
  | .primitiveArray _ _ _ p =>
    change ¬ IsPlain p.arrayName
    cases p <;> decide
  | .array d s is e => exact not_isPlain_array d s is e

lemma Class.arrayName_of_isPlain {c : Class} (h : IsPlain c.name) :
    c.arrayName = "[L" ++ c.name ++ ";" := by
  have hnot : c.isArray = false := by
    cases harray : c.isArray with
    | false => rfl
    | true => exact absurd h (not_isPlain_of_isArray harray)
  simp [arrayName, hnot]

namespace Area

variable {a b : Area}

/-- The loaders that defined a class and the classes above it have them. -/
def Rooted (a : Area) (c : Class) : Prop := ∀ s ∈ c.superclasses, a.Owned s

lemma Rooted.owned {c : Class} (h : a.Rooted c) : a.Owned c := h c c.mem_superclasses_self

lemma Rooted.superclass {c s : Class} (h : a.Rooted c) (hs : s ∈ c.superclasses) : a.Rooted s := by
  intro t ht
  exact h t (Class.superclasses_trans ht hs)

/-- Array classes may be asked for over a class: it is one of those there are, and so are the
classes above it. -/
def Admitted (a : Area) (c : Class) : Prop := ∀ s ∈ c.superclasses, a.Known s

lemma Rooted.admitted {c : Class} (h : a.Rooted c) : a.Admitted c := fun s hs => (h s hs).known

lemma Admitted.known {c : Class} (h : a.Admitted c) : a.Known c := h c c.mem_superclasses_self

lemma Admitted.superclass {c s : Class} (h : a.Admitted c) (hs : s ∈ c.superclasses) :
    a.Admitted s := by
  intro t ht
  exact h t (Class.superclasses_trans ht hs)

/-- Nothing but classes that their loaders have is in the tables of an area. -/
structure Placed (a : Area) : Prop where
  sound : a.Sound
  /-- Loaders have classes that their own loaders have as well, like all classes above them. -/
  rooted : ∀ l n c, a.published? l n = some c → a.Rooted c
  /-- Nothing but array classes stands under the names of such. -/
  arrays : a.ArraysNamed
  /-- Array classes stand in the tables of the loaders of their components. -/
  component : ∀ l n d s is c, a.published? l n = some (.array d s is c) →
    c.loader = l ∧ a.Known c
  /-- The bootstrap loader asks no other loader. -/
  orphan : a.parent? .bootstrap = none
  /-- The bootstrap loader has no classes but its own. -/
  home : ∀ n c, a.published? .bootstrap n = some c → c.loader = .bootstrap
  /-- The classes that the rules of the language speak of are those of the start. -/
  core : a.core = Boot.core

/-- The classes of an area are where they belong, and they are told apart and counted. -/
structure Tidy (a : Area) : Prop extends Placed a, Census a

/-- A class that a loader has under a name and that a test accepts. -/
lemma exists_published {l : LoaderId} {n : String} {accept : Class → Bool}
    (h : (a.published? l n).any accept = true) : ∃ c, a.Published c ∧ accept c = true := by
  obtain ⟨c, hc, haccept⟩ := (Option.any_eq_true _ _).1 h
  exact ⟨c, ⟨l, n, hc⟩, haccept⟩

lemma Tidy.rooted_of_published (h : a.Tidy) {c : Class} (hc : a.Published c) : a.Rooted c := by
  obtain ⟨l, n, hc⟩ := hc
  exact h.rooted l n c hc

lemma Placed.stub (h : a.Placed) : a.core.arrayStub.loader = .bootstrap ∧
    IsPlain a.core.arrayStub.name ∧ a.core.arrayStub.superclass? = some a.core.object := by
  rw [h.core]
  exact ⟨rfl, by decide, rfl⟩

/-- The top of the hierarchy is there. -/
lemma Tidy.top (h : a.Tidy) : a.Rooted a.core.object := by
  intro s hs
  rw [h.core, show Boot.core.object.superclasses = [Boot.object] from rfl,
    List.mem_singleton] at hs
  exact hs ▸ h.started _ (initial_owned List.mem_cons_self)

/-- The loader of a class that is there is there itself. -/
lemma Tidy.loader_isSome (h : a.Tidy) {c : Class} (hc : a.Known c) :
    (a.loaders.get? c.loader).isSome = true := by
  rcases hc with hc | rfl
  · exact hc.loader_isSome
  · rw [h.stub.1]
    have htop := h.top.owned.loader_isSome
    rwa [h.core] at htop

lemma Tidy.linked_of_known (h : a.Tidy) {c : Class} (hc : a.Known c) : c.Linked := by
  rcases hc with hc | rfl
  · exact h.linked c hc
  · rw [h.core]
    exact rfl

lemma Tidy.admitted_stub (h : a.Tidy) : a.Admitted a.core.arrayStub := by
  intro s hs
  rw [Class.superclasses_eq_cons, h.stub.2.2] at hs
  rcases List.mem_cons.1 hs with rfl | hs
  · exact .inr rfl
  · exact .inl (h.top s hs)

lemma Tidy.admitted_of_known (h : a.Tidy) (hc : a.Known c) : a.Admitted c := by
  rcases hc with hc | rfl
  · exact (h.rooted _ _ c hc).admitted
  · exact h.admitted_stub

/-- A change that keeps the tables tidy, and in them what was there. -/
def TidyStep (a b : Area) : Prop :=
  a.Tidy → b.Tidy ∧ Grown a b ∧ b.core = a.core

lemma Rooted.mono {c : Class} (h : a.Rooted c) (hgrown : Grown a b) : b.Rooted c :=
  fun s hs => hgrown.kept _ _ s (h s hs)

lemma Known.mono {c : Class} (h : a.Known c) (hgrown : Grown a b) (hcore : b.core = a.core) :
    b.Known c := by
  unfold Known
  rw [hcore]
  exact Or.imp_left (hgrown.kept _ _ c) h

lemma Admitted.mono {c : Class} (h : a.Admitted c) (hgrown : Grown a b) (hcore : b.core = a.core) :
    b.Admitted c :=
  fun s hs => (h s hs).mono hgrown hcore

lemma tidy_stable : Stable TidyStep Tidy := fun _ _ hstep ha => (hstep ha).1

/-- What an operation that keeps the tables tidy ends in. -/
lemma tidy_of_ok {α : Type} {x : AreaM α} {Q : α → Area → Prop} {v : α}
    (hx : Performs TidyStep Tidy x Q) (ha : a.Tidy) (hrun : x a = .ok v b) : b.Tidy := by
  have hsteps := (hx a ha).1
  rw [finalState_of_ok hrun] at hsteps
  exact tidy_stable.reflTransGen hsteps ha

lemma rooted_stable (c : Class) : Stable TidyStep fun a => a.Tidy ∧ a.Rooted c :=
  fun _ _ hstep ha => ⟨(hstep ha.1).1, ha.2.mono (hstep ha.1).2.1⟩

lemma admitted_stable (c : Class) : Stable TidyStep fun a => a.Tidy ∧ a.Admitted c :=
  fun _ _ hstep ha => ⟨(hstep ha.1).1, ha.2.mono (hstep ha.1).2.1 (hstep ha.1).2.2⟩

/-- Tables with the same classes are in order together. -/
lemma Placed.of_published (h : a.Placed) (hsound : b.Sound)
    (hpublished : ∀ l n c, b.published? l n = some c ↔ a.published? l n = some c)
    (hparent : b.parent? .bootstrap = none) (hcore : b.core = a.core) : b.Placed where
  sound := hsound
  rooted l n c hc s hs := (hpublished _ _ s).2 (h.rooted l n c ((hpublished l n c).1 hc) s hs)
  arrays l n c hc := h.arrays l n c ((hpublished l n c).1 hc)
  component l n d s is c hc := by
    obtain ⟨hloader, hknown⟩ := h.component l n d s is c ((hpublished l n _).1 hc)
    refine ⟨hloader, ?_⟩
    unfold Known
    rw [hcore]
    exact Or.imp_left (hpublished _ _ c).2 hknown
  orphan := hparent
  home n c hc := h.home n c ((hpublished _ n c).1 hc)
  core := hcore.trans h.core

/-- What is not about the tables of the loaders does not matter for what is in them. -/
lemma Placed.of_eq (h : a.Placed) (hloaders : b.loaders = a.loaders) (hcore : b.core = a.core) :
    b.Placed := by
  have hpublished : b.published? = a.published? := by
    unfold published?
    rw [hloaders]
  refine h.of_published ⟨?_, ?_, ?_, ?_⟩ (by simp [hpublished]) ?_ hcore
  · simpa [hloaders] using h.sound.numbered
  · simpa [hpublished] using h.sound.keyed
  · simpa [hloaders] using h.sound.defined
  · simpa [hpublished] using h.sound.named
  · simpa [parent?, hloaders] using h.orphan

lemma Grown.of_eq {c : Area} (h : Grown a b) (hloaders : c.loaders = b.loaders) : Grown a c := by
  refine ⟨by rw [hloaders, h.size], fun l => by rw [hloaders, h.shape], fun l n d hd => ?_⟩
  unfold published?
  rw [hloaders]
  exact h.kept l n d hd

lemma Tidy.of_published (h : a.Tidy) (hsound : b.Sound)
    (hpublished : ∀ l n c, b.published? l n = some c ↔ a.published? l n = some c)
    (hparent : b.parent? .bootstrap = none) (hcore : b.core = a.core) (hnext : b.nextId = a.nextId)
    (hloads : b.loads = a.loads) : b.Tidy :=
  ⟨h.toPlaced.of_published hsound hpublished hparent hcore,
    h.toCensus.of_owned (fun c => hpublished _ _ c) hcore hnext.ge hloads⟩

/-- A change that is not about the tables of the loaders, and gives no identity back. -/
lemma tidyStep_of_eq (hloaders : b.loaders = a.loaders) (hcore : b.core = a.core)
    (hnext : a.nextId ≤ b.nextId) (hloads : b.loads = a.loads) : TidyStep a b := by
  intro ha
  refine ⟨⟨ha.toPlaced.of_eq hloaders hcore, ha.toCensus.of_owned (fun c => ?_) hcore hnext hloads⟩,
    (Grown.refl a).of_eq hloaders, hcore⟩
  unfold Owned published?
  rw [hloaders]

/-- A loader may get a class that it defines below one that is in order, or, if it asks other
loaders, one that is in order itself. -/
lemma Placed.withClass (ha : a.Placed) {l : LoaderId} {c : Class}
    (hname : IsPlain c.name ∨ c.isArray = true)
    (hc : c.loader = l ∧ (∀ s, c.superclass? = some s → a.Rooted s) ∨
      l ≠ .bootstrap ∧ a.Rooted c)
    (harray : ∀ d s is e, c = .array d s is e → e.loader = l ∧ a.Known e) :
    (a.withClass l c).Placed := by
  have hgrown := grown_withClass a l c
  refine ⟨ha.sound.withClass l (hname.imp_right Class.two_le_of_isArray), ?_,
    ha.arrays.withClass l hname.resolve_left, ?_, ?_, ?_, ha.core⟩
  · intro l' n x hx
    rcases published?_withClass_cases hx with hold | ⟨rfl, rfl, rfl⟩
    · exact (ha.rooted l' n x hold).mono hgrown
    · rcases hc with ⟨hloader, habove⟩ | ⟨-, hrooted⟩
      · intro s hs
        rw [Class.superclasses_eq_cons] at hs
        rcases List.mem_cons.1 hs with rfl | hs
        · unfold Owned
          rw [hloader]
          exact hx
        · cases hsuper : c.superclass? with
          | none => simp [hsuper] at hs
          | some t =>
            rw [hsuper] at hs
            exact (habove t hsuper).mono hgrown s hs
      · exact hrooted.mono hgrown
  · intro l' n d s is e hx
    have hkept : e.loader = l' ∧ a.Known e := by
      rcases published?_withClass_cases hx with hold | ⟨rfl, -, rfl⟩
      · exact ha.component l' n d s is e hold
      · exact harray d s is e rfl
    exact ⟨hkept.1, hkept.2.mono hgrown rfl⟩
  · rw [hgrown.parent?_eq]
    exact ha.orphan
  · intro n x hx
    rcases published?_withClass_cases hx with hold | ⟨rfl, -, rfl⟩
    · exact ha.home n x hold
    · exact hc.elim And.left fun h => absurd rfl h.1

/-- A class that its loader may get as a new one. -/
structure Fresh (a : Area) (c : Class) : Prop where
  missing : a.published? c.loader c.name = none
  named : IsPlain c.name ∨ c.isArray = true
  above : ∀ s, c.superclass? = some s → a.Rooted s
  component : ∀ d s is e, c = .array d s is e → e.loader = c.loader ∧ a.Known e
  linked : c.Linked
  described : c.Described
  fieldless : c.Fieldless
  woven : ∀ i ∈ c.interfaces, i.isInterface = true ∧ a.Owned i
  latest : ∀ x, a.Known x → x.id.number < c.id.number

/-- A loader gets a class that is new. -/
lemma Fresh.tidyStep {c : Class} (h : a.Fresh c) (hl : (a.loaders.get? c.loader).isSome = true)
    (hloaders : b.loaders = (a.withClass c.loader c).loaders) (hcore : b.core = a.core)
    (hnext : a.nextId ≤ b.nextId) (hid : c.id.number < b.nextId)
    (hloads : b.loads = a.loads + if c.isArray then 0 else 1) : TidyStep a b := by
  intro ha
  have hplaced := ha.toPlaced.withClass h.named (.inl ⟨rfl, h.above⟩) h.component
  have howned : ∀ x, b.Owned x ↔ x = c ∨ a.Owned x := by
    intro x
    have hpublished : b.published? = (a.withClass c.loader c).published? := by
      unfold published?
      rw [hloaders]
    unfold Owned
    rw [hpublished]
    constructor
    · intro hx
      rcases published?_withClass_cases hx with hold | ⟨-, -, heq⟩
      · exact .inr hold
      · exact .inl heq.symm
    · rintro (rfl | hx)
      · rw [published?_withClass, if_pos ⟨rfl, rfl, hl⟩, h.missing]
        rfl
      · exact (grown_withClass a _ _).kept _ _ x hx
  exact ⟨⟨hplaced.of_eq hloaders hcore,
    ha.toCensus.insert h.latest h.linked h.described h.fieldless h.woven howned hcore hnext hid
      hloads⟩,
    (grown_withClass a _ _).of_eq hloaders, hcore⟩

/-- A loader that asks others gets a class that its own loader has. -/
lemma tidyStep_got {l : LoaderId} {c : Class} (hl : l ≠ .bootstrap) (hplain : IsPlain c.name)
    (hc : a.Rooted c) (t : Constraints) :
    TidyStep a { a.withClass l c with constraints := t } := by
  intro ha
  have hgrown := grown_withClass a l c
  have hplaced : (a.withClass l c).Placed := by
    refine ha.toPlaced.withClass (.inl hplain) (.inr ⟨hl, hc⟩) ?_
    rintro d s is e rfl
    exact (Class.not_isPlain_array d s is e hplain).elim
  refine ⟨⟨hplaced.of_eq rfl rfl, ha.toCensus.of_owned (fun x => ⟨fun hx => ?_, hgrown.kept _ _ x⟩)
    rfl Nat.le.refl rfl⟩, hgrown.of_eq rfl, rfl⟩
  rcases published?_withClass_cases hx with hold | ⟨-, -, rfl⟩
  · exact hold
  · exact hc.owned

/-! ### Operations -/

/-- The array class over a class that is there is new where it is missing. -/
lemma Tidy.fresh_newArray (h : a.Tidy) {c : Class} (hc : a.Known c)
    (hmissing : a.published? c.loader c.arrayName = none) (hdim : c.dimension ≠ maxDimension) :
    a.Fresh (a.newArray c) where
  missing := hmissing
  named := .inr rfl
  above s hs := by
    cases hs
    exact h.top
  component _ _ _ _ heq := by
    cases heq
    exact ⟨rfl, hc⟩
  linked := by
    refine ⟨lt_of_le_of_ne (h.linked_of_known hc).dimension_le hdim, ?_, ?_,
      not_accInterface_of_array c.flags⟩ <;> rw [h.core]
    rfl
  described := ⟨rfl, congrArg (fun k : CoreClasses => k.object.data.vtableLength) h.core,
    accPublic_of_array c.flags⟩
  fieldless _ := ⟨rfl, rfl, rfl⟩
  woven i hi := by
    have hmem : i ∈ a.core.arrayInterfaces := hi
    rw [h.core] at hmem
    obtain ⟨hinterface, howned⟩ :=
      initial_woven ((List.mem_cons.1 hmem).imp_right List.mem_singleton.1)
    exact ⟨hinterface, h.started i howned⟩
  latest := h.numbered

lemma tidy_arrayOf (c : Class) :
    Performs TidyStep (fun a => a.Tidy ∧ a.Admitted c) (arrayOf c) fun x a => a.Rooted x := by
  have hsteps : ∀ a, a.Tidy ∧ a.Admitted c →
      ReflTransGen TidyStep a (finalState (arrayOf c) a) := by
    intro a ha
    rcases arrayOf_cases c a with ⟨d, hd, hrun⟩ | ⟨hnone, ⟨-, e, hrun⟩ | ⟨-, e, hrun⟩ |
      ⟨hdim, hl, hrun⟩⟩
    · rw [finalState_of_ok hrun]
    · rw [finalState_of_error hrun]
    · rw [finalState_of_error hrun]
      exact .single (tidyStep_of_eq rfl rfl (Nat.le_succ _) rfl)
    · rw [finalState_of_ok hrun]
      have hfresh := ha.1.fresh_newArray ha.2.known hnone hdim
      exact .single (hfresh.tidyStep hl rfl rfl (Nat.le_succ _) (Nat.lt_succ_self _) rfl)
  intro a ha
  refine ⟨hsteps a ha, fun x b hrun => ?_⟩
  have hb : b.Tidy := by
    have hfinal := hsteps a ha
    rw [finalState_of_ok hrun] at hfinal
    exact tidy_stable.reflTransGen hfinal ha.1
  exact hb.rooted _ _ x (published?_of_arrayOf hrun)

/-- Array classes are made over classes that are in order, and lookups give such classes. -/
lemma carries_rooted : Carries TidyStep Tidy fun c a => a.Rooted c where
  stable := tidy_stable
  carried := rooted_stable
  published _ l n c ha hc := ha.rooted l n c hc
  arrayOf c := (tidy_arrayOf c).weaken (fun _ ha => ⟨ha.1, ha.2.admitted⟩) fun _ _ hx => hx

/-- Questions about types make array classes over the stand-in as well, if they are given it. -/
lemma carries_admitted : Carries TidyStep Tidy fun c a => a.Admitted c where
  stable := tidy_stable
  carried := admitted_stable
  published _ l n c ha hc := (ha.rooted l n c hc).admitted
  arrayOf c := (tidy_arrayOf c).weaken (fun _ ha => ha) fun _ _ hx => hx.admitted

/-! ### Loading -/

/-- The bootstrap loader defines all its classes itself. -/
lemma eq_bootstrap_of_definer? (h : a.parent? .bootstrap = none) {n : String} {d : LoaderId}
    (hd : a.definer? .bootstrap n = some d) : d = .bootstrap := by
  by_cases hprefers : a.Prefers n .bootstrap
  · rw [definer?_of_prefers hprefers] at hd
    cases hd
    rfl
  · have hchain : a.chain .bootstrap = [.bootstrap] := by
      unfold parent? at h
      simp [chain, delegates, h]
    rw [definer?_of_not_prefers hprefers, hchain] at hd
    exact List.mem_singleton.1 (List.mem_of_find?_eq_some hd)

/-- A class that was linked under a name that its loader does not have is new. -/
lemma Derived.fresh {l : LoaderId} {name : String} {c : Class}
    (h : Derived Tidy (fun c a => a.Rooted c) l name c a) (hplain : IsPlain name)
    (hmissing : a.published? l name = none) : a.Fresh c := by
  obtain ⟨before, hbefore, rfl, hid⟩ := h.identity
  have hclass : ∃ d s is, c = .derived d s is ∧ (s.isInterface = false ∧ before.Rooted s) ∧
      (∀ i ∈ is, i.isInterface = true ∧ before.Rooted i) ∧
      ∃ e : Definition, d = e.link d.id d.loader (some s) := by
    rcases h.superclass with ⟨-, rfl, rfl⟩ | hderived
    · -- The top of the hierarchy is there from the start.
      have htop : before.Owned Boot.object := hbefore.started _ (initial_owned List.mem_cons_self)
      have hnone : before.published? .bootstrap objectName = none := hmissing
      rw [show before.published? .bootstrap objectName = some Boot.object from htop] at hnone
      cases hnone
    · exact hderived
  have hnamed := h.named
  have hloader := h.loader
  obtain ⟨d, s, is, rfl, ⟨hinterface, hs⟩, his, hdescribed⟩ := hclass
  refine ⟨?_, .inl (hnamed ▸ hplain), ?_, ?_, hinterface, hdescribed, nofun,
    fun i hi => (his i hi).imp_right Rooted.owned, fun x hx => ?_⟩
  · rw [hloader, hnamed]
    exact hmissing
  · intro t ht
    cases ht
    exact hs
  · intro _ _ _ _ heq
    cases heq
  · rw [hid]
    exact hbefore.numbered x hx

section

variable {n : Nat} {l : LoaderId} {name : String}

/-- Defining a class, where classes are loaded in at most so many nested steps. -/
lemma tidy_defineClass (hplain : IsPlain name)
    (hload : ∀ s, Performs TidyStep Tidy (loadSpelled (loadPlain n) l (.ofName s))
      fun c a => a.Rooted c) (ha : a.Tidy) (hmissing : a.published? l name = none)
    (hself : a.definer? l name = some l) :
    ReflTransGen TidyStep a
      (finalState (defineClass (fun s => loadSpelled (loadPlain n) l (.ofName s)) l name) a) := by
  by_cases hmem : (l, name) ∈ a.defining
  · rw [finalState_of_error (defineClass_of_mem hmem)]
  have henter : TidyStep a (a.entering l name) := tidyStep_of_eq rfl rfl Nat.le.refl rfl
  have hleave : ∀ b : Area, TidyStep b (b.leaving l name) :=
    fun b => tidyStep_of_eq rfl rfl Nat.le.refl rfl
  obtain ⟨hsteps, hderived⟩ := carries_rooted.derive (fun _ h => h.sound)
    (fun a => tidyStep_of_eq rfl rfl (Nat.le_succ _) rfl) hload l name (a.entering l name)
    (tidy_stable _ _ henter ha)
  replace hsteps := hsteps.head henter
  obtain ⟨b, hb, hrun | ⟨c, t, hrun', hl, hrun⟩⟩ := finalState_defineClass _ hmem <;>
    rw [hb] at hsteps <;> rw [hrun]
  · exact hsteps.tail (hleave b)
  · have hawaits := awaits_nil name l a
    obtain ⟨hend, -⟩ := missing_of_derive hplain
      (fun _ _ s => performs_loadSpelled_stuck hplain n l s) ha.sound hawaits (by simp) hmissing
      hself
    rw [hb] at hend
    have hc := hderived c b hrun'
    have hfresh := hc.fresh hplain (hend l List.mem_cons_self)
    have harray : c.isArray = false := by
      cases h : c.isArray with
      | false => rfl
      | true => exact absurd (hc.named ▸ hplain) (Class.not_isPlain_of_isArray h)
    obtain ⟨before, -, rfl, hid⟩ := hc.identity
    obtain rfl := hc.loader
    refine hsteps.tail (hfresh.tidyStep hl rfl rfl Nat.le.refl ?_ ?_)
    · rw [hid]
      exact Nat.lt_succ_self _
    · rw [harray]
      rfl

/-- Loading a class that its loader does not have puts it in order, like the classes it needs. -/
lemma tidy_loadPlain (steps : Nat) (l : LoaderId) (hplain : IsPlain name) :
    Performs TidyStep (fun a => a.Tidy ∧ a.published? l name = none) (loadPlain steps l name)
      fun c a => c.name = name ∧ a.Rooted c := by
  induction steps generalizing l name with
  | zero => exact .throw _
  | succ n ih =>
    have hspelled : ∀ l {s : Spelling}, s.Proper → Performs TidyStep Tidy
        (loadSpelled (loadPlain n) l s)
        fun c a => (∀ n, s = .plain n → c.name = n) ∧ a.Rooted c :=
      fun l _ => carries_rooted.loadSpelled (fun _ h => h.sound) fun _ => ih l
    intro a ha
    suffices hsteps : ReflTransGen TidyStep a (finalState (loadPlain (n + 1) l name) a) by
      refine ⟨hsteps, fun c b hrun => ?_⟩
      rw [finalState_of_ok hrun] at hsteps
      have hb := tidy_stable.reflTransGen hsteps ha.1
      have hawaits := awaits_nil name l a
      have hc := (published?_of_loadPlain hplain ha.1.sound hawaits ha.2 hrun).1
      exact ⟨hb.sound.keyed l name c hc, hb.rooted l name c hc⟩
    cases hd : a.definer? l name with
    | none =>
      rw [finalState_of_error (loadPlain_of_nobody hd)]
    | some d =>
      rw [finalState_congr (loadPlain_of_definer? hd)]
      split
      · next hself =>
        subst hself
        refine tidy_defineClass hplain (fun s => ?_) ha.1 ha.2 hd
        exact (hspelled d (Spelling.proper_ofName s)).weaken (fun _ h => h) fun _ _ h => h.2
      · next hne =>
        have hl : l ≠ .bootstrap := by
          rintro rfl
          exact hne (eq_bootstrap_of_definer? ha.1.orphan hd)
        obtain ⟨hsteps, hgives⟩ := hspelled d (s := .plain name) hplain a ha.1
        obtain ⟨b, hb, hrun | ⟨c, t, hc, hrun⟩⟩ :=
          finalState_handOver (loadSpelled (loadPlain n) d (.plain name)) l a <;>
          rw [hb] at hsteps <;> rw [hrun]
        · exact hsteps
        · obtain ⟨hname, hrooted⟩ := hgives c b hc
          exact hsteps.tail (tidyStep_got hl (hname name rfl ▸ hplain) hrooted t)

end

/-- Loading gives classes that are in order. -/
lemma tidy_load (l : LoaderId) (name : String) :
    Performs TidyStep Tidy (load l name) fun c a => a.Rooted c := by
  unfold load
  refine Performs.bind .get fun a => ?_
  unfold loadWithin
  exact (carries_rooted.loadSpelled (fun _ h => h.sound) (fun _ => tidy_loadPlain _ l)
    (Spelling.proper_ofName name)).weaken (fun _ ha => ha.2) fun _ _ hc => hc.2

/-! ### Other changes -/

lemma tidy_checkLoaded (l : LoaderId) (c : Class) {publish : AreaM Unit}
    (h : Performs TidyStep Tidy publish fun _ _ => True) :
    Performs TidyStep Tidy (checkLoaded l c publish) fun _ _ => True := by
  unfold checkLoaded
  refine Performs.bind .get fun a => ?_
  refine Performs.weaken (P := Tidy) (Q := fun _ _ => True) ?_ (fun _ ha => ha.2) fun _ _ h => h
  split
  · exact .throw _
  · exact Performs.seq tidy_stable h fun _ _ =>
      .modify fun a _ => ⟨tidyStep_of_eq rfl rfl Nat.le.refl rfl, trivial⟩

lemma tidy_addConstraint (name : String) (x y : LoaderId) :
    Performs TidyStep Tidy (addConstraint name x y fun l => findLoaded l name)
      fun _ _ => True :=
  carries_rooted.addConstraint (fun _ _ => tidyStep_of_eq rfl rfl Nat.le.refl rfl) name x y

lemma Tidy.addLoader (h : a.Tidy) (parent : LoaderId) (childFirst : Bool) :
    (a.addLoader parent childFirst).2.Tidy := by
  have hthere : ∀ l n c, a.published? l n = some c → l ≠ ⟨a.loaders.size⟩ := by
    rintro l n c hc rfl
    obtain ⟨data, hdata, -⟩ := Option.bind_eq_some_iff.1 hc
    have hlt := (h.sound.numbered ⟨a.loaders.size⟩).1 (by rw [hdata]; rfl)
    exact Nat.lt_irrefl _ hlt
  have hbootstrap : LoaderId.bootstrap ≠ ⟨a.loaders.size⟩ := by
    intro heq
    obtain ⟨data, hdata, -⟩ := Option.bind_eq_some_iff.1 h.top.owned
    have hlt := (h.sound.numbered _).1 (by rw [hdata]; rfl)
    have hsize : 0 = a.loaders.size := congrArg LoaderId.number heq
    omega
  refine h.of_published (h.sound.addLoader parent childFirst) (fun l n c => ?_) ?_ rfl rfl rfl
  · rw [published?_addLoader]
    constructor
    · intro hc
      split at hc
      · cases hc
      · exact hc
    · intro hc
      rw [if_neg (hthere l n c hc)]
      exact hc
  · have horphan := h.orphan
    unfold parent? at horphan ⊢
    simp only [Area.addLoader, Table.get?_insert, if_neg hbootstrap.symm]
    exact horphan

lemma Tidy.define (h : a.Tidy) (l : LoaderId) (d : Definition) : (a.define l d).Tidy := by
  refine h.of_published (h.sound.define l d)
    (fun l' n c => by rw [published?_define]) ?_ rfl rfl rfl
  have horphan := h.orphan
  unfold parent? at horphan ⊢
  simp only [Area.define, Table.get?_modify]
  split
  · cases hdata : a.loaders.get? .bootstrap <;> simp_all
  · exact horphan

/-! ### Finding classes by their names -/

lemma findArray_of_published {l : LoaderId} {name : String} {c : Class}
    (h : a.published? l name = some c) (short : Bool) (component : AreaM (Option Class)) :
    findArray l name short component a = .ok (some c) a := by
  unfold findArray
  rw [bind_of_ok (get_apply a), h]
  rfl

/-- What a loader has under a name is found by that name. -/
lemma findSpelled_of_published {l : LoaderId} {name : String} {c : Class}
    (h : a.published? l name = some c) : findSpelled l (.ofName name) a = .ok (some c) a := by
  have hname := Spelling.name_ofName name
  generalize Spelling.ofName name = s at hname
  subst hname
  cases s with
  | plain n =>
    change EStateM.Result.ok (a.published? l n) a = _
    rw [show a.published? l n = some c from h]
  | nested n s => exact findArray_of_published h _ _
  | object n s => exact findArray_of_published h _ _
  | unclosed n => exact findArray_of_published h _ _
  | bare n s => exact findArray_of_published h _ _

/-- A class under the name of an array over a class is an array class over the class that the name
says. -/
lemma Tidy.exists_array (ha : a.Tidy) {l : LoaderId} {name : String} {c : Class}
    (hx : a.published? l name = some c) (hname : ¬ IsPlain name) (hlong : name.utf8ByteSize ≠ 2) :
    ∃ d s is e, c = .array d s is e ∧ e.arrayName = name ∧ e.loader = l ∧ a.Known e := by
  have hkeyed := ha.sound.keyed l name c hx
  have harray := ha.arrays l name c hx hname
  match c with
  | .root _ => cases harray
  | .derived .. => cases harray
  | .primitiveArray _ _ _ p =>
    refine absurd ?_ hlong
    rw [← hkeyed]
    change p.arrayName.utf8ByteSize = 2
    cases p <;> decide
  | .array d s is e =>
    obtain ⟨hloader, hknown⟩ := ha.component l name d s is e hx
    exact ⟨d, s, is, e, rfl, hkeyed, hloader, hknown⟩

lemma Tidy.exists_component (ha : a.Tidy) {l : LoaderId} {name : String} {c : Class}
    (hx : a.published? l name = some c) (hname : ¬ IsPlain name) (hlong : name.utf8ByteSize ≠ 2) :
    ∃ e, e.arrayName = name ∧ e.loader = l ∧ a.Known e := by
  obtain ⟨d, s, is, e, -, he⟩ := ha.exists_array hx hname hlong
  exact ⟨e, he⟩

/-- If a loader has an array class under a name then its component is found by its own name, unless
it is the stand-in. -/
lemma Tidy.component_found (ha : a.Tidy) {l : LoaderId} {name : String} {c : Class}
    (hx : a.published? l name = some c) (hname : ¬ IsPlain name) (hlong : name.utf8ByteSize ≠ 2)
    {find : AreaM (Option Class)}
    (hover : ∀ e : Class, e.arrayName = name → find = findSpelled l (.ofName e.name)) :
    (∃ e, find a = .ok (some e) a ∧ arrayOf e a = .ok c a) ∨
      l = .bootstrap ∧ name = a.core.arrayStub.arrayName ∧ find a = .ok none a := by
  obtain ⟨e, rfl, rfl, howned | rfl⟩ := ha.exists_component hx hname hlong
  · rw [hover e rfl]
    exact .inl ⟨e, findSpelled_of_published howned, arrayOf_of_published hx⟩
  · obtain ⟨hstub, hplain, -⟩ := ha.stub
    rw [hover _ rfl, ← findLoaded, findLoaded_of_isPlain hplain]
    rw [hstub] at hx ⊢
    cases hfound : a.published? .bootstrap a.core.arrayStub.name with
    | none => exact .inr ⟨rfl, rfl, rfl⟩
    | some e =>
      -- The array class over another class of that name is taken to be the same.
      refine .inl ⟨e, rfl, arrayOf_of_published ?_⟩
      have hname := ha.sound.keyed _ _ e hfound
      rw [ha.home _ e hfound, Class.arrayName_of_isPlain (hname ▸ hplain), hname,
        ← Class.arrayName_of_isPlain hplain, hx]

/-- An array class that was made over a component is found by a name whose component is found. The
loader itself may have a class of that name, and then it is the same one. -/
lemma Tidy.findArray (h : a.Tidy) {l : LoaderId} {name : String} (hname : ¬ IsPlain name)
    (hlong : name.utf8ByteSize ≠ 2) {find : AreaM (Option Class)} {e c : Class}
    (he : find a = .ok (some e) a) (hc : a.published? e.loader e.arrayName = some c)
    (hover : ∀ e' : Class, e'.arrayName = name → find = findSpelled l (.ofName e'.name)) :
    findArray l name false find a = .ok (some c) a := by
  have harray := arrayOf_of_published hc
  cases hx : a.published? l name with
  | none =>
    unfold Area.findArray
    rw [bind_of_ok (get_apply a)]
    simp only [hx, Bool.false_eq_true, if_false]
    rw [bind_of_ok he]
    dsimp only
    rw [arrayOf?_eq, harray]
  | some x =>
    rw [findArray_of_published hx]
    rcases h.component_found hx hname hlong hover with ⟨e', he', harray'⟩ | ⟨-, -, hnone⟩
    · rw [he] at he'
      cases he'
      rw [harray] at harray'
      cases harray'
      rfl
    · rw [he] at hnone
      cases hnone

/-! ### The start -/

lemma initial_tidy : initial.Tidy := by
  have htop : initial.Rooted Boot.object := by
    intro s hs
    rw [List.mem_singleton.1 hs]
    exact initial_owned List.mem_cons_self
  refine ⟨⟨initial_sound, fun l n c hc s hs => ?_, initial_arraysNamed,
    fun l n d s is c hc => ?_, rfl, fun n c hc => boot_loader (mem_boot_of_published hc), rfl⟩,
    initial_census⟩
  · have hmem := mem_boot_of_published hc
    rcases boot_cases hmem with rfl | ⟨d, is, rfl⟩ | ⟨d, is, p, rfl⟩
    · exact htop s hs
    · rcases List.mem_cons.1 hs with rfl | hs
      · exact initial_owned hmem
      · exact htop s hs
    · rcases List.mem_cons.1 hs with rfl | hs
      · exact initial_owned hmem
      · exact htop s hs
  · rcases boot_cases (mem_boot_of_published hc) with heq | ⟨d', is', heq⟩ | ⟨d', is', p, heq⟩ <;>
      cases heq

end Area

end Linkage
