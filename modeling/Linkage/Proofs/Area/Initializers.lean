import Linkage.Proofs.Area.Lasting
import Linkage.Proofs.Class.Linking

/-!
# Where initializers and members come from

Loading gives a class the initializer and the members of the definition that it is linked from, so
it comes with no initializers but those that some loader could define or had loaded before, and with
no descriptors but such as definitions have. A class that is handed on to another loader stays with
the one that defined it.
-/

namespace Linkage

open Relation

namespace Area

variable {a b : Area} {name : String}

/-- A definition is the one that was made known, or it was there before. -/
lemma definition?_define {l l' : LoaderId} {d e : Definition} {n : String}
    (h : (a.define l d).definition? l' n = some e) :
    ((l' = l ∧ n = d.name) ∧ e = d) ∨ a.definition? l' n = some e := by
  simp only [definition?, Area.define, Table.get?_modify] at h
  split at h
  · next heq =>
    obtain ⟨data, hdata, he⟩ := Option.bind_eq_some_iff.1 h
    obtain ⟨data', hdata', rfl⟩ := Option.map_eq_some_iff.1 hdata
    rw [Table.get?_insert] at he
    split at he
    · next hname =>
      cases he
      exact .inl ⟨⟨heq.symm, hname.symm⟩, rfl⟩
    · exact .inr (Option.bind_eq_some_iff.2 ⟨data', hdata', he⟩)
  · exact .inr h

/-- A definition that comes with no initializer, or with one that was allowed for. -/
lemma InitializersIn.define {names : Set (LoaderId × String)} (h : a.InitializersIn names)
    {l : LoaderId} {d : Definition} (hd : d.initializer.isSome → (l, d.name) ∈ names) :
    (a.define l d).InitializersIn names where
  home c hc harray := by
    obtain ⟨l', n, hc⟩ := hc
    unfold Owned
    rw [published?_define] at hc ⊢
    exact h.home c ⟨l', n, hc⟩ harray
  above c hc harray s hs hnone := by
    unfold Owned at hc ⊢
    rw [published?_define] at hc ⊢
    exact h.above c hc harray s hs hnone
  definitions l' n e he hsome := by
    rcases definition?_define he with ⟨⟨rfl, rfl⟩, rfl⟩ | he
    · exact hd hsome
    · exact h.definitions l' n e he hsome
  classes c hc := by
    unfold Owned at hc
    rw [published?_define] at hc
    exact h.classes c hc

/-- A loader that is new comes with nothing. -/
lemma InitializersIn.addLoader {names : Set (LoaderId × String)} (h : a.InitializersIn names)
    (ha : a.Sound) (parent : LoaderId) (childFirst : Bool) :
    (a.addLoader parent childFirst).2.InitializersIn names := by
  have hkept : ∀ c, a.Owned c → (a.addLoader parent childFirst).2.Owned c := fun _ hc =>
    (Step.addLoader a parent childFirst).kept ha hc
  have hold : ∀ {l n c}, (a.addLoader parent childFirst).2.published? l n = some c →
      a.published? l n = some c := by
    intro l n c hc
    rw [published?_addLoader] at hc
    split at hc
    · cases hc
    · exact hc
  refine ⟨fun c hc harray => ?_, fun c hc harray s hs hnone => ?_, fun l n d hd hsome => ?_,
    fun c hc => h.classes c (hold hc)⟩
  · obtain ⟨l, n, hc⟩ := hc
    exact hkept c (h.home c ⟨l, n, hold hc⟩ harray)
  · exact hkept s (h.above c (hold hc) harray s hs hnone)
  · simp only [definition?, Area.addLoader, Table.get?_insert] at hd
    split at hd
    · cases hd
    · exact h.definitions l n d hd hsome

/-- Every descriptor in a definition or a class of some loader is well formed. -/
structure Spelled (a : Area) : Prop where
  definitions : ∀ l n d, a.definition? l n = some d → d.Spelled
  classes : ∀ c, a.Published c → c.data.Spelled

lemma Spelled.of_loaders (h : a.Spelled) (heq : b.loaders = a.loaders) : b.Spelled := by
  refine ⟨fun l n d hd => ?_, fun c ⟨l, n, hc⟩ => ?_⟩
  · unfold definition? at hd
    rw [heq] at hd
    exact h.definitions l n d hd
  · unfold published? at hc
    rw [heq] at hc
    exact h.classes c ⟨l, n, hc⟩

lemma Spelled.withClass (h : a.Spelled) (l : LoaderId) {c : Class} (hc : c.data.Spelled) :
    (a.withClass l c).Spelled where
  definitions l' n d hd := h.definitions l' n d (by rwa [definition?_withClass] at hd)
  classes d hd := by
    obtain ⟨l', n, hd⟩ := hd
    rcases published?_withClass_cases hd with hold | ⟨-, -, rfl⟩
    · exact h.classes d ⟨l', n, hold⟩
    · exact hc

lemma Spelled.define (h : a.Spelled) (l : LoaderId) {d : Definition} (hd : d.Spelled) :
    (a.define l d).Spelled where
  definitions l' n e he := by
    rcases definition?_define he with ⟨-, rfl⟩ | he
    · exact hd
    · exact h.definitions l' n e he
  classes c hc := by
    obtain ⟨l', n, hc⟩ := hc
    rw [published?_define] at hc
    exact h.classes c ⟨l', n, hc⟩

lemma Spelled.addLoader (h : a.Spelled) (parent : LoaderId) (childFirst : Bool) :
    (a.addLoader parent childFirst).2.Spelled where
  definitions l n d hd := by
    simp only [definition?, Area.addLoader, Table.get?_insert] at hd
    split at hd
    · cases hd
    · exact h.definitions l n d hd
  classes c hc := by
    obtain ⟨l, n, hc⟩ := hc
    rw [published?_addLoader] at hc
    split at hc
    · cases hc
    · exact h.classes c ⟨l, n, hc⟩

/-- A change that loading is made of, where definitions stay and initializers and members come from
them. -/
structure SourcedStep (a b : Area) : Prop where
  step : LoadStep a b
  definitions : ∀ l n, b.definition? l n = a.definition? l n
  initializers : ∀ names, a.InitializersIn names → b.InitializersIn names
  spelled : a.Spelled → b.Spelled

lemma SourcedStep.quiet (h : SourcedStep a b) : Quiet a b :=
  ⟨h.step.step, h.step.phases, h.initializers⟩

lemma sound_stable_sourced : Stable SourcedStep Sound :=
  fun a b h => sound_stable_loading a b h.step

lemma sourcedStep_of_loaders (h : LoadStep a b) (heq : b.loaders = a.loaders) :
    SourcedStep a b := by
  refine ⟨h, fun l n => ?_, fun _ ha => ha.of_loaders heq, fun ha => ha.of_loaders heq⟩
  unfold definition?
  rw [heq]

lemma sourcedStep_identity (a : Area) : SourcedStep a { a with nextId := a.nextId + 1 } :=
  sourcedStep_of_loaders (.array (.identity a)) rfl

/-- An array class declares no members. -/
lemma sourcedStep_newArray (a : Area) (component : Class) :
    SourcedStep { a with nextId := a.nextId + 1 }
      ({ a with nextId := a.nextId + 1 }.withClass component.loader (a.newArray component)) := by
  refine ⟨.array (.array _ _ _ _ _), definition?_withClass _ _, fun _ ha => ?_, fun ha => ?_⟩
  · exact ha.withClass (by rintro ⟨⟩)
  · exact ha.withClass _ ⟨by simp [newArray, Class.data, arrayData], by
      simp [newArray, Class.data, arrayData]⟩

lemma performs_arrayOf_sourced (component : Class) :
    Performs SourcedStep (fun _ => True) (arrayOf component) fun _ _ => True := by
  refine fun a _ => ⟨?_, fun _ _ _ => trivial⟩
  have hid : ReflTransGen SourcedStep a { a with nextId := a.nextId + 1 } :=
    .single (sourcedStep_identity a)
  rcases arrayOf_cases component a with ⟨d, -, hrun⟩ | ⟨-, ⟨-, e, hrun⟩ | ⟨-, e, hrun⟩ |
    ⟨-, -, hrun⟩⟩
  · rw [finalState_of_ok hrun]
  · rw [finalState_of_error hrun]
  · rw [finalState_of_error hrun]
    exact hid
  · rw [finalState_of_ok hrun]
    exact hid.tail (sourcedStep_newArray a component)

/-- A loader gets a class. -/
lemma performs_recordLoaded_sourced (l : LoaderId) {c : Class} (hplain : IsPlain c.name) :
    Performs SourcedStep
      (fun a => (∀ names, a.InitializersIn names → c.isArray = false →
        a.Owned c ∨ a.Definable names l c) ∧ (a.Spelled → c.data.Spelled))
      (recordLoaded l c) fun _ _ => True := by
  rintro a ⟨hc, hspelled⟩
  refine ⟨?_, fun _ _ _ => trivial⟩
  rcases recordLoaded_cases l c a with ⟨e, hrun⟩ | ⟨t, haccept, -, hrun⟩
  · rw [finalState_of_error hrun]
  · rw [finalState_of_ok hrun]
    refine .single ⟨.record hplain haccept, definition?_withClass l c, fun names ha => ?_,
      fun ha => (ha.withClass l (hspelled ha)).of_loaders rfl⟩
    exact (ha.withClass (hc names ha)).of_loaders rfl

lemma Published.of_sourced (hstep : SourcedStep a b) (ha : a.Sound) {c : Class}
    (hc : a.Published c) : b.Published c := by
  obtain ⟨l, n, hc⟩ := hc
  exact ⟨l, n, hstep.step.step.kept ha hc⟩

/-- Classes that are handed on are in the tables of loaders. -/
lemma carries_published {P : Area → Prop} (hP : Stable SourcedStep P)
    (hsound : ∀ a, P a → a.Sound) : Carries SourcedStep P fun c a => a.Published c where
  stable := hP
  carried _ a b hstep ha := ⟨hP a b hstep ha.1, ha.2.of_sourced hstep (hsound a ha.1)⟩
  published _ l n _ _ hc := ⟨l, n, hc⟩
  arrayOf c a _ :=
    ⟨(performs_arrayOf_sourced c a trivial).1, fun _ _ hrun => ⟨_, _, published?_of_arrayOf hrun⟩⟩

/-- Array classes are made in such steps, whatever is known of the classes. -/
lemma carries_sourced : Carries SourcedStep Sound fun _ _ => True where
  stable := sound_stable_sourced
  carried _ := sound_stable_sourced.and .true
  published _ _ _ _ _ _ := trivial
  arrayOf c := (performs_arrayOf_sourced c).weaken (fun _ _ => trivial) fun _ _ h => h

/-- A class that is defined has the initializer of its definition and stands below a class of some
loader. -/
lemma performs_defineClass_sourced {load : String → AreaM Class}
    (hload : ∀ n, Performs SourcedStep Sound (load n) fun c a => a.Published c) (l : LoaderId)
    (hplain : IsPlain name) :
    Performs SourcedStep Sound (defineClass load l name) fun c _ => c.name = name := by
  unfold defineClass
  refine Performs.bind .get fun a => ?_
  split
  · exact .throw_bind _
  · let P : Area → Prop := fun b => b.Sound ∧ b.definition? l name = a.definition? l name
    have hP : Stable SourcedStep P := fun b b' hstep hb =>
      ⟨sound_stable_sourced b b' hstep hb.1, (hstep.definitions l name).trans hb.2⟩
    have hcarries := carries_published hP fun _ hb => hb.1
    let Q : Class → Area → Prop := fun c b => (c.name = name ∧ c.loader = l ∧
      ∃ e id s, a.definition? l name = some e ∧ c.data = e.link id l s) ∧
      ∀ s, c.superclass? = some s → b.Published s
    have hQ : ∀ c, Stable SourcedStep fun b => P b ∧ Q c b := fun c b b' hstep hb =>
      ⟨hP b b' hstep hb.1, hb.2.1, fun s hs => (hb.2.2 s hs).of_sourced hstep hb.1.1⟩
    have hderive : Performs SourcedStep P (derive load l name) Q := by
      refine (hcarries.derive (fun _ hb => hb.1) sourcedStep_identity
        (fun n => (hload n).weaken (fun _ hb => hb.1) fun _ _ h => h) l name).weaken
        (fun _ hb => hb) fun c b hc => ⟨⟨hc.named, hc.loader, ?_⟩, fun s hs => ?_⟩
      · obtain ⟨b', e, id, s, hb', he, hdata⟩ := hc.source
        exact ⟨e, id, s, hb'.2 ▸ he, hdata⟩
      · rcases hc.superclass with ⟨⟨d, rfl⟩, -⟩ | ⟨d, t, is, rfl, ⟨-, ht⟩, -⟩
        · cases hs
        · cases hs
          exact ht
    refine Performs.weaken (P := P) ?_ (fun b hb => ⟨hb.2, by rw [hb.1]⟩) fun _ _ h => h
    refine Performs.bind_stable hP (performs_whileDefining hP hQ
      (fun b => sourcedStep_of_loaders (.enter b l name) rfl)
      (fun b => sourcedStep_of_loaders (.leave b l name) rfl) hderive) fun c => ?_
    intro b hb
    obtain ⟨hb, ⟨hname, hloader, e, id, s, he, hdata⟩, habove⟩ := hb
    refine Performs.bind (performs_recordLoaded_sourced l (hname ▸ hplain)) (fun _ => ?_) b ?_
    · exact Performs.bind (Q := fun _ _ => True) (.modify fun b' _ =>
        ⟨sourcedStep_of_loaders (.counted b') rfl, trivial⟩) fun _ => .pure fun _ _ => hname
    · refine ⟨fun names hnames _ => ?_, fun hspelled => ?_⟩
      · refine .inr ⟨hloader, fun hsome => ?_, fun s hs hnone => hnames.home s (habove s hs) hnone⟩
        rw [hdata, link_initializer] at hsome
        exact hname ▸ hnames.definitions l name e (hb.2.trans he) hsome
      · exact hdata ▸ spelled_link (hspelled.definitions l name e (hb.2.trans he))

/-- Loading a class that its loader does not have brings no initializers but those there were. -/
lemma performs_loadPlain_sourced (steps : Nat) (l : LoaderId) (hplain : IsPlain name) :
    Performs SourcedStep (fun a => a.Sound ∧ a.published? l name = none) (loadPlain steps l name)
      fun c a => c.name = name ∧ a.Published c := by
  induction steps generalizing l name with
  | zero => exact .throw _
  | succ n ih =>
    have hspelled : ∀ l {s : Spelling}, s.Proper → Performs SourcedStep Sound
        (loadSpelled (loadPlain n) l s)
        fun c a => (∀ n, s = .plain n → c.name = n) ∧ a.Published c := fun l _ =>
      (carries_published sound_stable_sourced fun _ h => h).loadSpelled (fun _ h => h)
        fun _ => ih l
    have hnamed : Performs SourcedStep Sound (loadPlain (n + 1) l name)
        fun c _ => c.name = name := by
      unfold loadPlain
      refine Performs.bind .get fun a => ?_
      refine Performs.weaken (P := Sound) ?_ (fun _ ha => ha.2) fun _ _ hc => hc
      split
      · exact .throw _
      · next d _ =>
        split
        · refine performs_defineClass_sourced (fun s => ?_) l hplain
          exact (hspelled l (Spelling.proper_ofName s)).weaken (fun _ h => h) fun _ _ hc => hc.2
        · -- The class comes from the table of the loader that was asked.
          refine (hspelled d (s := .plain name) hplain).bind fun c b hb => ?_
          have hname : c.name = name := hb.1 name rfl
          refine Performs.bind (performs_recordLoaded_sourced l (hname ▸ hplain))
            (fun _ => .pure fun _ _ => hname) b ?_
          exact ⟨fun names hnames harray => .inl (hnames.home c hb.2 harray),
            fun hspelled => hspelled.classes c hb.2⟩
    rintro a ⟨ha, hnone⟩
    obtain ⟨hsteps, hname⟩ := hnamed a ha
    refine ⟨hsteps, fun c b hrun => ⟨hname c b hrun, l, name, ?_⟩⟩
    have hawaits := awaits_nil name l a
    exact (published?_of_loadPlain hplain ha hawaits hnone hrun).1

lemma performs_load_sourced (l : LoaderId) (name : String) :
    Performs SourcedStep Sound (load l name) fun _ _ => True := by
  unfold load
  refine Performs.bind .get fun a => ?_
  unfold loadWithin
  exact ((carries_published sound_stable_sourced fun _ h => h).loadSpelled (fun _ h => h)
    (fun _ => performs_loadPlain_sourced _ l) (Spelling.proper_ofName name)).weaken
    (fun _ ha => ha.2) fun _ _ _ => trivial

/-- Loading a class is a sequence of steps that leave the phases of classes alone. -/
lemma performs_load (l : LoaderId) (name : String) :
    Performs Quiet Sound (load l name) fun _ _ => True :=
  (performs_load_sourced l name).mono fun _ _ => SourcedStep.quiet

end Area

end Linkage
