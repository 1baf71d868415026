import Linkage.Proofs.Area.Bonds

/-!
# Regular states

A run is admissible if its operations are in order and are given no classes but such as can be had,
and if the members that definitions declare have well-formed descriptors. Whatever else happens, all
invariants of the class area hold in every state of such a run.
-/

namespace Linkage

open Relation

namespace Area

variable {a b : Area}

/-- All that holds of the areas that admissible runs lead to. -/
structure Regular (a : Area) : Prop where
  tidy : a.Tidy
  agrees : a.Agrees
  apart : ∀ n, a.ApartOn n
  bonded : a.Bonded
  spelled : a.Spelled

lemma Regular.sound (h : a.Regular) : a.Sound := h.tidy.sound

lemma initial_spelled : initial.Spelled where
  definitions l n d hd := by
    obtain ⟨data, hdata, hd⟩ := Option.bind_eq_some_iff.1 hd
    simp only [initial, Table.get?, Table.firstValue?] at hdata
    split at hdata
    · cases hdata
      cases hd
    · cases hdata
  classes c hc := by
    obtain ⟨l, n, hc⟩ := hc
    have hfields : ∀ c ∈ Boot.classes, ∀ f ∈ c.fields, f.descriptor.WellFormed := by
      decide +kernel
    have hmethods : ∀ c ∈ Boot.classes, ∀ m ∈ c.methods, m.descriptor.WellFormed := by
      decide +kernel
    exact ⟨hfields c (mem_boot_of_published hc), hmethods c (mem_boot_of_published hc)⟩

lemma initial_regular : initial.Regular :=
  ⟨initial_tidy, initial_agrees, initial_apartOn, initial_bonded, initial_spelled⟩

/-- Steps of loading keep all that tidiness does not speak of. -/
lemma Regular.of_sourced (h : a.Regular) (hsteps : ReflTransGen SourcedStep a b) (hb : b.Tidy) :
    b.Regular := by
  have hlast : ReflTransGen Step a b := ReflTransGen.mono (fun _ _ hs => hs.step.step) _ _ hsteps
  have hkept : Stable SourcedStep fun a => a.Sound ∧ a.Bonded ∧ a.Spelled :=
    fun a b hstep ⟨hs, hbonded, hspelled⟩ => ⟨sound_stable_sourced a b hstep hs,
      hbonded.of_loadStep hs hstep.step, hstep.spelled hspelled⟩
  obtain ⟨-, hbonded, hspelled⟩ := hkept.reflTransGen hsteps ⟨h.sound, h.bonded, h.spelled⟩
  exact ⟨hb, agrees_stable.reflTransGen hlast h.agrees,
    fun n => (apartOn_stable n).reflTransGen hlast (h.apart n), hbonded, hspelled⟩

/-- Loaders that are made to agree, whether they do or not. -/
lemma Regular.final_addConstraint (h : a.Regular) (name : String) (x y : LoaderId) :
    (finalState (addConstraint name x y fun l => findLoaded l name) a).Regular := by
  have hlast := Quiet.steps (addConstraint_steps name x y a)
  have htidy := tidy_stable.reflTransGen (tidy_addConstraint name x y a h.tidy).1 h.tidy
  -- Constraints are not among the steps of loading, and definitions know nothing of them.
  have hspelled : ReflTransGen (fun a b => (a.Sound → b.Sound) ∧ (a.Spelled → b.Spelled)) a
      (finalState (addConstraint name x y fun l => findLoaded l name) a) := by
    have hcarries : Carries (fun a b => (a.Sound → b.Sound) ∧ (a.Spelled → b.Spelled)) Sound
        fun _ _ => True :=
      { stable := fun _ _ hstep => hstep.1
        carried := fun _ _ _ hstep ha => ⟨hstep.1 ha.1, trivial⟩
        published := fun _ _ _ _ _ _ => trivial
        arrayOf := fun c => (carries_sourced.arrayOf c).mono fun a b hstep =>
          ⟨sound_stable_sourced a b hstep, hstep.spelled⟩ }
    exact (hcarries.addConstraint (fun a t =>
      ⟨fun hs => ⟨hs.numbered, hs.keyed, hs.defined, hs.named⟩, fun hs => hs.of_loaders rfl⟩)
      name x y a h.sound).1
  exact ⟨htidy, agrees_stable.reflTransGen hlast h.agrees,
    fun n => (apartOn_stable n).reflTransGen hlast (h.apart n),
    h.bonded.final_addConstraint h.tidy h.apart name x y,
    (Stable.reflTransGen (fun _ _ hstep => hstep.2) hspelled h.spelled)⟩

end Area

namespace Resolver

variable {α β : Type}

/-! ### Loading -/

/-- Operations that go through the steps of loading only. -/
def Sources (x : ResolverM α) : Prop :=
  ∀ r : Resolver, r.area.Sound → ReflTransGen Area.SourcedStep r.area (finalState x r).area

lemma sources_onArea {x : AreaM α} {Q : α → Area → Prop}
    (hx : Performs Area.SourcedStep Area.Sound x Q) : Sources (onArea x) := by
  intro r hr
  rw [finalState_onArea]
  exact (hx r.area hr).1

lemma closed_sources : Closed Sources where
  pure _ _ _ := .refl
  throw _ _ _ := .refl
  bind hx hf r hr :=
    finalState_bind_keeps (P := fun s : Resolver => ReflTransGen Area.SourcedStep r.area s.area)
      (hx r hr) fun v s _ hfirst =>
        hfirst.trans (hf v s (Area.sound_stable_sourced.reflTransGen hfirst hr))
  recover hx hf r hr :=
    finalState_tryCatch_keeps (P := fun s : Resolver => ReflTransGen Area.SourcedStep r.area s.area)
      (hx r hr) fun e s _ hfirst =>
        hfirst.trans (hf e s (Area.sound_stable_sourced.reflTransGen hfirst hr))
  look _ hf r hr := hf r r hr
  tally {f} h r _ := by
    rw [finalState_of_ok (modify_apply f r), ← (h r).area]

lemma sources_resolveSpelled (l : LoaderId) (mode : ResolveMode) (s : Spelling) :
    Sources (resolveSpelled l mode s).run :=
  closed_sources.resolveSpelled (fun l s => sources_onArea (Area.carries_sourced.findSpelled l s))
    (fun l name => sources_onArea (Area.performs_load_sourced l name))
    (fun c => sources_onArea ((Area.performs_arrayOf_sourced c).weaken (fun _ _ => trivial)
      fun _ _ h => h)) l mode s

lemma asks_sources : Asks Sources where
  toClosed := closed_sources
  spelled := sources_resolveSpelled
  find m := sources_onArea (Area.carries_sourced.find m)
  compare t m := sources_onArea (Area.carries_sourced.valueAssignable t m)

/-! ### Everything the resolver does -/

/-- Operations that leave regular areas regular. -/
def Keeps (x : ResolverM α) : Prop :=
  ∀ r : Resolver, r.area.Regular → (finalState x r).area.Regular

lemma Sources.keeps {x : ResolverM α} (hx : Sources x) (htidies : Tidies x) : Keeps x :=
  fun r hr => hr.of_sourced (hx r hr.sound) (htidies.final hr.tidy)

lemma closed_keeps : Closed Keeps where
  pure _ _ hr := hr
  throw _ _ hr := hr
  bind hx hf r hr :=
    finalState_bind_keeps (P := fun s : Resolver => s.area.Regular) (hx r hr) fun v s _ => hf v s
  recover hx hf r hr :=
    finalState_tryCatch_keeps (P := fun s : Resolver => s.area.Regular) (hx r hr)
      fun e s _ => hf e s
  look _ hf r hr := hf r r hr
  tally {f} h r hr := by
    rw [finalState_of_ok (modify_apply f r), ← (h r).area]
    exact hr

lemma covers_keeps : Covers Keeps where
  toClosed := closed_keeps
  spelled l mode s := (asks_sources.spelled l mode s).keeps (covers_tidies.spelled l mode s)
  find m := (asks_sources.find m).keeps (covers_tidies.find m)
  compare t m := (asks_sources.compare t m).keeps (covers_tidies.compare t m)
  agree name x y r hr := by
    rw [finalState_onArea]
    exact hr.final_addConstraint name x y

/-! ### Runs -/

/-- Whether an operation may happen: it is in order and is given what there can be, no class that
cannot be had and no definition with a descriptor that is not well formed. Definitions of the
latter kind do not come about: they are put together member by member from the texts of
descriptors, and the builder aborts on a text that is no descriptor. -/
structure Operation.Admissible (r : Resolver) (op : Operation) : Prop where
  orderly : op.Orderly r
  genuine : op.Genuine r
  accepts : ∀ l c fault, op = .accept l c fault → r.Has c
  spelled : ∀ l d, op = .define l d → d.Spelled

/-- The constraints are asked whether a loader may have a class, and remember it or not. -/
lemma area_accept (l : LoaderId) (c : Class) (fault : Option Fault) (r : Resolver) :
    (finalState (Operation.accept l c fault).perform r).area = r.area ∨
      ∃ t, r.area.constraints.accept l c = .ok t ∧
        (finalState (Operation.accept l c fault).perform r).area =
          { r.area with constraints := t } := by
  change (finalState (onArea (Area.checkLoaded l c _)) r).area = _ ∨ ∃ t, _ ∧
    (finalState (onArea (Area.checkLoaded l c _)) r).area = _
  rw [finalState_onArea]
  unfold Area.checkLoaded
  rw [finalState_bind]
  cases haccept : r.area.constraints.accept l c with
  | error e =>
    refine .inl ?_
    simp only [get_apply, haccept]
    rfl
  | ok t =>
    simp only [get_apply, haccept]
    cases fault with
    | none => exact .inr ⟨t, rfl, rfl⟩
    | some f => exact .inl rfl

lemma Has.plain_or_owned {r : Resolver} {c : Class} (h : r.Has c) (hr : r.area.Tidy) :
    IsPlain c.name ∨ r.area.Owned c := by
  rcases h with ⟨l, n, hc⟩ | rfl
  · exact .inr (hr.rooted l n c hc).owned
  · exact .inl hr.stub.2.1

/-- An operation that goes through the steps of loading. -/
lemma Operation.regular_of_sourced {op : Operation} {x : AreaM α} {r : Resolver}
    (hr : r.area.Regular) (hop : op.perform = onArea (discard x)) (h : op.Genuine r)
    {Q : α → Area → Prop} (hx : Performs Area.SourcedStep Area.Sound x Q) :
    (finalState op.perform r).area.Regular := by
  refine hr.of_sourced ?_ (op.tidy hr.tidy h)
  rw [hop, finalState_onArea, finalState_discard]
  exact (hx r.area hr.sound).1

/-- What one operation keeps. -/
lemma Operation.regular {r : Resolver} (hr : r.area.Regular) {op : Operation}
    (h : op.Admissible r) : (finalState op.perform r).area.Regular := by
  have htidy := op.tidy hr.tidy h.genuine
  have hdiscard : ∀ {α : Type} {x : ResolverM α}, Keeps x → Keeps (discard x) :=
    fun hx => closed_keeps.bind hx fun _ => closed_keeps.pure ()
  have hlast := (op.evolves hr.sound h.orderly).area
  have hagrees := Area.agrees_stable.reflTransGen hlast hr.agrees
  have hapart := fun n => (Area.apartOn_stable n).reflTransGen hlast (hr.apart n)
  have hkept : ∀ c, r.area.Owned c → (finalState op.perform r).area.Owned c :=
    fun c hc => Area.kept_of_steps hlast hr.sound hc
  cases op with
  | addLoader parent childFirst =>
    exact ⟨htidy, hagrees, hapart, hr.bonded.of_groups hkept fun _ _ => rfl,
      hr.spelled.addLoader parent childFirst⟩
  | define l d =>
    exact ⟨htidy, hagrees, hapart, hr.bonded.of_groups hkept fun _ _ => rfl,
      hr.spelled.define l (h.spelled l d rfl)⟩
  | setPhase c p =>
    exact ⟨htidy, hagrees, hapart, hr.bonded.of_groups hkept fun _ _ => rfl,
      hr.spelled.of_loaders rfl⟩
  | load l name => exact regular_of_sourced hr rfl h.genuine (Area.performs_load_sourced l name)
  | find l name =>
    exact regular_of_sourced hr rfl h.genuine (Area.carries_sourced.findLoaded l name)
  | arrayOf c =>
    exact regular_of_sourced hr rfl h.genuine
      ((Area.performs_arrayOf_sourced c).weaken (fun _ _ => trivial) fun _ _ h => h)
  | constrain name x y =>
    change (finalState (onArea _) r).area.Regular
    rw [finalState_onArea, finalState_discard]
    exact hr.final_addConstraint name x y
  | accept l c fault =>
    have hc := (h.accepts l c fault rfl).plain_or_owned hr.tidy
    rcases area_accept l c fault r with hsame | ⟨t, haccept, hset⟩
    · rwa [hsame]
    · rw [hset] at htidy hagrees ⊢
      refine ⟨htidy, hagrees, fun n => ?_, hr.bonded.accept (fun _ hd => hd) hc haccept,
        hr.spelled.of_loaders rfl⟩
      have hn := hapart n
      rwa [hset] at hn
  | assignable t dest =>
    exact regular_of_sourced hr rfl h.genuine (Area.carries_sourced.assignable t dest)
  | merge t u =>
    exact regular_of_sourced hr rfl h.genuine
      ((Area.carries_sourced.mergeTypes (fun _ _ _ _ _ => trivial) t u).weaken
        (fun _ ha => ⟨ha, fun _ _ _ _ => trivial⟩) fun _ _ h => h)
  | checkSubtypes => exact hdiscard (covers_keeps.checkSubtypes _ _ _ _ _ _) r hr
  | resolveName => exact hdiscard (covers_keeps.resolveName _ _ _ _ _) r hr
  | resolveClass u mode => exact hdiscard (covers_keeps.resolveClass u mode) r hr
  | resolveField u mode => exact hdiscard (covers_keeps.resolveField u mode) r hr
  | resolveMethod u mode => exact hdiscard (covers_keeps.resolveMethod u mode) r hr
  | interfaceTarget target => exact hdiscard (covers_keeps.interfaceTarget target) r hr
  | instruction op u => exact hdiscard (covers_keeps.ofUse op u) r hr
  | emit b i =>
    exact regular_of_sourced hr rfl h.genuine ((emit_of_carries Area.carries_sourced b i).weaken
      (fun _ ha => ⟨ha, fun _ _ => trivial⟩) fun _ _ h => h)

/-- One state of the resolver is followed by another, by an admissible operation. -/
def AdmissibleNext (r r' : Resolver) : Prop :=
  ∃ op : Operation, op.Admissible r ∧ r' = finalState op.perform r

/-- A number of admissible operations leads from one state of the resolver to another. -/
def AdmissibleRun : Resolver → Resolver → Prop := ReflTransGen AdmissibleNext

/-- What a whole run keeps. -/
lemma AdmissibleRun.regular {r r' : Resolver} (h : AdmissibleRun r r') (hr : r.area.Regular) :
    r'.area.Regular := by
  induction h with
  | refl => exact hr
  | tail _ hnext ih =>
    obtain ⟨op, hop, rfl⟩ := hnext
    exact Operation.regular ih hop

lemma AdmissibleRun.run {r r' : Resolver} (h : AdmissibleRun r r') : Run r r' :=
  ReflTransGen.mono (fun _ _ ⟨op, hop, heq⟩ => ⟨op, hop.orderly, heq⟩) _ _ h

lemma admissibleRun_performAll {ops : List Operation} (h : ∀ op ∈ ops, ∀ r, op.Admissible r)
    (r : Resolver) : AdmissibleRun r (performAll ops r) := by
  induction ops generalizing r with
  | nil => exact ReflTransGen.refl
  | cons op ops ih =>
    exact ReflTransGen.head ⟨op, h op List.mem_cons_self r, rfl⟩
      (ih (fun o ho => h o (List.mem_cons_of_mem op ho)) _)

end Resolver

end Linkage
