import Linkage.Proofs.Area.Change

/-!
# What the operations on the area do

Every operation on the class area, whether it fails or not, is a sequence of steps. Loading is
followed through its nested steps; all that it adds to the tables of the loaders went through the
loading constraints, array classes apart.
-/

namespace Linkage

open Relation

namespace Area

variable {a : Area}

/-! ### Publishing -/

lemma publish_of_isSome {l : LoaderId} (c : Class) (h : (a.loaders.get? l).isSome = true) :
    publish l c a = .ok () (a.withClass l c) := by
  have hc : a.loaders.contains l = true := h
  simp only [publish]
  rw [bind_of_ok (get_apply a), if_pos hc]
  rfl

lemma publish_of_none {l : LoaderId} (c : Class) (h : a.loaders.get? l = none) :
    publish l c a = .error (.loaderMissing l) a := by
  simp only [publish]
  rw [bind_of_ok (get_apply a), if_neg (by simp [Table.contains, h])]
  rfl

/-- Giving a loader a class fails and changes nothing, or the constraints agree and the loader
gets it. -/
lemma recordLoaded_cases (l : LoaderId) (c : Class) (a : Area) :
    (∃ e, recordLoaded l c a = .error e a) ∨
    ∃ t, a.constraints.accept l c = .ok t ∧ (a.loaders.get? l).isSome = true ∧
      recordLoaded l c a = .ok () { a.withClass l c with constraints := t } := by
  unfold recordLoaded checkLoaded
  rw [bind_of_ok (get_apply a)]
  cases haccept : a.constraints.accept l c with
  | error e => exact .inl ⟨e, rfl⟩
  | ok t =>
    cases hl : a.loaders.get? l with
    | none => exact .inl ⟨_, bind_of_error (publish_of_none c hl)⟩
    | some data =>
      refine .inr ⟨t, rfl, rfl, ?_⟩
      dsimp only
      rw [bind_of_ok (publish_of_isSome c (by simp [hl]))]
      rfl

/-! ### Array classes -/

/-- The array class over a component that is made where there is none yet. -/
def newArray (a : Area) (component : Class) : Class :=
  .array (arrayData a.core ⟨a.nextId⟩ component.arrayName component.loader
    (component.flags &&& Flag.accPublic.mask)) a.core.object a.core.arrayInterfaces component

/-- Asking for an array class finds it, fails, or makes it. -/
lemma arrayOf_cases (component : Class) (a : Area) :
    (∃ c, a.published? component.loader component.arrayName = some c ∧
      arrayOf component a = .ok c a) ∨
    a.published? component.loader component.arrayName = none ∧
      (component.dimension = maxDimension ∧ (∃ e, arrayOf component a = .error e a) ∨
        a.loaders.get? component.loader = none ∧
          (∃ e, arrayOf component a = .error e { a with nextId := a.nextId + 1 }) ∨
        component.dimension ≠ maxDimension ∧ (a.loaders.get? component.loader).isSome = true ∧
          arrayOf component a = .ok (a.newArray component)
            ({ a with nextId := a.nextId + 1 }.withClass component.loader
              (a.newArray component))) := by
  unfold arrayOf
  rw [bind_of_ok (get_apply a)]
  cases hp : a.published? component.loader component.arrayName with
  | some c => exact .inl ⟨c, rfl, rfl⟩
  | none =>
    refine .inr ⟨rfl, ?_⟩
    dsimp only
    by_cases hdim : component.dimension = maxDimension
    · refine .inl ⟨hdim, .tooManyDimensions component.arrayName, bind_of_error ?_⟩
      simp only [makeArray, hdim, if_true]
      rfl
    · have hmake : makeArray component a =
          .ok (a.newArray component) { a with nextId := a.nextId + 1 } := by
        simp only [makeArray, hdim, if_false]
        rfl
      rw [bind_of_ok hmake]
      cases hl : a.loaders.get? component.loader with
      | none => exact .inr (.inl ⟨rfl, _, bind_of_error (publish_of_none _ hl)⟩)
      | some data =>
        refine .inr (.inr ⟨hdim, rfl, ?_⟩)
        rw [bind_of_ok (publish_of_isSome _ (by simp [hl]))]
        rfl

lemma arrayOf?_eq (component : Class) (a : Area) :
    arrayOf? component a =
      match arrayOf component a with
      | .ok c b => .ok (some c) b
      | .error _ b => .ok none b := by
  unfold arrayOf?
  cases h : arrayOf component a with
  | ok c b => exact tryCatch_of_ok (bind_of_ok h)
  | error e b => exact tryCatch_of_error (bind_of_error h)

/-- What an array class was asked for by, the loader of the component has. -/
lemma published?_of_arrayOf {component c : Class} {b : Area} (h : arrayOf component a = .ok c b) :
    b.published? component.loader component.arrayName = some c := by
  rcases arrayOf_cases component a with ⟨d, hd, hrun⟩ | ⟨hnone, ⟨-, e, hrun⟩ | ⟨-, e, hrun⟩ |
    ⟨-, hl, hrun⟩⟩ <;> rw [hrun] at h <;> cases h
  · exact hd
  · have hname : (a.newArray component).name = component.arrayName := rfl
    have hnone' : { a with nextId := a.nextId + 1 }.published? component.loader
        component.arrayName = none := hnone
    rw [published?_withClass, if_pos ⟨rfl, hname, hl⟩, hnone']
    rfl

lemma arrayOf_steps (component : Class) (a : Area) :
    ReflTransGen ArrayStep a (finalState (arrayOf component) a) := by
  have hid : ReflTransGen ArrayStep a { a with nextId := a.nextId + 1 } := .single (.identity a)
  rcases arrayOf_cases component a with ⟨d, hd, hrun⟩ | ⟨hnone, ⟨-, e, hrun⟩ | ⟨-, e, hrun⟩ |
    ⟨-, hl, hrun⟩⟩
  · rw [finalState_of_ok hrun]
  · rw [finalState_of_error hrun]
  · rw [finalState_of_error hrun]
    exact hid
  · rw [finalState_of_ok hrun]
    exact hid.tail (.array _ _ a.core.object a.core.arrayInterfaces component)

lemma performs_arrayOf (component : Class) :
    Performs ArrayStep (fun _ => True) (arrayOf component) fun _ _ => True :=
  fun a _ => ⟨arrayOf_steps component a, fun _ _ _ => trivial⟩

/-! ### Classes that are handed on -/

/-- Classes that are handed on have a property that no step takes from them: the loaders' classes
have it, and with a class also the array class over it. -/
structure Carries (step : Area → Area → Prop) (P : Area → Prop) (N : Class → Area → Prop) :
    Prop where
  stable : Stable step P
  carried : ∀ c, Stable step fun a => P a ∧ N c a
  published : ∀ a l n c, P a → a.published? l n = some c → N c a
  arrayOf : ∀ c, Performs step (fun a => P a ∧ N c a) (Area.arrayOf c) N

/-- Nothing has to be known of the classes if making array classes is among the steps. -/
lemma carries_any {step : Area → Area → Prop} {P : Area → Prop} (hP : Stable step P)
    (harray : ∀ a b, ArrayStep a b → step a b) : Carries step P fun _ _ => True where
  stable := hP
  carried _ := hP.and .true
  published _ _ _ _ _ _ := trivial
  arrayOf c := ((performs_arrayOf c).mono harray).weaken (fun _ _ => trivial) fun _ _ h => h

namespace Carries

variable {step : Area → Area → Prop} {P : Area → Prop} {N : Class → Area → Prop}
  (h : Carries step P N)
include h

lemma arrayOf? (component : Class) :
    Performs step (fun a => P a ∧ N component a) (Area.arrayOf? component)
      fun v a => ∀ c ∈ v, N c a := by
  intro a ha
  obtain ⟨hsteps, hvalue⟩ := h.arrayOf component a ha
  have hfinal : finalState (Area.arrayOf? component) a = finalState (Area.arrayOf component) a := by
    simp only [finalState, arrayOf?_eq]
    cases Area.arrayOf component a <;> rfl
  refine ⟨hfinal ▸ hsteps, fun v b hv c hc => ?_⟩
  rw [arrayOf?_eq] at hv
  cases hrun : Area.arrayOf component a with
  | ok x b' =>
    rw [hrun] at hv
    cases hv
    cases hc
    exact hvalue _ _ hrun
  | error e b' =>
    rw [hrun] at hv
    cases hv
    cases hc

lemma arrayOfDimension? (c : Class) (n : Nat) :
    Performs step (fun a => P a ∧ N c a) (Area.arrayOfDimension? c n)
      fun v a => ∀ c ∈ v, N c a := by
  induction n generalizing c with
  | zero => exact .pure fun a ha x hx => by cases hx; exact ha.2
  | succ n ih =>
    unfold Area.arrayOfDimension?
    refine Performs.bind_stable (h.carried c) (h.arrayOf? c) fun v => ?_
    match v with
    | some array => exact (ih array).weaken (fun _ ha => ⟨ha.1.1, ha.2 array rfl⟩) fun _ _ h => h
    | none => exact .pure fun _ _ => by simp

lemma findArray (l : LoaderId) (name : String) (short : Bool) {component : AreaM (Option Class)}
    (hcomponent : Performs step P component fun v a => ∀ c ∈ v, N c a) :
    Performs step P (Area.findArray l name short component) fun v a => ∀ c ∈ v, N c a := by
  unfold Area.findArray
  refine Performs.bind .get fun a => ?_
  split
  · next c hc =>
    refine .pure fun b hb x hx => ?_
    cases hx
    exact h.published b l name c hb.2 (hb.1 ▸ hc)
  · split
    · refine .pure fun b hb x hx => ?_
      exact h.published b .bootstrap name x hb.2 (hb.1 ▸ hx)
    · refine Performs.weaken ?_ (fun _ hb => hb.2) fun _ _ hv => hv
      refine Performs.bind_stable h.stable hcomponent fun v => ?_
      match v with
      | some c => exact (h.arrayOf? c).weaken (fun _ ha => ⟨ha.1, ha.2 c rfl⟩) fun _ _ hv => hv
      | none => exact .pure fun _ _ => by simp

lemma findSpelled (l : LoaderId) (s : Spelling) :
    Performs step P (Area.findSpelled l s) fun v a => ∀ c ∈ v, N c a := by
  have hnone : Performs step P (pure none : AreaM (Option Class)) fun v a => ∀ c ∈ v, N c a :=
    .pure fun _ _ => by simp
  induction s with
  | plain name =>
    refine Performs.bind .get fun a => .pure fun b hb c hc => ?_
    exact h.published b l name c hb.2 (hb.1 ▸ hc)
  | nested name s ih => exact h.findArray l name _ ih
  | object name s ih => exact h.findArray l name _ ih
  | unclosed name => exact h.findArray l name _ hnone
  | bare name s => exact h.findArray l name _ hnone

lemma findLoaded (l : LoaderId) (name : String) :
    Performs step P (Area.findLoaded l name) fun v a => ∀ c ∈ v, N c a :=
  h.findSpelled l _

end Carries

/-! ### Finding classes -/

lemma carries_arraySteps : Carries ArrayStep (fun _ => True) fun _ _ => True :=
  carries_any .true fun _ _ h => h

lemma performs_findSpelled (l : LoaderId) (s : Spelling) :
    Performs ArrayStep (fun _ => True) (findSpelled l s) fun _ _ => True :=
  (carries_arraySteps.findSpelled l s).weaken (fun _ h => h) fun _ _ _ => trivial

lemma findLoaded_of_isPlain {name : String} (h : IsPlain name) (l : LoaderId) (a : Area) :
    findLoaded l name a = .ok (a.published? l name) a := by
  rw [findLoaded, Spelling.ofName_eq_plain h]
  rfl

lemma performs_findLoaded (l : LoaderId) (name : String) :
    Performs ArrayStep (fun _ => True) (findLoaded l name) fun _ _ => True :=
  performs_findSpelled l _

/-! ### Constraints -/

lemma ArrayStep.constraints_eq {b : Area} (h : ReflTransGen ArrayStep a b) :
    b.constraints = a.constraints := by
  induction h with
  | refl => rfl
  | tail _ hstep ih =>
    cases hstep with
    | identity => exact ih
    | array => exact ih

/-- What a loader can define under a name. -/
def definition? (a : Area) (l : LoaderId) (name : String) : Option Definition :=
  (a.loaders.get? l).bind fun data => data.definitions.get? name

/-- Only classes of the given names, each at the loader that defines it, have initializers, whether
they are loaded or not. A class that some loader has is had by the loader that defined it, and so is
its superclass. Nothing is said of array classes. -/
structure InitializersIn (a : Area) (names : Set (LoaderId × String)) : Prop where
  home : ∀ c, a.Published c → c.isArray = false → a.Owned c
  above : ∀ c, a.Owned c → c.isArray = false → ∀ s, c.superclass? = some s →
    s.isArray = false → a.Owned s
  definitions : ∀ l n d, a.definition? l n = some d → d.initializer.isSome → (l, n) ∈ names
  classes : ∀ c, a.Owned c → c.isArray = false → c.data.initializer.isSome →
    (c.loader, c.name) ∈ names

section

variable {b : Area} {names : Set (LoaderId × String)}

lemma InitializersIn.of_loaders (h : a.InitializersIn names) (heq : b.loaders = a.loaders) :
    b.InitializersIn names := by
  have hpublished : ∀ l n, b.published? l n = a.published? l n := fun l n => by
    unfold published?
    rw [heq]
  have howned : ∀ c, b.Owned c ↔ a.Owned c := fun c => by
    unfold Owned
    rw [hpublished]
  refine ⟨fun c hc harray => ?_, fun c hc harray s hs hnone => ?_, fun l n d hd => ?_,
    fun c hc => h.classes c ((howned c).1 hc)⟩
  · obtain ⟨l, n, hc⟩ := hc
    exact (howned c).2 (h.home c ⟨l, n, hpublished l n ▸ hc⟩ harray)
  · exact (howned s).2 (h.above c ((howned c).1 hc) harray s hs hnone)
  · unfold definition? at hd
    rw [heq] at hd
    exact h.definitions l n d hd

/-- More names allow for what fewer do. -/
lemma InitializersIn.mono {names' : Set (LoaderId × String)} (h : a.InitializersIn names)
    (hsubset : names ⊆ names') : a.InitializersIn names' where
  home := h.home
  above := h.above
  definitions l n d hd hsome := hsubset (h.definitions l n d hd hsome)
  classes c hc harray hsome := hsubset (h.classes c hc harray hsome)

lemma definition?_withClass (l : LoaderId) (c : Class) (l' : LoaderId) (n : String) :
    (a.withClass l c).definition? l' n = a.definition? l' n := by
  unfold definition?
  rw [get?_withClass]
  split
  · cases a.loaders.get? l' <;> rfl
  · rfl

lemma Owned.withClass {c : Class} (h : a.Owned c) (l : LoaderId) (d : Class) :
    (a.withClass l d).Owned c := by
  unfold Owned at h ⊢
  rw [published?_withClass, h]
  split <;> rfl

/-- A class may be defined by a loader: its initializer was allowed for, and what it stands below is
there. -/
structure Definable (a : Area) (names : Set (LoaderId × String)) (l : LoaderId) (c : Class) : Prop
    where
  loader : c.loader = l
  initializer : c.data.initializer.isSome → (l, c.name) ∈ names
  above : ∀ s, c.superclass? = some s → s.isArray = false → a.Owned s

/-- A loader gets a class that it defined, or one that the loader which defined it has. -/
lemma InitializersIn.withClass (h : a.InitializersIn names) {l : LoaderId} {c : Class}
    (hc : c.isArray = false → a.Owned c ∨ a.Definable names l c) :
    (a.withClass l c).InitializersIn names where
  home d hd harray := by
    obtain ⟨l', n, hd⟩ := hd
    rcases published?_withClass_cases hd with hold | ⟨rfl, rfl, rfl⟩
    · exact (h.home d ⟨l', n, hold⟩ harray).withClass l c
    · rcases hc harray with howned | ⟨hloader, -⟩
      · exact howned.withClass l c
      · unfold Owned
        rw [hloader]
        exact hd
  above d hd harray s hs hnone := by
    rcases published?_withClass_cases hd with hold | ⟨-, -, rfl⟩
    · exact (h.above d hold harray s hs hnone).withClass l c
    · rcases hc harray with howned | hdefinable
      · exact (h.above c howned harray s hs hnone).withClass l c
      · exact (hdefinable.above s hs hnone).withClass l c
  definitions l' n d hd := h.definitions l' n d (by rwa [definition?_withClass] at hd)
  classes d hd harray hinitializer := by
    rcases published?_withClass_cases hd with hold | ⟨hloader, -, rfl⟩
    · exact h.classes d hold harray hinitializer
    · rcases hc harray with howned | hdefinable
      · exact h.classes c howned harray hinitializer
      · exact hloader ▸ hdefinable.initializer hinitializer

end

/-- A change that leaves the phases of classes alone and comes with no new initializers. -/
structure Quiet (a b : Area) : Prop where
  step : Step a b
  phases : b.phases = a.phases
  initializers : ∀ names, a.InitializersIn names → b.InitializersIn names

lemma sound_stable_quiet : Stable Quiet Sound := fun a b h => sound_stable a b h.step

lemma Quiet.steps {b : Area} (h : ReflTransGen Quiet a b) : ReflTransGen Step a b :=
  ReflTransGen.mono (fun _ _ h => h.step) _ _ h

lemma ArrayStep.initializers {b : Area} (h : ArrayStep a b) {names : Set (LoaderId × String)}
    (ha : a.InitializersIn names) : b.InitializersIn names := by
  cases h with
  | identity => exact ha.of_loaders rfl
  | array => exact ha.withClass (by rintro ⟨⟩)

lemma ArrayStep.quiet {b : Area} (h : ArrayStep a b) : Quiet a b := by
  refine ⟨.array h, ?_, fun _ => h.initializers⟩
  cases h with
  | identity => rfl
  | array => rfl

lemma ArrayStep.quietly {b : Area} (h : ReflTransGen ArrayStep a b) : ReflTransGen Quiet a b :=
  ReflTransGen.mono (fun _ _ => ArrayStep.quiet) _ _ h

/-- What a loader has loaded, asked for where its group is not bound. -/
def askLoaded (t : Constraints) (name : String) (l : LoaderId) : AreaM (Option Class) :=
  if (t.bound? name l).isSome then pure none else findLoaded l name

lemma Carries.askLoaded {step : Area → Area → Prop} {P : Area → Prop} {N : Class → Area → Prop}
    (h : Carries step P N) (t : Constraints) (name : String) (l : LoaderId) :
    Performs step P (Area.askLoaded t name l) fun _ _ => True := by
  unfold Area.askLoaded
  split
  · exact .pure fun _ _ => trivial
  · exact (h.findLoaded l name).weaken (fun _ ha => ha) fun _ _ _ => trivial

lemma performs_askLoaded (t : Constraints) (name : String) (l : LoaderId) :
    Performs ArrayStep (fun _ => True) (askLoaded t name l) fun _ _ => True :=
  carries_arraySteps.askLoaded t name l

/-- Making two loaders agree asks for array classes and changes the constraints. -/
lemma Carries.addConstraint {step : Area → Area → Prop} {P : Area → Prop}
    {N : Class → Area → Prop} (h : Carries step P N)
    (hset : ∀ (a : Area) (t : Constraints), step a { a with constraints := t }) (name : String)
    (x y : LoaderId) :
    Performs step P (Area.addConstraint name x y fun l => Area.findLoaded l name)
      fun _ _ => True := by
  unfold Area.addConstraint
  refine Performs.bind .get fun a => ?_
  refine Performs.weaken (P := P) (Q := fun _ _ => True) ?_ (fun _ ha => ha.2) fun _ _ h => h
  dsimp only
  split
  · exact .pure fun _ _ => trivial
  · refine Performs.seq h.stable (h.askLoaded _ name x) fun forX _ => ?_
    refine Performs.seq h.stable (h.askLoaded _ name y) fun forY _ => ?_
    split
    · exact .throw _
    · refine Performs.seq (p := fun _ => True) h.stable
        (.modify fun a _ => ⟨hset a _, trivial⟩) fun _ _ => ?_
      exact .pure fun _ _ => trivial

lemma askLoaded_of_isPlain {name : String} (h : IsPlain name) {t : Constraints} {l : LoaderId}
    {v : Option Class} {b : Area} (hrun : askLoaded t name l a = .ok v b) :
    b = a ∧ (t.bound? name l = none → v = a.published? l name) := by
  unfold askLoaded at hrun
  split at hrun
  · next hsome =>
    cases hrun
    exact ⟨rfl, fun hnone => by simp [hnone] at hsome⟩
  · rw [findLoaded_of_isPlain h] at hrun
    cases hrun
    exact ⟨rfl, fun _ => rfl⟩

lemma addConstraint_of_related {name : String} {x y : LoaderId}
    (h : a.constraints.related name x y = true) :
    addConstraint name x y (fun l => findLoaded l name) a = .ok false a := by
  unfold addConstraint
  rw [bind_of_ok (get_apply a)]
  simp only [h, if_true]
  rfl

/-- Both loaders are asked before they are made to agree. -/
lemma addConstraint_of_not_related {name : String} {x y : LoaderId}
    (h : a.constraints.related name x y = false) :
    addConstraint name x y (fun l => findLoaded l name) a = (do
      let forX ← askLoaded a.constraints name x
      let forY ← askLoaded a.constraints name y
      match a.constraints.add name x y fun l => if l = x then forX else forY with
      | .error e => throw e
      | .ok (changed, t) =>
        modify fun s => { s with constraints := t }
        return changed : AreaM Bool) a := by
  unfold addConstraint
  rw [bind_of_ok (get_apply a)]
  simp only [h, Bool.false_eq_true, if_false]
  rfl

/-- Making two loaders agree does nothing if they are related. Otherwise the constraints change, or
it fails, after array classes may have been made. -/
lemma addConstraint_cases (name : String) (x y : LoaderId) (a : Area) :
    a.constraints.related name x y = true ∧
      addConstraint name x y (fun l => findLoaded l name) a = .ok false a ∨
    ∃ b, ReflTransGen ArrayStep a b ∧
      ((∃ e, addConstraint name x y (fun l => findLoaded l name) a = .error e b) ∨
        ∃ found changed t,
          (IsPlain name → b = a ∧ ∀ z, z = x ∨ z = y → a.constraints.bound? name z = none →
            found z = a.published? z name) ∧
          b.constraints.add name x y found = .ok (changed, t) ∧
          addConstraint name x y (fun l => findLoaded l name) a =
            .ok changed { b with constraints := t }) := by
  cases hrelated : a.constraints.related name x y with
  | true => exact .inl ⟨rfl, addConstraint_of_related hrelated⟩
  | false =>
    refine .inr ?_
    rw [addConstraint_of_not_related hrelated]
    have hx := (performs_askLoaded a.constraints name x a trivial).1
    cases hforX : askLoaded a.constraints name x a with
    | error e b =>
      rw [finalState_of_error hforX] at hx
      exact ⟨b, hx, .inl ⟨e, bind_of_error hforX⟩⟩
    | ok forX b =>
      rw [finalState_of_ok hforX] at hx
      rw [bind_of_ok hforX]
      have hy := (performs_askLoaded a.constraints name y b trivial).1
      cases hforY : askLoaded a.constraints name y b with
      | error e c =>
        rw [finalState_of_error hforY] at hy
        exact ⟨c, hx.trans hy, .inl ⟨e, bind_of_error hforY⟩⟩
      | ok forY c =>
        rw [finalState_of_ok hforY] at hy
        rw [bind_of_ok hforY]
        refine ⟨c, hx.trans hy, ?_⟩
        have hsame := ArrayStep.constraints_eq (hx.trans hy)
        cases hadd : a.constraints.add name x y fun l => if l = x then forX else forY with
        | error e => exact .inl ⟨e, rfl⟩
        | ok r =>
          obtain ⟨changed, t⟩ := r
          refine .inr ⟨_, changed, t, fun hplain => ?_, hsame ▸ hadd, rfl⟩
          obtain ⟨rfl, hfoundX⟩ := askLoaded_of_isPlain hplain hforX
          obtain ⟨rfl, hfoundY⟩ := askLoaded_of_isPlain hplain hforY
          refine ⟨rfl, fun z hz hnone => ?_⟩
          by_cases hzx : z = x
          · subst hzx
            simpa using hfoundX hnone
          · obtain rfl := hz.resolve_left hzx
            simpa [hzx] using hfoundY hnone

lemma addConstraint_steps (name : String) (x y : LoaderId) (a : Area) :
    ReflTransGen Quiet a (finalState (addConstraint name x y fun l => findLoaded l name) a) := by
  rcases addConstraint_cases name x y a with ⟨-, hrun⟩ | ⟨b, hb, ⟨e, hrun⟩ |
    ⟨found, changed, t, hfound, hadd, hrun⟩⟩
  · rw [finalState_of_ok hrun]
  · rw [finalState_of_error hrun]
    exact ArrayStep.quietly hb
  · rw [finalState_of_ok hrun]
    refine (ArrayStep.quietly hb).tail
      ⟨.constrain (fun hplain z hz hnone => ?_) hadd, rfl, fun _ ha => ha.of_loaders rfl⟩
    obtain ⟨rfl, hpublished⟩ := hfound hplain
    exact hpublished z hz hnone

lemma Performs.ofArraySteps {α : Type} {x : AreaM α}
    (h : Performs ArrayStep (fun _ => True) x fun _ _ => True) :
    Performs Quiet Sound x fun _ _ => True :=
  (h.mono fun _ _ => ArrayStep.quiet).weaken (fun _ _ => trivial) fun _ _ h => h

/-! ### Loading -/

/-- The changes that loading a class is made of. -/
inductive LoadStep : Area → Area → Prop where
  /-- An array class is made, or an identity is taken. -/
  | array {a b : Area} (h : ArrayStep a b) : LoadStep a b
  /-- A definition begins. -/
  | enter (a : Area) (l : LoaderId) (name : String) :
      LoadStep a { a with defining := (l, name) :: a.defining }
  /-- A definition ends, well or not. -/
  | leave (a : Area) (l : LoaderId) (name : String) :
      LoadStep a { a with defining := a.defining.erase (l, name) }
  /-- A definition is counted. -/
  | counted (a : Area) : LoadStep a { a with loads := a.loads + 1 }
  /-- A loader gets a class that the constraints let it have. -/
  | record {a : Area} {l : LoaderId} {c : Class} {t : Constraints} (plain : IsPlain c.name)
      (accepted : a.constraints.accept l c = .ok t) :
      LoadStep a { a.withClass l c with constraints := t }

lemma LoadStep.step {b : Area} (h : LoadStep a b) : Step a b := by
  cases h with
  | array h => exact .array h
  | enter l name => exact .enter a l name
  | leave l name => exact .leave a l name
  | counted => exact .counted a
  | record plain accepted => exact .record plain accepted

lemma LoadStep.phases {b : Area} (h : LoadStep a b) : b.phases = a.phases := by
  cases h with
  | array h => exact h.quiet.phases
  | _ => rfl

lemma sound_stable_loading : Stable LoadStep Sound :=
  fun a b hstep => sound_stable a b hstep.step

lemma whileDefining_eq {α : Type} (l : LoaderId) (name : String) (x : AreaM α) (a : Area) :
    whileDefining l name x a =
      match x { a with defining := (l, name) :: a.defining } with
      | .ok v b => .ok v { b with defining := b.defining.erase (l, name) }
      | .error e b => .error e { b with defining := b.defining.erase (l, name) } := rfl

lemma performs_whileDefining {α : Type} {step : Area → Area → Prop} {P : Area → Prop}
    {Q : α → Area → Prop} (hP : Stable step P) (hQ : ∀ v, Stable step fun a => P a ∧ Q v a)
    {l : LoaderId} {name : String}
    (henter : ∀ a, step a { a with defining := (l, name) :: a.defining })
    (hleave : ∀ a, step a { a with defining := a.defining.erase (l, name) }) {x : AreaM α}
    (hx : Performs step P x Q) : Performs step P (whileDefining l name x) Q := by
  intro a ha
  have hentered := hP _ _ (henter a) ha
  obtain ⟨hsteps, hq⟩ := hx _ hentered
  unfold finalState
  rw [whileDefining_eq]
  cases hrun : x { a with defining := (l, name) :: a.defining } with
  | ok v b =>
    rw [finalState_of_ok hrun] at hsteps
    refine ⟨(hsteps.head (henter a)).tail (hleave b), fun w c hw => ?_⟩
    cases hw
    exact (hQ v _ _ (hleave b) ⟨hP.reflTransGen hsteps hentered, hq v b hrun⟩).2
  | error e b =>
    rw [finalState_of_error hrun] at hsteps
    refine ⟨(hsteps.head (henter a)).tail (hleave b), fun w c hw => ?_⟩
    cases hw

section

variable {step : Area → Area → Prop} {P : Area → Prop} {N : Class → Area → Prop}
  {load : String → AreaM Class}

/-- What a class is linked below was handed on and is no interface; there may be nothing only above
the top of the hierarchy. -/
lemma Carries.linkSuperclass (h : Carries step P N) (hload : ∀ n, Performs step P (load n) N)
    (l : LoaderId) (d : Definition) :
    Performs step P (Area.linkSuperclass load l d) fun v a =>
      (v = none → l = .bootstrap ∧ d.name = objectName) ∧
        ∀ s ∈ v, s.isInterface = false ∧ N s a := by
  unfold Area.linkSuperclass
  split
  · refine Performs.bind_stable h.stable (hload _) fun s => ?_
    split
    · exact .throw_bind _
    · next hclass =>
      refine .pure fun a ha => ⟨by simp, fun x hx => ?_⟩
      cases hx
      exact ⟨by simpa using hclass, ha.2⟩
  · split
    · next hcond =>
      simp only [Bool.and_eq_true, decide_eq_true_eq] at hcond
      exact .pure fun _ _ => ⟨fun _ => ⟨hcond.2, hcond.1⟩, by simp⟩
    · exact .throw _

/-- The interfaces of a class were handed on, and they are interfaces. -/
lemma Carries.linkInterfaces (h : Carries step P N) (hload : ∀ n, Performs step P (load n) N)
    (d : Definition) (names : List String) :
    Performs step P (Area.linkInterfaces load d names) fun is a =>
      ∀ i ∈ is, i.isInterface = true ∧ N i a := by
  induction names with
  | nil => exact .pure fun _ _ => by simp
  | cons name names ih =>
    unfold Area.linkInterfaces
    refine Performs.bind_stable h.stable (hload name) fun i => ?_
    split
    · exact .throw_bind _
    · next hinterface =>
      refine Performs.bind_stable (h.carried i)
        (ih.weaken (fun _ ha => ha.1) fun _ _ his => his) fun is => .pure fun a ha j hj => ?_
      rcases List.mem_cons.1 hj with rfl | hj
      · exact ⟨by simpa using hinterface, ha.1.2⟩
      · exact ha.2 j hj

lemma link_name (d : Definition) (id : ClassId) (l : LoaderId) (s : Option Class) :
    (d.link id l s).name = d.name := by
  unfold Definition.link
  split <;> rfl

lemma link_id (d : Definition) (id : ClassId) (l : LoaderId) (s : Option Class) :
    (d.link id l s).id = id := by
  unfold Definition.link
  split <;> rfl

lemma link_loader (d : Definition) (id : ClassId) (l : LoaderId) (s : Option Class) :
    (d.link id l s).loader = l := by
  unfold Definition.link
  split <;> rfl

lemma link_initializer (d : Definition) (id : ClassId) (l : LoaderId) (s : Option Class) :
    (d.link id l s).initializer = d.initializer := by
  unfold Definition.link
  split <;> rfl

/-- A class as it comes out of linking: it belongs to the loader, has the identity that was taken
last, says about itself what a definition says that the loader had, and stands below a class and
interfaces that were handed on, unless it is the top of the hierarchy. -/
structure Derived (P : Area → Prop) (N : Class → Area → Prop) (l : LoaderId) (name : String)
    (c : Class) (a : Area) : Prop where
  named : c.name = name
  loader : c.loader = l
  superclass : (∃ d, c = .root d) ∧ l = .bootstrap ∧ name = objectName ∨
    ∃ d s is, c = .derived d s is ∧ (s.isInterface = false ∧ N s a) ∧
      (∀ i ∈ is, i.isInterface = true ∧ N i a) ∧
      ∃ e : Definition, d = e.link d.id d.loader (some s)
  identity : ∃ b, P b ∧ a = { b with nextId := b.nextId + 1 } ∧ c.id = ⟨b.nextId⟩
  source : ∃ b e id s, P b ∧ b.definition? l name = some e ∧ c.data = e.link id l s

lemma performs_freshId (hid : ∀ a, step a { a with nextId := a.nextId + 1 }) (Q : Area → Prop) :
    Performs step Q freshId fun id a =>
      ∃ b, Q b ∧ a = { b with nextId := b.nextId + 1 } ∧ id = ⟨b.nextId⟩ := by
  refine fun a ha => ⟨.single (hid a), fun id b hrun => ?_⟩
  cases hrun
  exact ⟨a, ha, rfl, rfl⟩

/-- Linking a class takes the steps of the loads it makes and an identity. -/
lemma Carries.derive (h : Carries step P N) (hsound : ∀ a, P a → a.Sound)
    (hid : ∀ a, step a { a with nextId := a.nextId + 1 })
    (hload : ∀ n, Performs step P (load n) N) (l : LoaderId) (name : String) :
    Performs step P (Area.derive load l name) fun c a => Derived P N l name c a := by
  unfold Area.derive
  refine Performs.bind .get fun a => ?_
  cases hd : (a.loaders.get? l).bind fun data => data.definitions.get? name with
  | none => exact .throw _
  | some d =>
    intro b hb
    have ha : P a := hb.1 ▸ hb.2
    have hname : d.name = name := by
      obtain ⟨data, hdata, hd⟩ := Option.bind_eq_some_iff.1 hd
      exact (hsound a ha).defined l data name d hdata hd
    revert b
    suffices hlink : Performs step P _ fun c a => Derived P N l name c a from
      fun b hb => hlink b hb.2
    refine Performs.bind_stable h.stable (h.linkSuperclass hload l d) fun s => ?_
    match s with
    | none =>
      intro b hb
      obtain ⟨hl, hobject⟩ := hb.2.1 rfl
      revert b
      suffices hrest : Performs step P _ fun c a => Derived P N l name c a from
        fun b hb => hrest b hb.1
      refine Performs.bind_stable h.stable (h.linkInterfaces hload d _) fun is => ?_
      refine Performs.bind (performs_freshId hid _) fun id => .pure fun a ha => ?_
      obtain ⟨b, hb, rfl, rfl⟩ := ha
      exact ⟨(link_name d _ l _).trans hname, link_loader d _ l _,
        .inl ⟨⟨_, rfl⟩, hl, hname.symm.trans hobject⟩, ⟨b, hb.1, rfl, rfl⟩,
        a, d, _, none, ha, hd, rfl⟩
    | some s =>
      refine Performs.weaken (P := fun a => (P a ∧ N s a) ∧ s.isInterface = false) ?_
        (fun _ hs => ⟨⟨hs.1, (hs.2.2 s rfl).2⟩, (hs.2.2 s rfl).1⟩) fun _ _ hc => hc
      have hcarried : Stable step fun a => (P a ∧ N s a) ∧ s.isInterface = false :=
        fun a b hstep ha => ⟨h.carried s a b hstep ha.1, ha.2⟩
      refine Performs.bind_stable hcarried
        ((h.linkInterfaces hload d _).weaken (fun _ hs => hs.1.1) fun _ _ his => his) fun is => ?_
      refine Performs.bind (performs_freshId hid _) fun id => .pure fun a ha => ?_
      obtain ⟨b, ⟨⟨⟨hb, hs⟩, hclass⟩, his⟩, rfl, rfl⟩ := ha
      have hkept : ∀ c, N c b → N c { b with nextId := b.nextId + 1 } :=
        fun c hc => (h.carried c _ _ (hid b) ⟨hb, hc⟩).2
      exact ⟨(link_name d _ l _).trans hname, link_loader d _ l _,
        .inr ⟨_, s, is, rfl, ⟨hclass, hkept s hs⟩, fun i hi => (his i hi).imp_right (hkept i),
          d, by rw [link_id, link_loader]⟩, ⟨b, hb, rfl, rfl⟩, a, d, _, some s, ha, hd, rfl⟩

end

/-- Linking a class, where nothing has to be known of the classes that are loaded. -/
lemma performs_derive {step : Area → Area → Prop} {P : Area → Prop} {load : String → AreaM Class}
    (hP : Stable step P) (hsound : ∀ a, P a → a.Sound) (harray : ∀ a b, ArrayStep a b → step a b)
    (hload : ∀ n, Performs step P (load n) fun _ _ => True) (l : LoaderId) (name : String) :
    Performs step P (derive load l name) fun c _ => c.name = name :=
  ((carries_any hP harray).derive hsound (fun a => harray _ _ (.identity a)) hload l name).weaken
    (fun _ h => h) fun _ _ h => h.named

section

variable {step : Area → Area → Prop} {P : Area → Prop} {N : Class → Area → Prop}

lemma Carries.loadBare (h : Carries step P N) (s : Spelling) :
    Performs step P (loadSpelled.loadBare s) N := by
  unfold loadSpelled.loadBare
  refine Performs.bind_stable h.stable (h.findSpelled _ s) fun v => ?_
  match v with
  | some c => exact .pure fun _ ha => ha.2 c rfl
  | none => exact .throw _

/-- An array class is made if it is not found. -/
lemma Carries.orElse (h : Carries step P N) (l : LoaderId) {s : Spelling}
    (hs : ∀ n, s ≠ .plain n) {otherwise : AreaM Class} (hotherwise : Performs step P otherwise N) :
    Performs step P (do
      match ← Area.findSpelled l s with
      | some c => return c
      | none => otherwise) fun c a => (∀ n, s = .plain n → c.name = n) ∧ N c a := by
  refine Performs.bind_stable h.stable (h.findSpelled l s) fun v => ?_
  cases v with
  | some c => exact .pure fun _ ha => ⟨fun n hn => (hs n hn).elim, ha.2 c rfl⟩
  | none =>
    exact hotherwise.weaken (fun _ ha => ha.1) fun _ _ hc => ⟨fun n hn => (hs n hn).elim, hc⟩

/-- Loading by a name taken apart, where classes that are no arrays are loaded step by step if the
loader does not have them. -/
lemma Carries.loadSpelled {loadPlain : LoaderId → String → AreaM Class} (h : Carries step P N)
    (hsound : ∀ a, P a → a.Sound)
    {l : LoaderId} (hload : ∀ n, IsPlain n →
      Performs step (fun a => P a ∧ a.published? l n = none) (loadPlain l n)
        fun c a => c.name = n ∧ N c a)
    {s : Spelling} (hs : s.Proper) :
    Performs step P (Area.loadSpelled loadPlain l s) fun c a =>
      (∀ n, s = .plain n → c.name = n) ∧ N c a := by
  have hcomponent : ∀ s : Spelling, (Performs step P (Area.loadSpelled loadPlain l s) fun c a =>
        (∀ n, s = .plain n → c.name = n) ∧ N c a) →
      Performs step P (do Area.arrayOf (← Area.loadSpelled loadPlain l s)) N := by
    intro s hload
    refine Performs.bind_stable h.stable hload fun c => ?_
    exact (h.arrayOf c).weaken (fun _ ha => ⟨ha.1, ha.2.2⟩) fun _ _ hx => hx
  induction s with
  | plain name =>
    unfold Area.loadSpelled
    refine Performs.bind_stable (Q := fun v a => v = a.published? l name) h.stable ?_ fun v => ?_
    · exact fun a _ => ⟨.refl, fun v b hrun => by cases hrun; rfl⟩
    cases v with
    | some c =>
      refine .pure fun a ha => ⟨fun n hn => ?_, h.published a l name c ha.1 ha.2.symm⟩
      cases hn
      exact (hsound a ha.1).keyed l name c ha.2.symm
    | none =>
      refine (hload name hs).weaken (fun _ ha => ⟨ha.1, ha.2.symm⟩)
        fun c _ hc => ⟨fun n hn => ?_, hc.2⟩
      cases hn
      exact hc.1
  | nested name s ih => exact h.orElse l (by simp) (hcomponent s (ih hs))
  | object name s ih => exact h.orElse l (by simp) (hcomponent s (ih hs))
  | unclosed name => exact h.orElse l (by simp) (h.loadBare _)
  | bare name s => exact h.orElse l (by simp) (h.loadBare _)

/-- Loading by a name taken apart, where nothing has to be known of the classes. -/
lemma performs_loadSpelled {loadPlain : LoaderId → String → AreaM Class} (hP : Stable step P)
    (hsound : ∀ a, P a → a.Sound) (harray : ∀ a b, ArrayStep a b → step a b)
    {l : LoaderId} (hload : ∀ n, IsPlain n → Performs step P (loadPlain l n) fun c _ => c.name = n)
    {s : Spelling} (hs : s.Proper) :
    Performs step P (loadSpelled loadPlain l s) fun c _ => ∀ n, s = .plain n → c.name = n :=
  ((carries_any hP harray).loadSpelled hsound (fun n hn => (hload n hn).weaken
    (fun _ ha => ha.1) fun _ _ hc => ⟨hc, trivial⟩) hs).weaken (fun _ ha => ha) fun _ _ hc => hc.1

end

/-! ### The steps of loading -/

/-- A kind of steps that loading is made of, where only some loaders are asked, and each class is
given only to some of these. -/
structure Confined (step : Area → Area → Prop) (P : Area → Prop) (asked : LoaderId → Prop)
    (gets : LoaderId → String → Prop) : Prop where
  stable : Stable step P
  sound : ∀ a, P a → a.Sound
  array : ∀ a b, ArrayStep a b → step a b
  enter : ∀ (a : Area) l name, step a { a with defining := (l, name) :: a.defining }
  leave : ∀ (a : Area) l name, step a { a with defining := a.defining.erase (l, name) }
  counted : ∀ a : Area, step a { a with loads := a.loads + 1 }
  record : ∀ (a : Area) l (c : Class) t, gets l c.name → IsPlain c.name →
    a.constraints.accept l c = .ok t → step a { a.withClass l c with constraints := t }
  /-- The loader that is to define a class may be asked, and the one that asks may get the class. -/
  delegate : ∀ a l name d, P a → asked l → a.definer? l name = some d → asked d ∧ gets l name

namespace Confined

variable {step : Area → Area → Prop} {P : Area → Prop} {asked : LoaderId → Prop}
  {gets : LoaderId → String → Prop}

lemma recordLoaded (h : Confined step P asked gets) {l : LoaderId} {c : Class}
    (hgets : gets l c.name) (hplain : IsPlain c.name) :
    Performs step P (recordLoaded l c) fun _ _ => True := by
  intro a _
  refine ⟨?_, fun _ _ _ => trivial⟩
  rcases recordLoaded_cases l c a with ⟨e, hrun⟩ | ⟨t, haccept, -, hrun⟩
  · rw [finalState_of_error hrun]
  · rw [finalState_of_ok hrun]
    exact .single (h.record a l c t hgets hplain haccept)

lemma defineClass (h : Confined step P asked gets) {load : String → AreaM Class}
    (hload : ∀ n, Performs step P (load n) fun _ _ => True) {l : LoaderId} {name : String}
    (hgets : gets l name) (hplain : IsPlain name) :
    Performs step P (defineClass load l name) fun c _ => c.name = name := by
  unfold Area.defineClass
  refine Performs.bind .get fun a => ?_
  refine Performs.weaken (P := P) ?_ (fun _ ha => ha.2) fun _ _ hc => hc
  split
  · exact .throw_bind _
  · have hderive := performs_derive h.stable h.sound h.array hload l name
    refine Performs.seq h.stable (performs_whileDefining h.stable
      (fun _ => h.stable.and fun _ _ _ h => h) (fun a => h.enter a l name)
      (fun a => h.leave a l name) hderive) fun c hc => ?_
    refine Performs.seq (p := fun _ => True) h.stable
      (h.recordLoaded (hc ▸ hgets) (hc ▸ hplain)) fun _ _ => ?_
    refine Performs.seq (p := fun _ => True) h.stable
      (.modify fun a _ => ⟨h.counted a, trivial⟩) fun _ _ => ?_
    exact .pure fun _ _ => hc

/-- Loading a class that is no array goes through the steps that loading is made of. -/
lemma loadPlain (h : Confined step P asked gets) (steps : Nat) {l : LoaderId} (hl : asked l)
    {name : String} (hplain : IsPlain name) :
    Performs step P (loadPlain steps l name) fun c _ => c.name = name := by
  induction steps generalizing l name with
  | zero => exact .throw _
  | succ n ih =>
    have hspelled : ∀ {l}, asked l → ∀ {s : Spelling}, s.Proper → Performs step P
        (loadSpelled (Area.loadPlain n) l s) fun c _ => ∀ n, s = .plain n → c.name = n :=
      fun hl _ => performs_loadSpelled h.stable h.sound h.array fun _ => ih hl
    unfold Area.loadPlain
    refine Performs.bind .get fun a => ?_
    cases hd : a.definer? l name with
    | none => exact .throw _
    | some d =>
      intro b hb
      obtain ⟨hasked, hgets⟩ := h.delegate a l name d (hb.1 ▸ hb.2) hl hd
      revert b
      refine Performs.weaken (P := P) ?_ (fun _ ha => ha.2) fun _ _ hc => hc
      dsimp only
      split
      · refine h.defineClass (fun s => ?_) hgets hplain
        exact (hspelled hl (Spelling.proper_ofName s)).weaken (fun _ h => h) fun _ _ _ => trivial
      · refine Performs.seq h.stable (hspelled hasked (s := .plain name) hplain) fun c hc => ?_
        have hname : c.name = name := hc name rfl
        refine Performs.seq (p := fun _ => True) h.stable
          (h.recordLoaded (hname ▸ hgets) (hname ▸ hplain)) fun _ _ => ?_
        exact .pure fun _ _ => hname

end Confined

lemma confined_loading : Confined LoadStep Sound (fun _ => True) fun _ _ => True where
  stable := sound_stable_loading
  sound _ h := h
  array _ _ := .array
  enter := .enter
  leave := .leave
  counted := .counted
  record _ _ _ _ _ := .record
  delegate _ _ _ _ _ _ _ := ⟨trivial, trivial⟩

lemma performs_loadPlain (steps : Nat) (l : LoaderId) {name : String} (hplain : IsPlain name) :
    Performs LoadStep Sound (loadPlain steps l name) fun c _ => c.name = name :=
  confined_loading.loadPlain steps trivial hplain

end Area

end Linkage
