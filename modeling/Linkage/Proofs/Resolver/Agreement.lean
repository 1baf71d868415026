import Linkage.Proofs.Area.Agreement
import Linkage.Proofs.Resolver.Run

/-!
# Agreement on the types of members

When a member was resolved across loaders, the loader of the class that declares it and the loader
of the class that uses it agree on every class that the member speaks of, from then on and whatever
happens. The resolution leaves the two loaders bound to each other; the rest is the invariant of
`Area.Agrees`.
-/

namespace Linkage

open Relation

/-! ### Lookup -/

namespace Class

variable {name : String} {descriptor : FieldType} {f : FieldHandle}

lemma findField?_eq_some {c : Class} (h : c.findField? name descriptor = some f) :
    f.owner = c ∧ f.field.descriptor = descriptor := by
  obtain ⟨i, hi, hf⟩ := Option.bind_eq_some_iff.1 h
  obtain ⟨hlt, hmatch, -⟩ := List.findIdx?_eq_some_iff_getElem.1 hi
  unfold fieldAt? at hf
  split at hf
  · next field hfield =>
    cases hf
    rw [List.getElem?_eq_getElem hlt, Option.some.injEq] at hfield
    subst hfield
    simp only [Bool.and_eq_true, decide_eq_true_eq] at hmatch
    exact ⟨rfl, hmatch.2⟩
  · cases hf

mutual

/-- A field that is looked up by its type has this type, and what passes to the superclass and the
interfaces of a class holds of the class that declares the field. -/
lemma lookupField?_eq_some {P : Class → Prop}
    (hP : ∀ c, P c → (∀ s, c.superclass? = some s → P s) ∧ ∀ i ∈ c.interfaces, P i) {c : Class}
    (hc : P c) (h : c.lookupField? name descriptor = some f) :
    P f.owner ∧ f.field.descriptor = descriptor := by
  unfold lookupField? at h
  rcases Option.or_eq_some_iff.1 h with hown | ⟨-, h⟩
  · obtain ⟨howner, hdescriptor⟩ := findField?_eq_some hown
    exact ⟨howner ▸ hc, hdescriptor⟩
  match c with
  | .root _ => cases h
  | .derived d s is =>
    rcases Option.or_eq_some_iff.1 h with his | ⟨-, hs⟩
    · exact lookupFieldAny?_eq_some hP (hP _ hc).2 his
    · exact lookupField?_eq_some hP ((hP _ hc).1 s rfl) hs
  | .primitiveArray d s is p =>
    rcases Option.or_eq_some_iff.1 h with his | ⟨-, hs⟩
    · exact lookupFieldAny?_eq_some hP (hP _ hc).2 his
    · exact lookupField?_eq_some hP ((hP _ hc).1 s rfl) hs
  | .array d s is e =>
    rcases Option.or_eq_some_iff.1 h with his | ⟨-, hs⟩
    · exact lookupFieldAny?_eq_some hP (hP _ hc).2 his
    · exact lookupField?_eq_some hP ((hP _ hc).1 s rfl) hs

lemma lookupFieldAny?_eq_some {P : Class → Prop}
    (hP : ∀ c, P c → (∀ s, c.superclass? = some s → P s) ∧ ∀ i ∈ c.interfaces, P i)
    {cs : List Class} (hcs : ∀ c ∈ cs, P c)
    (h : lookupFieldAny? cs name descriptor = some f) :
    P f.owner ∧ f.field.descriptor = descriptor := by
  match cs with
  | [] => cases h
  | c :: cs =>
    unfold lookupFieldAny? at h
    rcases Option.or_eq_some_iff.1 h with hc | ⟨-, hrest⟩
    · exact lookupField?_eq_some hP (hcs c List.mem_cons_self) hc
    · exact lookupFieldAny?_eq_some hP (fun d hd => hcs d (List.mem_cons_of_mem c hd)) hrest

end

lemma lookupField?_descriptor {c : Class} (h : c.lookupField? name descriptor = some f) :
    f.field.descriptor = descriptor :=
  (lookupField?_eq_some (P := fun _ => True) (fun _ _ => ⟨fun _ _ => trivial, fun _ _ => trivial⟩)
    trivial h).2

end Class

namespace Resolver

/-! ### What a resolution registers -/

variable {r r' : Resolver} {declaring referer : Class}

lemma Evolves.agrees (h : Evolves r r') (ha : r.area.Agrees) : r'.area.Agrees :=
  Area.agrees_stable.reflTransGen h.area ha

lemma Evolves.apartOn (h : Evolves r r') {n : String} (ha : r.area.ApartOn n) :
    r'.area.ApartOn n :=
  (Area.apartOn_stable n).reflTransGen h.area ha

lemma Evolves.bound_of_apartOn (h : Evolves r r') {n : String} (ha : r.area.ApartOn n)
    {x y : LoaderId} (hb : Area.Bound n x y r.area) : Area.Bound n x y r'.area :=
  ((Area.bound_stable n x y).reflTransGen h.area ⟨ha, hb⟩).2

lemma Evolves.bound (h : Evolves r r') (ha : r.area.Agrees) {n : String} (hn : IsPlain n)
    {x y : LoaderId} (hb : Area.Bound n x y r.area) : Area.Bound n x y r'.area :=
  h.bound_of_apartOn (ha.apartOn hn) hb

/-- Afterwards two loaders have to agree on the name. -/
lemma bound_of_constrain {n : String} (ha : r.area.ApartOn n)
    (hc : r.config.loadingConstraints = true) (h : constrain n declaring referer r = .ok () r') :
    Area.Bound n declaring.loader referer.loader r'.area := by
  unfold constrain at h
  rw [bind_of_ok (get_apply r), hc] at h
  by_cases hl : declaring.loader = referer.loader
  · exact .inl hl
  · simp only [ne_eq, hl, not_false_eq_true, decide_true, Bool.and_self, if_true] at h
    obtain ⟨changed, s, hrun, hs⟩ := bind_eq_ok.1 h
    cases hs
    obtain ⟨b, hadd, rfl⟩ := onArea_eq_ok.1 hrun
    exact ha.bound_of_addConstraint hadd

lemma bound_of_constrainAll (hr : r.area.Sound) {n : String} (ha : r.area.ApartOn n)
    (hc : r.config.loadingConstraints = true) {names : List String}
    (h : constrainAll declaring referer names r = .ok () r') (hmem : n ∈ names) :
    Area.Bound n declaring.loader referer.loader r'.area := by
  induction names generalizing r with
  | nil => cases hmem
  | cons name names ih =>
    obtain ⟨⟨⟩, s, hfirst, hrest⟩ := bind_eq_ok.1 h
    have hs := evolves_of_ok hfirst (covers_built.constrain _ _ _) hr
    rcases List.mem_cons.1 hmem with rfl | hmem
    · have hr' := evolves_of_ok hrest (covers_built.constrainAll _ _ _) (hs.sound hr)
      exact hr'.bound_of_apartOn (hs.apartOn ha) (bound_of_constrain ha hc hfirst)
    · exact ih (hs.sound hr) (hs.apartOn ha) (hs.config ▸ hc) hrest hmem

/-- The use of a member by `referer` was resolved between two states, and the member, declared in
`declaring`, speaks of a class name: the element class of a field, of a parameter or of a result, or
the class that declares a method. -/
inductive ResolvesMember (r r' : Resolver) : Class → Class → String → Prop where
  | field {u : FieldUse} {mode : ResolveMode} {f : FieldHandle} {n : String}
      (resolved : Gives (resolveField u mode) r f r')
      (type : f.field.descriptor.elementClassName? = some n) :
      ResolvesMember r r' f.owner u.referer n
  | methodType {u : MethodUse} {mode : ResolveMode} {m called : MethodHandle} {s : Resolver}
      {t : FieldType} {n : String} (found : Gives (foundMethod u mode) r m s)
      (resolved : Gives (resolveMethod u mode) r called r')
      (mem : t ∈ m.method.descriptor.types) (type : t.elementClassName? = some n) :
      ResolvesMember r r' m.owner u.referer n
  | methodOwner {u : MethodUse} {mode : ResolveMode} {m called : MethodHandle} {s : Resolver}
      (found : Gives (foundMethod u mode) r m s)
      (resolved : Gives (resolveMethod u mode) r called r') :
      ResolvesMember r r' m.owner u.referer m.owner.name

lemma fieldAsked_evolves (r : Resolver) : Evolves r r.fieldAsked := ⟨.refl, rfl⟩

lemma methodAsked_evolves (r : Resolver) : Evolves r r.methodAsked := ⟨.refl, rfl⟩

lemma reported_evolves (r : Resolver) (what result : String) : Evolves r (r.reported what result) :=
  ⟨.refl, rfl⟩

lemma Passes.evolves {p : Prop} [Decidable p] {x : ResolutionM Unit} (h : Passes p x r r')
    (hx : Built x.run) (hr : r.area.Sound) : Evolves r r' := by
  unfold Passes at h
  split at h
  · exact h.evolves hx hr
  · exact h ▸ .refl r

/-- Each state on the way to a field evolves from the one before. -/
lemma evolves_resolveField {u : FieldUse} {mode : ResolveMode} {container : Class} {f : FieldHandle}
    {r₁ r₂ r₃ r₄ r₅ : Resolver} (hr : r.area.Sound)
    (h₁ : Gives (resolveContainer u.target.container u.method mode) r.fieldAsked container r₁)
    (h₂ : Passes (!u.isStatic)
      (checkSubtypes u.referer u.instances (.loaded f.owner) false mode .linkage) r₁ r₂)
    (h₃ : Gives (checkStored u mode) r₂ () r₃)
    (h₄ : Gives (checkAccess u.referer f.owner f.field.flags u.isStatic u.instances mode
      s!"field {f.text}") r₃ () r₄)
    (h₅ : constrainAll f.owner u.referer u.target.descriptor.elementClassName?.toList r₄ =
      .ok () r₅) :
    Evolves r r₁ ∧ Evolves r₁ r₂ ∧ Evolves r₂ r₃ ∧ Evolves r₃ r₄ ∧ Evolves r₄ r₅ := by
  have e₁ := (fieldAsked_evolves r).trans (h₁.evolves (covers_built.resolveContainer _ _ _) hr)
  have hr₁ := e₁.sound hr
  have e₂ := h₂.evolves (covers_built.checkSubtypes _ _ _ _ _ _) hr₁
  have hr₂ := e₂.sound hr₁
  have e₃ := h₃.evolves (covers_built.checkStored _ _) hr₂
  have hr₃ := e₃.sound hr₂
  have e₄ := h₄.evolves (covers_built.checkAccess _ _ _ _ _ _ _) hr₃
  exact ⟨e₁, e₂, e₃, e₄, evolves_of_ok h₅ (covers_built.constrainAll _ _ _) (e₄.sound hr₃)⟩

/-- Each state on the way to the method that is called evolves from the one before. -/
lemma evolves_resolveMethod {u : MethodUse} {mode : ResolveMode} {container : Class}
    {m target : MethodHandle} {r₁ r₂ r₃ r₄ r₅ r₆ r₇ : Resolver} (hr : r.area.Sound)
    (h₁ : Gives (resolveContainer u.target.container u.method mode) r.methodAsked container r₁)
    (h₂ : Gives (lookupTarget container u.target) r₁ m r₂)
    (h₃ : Passes (!u.isStatic)
      (checkSubtypes u.referer u.instances (.loaded container) false mode .linkage) r₂ r₃)
    (h₄ : Gives (checkArguments u.referer mode u.target.descriptor.parameters
      (u.arguments.getD [])) r₃ () r₄)
    (h₅ : Gives (checkAccess u.referer m.owner m.method.flags u.isStatic u.instances mode
      s!"method {m.text}") r₄ () r₅)
    (h₆ : constrainAll m.owner u.referer (agreedNames m) r₅ = .ok () r₆)
    (h₇ : if u.isSpecial then target = m ∧ r₆ = r₇
      else devirtualize m u.instances r₆ = .ok target r₇) :
    Evolves r r₁ ∧ Evolves r₁ r₂ ∧ Evolves r₂ r₃ ∧ Evolves r₃ r₄ ∧ Evolves r₄ r₅ ∧
      Evolves r₅ r₆ ∧ Evolves r₆ r₇ := by
  have e₁ := (methodAsked_evolves r).trans (h₁.evolves (covers_built.resolveContainer _ _ _) hr)
  have hr₁ := e₁.sound hr
  have e₂ := h₂.evolves (covers_built.lookupTarget _ _) hr₁
  have hr₂ := e₂.sound hr₁
  have e₃ := h₃.evolves (covers_built.checkSubtypes _ _ _ _ _ _) hr₂
  have hr₃ := e₃.sound hr₂
  have e₄ := h₄.evolves (covers_built.checkArguments _ _ _ _) hr₃
  have hr₄ := e₄.sound hr₃
  have e₅ := h₅.evolves (covers_built.checkAccess _ _ _ _ _ _ _) hr₄
  have hr₅ := e₅.sound hr₄
  have e₆ := evolves_of_ok h₆ (covers_built.constrainAll _ _ _) hr₅
  refine ⟨e₁, e₂, e₃, e₄, e₅, e₆, ?_⟩
  split at h₇
  · exact h₇.2 ▸ .refl r₆
  · exact evolves_of_ok h₇ (covers_built.devirtualize _ _) (e₆.sound hr₅)

section

variable (hr : r.area.Sound) (ha : r.area.Agrees) (hc : r.config.loadingConstraints = true)
include hr ha hc

/-- A resolved field use leaves the loaders bound on the type of the field. -/
lemma bound_of_resolveField {u : FieldUse} {mode : ResolveMode} {f : FieldHandle}
    (h : Gives (resolveField u mode) r f r') {n : String} (hn : IsPlain n)
    (htype : f.field.descriptor.elementClassName? = some n) :
    Area.Bound n f.owner.loader u.referer.loader r'.area := by
  obtain ⟨container, r₁, r₂, r₃, r₄, r₅, h₁, hlookup, -, h₂, h₃, h₄, h₅, rfl⟩ :=
    gives_resolveField.1 h
  obtain ⟨e₁, e₂, e₃, e₄, e₅⟩ := evolves_resolveField hr h₁ h₂ h₃ h₄ h₅
  have before := ((e₁.trans e₂).trans e₃).trans e₄
  have hmem : n ∈ u.target.descriptor.elementClassName?.toList := by
    rw [← Class.lookupField?_descriptor hlookup, htype]
    exact List.mem_singleton_self n
  have hbound := bound_of_constrainAll (before.sound hr) (before.apartOn (ha.apartOn hn))
    (before.config ▸ hc) h₅ hmem
  exact (reported_evolves r₅ _ _).bound_of_apartOn ((before.trans e₅).apartOn (ha.apartOn hn))
    hbound

/-- A resolved method use leaves the loaders bound on all names that the method speaks of. -/
lemma bound_of_resolveMethod {u : MethodUse} {mode : ResolveMode} {m called : MethodHandle}
    {s : Resolver} (hfound : Gives (foundMethod u mode) r m s)
    (h : Gives (resolveMethod u mode) r called r') {n : String} (hn : IsPlain n)
    (hmem : n ∈ agreedNames m) : Area.Bound n m.owner.loader u.referer.loader r'.area := by
  obtain ⟨container, m', r₁, r₂, r₃, r₄, r₅, r₆, r₇, hcontainer, hlookup, -, h₃, h₄, h₅, h₆, h₇,
    rfl⟩ := gives_resolveMethod.1 h
  obtain ⟨rfl, rfl⟩ := Gives.unique hfound (gives_foundMethod.2 ⟨_, _, hcontainer, hlookup⟩)
  obtain ⟨e₁, e₂, e₃, e₄, e₅, e₆, e₇⟩ :=
    evolves_resolveMethod hr hcontainer hlookup h₃ h₄ h₅ h₆ h₇
  have before := (((e₁.trans e₂).trans e₃).trans e₄).trans e₅
  have hbound := bound_of_constrainAll (before.sound hr) (before.apartOn (ha.apartOn hn))
    (before.config ▸ hc) h₆ hmem
  exact (e₇.trans (reported_evolves r₇ _ _)).bound ((before.trans e₆).agrees ha) hn hbound

/-- A resolved use leaves the loaders bound on every plain name that the member speaks of. -/
lemma ResolvesMember.bound {n : String} (h : ResolvesMember r r' declaring referer n)
    (hn : IsPlain n) : Area.Bound n declaring.loader referer.loader r'.area := by
  cases h with
  | field resolved type => exact bound_of_resolveField hr ha hc resolved hn type
  | methodType found resolved mem type =>
    refine bound_of_resolveMethod hr ha hc found resolved hn ?_
    exact List.mem_append_left _ (List.mem_filterMap.2 ⟨_, mem, type⟩)
  | methodOwner found resolved =>
    refine bound_of_resolveMethod hr ha hc found resolved hn ?_
    exact List.mem_append_right _ (List.mem_singleton_self _)

end

lemma ResolvesMember.evolves (hr : r.area.Sound) {n : String}
    (h : ResolvesMember r r' declaring referer n) : Evolves r r' := by
  cases h with
  | field resolved => exact resolved.evolves (built_resolveField _ _) hr
  | methodType _ resolved => exact resolved.evolves (built_resolveMethod _ _) hr
  | methodOwner _ resolved => exact resolved.evolves (built_resolveMethod _ _) hr

/-- Loaders agree across every resolved use: from the state on in which a member was resolved, in
every run, the loader of the declaring class and the loader of the referring class have the same
class under each name that the member speaks of, as soon as both of them have one. -/
theorem loaders_agree {start before after later : Resolver} (hstart : start.area = Area.initial)
    (henabled : start.config.loadingConstraints = true) (hbefore : Run start before)
    {n : String} (hn : IsPlain n) (hresolved : ResolvesMember before after declaring referer n)
    (hlater : Run after later) {c d : Class} {a b : Area}
    (hc : Area.findLoaded declaring.loader n later.area = .ok (some c) a)
    (hd : Area.findLoaded referer.loader n later.area = .ok (some d) b) : c.same d = true := by
  have hsound : start.area.Sound := hstart ▸ Area.initial_sound
  have hagrees : start.area.Agrees := hstart ▸ Area.initial_agrees
  have hb := hbefore.evolves hsound
  have ha := hresolved.evolves (hb.sound hsound)
  have hl := hlater.evolves (ha.sound (hb.sound hsound))
  have hbound := hresolved.bound (hb.sound hsound) (hb.agrees hagrees) (hb.config ▸ henabled) hn
  have hboundLater := hl.bound (ha.agrees (hb.agrees hagrees)) hn hbound
  rw [Area.findLoaded_of_isPlain hn] at hc hd
  simp only [EStateM.Result.ok.injEq] at hc hd
  exact (hl.agrees (ha.agrees (hb.agrees hagrees))).same hn hboundLater hc.1 hd.1

/-! ### Two loaders -/

/-- A parent loader defines a class with a field, and a child loader a class that uses it. -/
def twoLoaders : List Operation :=
  [.addLoader .bootstrap false, .addLoader ⟨1⟩ false,
    .define ⟨1⟩ { name := "p/T", flags := Flag.accPublic.mask },
    .define ⟨1⟩
      { name := "p/D"
        flags := Flag.accPublic.mask
        fields := [⟨Flag.accPublic.mask, "f", .object "p/T"⟩] },
    .define ⟨2⟩
      { name := "q/R"
        flags := Flag.accPublic.mask
        methods := [⟨Flag.accPublic.mask, "m", ⟨[], .void⟩⟩] },
    .load ⟨2⟩ "q/R"]

/-- The use of the field by the class of the child loader. -/
def fieldOfParent? (r : Resolver) : Option FieldUse :=
  (r.area.published? ⟨2⟩ "q/R").bind fun c => (c.methodAt? 0).map fun m =>
    ⟨m, ⟨⟨c, "p/D"⟩, "f", .object "p/T"⟩, false, false, [], []⟩

/-- The child loader gets the type of the field after the use was resolved, and it gets the class
that the parent loader has. -/
theorem loaders_agree_on_field :
    ∃ u f after c d a b,
      fieldOfParent? (performAll twoLoaders { area := Area.initial }) = some u ∧
      Gives (resolveField u .eager) (performAll twoLoaders { area := Area.initial }) f after ∧
      f.owner.loader ≠ u.referer.loader ∧
      Area.findLoaded f.owner.loader "p/T" (performAll [.load ⟨2⟩ "p/T"] after).area =
        .ok (some c) a ∧
      Area.findLoaded u.referer.loader "p/T" (performAll [.load ⟨2⟩ "p/T"] after).area =
        .ok (some d) b ∧ c.same d = true := by
  have htest : ((fieldOfParent? (performAll twoLoaders { area := Area.initial })).any fun u =>
      givesWhere (resolveField u .eager) (fun f after =>
        f.owner.loader ≠ u.referer.loader && f.field.descriptor = .object "p/T" &&
          ((performAll [.load ⟨2⟩ "p/T"] after).area.published? f.owner.loader "p/T").isSome &&
          ((performAll [.load ⟨2⟩ "p/T"] after).area.published? u.referer.loader "p/T").isSome)
        (performAll twoLoaders { area := Area.initial })) = true := by
    decide +kernel
  obtain ⟨u, hu, htest⟩ := (Option.any_eq_true _ _).1 htest
  obtain ⟨f, after, hf, haccept⟩ := exists_gives htest
  simp only [Bool.and_eq_true, decide_eq_true_eq, Option.isSome_iff_exists] at haccept
  obtain ⟨⟨⟨hne, htype⟩, c, hc⟩, d, hd⟩ := haccept
  have hplain : IsPlain "p/T" := by decide
  have hfindC := Area.findLoaded_of_isPlain hplain f.owner.loader
    (performAll [.load ⟨2⟩ "p/T"] after).area
  have hfindD := Area.findLoaded_of_isPlain hplain u.referer.loader
    (performAll [.load ⟨2⟩ "p/T"] after).area
  rw [hc] at hfindC
  rw [hd] at hfindD
  refine ⟨u, f, after, c, d, _, _, hu, hf, hne, hfindC, hfindD, ?_⟩
  exact loaders_agree rfl rfl (run_performAll (by simp [twoLoaders, Operation.Orderly]) _) hplain
    (.field hf (by rw [htype]; rfl)) (run_performAll (by simp [Operation.Orderly]) _) hfindC hfindD

end Resolver

end Linkage
