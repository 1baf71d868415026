import Linkage.Proofs.Resolver.Agreement
import Linkage.Proofs.Resolver.Protected
import Linkage.Proofs.Resolver.Tidy

/-!
# Values that are stored and passed

What is known of a value when a use is created is checked when the use is resolved: the classes of
the value are resolved one by one and compared with the class that the field or the parameter names,
unless that is an interface. Asked again afterwards, without loading anything, the value is known to
be assignable. The classes were compared as they were resolved, while the question looks them up by
their names, so this rests on finding under each name the class that it was resolved to.
-/

namespace Linkage

open Relation

/-! ### Answers for classes that are found -/

namespace ReferenceType

variable {a : Area} {m dest : Mention}

lemma mention_ofClassRef (r : ClassRef) : (ofClassRef r).mention = .symbolic r := by
  unfold ofClassRef
  dsimp only
  split
  · rfl
  · split <;> rfl

lemma merged_ofClassRef (r : ClassRef) : (ofClassRef r).merged = none := by
  unfold ofClassRef
  dsimp only
  split
  · rfl
  · split <;> rfl

lemma branches_ofClassRef (r : ClassRef) : (ofClassRef r).branches = [.symbolic r] := by
  rw [branches, merged_ofClassRef, mention_ofClassRef]
  rfl

@[simp] lemma mention_ofMention (m : Mention) : (ofMention m).mention = m := by
  cases m with
  | loaded c => rfl
  | symbolic r => exact mention_ofClassRef r

@[simp] lemma merged_ofMention (m : Mention) : (ofMention m).merged = none := by
  cases m with
  | loaded c => rfl
  | symbolic r => exact merged_ofClassRef r

@[simp] lemma branches_ofMention (m : Mention) : (ofMention m).branches = [m] := by
  cases m with
  | loaded c => rfl
  | symbolic r => exact branches_ofClassRef r

lemma classAssignable_of_known (h : m.knownSame dest = true ∨ dest.isObject = true) :
    classAssignable m dest a = .ok .yes a := by
  rw [classAssignable]
  split
  · rfl
  · next hnot => simp [h] at hnot

lemma classAssignable_of_found {v d : Class} (hv : m.find a = .ok (some v) a)
    (hd : dest.find a = .ok (some d) a) (h : v.isAssignableTo d = true) :
    classAssignable m dest a = .ok .yes a := by
  rw [classAssignable]
  split
  · rfl
  · rw [bind_of_ok hv, bind_of_ok hd]
    simp only [h]
    rfl

lemma allAssignable_of_forall {ms : List Mention}
    (h : ∀ m ∈ ms, classAssignable m dest a = .ok .yes a) :
    allAssignable dest ms a = .ok .yes a := by
  induction ms with
  | nil => rfl
  | cons m ms ih =>
    unfold allAssignable
    rw [bind_of_ok (h m List.mem_cons_self),
      bind_of_ok (ih fun m hm => h m (List.mem_cons_of_mem _ hm))]
    rfl

end ReferenceType

/-- A class that goes by the name of no array is found under its own name only. -/
lemma Area.Tidy.eq_name_of_find {a : Area} (h : a.Tidy) {l : LoaderId} {n : String} {c : Class}
    (hfind : findLoaded l n a = .ok (some c) a) (hc : IsPlain c.name) : n = c.name := by
  by_cases hn : IsPlain n
  · rw [findLoaded_of_isPlain hn] at hfind
    simp only [EStateM.Result.ok.injEq, and_true] at hfind
    exact (h.sound.keyed l n c hfind).symm
  · obtain ⟨v, b, hrun, -, harray⟩ := h.arrays.findLoaded l n
    rw [hfind] at hrun
    cases hrun
    exact absurd hc (Class.not_isPlain_of_isArray (harray hn c rfl))

/-- The value is an object or null, not a value of a primitive type, a return address or an object
under construction. -/
def ValueType.IsReference : ValueType → Prop
  | .null | .reference _ => True
  | _ => False

/-- All classes that a value may be of are named from the code of a class. -/
def ValueType.NamedFrom (referer : Class) (t : ValueType) : Prop :=
  ∀ s, t = .reference s → ∀ m ∈ s.branches, ∃ n, m = .symbolic ⟨referer, n⟩ ∧ IsReadable n

/-! ### Uses -/

/-- The use of a field that stores a value where a class is expected. -/
lemma FieldUse.create_stored {method : MethodHandle} {target : FieldRef} {isStatic : Bool}
    {object : Option ValueType} {t : ValueType} {u : FieldUse} {name : String}
    (h : FieldUse.create method target isStatic true object (some t) = .ok u)
    (hname : target.descriptor.className? = some name) :
    t.IsReference ∧ u.target = target ∧ u.isPut = true ∧ u.values = .ofValue t name := by
  have hlast : ∀ (x : Except Fault SubtypeSet) (values : Except Fault SubtypeSet),
      (∀ set, values = .ok set → t.IsReference ∧ set = .ofValue t name) →
      (x >>= fun instances => values >>= fun values =>
        pure ⟨method, target, isStatic, true, instances, values⟩) = .ok u →
      t.IsReference ∧ u.target = target ∧ u.isPut = true ∧ u.values = .ofValue t name := by
    intro x values hvalues hx
    cases x with
    | error e => cases hx
    | ok instances =>
      cases values with
      | error e => cases hx
      | ok set =>
        obtain ⟨hreference, rfl⟩ := hvalues set rfl
        cases hx
        exact ⟨hreference, rfl, rfl, rfl⟩
  unfold FieldUse.create at h
  simp only [hname, if_true] at h
  have hpure : ∀ set, pure (SubtypeSet.ofValue t name) = (.ok set : Except Fault SubtypeSet) →
      set = .ofValue t name := fun set hset => by
    cases hset
    rfl
  cases t with
  | reference | null =>
    have hvalues := fun set hset => And.intro trivial (hpure set hset)
    cases isStatic with
    | true => exact hlast (pure []) _ hvalues h
    | false => exact hlast _ _ hvalues h
  | _ =>
    cases isStatic with
    | true => exact hlast (pure []) (throw _) (fun _ hset => by cases hset) h
    | false => exact hlast _ (throw _) (fun _ hset => by cases hset) h

/-- The use of a method with arguments. -/
lemma MethodUse.create_arguments {method : MethodHandle} {target : MethodRef}
    {isStatic isSpecial : Bool} {object : Option ValueType} {ts : List ValueType} {u : MethodUse}
    (h : MethodUse.create method target isStatic isSpecial object ts = .ok u) :
    u.target = target ∧ argumentSets method target ts = .ok u.arguments := by
  have hlast : ∀ x : Except Fault SubtypeSet, (x >>= fun instances =>
      argumentSets method target ts >>= fun arguments =>
        pure ⟨method, target, isStatic, isSpecial, instances, arguments⟩) = .ok u →
      u.target = target ∧ argumentSets method target ts = .ok u.arguments := by
    intro x hx
    cases x with
    | error e => cases hx
    | ok instances =>
      cases hsets : argumentSets method target ts with
      | error e =>
        rw [hsets] at hx
        cases hx
      | ok sets =>
        rw [hsets] at hx
        cases hx
        exact ⟨rfl, rfl⟩
  unfold MethodUse.create at h
  cases isStatic with
  | true =>
    cases isSpecial with
    | true => cases h
    | false => exact hlast (pure []) h
  | false =>
    simp only [Bool.false_and, Bool.false_eq_true, if_false] at h
    cases hset : instanceSet method target.container.name object
        (decide (target.name = constructorName)) with
    | error e =>
      rw [hset] at h
      cases h
    | ok set =>
      rw [hset] at h
      simp only [bind, Except.bind] at h
      split at h
      · exact hlast (.ok _) h
      · exact hlast (.ok set) h

/-- An argument for a parameter that names a class is among those to check, unless there is nothing
to check for it. -/
lemma mem_argumentSets {method : MethodHandle} {target : MethodRef} {ts : List ValueType}
    {sets : Option (List SubtypeSet)} (h : argumentSets method target ts = .ok sets)
    {p : FieldType} {t : ValueType} (hmem : (p, t) ∈ target.descriptor.parameters.zip ts)
    {name : String} (hname : p.className? = some name) :
    SubtypeSet.ofValue t name = [] ∨
      (p, SubtypeSet.ofValue t name) ∈ target.descriptor.parameters.zip (sets.getD []) := by
  unfold argumentSets at h
  split at h
  · next hempty =>
    rw [List.isEmpty_iff.1 hempty, List.zip_nil_right] at hmem
    cases hmem
  · split at h
    · cases h
    · cases h
      by_cases hset : SubtypeSet.ofValue t name = []
      · exact .inl hset
      · obtain ⟨i, hi⟩ := List.mem_iff_getElem?.1 hmem
        obtain ⟨hp, ht⟩ := List.getElem?_zip_eq_some.1 hi
        have hsets : (List.zipWith (fun (p : FieldType) t => p.className?.elim [] fun declared =>
            SubtypeSet.ofValue t declared) target.descriptor.parameters ts)[i]? =
            some (SubtypeSet.ofValue t name) := by
          simp [List.getElem?_zipWith, hp, ht, hname]
        have hany : (List.zipWith (fun (p : FieldType) t => p.className?.elim [] fun declared =>
            SubtypeSet.ofValue t declared) target.descriptor.parameters ts).any
            (fun s => !s.isEmpty) = true := by
          refine List.any_eq_true.2 ⟨_, List.mem_of_getElem? hsets, ?_⟩
          simpa using hset
        rw [if_pos hany]
        exact .inr (List.mem_of_getElem? (List.getElem?_zip_eq_some.2 ⟨hp, hsets⟩))

namespace Resolver

/-! ### Checks -/

section

variable {referer : Class} {name : String} {mode : ResolveMode} {kind : FaultKind}
  {r r' q : Resolver}

lemma find_of_resolveName {method : Option MethodHandle} {check : Bool} {c : Class}
    (hread : IsReadable name) (hr : r.area.Sound)
    (h : Gives (resolveName referer method name mode check) r c r') (hq : Evolves r' q)
    (htidy : q.area.Tidy) : Area.findLoaded referer.loader name q.area = .ok (some c) q.area := by
  simp only [resolveName, gives_bind, gives_effective] at h
  obtain ⟨_, _, ⟨-, rfl⟩, _, _, hspelled, h⟩ := h
  split at h
  · exact absurd h gives_fail
  · obtain ⟨rfl, rfl⟩ := gives_pure.1 h
    exact find_of_resolveSpelled hread hr hspelled hq htidy

lemma find_of_resolveMention {c : Class} (hread : IsReadable name) (hr : r.area.Sound)
    (h : Gives (resolveMention (.symbolic ⟨referer, name⟩) mode) r c r') (hq : Evolves r' q)
    (htidy : q.area.Tidy) : Area.findLoaded referer.loader name q.area = .ok (some c) q.area :=
  find_of_resolveName hread hr h hq htidy

/-- Each class of a set that was checked was resolved to a class that was accepted. -/
lemma accepted_of_checkMembers {type : Class} {set : SubtypeSet} (hr : r.area.Sound)
    (h : Gives (checkMembers referer type false mode kind set) r () r') {m : Mention}
    (hm : m ∈ set) :
    ∃ c s s', s.area.Sound ∧ Gives (resolveMention m mode) s c s' ∧ accepts type c = true ∧
      Evolves s' r' := by
  induction set generalizing r with
  | nil => cases hm
  | cons m' ms ih =>
    obtain ⟨c, s, hc, haccepts, hrest⟩ := gives_checkMembers_cons.1 h
    have hs := (hc.evolves (covers_built.resolveMention _ _) hr).sound hr
    rcases List.mem_cons.1 hm with rfl | hms
    · exact ⟨c, r, s, hr, hc, haccepts, hrest.evolves (covers_built.checkMembers _ _ _ _ _ _) hs⟩
    · exact ih hs hrest hms

/-- A named class that was compared with a class is known to be assignable to it later, however that
class is mentioned. -/
lemma assignable_of_checkMembers {type : Class} {set : SubtypeSet} {dest : Mention}
    (hr : r.area.Sound) (h : Gives (checkMembers referer type false mode kind set) r () r')
    (hq : Evolves r' q) (htidy : q.area.Tidy) (hdest : dest.find q.area = .ok (some type) q.area)
    (hobject : type.name = objectName → dest.isObject = true) {ref : ClassRef}
    (hread : IsReadable ref.name) (hm : .symbolic ref ∈ set) :
    ReferenceType.classAssignable (.symbolic ref) dest q.area = .ok .yes q.area := by
  obtain ⟨v, s, s', hs, hv, haccepts, hs'⟩ := accepted_of_checkMembers hr h hm
  have hvalue := find_of_resolveMention hread hs hv (hs'.trans hq) htidy
  simp only [accepts, Bool.or_eq_true, decide_eq_true_eq] at haccepts
  rcases haccepts with hassignable | hname
  · exact ReferenceType.classAssignable_of_found hvalue hdest hassignable
  · exact ReferenceType.classAssignable_of_known (.inr (hobject hname))

/-- After the check of a value its type is known to be assignable, unless an interface takes it. -/
lemma assignable_of_checkSubtypes {t : ValueType} (hr : r.area.Sound) (hread : IsReadable name)
    (hshape : t.IsReference) (hnamed : t.NamedFrom referer)
    (h : Gives (checkSubtypes referer (.ofValue t name) (.symbolic ⟨referer, name⟩) false mode kind)
      r () r') (hq : Evolves r' q) (htidy : q.area.Tidy) :
    t.assignable (.reference (.ofClassRef ⟨referer, name⟩)) q.area = .ok .yes q.area ∨
      ∃ d, Area.findLoaded referer.loader name q.area = .ok (some d) q.area ∧
        d.isInterface = true := by
  match t with
  | .null => exact .inl rfl
  | .reference t =>
    have hassignable : (∀ m ∈ t.branches,
        ReferenceType.classAssignable m (.symbolic ⟨referer, name⟩) q.area = .ok .yes q.area) →
        (ValueType.reference t).assignable (.reference (.ofClassRef ⟨referer, name⟩)) q.area =
          .ok .yes q.area := by
      intro hall
      change ReferenceType.allAssignable (ReferenceType.ofClassRef ⟨referer, name⟩).mention
        t.branches q.area = _
      rw [ReferenceType.mention_ofClassRef]
      exact ReferenceType.allAssignable_of_forall hall
    by_cases hexempt : t.Exempt name
    · -- Nothing was checked, and nothing has to be looked up.
      refine .inl (hassignable fun m hm => ReferenceType.classAssignable_of_known ?_)
      rcases hexempt with rfl | ⟨hmerged, hname⟩
      · exact .inr rfl
      · obtain ⟨n, rfl, -⟩ := hnamed t rfl m hm
        have hmention : .symbolic ⟨referer, n⟩ = t.mention := by
          simpa [ReferenceType.branches, hmerged] using hm
        rw [← hmention] at hname
        obtain rfl : n = name := hname
        exact .inl (Mention.knownSame_self _)
    · by_cases hset : SubtypeSet.ofValue (.reference t) name = []
      · refine .inl (hassignable fun m hm => ?_)
        have hmem := SubtypeSet.mem_ofValue hexempt hm
        rw [hset] at hmem
        cases hmem
      · obtain ⟨c, s, hc, h⟩ := (gives_checkSubtypes_iff hset).1 h
        have hs := (hc.evolves (covers_built.resolveMention _ _) hr).sound hr
        split at h
        · next hinterface =>
          subst h
          exact .inr ⟨c, find_of_resolveMention hread hr hc hq htidy, by simpa using hinterface⟩
        · have hlater := (h.evolves (covers_built.checkMembers _ _ _ _ _ _) hs).trans hq
          have hdest : (Mention.symbolic ⟨referer, name⟩).find q.area = .ok (some c) q.area :=
            find_of_resolveMention hread hr hc hlater htidy
          refine .inl (hassignable fun m hm => ?_)
          obtain ⟨n, rfl, hn⟩ := hnamed t rfl m hm
          refine assignable_of_checkMembers hs h hq htidy hdest
            (fun hobject => ?_) hn (SubtypeSet.mem_ofValue hexempt hm)
          -- A class with the name of the top of the hierarchy is meant by that name only.
          have hname := htidy.eq_name_of_find hdest (by rw [hobject]; decide)
          exact decide_eq_true (hname.trans hobject)

/-- Each argument of a call was checked against its parameter. -/
lemma gives_checkArguments {ps : List FieldType} {ss : List SubtypeSet} (hr : r.area.Sound)
    (h : Gives (checkArguments referer mode ps ss) r () r') {p : FieldType} {set : SubtypeSet}
    (hmem : (p, set) ∈ ps.zip ss) (hname : p.className? = some name) :
    ∃ s s', s.area.Sound ∧
      Gives (checkSubtypes referer set (.symbolic ⟨referer, name⟩) false mode .linkage) s () s' ∧
      Evolves s' r' := by
  induction ps generalizing r ss with
  | nil => cases hmem
  | cons p' ps ih =>
    cases ss with
    | nil => cases hmem
    | cons set' ss =>
      unfold checkArguments at h
      cases hp' : p'.className? with
      | none =>
        simp only [hp'] at h
        rcases List.mem_cons.1 hmem with heq | hmem
        · cases heq
          rw [hname] at hp'
          cases hp'
        · exact ih hr h hmem
      | some n =>
        simp only [hp', gives_bind, gives_counted] at h
        obtain ⟨⟨⟩, s, hfirst, hrest⟩ := h
        have hs := (hfirst.evolves (covers_built.checkSubtypes _ _ _ _ _ _) hr).sound hr
        rcases List.mem_cons.1 hmem with heq | hmem
        · cases heq
          rw [hname] at hp'
          cases hp'
          exact ⟨r, s, hr, hfirst, hrest.evolves (covers_built.checkArguments _ _ _ _) hs⟩
        · exact ih hs hrest hmem

/-- The check of a value to be stored, on the way to the field. -/
lemma checkStored_of_resolveField {u : FieldUse} {f : FieldHandle}
    (h : Gives (resolveField u mode) r f r') (hr : r.area.Sound) :
    ∃ s s', s.area.Sound ∧ Gives (checkStored u mode) s () s' ∧ Evolves s' r' := by
  obtain ⟨container, r₁, r₂, r₃, r₄, r₅, h₁, -, -, h₂, h₃, h₄, h₅, rfl⟩ := gives_resolveField.1 h
  obtain ⟨e₁, e₂, -, e₄, e₅⟩ := evolves_resolveField hr h₁ h₂ h₃ h₄ h₅
  have later := (e₄.trans e₅).trans (reported_evolves r₅ u.text f.text)
  exact ⟨r₂, r₃, (e₁.trans e₂).sound hr, h₃, later⟩

/-- The check of the arguments, on the way to the method. -/
lemma checkArguments_of_resolveMethod {u : MethodUse} {m : MethodHandle}
    (h : Gives (resolveMethod u mode) r m r') (hr : r.area.Sound) :
    ∃ s s', s.area.Sound ∧
      Gives (checkArguments u.referer mode u.target.descriptor.parameters (u.arguments.getD []))
        s () s' ∧ Evolves s' r' := by
  obtain ⟨container, m', r₁, r₂, r₃, r₄, r₅, r₆, r₇, h₁, h₂, -, h₃, h₄, h₅, h₆, h₇, rfl⟩ :=
    gives_resolveMethod.1 h
  obtain ⟨e₁, e₂, e₃, -, e₅, e₆, e₇⟩ := evolves_resolveMethod hr h₁ h₂ h₃ h₄ h₅ h₆ h₇
  have later := ((e₅.trans e₆).trans e₇).trans (reported_evolves r₇ u.text m.text)
  exact ⟨r₃, r₄, ((e₁.trans e₂).trans e₃).sound hr, h₄, later⟩

end

/-! ### Values that a use hands over -/

/-- The use of a field or a method from the code of a class was created and resolved, and it hands
over a value of type `t` where a field or a parameter has the type `p`. -/
inductive Handed (r r' : Resolver) : Class → ValueType → FieldType → Prop where
  | stored {method : MethodHandle} {target : FieldRef} {isStatic : Bool}
      {object : Option ValueType} {t : ValueType} {u : FieldUse} {mode : ResolveMode}
      {f : FieldHandle}
      (created : FieldUse.create method target isStatic true object (some t) = .ok u)
      (resolved : Gives (resolveField u mode) r f r') :
      Handed r r' target.container.referer t target.descriptor
  | passed {method : MethodHandle} {target : MethodRef} {isStatic isSpecial : Bool}
      {object : Option ValueType} {ts : List ValueType} {t : ValueType} {p : FieldType}
      {u : MethodUse} {mode : ResolveMode} {m : MethodHandle}
      (created : MethodUse.create method target isStatic isSpecial object ts = .ok u)
      (resolved : Gives (resolveMethod u mode) r m r')
      (argument : (p, t) ∈ target.descriptor.parameters.zip ts) (shape : t.IsReference) :
      Handed r r' target.container.referer t p

section

variable {r r' : Resolver} {referer : Class} {t : ValueType} {p : FieldType}

lemma Handed.tidy (h : Handed r r' referer t p) (hr : r.area.Tidy) : r'.area.Tidy := by
  cases h with
  | stored _ resolved => exact resolved.tidy (covers_tidies.resolveField _ _) hr
  | passed _ resolved => exact resolved.tidy (covers_tidies.resolveMethod _ _) hr

/-- The check that a value went through on its way. -/
lemma Handed.checked (h : Handed r r' referer t p) {name : String}
    (hname : p.className? = some name) (hr : r.area.Sound) :
    t.IsReference ∧ ∃ mode s s', s.area.Sound ∧
      Gives (checkSubtypes referer (.ofValue t name) (.symbolic ⟨referer, name⟩) false mode
        .linkage) s () s' ∧ Evolves s' r' := by
  cases h with
  | @stored _ target _ _ _ u mode _ created resolved =>
    obtain ⟨hshape, rfl, hput, hvalues⟩ := FieldUse.create_stored created hname
    obtain ⟨s, s', hs, hstored, hlater⟩ := checkStored_of_resolveField resolved hr
    simp only [checkStored, hput, FieldRef.typeRef?, hname, hvalues] at hstored
    exact ⟨hshape, mode, s, s', hs, hstored, hlater⟩
  | @passed _ target _ _ _ ts _ _ u mode _ created resolved argument shape =>
    obtain ⟨rfl, hsets⟩ := MethodUse.create_arguments created
    obtain ⟨s, s', hs, harguments, hlater⟩ := checkArguments_of_resolveMethod resolved hr
    refine ⟨shape, mode, ?_⟩
    rcases mem_argumentSets hsets argument hname with hempty | hmem
    · have hpassed := harguments.evolves (covers_built.checkArguments _ _ _ _) hs
      refine ⟨s, s, hs, ?_, hpassed.trans hlater⟩
      rw [hempty]
      rfl
    · obtain ⟨s₁, s₂, hs₁, hchecked, hs₂⟩ := gives_checkArguments hs harguments hmem hname
      exact ⟨s₁, s₂, hs₁, hchecked, hs₂.trans hlater⟩

/-- Values are checked before they are handed over. When a use that stores or passes an object or
null was resolved, the type of the value is known to be assignable to the class that the field or
the parameter names, unless that is an interface. -/
theorem handed_assignable {start : Resolver} (hstart : start.area = Area.initial)
    (hrun : GenuineRun start r) (h : Handed r r' referer t p) {name : String}
    (hname : p.className? = some name) (hread : IsReadable name) (hnamed : t.NamedFrom referer) :
    t.IsReference ∧
      (t.assignable (.ofFieldType referer p) r'.area = .ok .yes r'.area ∨
        ∃ d, Area.findLoaded referer.loader name r'.area = .ok (some d) r'.area ∧
          d.isInterface = true) := by
  have hr : r.area.Tidy := hrun.tidy (hstart ▸ Area.initial_tidy)
  obtain ⟨hshape, mode, s, s', hs, hchecked, hlater⟩ := h.checked hname hr.sound
  have htype : ValueType.ofFieldType referer p = .reference (.ofClassRef ⟨referer, name⟩) := by
    simp only [ValueType.ofFieldType, hname]
  rw [htype]
  exact ⟨hshape, assignable_of_checkSubtypes hs hread hshape hnamed hchecked hlater (h.tidy hr)⟩

end

/-! ### Stores into static fields -/

/-- A class with static fields, the classes of what is stored there, and a class that stores. -/
def storingClasses : List Operation :=
  [.define .bootstrap { name := "p/T", flags := Flag.accPublic.mask },
    .define .bootstrap { name := "p/S", flags := Flag.accPublic.mask, superclass := some "p/T" },
    .define .bootstrap
      { name := "p/D"
        flags := Flag.accPublic.mask
        fields :=
          [⟨Flag.accPublic.mask ||| Flag.accStatic.mask, "object", .object "p/T"⟩,
            ⟨Flag.accPublic.mask ||| Flag.accStatic.mask, "number", .primitive .int⟩,
            ⟨Flag.accPublic.mask ||| Flag.accStatic.mask, "objects", .array (.object "p/T")⟩] },
    .define .bootstrap
      { name := "q/R"
        flags := Flag.accPublic.mask
        methods := [⟨Flag.accPublic.mask, "m", ⟨[], .void⟩⟩] },
    .load .bootstrap "q/R"]

/-- The resolver when the class that stores is loaded. -/
def storing : Resolver := performAll storingClasses { area := Area.initial }

/-- The method that stores. -/
def storer? : Option MethodHandle :=
  (storing.area.published? .bootstrap "q/R").bind fun c => c.methodAt? 0

/-- An object of a class that the method names. -/
def objectOf (m : MethodHandle) (value : String) : ValueType :=
  .ofMention (.symbolic ⟨m.owner, value⟩)

/-- The store of such an object into one of the fields. -/
def store (m : MethodHandle) (field : String) (type : FieldType) (value : String) :
    Except Fault FieldUse :=
  FieldUse.create m ⟨⟨m.owner, "p/D"⟩, field, type⟩ true true none (some (objectOf m value))

/-- Whether the store is resolved, to a state that a test accepts. -/
def storesWhere (field : String) (type : FieldType) (value : String)
    (accept : MethodHandle → Resolver → Bool) : Bool :=
  storer?.any fun m =>
    match store m field type value with
    | .error _ => false
    | .ok u => givesWhere (resolveField u .eager) (fun _ r' => accept m r') storing

lemma exists_store {field : String} {type : FieldType} {value : String}
    {accept : MethodHandle → Resolver → Bool} (h : storesWhere field type value accept = true) :
    ∃ m r', storer? = some m ∧ Handed storing r' m.owner (objectOf m value) type ∧
      accept m r' = true := by
  obtain ⟨m, hm, h⟩ := (Option.any_eq_true _ _).1 h
  split at h
  · cases h
  · next u hu =>
    obtain ⟨f, r', hf, haccept⟩ := exists_gives h
    exact ⟨m, r', hm, .stored hu hf, haccept⟩

lemma genuineRun_storing : GenuineRun { area := Area.initial } storing :=
  genuineRun_performAll (by simp [storingClasses, Operation.Genuine]) _

/-- An object of a subclass is stored, and then it is known to be assignable. -/
theorem stored_object_assignable :
    ∃ m r', storer? = some m ∧ Handed storing r' m.owner (objectOf m "p/S") (.object "p/T") ∧
      (objectOf m "p/S").assignable (.ofFieldType m.owner (.object "p/T")) r'.area =
        .ok .yes r'.area := by
  have htest : storesWhere "object" (.object "p/T") "p/S" (fun m r' =>
      (r'.area.published? m.owner.loader "p/T").all fun d => !d.isInterface) = true := by
    decide +kernel
  obtain ⟨m, r', hm, hstored, haccept⟩ := exists_store htest
  have hplain : IsPlain "p/T" := by decide
  have hnamed : (objectOf m "p/S").NamedFrom m.owner := by
    have hvalue : IsPlain "p/S" := by decide
    rintro s ⟨⟩ m' hm'
    rw [ReferenceType.ofMention, ReferenceType.branches_ofClassRef, List.mem_singleton] at hm'
    exact ⟨"p/S", hm', hvalue.isReadable⟩
  refine ⟨m, r', hm, hstored, ?_⟩
  obtain ⟨-, hyes | ⟨d, hd, hinterface⟩⟩ :=
    handed_assignable rfl genuineRun_storing hstored rfl hplain.isReadable hnamed
  · exact hyes
  · rw [Area.findLoaded_of_isPlain hplain] at hd
    simp only [EStateM.Result.ok.injEq, and_true] at hd
    simp [hd, hinterface] at haccept

/-- Nothing is checked where a field is of a primitive type: an object is stored into an `int`. And
an array whose name only the resolver understands is stored, although it is not known to be
assignable. -/
theorem stored_but_not_assignable :
    (∃ m r', storer? = some m ∧ Handed storing r' m.owner (objectOf m "p/S") (.primitive .int) ∧
      (objectOf m "p/S").assignable (.ofFieldType m.owner (.primitive .int)) r'.area =
        .ok .no r'.area) ∧
    ∃ m r' a, storer? = some m ∧
      Handed storing r' m.owner (objectOf m "[p/S") (.array (.object "p/T")) ∧
      (objectOf m "[p/S").assignable (.ofFieldType m.owner (.array (.object "p/T"))) r'.area =
        .ok .no a := by
  constructor
  · have htest : storesWhere "number" (.primitive .int) "p/S" (fun _ _ => true) = true := by
      decide +kernel
    obtain ⟨m, r', hm, hstored, -⟩ := exists_store htest
    exact ⟨m, r', hm, hstored, rfl⟩
  · have htest : storesWhere "objects" (.array (.object "p/T")) "[p/S" (fun m r' =>
        yields (fun answer => answer = .no) ((objectOf m "[p/S").assignable
          (.ofFieldType m.owner (.array (.object "p/T"))) r'.area)) = true := by
      decide +kernel
    obtain ⟨m, r', hm, hstored, haccept⟩ := exists_store htest
    obtain ⟨answer, a, ha, hanswer⟩ := exists_of_yields haccept
    obtain rfl := of_decide_eq_true hanswer
    exact ⟨m, r', a, hm, hstored, ha⟩

/-- The resolver when a class is known as well whose method takes an object. -/
def passing : Resolver :=
  performAll
    [.define .bootstrap
      { name := "p/E"
        flags := Flag.accPublic.mask
        methods :=
          [⟨Flag.accPublic.mask ||| Flag.accStatic.mask, "take", ⟨[.object "p/T"], .void⟩⟩] }]
    storing

/-- The call of the method with a number in place of the object. -/
def passesNumber (m : MethodHandle) : Except Fault MethodUse :=
  MethodUse.create m ⟨⟨m.owner, "p/E"⟩, "take", ⟨[.object "p/T"], .void⟩, false⟩ true false none
    [.primitive]

/-- Arguments that are no references are not checked, whatever the parameter: a number passes for
an object in a call, where the store of the number is refused before it can be resolved. -/
theorem number_passes_for_object :
    ∃ m u, storer? = some m ∧ passesNumber m = .ok u ∧
      (∃ called r', Gives (resolveMethod u .eager) passing called r') ∧
      ∃ f, FieldUse.create m ⟨⟨m.owner, "p/D"⟩, "object", .object "p/T"⟩ true true none
        (some .primitive) = .error f := by
  have htest : (storer?.any fun m => (passesNumber m).toOption.any fun u =>
      givesWhere (resolveMethod u .eager) (fun _ _ => true) passing) = true := by
    decide +kernel
  obtain ⟨m, hm, htest⟩ := (Option.any_eq_true _ _).1 htest
  obtain ⟨u, hu, htest⟩ := (Option.any_eq_true _ _).1 htest
  obtain ⟨called, r', hcalled, -⟩ := exists_gives htest
  refine ⟨m, u, hm, ?_, ⟨called, r', hcalled⟩, _, rfl⟩
  cases hpasses : passesNumber m with
  | error f =>
    rw [hpasses] at hu
    cases hu
  | ok v =>
    rw [hpasses] at hu
    cases hu
    rfl

end Resolver

end Linkage
