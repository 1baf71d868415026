import Linkage.Proofs.Dispatch.Slots
import Linkage.Proofs.Lattice.Order

/-!
# Superinterfaces

The superinterfaces of a class are collected breadth first, from a queue and what was visited so
far. Every interface behind what was visited was visited as well or still waits in the queue, so in
the end nothing is missing, however many ways lead to an interface; and nothing is visited twice.
What is collected is what the class implements, if nothing but the top of the hierarchy is above an
interface, and this decides where a method is looked for.
-/

namespace Linkage

open Relation

namespace Class

variable {c i j v w : Class} {queue rest visited : List Class}

/-! ### The walk -/

/-- The second class is a direct superinterface of the first. -/
def Extends (j i : Class) : Prop := i ∈ j.interfaces

/-- Nothing was visited twice, and behind what was visited nothing is lost. -/
structure Explored (queue visited : List Class) : Prop where
  apart : (visited.map id).Nodup
  closed : ∀ v ∈ visited, ∀ i, v.Extends i → i ∈ queue ∨ ∃ w ∈ visited, w.same i = true

/-- An interface that was visited is skipped. -/
lemma Explored.skip (h : Explored (i :: rest) visited) (hseen : ∃ v ∈ visited, v.same i = true) :
    Explored rest visited where
  apart := h.apart
  closed v hv j hj := by
    rcases h.closed v hv j hj with hqueue | hvisited
    · rcases List.mem_cons.1 hqueue with rfl | hrest
      · exact .inr hseen
      · exact .inl hrest
    · exact .inr hvisited

/-- An interface is visited, and its own interfaces wait at the end of the queue. -/
lemma Explored.visit (h : Explored (i :: rest) visited)
    (hnew : ¬ ∃ v ∈ visited, v.same i = true) :
    Explored (rest ++ i.interfaces) (visited ++ [i]) where
  apart := by
    rw [List.map_append, List.map_singleton, List.nodup_append_comm, List.singleton_append,
      List.nodup_cons]
    refine ⟨fun hmem => hnew ?_, h.apart⟩
    obtain ⟨v, hv, hid⟩ := List.mem_map.1 hmem
    exact ⟨v, hv, same_iff.2 hid⟩
  closed v hv j hj := by
    rcases List.mem_append.1 hv with hold | hnow
    · rcases h.closed v hold j hj with hqueue | ⟨w, hw, hsame⟩
      · rcases List.mem_cons.1 hqueue with rfl | hrest
        · exact .inr ⟨j, List.mem_append_right _ List.mem_cons_self, j.same_self⟩
        · exact .inl (List.mem_append_left _ hrest)
      · exact .inr ⟨w, List.mem_append_left _ hw, hsame⟩
    · rw [List.mem_singleton.1 hnow] at hj
      exact .inl (List.mem_append_right _ hj)

lemma explored_visitInterfaces (h : Explored queue visited) :
    Explored [] (visitInterfaces queue visited) := by
  fun_induction visitInterfaces queue visited with
  | case1 visited => exact h
  | case2 visited i rest hseen ih => exact ih (h.skip (List.any_eq_true.1 hseen))
  | case3 visited i rest hnew ih => exact ih (h.visit fun hseen => hnew (List.any_eq_true.2 hseen))

/-- What was visited stays. -/
lemma subset_visitInterfaces : visited ⊆ visitInterfaces queue visited := by
  fun_induction visitInterfaces queue visited with
  | case1 visited => exact List.Subset.refl visited
  | case2 visited i rest hseen ih => exact ih
  | case3 visited i rest hnew ih => exact fun v hv => ih (List.mem_append_left _ hv)

/-- Everything in the queue is visited in the end. -/
lemma exists_mem_visitInterfaces (hi : i ∈ queue) :
    ∃ v ∈ visitInterfaces queue visited, v.same i = true := by
  fun_induction visitInterfaces queue visited with
  | case1 visited => cases hi
  | case2 visited j rest hseen ih =>
    rcases List.mem_cons.1 hi with rfl | hrest
    · obtain ⟨v, hv, hsame⟩ := List.any_eq_true.1 hseen
      exact ⟨v, subset_visitInterfaces hv, hsame⟩
    · exact ih hrest
  | case3 visited j rest hnew ih =>
    rcases List.mem_cons.1 hi with rfl | hrest
    · exact ⟨i, subset_visitInterfaces (List.mem_append_right _ List.mem_cons_self), i.same_self⟩
    · exact ih (List.mem_append_left _ hrest)

/-- What is visited comes from the queue, by a number of steps to superinterfaces. -/
lemma mem_visitInterfaces (hv : v ∈ visitInterfaces queue visited) :
    v ∈ visited ∨ ∃ i ∈ queue, ReflTransGen Extends i v := by
  fun_induction visitInterfaces queue visited with
  | case1 visited => exact .inl hv
  | case2 visited j rest hseen ih =>
    rcases ih hv with hvisited | ⟨i, hi, hreach⟩
    · exact .inl hvisited
    · exact .inr ⟨i, List.mem_cons_of_mem _ hi, hreach⟩
  | case3 visited j rest hnew ih =>
    rcases ih hv with hvisited | ⟨i, hi, hreach⟩
    · rcases List.mem_append.1 hvisited with hold | hnow
      · exact .inl hold
      · exact .inr ⟨j, List.mem_cons_self, List.mem_singleton.1 hnow ▸ .refl⟩
    · rcases List.mem_append.1 hi with hrest | hbehind
      · exact .inr ⟨i, List.mem_cons_of_mem _ hrest, hreach⟩
      · exact .inr ⟨j, List.mem_cons_self, .head hbehind hreach⟩

/-! ### Superinterfaces of a class -/

lemma explored_superinterfaces (c : Class) : Explored [] c.superinterfaces :=
  explored_visitInterfaces ⟨List.nodup_nil, fun _ hv => absurd hv List.not_mem_nil⟩

/-- What is collected comes from an interface of one of the superclasses. -/
lemma exists_of_mem_superinterfaces (hi : i ∈ c.superinterfaces) :
    ∃ s ∈ c.superclasses, ∃ j ∈ s.interfaces, ReflTransGen Extends j i := by
  rcases mem_visitInterfaces hi with hnone | ⟨j, hj, hreach⟩
  · cases hnone
  · obtain ⟨s, hs, hj⟩ := List.mem_flatMap.1 hj
    exact ⟨s, hs, j, hj, hreach⟩

/-- An interface implements whatever is reached from it by steps to superinterfaces. -/
lemma implements_of_reach (h : ReflTransGen Extends j i) :
    j.same i = true ∨ j.implements i = true := by
  induction h using ReflTransGen.head_induction_on with
  | refl => exact .inl i.same_self
  | head hstep _ ih => exact .inr (implements_iff.2 ⟨_, mem_superclasses_self _, _, hstep, ih⟩)

/-- What is collected is implemented. -/
lemma implements_of_mem_superinterfaces (hi : i ∈ c.superinterfaces) : c.implements i = true := by
  obtain ⟨s, hs, j, hj, hreach⟩ := exists_of_mem_superinterfaces hi
  exact implements_iff.2 ⟨s, hs, j, hj, implements_of_reach hreach⟩

end Class

namespace Area

variable {a : Area} {c i j s : Class}

/-- Nothing but the top of the hierarchy is above an interface. -/
def InterfacesTopped (a : Area) : Prop :=
  ∀ i, a.Owned i → i.isInterface = true → i.superclass? = some a.core.object

/-- What is called like the top of the hierarchy and comes from the bootstrap loader is this top. -/
lemma Tidy.interfacesTopped (ha : a.Tidy) (hobject : ∀ i, a.Published i → i.isInterface = true →
    ∃ s, i.superclass? = some s ∧ s.name = objectName ∧ s.loader = .bootstrap) :
    a.InterfacesTopped := by
  intro i hi hinterface
  obtain ⟨s, hs, hname, hloader⟩ := hobject i ⟨_, _, hi⟩ hinterface
  have howned : a.Owned s := ha.rooted _ _ i hi s (Class.mem_superclasses_of_superclass? hs)
  have htop : a.core.object.name = objectName ∧ a.core.object.loader = .bootstrap := by
    rw [ha.core]
    exact ⟨rfl, rfl⟩
  rw [hs, howned.eq_of_name ha.top.owned (hname.trans htop.1.symm) (hloader.trans htop.2.symm)]

/-- The superinterfaces of an interface that a loader has are interfaces, and their loaders have
them. -/
lemma Tidy.reach_owned (ha : a.Tidy) (hj : a.Owned j) (hinterface : j.isInterface = true)
    (h : ReflTransGen Class.Extends j i) : i.isInterface = true ∧ a.Owned i := by
  induction h with
  | refl => exact ⟨hinterface, hj⟩
  | tail _ hstep ih => exact ha.woven _ ih.2 _ hstep

lemma Tidy.superinterface_owned (ha : a.Tidy) (hc : a.Rooted c) (hi : i ∈ c.superinterfaces) :
    i.isInterface = true ∧ a.Owned i := by
  obtain ⟨s, hs, j, hj, hreach⟩ := Class.exists_of_mem_superinterfaces hi
  obtain ⟨hinterface, howned⟩ := ha.woven s (hc s hs) j hj
  exact ha.reach_owned howned hinterface hreach

/-- Only an interface itself has interfaces, and not the top of the hierarchy above it. -/
lemma Tidy.eq_of_interface (ha : a.Tidy) (htop : a.InterfacesTopped) (hj : a.Owned j)
    (hinterface : j.isInterface = true) (hs : s ∈ j.superclasses) (hi : i ∈ s.interfaces) :
    s = j := by
  rw [Class.superclasses_eq_cons, htop j hj hinterface, ha.core] at hs
  rcases List.mem_cons.1 hs with rfl | habove
  · rfl
  · rw [List.mem_singleton.1 habove] at hi
    cases hi

/-- What a class implements is reached from the interfaces of its superclasses by steps to
superinterfaces. -/
lemma Tidy.reach_of_implements (ha : a.Tidy) (htop : a.InterfacesTopped) (hc : a.Rooted c)
    (hi : a.Owned i) (h : c.implements i = true) :
    ∃ s ∈ c.superclasses, ∃ j ∈ s.interfaces, ReflTransGen Class.Extends j i := by
  refine ha.implements_induction hi.known (motive := fun c => a.Rooted c →
    ∃ s ∈ c.superclasses, ∃ j ∈ s.interfaces, ReflTransGen Class.Extends j i)
    ?_ ?_ hc.owned.known h hc
  · intro c s hs hi _
    exact ⟨s, hs, i, hi, .refl⟩
  · intro c s j hs hj ih hc
    obtain ⟨hinterface, howned⟩ := ha.woven s (hc s hs) j hj
    obtain ⟨t, ht, k, hk, hreach⟩ := ih (ha.rooted _ _ j howned)
    rw [ha.eq_of_interface htop howned hinterface ht hk] at hk
    exact ⟨s, hs, j, hj, .head hk hreach⟩

/-- What is reached from the interfaces of the superclasses is collected. -/
lemma Tidy.mem_superinterfaces_of_reach (ha : a.Tidy) (hc : a.Rooted c) (hs : s ∈ c.superclasses)
    (hj : j ∈ s.interfaces) (h : ReflTransGen Class.Extends j i) : i ∈ c.superinterfaces := by
  obtain ⟨hinterface, howned⟩ := ha.woven s (hc s hs) j hj
  -- What is collected and the same as an interface there is, is this interface.
  have hmem : ∀ k, a.Owned k → (∃ v ∈ c.superinterfaces, v.same k = true) →
      k ∈ c.superinterfaces := by
    rintro k hk ⟨v, hv, hsame⟩
    have hvowned := (ha.superinterface_owned hc hv).2
    rwa [(ha.same_iff hvowned.known hk.known).1 hsame] at hv
  induction h with
  | refl =>
    exact hmem j howned (Class.exists_mem_visitInterfaces (List.mem_flatMap.2 ⟨s, hs, hj⟩))
  | @tail k i hreach hstep ih =>
    have hkowned := (ha.reach_owned howned hinterface hreach).2
    rcases c.explored_superinterfaces.closed k ih i hstep with hnone | hsame
    · cases hnone
    · exact hmem i (ha.woven k hkowned i hstep).2 hsame

/-- What is collected is exactly what the class implements. -/
lemma Tidy.mem_superinterfaces_iff (ha : a.Tidy) (htop : a.InterfacesTopped) (hc : a.Rooted c)
    (hi : a.Owned i) : i ∈ c.superinterfaces ↔ c.implements i = true := by
  constructor
  · exact Class.implements_of_mem_superinterfaces
  · intro h
    obtain ⟨s, hs, j, hj, hreach⟩ := ha.reach_of_implements htop hc hi h
    exact ha.mem_superinterfaces_of_reach hc hs hj hreach

end Area

/-! ### Looking for methods -/

namespace Class

variable {c : Class} {p : Method → Bool} {h : MethodHandle} {name : String}
  {descriptor : MethodDescriptor}

lemma map_methodAt? (i : Nat) : (c.methodAt? i).map MethodHandle.method = c.methods[i]? := by
  unfold methodAt?
  split
  · next m hm => exact hm.symm
  · next hnone => exact hnone.symm

/-- What is found among the methods of a class is the first one that the test accepts. -/
lemma map_findMethodBy? : (c.findMethodBy? p).map MethodHandle.method = c.methods.find? p := by
  rw [findMethodBy?, List.find?_eq_bind_findIdx?_getElem?, Option.map_bind]
  exact congrArg _ (funext map_methodAt?)

lemma findMethod?_eq_none_iff : c.findMethod? name descriptor = none ↔
    ∀ m ∈ c.methods, m.hasSignature name descriptor = false := by
  rw [findMethod?, ← Option.map_eq_none_iff, map_findMethodBy?, List.find?_eq_none]
  simp only [Bool.not_eq_true]

/-- The superinterfaces contribute nothing if the first method of each that goes by the name and
descriptor is static or private. -/
lemma inheritedMethod?_eq_none_iff : c.inheritedMethod? name descriptor = none ↔
    ∀ i ∈ c.superinterfaces, ∀ m,
      i.methods.find? (fun m => m.hasSignature name descriptor) = some m →
        m.isStatic = true ∨ m.isPrivate = true := by
  rw [inheritedMethod?, List.findSome?_eq_none_iff]
  refine forall₂_congr fun i _ => ?_
  rw [← map_findMethodBy?, ← findMethod?]
  cases i.findMethod? name descriptor with
  | none => simp
  | some h =>
    simp only [Option.filter_some, Option.map_some, Option.some.injEq, forall_eq']
    cases h.method.isStatic <;> cases h.method.isPrivate <;> simp

end Class

namespace Resolver

/-- In every state that comes from genuine operations, and in which nothing but the top of the
hierarchy is above an interface: the superinterfaces of a class are collected once each, and they
are what the class implements. So looking for a method in a class finds none exactly if none of the
superclasses declares one, and in every interface that the class implements the first method of this
name and descriptor, if there is one, is static or private. -/
theorem superinterfaces_are_implemented {start r : Resolver} (hstart : start.area = Area.initial)
    (hrun : GenuineRun start r)
    (hobject : ∀ i, r.area.Published i → i.isInterface = true →
      ∃ s, i.superclass? = some s ∧ s.name = objectName ∧ s.loader = .bootstrap)
    {c : Class} (hc : r.area.Published c) :
    (c.superinterfaces.map Class.id).Nodup ∧
    (∀ i ∈ c.superinterfaces, r.area.Published i) ∧
    (∀ i, r.area.Published i → (i ∈ c.superinterfaces ↔ c.implements i = true)) ∧
    ∀ name descriptor, c.lookupMethod? name descriptor = none ↔
      (∀ s ∈ c.superclasses, ∀ m ∈ s.methods, m.hasSignature name descriptor = false) ∧
      ∀ i, r.area.Published i → c.implements i = true → ∀ m,
        i.methods.find? (fun m => m.hasSignature name descriptor) = some m →
          m.isStatic = true ∨ m.isPrivate = true := by
  have ha : r.area.Tidy := hrun.tidy (hstart ▸ Area.initial_tidy)
  have hrooted := ha.rooted_of_published hc
  have htop : r.area.InterfacesTopped := ha.interfacesTopped hobject
  have hmem : ∀ i, r.area.Published i → (i ∈ c.superinterfaces ↔ c.implements i = true) :=
    fun i hi => ha.mem_superinterfaces_iff htop hrooted (ha.rooted_of_published hi).owned
  have hpublished : ∀ i ∈ c.superinterfaces, r.area.Published i :=
    fun i hi => ⟨_, _, (ha.superinterface_owned hrooted hi).2⟩
  refine ⟨c.explored_superinterfaces.apart, hpublished, hmem, fun name descriptor => ?_⟩
  rw [Class.lookupMethod?, Option.or_eq_none_iff, List.findSome?_eq_none_iff,
    Class.inheritedMethod?_eq_none_iff]
  refine and_congr (forall₂_congr fun s _ => Class.findMethod?_eq_none_iff) ?_
  constructor
  · intro h i hi himplements
    exact h i ((hmem i hi).2 himplements)
  · intro h i hi
    exact h i (hpublished i hi) ((hmem i (hpublished i hi)).1 hi)

/-- Whether the interfaces in the tables of the loaders stand directly below the top of the
hierarchy. -/
def toppedTables (r : Resolver) : Bool :=
  r.area.loaders.values.all fun d => d.loaded.values.all fun i =>
    !i.isInterface || i.superclass?.any fun s => s.name = objectName && s.loader = .bootstrap

lemma superclass_of_toppedTables {r : Resolver} (h : toppedTables r = true) :
    ∀ i, r.area.Published i → i.isInterface = true →
      ∃ s, i.superclass? = some s ∧ s.name = objectName ∧ s.loader = .bootstrap := by
  rintro i ⟨l, n, hi⟩ hinterface
  obtain ⟨d, hd, hloaded⟩ := Option.bind_eq_some_iff.1 hi
  have htable := List.all_eq_true.1 h d (Table.mem_values_of_get? hd)
  have habove := List.all_eq_true.1 htable i (Table.mem_values_of_get? hloaded)
  rw [hinterface, Bool.not_true, Bool.false_or] at habove
  obtain ⟨s, hs, hobject⟩ := (Option.any_eq_true _ _).1 habove
  rw [Bool.and_eq_true, decide_eq_true_eq, decide_eq_true_eq] at hobject
  exact ⟨s, hs, hobject⟩

/-- An interface with a method, two interfaces that extend it, and a class that implements both. -/
def diamondOperations : List Operation :=
  [.define .bootstrap
      { Boot.interfaceDefinition "p/T" with
        methods := [⟨Flag.accPublic.mask ||| Flag.accAbstract.mask, "m", ⟨[], .void⟩⟩] },
    .define .bootstrap { Boot.interfaceDefinition "p/I" with interfaces := ["p/T"] },
    .define .bootstrap { Boot.interfaceDefinition "p/J" with interfaces := ["p/T"] },
    .define .bootstrap
      { name := "p/C", flags := Flag.accPublic.mask, interfaces := ["p/I", "p/J"] },
    .load .bootstrap "p/C"]

/-- The resolver when the class is loaded. -/
def diamond : Resolver := performAll diamondOperations { area := Area.initial }

lemma genuineRun_diamond : GenuineRun { area := Area.initial } diamond :=
  genuineRun_performAll (by simp [diamondOperations, Operation.Genuine]) _

/-- The class has the interface at the far end of the diamond among its superinterfaces, and the
method of this interface is found in the class. -/
theorem method_found_across_diamond :
    ∃ c t, diamond.area.Published c ∧ diamond.area.Published t ∧ t ∈ c.superinterfaces ∧
      (c.superinterfaces.map Class.id).Nodup ∧ c.lookupMethod? "m" ⟨[], .void⟩ ≠ none := by
  have htest : ((diamond.area.published? .bootstrap "p/C").any fun c =>
      (diamond.area.published? .bootstrap "p/T").any fun t =>
        c.implements t && (t.methods.find? fun m => m.hasSignature "m" ⟨[], .void⟩).any fun m =>
          !m.isStatic && !m.isPrivate) = true ∧ toppedTables diamond = true := by
    decide +kernel
  obtain ⟨hclasses, htables⟩ := htest
  obtain ⟨c, hc, hclasses⟩ := Area.exists_published hclasses
  obtain ⟨t, ht, hclasses⟩ := Area.exists_published hclasses
  rw [Bool.and_eq_true] at hclasses
  obtain ⟨m, hm, hinstance⟩ := (Option.any_eq_true _ _).1 hclasses.2
  obtain ⟨hapart, -, hmem, hlookup⟩ := superinterfaces_are_implemented rfl genuineRun_diamond
    (superclass_of_toppedTables htables) hc
  refine ⟨c, t, hc, ht, (hmem t ht).2 hclasses.1, hapart, fun hnone => ?_⟩
  rcases ((hlookup _ _).1 hnone).2 t ht hclasses.1 m hm with hstatic | hprivate
  · simp [hstatic] at hinstance
  · simp [hprivate] at hinstance

/-- An interface that declares a method twice, first as a static one, and a class that implements
it. -/
def repeatedMethodOperations : List Operation :=
  [.define .bootstrap
      { Boot.interfaceDefinition "p/I" with
        methods :=
          [⟨Flag.accPublic.mask ||| Flag.accStatic.mask, "m", ⟨[], .void⟩⟩,
            ⟨Flag.accPublic.mask ||| Flag.accAbstract.mask, "m", ⟨[], .void⟩⟩] },
    .define .bootstrap
      { name := "p/C"
        flags := Flag.accPublic.mask ||| Flag.accAbstract.mask
        interfaces := ["p/I"] },
    .load .bootstrap "p/C"]

/-- The resolver when the class is loaded. -/
def repeatedMethod : Resolver := performAll repeatedMethodOperations { area := Area.initial }

lemma genuineRun_repeatedMethod : GenuineRun { area := Area.initial } repeatedMethod :=
  genuineRun_performAll (by simp [repeatedMethodOperations, Operation.Genuine]) _

/-- The static method hides the other one of the same interface, and no method is found. -/
theorem repeated_method_not_found :
    ¬ ∀ start r : Resolver, start.area = Area.initial → GenuineRun start r →
      (∀ i, r.area.Published i → i.isInterface = true →
        ∃ s, i.superclass? = some s ∧ s.name = objectName ∧ s.loader = .bootstrap) →
      ∀ c, r.area.Published c →
        c.superinterfaces.Nodup ∧
        (∀ i, r.area.Published i → (i ∈ c.superinterfaces ↔ c.implements i = true)) ∧
        ∀ name descriptor, c.lookupMethod? name descriptor = none ↔
          (∀ s ∈ c.superclasses, ∀ m ∈ s.methods, m.hasSignature name descriptor = false) ∧
          ∀ i, r.area.Published i → c.implements i = true →
            ∀ m ∈ i.methods, m.hasSignature name descriptor = true →
              m.isStatic = true ∨ m.isPrivate = true := by
  intro hclaim
  have htest : ((repeatedMethod.area.published? .bootstrap "p/C").any fun c =>
      (c.lookupMethod? "m" ⟨[], .void⟩).isNone &&
        (repeatedMethod.area.published? .bootstrap "p/I").any fun i =>
          c.implements i && i.methods.any fun m =>
            m.hasSignature "m" ⟨[], .void⟩ && !m.isStatic && !m.isPrivate) = true ∧
      toppedTables repeatedMethod = true := by
    decide +kernel
  obtain ⟨hclasses, htables⟩ := htest
  obtain ⟨c, hc, hclasses⟩ := Area.exists_published hclasses
  rw [Bool.and_eq_true, Option.isNone_iff_eq_none] at hclasses
  obtain ⟨i, hi, hmethods⟩ := Area.exists_published hclasses.2
  rw [Bool.and_eq_true, List.any_eq_true] at hmethods
  obtain ⟨himplements, m, hm, htest⟩ := hmethods
  rw [Bool.and_eq_true, Bool.and_eq_true] at htest
  obtain ⟨-, -, hlookup⟩ := hclaim _ _ rfl genuineRun_repeatedMethod
    (superclass_of_toppedTables htables) c hc
  rcases ((hlookup _ _).1 hclasses.1).2 i hi himplements m hm htest.1.1 with hstatic | hprivate
  · simp [hstatic] at htest
  · simp [hprivate] at htest

end Resolver

end Linkage
