import Linkage.Proofs.Lattice.Superclass
import Linkage.Proofs.Class.Linking

/-!
# Virtual tables

The virtual methods of a class and its superclasses share the slots of one table. A method that
overrides another takes its slot, and every other one gets a slot of its own; so methods are in one
slot exactly if they go by the same name and descriptor, and no slot is empty. What is found by a
slot is then what is found by name: the first virtual method along the superclasses.

All of this needs that no definition names a method twice with one descriptor.
-/

namespace Linkage

/-! ### Signatures -/

/-- No two methods of the definition go by the same name and descriptor. -/
def Definition.DistinctMethods (d : Definition) : Prop :=
  (d.methods.map MethodDefinition.signature).Nodup

/-- No two methods that the class declares go by the same name and descriptor. -/
def Class.DistinctMethods (c : Class) : Prop :=
  (c.methods.map Method.signature).Nodup

instance (c : Class) : Decidable c.DistinctMethods :=
  inferInstanceAs (Decidable (c.methods.map Method.signature).Nodup)

lemma Method.hasSignature_iff {m : Method} {name : String} {descriptor : MethodDescriptor} :
    m.hasSignature name descriptor = true ↔ m.signature = (name, descriptor) := by
  simp [hasSignature, signature]

/-- A class repeats a method exactly if its definition does. -/
lemma distinctMethods_link {e : Definition} {id : ClassId} {l : LoaderId} {above : Option Class}
    {s : Class} {is : List Class} :
    (Class.derived (e.link id l above) s is).DistinctMethods ↔ e.DistinctMethods := by
  change ((e.link id l above).methods.map Method.signature).Nodup ↔ _
  rw [map_signature_link, Definition.DistinctMethods]

/-! ### Slots -/

/-- Methods of a class and its superclasses share a number of slots. -/
structure Slotted (ms : List Method) (slots : Nat) : Prop where
  placed : ∀ m ∈ ms, m.isVirtual = true → ∃ i < slots, m.vtableIndex = some i
  /-- Calls of other methods are not dispatched. -/
  unplaced : ∀ m ∈ ms, m.isVirtual = false → m.vtableIndex = none
  shared : ∀ m ∈ ms, ∀ o ∈ ms, m.isVirtual = true → o.isVirtual = true →
    (m.vtableIndex = o.vtableIndex ↔ m.signature = o.signature)
  filled : ∀ i < slots, ∃ m ∈ ms, m.vtableIndex = some i

/-- The slot that a method takes when it comes to others. -/
def slotAmong? (ms : List Method) (m : Method) : Option Nat :=
  (ms.find? fun o => o.isVirtual && o.hasSignature m.name m.descriptor).bind Method.vtableIndex

namespace Slotted

variable {ms : List Method} {m : Method} {n i : Nat}

lemma nil : Slotted [] 0 := ⟨by simp, by simp, by simp, by simp⟩

lemma of_mem_iff {os : List Method} (h : Slotted ms n) (hmem : ∀ m, m ∈ os ↔ m ∈ ms) :
    Slotted os n := by
  obtain ⟨hplaced, hunplaced, hshared, hfilled⟩ := h
  refine ⟨?_, ?_, ?_, ?_⟩ <;> simpa only [hmem]

/-- The slot among others is that of a virtual method with the same signature, if there is one. -/
lemma slotAmong?_eq_some (h : Slotted ms n) : slotAmong? ms m = some i ↔
    ∃ o ∈ ms, o.isVirtual = true ∧ o.signature = m.signature ∧ o.vtableIndex = some i := by
  unfold slotAmong?
  rw [Option.bind_eq_some_iff]
  constructor
  · rintro ⟨o, ho, hi⟩
    have haccept := List.find?_some ho
    rw [Bool.and_eq_true, Method.hasSignature_iff] at haccept
    exact ⟨o, List.mem_of_find?_eq_some ho, haccept.1, haccept.2, hi⟩
  · rintro ⟨o, ho, hvirtual, hsignature, hi⟩
    have haccept : (o.isVirtual && o.hasSignature m.name m.descriptor) = true := by
      rw [Bool.and_eq_true, Method.hasSignature_iff]
      exact ⟨hvirtual, hsignature⟩
    cases hfind : ms.find? fun o => o.isVirtual && o.hasSignature m.name m.descriptor with
    | none => exact absurd haccept (List.find?_eq_none.1 hfind o ho)
    | some x =>
      have hx := List.find?_some hfind
      rw [Bool.and_eq_true, Method.hasSignature_iff] at hx
      refine ⟨x, rfl, ?_⟩
      rw [(h.shared x (List.mem_of_find?_eq_some hfind) o ho hx.1 hvirtual).2
        (hx.2.trans hsignature.symm), hi]

lemma slotAmong?_eq_none (h : Slotted ms n) (hnone : slotAmong? ms m = none) :
    ∀ o ∈ ms, o.isVirtual = true → o.signature ≠ m.signature := by
  intro o ho hvirtual hsignature
  obtain ⟨i, -, hi⟩ := h.placed o ho hvirtual
  rw [h.slotAmong?_eq_some.2 ⟨o, ho, hvirtual, hsignature, hi⟩] at hnone
  cases hnone

/-- One more method that is not dispatched. -/
lemma cons_unplaced (h : Slotted ms n) (hm : m.isVirtual = false) (hi : m.vtableIndex = none) :
    Slotted (m :: ms) n where
  placed o ho hvirtual := by
    rcases List.mem_cons.1 ho with rfl | ho
    · rw [hm] at hvirtual
      cases hvirtual
    · exact h.placed o ho hvirtual
  unplaced o ho hvirtual := by
    rcases List.mem_cons.1 ho with rfl | ho
    · exact hi
    · exact h.unplaced o ho hvirtual
  shared o ho x hx hvirtual hxvirtual := by
    rcases List.mem_cons.1 ho with rfl | ho
    · rw [hm] at hvirtual
      cases hvirtual
    rcases List.mem_cons.1 hx with rfl | hx
    · rw [hm] at hxvirtual
      cases hxvirtual
    · exact h.shared o ho x hx hvirtual hxvirtual
  filled i hi := by
    obtain ⟨o, ho, hslot⟩ := h.filled i hi
    exact ⟨o, List.mem_cons_of_mem _ ho, hslot⟩

/-- One more method, with the slots in use before and after it. What it shares a slot with is what
it shares its signature with. -/
lemma cons_placed {slots : Nat} (h : Slotted ms n) (hle : n ≤ slots) (hm : m.isVirtual = true)
    (hi : m.vtableIndex = some i) (hlt : i < slots)
    (hshared : ∀ o ∈ ms, o.isVirtual = true →
      (o.vtableIndex = some i ↔ o.signature = m.signature))
    (hfilled : ∀ j < slots, j < n ∨ j = i) : Slotted (m :: ms) slots where
  placed o ho hvirtual := by
    rcases List.mem_cons.1 ho with rfl | ho
    · exact ⟨i, hlt, hi⟩
    · obtain ⟨j, hj, hslot⟩ := h.placed o ho hvirtual
      exact ⟨j, hj.trans_le hle, hslot⟩
  unplaced o ho hvirtual := by
    rcases List.mem_cons.1 ho with rfl | ho
    · rw [hm] at hvirtual
      cases hvirtual
    · exact h.unplaced o ho hvirtual
  shared o ho x hx hvirtual hxvirtual := by
    rcases List.mem_cons.1 ho with rfl | ho' <;> rcases List.mem_cons.1 hx with rfl | hx'
    · exact iff_of_true rfl rfl
    · rw [hi, eq_comm, hshared x hx' hxvirtual, eq_comm]
    · rw [hi, hshared o ho' hvirtual]
    · exact h.shared o ho' x hx' hvirtual hxvirtual
  filled j hj := by
    rcases hfilled j hj with hj | rfl
    · obtain ⟨o, ho, hslot⟩ := h.filled j hj
      exact ⟨o, List.mem_cons_of_mem _ ho, hslot⟩
    · exact ⟨m, List.mem_cons_self, hi⟩

/-- One more method that overrides another. -/
lemma cons_overriding (h : Slotted ms n) (hm : m.isVirtual = true) (hi : m.vtableIndex = some i)
    (hslot : slotAmong? ms m = some i) : Slotted (m :: ms) n := by
  obtain ⟨o, ho, hvirtual, hsignature, hoi⟩ := h.slotAmong?_eq_some.1 hslot
  obtain ⟨j, hj, hoj⟩ := h.placed o ho hvirtual
  obtain rfl : i = j := Option.some.inj (hoi.symm.trans hoj)
  refine h.cons_placed le_rfl hm hi hj (fun x hx hxvirtual => ?_) fun j hj => .inl hj
  rw [← hoi, ← hsignature]
  exact h.shared x hx o ho hxvirtual hvirtual

/-- One more method that overrides none takes the next slot. -/
lemma cons_new (h : Slotted ms n) (hm : m.isVirtual = true) (hi : m.vtableIndex = some n)
    (hslot : slotAmong? ms m = none) : Slotted (m :: ms) (n + 1) := by
  refine h.cons_placed (Nat.le_succ n) hm hi (Nat.lt_succ_self n) (fun o ho hvirtual => ?_)
    fun j hj => Nat.lt_succ_iff_lt_or_eq.1 hj
  obtain ⟨j, hj, hoj⟩ := h.placed o ho hvirtual
  refine iff_of_false ?_ (h.slotAmong?_eq_none hslot o ho hvirtual)
  rw [hoj, Option.some.injEq]
  exact Nat.ne_of_lt hj

end Slotted

/-- What comes with another signature does not matter for the slot of a method. -/
lemma slotAmong?_cons_of_ne {ms : List Method} {m o : Method} (h : o.signature ≠ m.signature) :
    slotAmong? (o :: ms) m = slotAmong? ms m := by
  have hreject : (o.isVirtual && o.hasSignature m.name m.descriptor) = false := by
    rw [Bool.and_eq_false_imp]
    intro _
    rw [← Bool.not_eq_true, Method.hasSignature_iff]
    exact h
  simp only [slotAmong?, List.find?_cons, hreject]

/-- The methods of a definition come to those of the superclasses one after the other. -/
lemma Slotted.placeMethods {overridden : Method → Option Nat} {ds : List MethodDefinition}
    (hdistinct : (ds.map MethodDefinition.signature).Nodup) {known : List Method} {n : Nat}
    (h : Slotted known n)
    (hoverridden : ∀ d ∈ ds, overridden d.bare = slotAmong? known d.bare) :
    Slotted ((Linkage.placeMethods overridden n ds).1 ++ known)
      (Linkage.placeMethods overridden n ds).2 := by
  induction ds generalizing known n with
  | nil => exact h
  | cons d ds ih =>
    rw [List.map_cons, List.nodup_cons] at hdistinct
    have hslot := hoverridden d List.mem_cons_self
    -- A method that has been placed is not what a later one overrides.
    have hrest : ∀ m : Method, m.signature = d.signature → ∀ e ∈ ds,
        overridden e.bare = slotAmong? (m :: known) e.bare := by
      intro m hm e he
      rw [slotAmong?_cons_of_ne, hoverridden e (List.mem_cons_of_mem _ he)]
      intro heq
      exact hdistinct.1 (List.mem_map.2 ⟨e, he, (hm.symm.trans heq).symm⟩)
    have hreorder : ∀ (ms : List Method) (m : Method) (n : Nat),
        Slotted (ms ++ m :: known) n → Slotted (m :: ms ++ known) n :=
      fun ms m n h => h.of_mem_iff fun o => by simp [or_left_comm]
    rw [Linkage.placeMethods]
    cases hvirtual : d.bare.isVirtual with
    | false =>
      simp only [Bool.false_eq_true, if_false]
      exact hreorder _ _ _ (ih hdistinct.2 (h.cons_unplaced hvirtual rfl) (hrest _ rfl))
    | true =>
      simp only [if_true]
      cases hoverride : overridden d.bare with
      | some slot =>
        rw [hoverride] at hslot
        exact hreorder _ _ _
          (ih hdistinct.2 (h.cons_overriding hvirtual rfl hslot.symm) (hrest _ rfl))
      | none =>
        rw [hoverride] at hslot
        exact hreorder _ _ _ (ih hdistinct.2 (h.cons_new hvirtual rfl hslot.symm) (hrest _ rfl))

/-! ### The methods along the superclasses -/

/-- The methods of a class and of its superclasses. -/
def Class.allMethods (c : Class) : List Method := c.superclasses.flatMap Class.methods

lemma Class.mem_allMethods {c : Class} {m : Method} :
    m ∈ c.allMethods ↔ ∃ s ∈ c.superclasses, m ∈ s.methods := List.mem_flatMap

/-- A class that is linked below others comes with its methods and slots to theirs. -/
lemma slotted_link {e : Definition} (id : ClassId) (l : LoaderId) (above : Option Class)
    (hclass : e.isInterface = false) (hdistinct : e.DistinctMethods)
    (h : Slotted (above.elim [] Class.allMethods) (above.elim 0 fun s => s.data.vtableLength)) :
    Slotted ((e.link id l above).methods ++ above.elim [] Class.allMethods)
      (e.link id l above).vtableLength := by
  obtain ⟨r, rfl, hmethods, hslots⟩ := link_of_class id l above hclass
  rw [hmethods, hslots]
  refine h.placeMethods hdistinct fun d _ => ?_
  cases above <;> rfl

lemma link_flags (e : Definition) (id : ClassId) (l : LoaderId) (above : Option Class) :
    (e.link id l above).flags = e.flags := by
  unfold Definition.link
  split <;> rfl

namespace Area

variable {a : Area}

lemma slotted_object : Slotted Boot.object.allMethods Boot.object.data.vtableLength := by
  have hdistinct : Boot.objectDefinition.DistinctMethods := by
    unfold Definition.DistinctMethods
    decide
  exact slotted_link ⟨0⟩ .bootstrap none (by decide) hdistinct Slotted.nil

/-- Array classes dispatch on the methods of the top of the hierarchy. -/
lemma Tidy.slotted_array (ha : a.Tidy) {c : Class} (hc : a.Owned c) (harray : c.isArray = true) :
    Slotted c.allMethods c.data.vtableLength := by
  have hnone : c.methods = [] ∧ c.data.vtableLength = Boot.object.data.vtableLength := by
    have hdescribed := ha.described c hc
    cases c with
    | root | derived => cases harray
    | primitiveArray | array => exact ⟨hdescribed.1, hdescribed.2.1⟩
  have hmethods : c.allMethods = Boot.object.allMethods := by
    rw [Class.allMethods, ha.superclasses_of_isArray hc.known harray, List.flatMap_cons, hnone.1]
    rfl
  rw [hmethods, hnone.2]
  exact slotted_object

/-- A class and its superclasses share the slots of the virtual table. -/
lemma Tidy.slotted (ha : a.Tidy) : ∀ {c : Class}, a.Owned c → c.isInterface = false →
    (∀ s ∈ c.superclasses, s.DistinctMethods) → Slotted c.allMethods c.data.vtableLength
  | .root d, hc, _, _ => by
    rw [show Class.root d = Boot.object from ha.linked _ hc]
    exact slotted_object
  | .derived d s is, hc, hclass, hdistinct => by
    have hs : s ∈ (Class.derived d s is).superclasses :=
      List.mem_cons_of_mem _ s.mem_superclasses_self
    have habove := ha.slotted (ha.rooted _ _ _ hc s hs) (ha.linked _ hc)
      fun t ht => hdistinct t (List.mem_cons_of_mem _ ht)
    obtain ⟨e, he⟩ := ha.described _ hc
    have hself := hdistinct _ List.mem_cons_self
    have hflags : e.isInterface = false := by
      rw [← hclass, Definition.isInterface, ← link_flags e d.id d.loader (some s), ← he]
      rfl
    rw [he] at hself
    have hlink := slotted_link d.id d.loader (some s) hflags (distinctMethods_link.1 hself) habove
    rw [← he] at hlink
    exact hlink
  | .primitiveArray _ _ _ _, hc, _, _ => ha.slotted_array hc rfl
  | .array _ _ _ _, hc, _, _ => ha.slotted_array hc rfl

end Area

/-! ### Lookup by slot and by name -/

lemma findIdx?_congr {α : Type} {p q : α → Bool} {xs : List α} (h : ∀ x ∈ xs, p x = q x) :
    xs.findIdx? p = xs.findIdx? q := by
  induction xs with
  | nil => rfl
  | cons x xs ih =>
    rw [List.findIdx?_cons, List.findIdx?_cons, h x List.mem_cons_self,
      ih fun y hy => h y (List.mem_cons_of_mem x hy)]

lemma findSome?_congr {α β : Type} {f g : α → Option β} {xs : List α}
    (h : ∀ x ∈ xs, f x = g x) : xs.findSome? f = xs.findSome? g := by
  induction xs with
  | nil => rfl
  | cons x xs ih =>
    rw [List.findSome?_cons, List.findSome?_cons, h x List.mem_cons_self,
      ih fun y hy => h y (List.mem_cons_of_mem x hy)]

namespace Class

variable {c : Class} {p q : Method → Bool} {h : MethodHandle}

/-- The first virtual method with a name and a descriptor along the superclasses. -/
def virtualMethod? (c : Class) (name : String) (descriptor : MethodDescriptor) :
    Option MethodHandle :=
  c.superclasses.findSome? fun s =>
    s.findMethodBy? fun m => m.isVirtual && m.hasSignature name descriptor

lemma methodAt?_eq_some {i : Nat} (hm : c.methodAt? i = some h) : h.owner = c ∧ h.index = i := by
  unfold methodAt? at hm
  split at hm
  · cases hm
    exact ⟨rfl, rfl⟩
  · cases hm

lemma isSome_methodAt? {i : Nat} (hi : i < c.methods.length) : (c.methodAt? i).isSome = true := by
  unfold methodAt?
  split
  · rfl
  · next hnone =>
    rw [List.getElem?_eq_none_iff] at hnone
    exact absurd hi (Nat.not_lt.2 hnone)

/-- What is found among the methods of a class is one of them, and the test accepts it. -/
lemma findMethodBy?_eq_some (hm : c.findMethodBy? p = some h) :
    h.owner = c ∧ h.method ∈ c.methods ∧ p h.method = true := by
  obtain ⟨i, hi, hm⟩ := Option.bind_eq_some_iff.1 hm
  obtain ⟨howner, hindex⟩ := methodAt?_eq_some hm
  have hfound := h.found
  rw [howner, hindex] at hfound
  obtain ⟨hlt, haccept, -⟩ := List.findIdx?_eq_some_iff_getElem.1 hi
  rw [List.getElem?_eq_getElem hlt, Option.some.injEq] at hfound
  refine ⟨howner, ?_, hfound ▸ haccept⟩
  rw [← hfound]
  exact List.getElem_mem hlt

lemma isSome_findMethodBy? : (c.findMethodBy? p).isSome = true ↔ ∃ m ∈ c.methods, p m = true := by
  constructor
  · intro hsome
    obtain ⟨h, hm⟩ := Option.isSome_iff_exists.1 hsome
    exact ⟨h.method, (findMethodBy?_eq_some hm).2⟩
  · rintro ⟨m, hm, haccept⟩
    unfold findMethodBy?
    cases hi : c.methods.findIdx? p with
    | none =>
      rw [List.findIdx?_eq_none_iff] at hi
      rw [hi m hm] at haccept
      cases haccept
    | some i =>
      obtain ⟨hlt, -⟩ := List.findIdx?_eq_some_iff_getElem.1 hi
      exact isSome_methodAt? hlt

/-- Tests that agree on the methods of a class find the same one. -/
lemma findMethodBy?_congr (hpq : ∀ m ∈ c.methods, p m = q m) :
    c.findMethodBy? p = c.findMethodBy? q := by
  unfold findMethodBy?
  rw [findIdx?_congr hpq]

/-- Tests that agree on the methods along the superclasses find the same one. -/
lemma findSome?_findMethodBy?_congr (hpq : ∀ m ∈ c.allMethods, p m = q m) :
    (c.superclasses.findSome? fun s => s.findMethodBy? p) =
      c.superclasses.findSome? fun s => s.findMethodBy? q := by
  refine findSome?_congr fun s hs => findMethodBy?_congr fun m hm => ?_
  exact hpq m (mem_allMethods.2 ⟨s, hs, hm⟩)

lemma isSome_findSome? :
    (c.superclasses.findSome? fun s => s.findMethodBy? p).isSome = true ↔
      ∃ m ∈ c.allMethods, p m = true := by
  simp only [List.findSome?_isSome_iff, isSome_findMethodBy?, mem_allMethods]
  constructor
  · rintro ⟨s, hs, m, hm, haccept⟩
    exact ⟨m, ⟨s, hs, hm⟩, haccept⟩
  · rintro ⟨m, ⟨s, hs, hm⟩, haccept⟩
    exact ⟨s, hs, m, hm, haccept⟩

lemma isSome_vtableMethod? {i : Nat} :
    (c.vtableMethod? i).isSome = true ↔ ∃ m ∈ c.allMethods, m.vtableIndex = some i := by
  unfold vtableMethod?
  rw [isSome_findSome?]
  simp only [decide_eq_true_eq]

end Class

/-- What is found by the slot of a virtual method is what is found by its name and descriptor. -/
lemma Slotted.vtableMethod?_eq {c : Class} {n i : Nat} {m : Method} (h : Slotted c.allMethods n)
    (hm : m ∈ c.allMethods) (hvirtual : m.isVirtual = true) (hi : m.vtableIndex = some i) :
    c.vtableMethod? i = c.virtualMethod? m.name m.descriptor := by
  refine Class.findSome?_findMethodBy?_congr fun o ho => ?_
  rw [Bool.eq_iff_iff, decide_eq_true_eq, Bool.and_eq_true, Method.hasSignature_iff]
  cases hovirtual : o.isVirtual with
  | false => simp [h.unplaced o ho hovirtual]
  | true =>
    rw [← hi, h.shared o ho m hm hovirtual hvirtual]
    exact (and_iff_right rfl).symm

namespace Resolver

/-- Virtual tables dispatch to the most derived override, for every class that is no interface in
every state that is reached, if the class and its superclasses declare no method twice: there is a
method in every slot; every virtual method along the superclasses has a slot, and in that slot is
the first virtual method of its name and descriptor; and two of them share a slot exactly if they
share their name and descriptor. -/
theorem virtual_table_dispatches {start r : Resolver} (hstart : start.area = Area.initial)
    (hrun : GenuineRun start r) {c : Class} (hc : r.area.Published c)
    (hclass : c.isInterface = false) (hdistinct : ∀ s ∈ c.superclasses, s.DistinctMethods) :
    (∀ i < c.data.vtableLength, (c.vtableMethod? i).isSome = true) ∧
    (∀ s ∈ c.superclasses, ∀ m ∈ s.methods, m.isVirtual = true →
      ∃ i < c.data.vtableLength, m.vtableIndex = some i ∧
        c.vtableMethod? i = c.virtualMethod? m.name m.descriptor) ∧
    (∀ s ∈ c.superclasses, ∀ m ∈ s.methods, ∀ t ∈ c.superclasses, ∀ o ∈ t.methods,
      m.isVirtual = true → o.isVirtual = true →
      (m.vtableIndex = o.vtableIndex ↔ m.name = o.name ∧ m.descriptor = o.descriptor)) := by
  have hr : r.area.Tidy := hrun.tidy (hstart ▸ Area.initial_tidy)
  have hslots := hr.slotted (hr.rooted_of_published hc).owned hclass hdistinct
  refine ⟨fun i hi => ?_, fun s hs m hm hvirtual => ?_,
    fun s hs m hm t ht o ho hvirtual hovirtual => ?_⟩
  · exact Class.isSome_vtableMethod?.2 (hslots.filled i hi)
  · have hmem := Class.mem_allMethods.2 ⟨s, hs, hm⟩
    obtain ⟨i, hlt, hi⟩ := hslots.placed m hmem hvirtual
    exact ⟨i, hlt, hi, hslots.vtableMethod?_eq hmem hvirtual hi⟩
  · rw [hslots.shared m (Class.mem_allMethods.2 ⟨s, hs, hm⟩) o (Class.mem_allMethods.2 ⟨t, ht, ho⟩)
      hvirtual hovirtual]
    simp [Method.signature]

/-- A class with a method and a private one, and a subclass that has a method of either name. -/
def overridingOperations : List Operation :=
  [.define .bootstrap
      { name := "p/A"
        flags := Flag.accPublic.mask
        methods :=
          [⟨Flag.accPublic.mask, "m", ⟨[], .void⟩⟩, ⟨Flag.accPrivate.mask, "n", ⟨[], .void⟩⟩] },
    .define .bootstrap
      { name := "p/B"
        flags := Flag.accPublic.mask
        superclass := some "p/A"
        methods :=
          [⟨Flag.accPublic.mask, "n", ⟨[], .void⟩⟩, ⟨Flag.accPublic.mask, "m", ⟨[], .void⟩⟩] },
    .load .bootstrap "p/B"]

/-- The resolver when the subclass is loaded. -/
def overriding : Resolver := performAll overridingOperations { area := Area.initial }

lemma genuineRun_overriding : GenuineRun { area := Area.initial } overriding :=
  genuineRun_performAll (by simp [overridingOperations, Operation.Genuine]) _

/-- The method of the superclass is in a slot, and what is found there in the subclass is what
overrides it. -/
theorem overriding_method_in_slot :
    ∃ c s m i, overriding.area.Published c ∧ c.isInterface = false ∧
      (∀ t ∈ c.superclasses, t.DistinctMethods) ∧ s ∈ c.superclasses ∧ s.name = "p/A" ∧
      m ∈ s.methods ∧ m.isVirtual = true ∧ m.vtableIndex = some i ∧
      (c.vtableMethod? i).map (fun h => h.owner.name) = some "p/B" := by
  have htest : (overriding.area.published? .bootstrap "p/B").any (fun c =>
      !c.isInterface && (c.superclasses.all fun t => t.DistinctMethods) &&
        c.superclasses.any fun s => s.name = "p/A" && s.methods.any fun m =>
          m.isVirtual && m.name = "m" && m.descriptor = ⟨[], .void⟩ &&
            (c.virtualMethod? "m" ⟨[], .void⟩).map (fun h => h.owner.name) =
              some "p/B") = true := by
    decide +kernel
  obtain ⟨c, hc, htest⟩ := Area.exists_published htest
  simp only [Bool.and_eq_true, Bool.not_eq_true', List.any_eq_true, List.all_eq_true,
    decide_eq_true_eq] at htest
  obtain ⟨⟨hclass, hdistinct⟩, s, hs, hname, m, hm, ⟨⟨hvirtual, hmname⟩, hmdescriptor⟩, hfound⟩ :=
    htest
  obtain ⟨-, hplaced, -⟩ :=
    virtual_table_dispatches rfl genuineRun_overriding hc hclass hdistinct
  obtain ⟨i, -, hi, hslot⟩ := hplaced s hs m hm hvirtual
  refine ⟨c, s, m, i, hc, hclass, hdistinct, hs, hname, hm, hvirtual, hi, ?_⟩
  rw [hslot, hmname, hmdescriptor]
  exact hfound

end Resolver

end Linkage
