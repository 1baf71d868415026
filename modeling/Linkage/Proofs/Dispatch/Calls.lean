import Linkage.Proofs.Dispatch.Slots
import Linkage.Proofs.Lattice.Order
import Linkage.Proofs.Machine.Bindings

/-!
# Calls of virtual methods

A call that names a class is bound to a slot of the virtual table, and whatever class the object is
of, the slot holds the first virtual method of that name along the superclasses. The method that
lookup finds may be replaced by what an object of the one known class runs; that method is in the
same slot, or in the slot that all objects of that class have for it.

Lookup may find the method only in a superinterface, though, and interface methods have no slot. If
nothing more is known of the object, the call is bound to the interface method itself.
-/

namespace Linkage

open Relation

namespace Class

variable {c i s : Class} {h : MethodHandle} {name : String} {descriptor : MethodDescriptor}

/-! ### Where lookup finds methods -/

/-- What holds of classes whose interfaces are visited, and passes to the interfaces of a class,
holds of all that are visited. -/
lemma visitInterfaces_of_forall {P : Class → Prop} (hP : ∀ c, P c → ∀ i ∈ c.interfaces, P i)
    {queue visited : List Class} (hqueue : ∀ i ∈ queue, P i) (hvisited : ∀ i ∈ visited, P i) :
    ∀ i ∈ visitInterfaces queue visited, P i := by
  fun_induction visitInterfaces queue visited with
  | case1 visited => exact hvisited
  | case2 visited i rest _ ih =>
    exact ih (fun j hj => hqueue j (List.mem_cons_of_mem i hj)) hvisited
  | case3 visited i rest _ ih =>
    have hi : P i := hqueue i List.mem_cons_self
    refine ih (fun j hj => ?_) fun j hj => ?_
    · rcases List.mem_append.1 hj with hj | hj
      · exact hqueue j (List.mem_cons_of_mem i hj)
      · exact hP i hi j hj
    · rcases List.mem_append.1 hj with hj | hj
      · exact hvisited j hj
      · exact List.mem_singleton.1 hj ▸ hi

/-- What lookup finds goes by the name and the descriptor, and is declared by a superclass or by a
superinterface. -/
lemma lookupMethod?_eq_some (hm : c.lookupMethod? name descriptor = some h) :
    h.method.signature = (name, descriptor) ∧
      (h.owner ∈ c.superclasses ∨ h.owner ∈ c.superinterfaces) := by
  rcases Option.or_eq_some_iff.1 hm with hclass | ⟨-, hinterface⟩
  · obtain ⟨s, hs, hfound⟩ := List.exists_of_findSome?_eq_some hclass
    obtain ⟨howner, -, haccept⟩ := findMethodBy?_eq_some hfound
    exact ⟨Method.hasSignature_iff.1 haccept, .inl (howner ▸ hs)⟩
  · obtain ⟨i, hi, hfound⟩ := List.exists_of_findSome?_eq_some hinterface
    obtain ⟨hfound, -⟩ := Option.filter_eq_some_iff.1 hfound
    obtain ⟨howner, -, haccept⟩ := findMethodBy?_eq_some hfound
    exact ⟨Method.hasSignature_iff.1 haccept, .inr (howner ▸ hi)⟩

/-- What is found along the superclasses is a method of one of them that the test accepts. -/
lemma of_findSome?_superclasses {p : Method → Bool}
    (hm : (c.superclasses.findSome? fun s => s.findMethodBy? p) = some h) :
    h.owner ∈ c.superclasses ∧ p h.method = true := by
  obtain ⟨s, hs, hfound⟩ := List.exists_of_findSome?_eq_some hm
  obtain ⟨howner, -, haccept⟩ := findMethodBy?_eq_some hfound
  exact ⟨howner ▸ hs, haccept⟩

/-- A slot of the virtual table holds the first virtual method of a name and descriptor. -/
def Dispatches (e : Class) (slot : Nat) (name : String) (descriptor : MethodDescriptor) : Prop :=
  slot < e.data.vtableLength ∧
    ∃ t, e.vtableMethod? slot = some t ∧ e.virtualMethod? name descriptor = some t

end Class

lemma MethodHandle.mem_methods (h : MethodHandle) : h.method ∈ h.owner.methods :=
  List.mem_of_getElem? h.found

namespace Area

variable {a q : Area} {c e k x : Class} {h m : MethodHandle} {name : String}
  {descriptor : MethodDescriptor}

/-- The superinterfaces of a class are interfaces that are there. -/
lemma Tidy.superinterface_known (ha : a.Tidy) (hx : a.Known x) :
    ∀ i ∈ x.superinterfaces, i.isInterface = true ∧ a.Known i := by
  refine Class.visitInterfaces_of_forall (P := fun i => i.isInterface = true ∧ a.Known i) ?_ ?_
    (by simp)
  · intro c hc i hi
    exact ha.interface_known hc.2 c.mem_superclasses_self hi
  · intro i hi
    obtain ⟨s, hs, hi⟩ := List.mem_flatMap.1 hi
    exact ha.interface_known hx hs hi

/-- What lookup in a class finds is declared by a superclass that is no interface, or by an
interface. -/
lemma Tidy.owner_of_lookupMethod? (ha : a.Tidy) (hx : a.Known x) (hclass : x.isInterface = false)
    (hm : x.lookupMethod? name descriptor = some h) :
    h.owner.isInterface = false ∧ h.owner ∈ x.superclasses ∨
      h.owner.isInterface = true ∧ a.Known h.owner := by
  rcases (Class.lookupMethod?_eq_some hm).2 with hmem | hmem
  · exact .inl ⟨ha.not_isInterface_of_superclass hx hclass _ hmem, hmem⟩
  · exact .inr (ha.superinterface_known hx _ hmem)

/-- What has methods is in the table of its loader. -/
lemma Tidy.owned_of_mem (ha : a.Tidy) (hc : a.Known c) {m : Method} (hm : m ∈ c.methods) :
    a.Owned c := by
  rcases hc with hc | rfl
  · exact hc
  · rw [ha.core] at hm
    cases hm

/-- The methods of interfaces have no slots. -/
lemma Tidy.vtableIndex_of_interface (ha : a.Tidy) (hc : a.Known c)
    (hinterface : c.isInterface = true) {m : Method} (hm : m ∈ c.methods) :
    m.vtableIndex = none := by
  have howned := ha.owned_of_mem hc hm
  have hnone : ∀ next (ms : List MethodDefinition), ∀ m ∈ placeInterfaceMethods next ms,
      m.vtableIndex = none := by
    intro next ms
    fun_induction placeInterfaceMethods next ms with
    | case1 => simp
    | case2 next d ds _ ih => exact List.forall_mem_cons.2 ⟨rfl, ih⟩
    | case3 next d ds _ ih => exact List.forall_mem_cons.2 ⟨rfl, ih⟩
  cases c with
  | root d =>
    rw [show Class.root d = Boot.object from ha.linked _ howned] at hinterface
    cases hinterface
  | derived d s is =>
    obtain ⟨e, he⟩ := ha.described _ howned
    have hflags : e.isInterface = true := by
      rw [← hinterface, Definition.isInterface, ← link_flags e d.id d.loader (some s), ← he]
      rfl
    change m ∈ d.methods at hm
    rw [he, link_of_interface hflags] at hm
    exact hnone 0 e.methods m hm
  | primitiveArray | array =>
    rw [ha.not_isInterface_of_isArray hc rfl] at hinterface
    cases hinterface

/-- What may be used as a class that is no interface has it as a superclass, unless it is an
array. -/
lemma Tidy.mem_superclasses_of_isAssignableTo (ha : a.Tidy) (he : a.Known e) (hk : a.Known k)
    (heplain : e.isArray = false) (hkclass : k.isInterface = false)
    (h : e.isAssignableTo k = true) : k ∈ e.superclasses := by
  cases hkplain : k.isArray with
  | false => exact (ha.isAssignableTo_iff_mem he hk heplain hkplain hkclass).1 h
  | true =>
    rw [ha.isAssignableTo_eq_fits he hk, Class.form_of_not_isArray heplain] at h
    have hle := Form.dimension_le_of_fits h
    rw [← Class.isArray_form, Form.isArray_iff] at hkplain
    exact absurd (Nat.lt_of_lt_of_le hkplain hle) (Nat.lt_irrefl 0)

/-- A virtual method along the superclasses of a class has a slot, and whatever may be used as the
class dispatches a call through that slot to the first virtual method of its name and descriptor. -/
lemma Tidy.exists_slot (ha : a.Tidy) (hdistinct : ∀ c, a.Published c → c.DistinctMethods)
    (hk : a.Known k) (hkclass : k.isInterface = false) (howner : h.owner ∈ k.superclasses)
    (hvirtual : h.method.isVirtual = true) :
    ∃ i, h.method.vtableIndex = some i ∧
      ∀ e, a.Published e → e.isInterface = false → e.isArray = false →
        e.isAssignableTo k = true → e.Dispatches i h.method.name h.method.descriptor := by
  have hslotted : ∀ e, a.Owned e → e.isInterface = false →
      Slotted e.allMethods e.data.vtableLength :=
    fun e he heclass => ha.slotted he heclass fun s hs =>
      hdistinct s ⟨_, _, ha.rooted _ _ e he s hs⟩
  have howned := ha.owned_of_mem (ha.admitted_of_known hk _ howner) h.mem_methods
  have hclass := ha.not_isInterface_of_superclass hk hkclass _ howner
  obtain ⟨i, -, hi⟩ := (hslotted _ howned hclass).placed h.method
    (Class.mem_allMethods.2 ⟨_, h.owner.mem_superclasses_self, h.mem_methods⟩) hvirtual
  refine ⟨i, hi, fun e he heclass heplain hek => ?_⟩
  have heowned := (ha.rooted_of_published he).owned
  have hmem := ha.mem_superclasses_of_isAssignableTo heowned.known hk heplain hkclass hek
  have hmethod : h.method ∈ e.allMethods :=
    Class.mem_allMethods.2 ⟨_, Class.superclasses_trans howner hmem, h.mem_methods⟩
  have he := hslotted e heowned heclass
  obtain ⟨j, hlt, hj⟩ := he.placed h.method hmethod hvirtual
  obtain rfl : i = j := Option.some.inj (hi.symm.trans hj)
  obtain ⟨t, ht⟩ := Option.isSome_iff_exists.1 (Class.isSome_vtableMethod?.2 ⟨_, hmethod, hi⟩)
  exact ⟨hlt, t, ht, he.vtableMethod?_eq hmethod hvirtual hi ▸ ht⟩

/-- What an object of a class runs instead of a method is a method along the superclasses; it is in
the slot of the method, or, if that has none, it goes by the same name and descriptor. -/
lemma overrideIn?_eq_some (ho : Resolver.overrideIn? c m = some h) :
    h.owner ∈ c.superclasses ∧
      ((∃ i, m.method.vtableIndex = some i ∧ h.method.vtableIndex = some i) ∨
        m.method.vtableIndex = none ∧ h.method.isVirtual = true ∧
          h.method.signature = m.method.signature) := by
  unfold Resolver.overrideIn? at ho
  split at ho
  · next i hi =>
    obtain ⟨howner, haccept⟩ := Class.of_findSome?_superclasses ho
    exact ⟨howner, .inl ⟨i, hi, of_decide_eq_true haccept⟩⟩
  · next hnone =>
    obtain ⟨s, hs, hfound⟩ := List.exists_of_findSome?_eq_some ho
    obtain ⟨hfound, hvirtual⟩ := Option.filter_eq_some_iff.1 hfound
    obtain ⟨howner, -, haccept⟩ := Class.findMethodBy?_eq_some hfound
    rw [Bool.and_eq_true] at hvirtual
    exact ⟨howner ▸ hs, .inr ⟨hnone, hvirtual.1, Method.hasSignature_iff.1 haccept⟩⟩

/-- A mentioned class that was found is found again wherever the classes are kept. -/
lemma Later.find_again {b : Area} (hlater : Later b q) {t : Mention}
    (h : t.find a = .ok (some c) b) : t.find q = .ok (some c) q := by
  cases t with
  | loaded d =>
    cases h
    rfl
  | symbolic r => exact hlater.after.find_again hlater.kept h

end Area

/-! ### Calls -/

/-- An object of a class may be what a method is called on, for a use that names the class `x`: it
may be used as `x` and as all classes that the object is known to be of. -/
structure MethodUse.Receives (u : MethodUse) (x : Class) (a : Area) (e : Class) : Prop where
  published : a.Published e
  isClass : e.isInterface = false
  isPlain : e.isArray = false
  named : e.isAssignableTo x = true
  instances : ∀ t ∈ u.instances, ∀ c b, t.find a = .ok (some c) b → e.isAssignableTo c = true

namespace Resolver

variable {u : MethodUse} {mode : ResolveMode} {r r' r₁ q : Resolver} {x : Class}
  {m m₀ : MethodHandle}

lemma Tidies.later {α : Type} {x : ResolverM α} (hx : Tidies x) (hr : r.area.Tidy) :
    Area.Later r.area (finalState x r).area :=
  Area.later_of_tidySteps (ReflTransGen.lift (p := Area.TidyStep) Resolver.area (fun _ _ h => h)
    _ _ (hx r hr).1) hr

lemma Gives.later {α : Type} {x : ResolutionM α} {v : α} (h : Gives x r v r') (hx : Tidies x.run)
    (hr : r.area.Tidy) : Area.Later r.area r'.area := by
  rw [← finalState_of_ok h]
  exact hx.later hr

/-- The class that a use names is in the table of its loader. -/
lemma rooted_of_resolveContainer {ref : ClassRef} {method : MethodHandle} (hr : r.area.Tidy)
    (h : Gives (resolveContainer ref method mode) r x r') : r'.area.Rooted x := by
  obtain ⟨mode', s, hmode, hname⟩ := gives_bind.1 (gives_counted.1 h)
  obtain ⟨-, rfl⟩ := gives_effective.1 hmode
  obtain ⟨c, t, hspelled, hname⟩ := gives_bind.1 hname
  have hc : t.area.Rooted c := (handsOn_resolveSpelled _ _ _ _ hr).2 _ t hspelled c rfl
  split at hname
  · exact absurd hname gives_fail
  · obtain ⟨rfl, rfl⟩ := gives_pure.1 hname
    exact hc

/-- A call that names a class looks the method up in that class. -/
lemma gives_lookupTarget_class {target : MethodRef} (htarget : target.isInterface = false)
    (h : Gives (lookupTarget x target) r m r') :
    x.isInterface = false ∧ x.lookupMethod? target.name target.descriptor = some m ∧ r' = r := by
  simp only [lookupTarget, htarget, Bool.false_eq_true, if_false, gives_bind, gives_current] at h
  obtain ⟨_, _, ⟨rfl, rfl⟩, h⟩ := h
  rw [gives_unless] at h
  obtain ⟨hclass, h⟩ := h
  cases hfound : x.lookupMethod? target.name target.descriptor with
  | none =>
    rw [hfound] at h
    exact absurd h gives_fail
  | some m' =>
    rw [hfound] at h
    obtain ⟨rfl, rfl⟩ := gives_pure.1 h
    exact ⟨by simpa using hclass, rfl, rfl⟩

/-- The method that is called in place of a virtual one is the same, or what objects of a class run
that the object is known to be of. -/
lemma devirtualize_cases {instances : SubtypeSet} (h : devirtualize m₀ instances r = .ok m r') :
    m = m₀ ∨ ∃ t ∈ instances, ∃ c, t.find r.area = .ok (some c) r'.area ∧ c.isInterface = false ∧
      overrideIn? c m₀ = some m := by
  unfold devirtualize at h
  split at h
  · cases h
    exact .inl rfl
  split at h
  · next t =>
    obtain ⟨o, s, ho, h⟩ := bind_eq_ok.1 h
    obtain ⟨b, hb, rfl⟩ := onArea_eq_ok.1 ho
    cases o with
    | none =>
      cases h
      exact .inl rfl
    | some c =>
      dsimp only at h
      split at h
      · next hcond =>
        simp only [Bool.and_eq_true, Bool.not_eq_true'] at hcond
        cases h
        cases hoverride : overrideIn? c m₀ with
        | none => exact .inl rfl
        | some o =>
          exact .inr ⟨t, List.mem_singleton_self t, c, hb, hcond.1.1, hoverride⟩
      · cases h
        exact .inl rfl
  · cases h
    exact .inl rfl

/-! ### Words of calls -/

/-- The data word of a site that calls a method virtually, where its reference resolves to the
method from a state: what its patcher computes there, or what is laid out for the instruction that
has the method. -/
inductive CallsWith (u : MethodUse) (r : Resolver) (m : MethodHandle) : ResolveMode → Word → Prop
  where
  | patched {init : Class → MachineM Unit} {s s' : Machine} {w : Word} (resolver : s.resolver = r)
      (h : Machine.patchWord init .virtualCall (.use (.ofMethod u)) s = .ok w s') :
      CallsWith u r m .eager w
  | laidOut {b b' : Builder} {a a' : Area} {w : Word}
      (h : b.emit ⟨.invokevirtual, .toMethod (.resolved m), 0⟩ a = .ok b' a')
      (data : b'.data = b.data ++ [w]) : CallsWith u r m .lazy w

lemma CallsWith.eq_callWord {w : Word} (h : CallsWith u r m mode w)
    (hm : Gives (resolveMethod u mode) r m r') : w = callWord .invokevirtual m := by
  cases h with
  | @patched init s s' w resolver h =>
    subst resolver
    have hrun : Machine.patchWord init .virtualCall (.use (.ofMethod u)) s =
        .ok (callWord .invokevirtual m) (s.withResolver r') :=
      bind_of_ok (Machine.eagerly_of_gives hm u.text)
    rw [hrun] at h
    cases h
    rfl
  | laidOut h data =>
    cases h
    exact (List.singleton_inj.1 (List.append_cancel_left data)).symm

/-- The byte offset of a slot in a virtual table. -/
def slotWord (slot : Nat) : Word := .bits (wordOfInt (slot * wordSize))

lemma callWord_of_slot {i : Nat} (h : m.method.vtableIndex = some i) :
    callWord .invokevirtual m = slotWord i := by
  simp only [callWord, dispatchIndex?, h]
  rfl

lemma callWord_of_none (h : m.method.vtableIndex = none) :
    callWord .invokevirtual m = .methodAddress m := by
  simp only [callWord, dispatchIndex?, h]

/-- A mentioned class that is found is there. -/
lemma known_of_find {a q : Area} {t : Mention} {c : Class} (hgiven : t.Given a)
    (hlater : Area.Later a q) (h : t.find q = .ok (some c) q) : q.Known c := by
  cases t with
  | loaded d =>
    cases h
    exact hlater.known hgiven
  | symbolic ref =>
    exact ((Area.carries_rooted.findLoaded _ _ q hlater.after).2 _ _ h c rfl).owned.known

lemma calls_invokevirtual (h : Instruction.calls .invokevirtual u = true) :
    u.isSpecial = false ∧ u.target.isInterface = false := by
  simp only [Instruction.calls, Bool.and_eq_true, decide_eq_true_eq] at h
  exact ⟨h.1.2.symm, by simpa using h.2⟩

/-- On the way to the method that is called, the class that is named and the method that is looked
up there come first; the method may then be replaced by what a known object runs. -/
lemma exists_selected (hr : r.area.Tidy) (hcalls : Instruction.calls .invokevirtual u = true)
    (hnamed : Gives (resolveContainer u.target.container u.method mode) r.methodAsked x r₁)
    (hm : Gives (resolveMethod u mode) r m r') :
    x.isInterface = false ∧ r'.area.Known x ∧
      ∃ m₀, x.lookupMethod? u.target.name u.target.descriptor = some m₀ ∧
        (m = m₀ ∨ ∃ t ∈ u.instances, ∃ s : Resolver, ∃ c,
          t.find s.area = .ok (some c) r'.area ∧ c.isInterface = false ∧
            overrideIn? c m₀ = some m) := by
  obtain ⟨hspecial, htarget⟩ := calls_invokevirtual hcalls
  obtain ⟨_, m₀, _, r₂, r₃, r₄, r₅, r₆, r₇, h₁, h₂, -, h₃, h₄, h₅, h₆, h₇, rfl⟩ :=
    gives_resolveMethod.1 hm
  obtain ⟨rfl, rfl⟩ := hnamed.unique h₁
  obtain ⟨e₁, e₂, e₃, e₄, e₅, e₆, e₇⟩ := evolves_resolveMethod hr.sound h₁ h₂ h₃ h₄ h₅ h₆ h₇
  obtain ⟨hclass, hlookup, -⟩ := gives_lookupTarget_class htarget h₂
  have hafter := ((((e₂.trans e₃).trans e₄).trans e₅).trans e₆).trans e₇
  have hx := (rooted_of_resolveContainer (r := r.methodAsked) hr h₁).owned
  refine ⟨hclass, .inl (Area.kept_of_steps hafter.area (e₁.sound hr.sound) hx), m₀, hlookup, ?_⟩
  rw [hspecial, if_neg (by simp)] at h₇
  exact (devirtualize_cases h₇).imp_right fun ⟨t, ht, c, h⟩ => ⟨t, ht, r₆, c, h⟩

/-- The method that a call runs where one was looked up: that method, or what takes its place in the
one class that an object is known to be of. -/
def Runs (u : MethodUse) (a : Area) (m₀ m : MethodHandle) : Prop :=
  m = m₀ ∨ ∃ t ∈ u.instances, ∃ c, t.find a = .ok (some c) a ∧ a.Known c ∧
    c.isInterface = false ∧ overrideIn? c m₀ = some m

/-- The method is one of a class and has a slot, in which every class whose objects the call may be
made on has the first virtual method like the one that was looked up. -/
structure InSlot (u : MethodUse) (x : Class) (a : Area) (m₀ m : MethodHandle) : Prop where
  owner : m.owner.isInterface = false
  slot : ∃ i, m.method.vtableIndex = some i ∧ ∀ e, u.Receives x a e →
    e.Dispatches i m₀.method.name m₀.method.descriptor

/-- The method of a class has a slot, and what takes its place is in that slot as well. -/
lemma inSlot_of_class (ha : q.area.Tidy) (hdistinct : ∀ c, q.area.Published c → c.DistinctMethods)
    (hx : q.area.Known x) (hclass : x.isInterface = false) (hmem : m₀.owner ∈ x.superclasses)
    (howner : m₀.owner.isInterface = false) (hvirtual : m₀.method.isVirtual = true)
    (hruns : Runs u q.area m₀ m) : InSlot u x q.area m₀ m := by
  obtain ⟨i, hi, hslot⟩ := ha.exists_slot hdistinct hx hclass hmem hvirtual
  have hreceives : ∀ e, u.Receives x q.area e →
      e.Dispatches i m₀.method.name m₀.method.descriptor :=
    fun e he => hslot e he.published he.isClass he.isPlain he.named
  rcases hruns with rfl | ⟨t, -, c, -, hc, hcclass, hoverride⟩
  · exact ⟨howner, i, hi, hreceives⟩
  · obtain ⟨hcmem, ⟨j, hj, hmj⟩ | ⟨hnone, -⟩⟩ := Area.overrideIn?_eq_some hoverride
    · obtain rfl : i = j := Option.some.inj (hi.symm.trans hj)
      exact ⟨ha.not_isInterface_of_superclass hc hcclass _ hcmem, i, hmj, hreceives⟩
    · rw [hnone] at hi
      cases hi

/-- The method of an interface has no slot, but what takes its place has one in the one class that
the object is known to be of. -/
lemma inSlot_of_interface (ha : q.area.Tidy)
    (hdistinct : ∀ c, q.area.Published c → c.DistinctMethods)
    (hnone : m₀.method.vtableIndex = none) (hruns : Runs u q.area m₀ m) :
    m = m₀ ∨ InSlot u x q.area m₀ m := by
  refine hruns.imp_right ?_
  rintro ⟨t, ht, c, hfind, hc, hcclass, hoverride⟩
  obtain ⟨hcmem, ⟨j, hj, -⟩ | ⟨-, hmvirtual, hmsignature⟩⟩ := Area.overrideIn?_eq_some hoverride
  · rw [hnone] at hj
    cases hj
  obtain ⟨i, hi, hslot⟩ := ha.exists_slot hdistinct hc hcclass hcmem hmvirtual
  rw [Method.signature, Method.signature, Prod.mk.injEq] at hmsignature
  refine ⟨ha.not_isInterface_of_superclass hc hcclass _ hcmem, i, hi, fun e he => ?_⟩
  rw [← hmsignature.1, ← hmsignature.2]
  exact hslot e he.published he.isClass he.isPlain (he.instances t ht c _ hfind)

/-- A call that names a class, for a method that is found to be virtual, has the offset of a slot as
its data word, in which every class whose objects the call may be made on has the first virtual
method of that name and descriptor, now and later; but only if the method that the call resolves to
is one of a class. If it is one of an interface, the word is the address of that method. -/
theorem virtual_calls_dispatch_iff {start : Resolver} (hstart : start.area = Area.initial)
    (hrun : GenuineRun start r) (hcalls : Instruction.calls .invokevirtual u = true)
    (hgiven : ∀ t ∈ u.instances, t.Given r.area)
    (hnamed : Gives (resolveContainer u.target.container u.method mode) r.methodAsked x r₁)
    (hselected : x.lookupMethod? u.target.name u.target.descriptor = some m₀)
    (hvirtual : m₀.method.isVirtual = true) (hm : Gives (resolveMethod u mode) r m r') {w : Word}
    (hw : CallsWith u r m mode w) (hq : GenuineRun r' q)
    (hdistinct : ∀ c, q.area.Published c → c.DistinctMethods) :
    ((∃ i, w = slotWord i ∧ ∀ e, u.Receives x q.area e →
        e.Dispatches i u.target.name u.target.descriptor) ↔ m.owner.isInterface = false) ∧
      (m.owner.isInterface = true → m = m₀ ∧ w = .methodAddress m₀) := by
  have hr : r.area.Tidy := hrun.tidy (hstart ▸ Area.initial_tidy)
  have hbefore := hm.later (covers_tidies.resolveMethod u mode) hr
  have hlater := hq.later hbefore.after
  have ha := hlater.after
  obtain ⟨hclass, hx, m₀', hlookup, hcalled⟩ := exists_selected hr hcalls hnamed hm
  rw [hselected] at hlookup
  cases hlookup
  replace hx := hlater.known hx
  have hsignature := (Class.lookupMethod?_eq_some hselected).1
  rw [Method.signature, Prod.mk.injEq] at hsignature
  have hruns : Runs u q.area m₀ m := by
    refine hcalled.imp_right ?_
    rintro ⟨t, ht, s, c, hfind, hcclass, hoverride⟩
    have hagain := hlater.find_again hfind
    exact ⟨t, ht, c, hagain, known_of_find (hgiven t ht) (hbefore.trans hlater) hagain, hcclass,
      hoverride⟩
  have hslotted : InSlot u x q.area m₀ m →
      ((∃ i, callWord .invokevirtual m = slotWord i ∧ ∀ e, u.Receives x q.area e →
        e.Dispatches i u.target.name u.target.descriptor) ↔ m.owner.isInterface = false) ∧
      (m.owner.isInterface = true → m = m₀ ∧ callWord .invokevirtual m = .methodAddress m₀) := by
    rintro ⟨howner, i, hi, hslot⟩
    rw [hsignature.1, hsignature.2] at hslot
    exact ⟨iff_of_true ⟨i, callWord_of_slot hi, hslot⟩ howner, fun h => by simp [howner] at h⟩
  rw [hw.eq_callWord hm]
  rcases ha.owner_of_lookupMethod? hx hclass hselected with ⟨howner, hmem⟩ | ⟨howner, hknown⟩
  · exact hslotted (inSlot_of_class ha hdistinct hx hclass hmem howner hvirtual hruns)
  · have hnone := ha.vtableIndex_of_interface hknown howner m₀.mem_methods
    rcases inSlot_of_interface ha hdistinct hnone hruns with rfl | hslot
    · -- Nothing takes the place of the interface method.
      rw [callWord_of_none hnone]
      refine ⟨iff_of_false ?_ (by simp [howner]), fun _ => ⟨rfl, rfl⟩⟩
      rintro ⟨i, hword, -⟩
      cases hword
    · exact hslotted hslot

/-! ### A method of a class and a method of an interface -/

/-- A class with a method, a subclass that overrides it, an abstract class that has the method of an
interface only, and a class with a caller. -/
def callingOperations : List Operation :=
  [.define .bootstrap
      { name := "p/A"
        flags := Flag.accPublic.mask
        methods := [⟨Flag.accPublic.mask, "m", ⟨[], .void⟩⟩] },
    .define .bootstrap
      { name := "p/B"
        flags := Flag.accPublic.mask
        superclass := some "p/A"
        methods := [⟨Flag.accPublic.mask, "m", ⟨[], .void⟩⟩] },
    .define .bootstrap
      { name := "p/I"
        flags := Flag.accPublic.mask ||| Flag.accInterface.mask ||| Flag.accAbstract.mask
        methods := [⟨Flag.accPublic.mask ||| Flag.accAbstract.mask, "m", ⟨[], .void⟩⟩] },
    .define .bootstrap
      { name := "p/X"
        flags := Flag.accPublic.mask ||| Flag.accAbstract.mask
        interfaces := ["p/I"] },
    .define .bootstrap
      { name := "q/R"
        flags := Flag.accPublic.mask
        methods := [⟨Flag.accPublic.mask, "run", ⟨[], .void⟩⟩] },
    .load .bootstrap "q/R",
    .load .bootstrap "p/B"]

/-- The resolver when the caller and the classes with the method are loaded. -/
def calling : Resolver := performAll callingOperations { area := Area.initial }

lemma genuineRun_calling : GenuineRun { area := Area.initial } calling :=
  genuineRun_performAll (by simp [callingOperations, Operation.Genuine]) _

/-- The caller. -/
def caller? : Option MethodHandle :=
  (calling.area.published? .bootstrap "q/R").bind fun c => c.methodAt? 0

/-- The call of the method, looked for in a class of the given name, on an object of which nothing
is known. -/
def callOf (c : MethodHandle) (container : String) : MethodUse :=
  ⟨c, ⟨⟨c.owner, container⟩, "m", ⟨[], .void⟩, false⟩, false, false, [], none⟩

/-- Whether no class in the tables of the loaders declares a method twice. -/
def distinctTables (r : Resolver) : Bool :=
  r.area.loaders.values.all fun d => d.loaded.values.all fun c => c.DistinctMethods

lemma distinctMethods_of_tables (h : distinctTables r = true) :
    ∀ c, r.area.Published c → c.DistinctMethods := by
  rintro c ⟨l, n, hc⟩
  obtain ⟨d, hd, hloaded⟩ := Option.bind_eq_some_iff.1 hc
  have htable := List.all_eq_true.1 h d (Table.mem_values_of_get? hd)
  exact of_decide_eq_true (List.all_eq_true.1 htable c (Table.mem_values_of_get? hloaded))

/-- Whether the call resolves, and a test accepts the class that is named, the method and the
state. -/
def callsWhere (container : String) (accept : Class → MethodHandle → Resolver → Bool) : Bool :=
  caller?.any fun c =>
    givesWhere (resolveContainer ⟨c.owner, container⟩ c .eager) (fun x _ =>
      givesWhere (resolveMethod (callOf c container) .eager) (fun m r' =>
        distinctTables r' && accept x m r') calling) calling.methodAsked

lemma exists_call {container : String} {accept : Class → MethodHandle → Resolver → Bool}
    (h : callsWhere container accept = true) :
    ∃ c x r₁ m r', caller? = some c ∧
      Gives (resolveContainer ⟨c.owner, container⟩ c .eager) calling.methodAsked x r₁ ∧
      Gives (resolveMethod (callOf c container) .eager) calling m r' ∧
      CallsWith (callOf c container) calling m .eager (callWord .invokevirtual m) ∧
      (∀ c, r'.area.Published c → c.DistinctMethods) ∧ accept x m r' = true := by
  obtain ⟨c, hc, h⟩ := (Option.any_eq_true _ _).1 h
  obtain ⟨x, r₁, hx, h⟩ := exists_gives h
  obtain ⟨m, r', hm, haccept⟩ := exists_gives h
  rw [Bool.and_eq_true] at haccept
  let s : Machine := { resolver := calling, memory := { capacity := 4 } }
  have hpatch : Machine.patchWord (fun _ => pure ()) .virtualCall
      (.use (.ofMethod (callOf c container))) s =
        .ok (callWord .invokevirtual m) (s.withResolver r') :=
    bind_of_ok (Machine.eagerly_of_gives hm _)
  have hword : CallsWith (callOf c container) calling m .eager (callWord .invokevirtual m) :=
    .patched rfl hpatch
  exact ⟨c, x, r₁, m, r', hc, hx, hm, hword, distinctMethods_of_tables haccept.1, haccept.2⟩

/-- The call of the method of a class is bound to a slot, in which the subclass has its own
method. -/
theorem overridden_method_is_dispatched :
    ∃ c m r' i e, caller? = some c ∧
      Gives (resolveMethod (callOf c "p/A") .eager) calling m r' ∧
      CallsWith (callOf c "p/A") calling m .eager (slotWord i) ∧ r'.area.Published e ∧
      e.Dispatches i "m" ⟨[], .void⟩ ∧
      (e.virtualMethod? "m" ⟨[], .void⟩).map (fun h => h.owner.name) = some "p/B" := by
  have htest : callsWhere "p/A" (fun x m r' =>
      (x.lookupMethod? "m" ⟨[], .void⟩).any (fun m₀ => m₀.method.isVirtual) &&
        !m.owner.isInterface && (r'.area.published? .bootstrap "p/B").any fun e =>
          !e.isInterface && !e.isArray && e.isAssignableTo x &&
            (e.virtualMethod? "m" ⟨[], .void⟩).map (fun h => h.owner.name) = some "p/B") =
      true := by
    decide +kernel
  obtain ⟨c, x, r₁, m, r', hc, hx, hm, hword, hdistinct, haccept⟩ := exists_call htest
  rw [Bool.and_eq_true, Bool.and_eq_true] at haccept
  obtain ⟨⟨hselected, hclass⟩, he⟩ := haccept
  obtain ⟨m₀, hm₀, hvirtual⟩ := (Option.any_eq_true _ _).1 hselected
  obtain ⟨e, he, hetest⟩ := Area.exists_published he
  simp only [Bool.and_eq_true, Bool.not_eq_true', decide_eq_true_eq] at hetest
  obtain ⟨⟨⟨heclass, heplain⟩, hex⟩, hname⟩ := hetest
  obtain ⟨i, hi, hslot⟩ := (virtual_calls_dispatch_iff (u := callOf c "p/A") rfl genuineRun_calling
    (by rfl) (by simp [callOf]) hx hm₀ hvirtual hm hword .refl hdistinct).1.2
    (by simpa using hclass)
  rw [hi] at hword
  exact ⟨c, m, r', i, e, hc, hm, hword, he,
    hslot e ⟨he, heclass, heplain, hex, by simp [callOf]⟩, hname⟩

/-- The call of the method of an interface, looked for in an abstract class that implements it, is
bound to the interface method, although the method is virtual. -/
theorem interface_method_called_directly :
    ∃ c x r₁ m₀ m r' w, caller? = some c ∧ GenuineRun { area := Area.initial } calling ∧
      MethodUse.create c ⟨⟨c.owner, "p/X"⟩, "m", ⟨[], .void⟩, false⟩ false false none [] =
        .ok (callOf c "p/X") ∧
      Instruction.calls .invokevirtual (callOf c "p/X") = true ∧
      Gives (resolveContainer ⟨c.owner, "p/X"⟩ c .eager) calling.methodAsked x r₁ ∧
      x.lookupMethod? "m" ⟨[], .void⟩ = some m₀ ∧ m₀.method.isVirtual = true ∧
      Gives (resolveMethod (callOf c "p/X") .eager) calling m r' ∧
      CallsWith (callOf c "p/X") calling m .eager w ∧
      (∀ c, r'.area.Published c → c.DistinctMethods) ∧
      w = .methodAddress m ∧ ∀ i, w ≠ slotWord i := by
  have htest : callsWhere "p/X" (fun x m r' =>
      (x.lookupMethod? "m" ⟨[], .void⟩).any (fun m₀ => m₀.method.isVirtual) &&
        m.method.vtableIndex = none) = true := by
    decide +kernel
  obtain ⟨c, x, r₁, m, r', hc, hx, hm, hword, hdistinct, haccept⟩ := exists_call htest
  rw [Bool.and_eq_true, decide_eq_true_eq] at haccept
  obtain ⟨m₀, hm₀, hvirtual⟩ := (Option.any_eq_true _ _).1 haccept.1
  rw [callWord_of_none haccept.2] at hword
  exact ⟨c, x, r₁, m₀, m, r', _, hc, genuineRun_calling, rfl, rfl, hx, hm₀, hvirtual, hm, hword,
    hdistinct, rfl, fun _ h => nomatch h⟩

end Resolver

end Linkage
