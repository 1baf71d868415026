import Mathlib.Data.Set.Card
import Linkage.Proofs.Area.Lasting

/-!
# The classes there are

The classes of an area are those that the loaders which defined them have, and the stand-in for the
common supertype of arrays. Their identities tell them apart, they are linked in a few ways only,
and the area counts those that it did not start with.
-/

namespace Linkage

/-- How classes are linked: nothing but the top of the hierarchy has no superclass, no interface is
a superclass, and array classes stand directly below the top and implement the two interfaces of
arrays. -/
def Class.Linked : Class → Prop
  | .root d => .root d = Boot.object
  | .derived _ s _ => s.isInterface = false
  | .primitiveArray d s is _ =>
    d.loader = .bootstrap ∧ s = Boot.object ∧ is = Boot.core.arrayInterfaces ∧
      d.flags.has .accInterface = false
  | .array d s is c =>
    c.dimension < maxDimension ∧ s = Boot.object ∧ is = Boot.core.arrayInterfaces ∧
      d.flags.has .accInterface = false

/-- What classes say about themselves comes from a definition that was linked below the superclass;
array classes declare no methods, dispatch on the slots of the top of the hierarchy and are public
like their components. -/
def Class.Described : Class → Prop
  | .root _ => True
  | .derived d s _ => ∃ e : Definition, d = e.link d.id d.loader (some s)
  | .primitiveArray d _ _ _ =>
    d.methods = [] ∧ d.vtableLength = Boot.object.data.vtableLength ∧ d.flags.has .accPublic = true
  | .array d _ _ c =>
    d.methods = [] ∧ d.vtableLength = Boot.object.data.vtableLength ∧
      d.flags.has .accPublic = c.isPublic

/-- Array classes declare no fields, and their instances have nothing but the header. -/
def Class.Fieldless (c : Class) : Prop :=
  c.isArray = true → c.fields = [] ∧ c.data.instanceSize = headerSize ∧ c.data.staticSlots = 0

lemma Class.Linked.dimension_le {c : Class} (h : c.Linked) : c.dimension ≤ maxDimension := by
  match c with
  | .root _ => exact Nat.zero_le _
  | .derived .. => exact Nat.zero_le _
  | .primitiveArray .. => exact (by decide : 1 ≤ maxDimension)
  | .array _ _ _ _ => exact h.1

/-- No array class is an interface: all it can have from its component is the public flag. -/
lemma not_accInterface_of_array (flags : Flags) :
    Flags.has ((flags &&& Flag.accPublic.mask) ||| Flag.accFinal.mask ||| Flag.accAbstract.mask)
      .accInterface = false := by
  simp only [Flags.has, decide_eq_false_iff_not]
  intro h
  have hbit := congrArg (fun x : UInt16 => x.toBitVec.getLsbD 9) h
  revert hbit
  simp [Flag.accPublic, Flag.accFinal, Flag.accAbstract, Flag.accInterface]

/-- An array class has the public flag from its component. -/
lemma accPublic_of_array (flags : Flags) :
    Flags.has ((flags &&& Flag.accPublic.mask) ||| Flag.accFinal.mask ||| Flag.accAbstract.mask)
      .accPublic = flags.has .accPublic := by
  have hmask :
      ((flags &&& Flag.accPublic.mask) ||| Flag.accFinal.mask ||| Flag.accAbstract.mask) &&&
        Flag.accPublic.mask = flags &&& Flag.accPublic.mask := by
    have hlow : Flag.accPublic.mask.toBitVec &&&
        (Flag.accFinal.mask.toBitVec ||| Flag.accAbstract.mask.toBitVec) = 0 := by decide
    apply UInt16.toBitVec_inj.1
    simp only [UInt16.toBitVec_and, UInt16.toBitVec_or]
    rw [BitVec.or_assoc, BitVec.and_comm, BitVec.and_or_distrib_left, hlow, BitVec.and_comm,
      BitVec.and_assoc, BitVec.and_self]
    simp
  simp only [Flags.has, hmask]

namespace Area

variable {a b : Area}

/-- The class is one of those there are: its loader has it, or it is the stand-in for the common
supertype of arrays. -/
def Known (a : Area) (c : Class) : Prop := a.Owned c ∨ c = a.core.arrayStub

lemma Owned.known {c : Class} (h : a.Owned c) : a.Known c := .inl h

lemma Owned.loader_isSome {c : Class} (h : a.Owned c) :
    (a.loaders.get? c.loader).isSome = true := by
  obtain ⟨data, hdata, -⟩ := Option.bind_eq_some_iff.1 h
  rw [hdata]
  rfl

/-- A name and a loader tell classes that loaders have apart. -/
lemma Owned.eq_of_name {c d : Class} (hc : a.Owned c) (hd : a.Owned d) (hname : c.name = d.name)
    (hloader : c.loader = d.loader) : c = d := by
  have hsame : a.published? c.loader c.name = some d := by
    rw [hname, hloader]
    exact hd
  rw [show a.published? c.loader c.name = some c from hc] at hsame
  exact Option.some.inj hsame

/-- The classes that an area has got since the start, array classes apart. -/
def defined (a : Area) : Set Class :=
  {c | a.Owned c ∧ ¬ initial.Owned c ∧ c.isArray = false}

/-- What holds of all classes there are. -/
structure Census (a : Area) : Prop where
  /-- Identities tell classes apart. -/
  identity : ∀ c d, a.Known c → a.Known d → c.id = d.id → c = d
  /-- The next identity is a new one. -/
  numbered : ∀ c, a.Known c → c.id.number < a.nextId
  /-- The stand-in for the common supertype of arrays is in no table. -/
  unlisted : ¬ a.Owned a.core.arrayStub
  /-- The classes of the start are there. -/
  started : ∀ c, initial.Owned c → a.Owned c
  linked : ∀ c, a.Owned c → c.Linked
  described : ∀ c, a.Owned c → c.Described
  fieldless : ∀ c, a.Owned c → c.Fieldless
  /-- The interfaces of a class are interfaces, and their loaders have them. -/
  woven : ∀ c, a.Owned c → ∀ i ∈ c.interfaces, i.isInterface = true ∧ a.Owned i
  counted : a.defined.encard = a.loads

/-- The same classes, and no identity given back. -/
lemma Census.of_owned (h : a.Census) (howned : ∀ c, b.Owned c ↔ a.Owned c)
    (hcore : b.core = a.core) (hnext : a.nextId ≤ b.nextId) (hloads : b.loads = a.loads) :
    b.Census := by
  have hknown : ∀ c, b.Known c ↔ a.Known c := fun c => by
    unfold Known
    rw [howned, hcore]
  refine ⟨fun c d hc hd => ?_, fun c hc => ?_, ?_, fun c hc => ?_, fun c hc => ?_, fun c hc => ?_,
    fun c hc => ?_, fun c hc i hi => ?_, ?_⟩
  · exact h.identity c d ((hknown c).1 hc) ((hknown d).1 hd)
  · exact Nat.lt_of_lt_of_le (h.numbered c ((hknown c).1 hc)) hnext
  · rw [howned, hcore]
    exact h.unlisted
  · exact (howned c).2 (h.started c hc)
  · exact h.linked c ((howned c).1 hc)
  · exact h.described c ((howned c).1 hc)
  · exact h.fieldless c ((howned c).1 hc)
  · exact (h.woven c ((howned c).1 hc) i hi).imp_right (howned i).2
  · rw [hloads, ← h.counted]
    simp only [defined, howned]

/-- An array class more does not count. -/
lemma defined_of_isArray {c : Class} (harray : c.isArray = true)
    (howned : ∀ x, b.Owned x ↔ x = c ∨ a.Owned x) : b.defined = a.defined := by
  ext x
  simp only [defined, Set.mem_ofPred_eq, howned]
  refine ⟨fun hx => ⟨hx.1.resolve_left ?_, hx.2⟩, fun hx => ⟨.inr hx.1, hx.2⟩⟩
  rintro rfl
  rw [harray] at hx
  exact absurd hx.2.2 (by simp)

/-- A class more that is no array is one more of those that an area has got. -/
lemma defined_of_not_isArray {c : Class} (harray : c.isArray = false) (hnew : ¬ initial.Owned c)
    (howned : ∀ x, b.Owned x ↔ x = c ∨ a.Owned x) : b.defined = insert c a.defined := by
  ext x
  simp only [defined, Set.mem_ofPred_eq, Set.mem_insert_iff, howned]
  constructor
  · rintro ⟨rfl | hx, hrest⟩
    · exact .inl rfl
    · exact .inr ⟨hx, hrest⟩
  · rintro (rfl | ⟨hx, hrest⟩)
    · exact ⟨.inl rfl, hnew, harray⟩
    · exact ⟨.inr hx, hrest⟩

/-- A class more, with an identity above all others. -/
lemma Census.insert (h : a.Census) {c : Class}
    (hlatest : ∀ x, a.Known x → x.id.number < c.id.number)
    (hlinked : c.Linked) (hdescribed : c.Described) (hfieldless : c.Fieldless)
    (hwoven : ∀ i ∈ c.interfaces, i.isInterface = true ∧ a.Owned i)
    (howned : ∀ x, b.Owned x ↔ x = c ∨ a.Owned x) (hcore : b.core = a.core)
    (hnext : a.nextId ≤ b.nextId) (hid : c.id.number < b.nextId)
    (hloads : b.loads = a.loads + if c.isArray then 0 else 1) : b.Census := by
  have hknown : ∀ x, b.Known x ↔ x = c ∨ a.Known x := fun x => by
    unfold Known
    rw [howned, hcore, or_assoc]
  have hnew : ¬ a.Known c := fun hc => Nat.lt_irrefl _ (hlatest c hc)
  refine ⟨fun x y hx hy heq => ?_, fun x hx => ?_, ?_, fun x hx => ?_, fun x hx => ?_,
    fun x hx => ?_, fun x hx => ?_, fun x hx i hi => ?_, ?_⟩
  · rcases (hknown x).1 hx with rfl | hx <;> rcases (hknown y).1 hy with rfl | hy
    · rfl
    · exact absurd (hlatest y hy) (by rw [heq]; exact Nat.lt_irrefl _)
    · exact absurd (hlatest x hx) (by rw [heq]; exact Nat.lt_irrefl _)
    · exact h.identity x y hx hy heq
  · rcases (hknown x).1 hx with rfl | hx
    · exact hid
    · exact Nat.lt_of_lt_of_le (h.numbered x hx) hnext
  · rw [howned, hcore]
    rintro (heq | hstub)
    · exact hnew (.inr heq.symm)
    · exact h.unlisted hstub
  · exact (howned x).2 (.inr (h.started x hx))
  · rcases (howned x).1 hx with rfl | hx
    · exact hlinked
    · exact h.linked x hx
  · rcases (howned x).1 hx with rfl | hx
    · exact hdescribed
    · exact h.described x hx
  · rcases (howned x).1 hx with rfl | hx
    · exact hfieldless
    · exact h.fieldless x hx
  · rcases (howned x).1 hx with rfl | hx
    · exact (hwoven i hi).imp_right fun hi => (howned i).2 (.inr hi)
    · exact (h.woven x hx i hi).imp_right fun hi => (howned i).2 (.inr hi)
  · cases harray : c.isArray with
    | true =>
      rw [defined_of_isArray harray howned, h.counted, hloads, harray]
      simp
    | false =>
      have hnone : ¬ initial.Owned c := fun hc => hnew (h.started c hc).known
      rw [defined_of_not_isArray harray hnone howned,
        Set.encard_insert_of_notMem fun hc => hnew hc.1.known, h.counted, hloads, harray]
      simp

/-! ### The start -/

lemma firstValue?_map_of_mem {cs : List Class} {c : Class} (h : (cs.map Class.name).Nodup)
    (hc : c ∈ cs) : Table.firstValue? c.name (cs.map fun c => (c.name, c)) = some c := by
  induction cs with
  | nil => cases hc
  | cons d ds ih =>
    rw [List.map_cons, List.nodup_cons] at h
    rw [List.map_cons, Table.firstValue?]
    rcases List.mem_cons.1 hc with rfl | hc
    · simp
    · rw [if_neg, ih h.2 hc]
      intro heq
      have hmem : c.name ∈ ds.map Class.name := List.mem_map_of_mem hc
      rw [← heq] at hmem
      exact h.1 hmem

/-- All classes of the start are the top of the hierarchy or stand directly below it. -/
lemma boot_cases {c : Class} (hc : c ∈ Boot.classes) :
    c = Boot.object ∨ (∃ d is, c = .derived d Boot.object is) ∨
      ∃ d is p, c = .primitiveArray d Boot.object is p := by
  rcases List.mem_append.1 hc with hfirst | hprimitive
  · simp only [List.mem_cons, List.not_mem_nil, or_false] at hfirst
    rcases hfirst with rfl | rfl | rfl | rfl
    · exact .inl rfl
    all_goals exact .inr (.inl ⟨_, _, rfl⟩)
  · obtain ⟨e, -, rfl⟩ := List.mem_map.1 hprimitive
    exact .inr (.inr ⟨_, _, _, rfl⟩)

lemma boot_loader {c : Class} (hc : c ∈ Boot.classes) : c.loader = .bootstrap := by
  have hloader : ∀ c ∈ Boot.classes, c.loader = .bootstrap := by decide +kernel
  exact hloader c hc

lemma mem_boot_of_published {l : LoaderId} {n : String} {c : Class}
    (hc : initial.published? l n = some c) : c ∈ Boot.classes := by
  obtain ⟨data, hdata, hc⟩ := Option.bind_eq_some_iff.1 hc
  simp only [initial, Table.get?, Table.firstValue?] at hdata
  split at hdata
  · cases hdata
    exact (firstValue?_map_name hc).1
  · cases hdata

lemma initial_owned {c : Class} (hc : c ∈ Boot.classes) : initial.Owned c := by
  have hnames : (Boot.classes.map Class.name).Nodup := by decide +kernel
  unfold Owned
  rw [boot_loader hc]
  exact firstValue?_map_of_mem hnames hc

/-- The classes of the start, and the stand-in for the common supertype of arrays. -/
lemma mem_boot_of_known {c : Class} (h : initial.Known c) : c ∈ Boot.arrayStub :: Boot.classes := by
  rcases h with h | rfl
  · exact List.mem_cons_of_mem _ (mem_boot_of_published h)
  · exact List.mem_cons_self

lemma boot_linked {c : Class} (hc : c ∈ Boot.classes) : c.Linked := by
  rcases List.mem_append.1 hc with hfirst | hprimitive
  · simp only [List.mem_cons, List.not_mem_nil, or_false] at hfirst
    rcases hfirst with rfl | rfl | rfl | rfl
    all_goals exact rfl
  · obtain ⟨e, -, rfl⟩ := List.mem_map.1 hprimitive
    have hflags : Flags.has (Flag.accPublic.mask ||| Flag.accFinal.mask ||| Flag.accAbstract.mask)
        .accInterface = false := by decide
    exact ⟨rfl, rfl, rfl, hflags⟩

lemma boot_described {c : Class} (hc : c ∈ Boot.classes) : c.Described := by
  rcases List.mem_append.1 hc with hfirst | hprimitive
  · simp only [List.mem_cons, List.not_mem_nil, or_false] at hfirst
    rcases hfirst with rfl | rfl | rfl | rfl
    · exact trivial
    all_goals exact ⟨_, rfl⟩
  · obtain ⟨e, -, rfl⟩ := List.mem_map.1 hprimitive
    have hflags : Flags.has (Flag.accPublic.mask ||| Flag.accFinal.mask ||| Flag.accAbstract.mask)
        .accPublic = true := by decide
    exact ⟨rfl, rfl, hflags⟩

lemma boot_fieldless {c : Class} (hc : c ∈ Boot.classes) : c.Fieldless := by
  intro harray
  rcases List.mem_append.1 hc with hfirst | hprimitive
  · simp only [List.mem_cons, List.not_mem_nil, or_false] at hfirst
    rcases hfirst with rfl | rfl | rfl | rfl
    all_goals cases harray
  · obtain ⟨e, -, rfl⟩ := List.mem_map.1 hprimitive
    exact ⟨rfl, rfl, rfl⟩

lemma boot_interfaces {c i : Class} (hc : c ∈ Boot.classes) (hi : i ∈ c.interfaces) :
    i = Boot.cloneable ∨ i = Boot.serializable := by
  rcases List.mem_append.1 hc with hfirst | hprimitive
  · simp only [List.mem_cons, List.not_mem_nil, or_false] at hfirst
    rcases hfirst with rfl | rfl | rfl | rfl
    · cases hi
    · cases hi
    · cases hi
    · exact .inr (List.mem_singleton.1 hi)
  · obtain ⟨e, -, rfl⟩ := List.mem_map.1 hprimitive
    rcases List.mem_cons.1 hi with rfl | hi
    · exact .inl rfl
    · exact .inr (List.mem_singleton.1 hi)

/-- The interfaces of arrays are interfaces of the start. -/
lemma initial_woven {i : Class} (hi : i = Boot.cloneable ∨ i = Boot.serializable) :
    i.isInterface = true ∧ initial.Owned i := by
  rcases hi with rfl | rfl
  · exact ⟨by decide, initial_owned (.tail _ (.head _))⟩
  · exact ⟨by decide, initial_owned (.tail _ (.tail _ (.head _)))⟩

lemma initial_census : initial.Census where
  identity c d hc hd heq := by
    have hids : ((Boot.arrayStub :: Boot.classes).map Class.id).Nodup := by decide +kernel
    exact List.inj_on_of_nodup_map hids (mem_boot_of_known hc) (mem_boot_of_known hd) heq
  numbered c hc := by
    have hnumbers : ∀ c ∈ Boot.arrayStub :: Boot.classes, c.id.number < initial.nextId := by
      decide +kernel
    exact hnumbers c (mem_boot_of_known hc)
  unlisted h := by
    have hnone : ∀ c ∈ Boot.classes, c.id ≠ Boot.arrayStub.id := by decide +kernel
    exact hnone _ (mem_boot_of_published h) rfl
  started _ hc := hc
  linked c hc := boot_linked (mem_boot_of_published hc)
  described c hc := boot_described (mem_boot_of_published hc)
  fieldless c hc := boot_fieldless (mem_boot_of_published hc)
  woven c hc i hi := initial_woven (boot_interfaces (mem_boot_of_published hc) hi)
  counted := by
    have hnone : initial.defined = ∅ := by
      ext c
      simp only [defined, Set.mem_ofPred_eq, Set.mem_empty_iff_false, iff_false]
      exact fun hc => hc.2.1 hc.1
    rw [hnone, Set.encard_empty]
    rfl

end Area

end Linkage
