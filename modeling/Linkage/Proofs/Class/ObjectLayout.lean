import Linkage.Code.Builder
import Linkage.Proofs.Resolver.Tidy

/-!
# Object layout

Linking numbers the instance fields of a class behind those of its superclass, and its static fields
from 0 on. So the instance fields along the superclasses of a class lie one behind the other, from
the header to the end of the object, and every static field has a slot of its own in the storage of
its class. Array classes have no fields at all, so a class below one begins behind the header.
-/

namespace Linkage

/-! ### Placing fields -/

/-- The offsets of the instance fields among several fields. -/
def instanceOffsets (fs : List Field) : List Nat :=
  (fs.filter fun f => !f.isStatic).map Field.offset

/-- The slots of the static fields among several fields. -/
def staticOffsets (fs : List Field) : List Nat :=
  (fs.filter Field.isStatic).map Field.offset

lemma instanceOffsets_cons (f : Field) (fs : List Field) :
    instanceOffsets (f :: fs) =
      if f.flags.has .accStatic then instanceOffsets fs else f.offset :: instanceOffsets fs := by
  cases h : f.flags.has .accStatic <;> simp [instanceOffsets, Field.isStatic, h]

lemma staticOffsets_cons (f : Field) (fs : List Field) :
    staticOffsets (f :: fs) =
      if f.flags.has .accStatic then f.offset :: staticOffsets fs else staticOffsets fs := by
  cases h : f.flags.has .accStatic <;> simp [staticOffsets, Field.isStatic, h]

/-- Instance fields are placed one behind the other, whatever static fields stand in between. -/
lemma instanceOffsets_place (layout : FieldLayout) (fs : List FieldDefinition) :
    ∃ n, instanceOffsets (layout.place fs).1 = List.range' layout.nextOffset n fieldSize ∧
      (layout.place fs).2.nextOffset = layout.nextOffset + fieldSize * n := by
  fun_induction FieldLayout.place layout fs with
  | case1 layout => exact ⟨0, rfl, rfl⟩
  | case2 layout f fs hstatic r ih =>
    obtain ⟨n, hoffsets, hnext⟩ := ih
    refine ⟨n, ?_, hnext⟩
    rw [instanceOffsets_cons, if_pos hstatic, hoffsets]
  | case3 layout f fs hinstance r ih =>
    obtain ⟨n, hoffsets, hnext⟩ := ih
    refine ⟨n + 1, ?_, ?_⟩
    · rw [instanceOffsets_cons, if_neg hinstance, hoffsets, List.range'_succ]
    · rw [hnext, Nat.mul_succ]
      dsimp only
      omega

/-- Static fields are numbered one after the other, whatever instance fields stand in between. -/
lemma staticOffsets_place (layout : FieldLayout) (fs : List FieldDefinition) :
    ∃ n, staticOffsets (layout.place fs).1 = List.range' layout.nextSlot n ∧
      (layout.place fs).2.nextSlot = layout.nextSlot + n := by
  fun_induction FieldLayout.place layout fs with
  | case1 layout => exact ⟨0, rfl, rfl⟩
  | case2 layout f fs hstatic r ih =>
    obtain ⟨n, hoffsets, hnext⟩ := ih
    refine ⟨n + 1, ?_, ?_⟩
    · rw [staticOffsets_cons, if_pos hstatic, hoffsets, List.range'_succ]
    · rw [hnext]
      dsimp only
      omega
  | case3 layout f fs hinstance r ih =>
    obtain ⟨n, hoffsets, hnext⟩ := ih
    refine ⟨n, ?_, hnext⟩
    rw [staticOffsets_cons, if_neg hinstance, hoffsets]

section

variable (e : Definition) (id : ClassId) (l : LoaderId) (above : Option Class)

/-- The instance fields of a class that is linked begin where the objects of its superclass end. -/
lemma instanceOffsets_link :
    ∃ n, instanceOffsets (e.link id l above).fields =
        List.range' (above.elim headerSize fun s => s.data.instanceSize) n fieldSize ∧
      (e.link id l above).instanceSize =
        (above.elim headerSize fun s => s.data.instanceSize) + fieldSize * n := by
  unfold Definition.link
  split <;> exact instanceOffsets_place _ _

/-- The static fields of a class that is linked have the slots of its storage. -/
lemma staticOffsets_link :
    staticOffsets (e.link id l above).fields = List.range (e.link id l above).staticSlots := by
  obtain ⟨n, hoffsets, hslots⟩ := staticOffsets_place
    ⟨above.elim headerSize fun s => s.data.instanceSize, 0⟩ e.fields
  rw [Nat.zero_add] at hslots
  rw [← hslots] at hoffsets
  rw [List.range_eq_range']
  unfold Definition.link
  split <;> exact hoffsets

end

/-! ### Objects -/

/-- The offsets of the instance fields in the objects of a class: those along its superclasses, from
the top of the hierarchy down. -/
def Class.layout (c : Class) : List Nat :=
  c.superclasses.reverse.flatMap fun s => instanceOffsets s.fields

/-- The instance fields along the superclasses fill the objects of the class behind the header. -/
def Class.Compact (c : Class) : Prop :=
  ∃ n, c.layout = List.range' headerSize n fieldSize ∧
    c.data.instanceSize = headerSize + fieldSize * n

/-- The layout of a class is that of its superclass, with its own fields behind. -/
lemma Class.layout_eq (c : Class) :
    c.layout = (c.superclass?.elim [] Class.layout) ++ instanceOffsets c.fields := by
  rw [layout, superclasses_eq_cons]
  cases c.superclass? with
  | none => simp
  | some s => simp [layout]

/-- The layout of a class begins with that of each of its superclasses. -/
lemma Class.layout_of_superclass {s : Class} :
    ∀ {c : Class}, s ∈ c.superclasses → s.layout <+: c.layout
  | .root d, hs => by rw [List.mem_singleton.1 hs]
  | .derived d t is, hs => by
    rcases List.mem_cons.1 hs with rfl | hs
    · exact List.prefix_rfl
    · exact (layout_of_superclass hs).trans ⟨_, (layout_eq (.derived d t is)).symm⟩
  | .primitiveArray d t is p, hs => by
    rcases List.mem_cons.1 hs with rfl | hs
    · exact List.prefix_rfl
    · exact (layout_of_superclass hs).trans ⟨_, (layout_eq (.primitiveArray d t is p)).symm⟩
  | .array d t is e, hs => by
    rcases List.mem_cons.1 hs with rfl | hs
    · exact List.prefix_rfl
    · exact (layout_of_superclass hs).trans ⟨_, (layout_eq (.array d t is e)).symm⟩

namespace Area

variable {a : Area} {c s : Class}

/-- The objects of array classes have nothing but the header, like those of the top of the
hierarchy. -/
lemma Tidy.laidBehind_array (ha : a.Tidy) (hc : a.Owned c) (harray : c.isArray = true)
    (hs : s = Boot.object) :
    ∃ n, instanceOffsets c.fields = List.range' s.data.instanceSize n fieldSize ∧
      c.data.instanceSize = s.data.instanceSize + fieldSize * n := by
  obtain ⟨hfields, hsize, -⟩ := ha.fieldless c hc harray
  refine ⟨0, ?_, ?_⟩
  · rw [hfields]
    rfl
  · rw [hsize, hs]
    rfl

/-- The instance fields of a class lie behind the objects of its superclass. -/
lemma Tidy.laidBehind (ha : a.Tidy) (hc : a.Owned c) (hs : c.superclass? = some s) :
    ∃ n, instanceOffsets c.fields = List.range' s.data.instanceSize n fieldSize ∧
      c.data.instanceSize = s.data.instanceSize + fieldSize * n := by
  have hlinked := ha.linked c hc
  cases c with
  | root d => cases hs
  | derived d t is =>
    cases hs
    obtain ⟨e, he⟩ := ha.described _ hc
    have hlink := instanceOffsets_link e d.id d.loader (some s)
    rwa [← he] at hlink
  | primitiveArray d t is p =>
    cases hs
    exact ha.laidBehind_array hc rfl hlinked.2.1
  | array d t is e =>
    cases hs
    exact ha.laidBehind_array hc rfl hlinked.2.1

lemma Tidy.superclass_owned (ha : a.Tidy) (hc : a.Owned c) (hs : c.superclass? = some s) :
    a.Owned s :=
  ha.rooted _ _ c hc s (Class.mem_superclasses_of_superclass? hs)

/-- If the fields fill the objects of the superclass, so do they for the class. -/
lemma Tidy.compact_of_superclass (ha : a.Tidy) (hc : a.Owned c) (hs : c.superclass? = some s)
    (h : s.Compact) : c.Compact := by
  obtain ⟨n, hlayout, hsize⟩ := h
  obtain ⟨m, hoffsets, hsize'⟩ := ha.laidBehind hc hs
  refine ⟨n + m, ?_, ?_⟩
  · rw [c.layout_eq, hs, Option.elim_some, hlayout, hoffsets, hsize, List.range'_append]
  · rw [hsize', hsize, Nat.mul_add, Nat.add_assoc]

/-- The fields along the superclasses fill the objects of a class. -/
lemma Tidy.compact (ha : a.Tidy) : ∀ {c : Class}, a.Owned c → c.Compact
  | .root d, hc => by
    rw [show Class.root d = Boot.object from ha.linked _ hc]
    exact ⟨0, rfl, rfl⟩
  | .derived _ _ _, hc =>
    ha.compact_of_superclass hc rfl (ha.compact (ha.superclass_owned hc rfl))
  | .primitiveArray _ _ _ _, hc =>
    ha.compact_of_superclass hc rfl (ha.compact (ha.superclass_owned hc rfl))
  | .array _ _ _ _, hc =>
    ha.compact_of_superclass hc rfl (ha.compact (ha.superclass_owned hc rfl))

/-- The fields of the superclasses end before those of the class begin. -/
lemma Tidy.below_instanceOffsets (ha : a.Tidy) (hc : a.Owned c) (hs : s ∈ c.superclasses)
    (hne : s ≠ c) {o o' : Nat} (ho : o ∈ s.layout) (ho' : o' ∈ instanceOffsets c.fields) :
    o + fieldSize ≤ o' := by
  rw [Class.superclasses_eq_cons] at hs
  rcases List.mem_cons.1 hs with rfl | habove
  · exact absurd rfl hne
  · cases ht : c.superclass? with
    | none =>
      rw [ht] at habove
      cases habove
    | some t =>
      rw [ht] at habove
      obtain ⟨n, hlayout, hsize⟩ := ha.compact (ha.superclass_owned hc ht)
      obtain ⟨m, hoffsets, -⟩ := ha.laidBehind hc ht
      have ho : o ∈ t.layout := (Class.layout_of_superclass habove).subset ho
      rw [hlayout, List.mem_range'] at ho
      rw [hoffsets, List.mem_range', hsize] at ho'
      obtain ⟨i, hi, rfl⟩ := ho
      obtain ⟨j, -, rfl⟩ := ho'
      have hend : fieldSize * (i + 1) ≤ fieldSize * n := Nat.mul_le_mul_left _ hi
      rw [Nat.mul_succ] at hend
      omega

/-- The static fields of a class have the slots of its storage. -/
lemma Tidy.staticOffsets (ha : a.Tidy) (hc : a.Owned c) :
    staticOffsets c.fields = List.range c.data.staticSlots := by
  by_cases harray : c.isArray = true
  · obtain ⟨hfields, -, hslots⟩ := ha.fieldless c hc harray
    rw [hfields, hslots]
    rfl
  · have hlinked := ha.linked c hc
    have hdescribed := ha.described c hc
    cases c with
    | root d =>
      rw [show Class.root d = Boot.object from hlinked]
      rfl
    | derived d s is =>
      obtain ⟨e, he⟩ := hdescribed
      have hlink := staticOffsets_link e d.id d.loader (some s)
      rwa [← he] at hlink
    | primitiveArray | array => exact absurd rfl harray

/-- Every static field has storage. -/
lemma Tidy.staticFieldWord_eq (ha : a.Tidy) {h : FieldHandle} (hc : a.Owned h.owner)
    (hstatic : h.field.isStatic = true) :
    staticFieldWord h = .ok (.staticAddress h.owner h.field.offset) := by
  have hmem : h.field.offset ∈ Linkage.staticOffsets h.owner.fields :=
    List.mem_map.2 ⟨h.field, List.mem_filter.2 ⟨List.mem_of_getElem? h.found, hstatic⟩, rfl⟩
  rw [ha.staticOffsets hc, List.mem_range] at hmem
  exact if_pos hmem

end Area

namespace Resolver

/-- In every state that comes from genuine operations, the instance fields along the superclasses of
a class fill its objects from the header to the end, each at an offset of its own, those of every
superclass where they are in the objects of the superclass and below those of the class itself. The
static fields of the class have the slots of its storage, so each has an address. -/
theorem fields_fill_objects {start r : Resolver} (hstart : start.area = Area.initial)
    (hrun : GenuineRun start r) {c : Class} (hc : r.area.Published c) :
    (∃ n, c.layout = List.range' headerSize n fieldSize ∧
      c.data.instanceSize = headerSize + fieldSize * n) ∧
    c.layout.Nodup ∧
    (∀ s ∈ c.superclasses, s.layout <+: c.layout ∧
      (s ≠ c → ∀ o ∈ s.layout, ∀ o' ∈ instanceOffsets c.fields, o + fieldSize ≤ o')) ∧
    staticOffsets c.fields = List.range c.data.staticSlots ∧
    ∀ h : FieldHandle, h.owner = c → h.field.isStatic = true →
      staticFieldWord h = .ok (.staticAddress c h.field.offset) := by
  have ha : r.area.Tidy := hrun.tidy (hstart ▸ Area.initial_tidy)
  have howned : r.area.Owned c := (ha.rooted_of_published hc).owned
  have hcompact := ha.compact howned
  refine ⟨hcompact, ?_, fun s hs => ⟨Class.layout_of_superclass hs, fun hne o ho o' ho' => ?_⟩,
    ha.staticOffsets howned, ?_⟩
  · obtain ⟨n, hlayout, -⟩ := hcompact
    rw [hlayout]
    exact List.nodup_range' fieldSize (by decide)
  · exact ha.below_instanceOffsets howned hs hne ho ho'
  · rintro h rfl hstatic
    exact ha.staticFieldWord_eq howned hstatic

/-- A class with an instance field and a static one, and a class below it with two of each. -/
def layeredOperations : List Operation :=
  [.define .bootstrap
      { name := "p/A"
        flags := Flag.accPublic.mask
        fields := [⟨0, "x", .primitive .int⟩, ⟨Flag.accStatic.mask, "s", .primitive .int⟩] },
    .define .bootstrap
      { name := "p/B"
        flags := Flag.accPublic.mask
        superclass := some "p/A"
        fields := [⟨Flag.accStatic.mask, "t", .primitive .int⟩, ⟨0, "y", .primitive .long⟩,
          ⟨Flag.accStatic.mask, "u", .primitive .int⟩, ⟨0, "z", .primitive .int⟩] },
    .load .bootstrap "p/B"]

/-- The resolver when both classes are loaded. -/
def layered : Resolver := performAll layeredOperations { area := Area.initial }

lemma genuineRun_layered : GenuineRun { area := Area.initial } layered :=
  genuineRun_performAll (by simp [layeredOperations, Operation.Genuine]) _

/-- The objects of the class below hold three fields, the inherited one in front, and both of its
static fields have an address. -/
theorem layered_fields_apart :
    ∃ above below, layered.area.Published below ∧ above ∈ below.superclasses ∧
      below.layout = [16, 24, 32] ∧ above.layout <+: below.layout ∧
      staticOffsets below.fields = [0, 1] ∧
      ∃ h : FieldHandle, h.owner = below ∧ staticFieldWord h = .ok (.staticAddress below 1) := by
  have htest : ((layered.area.published? .bootstrap "p/B").any fun below =>
      (below.superclass?.any fun above => above.name = "p/A") &&
        below.data.instanceSize = 40 && below.data.staticSlots = 2 &&
        below.fields[2]?.any fun f => f.isStatic && f.offset = 1) = true := by
    decide +kernel
  obtain ⟨below, hbelow, htest⟩ := Area.exists_published htest
  simp only [Bool.and_eq_true, decide_eq_true_eq] at htest
  obtain ⟨⟨⟨habove, hsize⟩, hslots⟩, hfield⟩ := htest
  obtain ⟨above, habove, -⟩ := (Option.any_eq_true _ _).1 habove
  obtain ⟨f, hfound, hfield⟩ := (Option.any_eq_true _ _).1 hfield
  rw [Bool.and_eq_true, decide_eq_true_eq] at hfield
  obtain ⟨⟨n, hlayout, hend⟩, -, hsuperclasses, hstatic, hwords⟩ :=
    fields_fill_objects rfl genuineRun_layered hbelow
  have hmem : above ∈ below.superclasses := Class.mem_superclasses_of_superclass? habove
  obtain rfl : n = 3 := by
    rw [hsize, headerSize, fieldSize] at hend
    omega
  refine ⟨above, below, hbelow, hmem, hlayout, (hsuperclasses above hmem).1, ?_,
    ⟨below, 2, f, hfound⟩, rfl, ?_⟩
  · rw [hstatic, hslots]
    rfl
  · rw [hwords ⟨below, 2, f, hfound⟩ rfl hfield.1, hfield.2]

end Resolver

end Linkage
