import Linkage.Class.Definition
import Linkage.Proofs.Descriptor.Grammar

/-!
# What linking leaves as it is

Linking gives fields their offsets and methods their slots. The members that a class declares are
those of its definition all the same, by name and by descriptor, and in the same order. So where
definitions have well-formed descriptors only, classes have no others.
-/

namespace Linkage

/-! ### Methods -/

/-- What a method goes by. -/
def Method.signature (m : Method) : String × MethodDescriptor := (m.name, m.descriptor)

/-- What a method of a definition goes by. -/
def MethodDefinition.signature (m : MethodDefinition) : String × MethodDescriptor :=
  (m.name, m.descriptor)

/-- Placing methods leaves them as they are declared. -/
lemma map_signature_placeMethods (overridden : Method → Option Nat) (next : Nat)
    (ms : List MethodDefinition) :
    (placeMethods overridden next ms).1.map Method.signature =
      ms.map MethodDefinition.signature := by
  fun_induction placeMethods overridden next ms with
  | case1 => rfl
  | case2 next m ms _ slot _ r ih => exact congrArg (List.cons m.signature) ih
  | case3 next m ms _ _ r ih => exact congrArg (List.cons m.signature) ih
  | case4 next m ms _ r ih => exact congrArg (List.cons m.signature) ih

lemma map_signature_placeInterfaceMethods (next : Nat) (ms : List MethodDefinition) :
    (placeInterfaceMethods next ms).map Method.signature =
      ms.map MethodDefinition.signature := by
  fun_induction placeInterfaceMethods next ms with
  | case1 => rfl
  | case2 next m ms _ ih => exact congrArg (List.cons m.signature) ih
  | case3 next m ms _ ih => exact congrArg (List.cons m.signature) ih

section

variable {e : Definition} {id : ClassId} {l : LoaderId} {above : Option Class}

lemma link_of_class (id : ClassId) (l : LoaderId) (above : Option Class)
    (h : e.isInterface = false) :
    ∃ r, r = placeMethods (fun m => above.bind fun s => s.overriddenSlot? m)
        (above.elim 0 fun s => s.data.vtableLength) e.methods ∧
      (e.link id l above).methods = r.1 ∧ (e.link id l above).vtableLength = r.2 :=
  ⟨_, rfl, by simp [Definition.link, h], by simp [Definition.link, h]⟩

lemma link_of_interface (h : e.isInterface = true) :
    (e.link id l above).methods = placeInterfaceMethods 0 e.methods := by
  simp [Definition.link, h]

lemma map_signature_link :
    (e.link id l above).methods.map Method.signature =
      e.methods.map MethodDefinition.signature := by
  cases h : e.isInterface with
  | true => rw [link_of_interface h, map_signature_placeInterfaceMethods]
  | false =>
    obtain ⟨r, rfl, hmethods, -⟩ := link_of_class id l above h
    rw [hmethods, map_signature_placeMethods]

/-! ### Fields -/

/-- Placing fields leaves their types as they are declared. -/
lemma map_descriptor_place (layout : FieldLayout) (fs : List FieldDefinition) :
    (layout.place fs).1.map Field.descriptor = fs.map FieldDefinition.descriptor := by
  fun_induction FieldLayout.place layout fs with
  | case1 => rfl
  | case2 layout f fs _ r ih => exact congrArg (List.cons f.descriptor) ih
  | case3 layout f fs _ r ih => exact congrArg (List.cons f.descriptor) ih

lemma map_descriptor_link :
    (e.link id l above).fields.map Field.descriptor = e.fields.map FieldDefinition.descriptor := by
  unfold Definition.link
  split <;> exact map_descriptor_place _ _

/-! ### Descriptors -/

/-- Every descriptor in a definition is well formed. -/
structure Definition.Spelled (d : Definition) : Prop where
  fields : ∀ f ∈ d.fields, f.descriptor.WellFormed
  methods : ∀ m ∈ d.methods, m.descriptor.WellFormed

instance (d : Definition) : Decidable d.Spelled :=
  decidable_of_iff ((∀ f ∈ d.fields, f.descriptor.WellFormed) ∧
    ∀ m ∈ d.methods, m.descriptor.WellFormed) ⟨fun h => ⟨h.1, h.2⟩, fun h => ⟨h.1, h.2⟩⟩

/-- Every member that a class declares has a well-formed descriptor. -/
structure ClassData.Spelled (d : ClassData) : Prop where
  fields : ∀ f ∈ d.fields, f.descriptor.WellFormed
  methods : ∀ m ∈ d.methods, m.descriptor.WellFormed

lemma spelled_link (h : e.Spelled) : (e.link id l above).Spelled where
  fields f hf := by
    have hmem : f.descriptor ∈ (e.link id l above).fields.map Field.descriptor :=
      List.mem_map_of_mem hf
    rw [map_descriptor_link] at hmem
    obtain ⟨d, hd, heq⟩ := List.mem_map.1 hmem
    exact heq ▸ h.fields d hd
  methods m hm := by
    have hmem : m.signature ∈ (e.link id l above).methods.map Method.signature :=
      List.mem_map_of_mem hm
    rw [map_signature_link] at hmem
    obtain ⟨d, hd, heq⟩ := List.mem_map.1 hmem
    have hdescriptor : d.descriptor = m.descriptor := congrArg Prod.snd heq
    exact hdescriptor ▸ h.methods d hd

end

end Linkage
