import Linkage.Proofs.Machine.Readiness
import Linkage.Proofs.Resolver.RepeatMembers

/-!
# What instructions refer to

A use is resolved for an instruction when the instruction is made or when its patcher is at work,
and a call through an interface goes on to the interface method. Both ways lead to the same target,
at whatever time each is taken, and the patcher of the opcode makes the word of that target. Only
the patcher for objects asks for more: it refuses interfaces and abstract classes.
-/

namespace Linkage

open Relation
open Resolver (Evolves Gives)

namespace Opcode

variable {op : Opcode}

/-- The opcodes that refer to a class, by the patchers they have. -/
lemma classRef_cases (hop : op.operandKind = .classRef) :
    op = .new ∨ op = .anewarray ∨
      op ≠ .new ∧ op ≠ .anewarray ∧ op.initializesClass = false ∧
        Patcher.ofOpcode? op = some .classConstant := by
  revert hop
  cases op <;> decide

/-- The opcodes that refer to a field, by the patchers they have. -/
lemma fieldRef_cases (hop : op.operandKind = .fieldRef) :
    op.isStaticAccess = true ∧ op.initializesClass = true ∧
        Patcher.ofOpcode? op = some .staticField ∨
      op.isStaticAccess = false ∧ op.initializesClass = false ∧
        Patcher.ofOpcode? op = some .instanceField := by
  revert hop
  cases op <;> decide

/-- The opcodes that call a method, by the patchers they have. -/
lemma methodRef_cases (hop : op.operandKind = .methodRef) :
    op = .invokeinterface ∨ op = .invokevirtual ∨
      op ≠ .invokeinterface ∧ op ≠ .invokevirtual ∧ op.isStaticAccess = op.initializesClass ∧
        Patcher.ofOpcode? op = some .directCall := by
  revert hop
  cases op <;> decide

lemma isStaticAccess_of_methodRef (hop : op.operandKind = .methodRef)
    (hinit : op.initializesClass = true) : op.isStaticAccess = true := by
  revert hop hinit
  cases op <;> decide

end Opcode

/-- Whether an opcode goes with a use. -/
def Use.Suits (op : Opcode) : Use → Prop
  | ofClass _ => op.operandKind = .classRef
  | ofField u => op.operandKind = .fieldRef ∧ op.isStaticAccess = u.isStatic
  | ofMethod u => op.operandKind = .methodRef ∧ Instruction.calls op u = true

/-- An instruction for a use leads to a known target, which becomes its operand. -/
inductive Use.Leads (op : Opcode) (mode : ResolveMode) : Use → Resolver → Operand → Resolver → Prop
  | ofClass {u : ClassUse} {c : Class} {r r' : Resolver}
      (found : Gives (Resolver.resolveClass u mode) r c r') :
      Leads op mode (.ofClass u) r (.toClass (.resolved c)) r'
  | ofField {u : FieldUse} {f : FieldHandle} {r r' : Resolver}
      (found : Gives (Resolver.resolveField u mode) r f r') :
      Leads op mode (.ofField u) r (.toField (.resolved f)) r'
  | ofMethod {u : MethodUse} {m : MethodHandle} {r r' : Resolver} (plain : op ≠ .invokeinterface)
      (found : Gives (Resolver.resolveMethod u mode) r m r') :
      Leads op mode (.ofMethod u) r (.toMethod (.resolved m)) r'
  | throughInterface {u : MethodUse} {m target : MethodHandle} {r s r' : Resolver}
      (through : op = .invokeinterface) (found : Gives (Resolver.resolveMethod u mode) r m s)
      (interface : Gives (Resolver.interfaceTarget u.target) s target r') :
      Leads op mode (.ofMethod u) r (.toMethod (.resolved target)) r'

/-- An instruction whose target is known once it was made for a use. -/
lemma Instruction.leads_of_ofUse {op : Opcode} {u : Use} {r r' : Resolver} {i : Instruction}
    (h : ofUse op u r = .ok i r') (hresolved : i.operand.isResolved = true) :
    u.Suits op ∧ i.opcode = op ∧ u.Leads op .lazy r i.operand r' := by
  match u with
  | .ofClass u =>
    obtain ⟨c, hi⟩ : ∃ c, i.operand = .toClass (.resolved c) := by
      obtain ⟨-, s, -, h⟩ := bind_eq_ok.1 h
      obtain ⟨target, t, -, h⟩ := bind_eq_ok.1 h
      cases h
      cases target with
      | unresolved => cases hresolved
      | resolved c => exact ⟨c, rfl⟩
    obtain ⟨hop, hc, n, rfl⟩ := ofClass_resolved h hi
    exact ⟨hop, rfl, .ofClass hc⟩
  | .ofField u =>
    obtain ⟨hop, haccess, f, hf, rfl⟩ := ofField_resolved h hresolved
    exact ⟨⟨hop, haccess⟩, rfl, .ofField hf⟩
  | .ofMethod u =>
    obtain ⟨hop, hcalls, m, target, s, hm, htarget, rfl⟩ := ofMethod_resolved h hresolved
    refine ⟨⟨hop, hcalls⟩, rfl, ?_⟩
    split at htarget
    · next hinterface => exact .throughInterface hinterface hm htarget
    · next hplain =>
      obtain ⟨rfl, rfl⟩ := htarget
      exact .ofMethod hplain hm

namespace Use.Leads

variable {op : Opcode} {mode : ResolveMode} {u : Use} {r r' q : Resolver} {x : Operand}

lemma ne_none (h : u.Leads op mode r x r') : x ≠ .none := by
  cases h <;> simp

lemma evolves (h : u.Leads op mode r x r') (hr : r.area.Sound) : Evolves r r' := by
  cases h with
  | ofClass found => exact found.evolves (Resolver.built_resolveClass _ _) hr
  | ofField found => exact found.evolves (Resolver.built_resolveField _ _) hr
  | ofMethod _ found => exact found.evolves (Resolver.built_resolveMethod _ _) hr
  | throughInterface _ found interface =>
    have hs := found.evolves (Resolver.built_resolveMethod _ _) hr
    exact hs.trans (interface.evolves (Resolver.built_interfaceTarget _) (hs.sound hr))

/-- From one state, a use leads to one target. -/
lemma unique {y : Operand} (h : u.Leads op mode r x r') (h' : u.Leads op mode r y q) :
    x = y ∧ r' = q := by
  cases h with
  | ofClass found =>
    cases h' with
    | ofClass found' =>
      obtain ⟨rfl, rfl⟩ := found.unique found'
      exact ⟨rfl, rfl⟩
  | ofField found =>
    cases h' with
    | ofField found' =>
      obtain ⟨rfl, rfl⟩ := found.unique found'
      exact ⟨rfl, rfl⟩
  | ofMethod plain found =>
    cases h' with
    | ofMethod _ found' =>
      obtain ⟨rfl, rfl⟩ := found.unique found'
      exact ⟨rfl, rfl⟩
    | throughInterface through => exact absurd through plain
  | throughInterface through found interface =>
    cases h' with
    | ofMethod plain => exact absurd through plain
    | throughInterface _ found' interface' =>
      obtain ⟨-, rfl⟩ := found.unique found'
      obtain ⟨rfl, rfl⟩ := interface.unique interface'
      exact ⟨rfl, rfl⟩

/-- A use that led to a target leads to it in every later state. Where a class has to be
initialized, nothing but counts and reports changes. -/
lemma again (hr : r.area.Steady) (hsuits : u.Suits op) (h : u.Leads op mode r x r')
    (hq : Evolves r' q) (mode' : ResolveMode) :
    ∃ q', u.Leads op mode' q x q' ∧ (op.initializesClass = true → Resolver.Alike q q') := by
  cases h with
  | ofClass found =>
    exact ⟨_, .ofClass (Resolver.gives_resolveClass_again hr.sound found hq mode'),
      fun _ => ⟨rfl, rfl⟩⟩
  | ofField found =>
    exact ⟨_, .ofField (Resolver.gives_resolveField_again hr found hq mode'),
      fun _ => ⟨rfl, rfl⟩⟩
  | @ofMethod u m r r' plain found =>
    obtain ⟨m', q', hagain, hrecalled, halike⟩ :=
      Resolver.gives_resolveMethod_again hr found hq mode'
    obtain rfl : m' = m := hrecalled.eq (Instruction.determined_of_calls hsuits.1 hsuits.2 plain)
    refine ⟨q', .ofMethod plain hagain, fun hop => halike ?_⟩
    rw [Instruction.isStatic_of_calls hsuits.2]
    exact Opcode.isStaticAccess_of_methodRef hsuits.1 hop
  | @throughInterface u m target r s r' through found interface =>
    have hs : s.area.Steady :=
      (found.evolves (Resolver.built_resolveMethod _ _) hr.sound).steady hr
    have hlater : Evolves s q :=
      (interface.evolves (Resolver.built_interfaceTarget _) hs.sound).trans hq
    obtain ⟨m', q₁, hagain, -⟩ := Resolver.gives_resolveMethod_again hr found hlater mode'
    have hq₁ : Evolves q q₁ :=
      hagain.evolves (Resolver.built_resolveMethod _ _) (hlater.steady hs).sound
    have hinterface := Resolver.repeats_interfaceTarget u.target s target r' hs.sound interface q₁
      (hq.trans hq₁)
    refine ⟨q₁, .throughInterface through hagain hinterface, fun hop => ?_⟩
    rw [through] at hop
    cases hop

end Use.Leads

/-! ### Patchers -/

/-- A call that is not dispatched goes to its method. -/
lemma callWord_of_direct {op : Opcode} (hinterface : op ≠ .invokeinterface)
    (hvirtual : op ≠ .invokevirtual) (m : MethodHandle) : callWord op m = .methodAddress m := by
  unfold callWord dispatchIndex?
  split <;> simp_all

/-- The class that has to be initialized before an instruction runs. -/
def Opcode.needs? (op : Opcode) (c : Class) : Option Class :=
  if op.initializesClass then some c else none

lemma Opcode.needs?_of_initializes {op : Opcode} (h : op.initializesClass = true) (c : Class) :
    op.needs? c = some c := by
  rw [needs?, if_pos h]

lemma Opcode.needs?_of_not_initializes {op : Opcode} (h : op.initializesClass = false)
    (c : Class) : op.needs? c = none := by
  rw [needs?, h, if_neg (by simp)]

/-- Whether the class that an instruction makes objects of has any. -/
def Instantiable (op : Opcode) (c : Class) : Prop :=
  op = .new → c.isInterface = false ∧ c.isAbstract = false

/-- What a resolution gives that must not be deferred. -/
lemma Machine.gives_of_eagerly {α : Type} {what : String} {x : ResolutionM α} {v : α}
    {m m' : Machine} (h : eagerly what x m = .ok v m') : Gives x m.resolver v m'.resolver := by
  obtain ⟨found, m₁, hfound, h⟩ := bind_eq_ok.1 h
  cases found with
  | none => cases h
  | some v =>
    cases h
    unfold onResolver at hfound
    split at hfound
    · next hx =>
      cases hfound
      exact hx
    · cases hfound

namespace Use.Suits

variable {op : Opcode} {u : Use}

lemma ne_trap (h : u.Suits op) : op ≠ .trap := by
  rintro rfl
  cases u with
  | ofClass => cases h
  | ofField => cases h.1
  | ofMethod => cases h.1

/-- No objects are made for the use of a member. -/
lemma instantiable (h : u.Suits op) (hmember : u.isMember = true) (c : Class) :
    Instantiable op c := by
  rintro rfl
  cases u with
  | ofClass => cases hmember
  | ofField => cases h.1
  | ofMethod => cases h.1

end Use.Suits

namespace Watch

open Machine (eagerly_of_gives)

variable {op : Opcode} {u : Use} {m : Machine} {x : Operand} {q : Resolver} {c : Class} {w : Word}
  {patcher : Patcher}

/-- The patcher of an instruction makes the word of its target, and has the class initialized first
that the target is or is declared in, if the opcode asks for that. -/
lemma plan_of_leads (hsuits : u.Suits op) (hpatcher : Patcher.ofOpcode? op = some patcher)
    (h : u.Leads op .eager m.resolver x q) (hword : x.HasWord q.area op c w)
    (hinst : Instantiable op c) : patchPlan patcher (.use u) m =
      .ok (op.needs? c, .ok w) (m.withResolver q) := by
  cases h with
  | @ofClass u _ _ _ found =>
    have hresolve := eagerly_of_gives found u.text
    cases hword with
    | @ofClass _ target word =>
      rcases Opcode.classRef_cases hsuits with rfl | rfl | ⟨hnew, harray, hinit, hconstant⟩
      · cases hpatcher
        obtain rfl : target = c := word
        obtain ⟨hinterface, habstract⟩ := hinst rfl
        refine (bind_of_ok hresolve).trans ?_
        rw [hinterface, habstract, if_neg (by simp)]
        rfl
      · cases hpatcher
        have hmake : Machine.onArea (Area.arrayOf c) (m.withResolver q) =
            .ok target (m.withResolver q) := by
          have harray : Area.arrayOf c q.area = .ok target q.area := Area.arrayOf_of_published word
          simp only [Machine.onArea, Machine.onResolver, Resolver.onArea, Machine.withResolver,
            harray]
        exact bind_of_ok ((bind_of_ok hresolve).trans (bind_of_ok hmake))
      · rw [hconstant] at hpatcher
        cases hpatcher
        obtain rfl : target = c := by simpa [harray] using word
        rw [Opcode.needs?_of_not_initializes hinit]
        exact bind_of_ok (bind_of_ok hresolve)
  | @ofField u f _ _ found =>
    have hresolve := eagerly_of_gives found u.text
    obtain ⟨-, -, -, -, -, -, -, -, hstatic, -⟩ := Resolver.gives_resolveField.1 found
    have haccess : op.isStaticAccess = f.field.isStatic := hsuits.2.trans hstatic.symm
    rcases Opcode.fieldRef_cases hsuits.1 with ⟨his, hinit, hknown⟩ | ⟨his, hinit, hknown⟩
    · rw [hknown] at hpatcher
      cases hpatcher
      rw [Opcode.needs?_of_initializes hinit]
      cases hword with
      | instanceField hnot => simp [← haccess, his] at hnot
      | staticField _ hw =>
        refine (bind_of_ok hresolve).trans ?_
        rw [hw]
        rfl
    · rw [hknown] at hpatcher
      cases hpatcher
      rw [Opcode.needs?_of_not_initializes hinit]
      cases hword with
      | staticField hnot => simp [← haccess, his] at hnot
      | instanceField => exact bind_of_ok (bind_of_ok hresolve)
  | @ofMethod u target _ _ plain found =>
    have hresolve := eagerly_of_gives found u.text
    have hstatic := Instruction.isStatic_of_calls hsuits.2
    cases hword
    rcases Opcode.methodRef_cases hsuits.1 with
      rfl | rfl | ⟨hinterface, hvirtual, haccess, hknown⟩
    · exact absurd rfl plain
    · cases hpatcher
      exact bind_of_ok (bind_of_ok hresolve)
    · rw [hknown] at hpatcher
      cases hpatcher
      refine (bind_of_ok hresolve).trans ?_
      rw [hstatic, haccess, callWord_of_direct hinterface hvirtual]
      rfl
  | @throughInterface u called target _ s _ through found interface =>
    subst through
    cases hpatcher
    cases hword
    have hinterface := eagerly_of_gives (m := m.withResolver s) interface
      u.target.container.name
    exact bind_of_ok ((bind_of_ok (eagerly_of_gives found u.text)).trans (bind_of_ok hinterface))

/-- The patcher for objects refuses a class that has none. -/
lemma plan_of_not_instantiable (hsuits : u.Suits op)
    (hpatcher : Patcher.ofOpcode? op = some patcher) (h : u.Leads op .eager m.resolver x q)
    (hword : x.HasWord q.area op c w) (hinst : ¬ Instantiable op c) :
    patchPlan patcher (.use u) m = .error (.notInstantiable c.name) (m.withResolver q) := by
  obtain ⟨rfl, hnone⟩ : op = .new ∧ (c.isInterface || c.isAbstract) = true := by
    simp only [Instantiable, Classical.not_imp, not_and_or, Bool.not_eq_false] at hinst
    simpa using hinst
  cases hpatcher
  cases h with
  | @ofClass u _ _ _ found =>
    cases hword
    refine (bind_of_ok (eagerly_of_gives found u.text)).trans ?_
    rw [if_pos hnone]
    rfl
  | ofField => cases hsuits.1
  | ofMethod => cases hsuits.1
  | throughInterface => cases hsuits.1

/-- A patcher finds its word by resolving its use. -/
lemma leads_of_plan (hsuits : u.Suits op) (hpatcher : Patcher.ofOpcode? op = some patcher)
    (hm : m.area.Sound) {target : Option Class} {m' : Machine}
    (hplan : patchPlan patcher (.use u) m = .ok (target, .ok w) m') :
    ∃ x q c, u.Leads op .eager m.resolver x q ∧ Evolves q m'.resolver ∧
      x.HasWord m'.area op c w := by
  match u with
  | .ofClass u =>
    rcases Opcode.classRef_cases hsuits with rfl | rfl | ⟨hnew, harray, hinit, hconstant⟩
    · cases hpatcher
      obtain ⟨c, m₁, hc, hplan⟩ := bind_eq_ok.1 hplan
      split at hplan <;> cases hplan
      exact ⟨_, _, c, .ofClass (Machine.gives_of_eagerly hc), .refl _, .ofClass rfl⟩
    · cases hpatcher
      obtain ⟨word, m₁, hword, hplan⟩ := bind_eq_ok.1 hplan
      cases hplan
      obtain ⟨c, m₂, hc, hword⟩ := bind_eq_ok.1 hword
      obtain ⟨d, m₃, hd, hword⟩ := bind_eq_ok.1 hword
      cases hword
      have hfound := Machine.gives_of_eagerly hc
      have hsound := (hfound.evolves (Resolver.built_resolveClass _ _) hm).sound hm
      have hmakes : Machine.Built true (Machine.onArea (Area.arrayOf c)) :=
        Machine.built_arrays (Area.performs_arrayOf c)
      have hlater := (hmakes.advances (m := m₂) hsound).evolves
      rw [finalState_of_ok hd] at hlater
      refine ⟨_, _, c, .ofClass hfound, hlater, .ofClass ?_⟩
      rw [if_pos rfl]
      exact Area.published?_of_arrayOf (area_of_onArea hd)
    · rw [hconstant] at hpatcher
      cases hpatcher
      obtain ⟨word, m₁, hword, hplan⟩ := bind_eq_ok.1 hplan
      cases hplan
      obtain ⟨c, m₂, hc, hword⟩ := bind_eq_ok.1 hword
      cases hword
      refine ⟨_, _, c, .ofClass (Machine.gives_of_eagerly hc), .refl _, .ofClass ?_⟩
      rw [if_neg harray]
  | .ofField u =>
    have haccess : ∀ {f r r'}, Gives (Resolver.resolveField u .eager) r f r' →
        f.field.isStatic = op.isStaticAccess := by
      intro f r r' hf
      obtain ⟨-, -, -, -, -, -, -, -, hstatic, -⟩ := Resolver.gives_resolveField.1 hf
      exact hstatic.trans hsuits.2.symm
    rcases Opcode.fieldRef_cases hsuits.1 with ⟨his, hinit, hknown⟩ | ⟨his, hinit, hknown⟩
    · rw [hknown] at hpatcher
      cases hpatcher
      obtain ⟨f, m₁, hf, hplan⟩ := bind_eq_ok.1 hplan
      have hfound := Machine.gives_of_eagerly hf
      obtain ⟨⟨-, hw⟩, rfl⟩ : (some f.owner = target ∧ staticFieldWord f = .ok w) ∧ m₁ = m' := by
        simpa using hplan
      exact ⟨_, _, f.owner, .ofField hfound, .refl _, .staticField ((haccess hfound).trans his) hw⟩
    · rw [hknown] at hpatcher
      cases hpatcher
      obtain ⟨word, m₁, hword, hplan⟩ := bind_eq_ok.1 hplan
      cases hplan
      obtain ⟨f, m₂, hf, hword⟩ := bind_eq_ok.1 hword
      cases hword
      have hfound := Machine.gives_of_eagerly hf
      exact ⟨_, _, f.owner, .ofField hfound, .refl _, .instanceField ((haccess hfound).trans his)⟩
  | .ofMethod u =>
    rcases Opcode.methodRef_cases hsuits.1 with
      rfl | rfl | ⟨hinterface, hvirtual, haccess, hknown⟩
    · cases hpatcher
      obtain ⟨word, m₁, hword, hplan⟩ := bind_eq_ok.1 hplan
      cases hplan
      obtain ⟨called, m₂, hcalled, hword⟩ := bind_eq_ok.1 hword
      obtain ⟨found, m₃, hfound, hword⟩ := bind_eq_ok.1 hword
      cases hword
      exact ⟨_, _, _, .throughInterface rfl (Machine.gives_of_eagerly hcalled)
        (Machine.gives_of_eagerly hfound), .refl _, .call found⟩
    · cases hpatcher
      obtain ⟨word, m₁, hword, hplan⟩ := bind_eq_ok.1 hplan
      cases hplan
      obtain ⟨called, m₂, hcalled, hword⟩ := bind_eq_ok.1 hword
      cases hword
      exact ⟨_, _, _, .ofMethod (by simp) (Machine.gives_of_eagerly hcalled), .refl _,
        .call called⟩
    · rw [hknown] at hpatcher
      cases hpatcher
      obtain ⟨called, m₂, hcalled, hplan⟩ := bind_eq_ok.1 hplan
      cases hplan
      have hword : (Operand.toMethod (.resolved called)).HasWord m'.area op called.owner
          (callWord op called) := .call called
      rw [callWord_of_direct hinterface hvirtual] at hword
      exact ⟨_, _, _, .ofMethod hinterface (Machine.gives_of_eagerly hcalled), .refl _, hword⟩

/-- A patcher finds the word of the target that the use led to before, whenever it is asked. -/
lemma word_eq_of_plan {mode : ResolveMode} {r r' q : Resolver} {v : Word} (hr : r.area.Steady)
    (hsuits : u.Suits op) (hleads : u.Leads op mode r x r') (hq : Evolves r' q)
    (hword : x.HasWord q.area op c w) (hpatcher : Patcher.ofOpcode? op = some patcher)
    (hm : m.area.Steady) {target : Option Class} {m' : Machine}
    (hplan : patchPlan patcher (.use u) m = .ok (target, .ok v) m')
    (hm' : Evolves m'.resolver q) : v = w := by
  obtain ⟨y, q₀, d, hfound, hlater, hword'⟩ := leads_of_plan hsuits hpatcher hm.sound hplan
  have hq₀ : q₀.area.Sound := (hfound.evolves hm.sound).sound hm.sound
  obtain ⟨p, hx, -⟩ := hleads.again hr hsuits hq .eager
  obtain ⟨p', hy, -⟩ := hfound.again hm hsuits (hlater.trans hm') .eager
  obtain ⟨rfl, -⟩ := hx.unique hy
  exact ((hword'.later (hlater.sound hq₀) hm'.area).unique hword).2

end Watch

end Linkage
