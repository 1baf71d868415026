import Linkage.Proofs.Machine.Progress
import Linkage.Proofs.Resolver.Repeat

/-!
# How instructions are bound

An instruction that refers to something is bound when its code is made, if what it refers to is
known then, or else it is left to a patcher. Which of the two, and with which data word or which
patcher, is a property of the code on its way: no instruction that is added later changes it. The
instructions that are made for a use know what they refer to only if the use was resolved.
-/

namespace Linkage

open Relation
open Resolver (Evolves Gives)

/-- Whether a field or a method is used. -/
def Use.isMember : Use → Bool
  | ofClass _ => false
  | ofField _ => true
  | ofMethod _ => true

/-- The operand of an instruction that is left to its patcher. -/
def Use.leftOpen : Use → Operand
  | ofClass u => .toClass (.unresolved u)
  | ofField u => .toField (.unresolved u)
  | ofMethod u => .toMethod (.unresolved u)

/-! ### Bindings -/

namespace Builder

/-- How an instruction is bound: with a word that is put there when the code is made, or later with
what a patcher makes of its operand. -/
inductive Binding where
  | early (w : Word)
  | late (patcher : Patcher) (operand : PatchOperand)

/-- The binding of the instruction at a place in the code. -/
def binding? (b : Builder) (k : Nat) : Option Binding :=
  match b.patches.find? fun p => p.codeIndex = k with
  | some p => some (.late p.patcher p.operand)
  | none => (b.code[k]?).bind fun (_, slot) => slot.bind fun i => (b.data[i]?).map .early

end Builder

/-! ### Words that are known early -/

/-- The data word of an instruction whose target is known, and the class that it depends on. -/
inductive Operand.HasWord (a : Area) (op : Opcode) : Operand → Class → Word → Prop where
  | ofClass {c target : Class} (word : if op = .anewarray then
        a.published? c.loader c.arrayName = some target else target = c) :
      HasWord a op (.toClass (.resolved c)) c (.classAddress target)
  | staticField {f : FieldHandle} {w : Word} (isStatic : f.field.isStatic = true)
      (word : staticFieldWord f = .ok w) : HasWord a op (.toField (.resolved f)) f.owner w
  | instanceField {f : FieldHandle} (isStatic : f.field.isStatic = false) :
      HasWord a op (.toField (.resolved f)) f.owner (instanceFieldWord f)
  | call (m : MethodHandle) : HasWord a op (.toMethod (.resolved m)) m.owner (callWord op m)

/-- The word stays the same as classes are loaded. -/
lemma Operand.HasWord.later {a b : Area} {op : Opcode} {x : Operand} {c : Class} {w : Word}
    (h : x.HasWord a op c w) (ha : a.Sound) (hsteps : ReflTransGen Area.Step a b) :
    x.HasWord b op c w := by
  cases h with
  | ofClass word =>
    refine .ofClass ?_
    split at word
    · next hop => rw [if_pos hop, Area.kept_of_steps hsteps ha word]
    · next hop => rw [if_neg hop, word]
  | staticField isStatic word => exact .staticField isStatic word
  | instanceField isStatic => exact .instanceField isStatic
  | call m => exact .call m

/-- An instruction has one word. -/
lemma Operand.HasWord.unique {a : Area} {op : Opcode} {x : Operand} {c d : Class} {v w : Word}
    (h : x.HasWord a op c v) (h' : x.HasWord a op d w) : c = d ∧ v = w := by
  cases h with
  | ofClass word =>
    cases h' with
    | ofClass word' =>
      split at word
      · next hop =>
        rw [if_pos hop, word] at word'
        cases word'
        exact ⟨rfl, rfl⟩
      · next hop =>
        rw [if_neg hop] at word'
        exact ⟨rfl, by rw [word, word']⟩
  | staticField isStatic word =>
    cases h' with
    | staticField _ word' =>
      rw [word] at word'
      cases word'
      exact ⟨rfl, rfl⟩
    | instanceField hnot => simp [isStatic] at hnot
  | instanceField isStatic =>
    cases h' with
    | staticField his => simp [isStatic] at his
    | instanceField => exact ⟨rfl, rfl⟩
  | call m =>
    cases h' with
    | call => exact ⟨rfl, rfl⟩

namespace Builder

variable {b b' : Builder}

/-- There is more code behind what was there. -/
structure Extends (b b' : Builder) : Prop where
  data : b.data <+: b'.data
  code : b.code <+: b'.code
  patches : ∃ ps, b'.patches = b.patches ++ ps ∧ ∀ p ∈ ps, b.code.length ≤ p.codeIndex

lemma Extends.refl (b : Builder) : Extends b b :=
  ⟨List.prefix_rfl, List.prefix_rfl, [], by simp, by simp⟩

lemma Extends.trans {b'' : Builder} (h : Extends b b') (h' : Extends b' b'') : Extends b b'' := by
  obtain ⟨ps, hps, hlate⟩ := h.patches
  obtain ⟨qs, hqs, hlate'⟩ := h'.patches
  refine ⟨h.data.trans h'.data, h.code.trans h'.code, ps ++ qs, by simp [hqs, hps], fun p hp => ?_⟩
  rcases List.mem_append.1 hp with hp | hp
  · exact hlate p hp
  · exact Nat.le_trans h.code.length_le (hlate' p hp)

/-- One more instruction. -/
lemma emit_extends {i : Instruction} {a a' : Area} (hrun : b.emit i a = .ok b' a') :
    Extends b b' ∧ b'.code.length = b.code.length + 1 := by
  cases emit_adds hrun with
  | word w =>
    exact ⟨⟨List.prefix_append _ _, List.prefix_append _ _, [], by simp [addData, addCode],
      by simp⟩, by simp [addData, addCode]⟩
  | bare =>
    exact ⟨⟨List.prefix_rfl, List.prefix_append _ _, [], by simp [addCode], by simp⟩,
      by simp [addCode]⟩
  | patched =>
    refine ⟨⟨List.prefix_append _ _, List.prefix_append _ _, [_], rfl, ?_⟩, ?_⟩
    · simp
    · simp [addPatched, addData, addPatch, addCode]

/-- What comes behind an instruction does not change how it is bound. -/
lemma Extends.binding? (h : Extends b b') {k : Nat} {x : Binding} (hk : k < b.code.length)
    (hx : b.binding? k = some x) : b'.binding? k = some x := by
  obtain ⟨ps, hps, hlate⟩ := h.patches
  have hnone : ps.find? (fun p => p.codeIndex = k) = none := by
    simp only [List.find?_eq_none, decide_eq_true_eq]
    intro p hp hpk
    have := hlate p hp
    omega
  unfold Builder.binding? at hx ⊢
  rw [hps, List.find?_append, hnone, Option.or_none]
  cases hfind : b.patches.find? fun p => p.codeIndex = k with
  | some p =>
    rw [hfind] at hx
    exact hx
  | none =>
    rw [hfind] at hx
    obtain ⟨⟨op, slot⟩, hcode, hx⟩ := Option.bind_eq_some_iff.1 hx
    obtain ⟨i, rfl, hx⟩ := Option.bind_eq_some_iff.1 hx
    obtain ⟨w, hdata, rfl⟩ := Option.map_eq_some_iff.1 hx
    simp [getElem?_of_isPrefix h.code hcode, getElem?_of_isPrefix h.data hdata]

lemma Formed.find?_length (h : b.Formed) :
    b.patches.find? (fun p => p.codeIndex = b.code.length) = none := by
  simp only [List.find?_eq_none, decide_eq_true_eq]
  intro p hp hlength
  have := h.codeIndex_lt hp
  omega

lemma Formed.binding?_addPatched (h : b.Formed) (op : Opcode) (patcher : Patcher)
    (operand : PatchOperand) :
    (b.addPatched op patcher operand).binding? b.code.length = some (.late patcher operand) := by
  have hpatches : (b.addPatched op patcher operand).patches =
      b.patches ++ [⟨b.code.length, b.data.length, patcher, operand⟩] := rfl
  unfold binding?
  rw [hpatches, List.find?_append, h.find?_length]
  simp

lemma Formed.binding?_addData (h : b.Formed) (op : Opcode) (w : Word) :
    ((b.addData w).1.addCode op (some b.data.length)).binding? b.code.length = some (.early w) := by
  have hpatches : ((b.addData w).1.addCode op (some b.data.length)).patches = b.patches := rfl
  have hcode : ((b.addData w).1.addCode op (some b.data.length)).code =
      b.code ++ [(op, some b.data.length)] := rfl
  have hdata : ((b.addData w).1.addCode op (some b.data.length)).data = b.data ++ [w] := rfl
  unfold binding?
  rw [hpatches, h.find?_length, hcode, hdata]
  simp

lemma emit_steps {i : Instruction} {a a' : Area} (hrun : b.emit i a = .ok b' a') :
    ReflTransGen Area.Step a a' := by
  have hsteps := (Resolver.makesArrays_emit b i a trivial).1
  rw [finalState_of_ok hrun] at hsteps
  exact Area.Quiet.steps (Area.ArrayStep.quietly hsteps)

lemma emitAll_extends {code : List Instruction} {a a' : Area}
    (hrun : b.emitAll code a = .ok b' a') : Extends b b' ∧ ReflTransGen Area.Step a a' := by
  induction code generalizing b a with
  | nil =>
    cases hrun
    exact ⟨.refl _, .refl⟩
  | cons i code ih =>
    obtain ⟨b₁, a₁, hfirst, hrest⟩ := bind_eq_ok.1 hrun
    obtain ⟨hmore, hsteps⟩ := ih hrest
    exact ⟨(emit_extends hfirst).1.trans hmore, (emit_steps hfirst).trans hsteps⟩

/-- The instruction at a place in the code was added when that much code was there, and what was
added behind it does not change how it is bound. -/
lemma emitAll_at {code : List Instruction} {a a' : Area} (hb : b.Formed)
    (hrun : b.emitAll code a = .ok b' a') {k : Nat} {i : Instruction} (hi : code[k]? = some i) :
    ∃ (b₁ b₂ : Builder) (a₁ a₂ : Area), b₁.Formed ∧ b₁.code.length = b.code.length + k ∧
      b₁.emit i a₁ = .ok b₂ a₂ ∧ ReflTransGen Area.Step a a₁ ∧ ReflTransGen Area.Step a₂ a' ∧
      ∀ x, b₂.binding? b₁.code.length = some x → b'.binding? b₁.code.length = some x := by
  induction code generalizing b a k with
  | nil => simp at hi
  | cons j code ih =>
    obtain ⟨b₁, a₁, hfirst, hrest⟩ := bind_eq_ok.1 hrun
    cases k with
    | zero =>
      obtain rfl : j = i := by simpa using hi
      obtain ⟨hmore, hsteps⟩ := emitAll_extends hrest
      refine ⟨b, b₁, a, a₁, hb, rfl, hfirst, .refl, hsteps, fun x => hmore.binding? ?_⟩
      rw [(emit_extends hfirst).2]
      exact Nat.lt_succ_self _
    | succ k =>
      obtain ⟨b₂, b₃, a₂, a₃, hb₂, hlength, hemit, hbefore, hrest⟩ :=
        ih (hb.emit hfirst) hrest (by simpa using hi)
      refine ⟨b₂, b₃, a₂, a₃, hb₂, ?_, hemit, (emit_steps hfirst).trans hbefore, hrest⟩
      rw [hlength, (emit_extends hfirst).2]
      omega

/-- A binding with a word that is used once a class is initialized, if the opcode asks for that. -/
def Binding.IsFor (op : Opcode) (c : Class) (w : Word) (phase : Phase) (x : Binding) : Prop :=
  op.initializesClass = true ∧ x = .late .initializer (.whenInitialized c w) ∨
    (op.initializesClass = true → phase = .initialized) ∧ x = .early w

/-- How an instruction is bound whose data word is known when the code is made. -/
lemma Formed.exists_isFor (h : b.Formed) (op : Opcode) (c : Class) (phase : Phase) (w : Word) :
    ∃ x, (b.addResolved op c phase w).binding? b.code.length = some x ∧ x.IsFor op c w phase := by
  rcases b.addResolved_cases op c phase w with ⟨hop, -, heq⟩ | ⟨hphase, heq⟩
  · exact ⟨_, heq ▸ h.binding?_addPatched op _ _, .inl ⟨hop, rfl⟩⟩
  · exact ⟨_, heq ▸ h.binding?_addData op _, .inr ⟨hphase, rfl⟩⟩

lemma Binding.IsFor.later {op : Opcode} {c : Class} {w : Word} {x : Binding} {a a' : Area}
    (h : x.IsFor op c w (a.phase c)) (hsteps : ReflTransGen Area.Step a a') :
    x.IsFor op c w (a'.phase c) :=
  h.imp id fun hword =>
    ⟨fun hop => (Area.initialized_stable c).reflTransGen hsteps (hword.1 hop), hword.2⟩

/-- An instruction whose reference is not resolved is bound by the patcher for its opcode. -/
lemma Formed.binding?_addUnresolved (h : b.Formed) {op : Opcode} {operand : PatchOperand}
    {a a' : Area} (hrun : (ofExcept (b.addUnresolved op operand) : AreaM Builder) a = .ok b' a') :
    ∃ patcher, Patcher.ofOpcode? op = some patcher ∧
      b'.binding? b.code.length = some (.late patcher operand) := by
  obtain ⟨patcher, hpatcher, rfl⟩ := addUnresolved_eq_ok (ofExcept_eq_ok hrun).1
  exact ⟨patcher, hpatcher, h.binding?_addPatched op _ _⟩

/-- An instruction whose target is known is added with its word. -/
lemma emit_resolved {i : Instruction} {a a' : Area} (hrun : b.emit i a = .ok b' a')
    (hnone : i.operand ≠ .none) (hresolved : i.operand.isResolved = true) :
    ∃ c w, i.operand.HasWord a' i.opcode c w ∧
      b' = b.addResolved i.opcode c (a'.phase c) w := by
  obtain ⟨op, operand, n⟩ := i
  match operand with
  | .none => exact absurd rfl hnone
  | .toClass (.unresolved _) => cases hresolved
  | .toField (.unresolved _) => cases hresolved
  | .toMethod (.unresolved _) => cases hresolved
  | .toClass (.resolved c) =>
    simp only [emit] at hrun
    split at hrun
    · next hop =>
      obtain ⟨target, a₁, htarget, hrun⟩ := bind_eq_ok.1 hrun
      cases hrun
      refine ⟨c, .classAddress target, .ofClass ?_, rfl⟩
      rw [if_pos hop, Area.published?_of_arrayOf htarget]
    · next hop =>
      cases hrun
      exact ⟨c, .classAddress c, .ofClass (by rw [if_neg hop]), rfl⟩
  | .toField (.resolved f) =>
    simp only [emit] at hrun
    split at hrun
    · next hstatic =>
      obtain ⟨w, a₁, hword, hrun⟩ := bind_eq_ok.1 hrun
      cases hrun
      exact ⟨f.owner, w, .staticField hstatic (ofExcept_eq_ok hword).1, rfl⟩
    · next hstatic =>
      cases hrun
      exact ⟨f.owner, _, .instanceField (by simpa using hstatic), rfl⟩
  | .toMethod (.resolved m) =>
    cases hrun
    exact ⟨m.owner, callWord op m, .call m, rfl⟩

/-- An instruction that is left to its patcher. -/
lemma Formed.binding?_leftOpen (h : b.Formed) {op : Opcode} {u : Use} {n : Int} {a a' : Area}
    (hrun : b.emit ⟨op, u.leftOpen, n⟩ a = .ok b' a') :
    ∃ patcher, Patcher.ofOpcode? op = some patcher ∧
      b'.binding? b.code.length = some (.late patcher (.use u)) := by
  cases u with
  | ofClass u => exact h.binding?_addUnresolved hrun
  | ofField u => exact h.binding?_addUnresolved hrun
  | ofMethod u => exact h.binding?_addUnresolved hrun

/-! ### Whole methods -/

/-- How an instruction is bound in its code whose target is known. -/
lemma emitAll_resolved {code : List Instruction} {a a' : Area} (ha : a.Sound)
    (hrun : ({} : Builder).emitAll code a = .ok b a') {k : Nat} {i : Instruction}
    (hi : code[k]? = some i) (hnone : i.operand ≠ .none) (hresolved : i.operand.isResolved = true) :
    ∃ x c w, b.binding? k = some x ∧ i.operand.HasWord a' i.opcode c w ∧
      x.IsFor i.opcode c w (a'.phase c) := by
  obtain ⟨b₁, b₂, a₁, a₂, hb₁, hlength, hadd, hbefore, hafter, hbinding⟩ :=
    emitAll_at formed_empty hrun hi
  obtain rfl : b₁.code.length = k := by simpa using hlength
  have ha₂ : a₂.Sound := Area.sound_stable.reflTransGen (hbefore.trans (emit_steps hadd)) ha
  obtain ⟨c, w, hword, rfl⟩ := emit_resolved hadd hnone hresolved
  obtain ⟨x, hx, hfor⟩ := hb₁.exists_isFor i.opcode c (a₂.phase c) w
  exact ⟨x, c, w, hbinding x hx, hword.later ha₂ hafter, hfor.later hafter⟩

/-- How an instruction is bound in its code that is left to its patcher. -/
lemma emitAll_leftOpen {code : List Instruction} {a a' : Area}
    (hrun : ({} : Builder).emitAll code a = .ok b a') {k : Nat} {op : Opcode} {u : Use} {n : Int}
    (hi : code[k]? = some ⟨op, u.leftOpen, n⟩) :
    ∃ patcher, Patcher.ofOpcode? op = some patcher ∧
      b.binding? k = some (.late patcher (.use u)) := by
  obtain ⟨b₁, b₂, a₁, a₂, hb₁, hlength, hadd, -, -, hbinding⟩ := emitAll_at formed_empty hrun hi
  obtain rfl : b₁.code.length = k := by simpa using hlength
  obtain ⟨patcher, hpatcher, hlate⟩ := hb₁.binding?_leftOpen hadd
  exact ⟨patcher, hpatcher, hbinding _ hlate⟩

end Builder

/-! ### Instructions that are made for a use -/

namespace Instruction

variable {op : Opcode} {r r' : Resolver} {i : Instruction}

lemma settle_resolved {ρ υ : Type} {use : υ} {x : ResolutionM ρ} {r r' : Resolver}
    {target : ρ} (h : settle use x r = .ok (.resolved target) r') : Gives x r target r' := by
  obtain ⟨found, s, hfound, h⟩ := bind_eq_ok.1 h
  cases found with
  | none => cases h
  | some v =>
    cases h
    cases hx : x.run r with
    | ok w t =>
      rw [tryCatch_of_ok hx] at hfound
      cases hfound
      exact hx
    | error e t =>
      rw [tryCatch_of_error hx] at hfound
      cases hfound

/-- An instruction has its class if the use of the class was resolved. -/
lemma ofClass_resolved {op : Opcode} {u : ClassUse} {r r' : Resolver} {i : Instruction}
    {c : Class} (h : ofClass op u r = .ok i r') (hi : i.operand = .toClass (.resolved c)) :
    op.operandKind = .classRef ∧ Gives (Resolver.resolveClass u .lazy) r c r' ∧
      ∃ n, i = ⟨op, .toClass (.resolved c), n⟩ := by
  obtain ⟨⟨⟩, s, hkind, h⟩ := bind_eq_ok.1 h
  obtain ⟨target, t, htarget, h⟩ := bind_eq_ok.1 h
  cases h
  obtain rfl : target = .resolved c := by simpa using hi
  unfold expectKind at hkind
  split at hkind
  · next hop =>
    cases hkind
    exact ⟨hop, settle_resolved htarget, _, rfl⟩
  · cases hkind

/-- An instruction has its field if the use of the field was resolved. -/
lemma ofField_resolved {u : FieldUse} (h : ofField op u r = .ok i r')
    (hresolved : i.operand.isResolved = true) :
    op.operandKind = .fieldRef ∧ op.isStaticAccess = u.isStatic ∧
      ∃ f, Gives (Resolver.resolveField u .lazy) r f r' ∧ i = ⟨op, .toField (.resolved f), 0⟩ := by
  obtain ⟨⟨⟩, s, hkind, h⟩ := bind_eq_ok.1 h
  unfold expectKind at hkind
  split at hkind
  case isFalse => cases hkind
  next hop =>
  cases hkind
  dsimp only at h
  split at h
  · cases h
  · next haccess =>
    simp only [ne_eq, Bool.or_eq_true, decide_eq_true_eq, not_or, not_not] at haccess
    obtain ⟨target, t, htarget, h⟩ := bind_eq_ok.1 h
    cases h
    cases target with
    | unresolved => cases hresolved
    | resolved f => exact ⟨hop, haccess.1, f, settle_resolved htarget, rfl⟩

/-- An instruction has its method if the use of the method was resolved; a call through an interface
has the interface method. -/
lemma ofMethod_resolved {u : MethodUse} (h : ofMethod op u r = .ok i r')
    (hresolved : i.operand.isResolved = true) :
    op.operandKind = .methodRef ∧ calls op u = true ∧
      ∃ m target s, Gives (Resolver.resolveMethod u .lazy) r m s ∧
        (if op = .invokeinterface then Gives (Resolver.interfaceTarget u.target) s target r'
          else target = m ∧ r' = s) ∧
        i = ⟨op, .toMethod (.resolved target), 0⟩ := by
  obtain ⟨⟨⟩, s, hkind, h⟩ := bind_eq_ok.1 h
  unfold expectKind at hkind
  split at hkind
  case isFalse => cases hkind
  next hop =>
  cases hkind
  dsimp only at h
  split at h
  · cases h
  · next hcalls =>
    obtain ⟨target, t, htarget, h⟩ := bind_eq_ok.1 h
    cases h
    cases target with
    | unresolved => cases hresolved
    | resolved target =>
      obtain ⟨m, s, hm, hlast⟩ := Resolver.gives_bind.1 (settle_resolved htarget)
      refine ⟨hop, by simpa using hcalls, m, target, s, hm, ?_, rfl⟩
      split at hlast
      · next hinterface => rwa [if_pos hinterface]
      · next hinterface =>
        rw [if_neg hinterface]
        obtain ⟨rfl, rfl⟩ := Resolver.gives_pure.1 hlast
        exact ⟨rfl, rfl⟩

lemma isStatic_of_calls {u : MethodUse} (h : calls op u = true) :
    u.isStatic = op.isStaticAccess := by
  simp only [calls, Bool.and_eq_true, decide_eq_true_eq] at h
  exact h.1.1.symm

/-- Only calls through an interface may go to another method once the class of the object is
known. -/
lemma determined_of_calls {u : MethodUse} (hop : op.operandKind = .methodRef)
    (h : calls op u = true) (hne : op ≠ .invokeinterface) :
    u.target.isInterface = false ∨ u.isStatic = true ∨ u.isSpecial = true := by
  have hstatic := isStatic_of_calls h
  simp only [calls, Bool.and_eq_true, decide_eq_true_eq] at h
  obtain ⟨⟨-, hspecial⟩, htarget⟩ := h
  cases op with
  | invokevirtual => exact .inl (by simpa using htarget)
  | invokespecial => exact .inr (.inr hspecial.symm)
  | invokestatic => exact .inr (.inl hstatic)
  | invokeinterface => exact absurd rfl hne
  | _ => cases hop

end Instruction

namespace Machine

variable {α : Type} {m : Machine}

/-- The machine with another state of the resolver. -/
def withResolver (m : Machine) (r : Resolver) : Machine := { m with resolver := r }

lemma eagerly_of_gives {x : ResolutionM α} {v : α} {q : Resolver} (h : Gives x m.resolver v q)
    (what : String) : eagerly what x m = .ok v (m.withResolver q) := by
  have hrun : onResolver x.run m = .ok (some v) (m.withResolver q) := by
    have hx : x.run m.resolver = _ := h
    simp only [onResolver, hx]
    rfl
  exact bind_of_ok hrun

end Machine

end Linkage
