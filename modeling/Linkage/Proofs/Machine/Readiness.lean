import Linkage.Proofs.Machine.Bindings
import Linkage.Proofs.Machine.Moves

/-!
# Code that waits for its classes

Instructions that read or write static fields, call static methods or make objects depend on a
class: that of the field or the method, or the class of the object. Such an instruction is bound in
one of three ways. If its target is known and the class initialized when the code is made, it is
bound at once; if only the target is known, by a patcher that does no more than initialize the
class; and if its target is not known, by the patcher for its opcode, which initializes the class
that it finds. Whatever is called and whatever initializers do, the instruction traps until then,
and the class is usable when it is bound.

The one exception is a call without an object of a method that is used with one. The patcher takes
it for a call that leaves the class alone. `Instruction.ofUse` does not make such instructions.
-/

namespace Linkage

open Relation

/-- The class that a data word leads into: the class, or the one that has the static slot or the
method. -/
def Word.class? : Word → Option Class
  | bits _ => none
  | classAddress c => some c
  | staticAddress c _ => some c
  | methodAddress m => some m.owner

/-- The class that the target of an operand is or is declared in, if the target is known. -/
def Operand.class? : Operand → Option Class
  | toClass (.resolved c) => some c
  | toField (.resolved f) => some f.owner
  | toMethod (.resolved m) => some m.owner
  | _ => Option.none

lemma Operand.class?_leftOpen (u : Use) : u.leftOpen.class? = Option.none := by
  cases u <;> rfl

lemma Operand.HasWord.class?_eq {a : Area} {op : Opcode} {x : Operand} {c : Class} {w : Word}
    (h : x.HasWord a op c w) : x.class? = some c := by
  cases h <;> rfl

namespace Instruction

/-- Whether an instruction calls a method without an object that is used with one. -/
def isMixed (i : Instruction) : Bool :=
  match i.opcode, i.operand with
  | .invokestatic, .toMethod (.unresolved u) => !u.isStatic
  | _, _ => false

lemma settle_unresolved {ρ υ : Type} {use left : υ} {x : ResolutionM ρ} {r r' : Resolver}
    (h : settle use x r = .ok (.unresolved left) r') : left = use := by
  obtain ⟨found, s, -, h⟩ := bind_eq_ok.1 h
  cases found with
  | some v => cases h
  | none =>
    cases h
    rfl

/-- An instruction that is made for a use is not mixed. -/
lemma isMixed_ofUse {op : Opcode} {u : Use} {r r' : Resolver} {i : Instruction}
    (h : ofUse op u r = .ok i r') : i.isMixed = false := by
  cases u with
  | ofClass u =>
    obtain ⟨-, s, -, h⟩ := bind_eq_ok.1 h
    obtain ⟨target, t, -, h⟩ := bind_eq_ok.1 h
    cases h
    simp [isMixed]
  | ofField u =>
    obtain ⟨-, s, -, h⟩ := bind_eq_ok.1 h
    dsimp only at h
    split at h
    · cases h
    · obtain ⟨target, t, -, h⟩ := bind_eq_ok.1 h
      cases h
      simp [isMixed]
  | ofMethod u =>
    obtain ⟨-, s, -, h⟩ := bind_eq_ok.1 h
    dsimp only at h
    split at h
    · cases h
    · next hcalls =>
      obtain ⟨target, t, htarget, h⟩ := bind_eq_ok.1 h
      cases h
      cases target with
      | resolved m => simp [isMixed]
      | unresolved left =>
        obtain rfl := settle_unresolved htarget
        have hstatic := isStatic_of_calls (by simpa using hcalls)
        unfold isMixed
        split
        · next heq =>
          cases heq
          simp_all [Opcode.isStaticAccess]
        · rfl

end Instruction

namespace Builder

variable {b b' : Builder} {code : List Instruction} {a a' : Area} {k : Nat} {i : Instruction}

/-! ### How code is made -/

lemma length_emitAll (hrun : b.emitAll code a = .ok b' a') :
    b'.code.length = b.code.length + code.length := by
  induction code generalizing b a with
  | nil =>
    cases hrun
    simp
  | cons i code ih =>
    obtain ⟨b₁, a₁, hfirst, hrest⟩ := bind_eq_ok.1 hrun
    rw [ih hrest, (emit_extends hfirst).2, List.length_cons]
    omega

/-- Making code takes no class to another phase. -/
lemma phases_emitAll (hrun : b.emitAll code a = .ok b' a') : a'.phases = a.phases := by
  have hsteps := (Resolver.makesArrays_emitAll b code a trivial).1
  rw [finalState_of_ok hrun] at hsteps
  have hstable : Stable Area.Quiet fun x => x.phases = a.phases :=
    fun _ _ hquiet hx => hquiet.phases.trans hx
  exact hstable.reflTransGen (Area.ArrayStep.quietly hsteps) rfl

/-- An instruction that is bound later has a patch. -/
lemma exists_patch {patcher : Patcher} {operand : PatchOperand}
    (h : b.binding? k = some (.late patcher operand)) :
    ∃ p ∈ b.patches, p.codeIndex = k ∧ p.patcher = patcher ∧ p.operand = operand := by
  unfold binding? at h
  split at h
  · next p hp =>
    cases h
    have hk := List.find?_some hp
    exact ⟨p, List.mem_of_find?_eq_some hp, by simpa using hk, rfl, rfl⟩
  · obtain ⟨⟨op, slot⟩, -, h⟩ := Option.bind_eq_some_iff.1 h
    obtain ⟨j, -, h⟩ := Option.bind_eq_some_iff.1 h
    obtain ⟨w, -, h⟩ := Option.map_eq_some_iff.1 h
    cases h

/-- An instruction that is bound at once has none. -/
lemma codeIndex_ne_of_early {w : Word} (h : b.binding? k = some (.early w)) {p : PendingPatch}
    (hp : p ∈ b.patches) : p.codeIndex ≠ k := by
  unfold binding? at h
  split at h
  · cases h
  · next hnone =>
    intro hk
    exact List.find?_eq_none.1 hnone p hp (decide_eq_true hk)

/-- The word of such an instruction is its data word. -/
lemma slot_of_early {w : Word} (h : b.binding? k = some (.early w)) :
    ∃ op n, b.code[k]? = some (op, some n) ∧ b.data[n]? = some w := by
  unfold binding? at h
  split at h
  · cases h
  · obtain ⟨⟨op, slot⟩, hcode, h⟩ := Option.bind_eq_some_iff.1 h
    obtain ⟨n, rfl, h⟩ := Option.bind_eq_some_iff.1 h
    obtain ⟨w, hw, h⟩ := Option.map_eq_some_iff.1 h
    cases h
    exact ⟨op, n, hcode, hw⟩

/-- The ways in which an instruction is bound that depends on a class. -/
inductive ClassBinding (a : Area) (i : Instruction) : Binding → Prop
  /-- The target is known and the class initialized. -/
  | early {d : Class} {w : Word} (target : i.operand.class? = some d)
      (phase : a.phase d = .initialized) : ClassBinding a i (.early w)
  /-- The target is known, and the class has to be initialized. -/
  | initializer {d : Class} {w : Word} (target : i.operand.class? = some d) :
      ClassBinding a i (.late .initializer (.whenInitialized d w))
  /-- The target has to be found. -/
  | late {u : Use} {patcher : Patcher} (operand : i.operand = u.leftOpen)
      (patcher_eq : Patcher.ofOpcode? i.opcode = some patcher) :
      ClassBinding a i (.late patcher (.use u))

lemma Binding.IsFor.classBinding {x : Binding} {d : Class} {w : Word} {phase : Phase}
    (h : x.IsFor i.opcode d w phase) (hop : i.opcode.initializesClass = true)
    (htarget : i.operand.class? = some d)
    (hphase : phase = .initialized → a.phase d = .initialized) : ClassBinding a i x := by
  rcases h with ⟨-, rfl⟩ | ⟨hinit, rfl⟩
  · exact .initializer htarget
  · exact .early htarget (hphase (hinit hop))

/-- One more instruction that depends on a class. -/
lemma Formed.classBinding (h : b.Formed) (hrun : b.emit i a = .ok b' a')
    (hop : i.opcode.initializesClass = true) (hnone : i.operand ≠ .none) :
    ∃ x, b'.binding? b.code.length = some x ∧ ClassBinding a' i x := by
  obtain ⟨op, operand, n⟩ := i
  have hleftOpen : ∀ u : Use, operand = u.leftOpen →
      ∃ x, b'.binding? b.code.length = some x ∧ ClassBinding a' ⟨op, operand, n⟩ x := by
    rintro u rfl
    obtain ⟨patcher, hpatcher, hx⟩ := h.binding?_leftOpen hrun
    exact ⟨_, hx, .late rfl hpatcher⟩
  have hknown : operand ≠ .none → operand.isResolved = true →
      ∃ x, b'.binding? b.code.length = some x ∧ ClassBinding a' ⟨op, operand, n⟩ x := by
    intro hnone hresolved
    obtain ⟨d, w, hword, rfl⟩ := emit_resolved hrun hnone hresolved
    obtain ⟨x, hx, hfor⟩ := h.exists_isFor op d (a'.phase d) w
    exact ⟨x, hx, hfor.classBinding hop hword.class?_eq fun hphase => hphase⟩
  match operand with
  | .none => exact absurd rfl hnone
  | .toClass (.unresolved u) => exact hleftOpen (.ofClass u) rfl
  | .toField (.unresolved u) => exact hleftOpen (.ofField u) rfl
  | .toMethod (.unresolved u) => exact hleftOpen (.ofMethod u) rfl
  | .toClass (.resolved c) => exact hknown hnone rfl
  | .toField (.resolved f) => exact hknown hnone rfl
  | .toMethod (.resolved m) => exact hknown hnone rfl

/-- How an instruction that depends on a class is bound in its code. A class that is initialized
while the code is made was so when that began. -/
lemma emitAll_classBinding (hrun : ({} : Builder).emitAll code a = .ok b a')
    (hi : code[k]? = some i) (hop : i.opcode.initializesClass = true) (hnone : i.operand ≠ .none) :
    ∃ x, b.binding? k = some x ∧ ClassBinding a i x := by
  obtain ⟨b₁, b₂, a₁, a₂, hb₁, hlength, hemit, -, hafter, hbinding⟩ :=
    emitAll_at formed_empty hrun hi
  obtain rfl : b₁.code.length = k := by simpa using hlength
  obtain ⟨x, hx, hclass⟩ := hb₁.classBinding hemit hop hnone
  refine ⟨x, hbinding x hx, ?_⟩
  cases hclass with
  | @early d w target phase =>
    have hlast : a'.phase d = .initialized :=
      (Area.initialized_stable d).reflTransGen hafter phase
    refine .early target ?_
    unfold Area.phase at hlast ⊢
    rwa [phases_emitAll hrun] at hlast
  | initializer target => exact .initializer target
  | late operand patcher => exact .late operand patcher

end Builder

/-! ### Where code lies -/

namespace Machine

variable {m m' : Machine} {c : CompiledMethod} {code : List Instruction} {k : Nat} {i : Instruction}

/-- A method that is compiled is put behind the words in use and registered, and when compiling
fails nothing has changed but the resolver. -/
lemma compile_cases (hfit : m.memory.used ≤ m.memory.capacity) (label : String)
    (method : MethodHandle) (code : List Instruction) :
    (∃ f r, compile label method code m = .error f { m with resolver := r }) ∨
    ∃ b r c m', ({} : Builder).emitAll code m.area = .ok b r.area ∧
      compile label method code m = .ok c m' ∧ Puts { m with resolver := r } b c m' ∧
      m'.resolver = r ∧ m'.registered = m.registered ++ [m.methods.length] := by
  have hresolver : ∃ r, finalState (onArea (({} : Builder).emitAll code)) m =
      { m with resolver := r } := ⟨_, finalState_onResolver _ m⟩
  obtain ⟨r, hr⟩ := hresolver
  cases hemit : onArea (({} : Builder).emitAll code) m with
  | error f m₁ =>
    rw [finalState_of_error hemit] at hr
    subst hr
    exact .inl ⟨f, r, bind_of_error hemit⟩
  | ok b m₁ =>
    rw [finalState_of_ok hemit] at hr
    subst hr
    have ha : ({} : Builder).emitAll code m.area = .ok b r.area := Watch.area_of_onArea hemit
    have hfit : ({ m with resolver := r } : Machine).memory.used ≤ m.memory.capacity := hfit
    rcases install_registers hfit (Builder.formed_empty.emitAll ha) label method with
      ⟨f, hfull⟩ | ⟨c, m', hok, hputs, hresolver, hregistered⟩
    · exact .inl ⟨f, r, (bind_of_ok hemit).trans hfull⟩
    · exact .inr ⟨b, r, c, m', ha, (bind_of_ok hemit).trans hok, hputs, hresolver, hregistered⟩

lemma compile_puts (hm : m.Laid) {label : String} {method : MethodHandle}
    (hrun : compile label method code m = .ok c m') :
    ∃ b m₁, ({} : Builder).emitAll code m.area = .ok b m'.area ∧ m₁.Laid ∧ Puts m₁ b c m' := by
  rcases compile_cases hm.used label method code with
    ⟨f, r, hfail⟩ | ⟨b, r, c', m'', hemit, hok, hputs, hresolver, -⟩
  · rw [hfail] at hrun
    cases hrun
  · rw [hok] at hrun
    cases hrun
    have hm₁ : Installed m { m with resolver := r } := hm.installed rfl rfl
    subst hresolver
    exact ⟨b, _, hemit, hm₁.laid, hputs⟩

lemma compile_eq_error (hm : m.Laid) {label : String} {method : MethodHandle} {f : Fault}
    (hrun : compile label method code m = .error f m') :
    ∃ resolver, m' = { m with resolver := resolver } := by
  rcases compile_cases hm.used label method code with ⟨f, r, hfail⟩ | ⟨b, r, c, m'', -, hok, -⟩
  · rw [hfail] at hrun
    cases hrun
    exact ⟨r, rfl⟩
  · rw [hok] at hrun
    cases hrun

section

variable {b : Builder} {w : Word} {patcher : Patcher} {operand : PatchOperand}

/-- An instruction that is bound at once has no site. -/
lemma Puts.position_ne (hput : Puts m b c m') (h : m.Laid) (hk : k < b.code.length)
    (hx : b.binding? k = some (.early w)) {s : PatchSite} (hs : s ∈ c.sites) :
    s.position ≠ c.codePosition k := by
  obtain ⟨p, hp, rfl⟩ := List.mem_map.1 (hput.sites.mem_iff.1 hs)
  rw [hput.codePosition_eq h hk, Builder.siteOf_position]
  intro heq
  refine Builder.codeIndex_ne_of_early hx hp ?_
  have := wordAddress_injective heq
  omega

/-- An instruction that is bound later has a site with its patcher. -/
lemma Puts.exists_site (hput : Puts m b c m') (h : m.Laid)
    (hx : b.binding? k = some (.late patcher operand)) :
    ∃ s ∈ c.sites, s.position = c.codePosition k ∧ s.patcher = patcher ∧ s.operand = operand := by
  obtain ⟨p, hp, rfl, rfl, rfl⟩ := Builder.exists_patch hx
  refine ⟨_, hput.sites.mem_iff.2 (List.mem_map_of_mem hp), ?_, rfl, rfl⟩
  rw [hput.codePosition_eq h (hput.formed.codeIndex_lt hp), Builder.siteOf_position]

end

/-- How an instruction that depends on a class is bound in a compiled method: it is bound at once
and has no site, or it has a site with its patcher. -/
lemma classBinding_of_compile (hm : m.Laid) {label : String} {method : MethodHandle}
    (hrun : compile label method code m = .ok c.fresh m') (hi : code[k]? = some i)
    (hop : i.opcode.initializesClass = true) (hnone : i.operand ≠ .none) :
    (∃ d, i.operand.class? = some d ∧ m.area.phase d = .initialized ∧
      ∀ s ∈ c.sites, s.position ≠ c.codePosition k) ∨
    ∃ s ∈ c.sites, s.position = c.codePosition k ∧
      Builder.ClassBinding m.area i (.late s.patcher s.operand) := by
  obtain ⟨b, m₁, hemit, hm₁, hputs⟩ := compile_puts hm hrun
  obtain ⟨x, hx, hclass⟩ := Builder.emitAll_classBinding hemit hi hop hnone
  cases x with
  | early w =>
    left
    cases hclass with
    | @early d w target phase =>
      have hlength : b.code.length = code.length := by simpa using Builder.length_emitAll hemit
      have hk : k < b.code.length := hlength ▸ (List.getElem?_eq_some_iff.1 hi).1
      refine ⟨d, target, phase, fun s hs => ?_⟩
      exact hputs.position_ne hm₁ hk hx (s := { s with state := .unpatched })
        (List.mem_map_of_mem hs)
  | late patcher operand =>
    right
    obtain ⟨s', hs', hposition, rfl, rfl⟩ := hputs.exists_site hm₁ hx
    obtain ⟨s, hs, rfl⟩ := List.mem_map.1 hs'
    exact ⟨s, hs, hposition, hclass⟩

/-- The class that the instruction at a place in a method depends on: that of its target or, if the
target was found later, that of the address in its data word. -/
def dependsOn? (m : Machine) (c : CompiledMethod) (k : Nat) (i : Instruction) : Option Class :=
  i.operand.class?.or <| (c.site? (c.codePosition k)).bind fun s =>
    (m.word? s.dataAddress).bind Word.class?

end Machine

namespace Watch

variable {m : Machine} {t : Watch} {c : CompiledMethod} {code : List Instruction} {k : Nat}
  {i : Instruction}

/-- The moments at which the instruction at a place in a method is bound: the end of the trap that
binds its site or, if it has no site, the call that compiles the method. -/
def BindingMoment (c : CompiledMethod) (code : List Instruction) (k : Nat) (o : Observation) :
    Prop :=
  match c.siteIndex? (c.codePosition k) with
  | some j => Binds o.event ⟨c.number, j⟩
  | none => Compiles o c code

/-- The states in which a machine is seen when a number of calls is made: after all of them, and
before whenever something is noted. -/
inductive Sees (m : Machine) (calls : List Call) : Watch → Prop
  | between : Sees m calls (after ⟨[], m⟩ calls)
  | during {k : Nat} {o : Observation} (ho : (after ⟨[], m⟩ calls).history[k]? = some o) :
      Sees m calls ⟨(after ⟨[], m⟩ calls).history.take (k + 1), o.machine⟩

lemma justified_fresh {words : Nat} (hwords : words ≤ Builder.areaLimit)
    (hmemory : CodeMemory.create words = .ok m.memory) (hmethods : m.methods = [])
    (harea : m.area = Area.initial) : Justified ⟨[], m⟩ := by
  refine ⟨sound_fresh hwords hmemory hmethods, harea ▸ Area.initial_sound, by simp,
    fun id s hs => ?_, by simp [hmethods]⟩
  simp [Machine.site?, hmethods] at hs

/-- In every state in which the machine is seen, bound sites and methods have their reasons. -/
lemma Sees.justified {words : Nat} (hwords : words ≤ 2 ^ 28)
    (hmemory : CodeMemory.create words = .ok m.memory) (hmethods : m.methods = [])
    (harea : m.area = Area.initial) {calls : List Call}
    (hcalls : ∀ call ∈ calls, call.setsPhase = false) (ht : Sees m calls t) :
    Justified t ∧ ∀ o ∈ t.history, o.machine.Laid := by
  have hstart : Justified ⟨[], m⟩ := justified_fresh hwords hmemory hmethods harea
  have hstable := before_stable (fun _ _ hmove => hmove.step) justified_stable
  obtain ⟨hend, hbefore⟩ := hstable.reflTransGen
    (moves_after hcalls ⟨hstart.sound, hstart.area⟩) ⟨hstart, by simp⟩
  have hlaid : ∀ o ∈ (after ⟨[], m⟩ calls).history, o.machine.Laid := by
    intro o ho
    obtain ⟨k, hk⟩ := List.getElem?_of_mem ho
    exact (hbefore k o hk).sound.laid
  cases ht with
  | between => exact ⟨hend, hlaid⟩
  | during ho => exact ⟨hbefore _ _ ho, fun o ho => hlaid o (List.mem_of_mem_take ho)⟩

/-! ### Sites of instructions -/

lemma siteIndex?_eq_none {address : Address} (h : ∀ s ∈ c.sites, s.position ≠ address) :
    c.siteIndex? address = none := by
  unfold CompiledMethod.siteIndex?
  rw [Option.map_eq_none_iff, List.getLast?_eq_none_iff, List.filter_eq_nil_iff]
  rintro ⟨s, j⟩ hmem
  simpa using h s (List.mem_of_getElem? (List.mk_mem_zipIdx_iff_getElem?.1 hmem))

lemma siteIndex?_of_position (ht : Sound t) (hc : t.machine.methods[c.number]? = some c) {j : Nat}
    {s : PatchSite} (hs : c.sites[j]? = some s) : c.siteIndex? s.position = some j := by
  have hsite : ∀ j, t.machine.site? ⟨c.number, j⟩ = c.sites[j]? := by
    intro j
    simp [Machine.site?, hc]
  refine Machine.siteIndex?_of_unique hs fun j' s' hs' hposition => ?_
  exact congrArg SiteId.index (ht.laid.ownCode ⟨c.number, j'⟩ ⟨c.number, j⟩ s' s
    ((hsite j').trans hs') ((hsite j).trans hs) hposition)

/-- An instruction with a site traps, or its site was bound with a word of its patcher. -/
lemma Justified.site_cases (ht : Justified t) (code : List Instruction)
    (hc : t.machine.methods[c.number]? = some c) {s : PatchSite} (hs : s ∈ c.sites)
    (hposition : s.position = c.codePosition k) :
    t.machine.word? (c.codePosition k) = some (.bits trapWord) ∨
    ∃ w, (c.site? (c.codePosition k)).bind (fun s => t.machine.word? s.dataAddress) = some w ∧
      ∃ o ∈ t.history, BindingMoment c code k o ∧
        Prepared t.history o.machine s.patcher s.operand w := by
  obtain ⟨j, hj⟩ := List.getElem?_of_mem hs
  have hsite : t.machine.site? ⟨c.number, j⟩ = some s := by simp [Machine.site?, hc, hj]
  have hindex : c.siteIndex? (c.codePosition k) = some j :=
    hposition ▸ siteIndex?_of_position ht.sound hc hj
  by_cases hstate : s.state = .patched
  · right
    obtain ⟨w, hw, o, ho, hbinds, hprepared⟩ := ht.bound _ s hsite hstate
    refine ⟨w, by simp [CompiledMethod.site?, hindex, hj, hw], o, ho, ?_, hprepared⟩
    unfold BindingMoment
    rw [hindex]
    exact hbinds
  · left
    rw [← hposition]
    exact ((ht.sound.now _ s hsite).waiting hstate).1

/-- A patcher that is given another kind of use fails. -/
lemma patchPlan_ne_ok {patcher : Patcher} {operand : PatchOperand} {m₀ m₁ : Machine}
    {v : Option Class × Except Fault Word}
    (hplan : patchPlan patcher operand = do
      let w ← (throw (.wrongPatcher patcher.name) : MachineM Word)
      return (none, .ok w)) : patchPlan patcher operand m₀ ≠ .ok v m₁ := by
  rw [hplan]
  intro h
  cases h

/-- The patcher for an opcode that depends on a class initializes the class that its word leads
into. -/
lemma exists_class_of_plan {op : Opcode} {u : Use} {n : Int} {patcher : Patcher} {m₀ m₁ : Machine}
    {target : Option Class} {w : Word} (hop : op.initializesClass = true)
    (hpatcher : Patcher.ofOpcode? op = some patcher)
    (hmixed : Instruction.isMixed ⟨op, u.leftOpen, n⟩ = false)
    (hplan : patchPlan patcher (.use u) m₀ = .ok (target, .ok w) m₁) :
    ∃ d, target = some d ∧ w.class? = some d := by
  have hfield : patcher = .staticField → ∃ d, target = some d ∧ w.class? = some d := by
    rintro rfl
    cases u with
    | ofField u =>
      obtain ⟨f, m₂, -, hplan⟩ := bind_eq_ok.1 hplan
      obtain ⟨⟨rfl, hword⟩, -⟩ : (some f.owner = target ∧ staticFieldWord f = .ok w) ∧ m₂ = m₁ := by
        simpa using hplan
      unfold staticFieldWord at hword
      split at hword <;> cases hword
      exact ⟨f.owner, rfl, rfl⟩
    | ofClass u => exact absurd hplan (patchPlan_ne_ok rfl)
    | ofMethod u => exact absurd hplan (patchPlan_ne_ok rfl)
  cases op with
  | getstatic => exact hfield (Option.some.inj hpatcher).symm
  | putstatic => exact hfield (Option.some.inj hpatcher).symm
  | invokestatic =>
    cases hpatcher
    cases u with
    | ofMethod u =>
      have hstatic : u.isStatic = true := by simpa [Instruction.isMixed, Use.leftOpen] using hmixed
      obtain ⟨x, m₂, -, hplan⟩ := bind_eq_ok.1 hplan
      rw [if_pos hstatic] at hplan
      cases hplan
      exact ⟨x.owner, rfl, rfl⟩
    | ofClass u => exact absurd hplan (patchPlan_ne_ok rfl)
    | ofField u => exact absurd hplan (patchPlan_ne_ok rfl)
  | new =>
    cases hpatcher
    cases u with
    | ofClass u =>
      obtain ⟨d, m₂, -, hplan⟩ := bind_eq_ok.1 hplan
      split at hplan <;> cases hplan
      exact ⟨d, rfl, rfl⟩
    | ofField u => exact absurd hplan (patchPlan_ne_ok rfl)
    | ofMethod u => exact absurd hplan (patchPlan_ne_ok rfl)
  | _ => cases hop

/-- The class that an instruction depends on was usable when its site was bound. -/
lemma exists_class_of_prepared {a : Area} {s : PatchSite} {w : Word} {m₀ : Machine}
    {h : List Observation}
    (hop : i.opcode.initializesClass = true) (hmixed : i.isMixed = false)
    (hclass : Builder.ClassBinding a i (.late s.patcher s.operand))
    (hprepared : Prepared h m₀ s.patcher s.operand w) :
    ∃ d, i.operand.class?.or w.class? = some d ∧ m₀.Usable d := by
  obtain ⟨o, -, target, m₂, hplan, -, husable⟩ := hprepared
  generalize s.patcher = patcher, s.operand = operand at *
  cases hclass with
  | @initializer d w' htarget =>
    cases hplan
    exact ⟨d, by simp [htarget], husable d rfl⟩
  | @late u patcher hoperand hpatcher =>
    obtain ⟨op, x, n⟩ := i
    obtain rfl : x = u.leftOpen := hoperand
    obtain ⟨d, rfl, hd⟩ := exists_class_of_plan hop hpatcher hmixed hplan
    exact ⟨d, by simp [Operand.class?_leftOpen, hd], husable d rfl⟩

/-- No code runs against a class that was not initialized: in every state, each instruction of an
installed method that depends on a class traps, or the class has left its first phase and was
usable at the moment at which the instruction was bound. -/
theorem bound_instruction_has_usable_class {words : Nat} (hwords : words ≤ 2 ^ 28)
    (hmemory : CodeMemory.create words = .ok m.memory) (hmethods : m.methods = [])
    (harea : m.area = Area.initial) {calls : List Call}
    (hcalls : ∀ call ∈ calls, call.setsPhase = false) (ht : Sees m calls t) {n : Nat}
    (hc : t.machine.methods[n]? = some c) :
    (after ⟨[], m⟩ calls).machine = m.after calls ∧
    ∃ o₀ ∈ t.history, ∃ code, Compiles o₀ c code ∧ ∀ k i, code[k]? = some i →
      i.opcode.initializesClass = true → i.operand ≠ .none → i.isMixed = false →
      t.machine.word? (c.codePosition k) = some (.bits trapWord) ∨
      ∃ d, t.machine.dependsOn? c k i = some d ∧ t.machine.area.phase d ≠ .linked ∧
        ∃ o ∈ t.history, BindingMoment c code k o ∧ o.machine.Usable d := by
  obtain ⟨hjustified, hlaid⟩ := ht.justified hwords hmemory hmethods harea hcalls
  obtain rfl : c.number = n := hjustified.sound.laid.numbered n c hc
  obtain ⟨o₀, ho₀, code, hcompiles⟩ := hjustified.compiled c (List.mem_of_getElem? hc)
  refine ⟨machine_after calls _, o₀, ho₀, code, hcompiles, fun k i hi hop hnone hmixed => ?_⟩
  have hleft : ∀ {d o}, o ∈ t.history → o.machine.Usable d → t.machine.area.phase d ≠ .linked :=
    fun ho husable => hjustified.left _ ho _ husable.ne_linked
  obtain ⟨label, method, m', -, hrun⟩ := id hcompiles
  rcases Machine.classBinding_of_compile (hlaid o₀ ho₀) hrun hi hop hnone with
    ⟨d, htarget, hphase, hnosite⟩ | ⟨s, hs, hposition, hclass⟩
  · -- The instruction was bound when its code was made.
    have hindex : c.siteIndex? (c.codePosition k) = none := siteIndex?_eq_none hnosite
    have hmoment : BindingMoment c code k o₀ := by
      unfold BindingMoment
      rw [hindex]
      exact hcompiles
    exact .inr ⟨d, by simp [Machine.dependsOn?, htarget], hleft ho₀ (.inl hphase), o₀, ho₀,
      hmoment, .inl hphase⟩
  · rcases hjustified.site_cases code hc hs hposition with
      htrap | ⟨w, hw, o, ho, hmoment, hprepared⟩
    · exact .inl htrap
    · obtain ⟨d, hd, husable⟩ := exists_class_of_prepared hop hmixed hclass hprepared
      refine .inr ⟨d, ?_, hleft ho husable, o, ho, hmoment, husable⟩
      rw [Machine.dependsOn?, ← Option.bind_assoc, hw]
      exact hd

/-! ### A class that is used by its own initializer, and a mixed call -/

/-- Whether calls leave it to initialization to change phases, and afterwards the first instruction
of the first method does not trap and is accepted by a test, as it was compiled. -/
def runsWhere (accept : Machine → CompiledMethod → Instruction → Bool) (calls : List Call) :
    Bool :=
  let t := after ⟨[], smallMachine⟩ calls
  calls.all (fun call => !call.setsPhase) &&
    t.machine.methods[0]?.any fun c =>
      ((t.machine.word? (c.codePosition 0)).any fun w => !w.isTrap) &&
        t.history.all fun o =>
          match o.event with
          | .called (.request (.compile _ _ code)) => code[0]?.any (accept t.machine c)
          | _ => true

lemma exists_of_runsWhere {accept : Machine → CompiledMethod → Instruction → Bool}
    {calls : List Call} (htest : runsWhere accept calls = true) :
    (∀ call ∈ calls, call.setsPhase = false) ∧
      ∃ c w, (after ⟨[], smallMachine⟩ calls).machine.methods[0]? = some c ∧
        (after ⟨[], smallMachine⟩ calls).machine.word? (c.codePosition 0) = some w ∧
        w.isTrap = false ∧
        ∀ o ∈ (after ⟨[], smallMachine⟩ calls).history, ∀ code, Compiles o c code →
          ∃ i, code[0]? = some i ∧
            accept (after ⟨[], smallMachine⟩ calls).machine c i = true := by
  simp only [runsWhere, Bool.and_eq_true, Option.any_eq_true, List.all_eq_true,
    Bool.not_eq_true'] at htest
  obtain ⟨hphases, c, hc, ⟨w, hw, htrap⟩, hcode⟩ := htest
  refine ⟨hphases, c, w, hc, hw, htrap, fun o ho code hcompiles => ?_⟩
  obtain ⟨label, method, m', hevent, -⟩ := hcompiles
  have haccept := hcode o ho
  rw [hevent] at haccept
  exact (Option.any_eq_true _ _).1 haccept

/-- An instruction that makes objects is bound by the initializer of the class that it depends
on. -/
theorem object_made_by_initializer :
    ∃ calls t c code i d, makesObject? (smallMachine.after (selfUsing 8)) 8 = some calls ∧
      t = after ⟨[], smallMachine⟩ (selfUsing 8 ++ calls) ∧ t.machine.methods[0]? = some c ∧
      code[0]? = some i ∧ i.opcode = .new ∧ t.machine.dependsOn? c 0 i = some d ∧
      t.machine.area.phase d ≠ .linked ∧
      ∃ o ∈ t.history, BindingMoment c code 0 o ∧ o.machine.Usable d := by
  have htest : ((makesObject? (smallMachine.after (selfUsing 8)) 8).any fun calls =>
      runsWhere (fun _ _ i => i.opcode = .new && i.operand.kind = .classRef)
        (selfUsing 8 ++ calls)) = true := by
    decide +kernel
  obtain ⟨calls, hcalls, htest⟩ := (Option.any_eq_true _ _).1 htest
  obtain ⟨hphases, c, w, hc, hw, htrap, hcode⟩ := exists_of_runsWhere htest
  obtain ⟨-, o₀, ho₀, code, hcompiles, hbound⟩ := bound_instruction_has_usable_class
    (show 4 ≤ 2 ^ 28 by decide) rfl rfl rfl hphases .between hc
  obtain ⟨i, hi, haccept⟩ := hcode o₀ ho₀ code hcompiles
  simp only [Bool.and_eq_true, decide_eq_true_eq] at haccept
  obtain ⟨hop, hkind⟩ := haccept
  have hnone : i.operand ≠ .none := by
    intro hnone
    rw [hnone] at hkind
    cases hkind
  have hmixed : i.isMixed = false := by simp [Instruction.isMixed, hop]
  rcases hbound 0 i hi (by rw [hop]; rfl) hnone hmixed with
    hword | ⟨d, hd, hphase, hmoment⟩
  · rw [hw] at hword
    cases hword
    cases htrap
  · exact ⟨calls, _, c, code, i, d, hcalls, rfl, hc, hi, hop, hd, hphase, hmoment⟩

/-- A method that calls a method without an object although it uses it with one, and a run of the
call. -/
def callsMixed? (m : Machine) : Option (List Call) :=
  (m.area.published? .bootstrap "p/A").bind fun c => (c.methodAt? 0).map fun method =>
    [.request (.compile "m" method [⟨.invokestatic, .toMethod (.unresolved
        ⟨method, ⟨⟨c, "p/A"⟩, "m", ⟨[], .void⟩, false⟩, false, false, [], none⟩), 0⟩]),
      .request (.execute 8)]

/-- Such a call is bound and runs before the class of its method is initialized. -/
theorem mixed_call_before_initialization :
    ∃ calls t c code i w d, (∀ call ∈ calls, call.setsPhase = false) ∧
      Sees smallMachine calls t ∧ t.machine.methods[0]? = some c ∧
      (∃ o ∈ t.history, Compiles o c code) ∧ code[0]? = some i ∧ i.opcode = .invokestatic ∧
      t.machine.word? (c.codePosition 0) = some w ∧ w.isTrap = false ∧
      t.machine.dependsOn? c 0 i = some d ∧ t.machine.area.phase d = .linked := by
  have htest : ((callsMixed? (smallMachine.after (initializedBy .done))).any fun calls =>
      runsWhere (fun m c i => i.opcode = .invokestatic &&
          (m.dependsOn? c 0 i).any fun d => m.area.phase d = .linked)
        (initializedBy .done ++ calls)) = true := by
    decide +kernel
  obtain ⟨calls, -, htest⟩ := (Option.any_eq_true _ _).1 htest
  obtain ⟨hphases, c, w, hc, hw, htrap, hcode⟩ := exists_of_runsWhere htest
  have hsees : Sees smallMachine (initializedBy .done ++ calls) _ := .between
  obtain ⟨hjustified, -⟩ := hsees.justified (show 4 ≤ 2 ^ 28 by decide) rfl rfl rfl hphases
  obtain ⟨o, ho, code, hcompiles⟩ := hjustified.compiled c (List.mem_of_getElem? hc)
  obtain ⟨i, hi, haccept⟩ := hcode o ho code hcompiles
  simp only [Bool.and_eq_true, decide_eq_true_eq, Option.any_eq_true] at haccept
  obtain ⟨hop, d, hd, hphase⟩ := haccept
  exact ⟨_, _, c, code, i, w, d, hphases, hsees, hc, ⟨o, ho, hcompiles⟩, hi, hop, hw, htrap, hd,
    hphase⟩

end Watch

end Linkage
