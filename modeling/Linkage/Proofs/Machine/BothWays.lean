import Linkage.Proofs.Machine.FirstRuns

/-!
# Early and late binding

An instruction whose reference is resolved when its code is made and one that leaves the same
reference to its patcher come to the same when they first run, whatever happens in between: they run
with the same word, and they fail as the initialization of the same class does. There is one
exception. The way over the patcher refuses to make objects of interfaces and abstract classes, and
an instruction that was bound early makes them.

An initializer can ask whether the patcher of a site is at work, and each of the two instructions
has a site of its own. Where no initializer acts on what it is told, both fail alike.
-/

namespace Linkage

open Relation
open Resolver (Evolves)

namespace Machine

variable {m : Machine} {c : Class}

/-! ### Initializing a class -/

/-- A class that is initialized already is left alone. -/
lemma initializeBy_of_initialized (run : Class → MachineM Unit)
    (h : m.area.phase c = .initialized) : initializeBy run c m = .ok () m := by
  have henter : ∀ (c : Class) body, m.area.phase c = .initialized →
      enterClass c body m = .ok () m := by
    intro c body h
    unfold enterClass
    rw [bind_of_ok (get_apply m)]
    simp only [h]
    rfl
  cases c with
  | root d => exact henter _ _ h
  | derived d s is => exact henter _ _ h
  | primitiveArray => rfl
  | array => rfl

lemma initializeWithin_of_initialized (n : Nat) (h : m.area.phase c = .initialized) :
    initializeWithin n c m = .ok () m := by
  cases n with
  | zero => exact initializeBy_of_initialized _ h
  | succ n => exact initializeBy_of_initialized _ h

/-- Whatever fault an operation ends in, it is not that an object could not be made. -/
def Spares {α : Type} (x : MachineM α) : Prop :=
  ∀ m f m', x m = .error f m' → f.kind ≠ .instantiation

lemma spares_enterClass (c : Class) {body : MachineM Unit} (hbody : Spares body) :
    Spares (enterClass c body) := by
  intro m f m' h
  unfold enterClass at h
  rw [bind_of_ok (get_apply m)] at h
  cases hphase : m.area.phase c with
  | initialized => simp [hphase] at h
  | initializing => simp [hphase] at h
  | erroneous =>
    simp only [hphase, throw_apply] at h
    cases h
    simp [Fault.kind]
  | linked =>
    simp only [hphase] at h
    rw [bind_of_ok (setPhase_apply c .initializing m)] at h
    cases hrun : body (m.withPhase c .initializing) with
    | ok v m₁ =>
      have hattempt : attempt body (m.withPhase c .initializing) = .ok (.ok v) m₁ := by
        simp [attempt, hrun]
      rw [bind_of_ok hattempt] at h
      cases h
    | error e m₁ =>
      have hattempt : attempt body (m.withPhase c .initializing) = .ok (.error e) m₁ := by
        simp [attempt, hrun]
      rw [bind_of_ok hattempt] at h
      cases h
      exact hbody _ _ _ hrun

lemma spares_initializeBy {run : Class → MachineM Unit} (hrun : ∀ c, Spares (run c)) :
    ∀ c, Spares (initializeBy run c)
  | .root d => spares_enterClass _ (hrun _)
  | .derived d s is => by
    refine spares_enterClass _ ?_
    split
    · intro m f m' h
      rcases bind_eq_error.1 h with h | ⟨_, _, _, h⟩
      · exact spares_initializeBy hrun s m f m' h
      · exact hrun _ _ f m' h
    · exact hrun _
  | .primitiveArray .. => fun _ _ _ h => by cases h
  | .array .. => fun _ _ _ h => by cases h

/-- The fault that an initializer shows is one of initializers. -/
lemma spares_runInitializer (serve : (r : Request) → MachineM (Reply r)) (c : Class) :
    Spares (runInitializer serve c) := by
  intro m f m' h
  unfold runInitializer at h
  rw [bind_of_ok (get_apply m)] at h
  cases hprogram : m.programOf? c with
  | none => simp [hprogram] at h
  | some p =>
    simp only [hprogram] at h
    obtain ⟨outcome, m₁, -, h⟩ | h := (bind_eq_error.1 h).symm
    · cases outcome with
      | ok v => cases h
      | error e =>
        cases h
        unfold initializerFault
        split
        · next hkind =>
          intro heq
          simp [heq] at hkind
        · simp [Fault.kind]
    · unfold attempt at h
      split at h <;> cases h

lemma spares_initializeWithin (n : Nat) (c : Class) : Spares (initializeWithin n c) := by
  cases n with
  | zero =>
    refine spares_initializeBy (fun d m f m' h => ?_) c
    rw [bind_of_ok (get_apply m)] at h
    split at h
    · cases h
      simp [Fault.kind]
    · cases h
  | succ n => exact spares_initializeBy (fun d => spares_runInitializer _ d) c

end Machine

namespace Watch

open Machine (Standing RunsAs)

variable {t : Watch} {m : Machine} {init : Class → WatchM Unit} {init' : Class → MachineM Unit}
  {c : CompiledMethod} {code : List Instruction} {k : Nat} {i : Instruction} {o : Observation}
  {op : Opcode} {u : Use} {d : Class} {w : Word} {x : Operand} {r₀ r₁ : Resolver}

lemma Initializes.of_initialized (h : Initializes init init')
    (hd : t.machine.area.phase d = .initialized) : init' d t.machine = .ok () t.machine := by
  cases h with
  | outside => exact Machine.initializeWithin_of_initialized _ hd
  | inside n => exact Machine.initializeWithin_of_initialized n hd

lemma Initializes.spares (h : Initializes init init') (c : Class) : Machine.Spares (init' c) := by
  cases h with
  | outside => exact fun m => Machine.spares_initializeWithin m.nestingBound c m
  | inside n => exact Machine.spares_initializeWithin n c

section

variable {words : Nat} (hwords : words ≤ 2 ^ 28) (hmemory : CodeMemory.create words = .ok m.memory)
  (hmethods : m.methods = []) (hregistered : m.registered = []) (harea : m.area = Area.initial)
  {calls : List Call} (hcalls : ∀ call ∈ calls, call.setsPhase = false) (ht : Sees m calls t)
  (hinit : Initializes init init') (hplace : InPlace t o c code)

include hwords hmemory hmethods hregistered harea hcalls ht hinit hplace

/-- An instruction whose target was known runs with the word of its target. -/
lemma runsAs_of_resolved (hi : code[k]? = some i) (hop : i.opcode ≠ .trap)
    (hnone : i.operand ≠ .none) (hresolved : i.operand.isResolved = true) (hunbound : c.Unbound k) :
    ∃ d w, i.operand.HasWord t.machine.area i.opcode d w ∧
      t.machine.RunsAs init' (c.codePosition k) i.opcode d w := by
  have hm : m.area.Sound := harea ▸ Area.initial_sound
  have hpaced := ht.paced hcalls hm
  obtain ⟨hjustified, -⟩ := ht.justified hwords hmemory hmethods harea hcalls
  obtain ⟨m₀, b, hstanding, hlater, hemit, hseated⟩ :=
    hplace.seated hwords hmemory hmethods hregistered ht.visits hpaced
  obtain ⟨hfind, hholds⟩ := hseated k (List.getElem?_eq_some_iff.1 hi).1
  obtain ⟨n, ho, -⟩ := hplace.called
  have ho : o.machine.area.Sound := (hpaced.first o (List.mem_of_getElem? ho)).sound hm
  have hm₀ : m₀.area.Sound :=
    Area.sound_stable.reflTransGen (Builder.emitAll_extends hemit).2 ho
  obtain ⟨x, d, w, hx, hword, hfor⟩ := Builder.emitAll_resolved ho hemit hi hnone hresolved
  refine ⟨d, w, hword.later hm₀ hlater.area, ?_⟩
  rcases hfor.later hlater.area with ⟨hneeds, rfl⟩ | ⟨hphase, rfl⟩
  · obtain ⟨j, s, hs, hposition, hpatcher, hoperand⟩ := (hholds _ hx).exists_site
    have hstate := hunbound s (List.mem_of_getElem? hs) hposition
    have hsite := hstanding.site?_eq hs
    refine runsAs_of_plan hjustified hpaced hinit hstanding hfind hi hs hposition hstate
      (n := t.machine.withState ⟨c.number, j⟩ .patching) ?_
      (fun _ => Machine.like_patching hsite hstate (.refl _)) ?_
    · rw [hpatcher, hoperand, Opcode.needs?_of_initializes hneeds]
      rfl
    · intro n₁ target v n₂ q hplan _ _ _
      rw [hpatcher, hoperand] at hplan
      cases hplan
      rfl
  · have hrun : Machine.executeWith init' (c.codePosition k) t.machine =
        .ok (some ⟨i.opcode, some w⟩) t.machine :=
      hstanding.executeWith_of_early hfind hi hop (hholds _ hx)
    refine ⟨t.machine, .refl _, ?_⟩
    rw [hrun, Machine.runWord_of_initialized fun hneeds => hinit.of_initialized (hphase hneeds)]

/-- An instruction that leaves its use to the patcher runs with the word of the target that the use
led to before, unless it is to make an object of a class that has none. -/
lemma first_of_leftOpen {n : Int} (hi : code[k]? = some ⟨op, u.leftOpen, n⟩)
    (hunbound : c.Unbound k) (hr₀ : r₀.area.Steady) (hsuits : u.Suits op)
    (hleads : u.Leads op .lazy r₀ x r₁) (hr₁ : Evolves r₁ t.machine.resolver)
    (hword : x.HasWord t.machine.area op d w) :
    (Instantiable op d → t.machine.RunsAs init' (c.codePosition k) op d w) ∧
    (¬ Instantiable op d → answer (Machine.executeWith init' (c.codePosition k) t.machine) =
      .error (.notInstantiable d.name)) := by
  have hpaced := ht.paced hcalls (harea ▸ Area.initial_sound)
  obtain ⟨hjustified, -⟩ := ht.justified hwords hmemory hmethods harea hcalls
  obtain ⟨m₀, b, hstanding, -, hemit, hseated⟩ :=
    hplace.seated hwords hmemory hmethods hregistered ht.visits hpaced
  obtain ⟨hfind, hholds⟩ := hseated k (List.getElem?_eq_some_iff.1 hi).1
  obtain ⟨patcher, hknown, hbinding⟩ := Builder.emitAll_leftOpen hemit hi
  obtain ⟨j, s, hs, hposition, rfl, hoperand⟩ := (hholds _ hbinding).exists_site
  have hstate := hunbound s (List.mem_of_getElem? hs) hposition
  have hsite := hstanding.site?_eq hs
  -- The patcher finds the same target, for the resolver has only gone forward.
  obtain ⟨q, hagain, halike⟩ := hleads.again hr₀ hsuits hr₁ .eager
  have hsteps := (hagain.evolves hjustified.area).area
  have hword' := hword.later hjustified.area hsteps
  refine ⟨fun hinst => ?_, fun hinst => ?_⟩
  · refine runsAs_of_plan (i := ⟨op, u.leftOpen, n⟩) hjustified hpaced hinit hstanding hfind hi hs
      hposition hstate (n := (t.machine.withState ⟨c.number, j⟩ .patching).withResolver q) ?_
      (fun hop => Machine.like_patching hsite hstate (halike hop)) ?_
    · rw [hoperand]
      exact plan_of_leads hsuits hknown hagain hword' hinst
    · intro n₁ target v n₂ q' hplan hn₁ hn₂ hq'
      rw [hoperand] at hplan
      have hsteady₀ : m.area.Steady := harea ▸ Area.initial_steady
      have hsteady : n₁.area.Steady := hn₁.steady hsteady₀
      exact word_eq_of_plan hr₀ hsuits hleads (hr₁.trans hq')
        (hword.later hjustified.area hq'.area) hknown hsteady hplan hn₂
  · have hfails : Machine.patchWord init' s.patcher s.operand
        (t.machine.withState ⟨c.number, j⟩ .patching) =
        .error (.notInstantiable d.name)
          ((t.machine.withState ⟨c.number, j⟩ .patching).withResolver q) := by
      rw [patchWord_eq, hoperand]
      exact bind_of_error (plan_of_not_instantiable hsuits hknown hagain hword' hinst)
    rcases patchSite_outcome hinit hjustified.sound hsite hstate with
      ⟨f, t', m', hrun, hword⟩ | ⟨outcome, t', v, m', -, hword⟩
    · cases hfails.symm.trans hword
      exact (executeWith_of_site hstanding hjustified.sound hinit hfind hi hs hposition hstate).1
        _ t' hrun
    · cases hfails.symm.trans hword

end

/-! ### Both ways -/

/-- An instruction of a method in place that no trap bound so far. -/
def Untouched (t : Watch) (o : Observation) (i : Instruction) (address : Address) : Prop :=
  ∃ c code k, InPlace t o c code ∧ code[k]? = some i ∧ c.Unbound k ∧ address = c.codePosition k

/-- Two instructions for the same use at two addresses: one was made for the use, and the other
leaves the use to its patcher. -/
structure BothWays (start : Resolver) (t : Watch) (op : Opcode) (u : Use) (i : Instruction)
    (early late : Address) : Prop where
  early : ∃ r₀ r₁ o, Evolves start r₀ ∧ Instruction.ofUse op u r₀ = .ok i r₁ ∧
    Evolves r₁ o.machine.resolver ∧ t.Untouched o i early
  late : ∃ o n, t.Untouched o ⟨op, u.leftOpen, n⟩ late

/-- The same answer, or faults of the same kind. -/
def SameOutcome {α σ : Type} (x y : EStateM.Result Fault σ α) : Prop :=
  (answer x).mapError Fault.kind = (answer y).mapError Fault.kind

section

variable {words : Nat} (hwords : words ≤ 2 ^ 28) (hmemory : CodeMemory.create words = .ok m.memory)
  (hmethods : m.methods = []) (hregistered : m.registered = []) (harea : m.area = Area.initial)
  {calls : List Call} (hcalls : ∀ call ∈ calls, call.setsPhase = false) (ht : Sees m calls t)
  (hinit : Initializes init init') {early late : Address}
  (hboth : BothWays m.resolver t op u i early late) (hresolved : i.operand.isResolved = true)

include hwords hmemory hmethods hregistered harea hcalls ht hinit hboth hresolved

/-- Both instructions run with the word of the target, the second if the class has objects in case
one is to be made. -/
lemma BothWays.exists_word : ∃ d w, i.operand.HasWord t.machine.area op d w ∧
    t.machine.RunsAs init' early op d w ∧
    (Instantiable op d → t.machine.RunsAs init' late op d w) ∧
    (¬ Instantiable op d →
      answer (Machine.executeWith init' late t.machine) = .error (.notInstantiable d.name)) := by
  obtain ⟨r₀, r₁, o, hr₀, hmade, hr₁, c, code, k, hplace, hi, hunbound, rfl⟩ := hboth.early
  obtain ⟨o', n, c', code', k', hplace', hi', hunbound', rfl⟩ := hboth.late
  obtain ⟨hsuits, rfl, hleads⟩ := Instruction.leads_of_ofUse hmade hresolved
  obtain ⟨d, w, hword, hruns⟩ := runsAs_of_resolved hwords hmemory hmethods hregistered harea hcalls
    ht hinit hplace hi hsuits.ne_trap hleads.ne_none hresolved hunbound
  have hsteady : m.area.Steady := harea ▸ Area.initial_steady
  obtain ⟨j, ho, -⟩ := hplace.called
  have hlater : Evolves r₁ t.machine.resolver :=
    hr₁.trans ((ht.paced hcalls hsteady.sound).last o (List.mem_of_getElem? ho))
  obtain ⟨hinst, hnot⟩ := first_of_leftOpen hwords hmemory hmethods hregistered harea hcalls ht
    hinit hplace' hi' hunbound' (hr₀.steady hsteady) hsuits hleads hlater hword
  exact ⟨d, w, hword, hruns, hinst, hnot⟩

end

/-- An instruction that runs as with a known word does not fail for want of objects. -/
lemma spares_of_runsAs (hinit : Initializes init init') {address : Address}
    (h : t.machine.RunsAs init' address op d w) {f : Fault}
    (hfail : answer (Machine.executeWith init' address t.machine) = .error f) :
    f.kind ≠ .instantiation := by
  obtain ⟨m', -, hanswer⟩ := h
  rw [hanswer] at hfail
  obtain ⟨m₁, hrun⟩ := answer_eq_error.1 hfail
  obtain hrun | ⟨_, _, _, hrun⟩ := bind_eq_error.1 hrun
  · cases hneeds : op.needs? d with
    | none =>
      rw [hneeds] at hrun
      cases hrun
    | some d =>
      rw [hneeds] at hrun
      exact hinit.spares d m' f m₁ hrun
  · cases hrun

/-- A reference to a class that is resolved when its instruction is made, and the same reference
left to its patcher. When the instructions first run from one and the same state, be it between
calls or inside of initializers, neither runs with another word than its class gives, and they
never have the same outcome if an object is to be made of a class that has none. Otherwise both end
as the initialization of the class does, and their outcomes are the same unless an initializer acts
on whether the patcher of a site is at work. -/
theorem class_sites_agree_iff {words : Nat} (hwords : words ≤ 2 ^ 28)
    (hmemory : CodeMemory.create words = .ok m.memory) (hmethods : m.methods = [])
    (hregistered : m.registered = []) (harea : m.area = Area.initial) {calls : List Call}
    (hcalls : ∀ call ∈ calls, call.setsPhase = false) (ht : Sees m calls t)
    (hinit : Initializes init init') {u : ClassUse} {early late : Address}
    (hboth : BothWays m.resolver t op (.ofClass u) i early late)
    (hresolved : i.operand = .toClass (.resolved d)) :
    (after ⟨[], m⟩ calls).machine = m.after calls ∧
    ∃ w, i.operand.HasWord t.machine.area op d w ∧ t.machine.RunsAs init' early op d w ∧
      (Instantiable op d → t.machine.RunsAs init' late op d w) ∧
      (∀ e m', Machine.executeWith init' early t.machine = .ok e m' ∨
        Machine.executeWith init' late t.machine = .ok e m' → e = some ⟨op, some w⟩) ∧
      (SameOutcome (Machine.executeWith init' early t.machine)
        (Machine.executeWith init' late t.machine) → Instantiable op d) ∧
      (t.machine.Oblivious → (SameOutcome (Machine.executeWith init' early t.machine)
        (Machine.executeWith init' late t.machine) ↔ Instantiable op d)) := by
  obtain ⟨d', w, hword, hearly, hlate, hrefuses⟩ := hboth.exists_word hwords hmemory hmethods
    hregistered harea hcalls ht hinit (by rw [hresolved]; rfl)
  obtain rfl : d' = d := by
    rw [hresolved] at hword
    cases hword
    rfl
  have hdiffer : SameOutcome (Machine.executeWith init' early t.machine)
      (Machine.executeWith init' late t.machine) → Instantiable op d' := by
    intro hsame
    by_contra hinst
    unfold SameOutcome at hsame
    rw [hrefuses hinst] at hsame
    cases hanswer : answer (Machine.executeWith init' early t.machine) with
    | ok e =>
      rw [hanswer] at hsame
      cases hsame
    | error f =>
      rw [hanswer] at hsame
      exact spares_of_runsAs hinit hearly hanswer (Except.error.inj hsame)
  refine ⟨machine_after calls _, w, hword, hearly, hlate, fun e m' hrun => ?_, hdiffer,
    fun hblind => ⟨hdiffer, fun hinst => ?_⟩⟩
  · rcases hrun with hrun | hrun
    · exact hearly.eq_some hrun
    · by_cases hinst : Instantiable op d'
      · exact (hlate hinst).eq_some hrun
      · have hanswer := hrefuses hinst
        rw [hrun] at hanswer
        cases hanswer
  · unfold SameOutcome
    rw [hearly.answer_eq hinit.blind hblind, (hlate hinst).answer_eq hinit.blind hblind]

/-- A reference to a field or a method that is resolved when its instruction is made, and the same
reference left to its patcher. When the instructions first run from one and the same state, be it
between calls or inside of initializers, both run with the word of the member, once its class was
initialized if the opcode asks for that, and they end as the initialization does. They come to the
same, the fault included, unless an initializer acts on whether the patcher of a site is at work. -/
theorem member_sites_agree {words : Nat} (hwords : words ≤ 2 ^ 28)
    (hmemory : CodeMemory.create words = .ok m.memory) (hmethods : m.methods = [])
    (hregistered : m.registered = []) (harea : m.area = Area.initial) {calls : List Call}
    (hcalls : ∀ call ∈ calls, call.setsPhase = false) (ht : Sees m calls t)
    (hinit : Initializes init init') {early late : Address}
    (hboth : BothWays m.resolver t op u i early late) (hmember : u.isMember = true)
    (hresolved : i.operand.isResolved = true) :
    (after ⟨[], m⟩ calls).machine = m.after calls ∧
    ∃ d w, i.operand.HasWord t.machine.area op d w ∧
      t.machine.RunsAs init' early op d w ∧ t.machine.RunsAs init' late op d w ∧
      (∀ e m', Machine.executeWith init' early t.machine = .ok e m' ∨
        Machine.executeWith init' late t.machine = .ok e m' → e = some ⟨op, some w⟩) ∧
      (t.machine.Oblivious → answer (Machine.executeWith init' early t.machine) =
        answer (Machine.executeWith init' late t.machine)) := by
  obtain ⟨d, w, hword, hearly, hlate, -⟩ := hboth.exists_word hwords hmemory hmethods hregistered
    harea hcalls ht hinit hresolved
  obtain ⟨_, _, _, _, hmade, _⟩ := hboth.early
  have hinst : Instantiable op d :=
    (Instruction.leads_of_ofUse hmade hresolved).1.instantiable hmember d
  refine ⟨machine_after calls _, d, w, hword, hearly, hlate hinst, fun e m' hrun => ?_,
    fun hblind => ?_⟩
  · rcases hrun with hrun | hrun
    · exact hearly.eq_some hrun
    · exact (hlate hinst).eq_some hrun
  · rw [hearly.answer_eq hinit.blind hblind, (hlate hinst).answer_eq hinit.blind hblind]

/-! ### Objects of a class and of an abstract class, and a static field -/

lemma after_append (t : Watch) (cs ds : List Call) :
    t.after (cs ++ ds) = (t.after cs).after ds := by
  induction cs generalizing t with
  | nil => rfl
  | cons c cs ih => exact ih _

/-- A use for which an instruction is made, in a method of its own, and another method that leaves
the use to its patcher. -/
def twice (op : Opcode) (u : Use) (method : MethodHandle) (i : Instruction) : List Call :=
  [.operate (.instruction op u), .request (.compile "early" method [i]),
    .request (.compile "late" method [⟨op, u.leftOpen, 0⟩])]

/-- A call that compiles a method notes its start and its end. -/
lemma after_compile {label : String} {method : MethodHandle} {code : List Instruction}
    {m' : Machine} (hrun : Machine.compile label method code t.machine = .ok c m')
    (cs : List Call) :
    t.after (.request (.compile label method code) :: cs) =
      after ⟨t.history ++ [⟨.called (.request (.compile label method code)), t.machine⟩] ++
        [⟨.ended (.request (.compile label method code)), m'⟩], m'⟩ cs := by
  have hserve : ∀ t : Watch, finalState
      (Functor.discard (serve initializeClass (.compile label method code))) t =
      ⟨t.history, finalState (Machine.compile label method code) t.machine⟩ := fun t =>
    (finalState_discard _ t).trans (finalState_onMachine _ t)
  rw [after, perform, finalState_during]
  dsimp only
  rw [hserve, finalState_of_ok hrun]

/-- The same for a call that makes an instruction. -/
lemma after_instruction {r : Resolver} (hmade : Instruction.ofUse op u t.machine.resolver = .ok i r)
    (cs : List Call) :
    t.after (.operate (.instruction op u) :: cs) =
      after ⟨t.history ++ [⟨.called (.operate (.instruction op u)), t.machine⟩] ++
        [⟨.ended (.operate (.instruction op u)), t.machine.withResolver r⟩],
        t.machine.withResolver r⟩ cs := by
  have hmachine : finalState (Machine.onResolver (Resolver.Operation.instruction op u).perform)
      t.machine = t.machine.withResolver r := by
    rw [Machine.finalState_onResolver]
    dsimp only [Resolver.Operation.perform]
    rw [finalState_discard, finalState_of_ok hmade]
    rfl
  rw [after]
  unfold perform
  rw [finalState_during]
  dsimp only [Call.perform]
  rw [finalState_onMachine, hmachine]

section

variable {words : Nat} (hwords : words ≤ 2 ^ 28) (hmemory : CodeMemory.create words = .ok m.memory)
  (hmethods : m.methods = [])

include hwords hmemory hmethods

/-- The only instruction of a method that a call compiled, as long as no trap binds a site. -/
lemma Visits.untouched (ht : Visits m t) {n : Nat} (ho : t.history[n]? = some o)
    (hlast : n + 1 < t.history.length) {label : String} {method : MethodHandle}
    (hevent : o.event = .called (.request (.compile label method [i]))) {m' : Machine}
    (hrun : Machine.compile label method [i] o.machine = .ok c m')
    (hrest : ∀ d ∈ t.machine.methods, d.number ∈ t.machine.registered ∧
      ∀ s ∈ d.sites, s.state ≠ .patched) :
    t.Untouched o i (c.codePosition 0) := by
  obtain ⟨d, rfl, hstanding⟩ := ht.standing hwords hmemory hmethods ho hlast hevent hrun
  obtain ⟨hregistered, hsites⟩ := hrest d (List.mem_of_getElem? hstanding.method)
  exact ⟨d, [i], 0, ⟨⟨n, ho, hlast⟩, ⟨label, method, m', hevent, hrun⟩,
    hregistered, hstanding.method⟩, rfl, fun s hs _ => hsites s hs, rfl⟩

/-- Both instructions are there after the calls. -/
lemma bothWays_twice (harea : m.area = Area.initial) {cs : List Call}
    (hcs : ∀ call ∈ cs, call.setsPhase = false) {method : MethodHandle}
    (hmade : Instruction.ofUse op u (m.after cs).resolver = .ok i r₁) {c' : CompiledMethod}
    {m₁ m₂ : Machine}
    (hearly : Machine.compile "early" method [i] ((m.after cs).withResolver r₁) = .ok c m₁)
    (hlate : Machine.compile "late" method [⟨op, u.leftOpen, 0⟩] m₁ = .ok c' m₂)
    (hrest : ∀ d ∈ m₂.methods, d.number ∈ m₂.registered ∧ ∀ s ∈ d.sites, s.state ≠ .patched) :
    (after ⟨[], m⟩ (cs ++ twice op u method i)).machine = m₂ ∧
      BothWays m.resolver (after ⟨[], m⟩ (cs ++ twice op u method i)) op u i (c.codePosition 0)
        (c'.codePosition 0) := by
  have hsound : m.area.Sound := harea ▸ Area.initial_sound
  have hnow := (Sees.between.paced hcs hsound).now
  have hvisits : Visits m (after ⟨[], m⟩ (cs ++ twice op u method i)) := .between _
  rw [after_append] at hvisits ⊢
  rw [← machine_after cs ⟨[], m⟩] at hmade hearly
  generalize after ⟨[], m⟩ cs = t at *
  rw [twice, after_instruction hmade, after_compile hearly, after_compile hlate, after]
    at hvisits ⊢
  dsimp only at hvisits ⊢
  have hfirst := hvisits.untouched hwords hmemory hmethods (n := t.history.length + 2)
    (o := ⟨.called (.request (.compile "early" method [i])), t.machine.withResolver r₁⟩)
    (by simp) (by simp) rfl hearly hrest
  have hsecond := hvisits.untouched hwords hmemory hmethods (n := t.history.length + 4)
    (o := ⟨.called (.request (.compile "late" method [⟨op, u.leftOpen, 0⟩])), m₁⟩)
    (by simp) (by simp) rfl hlate hrest
  exact ⟨rfl, ⟨_, r₁, _, hnow, hmade, .refl _, hfirst⟩, ⟨_, 0, hsecond⟩⟩

end

/-- Whether both methods can be compiled in a machine without programs and a test accepts the
instruction, the machine and the two addresses. -/
def makesTwice (op : Opcode) (u : Use) (method : MethodHandle)
    (accept : Instruction → Machine → Address → Address → Bool) (m : Machine) : Bool :=
  match Instruction.ofUse op u m.resolver with
  | .error .. => false
  | .ok i r =>
    match Machine.compile "early" method [i] (m.withResolver r) with
    | .error .. => false
    | .ok c m₁ =>
      match Machine.compile "late" method [⟨op, u.leftOpen, 0⟩] m₁ with
      | .error .. => false
      | .ok d m₂ =>
        (m₂.methods.all fun e =>
          decide (e.number ∈ m₂.registered) && e.sites.all fun s => s.state ≠ .patched) &&
        m₂.programs.isEmpty && accept i m₂ (c.codePosition 0) (d.codePosition 0)

lemma exists_of_makesTwice {accept : Instruction → Machine → Address → Address → Bool}
    {method : MethodHandle} {cs : List Call} (hcs : ∀ call ∈ cs, call.setsPhase = false)
    (h : makesTwice op u method accept (smallMachine.after cs) = true) :
    ∃ i t early late, t = after ⟨[], smallMachine⟩ (cs ++ twice op u method i) ∧
      (∀ call ∈ cs ++ twice op u method i, call.setsPhase = false) ∧
      BothWays smallMachine.resolver t op u i early late ∧ t.machine.Oblivious ∧
      accept i t.machine early late = true := by
  have htwice : ∀ i, ∀ call ∈ twice op u method i, call.setsPhase = false := by
    simp [twice, Call.setsPhase]
  unfold makesTwice at h
  split at h
  · cases h
  · next i r hmade =>
    split at h
    · cases h
    · next c m₁ hearly =>
      split at h
      · cases h
      · next d m₂ hlate =>
        simp only [Bool.and_eq_true, List.all_eq_true, decide_eq_true_eq, List.isEmpty_iff] at h
        obtain ⟨⟨hrest, hprograms⟩, haccept⟩ := h
        obtain ⟨hmachine, hboth⟩ := bothWays_twice (show 4 ≤ 2 ^ 28 by decide) rfl rfl rfl hcs
          hmade hearly hlate hrest
        refine ⟨i, _, _, _, rfl, List.forall_mem_append.2 ⟨hcs, htwice i⟩, hboth, ?_, ?_⟩
        · simp [hmachine, Machine.Oblivious, hprograms]
        · rw [hmachine]
          exact haccept

/-- Loading a class. -/
def loading (d : Definition) : List Call :=
  [.operate (.define .bootstrap d), .request (.load .bootstrap d.name)]

/-- A class with one method. -/
def shape (flags : Flags) : Definition :=
  { name := "a/Shape"
    flags := flags
    methods := [⟨Flag.accPublic.mask, "run", ⟨[], .void⟩⟩] }

/-- The use of the class in its method. -/
def shapeUse? (m : Machine) : Option ClassUse :=
  (m.area.published? .bootstrap "a/Shape").bind fun c =>
    (c.methodAt? 0).map fun method => ⟨method, ⟨c, "a/Shape"⟩, []⟩

/-- The class that an instruction refers to, if it is known. -/
def classOf? (i : Instruction) : Option Class :=
  match i.operand with
  | .toClass (.resolved c) => some c
  | _ => none

lemma operand_of_classOf? {c : Class} (h : classOf? i = some c) :
    i.operand = .toClass (.resolved c) := by
  unfold classOf? at h
  split at h
  · next c heq =>
    cases h
    exact heq
  · cases h

/-- Objects of a class are made in both ways alike. -/
theorem class_objects_agree :
    ∃ u i c t early late,
      shapeUse? (smallMachine.after (loading (shape Flag.accPublic.mask))) = some u ∧
      t = after ⟨[], smallMachine⟩
        (loading (shape Flag.accPublic.mask) ++ twice .new (.ofClass u) u.method i) ∧
      BothWays smallMachine.resolver t .new (.ofClass u) i early late ∧
      i.operand = .toClass (.resolved c) ∧
      SameOutcome (Machine.execute early t.machine) (Machine.execute late t.machine) ∧
      ∃ w m', Machine.execute early t.machine = .ok (some ⟨.new, some w⟩) m' := by
  have htest : ((shapeUse? (smallMachine.after (loading (shape Flag.accPublic.mask)))).any fun u =>
      makesTwice .new (.ofClass u) u.method (fun i m early _ =>
        ((classOf? i).any fun c => !c.isInterface && !c.isAbstract) &&
          yields (fun _ => true) (Machine.execute early m))
        (smallMachine.after (loading (shape Flag.accPublic.mask)))) = true := by
    decide +kernel
  obtain ⟨u, hu, htest⟩ := (Option.any_eq_true _ _).1 htest
  obtain ⟨i, t, early, late, rfl, hcalls, hboth, hblind, haccept⟩ :=
    exists_of_makesTwice (by decide) htest
  simp only [Bool.and_eq_true, Option.any_eq_true, Bool.not_eq_true'] at haccept
  obtain ⟨⟨c, hc, hinst⟩, hyields⟩ := haccept
  obtain ⟨e, m', hrun, -⟩ := exists_of_yields hyields
  obtain ⟨-, w, -, -, -, hword, -, hiff⟩ := class_sites_agree_iff (show 4 ≤ 2 ^ 28 by decide) rfl
    rfl rfl rfl hcalls .between .outside hboth (operand_of_classOf? hc)
  obtain rfl := hword e m' (.inl hrun)
  exact ⟨u, i, c, _, early, late, hu, rfl, hboth, operand_of_classOf? hc,
    (hiff hblind).2 fun _ => hinst, w, m', hrun⟩

/-- An object of an abstract class is made by an instruction that was bound when it was made, and
not by one that is left to its patcher. -/
theorem abstract_objects_differ :
    ∃ u i c t early late,
      shapeUse? (smallMachine.after
        (loading (shape (Flag.accPublic.mask ||| Flag.accAbstract.mask)))) = some u ∧
      t = after ⟨[], smallMachine⟩
        (loading (shape (Flag.accPublic.mask ||| Flag.accAbstract.mask)) ++
          twice .new (.ofClass u) u.method i) ∧
      BothWays smallMachine.resolver t .new (.ofClass u) i early late ∧
      i.operand = .toClass (.resolved c) ∧
      (∃ w m', Machine.execute early t.machine = .ok (some ⟨.new, some w⟩) m') ∧
      (∃ m', Machine.execute late t.machine = .error (.notInstantiable c.name) m') ∧
      ¬ SameOutcome (Machine.execute early t.machine) (Machine.execute late t.machine) := by
  have htest : ((shapeUse? (smallMachine.after
      (loading (shape (Flag.accPublic.mask ||| Flag.accAbstract.mask))))).any fun u =>
      makesTwice .new (.ofClass u) u.method (fun i m early _ =>
        ((classOf? i).any fun c => c.isAbstract) &&
          yields (fun _ => true) (Machine.execute early m))
        (smallMachine.after
          (loading (shape (Flag.accPublic.mask ||| Flag.accAbstract.mask))))) = true := by
    decide +kernel
  obtain ⟨u, hu, htest⟩ := (Option.any_eq_true _ _).1 htest
  obtain ⟨i, t, early, late, rfl, hcalls, hboth, -, haccept⟩ :=
    exists_of_makesTwice (by decide) htest
  simp only [Bool.and_eq_true, Option.any_eq_true] at haccept
  obtain ⟨⟨c, hc, habstract⟩, hyields⟩ := haccept
  have hoperand := operand_of_classOf? hc
  obtain ⟨e, m', hrun, -⟩ := exists_of_yields hyields
  obtain ⟨d, w, hword, hearly, -, hrefuses⟩ := hboth.exists_word (show 4 ≤ 2 ^ 28 by decide) rfl
    rfl rfl rfl hcalls .between .outside (by rw [hoperand]; rfl)
  obtain rfl : d = c := by
    rw [hoperand] at hword
    cases hword
    rfl
  have hlate := hrefuses fun hinst => by simpa [habstract] using (hinst rfl).2
  obtain rfl := hearly.eq_some hrun
  refine ⟨u, i, d, _, early, late, hu, rfl, hboth, hoperand, ⟨w, m', hrun⟩,
    answer_eq_error.1 hlate, fun hsame => ?_⟩
  unfold SameOutcome at hsame
  rw [answer_eq_ok.2 ⟨m', hrun⟩] at hsame
  cases hsame.trans (congrArg (Except.mapError Fault.kind) hlate)

/-- A class with a static field and a method. -/
def counter : Definition :=
  { name := "a/Counter"
    flags := Flag.accPublic.mask
    fields := [⟨Flag.accPublic.mask ||| Flag.accStatic.mask, "count", .primitive .int⟩]
    methods := [⟨Flag.accPublic.mask, "run", ⟨[], .void⟩⟩] }

/-- The use of the field in the method. -/
def counterUse? (m : Machine) : Option FieldUse :=
  (m.area.published? .bootstrap "a/Counter").bind fun c =>
    (c.methodAt? 0).map fun method =>
      ⟨method, ⟨⟨c, "a/Counter"⟩, "count", .primitive .int⟩, true, false, [], []⟩

/-- A static field is read in both ways alike. -/
theorem static_field_agrees :
    ∃ u i t early late, counterUse? (smallMachine.after (loading counter)) = some u ∧
      t = after ⟨[], smallMachine⟩ (loading counter ++ twice .getstatic (.ofField u) u.method i) ∧
      BothWays smallMachine.resolver t .getstatic (.ofField u) i early late ∧
      i.operand.isResolved = true ∧
      ∃ w, answer (Machine.execute early t.machine) = .ok (some ⟨.getstatic, some w⟩) ∧
        answer (Machine.execute late t.machine) = .ok (some ⟨.getstatic, some w⟩) := by
  have htest : ((counterUse? (smallMachine.after (loading counter))).any fun u =>
      makesTwice .getstatic (.ofField u) u.method (fun i m early _ =>
        i.operand.isResolved && yields (fun _ => true) (Machine.execute early m))
        (smallMachine.after (loading counter))) = true := by
    decide +kernel
  obtain ⟨u, hu, htest⟩ := (Option.any_eq_true _ _).1 htest
  obtain ⟨i, t, early, late, rfl, hcalls, hboth, hblind, haccept⟩ :=
    exists_of_makesTwice (by decide) htest
  rw [Bool.and_eq_true] at haccept
  obtain ⟨hresolved, hyields⟩ := haccept
  obtain ⟨e, m', hrun, -⟩ := exists_of_yields hyields
  obtain ⟨-, d, w, -, -, -, hword, hsame⟩ := member_sites_agree (show 4 ≤ 2 ^ 28 by decide) rfl rfl
    rfl rfl hcalls .between .outside hboth rfl hresolved
  obtain rfl := hword e m' (.inl hrun)
  have hearly : answer (Machine.execute early _) = _ := answer_eq_ok.2 ⟨m', hrun⟩
  exact ⟨u, i, _, early, late, hu, rfl, hboth, hresolved, w, hearly,
    (hsame hblind).symm.trans hearly⟩

end Watch

end Linkage
