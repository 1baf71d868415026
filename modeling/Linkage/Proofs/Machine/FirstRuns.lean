import Linkage.Proofs.Machine.Blind
import Linkage.Proofs.Machine.Fidelity
import Linkage.Proofs.Machine.Pace
import Linkage.Proofs.Machine.Registry
import Linkage.Proofs.Machine.Targets

/-!
# What instructions do when they first run

An instruction that was bound when its code was made has its word in the code area. Any other has a
site, and its first run asks the patcher, which may run initializers that trap on the same site.
`RunsAs` says what comes of that in either case: the instruction runs with one particular word,
after a class was initialized if the opcode asks for that, and it fails exactly as the
initialization does.

The word does not depend on who binds the site, for whoever does asks the same patcher, and every
answer of the patcher is about the same target.
-/

namespace Linkage

open Relation
open Resolver (Evolves)

namespace CompiledMethod

/-- Whether the instruction at a place was not bound by a trap so far. -/
def Unbound (c : CompiledMethod) (k : Nat) : Prop :=
  ∀ s ∈ c.sites, s.position = c.codePosition k → s.state ≠ .patched

end CompiledMethod

namespace Machine

variable {m m' u : Machine} {op : Opcode} {d : Class} {w : Word} {init : Class → MachineM Unit}
  {address : Address}

/-- Runs an instruction with its word, after its class was initialized if the opcode asks for
that. -/
def runWord (init : Class → MachineM Unit) (op : Opcode) (d : Class) (w : Word) :
    MachineM (Option Execution) := do
  (op.needs? d).elim (pure ()) init
  return some ⟨op, some w⟩

/-- The instruction at an address comes to what running it with a word comes to, in a machine that
differs from this one at most in counts, reports and notes, and in which sites have their patchers
at work. -/
def RunsAs (m : Machine) (init : Class → MachineM Unit) (address : Address) (op : Opcode)
    (d : Class) (w : Word) : Prop :=
  ∃ m', m.Like m' ∧ answer (executeWith init address m) = answer (runWord init op d w m')

lemma runWord_eq_ok {e : Option Execution} (h : runWord init op d w m = .ok e m') :
    e = some ⟨op, some w⟩ := by
  obtain ⟨-, m₁, -, h⟩ := bind_eq_ok.1 h
  cases h
  rfl

lemma RunsAs.eq_some (h : m.RunsAs init address op d w) {e : Option Execution}
    (hrun : executeWith init address m = .ok e m') : e = some ⟨op, some w⟩ := by
  obtain ⟨m₁, -, hanswer⟩ := h
  rw [hrun] at hanswer
  obtain ⟨m₂, hword⟩ := answer_eq_ok.1 hanswer.symm
  exact runWord_eq_ok hword

lemma blind_runWord (hinit : ∀ c, Blind (init c)) : Blind (runWord init op d w) := by
  refine Blind.bind ?_ fun _ => blind_pure _
  cases op.needs? d with
  | none => exact blind_pure ()
  | some d => exact hinit d

/-- Where no program asks how far sites are bound, the instruction runs as it would from the same
machine. -/
lemma RunsAs.answer_eq (h : m.RunsAs init address op d w) (hinit : ∀ c, Blind (init c))
    (hm : m.Oblivious) :
    answer (executeWith init address m) = answer (runWord init op d w m) := by
  obtain ⟨m', hlike, hanswer⟩ := h
  rw [hanswer]
  exact ((blind_runWord hinit) m m' ⟨hlike, hm⟩).answer_eq.symm

/-- A class that is initialized already does not matter. -/
lemma runWord_of_initialized (hd : op.initializesClass = true → init d m = .ok () m) :
    runWord init op d w m = .ok (some ⟨op, some w⟩) m := by
  unfold runWord
  cases hop : op.initializesClass with
  | false =>
    rw [Opcode.needs?_of_not_initializes hop]
    rfl
  | true =>
    rw [Opcode.needs?_of_initializes hop]
    exact bind_of_ok (hd hop)

/-! ### Runs without a trap -/

namespace Standing

variable {c : CompiledMethod} {code : List Instruction} {k : Nat} {i : Instruction}

/-- An instruction that was bound when its code was made runs with its word. -/
lemma executeWith_of_early (h : Standing m u c code) (hfind : u.find? (c.codePosition k) = some c)
    (hi : code[k]? = some i) (hop : i.opcode ≠ .trap) (hx : u.Holds c code k (.early w)) :
    executeWith init (c.codePosition k) u = .ok (some ⟨i.opcode, some w⟩) u := by
  cases hx with
  | @early a _ unsited slot word =>
    obtain ⟨v, hv, hencodes⟩ := h.word_of_bound (List.getElem?_eq_some_iff.1 hi).1 unsited
    have htrap : (Word.bits v).isTrap = false := isTrap_of_encodes hencodes hi hop
    have hfetched := fetched_of_slot hencodes hi slot (h.wrap_of_slot slot) word (c.codePosition k)
    unfold executeWith
    rw [bind_of_ok (get_apply u)]
    simp only [hfind]
    rw [bind_of_ok (read_of_word? hv), htrap, if_neg (by simp), bind_of_ok hfetched]
    rfl

end Standing

end Machine

namespace Watch

open Machine (Standing)

variable {t t' : Watch} {m : Machine} {init : Class → WatchM Unit} {init' : Class → MachineM Unit}
  {id : SiteId} {s : PatchSite} {c : CompiledMethod} {code : List Instruction} {k : Nat}
  {i : Instruction} {op : Opcode} {u : Use} {d : Class} {w : Word} {r₀ r₁ : Resolver}

/-! ### Runs with a trap -/

/-- A trap on a site that is not bound fails if and only if its patcher does. -/
lemma patchSite_outcome (hinit : Initializes init init') (ht : Sound t)
    (hs : t.machine.site? id = some s) (hstate : s.state ≠ .patched) :
    (∃ f t' m', patchSite init id s t = .error f t' ∧
      Machine.patchWord init' s.patcher s.operand (t.machine.withState id .patching) =
        .error f m') ∨
    ∃ outcome t' v m', patchSite init id s t = .ok outcome t' ∧
      Machine.patchWord init' s.patcher s.operand (t.machine.withState id .patching) =
        .ok v m' := by
  obtain ⟨h, m⟩ := t
  have hid : ¬ m.Patched id := fun hid => hstate ((Machine.patched_iff hs).1 hid)
  obtain ⟨hstart, hasked⟩ := steps_asked ht hs hid
  have hbusy := busy_stable _ _ _ _ _ hasked
    (busy_stable _ _ _ _ _ hstart (busy_trapped ht ⟨s.state, hs⟩))
  rw [patchSite_of_not_patched hid]
  generalize hasking : (⟨h ++ [⟨.trapped id, m⟩] ++
    [⟨.asked h.length id, m.withState id .patching⟩], m.withState id .patching⟩ : Watch) = t₁
    at hbusy ⊢
  have hmachine : t₁.machine = m.withState id .patching := by rw [← hasking]
  have hfollows := follows_patchWord hinit.follows s.patcher s.operand t₁
  rw [hmachine] at hfollows
  have hask := ((keeps_patchWord hinit.keeps s.patcher s.operand).attempt t₁ hbusy.1).1
  cases hword : patchWord init s.patcher s.operand t₁ with
  | error f u =>
    left
    have hattempt : attempt (patchWord init s.patcher s.operand) t₁ = .ok (.error f) u := by
      simp [attempt, hword]
    obtain ⟨m', hleave, -⟩ := leaveSite_cases h.length id f u
    rw [hword] at hfollows
    exact ⟨f, _, _, (bind_of_ok hattempt).trans hleave, hfollows.symm⟩
  | ok v u =>
    right
    have hattempt : attempt (patchWord init s.patcher s.operand) t₁ = .ok (.ok v) u := by
      simp [attempt, hword]
    rw [finalState_of_ok hattempt] at hask
    have hbusy := (busy_stable h.length id s).reflTransGen hask hbusy
    have hnote : Step u ⟨u.history ++ [⟨.returned h.length id v, u.machine⟩], u.machine⟩ :=
      .note ⟨by simp, by simp, by simp [Binds]⟩
    have hreturns : askPatcher init h.length id s t₁ = finishSite h.length id s v
        ⟨u.history ++ [⟨.returned h.length id v, u.machine⟩], u.machine⟩ :=
      (bind_of_ok hattempt).trans (bind_of_ok (see_apply _ _))
    rw [hword] at hfollows
    obtain ⟨-, hfinish⟩ | ⟨-, words, hfinish, -⟩ :=
      finishSite_cases (busy_stable h.length id s _ _ hnote hbusy) v
    · exact ⟨_, _, v, _, hreturns.trans hfinish, hfollows.symm⟩
    · exact ⟨_, _, v, _, hreturns.trans hfinish, hfollows.symm⟩

/-- An instruction whose site is not bound fails if its trap does, or it runs with what is in its
data word after the trap. -/
lemma executeWith_of_site (hstanding : Standing m t.machine c code) (ht : Sound t)
    (hinit : Initializes init init') (hfind : t.machine.find? (c.codePosition k) = some c)
    (hi : code[k]? = some i) {j : Nat} (hs : c.sites[j]? = some s)
    (hposition : s.position = c.codePosition k) (hstate : s.state ≠ .patched) :
    (∀ f t', patchSite init ⟨c.number, j⟩ s t = .error f t' →
      answer (Machine.executeWith init' (c.codePosition k) t.machine) = .error f) ∧
    ∀ outcome t', patchSite init ⟨c.number, j⟩ s t = .ok outcome t' →
      ∃ v, t'.machine.word? s.dataAddress = some v ∧
        answer (Machine.executeWith init' (c.codePosition k) t.machine) =
          .ok (some ⟨i.opcode, some v⟩) := by
  have hsite := hstanding.site?_eq hs
  obtain ⟨-, hslot, hencodes⟩ :=
    hstanding.site_of_position (List.mem_of_getElem? hs) hi hposition
  have htrap := ((ht.now _ s hsite).waiting hstate).1
  rw [← hposition] at hfind ⊢
  rw [Machine.executeWith_of_trap ht.laid hsite hfind rfl htrap init']
  have hfollows := follows_patchSite hinit.follows ⟨c.number, j⟩ s t
  refine ⟨fun f t' hrun => ?_, fun outcome t' hrun => ?_⟩
  · rw [hrun] at hfollows
    rw [bind_of_error hfollows.symm]
    rfl
  · have hbound := patched_of_patchSite hinit.keeps ht hsite hrun
    obtain ⟨v, hv, -⟩ := hbound.data
    have hfetched := Machine.fetched_of_slot hencodes hi hslot (hstanding.wrap_of_slot hslot) hv
      s.position
    rw [hrun] at hfollows
    rw [bind_of_ok hfollows.symm, bind_of_ok (Machine.read_of_word? hbound.code),
      bind_of_ok hfetched]
    exact ⟨v, hv, rfl⟩

/-- What a trap leaves in the data word was found by the patcher of the site, be it when this trap
asked it or when another did that an initializer ran into. -/
lemma exists_plan_of_trap {r : Resolver} (ht : Justified t) (hpaced : Paced r t)
    (hinit : Initializes init init') (hs : t.machine.site? id = some s)
    {outcome : TrapOutcome} (hrun : patchSite init id s t = .ok outcome t') :
    Evolves t.machine.resolver t'.machine.resolver ∧
    ∃ v, t'.machine.word? s.dataAddress = some v ∧
      ∃ n target n', patchPlan s.patcher s.operand n = .ok (target, .ok v) n' ∧
        Evolves r n.resolver ∧ Evolves n'.resolver t'.machine.resolver := by
  have hmoves := (performs_trap hinit.readies id s t ⟨⟨ht.sound, ht.area⟩, hs⟩).1
  obtain ⟨hpaced', hadvances⟩ := routine_pacing.patchSite hinit.pacing id s t ht.area hpaced
  rw [finalState_of_ok hrun] at hmoves hpaced' hadvances
  have ht' := justified_stable.reflTransGen hmoves ht
  have hbound := patched_of_patchSite hinit.keeps ht.sound hs hrun
  obtain ⟨v, hv, o, ho, -, o₀, ho₀, target, n', hplan, hlater, -⟩ :=
    ht'.bound id _ hbound.state rfl
  exact ⟨hadvances.evolves, v, hv, o₀.machine, target, n', hplan, hpaced'.first o₀ ho₀,
    hlater.trans (hpaced'.last o ho)⟩

/-- An instruction with a site first runs with the word that its patcher finds, and initializes the
class that its patcher does, if all that the patcher can find is that word. -/
lemma runsAs_of_plan {r : Resolver} (ht : Justified t) (hpaced : Paced r t)
    (hinit : Initializes init init') (hstanding : Standing m t.machine c code)
    (hfind : t.machine.find? (c.codePosition k) = some c) (hi : code[k]? = some i) {j : Nat}
    (hs : c.sites[j]? = some s) (hposition : s.position = c.codePosition k)
    (hstate : s.state ≠ .patched) {n : Machine}
    (hplan : patchPlan s.patcher s.operand (t.machine.withState ⟨c.number, j⟩ .patching) =
      .ok (i.opcode.needs? d, .ok w) n)
    (hlike : i.opcode.initializesClass = true → t.machine.Like n)
    (hwords : ∀ {n₁ target v n₂ q}, patchPlan s.patcher s.operand n₁ = .ok (target, .ok v) n₂ →
      Evolves r n₁.resolver → Evolves n₂.resolver q → Evolves t.machine.resolver q → v = w) :
    t.machine.RunsAs init' (c.codePosition k) i.opcode d w := by
  have hsite := hstanding.site?_eq hs
  obtain ⟨hfails, hruns⟩ :=
    executeWith_of_site hstanding ht.sound hinit hfind hi hs hposition hstate
  have hword : Machine.patchWord init' s.patcher s.operand
      (t.machine.withState ⟨c.number, j⟩ .patching) =
      (do (i.opcode.needs? d).elim (pure ()) init'; return w : MachineM Word) n := by
    rw [patchWord_eq, bind_of_ok hplan]
    rfl
  -- An instruction that leaves its class alone runs from anywhere.
  obtain ⟨n', hlike', hsame⟩ : ∃ n', t.machine.Like n' ∧
      answer (Machine.runWord init' i.opcode d w n) =
        answer (Machine.runWord init' i.opcode d w n') := by
    cases hop : i.opcode.initializesClass with
    | true => exact ⟨n, hlike hop, rfl⟩
    | false =>
      have hnone := Opcode.needs?_of_not_initializes hop d
      refine ⟨t.machine, .refl _, ?_⟩
      simp only [Machine.runWord, hnone]
      rfl
  refine ⟨n', hlike', ?_⟩
  rw [← hsame]
  rcases patchSite_outcome hinit ht.sound hsite hstate with
    ⟨f, t', n₁, hrun, hfail⟩ | ⟨outcome, t', v, n₁, hrun, hok⟩
  · rw [hfails f t' hrun]
    rw [hword] at hfail
    obtain hfail | ⟨_, _, _, hfail⟩ := bind_eq_error.1 hfail
    · exact (answer_eq_error.2 ⟨_, bind_of_error hfail⟩).symm
    · cases hfail
  · obtain ⟨v', hv', hanswer⟩ := hruns outcome t' hrun
    obtain ⟨hlater, v'', hv'', n₁, target, n₂, hplan', hn₁, hn₂⟩ :=
      exists_plan_of_trap ht hpaced hinit hsite hrun
    obtain rfl : v' = v'' := Option.some.inj (hv'.symm.trans hv'')
    obtain rfl := hwords hplan' hn₁ hn₂ hlater
    rw [hanswer]
    rw [hword] at hok
    obtain ⟨⟨⟩, n₃, hinit', -⟩ := bind_eq_ok.1 hok
    have hlast : Machine.runWord init' i.opcode d v' n = .ok (some ⟨i.opcode, some v'⟩) n₃ :=
      bind_of_ok hinit'
    exact (answer_eq_ok.2 ⟨n₃, hlast⟩).symm

/-! ### Methods in place -/

/-- A method that a call compiled from its code, after the call and as long as the method is
registered. -/
structure InPlace (t : Watch) (o : Observation) (c : CompiledMethod) (code : List Instruction) :
    Prop where
  called : ∃ n, t.history[n]? = some o ∧ n + 1 < t.history.length
  compiles : Compiles o c code
  registers : t.machine.Registers c

lemma Sees.visits {calls : List Call} (ht : Sees m calls t) : Visits m t := by
  cases ht with
  | between => exact .between calls
  | during ho => exact .during calls ho

/-- What is known of a method in place: its instructions are bound as they were in its code, and it
is found at their addresses. -/
lemma InPlace.seated {words : Nat} (hwords : words ≤ 2 ^ 28)
    (hmemory : CodeMemory.create words = .ok m.memory) (hmethods : m.methods = [])
    (hregistered : m.registered = []) (ht : Visits m t) (hpaced : Paced m.resolver t)
    {o : Observation} (h : InPlace t o c code) :
    ∃ m₀ b, Standing m₀ t.machine c code ∧ Evolves m₀.resolver t.machine.resolver ∧
      ({} : Builder).emitAll code o.machine.area = .ok b m₀.area ∧
      ∀ k < code.length, t.machine.find? (c.codePosition k) = some c ∧
        ∀ x, b.binding? k = some x → t.machine.Holds c code k x := by
  obtain ⟨n, ho, hlast⟩ := h.called
  obtain ⟨label, method, m₀, hevent, hrun⟩ := h.compiles
  obtain ⟨d, hfresh, hstanding⟩ := ht.standing hwords hmemory hmethods ho hlast hevent hrun
  obtain rfl : d = c := by
    have hmethod := h.registers.2
    rw [← (Machine.bounds_of_fresh_eq hfresh).1, hstanding.method] at hmethod
    exact Option.some.inj hmethod
  obtain ⟨o', ho', hmachine⟩ := ht.compiled ho hlast hevent
  rw [finalState_of_ok hrun] at hmachine
  have hlaid : o.machine.Laid := (ht.earlier ho).sound hwords hmemory hmethods |>.laid
  obtain ⟨b, hemit, hholds⟩ := Machine.holds_of_compile hlaid hrun
  have hordered := (ht.charted hmemory hmethods hregistered).1.ordered
  refine ⟨m₀, b, hstanding, hmachine ▸ hpaced.last o' ho', hemit, fun k hk => ⟨?_, fun x hx =>
    hstanding.holds hk (hholds k x hx)⟩⟩
  have hcontains := hstanding.contains_position hk
  simp only [CompiledMethod.contains, Bool.and_eq_true, decide_eq_true_eq] at hcontains
  exact hordered.find?_eq_some_iff.2 ⟨h.registers, hcontains⟩

end Watch

end Linkage
