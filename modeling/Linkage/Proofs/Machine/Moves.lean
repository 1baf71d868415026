import Linkage.Proofs.Machine.Failing
import Linkage.Proofs.Machine.Progress
import Linkage.Proofs.Machine.Stages

/-!
# Classes of bound sites

A patcher that initializes a class returns its word only when the class is usable: initialized, or
on its way there, for an initializer may come back to its own class. The site is bound at once, so
the class is usable at that moment too. Initializers that run inside one another can change the
phases of classes before and after, but no class goes back to its first phase.

`Watch.Move` says of every step of a watched machine what becomes of classes, of methods and of the
sites that are bound, and `Watch.Justified` is what all moves together keep: each bound site was
bound by a trap whose end was seen, with a word whose class was usable, and each method came from a
call that was seen.
-/

namespace Linkage

open Relation
open Resolver (Evolves)

/-- Whether a call takes a class to another phase without initializing it. -/
def Call.setsPhase : Call → Bool
  | operate (.setPhase ..) => true
  | _ => false

lemma orderly_of_setsPhase {op : Resolver.Operation} (h : (Call.operate op).setsPhase = false)
    (r : Resolver) : op.Orderly r := by
  cases op with
  | setPhase c p => cases h
  | _ => trivial

namespace CompiledMethod

/-- The method as it was when it was installed, with no site bound. -/
def fresh (c : CompiledMethod) : CompiledMethod :=
  { c with sites := c.sites.map fun s => { s with state := .unpatched } }

lemma fresh_of_unpatched {c : CompiledMethod} (h : ∀ s ∈ c.sites, s.state = .unpatched) :
    c.fresh = c := by
  have hsites : (c.sites.map fun s => { s with state := .unpatched }) = c.sites := by
    refine (List.map_congr_left fun s hs => ?_).trans (List.map_id _)
    rw [← h s hs]
    rfl
  unfold fresh
  rw [hsites]

lemma fresh_modify (c : CompiledMethod) (i : Nat) (st : PatchState) :
    fresh { c with sites := c.sites.modify i fun s => { s with state := st } } = c.fresh := by
  have hsites : ((c.sites.modify i fun s => { s with state := st }).map
      fun s => ({ s with state := .unpatched } : PatchSite)) =
      c.sites.map fun s => { s with state := .unpatched } := by
    refine List.ext_getElem? fun j => ?_
    simp only [List.getElem?_map, List.getElem?_modify]
    cases c.sites[j]? with
    | none => rfl
    | some s => by_cases hij : i = j <;> simp [hij]
  unfold fresh
  rw [hsites]

end CompiledMethod

namespace Area

/-- A class that has left its first phase does not go back to it. -/
lemma left_stable (c : Class) : Stable Step fun a => a.phase c ≠ .linked := by
  intro a b hstep hc
  cases hstep with
  | @phase d p next =>
    rw [phase_setPhase]
    split
    · decide
    · split
      · obtain ⟨-, rfl⟩ | ⟨-, rfl | rfl⟩ := next <;> decide
      · exact hc
  | array h =>
    cases h with
    | identity => exact hc
    | array => exact hc
  | _ => exact hc

end Area

namespace Machine

variable {m m' : Machine} {c : Class}

/-- Whether code may run against a class: it is initialized, or its initializer is at work. -/
def Usable (m : Machine) (c : Class) : Prop :=
  m.area.phase c = .initialized ∨ m.area.phase c = .initializing

lemma usable_of_isArray (h : c.isArray = true) : m.Usable c := by
  left
  unfold Area.phase
  rw [if_pos h]

lemma Usable.ne_linked (h : m.Usable c) : m.area.phase c ≠ .linked := by
  rcases h with h | h <;> rw [h] <;> decide

lemma usable_withPhase (m : Machine) (c : Class) : (m.withPhase c .initialized).Usable c := by
  left
  refine (Area.phase_setPhase _ c c _).trans ?_
  simp

/-- A class that is taken to a later phase has left its first. -/
lemma left_withPhase (m : Machine) (c : Class) {p : Phase} (hp : p ≠ .linked) (d : Class)
    (hd : m.area.phase d ≠ .linked) : (m.withPhase c p).area.phase d ≠ .linked := by
  have hphase : (m.withPhase c p).area.phase d = _ := Area.phase_setPhase m.area c d p
  rw [hphase]
  split
  · decide
  · split
    · exact hp
    · exact hd

lemma sound_withPhase (h : m.area.Sound) (c : Class) (p : Phase) :
    (m.withPhase c p).area.Sound :=
  ⟨h.numbered, h.keyed, h.defined, h.named⟩

lemma map_fresh_withState (m : Machine) (id : SiteId) (st : PatchState) :
    (m.withState id st).methods.map CompiledMethod.fresh =
      m.methods.map CompiledMethod.fresh := by
  refine List.ext_getElem? fun n => ?_
  simp only [withState, List.getElem?_map, List.getElem?_modify]
  cases m.methods[n]? with
  | none => rfl
  | some c =>
    by_cases hn : id.method = n
    · simp [hn, CompiledMethod.fresh_modify]
    · simp [hn]

lemma Puts.fresh_eq {b : Builder} {c : CompiledMethod} (h : Puts m b c m') : c.fresh = c := by
  refine CompiledMethod.fresh_of_unpatched fun s hs => ?_
  obtain ⟨p, -, rfl⟩ := List.mem_map.1 (h.sites.mem_iff.1 hs)
  rfl

end Machine

namespace Watch

open Machine (Patched Laid Installed)

variable {α β : Type} {h : List Observation} {m m' : Machine} {id : SiteId} {s : PatchSite}

/-! ### Moves -/

/-- A word that a patcher found for its operand when it was asked. If it had a class initialized
before it returned the word, the class is usable in the machine. -/
def Prepared (h : List Observation) (m : Machine) (patcher : Patcher) (operand : PatchOperand)
    (w : Word) : Prop :=
  ∃ o ∈ h, ∃ target m₁, patchPlan patcher operand o.machine = .ok (target, .ok w) m₁ ∧
    Evolves m₁.resolver m.resolver ∧ ∀ d, target = some d → m.Usable d

lemma Prepared.later {h' : List Observation} {patcher : Patcher} {operand : PatchOperand} {w : Word}
    (hw : Prepared h m patcher operand w) (hkept : ∀ o ∈ h, o ∈ h') :
    Prepared h' m patcher operand w := by
  obtain ⟨o, ho, hplan⟩ := hw
  exact ⟨o, hkept o ho, hplan⟩

/-- A call is seen that compiles a method from its code. -/
def Compiles (o : Observation) (c : CompiledMethod) (code : List Instruction) : Prop :=
  ∃ label method m', o.event = .called (.request (.compile label method code)) ∧
    Machine.compile label method code o.machine = .ok c.fresh m'

/-- What a step of a watched machine does to classes, sites and methods. -/
structure Move (t t' : Watch) : Prop where
  step : Step t t'
  area : t.machine.area.Sound → t'.machine.area.Sound
  /-- No class goes back to its first phase. -/
  left : ∀ c, t.machine.area.phase c ≠ .linked → t'.machine.area.phase c ≠ .linked
  /-- A site is bound with a word that its patcher returned. -/
  prepared : ∀ id s, t'.machine.site? id = some s → s.state = .patched → ¬ t.machine.Patched id →
    ∃ w, t'.machine.word? s.dataAddress = some w ∧
      Prepared t'.history t'.machine s.patcher s.operand w
  /-- Methods come from calls. -/
  methods : ∀ c ∈ t'.machine.methods, (∃ c' ∈ t.machine.methods, c'.fresh = c.fresh) ∨
    ∃ o ∈ t'.history, ∃ code, Compiles o c code

/-- What operations of a watched machine rely on. -/
def AllSound (t : Watch) : Prop := Sound t ∧ t.machine.area.Sound

lemma Move.allSound {t t' : Watch} (hmove : Move t t') (ht : AllSound t) : AllSound t' :=
  ⟨sound_stable t t' hmove.step ht.1, hmove.area ht.2⟩

lemma allSound_stable : Stable Move AllSound := fun _ _ => Move.allSound

lemma mem_history_of_moves {t t' : Watch} (hmoves : ReflTransGen Move t t') {o : Observation}
    (ho : o ∈ t.history) : o ∈ t'.history := by
  have hsaw : Stable Move (Saw t.history) := fun u u' hmove => saw_stable _ u u' hmove.step
  exact (hsaw.reflTransGen hmoves List.prefix_rfl).subset ho

/-- A step that binds no site and installs no method. -/
lemma move_of_step {t t' : Watch} (hstep : Step t t')
    (harea : t.machine.area.Sound → t'.machine.area.Sound)
    (hleft : ∀ c, t.machine.area.phase c ≠ .linked → t'.machine.area.phase c ≠ .linked)
    (hpatched : ∀ id, t'.machine.Patched id → t.machine.Patched id)
    (hmethods : t'.machine.methods.map CompiledMethod.fresh =
      t.machine.methods.map CompiledMethod.fresh) : Move t t' where
  step := hstep
  area := harea
  left := hleft
  prepared id s hs hstate hid := absurd (hpatched id ((Machine.patched_iff hs).2 hstate)) hid
  methods c hc := by
    have hmem : c.fresh ∈ t'.machine.methods.map CompiledMethod.fresh := List.mem_map_of_mem hc
    rw [hmethods] at hmem
    exact .inl (List.mem_map.1 hmem)

lemma move_note {e : Event} (he : Timely h m e) : Move ⟨h, m⟩ ⟨h ++ [⟨e, m⟩], m⟩ :=
  move_of_step (.note he) (fun ha => ha) (fun _ hc => hc) (fun _ hid => hid) rfl

lemma move_elsewhere (hmemory : m'.memory = m.memory) (hmethods : m'.methods = m.methods)
    (harea : m.area.Sound → m'.area.Sound)
    (hleft : ∀ c, m.area.phase c ≠ .linked → m'.area.phase c ≠ .linked) :
    Move ⟨h, m⟩ ⟨h, m'⟩ := by
  refine move_of_step (.elsewhere hmemory hmethods) harea hleft (fun id hid => ?_) ?_
  · unfold Machine.Patched Machine.siteState? at hid ⊢
    rwa [hmethods] at hid
  · exact congrArg (List.map CompiledMethod.fresh) hmethods

/-- A site that is not bound changes between its other states. -/
lemma move_withState {st : PatchState} (hst : st ≠ .patched)
    (hstep : Step ⟨h, m⟩ ⟨h, m.withState id st⟩) : Move ⟨h, m⟩ ⟨h, m.withState id st⟩ :=
  move_of_step hstep (fun ha => ha) (fun _ hc => hc) (fun _ hid => patched_of_withState hst hid)
    (Machine.map_fresh_withState m id st)

/-- A site is bound. -/
lemma move_bind {w : Word} {trap : Nat} {words : Table Nat Word} (hs : m.site? id = some s)
    (hstep : Step ⟨h, m⟩
      ⟨h ++ [⟨.settled trap id (.ok .patched), (m.withWords words).withState id .patched⟩],
        (m.withWords words).withState id .patched⟩)
    (hdata : (m.withWords words).word? s.dataAddress = some w)
    (hw : Prepared h m s.patcher s.operand w) : Move ⟨h, m⟩
      ⟨h ++ [⟨.settled trap id (.ok .patched), (m.withWords words).withState id .patched⟩],
        (m.withWords words).withState id .patched⟩ where
  step := hstep
  area ha := ha
  left _ hc := hc
  prepared id' s' hs' hstate hid' := by
    rcases Machine.site?_withState_cases hs' with ⟨rfl, s₀, hs₀, rfl⟩ | ⟨-, hs'⟩
    · have hs₀ : m.site? id' = some s₀ := hs₀
      rw [hs] at hs₀
      cases hs₀
      exact ⟨w, hdata, hw.later fun o ho => List.mem_append_left _ ho⟩
    · exact absurd ((Machine.patched_iff (m := m) hs').2 hstate) hid'
  methods c hc := by
    have hmem : c.fresh ∈ ((m.withWords words).withState id .patched).methods.map
        CompiledMethod.fresh := List.mem_map_of_mem hc
    rw [Machine.map_fresh_withState] at hmem
    exact .inl (List.mem_map.1 hmem)

/-- A method is installed that a call compiled. -/
lemma move_install {b : Builder} {c : CompiledMethod} (hm : m.Laid) (hputs : m.Puts b c m')
    (harea : m'.area = m.area) (hcalled : ∃ o ∈ h, ∃ code, Compiles o c code) :
    Move ⟨h, m⟩ ⟨h, m'⟩ where
  step := .install (hputs.installed hm)
  area ha := harea ▸ ha
  left _ hd := harea ▸ hd
  prepared _ _ hs hstate hid :=
    absurd (patched_of_installed (hputs.installed hm) ((Machine.patched_iff hs).2 hstate)) hid
  methods c' hc' := by
    have hc' : c' ∈ m.methods ++ [c] := hputs.methods ▸ hc'
    rcases List.mem_append.1 hc' with hc' | hc'
    · exact .inl ⟨c', hc', rfl⟩
    · exact .inr (List.mem_singleton.1 hc' ▸ hcalled)

/-! ### What moves keep -/

/-- Bound sites and methods, with where they came from. -/
structure Justified (t : Watch) : Prop where
  sound : Sound t
  area : t.machine.area.Sound
  /-- A class that had left its first phase is not back in it. -/
  left : ∀ o ∈ t.history, ∀ c, o.machine.area.phase c ≠ .linked →
    t.machine.area.phase c ≠ .linked
  /-- A bound site was bound by a trap, with a word that its patcher returned. -/
  bound : ∀ id s, t.machine.site? id = some s → s.state = .patched →
    ∃ w, t.machine.word? s.dataAddress = some w ∧
      ∃ o ∈ t.history, Binds o.event id ∧ Prepared t.history o.machine s.patcher s.operand w
  /-- A method was compiled by a call. -/
  compiled : ∀ c ∈ t.machine.methods, ∃ o ∈ t.history, ∃ code, Compiles o c code

/-- After a step that notes nothing or something else, a bound site was bound before with the same
word. -/
lemma Step.kept {t t' : Watch} (hstep : Step t t') (ht : Sound t)
    (hs : t'.machine.site? id = some s) (hid : t.machine.Patched id) :
    t.machine.site? id = some s ∧
      t'.machine.word? s.dataAddress = t.machine.word? s.dataAddress := by
  obtain ⟨s₀, hs₀, hstate₀⟩ := Machine.exists_of_patched hid
  -- A change of the state of a site that is not bound does not concern this one.
  have hwithState : ∀ {m₁ : Machine} {id' s' st}, m₁.site? id' = some s' → s'.state ≠ .patched →
      m₁.site? id = some s₀ → (m₁.withState id' st).site? id = some s → m₁.site? id = some s := by
    intro m₁ id' s' st hs' hstate' hs₁ hs
    rcases Machine.site?_withState_cases hs with ⟨rfl, -⟩ | ⟨-, hs⟩
    · rw [hs₁] at hs'
      cases hs'
      exact absurd hstate₀ hstate'
    · exact hs
  have hinstalled : ∀ {m₁ m₂ : Machine}, Installed m₁ m₂ → m₁.site? id = some s₀ →
      m₂.site? id = some s → m₁.site? id = some s ∧
        m₂.word? s.dataAddress = m₁.word? s.dataAddress := by
    intro m₁ m₂ hinstalled hs₁ hs
    obtain ⟨hs₂, -, hdata⟩ := hinstalled.old id s₀ hs₁
    rw [hs] at hs₂
    cases hs₂
    exact ⟨hs₁, hdata⟩
  cases hstep with
  | elsewhere hmemory hmethods => exact hinstalled (ht.laid.installed hmemory hmethods) hs₀ hs
  | install hinst => exact hinstalled hinst hs₀ hs
  | note he => exact ⟨hs, rfl⟩
  | start hs' hstate' _ => exact ⟨hwithState hs' hstate' hs₀ hs, rfl⟩
  | giveUp hs' hstate' => exact ⟨hwithState hs' hstate' hs₀ hs, rfl⟩
  | @bind h m id' s' w trap words hs' hstate' htrap hreturned hcode hdata hothers _ =>
    have hs₁ : (m.withWords words).site? id' = some s' := hs'
    have hsame : m.site? id = some s := hwithState hs₁ hstate' hs₀ hs
    have hne : id ≠ id' := by
      rintro rfl
      rw [hs₀] at hs'
      cases hs'
      exact hstate' hstate₀
    exact ⟨hsame, (hothers id s hne hsame).2⟩

/-- A site that becomes bound is bound by a trap that ends with it. -/
lemma Step.noted_of_bound {t t' : Watch} (hstep : Step t t') (ht : Sound t)
    (hid : t'.machine.Patched id) (hid' : ¬ t.machine.Patched id) :
    ∃ o ∈ t'.history, Binds o.event id ∧ o.machine = t'.machine := by
  cases hstep with
  | elsewhere hmemory hmethods =>
    exact absurd (patched_of_installed (ht.laid.installed hmemory hmethods) hid) hid'
  | install hinstalled => exact absurd (patched_of_installed hinstalled hid) hid'
  | note he => exact absurd hid hid'
  | start => exact absurd (patched_of_withState (by decide) hid) hid'
  | giveUp => exact absurd (patched_of_withState (by decide) hid) hid'
  | @bind h m id' s w trap words hs =>
    have heq : id = id' := by
      by_contra hne
      exact hid' ((Machine.patched_withState_of_ne (m := m.withWords words) hne).1 hid)
    subst heq
    exact ⟨_, List.mem_append_right _ (List.mem_singleton.2 rfl), ⟨trap, rfl⟩, rfl⟩

/-- An observation that a step adds is one of the machine that it leads to. -/
lemma Step.mem_history {t t' : Watch} (hstep : Step t t') {o : Observation}
    (ho : o ∈ t'.history) : o ∈ t.history ∨ o.machine = t'.machine := by
  have happend : ∀ {h : List Observation} {o' : Observation}, o ∈ h ++ [o'] →
      o ∈ h ∨ o.machine = o'.machine := by
    intro h o' ho
    rcases List.mem_append.1 ho with ho | ho
    · exact .inl ho
    · exact .inr (by rw [List.mem_singleton.1 ho])
  cases hstep with
  | note he => exact happend ho
  | bind => exact happend ho
  | _ => exact .inl ho

lemma justified_stable : Stable Move Justified := by
  intro t t' hmove ht
  have hkept : ∀ o ∈ t.history, o ∈ t'.history := fun o ho =>
    (saw_stable t.history t t' hmove.step List.prefix_rfl).subset ho
  refine ⟨sound_stable t t' hmove.step ht.sound, hmove.area ht.area, fun o ho c hc => ?_,
    fun id s hs hstate => ?_, fun c hc => ?_⟩
  · rcases hmove.step.mem_history ho with ho | heq
    · exact hmove.left c (ht.left o ho c hc)
    · rwa [heq] at hc
  · by_cases hid : t.machine.Patched id
    · obtain ⟨hs', hdata⟩ := hmove.step.kept ht.sound hs hid
      obtain ⟨w, hw, o, ho, hbinds, hprepared⟩ := ht.bound id s hs' hstate
      exact ⟨w, hdata.trans hw, o, hkept o ho, hbinds, hprepared.later hkept⟩
    · obtain ⟨w, hw, hprepared⟩ := hmove.prepared id s hs hstate hid
      obtain ⟨o, ho, hbinds, heq⟩ := hmove.step.noted_of_bound ht.sound
        ((Machine.patched_iff hs).2 hstate) hid
      exact ⟨w, hw, o, ho, hbinds, heq ▸ hprepared⟩
  · rcases hmove.methods c hc with ⟨c', hc', heq⟩ | hnew
    · obtain ⟨o, ho, code, label, method, m', hevent, hrun⟩ := ht.compiled c' hc'
      exact ⟨o, hkept o ho, code, label, method, m', hevent, heq ▸ hrun⟩
    · exact hnew

/-! ### Operations -/

section

variable {x : WatchM α} {Q : α → Watch → Prop}

/-- An operation that only makes moves. -/
def Moves (x : WatchM α) (Q : α → Watch → Prop) : Prop := Performs Move AllSound x Q

lemma moves_pure (v : α) : Moves (pure v) fun _ _ => True := Performs.pure fun _ _ => trivial

lemma moves_throw (e : Fault) : Moves (throw e : WatchM α) Q := Performs.throw e

lemma performs_ofExcept {P : Watch → Prop} {v : Except Fault α}
    (hv : ∀ w, v = .ok w → ∀ t, P t → Q w t) : Performs Move P (ofExcept v : WatchM α) Q := by
  cases v with
  | ok v => exact Performs.pure (hv v rfl)
  | error e => exact Performs.throw e

lemma Moves.bind {f : α → WatchM β} {R : β → Watch → Prop} (hx : Moves x Q)
    (hf : ∀ v, Moves (f v) R) : Moves (x >>= f) R :=
  Performs.bind_stable allSound_stable hx fun v =>
    (hf v).weaken (fun _ ht => ht.1) fun _ _ h => h

lemma Moves.attempt (hx : Moves x Q) : Moves (attempt x) fun _ _ => True :=
  (performs_attempt hx).weaken (fun _ ht => ht) fun _ _ _ => trivial

lemma onMachine_eq_ok {y : MachineM α} {v : α} {t t' : Watch} (hrun : onMachine y t = .ok v t') :
    y t.machine = .ok v t'.machine := by
  unfold onMachine at hrun
  split at hrun
  · next hy =>
    cases hrun
    exact hy
  · cases hrun

/-- Work of the resolver, and whatever else leaves the code area and the methods alone. -/
lemma moves_onMachine {y : MachineM α} (hy : Elsewhere y)
    (hevolves : ∀ m : Machine, m.area.Sound → Evolves m.resolver (finalState y m).resolver) :
    Moves (onMachine y) fun v _ => ∃ m m', y m = .ok v m' := by
  intro t ht
  refine ⟨?_, fun v t' hrun => ⟨_, _, onMachine_eq_ok hrun⟩⟩
  have hlater := hevolves t.machine ht.2
  rw [finalState_onMachine]
  refine .single (move_elsewhere (hy t.machine).1 (hy t.machine).2 hlater.sound fun c hc => ?_)
  exact (Area.left_stable c).reflTransGen hlater.area hc

lemma moves_built {y : MachineM α} (hy : Elsewhere y) (hbuilt : Machine.Built true y) :
    Moves (onMachine y) fun v _ => ∃ m m', y m = .ok v m' :=
  moves_onMachine hy fun _ hm => (hbuilt.advances hm).evolves

lemma moves_get : Moves (onMachine get) fun v t => v = t.machine := by
  intro t _
  refine ⟨.refl, ?_⟩
  rintro v t' ⟨⟩
  rfl

lemma moves_setPhase (c : Class) {p : Phase} (hp : p ≠ .linked) :
    Moves (onMachine (Machine.setPhase c p)) fun _ t => p = .initialized → t.machine.Usable c := by
  intro t _
  have hrun : onMachine (Machine.setPhase c p) t =
      .ok () ⟨t.history, t.machine.withPhase c p⟩ := rfl
  rw [finalState_of_ok hrun]
  refine ⟨.single (move_elsewhere rfl rfl (fun ha => Machine.sound_withPhase ha c p)
    (Machine.left_withPhase t.machine c hp)), ?_⟩
  rintro v t' hok rfl
  rw [hrun] at hok
  cases hok
  exact Machine.usable_withPhase t.machine c

/-- What is known while a call is carried out that was just noted. -/
def Heard (c : Call) (t : Watch) : Prop := AllSound t ∧ ⟨.called c, t.machine⟩ ∈ t.history

lemma moves_see {e : Event} (he : ∀ h m, Timely h m e) :
    Moves (see e) fun _ t => ⟨e, t.machine⟩ ∈ t.history := by
  intro t _
  refine ⟨.single (move_note (he _ _)), ?_⟩
  rintro v t' ⟨⟩
  exact List.mem_append_right _ (List.mem_singleton.2 rfl)

lemma moves_during {c : Call} (hx : Performs Move (Heard c) x Q) :
    Moves (during c x) fun _ _ => True := by
  refine Performs.bind_stable allSound_stable
    (moves_see fun _ _ => timely_call (by simp) (by simp)) fun _ => ?_
  refine ((performs_attempt hx).keeping allSound_stable fun _ ht => ht.1).bind fun answer => ?_
  have hended : Moves (see (.ended c)) _ := moves_see fun _ _ => timely_call (by simp) (by simp)
  exact (hended.bind fun _ => performs_ofExcept fun _ _ _ _ => trivial).weaken
    (fun _ ht => ht.1) fun _ _ h => h

/-- A call that compiles a method installs what it compiled. -/
lemma performs_compile (label : String) (method : MethodHandle) (code : List Instruction) :
    Performs Move (Heard (.request (.compile label method code)))
      (onMachine (Machine.compile label method code)) fun _ _ => True := by
  rintro ⟨h, m₀⟩ ⟨ht, hcalled⟩
  rw [finalState_onMachine]
  refine ⟨?_, fun _ _ _ => trivial⟩
  have hemit := (moves_built (elsewhere_onArea (({} : Builder).emitAll code))
    (Machine.built_arrays (Resolver.makesArrays_emitAll _ code)) ⟨h, m₀⟩ ht).1
  rw [finalState_onMachine] at hemit
  unfold Machine.compile
  rw [finalState_bind]
  cases hb : Machine.onArea (({} : Builder).emitAll code) m₀ with
  | error e m =>
    rw [finalState_of_error hb] at hemit
    exact hemit
  | ok b m =>
    rw [finalState_of_ok hb] at hemit
    have hrun := area_of_onArea hb
    have hlaid := (allSound_stable.reflTransGen hemit ht).1.laid
    dsimp only
    rcases Machine.install_puts hlaid (Builder.formed_empty.emitAll hrun) label method with
      ⟨e, hinstall⟩ | ⟨c, m', hinstall, hputs, hresolver⟩
    · rw [finalState_of_error hinstall]
      exact hemit
    · rw [finalState_of_ok hinstall]
      have harea : m'.area = m.area := congrArg Resolver.area hresolver
      refine hemit.tail (move_install hlaid hputs harea ⟨_, hcalled, code, ?_⟩)
      refine ⟨label, method, m', rfl, ?_⟩
      rw [hputs.fresh_eq]
      exact (bind_of_ok hb).trans hinstall

end

/-! ### Traps -/

section

variable {init : Class → WatchM Unit} {trap : Nat}

/-- What initializes a class only makes moves, and leaves the class usable unless it fails. Whatever
happens on the way, the resolver is in a later state in the end. -/
structure Readies (init : Class → WatchM Unit) : Prop where
  moves : ∀ c, Moves (init c) fun _ t => t.machine.Usable c
  evolves : ∀ c t, t.machine.area.Sound →
    Evolves t.machine.resolver (finalState (init c) t).machine.resolver

lemma readies_of_moves {n : Nat}
    (h : ∀ c, Moves (initializeWithin n c) fun _ t => t.machine.Usable c) :
    Readies (initializeWithin n) where
  moves := h
  evolves c t ht := by
    rw [(follows_initializeWithin n c).finalState t]
    exact ((Machine.built_initializeWithin n c).advances ht).evolves

/-- What a trap can rely on while it is dealt with. -/
def BusySound (trap : Nat) (id : SiteId) (s : PatchSite) (t : Watch) : Prop :=
  Busy trap id s t ∧ t.machine.area.Sound

lemma busySound_stable (trap : Nat) (id : SiteId) (s : PatchSite) :
    Stable Move (BusySound trap id s) := fun t t' hmove ht =>
  ⟨busy_stable trap id s t t' hmove.step ht.1, hmove.area ht.2⟩

lemma BusySound.allSound {t : Watch} (ht : BusySound trap id s t) : AllSound t := ⟨ht.1.1, ht.2⟩

/-- What is known while a patcher is at work that was just asked. -/
def Questioned (t : Watch) : Prop := AllSound t ∧ ∃ o ∈ t.history, o.machine = t.machine

/-- A patcher returns its word when the class that it initializes is usable. -/
lemma performs_patchWord (hinit : Readies init) (patcher : Patcher) (operand : PatchOperand) :
    Performs Move Questioned (patchWord init patcher operand)
      fun w t => Prepared t.history t.machine patcher operand w := by
  have hplan : Performs Move Questioned (onMachine (patchPlan patcher operand)) fun v t =>
      AllSound t ∧ ∃ o ∈ t.history, patchPlan patcher operand o.machine = .ok v t.machine := by
    rintro t ⟨ht, o, ho, heq⟩
    have hmoves := (moves_built (elsewhere_patchPlan patcher operand)
      (Machine.built_patchPlan patcher operand) t ht).1
    refine ⟨hmoves, fun v t' hrun => ?_⟩
    have hkept : t'.history = t.history := by
      rw [← finalState_of_ok hrun, finalState_onMachine]
    rw [finalState_of_ok hrun] at hmoves
    refine ⟨allSound_stable.reflTransGen hmoves ht, o, hkept ▸ ho, ?_⟩
    rw [heq]
    exact onMachine_eq_ok hrun
  refine hplan.bind fun (target, word) => ?_
  cases target with
  | none =>
    refine performs_ofExcept fun w hw t ht => ?_
    obtain ⟨-, o, ho, hplan⟩ := ht
    refine ⟨o, ho, none, t.machine, hw ▸ hplan, .refl _, ?_⟩
    rintro d ⟨⟩
  | some c =>
    rintro t ⟨ht, o, ho, hplan⟩
    have hinit : Performs Move (· = t) (init c) fun _ t' => t'.machine.Usable c ∧
        o ∈ t'.history ∧ Evolves t.machine.resolver t'.machine.resolver := by
      rintro _ rfl
      obtain ⟨hmoves, husable⟩ := hinit.moves c _ ht
      refine ⟨hmoves, fun v t' hrun => ⟨husable v t' hrun, ?_, ?_⟩⟩
      · rw [finalState_of_ok hrun] at hmoves
        exact mem_history_of_moves hmoves ho
      · rw [← finalState_of_ok hrun]
        exact hinit.evolves c _ ht.2
    refine hinit.bind (fun _ => ?_) t rfl
    refine performs_ofExcept fun w hw t' ⟨hc, ho', hlater⟩ => ?_
    refine ⟨o, ho', some c, t.machine, hw ▸ hplan, hlater, ?_⟩
    rintro d ⟨⟩
    exact hc

lemma performs_leaving (trap : Nat) (id : SiteId) (s : PatchSite) (f : Fault) :
    Performs Move (BusySound trap id s) (leaveSite trap id f) fun _ _ => True := by
  intro t ht
  refine ⟨?_, fun _ _ _ => trivial⟩
  obtain ⟨st, hs⟩ := ht.1.2.1
  have houtcome : (.error f : Except Fault TrapOutcome) ≠ .ok .patched := by simp
  obtain ⟨m', hrun, ⟨hid, rfl⟩ | ⟨hid, rfl⟩⟩ := leaveSite_cases trap id f t
  · rw [finalState_of_error hrun]
    exact .single (move_note (timely_settled ht.1.2.2 hs (hid.ne_patching hs) houtcome))
  · rw [finalState_of_error hrun]
    have hstep : Step t ⟨t.history, t.machine.withState id .unpatched⟩ :=
      .giveUp hs fun hstate => hid ((Machine.patched_iff hs).2 hstate)
    have hs' := Machine.site?_withState_self hs .unpatched
    refine .head (move_withState (by decide) hstep) (.single (move_note ?_))
    exact timely_settled ht.1.2.2 hs' (fun hstate => by cases hstate) houtcome

/-- A trap binds its site at the moment at which its patcher returned. -/
lemma performs_finishing (trap : Nat) (id : SiteId) (s : PatchSite) (w : Word) :
    Performs Move
      (fun t => BusySound trap id s t ∧ Prepared t.history t.machine s.patcher s.operand w ∧
        ∃ o ∈ t.history, ∃ trap, o.event = .returned trap id w)
      (finishSite trap id s w) fun _ _ => True := by
  rintro t ⟨ht, hprepared, hreturned⟩
  refine ⟨?_, fun _ _ _ => trivial⟩
  obtain ⟨st, hs⟩ := ht.1.2.1
  obtain ⟨hid, hrun⟩ | ⟨hid, words, hrun, hcode, hdata, hothers, hwords⟩ := finishSite_cases ht.1 w
  · rw [finalState_of_ok hrun]
    exact .single (move_note (timely_settled ht.1.2.2 hs (hid.ne_patching hs) (by simp)))
  · rw [finalState_of_ok hrun]
    have hstep := Step.bind hs (fun hstate => hid ((Machine.patched_iff hs).2 hstate)) ht.1.2.2
      hreturned hcode hdata hothers hwords
    exact .single (move_bind hs hstep hdata hprepared)

lemma performs_asking (hinit : Readies init) (trap : Nat) (id : SiteId) (s : PatchSite) :
    Performs Move (fun t => BusySound trap id s t ∧ ∃ o ∈ t.history, o.machine = t.machine)
      (askPatcher init trap id s) fun _ _ => True := by
  have hask := (performs_attempt (performs_patchWord hinit s.patcher s.operand)).weaken
    (fun t (ht : BusySound trap id s t ∧ ∃ o ∈ t.history, o.machine = t.machine) =>
      ⟨ht.1.allSound, ht.2⟩) fun _ _ h => h
  refine (hask.keeping (busySound_stable trap id s) fun _ ht => ht.1).bind fun outcome => ?_
  cases outcome with
  | error f => exact (performs_leaving trap id s f).weaken (fun _ ht => ht.1) fun _ _ h => h
  | ok w =>
    refine Performs.bind (fun t ht => ?_) fun _ => performs_finishing trap id s w
    have hnote : Move t ⟨t.history ++ [⟨.returned trap id w, t.machine⟩], t.machine⟩ :=
      move_note ⟨by simp, by simp, by simp [Binds]⟩
    refine ⟨.single hnote, ?_⟩
    rintro _ _ ⟨⟩
    refine ⟨busySound_stable trap id s _ _ hnote ht.1, ?_, _,
      List.mem_append_right _ (List.mem_singleton.2 rfl), trap, rfl⟩
    exact (ht.2 w rfl).later fun o ho => List.mem_append_left _ ho

lemma performs_trap (hinit : Readies init) (id : SiteId) (s : PatchSite) :
    Performs Move (fun t => AllSound t ∧ t.machine.site? id = some s) (patchSite init id s)
      fun _ _ => True := by
  rintro ⟨h, m⟩ ⟨ht, hs⟩
  refine ⟨?_, fun _ _ _ => trivial⟩
  have htrapped : Move ⟨h, m⟩ ⟨h ++ [⟨.trapped id, m⟩], m⟩ :=
    move_note ⟨by simp, by simp, by simp [Binds]⟩
  refine .head htrapped ?_
  by_cases hid : m.Patched id
  · rw [finalState_congr (patchSite_of_patched hid)]
    exact .single (move_note (timely_settled (by simp) hs (hid.ne_patching hs) (by simp)))
  · rw [finalState_congr (patchSite_of_not_patched hid)]
    obtain ⟨hstart, hasked⟩ := steps_asked ht.1 hs hid
    have hstart : Move _ _ := move_withState (by decide) hstart
    have hasked : Move _ _ := move_of_step hasked (fun ha => ha) (fun _ hc => hc)
      (fun _ hid => hid) rfl
    refine .head hstart (.head hasked ?_)
    refine (performs_asking hinit h.length id s _ ⟨?_, _, List.mem_append_right _
      (List.mem_singleton.2 rfl), rfl⟩).1
    exact busySound_stable _ _ _ _ _ hasked (busySound_stable _ _ _ _ _ hstart
      ⟨busy_trapped ht.1 ⟨s.state, hs⟩, ht.2⟩)

lemma moves_trapWith (hinit : Readies init) (address : Address) :
    Moves (trapWith init address) fun _ _ => True := by
  refine Performs.bind_stable allSound_stable moves_get fun m => ?_
  rintro t ⟨ht, rfl⟩
  cases hc : t.machine.find? address with
  | none => exact moves_pure _ t ht
  | some c =>
    cases hi : c.siteIndex? address with
    | none =>
      simp only [hi]
      exact moves_pure _ t ht
    | some i =>
      cases hs : c.sites[i]? with
      | none =>
        simp only [hi, hs]
        exact moves_pure _ t ht
      | some s =>
        simp only [hi, hs]
        refine performs_trap hinit ⟨c.number, i⟩ s t ⟨ht, ?_⟩
        simp [Machine.site?, method_of_find? ht.1.laid hc, hs]

lemma moves_executeWith (hinit : Readies init) (address : Address) :
    Moves (executeWith init address) fun _ _ => True := by
  refine moves_get.bind fun m => ?_
  cases m.find? address with
  | none => exact moves_pure _
  | some c =>
    have helsewhere : ∀ w, Elsewhere (do return some (← Machine.fetched c.entry address w)) :=
      fun w => (elsewhere_fetched _ _ w).bind fun _ => elsewhere_pure _
    have hbuilt : ∀ w, Machine.Built true (do return some (← Machine.fetched c.entry address w)) :=
      fun w => .bind (Machine.built_fetched _ _ w) fun _ => .pure _
    refine (moves_built (elsewhere_read address) (Machine.built_read address)).bind fun w => ?_
    split
    · refine (moves_trapWith hinit address).bind fun outcome => ?_
      split
      · exact moves_pure _
      · exact (moves_built ((elsewhere_read address).bind helsewhere)
          (.bind (Machine.built_read address) hbuilt)).weaken (fun _ ht => ht) fun _ _ _ => trivial
    · exact (moves_built (helsewhere w) (hbuilt w)).weaken (fun _ ht => ht) fun _ _ _ => trivial

lemma performs_serve (hinit : Readies init) (r : Request) :
    Performs Move (Heard (.request r)) (serve init r) fun _ _ => True := by
  have hany : ∀ {α : Type} {y : WatchM α} {Q : α → Watch → Prop}, Moves y Q →
      Performs Move (Heard (.request r)) y fun _ _ => True := fun hy =>
    hy.weaken (fun _ ht => ht.1) fun _ _ _ => trivial
  have hbuilt : ∀ r, Machine.Built true (Machine.serve (fun _ => pure ()) r) :=
    Machine.built_serve fun _ => .pure ()
  cases r with
  | start c => exact hany (hinit.moves c)
  | trap address => exact hany (moves_trapWith hinit address)
  | execute address => exact hany (moves_executeWith hinit address)
  | compile label method code => exact performs_compile label method code
  | load l name => exact hany (moves_built (elsewhere_onArea (Area.load l name)) (hbuilt _))
  | define l d => exact hany (moves_built (elsewhere_define l d) (hbuilt (.define l d)))
  | phase c => exact hany (moves_built (fun _ => ⟨rfl, rfl⟩) (hbuilt (.phase c)))
  | code label => exact hany (moves_built (fun _ => ⟨rfl, rfl⟩) (hbuilt (.code label)))
  | siteState n a => exact hany (moves_built (fun _ => ⟨rfl, rfl⟩) (hbuilt (.siteState n a)))
  | unload n => exact hany (moves_built (fun _ => ⟨rfl, rfl⟩) (hbuilt (.unload n)))

/-! ### Initializers -/

lemma moves_runProgram (hinit : Readies init) (p : Program) :
    Moves (runProgram init p) fun _ _ => True := by
  induction p with
  | done => exact moves_pure ()
  | fail f => exact moves_throw f
  | note text p ih =>
    refine (moves_onMachine (y := Machine.note text) (fun _ => ⟨rfl, rfl⟩) fun m _ => ?_).bind
      fun _ => ih
    exact .refl m.resolver
  | call r k ih => exact (moves_during (performs_serve hinit r)).attempt.bind ih

lemma moves_runInitializer (hinit : Readies init) (c : Class) :
    Moves (runInitializer init c) fun _ _ => True := by
  refine moves_get.bind fun m => ?_
  cases m.programOf? c with
  | none => exact moves_pure ()
  | some p =>
    refine (moves_runProgram hinit p).attempt.bind fun outcome => ?_
    cases outcome with
    | ok v => exact moves_pure ()
    | error f => exact moves_throw _

/-- A class that is entered without a fault is usable. -/
lemma moves_enterClass {body : WatchM Unit} (hbody : Moves body fun _ _ => True) (c : Class) :
    Moves (enterClass c body) fun _ t => t.machine.Usable c := by
  refine Performs.bind_stable allSound_stable moves_get fun m => ?_
  rintro t ⟨ht, rfl⟩
  cases hphase : t.machine.area.phase c with
  | initialized => exact Performs.pure (P := (· = t)) (fun _ h => h ▸ .inl hphase) t rfl
  | initializing => exact Performs.pure (P := (· = t)) (fun _ h => h ▸ .inr hphase) t rfl
  | erroneous => exact moves_throw _ t ht
  | linked =>
    refine ((moves_setPhase c (p := .initializing) (by decide)).bind fun _ => ?_) t ht
    refine hbody.attempt.bind fun outcome => ?_
    cases outcome with
    | ok v =>
      exact (moves_setPhase c (p := .initialized) (by decide)).weaken (fun _ ht => ht)
        fun _ _ h => h rfl
    | error f => exact (moves_setPhase c (p := .erroneous) (by decide)).bind fun _ => moves_throw f

lemma moves_initializeBy {run : Class → WatchM Unit} (hrun : ∀ c, Moves (run c) fun _ _ => True) :
    ∀ c, Moves (initializeBy run c) fun _ t => t.machine.Usable c
  | .root d => moves_enterClass (hrun _) _
  | .derived d s is => by
    refine moves_enterClass ?_ _
    split
    · exact (moves_initializeBy hrun s).bind fun _ => hrun _
    · exact hrun _
  | .primitiveArray .. => Performs.pure fun _ _ => Machine.usable_of_isArray rfl
  | .array .. => Performs.pure fun _ _ => Machine.usable_of_isArray rfl

lemma moves_initializeWithin (n : Nat) (c : Class) :
    Moves (initializeWithin n c) fun _ t => t.machine.Usable c := by
  induction n generalizing c with
  | zero =>
    refine moves_initializeBy (fun c => ?_) c
    refine moves_get.bind fun m => ?_
    split
    · exact moves_throw _
    · exact moves_pure ()
  | succ n ih => exact moves_initializeBy (moves_runInitializer (readies_of_moves ih)) c

lemma readies_initializeWithin (n : Nat) : Readies (initializeWithin n) :=
  readies_of_moves (moves_initializeWithin n)

lemma readies_initializeClass : Readies initializeClass where
  moves c := moves_get.bind fun _ => moves_initializeWithin _ c
  evolves c t ht := by
    rw [(follows_initializeClass c).finalState t]
    exact ((Machine.built_initializeClass c).advances ht).evolves

lemma Initializes.readies {init' : Class → MachineM Unit} (h : Initializes init init') :
    Readies init := by
  cases h with
  | outside => exact readies_initializeClass
  | inside n => exact readies_initializeWithin n

end

/-! ### Runs -/

lemma moves_perform {c : Call} (hc : c.setsPhase = false) : Moves (perform c) fun _ _ => True := by
  cases c with
  | request r => exact moves_during (performs_discard (performs_serve readies_initializeClass r))
  | register p =>
    refine moves_during ((moves_onMachine (fun m => ?_) fun m _ => ?_).weaken (fun _ ht => ht.1)
      fun _ _ h => h)
    · rw [Call.perform, finalState_discard]
      exact ⟨rfl, rfl⟩
    · rw [Call.perform, finalState_discard]
      exact .refl _
  | operate op =>
    refine moves_during ((moves_onMachine (elsewhere_onResolver _) fun m hm => ?_).weaken
      (fun _ ht => ht.1) fun _ _ h => h)
    rw [Machine.finalState_onResolver]
    exact op.evolves hm (orderly_of_setsPhase hc _)

lemma moves_after {calls : List Call} (hcalls : ∀ c ∈ calls, c.setsPhase = false) {t : Watch}
    (ht : AllSound t) : ReflTransGen Move t (t.after calls) := by
  induction calls generalizing t with
  | nil => exact .refl
  | cons c cs ih =>
    have hfirst := (moves_perform (hcalls c List.mem_cons_self) t ht).1
    exact hfirst.trans (ih (fun c' hc' => hcalls c' (List.mem_cons_of_mem _ hc'))
      (allSound_stable.reflTransGen hfirst ht))

end Watch

end Linkage
