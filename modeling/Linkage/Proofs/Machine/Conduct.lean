import Linkage.Proofs.Machine.Protocol

/-!
# Initializations follow the protocol

Whatever initializers do, and however they are nested, a machine with a journal only takes the steps
that keep the protocol of initialization. `Acts busy P x Q` is the form in which its operations are
described: from a journal with `P` the operation `x` goes through a number of steps, in which no
initializer of the busy classes starts, and its outcome satisfies `Q`, whether it fails or not.

Inside the initialization of some classes these and no others are in the phase of being
initialized. That is not so in between, but so again whenever an operation ends.
-/

namespace Linkage

open Relation
open Resolver (Evolves)

namespace Journal

variable {α β : Type} {busy outer : List Class} {j j' : Journal} {m m' : Machine}
  {es : List Entry} {c : Class} {n : Nat}

/-! ### Steps -/

lemma Step.evolves (h : Step busy j j') :
    ReflTransGen Area.Step j.machine.area j'.machine.area := by
  cases h with
  | work advances => exact advances.evolves.area
  | move next => exact .single (.phase (Phase.next_iff.1 next))
  | _ => exact .refl

lemma Step.entries_prefix (h : Step busy j j') : j.entries <+: j'.entries := by
  cases h with
  | work advances => exact List.prefix_rfl
  | _ => exact List.prefix_append _ _

lemma Step.supplies (h : Step busy j j') : Machine.Supplies j.machine j'.machine := by
  cases h with
  | work advances => exact advances.initializers
  | move next => exact .of_kept rfl fun _ hj => hj.of_loaders rfl
  | _ => exact .of_kept rfl fun _ hj => hj

/-- Steps that leave more initializers alone leave fewer alone. -/
lemma Step.weaken (h : Step (c :: outer) j j') : Step outer j j' := by
  cases h with
  | work advances => exact .work advances
  | move next => exact .move next
  | call sane => exact .call sane
  | refuse erroneous => exact .refuse erroneous
  | start idle entered first superclass =>
    exact .start (fun d hd => idle d (List.mem_cons_of_mem _ hd)) entered first superclass
  | succeed settled => exact .succeed settled
  | fail erroneous kind => exact .fail erroneous kind

lemma sound_stable (busy : List Class) : Stable (Step busy) fun j => j.machine.area.Sound :=
  fun _ _ h hj => Area.sound_stable.reflTransGen h.evolves hj

lemma Step.genuine (h : Step busy j j') (hj' : j'.Genuine) : j.Genuine :=
  fun e he => hj' e (h.entries_prefix.subset he)

/-! ### What is known of the journal -/

/-- Unless a class was to be initialized that is not there, at most so many initializers can still
start. -/
def Roomy (n : Nat) (j : Journal) : Prop :=
  j.machine.area.Sound ∧ (j.Genuine → j.machine.Room n)

lemma roomy_stable (n : Nat) : Stable (Step busy) (Roomy n) := fun j j' h hj =>
  ⟨sound_stable busy j j' h hj.1, fun hgenuine =>
    (hj.2 (h.genuine hgenuine)).of_steps hj.1 h.evolves h.supplies⟩

/-- The initializer of the class has not started. -/
def Unstarted (c : Class) (j : Journal) : Prop :=
  ∀ e ∈ j.entries, ∀ d, e.milestone = .started d → d.id ≠ c.id

/-- An initializer that has started was started before, or it belongs to a class that is none of the
busy ones and has been entered. -/
lemma Step.started (h : Step busy j j') {e : Entry} (he : e ∈ j'.entries)
    (hc : e.milestone = .started c) : e ∈ j.entries ∨
      (∀ d ∈ busy, d.id ≠ c.id) ∧ j'.machine.area.phase c = .initializing := by
  cases h with
  | work => exact .inl he
  | start idle entered =>
    rcases List.mem_append.1 he with he | he
    · exact .inl he
    · obtain rfl := List.mem_singleton.1 he
      cases hc
      exact .inr ⟨idle, entered⟩
  | refuse =>
    simp only [List.mem_append, List.mem_cons, List.not_mem_nil, or_false] at he
    rcases he with he | rfl | rfl
    · exact .inl he
    · cases hc
    · cases hc
  | _ =>
    rcases List.mem_append.1 he with he | he
    · exact .inl he
    · obtain rfl := List.mem_singleton.1 he
      cases hc

lemma unstarted_stable (hc : c ∈ busy) : Stable (Step busy) (Unstarted c) := by
  intro j j' h hj e he d hd
  rcases h.started he hd with he | ⟨hidle, -⟩
  · exact hj e he d hd
  · exact (hidle c hc).symm

/-! ### What operations do -/

lemma attempt_congr {x y : JournalM α} (h : x j = y j') : attempt x j = attempt y j' := by
  unfold attempt
  rw [h]

lemma attempt_of_error {x : JournalM α} {e : Fault} (h : x j = .error e j') :
    attempt x j = .ok (.error e) j' := by
  unfold attempt
  rw [h]

/-- From a journal with `P` the operation takes steps in which no initializer of the busy classes
starts, and its outcome satisfies `Q`. -/
def Acts (busy : List Class) (P : Journal → Prop) (x : JournalM α)
    (Q : Except Fault α → Journal → Prop) : Prop :=
  ∀ j, P j → ∃ v j', attempt x j = .ok v j' ∧ ReflTransGen (Step busy) j j' ∧ Q v j'

/-- The operation succeeds with a value that satisfies `Q`. -/
def sure (Q : α → Journal → Prop) : Except Fault α → Journal → Prop
  | .ok v, j => Q v j
  | .error _, _ => False

section

variable {P : Journal → Prop} {Q : Except Fault α → Journal → Prop}
  {R : Except Fault β → Journal → Prop} {x : JournalM α} {f : α → JournalM β}

lemma acts_pure {v : α} (h : ∀ j, P j → Q (.ok v) j) : Acts busy P (pure v) Q :=
  fun j hj => ⟨.ok v, j, rfl, .refl, h j hj⟩

lemma acts_throw {e : Fault} (h : ∀ j, P j → Q (.error e) j) :
    Acts busy P (throw e : JournalM α) Q :=
  fun j hj => ⟨.error e, j, rfl, .refl, h j hj⟩

lemma Acts.weaken {P' : Journal → Prop} {Q' : Except Fault α → Journal → Prop}
    (h : Acts busy P x Q) (hP : ∀ j, P' j → P j) (hQ : ∀ v j, Q v j → Q' v j) :
    Acts busy P' x Q' := by
  intro j hj
  obtain ⟨v, j', hrun, hsteps, hq⟩ := h j (hP j hj)
  exact ⟨v, j', hrun, hsteps, hQ v j' hq⟩

/-- What no step can undo still holds in the end. -/
lemma Acts.keeping {P' : Journal → Prop} (h : Acts busy P x Q) (hP' : Stable (Step busy) P') :
    Acts busy (fun j => P j ∧ P' j) x fun v j => Q v j ∧ P' j := by
  intro j hj
  obtain ⟨v, j', hrun, hsteps, hq⟩ := h j hj.1
  exact ⟨v, j', hrun, hsteps, hq, hP'.reflTransGen hsteps hj.2⟩

lemma Acts.inside (h : Acts (c :: outer) P x Q) : Acts outer P x Q := by
  intro j hj
  obtain ⟨v, j', hrun, hsteps, hq⟩ := h j hj
  exact ⟨v, j', hrun, ReflTransGen.mono (fun _ _ hstep => hstep.weaken) _ _ hsteps, hq⟩

lemma Acts.bind (hx : Acts busy P x Q) (hf : ∀ v, Acts busy (Q (.ok v)) (f v) R)
    (herror : ∀ e j, Q (.error e) j → R (.error e) j) : Acts busy P (x >>= f) R := by
  intro j hj
  obtain ⟨v, j', hrun, hsteps, hq⟩ := hx j hj
  unfold attempt at hrun
  cases hx : x j with
  | ok w j₁ =>
    rw [hx] at hrun
    cases hrun
    obtain ⟨v, j₂, hrun, hsteps', hr⟩ := hf w j' hq
    refine ⟨v, j₂, ?_, hsteps.trans hsteps', hr⟩
    rw [attempt_congr (bind_of_ok hx), hrun]
  | error e j₁ =>
    rw [hx] at hrun
    cases hrun
    exact ⟨.error e, j', attempt_of_error (bind_of_error hx), hsteps, herror e j' hq⟩

lemma Acts.sure_bind {Q : α → Journal → Prop} (hx : Acts busy P x (sure Q))
    (hf : ∀ v, Acts busy (Q v) (f v) R) : Acts busy P (x >>= f) R :=
  hx.bind hf fun _ _ h => h.elim

/-- An operation that is told the outcome of another. -/
lemma Acts.attempt_bind {f : Except Fault α → JournalM β} (hx : Acts busy P x Q)
    (hf : ∀ v, Acts busy (Q v) (f v) R) : Acts busy P (attempt x >>= f) R := by
  intro j hj
  obtain ⟨v, j₁, hrun, hsteps, hq⟩ := hx j hj
  obtain ⟨w, j₂, hrun', hsteps', hr⟩ := hf v j₁ hq
  refine ⟨w, j₂, ?_, hsteps.trans hsteps', hr⟩
  rw [attempt_congr (bind_of_ok hrun), hrun']

lemma Acts.get_bind {f : Machine → JournalM α}
    (hf : ∀ m, Acts busy (fun j => P j ∧ j.machine = m) (f m) Q) :
    Acts busy P (onMachine get >>= f) Q := by
  intro j hj
  obtain ⟨v, j', hrun, hsteps, hq⟩ := hf j.machine j ⟨hj, rfl⟩
  exact ⟨v, j', hrun, hsteps, hq⟩

end

/-! ### Inside the initialization of classes -/

/-- What holds inside the initialization of the given classes: they and no others are being
initialized, their loaders have them, and no class for which an initializer has started is merely
linked. -/
structure Ready (outer : List Class) (j : Journal) : Prop where
  sound : j.machine.area.Sound
  busy : ∀ c, j.machine.area.phase c = .initializing ↔
    c.isArray = false ∧ ∃ d ∈ outer, d.id = c.id
  left : ∀ e ∈ j.entries, ∀ c, e.milestone = .started c →
    c.isArray = false ∧ j.machine.area.phase c ≠ .linked
  owned : j.Genuine → ∀ c ∈ outer, c.isArray = false ∧ j.machine.area.Owned c

/-- What operations inside the initialization of classes rely on. -/
def Inside (outer : List Class) (P : Journal → Prop) (j : Journal) : Prop := Ready outer j ∧ P j

/-- A machine that works on without any class going on. -/
lemma Ready.work (h : Ready outer ⟨es, m⟩) (hm : Evolves m.resolver m'.resolver)
    (hphases : ∀ c, m'.area.phase c = m.area.phase c) : Ready outer ⟨es, m'⟩ where
  sound := hm.sound h.sound
  busy c := by
    change m'.area.phase c = .initializing ↔ _
    rw [hphases c]
    exact h.busy c
  left e he c hc := by
    refine (h.left e he c hc).imp_right fun hleft => ?_
    change m'.area.phase c ≠ .linked
    rwa [hphases c]
  owned hgenuine c hc := (h.owned hgenuine c hc).imp_right (Area.kept_of_steps hm.area h.sound)

/-- An entry that tells of no initializer that starts. -/
lemma Ready.note (h : Ready outer ⟨es, m⟩) {e : Entry} (he : ∀ c, e.milestone ≠ .started c) :
    Ready outer ⟨es ++ [e], m⟩ where
  sound := h.sound
  busy := h.busy
  left e' he' c hc := by
    rcases List.mem_append.1 he' with he' | he'
    · exact h.left e' he' c hc
    · obtain rfl := List.mem_singleton.1 he'
      exact absurd hc (he c)
  owned hgenuine := h.owned fun e he => hgenuine e (List.mem_append_left _ he)

/-- A class is entered inside the others. -/
lemma Ready.enter (h : Ready outer ⟨es, m⟩) (hc : m.area.phase c = .linked)
    (howned : Genuine ⟨es, m⟩ → m.area.Owned c) :
    Ready (c :: outer) ⟨es, m.withPhase c .initializing⟩ where
  sound := Area.sound_stable _ _ (.phase (.inl ⟨hc, rfl⟩)) h.sound
  busy d := by
    have harray : c.isArray = false := Area.isArray_of_phase (a := m.area) (by simp [hc])
    have hbusy := h.busy d
    change m.area.phase d = .initializing ↔ _ at hbusy
    change (m.withPhase c .initializing).area.phase d = .initializing ↔ _
    rw [Machine.phase_withPhase]
    cases hd : d.isArray with
    | true => simp
    | false =>
      by_cases hid : c.id = d.id
      · simp [hid]
      · simpa [hd, hid] using hbusy
  left e he d hd :=
    (h.left e he d hd).imp_right fun hleft => Area.left_stable d _ _ (.phase (.inl ⟨hc, rfl⟩)) hleft
  owned hgenuine d hd := by
    rcases List.mem_cons.1 hd with rfl | hd
    · exact ⟨Area.isArray_of_phase (a := m.area) (by simp [hc]), howned hgenuine⟩
    · exact h.owned hgenuine d hd

/-- The innermost class goes on to its last phase. -/
lemma Ready.leave (h : Ready (c :: outer) ⟨es, m⟩) (hidle : ∀ d ∈ outer, d.id ≠ c.id)
    (hc : m.area.phase c = .initializing) {p : Phase} (hp : p = .initialized ∨ p = .erroneous) :
    Ready outer ⟨es, m.withPhase c p⟩ where
  sound := Area.sound_stable _ _ (.phase (.inr ⟨hc, hp⟩)) h.sound
  busy d := by
    have hbusy := h.busy d
    change m.area.phase d = .initializing ↔ _ at hbusy
    change (m.withPhase c p).area.phase d = .initializing ↔ _
    rw [Machine.phase_withPhase]
    cases hd : d.isArray with
    | true => simp
    | false =>
      by_cases hid : c.id = d.id
      · have hidle : ∀ e ∈ outer, ¬e.id = d.id := fun e he => hid ▸ hidle e he
        rcases hp with rfl | rfl <;> simpa [hid] using hidle
      · simpa [hd, hid] using hbusy
  left e he d hd :=
    (h.left e he d hd).imp_right fun hleft => Area.left_stable d _ _ (.phase (.inr ⟨hc, hp⟩)) hleft
  owned hgenuine d hd := h.owned hgenuine d (List.mem_cons_of_mem _ hd)

/-- A class that is merely linked is none of those that are being initialized. -/
lemma Ready.idle (h : Ready outer j) (hc : j.machine.area.phase c = .linked) :
    ∀ d ∈ outer, d.id ≠ c.id := by
  intro d hd hid
  have harray : c.isArray = false := Area.isArray_of_phase (a := j.machine.area) (by simp [hc])
  have hbusy := (h.busy c).2 ⟨harray, d, hd, hid⟩
  rw [hc] at hbusy
  cases hbusy

/-- No initializer has started for a class that is merely linked. -/
lemma Ready.unstarted (h : Ready outer j) (hc : j.machine.area.phase c = .linked) :
    Unstarted c j := by
  intro e he d hd hid
  have harray : c.isArray = false := Area.isArray_of_phase (a := j.machine.area) (by simp [hc])
  obtain ⟨hd, hleft⟩ := h.left e he d hd
  exact hleft ((Area.phase_congr hid (hd.trans harray.symm)).trans hc)

section

variable {P : Journal → Prop} {x : MachineM α}

lemma acts_onMachine (hP : Stable (Step busy) P) (hx : Machine.Built false x) :
    Acts busy (Inside outer P) (onMachine x) fun _ j => Inside outer P j := by
  rintro ⟨es, m⟩ ⟨hready, hj⟩
  have hadvances := hx.advances (m := m) hready.sound
  have hstep : Step busy ⟨es, m⟩ ⟨es, finalState x m⟩ := .work hadvances
  have hend : Inside outer P ⟨es, finalState x m⟩ :=
    ⟨hready.work hadvances.evolves hadvances.phase_eq, hP _ _ hstep hj⟩
  unfold finalState at hstep hend
  unfold attempt onMachine
  cases h : x m with
  | ok v m' =>
    rw [h] at hstep hend
    exact ⟨_, _, rfl, .single hstep, hend⟩
  | error e m' =>
    rw [h] at hstep hend
    exact ⟨_, _, rfl, .single hstep, hend⟩

/-- What is known of the values of an operation. -/
lemma Acts.values {Q : Except Fault α → Journal → Prop} {R : α → Prop}
    (h : Acts busy P (onMachine x) Q) (hx : ∀ m v m', x m = .ok v m' → R v) :
    Acts busy P (onMachine x) fun v j => Q v j ∧ ∀ w, v = .ok w → R w := by
  intro j hj
  obtain ⟨v, j', hrun, hsteps, hq⟩ := h j hj
  refine ⟨v, j', hrun, hsteps, hq, ?_⟩
  rintro w rfl
  unfold attempt onMachine at hrun
  cases hm : x j.machine with
  | ok u m' =>
    rw [hm] at hrun
    cases hrun
    exact hx _ _ _ hm
  | error e m' =>
    rw [hm] at hrun
    cases hrun

end

/-! ### From one phase to the next -/

/-- The class has been entered. Its initializer, if it has one, took some of the room there was. -/
structure Entered (n : Nat) (c : Class) (j : Journal) : Prop where
  roomy : Roomy n j
  taken : j.Genuine → c.data.initializer.isSome → ∃ k, n = k + 1 ∧ j.machine.Room k
  unstarted : Unstarted c j

lemma entered_stable (hc : c ∈ busy) : Stable (Step busy) (Entered n c) := by
  intro j j' h hj
  refine ⟨roomy_stable n j j' h hj.roomy, fun hgenuine hsome => ?_,
    unstarted_stable hc j j' h hj.unstarted⟩
  obtain ⟨k, hk, hroom⟩ := hj.taken (h.genuine hgenuine) hsome
  exact ⟨k, hk, hroom.of_steps hj.roomy.1 h.evolves h.supplies⟩

/-- The class is to be initialized, and nothing happened since this was said. -/
def Heard (outer : List Class) (c : Class) (j : Journal) : Prop :=
  ⟨.called c, outer, j.machine⟩ ∈ j.entries

/-- A class that is to be initialized is one that its loader has. -/
lemma Ready.owned_of_heard (h : Ready outer j) (hroomy : Roomy n j) (hheard : Heard outer c j)
    (hc : j.machine.area.phase c = .linked) (hgenuine : j.Genuine) :
    j.machine.area.Owned c := by
  rcases hgenuine _ hheard c rfl hc with howned | ⟨d, hd, hsuper⟩
  · exact howned
  · obtain ⟨harray, hd⟩ := h.owned hgenuine d (List.mem_of_mem_head? hd)
    exact (hroomy.2 hgenuine).above hd harray hsuper
      (Area.isArray_of_phase (a := j.machine.area) (by simp [hc]))

/-- How an attempt to initialize a class may end. -/
def Answer (outer : List Class) (c : Class) : Except Fault Unit → Journal → Prop
  | .ok _, j => j.machine.Settled outer c
  | .error f, j => j.machine.area.phase c = .erroneous ∧
    (j.Genuine → f.kind = .inInitializer ∨ f.kind = .noClassDefFound)

/-- How what is done to initialize a class may end. -/
def Outcome : Except Fault Unit → Journal → Prop
  | .ok _, _ => True
  | .error f, j => j.Genuine → f.kind = .inInitializer ∨ f.kind = .noClassDefFound

lemma attempt_setPhase (within : List Class) (c : Class) (p : Phase) :
    attempt (setPhase within c p) ⟨es, m⟩ =
      .ok (.ok ()) ⟨es ++ [⟨.moved c, within, m.withPhase c p⟩], m.withPhase c p⟩ := rfl

/-- A class is entered. -/
lemma acts_enter (outer : List Class) (c : Class) (n : Nat) :
    Acts outer
      (fun j => Inside outer (Roomy n) j ∧ Heard outer c j ∧ j.machine.area.phase c = .linked)
      (setPhase (c :: outer) c .initializing)
      (sure fun _ j => Inside (c :: outer) (Entered n c) j) := by
  rintro ⟨es, m⟩ ⟨⟨hready, hroomy⟩, hheard, hlinked⟩
  have howned := hready.owned_of_heard hroomy hheard hlinked
  have hstep : Step outer ⟨es, m⟩ ⟨es ++ [⟨.moved c, c :: outer, m.withPhase c .initializing⟩],
      m.withPhase c .initializing⟩ := .move (hlinked ▸ .enter)
  refine ⟨_, _, attempt_setPhase .., .single hstep, (hready.enter hlinked howned).note (by simp),
    roomy_stable n _ _ hstep hroomy, fun hgenuine hsome => ?_, ?_⟩
  · have hgenuine := hstep.genuine hgenuine
    exact (hroomy.2 hgenuine).enter (howned hgenuine) hlinked hsome
  · intro e he d hd
    rcases List.mem_append.1 he with he | he
    · exact hready.unstarted hlinked e he d hd
    · obtain rfl := List.mem_singleton.1 he
      cases hd

/-- A class goes on to its last phase. -/
lemma acts_leave (hidle : ∀ d ∈ outer, d.id ≠ c.id) (harray : c.isArray = false) {p : Phase}
    (hp : p = .initialized ∨ p = .erroneous) {P : Journal → Prop} (hP : Stable (Step outer) P) :
    Acts outer (Inside (c :: outer) P) (setPhase (c :: outer) c p)
      (sure fun _ j => Inside outer P j ∧ j.machine.area.phase c = p) := by
  rintro ⟨es, m⟩ ⟨hready, hj⟩
  have hbusy : m.area.phase c = .initializing := (hready.busy c).2 ⟨harray, c, by simp⟩
  have hstep : Step outer ⟨es, m⟩ ⟨es ++ [⟨.moved c, c :: outer, m.withPhase c p⟩],
      m.withPhase c p⟩ := .move (Phase.next_iff.2 (.inr ⟨hbusy, hp⟩))
  refine ⟨_, _, attempt_setPhase .., .single hstep,
    ⟨(hready.leave hidle hbusy hp).note (by simp), hP _ _ hstep hj⟩, ?_⟩
  change (m.withPhase c p).area.phase c = p
  simp [Machine.phase_withPhase, harray]

/-! ### Initializing a class -/

/-- Inside the initialization of the given classes, an attempt to initialize a class ends with an
answer. -/
def Initializes (n : Nat) (outer : List Class) (c : Class) (x : JournalM Unit) : Prop :=
  Acts outer (Inside outer (Roomy n)) x fun v j => Inside outer (Roomy n) j ∧ Answer outer c v j

/-- The superclass of a class that is no interface is initialized, or this happens in its
initialization. -/
def SuperSettled (within : List Class) (c : Class) (j : Journal) : Prop :=
  c.isInterface = false → ∀ s, c.superclass? = some s → j.machine.Settled within s

/-- Runs the initializer of a class inside the initialization of the class, and that inside the
initialization of others. -/
def Initiates (n : Nat) (outer : List Class) (c : Class) (x : JournalM Unit) : Prop :=
  (∀ d ∈ outer, d.id ≠ c.id) → c.isArray = false →
    Acts outer (fun j => Inside (c :: outer) (Entered n c) j ∧ SuperSettled (c :: outer) c j) x
      fun v j => Inside (c :: outer) (Roomy n) j ∧ Outcome v j

lemma outcome_stable (busy : List Class) (v : Except Fault Unit) :
    Stable (Step busy) (Outcome v) := by
  intro j j' h hj
  cases v with
  | ok => trivial
  | error f => exact fun hgenuine => hj (h.genuine hgenuine)

/-- A class that is not erroneous is initialized by what is done inside its initialization. -/
lemma acts_enterClass {body : JournalM Unit}
    (hbody : (∀ d ∈ outer, d.id ≠ c.id) → c.isArray = false →
      Acts outer (Inside (c :: outer) (Entered n c)) body
        fun v j => Inside (c :: outer) (Roomy n) j ∧ Outcome v j) :
    Acts outer
      (fun j => Inside outer (Roomy n) j ∧ Heard outer c j ∧ j.machine.area.phase c ≠ .erroneous)
      (enterClass outer c body)
      fun v j => Inside outer (Roomy n) j ∧ Answer outer c v j := by
  refine Acts.get_bind fun m => ?_
  cases hphase : m.area.phase c with
  | initialized =>
    rintro j ⟨⟨hinside, -⟩, rfl⟩
    exact acts_pure (fun _ h => h) j ⟨hinside, .inl hphase⟩
  | initializing =>
    rintro j ⟨⟨hinside, -⟩, rfl⟩
    exact acts_pure (fun _ h => h) j
      ⟨hinside, .inr ⟨hphase, ((hinside.1.busy c).1 hphase).2⟩⟩
  | erroneous =>
    rintro j ⟨⟨-, -, hsane⟩, rfl⟩
    exact absurd hphase hsane
  | linked =>
    rintro j ⟨⟨hinside, hheard, -⟩, rfl⟩
    have harray : c.isArray = false :=
      Area.isArray_of_phase (a := j.machine.area) (by simp [hphase])
    have hidle := hinside.1.idle hphase
    refine (acts_enter outer c n).sure_bind (fun _ => ?_) j ⟨hinside, hheard, hphase⟩
    refine (hbody hidle harray).attempt_bind fun v => ?_
    have hstable := (roomy_stable n).and (outcome_stable outer v)
    cases v with
    | ok v =>
      refine (acts_leave hidle harray (.inl rfl) hstable).weaken
        (fun j hj => ⟨hj.1.1, hj.1.2, hj.2⟩) fun w j hj => ?_
      cases w with
      | ok w => exact ⟨⟨hj.1.1, hj.1.2.1⟩, .inl hj.2⟩
      | error f => exact hj.elim
    | error f =>
      refine ((acts_leave hidle harray (.inr rfl) hstable).weaken
        (fun j hj => ⟨hj.1.1, hj.1.2, hj.2⟩) fun _ _ hj => hj).sure_bind fun _ => ?_
      exact acts_throw fun j hj => ⟨⟨hj.1.1, hj.1.2.1⟩, hj.2, hj.1.2.2⟩

/-- What becomes of the journal when an attempt to initialize a class has ended. -/
lemma attempt_during {x : JournalM Unit} {v : Except Fault Unit}
    (h : attempt x ⟨es ++ [⟨.called c, outer, m⟩], m⟩ = .ok v j') :
    attempt (during outer c x) ⟨es, m⟩ =
      .ok v ⟨j'.entries ++ [⟨.answered c v, outer, j'.machine⟩], j'.machine⟩ := by
  have hrun : during outer c x ⟨es, m⟩ =
      (note (.answered c v) outer >>= fun _ => ofExcept v) j' := bind_of_ok h
  rw [attempt_congr hrun]
  cases v <;> rfl

/-- A class that is to be initialized is refused at once if it is erroneous, and otherwise an answer
follows. -/
lemma acts_during {x : JournalM Unit}
    (hx : Acts outer
      (fun j => Inside outer (Roomy n) j ∧ Heard outer c j ∧ j.machine.area.phase c ≠ .erroneous) x
      fun v j => Inside outer (Roomy n) j ∧ Answer outer c v j)
    (hrefuses : ∀ j, j.machine.area.phase c = .erroneous →
      x j = .error (.erroneousClass c.name) j) :
    Initializes n outer c (during outer c x) := by
  rintro ⟨es, m⟩ ⟨hready, hroomy⟩
  by_cases herroneous : m.area.phase c = .erroneous
  · have hstep : Step outer ⟨es, m⟩ ⟨es ++ [⟨.called c, outer, m⟩,
        ⟨.answered c (.error (.erroneousClass c.name)), outer, m⟩], m⟩ := .refuse herroneous
    have hroomy' := roomy_stable n _ _ hstep hroomy
    refine ⟨_, _, attempt_during (attempt_of_error (hrefuses _ herroneous)), ?_⟩
    simp only [List.append_assoc, List.cons_append, List.nil_append]
    refine ⟨.single hstep, ⟨?_, hroomy'⟩, herroneous, fun _ => .inr rfl⟩
    simpa using (hready.note (e := ⟨.called c, outer, m⟩) (by simp)).note
      (e := ⟨.answered c (.error (.erroneousClass c.name)), outer, m⟩) (by simp)
  · have hcall : Step outer ⟨es, m⟩ ⟨es ++ [⟨.called c, outer, m⟩], m⟩ := .call herroneous
    obtain ⟨v, ⟨es', m'⟩, hrun, hsteps, ⟨hready', hroomy'⟩, hanswer⟩ :=
      hx ⟨es ++ [⟨.called c, outer, m⟩], m⟩
        ⟨⟨hready.note (by simp), roomy_stable n _ _ hcall hroomy⟩, List.mem_concat_self, herroneous⟩
    have hend : Step outer ⟨es', m'⟩ ⟨es' ++ [⟨.answered c v, outer, m'⟩], m'⟩ := by
      cases v with
      | ok v => exact .succeed hanswer
      | error f => exact .fail hanswer.1 hanswer.2
    refine ⟨v, _, attempt_during hrun, (ReflTransGen.single hcall).trans (hsteps.tail hend),
      ⟨hready'.note (by simp), roomy_stable n _ _ hend hroomy'⟩, ?_⟩
    cases v with
    | ok v => exact hanswer
    | error f => exact ⟨hanswer.1, fun hgenuine => hanswer.2 (hend.genuine hgenuine)⟩

lemma enterClass_of_erroneous {body : JournalM Unit} {j : Journal}
    (h : j.machine.area.phase c = .erroneous) :
    enterClass outer c body j = .error (.erroneousClass c.name) j := by
  have hget : onMachine get j = .ok j.machine j := rfl
  unfold enterClass
  rw [bind_of_ok hget, h]
  rfl

/-- An array class is initialized from the beginning. -/
lemma initializes_array (n : Nat) (outer : List Class) (harray : c.isArray = true) :
    Initializes n outer c (during outer c (return ())) := by
  have hphase (a : Area) : a.phase c = .initialized := by simp [Area.phase, harray]
  refine acts_during (acts_pure fun j hj => ⟨hj.1, .inl (hphase _)⟩) fun j hj => ?_
  rw [hphase] at hj
  cases hj

/-- A class is initialized, the superclass first, wherever that happens. -/
lemma initializes_initializeBy {run : List Class → Class → JournalM Unit}
    (hrun : ∀ outer c, Initiates n outer c (run (c :: outer) c)) :
    ∀ c outer, Initializes n outer c (initializeBy run c outer)
  | .root d, outer => by
    refine acts_during (acts_enterClass fun hidle harray => ?_) fun j => enterClass_of_erroneous
    exact (hrun outer _ hidle harray).weaken (fun j hj => ⟨hj, fun _ s hs => by cases hs⟩)
      fun _ _ h => h
  | .derived d s is, outer => by
    refine acts_during (acts_enterClass fun hidle harray => ?_) fun j => enterClass_of_erroneous
    split
    · -- The class stays entered while its superclass is initialized.
      have hsuper := ((initializes_initializeBy hrun s (.derived d s is :: outer)).keeping
        (entered_stable (n := n) List.mem_cons_self)).inside
      refine (hsuper.weaken (fun j hj => ⟨⟨hj.1, hj.2.roomy⟩, hj.2⟩) fun _ _ h => h).bind
        (fun v => ?_) fun f j hj => ⟨hj.1.1, hj.1.2.2⟩
      refine (hrun outer _ hidle harray).weaken (fun j hj => ⟨⟨hj.1.1.1, hj.2⟩, ?_⟩) fun _ _ h => h
      rintro - _ ⟨⟩
      exact hj.1.2
    · next hinterface =>
      refine (hrun outer _ hidle harray).weaken (fun j hj => ⟨hj, fun hclass => ?_⟩) fun _ _ h => h
      simp [hclass] at hinterface
  | .primitiveArray .., outer => initializes_array n outer rfl
  | .array .., outer => initializes_array n outer rfl

/-! ### Programs -/

section

variable {P : Journal → Prop} {init : Class → JournalM Unit}

lemma acts_serve (hP : Stable (Step outer) P)
    (hinit : ∀ c, Acts outer (Inside outer P) (init c) fun _ j => Inside outer P j) (r : Request) :
    Acts outer (Inside outer P) (serve init r) fun _ j => Inside outer P j := by
  have hstaged := Machine.staged_request r
  refine ((acts_onMachine hP hstaged.built).values hstaged.left).bind (fun s => ?_)
    fun _ _ hj => hj.1
  rintro j ⟨hj, hs⟩
  have hbuilt := hs s rfl
  refine Acts.weaken ?_ (fun _ h => h) (fun _ _ h => h) j hj
  cases s with
  | ended v => exact acts_pure fun _ h => h
  | waits c rest =>
    exact (hinit c).attempt_bind fun outcome => acts_onMachine hP (hbuilt outcome)

lemma acts_runProgram (hP : Stable (Step outer) P)
    (hinit : ∀ c, Acts outer (Inside outer P) (init c) fun _ j => Inside outer P j) (p : Program) :
    Acts outer (Inside outer P) (runProgram init p) fun _ j => Inside outer P j := by
  induction p with
  | done => exact acts_pure fun _ h => h
  | fail f => exact acts_throw fun _ h => h
  | note text p ih =>
    exact (acts_onMachine hP (Machine.built_note text)).bind (fun _ => ih) fun _ _ h => h
  | call r k ih => exact (acts_serve hP hinit r).attempt_bind ih

end

/-! ### Initializers -/

/-- An initializer starts. -/
lemma acts_start (hidle : ∀ d ∈ outer, d.id ≠ c.id) (harray : c.isArray = false)
    (hinitializer : c.data.initializer.isSome) :
    Acts outer
      (fun j => Inside (c :: outer) (Entered (n + 1) c) j ∧ SuperSettled (c :: outer) c j)
      (note (.started c) (c :: outer))
      (sure fun _ j => Inside (c :: outer) (fun j => Roomy n j ∧ Roomy (n + 1) j) j) := by
  rintro ⟨es, m⟩ ⟨⟨hready, hentered⟩, hsuper⟩
  have hbusy : m.area.phase c = .initializing := (hready.busy c).2 ⟨harray, c, by simp⟩
  have hstep : Step outer ⟨es, m⟩ ⟨es ++ [⟨.started c, c :: outer, m⟩], m⟩ :=
    .start hidle hbusy hentered.unstarted hsuper
  have hroomy : Roomy n ⟨es, m⟩ := ⟨hready.sound, fun hgenuine => by
    obtain ⟨k, hk, hroom⟩ := hentered.taken hgenuine hinitializer
    obtain rfl : n = k := by omega
    exact hroom⟩
  refine ⟨_, _, rfl, .single hstep, ⟨hready.sound, hready.busy, fun e he d hd => ?_,
    fun hgenuine => hready.owned (hstep.genuine hgenuine)⟩,
    roomy_stable n _ _ hstep hroomy, roomy_stable _ _ _ hstep hentered.roomy⟩
  rcases List.mem_append.1 he with he | he
  · exact hready.left e he d hd
  · obtain rfl := List.mem_singleton.1 he
    cases hd
    exact ⟨harray, by simp [hbusy]⟩

/-- An initializer fails in one of two ways. -/
lemma kind_initializerFault (c : Class) (f : Fault) :
    (Machine.initializerFault c f).kind = .inInitializer ∨
      (Machine.initializerFault c f).kind = .noClassDefFound := by
  unfold Machine.initializerFault
  split
  · next h => simpa using h
  · exact .inl rfl

/-- A program that can be run belongs to an initializer of the class. -/
lemma isSome_of_programOf? {p : Program} (h : m.programOf? c = some p) :
    c.data.initializer.isSome := by
  unfold Machine.programOf? at h
  cases hc : c.data.initializer with
  | none => simp [hc] at h
  | some i => rfl

/-- With room for one more initializer, the initializer of a class can run. -/
lemma initiates_runInitializer {init : List Class → Class → JournalM Unit}
    (hinit : ∀ outer c, Initializes n outer c (init outer c)) (outer : List Class) (c : Class) :
    Initiates (n + 1) outer c (runInitializer init (c :: outer) c) := by
  intro hidle harray
  refine Acts.get_bind fun m => ?_
  cases hprogram : m.programOf? c with
  | none => exact acts_pure fun j hj => ⟨⟨hj.1.1.1, hj.1.1.2.roomy⟩, trivial⟩
  | some p =>
    have hinitializer := isSome_of_programOf? hprogram
    refine ((acts_start hidle harray hinitializer).weaken (fun _ hj => hj.1)
      fun _ _ hj => hj).sure_bind fun _ => ?_
    have hstable : Stable (Step (c :: outer)) fun j => Roomy n j ∧ Roomy (n + 1) j :=
      (roomy_stable n).and (roomy_stable (n + 1))
    have hstarted : ∀ d, Acts (c :: outer)
        (Inside (c :: outer) fun j => Roomy n j ∧ Roomy (n + 1) j) (init (c :: outer) d)
        fun _ j => Inside (c :: outer) (fun j => Roomy n j ∧ Roomy (n + 1) j) j := fun d =>
      ((hinit (c :: outer) d).keeping (roomy_stable (n + 1))).weaken
        (fun j hj => ⟨⟨hj.1, hj.2.1⟩, hj.2.2⟩) fun v j hj => ⟨hj.1.1.1, hj.1.1.2, hj.2⟩
    refine (acts_runProgram hstable hstarted p).inside.attempt_bind fun outcome => ?_
    cases outcome with
    | ok v => exact acts_pure fun j hj => ⟨⟨hj.1, hj.2.2⟩, trivial⟩
    | error f =>
      refine acts_throw fun j hj => ⟨⟨hj.1, hj.2.2⟩, fun _ => ?_⟩
      exact kind_initializerFault c f

/-- Without any room, there is no initializer to be run. -/
lemma initiates_refuseInitializer (outer : List Class) (c : Class) :
    Initiates 0 outer c (refuseInitializer c) := by
  intro _ _
  refine Acts.get_bind fun m => ?_
  split
  · next hprogram =>
    obtain ⟨p, hp⟩ := Option.isSome_iff_exists.1 hprogram
    refine acts_throw fun j hj => ⟨⟨hj.1.1.1, hj.1.1.2.roomy⟩, fun hgenuine => ?_⟩
    obtain ⟨k, hk, -⟩ := hj.1.1.2.taken hgenuine (isSome_of_programOf? hp)
    cases hk
  · exact acts_pure fun j hj => ⟨⟨hj.1.1.1, hj.1.1.2.roomy⟩, trivial⟩

lemma initializes_within (n : Nat) (outer : List Class) (c : Class) :
    Initializes n outer c (initializeWithin n outer c) := by
  induction n generalizing outer c with
  | zero => exact initializes_initializeBy initiates_refuseInitializer c outer
  | succ n ih => exact initializes_initializeBy (initiates_runInitializer ih) c outer

/-! ### Between the calls -/

/-- All initializers belong to definitions and classes that loaders have. -/
def Supplied (j : Journal) : Prop := j.machine.area.InitializersIn Set.univ

lemma supplied_stable (busy : List Class) : Stable (Step busy) Supplied :=
  fun _ _ h => h.supplies.univ

lemma acts_initializeClass (c : Class) :
    Acts [] (Inside [] Supplied) (initializeClass c) fun _ j => Inside [] Supplied j := by
  refine Acts.get_bind fun m => ?_
  rintro j ⟨⟨hready, hsupplied⟩, rfl⟩
  have hroom := Machine.room_nestingBound hsupplied
  refine (((initializes_within _ [] c).keeping (supplied_stable [])).weaken (fun _ h => h)
    fun _ j hj => ⟨hj.1.1.1, hj.2⟩) j ⟨⟨hready, hready.sound, fun _ => hroom⟩, hsupplied⟩

end Journal

end Linkage
