import Linkage.Proofs.Machine.Parts
import Linkage.Proofs.Machine.Watch

/-!
# Binding patch sites

Whatever is called and whatever initializers do in between, the state of a patch site and its two
words are in step: the instruction traps and its data word is empty until the site is bound, and
from then on the instruction is there with a word that the patcher returned. A site is bound once,
by one trap, and stays bound; a trap on a bound site does not ask its patcher.

The initializers that a patcher runs may trap on the same site, bind it or fail to, so a trap can
rely on little when its patcher returns. `Watch.Sound` says what holds after every single step of
the machine; in particular, a site that is being bound belongs to a trap that is not over.
-/

namespace Linkage

namespace Machine

/-- Whether a site is bound. -/
def Patched (m : Machine) (id : SiteId) : Prop := m.siteState? id.method id.index = some .patched

instance (m : Machine) (id : SiteId) : Decidable (m.Patched id) :=
  inferInstanceAs (Decidable (m.siteState? id.method id.index = some .patched))

variable {m : Machine} {id : SiteId} {s : PatchSite}

lemma patched_iff (hs : m.site? id = some s) : m.Patched id ↔ s.state = .patched := by
  simp [Patched, siteState?_eq, hs]

lemma Patched.ne_patching (h : m.Patched id) (hs : m.site? id = some s) : s.state ≠ .patching := by
  rw [(patched_iff hs).1 h]
  decide

lemma exists_of_patched (h : m.Patched id) : ∃ s, m.site? id = some s ∧ s.state = .patched := by
  rw [Patched, siteState?_eq] at h
  exact Option.map_eq_some_iff.1 h

/-- The sites of a machine in which the state of one has changed. -/
lemma site?_withState_cases {id' : SiteId} {s' : PatchSite} {st : PatchState}
    (hs' : (m.withState id st).site? id' = some s') :
    (id' = id ∧ ∃ s, m.site? id = some s ∧ s' = { s with state := st }) ∨
      (id' ≠ id ∧ m.site? id' = some s') := by
  rw [site?_withState] at hs'
  split at hs'
  · next heq =>
    subst heq
    obtain ⟨s, hs, rfl⟩ := Option.map_eq_some_iff.1 hs'
    exact .inl ⟨rfl, s, hs, rfl⟩
  · next hne => exact .inr ⟨hne, hs'⟩

lemma patched_withState_of_ne {id' : SiteId} {st : PatchState} (hne : id' ≠ id) :
    (m.withState id st).Patched id' ↔ m.Patched id' := by
  simp only [Patched, siteState?_eq, site?_withState, if_neg hne]

lemma patched_withState_self (hs : m.site? id = some s) {st : PatchState} :
    (m.withState id st).Patched id ↔ st = .patched := by
  simp [Patched, siteState?_eq, site?_withState, hs]

/-- A site that is not bound can have its state changed without a bound site changing. -/
lemma Patched.withState (hs : m.site? id = some s) (hstate : s.state ≠ .patched)
    {id' : SiteId} (h : m.Patched id') (st : PatchState) : (m.withState id st).Patched id' := by
  have hne : id' ≠ id := by
    rintro rfl
    exact hstate ((patched_iff hs).1 h)
  exact (patched_withState_of_ne hne).2 h

end Machine

namespace Watch

open Machine (Patched Laid Installed)

variable {h : List Observation} {m m' : Machine} {id : SiteId} {s : PatchSite}

/-- A trap on a site started at a place of the history and is not over. -/
def Open (h : List Observation) (trap : Nat) (id : SiteId) : Prop :=
  (∃ m, h[trap]? = some ⟨.trapped id, m⟩) ∧
    ∀ o ∈ h, ∀ outcome, o.event ≠ .settled trap id outcome

/-- A trap ends that bound a site. -/
def Binds (e : Event) (id : SiteId) : Prop := ∃ trap, e = .settled trap id (.ok .patched)

/-- The state of a site, its code word and its data word are in step. -/
structure InStep (h : List Observation) (m : Machine) (id : SiteId) (s : PatchSite) : Prop where
  waiting : s.state ≠ .patched →
    m.word? s.position = some (.bits trapWord) ∧ m.word? s.dataAddress = some (.bits 0)
  bound : s.state = .patched →
    m.word? s.position = some (.bits s.saved) ∧ isTrap s.saved = false ∧
      ∃ w, m.word? s.dataAddress = some w ∧ ∃ o ∈ h, ∃ trap, o.event = .returned trap id w
  patching : s.state = .patching → ∃ trap, Open h trap id

/-- How patch sites are bound. -/
structure InOrder (t : Watch) : Prop where
  /-- All sites are in step. -/
  now : ∀ id s, t.machine.site? id = some s → InStep t.history t.machine id s
  /-- All sites were in step whenever something was seen. -/
  before : ∀ k o, t.history[k]? = some o → ∀ id s, o.machine.site? id = some s →
    InStep (t.history.take (k + 1)) o.machine id s
  /-- Bound sites were bound from one observation to the next. -/
  lasting : t.history.Pairwise fun o o' => ∀ id, o.machine.Patched id → o'.machine.Patched id
  /-- Bound sites are still bound. -/
  still : ∀ o ∈ t.history, ∀ id, o.machine.Patched id → t.machine.Patched id
  /-- At most one trap binds a site. -/
  once : t.history.Pairwise fun o o' => ∀ id, Binds o.event id → ¬ Binds o'.event id
  /-- A trap that asks the patcher found its site not bound. -/
  needed : ∀ o ∈ t.history, ∀ trap id, o.event = .asked trap id →
    ∃ m, t.history[trap]? = some ⟨.trapped id, m⟩ ∧ ¬ m.Patched id

/-- What holds after every step of the machine. -/
structure Sound (t : Watch) : Prop extends InOrder t where
  laid : t.machine.Laid
  /-- A trap ends after it started. -/
  past : ∀ o ∈ t.history, ∀ trap id outcome, o.event = .settled trap id outcome →
    trap < t.history.length
  /-- A site that a trap bound is bound. -/
  claimed : ∀ o ∈ t.history, ∀ id, Binds o.event id → t.machine.Patched id

/-! ### Changes and observations -/

lemma Open.append {trap : Nat} (hopen : Open h trap id) {o : Observation}
    (ho : ∀ outcome, o.event ≠ .settled trap id outcome) : Open (h ++ [o]) trap id := by
  obtain ⟨⟨m, hm⟩, hnot⟩ := hopen
  refine ⟨⟨m, Builder.getElem?_append_of_some hm⟩, fun o' ho' outcome => ?_⟩
  rcases List.mem_append.1 ho' with ho' | ho'
  · exact hnot o' ho' outcome
  · rw [List.mem_singleton.1 ho']
    exact ho outcome

lemma InStep.append (hs : InStep h m id s) {o : Observation}
    (ho : ∀ trap outcome, o.event = .settled trap id outcome → s.state ≠ .patching) :
    InStep (h ++ [o]) m id s := by
  refine ⟨hs.waiting, fun hstate => ?_, fun hstate => ?_⟩
  · obtain ⟨hpos, htrap, w, hdata, o', ho', hreturned⟩ := hs.bound hstate
    exact ⟨hpos, htrap, w, hdata, o', List.mem_append_left _ ho', hreturned⟩
  · obtain ⟨trap, hopen⟩ := hs.patching hstate
    exact ⟨trap, hopen.append fun outcome heq => ho trap outcome heq hstate⟩

/-- A step of the machine that nobody notes. -/
lemma Sound.change (ht : Sound ⟨h, m⟩) (hlaid : m'.Laid)
    (hkept : ∀ id, m.Patched id → m'.Patched id)
    (hsites : ∀ id s, m'.site? id = some s → InStep h m' id s) : Sound ⟨h, m'⟩ where
  now := hsites
  before := ht.before
  lasting := ht.lasting
  still o ho id hid := hkept id (ht.still o ho id hid)
  once := ht.once
  needed := ht.needed
  laid := hlaid
  past := ht.past
  claimed o ho id hbinds := hkept id (ht.claimed o ho id hbinds)

/-- What has to be true of an event at the moment it is noted. -/
structure Timely (h : List Observation) (m : Machine) (e : Event) : Prop where
  asked : ∀ trap id, e = .asked trap id → ∃ m₀, h[trap]? = some ⟨.trapped id, m₀⟩ ∧ ¬ m₀.Patched id
  settled : ∀ trap id outcome, e = .settled trap id outcome → trap < h.length ∧
    ∀ s, m.site? id = some s → s.state ≠ .patching
  binds : ∀ id, Binds e id → m.Patched id ∧ ∀ o ∈ h, ¬ Binds o.event id

lemma getElem?_append_singleton {α : Type} {xs : List α} {x y : α} {i : Nat}
    (hi : (xs ++ [x])[i]? = some y) : xs[i]? = some y ∨ i = xs.length ∧ y = x := by
  rcases Nat.lt_or_ge i xs.length with hlt | hge
  · rw [List.getElem?_append_left hlt] at hi
    exact .inl hi
  · rw [List.getElem?_append_right hge, List.getElem?_singleton] at hi
    split at hi <;> cases hi
    exact .inr ⟨by omega, rfl⟩

/-- Noting an event. -/
lemma Sound.observe (ht : Sound ⟨h, m⟩) {e : Event} (he : Timely h m e) :
    Sound ⟨h ++ [⟨e, m⟩], m⟩ := by
  have hnow : ∀ id s, m.site? id = some s → InStep (h ++ [⟨e, m⟩]) m id s := by
    intro id s hs
    exact (ht.now id s hs).append fun trap outcome heq => (he.settled trap id outcome heq).2 s hs
  refine ⟨⟨hnow, fun k o ho => ?_, ?_, fun o ho => ?_, ?_, fun o ho trap id heq => ?_⟩, ht.laid,
    fun o ho trap id outcome heq => ?_, fun o ho id hbinds => ?_⟩
  · rcases getElem?_append_singleton ho with ho | ⟨rfl, rfl⟩
    · rw [List.take_append_of_le_length (List.getElem?_eq_some_iff.1 ho).1]
      exact ht.before k o ho
    · rw [List.take_of_length_le (by simp)]
      exact hnow
  · refine List.pairwise_append.2 ⟨ht.lasting, List.pairwise_singleton _ _, fun o ho o' ho' => ?_⟩
    rw [List.mem_singleton.1 ho']
    exact ht.still o ho
  · rcases List.mem_append.1 ho with ho | ho
    · exact ht.still o ho
    · rw [List.mem_singleton.1 ho]
      exact fun _ hid => hid
  · refine List.pairwise_append.2 ⟨ht.once, List.pairwise_singleton _ _, fun o ho o' ho' => ?_⟩
    rw [List.mem_singleton.1 ho']
    exact fun id hbinds hbinds' => (he.binds id hbinds').2 o ho hbinds
  · have hasked : ∃ m₀, h[trap]? = some ⟨.trapped id, m₀⟩ ∧ ¬ m₀.Patched id := by
      rcases List.mem_append.1 ho with ho | ho
      · exact ht.needed o ho trap id heq
      · rw [List.mem_singleton.1 ho] at heq
        exact he.asked trap id heq
    obtain ⟨m₀, hm₀, hnot⟩ := hasked
    exact ⟨m₀, Builder.getElem?_append_of_some hm₀, hnot⟩
  · rw [List.length_append]
    rcases List.mem_append.1 ho with ho | ho
    · exact Nat.lt_add_right 1 (ht.past o ho trap id outcome heq)
    · rw [List.mem_singleton.1 ho] at heq
      exact Nat.lt_add_right 1 (he.settled trap id outcome heq).1
  · rcases List.mem_append.1 ho with ho | ho
    · exact ht.claimed o ho id hbinds
    · rw [List.mem_singleton.1 ho] at hbinds
      exact (he.binds id hbinds).1

/-! ### Steps -/

/-- A step of a machine that is watched. -/
inductive Step : Watch → Watch → Prop
  /-- Something changes that has nothing to do with patch sites. -/
  | elsewhere {h : List Observation} {m m' : Machine} (hmemory : m'.memory = m.memory)
      (hmethods : m'.methods = m.methods) : Step ⟨h, m⟩ ⟨h, m'⟩
  /-- A method is installed. -/
  | install {h : List Observation} {m m' : Machine} (hinstalled : Installed m m') :
      Step ⟨h, m⟩ ⟨h, m'⟩
  /-- An event is noted. -/
  | note {h : List Observation} {m : Machine} {e : Event} (he : Timely h m e) :
      Step ⟨h, m⟩ ⟨h ++ [⟨e, m⟩], m⟩
  /-- A trap starts to bind its site. -/
  | start {h : List Observation} {m : Machine} {id : SiteId} {s : PatchSite} {trap : Nat}
      (hs : m.site? id = some s) (hstate : s.state ≠ .patched) (hopen : Open h trap id) :
      Step ⟨h, m⟩ ⟨h, m.withState id .patching⟩
  /-- A trap leaves its site as it was. -/
  | giveUp {h : List Observation} {m : Machine} {id : SiteId} {s : PatchSite}
      (hs : m.site? id = some s) (hstate : s.state ≠ .patched) :
      Step ⟨h, m⟩ ⟨h, m.withState id .unpatched⟩
  /-- A site is bound with a word of its patcher, and the trap ends. -/
  | bind {h : List Observation} {m : Machine} {id : SiteId} {s : PatchSite} {w : Word} {trap : Nat}
      {words : Table Nat Word} (hs : m.site? id = some s) (hstate : s.state ≠ .patched)
      (htrap : trap < h.length)
      (hreturned : ∃ o ∈ h, ∃ trap, o.event = .returned trap id w)
      (hcode : (m.withWords words).word? s.position = some (.bits s.saved))
      (hdata : (m.withWords words).word? s.dataAddress = some w)
      (hothers : ∀ id' s', id' ≠ id → m.site? id' = some s' →
        (m.withWords words).word? s'.position = m.word? s'.position ∧
        (m.withWords words).word? s'.dataAddress = m.word? s'.dataAddress)
      (hwords : ∀ i, s.position ≠ wordAddress i → s.dataAddress ≠ wordAddress i →
        (m.withWords words).memory.wordAt i = m.memory.wordAt i) :
      Step ⟨h, m⟩
        ⟨h ++ [⟨.settled trap id (.ok .patched), (m.withWords words).withState id .patched⟩],
          (m.withWords words).withState id .patched⟩

/-- A site is in step with another machine if its words are the same there. -/
lemma InStep.transfer (hs : InStep h m id s) (hcode : m'.word? s.position = m.word? s.position)
    (hdata : m'.word? s.dataAddress = m.word? s.dataAddress) : InStep h m' id s := by
  refine ⟨?_, ?_, hs.patching⟩
  · rw [hcode, hdata]
    exact hs.waiting
  · rw [hcode, hdata]
    exact hs.bound

lemma Sound.install (ht : Sound ⟨h, m⟩) (hinstalled : Installed m m') : Sound ⟨h, m'⟩ := by
  refine ht.change hinstalled.laid (fun id hid => ?_) fun id s hs => ?_
  · obtain ⟨s, hs, hstate⟩ := Machine.exists_of_patched hid
    exact (Machine.patched_iff (hinstalled.old id s hs).1).2 hstate
  · cases hold : m.site? id with
    | none =>
      obtain ⟨hstate, hcode, hdata⟩ := hinstalled.new id s hs hold
      refine ⟨fun _ => ⟨hcode, hdata⟩, fun h => ?_, fun h => ?_⟩ <;>
      · rw [hstate] at h
        cases h
    | some s' =>
      obtain ⟨hs', hcode, hdata⟩ := hinstalled.old id s' hold
      rw [hs] at hs'
      cases hs'
      exact (ht.now id s hold).transfer hcode hdata

/-- A site that is not bound may change between its other states. -/
lemma Sound.withState (ht : Sound ⟨h, m⟩) (hs : m.site? id = some s) (hstate : s.state ≠ .patched)
    {st : PatchState} (hst : st ≠ .patched) (hopen : st = .patching → ∃ trap, Open h trap id) :
    Sound ⟨h, m.withState id st⟩ := by
  refine ht.change (ht.laid.withState id st) (fun id' hid' => hid'.withState hs hstate st)
    fun id' s' hs' => ?_
  rcases Machine.site?_withState_cases hs' with ⟨rfl, s₀, hs₀, rfl⟩ | ⟨-, hs'⟩
  · rw [hs] at hs₀
    cases hs₀
    exact ⟨fun _ => (ht.now _ s hs).waiting hstate, fun heq => (hst heq).elim, hopen⟩
  · exact (ht.now id' s' hs').transfer rfl rfl

/-- A site that is not bound may be bound with a word of its patcher. -/
lemma Sound.bind (ht : Sound ⟨h, m⟩) (hs : m.site? id = some s) (hstate : s.state ≠ .patched)
    {w : Word} (hreturned : ∃ o ∈ h, ∃ trap, o.event = .returned trap id w)
    {words : Table Nat Word} (hcode : (m.withWords words).word? s.position = some (.bits s.saved))
    (hdata : (m.withWords words).word? s.dataAddress = some w)
    (hothers : ∀ id' s', id' ≠ id → m.site? id' = some s' →
      (m.withWords words).word? s'.position = m.word? s'.position ∧
      (m.withWords words).word? s'.dataAddress = m.word? s'.dataAddress) :
    Sound ⟨h, (m.withWords words).withState id .patched⟩ := by
  refine ht.change ((ht.laid.withWords words).withState id .patched) (fun id' hid' => ?_)
    fun id' s' hs' => ?_
  · have hid' : (m.withWords words).Patched id' := hid'
    exact hid'.withState (m := m.withWords words) hs hstate .patched
  · rcases Machine.site?_withState_cases hs' with ⟨rfl, s₀, hs₀, rfl⟩ | ⟨hne, hs'⟩
    · have hs₀ : m.site? id' = some s₀ := hs₀
      rw [hs] at hs₀
      cases hs₀
      refine ⟨fun hne => (hne rfl).elim, fun _ => ?_, fun heq => by cases heq⟩
      exact ⟨hcode, ht.laid.saved _ s hs, w, hdata, hreturned⟩
    · obtain ⟨hpos, hslot⟩ := hothers id' s' hne hs'
      exact (ht.now id' s' hs').transfer hpos hslot

/-- A trap that has bound its site may end: no trap bound the site before, or it would have been
bound. -/
lemma Sound.timely_bound (ht : Sound ⟨h, m⟩) (hs : m.site? id = some s)
    (hstate : s.state ≠ .patched) {trap : Nat} (htrap : trap < h.length) (words : Table Nat Word) :
    Timely h ((m.withWords words).withState id .patched) (.settled trap id (.ok .patched)) := by
  refine ⟨by simp, ?_, ?_⟩
  · rintro _ _ _ ⟨⟩
    refine ⟨htrap, fun s' hs' => ?_⟩
    rcases Machine.site?_withState_cases hs' with ⟨-, s₀, -, rfl⟩ | ⟨hne, -⟩
    · exact fun hstate => by cases hstate
    · exact (hne rfl).elim
  · rintro id ⟨trap, heq⟩
    cases heq
    refine ⟨(Machine.patched_withState_self (m := m.withWords words) hs).2 rfl, ?_⟩
    exact fun o ho hbinds => hstate ((Machine.patched_iff hs).1 (ht.claimed o ho _ hbinds))

/-- No step undoes the order. -/
lemma sound_stable : Stable Step Sound := by
  intro t t' hstep ht
  cases hstep with
  | elsewhere hmemory hmethods => exact ht.install (ht.laid.installed hmemory hmethods)
  | install hinstalled => exact ht.install hinstalled
  | note he => exact ht.observe he
  | start hs hstate hopen => exact ht.withState hs hstate (by decide) fun _ => ⟨_, hopen⟩
  | giveUp hs hstate => exact ht.withState hs hstate (by decide) fun heq => by cases heq
  | bind hs hstate htrap hreturned hcode hdata hothers _ =>
    exact (ht.bind hs hstate hreturned hcode hdata hothers).observe
      (ht.timely_bound hs hstate htrap _)

/-! ### What no step undoes -/

/-- A site of the machine as it was found, its state apart. -/
def HasSite (id : SiteId) (s : PatchSite) (t : Watch) : Prop :=
  ∃ st, t.machine.site? id = some { s with state := st }

/-- What was seen is not forgotten. -/
def Saw (h : List Observation) (t : Watch) : Prop := h <+: t.history

lemma saw_stable (h : List Observation) : Stable Step (Saw h) := by
  intro t t' hstep ht
  cases hstep with
  | note he => exact ht.trans (List.prefix_append _ _)
  | bind => exact ht.trans (List.prefix_append _ _)
  | _ => exact ht

lemma hasSite_stable (id : SiteId) (s : PatchSite) :
    Stable Step fun t => Sound t ∧ HasSite id s t := by
  rintro t t' hstep ⟨ht, st, hs⟩
  refine ⟨sound_stable t t' hstep ht, ?_⟩
  have hwithState : ∀ (m : Machine) id' st', m.site? id = some { s with state := st } →
      ∃ st, (m.withState id' st').site? id = some { s with state := st } := by
    intro m id' st' hs
    rw [Machine.site?_withState]
    split
    · exact ⟨st', by rw [hs]; rfl⟩
    · exact ⟨st, hs⟩
  cases hstep with
  | elsewhere hmemory hmethods =>
    exact ⟨st, ((ht.laid.installed hmemory hmethods).old id _ hs).1⟩
  | install hinstalled => exact ⟨st, (hinstalled.old id _ hs).1⟩
  | note he => exact ⟨st, hs⟩
  | start _ _ _ => exact hwithState _ _ _ hs
  | giveUp _ _ => exact hwithState _ _ _ hs
  | bind _ _ _ _ _ _ _ _ => exact hwithState (Machine.withWords _ _) _ _ hs

/-! ### Operations away from patch sites -/

section

variable {α β : Type}

/-- An operation that leaves the code area and the compiled methods alone. -/
def Elsewhere (x : MachineM α) : Prop :=
  ∀ m, (finalState x m).memory = m.memory ∧ (finalState x m).methods = m.methods

lemma elsewhere_of_ok {x : MachineM α} {v : Machine → α} (h : ∀ m, x m = .ok (v m) m) :
    Elsewhere x := by
  intro m
  rw [finalState_of_ok (h m)]
  exact ⟨rfl, rfl⟩

lemma elsewhere_pure (v : α) : Elsewhere (pure v) := elsewhere_of_ok fun _ => rfl

lemma elsewhere_get : Elsewhere get := elsewhere_of_ok fun _ => rfl

lemma elsewhere_throw (e : Fault) : Elsewhere (throw e : MachineM α) := fun _ => ⟨rfl, rfl⟩

lemma elsewhere_ofExcept (v : Except Fault α) : Elsewhere (ofExcept v) := by
  cases v with
  | ok v => exact elsewhere_pure v
  | error e => exact elsewhere_throw e

lemma Elsewhere.bind {x : MachineM α} {f : α → MachineM β} (hx : Elsewhere x)
    (hf : ∀ v, Elsewhere (f v)) : Elsewhere (x >>= f) := fun m =>
  finalState_bind_keeps (P := fun m' : Machine => m'.memory = m.memory ∧ m'.methods = m.methods)
    (hx m) fun v m' _ hfirst => ⟨(hf v m').1.trans hfirst.1, (hf v m').2.trans hfirst.2⟩

lemma elsewhere_onResolver (x : ResolverM α) : Elsewhere (Machine.onResolver x) := by
  intro m
  cases h : x m.resolver <;> simp [finalState, Machine.onResolver, h]

lemma elsewhere_onArea (x : AreaM α) : Elsewhere (Machine.onArea x) := elsewhere_onResolver _

lemma elsewhere_define (l : LoaderId) (d : Definition) : Elsewhere (Machine.define l d) := by
  intro m
  rcases Machine.define_cases l d m with hrun | ⟨spare, -, hrun⟩
  · rw [finalState_of_error hrun]
    exact ⟨rfl, rfl⟩
  · rw [finalState_of_ok hrun]
    exact ⟨rfl, rfl⟩

lemma elsewhere_eagerly (what : String) (x : ResolutionM α) :
    Elsewhere (Machine.eagerly what x) := by
  refine (elsewhere_onResolver _).bind fun found => ?_
  cases found with
  | some v => exact elsewhere_pure v
  | none => exact elsewhere_throw _

lemma elsewhere_read (address : Address) : Elsewhere (Machine.read address) := by
  refine elsewhere_get.bind fun m => ?_
  cases m.memory.read? address with
  | some w => exact elsewhere_pure w
  | none => exact elsewhere_throw _

lemma elsewhere_fetched (entry address : Address) (w : Word) :
    Elsewhere (Machine.fetched entry address w) := by
  refine Elsewhere.bind ?_ fun (op, displacement) => ?_
  · unfold Machine.decodeWord
    split
    · split
      · exact elsewhere_pure _
      · exact elsewhere_throw _
    · exact elsewhere_pure _
  · dsimp only
    split
    · exact elsewhere_pure _
    · exact (elsewhere_read _).bind fun _ => elsewhere_pure _

/-- Patchers write nothing themselves. -/
lemma elsewhere_patchWord {init : Class → MachineM Unit} (hinit : ∀ c, Elsewhere (init c))
    (patcher : Patcher) (operand : PatchOperand) :
    Elsewhere (Machine.patchWord init patcher operand) := by
  unfold Machine.patchWord
  split
  · exact (elsewhere_eagerly _ _).bind fun f => (hinit _).bind fun _ => elsewhere_ofExcept _
  · exact (elsewhere_eagerly _ _).bind fun f => elsewhere_pure _
  · refine (elsewhere_eagerly _ _).bind fun f => ?_
    split
    · exact (hinit _).bind fun _ => elsewhere_pure _
    · exact elsewhere_pure _
  · exact (elsewhere_eagerly _ _).bind fun f => elsewhere_pure _
  · refine (elsewhere_eagerly _ _).bind fun f => ?_
    exact (elsewhere_eagerly _ _).bind fun _ => elsewhere_pure _
  · refine (elsewhere_eagerly _ _).bind fun c => ?_
    split
    · exact (elsewhere_throw _).bind fun _ => (hinit _).bind fun _ => elsewhere_pure _
    · exact (hinit _).bind fun _ => elsewhere_pure _
  · refine (elsewhere_eagerly _ _).bind fun c => ?_
    exact (elsewhere_onResolver _).bind fun _ => elsewhere_pure _
  · exact (elsewhere_eagerly _ _).bind fun c => elsewhere_pure _
  · exact (hinit _).bind fun _ => elsewhere_pure _
  · exact elsewhere_throw _

lemma elsewhere_patchPlan (patcher : Patcher) (operand : PatchOperand) :
    Elsewhere (patchPlan patcher operand) := by
  unfold patchPlan
  split
  · exact (elsewhere_eagerly _ _).bind fun f => elsewhere_pure _
  · exact (elsewhere_eagerly _ _).bind fun m => elsewhere_pure _
  · refine (elsewhere_eagerly _ _).bind fun c => ?_
    split
    · exact (elsewhere_throw _).bind fun _ => elsewhere_pure _
    · exact elsewhere_pure _
  · exact elsewhere_pure _
  · exact (elsewhere_patchWord (fun _ => elsewhere_pure ()) _ _).bind fun _ => elsewhere_pure _

end

/-! ### Operations of a machine that is watched -/

section

variable {α β : Type} {x : WatchM α}

/-- An operation that only makes steps. -/
def Keeps (x : WatchM α) : Prop := Performs Step Sound x fun _ _ => True

lemma keeps_pure (v : α) : Keeps (pure v) := Performs.pure fun _ _ => trivial

lemma keeps_throw (e : Fault) : Keeps (throw e : WatchM α) := Performs.throw e

lemma keeps_ofExcept (v : Except Fault α) : Keeps (ofExcept v) := by
  cases v with
  | ok v => exact keeps_pure v
  | error e => exact keeps_throw e

lemma Keeps.bind {f : α → WatchM β} (hx : Keeps x) (hf : ∀ v, Keeps (f v)) : Keeps (x >>= f) :=
  Performs.seq sound_stable hx fun v _ => hf v

lemma performs_attempt {step : Watch → Watch → Prop} {P : Watch → Prop} {Q : α → Watch → Prop}
    (hx : Performs step P x Q) :
    Performs step P (attempt x) fun v t => ∀ w, v = .ok w → Q w t := by
  intro t ht
  obtain ⟨hsteps, hq⟩ := hx t ht
  cases hrun : x t with
  | ok v u =>
    have hattempt : attempt x t = .ok (.ok v) u := by simp [attempt, hrun]
    rw [finalState_of_ok hrun] at hsteps
    rw [finalState_of_ok hattempt]
    refine ⟨hsteps, ?_⟩
    rintro _ _ hok w rfl
    rw [hattempt] at hok
    cases hok
    exact hq v u hrun
  | error e u =>
    have hattempt : attempt x t = .ok (.error e) u := by simp [attempt, hrun]
    rw [finalState_of_error hrun] at hsteps
    rw [finalState_of_ok hattempt]
    refine ⟨hsteps, ?_⟩
    rintro _ _ hok w rfl
    rw [hattempt] at hok
    cases hok

lemma Keeps.attempt (hx : Keeps x) : Keeps (attempt x) :=
  (performs_attempt hx).weaken (fun _ ht => ht) fun _ _ _ => trivial

lemma performs_discard {step : Watch → Watch → Prop} {P : Watch → Prop} {Q : α → Watch → Prop}
    (hx : Performs step P x Q) : Performs step P (Functor.discard x) fun _ _ => True := by
  intro t ht
  rw [finalState_discard]
  exact ⟨(hx t ht).1, fun _ _ _ => trivial⟩

lemma Keeps.discard (hx : Keeps x) : Keeps (Functor.discard x) := performs_discard hx

lemma finalState_onMachine (y : MachineM α) (t : Watch) :
    finalState (onMachine y) t = ⟨t.history, finalState y t.machine⟩ := by
  cases h : y t.machine <;> simp [finalState, onMachine, h]

lemma keeps_onMachine {y : MachineM α} (hy : Elsewhere y) : Keeps (onMachine y) := by
  intro t _
  rw [finalState_onMachine]
  exact ⟨.single (.elsewhere (hy t.machine).1 (hy t.machine).2), fun _ _ _ => trivial⟩

lemma see_apply (e : Event) (t : Watch) :
    see e t = .ok t.history.length ⟨t.history ++ [⟨e, t.machine⟩], t.machine⟩ := rfl

lemma keeps_see {e : Event} (he : ∀ h m, Timely h m e) : Keeps (see e) := by
  intro t _
  exact ⟨.single (.note (he _ _)), fun _ _ _ => trivial⟩

/-- The start and the end of a call may be noted at any time. -/
lemma timely_call {e : Event} (hasked : ∀ trap id, e ≠ .asked trap id)
    (hsettled : ∀ trap id outcome, e ≠ .settled trap id outcome) : Timely h m e :=
  ⟨fun trap id heq => absurd heq (hasked trap id),
    fun trap id outcome heq => absurd heq (hsettled trap id outcome),
    fun id ⟨trap, heq⟩ => absurd heq (hsettled trap id _)⟩

lemma Keeps.during (hx : Keeps x) (c : Call) : Keeps (during c x) := by
  refine (keeps_see fun _ _ => timely_call (by simp) (by simp)).bind fun _ => ?_
  refine hx.attempt.bind fun answer => ?_
  exact (keeps_see fun _ _ => timely_call (by simp) (by simp)).bind fun _ => keeps_ofExcept answer

lemma area_of_onArea {y : AreaM α} {v : α} (h : Machine.onArea y m = .ok v m') :
    y m.area = .ok v m'.area := by
  unfold Machine.onArea Machine.onResolver at h
  split at h <;> cases h
  next hy =>
    obtain ⟨a, ha, hr⟩ := Resolver.onArea_eq_ok.1 hy
    exact hr ▸ ha

/-- Compiling installs a method, unless something is missing. -/
lemma keeps_compile (label : String) (method : MethodHandle) (code : List Instruction) :
    Keeps (onMachine (Machine.compile label method code)) := by
  intro t ht
  rw [finalState_onMachine]
  refine ⟨?_, fun _ _ _ => trivial⟩
  have hbuild := elsewhere_onArea (({} : Builder).emitAll code) t.machine
  unfold Machine.compile
  rw [finalState_bind]
  cases hb : Machine.onArea (({} : Builder).emitAll code) t.machine with
  | error e m =>
    rw [finalState_of_error hb] at hbuild
    exact .single (.elsewhere hbuild.1 hbuild.2)
  | ok b m =>
    rw [finalState_of_ok hb] at hbuild
    have hfirst : Step t ⟨t.history, m⟩ := .elsewhere hbuild.1 hbuild.2
    have hformed : b.Formed := Builder.formed_empty.emitAll (area_of_onArea hb)
    rcases Machine.install_cases (sound_stable _ _ hfirst ht).laid hformed label method with
      ⟨e, hinstall⟩ | ⟨c, m', hinstall, hinstalled⟩
    · dsimp only
      rw [finalState_of_error hinstall]
      exact .single hfirst
    · dsimp only
      rw [finalState_of_ok hinstall]
      exact .tail (.single hfirst) (.install hinstalled)

end

/-! ### Traps -/

section

variable {trap : Nat} {init : Class → WatchM Unit}

/-- What a trap can rely on while it is dealt with: the site is there, and the trap started at a
place in the history. -/
def Busy (trap : Nat) (id : SiteId) (s : PatchSite) (t : Watch) : Prop :=
  Sound t ∧ HasSite id s t ∧ trap < t.history.length

lemma busy_stable (trap : Nat) (id : SiteId) (s : PatchSite) : Stable Step (Busy trap id s) := by
  rintro t t' hstep ⟨ht, hs, htrap⟩
  obtain ⟨ht', hs'⟩ := hasSite_stable id s t t' hstep ⟨ht, hs⟩
  refine ⟨ht', hs', ?_⟩
  exact Nat.lt_of_lt_of_le htrap (saw_stable t.history t t' hstep List.prefix_rfl).length_le

lemma isPatched_bind_of_patched {α : Type} {t : Watch} (hid : t.machine.Patched id)
    (f : Bool → WatchM α) : (isPatched id >>= f) t = f true t := by
  refine bind_of_ok (w := true) ?_
  change EStateM.Result.ok (decide (t.machine.Patched id)) t = _
  rw [decide_eq_true hid]

lemma isPatched_bind_of_not_patched {α : Type} {t : Watch} (hid : ¬ t.machine.Patched id)
    (f : Bool → WatchM α) : (isPatched id >>= f) t = f false t := by
  refine bind_of_ok (w := false) ?_
  change EStateM.Result.ok (decide (t.machine.Patched id)) t = _
  rw [decide_eq_false hid]

/-- A trap may end without binding its site if the site is not left half bound. -/
lemma timely_settled {trap : Nat} {outcome : Except Fault TrapOutcome} (htrap : trap < h.length)
    (hs : m.site? id = some s) (hstate : s.state ≠ .patching) (houtcome : outcome ≠ .ok .patched) :
    Timely h m (.settled trap id outcome) := by
  refine ⟨fun _ _ heq => (by cases heq), ?_, ?_⟩
  · rintro _ _ _ ⟨⟩
    refine ⟨htrap, fun s' hs' => ?_⟩
    rw [hs] at hs'
    cases hs'
    exact hstate
  · rintro id ⟨trap, heq⟩
    cases heq
    exact (houtcome rfl).elim

/-- A trap that did not bind its site ends. -/
lemma steps_settle {t : Watch} (ht : Busy trap id s t) {s' : PatchSite}
    (hs' : t.machine.site? id = some s') (hstate : s'.state ≠ .patching)
    {outcome : Except Fault TrapOutcome} (houtcome : outcome ≠ .ok .patched) :
    Relation.ReflTransGen Step t (finalState (settle trap id outcome) t) := by
  have hfinal : finalState (settle trap id outcome) t =
      ⟨t.history ++ [⟨.settled trap id outcome, t.machine⟩], t.machine⟩ := by
    cases outcome <;> rfl
  rw [hfinal]
  exact .single (.note (timely_settled ht.2.2 hs' hstate houtcome))

lemma performs_leaveSite (trap : Nat) (id : SiteId) (s : PatchSite) (f : Fault) :
    Performs Step (Busy trap id s) (leaveSite trap id f) fun _ _ => True := by
  intro t ht
  refine ⟨?_, fun _ _ _ => trivial⟩
  obtain ⟨st, hs⟩ := ht.2.1
  unfold leaveSite
  by_cases hid : t.machine.Patched id
  · rw [finalState_congr (isPatched_bind_of_patched hid _)]
    exact steps_settle ht hs (hid.ne_patching hs) (by simp)
  · rw [finalState_congr (isPatched_bind_of_not_patched hid _)]
    have hstep : Step t ⟨t.history, t.machine.withState id .unpatched⟩ :=
      .giveUp hs fun hstate => hid ((Machine.patched_iff hs).2 hstate)
    have hs' := Machine.site?_withState_self hs .unpatched
    have houtcome : (.error f : Except Fault TrapOutcome) ≠ .ok .patched := by simp
    refine .head hstep ?_
    exact steps_settle (busy_stable trap id s _ _ hstep ht) hs' (fun hstate => by cases hstate)
      houtcome

/-- A trap whose patcher returned a word ends well: its site is bound already, or it binds the site
and touches no other site and no other word. -/
lemma finishSite_cases {t : Watch} (ht : Busy trap id s t) (w : Word) :
    t.machine.Patched id ∧ finishSite trap id s w t = .ok .alreadyPatched
        ⟨t.history ++ [⟨.settled trap id (.ok .alreadyPatched), t.machine⟩], t.machine⟩ ∨
    ¬ t.machine.Patched id ∧ ∃ words,
      finishSite trap id s w t = .ok .patched
        ⟨t.history ++ [⟨.settled trap id (.ok .patched),
            (t.machine.withWords words).withState id .patched⟩],
          (t.machine.withWords words).withState id .patched⟩ ∧
      (t.machine.withWords words).word? s.position = some (.bits s.saved) ∧
      (t.machine.withWords words).word? s.dataAddress = some w ∧
      (∀ id' s', id' ≠ id → t.machine.site? id' = some s' →
        (t.machine.withWords words).word? s'.position = t.machine.word? s'.position ∧
        (t.machine.withWords words).word? s'.dataAddress = t.machine.word? s'.dataAddress) ∧
      ∀ i, s.position ≠ wordAddress i → s.dataAddress ≠ wordAddress i →
        (t.machine.withWords words).memory.wordAt i = t.machine.memory.wordAt i := by
  obtain ⟨st, hs⟩ := ht.2.1
  unfold finishSite
  by_cases hid : t.machine.Patched id
  · exact .inl ⟨hid, isPatched_bind_of_patched hid _⟩
  · obtain ⟨words, hbind, hword⟩ := Machine.bindSite_apply ht.1.laid hs w
    have hwrite : Machine.bindSite s w t.machine = .ok () (t.machine.withWords words) := hbind
    have hfirst : onMachine (Machine.bindSite s w) t =
        .ok () ⟨t.history, t.machine.withWords words⟩ := by
      simp only [onMachine, hwrite]
    refine .inr ⟨hid, words, ?_, hword⟩
    rw [isPatched_bind_of_not_patched hid]
    exact bind_of_ok hfirst

lemma performs_finishSite (trap : Nat) (id : SiteId) (s : PatchSite) (w : Word) :
    Performs Step
      (fun t => Busy trap id s t ∧ ∃ o ∈ t.history, ∃ trap, o.event = .returned trap id w)
      (finishSite trap id s w) fun _ _ => True := by
  rintro t ⟨ht, hreturned⟩
  refine ⟨?_, fun _ _ _ => trivial⟩
  obtain ⟨st, hs⟩ := ht.2.1
  obtain ⟨hid, hrun⟩ | ⟨hid, words, hrun, hcode, hdata, hothers, hwords⟩ := finishSite_cases ht w
  · rw [finalState_of_ok hrun]
    exact .single (.note (timely_settled ht.2.2 hs (hid.ne_patching hs) (by simp)))
  · rw [finalState_of_ok hrun]
    exact .single (.bind hs (fun hstate => hid ((Machine.patched_iff hs).2 hstate)) ht.2.2 hreturned
      hcode hdata hothers hwords)

lemma keeps_patchWord (hinit : ∀ c, Keeps (init c)) (patcher : Patcher) (operand : PatchOperand) :
    Keeps (patchWord init patcher operand) := by
  refine (keeps_onMachine (elsewhere_patchPlan patcher operand)).bind fun (target, w) => ?_
  refine Keeps.bind ?_ fun _ => keeps_ofExcept w
  cases target with
  | none => exact keeps_pure ()
  | some c => exact hinit c

/-- Whatever the initializers do that the patcher runs, the trap ends in order. -/
lemma performs_askPatcher (hinit : ∀ c, Keeps (init c)) (trap : Nat) (id : SiteId) (s : PatchSite) :
    Performs Step (Busy trap id s) (askPatcher init trap id s) fun _ _ => True := by
  have hask := (keeps_patchWord hinit s.patcher s.operand).attempt
  refine Performs.seq (p := fun _ => True) (busy_stable trap id s)
    (hask.weaken (fun _ ht => ht.1) fun _ _ _ => trivial) fun outcome _ => ?_
  cases outcome with
  | error f => exact performs_leaveSite trap id s f
  | ok w =>
    refine Performs.bind (fun t ht => ?_) fun _ => performs_finishSite trap id s w
    have hnote : Step t ⟨t.history ++ [⟨.returned trap id w, t.machine⟩], t.machine⟩ :=
      .note ⟨by simp, by simp, by simp [Binds]⟩
    refine ⟨.single hnote, ?_⟩
    rintro _ _ ⟨⟩
    exact ⟨busy_stable trap id s _ _ hnote ht, _,
      List.mem_append_right _ (List.mem_singleton.2 rfl), trap, rfl⟩

/-- A trap that just started is not over. -/
lemma open_append (ht : Sound ⟨h, m⟩) (id : SiteId) :
    Open (h ++ [⟨.trapped id, m⟩]) h.length id := by
  refine ⟨⟨m, by simp⟩, fun o ho outcome heq => ?_⟩
  rcases List.mem_append.1 ho with ho | ho
  · exact Nat.lt_irrefl _ (ht.past o ho _ id outcome heq)
  · rw [List.mem_singleton.1 ho] at heq
    cases heq

lemma patchSite_of_patched (hid : m.Patched id) :
    patchSite init id s ⟨h, m⟩ =
      settle h.length id (.ok .alreadyPatched) ⟨h ++ [⟨.trapped id, m⟩], m⟩ := by
  unfold patchSite
  rw [bind_of_ok (see_apply _ _), isPatched_bind_of_patched hid]
  rfl

lemma patchSite_of_not_patched (hid : ¬ m.Patched id) :
    patchSite init id s ⟨h, m⟩ = askPatcher init h.length id s
      ⟨h ++ [⟨.trapped id, m⟩] ++ [⟨.asked h.length id, m.withState id .patching⟩],
        m.withState id .patching⟩ := by
  unfold patchSite
  rw [bind_of_ok (see_apply _ _), isPatched_bind_of_not_patched hid]
  rfl

lemma step_trapped (h : List Observation) (m : Machine) (id : SiteId) :
    Step ⟨h, m⟩ ⟨h ++ [⟨.trapped id, m⟩], m⟩ :=
  .note ⟨by simp, by simp, by simp [Binds]⟩

lemma busy_trapped (ht : Sound ⟨h, m⟩) (hs : HasSite id s ⟨h, m⟩) :
    Busy h.length id s ⟨h ++ [⟨.trapped id, m⟩], m⟩ :=
  ⟨sound_stable _ _ (step_trapped h m id) ht, hs, by simp⟩

/-- A trap on a site that is not bound takes the site and asks its patcher. -/
lemma steps_asked (ht : Sound ⟨h, m⟩) (hs : m.site? id = some s) (hid : ¬ m.Patched id) :
    Step ⟨h ++ [⟨.trapped id, m⟩], m⟩ ⟨h ++ [⟨.trapped id, m⟩], m.withState id .patching⟩ ∧
    Step ⟨h ++ [⟨.trapped id, m⟩], m.withState id .patching⟩
      ⟨h ++ [⟨.trapped id, m⟩] ++ [⟨.asked h.length id, m.withState id .patching⟩],
        m.withState id .patching⟩ := by
  refine ⟨.start hs (fun hstate => hid ((Machine.patched_iff hs).2 hstate)) (open_append ht id),
    .note ⟨?_, by simp, by simp [Binds]⟩⟩
  rintro _ _ ⟨⟩
  exact ⟨m, by simp, hid⟩

lemma performs_patchSite (hinit : ∀ c, Keeps (init c)) (id : SiteId) (s : PatchSite) :
    Performs Step (fun t => Sound t ∧ HasSite id s t) (patchSite init id s) fun _ _ => True := by
  rintro ⟨h, m⟩ ⟨ht, st, hs⟩
  refine ⟨?_, fun _ _ _ => trivial⟩
  have hbusy := busy_trapped ht ⟨st, hs⟩
  refine .head (step_trapped h m id) ?_
  by_cases hid : m.Patched id
  · rw [finalState_congr (patchSite_of_patched hid)]
    exact steps_settle hbusy hs (hid.ne_patching hs) (by simp)
  · rw [finalState_congr (patchSite_of_not_patched hid)]
    obtain ⟨hstart, hasked⟩ := steps_asked ht hs hid
    refine .head hstart (.head hasked ?_)
    refine (performs_askPatcher hinit h.length id s _ ?_).1
    exact busy_stable _ _ _ _ _ hasked (busy_stable _ _ _ _ _ hstart hbusy)

/-- A method that is found at an address is found under its number. -/
lemma method_of_find? (hm : m.Laid) {address : Address} {c : CompiledMethod}
    (hc : m.find? address = some c) : m.methods[c.number]? = some c := by
  have hlast := (Option.filter_eq_some_iff.1 hc).1
  obtain ⟨n, -, hn⟩ := List.mem_filterMap.1 (List.mem_of_getLast? hlast)
  have hget := (Option.filter_eq_some_iff.1 hn).1
  rw [hm.numbered n c hget]
  exact hget

lemma keeps_trapWith (hinit : ∀ c, Keeps (init c)) (address : Address) :
    Keeps (trapWith init address) := by
  intro t ht
  have hget : onMachine get t = .ok t.machine t := rfl
  refine ⟨?_, fun _ _ _ => trivial⟩
  unfold trapWith
  rw [finalState_congr (bind_of_ok hget)]
  cases hc : t.machine.find? address with
  | none => exact .refl
  | some c =>
    cases hi : c.siteIndex? address with
    | none =>
      simp only [hi]
      exact .refl
    | some i =>
      cases hs : c.sites[i]? with
      | none =>
        simp only [hi, hs]
        exact .refl
      | some s =>
        simp only [hi, hs]
        refine (performs_patchSite hinit ⟨c.number, i⟩ s t ⟨ht, s.state, ?_⟩).1
        simp [Machine.site?, method_of_find? ht.laid hc, hs]

lemma keeps_executeWith (hinit : ∀ c, Keeps (init c)) (address : Address) :
    Keeps (executeWith init address) := by
  refine (keeps_onMachine elsewhere_get).bind fun m => ?_
  cases m.find? address with
  | none => exact keeps_pure _
  | some c =>
    have hfetched : ∀ w, Elsewhere (do return some (← Machine.fetched c.entry address w)) :=
      fun w => (elsewhere_fetched _ _ w).bind fun _ => elsewhere_pure _
    refine (keeps_onMachine (elsewhere_read address)).bind fun w => ?_
    split
    · refine (keeps_trapWith hinit address).bind fun outcome => ?_
      split
      · exact keeps_pure _
      · exact keeps_onMachine ((elsewhere_read address).bind hfetched)
    · exact keeps_onMachine (hfetched w)

lemma keeps_serve (hinit : ∀ c, Keeps (init c)) (r : Request) : Keeps (serve init r) := by
  have hplain : ∀ r, serve init r = onMachine (Machine.serve (fun _ => return ()) r) →
      Elsewhere (Machine.serve (fun _ => return ()) r) → Keeps (serve init r) := by
    intro r hr helsewhere
    rw [hr]
    exact keeps_onMachine helsewhere
  cases r with
  | start c => exact hinit c
  | trap address => exact keeps_trapWith hinit address
  | execute address => exact keeps_executeWith hinit address
  | compile label method code => exact keeps_compile label method code
  | load l name => exact hplain _ rfl (elsewhere_onArea (Area.load l name))
  | define l d => exact hplain _ rfl (elsewhere_define l d)
  | phase c => exact hplain _ rfl fun _ => ⟨rfl, rfl⟩
  | code label => exact hplain _ rfl fun _ => ⟨rfl, rfl⟩
  | siteState n address => exact hplain _ rfl fun _ => ⟨rfl, rfl⟩
  | unload n => exact hplain _ rfl fun _ => ⟨rfl, rfl⟩

/-! ### Initializers -/

lemma sequential_keeps : Sequential Keeps where
  pure := keeps_pure
  throw := keeps_throw
  bind := Keeps.bind
  attempt := Keeps.attempt
  get := keeps_onMachine elsewhere_get

lemma composable_keeps : Composable Keeps where
  toSequential := sequential_keeps
  note _ := keeps_onMachine fun _ => ⟨rfl, rfl⟩
  enterClass := sequential_keeps.enterClass fun _ _ => keeps_onMachine (elsewhere_onArea _)

lemma keeps_initializeWithin (n : Nat) (c : Class) : Keeps (initializeWithin n c) :=
  composable_keeps.initializeWithin (fun _ hinit r => (keeps_serve hinit r).during _) n c

lemma keeps_initializeClass (c : Class) : Keeps (initializeClass c) :=
  (keeps_onMachine elsewhere_get).bind fun _ => keeps_initializeWithin _ c

lemma keeps_perform (c : Call) : Keeps (perform c) := by
  refine Keeps.during ?_ c
  cases c with
  | request r => exact (keeps_serve keeps_initializeClass r).discard
  | register p =>
    refine keeps_onMachine fun m => ?_
    rw [Call.perform, finalState_discard]
    exact ⟨rfl, rfl⟩
  | operate op => exact keeps_onMachine (elsewhere_onResolver _)

/-- Calls only make steps. -/
lemma steps_after (calls : List Call) {t : Watch} (ht : Sound t) :
    Relation.ReflTransGen Step t (t.after calls) := by
  induction calls generalizing t with
  | nil => exact .refl
  | cons c cs ih =>
    have hfirst := (keeps_perform c t ht).1
    exact hfirst.trans (ih (sound_stable.reflTransGen hfirst ht))

end

/-! ### All runs -/

/-- A machine into which nothing was compiled yet. -/
lemma sound_fresh {words : Nat} (hwords : words ≤ Builder.areaLimit)
    (hmemory : CodeMemory.create words = .ok m.memory) (hmethods : m.methods = []) :
    Sound ⟨[], m⟩ := by
  have hnone : ∀ id, m.site? id = none := by
    intro id
    simp [Machine.site?, hmethods]
  have hno : ∀ {p : Prop} {id : SiteId} {s : PatchSite}, m.site? id = some s → p := by
    intro p id s hs
    rw [hnone id] at hs
    cases hs
  have hcapacity : m.memory.capacity ≤ Builder.areaLimit ∧ m.memory.used = 0 := by
    unfold CodeMemory.create at hmemory
    split at hmemory
    · cases hmemory
    · rw [← Except.ok.inj hmemory]
      exact ⟨Nat.max_le.2 ⟨hwords, by decide⟩, rfl⟩
  refine ⟨⟨fun _ _ => hno, by simp, .nil, by simp, .nil, by simp⟩, ?_, by simp, by simp⟩
  refine ⟨hcapacity.1, by simp [hcapacity.2], by simp [hmethods], fun _ _ => hno, ?_, ?_, ?_,
    fun _ _ => hno, by simp [hmethods], by simp [hmethods], by simp [hmethods]⟩
  · exact fun _ _ _ _ hs _ _ => hno hs
  · exact fun _ _ _ _ hs _ _ => hno hs
  · exact fun _ _ _ _ hs _ => hno hs

/-- Patch sites are bound in order: after any calls and whatever the initializers do that they run,
at every start and every end of a call, of a trap and of a patcher, and in the end. -/
theorem sites_bound_in_order {words : Nat} (hwords : words ≤ 2 ^ 28)
    (hmemory : CodeMemory.create words = .ok m.memory) (hmethods : m.methods = [])
    (calls : List Call) :
    (after ⟨[], m⟩ calls).machine = m.after calls ∧ (after ⟨[], m⟩ calls).InOrder := by
  have hstart : Sound ⟨[], m⟩ := sound_fresh hwords hmemory hmethods
  have hend : Sound (after ⟨[], m⟩ calls) :=
    sound_stable.reflTransGen (steps_after calls hstart) hstart
  exact ⟨machine_after calls ⟨[], m⟩, hend.toInOrder⟩

/-! ### A site that is bound by its own initializer -/

/-- How the traps on a site ended that did not fail, in the order of their ends. -/
def outcomes (h : List Observation) (id : SiteId) : List TrapOutcome :=
  h.filterMap fun o =>
    match o.event with
    | .settled _ id' (.ok outcome) => if id' = id then some outcome else none
    | _ => none

/-- A class whose initializer runs the instruction at an address. -/
def selfUsing (address : Address) : List Call :=
  [.register fun _ => .ask (.trap address) fun _ => .done,
    .operate (.define .bootstrap
      { name := "p/A"
        flags := Flag.accPublic.mask
        methods := [⟨Flag.accPublic.mask, "m", ⟨[], .void⟩⟩]
        initializer := some ⟨0⟩ }),
    .request (.load .bootstrap "p/A")]

/-- A method that makes an object of the class, and a trap on its instruction. -/
def makesObject? (m : Machine) (address : Address) : Option (List Call) :=
  (m.area.published? .bootstrap "p/A").bind fun c => (c.methodAt? 0).map fun method =>
    [.request (.compile "m" method [⟨.new, .toClass (.unresolved ⟨method, ⟨c, "p/A"⟩, []⟩), 0⟩]),
      .request (.trap address)]

/-- A small machine. -/
def smallMachine : Machine :=
  { resolver := { area := Area.initial }
    memory := { capacity := 4 } }

/-- The trap of the initializer comes second and binds the site; the one that ran the initializer
finds the site bound. -/
theorem site_bound_by_initializer :
    ∃ calls, makesObject? (smallMachine.after (selfUsing 8)) 8 = some calls ∧
      outcomes (after ⟨[], smallMachine⟩ (selfUsing 8 ++ calls)).history ⟨0, 0⟩ =
        [.patched, .alreadyPatched] ∧
      (after ⟨[], smallMachine⟩ (selfUsing 8 ++ calls)).machine =
        smallMachine.after (selfUsing 8 ++ calls) ∧
      (after ⟨[], smallMachine⟩ (selfUsing 8 ++ calls)).InOrder := by
  have htest : ((makesObject? (smallMachine.after (selfUsing 8)) 8).any fun calls =>
      outcomes (after ⟨[], smallMachine⟩ (selfUsing 8 ++ calls)).history ⟨0, 0⟩ =
        [.patched, .alreadyPatched]) = true := by
    decide +kernel
  obtain ⟨calls, hcalls, houtcomes⟩ := (Option.any_eq_true _ _).1 htest
  exact ⟨calls, hcalls, of_decide_eq_true houtcomes,
    sites_bound_in_order (show 4 ≤ 2 ^ 28 by decide) rfl rfl (selfUsing 8 ++ calls)⟩

end Watch

end Linkage
