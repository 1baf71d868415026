import Linkage.Proofs.Machine.Patching

/-!
# Traps that fail

A trap that ends in a fault leaves its site as it found it: not bound, with the trap in the code
word and nothing in the data word, so that the next run of the instruction asks the patcher again.
The one exception is a site that was bound while the patcher of the trap was at work, by a trap of
an initializer that the patcher ran: such a site stays bound, whatever becomes of the outer trap.
-/

namespace Linkage

open Relation

namespace Watch

open Machine (Patched Laid Installed)

variable {h : List Observation} {m m' : Machine} {id : SiteId} {s : PatchSite}

/-! ### Who bound a site -/

/-- If a site is bound, then by a trap whose end is among the observations after the first `n`. -/
def Attested (n : Nat) (id : SiteId) (t : Watch) : Prop :=
  t.machine.Patched id → ∃ o ∈ t.history.drop n, Binds o.event id

lemma Attested.append {n : Nat} (hlength : n ≤ h.length) (ht : Attested n id ⟨h, m⟩)
    (o : Observation) : Attested n id ⟨h ++ [o], m⟩ := by
  intro hid
  obtain ⟨o', ho', hbinds⟩ := ht hid
  refine ⟨o', ?_, hbinds⟩
  rw [List.drop_append_of_le_length hlength]
  exact List.mem_append_left _ ho'

/-- A site is not bound by a method that is installed. -/
lemma patched_of_installed (hinstalled : Installed m m') (hid : m'.Patched id) : m.Patched id := by
  obtain ⟨s, hs, hstate⟩ := Machine.exists_of_patched hid
  cases hold : m.site? id with
  | none =>
    have hnew := (hinstalled.new id s hs hold).1
    rw [hstate] at hnew
    cases hnew
  | some s' =>
    have hsame := (hinstalled.old id s' hold).1
    rw [hs] at hsame
    cases hsame
    exact (Machine.patched_iff hold).2 hstate

lemma patched_of_withState {id' : SiteId} {st : PatchState} (hst : st ≠ .patched)
    (hid : (m.withState id' st).Patched id) : m.Patched id := by
  obtain ⟨s, hs, hstate⟩ := Machine.exists_of_patched hid
  rcases Machine.site?_withState_cases hs with ⟨-, s', -, rfl⟩ | ⟨-, hs⟩
  · exact absurd hstate hst
  · exact (Machine.patched_iff hs).2 hstate

/-- Sites are bound by traps, and the end of such a trap is seen at once. -/
lemma attested_stable (n : Nat) (id : SiteId) :
    Stable Step fun t => Sound t ∧ n ≤ t.history.length ∧ Attested n id t := by
  rintro t t' hstep ⟨ht, hlength, hattested⟩
  refine ⟨sound_stable t t' hstep ht, ?_⟩
  cases hstep with
  | elsewhere hmemory hmethods =>
    refine ⟨hlength, fun hid => hattested ?_⟩
    exact patched_of_installed (ht.laid.installed hmemory hmethods) hid
  | install hinstalled =>
    exact ⟨hlength, fun hid => hattested (patched_of_installed hinstalled hid)⟩
  | note he =>
    refine ⟨?_, hattested.append hlength _⟩
    rw [List.length_append]
    exact Nat.le_add_right_of_le hlength
  | start => exact ⟨hlength, fun hid => hattested (patched_of_withState (by decide) hid)⟩
  | giveUp => exact ⟨hlength, fun hid => hattested (patched_of_withState (by decide) hid)⟩
  | @bind h m id' s w trap words hs =>
    refine ⟨?_, fun hid => ?_⟩
    · rw [List.length_append]
      exact Nat.le_add_right_of_le hlength
    · rw [List.drop_append_of_le_length hlength]
      by_cases heq : id = id'
      · subst heq
        exact ⟨_, List.mem_append_right _ (List.mem_singleton.2 rfl), trap, rfl⟩
      · obtain ⟨o, ho, hbinds⟩ := hattested ((Machine.patched_withState_of_ne heq).1 hid)
        exact ⟨o, List.mem_append_left _ ho, hbinds⟩

/-! ### How a trap fails -/

/-- A trap whose patcher failed: the site stays bound if it is, and waits again if it is not. -/
lemma leaveSite_cases (trap : Nat) (id : SiteId) (f : Fault) (t : Watch) :
    ∃ m', leaveSite trap id f t =
        .error f ⟨t.history ++ [⟨.settled trap id (.error f), m'⟩], m'⟩ ∧
      (t.machine.Patched id ∧ m' = t.machine ∨
        ¬ t.machine.Patched id ∧ m' = t.machine.withState id .unpatched) := by
  unfold leaveSite
  by_cases hid : t.machine.Patched id
  · rw [isPatched_bind_of_patched hid]
    exact ⟨t.machine, rfl, .inl ⟨hid, rfl⟩⟩
  · rw [isPatched_bind_of_not_patched hid]
    exact ⟨t.machine.withState id .unpatched, rfl, .inr ⟨hid, rfl⟩⟩

/-- A trap whose patcher returned a word does not fail any more. -/
lemma finishSite_ne_error {trap : Nat} {t t' : Watch} (ht : Busy trap id s t) (w : Word)
    (f : Fault) : finishSite trap id s w t ≠ .error f t' := by
  intro hrun
  obtain ⟨-, hok⟩ | ⟨-, words, hok, -⟩ := finishSite_cases ht w
  · rw [hok] at hrun
    cases hrun
  · rw [hok] at hrun
    cases hrun

section

variable {init : Class → WatchM Unit} {trap : Nat} {t t' : Watch} {f : Fault}

/-- A trap fails because its patcher does, whatever the initializers did that it ran. -/
lemma askPatcher_eq_error (hinit : ∀ c, Keeps (init c)) (ht : Busy trap id s t)
    (hrun : askPatcher init trap id s t = .error f t') :
    ∃ u, ReflTransGen Step t u ∧ leaveSite trap id f u = .error f t' := by
  have hask := ((keeps_patchWord hinit s.patcher s.operand).attempt t ht.1).1
  unfold askPatcher at hrun
  cases hword : attempt (patchWord init s.patcher s.operand) t with
  | error e u =>
    unfold attempt at hword
    split at hword <;> cases hword
  | ok outcome u =>
    rw [finalState_of_ok hword] at hask
    rw [bind_of_ok hword] at hrun
    cases outcome with
    | error e =>
      obtain ⟨m', hleave, -⟩ := leaveSite_cases trap id e u
      have hsame := hleave.symm.trans hrun
      cases hsame
      exact ⟨u, hask, hleave⟩
    | ok w =>
      have hbusy := (busy_stable trap id s).reflTransGen hask ht
      have hnote : Step u ⟨u.history ++ [⟨.returned trap id w, u.machine⟩], u.machine⟩ :=
        .note ⟨by simp, by simp, by simp [Binds]⟩
      exact absurd hrun (finishSite_ne_error (busy_stable trap id s _ _ hnote hbusy) w f)

/-- A trap that fails found its site not bound. It asked the patcher, and left the site in one of
two ways after the patcher had failed. -/
lemma patchSite_eq_error (hinit : ∀ c, Keeps (init c)) (ht : Sound t)
    (hs : t.machine.site? id = some s) (hrun : patchSite init id s t = .error f t') :
    ¬ t.machine.Patched id ∧ ∃ u m', ReflTransGen Step t u ∧
      t' = ⟨u.history ++ [⟨.settled t.history.length id (.error f), m'⟩], m'⟩ ∧
      (u.machine.Patched id ∧ m' = u.machine ∨
        ¬ u.machine.Patched id ∧ m' = u.machine.withState id .unpatched) := by
  obtain ⟨h, m⟩ := t
  by_cases hid : m.Patched id
  · rw [patchSite_of_patched hid] at hrun
    cases hrun
  · rw [patchSite_of_not_patched hid] at hrun
    refine ⟨hid, ?_⟩
    obtain ⟨hstart, hasked⟩ := steps_asked ht hs hid
    have hbusy := busy_stable _ _ _ _ _ hasked
      (busy_stable _ _ _ _ _ hstart (busy_trapped ht ⟨s.state, hs⟩))
    obtain ⟨u, hu, hleave⟩ := askPatcher_eq_error hinit hbusy hrun
    obtain ⟨m', hleave', hcases⟩ := leaveSite_cases h.length id f u
    have hsame := hleave.symm.trans hleave'
    cases hsame
    exact ⟨u, m', .head (step_trapped h m id) (.head hstart (.head hasked hu)), rfl, hcases⟩

end

/-! ### The next run of an instruction -/

end Watch

namespace Machine

variable {m : Machine} {id : SiteId} {s : PatchSite} {c : CompiledMethod}

/-- The only site at an address is found there. -/
lemma siteIndex?_of_unique {i : Nat} (hs : c.sites[i]? = some s)
    (hunique : ∀ j s', c.sites[j]? = some s' → s'.position = s.position → j = i) :
    c.siteIndex? s.position = some i := by
  unfold CompiledMethod.siteIndex?
  cases hlast : (c.sites.zipIdx.filter fun e => e.1.position = s.position).getLast? with
  | none =>
    have hmem : (s, i) ∈ c.sites.zipIdx.filter fun e => e.1.position = s.position :=
      List.mem_filter.2 ⟨List.mk_mem_zipIdx_iff_getElem?.2 hs, by simp⟩
    rw [List.getLast?_eq_none_iff.1 hlast] at hmem
    cases hmem
  | some e =>
    obtain ⟨hmem, hposition⟩ := List.mem_filter.1 (List.mem_of_getLast? hlast)
    have hindex := hunique e.2 e.1 (List.mk_mem_zipIdx_iff_getElem?.1 hmem)
      (of_decide_eq_true hposition)
    rw [Option.map_some, hindex]

/-- As long as the address of a site leads to its method, a trap there is a trap on the site. -/
lemma trapWith_of_find? (hm : m.Laid) (hs : m.site? id = some s)
    (hc : m.find? s.position = some c) (hnumber : c.number = id.method)
    (init : Class → MachineM Unit) :
    trapWith init s.position m = patchSite init id.method id.index s m := by
  have hmethod := Watch.method_of_find? hm hc
  rw [hnumber] at hmethod
  have hsite : ∀ j, m.site? ⟨id.method, j⟩ = c.sites[j]? := by
    intro j
    simp [site?, hmethod]
  have hindex : c.siteIndex? s.position = some id.index := by
    refine siteIndex?_of_unique ((hsite id.index).symm.trans hs) fun j s' hs' hposition => ?_
    have hid := hm.ownCode ⟨id.method, j⟩ id s' s ((hsite j).trans hs') hs hposition
    exact congrArg SiteId.index hid
  unfold trapWith
  rw [bind_of_ok (get_apply m)]
  simp only [hc, hindex, ← hsite, hnumber]
  rw [show m.site? ⟨id.method, id.index⟩ = some s from hs]

lemma patchSite_ne_noPatchSite {init : Class → MachineM Unit} {number index : Nat} {m' : Machine} :
    patchSite init number index s m ≠ .ok .noPatchSite m' := by
  intro hrun
  unfold patchSite at hrun
  obtain ⟨patched, m₁, -, hrun⟩ := bind_eq_ok.1 hrun
  cases patched with
  | true => cases hrun
  | false =>
    obtain ⟨-, m₂, -, hrun⟩ := bind_eq_ok.1 hrun
    obtain ⟨outcome, m₃, -, hrun⟩ := bind_eq_ok.1 hrun
    cases outcome with
    | error f =>
      obtain ⟨patched, m₄, -, hrun⟩ := bind_eq_ok.1 hrun
      cases patched with
      | true => cases hrun
      | false => cases hrun
    | ok w =>
      obtain ⟨patched, m₄, -, hrun⟩ := bind_eq_ok.1 hrun
      cases patched with
      | true => cases hrun
      | false =>
        obtain ⟨-, m₅, -, hrun⟩ := bind_eq_ok.1 hrun
        cases hrun

lemma read_of_word? {address : Address} {w : Word} (hw : m.word? address = some w) :
    read address m = .ok w m := by
  rw [word?] at hw
  unfold read
  rw [bind_of_ok (get_apply m)]
  simp only [hw]
  rfl

/-- Where a trap stands, the instruction runs only after its site was dealt with. -/
lemma executeWith_of_trap (hm : m.Laid) (hs : m.site? id = some s)
    (hc : m.find? s.position = some c) (hnumber : c.number = id.method)
    (hword : m.word? s.position = some (.bits trapWord)) (init : Class → MachineM Unit) :
    executeWith init s.position m = (do
      let _ ← patchSite init id.method id.index s
      return some (← fetched c.entry s.position (← read s.position))) m := by
  have htrap : (Word.bits trapWord).isTrap = true := by decide
  unfold executeWith
  rw [bind_of_ok (get_apply m)]
  simp only [hc]
  rw [bind_of_ok (read_of_word? hword)]
  simp only [htrap, if_true]
  have hsame := trapWith_of_find? hm hs hc hnumber init
  cases hrun : patchSite init id.method id.index s m with
  | error f m' => rw [bind_of_error hrun, bind_of_error (hsame.trans hrun)]
  | ok outcome m' =>
    have hne : outcome ≠ .noPatchSite := by
      rintro rfl
      exact patchSite_ne_noPatchSite hrun
    rw [bind_of_ok hrun, bind_of_ok (hsame.trans hrun), if_neg hne]

end Machine

/-! ### All runs -/

namespace Watch

open Machine (Patched)

variable {m : Machine}

/-- The states in which a machine is seen: between two calls, and while a call is carried out
whenever something is noted. -/
inductive Visits (m : Machine) : Watch → Prop
  | between (calls : List Call) : Visits m (after ⟨[], m⟩ calls)
  | during (calls : List Call) {k : Nat} {o : Observation}
      (ho : (after ⟨[], m⟩ calls).history[k]? = some o) :
      Visits m ⟨(after ⟨[], m⟩ calls).history.take (k + 1), o.machine⟩

/-- A step leaves the history alone, or it notes the machine that it leads to. -/
def Notes (t t' : Watch) : Prop :=
  t'.history = t.history ∨ ∃ e, t'.history = t.history ++ [⟨e, t'.machine⟩]

lemma Step.notes {t t' : Watch} (hstep : Step t t') : Notes t t' := by
  cases hstep with
  | note he => exact .inr ⟨_, rfl⟩
  | bind => exact .inr ⟨_, rfl⟩
  | _ => exact .inl rfl

/-- What no step undoes held whenever something was noted. -/
lemma noted_stable {step : Watch → Watch → Prop} (hsteps : ∀ t t', step t t' → Notes t t')
    {P : Watch → Prop} (hP : Stable step P) : Stable step fun t => P t ∧
      ∀ k o, t.history[k]? = some o → P ⟨t.history.take (k + 1), o.machine⟩ := by
  rintro t t' hstep ⟨ht, hbefore⟩
  have ht' := hP t t' hstep ht
  refine ⟨ht', fun k o ho => ?_⟩
  rcases hsteps t t' hstep with heq | ⟨e, heq⟩
  · rw [heq] at ho ⊢
    exact hbefore k o ho
  · rw [heq] at ho
    rcases getElem?_append_singleton ho with ho | ⟨rfl, rfl⟩
    · rw [heq, List.take_append_of_le_length (List.getElem?_eq_some_iff.1 ho).1]
      exact hbefore k o ho
    · -- Of a state whose history has one more observation, the state itself is the last moment.
      rw [List.take_of_length_le (by simp [heq])]
      exact ht'

lemma before_stable {step : Watch → Watch → Prop} (hsteps : ∀ t t', step t t' → Step t t')
    {P : Watch → Prop} (hP : Stable step P) : Stable step fun t => P t ∧
      ∀ k o, t.history[k]? = some o → P ⟨t.history.take (k + 1), o.machine⟩ :=
  noted_stable (fun t t' hstep => (hsteps t t' hstep).notes) hP

/-- What no step undoes holds in every state in which the machine is seen, if it holds at first and
calls only make such steps. -/
lemma Visits.of_steps {step : Watch → Watch → Prop} (hsteps : ∀ t t', step t t' → Notes t t')
    {P : Watch → Prop} (hP : Stable step P)
    (hcalls : ∀ calls, Relation.ReflTransGen step ⟨[], m⟩ (after ⟨[], m⟩ calls))
    (hstart : P ⟨[], m⟩) {t : Watch} (ht : Visits m t) : P t := by
  cases ht with
  | between calls => exact hP.reflTransGen (hcalls calls) hstart
  | during calls ho =>
    have hbefore := (noted_stable hsteps hP).reflTransGen (hcalls calls) ⟨hstart, by simp⟩
    exact hbefore.2 _ _ ho

lemma Visits.of_stable {P : Watch → Prop} (hP : Stable Step P) (hsound : Sound ⟨[], m⟩)
    (hstart : P ⟨[], m⟩) {t : Watch} (ht : Visits m t) : P t :=
  ht.of_steps (fun _ _ => Step.notes) hP (fun calls => steps_after calls hsound) hstart

lemma Visits.sound {words : Nat} (hwords : words ≤ 2 ^ 28)
    (hmemory : CodeMemory.create words = .ok m.memory) (hmethods : m.methods = []) {t : Watch}
    (ht : Visits m t) : Sound t :=
  ht.of_stable sound_stable (sound_fresh hwords hmemory hmethods)
    (sound_fresh hwords hmemory hmethods)

/-- What was seen before was a state in which the machine was seen. -/
lemma Visits.earlier {t : Watch} (ht : Visits m t) {k : Nat} {o : Observation}
    (ho : t.history[k]? = some o) : Visits m ⟨t.history.take (k + 1), o.machine⟩ := by
  cases ht with
  | between calls => exact .during calls ho
  | @during calls n o' ho' =>
    have hk : k < n + 1 := by
      have hlt := (List.getElem?_eq_some_iff.1 ho).1
      rw [List.length_take] at hlt
      omega
    rw [List.take_take, Nat.min_eq_left hk]
    refine .during calls ?_
    rwa [List.getElem?_take_of_lt hk] at ho

/-- What initializes classes, watched and not: for a call from outside, and for the calls of
initializers that run inside one another. -/
inductive Initializes : (Class → WatchM Unit) → (Class → MachineM Unit) → Prop
  | outside : Initializes initializeClass Machine.initializeClass
  | inside (n : Nat) : Initializes (initializeWithin n) (Machine.initializeWithin n)

section

variable {init : Class → WatchM Unit} {init' : Class → MachineM Unit}

lemma Initializes.keeps (h : Initializes init init') (c : Class) : Keeps (init c) := by
  cases h with
  | outside => exact keeps_initializeClass c
  | inside n => exact keeps_initializeWithin n c

lemma Initializes.follows (h : Initializes init init') (c : Class) :
    Follows (init c) (init' c) := by
  cases h with
  | outside => exact follows_initializeClass c
  | inside n => exact follows_initializeWithin n c

end

lemma Follows.eq_error {α : Type} {x : WatchM α} {y : MachineM α} (h : Follows x y) {t : Watch}
    {f : Fault} {m' : Machine} (hy : y t.machine = .error f m') :
    ∃ t', x t = .error f t' ∧ t'.machine = m' := by
  have hrun := h t
  rw [hy] at hrun
  cases hx : x t with
  | ok v t' =>
    rw [hx] at hrun
    cases hrun
  | error e t' =>
    rw [hx] at hrun
    cases hrun
    exact ⟨t', rfl, rfl⟩

/-- A site as it is before it is bound: it traps, its data word is the one it had in another state
of the machine, and a run of the instruction starts with a trap that asks the patcher. -/
structure Waiting (before m : Machine) (id : SiteId) (s : PatchSite) : Prop where
  state : m.site? id = some { s with state := .unpatched }
  code : m.word? s.position = some (.bits trapWord)
  data : m.word? s.dataAddress = before.word? s.dataAddress
  retried : ∀ c, m.find? s.position = some c → c.number = id.method → ∀ init,
    Machine.executeWith init s.position m = (do
      let _ ← Machine.patchSite init id.method id.index { s with state := .unpatched }
      return some (← Machine.fetched c.entry s.position (← Machine.read s.position))) m

/-- A site as it is once it is bound: the instruction stands in the code area and its data word is
one that the patcher returned. -/
structure Bound (t : Watch) (id : SiteId) (s : PatchSite) : Prop where
  state : t.machine.site? id = some { s with state := .patched }
  code : t.machine.word? s.position = some (.bits s.saved)
  runs : isTrap s.saved = false
  data : ∃ w, t.machine.word? s.dataAddress = some w ∧
    ∃ o ∈ t.history, ∃ trap, o.event = .returned trap id w

lemma Sound.bound {t : Watch} (ht : Sound t) {id : SiteId} {s : PatchSite} (hs : HasSite id s t)
    (hid : t.machine.Patched id) : Bound t id s := by
  obtain ⟨st, hs⟩ := hs
  obtain rfl : st = .patched := (Machine.patched_iff hs).1 hid
  obtain ⟨hcode, hruns, hdata⟩ := (ht.now id _ hs).bound rfl
  exact ⟨hs, hcode, hruns, hdata⟩

/-- A site that a trap gives up waits as it did before. -/
lemma Sound.waiting {t u : Watch} (ht : Sound t) (hu : Sound u) {id : SiteId} {s : PatchSite}
    (hs : t.machine.site? id = some s) (hs' : HasSite id s u) (hid : ¬ t.machine.Patched id)
    (hid' : ¬ u.machine.Patched id) :
    Waiting t.machine (u.machine.withState id .unpatched) id s := by
  obtain ⟨st, hs'⟩ := hs'
  have hstate : st ≠ .patched := fun hst => hid' ((Machine.patched_iff hs').2 hst)
  have hbefore := (ht.now id s hs).waiting fun hst => hid ((Machine.patched_iff hs).2 hst)
  have hnow := (hu.now id _ hs').waiting hstate
  have hgiven : Sound ⟨u.history, u.machine.withState id .unpatched⟩ :=
    sound_stable u _ (.giveUp hs' hstate) hu
  have hsite := Machine.site?_withState_self hs' .unpatched
  refine ⟨hsite, hnow.1, hnow.2.trans hbefore.2.symm, fun c hc hnumber init => ?_⟩
  exact Machine.executeWith_of_trap hgiven.laid hsite hc hnumber hnow.1 init

/-- Whenever a trap fails, in whatever state of a run and however deep inside initializers, its site
waits as before the trap, unless a trap that was made while the patcher was at work has bound it:
then it stays bound. -/
theorem failed_trap_leaves_site {words : Nat} (hwords : words ≤ 2 ^ 28)
    (hmemory : CodeMemory.create words = .ok m.memory) (hmethods : m.methods = []) {t : Watch}
    (ht : Visits m t) {init : Class → WatchM Unit} {init' : Class → MachineM Unit}
    (hinit : Initializes init init') {id : SiteId} {s : PatchSite}
    (hs : t.machine.site? id = some s) {f : Fault} {m' : Machine}
    (hfail : Machine.patchSite init' id.method id.index s t.machine = .error f m') :
    ¬ t.machine.Patched id ∧
    ∃ t', patchSite init id s t = .error f t' ∧ t'.machine = m' ∧
      (Waiting t.machine m' id s ∧ (∀ o ∈ t'.history.drop t.history.length, ¬ Binds o.event id) ∨
        Bound t' id s ∧ ∃ o ∈ t'.history.drop t.history.length, Binds o.event id) := by
  have hsound := ht.sound hwords hmemory hmethods
  obtain ⟨t', hrun, rfl⟩ := (follows_patchSite hinit.follows id s).eq_error hfail
  obtain ⟨hid, u, m', hsteps, rfl, hleft⟩ := patchSite_eq_error hinit.keeps hsound hs hrun
  obtain ⟨hu, hlength, hattested⟩ :=
    (attested_stable t.history.length id).reflTransGen hsteps
      ⟨hsound, Nat.le_refl _, fun hpatched => absurd hpatched hid⟩
  obtain ⟨-, hsite⟩ := (hasSite_stable id s).reflTransGen hsteps ⟨hsound, s.state, hs⟩
  refine ⟨hid, _, hrun, rfl, ?_⟩
  rw [List.drop_append_of_le_length hlength]
  rcases hleft with ⟨hpatched, rfl⟩ | ⟨hpatched, rfl⟩
  · right
    obtain ⟨o, ho, hbinds⟩ := hattested hpatched
    refine ⟨?_, o, List.mem_append_left _ ho, hbinds⟩
    obtain ⟨hstate, hcode, hruns, w, hdata, o', ho', hreturned⟩ := hu.bound hsite hpatched
    exact ⟨hstate, hcode, hruns, w, hdata, o', List.mem_append_left _ ho', hreturned⟩
  · left
    refine ⟨hsound.waiting hu hs hsite hid hpatched, fun o ho hbinds => ?_⟩
    rcases List.mem_append.1 ho with ho | ho
    · exact hpatched (hu.claimed o (List.mem_of_mem_drop ho) id hbinds)
    · rw [List.mem_singleton.1 ho] at hbinds
      obtain ⟨trap, heq⟩ := hbinds
      cases heq

/-! ### Initializers that fail -/

/-- Whether an operation fails and ends in a state that a test accepts. -/
def failsWhere {α : Type} (x : MachineM α) (accept : Machine → Bool) (m : Machine) : Bool :=
  match x m with
  | .error _ m' => accept m'
  | .ok _ _ => false

lemma exists_fails {α : Type} {x : MachineM α} {accept : Machine → Bool} {m : Machine}
    (h : failsWhere x accept m = true) : ∃ f m', x m = .error f m' ∧ accept m' = true := by
  unfold failsWhere at h
  split at h
  · next f m' hx => exact ⟨f, m', hx, h⟩
  · cases h

/-- A class like that of `selfUsing`, with another initializer. -/
def initializedBy (p : Program) : List Call :=
  .register (fun _ => p) :: (selfUsing 8).tail

/-- A machine on which a method was compiled that makes an object of a class with an initializer. -/
def machineWith? (p : Program) : Option Machine :=
  (makesObject? (smallMachine.after (initializedBy p)) 8).map fun calls =>
    smallMachine.after (initializedBy p ++ calls.dropLast)

/-- The fault of an initializer. -/
def unlucky : Fault := .raised .linkage "unlucky"

/-- The initializer of the class fails, and the site waits as before. -/
theorem site_waits_after_failure :
    ∃ m s f m', machineWith? (.fail unlucky) = some m ∧ m.site? ⟨0, 0⟩ = some s ∧
      Machine.patchSite Machine.initializeClass 0 0 s m = .error f m' ∧
      Waiting m m' ⟨0, 0⟩ s := by
  have htest : ((machineWith? (.fail unlucky)).any fun m => (m.site? ⟨0, 0⟩).any fun s =>
      failsWhere (Machine.patchSite Machine.initializeClass 0 0 s)
        (fun m' => m'.siteState? 0 0 = some .unpatched) m) = true := by
    decide +kernel
  obtain ⟨m, hm, htest⟩ := (Option.any_eq_true _ _).1 htest
  obtain ⟨s, hs, htest⟩ := (Option.any_eq_true _ _).1 htest
  obtain ⟨f, m', hfail, hstate⟩ := exists_fails htest
  obtain ⟨calls, hcalls, rfl⟩ := Option.map_eq_some_iff.1 hm
  rw [← machine_after _ ⟨[], smallMachine⟩] at hs hfail
  have hvisits := Visits.between (m := smallMachine)
    (initializedBy (.fail unlucky) ++ calls.dropLast)
  obtain ⟨-, t', -, rfl, hleft⟩ := failed_trap_leaves_site (show 4 ≤ 2 ^ 28 by decide) rfl rfl
    hvisits .outside hs hfail
  rw [machine_after] at hs hfail hleft
  refine ⟨_, s, f, t'.machine, hm, hs, hfail, ?_⟩
  rcases hleft with ⟨hwaiting, -⟩ | ⟨hbound, -⟩
  · exact hwaiting
  · have hpatched := (Machine.patched_iff hbound.state).2 rfl
    rw [Patched, of_decide_eq_true hstate] at hpatched
    cases hpatched

/-- A method that makes an object of a class that nobody knows. -/
def makesUnknown? (m : Machine) : Option Machine :=
  (m.area.published? .bootstrap "p/A").bind fun c => (c.methodAt? 0).map fun method =>
    m.after [.request (.compile "m" method
      [⟨.new, .toClass (.unresolved ⟨method, ⟨c, "p/B"⟩, []⟩), 0⟩])]

/-- The calls that make the class known. -/
def defineUnknown : List Call :=
  [.operate (.define .bootstrap { name := "p/B", flags := Flag.accPublic.mask })]

/-- A trap can fail and leave its site bound: the initializer traps on the site itself before it
fails. And a trap can fail on a site that the next run binds: the class was made known meanwhile. -/
theorem failed_trap_on_bound_site :
    (∃ m f m' w, machineWith? (.ask (.trap 8) fun _ => .fail unlucky) = some m ∧
      Machine.trap 8 m = .error f m' ∧ m'.siteState? 0 0 = some .patched ∧
      m'.word? 8 = some w ∧ w.isTrap = false) ∧
    ∃ m f m' e m'', makesUnknown? (smallMachine.after (selfUsing 8)) = some m ∧
      Machine.trap 8 m = .error f m' ∧
      Machine.execute 8 (m'.after defineUnknown) = .ok (some e) m'' := by
  have hbound : ((machineWith? (.ask (.trap 8) fun _ => .fail unlucky)).any
      (failsWhere (Machine.trap 8) fun m' => m'.siteState? 0 0 = some .patched &&
        (m'.word? 8).any fun w => !w.isTrap)) = true := by
    decide +kernel
  have hagain : ((makesUnknown? (smallMachine.after (selfUsing 8))).any
      (failsWhere (Machine.trap 8) fun m' =>
        yields Option.isSome (Machine.execute 8 (m'.after defineUnknown)))) = true := by
    decide +kernel
  constructor
  · obtain ⟨m, hm, htest⟩ := (Option.any_eq_true _ _).1 hbound
    obtain ⟨f, m', hfail, htest⟩ := exists_fails htest
    simp only [Bool.and_eq_true, decide_eq_true_eq, Option.any_eq_true, Bool.not_eq_true'] at htest
    obtain ⟨hstate, w, hw, htrap⟩ := htest
    exact ⟨m, f, m', w, hm, hfail, hstate, hw, htrap⟩
  · obtain ⟨m, hm, htest⟩ := (Option.any_eq_true _ _).1 hagain
    obtain ⟨f, m', hfail, htest⟩ := exists_fails htest
    obtain ⟨found, m'', hrun, hsome⟩ := exists_of_yields htest
    obtain ⟨e, rfl⟩ := Option.isSome_iff_exists.1 hsome
    exact ⟨m, f, m', e, m'', hm, hfail, hrun⟩

end Watch

end Linkage
