import Linkage.Proofs.Machine.Failing

/-!
# Calls that compile methods

A call that compiles a method runs no initializers. So when such a call was seen, whether it came
from outside or from an initializer, then what is seen next is its end, and the machine is then the
one that compiling led to.
-/

namespace Linkage

open Relation

namespace Watch

variable {α β : Type} {h h' : List Observation} {o o' : Observation}

/-- Methods are compiled before anything else is seen. -/
def Prompt (h : List Observation) : Prop :=
  ∀ (k : Nat) (o : Observation) (label : String) (method : MethodHandle)
    (code : List Instruction), h[k]? = some o →
    o.event = .called (.request (.compile label method code)) →
    ∃ o', h[k + 1]? = some o' ∧
      o'.machine = finalState (Machine.compile label method code) o.machine

/-- Whether a call compiles a method. -/
def compiles : Call → Bool
  | .request (.compile ..) => true
  | _ => false

lemma Prompt.append (hh : Prompt h) (hh' : Prompt h') : Prompt (h ++ h') := by
  intro k o label method code ho hevent
  rcases Nat.lt_or_ge k h.length with hlt | hge
  · rw [List.getElem?_append_left hlt] at ho
    obtain ⟨o', ho', hmachine⟩ := hh k o label method code ho hevent
    exact ⟨o', Builder.getElem?_append_of_some ho', hmachine⟩
  · rw [List.getElem?_append_right hge] at ho
    obtain ⟨o', ho', hmachine⟩ := hh' (k - h.length) o label method code ho hevent
    refine ⟨o', ?_, hmachine⟩
    rw [List.getElem?_append_right (by omega), Nat.sub_add_comm hge]
    exact ho'

lemma prompt_nil : Prompt [] := by
  intro k o label method code ho
  cases ho

lemma prompt_singleton (ho : ∀ c, o.event = .called c → compiles c = false) : Prompt [o] := by
  intro k o' label method code ho' hevent
  rw [List.getElem?_singleton] at ho'
  split at ho' <;> cases ho'
  cases ho _ hevent

/-- A history goes on promptly. -/
def Proceeds (t t' : Watch) : Prop := ∃ h, t'.history = t.history ++ h ∧ Prompt h

lemma Proceeds.of_reflTransGen {t t' : Watch} (hsteps : ReflTransGen Proceeds t t') :
    Proceeds t t' := by
  induction hsteps with
  | refl => exact ⟨[], by simp, prompt_nil⟩
  | tail _ hlast ih =>
    obtain ⟨h, hh, hprompt⟩ := ih
    obtain ⟨h', hh', hprompt'⟩ := hlast
    exact ⟨h ++ h', by rw [hh', hh, List.append_assoc], hprompt.append hprompt'⟩

/-! ### Operations -/

section

variable {x : WatchM α} {init : Class → WatchM Unit}

/-- An operation that goes on promptly. -/
def Proceeding (x : WatchM α) : Prop := Performs Proceeds (fun _ => True) x fun _ _ => True

lemma proceeding_pure (v : α) : Proceeding (pure v) := Performs.pure fun _ _ => trivial

lemma proceeding_throw (e : Fault) : Proceeding (throw e : WatchM α) := Performs.throw e

lemma proceeding_ofExcept (v : Except Fault α) : Proceeding (ofExcept v) := by
  cases v with
  | ok v => exact proceeding_pure v
  | error e => exact proceeding_throw e

lemma Proceeding.bind {f : α → WatchM β} (hx : Proceeding x) (hf : ∀ v, Proceeding (f v)) :
    Proceeding (x >>= f) := Performs.bind hx hf

lemma Proceeding.attempt (hx : Proceeding x) : Proceeding (attempt x) :=
  (performs_attempt hx).weaken (fun _ _ => trivial) fun _ _ _ => trivial

lemma Proceeding.discard (hx : Proceeding x) : Proceeding (Functor.discard x) :=
  performs_discard hx

lemma proceeding_onMachine (y : MachineM α) : Proceeding (onMachine y) := by
  intro t _
  rw [finalState_onMachine]
  exact ⟨.single ⟨[], by simp, prompt_nil⟩, fun _ _ _ => trivial⟩

lemma proceeding_see {e : Event} (he : ∀ c, e = .called c → compiles c = false) :
    Proceeding (see e) := by
  intro t _
  exact ⟨.single ⟨[⟨e, t.machine⟩], rfl, prompt_singleton he⟩, fun _ _ _ => trivial⟩

lemma finalState_during (c : Call) (x : WatchM α) (t : Watch) :
    finalState (during c x) t =
      let u := finalState x ⟨t.history ++ [⟨.called c, t.machine⟩], t.machine⟩
      ⟨u.history ++ [⟨.ended c, u.machine⟩], u.machine⟩ := by
  unfold during
  rw [finalState_congr (bind_of_ok (see_apply _ _))]
  unfold finalState
  cases hx : x ⟨t.history ++ [⟨.called c, t.machine⟩], t.machine⟩ with
  | ok v u =>
    have hattempt : Watch.attempt x ⟨t.history ++ [⟨.called c, t.machine⟩], t.machine⟩ =
        .ok (.ok v) u := by simp [Watch.attempt, hx]
    rw [bind_of_ok hattempt, bind_of_ok (see_apply _ _)]
    rfl
  | error e u =>
    have hattempt : Watch.attempt x ⟨t.history ++ [⟨.called c, t.machine⟩], t.machine⟩ =
        .ok (.error e) u := by simp [Watch.attempt, hx]
    rw [bind_of_ok hattempt, bind_of_ok (see_apply _ _)]
    rfl

/-- A call is carried out promptly if it is, or if it is one that compiles a method and nothing is
seen meanwhile. -/
lemma Proceeding.during (hx : Proceeding x) {c : Call}
    (hc : ∀ label method code, c = .request (.compile label method code) → ∀ t,
      finalState x t = ⟨t.history, finalState (Machine.compile label method code) t.machine⟩) :
    Proceeding (during c x) := by
  intro t _
  refine ⟨?_, fun _ _ _ => trivial⟩
  have hgoes := (hx ⟨t.history ++ [⟨.called c, t.machine⟩], t.machine⟩ trivial).1
  obtain ⟨⟨history, m⟩, hfinal⟩ :
      ∃ u, finalState x ⟨t.history ++ [⟨.called c, t.machine⟩], t.machine⟩ = u := ⟨_, rfl⟩
  rw [finalState_during, hfinal]
  rw [hfinal] at hgoes
  obtain ⟨h, rfl, hprompt⟩ := Proceeds.of_reflTransGen hgoes
  refine .single ⟨[⟨.called c, t.machine⟩] ++ (h ++ [⟨.ended c, m⟩]), by simp, ?_⟩
  · have hended : ∀ m, Prompt [⟨.ended c, m⟩] := fun _ => prompt_singleton fun _ heq => by cases heq
    cases hcompiles : compiles c with
    | false =>
      refine (prompt_singleton ?_).append (hprompt.append (hended _))
      rintro _ ⟨⟩
      exact hcompiles
    | true =>
      unfold compiles at hcompiles
      split at hcompiles
      · next label method code =>
        obtain ⟨hhistory, hmachine⟩ := Watch.mk.inj (hfinal.symm.trans (hc label method code rfl _))
        obtain rfl : h = [] := by simpa using hhistory
        intro k o label' method' code' ho hevent
        match k with
        | 0 =>
          cases ho
          cases hevent
          exact ⟨_, rfl, hmachine⟩
        | 1 =>
          cases ho
          cases hevent
        | k + 2 => cases ho
      · cases hcompiles

/-! ### Traps -/

lemma proceeding_settle (trap : Nat) (id : SiteId) (outcome : Except Fault TrapOutcome) :
    Proceeding (settle trap id outcome) :=
  (proceeding_see fun _ heq => by cases heq).bind fun _ => proceeding_ofExcept outcome

lemma proceeding_isPatched (id : SiteId) : Proceeding (isPatched id) :=
  (proceeding_onMachine _).bind fun _ => proceeding_pure _

lemma proceeding_leaveSite (trap : Nat) (id : SiteId) (f : Fault) :
    Proceeding (leaveSite trap id f) := by
  refine (proceeding_isPatched id).bind fun patched => ?_
  cases patched
  · exact (proceeding_onMachine _).bind fun _ => proceeding_settle _ _ _
  · exact proceeding_settle _ _ _

lemma proceeding_finishSite (trap : Nat) (id : SiteId) (s : PatchSite) (w : Word) :
    Proceeding (finishSite trap id s w) := by
  refine (proceeding_isPatched id).bind fun patched => ?_
  cases patched
  · refine (proceeding_onMachine _).bind fun _ => ?_
    exact (proceeding_onMachine _).bind fun _ => proceeding_settle _ _ _
  · exact proceeding_settle _ _ _

lemma proceeding_patchSite (hinit : ∀ c, Proceeding (init c)) (id : SiteId) (s : PatchSite) :
    Proceeding (patchSite init id s) := by
  have hword : Proceeding (patchWord init s.patcher s.operand) := by
    refine (proceeding_onMachine _).bind fun (target, w) => ?_
    refine Proceeding.bind ?_ fun _ => proceeding_ofExcept w
    cases target with
    | none => exact proceeding_pure ()
    | some c => exact hinit c
  refine (proceeding_see fun _ heq => by cases heq).bind fun trap => ?_
  refine (proceeding_isPatched id).bind fun patched => ?_
  cases patched
  · refine (proceeding_onMachine _).bind fun _ => ?_
    refine (proceeding_see fun _ heq => by cases heq).bind fun _ => ?_
    refine hword.attempt.bind fun outcome => ?_
    cases outcome with
    | error f => exact proceeding_leaveSite trap id f
    | ok w =>
      refine (proceeding_see fun _ heq => by cases heq).bind fun _ => ?_
      exact proceeding_finishSite trap id s w
  · exact proceeding_settle _ _ _

lemma proceeding_trapWith (hinit : ∀ c, Proceeding (init c)) (address : Address) :
    Proceeding (trapWith init address) := by
  refine (proceeding_onMachine get).bind fun m => ?_
  cases m.find? address with
  | none => exact proceeding_pure _
  | some c =>
    dsimp only
    cases c.siteIndex? address with
    | none => exact proceeding_pure _
    | some i =>
      dsimp only
      cases c.sites[i]? with
      | none => exact proceeding_pure _
      | some s => exact proceeding_patchSite hinit ⟨c.number, i⟩ s

lemma proceeding_executeWith (hinit : ∀ c, Proceeding (init c)) (address : Address) :
    Proceeding (executeWith init address) := by
  refine (proceeding_onMachine get).bind fun m => ?_
  cases m.find? address with
  | none => exact proceeding_pure _
  | some c =>
    refine (proceeding_onMachine _).bind fun w => ?_
    split
    · refine (proceeding_trapWith hinit address).bind fun outcome => ?_
      split
      · exact proceeding_pure _
      · exact proceeding_onMachine _
    · exact proceeding_onMachine _

/-! ### Initializers -/

lemma proceeding_serve (hinit : ∀ c, Proceeding (init c)) (r : Request) :
    Proceeding (serve init r) := by
  have hplain : ∀ r, serve init r = onMachine (Machine.serve (fun _ => return ()) r) →
      Proceeding (serve init r) := by
    intro r hr
    rw [hr]
    exact proceeding_onMachine _
  cases r with
  | start c => exact hinit c
  | trap address => exact proceeding_trapWith hinit address
  | execute address => exact proceeding_executeWith hinit address
  | _ => exact hplain _ rfl

lemma proceeding_request (hinit : ∀ c, Proceeding (init c)) (r : Request) :
    Proceeding (during (.request r) (serve init r)) := by
  refine (proceeding_serve hinit r).during ?_
  rintro label method code ⟨⟩ t
  exact finalState_onMachine _ t

lemma sequential_proceeding : Sequential Proceeding where
  pure := proceeding_pure
  throw := proceeding_throw
  bind := Proceeding.bind
  attempt := Proceeding.attempt
  get := proceeding_onMachine get

lemma composable_proceeding : Composable Proceeding where
  toSequential := sequential_proceeding
  note _ := proceeding_onMachine _
  enterClass := sequential_proceeding.enterClass fun _ _ => proceeding_onMachine _

lemma proceeding_initializeWithin (n : Nat) (c : Class) : Proceeding (initializeWithin n c) :=
  composable_proceeding.initializeWithin (fun _ hinit r => proceeding_request hinit r) n c

lemma proceeding_initializeClass (c : Class) : Proceeding (initializeClass c) :=
  (proceeding_onMachine get).bind fun _ => proceeding_initializeWithin _ c

end

/-! ### Runs -/

lemma proceeding_perform (c : Call) : Proceeding (perform c) := by
  cases c with
  | request r =>
    refine (proceeding_serve proceeding_initializeClass r).discard.during ?_
    rintro label method code ⟨⟩ t
    exact (finalState_discard _ t).trans (finalState_onMachine _ t)
  | register p => exact (proceeding_onMachine _).during (by rintro _ _ _ ⟨⟩)
  | operate op => exact (proceeding_onMachine _).during (by rintro _ _ _ ⟨⟩)

lemma prompt_after (m : Machine) (calls : List Call) :
    Prompt (after ⟨[], m⟩ calls).history := by
  have hafter : ∀ calls t, Proceeds t (after t calls) := by
    intro calls
    induction calls with
    | nil => exact fun t => ⟨[], by simp [after], prompt_nil⟩
    | cons c cs ih =>
      intro t
      exact .of_reflTransGen ((proceeding_perform c t trivial).1.tail (ih _))
  obtain ⟨h, hh, hprompt⟩ := hafter calls ⟨[], m⟩
  rw [hh]
  exact hprompt

/-- In every state in which the machine is seen, whatever was seen after the start of a call that
compiles a method was seen after its end. -/
lemma Visits.compiled {m : Machine} {t : Watch} (ht : Visits m t) {k : Nat} {label : String}
    {method : MethodHandle} {code : List Instruction} (ho : t.history[k]? = some o)
    (hlast : k + 1 < t.history.length)
    (hevent : o.event = .called (.request (.compile label method code))) :
    ∃ o' ∈ t.history, o'.machine = finalState (Machine.compile label method code) o.machine := by
  have hcompiled : ∀ calls h, h <+: (after ⟨[], m⟩ calls).history → h[k]? = some o →
      k + 1 < h.length →
      ∃ o' ∈ h, o'.machine = finalState (Machine.compile label method code) o.machine := by
    intro calls h hprefix ho hlast
    obtain ⟨o', ho', hmachine⟩ :=
      prompt_after m calls k o label method code (Builder.getElem?_of_isPrefix hprefix ho) hevent
    have hsame := Builder.getElem?_of_isPrefix hprefix (List.getElem?_eq_getElem hlast)
    rw [ho'] at hsame
    cases hsame
    exact ⟨_, List.getElem_mem hlast, hmachine⟩
  cases ht with
  | between calls => exact hcompiled calls _ List.prefix_rfl ho hlast
  | during calls _ => exact hcompiled calls _ (List.take_prefix _ _) ho hlast

end Watch

end Linkage
