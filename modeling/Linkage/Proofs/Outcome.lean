import Mathlib.Logic.Relation
import Mathlib.Tactic.Common

/-!
# Outcomes of operations

Every operation of the area, the resolver and the machine takes a state to a result, a value or a
fault, and to a state that is kept in both cases. Here a sequence of operations is taken apart into
what each of them did.

`Performs step P x Q` is the form in which operations are described: from a state with `P`, the
operation `x` goes through a number of steps, and a value that it gives satisfies `Q`.
-/

namespace Linkage

open Relation

variable {ε σ α β : Type}

/-! ### Single operations -/

lemma bind_eq_ok {x : EStateM ε σ α} {f : α → EStateM ε σ β} {s t : σ} {v : β} :
    (x >>= f) s = .ok v t ↔ ∃ w u, x s = .ok w u ∧ f w u = .ok v t := by
  change (match x s with | .ok w u => f w u | .error e u => .error e u) = _ ↔ _
  cases x s <;> simp

lemma bind_eq_error {x : EStateM ε σ α} {f : α → EStateM ε σ β} {s t : σ} {e : ε} :
    (x >>= f) s = .error e t ↔ x s = .error e t ∨ ∃ w u, x s = .ok w u ∧ f w u = .error e t := by
  change (match x s with | .ok w u => f w u | .error e u => .error e u) = _ ↔ _
  cases x s <;> simp

lemma bind_of_ok {x : EStateM ε σ α} {f : α → EStateM ε σ β} {s u : σ} {w : α}
    (h : x s = .ok w u) : (x >>= f) s = f w u := by
  change (match x s with | .ok w u => f w u | .error e u => .error e u) = _
  rw [h]

lemma bind_of_error {x : EStateM ε σ α} {f : α → EStateM ε σ β} {s u : σ} {e : ε}
    (h : x s = .error e u) : (x >>= f) s = .error e u := by
  change (match x s with | .ok w u => f w u | .error e u => .error e u) = _
  rw [h]

lemma bind_of_eq {x y : EStateM ε σ α} {f : α → EStateM ε σ β} {s : σ} (h : x s = y s) :
    (x >>= f) s = (y >>= f) s := by
  change (match x s with | .ok w u => f w u | .error e u => .error e u) = _
  rw [h]
  rfl

@[simp] lemma pure_apply (v : α) (s : σ) : (pure v : EStateM ε σ α) s = .ok v s := rfl

@[simp] lemma throw_apply (e : ε) (s : σ) : (throw e : EStateM ε σ α) s = .error e s := rfl

@[simp] lemma get_apply (s : σ) : (get : EStateM ε σ σ) s = .ok s s := rfl

@[simp] lemma set_apply (s t : σ) : (set t : EStateM ε σ PUnit) s = .ok ⟨⟩ t := rfl

@[simp] lemma modify_apply (f : σ → σ) (s : σ) :
    (modify f : EStateM ε σ PUnit) s = .ok ⟨⟩ (f s) := rfl

/-- What an operation came to, whatever became of the state. -/
def answer : EStateM.Result ε σ α → Except ε α
  | .ok v _ => .ok v
  | .error e _ => .error e

lemma answer_eq_ok {r : EStateM.Result ε σ α} {v : α} : answer r = .ok v ↔ ∃ s, r = .ok v s := by
  cases r <;> simp [answer]

lemma answer_eq_error {r : EStateM.Result ε σ α} {e : ε} :
    answer r = .error e ↔ ∃ s, r = .error e s := by
  cases r <;> simp [answer]

/-- Whether an operation succeeded with a value that is accepted by a test. -/
def yields (accept : α → Bool) : EStateM.Result ε σ α → Bool
  | .ok v _ => accept v
  | .error .. => false

lemma exists_of_yields {accept : α → Bool} {r : EStateM.Result ε σ α} (h : yields accept r = true) :
    ∃ v s, r = .ok v s ∧ accept v = true := by
  cases r with
  | ok v s => exact ⟨v, s, rfl, h⟩
  | error e s => cases h

lemma tryCatch_of_ok {x : EStateM ε σ α} {f : ε → EStateM ε σ α} {s t : σ} {v : α}
    (h : x s = .ok v t) : (tryCatch x f) s = .ok v t := by
  change EStateM.tryCatch x f s = _
  simp only [EStateM.tryCatch, h]

lemma tryCatch_of_error {x : EStateM ε σ α} {f : ε → EStateM ε σ α} {s t : σ} {e : ε}
    (h : x s = .error e t) : (tryCatch x f) s = f e t := by
  change EStateM.tryCatch x f s = _
  simp only [EStateM.tryCatch, h]
  rfl

lemma ofExcept_eq_ok {x : Except ε α} {s t : σ} {v : α}
    (h : (ofExcept x : EStateM ε σ α) s = .ok v t) : x = .ok v ∧ t = s := by
  cases x with
  | error e => cases h
  | ok w =>
    cases h
    exact ⟨rfl, rfl⟩

@[simp] lemma ofExcept_ok (v : α) : (ofExcept (.ok v) : EStateM ε σ α) = pure v := rfl

lemma ofExcept_bind_of_ok {x : Except ε α} {f : α → EStateM ε σ β} {s : σ} {v : α} (h : x = .ok v) :
    ((ofExcept x : EStateM ε σ α) >>= f) s = f v s := by
  subst h
  rfl

lemma ofExcept_bind_of_error {x : Except ε α} {f : α → EStateM ε σ β} {s : σ} {e : ε}
    (h : x = .error e) : ((ofExcept x : EStateM ε σ α) >>= f) s = .error e s := by
  subst h
  rfl

/-! ### Final states -/

/-- The state that an operation ends in, whether it fails or not. -/
def finalState (x : EStateM ε σ α) (s : σ) : σ :=
  match x s with
  | .ok _ t => t
  | .error _ t => t

lemma finalState_of_ok {x : EStateM ε σ α} {s t : σ} {v : α} (h : x s = .ok v t) :
    finalState x s = t := by
  simp [finalState, h]

lemma finalState_of_error {x : EStateM ε σ α} {s t : σ} {e : ε} (h : x s = .error e t) :
    finalState x s = t := by
  simp [finalState, h]

lemma finalState_congr {x y : EStateM ε σ α} {s t : σ} (h : x s = y t) :
    finalState x s = finalState y t := by
  simp only [finalState, h]

lemma finalState_bind (x : EStateM ε σ α) (f : α → EStateM ε σ β) (s : σ) :
    finalState (x >>= f) s =
      match x s with
      | .ok v t => finalState (f v) t
      | .error _ t => t := by
  cases h : x s with
  | ok v t => simp only [finalState, bind_of_ok h]
  | error e t => simp only [finalState, bind_of_error h]

/-- What holds of the state that an operation ends in holds in the end if the next operation keeps
it. -/
lemma finalState_bind_keeps {x : EStateM ε σ α} {f : α → EStateM ε σ β} {s : σ} {P : σ → Prop}
    (hx : P (finalState x s)) (hf : ∀ v t, x s = .ok v t → P t → P (finalState (f v) t)) :
    P (finalState (x >>= f) s) := by
  cases h : x s with
  | ok v t =>
    rw [finalState_of_ok h] at hx
    rw [finalState_congr (bind_of_ok h)]
    exact hf v t h hx
  | error e t =>
    rw [finalState_of_error h] at hx
    rwa [finalState_of_error (bind_of_error h)]

/-- The same where the next operation takes over if the first one fails. -/
lemma finalState_tryCatch_keeps {x : EStateM ε σ α} {f : ε → EStateM ε σ α} {s : σ} {P : σ → Prop}
    (hx : P (finalState x s)) (hf : ∀ e t, x s = .error e t → P t → P (finalState (f e) t)) :
    P (finalState (tryCatch x f) s) := by
  cases h : x s with
  | ok v t =>
    rw [finalState_of_ok h] at hx
    rwa [finalState_of_ok (tryCatch_of_ok h)]
  | error e t =>
    rw [finalState_of_error h] at hx
    rw [finalState_congr (tryCatch_of_error h)]
    exact hf e t h hx

lemma discard_apply (x : EStateM ε σ α) (s : σ) :
    (Functor.discard x : EStateM ε σ PUnit) s =
      match x s with
      | .ok _ t => .ok ⟨⟩ t
      | .error e t => .error e t := by
  cases h : x s <;> simp [Functor.discard, Functor.mapConst, EStateM.map, h]

@[simp] lemma finalState_discard (x : EStateM ε σ α) (s : σ) :
    finalState (Functor.discard x) s = finalState x s := by
  unfold finalState
  rw [discard_apply]
  cases x s <;> rfl

/-! ### What operations perform -/

/-- From states with `P`, the operation only makes steps of a kind, and the values it gives satisfy
`Q` in the state it ends in. -/
def Performs (step : σ → σ → Prop) (P : σ → Prop) (x : EStateM ε σ α) (Q : α → σ → Prop) : Prop :=
  ∀ s, P s → ReflTransGen step s (finalState x s) ∧ ∀ v t, x s = .ok v t → Q v t

/-- What no step of a kind can undo. -/
def Stable (step : σ → σ → Prop) (P : σ → Prop) : Prop :=
  ∀ s t, step s t → P s → P t

variable {step : σ → σ → Prop} {P : σ → Prop} {Q : α → σ → Prop} {R : β → σ → Prop}

lemma Stable.reflTransGen (hP : Stable step P) {s t : σ} (h : ReflTransGen step s t) (hs : P s) :
    P t := by
  induction h with
  | refl => exact hs
  | tail _ hst ih => exact hP _ _ hst ih

lemma Stable.and {P' : σ → Prop} (h : Stable step P) (h' : Stable step P') :
    Stable step fun s => P s ∧ P' s :=
  fun s t hst hs => ⟨h s t hst hs.1, h' s t hst hs.2⟩

lemma Stable.true : Stable step fun _ => True := fun _ _ _ _ => trivial

lemma Performs.pure {v : α} (h : ∀ s, P s → Q v s) :
    Performs step P (pure v : EStateM ε σ α) Q := by
  intro s hs
  refine ⟨.refl, ?_⟩
  rintro w t ⟨⟩
  exact h s hs

lemma Performs.throw (e : ε) : Performs step P (throw e : EStateM ε σ α) Q := by
  intro s _
  refine ⟨.refl, ?_⟩
  rintro v t ⟨⟩

lemma Performs.get : Performs step P (get : EStateM ε σ σ) fun v s => v = s ∧ P s := by
  intro s hs
  refine ⟨.refl, ?_⟩
  rintro v t ⟨⟩
  exact ⟨rfl, hs⟩

/-- A change of the state that is one step. -/
lemma Performs.modify {f : σ → σ} {Q : PUnit → σ → Prop}
    (h : ∀ s, P s → step s (f s) ∧ Q ⟨⟩ (f s)) :
    Performs step P (modify f : EStateM ε σ PUnit) Q := by
  intro s hs
  refine ⟨.single (h s hs).1, ?_⟩
  rintro v t ⟨⟩
  exact (h s hs).2

lemma Performs.bind {x : EStateM ε σ α} {f : α → EStateM ε σ β} (hx : Performs step P x Q)
    (hf : ∀ v, Performs step (Q v) (f v) R) : Performs step P (x >>= f) R := by
  intro s hs
  obtain ⟨hst, hq⟩ := hx s hs
  rw [finalState_bind]
  cases h : x s with
  | error e t =>
    rw [finalState_of_error h] at hst
    refine ⟨hst, fun w u hw => ?_⟩
    rw [bind_of_error h] at hw
    cases hw
  | ok v t =>
    rw [finalState_of_ok h] at hst
    obtain ⟨htu, hr⟩ := hf v t (hq v t h)
    refine ⟨hst.trans htu, fun w u hw => hr w u ?_⟩
    rw [← hw, bind_of_ok h]

/-- What cannot be undone still holds where an operation ends. -/
lemma Performs.keeping {x : EStateM ε σ α} {P' : σ → Prop} (hP : Stable step P)
    (hx : Performs step P' x Q) (h : ∀ s, P' s → P s) :
    Performs step P' x fun v s => P s ∧ Q v s := by
  intro s hs
  obtain ⟨hst, hq⟩ := hx s hs
  refine ⟨hst, fun v t hv => ⟨?_, hq v t hv⟩⟩
  rw [finalState_of_ok hv] at hst
  exact hP.reflTransGen hst (h s hs)

/-- In a sequence of operations the second may still rely on what cannot be undone. -/
lemma Performs.bind_stable {x : EStateM ε σ α} {f : α → EStateM ε σ β} (hP : Stable step P)
    (hx : Performs step P x Q) (hf : ∀ v, Performs step (fun s => P s ∧ Q v s) (f v) R) :
    Performs step P (x >>= f) R :=
  (hx.keeping hP fun _ hs => hs).bind hf

lemma Performs.weaken {x : EStateM ε σ α} {P' : σ → Prop} {Q' : α → σ → Prop}
    (h : Performs step P x Q) (hP : ∀ s, P' s → P s) (hQ : ∀ v s, Q v s → Q' v s) :
    Performs step P' x Q' := by
  intro s hs
  obtain ⟨hst, hq⟩ := h s (hP s hs)
  exact ⟨hst, fun v t hv => hQ v t (hq v t hv)⟩

/-- A sequence of operations that rely on what cannot be undone and on the value of the first. -/
lemma Performs.seq {x : EStateM ε σ α} {f : α → EStateM ε σ β} {p : α → Prop} (hP : Stable step P)
    (hx : Performs step P x fun v _ => p v) (hf : ∀ v, p v → Performs step P (f v) R) :
    Performs step P (x >>= f) R := by
  refine Performs.bind_stable hP hx fun v s hs => ?_
  exact hf v hs.2 s hs.1

lemma Performs.throw_bind (e : ε) {f : α → EStateM ε σ β} :
    Performs step P ((MonadExcept.throw e : EStateM ε σ α) >>= f) R :=
  Performs.bind (Q := fun _ _ => False) (Performs.throw e) fun _ _ h => h.elim

lemma Performs.mono {x : EStateM ε σ α} {step' : σ → σ → Prop} (h : Performs step P x Q)
    (hstep : ∀ s t, step s t → step' s t) : Performs step' P x Q :=
  fun s hs => ⟨ReflTransGen.mono hstep _ _ (h s hs).1, (h s hs).2⟩

/-- An operation that deals with the fault of another. -/
lemma Performs.recover {x : EStateM ε σ α} {f : ε → EStateM ε σ α} (hP : Stable step P)
    (hx : Performs step P x Q) (hf : ∀ e, Performs step P (f e) Q) :
    Performs step P (tryCatch x f) Q := by
  intro s hs
  obtain ⟨hst, hq⟩ := hx s hs
  cases h : x s with
  | ok v t =>
    have hcatch := tryCatch_of_ok (f := f) h
    rw [finalState_of_ok h] at hst
    rw [finalState_of_ok hcatch]
    refine ⟨hst, fun w u hw => ?_⟩
    rw [hcatch] at hw
    cases hw
    exact hq v t h
  | error e t =>
    have hcatch := tryCatch_of_error (f := f) h
    rw [finalState_of_error h] at hst
    obtain ⟨htu, hr⟩ := hf e t (hP.reflTransGen hst hs)
    rw [finalState_congr hcatch]
    exact ⟨hst.trans htu, fun w u hw => hr w u (by rw [← hw, hcatch])⟩

end Linkage
