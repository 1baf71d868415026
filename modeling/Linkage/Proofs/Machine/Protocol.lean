import Mathlib.Data.List.Chain
import Linkage.Proofs.Machine.Journal
import Linkage.Proofs.Machine.Nesting

/-!
# The protocol of initialization

`Journal.Protocol` says how classes are initialized, as a journal has it. `Journal.Step` is what a
machine with a journal does at a time while classes are initialized inside one another, and every
step keeps the protocol.
-/

namespace Linkage

open Relation

/-- How a class goes on from one phase to the next. -/
inductive Phase.Next : Phase → Phase → Prop where
  | enter : Next .linked .initializing
  | succeed : Next .initializing .initialized
  | fail : Next .initializing .erroneous

lemma Phase.next_iff {p q : Phase} : Next p q ↔
    p = .linked ∧ q = .initializing ∨ p = .initializing ∧ (q = .initialized ∨ q = .erroneous) := by
  constructor
  · rintro (_ | _ | _) <;> simp
  · rintro (⟨rfl, rfl⟩ | ⟨rfl, rfl | rfl⟩)
    · exact .enter
    · exact .succeed
    · exact .fail

namespace Machine

/-- From one machine to the next no class does more than go on to its next phase. -/
def InOrder (m m' : Machine) : Prop :=
  ∀ c, m'.area.phase c = m.area.phase c ∨ Phase.Next (m.area.phase c) (m'.area.phase c)

/-- The class is initialized, or it is being initialized and is one of the given classes. -/
def Settled (m : Machine) (within : List Class) (c : Class) : Prop :=
  m.area.phase c = .initialized ∨
    m.area.phase c = .initializing ∧ ∃ d ∈ within, d.id = c.id

end Machine

/-- Whether a class that is to be initialized for the first time is there: it is one that the loader
which defined it has, or it is the superclass of the class in whose initialization this happens. -/
def Entry.Genuine (e : Entry) : Prop :=
  ∀ c, e.milestone = .called c → e.machine.area.phase c = .linked →
    e.machine.area.Owned c ∨ ∃ d ∈ e.within.head?, d.superclass? = some c

/-- Whether a class that cannot be initialized any more is refused at once, without anything
happening in between. -/
def Entry.Refuses (entries : List Entry) : Prop :=
  ∀ (i : Nat) (e : Entry) (c : Class), entries[i]? = some e → e.milestone = .called c →
    e.machine.area.phase c = .erroneous →
    (Fault.erroneousClass c.name).kind = .noClassDefFound ∧
      entries[i + 1]? = some ⟨.answered c (.error (.erroneousClass c.name)), e.within, e.machine⟩

namespace Journal

variable {m₀ m m' : Machine} {es : List Entry} {j j' : Journal}

/-- Whether all classes that were to be initialized were there. -/
def Genuine (j : Journal) : Prop := ∀ e ∈ j.entries, e.Genuine

/-- What the entries of a journal have to say. -/
structure Conforms (start : Machine) (j : Journal) : Prop where
  /-- From one moment to the next, classes go from linked to initializing and from there to
  initialized or erroneous, if they go on at all. -/
  phases : (start :: j.entries.map Entry.machine).IsChain Machine.InOrder
  /-- Since the last of these moments all classes are in the same phases. -/
  current : ∀ m ∈ (start :: j.entries.map Entry.machine).getLast?, ∀ c,
    j.machine.area.phase c = m.area.phase c
  /-- No initializer starts twice. -/
  once : j.entries.Pairwise fun e e' => ∀ c c', e.milestone = .started c →
    e'.milestone = .started c' → c.id ≠ c'.id
  /-- When the initializer of a class that is no interface starts, the superclass is initialized,
  or this happens in its initialization. -/
  superclass : ∀ e ∈ j.entries, ∀ c s, e.milestone = .started c → c.isInterface = false →
    c.superclass? = some s → e.machine.Settled e.within s
  /-- A call that succeeds leaves the class initialized, or it was made in the initialization of
  the class. -/
  succeeded : ∀ e ∈ j.entries, ∀ c, e.milestone = .answered c (.ok ()) →
    e.machine.Settled e.within c
  /-- A call that fails leaves the class erroneous. -/
  failed : ∀ e ∈ j.entries, ∀ c f, e.milestone = .answered c (.error f) →
    e.machine.area.phase c = .erroneous
  /-- It fails in one of two ways. -/
  kinds : j.Genuine → ∀ e ∈ j.entries, ∀ c f, e.milestone = .answered c (.error f) →
    f.kind = .inInitializer ∨ f.kind = .noClassDefFound

/-- How classes are initialized. -/
structure Protocol (start : Machine) (j : Journal) : Prop extends Conforms start j where
  /-- A call for a class that is erroneous already fails at once. -/
  refused : Entry.Refuses j.entries

/-- What happens at a time while classes are initialized; the initializers of some of them are not
to be started. -/
inductive Step (busy : List Class) : Journal → Journal → Prop where
  /-- The machine works, and all classes stay in their phases. -/
  | work {es : List Entry} {m m' : Machine} (advances : Machine.Advances false m m') :
      Step busy ⟨es, m⟩ ⟨es, m'⟩
  /-- A class goes on to its next phase. -/
  | move {es : List Entry} {m : Machine} {within : List Class} {c : Class} {p : Phase}
      (next : Phase.Next (m.area.phase c) p) :
      Step busy ⟨es, m⟩ ⟨es ++ [⟨.moved c, within, m.withPhase c p⟩], m.withPhase c p⟩
  /-- A class is to be initialized. -/
  | call {es : List Entry} {m : Machine} {within : List Class} {c : Class}
      (sane : m.area.phase c ≠ .erroneous) :
      Step busy ⟨es, m⟩ ⟨es ++ [⟨.called c, within, m⟩], m⟩
  /-- A class is to be initialized and cannot be. -/
  | refuse {es : List Entry} {m : Machine} {within : List Class} {c : Class}
      (erroneous : m.area.phase c = .erroneous) :
      Step busy ⟨es, m⟩ ⟨es ++ [⟨.called c, within, m⟩,
        ⟨.answered c (.error (.erroneousClass c.name)), within, m⟩], m⟩
  /-- An initializer starts. -/
  | start {es : List Entry} {m : Machine} {within : List Class} {c : Class}
      (idle : ∀ d ∈ busy, d.id ≠ c.id) (entered : m.area.phase c = .initializing)
      (first : ∀ e ∈ es, ∀ d, e.milestone = .started d → d.id ≠ c.id)
      (superclass : c.isInterface = false → ∀ s, c.superclass? = some s → m.Settled within s) :
      Step busy ⟨es, m⟩ ⟨es ++ [⟨.started c, within, m⟩], m⟩
  /-- An initialization succeeds. -/
  | succeed {es : List Entry} {m : Machine} {within : List Class} {c : Class}
      (settled : m.Settled within c) :
      Step busy ⟨es, m⟩ ⟨es ++ [⟨.answered c (.ok ()), within, m⟩], m⟩
  /-- An initialization fails. -/
  | fail {es : List Entry} {m : Machine} {within : List Class} {c : Class} {f : Fault}
      (erroneous : m.area.phase c = .erroneous)
      (kind : Genuine ⟨es, m⟩ → f.kind = .inInitializer ∨ f.kind = .noClassDefFound) :
      Step busy ⟨es, m⟩ ⟨es ++ [⟨.answered c (.error f), within, m⟩], m⟩

/-! ### What steps keep -/

lemma refuses_append {es' : List Entry} (h : Entry.Refuses es) (h' : Entry.Refuses es') :
    Entry.Refuses (es ++ es') := by
  intro i e c he hcalled hphase
  by_cases hi : i < es.length
  · rw [List.getElem?_append_left hi] at he
    obtain ⟨hkind, hnext⟩ := h i e c he hcalled hphase
    refine ⟨hkind, ?_⟩
    rw [List.getElem?_append_left (List.getElem?_eq_some_iff.1 hnext).1, hnext]
  · rw [List.getElem?_append_right (Nat.le_of_not_lt hi)] at he
    obtain ⟨hkind, hnext⟩ := h' _ e c he hcalled hphase
    refine ⟨hkind, ?_⟩
    rw [List.getElem?_append_right (by omega), ← hnext]
    congr 1
    omega

/-- An entry that refuses no class. -/
lemma refuses_singleton {e : Entry}
    (h : ∀ c, e.milestone = .called c → e.machine.area.phase c ≠ .erroneous) :
    Entry.Refuses [e] := by
  intro i e' c he' hcalled hphase
  obtain rfl : e = e' := by
    rcases i with _ | i
    · simpa using he'
    · simp at he'
  exact absurd hphase (h c hcalled)

lemma refuses_pair (within : List Class) (c : Class) (m : Machine) :
    Entry.Refuses [⟨.called c, within, m⟩,
      ⟨.answered c (.error (.erroneousClass c.name)), within, m⟩] := by
  intro i e c' he hcalled _
  rcases i with _ | _ | i
  · obtain rfl : _ = e := by simpa using he
    cases hcalled
    exact ⟨rfl, rfl⟩
  · obtain rfl : _ = e := by simpa using he
    cases hcalled
  · simp at he

/-- A machine that works on without any class going on. -/
lemma Protocol.work (h : Protocol m₀ ⟨es, m⟩)
    (hphases : ∀ c, m'.area.phase c = m.area.phase c) : Protocol m₀ ⟨es, m'⟩ :=
  { h with current := fun last hlast c => (hphases c).trans (h.current last hlast c) }

/-- What a new entry has to say. -/
structure Fits (es : List Entry) (m : Machine) (e : Entry) : Prop where
  first : ∀ c, e.milestone = .started c → ∀ e' ∈ es, ∀ d, e'.milestone = .started d → d.id ≠ c.id
  superclass : ∀ c s, e.milestone = .started c → c.isInterface = false →
    c.superclass? = some s → e.machine.Settled e.within s
  succeeded : ∀ c, e.milestone = .answered c (.ok ()) → e.machine.Settled e.within c
  failed : ∀ c f, e.milestone = .answered c (.error f) → e.machine.area.phase c = .erroneous ∧
    (Genuine ⟨es, m⟩ → f.kind = .inInitializer ∨ f.kind = .noClassDefFound)

lemma Conforms.append (h : Conforms m₀ ⟨es, m⟩) {e : Entry} (horder : m.InOrder e.machine)
    (hfits : Fits es m e) : Conforms m₀ ⟨es ++ [e], e.machine⟩ where
  phases := by
    rw [List.map_append, ← List.cons_append]
    refine h.phases.append (.singleton _) fun last hlast next hnext c => ?_
    obtain rfl : e.machine = next := by simpa using hnext
    rw [← h.current last hlast c]
    exact horder c
  current last hlast c := by
    rw [List.map_append, ← List.cons_append, List.map_singleton, List.getLast?_concat] at hlast
    cases hlast
    rfl
  once := by
    refine List.pairwise_append.2 ⟨h.once, List.pairwise_singleton _ _, fun e₁ he₁ e₂ he₂ => ?_⟩
    intro c c' hc hc'
    obtain rfl := List.mem_singleton.1 he₂
    exact hfits.first c' hc' e₁ he₁ c hc
  superclass e' he' := by
    rcases List.mem_append.1 he' with he' | he'
    · exact h.superclass e' he'
    · exact List.mem_singleton.1 he' ▸ hfits.superclass
  succeeded e' he' := by
    rcases List.mem_append.1 he' with he' | he'
    · exact h.succeeded e' he'
    · exact List.mem_singleton.1 he' ▸ hfits.succeeded
  failed e' he' c f hf := by
    rcases List.mem_append.1 he' with he' | he'
    · exact h.failed e' he' c f hf
    · obtain rfl := List.mem_singleton.1 he'
      exact (hfits.failed c f hf).1
  kinds hgenuine e' he' c f hf := by
    have hbefore : ∀ e ∈ es, e.Genuine := fun e he => hgenuine e (List.mem_append_left _ he)
    rcases List.mem_append.1 he' with he' | he'
    · exact h.kinds hbefore e' he' c f hf
    · obtain rfl := List.mem_singleton.1 he'
      exact (hfits.failed c f hf).2 hbefore

/-- An entry about a class that is not refused. -/
lemma Protocol.append (h : Protocol m₀ ⟨es, m⟩) {e : Entry} (horder : m.InOrder e.machine)
    (hfits : Fits es m e)
    (hcalled : ∀ c, e.milestone = .called c → e.machine.area.phase c ≠ .erroneous) :
    Protocol m₀ ⟨es ++ [e], e.machine⟩ where
  toConforms := h.toConforms.append horder hfits
  refused := refuses_append h.refused (refuses_singleton hcalled)

lemma inOrder_of_phases (hphases : ∀ c, m'.area.phase c = m.area.phase c) : m.InOrder m' :=
  fun c => .inl (hphases c)

lemma inOrder_withPhase {c : Class} {p : Phase} (next : Phase.Next (m.area.phase c) p) :
    m.InOrder (m.withPhase c p) := by
  intro d
  rw [Machine.phase_withPhase]
  cases hd : d.isArray with
  | true => simp [Area.phase, hd]
  | false =>
    by_cases hid : c.id = d.id
    · have hc : c.isArray = false := by
        cases hc : c.isArray with
        | false => rfl
        | true =>
          rw [Area.phase, hc] at next
          cases next
      refine .inr ?_
      rw [← Area.phase_congr hid (hc.trans hd.symm)]
      simpa [hid] using next
    · simp [hid]

/-- Every step keeps the protocol. -/
lemma protocol_stable (m₀ : Machine) (busy : List Class) :
    Stable (Step busy) (Protocol m₀) := by
  intro j j' hstep h
  have hsame : ∀ m : Machine, m.InOrder m := fun m => inOrder_of_phases fun _ => rfl
  cases hstep with
  | work advances => exact h.work advances.phase_eq
  | move next =>
    exact h.append (inOrder_withPhase next) ⟨by simp, by simp, by simp, by simp⟩ (by simp)
  | call sane =>
    refine h.append (hsame _) ⟨by simp, by simp, by simp, by simp⟩ fun c hc => ?_
    cases hc
    exact sane
  | @refuse es m within c erroneous =>
    have hcalled := h.toConforms.append (hsame m) (e := ⟨.called c, within, m⟩)
      ⟨by simp, by simp, by simp, by simp⟩
    have hanswered := hcalled.append (hsame m)
      (e := ⟨.answered c (.error (.erroneousClass c.name)), within, m⟩)
      ⟨by simp, by simp, by simp, fun d f hf => ?_⟩
    · rw [List.append_assoc] at hanswered
      exact ⟨hanswered, refuses_append h.refused (refuses_pair within c m)⟩
    · cases hf
      exact ⟨erroneous, fun _ => .inr rfl⟩
  | @start es m within c idle entered first superclass =>
    refine h.append (hsame _) ⟨fun d hd => ?_, fun d s hd => ?_, by simp, by simp⟩ (by simp)
    · cases hd
      exact first
    · cases hd
      exact fun hclass hs => superclass hclass s hs
  | succeed settled =>
    refine h.append (hsame _) ⟨by simp, by simp, fun d hd => ?_, by simp⟩ (by simp)
    cases hd
    exact settled
  | fail erroneous kind =>
    refine h.append (hsame _) ⟨by simp, by simp, by simp, fun d f hf => ?_⟩ (by simp)
    cases hf
    exact ⟨erroneous, kind⟩

end Journal

end Linkage
