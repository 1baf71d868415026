import Mathlib.Data.Finset.Card
import Linkage.Proofs.Machine.Parts
import Linkage.Proofs.Machine.Watch

/-!
# Runs of the machine

Whatever is called and whatever initializers do in between, the class area goes through its steps
and classes through their phases in order. While the initializer of a class runs, nothing takes the
class out of its phase; this is what lets the class go on to its last phase when its initializer
ends. No other class is left in that phase, and no more initializers come up than there were to
spare.
-/

namespace Linkage

open Relation
open Resolver (Evolves)

lemma Area.phase_setPhase (a : Area) (c d : Class) (p : Phase) :
    (a.setPhase c p).phase d =
      if d.isArray then .initialized else if c.id = d.id then p else a.phase d := by
  unfold phase setPhase
  simp only [Table.get?_insert]
  split
  · rfl
  · split <;> rfl

lemma Area.phase_congr {a : Area} {c d : Class} (hid : c.id = d.id)
    (harray : c.isArray = d.isArray) : a.phase c = a.phase d := by
  unfold phase
  rw [hid, harray]

/-- Array classes have nothing to initialize. -/
lemma Area.isArray_of_phase {a : Area} {c : Class} (h : a.phase c ≠ .initialized) :
    c.isArray = false := by
  cases harray : c.isArray with
  | false => rfl
  | true => simp [phase, harray] at h

/-- Whether a call may be made: classes go from one phase to the next in order. -/
def Call.Orderly (m : Machine) : Call → Prop
  | .operate op => op.Orderly m.resolver
  | _ => True

namespace Machine

variable {α : Type} {enters : Bool} {m m' : Machine}

/-- The machine with another phase of a class. -/
def withPhase (m : Machine) (c : Class) (p : Phase) : Machine :=
  { m with resolver := { m.resolver with area := m.area.setPhase c p } }

lemma setPhase_apply (c : Class) (p : Phase) (m : Machine) :
    setPhase c p m = .ok () (m.withPhase c p) := rfl

/-- What becomes of the machine when a class is taken through its phases. -/
lemma enterClass_cases (c : Class) (body : MachineM Unit) (m : Machine) :
    finalState (enterClass c body) m = m ∨
      m.area.phase c = .linked ∧ ∃ p, (p = .initialized ∨ p = .erroneous) ∧
        finalState (enterClass c body) m =
          (finalState body (m.withPhase c .initializing)).withPhase c p := by
  unfold enterClass
  rw [finalState_congr (bind_of_ok (get_apply m))]
  cases hphase : m.area.phase c with
  | initialized => exact .inl rfl
  | initializing => exact .inl rfl
  | erroneous => exact .inl rfl
  | linked =>
    refine .inr ⟨rfl, ?_⟩
    dsimp only
    rw [finalState_congr (bind_of_ok (setPhase_apply c .initializing m))]
    cases hbody : body (m.withPhase c .initializing) with
    | ok v m' =>
      have hrun : attempt body (m.withPhase c .initializing) = .ok (.ok v) m' := by
        simp [attempt, hbody]
      rw [finalState_congr (bind_of_ok hrun), finalState_of_ok hbody]
      exact ⟨.initialized, .inl rfl, rfl⟩
    | error f m' =>
      have hrun : attempt body (m.withPhase c .initializing) = .ok (.error f) m' := by
        simp [attempt, hbody]
      rw [finalState_congr (bind_of_ok hrun), finalState_of_error hbody]
      exact ⟨.erroneous, .inr rfl, rfl⟩

/-- Each initializer that comes up is one of those that there were to spare. -/
def Supplies (m m' : Machine) : Prop :=
  ∀ names : Set (LoaderId × String), m.area.InitializersIn names →
    ∃ added : Finset (LoaderId × String), added.card + m'.spare ≤ m.spare ∧
      m'.area.InitializersIn (names ∪ added)

/-- No initializers come up. -/
lemma Supplies.of_kept (hspare : m'.spare = m.spare)
    (h : ∀ names, m.area.InitializersIn names → m'.area.InitializersIn names) : Supplies m m' :=
  fun names hm => ⟨∅, by simp [hspare], by simpa using h names hm⟩

/-- Whatever is allowed for stays so. -/
lemma Supplies.univ (h : Supplies m m') (hm : m.area.InitializersIn Set.univ) :
    m'.area.InitializersIn Set.univ := by
  obtain ⟨added, -, hnames⟩ := h _ hm
  rwa [Set.univ_union] at hnames

lemma Supplies.trans {m'' : Machine} (h : Supplies m m') (h' : Supplies m' m'') :
    Supplies m m'' := by
  intro names hm
  obtain ⟨added, hcard, hnames⟩ := h names hm
  obtain ⟨added', hcard', hnames'⟩ := h' _ hnames
  have hunion := Finset.card_union_le added added'
  refine ⟨added ∪ added', by omega, ?_⟩
  rwa [Finset.coe_union, ← Set.union_assoc]

/-- One state of the machine comes after another while initializers may be running. If no class is
initialized on the way, all classes keep their phases. -/
structure Advances (enters : Bool) (m m' : Machine) : Prop where
  evolves : Evolves m.resolver m'.resolver
  busy : ∀ c, m'.area.phase c = .initializing ↔ m.area.phase c = .initializing
  initializers : Supplies m m'
  phases : enters = false → m'.area.phases = m.area.phases

lemma Advances.refl (m : Machine) : Advances enters m m :=
  ⟨.refl _, fun _ => .rfl, .of_kept rfl fun _ h => h, fun _ => rfl⟩

lemma Advances.trans {m'' : Machine} (h : Advances enters m m') (h' : Advances enters m' m'') :
    Advances enters m m'' where
  evolves := h.evolves.trans h'.evolves
  busy c := (h'.busy c).trans (h.busy c)
  initializers := h.initializers.trans h'.initializers
  phases hno := (h'.phases hno).trans (h.phases hno)

lemma Advances.of_kept (h : m'.resolver = m.resolver) (hspare : m'.spare = m.spare) :
    Advances enters m m' := by
  have harea : m'.area = m.area := congrArg Resolver.area h
  exact ⟨h ▸ .refl _, fun c => by rw [harea], .of_kept hspare fun _ hm => harea ▸ hm,
    fun _ => by rw [harea]⟩

/-- Where no class is initialized, none goes on to another phase. -/
lemma Advances.phase_eq (h : Advances false m m') (c : Class) :
    m'.area.phase c = m.area.phase c := by
  unfold Area.phase
  rw [h.phases rfl]

lemma phase_withPhase (c d : Class) (p : Phase) : (m.withPhase c p).area.phase d =
    if d.isArray then .initialized else if c.id = d.id then p else m.area.phase d :=
  Area.phase_setPhase m.area c d p

/-- A class goes through all its phases while others stay in theirs. -/
lemma advances_withPhase {c : Class} {p : Phase} (hlinked : m.area.phase c = .linked)
    (hp : p = .initialized ∨ p = .erroneous)
    (h : Advances true (m.withPhase c .initializing) m') :
    Advances true m (m'.withPhase c p) := by
  have hc : c.isArray = false := Area.isArray_of_phase (a := m.area) (by simp [hlinked])
  have hstart : (m.withPhase c .initializing).area.phase c = .initializing := by
    simp [phase_withPhase, hc]
  refine ⟨?_, fun d => ?_, ?_, by simp⟩
  · have hfirst : Evolves m.resolver (m.withPhase c .initializing).resolver :=
      ⟨.single (.phase (.inl ⟨hlinked, rfl⟩)), rfl⟩
    have hlast : Evolves m'.resolver (m'.withPhase c p).resolver :=
      ⟨.single (.phase (.inr ⟨(h.busy c).2 hstart, hp⟩)), rfl⟩
    exact hfirst.trans (h.evolves.trans hlast)
  · have hbusy := h.busy d
    rw [phase_withPhase] at hbusy ⊢
    cases hd : d.isArray with
    | true => simp [Area.phase, hd]
    | false =>
      by_cases hid : c.id = d.id
      · have hlinked : m.area.phase d = .linked := Area.phase_congr hid (hc.trans hd.symm) ▸ hlinked
        rcases hp with rfl | rfl <;> simp [hid, hlinked]
      · simpa [hid, hd] using hbusy
  · have hfirst : Supplies m (m.withPhase c .initializing) :=
      .of_kept rfl fun _ hm => hm.of_loaders rfl
    have hlast : Supplies m' (m'.withPhase c p) := .of_kept rfl fun _ hm => hm.of_loaders rfl
    exact hfirst.trans (h.initializers.trans hlast)

lemma finalState_onResolver (x : ResolverM α) (m : Machine) :
    finalState (onResolver x) m = { m with resolver := finalState x m.resolver } := by
  unfold finalState onResolver
  cases x m.resolver <;> rfl

/-- A class that is made known with an initializer is one of those that there were to spare. -/
lemma supplies_withDefinition {l : LoaderId} {d : Definition} {spare : Nat}
    (h : spare + (if d.initializer.isSome then 1 else 0) = m.spare) :
    Supplies m (m.withDefinition l d spare) := by
  intro names hm
  cases hsome : d.initializer.isSome with
  | false =>
    refine ⟨∅, ?_, ?_⟩
    · simpa [hsome, withDefinition] using h.le
    · rw [Finset.coe_empty, Set.union_empty]
      exact hm.define (by simp [hsome])
  | true =>
    refine ⟨{(l, d.name)}, ?_, ?_⟩
    · simpa [hsome, withDefinition, add_comm] using h.le
    · exact (hm.mono Set.subset_union_left).define fun _ => by simp

lemma advances_define (l : LoaderId) (d : Definition) (m : Machine) :
    Advances enters m (finalState (define l d) m) := by
  rcases define_cases l d m with hrun | ⟨spare, hspare, hrun⟩
  · rw [finalState_of_error hrun]
    exact .refl m
  · rw [finalState_of_ok hrun]
    exact ⟨⟨.single (.define _ l d), rfl⟩, fun _ => .rfl, supplies_withDefinition hspare,
      fun _ => rfl⟩

/-- Whether it fails or not, an operation of the machine leads to a state that comes after. -/
lemma Built.advances {x : MachineM α} (hx : Built enters x) {m : Machine} (hm : m.area.Sound) :
    Advances enters m (finalState x m) := by
  induction hx generalizing m with
  | pure v => exact .refl m
  | throw e => exact .refl m
  | bind _ _ ihx ihf =>
    exact finalState_bind_keeps (ihx hm) fun v _ _ hfirst =>
      hfirst.trans (ihf v (hfirst.evolves.sound hm))
  | @attempt _ x _ ih =>
    have hfinal : finalState (Machine.attempt x) m = finalState x m := by
      unfold finalState Machine.attempt
      cases x m <;> rfl
    rw [hfinal]
    exact ih hm
  | look _ ihf => exact ihf m hm
  | change kept => exact .of_kept (kept m).1 (kept m).2
  | define l d => exact advances_define l d m
  | @resolve _ x hx =>
    have hadvances := hx.advances (r := m.resolver) hm
    rw [finalState_onResolver]
    refine ⟨hadvances.evolves, fun c => ?_, .of_kept rfl fun _ hm => hadvances.initializers hm,
      fun _ => hadvances.phases⟩
    unfold area Area.phase
    rw [hadvances.phases]
  | enter allowed c _ ih =>
    subst allowed
    rcases enterClass_cases c _ m with hfinal | ⟨hlinked, p, hp, hfinal⟩
    · rw [hfinal]
      exact .refl m
    · rw [hfinal]
      have hstart : Area.Step m.area (m.area.setPhase c .initializing) :=
        .phase (.inl ⟨hlinked, rfl⟩)
      exact advances_withPhase hlinked hp (ih (Area.sound_stable _ _ hstart hm))

/-! ### Calls -/

/-- A number of calls leads from one state of the machine to another, whether they fail or not. -/
def Run : Machine → Machine → Prop :=
  ReflTransGen fun m m' => ∃ c : Call, c.Orderly m ∧ m' = finalState c.perform m

lemma Run.evolves (h : Run m m') (hm : m.area.Sound) : Evolves m.resolver m'.resolver := by
  induction h with
  | refl => exact .refl _
  | @tail m₁ m₂ _ hcall ih =>
    obtain ⟨c, horderly, rfl⟩ := hcall
    refine ih.trans ?_
    have hm₁ : m₁.area.Sound := ih.sound hm
    cases c with
    | request r =>
      change Evolves _ (finalState (Functor.discard (serve initializeClass r)) m₁).resolver
      rw [finalState_discard]
      exact ((built_serve built_initializeClass r).advances hm₁).evolves
    | register p =>
      change Evolves _ (finalState (Functor.discard (addProgram p)) m₁).resolver
      rw [finalState_discard]
      exact .refl _
    | operate op =>
      change Evolves _ (finalState (onResolver op.perform) m₁).resolver
      rw [finalState_onResolver]
      exact op.evolves hm₁ horderly

end Machine

end Linkage
