import Mathlib.Data.Finset.Card
import Linkage.Proofs.Area.Census
import Linkage.Proofs.Machine.Moves

/-!
# How deep initializers can be nested

An initializer runs only for a class that is linked and takes it out of that phase for good. While
others run no more initializers come up than there are to spare, so there are no more of them inside
one another than these and the definitions and classes of the loaders. `Machine.Room` counts what is
left of them.
-/

namespace Linkage

open Relation

namespace Machine

variable {m m' : Machine} {n : Nat}

/-- At most so many initializers can still start: they belong to classes of finitely many names, of
which all but so many have left their first phase, or are yet to come up. -/
def Room (m : Machine) (n : Nat) : Prop :=
  ∃ names spent : Finset (LoaderId × String), m.area.InitializersIn names ∧ spent ⊆ names ∧
    names.card + m.spare ≤ n + spent.card ∧
    ∀ k ∈ spent, ∃ c, m.area.Owned c ∧ (c.loader, c.name) = k ∧ m.area.phase c ≠ .linked

/-- An initializer that comes up takes no more room than it took to spare. -/
lemma Room.of_steps (h : m.Room n) (hm : m.area.Sound)
    (hsteps : ReflTransGen Area.Step m.area m'.area) (hsupplies : Supplies m m') : m'.Room n := by
  obtain ⟨names, spent, hnames, hspent, hcard, hleft⟩ := h
  obtain ⟨added, hadded, hnames'⟩ := hsupplies _ hnames
  have hunion := Finset.card_union_le names added
  refine ⟨names ∪ added, spent, by rwa [Finset.coe_union],
    hspent.trans Finset.subset_union_left, by omega, fun k hk => ?_⟩
  obtain ⟨c, hc, hname, hphase⟩ := hleft k hk
  exact ⟨c, Area.kept_of_steps hsteps hm hc, hname,
    (Area.left_stable c).reflTransGen hsteps hphase⟩

/-- The superclass of a class that its loader has is there as well. -/
lemma Room.above (h : m.Room n) {c s : Class} (hc : m.area.Owned c) (harray : c.isArray = false)
    (hs : c.superclass? = some s) (hnone : s.isArray = false) : m.area.Owned s := by
  obtain ⟨names, spent, hnames, -⟩ := h
  exact hnames.above c hc harray s hs hnone

/-- A class with an initializer takes room when it leaves its first phase. -/
lemma Room.enter (h : m.Room n) {c : Class} (hc : m.area.Owned c)
    (hphase : m.area.phase c = .linked) (hinitializer : c.data.initializer.isSome) :
    ∃ k, n = k + 1 ∧ (m.withPhase c .initializing).Room k := by
  obtain ⟨names, spent, hnames, hspent, hcard, hleft⟩ := h
  have harray : c.isArray = false := Area.isArray_of_phase (a := m.area) (by simp [hphase])
  have hmem : (c.loader, c.name) ∈ names := hnames.classes c hc harray hinitializer
  have hnew : (c.loader, c.name) ∉ spent := by
    intro hspent
    obtain ⟨d, hd, hname, hleft⟩ := hleft _ hspent
    obtain ⟨hloader, hname⟩ := Prod.mk.inj hname
    exact hleft (hd.eq_of_name hc hname hloader ▸ hphase)
  have hsubset : insert (c.loader, c.name) spent ⊆ names :=
    Finset.insert_subset hmem hspent
  have hcard' := Finset.card_insert_of_notMem hnew
  have hle := Finset.card_le_card hsubset
  have hstep : Area.Step m.area (m.withPhase c .initializing).area := .phase (.inl ⟨hphase, rfl⟩)
  have hspare : (m.withPhase c .initializing).spare = m.spare := rfl
  refine ⟨n - 1, by omega, names, insert (c.loader, c.name) spent, hnames.of_loaders rfl, hsubset,
    by omega, fun k hk => ?_⟩
  rcases Finset.mem_insert.1 hk with rfl | hk
  · exact ⟨c, hc, rfl, by simp [phase_withPhase, harray]⟩
  · obtain ⟨d, hd, hname, hphase⟩ := hleft k hk
    exact ⟨d, hd, hname, Area.left_stable d _ _ hstep hphase⟩

end Machine

/-! ### The room there is -/

namespace Area

/-- The names of all definitions and classes of the loaders. -/
def names (a : Area) : List (LoaderId × String) :=
  a.loaders.entries.flatMap fun e =>
    (e.2.definitions.entries.map fun d => (e.1, d.1)) ++ e.2.loaded.entries.map fun c => (e.1, c.1)

lemma length_names (a : Area) : a.names.length = a.definitionCount + a.loadedCount := by
  unfold names definitionCount loadedCount Table.total Table.values
  induction a.loaders.entries with
  | nil => rfl
  | cons e es ih =>
    simp only [List.flatMap_cons, List.length_append, List.length_map, List.map_cons,
      List.foldr_cons, ih, Table.size]
    omega

lemma mem_names {a : Area} {l : LoaderId} {name : String} {data : LoaderData}
    (hdata : a.loaders.get? l = some data)
    (h : (data.definitions.get? name).isSome ∨ (data.loaded.get? name).isSome) :
    (l, name) ∈ a.names := by
  refine List.mem_flatMap.2 ⟨(l, data), Table.mem_entries_of_get? hdata, List.mem_append.2 ?_⟩
  refine h.imp (fun h => ?_) fun h => ?_
  · obtain ⟨d, hd⟩ := Option.isSome_iff_exists.1 h
    exact List.mem_map.2 ⟨(name, d), Table.mem_entries_of_get? hd, rfl⟩
  · obtain ⟨c, hc⟩ := Option.isSome_iff_exists.1 h
    exact List.mem_map.2 ⟨(name, c), Table.mem_entries_of_get? hc, rfl⟩

end Area

/-- There is room for all initializers that can be nested. -/
lemma Machine.room_nestingBound {m : Machine} (h : m.area.InitializersIn Set.univ) :
    m.Room m.nestingBound := by
  refine ⟨m.area.names.toFinset, ∅, ⟨h.home, h.above, fun l n d hd _ => ?_, fun c hc _ _ => ?_⟩,
    Finset.empty_subset _, ?_, by simp⟩
  · obtain ⟨data, hdata, hd⟩ := Option.bind_eq_some_iff.1 hd
    exact List.mem_toFinset.2 (Area.mem_names hdata (.inl (by simp [hd])))
  · obtain ⟨data, hdata, hc⟩ := Option.bind_eq_some_iff.1 hc
    exact List.mem_toFinset.2 (Area.mem_names hdata (.inr (by simp [hc])))
  · have hcard := m.area.names.toFinset_card_le
    rw [Area.length_names] at hcard
    unfold nestingBound
    omega

end Linkage
