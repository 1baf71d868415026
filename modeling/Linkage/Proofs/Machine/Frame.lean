import Linkage.Proofs.Machine.Emission

/-!
# What stays in the code area

Methods are never taken out of the code area, and apart from the words of patch sites nothing in it
is written twice. So whatever the machine does, the methods that were there are still there, the
states of their sites aside, and a word that is in use and belongs to no site holds what it held.
-/

namespace Linkage

open Relation

namespace Machine

variable {m m' m'' : Machine} {c d : CompiledMethod} {id : SiteId} {s : PatchSite} {n k : Nat}
  {address : Address}

/-- Whether a word is one of the two words of a patch site. -/
def Sited (m : Machine) (address : Address) : Prop :=
  ∃ id s, m.site? id = some s ∧ (s.position = address ∨ s.dataAddress = address)

/-- What was in the code area is in it still. -/
structure Preserves (m m' : Machine) : Prop where
  methods : m.methods.map CompiledMethod.fresh <+: m'.methods.map CompiledMethod.fresh
  used : m.memory.used ≤ m'.memory.used
  words : ∀ i < m.memory.used, ¬ m'.Sited (wordAddress i) →
    m'.memory.wordAt i = m.memory.wordAt i

lemma Preserves.refl (m : Machine) : Preserves m m :=
  ⟨List.prefix_rfl, Nat.le_refl _, fun _ _ _ => rfl⟩

lemma Preserves.method (h : Preserves m m') (hc : m.methods[n]? = some c) :
    ∃ c', m'.methods[n]? = some c' ∧ c'.fresh = c.fresh := by
  have hfresh : (m.methods.map CompiledMethod.fresh)[n]? = some c.fresh := by simp [hc]
  have hfresh' := Builder.getElem?_of_isPrefix h.methods hfresh
  rw [List.getElem?_map] at hfresh'
  exact Option.map_eq_some_iff.1 hfresh'

/-- The sites of a method do not depend on how far they are bound. -/
lemma mem_sites_of_fresh_eq (h : c.fresh = d.fresh) (hs : c.sites[n]? = some s) :
    ∃ s', d.sites[n]? = some s' ∧ s' = { s with state := s'.state } := by
  have hsites : c.fresh.sites[n]? = d.fresh.sites[n]? := by rw [h]
  simp only [CompiledMethod.fresh, List.getElem?_map, hs, Option.map_some] at hsites
  obtain ⟨s', hs', heq⟩ := Option.map_eq_some_iff.1 hsites.symm
  refine ⟨s', hs', ?_⟩
  obtain ⟨position, entry, displacement, patcher, operand, saved, state⟩ := s'
  cases heq
  rfl

lemma Preserves.site (h : Preserves m m') (hs : m.site? id = some s) :
    ∃ s', m'.site? id = some s' ∧ s' = { s with state := s'.state } := by
  obtain ⟨c, hc, hs⟩ := Option.bind_eq_some_iff.1 hs
  obtain ⟨c', hc', hfresh⟩ := h.method hc
  obtain ⟨s', hs', heq⟩ := mem_sites_of_fresh_eq hfresh.symm hs
  exact ⟨s', by simp [site?, hc', hs'], heq⟩

lemma Preserves.sited (h : Preserves m m') (hm : m.Sited address) : m'.Sited address := by
  obtain ⟨id, s, hs, haddress⟩ := hm
  obtain ⟨s', hs', heq⟩ := h.site hs
  refine ⟨id, s', hs', ?_⟩
  rw [heq]
  exact haddress

lemma Preserves.trans (h : Preserves m m') (h' : Preserves m' m'') : Preserves m m'' where
  methods := h.methods.trans h'.methods
  used := Nat.le_trans h.used h'.used
  words i hi hsited := by
    rw [h'.words i (Nat.lt_of_lt_of_le hi h.used) hsited,
      h.words i hi fun hsited' => hsited (h'.sited hsited')]

lemma Installed.preserves (h : Installed m m') : Preserves m m' :=
  ⟨h.methods.map _, h.used, fun i hi _ => h.words i hi⟩

lemma preserves_withState (m : Machine) (id : SiteId) (st : PatchState) :
    Preserves m (m.withState id st) :=
  ⟨map_fresh_withState m id st ▸ List.prefix_rfl, Nat.le_refl _, fun _ _ _ => rfl⟩

/-- A word that is in use and belongs to no site. -/
lemma Preserves.word? (h : Preserves m m') (hm : m.Laid) (hm' : m'.Laid)
    (hn : n < m.memory.used) (hsited : ¬ m'.Sited (wordAddress n)) :
    m'.word? (wordAddress n) = m.word? (wordAddress n) := by
  have hfit := hm.used
  have hfit' := hm'.used
  have hused := h.used
  rw [word?_wordAddress (by omega), word?_wordAddress (by omega), h.words n hn hsited]

/-! ### Addresses in methods -/

/-- No address lies in two methods. -/
lemma Laid.eq_of_contains (hm : m.Laid) (hc : m.methods[n]? = some c)
    (hd : m.methods[k]? = some d) (hca : c.contains address = true)
    (hda : d.contains address = true) : n = k ∧ c = d := by
  simp only [CompiledMethod.contains, Bool.and_eq_true, decide_eq_true_eq] at hca hda
  rcases Nat.lt_trichotomy n k with hlt | rfl | hgt
  · exact absurd (Int.lt_of_lt_of_le hca.2 (hm.spread n k c d hc hd hlt)) (Int.not_lt.2 hda.1)
  · rw [hc] at hd
    exact ⟨rfl, Option.some.inj hd⟩
  · exact absurd (Int.lt_of_lt_of_le hda.2 (hm.spread k n d c hd hc hgt)) (Int.not_lt.2 hca.1)

/-- A word of a method can only belong to a site of that method. -/
lemma Laid.exists_of_sited (hm : m.Laid) (hc : m.methods[n]? = some c)
    (ha : c.contains address = true) (hsited : m.Sited address) :
    ∃ s ∈ c.sites, s.position = address ∨ s.dataAddress = address := by
  obtain ⟨id, s, hs, haddress⟩ := hsited
  obtain ⟨d, hd, hs⟩ := Option.bind_eq_some_iff.1 hs
  have hmem := List.mem_of_getElem? hs
  obtain ⟨hposition, hdata⟩ := hm.housed id.method d s hd hmem
  have hda : d.contains address = true := by
    rcases haddress with rfl | rfl
    · exact hposition
    · exact hdata
  obtain ⟨-, rfl⟩ := hm.eq_of_contains hc hd ha hda
  exact ⟨s, hmem, haddress⟩

/-- The method that is found at an address is the one that the address lies in. -/
lemma Laid.eq_of_find? (hm : m.Laid) (hc : m.methods[n]? = some c)
    (ha : c.contains address = true) (hd : m.find? address = some d) : d = c := by
  have hda := (Option.filter_eq_some_iff.1 hd).2
  exact (hm.eq_of_contains (Watch.method_of_find? hm hd) hc hda ha).2

end Machine

/-! ### Runs -/

namespace Watch

open Machine (Preserves)

variable {m : Machine} {t t' : Watch}

/-- No step takes anything out of the code area. -/
lemma Step.preserves (hstep : Step t t') (ht : Sound t) : Preserves t.machine t'.machine := by
  cases hstep with
  | elsewhere hmemory hmethods => exact (ht.laid.installed hmemory hmethods).preserves
  | install hinstalled => exact hinstalled.preserves
  | note => exact .refl _
  | start => exact Machine.preserves_withState _ _ _
  | giveUp => exact Machine.preserves_withState _ _ _
  | @bind h m id s w trap words hs _ _ _ _ _ _ hwords =>
    refine ⟨?_, Nat.le_refl _, fun i _ hsited => ?_⟩
    · exact Machine.map_fresh_withState _ id .patched ▸ List.prefix_rfl
    · have hs' : ((m.withWords words).withState id .patched).site? id =
          some { s with state := .patched } := by
        rw [Machine.site?_withState, if_pos rfl]
        exact congrArg (Option.map _) hs
      exact hwords i (fun heq => hsited ⟨id, _, hs', .inl heq⟩)
        fun heq => hsited ⟨id, _, hs', .inr heq⟩

/-- What was in the code area whenever something was seen is there still. -/
lemma preserved_stable : Stable Step fun t => Sound t ∧
    ∀ o ∈ t.history, Preserves o.machine t.machine := by
  rintro t t' hstep ⟨ht, hbefore⟩
  refine ⟨sound_stable t t' hstep ht, fun o ho => ?_⟩
  rcases hstep.mem_history ho with ho | heq
  · exact (hbefore o ho).trans (hstep.preserves ht)
  · exact heq ▸ .refl _

end Watch

end Linkage
