import Linkage.Constraints
import Mathlib.Data.List.Perm.Basic
import Mathlib.Tactic.Common

/-!
# Agreement of loaders

The groups of a name agree with what the loaders have loaded under it: no loader is in two groups,
and a group of which a loader has loaded a class is bound to that class. `add` and `accept` keep
the agreement, although joining two groups looks at no loader but the two that are named: a group
that is not bound has no member with a class.
-/

namespace Linkage

/-! ### Taking groups out -/

section

variable {α : Type} {xs : List α} {i : Nat}

lemma swapRemove_concat (ys : List α) (z : α) (i : Nat) :
    swapRemove (ys ++ [z]) i = if i = ys.length then ys else ys.set i z := by
  rcases Nat.lt_trichotomy i ys.length with hlt | rfl | hgt
  · simp [swapRemove, Nat.ne_of_lt hlt, List.set_append_left _ _ hlt]
  · simp [swapRemove]
  · have hset : (ys ++ [z]).set i z = ys ++ [z] := List.set_eq_of_length_le (by simp; omega)
    simp [swapRemove, Nat.ne_of_gt hgt, hset, List.set_eq_of_length_le (Nat.le_of_lt hgt)]

lemma exists_concat (h : i < xs.length) : ∃ ys z, xs = ys ++ [z] ∧ i ≤ ys.length := by
  rcases List.eq_nil_or_concat xs with rfl | ⟨ys, z, rfl⟩
  · simp at h
  · exact ⟨ys, z, List.concat_eq_append, by simpa [Nat.lt_succ_iff] using h⟩

/-- What `swapRemove` takes out is the element at the position. -/
lemma swapRemove_perm (h : i < xs.length) : xs.Perm (xs[i] :: swapRemove xs i) := by
  obtain ⟨ys, z, rfl, hi⟩ := exists_concat h
  rw [swapRemove_concat]
  split
  · next hlast =>
    subst hlast
    simp [List.perm_append_singleton]
  · next hne =>
    have hlt : i < ys.length := by omega
    rw [List.getElem_append_left hlt]
    have hset : (ys.set i z).Perm (z :: ys.eraseIdx i) := List.set_perm_cons_eraseIdx hlt z
    calc (ys ++ [z]).Perm (z :: ys) := List.perm_append_singleton z ys
      _ |>.Perm (z :: ys[i] :: ys.eraseIdx i) :=
        (List.getElem_cons_eraseIdx_perm hlt).symm.cons z
      _ |>.Perm (ys[i] :: z :: ys.eraseIdx i) := List.Perm.swap _ _ _
      _ |>.Perm (ys[i] :: ys.set i z) := hset.symm.cons _

lemma getElem?_swapRemove {k : Nat} (h : i < xs.length) (hk : k < i) :
    (swapRemove xs i)[k]? = xs[k]? := by
  obtain ⟨ys, z, rfl, hi⟩ := exists_concat h
  have hky : k < ys.length := by omega
  rw [swapRemove_concat, List.getElem?_append_left hky]
  split
  · rfl
  · exact List.getElem?_set_ne (by omega)

end

namespace Constraints

/-- The groups at the given positions are taken out, and their loaders are collected. -/
lemma absorb_perm {gs : List LoaderGroup} {is : List Nat} (hsorted : is.Pairwise (· > ·))
    (hlt : ∀ i ∈ is, i < gs.length) :
    ∃ taken, gs.Perm (taken ++ (absorb gs is).2) ∧
      (absorb gs is).1 = taken.flatMap LoaderGroup.loaders ∧
      ∀ g, g ∈ taken ↔ ∃ i ∈ is, gs[i]? = some g := by
  induction is generalizing gs with
  | nil => exact ⟨[], .refl _, rfl, by simp⟩
  | cons i is ih =>
    obtain ⟨hbelow, hsorted⟩ := List.pairwise_cons.1 hsorted
    have hi : i < gs.length := hlt i List.mem_cons_self
    have hperm := swapRemove_perm hi
    have hlength : gs.length = (swapRemove gs i).length + 1 := by simpa using hperm.length_eq
    have hrest : ∀ k ∈ is, k < (swapRemove gs i).length := by
      intro k hk
      have := hbelow k hk
      omega
    obtain ⟨taken, htaken, hmembers, hall⟩ := ih hsorted hrest
    refine ⟨gs[i] :: taken, hperm.trans (htaken.cons _), ?_, fun g => ?_⟩
    · simp [absorb, hmembers, List.getElem?_eq_getElem hi]
    · -- The positions still to come are lower and therefore not moved.
      have hsame : (∃ k ∈ is, (swapRemove gs i)[k]? = some g) ↔ ∃ k ∈ is, gs[k]? = some g := by
        refine exists_congr fun k => and_congr_right fun hk => ?_
        rw [getElem?_swapRemove hi (hbelow k hk)]
      rw [List.mem_cons, hall, hsame]
      simp [List.getElem?_eq_getElem hi, eq_comm]

/-! ### Groups of a name -/

variable {t : Constraints} {name : String} {a b l : LoaderId} {g : LoaderGroup}

lemma groupIndex?_eq_some {i : Nat} (h : t.groupIndex? name l = some i) :
    ∃ g, (t.groupsOf name)[i]? = some g ∧ t.group? name l = some g ∧ l ∈ g.loaders := by
  obtain ⟨hi, hmem, hfirst⟩ := List.findIdx?_eq_some_iff_getElem.1 h
  refine ⟨(t.groupsOf name)[i], List.getElem?_eq_getElem hi, ?_, by simpa using hmem⟩
  exact List.find?_eq_some_iff_getElem.2 ⟨hmem, i, hi, rfl, fun j hj => by simpa using hfirst j hj⟩

lemma groupIndex?_eq_none : t.groupIndex? name l = none ↔ ∀ g ∈ t.groupsOf name, l ∉ g.loaders := by
  simp [groupIndex?, List.findIdx?_eq_none_iff]

/-- Two loaders are in one group. -/
def Together (gs : List LoaderGroup) (a b : LoaderId) : Prop :=
  ∃ g ∈ gs, a ∈ g.loaders ∧ b ∈ g.loaders

lemma together_of_related (h : t.related name a b = true) :
    a = b ∨ Together (t.groupsOf name) a b := by
  simp only [related, Bool.or_eq_true, decide_eq_true_eq, Bool.and_eq_true,
    Option.isSome_iff_exists] at h
  rcases h with rfl | ⟨⟨i, hi⟩, hab⟩
  · exact .inl rfl
  · obtain ⟨g, hg, -, ha⟩ := groupIndex?_eq_some hi
    obtain ⟨g', hg', -, hb⟩ := groupIndex?_eq_some (hab ▸ hi)
    obtain rfl : g = g' := by simpa [hg] using hg'
    exact .inr ⟨g, List.mem_of_getElem? hg, ha, hb⟩

/-- No loader is in two groups, and a loader that has a class is in no group but one that is bound
to this class. -/
structure Agree (gs : List LoaderGroup) (loaded : LoaderId → Option Class) : Prop where
  disjoint : gs.Pairwise fun g h => ∀ l ∈ g.loaders, l ∉ h.loaders
  bound : ∀ g ∈ gs, ∀ l ∈ g.loaders, ∀ c, loaded l = some c →
    ∃ b, g.bound = some b ∧ b.same c = true

lemma Agree.same {gs : List LoaderGroup} {loaded : LoaderId → Option Class} (h : Agree gs loaded)
    (hab : Together gs a b) {c d : Class} (hc : loaded a = some c) (hd : loaded b = some d) :
    c.same d = true := by
  obtain ⟨g, hg, ha, hb⟩ := hab
  obtain ⟨x, hx, hxc⟩ := h.bound g hg a ha c hc
  obtain ⟨y, hy, hyd⟩ := h.bound g hg b hb d hd
  obtain rfl : x = y := by simpa [hx] using hy
  rw [Class.same_iff] at hxc hyd ⊢
  exact hxc.symm.trans hyd

/-! ### Joining groups -/

lemma groupsOf_join (t : Constraints) (name n : String) (a b : LoaderId) (bound : Option Class) :
    (t.join name a b bound).groupsOf n =
      if name = n then
        (absorb (t.groupsOf name) (positions (t.groupIndex? name a) (t.groupIndex? name b))).2 ++
          [⟨enrol (enrol (absorb (t.groupsOf name)
            (positions (t.groupIndex? name a) (t.groupIndex? name b))).1 a) b, bound⟩]
      else t.groupsOf n := by
  by_cases h : name = n <;> simp [join, groupsOf, h]

lemma mem_enrol {ls : List LoaderId} : l ∈ enrol ls a ↔ l ∈ ls ∨ l = a := by
  unfold enrol
  split
  · next ha =>
    constructor
    · exact .inl
    · rintro (hl | rfl)
      exacts [hl, ha]
  · simp

/-- The positions of the groups of two loaders that are not related. -/
lemma positions_sorted (h : t.related name a b = false) :
    (positions (t.groupIndex? name a) (t.groupIndex? name b)).Pairwise (· > ·) := by
  simp only [related, Bool.or_eq_false_iff, Bool.and_eq_false_iff, decide_eq_false_iff_not] at h
  cases ha : t.groupIndex? name a with
  | none => cases hb : t.groupIndex? name b <;> simp [positions]
  | some i =>
    cases hb : t.groupIndex? name b with
    | none => simp [positions]
    | some j =>
      have hij : i ≠ j := by simpa [ha, hb] using h.2
      by_cases hlt : i < j
      · simp [positions, hlt]
      · have hgt : j < i := by omega
        simpa [positions, hlt] using hgt

lemma mem_positions {x y : Option Nat} {i : Nat} :
    i ∈ positions x y ↔ x = some i ∨ y = some i := by
  cases x with
  | none => cases y <;> simp [positions, eq_comm]
  | some j =>
    cases y with
    | none => simp [positions, eq_comm]
    | some k => by_cases hlt : j < k <;> simp [positions, hlt, eq_comm, or_comm]

/-- Joining the groups of two loaders takes these groups, and no others, and makes one of them. -/
lemma exists_join (hdisjoint : (t.groupsOf name).Pairwise fun g h => ∀ l ∈ g.loaders, l ∉ h.loaders)
    (h : t.related name a b = false) (bound : Option Class) :
    ∃ taken rest joined, (t.groupsOf name).Perm (taken ++ rest) ∧
      (t.join name a b bound).groupsOf name = rest ++ [joined] ∧ joined.bound = bound ∧
      (∀ l, l ∈ joined.loaders ↔ l = a ∨ l = b ∨ ∃ g ∈ taken, l ∈ g.loaders) ∧
      (∀ g ∈ taken, t.group? name a = some g ∨ t.group? name b = some g) ∧
      (∀ g ∈ rest, ∀ l ∈ g.loaders, l ∉ joined.loaders) ∧
      joined.loaders = enrol (enrol (taken.flatMap LoaderGroup.loaders) a) b := by
  have hlt : ∀ i ∈ positions (t.groupIndex? name a) (t.groupIndex? name b),
      i < (t.groupsOf name).length := by
    intro i hi
    rcases mem_positions.1 hi with hi | hi <;>
    · obtain ⟨g, hg, -⟩ := groupIndex?_eq_some hi
      exact (List.getElem?_eq_some_iff.1 hg).1
  obtain ⟨taken, hperm, hmembers, htaken⟩ := absorb_perm (positions_sorted h) hlt
  refine ⟨taken, _, _, hperm, by rw [groupsOf_join, if_pos rfl], rfl, fun l => ?_, fun g hg => ?_,
    fun g hg l hl hjoined => ?_, by rw [hmembers]⟩
  · simp only [mem_enrol, hmembers, List.mem_flatMap]
    rw [or_assoc, or_comm, or_assoc]
  · obtain ⟨i, hi, hgi⟩ := (htaken g).1 hg
    rcases mem_positions.1 hi with hi | hi
    · obtain ⟨g', hg', hfound, -⟩ := groupIndex?_eq_some hi
      rw [hg'] at hgi
      exact .inl (hgi ▸ hfound)
    · obtain ⟨g', hg', hfound, -⟩ := groupIndex?_eq_some hi
      rw [hg'] at hgi
      exact .inr (hgi ▸ hfound)
  · have hpairwise := (hperm.pairwise_iff fun h l hl hl' => h l hl' hl).1 hdisjoint
    obtain ⟨-, -, hapart⟩ := List.pairwise_append.1 hpairwise
    have hmem : g ∈ t.groupsOf name := hperm.mem_iff.2 (List.mem_append_right _ hg)
    -- The group of each of the two loaders was taken, so that it is none of the rest.
    have hnamed : ∀ x, (∀ i, t.groupIndex? name x = some i →
        i ∈ positions (t.groupIndex? name a) (t.groupIndex? name b)) → l ≠ x := by
      rintro x hx rfl
      cases hi : t.groupIndex? name l with
      | none => exact groupIndex?_eq_none.1 hi g hmem hl
      | some i =>
        obtain ⟨g', hg', -, hl'⟩ := groupIndex?_eq_some hi
        exact hapart g' ((htaken g').2 ⟨i, hx i hi, hg'⟩) g hg l hl' hl
    simp only [mem_enrol, hmembers, List.mem_flatMap] at hjoined
    rcases hjoined with (⟨g', hg', hl'⟩ | hla) | hlb
    · exact hapart g' hg' g hg l hl' hl
    · exact hnamed a (fun i hi => mem_positions.2 (.inl hi)) hla
    · exact hnamed b (fun i hi => mem_positions.2 (.inr hi)) hlb


lemma Together.join {x y : LoaderId} (h : Together (t.groupsOf name) x y)
    (hdisjoint : (t.groupsOf name).Pairwise fun g h => ∀ l ∈ g.loaders, l ∉ h.loaders)
    (hnew : t.related name a b = false) (bound : Option Class) :
    Together ((t.join name a b bound).groupsOf name) x y := by
  obtain ⟨taken, rest, joined, hperm, hgroups, -, hloaders, -⟩ := exists_join hdisjoint hnew bound
  obtain ⟨g, hg, hx, hy⟩ := h
  rw [hgroups]
  rcases List.mem_append.1 (hperm.mem_iff.1 hg) with htaken | hrest
  · exact ⟨joined, by simp, (hloaders x).2 (.inr (.inr ⟨g, htaken, hx⟩)),
      (hloaders y).2 (.inr (.inr ⟨g, htaken, hy⟩))⟩
  · exact ⟨g, List.mem_append_left _ hrest, hx, hy⟩

lemma together_join
    (hdisjoint : (t.groupsOf name).Pairwise fun g h => ∀ l ∈ g.loaders, l ∉ h.loaders)
    (hnew : t.related name a b = false) (bound : Option Class) :
    Together ((t.join name a b bound).groupsOf name) a b := by
  obtain ⟨taken, rest, joined, -, hgroups, -, hloaders, -⟩ := exists_join hdisjoint hnew bound
  rw [hgroups]
  exact ⟨joined, by simp, (hloaders a).2 (.inl rfl), (hloaders b).2 (.inr (.inl rfl))⟩

section

variable {loaded : LoaderId → Option Class}

/-- A joined group may be bound to any class that both groups and both loaders have if they have
one. -/
lemma Agree.join (h : Agree (t.groupsOf name) loaded) (hnew : t.related name a b = false)
    {bound : Option Class}
    (hbound : ∀ x l c, x = a ∨ x = b → (l = x ∨ ∃ g, t.group? name x = some g ∧ l ∈ g.loaders) →
      loaded l = some c → ∃ d, bound = some d ∧ d.same c = true) :
    Agree ((t.join name a b bound).groupsOf name) loaded := by
  obtain ⟨taken, rest, joined, hperm, hgroups, rfl, hloaders, htaken, hapart, -⟩ :=
    exists_join h.disjoint hnew bound
  have hpairwise := (hperm.pairwise_iff fun h l hl hl' => h l hl' hl).1 h.disjoint
  rw [hgroups]
  refine ⟨?_, fun g hg l hl c hc => ?_⟩
  · rw [List.pairwise_append]
    exact ⟨(List.pairwise_append.1 hpairwise).2.1, List.pairwise_singleton _ _,
      fun g hg k hk => by rw [List.mem_singleton.1 hk]; exact hapart g hg⟩
  · rcases List.mem_append.1 hg with hrest | hjoined
    · exact h.bound g (hperm.mem_iff.2 (List.mem_append_right _ hrest)) l hl c hc
    · obtain rfl := List.mem_singleton.1 hjoined
      rcases (hloaders l).1 hl with rfl | rfl | ⟨k, hk, hlk⟩
      · exact hbound l l c (.inl rfl) (.inl rfl) hc
      · exact hbound l l c (.inr rfl) (.inl rfl) hc
      · rcases htaken k hk with hka | hkb
        · exact hbound a l c (.inl rfl) (.inr ⟨k, hka, hlk⟩) hc
        · exact hbound b l c (.inr rfl) (.inr ⟨k, hkb, hlk⟩) hc

/-- What is known for a loader holds for its whole group. -/
lemma Agree.known (h : Agree (t.groupsOf name) loaded) {x : LoaderId} {found : Option Class}
    (hfound : t.bound? name x = none → found = loaded x) {c : Class}
    (hl : l = x ∨ ∃ g, t.group? name x = some g ∧ l ∈ g.loaders) (hc : loaded l = some c) :
    ∃ d, (t.bound? name x).or found = some d ∧ d.same c = true := by
  cases hx : t.group? name x with
  | none =>
    obtain rfl : l = x := by simpa [hx] using hl
    have hnone : t.bound? name l = none := by simp [bound?, hx]
    exact ⟨c, by simp [hnone, hfound hnone, hc], c.same_self⟩
  | some g =>
    have hmem : l ∈ g.loaders := by
      rcases hl with rfl | ⟨g', hg', hl⟩
      · simpa using List.find?_some hx
      · rw [hx] at hg'
        cases hg'
        exact hl
    obtain ⟨d, hd, hsame⟩ := h.bound g (List.mem_of_find?_eq_some hx) l hmem c hc
    exact ⟨d, by simp [bound?, hx, hd], hsame⟩

end

/-- Making two loaders agree does nothing if they are related; otherwise it joins their groups and
binds them to what is known for either loader. -/
lemma add_eq_ok {found : LoaderId → Option Class} {changed : Bool} {t' : Constraints}
    (h : t.add name a b found = .ok (changed, t')) :
    t.related name a b = true ∧ t' = t ∨
    t.related name a b = false ∧ ∃ bound, t' = t.join name a b bound ∧
      ∀ x d, x = a ∨ x = b → (t.bound? name x).or (found x) = some d →
        ∃ e, bound = some e ∧ e.same d = true := by
  unfold Constraints.add at h
  split at h
  · next hrelated =>
    cases h
    exact .inl ⟨hrelated, rfl⟩
  next hnew =>
  refine .inr ⟨by simpa using hnew, ?_⟩
  dsimp only at h
  split at h
  · next x y hx hy =>
    split at h
    · next hxy =>
      cases h
      refine ⟨some x, rfl, ?_⟩
      rintro z d (rfl | rfl) hd
      · exact ⟨x, rfl, by simp [← Option.some_inj.1 (hx.symm.trans hd)]⟩
      · exact ⟨x, rfl, by rwa [← Option.some_inj.1 (hy.symm.trans hd)]⟩
    · cases h
  · next hnot =>
    cases h
    refine ⟨_, rfl, ?_⟩
    rintro z d (rfl | rfl) hd
    · exact ⟨d, by rw [hd]; rfl, d.same_self⟩
    · cases hx : (t.bound? name a).or (found a) with
      | none => exact ⟨d, by simpa using hd, d.same_self⟩
      | some x => exact absurd hd (hnot x d hx)

/-- Making two loaders agree keeps the agreement, provided that the question about what the two
have loaded is answered truly where it matters. -/
lemma Agree.add {loaded found : LoaderId → Option Class} (h : Agree (t.groupsOf name) loaded)
    (hfound : ∀ x, x = a ∨ x = b → t.bound? name x = none → found x = loaded x)
    {changed : Bool} {t' : Constraints} (hadd : t.add name a b found = .ok (changed, t')) :
    Agree (t'.groupsOf name) loaded := by
  rcases add_eq_ok hadd with ⟨-, rfl⟩ | ⟨hnew, bound, rfl, hbound⟩
  · exact h
  · refine h.join hnew fun x l c hx hl hc => ?_
    obtain ⟨d, hd, hdc⟩ := h.known (hfound x hx) hl hc
    obtain ⟨e, he, hed⟩ := hbound x d hx hd
    rw [Class.same_iff] at hdc hed
    exact ⟨e, he, Class.same_iff.2 (hed.trans hdc)⟩

/-! ### Binding groups -/

variable {c : Class} {t' : Constraints}

lemma accept_eq_ok (h : t.accept l c = .ok t') :
    t' = t.bind l c ∧ ∀ b, t.bound? c.name l = some b → b.same c = true := by
  unfold accept at h
  split at h
  · next b hb =>
    split at h
    · next hsame =>
      cases h
      exact ⟨rfl, fun d hd => by rwa [← Option.some_inj.1 (hb.symm.trans hd)]⟩
    · cases h
  · next hnone =>
    cases h
    exact ⟨rfl, fun d hd => by simp [hnone] at hd⟩

/-- The groups after binding, one by one. -/
lemma getElem?_groupsOf_bind (t : Constraints) (l : LoaderId) (c : Class) (n : String) (k : Nat) :
    ((t.bind l c).groupsOf n)[k]? =
      if c.name = n ∧ t.groupIndex? n l = some k then
        ((t.groupsOf n)[k]?).map fun g => { g with bound := some (g.bound.getD c) }
      else (t.groupsOf n)[k]? := by
  by_cases hn : c.name = n
  · subst hn
    cases hg : t.groups.get? c.name with
    | none => simp [Constraints.bind, groupsOf, hg]
    | some gs =>
      cases hi : gs.findIdx? fun g => decide (l ∈ g.loaders) with
      | none => simp [Constraints.bind, groupsOf, groupIndex?, hg, hi]
      | some i =>
        by_cases hik : i = k <;>
          simp [Constraints.bind, groupsOf, groupIndex?, hg, hi, hik]
  · simp [Constraints.bind, groupsOf, hn]

/-- Binding leaves every group its loaders. -/
lemma exists_of_mem_bind {n : String} (hg : g ∈ (t.bind l c).groupsOf n) :
    ∃ k g', (t.groupsOf n)[k]? = some g' ∧ g.loaders = g'.loaders ∧
      if c.name = n ∧ t.groupIndex? n l = some k then g.bound = some (g'.bound.getD c)
      else g.bound = g'.bound := by
  obtain ⟨k, hk⟩ := List.getElem?_of_mem hg
  rw [getElem?_groupsOf_bind] at hk
  split at hk
  · next hcond =>
    obtain ⟨g', hg', rfl⟩ := Option.map_eq_some_iff.1 hk
    exact ⟨k, g', hg', rfl, by simp [hcond]⟩
  · next hcond => exact ⟨k, g, hk, rfl, by simp [hcond]⟩

lemma Together.bind {x y : LoaderId} {n : String} (h : Together (t.groupsOf n) x y)
    (l : LoaderId) (c : Class) : Together ((t.bind l c).groupsOf n) x y := by
  obtain ⟨g, hg, hx, hy⟩ := h
  obtain ⟨k, hk⟩ := List.getElem?_of_mem hg
  have hbind := getElem?_groupsOf_bind t l c n k
  rw [hk] at hbind
  split at hbind
  · exact ⟨_, List.mem_of_getElem? hbind, hx, hy⟩
  · exact ⟨g, List.mem_of_getElem? hbind, hx, hy⟩

lemma Agree.mono {gs : List LoaderGroup} {loaded loaded' : LoaderId → Option Class}
    (h : Agree gs loaded) (hle : ∀ l c, loaded' l = some c → loaded l = some c) :
    Agree gs loaded' :=
  ⟨h.disjoint, fun g hg l hl c hc => h.bound g hg l hl c (hle l c hc)⟩

/-- Binding moves no loader. -/
lemma map_loaders_bind (t : Constraints) (l : LoaderId) (c : Class) (n : String) :
    ((t.bind l c).groupsOf n).map LoaderGroup.loaders =
      (t.groupsOf n).map LoaderGroup.loaders := by
  refine List.ext_getElem? fun k => ?_
  rw [List.getElem?_map, List.getElem?_map, getElem?_groupsOf_bind]
  split
  · rw [Option.map_map]
    rfl
  · rfl

lemma pairwise_bind {n : String}
    (h : (t.groupsOf n).Pairwise fun g h => ∀ l ∈ g.loaders, l ∉ h.loaders) (l : LoaderId)
    (c : Class) :
    ((t.bind l c).groupsOf n).Pairwise fun g h => ∀ l ∈ g.loaders, l ∉ h.loaders := by
  have hmap := List.pairwise_map (f := LoaderGroup.loaders) (R := fun ls ms => ∀ l ∈ ls, l ∉ ms)
    |>.2 h
  rw [← map_loaders_bind] at hmap
  exact List.pairwise_map.1 hmap

/-- The loaders that have to agree are told by the loaders of the groups. -/
lemma loadersOf_eq (t : Constraints) (n : String) (l : LoaderId) :
    t.loadersOf n l =
      (((t.groupsOf n).map LoaderGroup.loaders).find? fun ls => ls.contains l).getD [l] := by
  rw [List.find?_map]
  rfl

/-- Binding makes no loaders agree. -/
lemma loadersOf_bind (t : Constraints) (l : LoaderId) (c : Class) (n : String) (x : LoaderId) :
    (t.bind l c).loadersOf n x = t.loadersOf n x := by
  rw [loadersOf_eq, loadersOf_eq, map_loaders_bind]

/-- A loader is in no group but its own. -/
lemma groupIndex?_of_mem {n : String}
    (h : (t.groupsOf n).Pairwise fun g h => ∀ l ∈ g.loaders, l ∉ h.loaders) {k : Nat}
    (hk : (t.groupsOf n)[k]? = some g) (hl : l ∈ g.loaders) : t.groupIndex? n l = some k := by
  obtain ⟨hlt, rfl⟩ := List.getElem?_eq_some_iff.1 hk
  refine List.findIdx?_eq_some_iff_getElem.2 ⟨hlt, by simpa using hl, fun j hj => ?_⟩
  have hapart := List.pairwise_iff_getElem.1 h j k (by omega) hlt hj
  simpa using fun hmem => hapart l hmem hl

/-- Loaders in one group are related, if no loader is in two groups. -/
lemma related_of_together {n : String}
    (h : (t.groupsOf n).Pairwise fun g h => ∀ l ∈ g.loaders, l ∉ h.loaders)
    (hab : Together (t.groupsOf n) a b) : t.related n a b = true := by
  obtain ⟨g, hg, ha, hb⟩ := hab
  obtain ⟨k, hk⟩ := List.getElem?_of_mem hg
  simp [related, groupIndex?_of_mem h hk ha, groupIndex?_of_mem h hk hb]

/-- A loader that is let have a class, and whose group is bound to it, may really have it. -/
lemma Agree.accept {loaded : LoaderId → Option Class} (h : Agree (t.groupsOf c.name) loaded)
    (hacc : t.accept l c = .ok t') :
    Agree (t'.groupsOf c.name) fun x => if x = l then (loaded l).or (some c) else loaded x := by
  obtain ⟨rfl, hbound⟩ := accept_eq_ok hacc
  refine ⟨pairwise_bind h.disjoint l c, fun g hg x hx d hd => ?_⟩
  obtain ⟨k, g', hk, hloaders, hcase⟩ := exists_of_mem_bind hg
  rw [hloaders] at hx
  have hold : ∀ e, loaded x = some e → ∃ b, g'.bound = some b ∧ b.same e = true :=
    h.bound g' (List.mem_of_getElem? hk) x hx
  have hkept : ∀ b, g'.bound = some b → g.bound = some b := fun b hb => by
    split at hcase <;> simp [hcase, hb]
  by_cases hxl : x = l
  · subst hxl
    have hindex := groupIndex?_of_mem h.disjoint hk hx
    have hgroup : t.group? c.name x = some g' := by
      obtain ⟨g'', hk'', hgroup, -⟩ := groupIndex?_eq_some hindex
      rwa [← Option.some_inj.1 (hk''.symm.trans hk)]
    rw [if_pos ⟨rfl, hindex⟩] at hcase
    cases hlx : loaded x with
    | some e =>
      obtain rfl : e = d := by simpa [hlx] using hd
      obtain ⟨b, hb, hsame⟩ := hold e hlx
      exact ⟨b, hkept b hb, hsame⟩
    | none =>
      obtain rfl : c = d := by simpa [hlx] using hd
      cases hb : g'.bound with
      | none => exact ⟨c, by simpa [hb] using hcase, c.same_self⟩
      | some b => exact ⟨b, hkept b hb, hbound b (by simp [bound?, hgroup, hb])⟩
  · rw [if_neg hxl] at hd
    obtain ⟨b, hb, hsame⟩ := hold d hd
    exact ⟨b, hkept b hb, hsame⟩

end Constraints

end Linkage
