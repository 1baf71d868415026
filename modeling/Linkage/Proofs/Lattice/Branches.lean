import Linkage.Proofs.Lattice.Upper
import Linkage.Proofs.Resolver.Laziness

/-!
# The branches of a join

A join leaves out branches that are known to be the same as others, so which mentions it keeps is a
matter of the order in which types are joined. What the mentions have in common is not: two of them
are known to be the same if they agree in the name and in the loader that decides what it means, and
of these a join has those of both types. If both types are of one class and these are known to be
the same, the join is the first of them; otherwise it has branches that are apart, and stays a join.
-/

namespace Linkage

open Relation ReferenceType

/-! ### Names and loaders -/

/-- What a mention is known by: a name and the loader that decides what it means. -/
def Mention.key (m : Mention) : String × LoaderId := (m.name, m.loader)

section

variable {a b : Area} {m n : Mention} {as bs : List Mention} {k : String × LoaderId}
  {t u v : ReferenceType} {c : Class}

lemma Mention.knownSame_iff_key (ha : a.Tidy) (hm : m.Published a) (hn : n.Published a) :
    m.knownSame n = true ↔ m.key = n.key := by
  constructor
  · intro hsame
    obtain ⟨hname, hloader⟩ := ha.names_of_knownSame hm.given hn.given hsame
    exact Prod.ext hname hloader
  · intro hkey
    obtain ⟨hname, hloader⟩ := Prod.mk.inj hkey
    match m, n with
    | .loaded c, .loaded d =>
      obtain rfl : c = d := Area.Owned.eq_of_name hm hn hname hloader
      exact Mention.knownSame_self _
    | .symbolic r, n => exact Mention.symbolic_knownSame.2 ⟨hname, hloader⟩
    | .loaded c, .symbolic r => exact Mention.knownSame_symbolic.2 ⟨hname, hloader⟩

namespace ReferenceType

/-- What the branches of a join are known by is what those of both types are known by. -/
lemma mem_keys_joinBranches (ha : a.Tidy) (has : ∀ m ∈ as, m.Published a)
    (hbs : ∀ m ∈ bs, m.Published a) :
    k ∈ (joinBranches as bs).map Mention.key ↔
      k ∈ as.map Mention.key ∨ k ∈ bs.map Mention.key := by
  induction bs generalizing as with
  | nil => simp [joinBranches]
  | cons n ns ih =>
    have hn := hbs n List.mem_cons_self
    have hns : ∀ m ∈ ns, m.Published a := fun m hm => hbs m (List.mem_cons_of_mem _ hm)
    rw [joinBranches, List.map_cons, List.mem_cons]
    split
    · next hknown =>
      obtain ⟨m, hm, hsame⟩ := List.any_eq_true.1 hknown
      rw [Mention.knownSame_iff_key ha (has m hm) hn] at hsame
      rw [ih has hns, ← hsame]
      constructor
      · exact Or.imp_right .inr
      · rintro (hk | rfl | hk)
        · exact .inl hk
        · exact .inl (List.mem_map_of_mem hm)
        · exact .inr hk
    · rw [ih (fun m hm => ?_) hns, List.map_append, List.mem_append, List.map_singleton,
        List.mem_singleton, or_assoc]
      rcases List.mem_append.1 hm with hm | hm
      · exact has m hm
      · exact List.mem_singleton.1 hm ▸ hn

/-! ### The ways in which types are joined -/

/-- Two types are of one class each, and these are known to be the same. -/
def Agree (t u : ReferenceType) : Prop :=
  t.merged = none ∧ u.merged = none ∧ t.mention.knownSame u.mention = true

lemma branches_of_merged_none (h : t.merged = none) : t.branches = [t.mention] := by
  rw [branches, h, Option.getD_none]

lemma merge_of_agree (h : t.Agree u) : t.merge u a = .ok (some t) a := by
  obtain ⟨ht, hu, hsame⟩ := h
  rw [merge, ht, hu, hsame]
  rfl

lemma merge_of_several (h : ¬ t.Agree u) (hmany : ∀ m, joinBranches t.branches u.branches ≠ [m])
    (hc : commonSupertype t u a = .ok (some c) b) :
    t.merge u a =
      .ok (some { ofClass c with merged := some (joinBranches t.branches u.branches) }) b := by
  have hcond : ¬ (t.merged.isNone && u.merged.isNone && t.mention.knownSame u.mention) = true := by
    rw [Bool.and_eq_true, Bool.and_eq_true, Option.isNone_iff_eq_none, Option.isNone_iff_eq_none,
      and_assoc]
    exact h
  rw [merge, if_neg hcond]
  generalize joinBranches t.branches u.branches = ms at hmany
  rcases ms with _ | ⟨m, _ | ⟨m', ms⟩⟩
  · exact bind_of_ok hc
  · exact absurd rfl (hmany m)
  · exact bind_of_ok hc

/-- What is remembered of a join: its element type is that of the class that it names, and it has
branches that are not known to be the same. -/
structure Plural (t : ReferenceType) : Prop where
  elementType : t.elementType = (ofMention t.mention).elementType
  apart : t.merged = none ∨ ∃ m ∈ t.branches, ∃ n ∈ t.branches, m.key ≠ n.key

lemma plural_ofMention (m : Mention) : (ofMention m).Plural :=
  ⟨by rw [mention_ofMention], .inl (merged_ofMention m)⟩

/-- If not both types are of classes that are known to be the same, there are branches apart. -/
lemma exists_apart (ha : a.Tidy) (ht : t.Formed a) (hu : u.Formed a) (htp : t.Plural)
    (hup : u.Plural) (h : ¬ t.Agree u) :
    ∃ m ∈ joinBranches t.branches u.branches, ∃ n ∈ joinBranches t.branches u.branches,
      m.key ≠ n.key := by
  have hfrom : ∀ {j k}, j ∈ t.branches.map Mention.key ∨ j ∈ u.branches.map Mention.key →
      k ∈ t.branches.map Mention.key ∨ k ∈ u.branches.map Mention.key → j ≠ k →
      ∃ m ∈ joinBranches t.branches u.branches, ∃ n ∈ joinBranches t.branches u.branches,
        m.key ≠ n.key := by
    intro j k hj hk hne
    rw [← mem_keys_joinBranches ha ht.branches hu.branches] at hj hk
    obtain ⟨m, hm, rfl⟩ := List.mem_map.1 hj
    obtain ⟨n, hn, rfl⟩ := List.mem_map.1 hk
    exact ⟨m, hm, n, hn, hne⟩
  rcases htp.apart with htnone | ⟨m, hm, n, hn, hne⟩
  · rcases hup.apart with hunone | ⟨m, hm, n, hn, hne⟩
    · have htmem : t.mention ∈ t.branches := by simp [branches_of_merged_none htnone]
      have humem : u.mention ∈ u.branches := by simp [branches_of_merged_none hunone]
      refine hfrom (.inl (List.mem_map_of_mem htmem)) (.inr (List.mem_map_of_mem humem)) ?_
      intro hkey
      rw [← Mention.knownSame_iff_key ha (ht.branches _ htmem) (hu.branches _ humem)] at hkey
      exact h ⟨htnone, hunone, hkey⟩
    · exact hfrom (.inr (List.mem_map_of_mem hm)) (.inr (List.mem_map_of_mem hn)) hne
  · exact hfrom (.inl (List.mem_map_of_mem hm)) (.inl (List.mem_map_of_mem hn)) hne

lemma joinBranches_ne_singleton (ha : a.Tidy) (ht : t.Formed a) (hu : u.Formed a) (htp : t.Plural)
    (hup : u.Plural) (h : ¬ t.Agree u) : ∀ m, joinBranches t.branches u.branches ≠ [m] := by
  intro k hk
  obtain ⟨m, hm, n, hn, hne⟩ := exists_apart ha ht hu htp hup h
  rw [hk, List.mem_singleton] at hm hn
  exact hne (by rw [hm, hn])

lemma Plural.merge (ha : a.Tidy) (ht : t.Formed a) (hu : u.Formed a) (htp : t.Plural)
    (hup : u.Plural) (h : t.merge u a = .ok (some v) b) : v.Plural := by
  by_cases hagree : t.Agree u
  · rw [merge_of_agree hagree] at h
    cases h
    exact htp
  · rcases merge_cases h with ⟨-, -, hnone⟩ | ⟨m, -, rfl, -⟩ | ⟨c, -, rfl⟩
    · exact absurd hnone hagree
    · exact plural_ofMention m
    · exact ⟨rfl, .inr (exists_apart ha ht hu htp hup hagree)⟩

end ReferenceType

end

/-- Types that arise are remembered as joins only if there are branches apart. -/
lemma Resolver.Arises.plural {start r : Resolver} {t : ValueType} (h : Arises start r t)
    (hstart : start.area.Tidy) : ∀ s, t = .reference s → s.Plural := by
  induction h with
  | value _ ht =>
    rintro s rfl
    cases ht
  | loaded =>
    rintro s ⟨⟩
    exact plural_ofMention _
  | symbolic =>
    rintro s ⟨⟩
    exact plural_ofMention _
  | @join r t u v a ht hu h iht ihu =>
    obtain ⟨hrun, htformed⟩ := ht.formed hstart
    have huformed := (hu.formed hstart).2
    rintro x rfl
    rcases ValueType.merge_cases h with ⟨-, rfl, -, hnone⟩ | ⟨s, rfl, hs, hnull⟩ |
      ⟨s, w, y, rfl, rfl, hy, hmerge⟩
    · cases hnone
    · cases hs
      rcases hnull with ⟨-, rfl⟩ | ⟨rfl, -⟩
      · exact ihu x rfl
      · exact iht x rfl
    · cases hy
      exact (iht s rfl).merge (hrun.tidy hstart) (htformed s rfl) (huformed w rfl) (ihu w rfl)
        hmerge
  | later _ _ ih => exact ih

end Linkage
