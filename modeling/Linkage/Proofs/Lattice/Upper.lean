import Linkage.Proofs.Lattice.Bound

/-!
# What may be stored where a join is expected

The class that a join names is above the classes of all branches, so both of the types that are
joined may be stored where the join is expected, at once and in every later state.

There is an exception. For arrays that have no array class in common the join names the stand-in for
their common supertype, and no array may be stored there.
-/

namespace Linkage

open Relation ReferenceType

namespace ReferenceType

section

variable {a b q : Area} {t u v : ReferenceType} {c : Class} {m : Mention}

/-- All branches of a type are known to be of one class that is published or named, or a class
bounds them. -/
inductive Covered (a : Area) (t : ReferenceType) : Mention → Prop where
  | known {m : Mention} (published : m.Published a)
      (same : ∀ n ∈ t.branches, n.knownSame m = true) : Covered a t m
  | bounded {c : Class} (bounds : a.Bounds t.branches c) : Covered a t (.loaded c)

lemma Covered.later (hlater : Area.Later a q) (hclear : q.Unshadowed) (h : t.Covered a m) :
    t.Covered q m := by
  cases h with
  | known published same => exact .known (hlater.published published) same
  | bounded bounds => exact .bounded (bounds.later hlater hclear)

lemma Covered.verdicts_eq_yes (ha : a.Tidy) (hclear : a.Unshadowed) (h : t.Covered a m)
    (hm : m ≠ .loaded Boot.arrayStub) : verdicts a.look m t.branches = .yes := by
  cases h with
  | known _ same => exact verdicts_of_known same
  | bounded bounds =>
    apply bounds.verdicts_eq_yes ha hclear
    rintro rfl
    exact hm rfl

lemma Covered.verdicts_eq_no (ha : a.Tidy) (ht : t.Formed a)
    (h : t.Covered a (.loaded Boot.arrayStub)) :
    verdicts a.look (.loaded Boot.arrayStub) t.branches = .no := by
  cases h with
  | known published => exact absurd published ha.not_owned_stub
  | bounded bounds =>
    exact bounds.verdicts_eq_no ha (fun m hm => (ht.branches m hm).given) ht.nonempty

/-- What the stand-in for the common supertype of arrays covers are arrays. -/
lemma Covered.arrays (ha : a.Tidy) (h : t.Covered a (.loaded Boot.arrayStub)) :
    ∀ m ∈ t.branches, (ofMention m).dimension ≠ 0 := by
  cases h with
  | known published => exact absurd published ha.not_owned_stub
  | bounded bounds =>
    cases bounds with
    | below owned => exact absurd owned ha.not_owned_stub
    | arrays arrays => exact arrays

/-- A type is covered by the class that it names. -/
lemma Bounded.covered (ht : t.Formed a) (h : t.Bounded a) : t.Covered a t.mention := by
  rcases h with hnone | ⟨c, hmention, hbounds⟩
  · have hbranches : t.branches = [t.mention] := by rw [branches, hnone, Option.getD_none]
    refine .known (ht.branches _ ?_) fun n hn => ?_
    · simp [hbranches]
    · rw [hbranches, List.mem_singleton] at hn
      rw [hn, Mention.knownSame_self]
  · rw [hmention]
    exact .bounded hbounds

/-- Both types are covered by the class that their join names. -/
lemma covered_of_merge (ha : a.Tidy) (ht : t.Formed a) (hu : u.Formed a) (htb : t.Bounded a)
    (hub : u.Bounded a) (h : t.merge u a = .ok (some v) b) (hclear : b.Unshadowed)
    (hplain : b.PlainAbove) : t.Covered b v.mention ∧ u.Covered b v.mention := by
  have hone : ∀ m, joinBranches t.branches u.branches = [m] →
      t.Covered a m ∧ u.Covered a m := by
    intro m hm
    obtain ⟨hbranches, hsame⟩ := knownSame_of_joinBranches ht.nonempty hm
    have hpublished : m.Published a := ht.branches m (by simp [hbranches])
    refine ⟨.known hpublished fun n hn => ?_, .known hpublished fun n hn => ?_⟩
    · rw [hbranches, List.mem_singleton] at hn
      rw [hn, Mention.knownSame_self]
    · rw [Mention.knownSame_comm]
      exact hsame n hn
  rcases merge_cases h with
    ⟨rfl, rfl, hvnone, hunone, hsame⟩ | ⟨m, hm, rfl, rfl⟩ | ⟨c, hcommon, rfl⟩
  · apply hone
    simp [branches, hvnone, hunone, joinBranches, hsame]
  · rw [mention_ofMention]
    exact hone m hm
  · obtain ⟨hleft, hright⟩ := bounds_of_common ha ht hu htb hub
      (common_of_commonSupertype ha ht hu hcommon) hclear hplain
    exact ⟨.bounded hleft, .bounded hright⟩

end

end ReferenceType

namespace ValueType

/-- The type is that of a join of arrays for which only the stand-in for their common supertype
could be named. -/
def NamesStub (t : ValueType) : Prop :=
  ∃ s, t = .reference s ∧ s.mention = .loaded Boot.arrayStub

/-- Whether values of two types may be stored where a third type is expected. -/
def bothAssignable (t u dest : ValueType) : AreaM (Assignable × Assignable) := do
  let x ← t.assignable dest
  let y ← u.assignable dest
  return (x, y)

/-- Values of a type may be stored where another one is expected: the types are the same and no
references, or the value is null, or the class that is named there covers the type. -/
inductive Covered (a : Area) : ValueType → ValueType → Prop where
  | value {t : ValueType} (ht : t.reference? = none) : Covered a t t
  | null {x : ReferenceType} : Covered a .null (.reference x)
  | reference {s x : ReferenceType} (formed : s.Formed a) (covered : s.Covered a x.mention) :
      Covered a (.reference s) (.reference x)

section

variable {a b q : Area} {t u v : ValueType}

lemma Covered.later (hlater : Area.Later a q) (hclear : q.Unshadowed) (h : t.Covered a v) :
    t.Covered q v := by
  cases h with
  | value ht => exact .value ht
  | null => exact .null
  | reference formed covered =>
    exact .reference (formed.later hlater) (covered.later hlater hclear)

lemma Covered.verdict_eq_yes (ha : a.Tidy) (hclear : a.Unshadowed) (h : t.Covered a v)
    (hv : ¬ v.NamesStub) : t.verdict a.look v = .yes := by
  cases h with
  | value ht =>
    cases t with
    | reference => cases ht
    | uninitialized => simp [verdict, Assignable.ofBool]
    | _ => rfl
  | null => rfl
  | @reference s x _ covered =>
    apply covered.verdicts_eq_yes ha hclear
    intro hmention
    exact hv ⟨x, rfl, hmention⟩

lemma Covered.verdict_eq_no (ha : a.Tidy) (h : t.Covered a v) (hv : v.NamesStub) :
    t = .null ∨ t.verdict a.look v = .no := by
  obtain ⟨x, rfl, hmention⟩ := hv
  cases h with
  | value ht => cases ht
  | null => exact .inl rfl
  | reference formed covered =>
    refine .inr ?_
    simp only [verdict, hmention] at covered ⊢
    exact covered.verdicts_eq_no ha formed

/-- Both types may be stored where their join is expected, but for the stand-in for the common
supertype of arrays. -/
lemma covered_of_merge (ha : a.Tidy) (ht : ∀ s, t = .reference s → s.Formed a ∧ s.Bounded a)
    (hu : ∀ s, u = .reference s → s.Formed a ∧ s.Bounded a) (h : t.merge u a = .ok (some v) b)
    (hlater : Area.Later a b) (hclear : b.Unshadowed) (hplain : b.PlainAbove) :
    t.Covered b v ∧ u.Covered b v := by
  rcases merge_cases h with ⟨rfl, rfl, rfl, hnone⟩ | ⟨s, rfl, rfl, hnull⟩ |
    ⟨s, w, x, rfl, rfl, rfl, hmerge⟩
  · exact ⟨.value hnone, .value hnone⟩
  · rcases hnull with ⟨rfl, rfl⟩ | ⟨rfl, rfl⟩
    · obtain ⟨hformed, hbounded⟩ := hu s rfl
      exact ⟨.null, .reference hformed (hbounded.covered hformed)⟩
    · obtain ⟨hformed, hbounded⟩ := ht s rfl
      exact ⟨.reference hformed (hbounded.covered hformed), .null⟩
  · obtain ⟨hsformed, hsbounded⟩ := ht s rfl
    obtain ⟨hwformed, hwbounded⟩ := hu w rfl
    obtain ⟨hleft, hright⟩ := ReferenceType.covered_of_merge ha hsformed hwformed hsbounded
      hwbounded hmerge hclear hplain
    exact ⟨.reference (hsformed.later hlater) hleft, .reference (hwformed.later hlater) hright⟩

end

/-- Both questions are answered as the forms of the classes say. -/
lemma answers_both {q : Area} {t u d : ValueType} (hq : q.Tidy)
    (ht : ∀ s, t = .reference s → s.Formed q) (hu : ∀ s, u = .reference s → s.Formed q)
    (hd : ∀ s, d = .reference s → s.Formed q) :
    Area.Answers (t.bothAssignable u d) q (t.verdict q.look d, u.verdict q.look d) := by
  have hexpected : d.Over (Mention.Given q) := fun s hs =>
    ⟨(hd s hs).given, fun m hm => ((hd s hs).branches m hm).given⟩
  refine .bind (answers_formed hq .refl ht hexpected) fun b₁ h₁ => ?_
  refine .bind (answers_formed hq h₁ hu hexpected) fun b₂ _ => ?_
  exact .pure _ b₂

end ValueType

namespace Resolver

/-- The class that a type names bounds its branches, whichever way the type arose. -/
lemma Arises.bounded {start r : Resolver} {t : ValueType} (h : Arises start r t)
    (hstart : start.area.Tidy) (hclear : r.area.Unshadowed) (hplain : r.area.PlainAbove) :
    ∀ s, t = .reference s → s.Bounded r.area := by
  induction h with
  | value _ ht =>
    rintro s rfl
    cases ht
  | loaded =>
    rintro s ⟨⟩
    exact .inl (merged_ofMention _)
  | symbolic =>
    rintro s ⟨⟩
    exact .inl (merged_ofMention _)
  | @join r t u v a ht hu h iht ihu =>
    obtain ⟨hrun, htformed⟩ := ht.formed hstart
    have huformed := (hu.formed hstart).2
    have hr := hrun.tidy hstart
    have hlater : Area.Later r.area a := (genuineRun_merge hr htformed h).later hr
    have htbounded := iht (hlater.unshadowed hclear) (hlater.plainAbove hplain)
    have hubounded := ihu (hlater.unshadowed hclear) (hlater.plainAbove hplain)
    rintro x rfl
    rcases ValueType.merge_cases h with ⟨-, rfl, -, hnone⟩ | ⟨s, rfl, hs, hnull⟩ |
      ⟨s, w, y, rfl, rfl, hy, hmerge⟩
    · cases hnone
    · cases hs
      rcases hnull with ⟨-, rfl⟩ | ⟨rfl, -⟩
      · exact hubounded x rfl
      · exact htbounded x rfl
    · cases hy
      exact (htbounded s rfl).merge hr (htformed s rfl) (huformed w rfl) (hubounded w rfl) hmerge
        hclear hplain
  | later ht run ih =>
    have hlater := run.later ((ht.formed hstart).1.tidy hstart)
    intro s hs
    exact (ih (hlater.unshadowed hclear) (hlater.plainAbove hplain) s hs).later hlater hclear

/-- Both types of a join may be stored where the join is expected, in every later state, unless the
join names the stand-in for the common supertype of arrays. Nothing but null may be stored where
that is expected, although all branches of the join are arrays.

No class of the name of the stand-in may be loaded, and no class but an array class may have array
classes above it. -/
theorem joined_assignable_iff {start r q : Resolver} {t u v : ValueType} {a : Area}
    (hstart : start.area = Area.initial) (ht : Arises start r t) (hu : Arises start r u)
    (hjoin : t.merge u r.area = .ok (some v) a) (hq : GenuineRun { r with area := a } q)
    (hclear : q.area.Unshadowed) (hplain : q.area.PlainAbove) :
    ∃ x y b, t.bothAssignable u v q.area = .ok (x, y) b ∧
      (x = .yes ∧ y = .yes ↔ ¬ v.NamesStub) ∧
      (v.NamesStub → (t = .null ∨ x = .no) ∧ (u = .null ∨ y = .no) ∧
        v.OverBranches fun m => (ofMention m).dimension ≠ 0) := by
  have hinitial : start.area.Tidy := hstart ▸ Area.initial_tidy
  obtain ⟨hrun, htformed⟩ := ht.formed hinitial
  have huformed := (hu.formed hinitial).2
  have hr : r.area.Tidy := hrun.tidy hinitial
  have hv := Arises.join ht hu hjoin
  obtain ⟨hjoined, hvformed⟩ := hv.formed hinitial
  have ha : a.Tidy := hjoined.tidy hinitial
  have hjoinlater : Area.Later r.area a := (genuineRun_merge hr htformed hjoin).later hr
  have hqlater : Area.Later a q.area := hq.later ha
  have hlater : Area.Later r.area q.area := hjoinlater.trans hqlater
  have hqtidy := hlater.after
  have hrclear := hlater.unshadowed hclear
  have hrplain := hlater.plainAbove hplain
  have haclear := hqlater.unshadowed hclear
  have haplain := hqlater.plainAbove hplain
  obtain ⟨hleft, hright⟩ := ValueType.covered_of_merge hr
    (fun s hs => ⟨htformed s hs, ht.bounded hinitial hrclear hrplain s hs⟩)
    (fun s hs => ⟨huformed s hs, hu.bounded hinitial hrclear hrplain s hs⟩) hjoin hjoinlater haclear
    haplain
  have hleft := hleft.later hqlater hclear
  have hright := hright.later hqlater hclear
  obtain ⟨b, hanswer, -⟩ := ValueType.answers_both hqtidy (fun s hs => (htformed s hs).later hlater)
    (fun s hs => (huformed s hs).later hlater) fun s hs => (hvformed s hs).later hqlater
  refine ⟨_, _, b, hanswer, ⟨?_, fun hstub => ?_⟩, fun hstub => ?_⟩
  · rintro ⟨hx, hy⟩ hstub
    have htnull := (hleft.verdict_eq_no hqtidy hstub).resolve_right (by simp [hx])
    have hunull := (hright.verdict_eq_no hqtidy hstub).resolve_right (by simp [hy])
    obtain ⟨s, rfl, -⟩ := hstub
    rw [htnull] at hleft hjoin
    rw [hunull] at hjoin
    cases hjoin
  · exact ⟨hleft.verdict_eq_yes hqtidy hclear hstub, hright.verdict_eq_yes hqtidy hclear hstub⟩
  · refine ⟨hleft.verdict_eq_no hqtidy hstub, hright.verdict_eq_no hqtidy hstub, ?_⟩
    rintro s rfl
    obtain ⟨w, hw, hmention⟩ := hstub
    cases hw
    have hbounded := hv.bounded hinitial haclear haplain s rfl
    have hcovered := hbounded.covered (hvformed s rfl)
    rw [hmention] at hcovered
    exact hcovered.arrays ha

/-- Arrays over a class and arrays over a subclass are joined when the classes are loaded, and then
an array class is made. The join names the arrays over the class, and both may be stored there. -/
theorem join_of_arrays_over_superclass :
    ∃ v a x y b, (named "[Lp/A;").merge (named "[Lp/B;") loaded.area = .ok (some v) a ∧
      (named "[Lp/A;").bothAssignable (named "[Lp/B;") v
        (performAll [.load .bootstrap "[Lp/B;"] { loaded with area := a }).area = .ok (x, y) b ∧
      x = .yes ∧ y = .yes ∧ ¬ v.NamesStub := by
  have hanswers : joinedWhere (named "[Lp/A;") (named "[Lp/B;") [.load .bootstrap "[Lp/B;"]
      ((named "[Lp/A;").bothAssignable (named "[Lp/B;")) (fun answers q => answers = (.yes, .yes) &&
        ((q.area.published? .bootstrap Boot.arrayStubName).isNone && q.area.plainTables)) loaded =
      true := by
    decide +kernel
  obtain ⟨v, a, _, c, hjoin, hrun, haccept⟩ := exists_join hanswers
  rw [Bool.and_eq_true, Bool.and_eq_true, decide_eq_true_eq] at haccept
  obtain ⟨rfl, hnone, htables⟩ := haccept
  have hr : GenuineRun { area := Area.initial } loaded :=
    genuineRun_unloaded.trans genuineRun_loaded
  have hq : GenuineRun { loaded with area := a }
      (performAll [.load .bootstrap "[Lp/B;"] { loaded with area := a }) :=
    genuineRun_performAll (by simp [Operation.Genuine]) _
  obtain ⟨x, y, b, hlaw, hiff, -⟩ := joined_assignable_iff rfl
    (.symbolic hr ⟨Boot.string, "[Lp/A;"⟩) (.symbolic hr ⟨Boot.string, "[Lp/B;"⟩) hjoin hq
    (Option.isNone_iff_eq_none.1 hnone) (Area.plainAbove_of_plainTables htables)
  have hsame := hlaw.symm.trans hrun
  simp only [EStateM.Result.ok.injEq, Prod.mk.injEq] at hsame
  obtain ⟨⟨rfl, rfl⟩, -⟩ := hsame
  exact ⟨v, a, .yes, .yes, b, hjoin, hlaw, rfl, rfl, hiff.1 ⟨rfl, rfl⟩⟩

/-- Two classes that have the same array class above them. -/
def belowArraysOperations : List Operation :=
  [.define .bootstrap { name := "p/A", flags := Flag.accPublic.mask, superclass := some "[I" },
    .define .bootstrap { name := "p/B", flags := Flag.accPublic.mask, superclass := some "[I" },
    .load .bootstrap "p/A", .load .bootstrap "p/B"]

/-- The resolver when they are loaded. -/
def belowArrays : Resolver := performAll belowArraysOperations { area := Area.initial }

lemma genuineRun_belowArrays : GenuineRun { area := Area.initial } belowArrays :=
  genuineRun_performAll (by simp [belowArraysOperations, Operation.Genuine]) _

/-- Two named types arise and are joined, and they may not both be stored where their join is
expected. -/
def JoinedApart (first second : String) (r : Resolver) : Prop :=
  Arises { area := Area.initial } r (named first) ∧
    Arises { area := Area.initial } r (named second) ∧
    ∃ v a x y b, (named first).merge (named second) r.area = .ok (some v) a ∧
      (named first).bothAssignable (named second) v a = .ok (x, y) b ∧ ¬ (x = .yes ∧ y = .yes)

lemma joinedApart_of_joinedWhere {first second : String} {r : Resolver}
    (hr : GenuineRun { area := Area.initial } r)
    (h : joinedWhere (named first) (named second) []
      ((named first).bothAssignable (named second)) (fun answers _ => answers ≠ (.yes, .yes)) r =
        true) : JoinedApart first second r := by
  obtain ⟨v, a, ⟨x, y⟩, b, hjoin, hrun, hne⟩ := exists_join h
  refine ⟨.symbolic hr _, .symbolic hr _, v, a, x, y, b, hjoin, hrun, fun hyes => ?_⟩
  apply of_decide_eq_true hne
  rw [hyes.1, hyes.2]

/-- Arrays that have no array class in common are joined, and so are classes below an array class
and arrays over a class that goes by the name of the stand-in for the common supertype of arrays. In
none of the cases may both types be stored where the join is expected. -/
theorem joins_apart :
    JoinedApart "[Ljava/lang/String;" "[I" { area := Area.initial } ∧
      JoinedApart "p/A" "p/B" belowArrays ∧ JoinedApart "[L$ARRAYSTUB$;" "[Lp/S;" shadowed := by
  refine ⟨joinedApart_of_joinedWhere ReflTransGen.refl ?_,
    joinedApart_of_joinedWhere genuineRun_belowArrays ?_,
    joinedApart_of_joinedWhere (genuineRun_shadowing.trans genuineRun_shadowed) ?_⟩
  · decide +kernel
  · decide +kernel
  · decide +kernel

end Resolver

end Linkage
