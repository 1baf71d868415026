import Linkage.Proofs.Lattice.Arising
import Linkage.Proofs.Lattice.Final

/-!
# What joins answer

A join keeps the classes of the branches of both types, but for branches that are known to be the
same as others. To leave these out is right because mentions that are known to be the same get the
same answers, whatever is expected: a named class is found where its loader has it, and names show
what classes are. So a join may be stored where both types may.
-/

namespace Linkage

open Relation

@[simp]
lemma Assignable.and_self (x : Assignable) : x.and x = x := by
  cases x <;> rfl

/-! ### Mentions that are known to be the same -/

lemma Mention.symbolic_knownSame {r : ClassRef} {d : Mention} :
    (Mention.symbolic r).knownSame d = true ↔ r.name = d.name ∧ r.referer.loader = d.loader := by
  cases d <;>
  · simp only [knownSame, Bool.and_eq_true, decide_eq_true_eq]
    exact Iff.rfl

lemma Mention.knownSame_symbolic {m : Mention} {r : ClassRef} :
    m.knownSame (.symbolic r) = true ↔ m.name = r.name ∧ m.loader = r.referer.loader := by
  cases m <;>
  · simp only [knownSame, Bool.and_eq_true, decide_eq_true_eq]
    exact Iff.rfl

lemma Mention.knownSame_comm (m n : Mention) : m.knownSame n = n.knownSame m := by
  cases m <;> cases n <;> simp [knownSame, Class.same, eq_comm]

/-- Neither the class nor the element of an array goes by the name of the stand-in for the common
supertype of arrays. The stand-in is loaded, but no loader has it, so what its name means to a
loader is another class. -/
structure Mention.Unstubbed (m : Mention) : Prop where
  name : m.name ≠ Boot.arrayStubName
  element : ∀ e, (ReferenceType.ofMention m).elementClass = some e → e.name ≠ Boot.arrayStubName

/-- Two mentions mean the same class to whoever looks for it: they have the name and the loader in
common, and if only one of them is loaded, the loader has that class. -/
inductive Mention.Alike (a : Area) : Mention → Mention → Prop where
  | named {r s : ClassRef} (name : r.name = s.name) (loader : r.referer.loader = s.referer.loader) :
      Alike a (.symbolic r) (.symbolic s)
  | found {c : Class} {r : ClassRef} (owned : a.Owned c) (proper : (Mention.loaded c).Unstubbed)
      (name : c.name = r.name) (loader : c.loader = r.referer.loader) :
      Alike a (.loaded c) (.symbolic r)

namespace ReferenceType

/-- Types that agree in what they show get the same answers. -/
lemma shapeVerdict_eq_of_parts {t u dest : ReferenceType} {element : Mention → Assignable}
    (hdim : t.dimension = u.dimension) (htype : t.elementType = u.elementType)
    (hclass : t.elementClass.map element = u.elementClass.map element) :
    t.shapeVerdict dest element = u.shapeVerdict dest element := by
  by_cases hplain : dest.dimension = 0
  · rw [shapeVerdict_of_plain hplain, shapeVerdict_of_plain hplain, hdim]
  cases hp : dest.elementType with
  | some p =>
    rw [shapeVerdict_of_primitive hplain hp, shapeVerdict_of_primitive hplain hp, hdim, htype]
  | none =>
    cases he : dest.elementClass with
    | none =>
      have harray : t.isArray = u.isArray := by rw [isArray, isArray, hdim]
      simp only [shapeVerdict, hp, he, harray]
      rw [hdim]
    | some e =>
      rw [shapeVerdict_of_class hplain hp he, shapeVerdict_of_class hplain hp he, hdim, hclass]

end ReferenceType

namespace Mention.Alike

open ReferenceType

variable {a : Area} {m n d : Mention}

lemma look_eq (h : m.Alike a n) : a.look m = a.look n := by
  cases h with
  | named name loader => simp only [Area.look, name, loader]
  | @found c r owned _ name loader =>
    symm
    apply Area.form?_of_published
    rw [← name, ← loader]
    exact owned

lemma knownSame_eq (ha : a.Tidy) (h : m.Alike a n) (hd : d.Given a) :
    m.knownSame d = n.knownSame d := by
  rw [Bool.eq_iff_iff]
  cases h with
  | named name loader => rw [symbolic_knownSame, symbolic_knownSame, name, loader]
  | @found c r owned proper name loader =>
    cases d with
    | symbolic s =>
      rw [knownSame_symbolic, knownSame_symbolic]
      change c.name = s.name ∧ c.loader = s.referer.loader ↔ _
      rw [name, loader]
      rfl
    | loaded x =>
      rw [symbolic_knownSame, knownSame, ha.same_iff owned.known hd, ← name, ← loader]
      constructor
      · rintro rfl
        exact ⟨rfl, rfl⟩
      · rintro ⟨hname, hloader⟩
        rcases hd with hx | rfl
        · exact owned.eq_of_name hx hname hloader
        · refine absurd hname ?_
          rw [ha.core]
          exact proper.name

/-- What two such mentions show is the same, and so are the answers about their elements. -/
lemma parts (ha : a.Tidy) (h : m.Alike a n) {element : Mention → Assignable}
    (helement : ∀ v w, v.Alike a w → element v = element w) :
    (ofMention m).dimension = (ofMention n).dimension ∧
      (ofMention m).elementType = (ofMention n).elementType ∧
      (ofMention m).elementClass.map element = (ofMention n).elementClass.map element := by
  cases h with
  | @named r s name loader =>
    simp only [ofMention, ofClassRef, name]
    split
    · exact ⟨rfl, rfl, rfl⟩
    · split
      · refine ⟨rfl, rfl, congrArg some (helement _ _ ?_)⟩
        exact .named rfl loader
      · exact ⟨rfl, rfl, rfl⟩
  | @found c r owned proper name loader =>
    obtain ⟨hdim, htype, hclass⟩ := (Area.HasForm.owned owned).parts_ofClassRef ha
      (c.name_form.trans name)
    simp only [ofMention, hdim, htype, hclass, ofClass, Class.dimension_form,
      Class.elementType?_form, Form.elementClass?_form, Option.map_map, true_and]
    cases hx : c.elementClass? with
    | none => rfl
    | some x =>
      have he : (ofMention (.loaded c)).elementClass = some (.loaded x) := by
        simp only [ofMention, ofClass, hx, Option.map_some]
      have hstub : x.name ≠ Boot.arrayStubName := proper.element _ he
      have howned : a.Owned x := by
        rcases ha.element_given (m := .loaded c) owned.known he with howned | rfl
        · exact howned
        · refine absurd ?_ hstub
          rw [ha.core]
          rfl
      have hproper : (Mention.loaded x).Unstubbed := by
        refine ⟨hstub, fun e hxe => ?_⟩
        rw [Class.elementClass?] at hx
        split at hx
        · have hplain := Class.isArray_of_element? hx
          simp [ofMention, ofClass, Class.elementClass?, hplain] at hxe
        · cases hx
      refine congrArg some (helement _ _ (.found howned hproper rfl ?_))
      exact (ha.loader_element (m := .loaded c) owned.known he).trans loader

/-- The answers about two such mentions are the same, whatever is expected. -/
lemma verdict_eq (ha : a.Tidy) (h : m.Alike a n) (hd : d.Given a) :
    verdict a.look m d = verdict a.look n d := by
  induction hdepth : d.depth using Nat.strongRecOn generalizing m n d with
  | ind k ih =>
    subst hdepth
    have hsame := h.knownSame_eq ha hd
    cases hknown : m.knownSame d || d.isObject with
    | true => rw [verdict_of_known hknown, verdict_of_known (hsame ▸ hknown)]
    | false =>
      have hknown' : (n.knownSame d || d.isObject) = false := hsame ▸ hknown
      have hmissing : a.look m = none ∨ a.look d = none →
          verdict a.look m d = verdict a.look n d := by
        intro hnone
        have helement : ∀ v w, v.Alike a w →
            elementVerdict a.look d v = elementVerdict a.look d w := by
          intro v w hvw
          simp only [elementVerdict]
          split
          · next e he => exact ih _ (depth_of_elementClass he) hvw (ha.element_given hd he) rfl
          · rfl
        obtain ⟨hdim, htype, hclass⟩ := h.parts ha helement
        rw [verdict_of_missing hknown hnone, verdict_of_missing hknown' (h.look_eq ▸ hnone)]
        exact shapeVerdict_eq_of_parts hdim htype hclass
      cases hm : a.look m with
      | none => exact hmissing (.inl hm)
      | some f =>
        cases hg : a.look d with
        | none => exact hmissing (.inr hg)
        | some g =>
          rw [verdict_of_found hknown hm hg, verdict_of_found hknown' (h.look_eq ▸ hm) hg]

end Mention.Alike

namespace ReferenceType

variable {a b q : Area} {m n d : Mention} {as bs : List Mention}

/-- Mentions that are known to be the same get the same answers. -/
lemma verdict_of_knownSame (ha : a.Tidy) (hm : m.Published a ∧ m.Unstubbed)
    (hn : n.Published a ∧ n.Unstubbed) (hd : d.Given a) (hsame : m.knownSame n = true) :
    verdict a.look m d = verdict a.look n d := by
  match m, n with
  | .loaded x, .loaded y => rw [(ha.same_iff hm.1.given hn.1.given).1 hsame]
  | .loaded c, .symbolic r =>
    obtain ⟨hname, hloader⟩ := Mention.knownSame_symbolic.1 hsame
    exact (Mention.Alike.found hm.1 hm.2 hname hloader).verdict_eq ha hd
  | .symbolic r, .loaded c =>
    obtain ⟨hname, hloader⟩ := Mention.symbolic_knownSame.1 hsame
    exact ((Mention.Alike.found hn.1 hn.2 hname.symm hloader.symm).verdict_eq ha hd).symm
  | .symbolic r, .symbolic s =>
    obtain ⟨hname, hloader⟩ := Mention.symbolic_knownSame.1 hsame
    exact (Mention.Alike.named hname hloader).verdict_eq ha hd

/-! ### Several classes -/

variable {look : Mention → Option Form}

lemma verdicts_append (as bs : List Mention) :
    verdicts look d (as ++ bs) = (verdicts look d as).and (verdicts look d bs) := by
  induction as with
  | nil => simp [verdicts]
  | cons m ms ih => simp only [List.cons_append, verdicts, ih, Assignable.and_assoc]

/-- One of several classes adds nothing to what they answer. -/
lemma verdicts_and_of_mem (h : m ∈ as) :
    (verdicts look d as).and (verdict look m d) = verdicts look d as := by
  induction as with
  | nil => cases h
  | cons n ns ih =>
    rw [verdicts]
    rcases List.mem_cons.1 h with rfl | h
    · rw [Assignable.and_comm, ← Assignable.and_assoc, Assignable.and_self]
    · rw [Assignable.and_assoc, ih h]

/-- Branches that are left out of a join answer like the ones that are kept. -/
lemma verdicts_joinBranches (ha : a.Tidy) (has : ∀ m ∈ as, m.Published a ∧ m.Unstubbed)
    (hbs : ∀ m ∈ bs, m.Published a ∧ m.Unstubbed) (hd : d.Given a) :
    verdicts a.look d (joinBranches as bs) =
      (verdicts a.look d as).and (verdicts a.look d bs) := by
  induction bs generalizing as with
  | nil => simp [joinBranches, verdicts]
  | cons n ns ih =>
    have hn := hbs n List.mem_cons_self
    have hns : ∀ m ∈ ns, m.Published a ∧ m.Unstubbed := fun m hm =>
      hbs m (List.mem_cons_of_mem _ hm)
    rw [joinBranches, verdicts, ← Assignable.and_assoc]
    split
    · next hknown =>
      obtain ⟨m, hm, hsame⟩ := List.any_eq_true.1 hknown
      rw [ih has hns, ← verdict_of_knownSame ha (has m hm) hn hd hsame, verdicts_and_of_mem hm]
    · rw [ih (fun m hm => ?_) hns, verdicts_append, verdicts, verdicts, Assignable.and_yes]
      rcases List.mem_append.1 hm with hm | hm
      · exact has m hm
      · exact List.mem_singleton.1 hm ▸ hn

end ReferenceType

namespace ValueType

/-- All branches of a type have a property. -/
def OverBranches (P : Mention → Prop) (t : ValueType) : Prop :=
  ∀ s, t = .reference s → ∀ m ∈ s.branches, P m

/-- A join answers as both types do. -/
lemma verdict_of_merge {a b q : Area} {t u v d : ValueType} (hq : q.Tidy)
    (h : t.merge u a = .ok (some v) b)
    (ht : t.OverBranches fun m => m.Published q ∧ m.Unstubbed)
    (hu : u.OverBranches fun m => m.Published q ∧ m.Unstubbed) (hd : d.Over (Mention.Given q)) :
    v.verdict q.look d = (t.verdict q.look d).and (u.verdict q.look d) := by
  rcases merge_cases h with ⟨-, rfl, rfl, -⟩ | ⟨s, -, rfl, hnull⟩ | ⟨s, w, x, rfl, rfl, rfl, hmerge⟩
  · rw [Assignable.and_self]
  · rcases hnull with ⟨rfl, rfl⟩ | ⟨rfl, rfl⟩ <;> cases d <;> simp [verdict]
  · cases d with
    | reference d =>
      simp only [verdict, ReferenceType.branches_merge hmerge]
      exact ReferenceType.verdicts_joinBranches hq (ht s rfl) (hu w rfl) (hd d rfl).1
    | _ => rfl

end ValueType

/-- Questions about types that arise are answered as the forms of the classes say, also after other
questions. -/
lemma ValueType.answers_formed {a b : Area} {t d : ValueType} (ha : a.Tidy)
    (hasked : Area.Asked a b) (ht : ∀ s, t = .reference s → s.Formed a)
    (hd : d.Over (Mention.Given a)) :
    Area.Answers (t.assignable d) b (t.verdict a.look d) := by
  rw [← hasked.look_eq ha]
  refine answers_assignable (hasked.tidy ha) (fun s hs => ?_)
    (hd.imp fun _ hm => hasked.given ha hm)
  have hformed := (ht s hs).later (hasked.later ha)
  exact ⟨hformed.given, fun m hm => (hformed.branches m hm).given⟩

namespace Resolver

open ReferenceType

/-- A join may be stored where both types may: whatever types are joined, in every later state and
for every type that is expected, questions about the join and the two types are answered, and the
answer for the join is the conjunction of the other two. -/
theorem join_assignable_eq_and {start r q : Resolver} {t u v d : ValueType} {a : Area}
    (hstart : start.area = Area.initial) (ht : Arises start r t) (hu : Arises start r u)
    (htproper : t.OverBranches Mention.Unstubbed) (huproper : u.OverBranches Mention.Unstubbed)
    (hjoin : t.merge u r.area = .ok (some v) a) (hq : GenuineRun { r with area := a } q)
    (hd : d.Over (Mention.Given q.area)) :
    ∃ x y b, (do
      let z ← v.assignable d
      let x ← t.assignable d
      let y ← u.assignable d
      return (z, x, y)) q.area = .ok (x.and y, x, y) b := by
  have hinitial : start.area.Tidy := hstart ▸ Area.initial_tidy
  obtain ⟨hrun, htformed⟩ := ht.formed hinitial
  have huformed := (hu.formed hinitial).2
  have hr : r.area.Tidy := hrun.tidy hinitial
  obtain ⟨hjoined, hvformed⟩ := (Arises.join ht hu hjoin).formed hinitial
  have ha : a.Tidy := hjoined.tidy hinitial
  have hlater : Area.Later r.area q.area :=
    ((genuineRun_merge hr htformed hjoin).later hr).trans (hq.later ha)
  have hqtidy := hlater.after
  have htlater : ∀ s, t = .reference s → s.Formed q.area := fun s hs => (htformed s hs).later hlater
  have hulater : ∀ s, u = .reference s → s.Formed q.area := fun s hs => (huformed s hs).later hlater
  have hvlater : ∀ s, v = .reference s → s.Formed q.area :=
    fun s hs => (hvformed s hs).later (hq.later ha)
  obtain ⟨b, hanswer, -⟩ : Area.Answers (do
      let z ← v.assignable d
      let x ← t.assignable d
      let y ← u.assignable d
      return (z, x, y)) q.area
      (v.verdict q.area.look d, t.verdict q.area.look d, u.verdict q.area.look d) := by
    refine .bind (ValueType.answers_formed hqtidy .refl hvlater hd) fun b₁ h₁ => ?_
    refine .bind (ValueType.answers_formed hqtidy h₁ htlater hd) fun b₂ h₂ => ?_
    refine .bind (ValueType.answers_formed hqtidy (h₁.trans h₂) hulater hd) fun b₃ _ => ?_
    exact .pure _ b₃
  refine ⟨t.verdict q.area.look d, u.verdict q.area.look d, b, hanswer.trans ?_⟩
  rw [ValueType.verdict_of_merge hqtidy hjoin
    (fun s hs m hm => ⟨(htlater s hs).branches m hm, htproper s hs m hm⟩)
    (fun s hs m hm => ⟨(hulater s hs).branches m hm, huproper s hs m hm⟩) hd]

/-! ### A class and its subclass -/

/-- Whether two types are joined, a question about the join is answered when operations have
followed, and a test accepts the answer and the state. -/
def joinedWhere {α : Type} (t u : ValueType) (ops : List Operation) (ask : ValueType → AreaM α)
    (accept : α → Resolver → Bool) (r : Resolver) : Bool :=
  match t.merge u r.area with
  | .ok (some v) a =>
    let q := performAll ops { r with area := a }
    match ask v q.area with
    | .ok x _ => accept x q
    | .error _ _ => false
  | _ => false

lemma exists_join {α : Type} {t u : ValueType} {ops : List Operation} {ask : ValueType → AreaM α}
    {accept : α → Resolver → Bool} {r : Resolver} (h : joinedWhere t u ops ask accept r = true) :
    ∃ v a x b, t.merge u r.area = .ok (some v) a ∧
      ask v (performAll ops { r with area := a }).area = .ok x b ∧
      accept x (performAll ops { r with area := a }) = true := by
  simp only [joinedWhere] at h
  split at h
  · next v a hv =>
    split at h
    · next x b hx => exact ⟨v, a, x, b, hv, hx, h⟩
    · cases h
  · cases h

lemma overBranches_named {name : String} (hplain : IsPlain name) (hne : name ≠ Boot.arrayStubName) :
    (named name).OverBranches Mention.Unstubbed := by
  rintro s ⟨⟩ m hm
  rw [branches_ofMention, List.mem_singleton] at hm
  subst hm
  refine ⟨hne, fun e he => ?_⟩
  obtain ⟨hlevels, -⟩ := elementClass_ofClassRef_iff.1 he
  exact absurd (levels_eq_zero_iff.2 hplain) hlevels

/-- A class is joined with a subclass, and then the classes are loaded. Objects of the subclass may
be stored where the subclass is expected, but those of the class may not, and so the join may
not. -/
theorem join_of_superclass_not_assignable :
    ∃ v a x y b, (named "p/A").merge (named "p/B") unloaded.area = .ok (some v) a ∧ (do
      let z ← v.assignable (named "p/B")
      let x ← (named "p/A").assignable (named "p/B")
      let y ← (named "p/B").assignable (named "p/B")
      return (z, x, y)) (performAll [.load .bootstrap "p/B"] { unloaded with area := a }).area =
        .ok (x.and y, x, y) b ∧ x = .no ∧ y = .yes := by
  have hanswers : joinedWhere (named "p/A") (named "p/B") [.load .bootstrap "p/B"] (fun v => do
      let z ← v.assignable (named "p/B")
      let x ← (named "p/A").assignable (named "p/B")
      let y ← (named "p/B").assignable (named "p/B")
      return (z, x, y)) (fun answers _ => answers = (.no, .no, .yes)) unloaded = true := by
    decide +kernel
  obtain ⟨v, a, _, c, hjoin, hrun, hsame⟩ := exists_join hanswers
  obtain rfl := of_decide_eq_true hsame
  have hlater : GenuineRun { unloaded with area := a }
      (performAll [.load .bootstrap "p/B"] { unloaded with area := a }) :=
    genuineRun_performAll (by simp [Operation.Genuine]) _
  have hexpected := over_named
    (r := performAll [.load .bootstrap "p/B"] { unloaded with area := a })
    (show IsWellFormed "p/B" from .inl (by decide))
  obtain ⟨x, y, b, hlaw⟩ := join_assignable_eq_and rfl
    (.symbolic genuineRun_unloaded ⟨Boot.string, "p/A"⟩)
    (.symbolic genuineRun_unloaded ⟨Boot.string, "p/B"⟩)
    (overBranches_named (by decide) (by decide)) (overBranches_named (by decide) (by decide)) hjoin
    hlater (hexpected.imp fun _ hm => hm.1)
  refine ⟨v, a, x, y, b, hjoin, hlaw, ?_⟩
  have hsame := hlaw.symm.trans hrun
  simp only [EStateM.Result.ok.injEq, Prod.mk.injEq] at hsame
  exact hsame.1.2

end Resolver

end Linkage
