import Linkage.Proofs.Lattice.Ceiling

/-!
# Joins of several types

Where several paths of control flow meet, their types are joined one after the other. The order does
not matter for the branches, up to being known to be the same, nor for the class that is named, with
one exception: of arrays that have nothing in common, one order may name the stand-in for the common
supertype of arrays and another one the top of the hierarchy. Once the stand-in is named, the arrays
that follow are no longer joined as arrays.
-/

namespace Linkage

open Relation ReferenceType

namespace ReferenceType

/-- Joins a type with one after the other of a list. -/
def mergeAll (t : ReferenceType) : List ReferenceType → AreaM (Option ReferenceType)
  | [] => return some t
  | u :: us => do
    match ← t.merge u with
    | some v => v.mergeAll us
    | none => return none

/-- Of the first type it is said that its values are arrays, and of the second one nothing, although
it has the same branches. -/
structure Blurred (t u : ReferenceType) : Prop where
  first : t.mention = .loaded Boot.arrayStub
  second : u.mention = .loaded Boot.object
  arrays : ∀ m ∈ t.branches, (ofMention m).dimension ≠ 0

/-- The type is no join, and of a class with the given name and loader. -/
def Alone (t : ReferenceType) (k : String × LoaderId) : Prop :=
  t.merged = none ∧ t.mention.key = k

/-- The class that the type names is one that was found above others. -/
def Crowned (a : Area) (t : ReferenceType) : Prop :=
  ∃ c n d, t.mention = .loaded c ∧ a.Tops c n d

section

variable {o a b : Area} {t u v w : ReferenceType} {ts us : List ReferenceType}

lemma alone_of_agree (ha : a.Tidy) (ht : t.Formed a) (hu : u.Formed a) (h : t.Agree u)
    (k : String × LoaderId) : t.Alone k ↔ u.Alone k := by
  obtain ⟨htnone, hunone, hsame⟩ := h
  rw [Mention.knownSame_iff_key ha (ht.branches _ (by simp [branches_of_merged_none htnone]))
    (hu.branches _ (by simp [branches_of_merged_none hunone]))] at hsame
  simp only [Alone, htnone, hunone, hsame]

/-- How several types and their join have to do with one another: what is known of the branches, of
the class if there is only one, and of what is above is known of the types one by one, and so it is
not a matter of their order. -/
structure Gathers (o a : Area) (ts : List ReferenceType) (v : ReferenceType) : Prop where
  wider : o.Wider a
  ready : v.Ready a
  branches : ∀ m ∈ v.branches, ∃ t ∈ ts, m ∈ t.branches
  keys : ∀ k, k ∈ v.branches.map Mention.key ↔ ∃ t ∈ ts, k ∈ t.branches.map Mention.key
  alone : ∀ k, v.Alone k ↔ ∀ t ∈ ts, t.Alone k
  reaches : ∀ k s, v.mention.Reaches a k s ↔ ∀ t ∈ ts, t.mention.Reaches o k s

lemma Gathers.perm (h : Gathers o a ts v) (hperm : ts.Perm us) : Gathers o a us v where
  wider := h.wider
  ready := h.ready
  branches m hm := by
    obtain ⟨t, ht, hmt⟩ := h.branches m hm
    exact ⟨t, hperm.mem_iff.1 ht, hmt⟩
  keys k := by simp only [h.keys, hperm.mem_iff]
  alone k := by simp only [h.alone, hperm.mem_iff]
  reaches k s := by simp only [h.reaches, hperm.mem_iff]

lemma gathers_singleton (hwider : o.Wider a) (hclear : o.Unshadowed) (ht : t.Ready o) :
    Gathers o a [t] t where
  wider := hwider
  ready := ht.later hwider.toLater (hwider.unshadowed hclear)
  branches m hm := ⟨t, List.mem_singleton_self t, hm⟩
  keys k := by simp
  alone k := by simp
  reaches k s := by simp [Mention.reaches_wider hwider ht.wellNamed]

/-- A type more is joined that is of a class known to be the same, and nothing changes. -/
lemma Gathers.merge_agree (h : Gathers o a ts v) (hclear : o.Unshadowed) (hu : u.Ready o)
    (hagree : v.Agree u) : Gathers o a (ts ++ [u]) v := by
  have ha := h.wider.after
  have hv := h.ready
  have hua := hu.later h.wider.toLater (h.wider.unshadowed hclear)
  obtain ⟨hvnone, hunone, hsame⟩ := id hagree
  have hvbranches := branches_of_merged_none hvnone
  have hubranches := branches_of_merged_none hunone
  have hvmention := hv.branches v.mention (by simp [hvbranches])
  have humention := hua.branches u.mention (by simp [hubranches])
  have hkey := (Mention.knownSame_iff_key ha hvmention humention).1 hsame
  obtain ⟨hdim, hbase⟩ :=
    Mention.base?_of_key ha hvmention humention hv.unstubbed hua.unstubbed hkey
  refine ⟨h.wider, hv, fun m hm => ?_, fun k => ?_, fun k => ?_, fun k s => ?_⟩
  · obtain ⟨t, ht, hmt⟩ := h.branches m hm
    exact ⟨t, List.mem_append_left _ ht, hmt⟩
  · have huv : k ∈ u.branches.map Mention.key ↔ k ∈ v.branches.map Mention.key := by
      simp [hvbranches, hubranches, hkey]
    simp only [List.mem_append, List.mem_singleton, or_and_right, exists_or, exists_eq_left, huv,
      ← h.keys, or_self]
  · simp only [List.mem_append, List.mem_singleton, or_imp, forall_and, forall_eq, ← h.alone,
      ← alone_of_agree ha hv.toFormed hua.toFormed hagree k, and_self]
  · have huv : u.mention.Reaches o k s ↔ v.mention.Reaches a k s := by
      rw [← Mention.reaches_wider h.wider hu.wellNamed, Mention.Reaches, Mention.Reaches, hdim,
        hbase]
    simp only [List.mem_append, List.mem_singleton, or_imp, forall_and, forall_eq, ← h.reaches, huv,
      and_self]

/-- A type more is joined, and a class above it is found. -/
lemma Gathers.merge_apart {c : Class} (h : Gathers o a ts v) (hclear : o.Unshadowed)
    (hplain : o.PlainAbove) (hu : u.Ready o) (hapart : ¬ v.Agree u) (hwider : a.Wider b)
    (hrun : v.merge u a =
      .ok (some { ofClass c with merged := some (joinBranches v.branches u.branches) }) b)
    (habove : ∀ k s, (Mention.loaded c).Reaches b k s ↔
      v.mention.Reaches a k s ∧ u.mention.Reaches a k s) :
    Gathers o b (ts ++ [u])
      { ofClass c with merged := some (joinBranches v.branches u.branches) } := by
  have ha := h.wider.after
  have hv := h.ready
  have hua := hu.later h.wider.toLater (h.wider.unshadowed hclear)
  have hbclear := hwider.unshadowed (h.wider.unshadowed hclear)
  have hbplain := hwider.plainAbove (h.wider.plainAbove hplain)
  refine ⟨h.wider.trans hwider, ⟨?_, ?_, ?_, trivial, id⟩, fun m hm => ?_, fun k => ?_, fun k => ?_,
    fun k s => ?_⟩
  · exact (hv.toFormed.merge ha hua.toFormed hrun).2
  · exact hv.toPlural.merge ha hv.toFormed hua.toFormed hua.toPlural hrun
  · exact hv.bounded.merge ha hv.toFormed hua.toFormed hua.bounded hrun hbclear hbplain
  · rcases mem_joinBranches hm with hm | hm
    · obtain ⟨t, ht, hmt⟩ := h.branches m hm
      exact ⟨t, List.mem_append_left _ ht, hmt⟩
    · exact ⟨u, by simp, hm⟩
  · rw [branches_merge hrun, mem_keys_joinBranches ha hv.branches hua.branches, h.keys]
    simp only [List.mem_append, List.mem_singleton, or_and_right, exists_or, exists_eq_left]
  · simp only [List.mem_append, List.mem_singleton, or_imp, forall_and, forall_eq, ← h.alone]
    constructor
    · intro halone
      cases halone.1
    · intro halone
      obtain ⟨⟨hvnone, hvkey⟩, hunone, hukey⟩ := halone
      refine absurd ⟨hvnone, hunone, ?_⟩ hapart
      rw [Mention.knownSame_iff_key ha (hv.branches _ (by simp [branches_of_merged_none hvnone]))
        (hua.branches _ (by simp [branches_of_merged_none hunone])), hvkey, hukey]
  · simp only [List.mem_append, List.mem_singleton, or_imp, forall_and, forall_eq, ← h.reaches,
      ← Mention.reaches_wider h.wider hu.wellNamed]
    exact habove k s

/-- One type more is joined. -/
lemma Gathers.merge (h : Gathers o a ts v) (hclear : o.Unshadowed) (hplain : o.PlainAbove)
    (hu : u.Ready o) :
    ∃ w b, v.merge u a = .ok (some w) b ∧ Gathers o b (ts ++ [u]) w ∧
      (w.merged = none ∨ w.Crowned b) := by
  by_cases hagree : v.Agree u
  · exact ⟨v, a, merge_of_agree hagree, h.merge_agree hclear hu hagree, .inl hagree.1⟩
  · have ha := h.wider.after
    have hv := h.ready
    have hua := hu.later h.wider.toLater (h.wider.unshadowed hclear)
    obtain ⟨c, b, n, d, hc, hwider, htops, habove⟩ := exists_commonSupertype ha
      (h.wider.unshadowed hclear) (h.wider.plainAbove hplain) hv hua
    have hrun := merge_of_several hagree
      (joinBranches_ne_singleton ha hv.toFormed hua.toFormed hv.toPlural hua.toPlural hagree) hc
    exact ⟨_, b, hrun, h.merge_apart hclear hplain hu hagree hwider hrun habove,
      .inr ⟨c, n, d, rfl, htops⟩⟩

/-- Any number of types more are joined. -/
lemma Gathers.mergeAll (h : Gathers o a ts v) (hclear : o.Unshadowed) (hplain : o.PlainAbove)
    (hus : ∀ u ∈ us, u.Ready o) :
    ∃ w b, v.mergeAll us a = .ok (some w) b ∧ Gathers o b (ts ++ us) w ∧
      (us ≠ [] → w.merged = none ∨ w.Crowned b) := by
  induction us generalizing a v ts with
  | nil => exact ⟨v, a, rfl, by simpa using h, fun hne => absurd rfl hne⟩
  | cons u us ih =>
    obtain ⟨x, s, hx, hgathers, hxcrowned⟩ := h.merge hclear hplain (hus u List.mem_cons_self)
    obtain ⟨w, b, hw, hall, hcrowned⟩ := ih hgathers fun t ht => hus t (List.mem_cons_of_mem _ ht)
    refine ⟨w, b, (bind_of_ok hx).trans hw, by simpa using hall, fun _ => ?_⟩
    cases us with
    | nil =>
      cases hw
      exact hxcrowned
    | cons => exact hcrowned (by simp)

section

variable {c d x y : Class} {n j : Nat}

/-- What a join sees above one class is above another one, and so the class is, unless it is the
stand-in for the common supertype of arrays. -/
lemma mem_superclasses_of_reaches (hb : b.Tidy) (hc : a.Tops c n x) (hd : b.Tops d j y)
    (h : ∀ k s, (Mention.loaded c).Reaches a k s → (Mention.loaded d).Reaches b k s)
    (hstub : ¬ (n = 0 ∧ x = Boot.arrayStub)) : (n = 0 ∨ j = n) ∧ x ∈ y.superclasses := by
  have hself := h n x (hc.reaches_iff.2 (.inr ⟨rfl, fun hn hx => hstub ⟨hn, hx⟩,
    x.mem_superclasses_self⟩))
  rcases hd.reaches_iff.1 hself with ⟨hzero, rfl⟩ | ⟨rfl, -, hmem⟩
  · exact ⟨.inl hzero, hb.object_mem_superclasses hd.base⟩
  · exact ⟨.inr rfl, hmem⟩

lemma key_of_tops (ha : a.Tidy) (hb : b.Tidy) (hc : a.Tops c n x) (hd : b.Tops d n x) :
    (Mention.loaded c).key = (Mention.loaded d).key := by
  have hform : c.form = d.form := hc.form.trans hd.form.symm
  refine Prod.ext ?_ ?_
  · change c.name = d.name
    rw [← Class.name_form, hform, Class.name_form]
  · change c.loader = d.loader
    rw [← ha.loader_form hc.known, hform, hb.loader_form hd.known]

/-- If a join names the stand-in for the common supertype of arrays and another one of the same
types does not, that one names the top of the hierarchy. -/
lemma blurred_of_stub (ha : a.Tidy) (hv : v.Ready a) (hvc : v.mention = .loaded c)
    (hwd : w.mention = .loaded d) (hc : a.Tops c n x) (hd : b.Tops d j y)
    (h : ∀ k s, (Mention.loaded d).Reaches b k s → (Mention.loaded c).Reaches a k s)
    (hx : n = 0 ∧ x = Boot.arrayStub) (hy : ¬ (j = 0 ∧ y = Boot.arrayStub)) : v.Blurred w := by
  obtain ⟨rfl, rfl⟩ := hx
  obtain ⟨hlevels, hmem⟩ := mem_superclasses_of_reaches ha hd hc h hy
  obtain rfl : j = 0 := hlevels.elim id Eq.symm
  have hytop : y = Boot.object := by
    rcases List.mem_cons.1 (show y ∈ [Boot.arrayStub, Boot.object] from hmem) with rfl | htop
    · exact absurd ⟨rfl, rfl⟩ hy
    · exact List.mem_singleton.1 htop
  subst hytop
  have hcstub : c = Boot.arrayStub := Class.eq_of_form_eq_object hc.form
  have hdtop : d = Boot.object := Class.eq_of_form_eq_object hd.form
  have hcovered := hv.bounded.covered hv.toFormed
  rw [hvc, hcstub] at hcovered
  exact ⟨hvc.trans (congrArg _ hcstub), hwd.trans (congrArg _ hdtop), hcovered.arrays ha⟩

end

/-- The joins of the same types name the same class, but for the stand-in for the common supertype
of arrays. -/
lemma Gathers.same_class (hv : Gathers o a ts v) (hw : Gathers o b ts w)
    (hvc : v.merged = none ∨ v.Crowned a) (hwc : w.merged = none ∨ w.Crowned b) :
    v.mention.key = w.mention.key ∨ v.Blurred w ∨ w.Blurred v := by
  have halone : ∀ k, v.Alone k ↔ w.Alone k := fun k => (hv.alone k).trans (hw.alone k).symm
  have hreaches : ∀ k s, v.mention.Reaches a k s ↔ w.mention.Reaches b k s :=
    fun k s => (hv.reaches k s).trans (hw.reaches k s).symm
  rcases hvc with hvnone | ⟨c, n, x, hvmention, hc⟩
  · exact .inl ((halone v.mention.key).1 ⟨hvnone, rfl⟩).2.symm
  rcases hwc with hwnone | ⟨d, j, y, hwmention, hd⟩
  · exact .inl ((halone w.mention.key).2 ⟨hwnone, rfl⟩).2
  have ha := hv.wider.after
  have hb := hw.wider.after
  rw [hvmention, hwmention] at hreaches
  have hup : ∀ k s, (Mention.loaded c).Reaches a k s → (Mention.loaded d).Reaches b k s :=
    fun k s => (hreaches k s).1
  have hdown : ∀ k s, (Mention.loaded d).Reaches b k s → (Mention.loaded c).Reaches a k s :=
    fun k s => (hreaches k s).2
  by_cases hx : n = 0 ∧ x = Boot.arrayStub
  · by_cases hy : j = 0 ∧ y = Boot.arrayStub
    · obtain ⟨rfl, rfl⟩ := hx
      obtain ⟨rfl, rfl⟩ := hy
      rw [hvmention, hwmention]
      exact .inl (key_of_tops ha hb hc hd)
    · exact .inr (.inl (blurred_of_stub ha hv.ready hvmention hwmention hc hd hdown hx hy))
  · by_cases hy : j = 0 ∧ y = Boot.arrayStub
    · exact .inr (.inr (blurred_of_stub hb hw.ready hwmention hvmention hd hc hup hy hx))
    · obtain ⟨hlevels, hxy⟩ := mem_superclasses_of_reaches hb hc hd hup hx
      obtain ⟨hlevels', hyx⟩ := mem_superclasses_of_reaches ha hd hc hdown hy
      obtain rfl := Class.eq_of_mem_superclasses hxy hyx
      obtain rfl : n = j := by omega
      rw [hvmention, hwmention]
      exact .inl (key_of_tops ha hb hc hd)

/-- The branches of the joins of the same types are known to be the same. -/
lemma Gathers.same_branches (ho : o.Tidy) (hts : ∀ t ∈ ts, t.Formed o) (hv : Gathers o a ts v)
    (hw : Gathers o b ts w) : ∀ m ∈ v.branches, ∃ n ∈ w.branches, m.knownSame n = true := by
  have hpublished : ∀ {q : Area} {z : ReferenceType}, Gathers o q ts z →
      ∀ m ∈ z.branches, m.Published o := by
    intro q z hz m hm
    obtain ⟨t, ht, hmt⟩ := hz.branches m hm
    exact (hts t ht).branches m hmt
  intro m hm
  obtain ⟨n, hn, hkey⟩ := List.mem_map.1
    ((hw.keys m.key).2 ((hv.keys m.key).1 (List.mem_map_of_mem hm)))
  have hsame := Mention.knownSame_iff_key ho (hpublished hv m hm) (hpublished hw n hn)
  exact ⟨n, hn, hsame.2 hkey.symm⟩

end

end ReferenceType

namespace Resolver

/-- Types that arise can be joined, if no branch has an ill-formed name or that of an array over the
stand-in for the common supertype of arrays. -/
lemma Arises.ready {start r : Resolver} {s : ReferenceType} (h : Arises start r (.reference s))
    (hstart : start.area.Tidy) (hclear : r.area.Unshadowed) (hplain : r.area.PlainAbove)
    (hnames : ∀ m ∈ s.branches, m.WellNamed ∧ ¬ m.NamesStubArray) : s.Ready r.area := by
  have hbounded := h.bounded hstart hclear hplain s rfl
  have hmention : s.mention.WellNamed ∧ ¬ s.mention.NamesStubArray := by
    rcases hbounded with hnone | ⟨c, hmention, -⟩
    · exact hnames _ (by simp [branches_of_merged_none hnone])
    · rw [hmention]
      exact ⟨trivial, id⟩
  exact ⟨(h.formed hstart).2 s rfl, h.plural hstart s rfl, hbounded, hmention.1, hmention.2⟩

/-- Types that arise are joined in one order and in another one, the second time in the same state
or after the first time. Both joins exist, their branches are known to be the same, and they name
the same class, unless all types are arrays: then one join may name the stand-in for the common
supertype of arrays and the other one the top of the hierarchy.

No class of the name of the stand-in may be loaded, no array over it and nothing ill-formed may be
named, and no class but an array class may have array classes above it. -/
theorem joins_in_any_order {start r : Resolver} {t u : ReferenceType} {ts us : List ReferenceType}
    (hstart : start.area = Area.initial)
    (hts : ∀ s ∈ t :: ts, Arises start r (.reference s) ∧
      ∀ m ∈ s.branches, m.WellNamed ∧ ¬ m.NamesStubArray)
    (hclear : r.area.Unshadowed) (hplain : r.area.PlainAbove)
    (hperm : (t :: ts).Perm (u :: us)) :
    ∃ v a, t.mergeAll ts r.area = .ok (some v) a ∧ ∀ q, q = r.area ∨ q = a →
      ∃ w b, u.mergeAll us q = .ok (some w) b ∧
        (∀ m ∈ v.branches, ∃ n ∈ w.branches, m.knownSame n = true) ∧
        (∀ n ∈ w.branches, ∃ m ∈ v.branches, n.knownSame m = true) ∧
        (v.mention.name = w.mention.name ∧ v.mention.loader = w.mention.loader ∨
          v.Blurred w ∨ w.Blurred v) := by
  have hinitial : start.area.Tidy := hstart ▸ Area.initial_tidy
  have hr : r.area.Tidy :=
    ((hts t List.mem_cons_self).1.formed hinitial).1.tidy hinitial
  have hready : ∀ s ∈ t :: ts, s.Ready r.area :=
    fun s hs => (hts s hs).1.ready hinitial hclear hplain (hts s hs).2
  have hready' : ∀ s ∈ u :: us, s.Ready r.area := fun s hs => hready s (hperm.mem_iff.2 hs)
  obtain ⟨v, a, hv, hvall, hvc⟩ := (gathers_singleton (.refl hr) hclear
    (hready t List.mem_cons_self)).mergeAll hclear hplain
    fun s hs => hready s (List.mem_cons_of_mem _ hs)
  refine ⟨v, a, hv, fun q hq => ?_⟩
  have hwider : r.area.Wider q := by
    rcases hq with rfl | rfl
    · exact .refl hr
    · exact hvall.wider
  obtain ⟨w, b, hw, hwall, hwc⟩ := (gathers_singleton hwider hclear
    (hready' u List.mem_cons_self)).mergeAll hclear hplain
    fun s hs => hready' s (List.mem_cons_of_mem _ hs)
  have hvall : Gathers r.area a (t :: ts) v := hvall
  have hwall : Gathers r.area b (t :: ts) w := Gathers.perm hwall hperm.symm
  have hformed : ∀ s ∈ t :: ts, s.Formed r.area := fun s hs => (hready s hs).toFormed
  refine ⟨w, b, hw, hvall.same_branches hr hformed hwall, hwall.same_branches hr hformed hvall, ?_⟩
  cases ts with
  | nil =>
    obtain ⟨rfl, rfl⟩ := List.cons.inj (List.singleton_perm.1 hperm)
    cases hv
    cases hw
    exact .inl ⟨rfl, rfl⟩
  | cons x xs =>
    have hus : us ≠ [] := by
      rintro rfl
      exact absurd hperm.length_eq (by simp)
    exact (hvall.same_class hwall (hvc (by simp)) (hwc hus)).imp_left Prod.mk.inj

/-! ### Orders in which arrays are joined -/

/-- The type of a class that is named from the code of the string class. -/
def namedType (name : String) : ReferenceType := .ofMention (.symbolic ⟨Boot.string, name⟩)

lemma proper_namedType {r : Resolver} {name : String} (hr : GenuineRun { area := Area.initial } r)
    (hname : IsWellFormed name)
    (hstub : (namedType name).elementClass.map Mention.name ≠ some Boot.arrayStubName) :
    Arises { area := Area.initial } r (.reference (namedType name)) ∧
      ∀ m ∈ (namedType name).branches, m.WellNamed ∧ ¬ m.NamesStubArray := by
  refine ⟨.symbolic hr ⟨Boot.string, name⟩, fun m hm => ?_⟩
  rw [namedType, branches_ofMention, List.mem_singleton] at hm
  subst hm
  refine ⟨hname, ?_⟩
  rintro ⟨e, he, hname⟩
  exact hstub ((congrArg (Option.map Mention.name) he).trans (congrArg some hname))

/-- Whether types are joined and the join names a class of the given name. -/
def joinsTo (t : ReferenceType) (ts : List ReferenceType) (name : String) (r : Resolver) : Bool :=
  match t.mergeAll ts r.area with
  | .ok (some v) _ => v.mention.name = name
  | _ => false

lemma exists_of_joinsTo {t : ReferenceType} {ts : List ReferenceType} {name : String} {r : Resolver}
    (h : joinsTo t ts name r = true) :
    ∃ v a, t.mergeAll ts r.area = .ok (some v) a ∧ v.mention.name = name := by
  simp only [joinsTo] at h
  split at h
  · next v a hv => exact ⟨v, a, hv, of_decide_eq_true h⟩
  · cases h

/-- Arrays over a class, over a subclass and over a third class are joined in two orders, and each
time as arrays over the top of the hierarchy. -/
theorem arrays_joined_in_two_orders :
    ∃ v w a b, (namedType "[Lp/B;").mergeAll
        [namedType "[Lp/A;", namedType "[Ljava/lang/String;"] loaded.area = .ok (some v) a ∧
      (namedType "[Ljava/lang/String;").mergeAll
        [namedType "[Lp/B;", namedType "[Lp/A;"] loaded.area = .ok (some w) b ∧
      v.mention.name = "[Ljava/lang/Object;" ∧ w.mention.name = "[Ljava/lang/Object;" := by
  have hjoins : joinsTo (namedType "[Lp/B;") [namedType "[Lp/A;", namedType "[Ljava/lang/String;"]
      "[Ljava/lang/Object;" loaded = true := by
    decide +kernel
  have htables : ((loaded.area.published? .bootstrap Boot.arrayStubName).isNone &&
      loaded.area.plainTables) = true := by
    decide +kernel
  rw [Bool.and_eq_true] at htables
  have hr : GenuineRun { area := Area.initial } loaded :=
    genuineRun_unloaded.trans genuineRun_loaded
  have hproper : ∀ s ∈ [namedType "[Lp/B;", namedType "[Lp/A;", namedType "[Ljava/lang/String;"],
      Arises { area := Area.initial } loaded (.reference s) ∧
        ∀ m ∈ s.branches, m.WellNamed ∧ ¬ m.NamesStubArray := by
    simp only [List.forall_mem_cons, List.not_mem_nil, false_imp_iff, implies_true, and_true]
    exact ⟨proper_namedType hr (isWellFormed_array (e := "p/B") (by decide)) (by decide +kernel),
      proper_namedType hr (isWellFormed_array (e := "p/A") (by decide)) (by decide +kernel),
      proper_namedType hr (isWellFormed_array (e := "java/lang/String") (by decide))
        (by decide +kernel)⟩
  have hperm : ([namedType "[Lp/B;", namedType "[Lp/A;"] ++ [namedType "[Ljava/lang/String;"]).Perm
      ([namedType "[Ljava/lang/String;"] ++ [namedType "[Lp/B;", namedType "[Lp/A;"]) :=
    List.perm_append_comm
  obtain ⟨v, a, hv, hany⟩ := joins_in_any_order rfl hproper
    (Option.isNone_iff_eq_none.1 htables.1) (Area.plainAbove_of_plainTables htables.2) hperm
  obtain ⟨w, b, hw, -, -, hclass⟩ := hany _ (.inl rfl)
  obtain ⟨v', a', hv', hname⟩ := exists_of_joinsTo hjoins
  rw [hv] at hv'
  cases hv'
  refine ⟨v, w, a, b, hv, hw, hname, ?_⟩
  rcases hclass with ⟨hsame, -⟩ | hblurred | hblurred
  · rw [← hsame, hname]
  · rw [hblurred.first] at hname
    exact absurd hname (by decide)
  · rw [hblurred.second] at hname
    exact absurd hname (by decide)

/-- Types that arise are joined in two orders, and the joins name different classes. -/
def OrderMatters (t : ReferenceType) (ts : List ReferenceType) (u : ReferenceType)
    (us : List ReferenceType) (r : Resolver) : Prop :=
  (∀ s ∈ t :: ts, Arises { area := Area.initial } r (.reference s)) ∧ (t :: ts).Perm (u :: us) ∧
    ∃ v w a b, t.mergeAll ts r.area = .ok (some v) a ∧ u.mergeAll us r.area = .ok (some w) b ∧
      v.mention.name ≠ w.mention.name

lemma orderMatters_of_joinsTo {t u : ReferenceType} {ts us : List ReferenceType} {x y : String}
    {r : Resolver} (hts : ∀ s ∈ t :: ts, Arises { area := Area.initial } r (.reference s))
    (hperm : (t :: ts).Perm (u :: us)) (ht : joinsTo t ts x r = true)
    (hu : joinsTo u us y r = true) (hne : x ≠ y) : OrderMatters t ts u us r := by
  obtain ⟨v, a, hv, hvname⟩ := exists_of_joinsTo ht
  obtain ⟨w, b, hw, hwname⟩ := exists_of_joinsTo hu
  exact ⟨hts, hperm, v, w, a, b, hv, hw, by rwa [hvname, hwname]⟩

/-- Arrays over primitive types, the same ones twice, are joined in two orders. Two classes below an
array class and another array class are joined in two orders. The joins name different classes. -/
theorem joins_in_other_order :
    OrderMatters (namedType "[I") [namedType "[I", namedType "[J"] (namedType "[I")
        [namedType "[J", namedType "[I"] { area := Area.initial } ∧
      OrderMatters (namedType "p/A") [namedType "p/B", namedType "[J"] (namedType "p/A")
        [namedType "[J", namedType "p/B"] belowArrays := by
  have harises : ∀ {r : Resolver} {x y z : String}, GenuineRun { area := Area.initial } r →
      ∀ s ∈ [namedType x, namedType y, namedType z],
        Arises { area := Area.initial } r (.reference s) := by
    intro r x y z hr
    simp only [List.forall_mem_cons, List.not_mem_nil, false_imp_iff, implies_true, and_true]
    exact ⟨.symbolic hr _, .symbolic hr _, .symbolic hr _⟩
  refine ⟨orderMatters_of_joinsTo (x := Boot.arrayStubName) (y := objectName)
      (harises ReflTransGen.refl) (.cons _ (.swap _ _ _)) ?_ ?_ (by decide),
    orderMatters_of_joinsTo (x := Boot.arrayStubName) (y := objectName)
      (harises genuineRun_belowArrays) (.cons _ (.swap _ _ _)) ?_ ?_ (by decide)⟩
  · decide +kernel
  · decide +kernel
  · decide +kernel
  · decide +kernel

end Resolver

end Linkage
