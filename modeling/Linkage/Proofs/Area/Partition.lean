import Linkage.Area.Array
import Linkage.Area.Boot
import Linkage.Proofs.Constraints
import Linkage.Proofs.Outcome
import Mathlib.Data.Set.Card

/-!
# The partition of the loaders

The loading constraints on a name are the equivalence that the accepted demands generate, and
nothing else is remembered of the demands. A table changes by joining two groups or by binding one
(`Constraints.Move`); from what such a move keeps follows what a run keeps.
-/

namespace Linkage

open Relation

/-! ### Keys of a table -/

namespace Table

variable {κ υ : Type} [DecidableEq κ] {t : Table κ υ} {k : κ} {v : υ}

/-- No key has two entries. -/
def Keyed (t : Table κ υ) : Prop :=
  (t.entries.map Prod.fst).Nodup

lemma mem_keys_insertEntry {es : List (κ × υ)} {k' : κ} :
    k' ∈ (insertEntry k v es).map Prod.fst ↔ k' = k ∨ k' ∈ es.map Prod.fst := by
  induction es with
  | nil => simp [insertEntry]
  | cons e es ih =>
    by_cases he : e.1 = k
    · simp [insertEntry, he]
    · rw [insertEntry, if_neg he, List.map_cons, List.mem_cons, ih, List.map_cons, List.mem_cons]
      exact or_left_comm

lemma Keyed.insert (h : t.Keyed) : (t.insert k v).Keyed := by
  obtain ⟨es⟩ := t
  simp only [Keyed, Table.insert] at h ⊢
  induction es with
  | nil => simp [insertEntry]
  | cons e es ih =>
    obtain ⟨hnew, hes⟩ := List.nodup_cons.1 h
    by_cases he : e.1 = k
    · subst he
      simpa [insertEntry] using h
    · rw [insertEntry, if_neg he, List.map_cons, List.nodup_cons]
      refine ⟨fun hmem => ?_, ih hes⟩
      rcases mem_keys_insertEntry.1 hmem with hk | hold
      · exact he hk
      · exact hnew hold

lemma Keyed.modify (h : t.Keyed) (f : υ → υ) : (t.modify k f).Keyed := by
  unfold Table.modify
  split
  · exact h.insert
  · exact h

lemma Keyed.mem_entries (h : t.Keyed) : (k, v) ∈ t.entries ↔ t.get? k = some v := by
  obtain ⟨es⟩ := t
  simp only [Keyed, get?] at h ⊢
  induction es with
  | nil => simp [firstValue?]
  | cons e es ih =>
    obtain ⟨hnew, hes⟩ := List.nodup_cons.1 h
    by_cases he : e.1 = k
    · subst he
      have hnone : (e.1, v) ∉ es := fun hmem => hnew (List.mem_map.2 ⟨_, hmem, rfl⟩)
      simp [firstValue?, hnone, Prod.ext_iff, eq_comm]
    · have hne : (k, v) ≠ e := fun hke => he (by rw [← hke])
      simp [firstValue?, he, hne, ih hes]

end Table

/-! ### Groups as a partition -/

namespace Constraints

variable {t t' : Constraints} {n : String} {x y : LoaderId} {g : LoaderGroup}

/-- The groups of a name are disjoint, and each is a set of several loaders. -/
structure Partitioned (t : Constraints) : Prop where
  keyed : t.groups.Keyed
  disjoint : ∀ n, (t.groupsOf n).Pairwise fun g h => ∀ l ∈ g.loaders, l ∉ h.loaders
  nodup : ∀ n, ∀ g ∈ t.groupsOf n, g.loaders.Nodup
  several : ∀ n, ∀ g ∈ t.groupsOf n, 2 ≤ g.loaders.length

lemma partitioned_empty : Partitioned {} :=
  ⟨List.nodup_nil, fun _ => .nil, fun _ g hg => (by cases hg), fun _ g hg => (by cases hg)⟩

lemma Partitioned.group?_eq (h : t.Partitioned) (hg : g ∈ t.groupsOf n) (hx : x ∈ g.loaders) :
    t.group? n x = some g := by
  obtain ⟨k, hk⟩ := List.getElem?_of_mem hg
  obtain ⟨g', hk', hgroup, -⟩ := groupIndex?_eq_some (groupIndex?_of_mem (h.disjoint n) hk hx)
  rwa [← Option.some_inj.1 (hk'.symm.trans hk)]

/-- The loaders that have to agree with a loader are itself and those in its group. -/
lemma Partitioned.mem_loadersOf (h : t.Partitioned) :
    y ∈ t.loadersOf n x ↔ x = y ∨ Together (t.groupsOf n) x y := by
  cases hgroup : t.group? n x with
  | none =>
    have halone : ¬ Together (t.groupsOf n) x y := by
      rintro ⟨g, hg, hx, -⟩
      rw [h.group?_eq hg hx] at hgroup
      cases hgroup
    simp [loadersOf, hgroup, halone, eq_comm]
  | some g =>
    have hg : g ∈ t.groupsOf n := List.mem_of_find?_eq_some hgroup
    have hx : x ∈ g.loaders := by simpa using List.find?_some hgroup
    simp only [loadersOf, hgroup, Option.map_some, Option.getD_some]
    constructor
    · intro hy
      exact .inr ⟨g, hg, hx, hy⟩
    · rintro (rfl | ⟨g', hg', hx', hy⟩)
      · exact hx
      · have heq := h.group?_eq hg' hx'
        rw [hgroup] at heq
        cases heq
        exact hy

lemma Partitioned.related_iff (h : t.Partitioned) :
    t.related n x y = true ↔ y ∈ t.loadersOf n x := by
  rw [h.mem_loadersOf]
  constructor
  · exact together_of_related
  · rintro (rfl | htogether)
    · simp [related]
    · exact related_of_together (h.disjoint n) htogether

lemma Partitioned.equivalence (h : t.Partitioned) (n : String) :
    Equivalence fun x y => y ∈ t.loadersOf n x := by
  simp only [h.mem_loadersOf]
  refine ⟨fun x => .inl rfl, ?_, ?_⟩
  · rintro x y (rfl | ⟨g, hg, hx, hy⟩)
    · exact .inl rfl
    · exact .inr ⟨g, hg, hy, hx⟩
  · rintro x y z (rfl | ⟨g, hg, hx, hy⟩) hyz
    · exact hyz
    · rcases hyz with rfl | ⟨g', hg', hy', hz⟩
      · exact .inr ⟨g, hg, hx, hy⟩
      · have heq := h.group?_eq hg' hy'
        rw [h.group?_eq hg hy] at heq
        cases heq
        exact .inr ⟨g, hg, hx, hz⟩

/-! ### Moves -/

/-- The changes that calls make to a table. A joined group is bound to the class of either side if
that side is bound. -/
inductive Move (t : Constraints) : Constraints → Prop where
  | stay : Move t t
  | join {n : String} {x y : LoaderId} {bound : Option Class} (hnew : t.related n x y = false)
      (hbound : ∀ z c, z = x ∨ z = y → t.bound? n z = some c →
        ∃ d, bound = some d ∧ d.same c = true) : Move t (t.join n x y bound)
  | bind (l : LoaderId) (c : Class) : Move t (t.bind l c)

lemma nodup_enrol {ls : List LoaderId} (h : ls.Nodup) (l : LoaderId) : (enrol ls l).Nodup := by
  unfold enrol
  split
  · exact h
  · next hl => simpa [List.nodup_append] using ⟨h, fun x hx => fun hxl => hl (hxl ▸ hx)⟩

lemma two_le_length {ls : List LoaderId} (hne : x ≠ y) (hx : x ∈ ls) (hy : y ∈ ls) :
    2 ≤ ls.length := by
  match ls with
  | [] => cases hx
  | [z] => exact absurd ((List.mem_singleton.1 hx).trans (List.mem_singleton.1 hy).symm) hne
  | _ :: _ :: _ => simp

lemma ne_of_not_related (h : t.related n x y = false) : x ≠ y := by
  rintro rfl
  simp [related] at h

lemma Partitioned.join (h : t.Partitioned) (hnew : t.related n x y = false)
    (bound : Option Class) : (t.join n x y bound).Partitioned := by
  obtain ⟨taken, rest, joined, hperm, hgroups, -, hloaders, -, hapart, heq⟩ :=
    exists_join (h.disjoint n) hnew bound
  have hpairwise := (hperm.pairwise_iff fun h l hl hl' => h l hl' hl).1 (h.disjoint n)
  obtain ⟨htaken, hrest, -⟩ := List.pairwise_append.1 hpairwise
  have hold : ∀ g, g ∈ taken ∨ g ∈ rest → g ∈ t.groupsOf n := fun g hg =>
    hperm.mem_iff.2 (List.mem_append.2 hg)
  have hother : ∀ m, n ≠ m → (t.join n x y bound).groupsOf m = t.groupsOf m := fun m hm => by
    rw [groupsOf_join, if_neg hm]
  -- A property of all old groups that the joined one has too is a property of all new groups.
  have hall : ∀ p : LoaderGroup → Prop, (∀ m, ∀ g ∈ t.groupsOf m, p g) → p joined →
      ∀ m, ∀ g ∈ (t.join n x y bound).groupsOf m, p g := by
    intro p hp hjoined m g hg
    by_cases hm : n = m
    · subst hm
      rw [hgroups] at hg
      rcases List.mem_append.1 hg with hg | hg
      · exact hp n g (hold g (.inr hg))
      · rwa [List.mem_singleton.1 hg]
    · rw [hother m hm] at hg
      exact hp m g hg
  refine ⟨h.keyed.insert, fun m => ?_, hall _ h.nodup ?_, hall _ h.several ?_⟩
  · by_cases hm : n = m
    · subst hm
      rw [hgroups, List.pairwise_append]
      refine ⟨hrest, List.pairwise_singleton _ _, fun g hg k hk => ?_⟩
      rw [List.mem_singleton.1 hk]
      exact hapart g hg
    · rw [hother m hm]
      exact h.disjoint m
  · have hmembers : (taken.flatMap LoaderGroup.loaders).Nodup :=
      List.nodup_flatMap.2 ⟨fun g hg => h.nodup n g (hold g (.inl hg)),
        htaken.imp fun hgk l hl hl' => hgk l hl hl'⟩
    rw [heq]
    exact nodup_enrol (nodup_enrol hmembers x) y
  · exact two_le_length (ne_of_not_related hnew) ((hloaders x).2 (.inl rfl))
      ((hloaders y).2 (.inr (.inl rfl)))

lemma Partitioned.bind (h : t.Partitioned) (l : LoaderId) (c : Class) :
    (t.bind l c).Partitioned := by
  refine ⟨h.keyed.modify _, fun m => pairwise_bind (h.disjoint m) l c, fun m g hg => ?_,
    fun m g hg => ?_⟩
  · obtain ⟨k, g', hk, hloaders, -⟩ := exists_of_mem_bind hg
    rw [hloaders]
    exact h.nodup m g' (List.mem_of_getElem? hk)
  · obtain ⟨k, g', hk, hloaders, -⟩ := exists_of_mem_bind hg
    rw [hloaders]
    exact h.several m g' (List.mem_of_getElem? hk)

lemma Partitioned.move (h : t.Partitioned) (hmove : Move t t') : t'.Partitioned := by
  cases hmove with
  | stay => exact h
  | join hnew _ => exact h.join hnew _
  | bind l c => exact h.bind l c

/-- No move separates a group or changes what it is bound to. -/
lemma Partitioned.exists_of_move (h : t.Partitioned) (hmove : Move t t')
    (hg : g ∈ t.groupsOf n) :
    ∃ g' ∈ t'.groupsOf n, g.loaders ⊆ g'.loaders ∧
      ∀ c, g.bound = some c → ∃ d, g'.bound = some d ∧ d.same c = true := by
  cases hmove with
  | stay => exact ⟨g, hg, fun _ hl => hl, fun c hc => ⟨c, hc, c.same_self⟩⟩
  | @join m x y bound hnew hbound =>
    by_cases hm : m = n
    · subst hm
      obtain ⟨taken, rest, joined, hperm, hgroups, rfl, hloaders, htaken, -⟩ :=
        exists_join (h.disjoint m) hnew bound
      rw [hgroups]
      rcases List.mem_append.1 (hperm.mem_iff.1 hg) with hg | hg
      · refine ⟨joined, by simp, fun l hl => (hloaders l).2 (.inr (.inr ⟨g, hg, hl⟩)),
          fun c hc => ?_⟩
        rcases htaken g hg with hx | hy
        · exact hbound x c (.inl rfl) (by simp [bound?, hx, hc])
        · exact hbound y c (.inr rfl) (by simp [bound?, hy, hc])
      · exact ⟨g, List.mem_append_left _ hg, fun _ hl => hl, fun c hc => ⟨c, hc, c.same_self⟩⟩
    · rw [groupsOf_join, if_neg hm]
      exact ⟨g, hg, fun _ hl => hl, fun c hc => ⟨c, hc, c.same_self⟩⟩
  | bind l c =>
    obtain ⟨k, hk⟩ := List.getElem?_of_mem hg
    have hbind := getElem?_groupsOf_bind t l c n k
    rw [hk] at hbind
    split at hbind
    · exact ⟨_, List.mem_of_getElem? hbind, fun _ hl => hl,
        fun d hd => ⟨d, by simp [hd], d.same_self⟩⟩
    · exact ⟨g, List.mem_of_getElem? hbind, fun _ hl => hl, fun d hd => ⟨d, hd, d.same_self⟩⟩

lemma Partitioned.mem_loadersOf_move (h : t.Partitioned) (hmove : Move t t')
    (hxy : y ∈ t.loadersOf n x) : y ∈ t'.loadersOf n x := by
  rw [(h.move hmove).mem_loadersOf]
  rcases h.mem_loadersOf.1 hxy with rfl | ⟨g, hg, hx, hy⟩
  · exact .inl rfl
  · obtain ⟨g', hg', hsub, -⟩ := h.exists_of_move hmove hg
    exact .inr ⟨g', hg', hsub hx, hsub hy⟩

/-- Joining brings together no loaders but those of the two groups. -/
lemma Partitioned.eqvGen_of_join (h : t.Partitioned) (hnew : t.related n x y = false)
    (bound : Option Class) {u v : LoaderId}
    (huv : v ∈ (t.join n x y bound).loadersOf n u) :
    EqvGen (fun u v => v ∈ t.loadersOf n u ∨ u = x ∧ v = y) u v := by
  rcases (h.join hnew bound).mem_loadersOf.1 huv with rfl | ⟨g, hg, hu, hv⟩
  · exact .refl u
  obtain ⟨taken, rest, joined, hperm, hgroups, -, hloaders, htaken, -⟩ :=
    exists_join (h.disjoint n) hnew bound
  rw [hgroups] at hg
  rcases List.mem_append.1 hg with hg | hg
  · exact .rel u v (.inl (h.mem_loadersOf.2
      (.inr ⟨g, hperm.mem_iff.2 (List.mem_append_right _ hg), hu, hv⟩)))
  · obtain rfl := List.mem_singleton.1 hg
    have hxy : EqvGen (fun u v => v ∈ t.loadersOf n u ∨ u = x ∧ v = y) x y :=
      .rel x y (.inr ⟨rfl, rfl⟩)
    -- Every member of the joined group is tied to the first of the two loaders.
    have htied : ∀ z ∈ g.loaders,
        EqvGen (fun u v => v ∈ t.loadersOf n u ∨ u = x ∧ v = y) x z := by
      intro z hz
      rcases (hloaders z).1 hz with rfl | rfl | ⟨k, hk, hzk⟩
      · exact .refl z
      · exact hxy
      · have hgroup : ∀ w, t.group? n w = some k → z ∈ t.loadersOf n w := fun w hw => by
          simpa [loadersOf, hw] using hzk
        rcases htaken k hk with hkx | hky
        · exact .rel x z (.inl (hgroup x hkx))
        · exact .trans x y z hxy (.rel y z (.inl (hgroup y hky)))
    exact .trans u x v (.symm x u (htied u hu)) (htied v hv)

/-! ### Counting the groups -/

/-- The groups over all names, each as a set of loaders. -/
def classes (t : Constraints) : List (String × Set LoaderId) :=
  t.groups.entries.flatMap fun e => e.2.map fun g => (e.1, {l | l ∈ g.loaders})

lemma length_classes (t : Constraints) : t.classes.length = t.size :=
  Table.length_flatMap_entries fun _ => List.length_map _

lemma Partitioned.mem_classes (h : t.Partitioned) {p : String × Set LoaderId} :
    p ∈ t.classes ↔ ∃ g ∈ t.groupsOf p.1, p.2 = {l | l ∈ g.loaders} := by
  obtain ⟨n, ls⟩ := p
  simp only [classes, List.mem_flatMap, List.mem_map, Prod.mk.injEq, groupsOf]
  constructor
  · rintro ⟨⟨m, gs⟩, he, g, hg, rfl, rfl⟩
    exact ⟨g, by simpa [h.keyed.mem_entries.1 he] using hg, rfl⟩
  · rintro ⟨g, hg, rfl⟩
    cases hgs : t.groups.get? n with
    | none => simp [hgs] at hg
    | some gs => exact ⟨(n, gs), h.keyed.mem_entries.2 hgs, g, by simpa [hgs] using hg, rfl, rfl⟩

lemma Partitioned.nodup_classes (h : t.Partitioned) : t.classes.Nodup := by
  refine List.nodup_flatMap.2 ⟨fun e he => ?_, ?_⟩
  · have hgroups : t.groupsOf e.1 = e.2 := by simp [groupsOf, h.keyed.mem_entries.1 he]
    have hdisjoint := h.disjoint e.1
    rw [hgroups] at hdisjoint
    refine List.pairwise_map.2 (hdisjoint.imp_of_mem fun {g k} hg _ hgk heq => ?_)
    -- A group has a member, which cannot be in another group.
    have hlength := h.several e.1 g (hgroups ▸ hg)
    obtain ⟨l, hl⟩ := List.exists_mem_of_length_pos (l := g.loaders) (by omega)
    have hl' : l ∈ {l | l ∈ k.loaders} := (Prod.mk.inj heq).2 ▸ hl
    exact hgk l hl hl'
  · refine (List.pairwise_map.1 h.keyed).imp fun {e e'} hne p hp hp' => ?_
    obtain ⟨g, _, rfl⟩ := List.mem_map.1 hp
    obtain ⟨k, _, heq⟩ := List.mem_map.1 hp'
    exact hne (Prod.mk.inj heq).1.symm

lemma Partitioned.ncard_classes (h : t.Partitioned) : {p | p ∈ t.classes}.ncard = t.size := by
  classical
  have hcoe : {p | p ∈ t.classes} = (t.classes.toFinset : Set (String × Set LoaderId)) := by
    ext p
    simp
  rw [hcoe, Set.ncard_coe_finset, List.toFinset_card_of_nodup h.nodup_classes, length_classes]

end Constraints

/-! ### Calls -/

namespace Area

open Constraints

variable {a b : Area} {n : String} {x y : LoaderId}

/-- A call that goes through the loading constraints, with what the caller knows. -/
inductive Demand where
  /-- Two loaders have to agree on a name; `loaded` is what they have under it. -/
  | agree (name : String) (x y : LoaderId) (loaded : LoaderId → Option Class)
  /-- A loader gets a class; `published` is how making the class visible ends. -/
  | allow (l : LoaderId) (c : Class) (published : Except Fault Unit)

/-- Makes a call. The answer is whether it brought loaders together. -/
def Demand.perform : Demand → AreaM Bool
  | agree name x y loaded => addConstraint name x y fun l => pure (loaded l)
  | allow l c published => do
    checkLoaded l c (ofExcept published)
    return false

/-- How a call ends. -/
def Demand.outcome (d : Demand) (a : Area) : Except Fault Bool :=
  match d.perform a with
  | .ok changed _ => .ok changed
  | .error e _ => .error e

/-- The area after a call. -/
def Demand.after (d : Demand) (a : Area) : Area :=
  finalState d.perform a

/-- Calls with how they ended, the latest first. -/
abbrev Log := List (Demand × Except Fault Bool)

/-- The two loaders were made to agree on the name. -/
def Log.Accepted (log : Log) (n : String) (x y : LoaderId) : Prop :=
  ∃ loaded changed, (Demand.agree n x y loaded, Except.ok changed) ∈ log

/-- The classes of more than one loader in the equivalences that the accepted demands generate, over
all names. -/
def Log.classes (log : Log) : Set (String × Set LoaderId) :=
  {p | ∃ x, p.2 = {y | EqvGen (log.Accepted p.1) x y} ∧ p.2.Nontrivial}

/-- An area that serves the calls of a log becomes another one. Between the calls anything may
happen that leaves the constraints alone. -/
inductive Serves (a : Area) : Log → Area → Prop where
  | start : Serves a [] a
  | call {log : Log} {b : Area} (h : Serves a log b) (d : Demand) :
      Serves a ((d, d.outcome b) :: log) (d.after b)
  | other {log : Log} {b c : Area} (h : Serves a log b) (hc : c.constraints = b.constraints) :
      Serves a log c

/-- Makes calls in an area, the last one of the list first. -/
def serve (a : Area) : List Demand → Log × Area
  | [] => ([], a)
  | d :: ds => ((d, d.outcome (serve a ds).2) :: (serve a ds).1, d.after (serve a ds).2)

lemma serves_serve (a : Area) (ds : List Demand) : Serves a (a.serve ds).1 (a.serve ds).2 := by
  induction ds with
  | nil => exact .start
  | cons d ds ih => exact .call ih d

/-- The class that is known for a loader: that of its group, else what it has loaded. -/
def known (a : Area) (n : String) (loaded : LoaderId → Option Class) (l : LoaderId) :
    Option Class :=
  (a.constraints.bound? n l).or (loaded l)

/-- Different classes are known for two loaders. -/
def Differ (a : Area) (n : String) (loaded : LoaderId → Option Class) (x y : LoaderId) : Prop :=
  ∃ c d, a.known n loaded x = some c ∧ a.known n loaded y = some d ∧ c.same d = false

lemma add_congr {t : Constraints} {f g : LoaderId → Option Class}
    (hx : (t.bound? n x).or (f x) = (t.bound? n x).or (g x))
    (hy : (t.bound? n y).or (f y) = (t.bound? n y).or (g y)) :
    t.add n x y f = t.add n x y g := by
  simp only [Constraints.add, hx, hy]

/-- A lookup that only answers is asked where it counts. -/
lemma perform_agree (a : Area) (n : String) (x y : LoaderId) (loaded : LoaderId → Option Class) :
    (Demand.agree n x y loaded).perform a =
      match a.constraints.add n x y loaded with
      | .ok (changed, t) => .ok changed { a with constraints := t }
      | .error e => .error e a := by
  cases hrelated : a.constraints.related n x y with
  | true =>
    simp [Demand.perform, addConstraint, Constraints.add, hrelated, bind_of_ok (get_apply a)]
  | false =>
    have hadd : a.constraints.add n x y loaded = a.constraints.add n x y fun l =>
        if l = x then (if (a.constraints.bound? n x).isSome then none else loaded x)
        else if (a.constraints.bound? n y).isSome then none else loaded y := by
      have hne : y ≠ x := (ne_of_not_related hrelated).symm
      refine add_congr ?_ ?_
      · cases hx : a.constraints.bound? n x <;> simp
      · cases hy : a.constraints.bound? n y <;> simp [hne]
    simp only [Demand.perform, addConstraint, bind_of_ok (get_apply a), hrelated,
      Bool.false_eq_true, if_false, ← apply_ite pure, pure_bind, ← hadd]
    cases a.constraints.add n x y loaded <;> rfl

lemma add_of_differ {loaded : LoaderId → Option Class} (hnew : a.constraints.related n x y = false)
    (h : a.Differ n loaded x y) :
    a.constraints.add n x y loaded = .error (.loadersDisagree x y n) := by
  obtain ⟨c, d, hc, hd, hcd⟩ := h
  rw [known] at hc hd
  simp [Constraints.add, hnew, hc, hd, hcd]

lemma exists_add {loaded : LoaderId → Option Class} (hnew : a.constraints.related n x y = false)
    (h : ¬ a.Differ n loaded x y) : ∃ t, a.constraints.add n x y loaded = .ok (true, t) := by
  simp only [Constraints.add, hnew, Bool.false_eq_true, if_false]
  split
  · next c d hc hd =>
    have hsame : c.same d = true := by
      by_contra hne
      exact h ⟨c, d, hc, hd, by simpa using hne⟩
    exact ⟨_, by rw [if_pos hsame]⟩
  · exact ⟨_, rfl⟩

/-- The three ways in which making two loaders agree can end. -/
lemma agree_cases (a : Area) (n : String) (x y : LoaderId) (loaded : LoaderId → Option Class) :
    a.constraints.related n x y = true ∧ (Demand.agree n x y loaded).outcome a = .ok false ∧
      (Demand.agree n x y loaded).after a = a ∨
    a.constraints.related n x y = false ∧
      (a.Differ n loaded x y ∧
        (Demand.agree n x y loaded).outcome a = .error (.loadersDisagree x y n) ∧
        (Demand.agree n x y loaded).after a = a ∨
      ¬ a.Differ n loaded x y ∧ (Demand.agree n x y loaded).outcome a = .ok true ∧
        ∃ bound, ((Demand.agree n x y loaded).after a).constraints =
            a.constraints.join n x y bound ∧
          ∀ z c, z = x ∨ z = y → a.constraints.bound? n z = some c →
            ∃ d, bound = some d ∧ d.same c = true) := by
  simp only [Demand.outcome, Demand.after, finalState, perform_agree]
  cases hrelated : a.constraints.related n x y with
  | true => exact .inl (by simp [Constraints.add, hrelated])
  | false =>
    refine .inr ⟨rfl, ?_⟩
    by_cases hdiffer : a.Differ n loaded x y
    · exact .inl ⟨hdiffer, by simp [add_of_differ hrelated hdiffer]⟩
    · obtain ⟨t, hadd⟩ := exists_add hrelated hdiffer
      rcases add_eq_ok hadd with ⟨hrelated', -⟩ | ⟨-, bound, rfl, hbound⟩
      · exact absurd (hrelated.symm.trans hrelated') (by decide)
      · refine .inr ⟨hdiffer, by rw [hadd], bound, by rw [hadd], fun z c hz hc => ?_⟩
        exact hbound z c hz (by rw [hc]; rfl)

lemma perform_allow (a : Area) (l : LoaderId) (c : Class) (published : Except Fault Unit) :
    (Demand.allow l c published).perform a =
      match a.constraints.accept l c, published with
      | .error e, _ => .error e a
      | .ok _, .error e => .error e a
      | .ok t, .ok _ => .ok false { a with constraints := t } := by
  simp only [Demand.perform, checkLoaded, bind_assoc, bind_of_ok (get_apply a)]
  cases a.constraints.accept l c with
  | error e => rfl
  | ok t => cases published <;> rfl

/-- Letting a loader have a class fails and changes nothing, or binds the group of the loader. -/
lemma allow_cases (a : Area) (l : LoaderId) (c : Class) (published : Except Fault Unit) :
    (∃ e, (Demand.allow l c published).outcome a = .error e) ∧
      (Demand.allow l c published).after a = a ∨
    (Demand.allow l c published).outcome a = .ok false ∧
      ((Demand.allow l c published).after a).constraints = a.constraints.bind l c := by
  simp only [Demand.outcome, Demand.after, finalState, perform_allow]
  cases haccept : a.constraints.accept l c with
  | error e => exact .inl ⟨⟨e, rfl⟩, rfl⟩
  | ok t =>
    obtain ⟨rfl, -⟩ := accept_eq_ok haccept
    cases published with
    | error e => exact .inl ⟨⟨e, rfl⟩, rfl⟩
    | ok u => exact .inr ⟨rfl, rfl⟩

lemma Demand.move (d : Demand) (a : Area) : Move a.constraints (d.after a).constraints := by
  cases d with
  | agree n x y loaded =>
    rcases agree_cases a n x y loaded with ⟨-, -, hafter⟩ | ⟨hnew, ⟨-, -, hafter⟩ |
      ⟨-, -, bound, hafter, hbound⟩⟩
    · rw [hafter]
      exact .stay
    · rw [hafter]
      exact .stay
    · rw [hafter]
      exact .join hnew hbound
  | allow l c published =>
    rcases allow_cases a l c published with ⟨-, hafter⟩ | ⟨-, hafter⟩
    · rw [hafter]
      exact .stay
    · rw [hafter]
      exact .bind l c

/-- A call that fails leaves the constraints as they are. -/
lemma Demand.after_of_error {d : Demand} {e : Fault} (h : d.outcome a = .error e) :
    (d.after a).constraints = a.constraints := by
  cases d with
  | agree n x y loaded =>
    rcases agree_cases a n x y loaded with ⟨-, -, hafter⟩ | ⟨-, ⟨-, -, hafter⟩ | ⟨-, hok, -⟩⟩
    · rw [hafter]
    · rw [hafter]
    · rw [hok] at h
      cases h
  | allow l c published =>
    rcases allow_cases a l c published with ⟨-, hafter⟩ | ⟨hok, -⟩
    · rw [hafter]
    · rw [hok] at h
      cases h

/-! ### Runs -/

variable {log : Log}

lemma Serves.partitioned (h : Serves a log b) (ha : a.constraints.Partitioned) :
    b.constraints.Partitioned := by
  induction h with
  | start => exact ha
  | call _ d ih => exact ih.move (d.move _)
  | other _ hc ih => rwa [hc]

/-- A group only grows, and what it is bound to stays. -/
lemma Serves.exists_group (h : Serves a log b) (ha : a.constraints.Partitioned) {g : LoaderGroup}
    (hg : g ∈ a.constraints.groupsOf n) :
    ∃ g' ∈ b.constraints.groupsOf n, g.loaders ⊆ g'.loaders ∧
      ∀ c, g.bound = some c → ∃ d, g'.bound = some d ∧ d.same c = true := by
  induction h with
  | start => exact ⟨g, hg, fun _ hl => hl, fun c hc => ⟨c, hc, c.same_self⟩⟩
  | call h d ih =>
    obtain ⟨g₁, hg₁, hsub₁, hbound₁⟩ := ih
    obtain ⟨g₂, hg₂, hsub₂, hbound₂⟩ := (h.partitioned ha).exists_of_move (d.move _) hg₁
    refine ⟨g₂, hg₂, fun l hl => hsub₂ (hsub₁ hl), fun c hc => ?_⟩
    obtain ⟨c₁, hc₁, hsame₁⟩ := hbound₁ c hc
    obtain ⟨c₂, hc₂, hsame₂⟩ := hbound₂ c₁ hc₁
    rw [Class.same_iff] at hsame₁ hsame₂
    exact ⟨c₂, hc₂, Class.same_iff.2 (hsame₂.trans hsame₁)⟩
  | other _ hc ih => rwa [hc]

lemma Log.Accepted.cons {e : Demand × Except Fault Bool} (h : log.Accepted n x y) :
    Log.Accepted (e :: log) n x y := by
  obtain ⟨loaded, changed, hmem⟩ := h
  exact ⟨loaded, changed, List.mem_cons_of_mem _ hmem⟩

/-- Two loaders that were made to agree have to agree ever after. -/
lemma Serves.mem_of_accepted (h : Serves a log b) (ha : a.constraints.Partitioned)
    (hxy : log.Accepted n x y) : y ∈ b.constraints.loadersOf n x := by
  induction h with
  | start =>
    obtain ⟨_, _, hmem⟩ := hxy
    cases hmem
  | @call log b h d ih =>
    have hb := h.partitioned ha
    obtain ⟨loaded, changed, hmem⟩ := hxy
    rcases List.mem_cons.1 hmem with heq | hmem
    · obtain ⟨rfl, hok⟩ := Prod.mk.inj heq
      rcases agree_cases b n x y loaded with ⟨hrelated, -, hafter⟩ | ⟨hnew, ⟨-, hfails, -⟩ |
        ⟨-, -, bound, hafter, -⟩⟩
      · rw [hafter]
        exact hb.related_iff.1 hrelated
      · rw [hfails] at hok
        cases hok
      · rw [hafter, (hb.join hnew bound).mem_loadersOf]
        exact .inr (together_join (hb.disjoint n) hnew bound)
    · exact hb.mem_loadersOf_move (d.move b) (ih ⟨loaded, changed, hmem⟩)
  | other _ hc ih =>
    rw [hc]
    exact ih hxy

/-- Loaders that have to agree are tied by demands that were accepted. -/
lemma Serves.eqvGen_of_mem (h : Serves a log b) (ha : a.constraints = {})
    (hxy : y ∈ b.constraints.loadersOf n x) : EqvGen (log.Accepted n) x y := by
  induction h generalizing x y with
  | start =>
    rw [ha] at hxy
    obtain rfl : y = x := List.mem_singleton.1 hxy
    exact .refl y
  | @call log b h d ih =>
    have hb := h.partitioned (ha ▸ partitioned_empty)
    have hold : ∀ u v, v ∈ b.constraints.loadersOf n u →
        EqvGen (Log.Accepted ((d, d.outcome b) :: log) n) u v := fun u v huv =>
      (ih huv).mono fun _ _ => Log.Accepted.cons
    cases d with
    | agree m u v loaded =>
      rcases agree_cases b m u v loaded with ⟨-, -, hafter⟩ | ⟨hnew, ⟨-, -, hafter⟩ |
        ⟨-, hok, bound, hafter, -⟩⟩
      · rw [hafter] at hxy
        exact hold x y hxy
      · rw [hafter] at hxy
        exact hold x y hxy
      · rw [hafter] at hxy
        by_cases hm : m = n
        · subst hm
          refine (EqvGen.is_equivalence _).eqvGen_iff.1
            ((hb.eqvGen_of_join hnew bound hxy).mono ?_)
          rintro p q (hpq | ⟨rfl, rfl⟩)
          · exact hold p q hpq
          · exact .rel p q ⟨loaded, true, by rw [hok]; exact List.mem_cons_self⟩
        · refine hold x y ?_
          rw [(hb.join hnew bound).mem_loadersOf, groupsOf_join, if_neg hm] at hxy
          exact hb.mem_loadersOf.2 hxy
    | allow l c published =>
      rcases allow_cases b l c published with ⟨-, hafter⟩ | ⟨-, hafter⟩
      · rw [hafter] at hxy
        exact hold x y hxy
      · rw [hafter, (hb.bind l c).mem_loadersOf] at hxy
        refine hold x y (hb.mem_loadersOf.2 (hxy.imp_right ?_))
        rintro ⟨g, hg, hx, hy⟩
        obtain ⟨k, g', hk, hloaders, -⟩ := exists_of_mem_bind hg
        rw [hloaders] at hx hy
        exact ⟨g', List.mem_of_getElem? hk, hx, hy⟩
  | other _ hc ih =>
    rw [hc] at hxy
    exact ih hxy

lemma Serves.mem_loadersOf (h : Serves a log b) (ha : a.constraints = {}) :
    y ∈ b.constraints.loadersOf n x ↔ EqvGen (log.Accepted n) x y := by
  have hstart : a.constraints.Partitioned := ha ▸ partitioned_empty
  refine ⟨h.eqvGen_of_mem ha, fun hxy => ?_⟩
  exact ((h.partitioned hstart).equivalence n).eqvGen_iff.1
    (hxy.mono fun _ _ => h.mem_of_accepted hstart)

/-- The groups are the equivalence classes with more than one member. -/
lemma Serves.classes_eq (h : Serves a log b) (ha : a.constraints = {}) :
    {p | p ∈ b.constraints.classes} = log.classes := by
  have hb : b.constraints.Partitioned := h.partitioned (ha ▸ partitioned_empty)
  ext ⟨n, ls⟩
  simp only [Set.mem_ofPred_eq, hb.mem_classes, Log.classes, ← h.mem_loadersOf ha]
  have hclass : ∀ g x, b.constraints.group? n x = some g →
      {y | y ∈ b.constraints.loadersOf n x} = {l | l ∈ g.loaders} := fun g x hg => by
    simp [loadersOf, hg]
  constructor
  · rintro ⟨g, hg, rfl⟩
    obtain ⟨x, y, ls, hls⟩ : ∃ x y ls, g.loaders = x :: y :: ls := by
      have hlength := hb.several n g hg
      match hls : g.loaders with
      | [] => simp [hls] at hlength
      | [x] => simp [hls] at hlength
      | x :: y :: ls => exact ⟨x, y, ls, rfl⟩
    have hne : x ≠ y := by
      have hnodup := hb.nodup n g hg
      rw [hls] at hnodup
      exact fun hxy => (List.nodup_cons.1 hnodup).1 (hxy ▸ List.mem_cons_self)
    refine ⟨x, (hclass g x (hb.group?_eq hg (by simp [hls]))).symm, x, ?_, y, ?_, hne⟩
    · simp [hls]
    · simp [hls]
  · rintro ⟨x, rfl, hseveral⟩
    cases hgroup : b.constraints.group? n x with
    | none => simp [loadersOf, hgroup] at hseveral
    | some g => exact ⟨g, List.mem_of_find?_eq_some hgroup, hclass g x hgroup⟩

/-- From an area without constraints, whatever calls are made: two loaders have to agree on a name
exactly if accepted demands tie them together; the groups are disjoint, list no loader twice and
are as many as there are classes with several loaders; the next demand changes nothing if the two
loaders are tied already, fails if different classes are known for them, and is accepted otherwise;
a group that is bound keeps its class whatever is joined to it; and a call that fails leaves the
constraints as they are. -/
theorem loaders_partitioned (ha : a.constraints = {}) (h : Serves a log b) :
    (∀ n x y, y ∈ b.constraints.loadersOf n x ↔ EqvGen (log.Accepted n) x y) ∧
    (∀ n, (b.constraints.groupsOf n).Pairwise (fun g k => ∀ l ∈ g.loaders, l ∉ k.loaders) ∧
      ∀ g ∈ b.constraints.groupsOf n, g.loaders.Nodup ∧ 2 ≤ g.loaders.length) ∧
    b.constraints.size = log.classes.ncard ∧
    (∀ n x y loaded,
      ((Demand.agree n x y loaded).outcome b = .ok false ↔ EqvGen (log.Accepted n) x y) ∧
      (¬ EqvGen (log.Accepted n) x y →
        (b.Differ n loaded x y →
          (Demand.agree n x y loaded).outcome b = .error (.loadersDisagree x y n)) ∧
        (¬ b.Differ n loaded x y → (Demand.agree n x y loaded).outcome b = .ok true))) ∧
    (∀ n, ∀ g ∈ b.constraints.groupsOf n, ∀ c, g.bound = some c → ∀ log' b', Serves b log' b' →
      ∃ g' ∈ b'.constraints.groupsOf n, g.loaders ⊆ g'.loaders ∧
        ∃ d, g'.bound = some d ∧ d.same c = true) ∧
    ∀ d e, Demand.outcome d b = .error e → (d.after b).constraints = b.constraints := by
  have hb : b.constraints.Partitioned := h.partitioned (ha ▸ partitioned_empty)
  refine ⟨fun n x y => h.mem_loadersOf ha,
    fun n => ⟨hb.disjoint n, fun g hg => ⟨hb.nodup n g hg, hb.several n g hg⟩⟩, ?_,
    fun n x y loaded => ?_, fun n g hg c hc log' b' h' => ?_, fun d e => Demand.after_of_error⟩
  · rw [← h.classes_eq ha, hb.ncard_classes]
  · rw [← h.mem_loadersOf ha, ← hb.related_iff]
    rcases agree_cases b n x y loaded with ⟨hrelated, hok, -⟩ | ⟨hnew, ⟨hdiffer, hfails, -⟩ |
      ⟨hsame, hok, -⟩⟩
    · simp [hrelated, hok]
    · simp [hnew, hfails, hdiffer]
    · simp [hnew, hok, hsame]
  · obtain ⟨g', hg', hsub, hbound⟩ := h'.exists_group hb hg
    exact ⟨g', hg', hsub, hbound c hc⟩

/-- A class of loader 1. -/
def sharedClass : Class :=
  .root
    { id := ⟨100⟩, name := "p/T", loader := ⟨1⟩, flags := 1, instanceSize := 8, vtableLength := 0 }

/-- Loaders 1 and 2 have to agree, loader 1 gets the class, and loader 3 joins the two. -/
def joiningThree : List Demand :=
  [.agree "p/T" ⟨3⟩ ⟨2⟩ fun _ => none, .allow ⟨1⟩ sharedClass (.ok ()),
    .agree "p/T" ⟨1⟩ ⟨2⟩ fun _ => none]

theorem three_loaders_partitioned :
    initial.constraints = {} ∧
    Serves initial (initial.serve joiningThree).1 (initial.serve joiningThree).2 ∧
    EqvGen ((initial.serve joiningThree).1.Accepted "p/T") ⟨1⟩ ⟨3⟩ ∧
    (initial.serve joiningThree).1.classes.ncard = 1 ∧
    ∀ log b, Serves (initial.serve joiningThree).2 log b →
      ∃ g ∈ b.constraints.groupsOf "p/T", ⟨3⟩ ∈ g.loaders ∧
        ∃ d, g.bound = some d ∧ d.same sharedClass = true := by
  have hserves := serves_serve initial joiningThree
  obtain ⟨hclosure, -, hsize, -, hbound, -⟩ := loaders_partitioned rfl hserves
  have hgroups : (initial.serve joiningThree).2.constraints.groupsOf "p/T" =
      [⟨[⟨1⟩, ⟨2⟩, ⟨3⟩], some sharedClass⟩] := rfl
  refine ⟨rfl, hserves, (hclosure _ _ _).1 (by decide +kernel),
    hsize.symm.trans (by decide +kernel), fun log b h => ?_⟩
  obtain ⟨g, hg, hsub, d, hd⟩ :=
    hbound "p/T" _ (hgroups ▸ List.mem_singleton_self _) sharedClass rfl log b h
  exact ⟨g, hg, hsub (by decide), d, hd⟩

end Area

end Linkage
