import Linkage.Proofs.Area.Steps
import Mathlib.Data.List.Nodup

/-!
# Delegation

The loader that is to define a class is the last one along the parents that knows the class. Parents
may form circles, and then each loader of a circle sees the others in an order of its own. Still the
loaders that lie behind the last one that knows a class are sent back to it: whom they ask for the
class is that loader, or nobody.
-/

namespace Linkage

open Relation

namespace Area

/-! ### Walks along the parents -/

section

variable {p : LoaderId → Option LoaderId} {seen pre mid rest : List LoaderId} {l x y z : LoaderId}

/-- The loaders from one on along the parents, up to one without a parent or one that was seen. -/
inductive Walk (p : LoaderId → Option LoaderId) :
    List LoaderId → LoaderId → List LoaderId → Prop where
  | stop {seen : List LoaderId} {l : LoaderId} (hl : l ∈ seen) : Walk p seen l []
  | last {seen : List LoaderId} {l : LoaderId} (hl : l ∉ seen) (hp : p l = none) :
      Walk p seen l [l]
  | next {seen rest : List LoaderId} {l q : LoaderId} (hl : l ∉ seen) (hp : p l = some q)
      (hrest : Walk p (seen ++ [l]) q rest) : Walk p seen l (l :: rest)

lemma Walk.unique {rest' : List LoaderId} (h : Walk p seen l rest) (h' : Walk p seen l rest') :
    rest = rest' := by
  induction h generalizing rest' with
  | stop hl =>
    cases h' with
    | stop => rfl
    | last hl' => exact absurd hl hl'
    | next hl' => exact absurd hl hl'
  | last hl hp =>
    cases h' with
    | stop hl' => exact absurd hl' hl
    | last => rfl
    | next _ hp' =>
      rw [hp] at hp'
      cases hp'
  | next hl hp hrest ih =>
    cases h' with
    | stop hl' => exact absurd hl' hl
    | last _ hp' =>
      rw [hp] at hp'
      cases hp'
    | next _ hp' hrest' =>
      rw [hp] at hp'
      cases hp'
      rw [ih hrest']

/-- Each loader of a list is followed by its parent, the last one by a given loader. -/
def Leads (p : LoaderId → Option LoaderId) : List LoaderId → LoaderId → Prop
  | [], _ => True
  | x :: xs, y => p x = some (xs.headD y) ∧ Leads p xs y

lemma Leads.of_append (h : Leads p (pre ++ rest) y) : Leads p rest y := by
  induction pre with
  | nil => exact h
  | cons x pre ih => exact ih h.2

lemma Walk.head_eq (h : Walk p seen l (x :: rest)) : x = l := by
  cases h <;> rfl

/-- A walk can be taken up at each of its loaders. -/
lemma Walk.split {chain post : List LoaderId} (h : Walk p seen x chain)
    (hchain : chain = pre ++ y :: post) :
    Walk p (seen ++ pre) y (y :: post) ∧ Leads p pre y ∧ pre.Nodup ∧ ∀ z ∈ pre, z ∉ seen := by
  induction h generalizing pre with
  | stop => simp at hchain
  | last hl hp =>
    cases pre with
    | nil =>
      cases hchain
      exact ⟨by simpa using Walk.last hl hp, trivial, List.nodup_nil, by simp⟩
    | cons w pre => simp at hchain
  | next hl hp hrest ih =>
    cases pre with
    | nil =>
      cases hchain
      exact ⟨by simpa using Walk.next hl hp hrest, trivial, List.nodup_nil, by simp⟩
    | cons w pre =>
      obtain ⟨rfl, hrestEq⟩ := List.cons.inj hchain
      obtain ⟨hwalk, hleads, hnodup, hfresh⟩ := ih hrestEq
      subst hrestEq
      refine ⟨by simpa using hwalk, ⟨?_, hleads⟩, List.nodup_cons.2 ⟨fun hmem => ?_, hnodup⟩, ?_⟩
      · rw [hp]
        cases pre with
        | nil => rw [hrest.head_eq]; rfl
        | cons v pre => rw [← hrest.head_eq]; rfl
      · exact hfresh _ hmem (by simp)
      · intro z hz hseen
        rcases List.mem_cons.1 hz with rfl | hz
        · exact hl hseen
        · exact hfresh z hz (List.mem_append_left _ hseen)

/-- A walk along loaders that lead to one that was seen. -/
lemma Leads.walk (h : Leads p rest y) (hy : y ∈ seen) (hnodup : rest.Nodup)
    (hfresh : ∀ z ∈ rest, z ∉ seen) : Walk p seen (rest.headD y) rest := by
  induction rest generalizing seen with
  | nil => exact .stop hy
  | cons x rest ih =>
    refine .next (hfresh x List.mem_cons_self) h.1 (ih h.2 (List.mem_append_left _ hy)
      (List.nodup_cons.1 hnodup).2 fun z hz hmem => ?_)
    rcases List.mem_append.1 hmem with hmem | hmem
    · exact hfresh z (List.mem_cons_of_mem _ hz) hmem
    · rw [List.mem_singleton.1 hmem] at hz
      exact (List.nodup_cons.1 hnodup).1 hz

/-- Without a part of what was seen, a walk goes on with the end of that part. -/
lemma Walk.goOn (h : Walk p (pre ++ mid) l rest) (hleads : Leads p pre y) (hy : y ∈ mid)
    (hnodup : pre.Nodup) (hfresh : ∀ z ∈ pre, z ∉ mid) :
    ∃ t, t <:+ pre ∧ Walk p mid l (rest ++ t) := by
  generalize hseen : pre ++ mid = seen at h
  induction h generalizing mid with
  | @stop seen w hw =>
    subst hseen
    by_cases hmid : w ∈ mid
    · exact ⟨[], List.nil_suffix, .stop hmid⟩
    · have hpre : w ∈ pre := (List.mem_append.1 hw).resolve_right hmid
      obtain ⟨before, behind, rfl⟩ := List.append_of_mem hpre
      refine ⟨w :: behind, List.suffix_append _ _, ?_⟩
      exact hleads.of_append.walk hy (List.nodup_append.1 hnodup).2.1
        fun z hz => hfresh z (List.mem_append_right _ hz)
  | @last seen w hw hp =>
    subst hseen
    exact ⟨[], List.nil_suffix, .last (fun hmem => hw (List.mem_append_right _ hmem)) hp⟩
  | @next seen rest w q hw hp hrest ih =>
    subst hseen
    obtain ⟨t, ht, hwalk⟩ := ih (List.mem_append_left [w] hy) (by
      intro z hz hmem
      rcases List.mem_append.1 hmem with hmem | hmem
      · exact hfresh z hz hmem
      · rw [List.mem_singleton.1 hmem] at hz
        exact hw (List.mem_append_left _ hz)) (List.append_assoc _ _ _).symm
    exact ⟨t, ht, .next (fun hmem => hw (List.mem_append_right _ hmem)) hp hwalk⟩

/-- A loader on the way of another walks on to where the way ends, and from there it may come back
to loaders that the other saw before it. -/
lemma Walk.from_later {chain post : List LoaderId} (h : Walk p [] x chain)
    (hchain : chain = pre ++ y :: post) : ∃ t, t <:+ pre ∧ Walk p [] y (y :: post ++ t) := by
  obtain ⟨hwalk, hleads, hnodup, -⟩ := h.split hchain
  rw [List.nil_append] at hwalk
  cases hwalk with
  | last hy hp => exact ⟨[], List.nil_suffix, .last (by simp) hp⟩
  | next hy hp hrest =>
    obtain ⟨t, ht, hwalk⟩ := hrest.goOn hleads (List.mem_singleton_self y) hnodup (by
      intro z hz hmem
      rw [List.mem_singleton.1 hmem] at hz
      exact hy hz)
    exact ⟨t, ht, .next (by simp) hp hwalk⟩

/-- Loaders behind the last one that knows a class are sent to that loader, or to nobody. -/
lemma Walk.find?_later {chain chain' behind before : List LoaderId} {know : LoaderId → Bool}
    (h : Walk p [] x chain) (hchain : chain = before ++ z :: behind) (hz : know z = true)
    (hbehind : ∀ w ∈ behind, know w = false) (hy : y ∈ behind) (h' : Walk p [] y chain') :
    chain'.reverse.find? know = some z ∨ chain'.reverse.find? know = none := by
  obtain ⟨between, post, rfl⟩ := List.append_of_mem hy
  obtain ⟨t, ht, hwalk⟩ := h.from_later
    (show chain = (before ++ z :: between) ++ y :: post by simp [hchain])
  obtain rfl := h'.unique hwalk
  have hrest : ((y :: post).reverse.find? know) = none := by
    rw [List.find?_eq_none]
    intro w hw
    rw [List.mem_reverse] at hw
    simp [hbehind w (List.mem_append_right _ hw)]
  have hbetween : ∀ w ∈ between, know w = false := fun w hw =>
    hbehind w (List.mem_append_left _ hw)
  rw [List.reverse_append, List.find?_append, hrest, Option.or_none]
  have hnone : ∀ t, t <:+ between → t.reverse.find? know = none := by
    intro t ht
    rw [List.find?_eq_none]
    intro w hw
    rw [List.mem_reverse] at hw
    simp [hbetween w (ht.subset hw)]
  have hsome : ∀ s, (s ++ z :: between).reverse.find? know = some z := by
    intro s
    rw [List.reverse_append, List.reverse_cons, List.append_assoc, List.find?_append,
      hnone between List.suffix_rfl]
    simp [hz]
  -- The walk comes back to the loader that knows the class, or not even that far.
  have hback := List.suffix_append before (z :: between)
  rcases List.suffix_or_suffix_of_suffix ht hback with hsuf | hsuf
  · rcases List.suffix_cons_iff.1 hsuf with rfl | hsuf
    · exact .inl (hsome [])
    · exact .inr (hnone t hsuf)
  · obtain ⟨s, rfl⟩ := hsuf
    exact .inl (hsome s)

end

/-! ### The loaders of an area -/

variable {a b : Area}

/-- The parent of a loader. -/
def parent? (a : Area) (l : LoaderId) : Option LoaderId := (a.loaders.get? l).bind LoaderData.parent

/-- Loaders that are all there are not more than there are. -/
lemma Sound.length_le (h : a.Sound) {ls : List LoaderId} (hnodup : ls.Nodup)
    (hthere : ∀ l ∈ ls, (a.loaders.get? l).isSome = true) : ls.length ≤ a.loaders.size := by
  have hinj : Function.Injective LoaderId.number := by
    rintro ⟨x⟩ ⟨y⟩ rfl
    rfl
  have hsub : ls.map LoaderId.number ⊆ List.range a.loaders.size := by
    intro n hn
    obtain ⟨l, hl, rfl⟩ := List.mem_map.1 hn
    exact List.mem_range.2 ((h.numbered l).1 (hthere l hl))
  have hle := (List.subperm_of_subset (hnodup.map hinj) hsub).length_le
  simpa using hle

/-- The steps that are allowed for are enough to walk as far as the parents go. -/
lemma Sound.delegates_walk (h : a.Sound) {n : Nat} {seen : List LoaderId} (hnodup : seen.Nodup)
    (hthere : ∀ l ∈ seen, (a.loaders.get? l).isSome = true)
    (hn : a.loaders.size < n + seen.length) (l : LoaderId) :
    ∃ rest, a.delegates seen l n = seen ++ rest ∧ Walk a.parent? seen l rest := by
  induction n generalizing seen l with
  | zero =>
    have hle := h.length_le hnodup hthere
    omega
  | succ n ih =>
    unfold delegates
    by_cases hl : l ∈ seen
    · exact ⟨[], by simp [hl], .stop hl⟩
    · rw [if_neg hl]
      cases hp : (a.loaders.get? l).bind LoaderData.parent with
      | none => exact ⟨[l], rfl, .last hl hp⟩
      | some q =>
        have hnodup' : (seen ++ [l]).Nodup := by
          simpa [List.nodup_append] using ⟨hnodup, fun x hx heq => hl (heq ▸ hx)⟩
        have hthere' : ∀ x ∈ seen ++ [l], (a.loaders.get? x).isSome = true := by
          intro x hx
          rcases List.mem_append.1 hx with hx | hx
          · exact hthere x hx
          · obtain ⟨data, hdata, -⟩ := Option.bind_eq_some_iff.1 hp
            rw [List.mem_singleton.1 hx, hdata]
            rfl
        obtain ⟨rest, hrest, hwalk⟩ := ih hnodup' hthere' (by simp; omega) q
        exact ⟨l :: rest, by simp [hrest], .next hl hp hwalk⟩

/-- What loading leaves alone and what it adds to: loaders keep their parents and their definitions,
and they keep the classes they have. -/
structure Grown (a b : Area) : Prop where
  size : b.loaders.size = a.loaders.size
  shape : ∀ l, (b.loaders.get? l).map (fun d => (d.parent, d.childFirst, d.definitions)) =
    (a.loaders.get? l).map fun d => (d.parent, d.childFirst, d.definitions)
  kept : ∀ l n c, a.published? l n = some c → b.published? l n = some c

lemma Grown.refl (a : Area) : Grown a a := ⟨rfl, fun _ => rfl, fun _ _ _ h => h⟩

lemma Grown.trans {c : Area} (h : Grown a b) (h' : Grown b c) : Grown a c :=
  ⟨h'.size.trans h.size, fun l => (h'.shape l).trans (h.shape l),
    fun l n d hd => h'.kept l n d (h.kept l n d hd)⟩

lemma grown_withClass (a : Area) (l : LoaderId) (c : Class) : Grown a (a.withClass l c) := by
  refine ⟨Table.size_modify .., fun l' => ?_, fun l' n d hd => ?_⟩
  · rw [get?_withClass]
    split
    · cases a.loaders.get? l' <;> rfl
    · rfl
  · rw [published?_withClass, hd]
    split <;> rfl

lemma LoadStep.grown (h : LoadStep a b) : Grown a b := by
  cases h with
  | array h =>
    cases h with
    | identity => exact ⟨rfl, fun _ => rfl, fun _ _ _ h => h⟩
    | array d s is component => exact grown_withClass a _ _
  | record =>
    obtain ⟨hsize, hshape, hkept⟩ := grown_withClass a _ _
    exact ⟨hsize, hshape, hkept⟩
  | _ => exact ⟨rfl, fun _ => rfl, fun _ _ _ h => h⟩

lemma Grown.of_steps (h : ReflTransGen LoadStep a b) : Grown a b := by
  induction h with
  | refl => exact .refl a
  | tail _ hstep ih => exact ih.trans hstep.grown

lemma Grown.parent?_eq (h : Grown a b) : b.parent? = a.parent? := by
  funext l
  have hshape := h.shape l
  unfold parent?
  cases ha : a.loaders.get? l <;> cases hb : b.loaders.get? l <;> simp_all

lemma Grown.childFirst_eq (h : Grown a b) (l : LoaderId) :
    ((b.loaders.get? l).map LoaderData.childFirst).getD false =
      ((a.loaders.get? l).map LoaderData.childFirst).getD false := by
  have hshape := h.shape l
  cases ha : a.loaders.get? l <;> cases hb : b.loaders.get? l <;> simp_all

lemma Grown.delegates_eq (h : Grown a b) (seen : List LoaderId) (l : LoaderId) (n : Nat) :
    b.delegates seen l n = a.delegates seen l n := by
  induction n generalizing seen l with
  | zero => rfl
  | succ n ih =>
    have hparent : (b.loaders.get? l).bind LoaderData.parent =
        (a.loaders.get? l).bind LoaderData.parent := congrFun h.parent?_eq l
    simp only [delegates, hparent, ih]

lemma knows_eq (a : Area) (name : String) (l : LoaderId) :
    a.knows name l = (((a.loaders.get? l).bind fun d => d.definitions.get? name).isSome ||
      (a.published? l name).isSome) := by
  unfold knows published?
  cases a.loaders.get? l <;> rfl

lemma Grown.definition_eq (h : Grown a b) (l : LoaderId) (name : String) :
    ((b.loaders.get? l).bind fun d => d.definitions.get? name) =
      (a.loaders.get? l).bind fun d => d.definitions.get? name := by
  have hshape := h.shape l
  cases ha : a.loaders.get? l <;> cases hb : b.loaders.get? l <;> simp_all

/-- Loaders know what they knew. -/
lemma Grown.knows (h : Grown a b) {l : LoaderId} {name : String} (hl : a.knows name l = true) :
    b.knows name l = true := by
  rw [knows_eq, Bool.or_eq_true] at hl ⊢
  rcases hl with hl | hl
  · exact .inl (by rw [h.definition_eq]; exact hl)
  · obtain ⟨c, hc⟩ := Option.isSome_iff_exists.1 hl
    exact .inr (by rw [h.kept l name c hc]; rfl)

/-- What a loader knows of a name depends on what it has under that name. -/
lemma Grown.knows_eq_of_published (h : Grown a b) {l : LoaderId} {name : String}
    (hl : b.published? l name = a.published? l name) : b.knows name l = a.knows name l := by
  rw [knows_eq, knows_eq, h.definition_eq, hl]

/-! ### The loader that defines a class -/

/-- Whether a loader prefers its own definition of a class. -/
def Prefers (a : Area) (name : String) (l : LoaderId) : Prop :=
  ((a.loaders.get? l).map LoaderData.childFirst).getD false = true ∧ a.knows name l = true

/-- The loaders that a loader delegates to, itself first. -/
def chain (a : Area) (l : LoaderId) : List LoaderId := a.delegates [] l (a.loaders.size + 1)

lemma definer?_of_prefers {l : LoaderId} {name : String} (h : a.Prefers name l) :
    a.definer? l name = some l := by
  simp [definer?, h.1, h.2]

lemma definer?_of_not_prefers {l : LoaderId} {name : String} (h : ¬ a.Prefers name l) :
    a.definer? l name = (a.chain l).reverse.find? (a.knows name) := by
  unfold definer?
  rw [if_neg (by simpa [Prefers] using h)]
  rfl

/-- The loader that is to define a class knows it. -/
lemma knows_of_definer? {l d : LoaderId} {name : String} (h : a.definer? l name = some d) :
    a.knows name d = true := by
  by_cases hl : a.Prefers name l
  · rw [definer?_of_prefers hl] at h
    cases h
    exact hl.2
  · rw [definer?_of_not_prefers hl] at h
    exact List.find?_some h

lemma Sound.chain_walk (h : a.Sound) (l : LoaderId) : Walk a.parent? [] l (a.chain l) := by
  obtain ⟨rest, hrest, hwalk⟩ := h.delegates_walk (n := a.loaders.size + 1)
    List.nodup_nil (by simp) (by simp) l
  rw [chain, hrest]
  exact hwalk

lemma Grown.chain_eq (h : Grown a b) (l : LoaderId) : b.chain l = a.chain l := by
  rw [chain, chain, h.size, h.delegates_eq]

/-- Who defines a class depends only on who knows it. -/
lemma Grown.definer?_eq (h : Grown a b) {name : String}
    (hknows : ∀ l, b.knows name l = a.knows name l) (l : LoaderId) :
    b.definer? l name = a.definer? l name := by
  have hfun : b.knows name = a.knows name := funext hknows
  unfold definer?
  rw [h.childFirst_eq, hfun, h.size, h.delegates_eq]

/-- A loader that got a class from another does not change who defines it for a third one, unless
that was the one it got the class from. -/
lemma definer?_of_got {c : Area} {x y z w : LoaderId} {name : String} (ha : a.Sound)
    (hab : Grown a b) (hbc : Grown b c) (hx : a.definer? x name = some z)
    (hxb : b.definer? x name = some z) (hy : a.definer? y name = some w) (hwz : w ≠ z)
    (hxy : x ≠ y) (hknows : ∀ l, l ≠ y → c.knows name l = b.knows name l) :
    c.definer? x name = some z := by
  by_cases hprefers : b.Prefers name x
  · rw [definer?_of_prefers hprefers] at hxb
    cases hxb
    refine definer?_of_prefers ⟨?_, hbc.knows hprefers.2⟩
    rw [hbc.childFirst_eq]
    exact hprefers.1
  · have hprefersC : ¬ c.Prefers name x := by
      unfold Prefers
      rw [hbc.childFirst_eq, hknows x hxy]
      exact hprefers
    rw [definer?_of_not_prefers hprefers, List.find?_eq_some_iff_append] at hxb
    obtain ⟨hz, behind, before, hchain, hbehind⟩ := hxb
    rw [definer?_of_not_prefers hprefersC, hbc.chain_eq, hchain]
    have hunknown : ∀ v ∈ behind, b.knows name v = false := fun v hv => by simpa using hbehind v hv
    by_cases hyb : y ∈ behind
    · -- The loader lies behind the one that knows the class, so that is where it got it from.
      have hless : ∀ v, b.knows name v = false → a.knows name v = false := by
        intro v hv
        cases hav : a.knows name v with
        | false => rfl
        | true => rw [← hv, hab.knows hav]
      have hpy : ¬ a.Prefers name y := fun h => by
        have hknown := h.2
        rw [hless y (hunknown y hyb)] at hknown
        cases hknown
      rw [definer?_of_not_prefers hpy] at hy
      have hwalk := ha.chain_walk x
      rw [← hab.chain_eq] at hwalk
      have hsplit : b.chain x = before.reverse ++ z :: behind.reverse := by
        rw [← List.reverse_reverse (b.chain x), hchain]
        simp
      have hfind := hwalk.find?_later hsplit (knows_of_definer? hx)
        (fun v hv => hless v (hunknown v (List.mem_reverse.1 hv))) (List.mem_reverse.2 hyb)
        (ha.chain_walk y)
      rw [hy] at hfind
      rcases hfind with hfind | hfind <;> cases hfind
      exact (hwz rfl).elim
    · have hnone : behind.find? (c.knows name) = none := by
        rw [List.find?_eq_none]
        intro v hv
        rw [hknows v (fun heq => hyb (heq ▸ hv)), hunknown v hv]
        simp
      rw [List.find?_append, hnone]
      simp [hbc.knows hz]

end Area

end Linkage
