import Linkage.Proofs.Machine.Failing

/-!
# What initializers cannot see

The resolver counts the questions it is asked and keeps its reports, but nothing that it or the
machine does depends on them. Nothing depends on the notes of programs either, and a site whose
patcher is at work is treated like one that waits for its first trap. Only a program can tell the
two apart, by asking for the state of the site or for its method. Where no program does that,
machines that differ in no more give the same answers and fail with the same faults, whatever
initializers run on the way.
-/

namespace Linkage

section

variable {ε σ α β γ δ : Type} {alike : σ → σ → Prop} {R : α → β → Prop} {S : γ → δ → Prop}

/-- The same fault, or two answers in a relation, in states that are alike. -/
inductive Matches (alike : σ → σ → Prop) (R : α → β → Prop) :
    EStateM.Result ε σ α → EStateM.Result ε σ β → Prop
  | ok {v : α} {w : β} {s t : σ} (answer : R v w) (state : alike s t) :
      Matches alike R (.ok v s) (.ok w t)
  | error (e : ε) {s t : σ} (state : alike s t) : Matches alike R (.error e s) (.error e t)

/-- From states that are alike, two operations end in matching outcomes. -/
def Relates (alike : σ → σ → Prop) (x : EStateM ε σ α) (R : α → β → Prop) (y : EStateM ε σ β) :
    Prop :=
  ∀ s t, alike s t → Matches alike R (x s) (y t)

lemma Matches.weaken {R' : α → β → Prop} (hR : ∀ v w, R v w → R' v w)
    {x : EStateM.Result ε σ α} {y : EStateM.Result ε σ β} (h : Matches alike R x y) :
    Matches alike R' x y := by
  cases h with
  | ok answer state => exact .ok (hR _ _ answer) state
  | error e state => exact .error e state

/-- Where answers do not differ, both operations come to the same. -/
lemma Matches.answer_eq {x y : EStateM.Result ε σ α} (h : Matches alike Eq x y) :
    answer x = answer y := by
  cases h with
  | ok heq _ => exact congrArg Except.ok heq
  | error e _ => rfl

lemma relates_pure {v : α} {w : β} (h : R v w) :
    Relates alike (pure v : EStateM ε σ α) R (pure w) := fun _ _ hst => .ok h hst

lemma relates_throw (e : ε) :
    Relates alike (throw e : EStateM ε σ α) R (throw e : EStateM ε σ β) :=
  fun _ _ hst => .error e hst

lemma relates_modify {f g : σ → σ} (h : ∀ s t, alike s t → alike (f s) (g t)) :
    Relates alike (modify f : EStateM ε σ PUnit) Eq (modify g) := fun s t hst => .ok rfl (h s t hst)

lemma relates_ofExcept (v : Except ε α) :
    Relates alike (ofExcept v : EStateM ε σ α) Eq (ofExcept v) := by
  cases v with
  | ok v => exact relates_pure rfl
  | error e => exact relates_throw e

lemma Relates.bind {x : EStateM ε σ α} {y : EStateM ε σ β} {f : α → EStateM ε σ γ}
    {g : β → EStateM ε σ δ} (hx : Relates alike x R y)
    (hf : ∀ v w, R v w → Relates alike (f v) S (g w)) : Relates alike (x >>= f) S (y >>= g) := by
  intro s t hst
  have hfirst := hx s t hst
  cases hs : x s with
  | ok v s' =>
    cases ht : y t with
    | ok w t' =>
      rw [hs, ht] at hfirst
      cases hfirst with
      | ok answer state =>
        rw [bind_of_ok hs, bind_of_ok ht]
        exact hf v w answer s' t' state
    | error e t' =>
      rw [hs, ht] at hfirst
      cases hfirst
  | error e s' =>
    cases ht : y t with
    | ok w t' =>
      rw [hs, ht] at hfirst
      cases hfirst
    | error e' t' =>
      rw [hs, ht] at hfirst
      cases hfirst with
      | error _ state =>
        rw [bind_of_error hs, bind_of_error ht]
        exact .error e state

/-- An operation goes on with an answer that does not differ. -/
lemma Relates.bind_eq {x : EStateM ε σ α} {f : α → EStateM ε σ γ} {g : α → EStateM ε σ δ}
    (hx : Relates alike x Eq x) (hf : ∀ v, Relates alike (f v) S (g v)) :
    Relates alike (x >>= f) S (x >>= g) :=
  hx.bind fun v _ heq => heq ▸ hf v

lemma Relates.recover {x : EStateM ε σ α} {f : ε → EStateM ε σ α} (hx : Relates alike x Eq x)
    (hf : ∀ e, Relates alike (f e) Eq (f e)) :
    Relates alike (tryCatch x f) Eq (tryCatch x f) := by
  intro s t hst
  have hfirst := hx s t hst
  cases hs : x s with
  | ok v s' =>
    cases ht : x t with
    | ok w t' =>
      rw [hs, ht] at hfirst
      rwa [tryCatch_of_ok hs, tryCatch_of_ok ht]
    | error e t' =>
      rw [hs, ht] at hfirst
      cases hfirst
  | error e s' =>
    cases ht : x t with
    | ok w t' =>
      rw [hs, ht] at hfirst
      cases hfirst
    | error e' t' =>
      rw [hs, ht] at hfirst
      cases hfirst with
      | error _ state =>
        rw [tryCatch_of_error hs, tryCatch_of_error ht]
        exact hf e s' t' state

/-- Operations that look at the state go on from where they are. -/
lemma relates_get_bind {f : σ → EStateM ε σ γ} {g : σ → EStateM ε σ δ}
    (hf : ∀ s t, alike s t → Relates alike (f s) S (g t)) :
    Relates alike (get >>= f) S (get >>= g) := by
  intro s t hst
  rw [bind_of_ok (get_apply s), bind_of_ok (get_apply t)]
  exact hf s t hst s t hst

end

namespace Resolver

variable {α : Type} {r r' : Resolver}

lemma Alike.refl (r : Resolver) : Alike r r := ⟨rfl, rfl⟩

lemma Alike.trans {r'' : Resolver} (h : Alike r r') (h' : Alike r' r'') : Alike r r'' :=
  ⟨h.area.trans h'.area, h.config.trans h'.config⟩

lemma Alike.symm (h : Alike r r') : Alike r' r := ⟨h.area.symm, h.config.symm⟩

lemma relates_onArea (x : AreaM α) : Relates Alike (onArea x) Eq (onArea x) := by
  rintro ⟨a, config, stats, reports⟩ ⟨_, _, stats', reports'⟩ ⟨rfl, rfl⟩
  unfold onArea
  cases x a with
  | ok v b => exact .ok rfl ⟨rfl, rfl⟩
  | error e b => exact .error e ⟨rfl, rfl⟩

/-- No resolution depends on what was counted and reported. -/
lemma Built.relates {x : ResolverM α} (hx : Built x) : Relates Alike x Eq x := by
  induction hx with
  | pure v => exact relates_pure rfl
  | throw e => exact relates_throw e
  | bind _ _ ihx ihf => exact ihx.bind_eq ihf
  | recover _ _ ihx ihf => exact ihx.recover ihf
  | look same _ ihf =>
    refine relates_get_bind fun r r' hr => ?_
    rw [same r r' hr]
    exact ihf r'
  | tally h => exact relates_modify fun r r' hr => ((h r).symm.trans hr).trans (h r')
  | @onArea _ x _ => exact relates_onArea x

end Resolver

/-! ### Sites at rest -/

/-- How far a site is bound when no patcher is at work on it. -/
def PatchState.atRest : PatchState → PatchState
  | patching => unpatched
  | s => s

namespace CompiledMethod

/-- The method as it is when no patcher is at work. -/
def atRest (c : CompiledMethod) : CompiledMethod :=
  { c with sites := c.sites.map fun s => { s with state := s.state.atRest } }

lemma siteIndex?_atRest (c : CompiledMethod) (address : Address) :
    c.atRest.siteIndex? address = c.siteIndex? address := by
  simp [siteIndex?, atRest, List.zipIdx_map, List.filter_map, Function.comp_def]

lemma getElem?_sites_atRest (c : CompiledMethod) (i : Nat) :
    c.atRest.sites[i]? = (c.sites[i]?).map fun s => { s with state := s.state.atRest } := by
  simp [atRest]

lemma state_site?_atRest (c : CompiledMethod) (address : Address) :
    (c.atRest.site? address).map PatchSite.state =
      ((c.site? address).map PatchSite.state).map PatchState.atRest := by
  simp [site?, siteIndex?_atRest, getElem?_sites_atRest, Option.map_bind, Function.comp_def]

lemma atRest_modify (c : CompiledMethod) (i : Nat) (st : PatchState) :
    atRest { c with sites := c.sites.modify i fun s => { s with state := st } } =
      { c.atRest with
        sites := c.atRest.sites.modify i fun s => { s with state := st.atRest } } := by
  have hsites : (c.sites.modify i fun s => { s with state := st }).map
      (fun s => ({ s with state := s.state.atRest } : PatchSite)) =
      c.atRest.sites.modify i fun s => { s with state := st.atRest } := by
    refine List.ext_getElem? fun j => ?_
    simp only [atRest, List.getElem?_map, List.getElem?_modify]
    cases c.sites[j]? with
    | none => rfl
    | some s => by_cases hij : i = j <;> simp [hij]
  unfold atRest
  rw [hsites]
  rfl

/-- A site changes between two states that are the same at rest. -/
lemma atRest_modify_of_site {c : CompiledMethod} {i : Nat} {s : PatchSite} {st : PatchState}
    (hs : c.sites[i]? = some s) (hst : st.atRest = s.state.atRest) :
    atRest { c with sites := c.sites.modify i fun s => { s with state := st } } = c.atRest := by
  have hsites : (c.sites.modify i fun s => { s with state := st }).map
      (fun s => ({ s with state := s.state.atRest } : PatchSite)) = c.atRest.sites := by
    refine List.ext_getElem? fun j => ?_
    simp only [atRest, List.getElem?_map, List.getElem?_modify]
    by_cases hij : i = j
    · subst hij
      simp [hs, hst]
    · simp [hij]
  unfold atRest
  rw [hsites]
  rfl

lemma entry_of_atRest_eq {c d : CompiledMethod} (h : c.atRest = d.atRest) :
    c.number = d.number ∧ c.entry = d.entry := by
  simp only [atRest, mk.injEq] at h
  exact ⟨h.1, h.2.2.2.1⟩

lemma siteIndex?_of_atRest_eq {c d : CompiledMethod} (h : c.atRest = d.atRest)
    (address : Address) : c.siteIndex? address = d.siteIndex? address := by
  rw [← c.siteIndex?_atRest, h, d.siteIndex?_atRest]

/-- Two methods, or none, that differ in which sites have their patchers at work. -/
lemma cases_of_atRest {x y : Option CompiledMethod} (h : x.map atRest = y.map atRest) :
    x = none ∧ y = none ∨ ∃ c d, x = some c ∧ y = some d ∧ c.atRest = d.atRest := by
  cases y with
  | none => exact .inl ⟨Option.map_eq_none_iff.1 h, rfl⟩
  | some d =>
    obtain ⟨c, rfl, hsame⟩ := Option.map_eq_some_iff.1 h
    exact .inr ⟨c, d, rfl, rfl, hsame⟩

end CompiledMethod

/-- What an answer tells about sites at rest. -/
def Reply.atRest : (r : Request) → Reply r → Reply r
  | .code _, (c : Option CompiledMethod) => c.map CompiledMethod.atRest
  | .siteState .., (s : Option PatchState) => s.map PatchState.atRest
  | _, v => v

/-- Two programs that ask for the same until they end in the same way, as long as the answers to one
tell the same about sites at rest as the answers to the other. What they note may differ. -/
inductive Program.Like : Program → Program → Prop
  | done : Like .done .done
  | fail (f : Fault) : Like (.fail f) (.fail f)
  | note {p q : Program} (text text' : String) (h : Like p q) : Like (.note text p) (.note text' q)
  | call (r : Request) {k l : Except Fault (Reply r) → Program}
      (h : ∀ v w, v.map (Reply.atRest r) = w.map (Reply.atRest r) → Like (k v) (l w)) :
      Like (.call r k) (.call r l)

namespace Machine

variable {α β : Type} {m m' : Machine} {c : Class}

/-- Whether no program of the machine acts on whether the patcher of a site is at work. -/
def Oblivious (m : Machine) : Prop := ∀ p ∈ m.programs, ∀ c, (p c).Like (p c)

/-- Machines that differ in counts and reports, in the notes of programs, and in which sites have
their patchers at work. -/
inductive Like (m : Machine) : Machine → Prop
  | mk {r : Resolver} {methods : List CompiledMethod} {notes : List String}
      (resolver : Resolver.Alike m.resolver r)
      (sites : methods.map CompiledMethod.atRest = m.methods.map CompiledMethod.atRest) :
      Like m { m with resolver := r, methods := methods, notes := notes }

/-- Machines that differ in no more than what their programs cannot see. -/
def Twin (m m' : Machine) : Prop := m.Like m' ∧ m.Oblivious

/-- An operation whose outcome does not depend on what programs cannot see. -/
def Blind (x : MachineM α) : Prop := Relates Twin x Eq x

lemma Like.refl (m : Machine) : m.Like m := .mk (.refl _) rfl

/-- A patcher starts its work on a site, and the resolver has counted and reported more. -/
lemma like_patching {id : SiteId} {s : PatchSite} (hs : m.site? id = some s)
    (hstate : s.state ≠ .patched) {r : Resolver} (hr : Resolver.Alike m.resolver r) :
    m.Like { m.withState id .patching with resolver := r } := by
  obtain ⟨c, hc, hs⟩ := Option.bind_eq_some_iff.1 hs
  have hrest : PatchState.atRest .patching = s.state.atRest := by
    cases h : s.state with
    | patched => exact absurd h hstate
    | _ => rfl
  refine .mk hr (List.ext_getElem? fun n => ?_)
  simp only [withState, List.getElem?_map, List.getElem?_modify]
  by_cases hn : id.method = n
  · subst hn
    simp [hc, CompiledMethod.atRest_modify_of_site hs hrest]
  · simp [hn]

lemma blind_pure (v : α) : Blind (pure v) := relates_pure rfl

lemma blind_throw (e : Fault) : Blind (throw e : MachineM α) := relates_throw e

lemma Blind.bind {x : MachineM α} {f : α → MachineM β} (hx : Blind x) (hf : ∀ v, Blind (f v)) :
    Blind (x >>= f) := Relates.bind_eq hx hf

lemma blind_modify {f : Machine → Machine} (hf : ∀ m m', m.Like m' → (f m).Like (f m'))
    (hprograms : ∀ m, (f m).programs = m.programs) : Blind (modify f) := by
  refine relates_modify fun m m' h => ⟨hf m m' h.1, ?_⟩
  unfold Oblivious
  rw [hprograms]
  exact h.2

lemma Like.area_eq (h : m.Like m') : m.area = m'.area := by
  obtain ⟨hr, -⟩ := h
  exact hr.area

lemma Like.programOf?_eq (h : m.Like m') (c : Class) : m.programOf? c = m'.programOf? c := by
  obtain ⟨-, -⟩ := h
  rfl

lemma Like.nestingBound_eq (h : m.Like m') : m.nestingBound = m'.nestingBound := by
  have hspare : m.spare = m'.spare := by
    obtain ⟨-, -⟩ := h
    rfl
  unfold nestingBound
  rw [h.area_eq, hspare]

/-- Both ways on from a fault that is caught. -/
lemma relates_attempt {R : α → β → Prop} {x : MachineM α} {y : MachineM β}
    (h : Relates Twin x R y) {S : Except Fault α → Except Fault β → Prop}
    (hok : ∀ v w, R v w → S (.ok v) (.ok w)) (herror : ∀ e, S (.error e) (.error e)) :
    Relates Twin (attempt x) S (attempt y) := by
  intro m m' hm
  have hfirst := h m m' hm
  unfold attempt
  cases hx : x m with
  | ok v s =>
    cases hy : y m' with
    | ok w t =>
      rw [hx, hy] at hfirst
      cases hfirst with
      | ok answer state => exact .ok (hok v w answer) state
    | error e t =>
      rw [hx, hy] at hfirst
      cases hfirst
  | error e s =>
    cases hy : y m' with
    | ok w t =>
      rw [hx, hy] at hfirst
      cases hfirst
    | error e' t =>
      rw [hx, hy] at hfirst
      cases hfirst with
      | error _ state => exact .ok (herror e) state

lemma Blind.attempt {x : MachineM α} (hx : Blind x) : Blind (attempt x) :=
  relates_attempt hx (fun _ _ heq => congrArg _ heq) fun _ => rfl

lemma blind_onResolver {x : ResolverM α} (hx : Resolver.Built x) : Blind (onResolver x) := by
  rintro m _ ⟨⟨hr, hsites⟩, hm⟩
  have hfirst := hx.relates _ _ hr
  unfold onResolver
  revert hfirst
  cases x m.resolver with
  | ok v r =>
    intro hfirst
    generalize x _ = outcome at hfirst ⊢
    cases hfirst with
    | ok answer state => exact .ok answer ⟨.mk state hsites, hm⟩
  | error e r =>
    intro hfirst
    generalize x _ = outcome at hfirst ⊢
    cases hfirst with
    | error _ state => exact .error e ⟨.mk state hsites, hm⟩

lemma blind_onArea {x : AreaM α} (hx : Performs Area.Quiet Area.Sound x fun _ _ => True) :
    Blind (onArea x) := blind_onResolver (.onArea hx)

lemma blind_arrays {x : AreaM α} (hx : MakesArrays x) : Blind (onArea x) :=
  blind_onArea (Area.Performs.ofArraySteps hx)

lemma blind_eagerly (what : String) {x : ResolutionM α} (hx : Resolver.Built x.run) :
    Blind (eagerly what x) := by
  refine (blind_onResolver hx).bind fun found => ?_
  cases found with
  | some v => exact blind_pure v
  | none => exact blind_throw _

lemma blind_setPhase (c : Class) (p : Phase) : Blind (setPhase c p) := by
  rintro m _ ⟨⟨hr, hsites⟩, hm⟩
  exact .ok rfl ⟨.mk ⟨congrArg (Area.setPhase · c p) hr.area, hr.config⟩ hsites, hm⟩

lemma blind_define (l : LoaderId) (d : Definition) : Blind (define l d) := by
  rintro m _ ⟨⟨hr, hsites⟩, hm⟩
  unfold define
  rw [bind_of_ok (get_apply m), bind_of_ok (get_apply _)]
  by_cases hroom : m.spare < if d.initializer.isSome then 1 else 0
  · simp only [if_pos hroom]
    exact .error _ ⟨.mk hr hsites, hm⟩
  · simp only [if_neg hroom]
    exact .ok rfl ⟨.mk ⟨congrArg (Area.define · l d) hr.area, hr.config⟩ hsites, hm⟩

/-! ### The code area -/

lemma blind_read (address : Address) : Blind (read address) := by
  refine relates_get_bind ?_
  rintro m _ ⟨⟨-, -⟩, -⟩
  dsimp only
  cases m.memory.read? address with
  | some w => exact blind_pure w
  | none => exact blind_throw _

lemma blind_write (address : Address) (w : Word) : Blind (write address w) := by
  refine relates_get_bind ?_
  rintro m _ ⟨⟨-, -⟩, -⟩
  refine (relates_ofExcept _).bind_eq fun memory => ?_
  exact blind_modify (fun _ _ ⟨hr, hsites⟩ => .mk hr hsites) fun _ => rfl

lemma blind_fetched (entry address : Address) (w : Word) : Blind (fetched entry address w) := by
  refine Blind.bind ?_ fun (op, displacement) => ?_
  · unfold decodeWord
    split
    · split
      · exact blind_pure _
      · exact blind_throw _
    · exact blind_pure _
  · dsimp only
    split
    · exact blind_pure _
    · exact (blind_read _).bind fun _ => blind_pure _

/-- A method as it is when no patcher is at work is found under its number. -/
lemma getElem?_atRest {methods : List CompiledMethod}
    (h : methods.map CompiledMethod.atRest = m.methods.map CompiledMethod.atRest) (n : Nat) :
    (methods[n]?).map CompiledMethod.atRest = (m.methods[n]?).map CompiledMethod.atRest := by
  have hn : (methods.map CompiledMethod.atRest)[n]? = (m.methods.map CompiledMethod.atRest)[n]? :=
    by rw [h]
  rwa [List.getElem?_map, List.getElem?_map] at hn

lemma find?_atRest {methods : List CompiledMethod}
    (h : methods.map CompiledMethod.atRest = m.methods.map CompiledMethod.atRest)
    (address : Address) :
    (({ m with methods := methods } : Machine).find? address).map CompiledMethod.atRest =
      (m.find? address).map CompiledMethod.atRest := by
  have hbefore : ∀ (methods : List CompiledMethod) (n : Nat),
      ((methods[n]?).filter fun c => c.start ≤ address).map CompiledMethod.atRest =
        ((methods[n]?).map CompiledMethod.atRest).filter fun c => c.start ≤ address := by
    intro methods n
    cases methods[n]? with
    | none => rfl
    | some c => by_cases hc : c.start ≤ address <;> simp [Option.filter, CompiledMethod.atRest, hc]
  have hin : ∀ c : Option CompiledMethod,
      (c.filter fun c => c.contains address).map CompiledMethod.atRest =
        (c.map CompiledMethod.atRest).filter fun c => c.contains address := by
    intro c
    cases c with
    | none => rfl
    | some c =>
      by_cases hc : c.contains address = true <;>
        simp_all [Option.filter, CompiledMethod.atRest, CompiledMethod.contains]
  unfold find?
  dsimp only
  rw [hin, hin, ← List.getLast?_map, ← List.getLast?_map, List.map_filterMap, List.map_filterMap]
  simp only [hbefore, getElem?_atRest h]

lemma Like.labelled?_atRest (h : m.Like m') (label : String) :
    (m.labelled? label).map CompiledMethod.atRest =
      (m'.labelled? label).map CompiledMethod.atRest := by
  obtain ⟨-, hsites⟩ := h
  unfold labelled?
  cases m.labels.get? label with
  | none => rfl
  | some n => exact (getElem?_atRest hsites n).symm

/-- The same method is found in machines that programs cannot tell apart. -/
lemma Like.find?_cases (h : m.Like m') (address : Address) :
    m.find? address = none ∧ m'.find? address = none ∨
      ∃ c d, m.find? address = some c ∧ m'.find? address = some d ∧ c.atRest = d.atRest := by
  obtain ⟨-, hsites⟩ := h
  exact CompiledMethod.cases_of_atRest (find?_atRest hsites address).symm

/-- How far a site is bound when no patcher is at work. -/
lemma siteState?_atRest {methods : List CompiledMethod}
    (h : methods.map CompiledMethod.atRest = m.methods.map CompiledMethod.atRest)
    (number index : Nat) :
    (({ m with methods := methods } : Machine).siteState? number index).map PatchState.atRest =
      (m.siteState? number index).map PatchState.atRest := by
  have hsites : ∀ c : Option CompiledMethod,
      ((c.bind fun c => c.sites[index]?).map PatchSite.state).map PatchState.atRest =
        ((c.map CompiledMethod.atRest).bind fun c => c.sites[index]?).map PatchSite.state := by
    intro c
    cases c with
    | none => rfl
    | some c => simp [CompiledMethod.getElem?_sites_atRest, Function.comp_def]
  unfold siteState?
  dsimp only
  rw [hsites, hsites, getElem?_atRest h]

/-- The state of a site is set alike. -/
lemma map_atRest_modify {methods : List CompiledMethod}
    (h : methods.map CompiledMethod.atRest = m.methods.map CompiledMethod.atRest)
    (number index : Nat) (st : PatchState) :
    (methods.modify number fun c =>
        { c with sites := c.sites.modify index fun s => { s with state := st } }).map
          CompiledMethod.atRest =
      (m.withState ⟨number, index⟩ st).methods.map CompiledMethod.atRest := by
  refine List.ext_getElem? fun n => ?_
  simp only [withState, List.getElem?_map, List.getElem?_modify]
  rcases CompiledMethod.cases_of_atRest (getElem?_atRest h n) with
    ⟨hc, hd⟩ | ⟨c, d, hc, hd, hsame⟩
  · simp [hc, hd]
  · by_cases heq : number = n
    · simp [hc, hd, heq, CompiledMethod.atRest_modify, hsame]
    · simp [hc, hd, heq, hsame]

lemma Like.siteState_atRest (h : m.Like m') (number : Nat) (address : Address) :
    (((m.methods[number]?).bind fun c => c.site? address).map PatchSite.state).map
        PatchState.atRest =
      (((m'.methods[number]?).bind fun c => c.site? address).map PatchSite.state).map
        PatchState.atRest := by
  obtain ⟨-, hsites⟩ := h
  rcases CompiledMethod.cases_of_atRest (getElem?_atRest hsites number) with
    ⟨hc, hd⟩ | ⟨c, d, hc, hd, hsame⟩
  · simp [hc, hd]
  · have hstate := congrArg (fun c : CompiledMethod => (c.site? address).map PatchSite.state) hsame
    simp only [CompiledMethod.state_site?_atRest] at hstate
    simp only [hc, hd, Option.bind_some, hstate]

lemma blind_setSiteState (number index : Nat) (st : PatchState) :
    Blind (setSiteState number index st) := by
  refine blind_modify ?_ fun _ => rfl
  rintro m _ ⟨hr, hsites⟩
  exact .mk hr (map_atRest_modify hsites number index st)

/-- Whether a site is bound is seen by all. -/
lemma blind_isPatched (number index : Nat) : Blind (do
    return decide ((← get).siteState? number index = some .patched) : MachineM Bool) := by
  refine relates_get_bind ?_
  rintro m _ ⟨⟨-, hsites⟩, -⟩
  have hpatched : ∀ st : Option PatchState,
      st = some .patched ↔ st.map PatchState.atRest = some .patched := by
    rintro (_ | _ | _ | _) <;> simp [PatchState.atRest]
  refine relates_pure (decide_eq_decide.2 ?_)
  rw [hpatched, hpatched (siteState? _ _ _)]
  exact siteState?_atRest hsites number index ▸ Iff.rfl

/-! ### Traps -/

section

variable {init : Class → MachineM Unit}

lemma blind_patchWord (hinit : ∀ c, Blind (init c)) (patcher : Patcher) (operand : PatchOperand) :
    Blind (patchWord init patcher operand) := by
  unfold patchWord
  split
  · refine (blind_eagerly _ (Resolver.built_resolveField _ _)).bind fun f => ?_
    exact (hinit _).bind fun _ => relates_ofExcept _
  · exact (blind_eagerly _ (Resolver.built_resolveField _ _)).bind fun f => blind_pure _
  · refine (blind_eagerly _ (Resolver.built_resolveMethod _ _)).bind fun m => ?_
    split
    · exact (hinit _).bind fun _ => blind_pure _
    · exact blind_pure _
  · exact (blind_eagerly _ (Resolver.built_resolveMethod _ _)).bind fun m => blind_pure _
  · refine (blind_eagerly _ (Resolver.built_resolveMethod _ _)).bind fun m => ?_
    exact (blind_eagerly _ (Resolver.built_interfaceTarget _)).bind fun _ => blind_pure _
  · refine (blind_eagerly _ (Resolver.built_resolveClass _ _)).bind fun c => ?_
    split
    · exact (blind_throw _).bind fun _ => (hinit _).bind fun _ => blind_pure _
    · exact (hinit _).bind fun _ => blind_pure _
  · refine (blind_eagerly _ (Resolver.built_resolveClass _ _)).bind fun c => ?_
    exact (blind_arrays (Area.performs_arrayOf c)).bind fun _ => blind_pure _
  · exact (blind_eagerly _ (Resolver.built_resolveClass _ _)).bind fun c => blind_pure _
  · exact (hinit _).bind fun _ => blind_pure _
  · exact blind_throw _

lemma blind_patchSite (hinit : ∀ c, Blind (init c)) (number index : Nat) (s : PatchSite) :
    Blind (patchSite init number index s) := by
  refine (blind_isPatched number index).bind fun isPatched => ?_
  cases isPatched with
  | true => exact blind_pure _
  | false =>
    refine (blind_setSiteState _ _ _).bind fun _ => ?_
    refine (blind_patchWord hinit _ _).attempt.bind fun outcome => ?_
    cases outcome with
    | error f =>
      refine (blind_isPatched number index).bind fun isPatched => ?_
      cases isPatched with
      | true => exact blind_throw f
      | false => exact (blind_setSiteState _ _ _).bind fun _ => blind_throw f
    | ok w =>
      refine (blind_isPatched number index).bind fun isPatched => ?_
      cases isPatched with
      | true => exact blind_pure _
      | false =>
        refine ((blind_write _ _).bind fun _ => blind_write _ _).bind fun _ => ?_
        exact (blind_setSiteState _ _ _).bind fun _ => blind_pure _

/-- The state of a site that is known already plays no part in how the site is bound. -/
lemma patchSite_state (number index : Nat) (s : PatchSite) (st : PatchState) :
    patchSite init number index { s with state := st } = patchSite init number index s := rfl

/-- A trap does the same whether or not the patcher of its site is at work. -/
lemma blind_trapWith (hinit : ∀ c, Blind (init c)) (address : Address) :
    Blind (trapWith init address) := by
  refine relates_get_bind fun m m' hm => ?_
  rcases hm.1.find?_cases address with ⟨hc, hd⟩ | ⟨c, d, hc, hd, hsame⟩
  · simp only [hc, hd]
    exact blind_pure _
  · obtain ⟨hnumber, -⟩ := CompiledMethod.entry_of_atRest_eq hsame
    simp only [hc, hd, CompiledMethod.siteIndex?_of_atRest_eq hsame, hnumber]
    cases d.siteIndex? address with
    | none => exact blind_pure _
    | some i =>
      have hsites : c.atRest.sites[i]? = d.atRest.sites[i]? := by rw [hsame]
      rw [CompiledMethod.getElem?_sites_atRest, CompiledMethod.getElem?_sites_atRest] at hsites
      dsimp only
      cases hs : d.sites[i]? with
      | none =>
        rw [hs] at hsites
        rw [Option.map_eq_none_iff.1 hsites]
        exact blind_pure _
      | some s =>
        rw [hs] at hsites
        obtain ⟨s', hs', heq⟩ := Option.map_eq_some_iff.1 hsites
        rw [hs']
        dsimp only
        rw [← patchSite_state d.number i s' s'.state.atRest, heq]
        exact blind_patchSite hinit _ _ _

lemma blind_executeWith (hinit : ∀ c, Blind (init c)) (address : Address) :
    Blind (executeWith init address) := by
  refine relates_get_bind fun m m' hm => ?_
  rcases hm.1.find?_cases address with ⟨hc, hd⟩ | ⟨c, d, hc, hd, hsame⟩
  · simp only [hc, hd]
    exact blind_pure _
  · obtain ⟨-, hentry⟩ := CompiledMethod.entry_of_atRest_eq hsame
    simp only [hc, hd, hentry]
    refine (blind_read address).bind fun w => ?_
    split
    · refine (blind_trapWith hinit address).bind fun outcome => ?_
      split
      · exact blind_pure _
      · exact (blind_read address).bind fun w => (blind_fetched _ _ w).bind fun _ => blind_pure _
    · exact (blind_fetched _ _ w).bind fun _ => blind_pure _

/-! ### Compiling -/

lemma blind_install (label : String) (method : MethodHandle) (b : Builder) :
    Blind (install label method b) := by
  have hlength : ∀ {m m' : Machine}, m.Like m' → m.methods.length = m'.methods.length := by
    rintro m _ ⟨-, hsites⟩
    simpa using (congrArg List.length hsites).symm
  refine relates_get_bind ?_
  rintro m _ ⟨⟨-, -⟩, -⟩
  refine (relates_ofExcept _).bind_eq fun (start, memory) => ?_
  refine (relates_ofExcept _).bind_eq fun memory => ?_
  refine Relates.bind_eq (blind_modify ?_ fun _ => rfl) fun _ => ?_
  · rintro m _ ⟨hr, hsites⟩
    exact .mk hr hsites
  refine relates_get_bind fun m m' hm => ?_
  rw [hlength hm.1]
  refine (relates_ofExcept _).bind_eq fun compiled => ?_
  refine Relates.bind_eq (blind_modify ?_ fun _ => rfl) fun _ => blind_pure _
  rintro m _ ⟨hr, hsites⟩
  exact .mk hr (by simp [hsites])

lemma blind_compile (label : String) (method : MethodHandle) (code : List Instruction) :
    Blind (compile label method code) :=
  (blind_arrays (Resolver.makesArrays_emitAll _ code)).bind fun b => blind_install label method b

lemma blind_unload (number : Nat) : Blind (unload number) := by
  rintro m _ ⟨⟨hr, hsites⟩, hm⟩
  exact .ok rfl ⟨.mk hr hsites, hm⟩

/-! ### Initializers -/

/-- The answers to a request tell the same about sites at rest. -/
lemma relates_serve (hinit : ∀ c, Blind (init c)) (r : Request) :
    Relates Twin (serve init r) (fun v w => Reply.atRest r v = Reply.atRest r w)
      (serve init r) := by
  have hsame : ∀ {x : MachineM (Reply r)}, Blind x →
      Relates Twin x (fun v w => Reply.atRest r v = Reply.atRest r w) x :=
    fun hx m m' hm => (hx m m' hm).weaken fun _ _ heq => congrArg _ heq
  cases r with
  | load l name => exact hsame (blind_onArea (Area.performs_load l name))
  | start c => exact hsame (hinit c)
  | phase c =>
    exact relates_get_bind fun m m' hm => relates_pure (congrArg (Area.phase · c) hm.1.area_eq)
  | code label =>
    exact relates_get_bind fun m m' hm => relates_pure (hm.1.labelled?_atRest label)
  | trap address => exact hsame (blind_trapWith hinit address)
  | execute address => exact hsame (blind_executeWith hinit address)
  | siteState number address =>
    exact relates_get_bind fun m m' hm => relates_pure (hm.1.siteState_atRest number address)
  | define l d => exact hsame (blind_define l d)
  | compile label method code => exact hsame (blind_compile label method code)
  | unload number => exact hsame (blind_unload number)

lemma blind_runProgram {serve : (r : Request) → MachineM (Reply r)}
    (hserve : ∀ r, Relates Twin (serve r) (fun v w => Reply.atRest r v = Reply.atRest r w)
      (serve r)) {p q : Program} (h : p.Like q) :
    Relates Twin (runProgram serve p) Eq (runProgram serve q) := by
  induction h with
  | done => exact relates_pure rfl
  | fail f => exact relates_throw f
  | note text text' _ ih =>
    have hnote : Relates Twin (note text) Eq (note text') := by
      rintro m _ ⟨⟨hr, hsites⟩, hm⟩
      exact .ok rfl ⟨.mk hr hsites, hm⟩
    exact hnote.bind fun _ _ _ => ih
  | call r _ ih =>
    have hcaught : Relates Twin (attempt (serve r))
        (fun v w => v.map (Reply.atRest r) = w.map (Reply.atRest r)) (attempt (serve r)) :=
      relates_attempt (hserve r) (fun _ _ heq => congrArg Except.ok heq) fun _ => rfl
    exact hcaught.bind ih

/-- The initializer of a class does the same where programs cannot tell the machines apart. -/
lemma blind_runInitializer {serve : (r : Request) → MachineM (Reply r)}
    (hserve : ∀ r, Relates Twin (serve r) (fun v w => Reply.atRest r v = Reply.atRest r w)
      (serve r)) (c : Class) : Blind (runInitializer serve c) := by
  refine relates_get_bind fun m m' hm => ?_
  rw [← hm.1.programOf?_eq c]
  cases hprogram : m.programOf? c with
  | none => exact relates_pure rfl
  | some p =>
    obtain ⟨f, hf, rfl⟩ := Option.map_eq_some_iff.1 hprogram
    obtain ⟨i, -, hf⟩ := Option.bind_eq_some_iff.1 hf
    have hlike := hm.2 f (List.mem_of_getElem? hf) c
    refine Relates.bind_eq (Blind.attempt (blind_runProgram hserve hlike)) fun outcome => ?_
    cases outcome with
    | ok v => exact relates_pure rfl
    | error e => exact relates_throw _

lemma blind_enterClass (c : Class) {body : MachineM Unit} (hbody : Blind body) :
    Blind (enterClass c body) := by
  refine relates_get_bind fun m m' hm => ?_
  rw [← hm.1.area_eq]
  cases m.area.phase c with
  | initialized => exact relates_pure rfl
  | initializing => exact relates_pure rfl
  | erroneous => exact relates_throw _
  | linked =>
    refine Relates.bind_eq (blind_setPhase c _) fun _ => ?_
    refine Relates.bind_eq hbody.attempt fun outcome => ?_
    cases outcome with
    | ok v => exact blind_setPhase c _
    | error f => exact (blind_setPhase c _).bind fun _ => blind_throw f

lemma blind_initializeBy {run : Class → MachineM Unit} (hrun : ∀ c, Blind (run c)) :
    ∀ c, Blind (initializeBy run c)
  | .root d => blind_enterClass _ (hrun _)
  | .derived d s is => by
    refine blind_enterClass _ ?_
    split
    · exact (blind_initializeBy hrun s).bind fun _ => hrun _
    · exact hrun _
  | .primitiveArray .. => blind_pure ()
  | .array .. => blind_pure ()

lemma blind_initializeWithin (n : Nat) (c : Class) : Blind (initializeWithin n c) := by
  induction n generalizing c with
  | zero =>
    refine blind_initializeBy (fun c => relates_get_bind fun m m' hm => ?_) c
    rw [← hm.1.programOf?_eq c]
    split
    · exact relates_throw _
    · exact relates_pure rfl
  | succ n ih => exact blind_initializeBy (blind_runInitializer (relates_serve ih)) c

lemma blind_initializeClass (c : Class) : Blind (initializeClass c) := by
  refine relates_get_bind fun m m' hm => ?_
  rw [← hm.1.nestingBound_eq]
  exact blind_initializeWithin _ c

end

end Machine

lemma Watch.Initializes.blind {init : Class → WatchM Unit} {init' : Class → MachineM Unit}
    (h : Initializes init init') (c : Class) : Machine.Blind (init' c) := by
  cases h with
  | outside => exact Machine.blind_initializeClass c
  | inside n => exact Machine.blind_initializeWithin n c

end Linkage
