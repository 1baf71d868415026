import Linkage.Proofs.Area.Lasting
import Linkage.Proofs.Resolver.Agreement

/-!
# Lazy questions

A question that is asked lazily loads nothing. It may be left open, and then it has not even made
loaders agree; if it is not, it was answered in the way in which it would have been answered
eagerly. An eager question is never left open.

`Deferrable` is what the lazy and the eager form of a question have to do with one another, and
`Lazily` adds that a configuration can take the one for the other. Both are shown part by part of
the resolver; only what follows the loading constraints takes steps other than making array classes.
-/

namespace Linkage

open Relation

/-! ### Steps that load nothing -/

namespace Area

variable {a b : Area}

/-- The changes that a lazy question is made of. -/
inductive LazyStep : Area → Area → Prop where
  /-- An array class is made, or an identity is taken. -/
  | array {a b : Area} (h : ArrayStep a b) : LazyStep a b
  /-- Loaders are made to agree. -/
  | constrain (a : Area) (t : Constraints) : LazyStep a { a with constraints := t }

lemma ArrayStep.published?_eq (h : ArrayStep a b) (l : LoaderId) {n : String} (hn : IsPlain n) :
    b.published? l n = a.published? l n := by
  cases h with
  | identity => rfl
  | array d s is component =>
    rw [published?_withClass, if_neg]
    rintro ⟨-, hname, -⟩
    exact Class.not_isPlain_array d s is component (hname ▸ hn)

lemma LazyStep.published?_eq (h : LazyStep a b) (l : LoaderId) {n : String} (hn : IsPlain n) :
    b.published? l n = a.published? l n := by
  cases h with
  | array h => exact h.published?_eq l hn
  | constrain t => rfl

lemma LazyStep.loads_eq (h : LazyStep a b) : b.loads = a.loads := by
  cases h with
  | array h => cases h <;> rfl
  | constrain t => rfl

/-- A number of such changes loads nothing. -/
lemma LazyStep.nothing_loaded (h : ReflTransGen LazyStep a b) :
    b.loads = a.loads ∧ ∀ l n, IsPlain n → b.published? l n = a.published? l n := by
  induction h with
  | refl => exact ⟨rfl, fun _ _ _ => rfl⟩
  | tail _ hstep ih =>
    exact ⟨hstep.loads_eq.trans ih.1, fun l n hn =>
      (hstep.published?_eq l hn).trans (ih.2 l n hn)⟩

lemma lazyStep_of_array (a b : Area) (h : ArrayStep a b) : LazyStep a b := .array h

lemma ArrayStep.lazily (h : ReflTransGen ArrayStep a b) : ReflTransGen LazyStep a b :=
  ReflTransGen.mono lazyStep_of_array _ _ h

lemma addConstraint_lazily (name : String) (x y : LoaderId) (a : Area) :
    ReflTransGen LazyStep a (finalState (addConstraint name x y fun l => findLoaded l name) a) := by
  rcases addConstraint_cases name x y a with ⟨-, hrun⟩ | ⟨b, hb, ⟨e, hrun⟩ |
    ⟨found, changed, t, -, -, hrun⟩⟩
  · rw [finalState_of_ok hrun]
  · rw [finalState_of_error hrun]
    exact ArrayStep.lazily hb
  · rw [finalState_of_ok hrun]
    exact (ArrayStep.lazily hb).tail (.constrain b t)

end Area

namespace Resolver

open Area (lazyStep_of_array)

variable {α β : Type} {step : Area → Area → Prop}

/-! ### The lazy and the eager form of a question -/

/-- Whatever is done, the configuration stays. -/
lemma Built.config_eq {x : ResolverM α} (hx : Built x) (r : Resolver) :
    (finalState x r).config = r.config := by
  induction hx generalizing r with
  | pure v => rfl
  | throw e => rfl
  | bind _ _ ihx ihf =>
    exact finalState_bind_keeps (P := fun s : Resolver => s.config = r.config) (ihx r)
      fun v s _ hfirst => (ihf v s).trans hfirst
  | recover _ _ ihx ihf =>
    exact finalState_tryCatch_keeps (P := fun s : Resolver => s.config = r.config) (ihx r)
      fun e s _ hfirst => (ihf e s).trans hfirst
  | look _ _ ihf => exact ihf r r
  | @tally f h => exact (h r).config.symm
  | @onArea _ x _ =>
    unfold finalState Resolver.onArea
    cases x r.area <;> rfl

/-- A question is asked in a state of the area that can be reached, where nothing makes it an eager
one. -/
structure Lazy (r : Resolver) : Prop where
  sound : r.area.Sound
  config : r.config.eager = false

/-- A lazy question `x` and its eager form `y`: the lazy one only takes steps of a kind, and as long
as it may be left open they make array classes; unless it is left open it ends as the eager one
does; the eager one is never left open. -/
structure Deferrable (step : Area → Area → Prop) (x y : ResolutionM α) : Prop where
  built : Built x.run
  steps : ∀ r, Lazy r → ReflTransGen step r.area (finalState x.run r).area
  deferred : ∀ r s, Lazy r → x.run r = .ok none s → ReflTransGen Area.ArrayStep r.area s.area
  same : ∀ r, x.run r = y.run r ∨ ∃ s, x.run r = .ok none s
  answered : ∀ r s, y.run r ≠ .ok none s

/-- A question of which the configuration can make an eager one. -/
structure Lazily (step : Area → Area → Prop) (x y : ResolutionM α) : Prop
    extends Deferrable step x y where
  eagerly : ∀ r, r.config.eager = true → x.run r = y.run r

lemma Lazy.after {x : ResolverM α} (hx : Built x) {r s : Resolver} {v : α} (hr : Lazy r)
    (h : x r = .ok v s) : Lazy s := by
  refine ⟨(evolves_of_ok h hx hr.sound).sound hr.sound, ?_⟩
  rw [← finalState_of_ok h, hx.config_eq]
  exact hr.config

section

variable {x y : ResolutionM α} {f g : α → ResolutionM β}

lemma run_bind_of_none {r s : Resolver} (h : x.run r = .ok none s) :
    (x >>= f).run r = .ok none s := by
  rw [OptionT.run_bind]
  exact bind_of_ok h

lemma run_bind_of_some {r s : Resolver} {v : α} (h : x.run r = .ok (some v) s) :
    (x >>= f).run r = (f v).run s := by
  rw [OptionT.run_bind]
  exact bind_of_ok h

lemma run_bind_of_error {r s : Resolver} {e : Fault} (h : x.run r = .error e s) :
    (x >>= f).run r = .error e s := by
  rw [OptionT.run_bind]
  exact bind_of_error h

/-- After a question that made array classes at most, a second one. -/
lemma Deferrable.bind (harray : ∀ a b, Area.ArrayStep a b → step a b)
    (hx : Deferrable Area.ArrayStep x y) (hf : ∀ v, Deferrable step (f v) (g v)) :
    Deferrable step (x >>= f) (y >>= g) where
  built := closed_built.option_bind hx.built fun v => (hf v).built
  steps r hr := by
    have hfirst := ReflTransGen.mono harray _ _ (hx.steps r hr)
    rcases h : x.run r with ⟨_ | v, s⟩ | ⟨e, s⟩
    · rwa [finalState_of_ok h, ← finalState_of_ok (run_bind_of_none h)] at hfirst
    · rw [finalState_of_ok h] at hfirst
      rw [finalState_congr (run_bind_of_some h)]
      exact hfirst.trans ((hf v).steps s (hr.after hx.built h))
    · rwa [finalState_of_error h, ← finalState_of_error (run_bind_of_error h)] at hfirst
  deferred r t hr ht := by
    have hfirst := hx.steps r hr
    rcases h : x.run r with ⟨_ | v, s⟩ | ⟨e, s⟩
    · rw [run_bind_of_none h] at ht
      cases ht
      exact hx.deferred r t hr h
    · rw [finalState_of_ok h] at hfirst
      rw [run_bind_of_some h] at ht
      exact hfirst.trans ((hf v).deferred s t (hr.after hx.built h) ht)
    · rw [run_bind_of_error h] at ht
      cases ht
  same r := by
    rcases hx.same r with hsame | ⟨s, hs⟩
    · rcases h : x.run r with ⟨_ | v, s⟩ | ⟨e, s⟩
      · exact .inr ⟨s, run_bind_of_none h⟩
      · rw [run_bind_of_some h, run_bind_of_some (hsame ▸ h)]
        exact (hf v).same s
      · rw [run_bind_of_error h, run_bind_of_error (hsame ▸ h)]
        exact .inl rfl
    · exact .inr ⟨s, run_bind_of_none hs⟩
  answered r t ht := by
    rcases h : y.run r with ⟨_ | v, s⟩ | ⟨e, s⟩
    · exact hx.answered r s h
    · rw [run_bind_of_some h] at ht
      exact (hf v).answered s t ht
    · rw [run_bind_of_error h] at ht
      cases ht

lemma Lazily.bind (harray : ∀ a b, Area.ArrayStep a b → step a b)
    (hx : Lazily Area.ArrayStep x y) (hf : ∀ v, Lazily step (f v) (g v)) :
    Lazily step (x >>= f) (y >>= g) where
  toDeferrable := hx.toDeferrable.bind harray fun v => (hf v).toDeferrable
  eagerly r hr := by
    have hsame := hx.eagerly r hr
    have hconfig := hx.built.config_eq r
    rcases h : x.run r with ⟨_ | v, s⟩ | ⟨e, s⟩
    · rw [run_bind_of_none h, run_bind_of_none (hsame ▸ h)]
    · rw [finalState_of_ok h] at hconfig
      rw [run_bind_of_some h, run_bind_of_some (hsame ▸ h)]
      exact (hf v).eagerly s (hconfig ▸ hr)
    · rw [run_bind_of_error h, run_bind_of_error (hsame ▸ h)]

lemma run_counted_of_none {r s : Resolver} (h : x.run r = .ok none s) :
    (counted x).run r =
      .ok none { s with stats := { s.stats with deferred := s.stats.deferred + 1 } } :=
  bind_of_ok h

lemma run_counted_of_some {r s : Resolver} {v : α} (h : x.run r = .ok (some v) s) :
    (counted x).run r = .ok (some v) s :=
  bind_of_ok h

lemma run_counted_of_error {r s : Resolver} {e : Fault} (h : x.run r = .error e s) :
    (counted x).run r = .error e s :=
  bind_of_error h

/-- What is done under one more count of deferrals does the same to the area. -/
lemma finalState_counted_area (x : ResolutionM α) (r : Resolver) :
    (finalState (counted x).run r).area = (finalState x.run r).area := by
  rcases h : x.run r with ⟨_ | v, s⟩ | ⟨e, s⟩
  · rw [finalState_of_ok h, finalState_of_ok (run_counted_of_none h)]
  · rw [finalState_of_ok h, finalState_of_ok (run_counted_of_some h)]
  · rw [finalState_of_error h, finalState_of_error (run_counted_of_error h)]

lemma run_counted_congr {r : Resolver} (h : x.run r = y.run r) :
    (counted x).run r = (counted y).run r := by
  rcases hx : x.run r with ⟨_ | v, s⟩ | ⟨e, s⟩
  · rw [run_counted_of_none hx, run_counted_of_none (h ▸ hx)]
  · rw [run_counted_of_some hx, run_counted_of_some (h ▸ hx)]
  · rw [run_counted_of_error hx, run_counted_of_error (h ▸ hx)]

lemma run_counted_eq_none {r s : Resolver} (h : (counted x).run r = .ok none s) :
    ∃ s', x.run r = .ok none s' ∧ s'.area = s.area := by
  rcases hx : x.run r with ⟨_ | v, t⟩ | ⟨e, t⟩
  · rw [run_counted_of_none hx] at h
    cases h
    exact ⟨t, rfl, rfl⟩
  · rw [run_counted_of_some hx] at h
    cases h
  · rw [run_counted_of_error hx] at h
    cases h

lemma Deferrable.counted (h : Deferrable step x y) : Deferrable step (counted x) (counted y) where
  built := closed_built.counted h.built
  steps r hr := by
    rw [finalState_counted_area]
    exact h.steps r hr
  deferred r s hr hs := by
    obtain ⟨s', hx, harea⟩ := run_counted_eq_none hs
    rw [← harea]
    exact h.deferred r s' hr hx
  same r := by
    rcases h.same r with hsame | ⟨s, hs⟩
    · exact .inl (run_counted_congr hsame)
    · exact .inr ⟨_, run_counted_of_none hs⟩
  answered r s hs := by
    obtain ⟨s', hy, -⟩ := run_counted_eq_none hs
    exact h.answered r s' hy

lemma Lazily.counted (h : Lazily step x y) : Lazily step (counted x) (counted y) where
  toDeferrable := h.toDeferrable.counted
  eagerly r hr := run_counted_congr (h.eagerly r hr)

/-- What never leaves a question open and is done alike in both forms. -/
lemma lazily_of_answered (hbuilt : Built x.run)
    (hsteps : ∀ r, Lazy r → ReflTransGen step r.area (finalState x.run r).area)
    (hanswered : ∀ r s, x.run r ≠ .ok none s) : Lazily step x x where
  built := hbuilt
  steps := hsteps
  deferred r s _ hs := absurd hs (hanswered r s)
  same _ := .inl rfl
  answered := hanswered
  eagerly _ _ := rfl

end

lemma lazily_pure (v : α) : Lazily step (pure v) (pure v) := by
  refine lazily_of_answered (closed_built.option_pure v) (fun r _ => .refl) fun r s h => ?_
  cases h

lemma lazily_fail (e : Fault) : Lazily step (fail e : ResolutionM α) (fail e) := by
  refine lazily_of_answered (closed_built.fail e) (fun r _ => .refl) fun r s h => ?_
  cases h

lemma lazily_count (f : ResolverStats → ResolverStats) : Lazily step (count f) (count f) := by
  refine lazily_of_answered (closed_built.count f) (fun r _ => .refl) fun r s h => ?_
  cases h

lemma lazily_report (what result : String) :
    Lazily step (report what result) (report what result) := by
  refine lazily_of_answered (closed_built.report what result) (fun r _ => .refl) fun r s h => ?_
  cases h

lemma run_lift_ne_none (x : ResolverM α) (r s : Resolver) :
    (OptionT.lift x).run r ≠ .ok none s := by
  intro h
  obtain ⟨v, t, -, h⟩ := bind_eq_ok.1 h
  cases h

lemma finalState_lift (x : ResolverM α) (r : Resolver) :
    finalState (OptionT.lift x).run r = finalState x r := by
  refine (finalState_bind x (fun v => pure (some v)) r).trans ?_
  unfold finalState
  cases x r <;> rfl

lemma lazily_lift {x : ResolverM α} (hbuilt : Built x)
    (hsteps : ∀ r, Lazy r → ReflTransGen step r.area (finalState x r).area) :
    Lazily step (OptionT.lift x) (OptionT.lift x) := by
  refine lazily_of_answered (closed_built.lift hbuilt) (fun r hr => ?_) (run_lift_ne_none x)
  rw [finalState_lift]
  exact hsteps r hr

lemma lazily_perform {x : AreaM α} (hx : Performs Area.Quiet Area.Sound x fun _ _ => True)
    (hsteps : ∀ a, a.Sound → ReflTransGen step a (finalState x a)) :
    Lazily step (perform x) (perform x) := by
  refine lazily_lift (.onArea hx) fun r hr => ?_
  rw [finalState_onArea]
  exact hsteps r.area hr.sound

lemma lazily_arrays {x : AreaM α} (hx : MakesArrays x) :
    Lazily Area.ArrayStep (perform x) (perform x) :=
  lazily_perform (Area.Performs.ofArraySteps hx) fun a _ => (hx a trivial).1

lemma lazily_current_bind {f : Resolver → ResolutionM α} (hbuilt : Built (current >>= f).run)
    (hf : ∀ r, Lazily step (f r) (f r)) : Lazily step (current >>= f) (current >>= f) :=
  lazily_of_answered hbuilt (fun r hr => (hf r).steps r hr) fun r s => (hf r).answered r s

/-- A check that is made under a condition only. -/
lemma lazily_check {p : Prop} [Decidable p] {x y : ResolutionM Unit} {k k' : Unit → ResolutionM α}
    (harray : ∀ a b, Area.ArrayStep a b → step a b) (hx : Lazily Area.ArrayStep x y)
    (hk : ∀ v, Lazily step (k v) (k' v)) :
    Lazily step (if p then x >>= k else k ()) (if p then y >>= k' else k' ()) := by
  split
  · exact hx.bind harray hk
  · exact hk ()

/-! ### Names -/

lemma run_resolvePlain (l : LoaderId) (mode : ResolveMode) (name : String) (r : Resolver) :
    (resolvePlain l mode name).run r =
      match r.area.published? l name, mode with
      | some c, _ => .ok (some c) r
      | none, .lazy => .ok none r
      | none, .eager => (perform (Area.load l name)).run r := by
  have hfind : (perform (Area.findSpelled l (.plain name))).run r =
      .ok (some (r.area.published? l name)) r := rfl
  refine (run_bind_of_some hfind).trans ?_
  cases r.area.published? l name <;> cases mode <;> rfl

lemma deferrable_resolvePlain (l : LoaderId) (name : String) :
    Deferrable Area.ArrayStep (resolvePlain l .lazy name) (resolvePlain l .eager name) := by
  have hkept : ∀ r, finalState (resolvePlain l .lazy name).run r = r := by
    intro r
    rw [finalState, run_resolvePlain]
    cases r.area.published? l name <;> rfl
  refine ⟨built_resolvePlain _ _ _, fun r _ => ?_, fun r s _ hs => ?_, fun r => ?_, fun r s => ?_⟩
  · rw [hkept]
  · rw [← finalState_of_ok hs, hkept]
  · rw [run_resolvePlain, run_resolvePlain]
    cases r.area.published? l name with
    | some c => exact .inl rfl
    | none => exact .inr ⟨r, rfl⟩
  · rw [run_resolvePlain]
    cases r.area.published? l name with
    | some c => simp
    | none => exact run_lift_ne_none _ r s

/-- A class that is looked for among the arrays over primitive types is there from the start. -/
lemma lazily_load_short (l : LoaderId) {name : String} (hname : IsShortArray name) :
    Lazily Area.ArrayStep (perform (Area.load l name)) (perform (Area.load l name)) := by
  refine lazily_perform (Area.performs_load l name) fun a ha => ?_
  rcases ha.load_short hname l with ⟨c, -, hload⟩ | ⟨-, e, hload⟩
  · rw [finalState_of_ok hload]
  · rw [finalState_of_error hload]

lemma deferrable_array (l : LoaderId) {name : String} (hname : ¬ IsPlain name) {short : Bool}
    (hshort : short = true → name.utf8ByteSize = 2) {x y : ResolutionM Class}
    (h : Deferrable Area.ArrayStep x y) :
    Deferrable Area.ArrayStep
      (if short then perform (Area.load l name) else x >>= fun c => perform (Area.arrayOf c))
      (if short then perform (Area.load l name) else y >>= fun c => perform (Area.arrayOf c)) := by
  cases short with
  | true => exact (lazily_load_short l ⟨hname, hshort rfl⟩).toDeferrable
  | false =>
    exact h.bind (fun _ _ => id) fun c => (lazily_arrays (Area.performs_arrayOf c)).toDeferrable

lemma deferrable_resolveSpelled (l : LoaderId) (name : String) :
    Deferrable Area.ArrayStep (resolveSpelled l .lazy (.ofName name))
      (resolveSpelled l .eager (.ofName name)) := by
  unfold Spelling.ofName
  fun_induction Spelling.ofChars name.toList with
  | case1 rest hhead ih =>
    exact deferrable_array l (not_isPlain_bracket rest) Spelling.isShort_iff.1 ih
  | case2 rest hhead element helement hlt ih =>
    exact deferrable_array l (not_isPlain_bracket rest) Spelling.isShort_iff.1 ih
  | case3 rest hhead helement =>
    unfold resolveSpelled
    split
    · next hs =>
      exact (lazily_load_short l ⟨not_isPlain_bracket rest, Spelling.isShort_iff.1 hs⟩).toDeferrable
    · exact (lazily_fail _).toDeferrable
  | case4 rest hnested hobject =>
    exact deferrable_array l (not_isPlain_bracket rest) Spelling.isShort_iff.1
      (deferrable_resolvePlain l _)
  | case5 cs hplain => exact deferrable_resolvePlain l _

lemma run_effective_bind (mode : ResolveMode) (f : ResolveMode → ResolutionM α) (r : Resolver) :
    (effective mode >>= f).run r = (f (if r.config.eager then .eager else mode)).run r := rfl

/-- Only here the mode of a question is looked at. -/
lemma lazily_effective {f : ResolveMode → ResolutionM α}
    (hbuilt : Built (effective .lazy >>= f).run)
    (hf : Deferrable Area.ArrayStep (f .lazy) (f .eager)) :
    Lazily Area.ArrayStep (effective .lazy >>= f) (effective .eager >>= f) where
  built := hbuilt
  steps r hr := by
    have hrun := run_effective_bind .lazy f r
    rw [hr.config] at hrun
    rw [finalState_congr hrun]
    exact hf.steps r hr
  deferred r s hr hs := by
    rw [run_effective_bind, hr.config] at hs
    exact hf.deferred r s hr hs
  same r := by
    rw [run_effective_bind, run_effective_bind]
    cases r.config.eager with
    | true => exact .inl rfl
    | false => exact hf.same r
  answered r s := by
    rw [run_effective_bind, ite_self]
    exact hf.answered r s
  eagerly r hr := by
    rw [run_effective_bind, run_effective_bind, hr]
    rfl

lemma lazily_resolveName (referer : Class) (method : Option MethodHandle) (name : String)
    (check : Bool) : Lazily Area.ArrayStep (resolveName referer method name .lazy check)
      (resolveName referer method name .eager check) := by
  refine lazily_effective (covers_built.resolveName _ _ _ _ _) ?_
  refine (deferrable_resolveSpelled _ _).bind (fun _ _ => id) fun c => ?_
  split
  · exact (lazily_fail _).toDeferrable
  · exact (lazily_pure c).toDeferrable

lemma lazily_resolveMention (m : Mention) :
    Lazily Area.ArrayStep (resolveMention m .lazy) (resolveMention m .eager) := by
  cases m with
  | loaded c => exact lazily_pure c
  | symbolic r => exact lazily_resolveName _ _ _ _

/-! ### Checks -/

lemma lazily_checkMembers (referer type : Class) (reversed : Bool) (kind : FaultKind)
    (set : SubtypeSet) :
    Lazily Area.ArrayStep (checkMembers referer type reversed .lazy kind set)
      (checkMembers referer type reversed .eager kind set) := by
  induction set with
  | nil => exact lazily_pure ()
  | cons m ms ih =>
    unfold checkMembers
    refine (lazily_resolveMention m).counted.bind (fun _ _ => id) fun c => ?_
    refine (lazily_arrays (ValueType.makesArrays_assignableToClass _ _)).bind (fun _ _ => id)
      fun answer => ?_
    split
    · exact ih
    · exact lazily_fail _

lemma lazily_checkSubtypes (referer : Class) (set : SubtypeSet) (type : Mention) (reversed : Bool)
    (kind : FaultKind) :
    Lazily Area.ArrayStep (checkSubtypes referer set type reversed .lazy kind)
      (checkSubtypes referer set type reversed .eager kind) := by
  unfold checkSubtypes
  split
  · exact lazily_pure ()
  · refine (lazily_resolveMention type).counted.bind (fun _ _ => id) fun c => ?_
    split
    · exact lazily_pure ()
    · exact lazily_checkMembers _ _ _ _ _

lemma lazily_checkAccess (referer declaring : Class) (flags : Flags) (isStatic : Bool)
    (instances : SubtypeSet) (member : String) :
    Lazily Area.ArrayStep (checkAccess referer declaring flags isStatic instances .lazy member)
      (checkAccess referer declaring flags isStatic instances .eager member) := by
  unfold checkAccess
  split
  · exact lazily_pure ()
  · exact lazily_fail _
  · refine (lazily_checkSubtypes _ _ _ _ _).counted.bind (fun _ _ => id) fun _ => ?_
    split
    · exact (lazily_checkSubtypes _ _ _ _ _).counted
    · exact lazily_pure ()

lemma lazily_checkArguments (referer : Class) (ps : List FieldType) (ss : List SubtypeSet) :
    Lazily Area.ArrayStep (checkArguments referer .lazy ps ss)
      (checkArguments referer .eager ps ss) := by
  induction ps generalizing ss with
  | nil => exact lazily_pure ()
  | cons p ps ih =>
    cases ss with
    | nil => exact lazily_pure ()
    | cons s ss =>
      unfold checkArguments
      dsimp only
      split
      · exact (lazily_checkSubtypes _ _ _ _ _).counted.bind (fun _ _ => id) fun _ => ih ss
      · exact ih ss

/-! ### Members -/

lemma constrain_steps (name : String) (declaring referer : Class) (r : Resolver) :
    ReflTransGen Area.LazyStep r.area (finalState (constrain name declaring referer) r).area := by
  unfold constrain
  rw [finalState_congr (bind_of_ok (get_apply r))]
  split
  · have hsteps := Area.addConstraint_lazily name declaring.loader referer.loader r.area
    rw [← finalState_onArea] at hsteps
    exact finalState_bind_keeps
      (P := fun s : Resolver => ReflTransGen Area.LazyStep r.area s.area) hsteps fun _ _ _ hs => hs
  · exact .refl

lemma constrainAll_steps (declaring referer : Class) (names : List String) (r : Resolver) :
    ReflTransGen Area.LazyStep r.area
      (finalState (constrainAll declaring referer names) r).area := by
  induction names generalizing r with
  | nil => exact .refl
  | cons name names ih =>
    have hfirst := constrain_steps name declaring referer r
    unfold constrainAll
    exact finalState_bind_keeps
      (P := fun s : Resolver => ReflTransGen Area.LazyStep r.area s.area) hfirst
      fun _ s _ hs => hs.trans (ih s)

/-- From the loading constraints on, nothing is left open any more. -/
lemma lazily_constrainAll (declaring referer : Class) (names : List String)
    {k : Unit → ResolutionM α} (hk : ∀ v, Lazily Area.LazyStep (k v) (k v)) :
    Lazily Area.LazyStep (OptionT.lift (constrainAll declaring referer names) >>= k)
      (OptionT.lift (constrainAll declaring referer names) >>= k) := by
  have hbuilt := closed_built.lift (covers_built.constrainAll declaring referer names)
  refine lazily_of_answered (closed_built.option_bind hbuilt fun v => (hk v).built) (fun r hr => ?_)
    fun r s hs => ?_
  · have hfirst := constrainAll_steps declaring referer names r
    rw [← finalState_lift] at hfirst
    rcases h : (OptionT.lift (constrainAll declaring referer names)).run r with ⟨_ | v, s⟩ | ⟨e, s⟩
    · exact absurd h (run_lift_ne_none _ r s)
    · rw [finalState_of_ok h] at hfirst
      rw [finalState_congr (run_bind_of_some h)]
      exact hfirst.trans ((hk v).steps s (hr.after hbuilt h))
    · rw [finalState_of_error h] at hfirst
      rwa [finalState_of_error (run_bind_of_error h)]
  · rcases h : (OptionT.lift (constrainAll declaring referer names)).run r with ⟨_ | v, t⟩ | ⟨e, t⟩
    · exact run_lift_ne_none _ r t h
    · rw [run_bind_of_some h] at hs
      exact (hk v).answered t s hs
    · rw [run_bind_of_error h] at hs
      cases hs

lemma lazily_devirtualize (m : MethodHandle) (instances : SubtypeSet) :
    Lazily Area.ArrayStep (OptionT.lift (devirtualize m instances))
      (OptionT.lift (devirtualize m instances)) := by
  refine lazily_lift (covers_built.devirtualize m instances) fun r _ => ?_
  unfold devirtualize
  split
  · exact .refl
  · split
    · next mention =>
      have hsteps := (MakesArrays.find mention r.area trivial).1
      rw [← finalState_onArea] at hsteps
      refine finalState_bind_keeps
        (P := fun s : Resolver => ReflTransGen Area.ArrayStep r.area s.area) hsteps
        fun c s _ hs => ?_
      split
      · split <;> exact hs
      · exact hs
    · exact .refl

lemma lazily_found (found : Option MethodHandle) (fault : Fault) :
    Lazily Area.ArrayStep
      (match found with
        | some m => pure m
        | none => fail fault : ResolutionM MethodHandle)
      (match found with
        | some m => pure m
        | none => fail fault) := by
  cases found with
  | some m => exact lazily_pure m
  | none => exact lazily_fail _

lemma lazily_lookupTarget (container : Class) (target : MethodRef) :
    Lazily Area.ArrayStep (lookupTarget container target) (lookupTarget container target) := by
  refine lazily_current_bind (covers_built.lookupTarget container target) fun r => ?_
  dsimp only
  split
  · exact lazily_check (fun _ _ => id) (lazily_fail _) fun _ => lazily_found _ _
  · exact lazily_check (fun _ _ => id) (lazily_fail _) fun _ => lazily_found _ _

/-! ### Questions -/

lemma lazily_resolveClass (u : ClassUse) :
    Lazily Area.LazyStep (resolveClass u .lazy) (resolveClass u .eager) := by
  unfold resolveClass
  refine (lazily_count _).bind lazyStep_of_array fun _ => ?_
  refine (lazily_resolveName _ _ _ _).counted.bind lazyStep_of_array fun c => ?_
  refine (lazily_checkSubtypes _ _ _ _ _).counted.bind lazyStep_of_array fun _ => ?_
  exact (lazily_report _ _).bind lazyStep_of_array fun _ => lazily_pure c

lemma lazily_checkStored (u : FieldUse) :
    Lazily Area.ArrayStep (checkStored u .lazy) (checkStored u .eager) := by
  unfold checkStored
  split
  · exact lazily_checkSubtypes _ _ _ _ _
  · exact lazily_pure ()

lemma lazily_giveField (u : FieldUse) (field : FieldHandle) :
    Lazily Area.LazyStep (giveField u .lazy field) (giveField u .eager field) := by
  unfold giveField
  refine (lazily_checkAccess _ _ _ _ _ _).counted.bind lazyStep_of_array fun _ => ?_
  refine lazily_constrainAll _ _ _ fun _ => ?_
  exact (lazily_report _ _).bind lazyStep_of_array fun _ => lazily_pure field

lemma lazily_resolveField (u : FieldUse) :
    Lazily Area.LazyStep (resolveField u .lazy) (resolveField u .eager) := by
  rw [resolveField_eq, resolveField_eq]
  refine (lazily_count _).bind lazyStep_of_array fun _ => ?_
  refine (lazily_resolveName _ _ _ _).counted.bind lazyStep_of_array fun container => ?_
  cases container.lookupField? u.target.name u.target.descriptor with
  | none => exact lazily_fail _
  | some field =>
    refine lazily_check lazyStep_of_array (lazily_fail _) fun _ => ?_
    refine lazily_check lazyStep_of_array (lazily_checkSubtypes _ _ _ _ _).counted fun _ => ?_
    exact (lazily_checkStored u).counted.bind lazyStep_of_array fun _ => lazily_giveField u field

lemma lazily_resolveMethod (u : MethodUse) :
    Lazily Area.LazyStep (resolveMethod u .lazy) (resolveMethod u .eager) := by
  unfold resolveMethod
  refine (lazily_count _).bind lazyStep_of_array fun _ => ?_
  refine (lazily_resolveName _ _ _ _).counted.bind lazyStep_of_array fun container => ?_
  refine (lazily_lookupTarget _ _).bind lazyStep_of_array fun m => ?_
  refine lazily_check lazyStep_of_array (lazily_fail _) fun _ => ?_
  refine lazily_check lazyStep_of_array (lazily_checkSubtypes _ _ _ _ _).counted fun _ => ?_
  refine (lazily_checkArguments _ _ _).bind lazyStep_of_array fun _ => ?_
  refine (lazily_checkAccess _ _ _ _ _ _).counted.bind lazyStep_of_array fun _ => ?_
  refine lazily_constrainAll _ _ _ fun _ => ?_
  have hreport : ∀ target : MethodHandle, Lazily Area.LazyStep
      (do
        report u.text target.text
        return target)
      (do
        report u.text target.text
        return target) := fun target =>
    (lazily_report _ _).bind lazyStep_of_array fun _ => lazily_pure target
  dsimp only
  split
  · exact (lazily_pure m).bind lazyStep_of_array hreport
  · exact (lazily_devirtualize m u.instances).bind lazyStep_of_array hreport

/-- The questions that the resolver answers, lazily or eagerly. -/
inductive Question : {α : Type} → (ResolveMode → ResolutionM α) → Prop
  | ofClass (u : ClassUse) : Question (resolveClass u)
  | ofField (u : FieldUse) : Question (resolveField u)
  | ofMethod (u : MethodUse) : Question (resolveMethod u)

lemma Question.lazily {ask : ResolveMode → ResolutionM α} (h : Question ask) :
    Lazily Area.LazyStep (ask .lazy) (ask .eager) := by
  cases h with
  | ofClass u => exact lazily_resolveClass u
  | ofField u => exact lazily_resolveField u
  | ofMethod u => exact lazily_resolveMethod u

/-- Asked lazily in a state that can be reached, a question loads nothing, unless the configuration
makes it an eager one, and if it is left open the loading constraints are as before. If it is not
left open, it ends as if it had been asked eagerly, in the same state and with the same answer or
fault. A question that is asked eagerly, or under an eager configuration, is not left open. -/
theorem lazy_questions_load_nothing {start r : Resolver} (hstart : start.area = Area.initial)
    (hr : Run start r) {ask : ResolveMode → ResolutionM α} (hask : Question ask) :
    (r.config.eager = false →
      (finalState (ask .lazy).run r).area.loads = r.area.loads ∧
      (∀ l n, IsPlain n →
        (finalState (ask .lazy).run r).area.published? l n = r.area.published? l n) ∧
      ∀ s, (ask .lazy).run r = .ok none s → s.area.constraints = r.area.constraints) ∧
    ((∀ s, (ask .lazy).run r ≠ .ok none s) → (ask .eager).run r = (ask .lazy).run r) ∧
    (∀ s, (ask .eager).run r ≠ .ok none s) ∧
    (r.config.eager = true → ∀ mode s, (ask mode).run r ≠ .ok none s) := by
  have hsound : start.area.Sound := hstart ▸ Area.initial_sound
  have hq := hask.lazily
  refine ⟨fun hconfig => ?_, fun hanswered => ?_, hq.answered r, fun hconfig mode s => ?_⟩
  · have hlazy : Lazy r := ⟨(hr.evolves hsound).sound hsound, hconfig⟩
    obtain ⟨hloads, hpublished⟩ := Area.LazyStep.nothing_loaded (hq.steps r hlazy)
    refine ⟨hloads, hpublished, fun s hs => ?_⟩
    exact Area.ArrayStep.constraints_eq (hq.deferred r s hlazy hs)
  · rcases hq.same r with hsame | ⟨s, hs⟩
    · exact hsame.symm
    · exact absurd hs (hanswered s)
  · cases mode with
    | eager => exact hq.answered r s
    | lazy =>
      rw [hq.eagerly r hconfig]
      exact hq.answered r s

/-- Whether a question is left open. -/
def isLeftOpen (x : ResolutionM α) (r : Resolver) : Bool :=
  match x.run r with
  | .ok none _ => true
  | _ => false

lemma exists_of_isLeftOpen {x : ResolutionM α} {r : Resolver} (h : isLeftOpen x r = true) :
    ∃ s, x.run r = .ok none s := by
  unfold isLeftOpen at h
  split at h
  · next s hs => exact ⟨s, hs⟩
  · cases h

/-- Before the class of a field is loaded, the question about the field is left open; nothing is
loaded then and the loaders are not made to agree. Asked eagerly it is answered or fails. -/
theorem field_of_parent_left_open :
    ∃ u s, fieldOfParent? (performAll twoLoaders { area := Area.initial }) = some u ∧
      (resolveField u .lazy).run (performAll twoLoaders { area := Area.initial }) = .ok none s ∧
      s.area.loads = (performAll twoLoaders { area := Area.initial }).area.loads ∧
      s.area.published? ⟨1⟩ "p/D" = none ∧
      s.area.constraints = (performAll twoLoaders { area := Area.initial }).area.constraints ∧
      ∀ t, (resolveField u .eager).run (performAll twoLoaders { area := Area.initial }) ≠
        .ok none t := by
  have htest : ((fieldOfParent? (performAll twoLoaders { area := Area.initial })).any fun u =>
      isLeftOpen (resolveField u .lazy) (performAll twoLoaders { area := Area.initial })) = true ∧
      (performAll twoLoaders { area := Area.initial }).config.eager = false ∧
      (performAll twoLoaders { area := Area.initial }).area.published? ⟨1⟩ "p/D" = none := by
    decide +kernel
  obtain ⟨hopen, hconfig, hmissing⟩ := htest
  obtain ⟨u, hu, hopen⟩ := (Option.any_eq_true _ _).1 hopen
  obtain ⟨s, hs⟩ := exists_of_isLeftOpen hopen
  have hrun : Run { area := Area.initial } (performAll twoLoaders { area := Area.initial }) :=
    run_performAll (by simp [twoLoaders, Operation.Orderly]) _
  obtain ⟨hlazy, -, heager, -⟩ := lazy_questions_load_nothing rfl hrun (Question.ofField u)
  obtain ⟨hloads, hpublished, hconstraints⟩ := hlazy hconfig
  rw [finalState_of_ok hs] at hloads hpublished
  exact ⟨u, s, hu, hs, hloads, (hpublished ⟨1⟩ "p/D" (by decide)).trans hmissing,
    hconstraints s hs, heager⟩

end Resolver

end Linkage
