import Linkage.Proofs.Area.Lasting
import Linkage.Proofs.Resolver.Run

/-!
# Resolving a class again

A use of a class that was resolved once, while the code was made or later, is resolved to the same
class in every later state, and then nothing has to be loaded or made any more: the class area stays
as it is.
-/

namespace Linkage

open Relation

namespace Resolver

variable {α β : Type}

/-- Whenever the first resolution has given a value, the second one gives it in every later state
and changes nothing. -/
def Repeats (x y : ResolutionM α) : Prop :=
  ∀ r v r', r.area.Sound → Gives x r v r' → ∀ q, Evolves r' q → Gives y q v q

lemma repeats_pure (v : α) : Repeats (pure v) (pure v) := by
  rintro r w r' - hv q -
  exact gives_pure.2 ⟨(gives_pure.1 hv).1, rfl⟩

lemma repeats_fail (e : Fault) (y : ResolutionM α) : Repeats (fail e) y :=
  fun _ _ _ _ hv => absurd hv gives_fail

lemma Repeats.counted {x y : ResolutionM α} (h : Repeats x y) : Repeats (counted x) (counted y) :=
  fun r v r' hr hv q hq => gives_counted.2 (h r v r' hr (gives_counted.1 hv) q hq)

lemma Repeats.bind {x y : ResolutionM α} {f g : α → ResolutionM β} (h : Repeats x y)
    (hx : Built x.run) (hf : ∀ v, Repeats (f v) (g v)) (hbuilt : ∀ v, Built (f v).run) :
    Repeats (x >>= f) (y >>= g) := by
  intro r v r' hr hv q hq
  obtain ⟨w, s, hw, hv⟩ := gives_bind.1 hv
  have hs := (hw.evolves hx hr).sound hr
  have hlater := hv.evolves (hbuilt w) hs
  exact gives_bind.2 ⟨w, q, h r w s hr hw q (hlater.trans hq), hf w s v r' hs hv q hq⟩

/-- An operation on the area that a later one repeats. -/
lemma repeats_perform {x y : AreaM α}
    (h : ∀ a v b, a.Sound → x a = .ok v b → ∀ c, ReflTransGen Area.Step b c → y c = .ok v c) :
    Repeats (perform x) (perform y) := by
  intro r v r' hr hv q hq
  obtain ⟨b, hb, rfl⟩ := gives_perform.1 hv
  exact gives_perform.2 ⟨q.area, h r.area v b hr hb q.area hq.area, rfl⟩

/-! ### Names -/

lemma repeats_arrayOf (component : Class) :
    Repeats (perform (Area.arrayOf component)) (perform (Area.arrayOf component)) := by
  refine repeats_perform fun a c b ha hc d hd => Area.arrayOf_of_published ?_
  have hb : b.Sound := by
    have hsteps := Area.arrayOf_steps component a
    rw [finalState_of_ok hc] at hsteps
    exact Area.sound_stable_quiet.reflTransGen (Area.ArrayStep.quietly hsteps) ha
  exact Area.kept_of_steps hd hb (Area.published?_of_arrayOf hc)

lemma repeats_load_short (l : LoaderId) {name : String} (hname : IsShortArray name) :
    Repeats (perform (Area.load l name)) (perform (Area.load l name)) := by
  refine repeats_perform fun a c b ha hc d hd => ?_
  obtain ⟨rfl, -⟩ := Area.load_short_again .refl ha hname hc
  exact (Area.load_short_again hd ha hname hc).2

lemma gives_resolvePlain_of_published {l : LoaderId} {name : String} {c : Class} {q : Resolver}
    (h : q.area.published? l name = some c) (mode : ResolveMode) :
    Gives (resolvePlain l mode name) q c q := by
  refine gives_bind.2 ⟨some c, q, gives_perform.2 ⟨q.area, ?_, rfl⟩, gives_pure.2 ⟨rfl, rfl⟩⟩
  change EStateM.Result.ok (q.area.published? l name) q.area = _
  rw [h]

/-- Whatever class a plain name meant once, the loader has it. -/
lemma published?_of_resolvePlain {l : LoaderId} {mode : ResolveMode} {name : String} {c : Class}
    {r r' : Resolver} (hplain : IsPlain name) (hr : r.area.Sound)
    (h : Gives (resolvePlain l mode name) r c r') : r'.area.published? l name = some c := by
  obtain ⟨found, s, hfound, h⟩ := gives_bind.1 h
  obtain ⟨a, ha, rfl⟩ := gives_perform.1 hfound
  have hpublished : a = r.area ∧ found = r.area.published? l name := by
    cases ha
    exact ⟨rfl, rfl⟩
  obtain ⟨rfl, rfl⟩ := hpublished
  cases hc : r.area.published? l name with
  | some c' =>
    rw [hc] at h
    obtain ⟨rfl, rfl⟩ := gives_pure.1 h
    exact hc
  | none =>
    rw [hc] at h
    cases mode with
    | lazy => exact absurd h gives_defer
    | eager =>
      obtain ⟨b, hb, rfl⟩ := gives_perform.1 h
      exact Area.published?_of_load hplain hr hb

lemma repeats_resolvePlain (l : LoaderId) (mode mode' : ResolveMode) {name : String}
    (hplain : IsPlain name) : Repeats (resolvePlain l mode name) (resolvePlain l mode' name) := by
  intro r c r' hr hc q hq
  have hr' := (hc.evolves (built_resolvePlain l mode name) hr).sound hr
  exact gives_resolvePlain_of_published
    (Area.kept_of_steps hq.area hr' (published?_of_resolvePlain hplain hr hc)) mode'

/-- The class of a name that is no plain one: found among the arrays over primitive types, or made
over its component. -/
lemma repeats_array (l : LoaderId) {name : String} (hname : ¬ IsPlain name) {short : Bool}
    (hshort : short = true → name.utf8ByteSize = 2) {x y : ResolutionM Class} (h : Repeats x y)
    (hx : Built x.run) :
    Repeats
      (if short then perform (Area.load l name) else x >>= fun c => perform (Area.arrayOf c))
      (if short then perform (Area.load l name) else y >>= fun c => perform (Area.arrayOf c)) := by
  cases short with
  | true => exact repeats_load_short l ⟨hname, hshort rfl⟩
  | false => exact h.bind hx repeats_arrayOf built_arrayOf

lemma repeats_resolveSpelled (l : LoaderId) (mode mode' : ResolveMode) (name : String) :
    Repeats (resolveSpelled l mode (.ofName name)) (resolveSpelled l mode' (.ofName name)) := by
  unfold Spelling.ofName
  fun_induction Spelling.ofChars name.toList with
  | case1 rest hhead ih =>
    exact repeats_array l (not_isPlain_bracket rest) Spelling.isShort_iff.1 ih
      (built_resolveSpelled _ _ _)
  | case2 rest hhead element helement hlt ih =>
    exact repeats_array l (not_isPlain_bracket rest) Spelling.isShort_iff.1 ih
      (built_resolveSpelled _ _ _)
  | case3 rest hhead helement =>
    unfold resolveSpelled
    split
    · next hs => exact repeats_load_short l ⟨not_isPlain_bracket rest, Spelling.isShort_iff.1 hs⟩
    · exact repeats_fail _ _
  | case4 rest hnested hobject =>
    exact repeats_array l (not_isPlain_bracket rest) Spelling.isShort_iff.1
      (repeats_resolvePlain l mode mode' (isPlain_ofList.2 hnested)) (built_resolvePlain _ _ _)
  | case5 cs hplain => exact repeats_resolvePlain l mode mode' (isPlain_of_forall hplain)

lemma gives_effective {mode : ResolveMode} {r r' : Resolver} {m : ResolveMode} :
    Gives (effective mode) r m r' ↔ m = (if r.config.eager then .eager else mode) ∧ r' = r := by
  unfold effective
  simp only [gives_bind, gives_current, gives_pure]
  constructor
  · rintro ⟨_, _, ⟨rfl, rfl⟩, rfl, rfl⟩
    exact ⟨rfl, rfl⟩
  · rintro ⟨rfl, rfl⟩
    exact ⟨_, _, ⟨rfl, rfl⟩, rfl, rfl⟩

lemma repeats_resolveName (referer : Class) (method : Option MethodHandle) (name : String)
    (mode mode' : ResolveMode) (check : Bool) :
    Repeats (resolveName referer method name mode check)
      (resolveName referer method name mode' check) := by
  intro r c r' hr hc q hq
  obtain ⟨m, s, hm, hspelled⟩ := gives_bind.1 hc
  obtain ⟨-, rfl⟩ := gives_effective.1 hm
  refine gives_bind.2 ⟨_, q, gives_effective.2 ⟨rfl, rfl⟩, ?_⟩
  refine Repeats.bind (repeats_resolveSpelled referer.loader m _ name) (built_resolveSpelled _ _ _)
    (fun c => ?_) (fun c => ?_) s c r' hr hspelled q hq
  · split
    · exact repeats_fail _ _
    · exact repeats_pure c
  · split
    · exact closed_built.fail _
    · exact closed_built.option_pure c

lemma repeats_resolveMention (m : Mention) (mode mode' : ResolveMode) :
    Repeats (resolveMention m mode) (resolveMention m mode') := by
  cases m with
  | loaded c => exact repeats_pure c
  | symbolic r => exact repeats_resolveName _ _ _ _ _ _

/-! ### Checks -/

lemma repeats_checkMembers (referer type : Class) (reversed : Bool) (mode mode' : ResolveMode)
    (kind : FaultKind) (set : SubtypeSet) :
    Repeats (checkMembers referer type reversed mode kind set)
      (checkMembers referer type reversed mode' kind set) := by
  induction set with
  | nil => exact repeats_pure ()
  | cons m ms ih =>
    -- Once both classes are known, nothing is looked up to compare them.
    have hanswer : ∀ value dest : Class,
        Repeats
          (perform ((ValueType.ofMention (.loaded value)).assignableToClass (.loaded dest)))
          (perform ((ValueType.ofMention (.loaded value)).assignableToClass (.loaded dest))) := by
      intro value dest
      rw [assignableToClass_loaded]
      exact repeats_perform fun a v b _ hv c _ => by cases hv; rfl
    unfold checkMembers
    refine (repeats_resolveMention m mode mode').counted.bind
      (closed_built.counted (covers_built.resolveMention m mode)) (fun c => ?_) (fun c => ?_)
    · refine (hanswer _ _).bind (built_arrays (ValueType.makesArrays_assignableToClass _ _))
        (fun answer => ?_) (fun answer => ?_)
      · split
        · exact ih
        · exact repeats_fail _ _
      · split
        · exact covers_built.checkMembers _ _ _ _ _ _
        · exact closed_built.fail _
    · refine closed_built.option_bind (built_arrays (ValueType.makesArrays_assignableToClass _ _))
        fun answer => ?_
      split
      · exact covers_built.checkMembers _ _ _ _ _ _
      · exact closed_built.fail _

lemma repeats_checkSubtypes (referer : Class) (set : SubtypeSet) (type : Mention) (reversed : Bool)
    (mode mode' : ResolveMode) (kind : FaultKind) :
    Repeats (checkSubtypes referer set type reversed mode kind)
      (checkSubtypes referer set type reversed mode' kind) := by
  unfold checkSubtypes
  split
  · exact repeats_pure ()
  · refine (repeats_resolveMention type mode mode').counted.bind
      (closed_built.counted (covers_built.resolveMention type mode)) (fun c => ?_) (fun c => ?_)
    · split
      · exact repeats_pure ()
      · exact repeats_checkMembers _ _ _ _ _ _ _
    · split
      · exact closed_built.option_pure _
      · exact covers_built.checkMembers _ _ _ _ _ _

/-- A use of a class that was resolved once is resolved to the same class from then on, and nothing
changes but for what is counted and reported. -/
lemma gives_resolveClass_again {u : ClassUse} {mode : ResolveMode} {r r' q : Resolver} {c : Class}
    (hr : r.area.Sound) (h : Gives (resolveClass u mode) r c r') (hq : Evolves r' q)
    (mode' : ResolveMode) :
    Gives (resolveClass u mode') q c (q.classAsked.reported u.text c.name) := by
  obtain ⟨r₁, r₂, hname, hvalues, rfl⟩ := gives_resolveClass.1 h
  have hr₁ : r₁.area.Sound := (hname.evolves (covers_built.resolveName _ _ _ _ _) hr).sound hr
  have hchecked := hvalues.evolves (covers_built.checkSubtypes _ _ _ _ _ _) hr₁
  have hlater : Evolves r₂ q.classAsked := ⟨hq.area, hq.config⟩
  refine gives_resolveClass.2 ⟨q.classAsked, q.classAsked, ?_, ?_, rfl⟩
  · exact repeats_resolveName _ _ _ mode mode' true r.classAsked c _ hr hname _
      (hchecked.trans hlater)
  · exact repeats_checkSubtypes _ _ _ _ mode mode' _ _ _ _ hr₁ hvalues _ hlater

end Resolver

end Linkage
