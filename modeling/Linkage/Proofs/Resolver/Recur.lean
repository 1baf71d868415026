import Linkage.Proofs.Resolver.Regular

/-!
# Failures that come again

When a lazy resolution fails, everything that it needed up to the check that failed was there. In a
later state it is there again, so the checks before pass, and the one that failed fails for the same
reason, whether classes may be loaded by then or not.
-/

namespace Linkage

open Relation

namespace Resolver

variable {α β : Type} {r r' q s : Resolver} {e : Fault}

/-! ### Failing -/

/-- From one state a resolution fails with a fault and ends in another. -/
def Fails (x : ResolutionM α) (r : Resolver) (e : Fault) (r' : Resolver) : Prop :=
  x.run r = .error e r'

/-- Whether a resolution fails with a fault and in a state that a test accepts. -/
def failsWhere (x : ResolutionM α) (accept : Fault → Resolver → Bool) (r : Resolver) : Bool :=
  match x.run r with
  | .error e r' => accept e r'
  | .ok .. => false

lemma exists_fails {x : ResolutionM α} {accept : Fault → Resolver → Bool}
    (h : failsWhere x accept r = true) : ∃ e r', Fails x r e r' ∧ accept e r' = true := by
  unfold failsWhere at h
  split at h
  · next e r' hx => exact ⟨e, r', hx, h⟩
  · cases h

lemma fails_bind {x : ResolutionM α} {f : α → ResolutionM β} :
    Fails (x >>= f) r e r' ↔ Fails x r e r' ∨ ∃ v s, Gives x r v s ∧ Fails (f v) s e r' := by
  have hrun : (x >>= f).run = x.run >>= fun o => o.elim (pure none) fun w => (f w).run := by
    rw [OptionT.run_bind]
    rfl
  unfold Fails Gives
  rw [hrun, bind_eq_error]
  refine or_congr_right ⟨?_, ?_⟩
  · rintro ⟨_ | v, s, hx, hf⟩
    · cases hf
    · exact ⟨v, s, hx, hf⟩
  · rintro ⟨v, s, hx, hf⟩
    exact ⟨some v, s, hx, hf⟩

@[simp] lemma fails_pure {v : α} : ¬ Fails (pure v) r e r' := by
  rintro ⟨⟩

@[simp] lemma fails_defer : ¬ Fails (defer : ResolutionM α) r e r' := by
  rintro ⟨⟩

@[simp] lemma fails_current : ¬ Fails current r e r' := by
  rintro ⟨⟩

lemma fails_fail {f : Fault} : Fails (fail f : ResolutionM α) r e r' ↔ f = e ∧ r = r' := by
  change EStateM.Result.error f r = .error e r' ↔ _
  simp

@[simp] lemma fails_counted {x : ResolutionM α} : Fails (counted x) r e r' ↔ Fails x r e r' := by
  unfold Fails counted
  rw [OptionT.run_mk, bind_eq_error]
  refine ⟨?_, .inl⟩
  rintro (h | ⟨_ | v, s, -, h⟩)
  · exact h
  · cases h
  · cases h

lemma fails_lift {x : ResolverM α} : Fails (OptionT.lift x) r e r' ↔ x r = .error e r' := by
  unfold Fails OptionT.lift
  rw [OptionT.run_mk, bind_eq_error]
  refine ⟨?_, .inl⟩
  rintro (h | ⟨v, s, -, h⟩)
  · exact h
  · cases h

lemma onArea_eq_error {x : AreaM α} :
    onArea x r = .error e r' ↔ ∃ a, x r.area = .error e a ∧ r' = { r with area := a } := by
  unfold onArea
  cases x r.area <;> simp [eq_comm, and_comm]

lemma fails_perform {x : AreaM α} :
    Fails (perform x) r e r' ↔ ∃ a, x r.area = .error e a ∧ r' = { r with area := a } := by
  rw [perform, fails_lift, onArea_eq_error]

@[simp] lemma fails_count {f : ResolverStats → ResolverStats} : ¬ Fails (count f) r e r' := by
  rintro ⟨⟩

@[simp] lemma fails_report {what result : String} : ¬ Fails (report what result) r e r' := by
  rintro ⟨⟩

/-! ### Failing again -/

/-- If the first resolution fails in a state, the second fails with the same fault in every regular
state that comes later. -/
def FailsAgain (r : Resolver) (x y : ResolutionM α) : Prop :=
  ∀ e r', Fails x r e r' →
    Evolves r r' ∧ ∀ q, Evolves r' q → q.area.Regular → ∃ q', Fails y q e q'

lemma failsAgain_of_not {x : ResolutionM α} (h : ∀ e r', ¬ Fails x r e r') (y : ResolutionM α) :
    FailsAgain r x y :=
  fun e r' hfails => absurd hfails (h e r')

lemma failsAgain_fail (f : Fault) : FailsAgain r (fail f : ResolutionM α) (fail f) := by
  intro e r' hfails
  obtain ⟨rfl, rfl⟩ := fails_fail.1 hfails
  exact ⟨.refl r, fun q _ _ => ⟨q, fails_fail.2 ⟨rfl, rfl⟩⟩⟩

lemma FailsAgain.counted {x y : ResolutionM α} (h : FailsAgain r x y) :
    FailsAgain r (counted x) (counted y) := by
  intro e r' hfails
  obtain ⟨hlater, hagain⟩ := h e r' (fails_counted.1 hfails)
  exact ⟨hlater, fun q hq hregular => (hagain q hq hregular).imp fun _ => fails_counted.2⟩

/-- Where the first of two steps fails, it fails again; and where the second fails, the first gives
again what it gave. -/
lemma FailsAgain.bind {x y : ResolutionM α} {f g : α → ResolutionM β} (hx : FailsAgain r x y)
    (hr : r.area.Sound) (hbuilt : Built x.run) (hrepeats : Repeats x y)
    (h : ∀ v s, Gives x r v s → FailsAgain s (f v) (g v)) : FailsAgain r (x >>= f) (y >>= g) := by
  intro e r' hfails
  rcases fails_bind.1 hfails with hfirst | ⟨v, s, hv, hsecond⟩
  · obtain ⟨hlater, hagain⟩ := hx e r' hfirst
    exact ⟨hlater, fun q hq hregular => (hagain q hq hregular).imp fun _ h => fails_bind.2 (.inl h)⟩
  · obtain ⟨hlater, hagain⟩ := h v s hv e r' hsecond
    refine ⟨(hv.evolves hbuilt hr).trans hlater, fun q hq hregular => ?_⟩
    obtain ⟨q', hq'⟩ := hagain q hq hregular
    exact ⟨q', fails_bind.2 (.inr ⟨v, q, hrepeats r v s hr hv q (hlater.trans hq), hq'⟩)⟩

/-- Where the second of two steps does not fail, it is the first that does. -/
lemma FailsAgain.bind_of_not {x y : ResolutionM α} {f g : α → ResolutionM β}
    (hx : FailsAgain r x y) (hf : ∀ v s, Gives x r v s → ∀ e r', ¬ Fails (f v) s e r') :
    FailsAgain r (x >>= f) (y >>= g) := by
  intro e r' hfails
  rcases fails_bind.1 hfails with hfirst | ⟨v, s, hv, hsecond⟩
  · obtain ⟨hlater, hagain⟩ := hx e r' hfirst
    exact ⟨hlater, fun q hq hregular => (hagain q hq hregular).imp fun _ h => fails_bind.2 (.inl h)⟩
  · exact absurd hsecond (hf v s hv e r')

lemma Fails.evolves {x : ResolutionM α} (h : Fails x r e r') (hx : Built x.run)
    (hr : r.area.Sound) : Evolves r r' := by
  rw [← finalState_of_error h]
  exact hx.evolves hr

end Resolver

/-! ### Arrays of too many dimensions -/

namespace Area

variable {a b : Area} {c : Class}

/-- There is no array class over one of the greatest dimension. -/
lemma Tidy.published?_over_full (h : a.Tidy) (hc : a.Owned c) (hdim : c.dimension = maxDimension) :
    a.published? c.loader c.arrayName = none := by
  have harray : c.isArray = true := by
    cases c with
    | root | derived => cases hdim
    | primitiveArray | array => rfl
  have hname : c.arrayName = String.ofList ('[' :: c.name.toList) := by
    rw [Class.arrayName_of_isArray harray, ← String.toList_inj]
    simp
  cases hx : a.published? c.loader c.arrayName with
  | none => rfl
  | some x =>
    have hxname := h.sound.keyed _ _ x hx
    have hxarray := h.arrays _ _ x hx (not_isPlain_arrayName c)
    have hxlinked := h.linked x (h.rooted _ _ x hx).owned
    match x with
    | .root _ => cases hxarray
    | .derived .. => cases hxarray
    | .primitiveArray _ _ _ p =>
      have hsize : p.arrayName.utf8ByteSize = 2 := by cases p <;> decide
      have hlong := Class.two_le_of_isArray harray
      change p.arrayName = c.arrayName at hxname
      rw [hxname, Class.arrayName_of_isArray harray, String.utf8ByteSize_append,
        show "[".utf8ByteSize = 1 from rfl] at hsize
      omega
    | .array d s is e =>
      obtain ⟨hloader, hknown⟩ := h.component _ _ d s is e hx
      have hbracket := not_not.1 (Class.not_isPlain_of_isArray harray)
      have hename : e.name = c.name := by
        have heq : e.arrayName = c.arrayName := hxname
        rw [Class.name_of_nested (heq.trans hname) hbracket, String.ofList_toList]
      have howned : a.Owned e := by
        refine hknown.resolve_right fun hstub => ?_
        have hplain := h.stub.2.1
        rw [← hstub, hename] at hplain
        exact Class.not_isPlain_of_isArray harray hplain
      rw [howned.eq_of_name hc hename hloader] at hxlinked
      exact absurd hdim (Nat.ne_of_lt hxlinked.1)

/-- Asking for an array class over a class that is there fails only if it had too many
dimensions. -/
lemma Tidy.arrayOf_eq_error (h : a.Tidy) (hc : a.Owned c) {e : Fault} :
    arrayOf c a = .error e b ↔
      c.dimension = maxDimension ∧ e = .tooManyDimensions c.arrayName ∧ b = a := by
  have hfull : c.dimension = maxDimension →
      arrayOf c a = .error (.tooManyDimensions c.arrayName) a := by
    intro hdim
    unfold arrayOf
    rw [bind_of_ok (get_apply a)]
    simp only [h.published?_over_full hc hdim]
    refine bind_of_error ?_
    simp only [makeArray, hdim, if_true]
    rfl
  constructor
  · intro hrun
    rcases arrayOf_cases c a with ⟨d, hd, hrun'⟩ | ⟨hnone, ⟨hdim, -⟩ | ⟨hl, -⟩ | ⟨-, -, hrun'⟩⟩
    · rw [hrun] at hrun'
      cases hrun'
    · rw [hfull hdim] at hrun
      cases hrun
      exact ⟨hdim, rfl, rfl⟩
    · have hsome := hc.loader_isSome
      rw [hl] at hsome
      cases hsome
    · rw [hrun] at hrun'
      cases hrun'
  · rintro ⟨hdim, rfl, rfl⟩
    exact hfull hdim

end Area

namespace Resolver

variable {r r' q s : Resolver} {e : Fault}

/-! ### Names -/

lemma failsAgain_load_short (l : LoaderId) {name : String} (hname : IsShortArray name)
    (hr : r.area.Sound) :
    FailsAgain r (perform (Area.load l name)) (perform (Area.load l name)) := by
  intro e r' hfails
  refine ⟨hfails.evolves (built_perform (Area.performs_load l name)) hr, fun q hq _ => ?_⟩
  obtain ⟨a, ha, rfl⟩ := fails_perform.1 hfails
  obtain ⟨rfl, -⟩ := Area.load_short_fails_again .refl hr hname ha
  exact ⟨_, fails_perform.2 ⟨q.area, (Area.load_short_fails_again hq.area hr hname ha).2, rfl⟩⟩

lemma failsAgain_arrayOf {c : Class} (hr : r.area.Tidy) (hc : r.area.Owned c) :
    FailsAgain r (perform (Area.arrayOf c)) (perform (Area.arrayOf c)) := by
  intro e r' hfails
  obtain ⟨a, ha, rfl⟩ := fails_perform.1 hfails
  obtain ⟨hdim, rfl, rfl⟩ := (hr.arrayOf_eq_error hc).1 ha
  refine ⟨.refl r, fun q hq hregular => ?_⟩
  have hcq : q.area.Owned c := Area.kept_of_steps hq.area hr.sound hc
  exact ⟨_, fails_perform.2 ⟨q.area, (hregular.tidy.arrayOf_eq_error hcq).2 ⟨hdim, rfl, rfl⟩, rfl⟩⟩

/-- A lazy question for a plain name does not fail. -/
lemma not_fails_resolvePlain (l : LoaderId) (name : String) (e : Fault) (r' : Resolver) :
    ¬ Fails (resolvePlain l .lazy name) r e r' := by
  intro h
  rcases fails_bind.1 h with hfind | ⟨v, s, -, h⟩
  · obtain ⟨a, ha, -⟩ := fails_perform.1 hfind
    cases ha
  · cases v with
    | none => exact fails_defer h
    | some c => exact fails_pure h

/-- The class of a name that is no plain one. -/
lemma failsAgain_array (l : LoaderId) {name : String} (hname : ¬ IsPlain name) {short : Bool}
    (hshort : short = true → name.utf8ByteSize = 2) {x y : ResolutionM Class} (hr : r.area.Tidy)
    (h : FailsAgain r x y) (hbuilt : Built x.run) (hrepeats : Repeats x y) (hhands : HandsOn x) :
    FailsAgain r
      (if short then perform (Area.load l name) else x >>= fun c => perform (Area.arrayOf c))
      (if short then perform (Area.load l name) else y >>= fun c => perform (Area.arrayOf c)) := by
  cases short with
  | true => exact failsAgain_load_short l ⟨hname, hshort rfl⟩ hr.sound
  | false =>
    refine h.bind hr.sound hbuilt hrepeats fun c s hc => ?_
    have hrooted := (hhands r hr).2 _ s hc c rfl
    exact failsAgain_arrayOf (hc.tidy hhands.tidies hr) hrooted.owned

lemma failsAgain_resolveSpelled (l : LoaderId) (mode : ResolveMode) (name : String)
    (hr : r.area.Tidy) :
    FailsAgain r (resolveSpelled l .lazy (.ofName name))
      (resolveSpelled l mode (.ofName name)) := by
  have hrepeats : ∀ cs, Repeats (resolveSpelled l .lazy (.ofChars cs))
      (resolveSpelled l mode (.ofChars cs)) := by
    intro cs
    have hname := repeats_resolveSpelled l .lazy mode (String.ofList cs)
    rwa [Spelling.ofName, String.toList_ofList] at hname
  unfold Spelling.ofName
  fun_induction Spelling.ofChars name.toList with
  | case1 rest hhead ih =>
    exact failsAgain_array l (not_isPlain_bracket rest) Spelling.isShort_iff.1 hr ih
      (built_resolveSpelled _ _ _) (hrepeats rest) (handsOn_resolveSpelled _ _ _)
  | case2 rest hhead element helement hlt ih =>
    exact failsAgain_array l (not_isPlain_bracket rest) Spelling.isShort_iff.1 hr ih
      (built_resolveSpelled _ _ _) (hrepeats element) (handsOn_resolveSpelled _ _ _)
  | case3 rest hhead helement =>
    unfold resolveSpelled
    split
    · next hs =>
      exact failsAgain_load_short l ⟨not_isPlain_bracket rest, Spelling.isShort_iff.1 hs⟩ hr.sound
    · exact failsAgain_fail _
  | case4 rest hnested hobject =>
    exact failsAgain_array l (not_isPlain_bracket rest) Spelling.isShort_iff.1 hr
      (failsAgain_of_not (not_fails_resolvePlain l _) _) (built_resolvePlain _ _ _)
      (repeats_resolvePlain l .lazy mode (isPlain_ofList.2 hnested)) (handsOn_resolvePlain _ _ _)
  | case5 cs hplain =>
    exact failsAgain_of_not (not_fails_resolvePlain l _) _

/-! ### Outcomes that are final -/

/-- A state that is regular and takes lazy questions as such. -/
structure Patient (r : Resolver) : Prop where
  regular : r.area.Regular
  lazy : r.config.eager = false

lemma Patient.sound (h : Patient r) : r.area.Sound := h.regular.sound

/-- Operations that lead from regular states to regular states that come after. -/
def Safe (x : ResolverM α) : Prop := Built x ∧ Keeps x

lemma covers_safe : Covers Safe := covers_built.and covers_keeps

lemma Patient.gives {x : ResolutionM α} {v : α} (hr : Patient r) (h : Gives x r v r')
    (hx : Safe x.run) : Patient r' := by
  have hregular := hx.2 r hr.regular
  rw [finalState_of_ok h] at hregular
  exact ⟨hregular, (h.evolves hx.1 hr.sound).config ▸ hr.lazy⟩

/-- What the first resolution comes to, a value or a fault, the second comes to from then on. -/
structure Final (x y : ResolutionM α) : Prop where
  safe : Safe x.run
  repeats : Repeats x y
  again : ∀ r, Patient r → FailsAgain r x y

lemma final_pure (v : α) : Final (pure v) (pure v) where
  safe := covers_safe.option_pure v
  repeats := repeats_pure v
  again _ _ := failsAgain_of_not (fun _ _ => fails_pure) _

lemma final_fail (f : Fault) : Final (fail f : ResolutionM α) (fail f) where
  safe := covers_safe.fail f
  repeats := repeats_fail f _
  again _ _ := failsAgain_fail f

lemma Final.counted {x y : ResolutionM α} (h : Final x y) : Final (counted x) (counted y) where
  safe := covers_safe.counted h.safe
  repeats := h.repeats.counted
  again r hr := (h.again r hr).counted

/-- A resolution that starts with a check the outcome of which is final. -/
lemma FailsAgain.bind_final {x y : ResolutionM α} {f g : α → ResolutionM β} (hr : Patient r)
    (hx : Final x y) (h : ∀ v s, Gives x r v s → Patient s → FailsAgain s (f v) (g v)) :
    FailsAgain r (x >>= f) (y >>= g) :=
  (hx.again r hr).bind hr.sound hx.safe.1 hx.repeats fun v s hv => h v s hv (hr.gives hv hx.safe)

lemma Final.bind {x y : ResolutionM α} {f g : α → ResolutionM β} (hx : Final x y)
    (hf : ∀ v, Final (f v) (g v)) : Final (x >>= f) (y >>= g) where
  safe := covers_safe.option_bind hx.safe fun v => (hf v).safe
  repeats := hx.repeats.bind hx.safe.1 (fun v => (hf v).repeats) fun v => (hf v).safe.1
  again _ hr := .bind_final hr hx fun v s _ hs => (hf v).again s hs

/-! ### Checks -/

section

variable (mode : ResolveMode)

lemma final_resolveName (referer : Class) (method : Option MethodHandle) (name : String)
    (check : Bool) :
    Final (resolveName referer method name .lazy check)
      (resolveName referer method name mode check) where
  safe := covers_safe.resolveName _ _ _ _ _
  repeats := repeats_resolveName _ _ _ _ _ _
  again r hr := by
    intro e r' hfails
    rcases fails_bind.1 hfails with hnever | ⟨m, s, hm, hclass⟩
    · rcases fails_bind.1 hnever with h | ⟨_, _, -, h⟩
      · exact absurd h fails_current
      · exact absurd h fails_pure
    obtain ⟨rfl, rfl⟩ := gives_effective.1 hm
    rw [hr.lazy, if_neg Bool.false_ne_true] at hclass
    have haccess : ∀ mode' : ResolveMode, FailsAgain s
        (do
          let c ← resolveSpelled referer.loader .lazy (.ofName name)
          if check && !referer.canAccess c then
            fail (.classInaccessible referer.name (method.map MethodHandle.text) c.name)
          else return c)
        (do
          let c ← resolveSpelled referer.loader mode' (.ofName name)
          if check && !referer.canAccess c then
            fail (.classInaccessible referer.name (method.map MethodHandle.text) c.name)
          else return c) := by
      intro mode'
      refine (failsAgain_resolveSpelled _ mode' name hr.regular.tidy).bind hr.sound
        (built_resolveSpelled _ _ _) (repeats_resolveSpelled _ _ _ _) fun c s' _ => ?_
      split
      · exact failsAgain_fail _
      · exact failsAgain_of_not (fun _ _ => fails_pure) _
    refine ⟨(haccess mode e r' hclass).1, fun q hq hregular => ?_⟩
    obtain ⟨q', hq'⟩ :=
      (haccess (if q.config.eager then .eager else mode) e r' hclass).2 q hq hregular
    exact ⟨q', fails_bind.2 (.inr ⟨_, q, gives_effective.2 ⟨rfl, rfl⟩, hq'⟩)⟩

lemma final_resolveMention (m : Mention) :
    Final (resolveMention m .lazy) (resolveMention m mode) := by
  cases m with
  | loaded c => exact final_pure c
  | symbolic r => exact final_resolveName mode _ _ _ _

lemma final_checkMembers (referer type : Class) (reversed : Bool) (kind : FaultKind)
    (set : SubtypeSet) :
    Final (checkMembers referer type reversed .lazy kind set)
      (checkMembers referer type reversed mode kind set) := by
  induction set with
  | nil => exact final_pure ()
  | cons m ms ih =>
    have hanswer : ∀ value dest : Class,
        Final (perform ((ValueType.ofMention (.loaded value)).assignableToClass (.loaded dest)))
          (perform ((ValueType.ofMention (.loaded value)).assignableToClass (.loaded dest))) := by
      intro value dest
      rw [assignableToClass_loaded]
      exact final_pure _
    unfold checkMembers
    refine (final_resolveMention mode m).counted.bind fun c => (hanswer _ _).bind fun answer => ?_
    split
    · exact ih
    · exact final_fail _

lemma final_checkSubtypes (referer : Class) (set : SubtypeSet) (type : Mention) (reversed : Bool)
    (kind : FaultKind) :
    Final (checkSubtypes referer set type reversed .lazy kind)
      (checkSubtypes referer set type reversed mode kind) := by
  unfold checkSubtypes
  split
  · exact final_pure ()
  · refine (final_resolveMention mode type).counted.bind fun c => ?_
    split
    · exact final_pure ()
    · exact final_checkMembers mode _ _ _ _ _

lemma final_checkAccess (referer declaring : Class) (flags : Flags) (isStatic : Bool)
    (instances : SubtypeSet) (member : String) :
    Final (checkAccess referer declaring flags isStatic instances .lazy member)
      (checkAccess referer declaring flags isStatic instances mode member) := by
  unfold checkAccess
  split
  · exact final_pure ()
  · exact final_fail _
  · refine (final_checkSubtypes mode _ _ _ _ _).counted.bind fun _ => ?_
    split
    · exact (final_checkSubtypes mode _ _ _ _ _).counted
    · exact final_pure ()

lemma final_checkArguments (referer : Class) (ps : List FieldType) (ss : List SubtypeSet) :
    Final (checkArguments referer .lazy ps ss) (checkArguments referer mode ps ss) := by
  induction ps generalizing ss with
  | nil => exact final_pure ()
  | cons p ps ih =>
    cases ss with
    | nil => exact final_pure ()
    | cons s ss =>
      unfold checkArguments
      dsimp only
      split
      · exact (final_checkSubtypes mode _ _ _ _ _).counted.bind fun _ => ih ss
      · exact ih ss

lemma final_resolveContainer (ref : ClassRef) (method : MethodHandle) :
    Final (resolveContainer ref method .lazy) (resolveContainer ref method mode) :=
  (final_resolveName mode _ _ _ _).counted

end

/-- Counting questions makes no difference. -/
lemma FailsAgain.count {f : ResolverStats → ResolverStats} {x y : ResolutionM α}
    (h : FailsAgain { r with stats := f r.stats } x y) :
    FailsAgain r (do count f; x) (do count f; y) := by
  intro e r' hfails
  rcases fails_bind.1 hfails with hcount | ⟨_, s, hcount, hfails⟩
  · exact absurd hcount fails_count
  obtain rfl := gives_count.1 hcount
  obtain ⟨hlater, hagain⟩ := h e r' hfails
  refine ⟨⟨hlater.area, hlater.config⟩, fun q hq hregular => ?_⟩
  obtain ⟨q', hq'⟩ := hagain { q with stats := f q.stats } ⟨hq.area, hq.config⟩ hregular
  exact ⟨q', fails_bind.2 (.inr ⟨(), _, gives_count.2 rfl, hq'⟩)⟩

lemma not_fails_reported (what result : String) (v : α) (e : Fault) (r' : Resolver) :
    ¬ Fails (do report what result; pure v) r e r' := by
  intro h
  rcases fails_bind.1 h with h | ⟨_, _, -, h⟩
  · exact fails_report h
  · exact fails_pure h

/-- A use of a class that cannot be resolved lazily can never be resolved. -/
lemma failsAgain_resolveClass (u : ClassUse) (mode : ResolveMode) (hr : Patient r) :
    FailsAgain r (resolveClass u .lazy) (resolveClass u mode) := by
  refine .count (.bind_final ⟨hr.regular, hr.lazy⟩ (final_resolveName mode _ _ _ _).counted
    fun c s _ hs => ?_)
  exact .bind_of_not ((final_checkSubtypes mode _ _ _ _ _).counted.again s hs) fun _ _ _ =>
    not_fails_reported _ _ _

end Resolver

end Linkage
