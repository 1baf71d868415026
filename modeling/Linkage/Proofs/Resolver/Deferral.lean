import Linkage.Proofs.Resolver.Laziness

/-!
# Counting deferrals

A question that is left open is counted where the class that it needs is missing, and once more by
every part of the resolver around that place. So a question counts once if the class that it names
is missing, twice if a class of a subtype check is, and three times if a class of such a check is
missing while the access to a protected member is checked.
-/

namespace Linkage

/-- What was counted, and a number of deferrals. -/
def ResolverStats.defer (s : ResolverStats) (k : Nat) : ResolverStats :=
  { s with deferred := s.deferred + k }

/-- The number of questions that were counted. -/
def ResolverStats.questions (s : ResolverStats) : Nat :=
  s.classes + s.fields + s.methods

namespace Resolver

variable {α β γ : Type}

@[simp] lemma deferred_defer (s : ResolverStats) (k : Nat) :
    (s.defer k).deferred = s.deferred + k := rfl

@[simp] lemma questions_defer (s : ResolverStats) (k : Nat) :
    (s.defer k).questions = s.questions := rfl

/-! ### Questions that are left open -/

section

variable {x : ResolutionM α} {f : α → ResolutionM β} {r s : Resolver}

lemma isLeftOpen_of_none (h : x.run r = .ok none s) : isLeftOpen x r = true := by
  rw [isLeftOpen, h]

lemma isLeftOpen_of_some {v : α} (h : x.run r = .ok (some v) s) : isLeftOpen x r = false := by
  rw [isLeftOpen, h]

lemma isLeftOpen_of_error {e : Fault} (h : x.run r = .error e s) : isLeftOpen x r = false := by
  rw [isLeftOpen, h]

lemma isLeftOpen_congr {y : ResolutionM α} (h : x.run r = y.run s) :
    isLeftOpen x r = isLeftOpen y s := by
  rw [isLeftOpen, isLeftOpen, h]

/-- What starts with a part that is left open is left open. -/
lemma isLeftOpen_bind (h : isLeftOpen x r = true) : isLeftOpen (x >>= f) r = true := by
  obtain ⟨s, hs⟩ := exists_of_isLeftOpen h
  exact isLeftOpen_of_none (run_bind_of_none hs)

lemma isLeftOpen_counted (x : ResolutionM α) (r : Resolver) :
    isLeftOpen (counted x) r = isLeftOpen x r := by
  rcases h : x.run r with ⟨_ | v, s⟩ | ⟨e, s⟩
  · rw [isLeftOpen_of_none h, isLeftOpen_of_none (run_counted_of_none h)]
  · rw [isLeftOpen_of_some h, isLeftOpen_of_some (run_counted_of_some h)]
  · rw [isLeftOpen_of_error h, isLeftOpen_of_error (run_counted_of_error h)]

end

/-! ### What is counted -/

/-- An operation that counts nothing. -/
def Uncounted (x : ResolverM α) : Prop :=
  ∀ r, (finalState x r).stats = r.stats

lemma uncounted_pure (v : α) : Uncounted (pure v) := fun _ => rfl

lemma uncounted_onArea (x : AreaM α) : Uncounted (onArea x) := by
  intro r
  unfold finalState onArea
  cases x r.area <;> rfl

lemma Uncounted.bind {x : ResolverM α} {f : α → ResolverM β} (hx : Uncounted x)
    (hf : ∀ v, Uncounted (f v)) : Uncounted (x >>= f) := fun r =>
  finalState_bind_keeps (P := fun s : Resolver => s.stats = r.stats) (hx r)
    fun v s _ hfirst => (hf v s).trans hfirst

/-- A resolution changes what was counted by `f`, and then counts deferrals: none, unless it is left
open. -/
structure Counts (f : ResolverStats → ResolverStats) (x : ResolutionM α)
    (deferrals : Resolver → Nat) : Prop where
  stats : ∀ r, (finalState x.run r).stats = (f r.stats).defer (deferrals r)
  answered : ∀ r, isLeftOpen x r = false → deferrals r = 0

/-- A resolution counts a fixed number of deferrals if it is left open, and nothing otherwise. -/
def Defers (d : Nat) (x : ResolutionM α) : Prop :=
  Counts id x fun r => if isLeftOpen x r then d else 0

section

variable {f : ResolverStats → ResolverStats} {d : Nat} {x : ResolutionM α}
  {g : α → ResolutionM β} {deferrals : Resolver → Nat}

lemma defers_iff : Defers d x ↔
    ∀ r, (finalState x.run r).stats = r.stats.defer (if isLeftOpen x r then d else 0) :=
  ⟨fun h => h.stats, fun h => ⟨h, fun r hr => by simp [hr]⟩⟩

/-- If a part is left open, nothing that follows counts. -/
lemma Counts.bind (hx : Counts f x deferrals) (hg : ∀ v, Defers d (g v)) :
    Counts f (x >>= g) fun r =>
      if isLeftOpen x r then deferrals r else if isLeftOpen (x >>= g) r then d else 0 where
  stats r := by
    have hfirst := hx.stats r
    rcases h : x.run r with ⟨_ | v, s⟩ | ⟨e, s⟩
    · rw [finalState_of_ok h] at hfirst
      rw [finalState_of_ok (run_bind_of_none h), if_pos (isLeftOpen_of_none h), hfirst]
    · have hopen := isLeftOpen_of_some h
      rw [finalState_of_ok h, hx.answered r hopen] at hfirst
      rw [finalState_congr (run_bind_of_some h), (hg v).stats s, hfirst, hopen,
        isLeftOpen_congr (run_bind_of_some h)]
      rfl
    · have hopen := isLeftOpen_of_error h
      rw [finalState_of_error h, hx.answered r hopen] at hfirst
      rw [finalState_of_error (run_bind_of_error h), hfirst, hopen,
        isLeftOpen_of_error (run_bind_of_error h)]
      rfl
  answered r hr := by
    have hopen : isLeftOpen x r = false := by
      by_contra hopen
      rw [isLeftOpen_bind (by simpa using hopen)] at hr
      cases hr
    simp [hopen, hr]

lemma Defers.bind (hx : Defers d x) (hg : ∀ v, Defers d (g v)) : Defers d (x >>= g) := by
  refine defers_iff.mpr fun r => ((Counts.bind hx hg).stats r).trans ?_
  cases hopen : isLeftOpen x r with
  | false => simp
  | true => simp [isLeftOpen_bind hopen]

/-- After a count of its own, a resolution counts what it counts. -/
lemma counts_count_bind {g : Unit → ResolutionM β} (hg : Defers d (g ())) :
    Counts f (count f >>= g) fun r => if isLeftOpen (count f >>= g) r then d else 0 where
  stats r := by
    have hrun : (count f >>= g).run r = (g ()).run { r with stats := f r.stats } := rfl
    rw [finalState_congr hrun, hg.stats, isLeftOpen_congr hrun]
    rfl
  answered r hr := by simp [hr]

/-- What is done under one more count of deferrals counts one more. -/
lemma Defers.counted (hx : Defers d x) : Defers (d + 1) (counted x) := by
  refine defers_iff.mpr fun r => ?_
  have hfirst := hx.stats r
  rw [isLeftOpen_counted]
  rcases h : x.run r with ⟨_ | v, s⟩ | ⟨e, s⟩
  · rw [finalState_of_ok h, isLeftOpen_of_none h] at hfirst
    rw [finalState_of_ok (run_counted_of_none h), isLeftOpen_of_none h, hfirst]
    rfl
  · rw [finalState_of_ok h, isLeftOpen_of_some h] at hfirst
    rw [finalState_of_ok (run_counted_of_some h), isLeftOpen_of_some h, hfirst]
    rfl
  · rw [finalState_of_error h, isLeftOpen_of_error h] at hfirst
    rw [finalState_of_error (run_counted_of_error h), isLeftOpen_of_error h, hfirst]
    rfl

/-- What is never left open and counts nothing suits any number of deferrals. -/
lemma defers_lift {x : ResolverM α} (hx : Uncounted x) : Defers d (OptionT.lift x) := by
  refine defers_iff.mpr fun r => ?_
  have hopen : isLeftOpen (OptionT.lift x) r = false := by
    by_contra hopen
    obtain ⟨s, hs⟩ := exists_of_isLeftOpen (by simpa using hopen)
    exact run_lift_ne_none x r s hs
  rw [finalState_lift, hx r, hopen]
  rfl

lemma defers_pure (v : α) : Defers d (pure v) := defers_iff.mpr fun _ => rfl

lemma defers_fail (e : Fault) : Defers d (fail e : ResolutionM α) := defers_iff.mpr fun _ => rfl

lemma defers_perform (x : AreaM α) : Defers d (perform x) := defers_lift (uncounted_onArea x)

lemma defers_report (what result : String) : Defers d (report what result) :=
  defers_lift fun _ => rfl

lemma defers_current : Defers d current := defers_lift fun _ => rfl

/-- Where the class is missing nothing is counted yet. -/
lemma defers_defer : Defers 0 (defer : ResolutionM α) := defers_iff.mpr fun _ => rfl

/-- A check that is made under a condition only. -/
lemma defers_check {p : Prop} [Decidable p] {x : ResolutionM Unit} {k : Unit → ResolutionM α}
    (hx : Defers d x) (hk : ∀ v, Defers d (k v)) : Defers d (if p then x >>= k else k ()) := by
  split
  · exact hx.bind hk
  · exact hk ()

end

/-! ### Names and checks -/

lemma defers_resolvePlain (l : LoaderId) (mode : ResolveMode) (name : String) :
    Defers 0 (resolvePlain l mode name) := by
  refine (defers_perform _).bind fun v => ?_
  match v, mode with
  | some c, _ => exact defers_pure c
  | none, .lazy => exact defers_defer
  | none, .eager => exact defers_perform _

lemma defers_resolveSpelled (l : LoaderId) (mode : ResolveMode) (s : Spelling) :
    Defers 0 (resolveSpelled l mode s) := by
  induction s with
  | plain name => exact defers_resolvePlain l mode name
  | nested name s ih =>
    unfold resolveSpelled
    split
    · exact defers_perform _
    · exact ih.bind fun c => defers_perform _
  | object name s ih =>
    unfold resolveSpelled
    split
    · exact defers_perform _
    · exact ih.bind fun c => defers_perform _
  | unclosed name =>
    unfold resolveSpelled
    split
    · exact defers_perform _
    · exact defers_fail _
  | bare name s =>
    unfold resolveSpelled
    split
    · exact defers_perform _
    · exact (defers_resolvePlain l mode s).bind fun c => defers_perform _

lemma defers_resolveName (referer : Class) (method : Option MethodHandle) (name : String)
    (mode : ResolveMode) (check : Bool) :
    Defers 0 (resolveName referer method name mode check) := by
  unfold resolveName effective
  refine (defers_current.bind fun _ => defers_pure _).bind fun m => ?_
  refine (defers_resolveSpelled _ m _).bind fun c => ?_
  split
  · exact defers_fail _
  · exact defers_pure c

lemma defers_resolveMention (m : Mention) (mode : ResolveMode) :
    Defers 0 (resolveMention m mode) := by
  cases m with
  | loaded c => exact defers_pure c
  | symbolic r => exact defers_resolveName _ _ _ _ _

lemma defers_resolveContainer (r : ClassRef) (method : MethodHandle) (mode : ResolveMode) :
    Defers 1 (resolveContainer r method mode) :=
  (defers_resolveName _ _ _ _ _).counted

lemma defers_checkMembers (referer type : Class) (reversed : Bool) (mode : ResolveMode)
    (kind : FaultKind) (set : SubtypeSet) :
    Defers 1 (checkMembers referer type reversed mode kind set) := by
  induction set with
  | nil => exact defers_pure ()
  | cons m ms ih =>
    unfold checkMembers
    refine (defers_resolveMention m mode).counted.bind fun c => ?_
    refine (defers_perform _).bind fun answer => ?_
    split
    · exact ih
    · exact defers_fail _

lemma defers_checkSubtypes (referer : Class) (set : SubtypeSet) (type : Mention) (reversed : Bool)
    (mode : ResolveMode) (kind : FaultKind) :
    Defers 1 (checkSubtypes referer set type reversed mode kind) := by
  unfold checkSubtypes
  split
  · exact defers_pure ()
  · refine (defers_resolveMention type mode).counted.bind fun c => ?_
    split
    · exact defers_pure ()
    · exact defers_checkMembers _ _ _ _ _ _

lemma defers_checkAccess (referer declaring : Class) (flags : Flags) (isStatic : Bool)
    (instances : SubtypeSet) (mode : ResolveMode) (member : String) :
    Defers 2 (checkAccess referer declaring flags isStatic instances mode member) := by
  unfold checkAccess
  split
  · exact defers_pure ()
  · exact defers_fail _
  · refine (defers_checkSubtypes _ _ _ _ _ _).counted.bind fun _ => ?_
    split
    · exact (defers_checkSubtypes _ _ _ _ _ _).counted
    · exact defers_pure ()

lemma defers_checkStored (u : FieldUse) (mode : ResolveMode) : Defers 1 (checkStored u mode) := by
  unfold checkStored
  split
  · exact defers_checkSubtypes _ _ _ _ _ _
  · exact defers_pure ()

lemma defers_checkArguments (referer : Class) (mode : ResolveMode) (ps : List FieldType)
    (ss : List SubtypeSet) : Defers 2 (checkArguments referer mode ps ss) := by
  induction ps generalizing ss with
  | nil => exact defers_pure ()
  | cons p ps ih =>
    cases ss with
    | nil => exact defers_pure ()
    | cons s ss =>
      unfold checkArguments
      dsimp only
      split
      · exact (defers_checkSubtypes _ _ _ _ _ _).counted.bind fun _ => ih ss
      · exact ih ss

lemma uncounted_constrainAll (declaring referer : Class) (names : List String) :
    Uncounted (constrainAll declaring referer names) := by
  have hget : Uncounted (get : ResolverM Resolver) := fun _ => rfl
  induction names with
  | nil => exact uncounted_pure ()
  | cons name names ih =>
    refine Uncounted.bind ?_ fun _ => ih
    unfold constrain
    refine hget.bind fun r => ?_
    split
    · exact (uncounted_onArea _).bind fun _ => uncounted_pure ()
    · exact uncounted_pure ()

lemma uncounted_devirtualize (m : MethodHandle) (instances : SubtypeSet) :
    Uncounted (devirtualize m instances) := by
  unfold devirtualize
  split
  · exact uncounted_pure m
  · split
    · refine (uncounted_onArea _).bind fun c => ?_
      split
      · split <;> exact uncounted_pure _
      · exact uncounted_pure m
    · exact uncounted_pure m

lemma defers_found {d : Nat} (found : Option MethodHandle) (fault : Fault) :
    Defers d (match found with
      | some m => pure m
      | none => fail fault : ResolutionM MethodHandle) := by
  cases found with
  | some m => exact defers_pure m
  | none => exact defers_fail _

lemma defers_lookupTarget {d : Nat} (container : Class) (target : MethodRef) :
    Defers d (lookupTarget container target) := by
  refine defers_current.bind fun r => ?_
  dsimp only
  split
  · exact defers_check (defers_fail _) fun _ => defers_found _ _
  · exact defers_check (defers_fail _) fun _ => defers_found _ _

/-! ### Where a question is left open -/

/-- How deep in a question the class is missing that leaves it open. -/
inductive Depth where
  /-- It is the class that is named, or that a member is named in. -/
  | named
  /-- It belongs to the check of a subtype set. -/
  | subtypes
  /-- It belongs to such a check within the check of access to a member. -/
  | access
  deriving DecidableEq, Repr

/-- How many deferrals are counted. -/
def Depth.deferrals : Depth → Nat
  | named => 1
  | subtypes => 2
  | access => 3

/-- Where a question is left open, given its first part, the part that comes before the check of
access, and the whole of it. -/
def openAt? (named : ResolutionM α) (suitable : ResolutionM β) (whole : ResolutionM γ)
    (r : Resolver) : Option Depth :=
  if isLeftOpen named r then some .named
  else if isLeftOpen suitable r then some .subtypes
  else if isLeftOpen whole r then some .access
  else none

section

variable {f : ResolverStats → ResolverStats} {x : ResolutionM α} {y : ResolutionM β}
  {z : ResolutionM γ} {g : α → ResolutionM β} {h : β → ResolutionM γ}

/-- A question is left open exactly if it is at some depth. -/
lemma isSome_openAt? (hy : y = x >>= g) (hz : z = y >>= h) (r : Resolver) :
    (openAt? x y z r).isSome = isLeftOpen z r := by
  have hxy : isLeftOpen x r = true → isLeftOpen y r = true := fun hx => hy ▸ isLeftOpen_bind hx
  have hyz : isLeftOpen y r = true → isLeftOpen z r = true := fun hy => hz ▸ isLeftOpen_bind hy
  unfold openAt?
  cases hx : isLeftOpen x r with
  | true => simp [hyz (hxy hx)]
  | false =>
    cases hy : isLeftOpen y r with
    | true => simp [hyz hy]
    | false => cases isLeftOpen z r <;> rfl

/-- A question counts deferrals by the depth at which it is left open. -/
lemma Counts.stages (hx : Counts f x fun r => if isLeftOpen x r then 1 else 0)
    (hy : y = x >>= g) (hz : z = y >>= h) (hg : ∀ v, Defers 2 (g v)) (hh : ∀ w, Defers 3 (h w))
    (r : Resolver) :
    (finalState z.run r).stats =
      (f r.stats).defer ((openAt? x y z r).elim 0 Depth.deferrals) := by
  have hcounts := (hx.bind hg).bind hh
  rw [← hy, ← hz] at hcounts
  rw [hcounts.stats r]
  unfold openAt?
  cases hfirst : isLeftOpen x r with
  | true =>
    have hsecond : isLeftOpen y r = true := hy ▸ isLeftOpen_bind hfirst
    simp [hsecond, Depth.deferrals]
  | false =>
    cases isLeftOpen y r with
    | true => simp [Depth.deferrals]
    | false => cases isLeftOpen z r <;> simp [Depth.deferrals]

end

/-- The first part of a question: one more is counted, and the class that is named, or that a member
is named in, is resolved. -/
def askNamed (tally : ResolverStats → ResolverStats) (target : ClassRef) (method : MethodHandle)
    (mode : ResolveMode) : ResolutionM Class := do
  count tally
  resolveContainer target method mode

lemma counts_askNamed (tally : ResolverStats → ResolverStats) (target : ClassRef)
    (method : MethodHandle) (mode : ResolveMode) :
    Counts tally (askNamed tally target method mode)
      fun r => if isLeftOpen (askNamed tally target method mode) r then 1 else 0 :=
  counts_count_bind (defers_resolveContainer target method mode)

/-- The field of a class that a use finds, when everything is checked that comes before the
access. -/
def suitField (u : FieldUse) (mode : ResolveMode) (container : Class) :
    ResolutionM FieldHandle := do
  let some field := container.lookupField? u.target.name u.target.descriptor
    | fail (.fieldMissing u.target.text)
  if field.field.isStatic ≠ u.isStatic then
    fail (.wrongStaticness u.isStatic s!"field {field.text}")
  if !u.isStatic then
    counted (checkSubtypes u.referer u.instances (.loaded field.owner) false mode .linkage)
  counted (checkStored u mode)
  return field

/-- The method of a class that a use finds, when everything is checked that comes before the
access. -/
def suitMethod (u : MethodUse) (mode : ResolveMode) (container : Class) :
    ResolutionM MethodHandle := do
  let m ← lookupTarget container u.target
  if m.method.isStatic ≠ u.isStatic then
    fail (.wrongStaticness u.isStatic s!"method {m.text}")
  if !u.isStatic then
    counted (checkSubtypes u.referer u.instances (.loaded container) false mode .linkage)
  checkArguments u.referer mode u.target.descriptor.parameters (u.arguments.getD [])
  return m

/-- What is left to do with a class that a use names. -/
def suitClass (u : ClassUse) (mode : ResolveMode) (c : Class) : ResolutionM Class := do
  counted (checkSubtypes u.referer u.values (.loaded c) false mode .linkage)
  report u.text c.name
  return c

/-- What is left to do with a method that suits its use. -/
def giveSuited (u : MethodUse) (mode : ResolveMode) (m : MethodHandle) :
    ResolutionM MethodHandle := do
  counted (checkAccess u.referer m.owner m.method.flags u.isStatic u.instances mode
    s!"method {m.text}")
  giveMethod u m

end Resolver

namespace Use

open Resolver

/-- What a question changes about what was counted, however it ends. -/
def tally : Use → ResolverStats → ResolverStats
  | ofClass _ => fun s => { s with classes := s.classes + 1 }
  | ofField _ => fun s => { s with fields := s.fields + 1 }
  | ofMethod _ => fun s => { s with methods := s.methods + 1 }

end Use

namespace Resolver

/-- The question about a class without the part that only reports its answer. -/
lemma resolveClass_eq (u : ClassUse) (mode : ResolveMode) :
    resolveClass u mode =
      askNamed (Use.ofClass u).tally u.target u.method mode >>= suitClass u mode := by
  unfold askNamed
  rw [bind_assoc]
  rfl

lemma resolveField_eq_bind (u : FieldUse) (mode : ResolveMode) :
    resolveField u mode =
      askNamed (Use.ofField u).tally u.target.container u.method mode >>= suitField u mode >>=
        giveField u mode := by
  rw [resolveField_eq]
  unfold askNamed suitField
  simp only [bind_assoc]
  refine congrArg _ (funext fun _ => congrArg _ (funext fun container => ?_))
  cases container.lookupField? u.target.name u.target.descriptor with
  | none => rfl
  | some field =>
    -- Both tests come out the same on either side.
    cases hstatic : field.field.isStatic <;> cases u.isStatic <;> simp [hstatic, bind_assoc]

lemma resolveMethod_eq_bind (u : MethodUse) (mode : ResolveMode) :
    resolveMethod u mode =
      askNamed (Use.ofMethod u).tally u.target.container u.method mode >>= suitMethod u mode >>=
        giveSuited u mode := by
  rw [resolveMethod_eq]
  unfold askNamed suitMethod giveSuited checkedMethod
  simp only [bind_assoc]
  refine congrArg _ (funext fun _ => congrArg _ (funext fun c => congrArg _ (funext fun m => ?_)))
  -- Both tests come out the same on either side.
  cases m.method.isStatic <;> cases u.isStatic <;> simp [bind_assoc]

lemma defers_suitClass (u : ClassUse) (mode : ResolveMode) (c : Class) :
    Defers 2 (suitClass u mode c) := by
  refine (defers_checkSubtypes _ _ _ _ _ _).counted.bind fun _ => ?_
  exact (defers_report _ _).bind fun _ => defers_pure c

lemma defers_suitField (u : FieldUse) (mode : ResolveMode) (container : Class) :
    Defers 2 (suitField u mode container) := by
  unfold suitField
  cases container.lookupField? u.target.name u.target.descriptor with
  | none => exact defers_fail _
  | some field =>
    refine defers_check (defers_fail _) fun _ => ?_
    refine defers_check (defers_checkSubtypes _ _ _ _ _ _).counted fun _ => ?_
    exact (defers_checkStored u mode).counted.bind fun _ => defers_pure field

lemma defers_suitMethod (u : MethodUse) (mode : ResolveMode) (container : Class) :
    Defers 2 (suitMethod u mode container) := by
  unfold suitMethod
  refine (defers_lookupTarget _ _).bind fun m => ?_
  refine defers_check (defers_fail _) fun _ => ?_
  refine defers_check (defers_checkSubtypes _ _ _ _ _ _).counted fun _ => ?_
  exact (defers_checkArguments _ _ _ _).bind fun _ => defers_pure m

lemma defers_giveField (u : FieldUse) (mode : ResolveMode) (field : FieldHandle) :
    Defers 3 (giveField u mode field) := by
  refine (defers_checkAccess _ _ _ _ _ _ _).counted.bind fun _ => ?_
  refine (defers_lift (uncounted_constrainAll _ _ _)).bind fun _ => ?_
  exact (defers_report _ _).bind fun _ => defers_pure field

lemma defers_giveSuited (u : MethodUse) (mode : ResolveMode) (m : MethodHandle) :
    Defers 3 (giveSuited u mode m) := by
  refine (defers_checkAccess _ _ _ _ _ _ _).counted.bind fun _ => ?_
  refine (defers_lift (uncounted_constrainAll _ _ _)).bind fun _ => ?_
  have hreport : ∀ target : MethodHandle, Defers 3 (do
      report u.text target.text
      return target) :=
    fun target => (defers_report _ _).bind fun _ => defers_pure target
  dsimp only
  split
  · exact (defers_pure m).bind hreport
  · exact (defers_lift (uncounted_devirtualize m u.instances)).bind hreport

end Resolver

/-! ### Sequences of questions -/

/-- A question, the mode in which it is asked, and the resolver that it is asked. -/
structure Inquiry where
  use : Use
  mode : ResolveMode
  before : Resolver

namespace Inquiry

open Resolver

/-- The resolver after the question was asked, whatever its answer is. -/
def after : Inquiry → Resolver
  | ⟨.ofClass u, mode, r⟩ => finalState (resolveClass u mode).run r
  | ⟨.ofField u, mode, r⟩ => finalState (resolveField u mode).run r
  | ⟨.ofMethod u, mode, r⟩ => finalState (resolveMethod u mode).run r

/-- Whether the question is left open. -/
def leftOpen : Inquiry → Bool
  | ⟨.ofClass u, mode, r⟩ => isLeftOpen (resolveClass u mode) r
  | ⟨.ofField u, mode, r⟩ => isLeftOpen (resolveField u mode) r
  | ⟨.ofMethod u, mode, r⟩ => isLeftOpen (resolveMethod u mode) r

/-- The depth at which the question is left open. No member is accessed by the use of a class. -/
def depth? : Inquiry → Option Depth
  | ⟨.ofClass u, mode, r⟩ =>
    openAt? (askNamed (Use.ofClass u).tally u.target u.method mode) (resolveClass u mode)
      (resolveClass u mode) r
  | ⟨.ofField u, mode, r⟩ =>
    let named := askNamed (Use.ofField u).tally u.target.container u.method mode
    openAt? named (named >>= suitField u mode) (resolveField u mode) r
  | ⟨.ofMethod u, mode, r⟩ =>
    let named := askNamed (Use.ofMethod u).tally u.target.container u.method mode
    openAt? named (named >>= suitMethod u mode) (resolveMethod u mode) r

/-- The number of deferrals that the question counts. -/
def deferrals (q : Inquiry) : Nat := q.depth?.elim 0 Depth.deferrals

/-- The number of deferrals that several questions count. -/
def totalDeferrals : List Inquiry → Nat
  | [] => 0
  | q :: qs => q.deferrals + totalDeferrals qs

lemma totalDeferrals_concat (qs : List Inquiry) (q : Inquiry) :
    totalDeferrals (qs ++ [q]) = totalDeferrals qs + q.deferrals := by
  induction qs with
  | nil => simp [totalDeferrals]
  | cons p qs ih => rw [List.cons_append, totalDeferrals, totalDeferrals, ih, Nat.add_assoc]

/-- One question is counted, and the deferrals according to its depth. -/
lemma stats_after (q : Inquiry) :
    q.after.stats = (q.use.tally q.before.stats).defer q.deferrals := by
  obtain ⟨u, mode, r⟩ := q
  cases u with
  | ofClass u =>
    exact (counts_askNamed _ _ _ _).stages (resolveClass_eq u mode) (bind_pure _).symm
      (defers_suitClass u mode) (fun _ => defers_pure _) r
  | ofField u =>
    exact (counts_askNamed _ _ _ _).stages rfl (resolveField_eq_bind u mode)
      (defers_suitField u mode) (defers_giveField u mode) r
  | ofMethod u =>
    exact (counts_askNamed _ _ _ _).stages rfl (resolveMethod_eq_bind u mode)
      (defers_suitMethod u mode) (defers_giveSuited u mode) r

lemma isSome_depth? (q : Inquiry) : q.depth?.isSome = q.leftOpen := by
  obtain ⟨u, mode, r⟩ := q
  cases u with
  | ofClass u => exact isSome_openAt? (resolveClass_eq u mode) (bind_pure _).symm r
  | ofField u => exact isSome_openAt? rfl (resolveField_eq_bind u mode) r
  | ofMethod u => exact isSome_openAt? rfl (resolveMethod_eq_bind u mode) r

end Inquiry

namespace Resolver

/-- A resolver was asked some questions one after the other. In between it may change in any way but
for what was counted. -/
inductive Asked (start : Resolver) : List Inquiry → Resolver → Prop
  | refl : Asked start [] start
  | ask {asked : List Inquiry} {r : Resolver} (h : Asked start asked r) (u : Use)
      (mode : ResolveMode) : Asked start (asked ++ [⟨u, mode, r⟩]) (Inquiry.after ⟨u, mode, r⟩)
  | between {asked : List Inquiry} {r r' : Resolver} (h : Asked start asked r)
      (hstats : r'.stats = r.stats) : Asked start asked r'

lemma questions_tally (u : Use) (s : ResolverStats) :
    (u.tally s).questions = s.questions + 1 := by
  cases u <;> simp only [Use.tally, ResolverStats.questions] <;> omega

lemma deferred_tally (u : Use) (s : ResolverStats) : (u.tally s).deferred = s.deferred := by
  cases u <;> rfl

lemma Asked.stats {start r : Resolver} {asked : List Inquiry} (h : Asked start asked r) :
    r.stats.deferred = start.stats.deferred + Inquiry.totalDeferrals asked ∧
      r.stats.questions = start.stats.questions + asked.length := by
  induction h with
  | refl => exact ⟨rfl, rfl⟩
  | @ask asked r _ u mode ih =>
    rw [Inquiry.stats_after, deferred_defer, questions_defer, questions_tally, deferred_tally,
      Inquiry.totalDeferrals_concat, List.length_append, List.length_singleton]
    dsimp only
    omega
  | between _ hstats ih =>
    rw [hstats]
    exact ih

/-- What several questions count, against the number of those that are left open. -/
lemma totalDeferrals_bounds (asked : List Inquiry) :
    asked.countP Inquiry.leftOpen ≤ Inquiry.totalDeferrals asked ∧
      Inquiry.totalDeferrals asked ≤ 3 * asked.countP Inquiry.leftOpen ∧
      (Inquiry.totalDeferrals asked = asked.countP Inquiry.leftOpen ↔
        ∀ q ∈ asked, q.leftOpen = true → q.depth? = some .named) := by
  induction asked with
  | nil => simp [Inquiry.totalDeferrals]
  | cons q asked ih =>
    obtain ⟨hlow, hhigh, heq⟩ := ih
    rw [Inquiry.totalDeferrals, List.countP_cons, List.forall_mem_cons, ← heq,
      ← Inquiry.isSome_depth?, Inquiry.deferrals]
    cases q.depth? with
    | none =>
      simp only [Option.elim_none, Option.isSome_none, Bool.false_eq_true, if_false, false_implies,
        true_and]
      omega
    | some d => cases d <;> simp [Depth.deferrals] <;> omega

/-- However the resolver changes between questions, every question is counted, and in addition one,
two or three deferrals for each question that is left open, by the depth at which it is. So the
deferrals are as many as the questions left open exactly if each of these is left open at the class
that it names, and never more than three times as many. -/
theorem deferrals_counted_by_depth {start r : Resolver} {asked : List Inquiry}
    (h : Asked start asked r) :
    r.stats.questions = start.stats.questions + asked.length ∧
    r.stats.deferred = start.stats.deferred + Inquiry.totalDeferrals asked ∧
    (∀ q ∈ asked, q.depth?.isSome = q.leftOpen) ∧
    (r.stats.deferred = start.stats.deferred + asked.countP Inquiry.leftOpen ↔
      ∀ q ∈ asked, q.leftOpen = true → q.depth? = some .named) ∧
    start.stats.deferred + asked.countP Inquiry.leftOpen ≤ r.stats.deferred ∧
    r.stats.deferred ≤ start.stats.deferred + 3 * asked.countP Inquiry.leftOpen := by
  obtain ⟨hdeferred, hquestions⟩ := h.stats
  obtain ⟨hlow, hhigh, heq⟩ := totalDeferrals_bounds asked
  refine ⟨hquestions, hdeferred, fun q _ => q.isSome_depth?, ?_, by omega, by omega⟩
  rw [hdeferred, Nat.add_left_cancel_iff]
  exact heq

/-- An interface with a protected field, and a class of another package that implements it. -/
def protectedInInterface : List Operation :=
  [.define .bootstrap
      { Boot.interfaceDefinition "p/I" with
        fields := [⟨Flag.accProtected.mask, "f", .primitive .int⟩] },
    .define .bootstrap
      { name := "q/R"
        flags := Flag.accPublic.mask
        interfaces := ["p/I"]
        methods := [⟨Flag.accPublic.mask, "run", ⟨[], .void⟩⟩] },
    .load .bootstrap "q/R"]

/-- The use of the field on an object of a class that is missing. -/
def fieldOfMissing? (r : Resolver) : Option FieldUse :=
  (r.area.published? .bootstrap "q/R").bind fun c => (c.methodAt? 0).map fun m =>
    ⟨m, ⟨⟨c, "p/I"⟩, "f", .primitive .int⟩, false, false, [.symbolic ⟨c, "p/X"⟩], []⟩

/-- The object is looked at only when the access is checked, for an interface takes every object,
and one question counts three deferrals. -/
theorem access_deferral_counted_three_times :
    ∃ u, fieldOfMissing? (performAll protectedInInterface { area := Area.initial }) = some u ∧
      (Inquiry.after ⟨.ofField u, .lazy,
        performAll protectedInInterface { area := Area.initial }⟩).stats.deferred = 3 := by
  have htest : ((fieldOfMissing? (performAll protectedInInterface { area := Area.initial })).any
      fun u => decide (Inquiry.deferrals ⟨.ofField u, .lazy,
        performAll protectedInInterface { area := Area.initial }⟩ = 3)) = true ∧
      (performAll protectedInInterface { area := Area.initial }).stats.deferred = 0 := by
    decide +kernel
  obtain ⟨hany, hstart⟩ := htest
  obtain ⟨u, hu, hthree⟩ := (Option.any_eq_true _ _).1 hany
  obtain ⟨-, hdeferred, -⟩ := deferrals_counted_by_depth (.ask .refl (.ofField u) .lazy)
  refine ⟨u, hu, ?_⟩
  rw [hdeferred, hstart]
  simpa [Inquiry.totalDeferrals] using hthree

/-- The use of the class of strings for a value of a class that is missing. -/
def stringOfMissing? (r : Resolver) : Option ClassUse :=
  (r.area.published? .bootstrap "java/lang/String").bind fun c => (c.methodAt? 0).map fun m =>
    ⟨m, ⟨c, "java/lang/String"⟩, [.symbolic ⟨c, "p/X"⟩]⟩

/-- One question about the class of strings is left open, and two deferrals are counted. -/
theorem deferral_of_value_counted_twice :
    ¬ ∀ (start r : Resolver) (asked : List Inquiry), Asked start asked r →
      r.stats.deferred = start.stats.deferred + asked.countP Inquiry.leftOpen := by
  intro hclaim
  have htest : ((stringOfMissing? { area := Area.initial }).any fun u =>
      Inquiry.leftOpen ⟨.ofClass u, .lazy, { area := Area.initial }⟩ &&
        decide ((Inquiry.after ⟨.ofClass u, .lazy, { area := Area.initial }⟩).stats.deferred = 2)) =
      true := by
    decide +kernel
  obtain ⟨u, -, htest⟩ := (Option.any_eq_true _ _).1 htest
  simp only [Bool.and_eq_true, decide_eq_true_eq] at htest
  have hasked : Asked { area := Area.initial } [⟨.ofClass u, .lazy, { area := Area.initial }⟩]
      (Inquiry.after ⟨.ofClass u, .lazy, { area := Area.initial }⟩) :=
    .ask .refl (.ofClass u) .lazy
  have hone := hclaim _ _ _ hasked
  rw [htest.2] at hone
  simp [htest.1] at hone

end Resolver

end Linkage
