import Linkage.Code.Builder
import Linkage.Proofs.Area.Initializers
import Linkage.Proofs.Area.Questions
import Linkage.Proofs.Resolver.Success

/-!
# What the resolver is made of

Everything that the resolver does is put together from a few parts: it works on the class area,
looks at the area and at its configuration, and counts and reports. What is true of these parts, and
of operations that are put together from others of which it is true, is true of every resolution.
-/

namespace Linkage

namespace Resolver

variable {α β : Type}

/-- Nothing but what was counted and reported differs. -/
structure Alike (r r' : Resolver) : Prop where
  area : r.area = r'.area
  config : r.config = r'.config

/-- Operations that are put together from parts of the resolver. -/
inductive Built : {α : Type} → ResolverM α → Prop
  | pure {α : Type} (v : α) : Built (pure v)
  | throw {α : Type} (e : Fault) : Built (throw e : ResolverM α)
  | bind {α β : Type} {x : ResolverM α} {f : α → ResolverM β} (hx : Built x)
      (hf : ∀ v, Built (f v)) : Built (x >>= f)
  | recover {α : Type} {x : ResolverM α} {f : Fault → ResolverM α} (hx : Built x)
      (hf : ∀ e, Built (f e)) : Built (tryCatch x f)
  /-- Goes on in a way that depends on the area and the configuration. -/
  | look {α : Type} {f : Resolver → ResolverM α} (same : ∀ r r', Alike r r' → f r = f r')
      (hf : ∀ r, Built (f r)) : Built (get >>= f)
  /-- Counts or reports. -/
  | tally {f : Resolver → Resolver} (h : ∀ r, Alike r (f r)) : Built (modify f)
  /-- Works on the area. -/
  | onArea {α : Type} {x : AreaM α} (h : Performs Area.Quiet Area.Sound x fun _ _ => True) :
      Built (onArea x)

/-- A property of operations that sequences of them have if their parts do. -/
structure Closed (C : {α : Type} → ResolverM α → Prop) : Prop where
  pure : ∀ {α : Type} (v : α), C (pure v)
  throw : ∀ {α : Type} (e : Fault), C (throw e : ResolverM α)
  bind : ∀ {α β : Type} {x : ResolverM α} {f : α → ResolverM β}, C x → (∀ v, C (f v)) →
    C (x >>= f)
  recover : ∀ {α : Type} {x : ResolverM α} {f : Fault → ResolverM α}, C x → (∀ e, C (f e)) →
    C (tryCatch x f)
  look : ∀ {α : Type} {f : Resolver → ResolverM α}, (∀ r r', Alike r r' → f r = f r') →
    (∀ r, C (f r)) → C (get >>= f)
  tally : ∀ {f : Resolver → Resolver}, (∀ r, Alike r (f r)) → C (modify f)

/-- A property of operations that look classes up, load them and compare them has everything that
the resolver does before it makes loaders agree. -/
structure Asks (C : {α : Type} → ResolverM α → Prop) : Prop extends Closed C where
  spelled : ∀ l mode s, C (resolveSpelled l mode s).run
  find : ∀ m : Mention, C (onArea m.find)
  compare : ∀ (t : ValueType) (m : Mention), C (onArea (t.assignableToClass m))

/-- A property that everything has that the resolver does: with the operations on the area also what
is made of them. -/
structure Covers (C : {α : Type} → ResolverM α → Prop) : Prop extends Asks C where
  agree : ∀ name x y, C (onArea (Area.addConstraint name x y fun l => Area.findLoaded l name))

namespace Closed

variable {C : {α : Type} → ResolverM α → Prop} (h : Closed C) {x : ResolutionM α}
  {f : α → ResolutionM β}
include h

lemma option_pure (v : α) : C (Pure.pure v : ResolutionM α).run := h.pure _

lemma option_bind (hx : C x.run) (hf : ∀ v, C (f v).run) : C (x >>= f).run := by
  rw [OptionT.run_bind]
  refine h.bind hx fun o => ?_
  match o with
  | none => exact h.pure _
  | some v => exact hf v

/-- A check that is made under a condition only. -/
lemma option_check {p : Prop} [Decidable p] {x : ResolutionM Unit} {k : Unit → ResolutionM α}
    (hx : C x.run) (hk : ∀ v, C (k v).run) : C (if p then x >>= k else k ()).run := by
  split
  · exact h.option_bind hx hk
  · exact hk ()

lemma lift {x : ResolverM α} (hx : C x) : C (OptionT.lift x).run :=
  h.bind hx fun _ => h.pure _

lemma perform {x : AreaM α} (hx : C (onArea x)) : C (Resolver.perform x).run := h.lift hx

lemma current_bind {f : Resolver → ResolutionM α} (same : ∀ r r', Alike r r' → f r = f r')
    (hf : ∀ r, C (f r).run) : C (current >>= f).run := by
  have hrun : (current >>= f).run = get >>= fun r => (f r).run := rfl
  rw [hrun]
  exact h.look (fun r r' h => by rw [same r r' h]) hf

lemma fail (e : Fault) : C (Resolver.fail e : ResolutionM α).run := h.lift (h.throw e)

lemma defer : C (Resolver.defer : ResolutionM α).run := h.pure _

lemma count (f : ResolverStats → ResolverStats) : C (Resolver.count f).run :=
  h.lift (h.tally fun _ => ⟨rfl, rfl⟩)

lemma report (what result : String) : C (Resolver.report what result).run :=
  h.lift (h.tally fun _ => ⟨rfl, rfl⟩)

lemma counted (hx : C x.run) : C (Resolver.counted x).run := by
  refine h.bind hx fun o => ?_
  match o with
  | some v => exact h.pure _
  | none => exact h.bind (h.tally fun _ => ⟨rfl, rfl⟩) fun _ => h.pure _

/-! ### Names -/

section

variable (hfind : ∀ l s, C (onArea (Area.findSpelled l s)))
  (hload : ∀ l name, C (onArea (Area.load l name)))
include hfind hload

lemma resolvePlain (l : LoaderId) (mode : ResolveMode) (name : String) :
    C (Resolver.resolvePlain l mode name).run := by
  refine h.option_bind (h.perform (hfind l (.plain name))) fun v => ?_
  match v, mode with
  | some c, _ => exact h.option_pure c
  | none, .lazy => exact h.defer
  | none, .eager => exact h.perform (hload l name)

lemma resolveSpelled (harray : ∀ c, C (onArea (Area.arrayOf c))) (l : LoaderId)
    (mode : ResolveMode) (s : Spelling) : C (Resolver.resolveSpelled l mode s).run := by
  induction s with
  | plain name => exact h.resolvePlain hfind hload l mode name
  | nested name s ih =>
    unfold Resolver.resolveSpelled
    split
    · exact h.perform (hload l name)
    · exact h.option_bind ih fun c => h.perform (harray c)
  | object name s ih =>
    unfold Resolver.resolveSpelled
    split
    · exact h.perform (hload l name)
    · exact h.option_bind ih fun c => h.perform (harray c)
  | unclosed name =>
    unfold Resolver.resolveSpelled
    split
    · exact h.perform (hload l name)
    · exact h.fail _
  | bare name s =>
    unfold Resolver.resolveSpelled
    split
    · exact h.perform (hload l name)
    · exact h.option_bind (h.resolvePlain hfind hload l mode s) fun c => h.perform (harray c)

end

end Closed

lemma closed_built : Closed Built where
  pure := .pure
  throw := .throw
  bind := .bind
  recover := .recover
  look := .look
  tally := .tally

lemma built_perform {x : AreaM α} (hx : Performs Area.Quiet Area.Sound x fun _ _ => True) :
    Built (perform x).run :=
  closed_built.perform (.onArea hx)

lemma built_arrays {x : AreaM α} (hx : MakesArrays x) : Built (perform x).run :=
  built_perform (Area.Performs.ofArraySteps hx)

lemma built_arrayOf (c : Class) : Built (perform (Area.arrayOf c)).run :=
  built_arrays (Area.performs_arrayOf c)

lemma built_find (l : LoaderId) (s : Spelling) : Built (onArea (Area.findSpelled l s)) :=
  .onArea (Area.Performs.ofArraySteps (Area.performs_findSpelled l s))

lemma built_resolvePlain (l : LoaderId) (mode : ResolveMode) (name : String) :
    Built (resolvePlain l mode name).run :=
  closed_built.resolvePlain built_find (fun l name => .onArea (Area.performs_load l name)) l mode
    name

lemma built_resolveSpelled (l : LoaderId) (mode : ResolveMode) (s : Spelling) :
    Built (resolveSpelled l mode s).run :=
  closed_built.resolveSpelled built_find (fun l name => .onArea (Area.performs_load l name))
    (fun c => .onArea (Area.Performs.ofArraySteps (Area.performs_arrayOf c))) l mode s

lemma covers_built : Covers Built where
  toClosed := closed_built
  spelled := built_resolveSpelled
  find _ := .onArea (Area.Performs.ofArraySteps (MakesArrays.find _))
  compare _ _ := .onArea (Area.Performs.ofArraySteps (ValueType.makesArrays_assignableToClass _ _))
  agree name x y := .onArea fun a _ => ⟨Area.addConstraint_steps name x y a, fun _ _ _ => trivial⟩

lemma Closed.and {C D : {α : Type} → ResolverM α → Prop} (h : Closed C) (h' : Closed D) :
    Closed fun x => C x ∧ D x where
  pure v := ⟨h.pure v, h'.pure v⟩
  throw e := ⟨h.throw e, h'.throw e⟩
  bind hx hf := ⟨h.bind hx.1 fun v => (hf v).1, h'.bind hx.2 fun v => (hf v).2⟩
  recover hx hf := ⟨h.recover hx.1 fun e => (hf e).1, h'.recover hx.2 fun e => (hf e).2⟩
  look same hf := ⟨h.look same fun r => (hf r).1, h'.look same fun r => (hf r).2⟩
  tally hf := ⟨h.tally hf, h'.tally hf⟩

lemma Covers.and {C D : {α : Type} → ResolverM α → Prop} (h : Covers C) (h' : Covers D) :
    Covers fun x => C x ∧ D x where
  toClosed := h.toClosed.and h'.toClosed
  spelled l mode s := ⟨h.spelled l mode s, h'.spelled l mode s⟩
  find m := ⟨h.find m, h'.find m⟩
  compare t m := ⟨h.compare t m, h'.compare t m⟩
  agree name x y := ⟨h.agree name x y, h'.agree name x y⟩

/-! ### Checks -/

namespace Asks

variable {C : {α : Type} → ResolverM α → Prop} (h : Asks C)
include h

lemma resolveName (referer : Class) (method : Option MethodHandle) (name : String)
    (mode : ResolveMode) (check : Bool) :
    C (Resolver.resolveName referer method name mode check).run := by
  unfold Resolver.resolveName effective
  refine h.option_bind ?_ fun m => ?_
  · exact h.current_bind (fun r r' h => by rw [h.config]) fun _ => h.option_pure _
  refine h.option_bind (h.spelled _ m _) fun c => ?_
  split
  · exact h.fail _
  · exact h.option_pure c

lemma resolveMention (m : Mention) (mode : ResolveMode) :
    C (Resolver.resolveMention m mode).run := by
  cases m with
  | loaded c => exact h.option_pure c
  | symbolic r => exact h.resolveName _ _ _ _ _

lemma checkMembers (referer type : Class) (reversed : Bool) (mode : ResolveMode)
    (kind : FaultKind) (set : SubtypeSet) :
    C (Resolver.checkMembers referer type reversed mode kind set).run := by
  induction set with
  | nil => exact h.option_pure _
  | cons m ms ih =>
    unfold Resolver.checkMembers
    refine h.option_bind (h.counted (h.resolveMention m mode)) fun c => ?_
    refine h.option_bind (h.lift (h.compare _ _)) fun answer => ?_
    split
    · exact ih
    · exact h.fail _

lemma checkSubtypes (referer : Class) (set : SubtypeSet) (type : Mention) (reversed : Bool)
    (mode : ResolveMode) (kind : FaultKind) :
    C (Resolver.checkSubtypes referer set type reversed mode kind).run := by
  unfold Resolver.checkSubtypes
  split
  · exact h.option_pure _
  · refine h.option_bind (h.counted (h.resolveMention type mode)) fun c => ?_
    split
    · exact h.option_pure _
    · exact h.checkMembers _ _ _ _ _ _

lemma checkAccess (referer declaring : Class) (flags : Flags) (isStatic : Bool)
    (instances : SubtypeSet) (mode : ResolveMode) (member : String) :
    C (Resolver.checkAccess referer declaring flags isStatic instances mode member).run := by
  unfold Resolver.checkAccess
  split
  · exact h.option_pure _
  · exact h.fail _
  · refine h.option_bind (h.counted (h.checkSubtypes _ _ _ _ _ _)) fun _ => ?_
    split
    · exact h.counted (h.checkSubtypes _ _ _ _ _ _)
    · exact h.option_pure _

/-! ### Uses -/

lemma resolveClass (u : ClassUse) (mode : ResolveMode) : C (Resolver.resolveClass u mode).run := by
  unfold Resolver.resolveClass
  refine h.option_bind (h.count _) fun _ => ?_
  refine h.option_bind (h.counted (h.resolveName _ _ _ _ _)) fun c => ?_
  refine h.option_bind (h.counted (h.checkSubtypes _ _ _ _ _ _)) fun _ => ?_
  exact h.option_bind (h.report _ _) fun _ => h.option_pure c

lemma resolveContainer (r : ClassRef) (method : MethodHandle) (mode : ResolveMode) :
    C (Resolver.resolveContainer r method mode).run :=
  h.counted (h.resolveName _ _ _ _ _)

lemma checkStored (u : FieldUse) (mode : ResolveMode) : C (Resolver.checkStored u mode).run := by
  unfold Resolver.checkStored
  split
  · exact h.checkSubtypes _ _ _ _ _ _
  · exact h.option_pure ()

/-- The method that was found is given, or there is none. -/
lemma found (found : Option MethodHandle) (fault : Fault) :
    C (match found with
      | some m => pure m
      | none => fail fault : ResolutionM MethodHandle).run := by
  cases found with
  | some m => exact h.option_pure m
  | none => exact h.fail _

lemma lookupTarget (container : Class) (target : MethodRef) :
    C (Resolver.lookupTarget container target).run := by
  unfold Resolver.lookupTarget
  refine h.current_bind (fun r r' h => by rw [h.area]) fun r => ?_
  dsimp only
  split
  · exact h.option_check (h.fail _) fun _ => h.found _ _
  · exact h.option_check (h.fail _) fun _ => h.found _ _

lemma checkArguments (referer : Class) (mode : ResolveMode) (ps : List FieldType)
    (ss : List SubtypeSet) : C (Resolver.checkArguments referer mode ps ss).run := by
  induction ps generalizing ss with
  | nil => exact h.option_pure _
  | cons p ps ih =>
    cases ss with
    | nil => exact h.option_pure _
    | cons s ss =>
      unfold Resolver.checkArguments
      dsimp only
      split
      · exact h.option_bind (h.counted (h.checkSubtypes _ _ _ _ _ _)) fun _ => ih ss
      · exact ih ss

lemma devirtualize (m : MethodHandle) (instances : SubtypeSet) :
    C (Resolver.devirtualize m instances) := by
  unfold Resolver.devirtualize
  split
  · exact h.pure _
  · split
    · refine h.bind (h.find _) fun c => ?_
      split
      · split <;> exact h.pure _
      · exact h.pure _
    · exact h.pure _

lemma interfaceTarget (target : MethodRef) : C (Resolver.interfaceTarget target).run := by
  unfold Resolver.interfaceTarget
  refine h.option_bind (h.resolveName _ _ _ _ _) fun container => ?_
  refine h.current_bind (fun r r' h => by rw [h.area]) fun r => ?_
  split
  · exact h.option_pure _
  · exact h.fail _

lemma checkedMethod (u : MethodUse) (mode : ResolveMode) :
    C (Resolver.checkedMethod u mode).run := by
  unfold Resolver.checkedMethod
  refine h.option_bind (h.count _) fun _ => ?_
  refine h.option_bind (h.resolveContainer _ _ _) fun container => ?_
  refine h.option_bind (h.lookupTarget _ _) fun m => ?_
  refine h.option_check (h.fail _) fun _ => ?_
  refine h.option_check (h.counted (h.checkSubtypes _ _ _ _ _ _)) fun _ => ?_
  refine h.option_bind (h.checkArguments _ _ _ _) fun _ => ?_
  exact h.option_bind (h.counted (h.checkAccess _ _ _ _ _ _ _)) fun _ => h.option_pure m

end Asks

/-! ### Agreement -/

namespace Covers

variable {C : {α : Type} → ResolverM α → Prop} (h : Covers C)
include h

lemma constrain (name : String) (declaring referer : Class) :
    C (Resolver.constrain name declaring referer) := by
  unfold Resolver.constrain
  refine h.look (fun r r' h => by rw [h.config]) fun r => ?_
  split
  · exact h.bind (h.agree _ _ _) fun _ => h.pure _
  · exact h.pure _

lemma constrainAll (declaring referer : Class) (names : List String) :
    C (Resolver.constrainAll declaring referer names) := by
  induction names with
  | nil => exact h.pure _
  | cons name names ih => exact h.bind (h.constrain _ _ _) fun _ => ih

lemma giveField (u : FieldUse) (mode : ResolveMode) (field : FieldHandle) :
    C (Resolver.giveField u mode field).run := by
  unfold Resolver.giveField
  refine h.option_bind (h.counted (h.checkAccess _ _ _ _ _ _ _)) fun _ => ?_
  refine h.option_bind (h.lift (h.constrainAll _ _ _)) fun _ => ?_
  exact h.option_bind (h.report _ _) fun _ => h.option_pure field

lemma resolveField (u : FieldUse) (mode : ResolveMode) : C (Resolver.resolveField u mode).run := by
  rw [resolveField_eq]
  refine h.option_bind (h.count _) fun _ => ?_
  refine h.option_bind (h.resolveContainer _ _ _) fun container => ?_
  cases container.lookupField? u.target.name u.target.descriptor with
  | none => exact h.fail _
  | some field =>
    refine h.option_check (h.fail _) fun _ => ?_
    refine h.option_check (h.counted (h.checkSubtypes _ _ _ _ _ _)) fun _ => ?_
    exact h.option_bind (h.counted (h.checkStored _ _)) fun _ => h.giveField _ _ _

lemma giveMethod (u : MethodUse) (m : MethodHandle) : C (Resolver.giveMethod u m).run := by
  unfold Resolver.giveMethod
  refine h.option_bind (h.lift (h.constrainAll _ _ _)) fun _ => ?_
  have hreport : ∀ target : MethodHandle, C (do
      report u.text target.text
      return target : ResolutionM MethodHandle).run := fun target =>
    h.option_bind (h.report _ _) fun _ => h.option_pure target
  dsimp only
  split
  · exact h.option_bind (h.option_pure m) hreport
  · exact h.option_bind (h.lift (h.devirtualize _ _)) hreport

lemma resolveMethod (u : MethodUse) (mode : ResolveMode) :
    C (Resolver.resolveMethod u mode).run := by
  rw [resolveMethod_eq]
  exact h.option_bind (h.checkedMethod u mode) fun m => h.giveMethod u m

/-! ### Code -/

lemma settle {use : β} {x : ResolutionM α} (hx : C x.run) : C (Instruction.settle use x) := by
  unfold Instruction.settle
  refine h.bind (h.recover hx fun _ => h.pure _) fun o => ?_
  split <;> exact h.pure _

lemma expectKind (op : Opcode) (kind : OperandKind) : C (Instruction.expectKind op kind) := by
  unfold Instruction.expectKind
  split
  · exact h.pure _
  · exact h.throw _

lemma ofUse (op : Opcode) (u : Use) : C (Instruction.ofUse op u) := by
  cases u with
  | ofClass u =>
    refine h.bind (h.expectKind _ _) fun _ => ?_
    exact h.bind (h.settle (h.resolveClass _ _)) fun _ => h.pure _
  | ofField u =>
    refine h.bind (h.expectKind _ _) fun _ => ?_
    dsimp only
    split
    · exact h.bind (h.throw _) fun _ =>
        h.bind (h.settle (h.resolveField _ _)) fun _ => h.pure _
    · exact h.bind (h.settle (h.resolveField _ _)) fun _ => h.pure _
  | ofMethod u =>
    have htarget : C (do
        let m ← Resolver.resolveMethod u .lazy
        if op = .invokeinterface then Resolver.interfaceTarget u.target else return m :
          ResolutionM MethodHandle).run := by
      refine h.option_bind (h.resolveMethod _ _) fun m => ?_
      split
      · exact h.interfaceTarget _
      · exact h.option_pure m
    refine h.bind (h.expectKind _ _) fun _ => ?_
    dsimp only
    split
    · exact h.bind (h.throw _) fun _ =>
        h.bind (h.settle htarget) fun _ => h.pure _
    · exact h.bind (h.settle htarget) fun _ => h.pure _

end Covers

lemma built_resolveClass (u : ClassUse) (mode : ResolveMode) : Built (resolveClass u mode).run :=
  covers_built.resolveClass u mode

lemma built_resolveField (u : FieldUse) (mode : ResolveMode) : Built (resolveField u mode).run :=
  covers_built.resolveField u mode

lemma built_resolveMethod (u : MethodUse) (mode : ResolveMode) :
    Built (resolveMethod u mode).run :=
  covers_built.resolveMethod u mode

lemma built_interfaceTarget (target : MethodRef) : Built (interfaceTarget target).run :=
  covers_built.interfaceTarget target

/-! ### Emitting code -/

lemma performs_ofExcept {step : Area → Area → Prop} {P : Area → Prop} (x : Except Fault α) :
    Performs step P (ofExcept x : AreaM α) fun _ _ => True := by
  cases x with
  | error e => exact Performs.throw e
  | ok v => exact .pure fun _ _ => trivial

/-- An instruction that makes arrays asks for the array class over a class that was handed on. -/
lemma emit_of_carries {step : Area → Area → Prop} {P : Area → Prop} {N : Class → Area → Prop}
    (h : Area.Carries step P N) (b : Builder) (i : Instruction) :
    Performs step (fun a => P a ∧ ∀ c, i.operand = .toClass (.resolved c) → N c a) (b.emit i)
      fun _ _ => True := by
  have hlast : ∀ {α : Type} {P : Area → Prop} {x : AreaM α}, Performs step P x (fun _ _ => True) →
      ∀ f : α → Area → Builder, Performs step P (do
        let v ← x
        let a ← get
        return f v a) fun _ _ => True :=
    fun hx _ => Performs.bind hx fun _ => Performs.bind .get fun _ => .pure fun _ _ => trivial
  unfold Builder.emit
  dsimp only
  split
  · split <;> exact .pure fun _ _ => trivial
  · next c hc =>
    split
    · exact hlast ((h.arrayOf c).weaken (fun _ ha => ⟨ha.1, ha.2 c hc⟩) fun _ _ _ => trivial) _
    · exact hlast (.pure fun _ _ => trivial) _
  · split
    · exact hlast (performs_ofExcept _) _
    · exact hlast (.pure fun _ _ => trivial) _
  · exact Performs.bind .get fun _ => .pure fun _ _ => trivial
  · exact performs_ofExcept _
  · exact performs_ofExcept _
  · exact performs_ofExcept _

lemma makesArrays_emit (b : Builder) (i : Instruction) : MakesArrays (b.emit i) :=
  (emit_of_carries Area.carries_arraySteps b i).weaken (fun _ _ => ⟨trivial, fun _ _ => trivial⟩)
    fun _ _ h => h

lemma makesArrays_emitAll (b : Builder) (code : List Instruction) :
    MakesArrays (b.emitAll code) := by
  induction code generalizing b with
  | nil => exact .pure b
  | cons i code ih => exact .bind (makesArrays_emit b i) fun b' => ih b'

end Resolver

end Linkage
