import Linkage.Proofs.Resolver.Parts
import Linkage.Proofs.Resolver.Success

/-!
# Runs of the resolver

Everything that happens to the resolver and its class area is a sequence of operations: loading and
defining classes, resolving uses, making code, asking about types, constraining loaders and bringing
classes from one phase to the next. Whatever the operations and their order, the class area only
goes through the steps of `Area.Step`, and the configuration stays.
-/

namespace Linkage

open Relation

namespace Resolver

variable {α β : Type}

/-- One state of the resolver comes after another. -/
structure Evolves (r r' : Resolver) : Prop where
  area : ReflTransGen Area.Step r.area r'.area
  config : r'.config = r.config

lemma Evolves.refl (r : Resolver) : Evolves r r := ⟨.refl, rfl⟩

lemma Evolves.trans {r₁ r₂ r₃ : Resolver} (h : Evolves r₁ r₂) (h' : Evolves r₂ r₃) :
    Evolves r₁ r₃ :=
  ⟨h.area.trans h'.area, h'.config.trans h.config⟩

lemma Evolves.sound {r r' : Resolver} (h : Evolves r r') (hs : r.area.Sound) : r'.area.Sound :=
  Area.sound_stable.reflTransGen h.area hs

/-- One state of the resolver comes after another, and the phases of classes are the same. -/
structure Advances (r r' : Resolver) : Prop where
  area : ReflTransGen Area.Quiet r.area r'.area
  config : r'.config = r.config

lemma Advances.evolves {r r' : Resolver} (h : Advances r r') : Evolves r r' :=
  ⟨Area.Quiet.steps h.area, h.config⟩

lemma Advances.phases {r r' : Resolver} (h : Advances r r') : r'.area.phases = r.area.phases := by
  have hstable : Stable Area.Quiet fun a => a.phases = r.area.phases :=
    fun a b hstep ha => hstep.phases.trans ha
  exact hstable.reflTransGen h.area rfl

lemma Advances.initializers {r r' : Resolver} (h : Advances r r')
    {names : Set (LoaderId × String)} (hr : r.area.InitializersIn names) :
    r'.area.InitializersIn names := by
  have hstable : Stable Area.Quiet fun a => a.InitializersIn names :=
    fun _ _ hstep => hstep.initializers names
  exact hstable.reflTransGen h.area hr

lemma Advances.trans {r₁ r₂ r₃ : Resolver} (h : Advances r₁ r₂) (h' : Advances r₂ r₃) :
    Advances r₁ r₃ :=
  ⟨h.area.trans h'.area, h'.config.trans h.config⟩

lemma finalState_onArea (x : AreaM α) (r : Resolver) :
    (finalState (onArea x) r).area = finalState x r.area := by
  unfold finalState onArea
  cases x r.area <;> rfl

/-- Whether it fails or not, an operation of the resolver leads to a state that comes after. -/
lemma Built.advances {x : ResolverM α} (hx : Built x) {r : Resolver} (hr : r.area.Sound) :
    Advances r (finalState x r) := by
  induction hx generalizing r with
  | pure v => exact ⟨.refl, rfl⟩
  | throw e => exact ⟨.refl, rfl⟩
  | bind _ _ ihx ihf =>
    exact finalState_bind_keeps (ihx hr) fun v _ _ hfirst =>
      hfirst.trans (ihf v (hfirst.evolves.sound hr))
  | recover _ _ ihx ihf =>
    exact finalState_tryCatch_keeps (ihx hr) fun e _ _ hfirst =>
      hfirst.trans (ihf e (hfirst.evolves.sound hr))
  | look _ _ ihf => exact ihf r hr
  | @tally f h =>
    rw [finalState_of_ok (modify_apply f r)]
    exact ⟨by rw [(h r).area], (h r).config.symm⟩
  | @onArea _ x h =>
    have hsteps := (h r.area hr).1
    unfold finalState Resolver.onArea
    unfold finalState at hsteps
    cases h : x r.area <;> rw [h] at hsteps <;> exact ⟨hsteps, rfl⟩

lemma Built.evolves {x : ResolverM α} (hx : Built x) {r : Resolver} (hr : r.area.Sound) :
    Evolves r (finalState x r) :=
  (hx.advances hr).evolves

lemma evolves_of_ok {x : ResolverM α} {r r' : Resolver} {v : α} (h : x r = .ok v r') (hx : Built x)
    (hr : r.area.Sound) : Evolves r r' := by
  rw [← finalState_of_ok h]
  exact hx.evolves hr

lemma Gives.evolves {x : ResolutionM α} {r r' : Resolver} {v : α} (h : Gives x r v r')
    (hx : Built x.run) (hr : r.area.Sound) : Evolves r r' :=
  evolves_of_ok h hx hr

/-! ### Operations -/

/-- The operations that the resolver and its class area go through, with all they are given. -/
inductive Operation where
  /-- Adds a loader. -/
  | addLoader (parent : LoaderId) (childFirst : Bool)
  /-- Makes a class known to a loader. -/
  | define (l : LoaderId) (d : Definition)
  /-- Loads a class. -/
  | load (l : LoaderId) (name : String)
  /-- Finds a class that is loaded. -/
  | find (l : LoaderId) (name : String)
  /-- Asks for the array class over a component. -/
  | arrayOf (c : Class)
  /-- Makes two loaders agree on a name. -/
  | constrain (name : String) (x y : LoaderId)
  /-- Asks the constraints whether a loader may have a class, and fails if a fault is given. -/
  | accept (l : LoaderId) (c : Class) (fault : Option Fault)
  /-- Brings a class to its next phase. -/
  | setPhase (c : Class) (p : Phase)
  /-- Asks whether a value may be stored. -/
  | assignable (t dest : ValueType)
  /-- Joins two types. -/
  | merge (t u : ValueType)
  /-- Checks a set of classes. -/
  | checkSubtypes (referer : Class) (set : SubtypeSet) (type : Mention) (reversed : Bool)
      (mode : ResolveMode) (kind : FaultKind)
  /-- Resolves a name. -/
  | resolveName (referer : Class) (method : Option MethodHandle) (name : String)
      (mode : ResolveMode) (checkAccess : Bool)
  /-- Resolves the use of a class. -/
  | resolveClass (u : ClassUse) (mode : ResolveMode)
  /-- Resolves the use of a field. -/
  | resolveField (u : FieldUse) (mode : ResolveMode)
  /-- Resolves the use of a method. -/
  | resolveMethod (u : MethodUse) (mode : ResolveMode)
  /-- Finds the target of a call through an interface. -/
  | interfaceTarget (target : MethodRef)
  /-- Makes an instruction. -/
  | instruction (op : Opcode) (u : Use)
  /-- Adds an instruction to the code of a method. -/
  | emit (b : Builder) (i : Instruction)

namespace Operation

/-- What an operation does, its answer left out. -/
def perform : Operation → ResolverM Unit
  | addLoader parent childFirst => onArea (modify fun a => (a.addLoader parent childFirst).2)
  | define l d => onArea (modify fun a => a.define l d)
  | load l name => onArea (discard (Area.load l name))
  | find l name => onArea (discard (Area.findLoaded l name))
  | arrayOf c => onArea (discard (Area.arrayOf c))
  | constrain name x y =>
    onArea (discard (Area.addConstraint name x y fun l => Area.findLoaded l name))
  | accept l c fault =>
    onArea (Area.checkLoaded l c (match fault with | none => pure () | some f => throw f))
  | setPhase c p => onArea (modify fun a => a.setPhase c p)
  | assignable t dest => onArea (discard (t.assignable dest))
  | merge t u => onArea (discard (t.merge u))
  | checkSubtypes referer set type reversed mode kind =>
    discard (Resolver.checkSubtypes referer set type reversed mode kind).run
  | resolveName referer method name mode checkAccess =>
    discard (Resolver.resolveName referer method name mode checkAccess).run
  | resolveClass u mode => discard (Resolver.resolveClass u mode).run
  | resolveField u mode => discard (Resolver.resolveField u mode).run
  | resolveMethod u mode => discard (Resolver.resolveMethod u mode).run
  | interfaceTarget target => discard (Resolver.interfaceTarget target).run
  | instruction op u => discard (Instruction.ofUse op u)
  | emit b i => onArea (discard (b.emit i))

/-- Whether an operation may happen: classes go from one phase to the next in order. -/
def Orderly (r : Resolver) : Operation → Prop
  | setPhase c p =>
    r.area.phase c = .linked ∧ p = .initializing ∨
      r.area.phase c = .initializing ∧ (p = .initialized ∨ p = .erroneous)
  | _ => True

end Operation

lemma Built.discard {x : ResolverM α} (hx : Built x) : Built (Functor.discard x) := by
  have hrun : Functor.discard x = x >>= fun _ => Pure.pure () := rfl
  rw [hrun]
  exact hx.bind fun _ => .pure ()

lemma built_area {x : AreaM α} (hx : Performs Area.Quiet Area.Sound x fun _ _ => True) :
    Built (onArea (Functor.discard x)) := by
  refine .onArea fun a ha => ⟨?_, fun _ _ _ => trivial⟩
  rw [finalState_discard]
  exact (hx a ha).1

lemma built_areaArrays {x : AreaM α} (hx : MakesArrays x) : Built (onArea (Functor.discard x)) :=
  built_area (Area.Performs.ofArraySteps hx)

lemma performs_checkLoaded (l : LoaderId) (c : Class) (fault : Option Fault) :
    Performs Area.Quiet Area.Sound
      (Area.checkLoaded l c (match fault with | none => pure () | some f => throw f))
      fun _ _ => True := by
  intro a _
  refine ⟨?_, fun _ _ _ => trivial⟩
  unfold Area.checkLoaded
  rw [finalState_bind]
  cases haccept : a.constraints.accept l c with
  | error e =>
    simp only [get_apply, haccept]
    exact .refl
  | ok t =>
    simp only [get_apply, haccept]
    cases fault with
    | none => exact .single ⟨.accept haccept, rfl, fun _ ha => ha.of_loaders rfl⟩
    | some f => exact .refl

/-- Whether an operation leaves loaders, definitions and phases alone, except for what it loads. -/
def Operation.isQuiet : Operation → Bool
  | addLoader .. | define .. | setPhase .. => false
  | _ => true

lemma Operation.built {op : Operation} (h : op.isQuiet = true) : Built op.perform := by
  cases op with
  | addLoader | define | setPhase => cases h
  | load l name => exact built_area (Area.performs_load l name)
  | find l name => exact built_areaArrays (Area.performs_findLoaded l name)
  | arrayOf c => exact built_areaArrays (Area.performs_arrayOf c)
  | constrain name x y =>
    exact built_area fun a _ => ⟨Area.addConstraint_steps name x y a, fun _ _ _ => trivial⟩
  | accept l c fault => exact .onArea (performs_checkLoaded l c fault)
  | assignable t dest => exact built_areaArrays (ValueType.makesArrays_assignable t dest)
  | merge t u => exact built_areaArrays (ValueType.makesArrays_merge t u)
  | checkSubtypes => exact (covers_built.checkSubtypes _ _ _ _ _ _).discard
  | resolveName => exact (covers_built.resolveName _ _ _ _ _).discard
  | resolveClass u mode => exact (built_resolveClass u mode).discard
  | resolveField u mode => exact (built_resolveField u mode).discard
  | resolveMethod u mode => exact (built_resolveMethod u mode).discard
  | interfaceTarget target => exact (built_interfaceTarget target).discard
  | instruction op u => exact (covers_built.ofUse op u).discard
  | emit b i => exact built_areaArrays (makesArrays_emit b i)

/-- An operation that is in order leads to a state that comes after the one before. -/
lemma Operation.evolves {r : Resolver} (hr : r.area.Sound) (op : Operation) (h : op.Orderly r) :
    Evolves r (finalState op.perform r) := by
  cases op with
  | addLoader parent childFirst => exact ⟨.single (.addLoader r.area parent childFirst), rfl⟩
  | define l d => exact ⟨.single (.define r.area l d), rfl⟩
  | setPhase c p => exact ⟨.single (.phase h), rfl⟩
  | _ => exact (Operation.built rfl).evolves hr

/-- One state of the resolver is followed by another. -/
def Next (r r' : Resolver) : Prop :=
  ∃ op : Operation, op.Orderly r ∧ r' = finalState op.perform r

/-- A number of operations leads from one state of the resolver to another. -/
def Run : Resolver → Resolver → Prop := ReflTransGen Next

/-- Whatever the operations of a run and their order, the area goes through its steps only. -/
lemma Run.evolves {r r' : Resolver} (h : Run r r') (hr : r.area.Sound) : Evolves r r' := by
  induction h with
  | refl => exact .refl r
  | tail _ hnext ih =>
    obtain ⟨op, horderly, rfl⟩ := hnext
    exact ih.trans (op.evolves (ih.sound hr) horderly)

/-- The state after a number of operations. -/
def performAll (ops : List Operation) (r : Resolver) : Resolver :=
  ops.foldl (fun r op => finalState op.perform r) r

lemma run_performAll {ops : List Operation} (h : ∀ op ∈ ops, ∀ r, op.Orderly r) (r : Resolver) :
    Run r (performAll ops r) := by
  induction ops generalizing r with
  | nil => exact ReflTransGen.refl
  | cons op ops ih =>
    exact ReflTransGen.head ⟨op, h op List.mem_cons_self r, rfl⟩
      (ih (fun o ho => h o (List.mem_cons_of_mem _ ho)) _)

end Resolver

end Linkage
