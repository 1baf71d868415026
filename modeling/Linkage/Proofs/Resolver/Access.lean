import Linkage.Area.Boot
import Linkage.Proofs.Resolver.Success

/-!
# Access to what is resolved

What a resolution gives may be used by the class that asked for it. For members this is said of the
member that lookup finds in the class which the reference names, whatever class declares it and
whatever an object runs in its place.
-/

namespace Linkage

/-- The rule for members with these flags: a private one is for the declaring class, one without a
visibility for the runtime package, and a protected one for the runtime package and for subclasses.
The members of a class that goes by the name of the top of the hierarchy count as inherited by
all. -/
structure Class.MayUse (referer declaring : Class) (flags : Flags) : Prop where
  declarer : flags.visibility = .declarer → referer.same declaring = true
  package : flags.visibility = .package → referer.samePackage declaring = true
  subclasses : flags.visibility = .subclasses → referer.samePackage declaring = true ∨
    referer.isAssignableTo declaring = true ∨ declaring.name = objectName

namespace Resolver

variable {referer declaring : Class} {flags : Flags} {mode : ResolveMode} {r r' : Resolver}

/-! ### Members -/

lemma accepts_iff {dest value : Class} :
    accepts dest value = true ↔ value.isAssignableTo dest = true ∨ dest.name = objectName := by
  simp [accepts]

/-- The rule, case by case as the access check decides it. -/
lemma mayUse_iff :
    referer.MayUse declaring flags ↔
      match referer.memberAccess declaring flags with
      | .allowed => True
      | .denied => False
      | .requiresSubclass => accepts declaring referer = true := by
  have hrule : ∀ {v : Visibility}, flags.visibility = v → (referer.MayUse declaring flags ↔
      (v = .declarer → referer.same declaring = true) ∧
      (v = .package → referer.samePackage declaring = true) ∧
      (v = .subclasses → referer.samePackage declaring = true ∨
        accepts declaring referer = true)) := by
    rintro v rfl
    simp only [accepts_iff]
    exact ⟨fun h => ⟨h.declarer, h.package, h.subclasses⟩, fun h => ⟨h.1, h.2.1, h.2.2⟩⟩
  cases hv : flags.visibility with
  | everywhere => simp [hrule hv, Class.memberAccess, hv]
  | declarer => cases hs : referer.same declaring <;> simp [hrule hv, Class.memberAccess, hv, hs]
  | package =>
    cases hp : referer.samePackage declaring <;> simp [hrule hv, Class.memberAccess, hv, hp]
  | subclasses =>
    cases hp : referer.samePackage declaring <;> simp [hrule hv, Class.memberAccess, hv, hp]

/-- The referring class is compared with the declaring one without anything being resolved. -/
lemma gives_checkSubtypes_declaring {kind : FaultKind} :
    Gives (checkSubtypes referer [.loaded declaring] (.loaded referer) true mode kind) r () r' ↔
      accepts declaring referer = true ∧ r' = r := by
  rw [gives_checkSubtypes_iff (List.cons_ne_nil _ _)]
  simp only [Bool.not_true, Bool.false_and, Bool.false_eq_true, if_false, resolveMention,
    gives_pure, gives_checkMembers_cons, if_true]
  simp only [checkMembers, gives_pure]
  constructor
  · rintro ⟨_, _, ⟨rfl, rfl⟩, _, _, ⟨rfl, rfl⟩, haccepts, -, rfl⟩
    exact ⟨haccepts, rfl⟩
  · rintro ⟨haccepts, rfl⟩
    exact ⟨referer, _, ⟨rfl, rfl⟩, declaring, _, ⟨rfl, rfl⟩, haccepts, trivial, rfl⟩

/-- The access check is the rule, and for a protected member of another package the check of the
object besides. -/
lemma gives_checkAccess_iff {isStatic : Bool} {instances : SubtypeSet} {member : String} :
    Gives (checkAccess referer declaring flags isStatic instances mode member) r () r' ↔
      referer.MayUse declaring flags ∧
      Passes (referer.memberAccess declaring flags = .requiresSubclass ∧ isStatic = false)
        (checkSubtypes referer instances (.loaded referer) false mode .illegalAccess) r r' := by
  rw [mayUse_iff, checkAccess]
  cases referer.memberAccess declaring flags with
  | allowed => simp [Passes]
  | denied => simp
  | requiresSubclass =>
    simp only [gives_bind, gives_counted]
    constructor
    · rintro ⟨⟨⟩, s, hsub, h⟩
      obtain ⟨haccepts, rfl⟩ := gives_checkSubtypes_declaring.1 hsub
      refine ⟨haccepts, ?_⟩
      cases isStatic with
      | true => exact (gives_pure.1 h).2
      | false => exact gives_counted.1 h
    · rintro ⟨haccepts, h⟩
      refine ⟨(), r, gives_checkSubtypes_declaring.2 ⟨haccepts, rfl⟩, ?_⟩
      cases isStatic with
      | true => exact gives_pure.2 ⟨rfl, h⟩
      | false => exact gives_counted.2 h

/-! ### Classes -/

/-- A name that is resolved with a check of access gives a class that may be named. -/
lemma canAccess_of_resolveName {method : Option MethodHandle} {name : String} {c : Class}
    (h : Gives (resolveName referer method name mode true) r c r') :
    referer.canAccess c = true := by
  simp only [resolveName, gives_bind] at h
  obtain ⟨_, _, -, _, _, -, h⟩ := h
  split at h
  · exact absurd h gives_fail
  · next haccess =>
    obtain ⟨rfl, rfl⟩ := gives_pure.1 h
    simpa using haccess

lemma canAccess_of_resolveContainer {ref : ClassRef} {method : MethodHandle} {c : Class}
    (h : Gives (resolveContainer ref method mode) r c r') : ref.referer.canAccess c = true :=
  canAccess_of_resolveName (gives_counted.1 h)

/-- A class that is resolved may be named by the referring class. If a field or a method is
resolved, the referring class may name the class that the reference names, and it may use the
member that lookup finds there. -/
theorem resolved_is_accessible (mode : ResolveMode) (r r' : Resolver) :
    (∀ u c, Gives (resolveClass u mode) r c r' → u.referer.canAccess c = true) ∧
    (∀ u f, Gives (resolveField u mode) r f r' → ∃ container r₁,
      Gives (resolveContainer u.target.container u.method mode) r.fieldAsked container r₁ ∧
      container.lookupField? u.target.name u.target.descriptor = some f ∧
      u.referer.canAccess container = true ∧ u.referer.MayUse f.owner f.field.flags) ∧
    ∀ u called, Gives (resolveMethod u mode) r called r' → ∃ container m r₁ r₂,
      Gives (resolveContainer u.target.container u.method mode) r.methodAsked container r₁ ∧
      Gives (lookupTarget container u.target) r₁ m r₂ ∧
      u.referer.canAccess container = true ∧ u.referer.MayUse m.owner m.method.flags := by
  refine ⟨fun u c h => ?_, fun u f h => ?_, fun u called h => ?_⟩
  · obtain ⟨_, _, hname, -⟩ := gives_resolveClass.1 h
    exact canAccess_of_resolveName hname
  · obtain ⟨container, r₁, _, _, _, _, hcontainer, hlookup, -, -, -, haccess, -⟩ :=
      gives_resolveField.1 h
    exact ⟨container, r₁, hcontainer, hlookup, canAccess_of_resolveContainer hcontainer,
      (gives_checkAccess_iff.1 haccess).1⟩
  · obtain ⟨container, m, r₁, r₂, _, _, _, _, _, hcontainer, hlookup, -, -, -, haccess, -⟩ :=
      gives_resolveMethod.1 h
    exact ⟨container, m, r₁, r₂, hcontainer, hlookup, canAccess_of_resolveContainer hcontainer,
      (gives_checkAccess_iff.1 haccess).1⟩

/-! ### An inherited method -/

/-- A class with a protected static method. -/
def makerDefinition : Definition :=
  { name := "a/Maker"
    flags := Flag.accPublic.mask
    methods := [⟨Flag.accProtected.mask ||| Flag.accStatic.mask, "make", ⟨[], .void⟩⟩] }

/-- A subclass in another package. -/
def derivedMakerDefinition : Definition :=
  { name := "b/Derived"
    flags := Flag.accPublic.mask
    superclass := some "a/Maker"
    methods := [⟨Flag.accPublic.mask, "m", ⟨[], .void⟩⟩] }

/-- The resolver when both classes are defined. -/
def makersDefined : Resolver :=
  { area := (Area.initial.define .bootstrap makerDefinition).define .bootstrap
      derivedMakerDefinition }

/-- Calls the method from the code of the subclass, looking for it in the subclass. -/
def callInherited : ResolutionM (MethodUse × MethodHandle) := do
  let derived ← perform (Area.load .bootstrap derivedMakerDefinition.name)
  match derived.methodAt? 0 with
  | none => defer
  | some m =>
    match MethodUse.create m ⟨⟨derived, derivedMakerDefinition.name⟩, "make", ⟨[], .void⟩, false⟩
      true false none [] with
    | .error e => fail e
    | .ok u =>
      let called ← resolveMethod u .lazy
      return (u, called)

lemma exists_of_callInherited {r r' : Resolver} {u : MethodUse} {called : MethodHandle}
    (h : Gives callInherited r (u, called) r') :
    ∃ s, Gives (resolveMethod u .lazy) s called r' := by
  simp only [callInherited, gives_bind] at h
  obtain ⟨derived, s, -, h⟩ := h
  split at h
  · exact absurd h gives_defer
  · split at h
    · exact absurd h gives_fail
    · simp only [gives_bind, gives_pure, Prod.mk.injEq] at h
      obtain ⟨called', s', hcalled, ⟨rfl, rfl⟩, rfl⟩ := h
      exact ⟨s, hcalled⟩

/-- A protected method of another package that is found in a superclass of the referring class. -/
theorem inherited_method_is_accessible :
    ∃ u r called r', Gives (resolveMethod u .lazy) r called r' ∧
      called.owner.name = "a/Maker" ∧ called.method.flags.visibility = .subclasses ∧
      u.referer.samePackage called.owner = false ∧
      ∃ container m r₁ r₂,
        Gives (resolveContainer u.target.container u.method .lazy) r.methodAsked container r₁ ∧
        Gives (lookupTarget container u.target) r₁ m r₂ ∧
        u.referer.canAccess container = true ∧ u.referer.MayUse m.owner m.method.flags := by
  have htest : givesWhere callInherited (fun (u, called) _ =>
      called.owner.name = "a/Maker" && called.method.flags.visibility = .subclasses &&
        !u.referer.samePackage called.owner) makersDefined = true := by
    decide +kernel
  obtain ⟨⟨u, called⟩, r', hgives, haccept⟩ := exists_gives htest
  simp only [Bool.and_eq_true, decide_eq_true_eq, Bool.not_eq_true'] at haccept
  obtain ⟨⟨howner, hprotected⟩, hapart⟩ := haccept
  obtain ⟨r, hcalled⟩ := exists_of_callInherited hgives
  exact ⟨u, r, called, r', hcalled, howner, hprotected, hapart,
    (resolved_is_accessible .lazy r r').2.2 u called hcalled⟩

end Resolver

end Linkage
