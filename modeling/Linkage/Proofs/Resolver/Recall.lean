import Linkage.Proofs.Resolver.RepeatMembers

/-!
# What is resolved once

Whatever happens after a use was resolved, it is resolved again to the same class, field or method.
Only a call through an interface may go elsewhere, for it does not look at its object until the
class of that is loaded.
-/

namespace Linkage

open Relation

namespace Resolver

/-- A resolved use stays resolved. In every state that comes after, lazily or eagerly, the use of a
class or a field gives the same class or field, and the use of a method gives the same method,
unless it is a call through an interface for whose object the one possible class has been found
since: then it gives what an object of that class runs. -/
theorem resolved_use_recalled {start r : Resolver} (hstart : start.area = Area.initial)
    (hr : Evolves start r) :
    (∀ (u : ClassUse) (mode : ResolveMode) (c : Class) (r' : Resolver),
      Gives (resolveClass u mode) r c r' → ∀ q, Evolves r' q → ∀ mode',
        ∃ q', Gives (resolveClass u mode') q c q') ∧
    (∀ (u : FieldUse) (mode : ResolveMode) (f : FieldHandle) (r' : Resolver),
      Gives (resolveField u mode) r f r' → ∀ q, Evolves r' q → ∀ mode',
        ∃ q', Gives (resolveField u mode') q f q') ∧
    (∀ (u : MethodUse) (mode : ResolveMode) (m : MethodHandle) (r' : Resolver),
      Gives (resolveMethod u mode) r m r' → ∀ q, Evolves r' q → ∀ mode',
        ∃ m' q', Gives (resolveMethod u mode') q m' q' ∧ Recalled u r'.area q.area m m') := by
  have hsteady : r.area.Steady := hr.steady (hstart ▸ Area.initial_steady)
  refine ⟨fun u mode c r' h q hq mode' => ?_, fun u mode f r' h q hq mode' => ?_,
    fun u mode m r' h q hq mode' => ?_⟩
  · exact ⟨_, gives_resolveClass_again hsteady.sound h hq mode'⟩
  · exact ⟨_, gives_resolveField_again hsteady h hq mode'⟩
  · obtain ⟨m', q', hagain, hrecalled, -⟩ := gives_resolveMethod_again hsteady h hq mode'
    exact ⟨m', q', hagain, hrecalled⟩

/-! ### A call through an interface -/

/-- An interface with a method, a class that implements it, and a class with a caller, of which only
the last is loaded. -/
def callingInterface : List Operation :=
  [.define .bootstrap
      { name := "p/I"
        flags := Flag.accPublic.mask ||| Flag.accInterface.mask ||| Flag.accAbstract.mask
        methods := [⟨Flag.accPublic.mask ||| Flag.accAbstract.mask, "m", ⟨[], .void⟩⟩] },
    .define .bootstrap
      { name := "p/C"
        flags := Flag.accPublic.mask
        interfaces := ["p/I"]
        methods := [⟨Flag.accPublic.mask, "m", ⟨[], .void⟩⟩] },
    .define .bootstrap
      { name := "q/R"
        flags := Flag.accPublic.mask
        methods := [⟨Flag.accPublic.mask, "run", ⟨[], .void⟩⟩] },
    .load .bootstrap "q/R"]

/-- The resolver when the caller is loaded. -/
def beforeCall : Resolver := performAll callingInterface { area := Area.initial }

lemma beforeCall_evolves : Evolves { area := Area.initial } beforeCall :=
  (run_performAll (by simp [callingInterface, Operation.Orderly]) _).evolves Area.initial_sound

/-- The call of the interface method on an object of the class, of which nothing but the name is
known. -/
def interfaceCall? : Option MethodUse :=
  (beforeCall.area.published? .bootstrap "q/R").bind fun c => (c.methodAt? 0).bind fun run =>
    (MethodUse.create run ⟨⟨c, "p/I"⟩, "m", ⟨[], .void⟩, true⟩ false false
      (some (.ofMention (.symbolic ⟨c, "p/C"⟩))) []).toOption

/-- Whether the call resolves, and once its object's class is loaded it resolves in both modes to
methods that a test accepts. -/
def recallsWhere (accept : MethodHandle → MethodHandle → Bool) (u : MethodUse) : Bool :=
  givesWhere (resolveMethod u .eager) (fun m r' =>
    [ResolveMode.lazy, .eager].all fun mode =>
      givesWhere (resolveMethod u mode) (fun m' _ => accept m m')
        (performAll [.load .bootstrap "p/C"] r')) beforeCall

lemma exists_recall {accept : MethodHandle → MethodHandle → Bool} {u : MethodUse}
    (h : recallsWhere accept u = true) :
    ∃ m r', Gives (resolveMethod u .eager) beforeCall m r' ∧ ∀ mode, ∃ m' q',
      Gives (resolveMethod u mode) (performAll [.load .bootstrap "p/C"] r') m' q' ∧
        accept m m' = true := by
  obtain ⟨m, r', hm, h⟩ := exists_gives h
  refine ⟨m, r', hm, fun mode => ?_⟩
  have hmode : mode ∈ [ResolveMode.lazy, .eager] := by cases mode <;> simp
  exact exists_gives (List.all_eq_true.1 h mode hmode)

/-- The class of a field is loaded between two resolutions of its use, the second of them lazy, and
the field is the same. -/
theorem field_recalled :
    ∃ u f r' q', fieldOfParent? (performAll twoLoaders { area := Area.initial }) = some u ∧
      Gives (resolveField u .eager) (performAll twoLoaders { area := Area.initial }) f r' ∧
      Gives (resolveField u .lazy) (performAll [.load ⟨2⟩ "p/T"] r') f q' := by
  have htest : ((fieldOfParent? (performAll twoLoaders { area := Area.initial })).any fun u =>
      givesWhere (resolveField u .eager) (fun _ _ => true)
        (performAll twoLoaders { area := Area.initial })) = true := by
    decide +kernel
  obtain ⟨u, hu, htest⟩ := (Option.any_eq_true _ _).1 htest
  obtain ⟨f, r', hf, -⟩ := exists_gives htest
  have hbefore : Evolves { area := Area.initial }
      (performAll twoLoaders { area := Area.initial }) :=
    (run_performAll (by simp [twoLoaders, Operation.Orderly]) _).evolves Area.initial_sound
  have hr' := hf.evolves (built_resolveField u .eager) (hbefore.sound Area.initial_sound)
  have hlater : Evolves r' (performAll [.load ⟨2⟩ "p/T"] r') :=
    (run_performAll (by simp [Operation.Orderly]) _).evolves
      (hr'.sound (hbefore.sound Area.initial_sound))
  obtain ⟨-, hfields, -⟩ := resolved_use_recalled rfl hbefore
  obtain ⟨q', hagain⟩ := hfields u .eager f r' hf _ hlater .lazy
  exact ⟨u, f, r', q', hu, hf, hagain⟩

/-- A call through an interface is not resolved to the same method for ever: at first it goes to the
method of the interface, and to that of the object's class once this is loaded. -/
theorem interface_call_redirected :
    ∃ u m r', interfaceCall? = some u ∧ Evolves { area := Area.initial } beforeCall ∧
      Gives (resolveMethod u .eager) beforeCall m r' ∧
      Evolves r' (performAll [.load .bootstrap "p/C"] r') ∧
      ∀ mode q', ¬ Gives (resolveMethod u mode) (performAll [.load .bootstrap "p/C"] r') m q' := by
  have htest : interfaceCall?.any
      (recallsWhere fun m m' => m.owner.name = "p/I" && m'.owner.name = "p/C") = true := by
    decide +kernel
  obtain ⟨u, hu, htest⟩ := (Option.any_eq_true _ _).1 htest
  obtain ⟨m, r', hm, hlater⟩ := exists_recall htest
  have hr' := hm.evolves (built_resolveMethod u .eager)
    (beforeCall_evolves.sound Area.initial_sound)
  refine ⟨u, m, r', hu, beforeCall_evolves, hm, ?_, fun mode q' hq' => ?_⟩
  · exact (run_performAll (by simp [Operation.Orderly]) _).evolves
      (hr'.sound (beforeCall_evolves.sound Area.initial_sound))
  · obtain ⟨m', s, hm', haccept⟩ := hlater mode
    obtain ⟨rfl, -⟩ := hq'.unique hm'
    simp only [Bool.and_eq_true, decide_eq_true_eq] at haccept
    have hnames : "p/I" = "p/C" := haccept.1.symm.trans haccept.2
    exact absurd hnames (by decide)

end Resolver

end Linkage
