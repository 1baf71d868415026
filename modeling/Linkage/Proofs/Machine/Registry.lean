import Linkage.Proofs.Machine.Readiness
import Linkage.Proofs.Machine.Routine

/-!
# Finding methods by their addresses

The code area is handed out from the front, so methods lie one behind the other in the order in
which they were compiled, and even a method without words has an address of its own. Registered
methods are kept in this order. So the last one that starts at or before an address is the only one
that the address can lie in, and a method is known by its start as well as by its number.
-/

namespace Linkage

open Relation

namespace Machine

variable {m m' : Machine} {c d : CompiledMethod} {n k : Nat} {address : Address}

/-- A method that is registered. -/
def Registers (m : Machine) (c : CompiledMethod) : Prop :=
  c.number ∈ m.registered ∧ m.methods[c.number]? = some c

/-- How methods lie in the code area, and in which order they are registered. -/
structure Ordered (m : Machine) : Prop where
  used : m.memory.used ≤ m.memory.capacity
  /-- Methods are found under their numbers. -/
  numbered : ∀ (k : Nat) (c : CompiledMethod), m.methods[k]? = some c → c.number = k
  /-- Each method lies in the words that are handed out, and one of them is its own. -/
  within : ∀ c ∈ m.methods, 0 ≤ c.start ∧ c.start ≤ c.stop ∧
    c.start < wordAddress m.memory.used ∧ c.stop ≤ wordAddress m.memory.used
  /-- Methods lie one behind the other. -/
  spread : m.methods.Pairwise fun c d => c.stop ≤ d.start ∧ c.start < d.start
  /-- Only what was compiled is registered. -/
  known : ∀ n ∈ m.registered, n < m.methods.length
  /-- Methods are registered in the order in which they were compiled. -/
  sorted : m.registered.Pairwise (· < ·)

/-- What can happen to the methods of a machine. -/
inductive Change : Machine → Machine → Prop
  /-- Nothing but the states of their sites and what their words hold. -/
  | still {m m' : Machine} (hcapacity : m'.memory.capacity = m.memory.capacity)
      (hused : m'.memory.used = m.memory.used)
      (hmethods : m'.methods.map CompiledMethod.fresh = m.methods.map CompiledMethod.fresh)
      (hregistered : m'.registered = m.registered) : Change m m'
  /-- One more is compiled. -/
  | compile {m m' : Machine} {b : Builder} {c : CompiledMethod} (hputs : Puts m b c m')
      (hregistered : m'.registered = m.registered ++ [m.methods.length]) : Change m m'
  /-- One is forgotten. -/
  | unload (m : Machine) (n : Nat) :
      Change m { m with registered := m.registered.filter (· ≠ n) }

/-! ### Changes keep the order -/

/-- A method of a machine in which only the states of sites have changed. -/
lemma exists_of_map_fresh_eq (h : m'.methods.map CompiledMethod.fresh =
    m.methods.map CompiledMethod.fresh) (hc : m'.methods[k]? = some c) :
    ∃ d, m.methods[k]? = some d ∧ d.fresh = c.fresh := by
  have hget : (m'.methods.map CompiledMethod.fresh)[k]? = some c.fresh := by
    rw [List.getElem?_map, hc]
    rfl
  rw [h, List.getElem?_map] at hget
  exact Option.map_eq_some_iff.1 hget

lemma bounds_of_fresh_eq (h : d.fresh = c.fresh) :
    d.number = c.number ∧ d.start = c.start ∧ d.stop = c.stop := by
  simp only [CompiledMethod.fresh, CompiledMethod.mk.injEq] at h
  exact ⟨h.1, h.2.2.1, h.2.2.2.2.1⟩

lemma Ordered.still (hm : m.Ordered) (hcapacity : m'.memory.capacity = m.memory.capacity)
    (hused : m'.memory.used = m.memory.used)
    (hmethods : m'.methods.map CompiledMethod.fresh = m.methods.map CompiledMethod.fresh)
    (hregistered : m'.registered = m.registered) : m'.Ordered where
  used := by
    rw [hused, hcapacity]
    exact hm.used
  numbered k c hc := by
    obtain ⟨d, hd, hfresh⟩ := exists_of_map_fresh_eq hmethods hc
    rw [← (bounds_of_fresh_eq hfresh).1]
    exact hm.numbered k d hd
  within c hc := by
    obtain ⟨k, hk⟩ := List.getElem?_of_mem hc
    obtain ⟨d, hd, hfresh⟩ := exists_of_map_fresh_eq hmethods hk
    obtain ⟨-, hstart, hstop⟩ := bounds_of_fresh_eq hfresh
    rw [hused, ← hstart, ← hstop]
    exact hm.within d (List.mem_of_getElem? hd)
  spread := by
    have hfresh : (m.methods.map CompiledMethod.fresh).Pairwise
        fun c d => c.stop ≤ d.start ∧ c.start < d.start := List.pairwise_map.2 hm.spread
    rw [← hmethods] at hfresh
    exact List.pairwise_map.1 hfresh
  known := by
    have hlength : m'.methods.length = m.methods.length := by
      simpa using congrArg List.length hmethods
    rw [hregistered, hlength]
    exact hm.known
  sorted := hregistered ▸ hm.sorted

/-- A new method lies behind the others. -/
lemma Ordered.append (hm : m.Ordered) {b : Builder} (hputs : Puts m b c m')
    (hregistered : m'.registered = m.registered ++ [m.methods.length]) : m'.Ordered := by
  have hsize := b.size_le_reservation
  have hone : 1 ≤ b.reservation := Nat.le_max_right _ _
  have hzero : wordAddress 0 = 0 := rfl
  refine ⟨?_, fun k d hd => ?_, fun d hd => ?_, ?_, fun n hn => ?_, ?_⟩
  · rw [hputs.used, hputs.capacity]
    exact hputs.room
  · rcases hputs.method_cases hd with hd | ⟨rfl, rfl⟩
    · exact hm.numbered k d hd
    · exact hputs.number
  · rw [hputs.methods] at hd
    rw [hputs.used]
    rcases List.mem_append.1 hd with hd | hd
    · obtain ⟨hlow, hle, hstart, hstop⟩ := hm.within d hd
      have hgrow : wordAddress m.memory.used ≤ wordAddress (m.memory.used + b.reservation) :=
        wordAddress_le (Nat.le_add_right _ _)
      exact ⟨hlow, hle, Int.lt_of_lt_of_le hstart hgrow, Int.le_trans hstop hgrow⟩
    · rw [List.mem_singleton.1 hd, hputs.start, hputs.stop, ← hzero]
      exact ⟨wordAddress_le (Nat.zero_le _), wordAddress_le (Nat.le_add_right _ _),
        wordAddress_lt (by omega), wordAddress_le (by omega)⟩
  · rw [hputs.methods]
    refine List.pairwise_append.2 ⟨hm.spread, List.pairwise_singleton _ _, fun d hd e he => ?_⟩
    rw [List.mem_singleton.1 he, hputs.start]
    exact ⟨(hm.within d hd).2.2.2, (hm.within d hd).2.2.1⟩
  · rw [hputs.methods, List.length_append]
    rw [hregistered] at hn
    rcases List.mem_append.1 hn with hn | hn
    · exact Nat.lt_add_right _ (hm.known n hn)
    · rw [List.mem_singleton.1 hn]
      exact Nat.lt_add_one _
  · rw [hregistered]
    refine List.pairwise_append.2 ⟨hm.sorted, List.pairwise_singleton _ _, fun n hn k hk => ?_⟩
    rw [List.mem_singleton.1 hk]
    exact hm.known n hn

lemma Ordered.forget (hm : m.Ordered) (n : Nat) :
    ({ m with registered := m.registered.filter (· ≠ n) } : Machine).Ordered :=
  ⟨hm.used, hm.numbered, hm.within, hm.spread,
    fun k hk => hm.known k (List.mem_filter.1 hk).1, hm.sorted.filter _⟩

lemma ordered_stable : Stable Change Ordered := by
  intro m m' hchange hm
  cases hchange with
  | still hcapacity hused hmethods hregistered =>
    exact hm.still hcapacity hused hmethods hregistered
  | compile hputs hregistered => exact hm.append hputs hregistered
  | unload n => exact hm.forget n

/-- The code area stays, and so do the methods in it. -/
def Extends (m m' : Machine) : Prop :=
  m'.memory.capacity = m.memory.capacity ∧
    m.methods.map CompiledMethod.fresh <+: m'.methods.map CompiledMethod.fresh

lemma Extends.refl (m : Machine) : Extends m m := ⟨rfl, List.prefix_rfl⟩

lemma Extends.trans {m'' : Machine} (h : Extends m m') (h' : Extends m' m'') : Extends m m'' :=
  ⟨h'.1.trans h.1, h.2.trans h'.2⟩

lemma Change.extends (h : Change m m') : Extends m m' := by
  cases h with
  | still hcapacity _ hmethods _ => exact ⟨hcapacity, hmethods ▸ List.prefix_rfl⟩
  | compile hputs _ =>
    refine ⟨hputs.capacity, ?_⟩
    rw [hputs.methods, List.map_append]
    exact List.prefix_append _ _
  | unload n => exact .refl _

/-! ### Finding methods -/

/-- No address lies in two methods, and no two methods start at the same address. -/
lemma Ordered.apart (hm : m.Ordered) : m.methods.Pairwise fun c d =>
    c.start ≠ d.start ∧ ∀ a, ¬ (c.contains a = true ∧ d.contains a = true) := by
  refine hm.spread.imp fun {c d} ⟨hstop, hstart⟩ => ⟨Int.ne_of_lt hstart, fun a ⟨hc, hd⟩ => ?_⟩
  simp only [CompiledMethod.contains, Bool.and_eq_true, decide_eq_true_eq] at hc hd
  exact absurd (Int.lt_of_lt_of_le hc.2 hstop) (Int.not_lt.2 hd.1)

/-- The registered methods that start at or before an address lie one behind the other. -/
lemma Ordered.pairwise_before (hm : m.Ordered) (address : Address) :
    (m.registered.filterMap fun n => (m.methods[n]?).filter fun c => c.start ≤ address).Pairwise
      fun c d => c.stop ≤ d.start := by
  refine List.pairwise_filterMap.2 (hm.sorted.imp fun {j k} hlt c hc d hd => ?_)
  have hc := (Option.filter_eq_some_iff.1 hc).1
  have hd := (Option.filter_eq_some_iff.1 hd).1
  obtain ⟨hj, rfl⟩ := List.getElem?_eq_some_iff.1 hc
  obtain ⟨hk, rfl⟩ := List.getElem?_eq_some_iff.1 hd
  exact (List.pairwise_iff_getElem.1 hm.spread j k hj hk hlt).1

/-- A method is found at the addresses in it as long as it is registered, and nowhere else. -/
lemma Ordered.find?_eq_some_iff (hm : m.Ordered) :
    m.find? address = some c ↔ m.Registers c ∧ c.start ≤ address ∧ address < c.stop := by
  have hcontains : c.contains address = true ↔ c.start ≤ address ∧ address < c.stop := by
    simp [CompiledMethod.contains]
  rw [find?, Option.filter_eq_some_iff, hcontains]
  refine and_congr_left fun hin => ⟨fun hlast => ?_, fun hc => ?_⟩
  · obtain ⟨n, hn, hget⟩ := List.mem_filterMap.1 (List.mem_of_getLast? hlast)
    have hget := (Option.filter_eq_some_iff.1 hget).1
    obtain rfl := hm.numbered n c hget
    exact ⟨hn, hget⟩
  · obtain ⟨hlow, hhigh⟩ := hin
    obtain ⟨hregistered, hmethod⟩ := hc
    have hmem : c ∈ m.registered.filterMap fun n =>
        (m.methods[n]?).filter fun c => c.start ≤ address := by
      refine List.mem_filterMap.2 ⟨c.number, hregistered, ?_⟩
      exact Option.filter_eq_some_iff.2 ⟨hmethod, decide_eq_true hlow⟩
    -- A method that starts later, but not behind the address, would start inside this one.
    obtain ⟨d, hd⟩ := Option.isSome_iff_exists.1 (List.getLast?_isSome.2 (List.ne_nil_of_mem hmem))
    obtain ⟨front, hfront⟩ := List.getLast?_eq_some_iff.1 hd
    have hspread := hm.pairwise_before address
    rw [hfront] at hspread hmem ⊢
    rcases List.mem_append.1 hmem with hmem | hmem
    · have hbehind : c.stop ≤ d.start :=
        (List.pairwise_append.1 hspread).2.2 c hmem d (List.mem_singleton.2 rfl)
      obtain ⟨n, -, hget⟩ := List.mem_filterMap.1 (List.mem_of_getLast? hd)
      have hstart : d.start ≤ address :=
        of_decide_eq_true (Option.filter_eq_some_iff.1 hget).2
      exact absurd (Int.lt_of_lt_of_le hhigh hbehind) (Int.not_lt.2 hstart)
    · rw [List.mem_singleton.1 hmem]
      simp

lemma Ordered.find?_eq_none (hm : m.Ordered)
    (ha : ∀ c, m.Registers c → ¬ (c.start ≤ address ∧ address < c.stop)) :
    m.find? address = none :=
  Option.eq_none_iff_forall_ne_some.2 fun c hc =>
    ha c (hm.find?_eq_some_iff.1 hc).1 (hm.find?_eq_some_iff.1 hc).2

/-- The order in which methods are registered is that of their starts: what is found is the method
with the nearest start that does not lie behind the address, if the address is in it. -/
lemma Ordered.find?_eq_nearest (hm : m.Ordered) : m.find? address = some c ↔
    (m.Registers c ∧ c.start ≤ address ∧
      ∀ d, m.Registers d → d.start ≤ address → d.start ≤ c.start) ∧ c.contains address = true := by
  have hcontains : c.contains address = true ↔ c.start ≤ address ∧ address < c.stop := by
    simp [CompiledMethod.contains]
  rw [hm.find?_eq_some_iff, hcontains]
  refine and_congr_left fun hin => ⟨fun hc => ⟨hc, hin.1, fun d hd hstart => ?_⟩, And.left⟩
  obtain ⟨hn, hget⟩ := List.getElem?_eq_some_iff.1 hc.2
  obtain ⟨hk, hget'⟩ := List.getElem?_eq_some_iff.1 hd.2
  have hspread := List.pairwise_iff_getElem.1 hm.spread
  rcases Nat.lt_trichotomy d.number c.number with hlt | heq | hgt
  · have hbefore := hspread d.number c.number hk hn hlt
    rw [hget, hget'] at hbefore
    exact Int.le_of_lt hbefore.2
  · have hsame : some d = some c := by rw [← hd.2, heq, hc.2]
    rw [Option.some.inj hsame]
  · have hbehind := hspread c.number d.number hn hk hgt
    rw [hget, hget'] at hbehind
    exact absurd (Int.lt_of_lt_of_le hin.2 hbehind.1) (Int.not_lt.2 hstart)

/-! ### Forgetting methods -/

lemma registers_without :
    ({ m with registered := m.registered.filter (· ≠ n) } : Machine).Registers c ↔
      m.Registers c ∧ c.number ≠ n := by
  unfold Registers
  simp only [List.mem_filter, decide_eq_true_eq]
  tauto

/-- Forgetting a method by its number is forgetting it by its start. -/
lemma Ordered.filter_start (hm : m.Ordered) (n : Nat) :
    m.registered.filter (· ≠ n) = m.registered.filter fun k =>
      (m.methods[k]?).map CompiledMethod.start ≠ (m.methods[n]?).map CompiledMethod.start := by
  refine List.filter_congr fun k hk => decide_eq_decide.2 (not_congr ⟨fun h => by rw [h], ?_⟩)
  intro heq
  rw [List.getElem?_eq_getElem (hm.known k hk), Option.map_some] at heq
  obtain ⟨c, hc, hstart⟩ := Option.map_eq_some_iff.1 heq.symm
  obtain ⟨hn, rfl⟩ := List.getElem?_eq_some_iff.1 hc
  have hordered := List.pairwise_iff_getElem.1 hm.spread
  rcases Nat.lt_trichotomy k n with hlt | heq | hgt
  · exact absurd hstart.symm (Int.ne_of_lt (hordered k n _ hn hlt).2)
  · exact heq
  · exact absurd hstart (Int.ne_of_lt (hordered n k hn _ hgt).2)

end Machine

/-! ### Runs -/

namespace Watch

open Machine (Change Ordered Extends ordered_stable)

variable {m m' : Machine} {h : List Observation} {t : Watch}

/-- A step of a machine that is watched, as far as its methods are concerned. -/
inductive Passes : Watch → Watch → Prop
  | change {h : List Observation} {m m' : Machine} (hchange : Change m m') :
      Passes ⟨h, m⟩ ⟨h, m'⟩
  | note (h : List Observation) (m : Machine) (e : Event) : Passes ⟨h, m⟩ ⟨h ++ [⟨e, m⟩], m⟩

lemma Passes.notes {t t' : Watch} (hstep : Passes t t') : Notes t t' := by
  cases hstep with
  | change hchange => exact .inl rfl
  | note h m e => exact .inr ⟨e, rfl⟩

/-- The methods lie in order, and those that were seen are there still. -/
structure Charted (t : Watch) : Prop where
  ordered : t.machine.Ordered
  seen : ∀ o ∈ t.history, Extends o.machine t.machine

lemma charted_stable : Stable Passes Charted := by
  intro t t' hstep ht
  cases hstep with
  | change hchange =>
    exact ⟨ordered_stable _ _ hchange ht.ordered, fun o ho => (ht.seen o ho).trans hchange.extends⟩
  | note h m e =>
    refine ⟨ht.ordered, fun o ho => ?_⟩
    rcases List.mem_append.1 ho with ho | ho
    · exact ht.seen o ho
    · rw [List.mem_singleton.1 ho]
      exact .refl m

lemma passes_onMachine {α : Type} {y : MachineM α}
    (hy : ∀ m, m.Ordered → ReflTransGen Change m (finalState y m)) :
    Performs Passes Charted (onMachine y) fun _ _ => True := by
  intro t ht
  rw [finalState_onMachine]
  refine ⟨?_, fun _ _ _ => trivial⟩
  exact ReflTransGen.lift (Watch.mk t.history) (fun _ _ => .change) _ _ (hy t.machine ht.ordered)

/-- An operation that has nothing to do with methods. -/
lemma passes_elsewhere {α : Type} {y : MachineM α} (hy : Elsewhere y)
    (hregistered : ∀ m, (finalState y m).registered = m.registered) :
    Performs Passes Charted (onMachine y) fun _ _ => True :=
  passes_onMachine fun m _ => .single <| .still (congrArg CodeMemory.capacity (hy m).1)
    (congrArg CodeMemory.used (hy m).1) (by rw [(hy m).2]) (hregistered m)

lemma passes_onResolver {α : Type} (x : ResolverM α) :
    Performs Passes Charted (onMachine (Machine.onResolver x)) fun _ _ => True :=
  passes_elsewhere (elsewhere_onResolver x) fun m => by rw [Machine.finalState_onResolver]

lemma sequential_passes : Sequential fun x => Performs Passes Charted x fun _ _ => True where
  pure _ := Performs.pure fun _ _ => trivial
  throw e := Performs.throw e
  bind hx hf := Performs.seq charted_stable hx fun v _ => hf v
  attempt hx := (performs_attempt hx).weaken (fun _ ht => ht) fun _ _ _ => trivial
  get := passes_elsewhere elsewhere_get fun _ => rfl

/-- Whatever is called only changes methods in the ways of `Change`. -/
lemma routine_passes : Routine fun x => Performs Passes Charted x fun _ _ => True where
  toSequential := sequential_passes
  note _ := passes_elsewhere (fun _ => ⟨rfl, rfl⟩) fun _ => rfl
  enterClass := sequential_passes.enterClass fun c p =>
    passes_onResolver (Resolver.onArea (modify fun a : Area => a.setPhase c p))
  see e := fun t _ => ⟨.single (.note t.history t.machine e), fun _ _ _ => trivial⟩
  resolve _ := passes_onResolver _
  write address w := passes_onMachine fun m _ => by
    unfold Machine.write
    rw [finalState_bind, get_apply]
    dsimp only
    cases hwrite : m.memory.write address w with
    | error f => exact .refl
    | ok memory =>
      unfold CodeMemory.write at hwrite
      split at hwrite <;> cases hwrite
      exact .single (.still rfl rfl rfl rfl)
  setSiteState number index s := passes_onMachine fun m _ =>
    .single (.still rfl rfl (Machine.map_fresh_withState m ⟨number, index⟩ s) rfl)
  compile label method code := passes_onMachine fun m hm => by
    rcases Machine.compile_cases hm.used label method code with
      ⟨f, r, hfail⟩ | ⟨b, r, c, m', -, hok, hputs, -, hregistered⟩
    · rw [finalState_of_error hfail]
      exact .single (.still rfl rfl rfl rfl)
    · rw [finalState_of_ok hok]
      have hfirst : Change m { m with resolver := r } := .still rfl rfl rfl rfl
      exact .tail (.single hfirst) (.compile hputs hregistered)
  unload number := passes_onMachine fun m _ => .single (.unload m number)
  addProgram _ := passes_elsewhere (fun _ => ⟨rfl, rfl⟩) fun _ => rfl
  define l d := passes_elsewhere (elsewhere_define l d) fun m => by
    rcases Machine.define_cases l d m with hrun | ⟨spare, -, hrun⟩
    · rw [finalState_of_error hrun]
    · rw [finalState_of_ok hrun]
      rfl

lemma passes_after (calls : List Call) (ht : Charted t) :
    ReflTransGen Passes t (t.after calls) := by
  induction calls generalizing t with
  | nil => exact .refl
  | cons c cs ih =>
    have hfirst := (routine_passes.perform (c := c) (fun _ _ => passes_onResolver _) t ht).1
    exact hfirst.trans (ih (charted_stable.reflTransGen hfirst ht))

/-- A machine into which nothing was compiled yet. -/
lemma charted_fresh {words : Nat} (hmemory : CodeMemory.create words = .ok m.memory)
    (hmethods : m.methods = []) (hregistered : m.registered = []) : Charted ⟨[], m⟩ := by
  have hused : m.memory.used = 0 := by
    unfold CodeMemory.create at hmemory
    split at hmemory
    · cases hmemory
    · rw [← Except.ok.inj hmemory]
  refine ⟨⟨?_, ?_, ?_, ?_, ?_, ?_⟩, ?_⟩ <;> simp [hused, hmethods, hregistered]

/-- In every state in which a machine is seen its methods lie in order. -/
lemma Visits.charted {words : Nat} (hmemory : CodeMemory.create words = .ok m.memory)
    (hmethods : m.methods = []) (hregistered : m.registered = []) (ht : Visits m t) :
    Charted t ∧ Extends m t.machine := by
  have hstart := charted_fresh hmemory hmethods hregistered
  have hstable : Stable Passes fun t => Extends m t.machine := by
    intro t t' hstep ht
    cases hstep with
    | change hchange => exact ht.trans hchange.extends
    | note => exact ht
  exact ht.of_steps (fun _ _ => Passes.notes) (charted_stable.and hstable)
    (fun calls => passes_after calls hstart) ⟨hstart, .refl m⟩

end Watch

namespace Machine

variable {m m' : Machine} {c : CompiledMethod} {code : List Instruction}

/-- How the methods of a machine lie in its code area, and how they come and go. -/
structure Locates (m : Machine) : Prop where
  /-- Every method that was ever compiled lies in the code area. -/
  inside : ∀ c ∈ m.methods, 0 ≤ c.start ∧ c.start ≤ c.stop ∧
    c.start < wordAddress m.memory.capacity ∧ c.stop ≤ wordAddress m.memory.capacity
  /-- No two of them start at the same address or have an address in common. -/
  apart : m.methods.Pairwise fun c d =>
    c.start ≠ d.start ∧ ∀ a, ¬ (c.contains a = true ∧ d.contains a = true)
  /-- A method is found at the addresses in it as long as it is registered. -/
  found : ∀ a c, m.find? a = some c ↔ m.Registers c ∧ c.start ≤ a ∧ a < c.stop
  /-- A method that is compiled is registered, and the others stay. -/
  compiled : ∀ label method code c m', compile label method code m = .ok c m' →
    m'.methods = m.methods ++ [c] ∧ ∀ d, m'.Registers d ↔ m.Registers d ∨ d = c
  /-- Compiling that fails changes nothing about methods. -/
  rejected : ∀ label method code f m', compile label method code m = .error f m' →
    m'.memory = m.memory ∧ m'.methods = m.methods ∧ m'.registered = m.registered
  /-- Forgetting a method answers whether it was registered. It goes by its start, and no other
  method goes with it. -/
  forgotten : ∀ n, ∃ registered,
    unload n m = .ok (decide (n ∈ m.registered)) { m with registered := registered } ∧
    (registered = m.registered.filter fun k =>
      (m.methods[k]?).map CompiledMethod.start ≠ (m.methods[n]?).map CompiledMethod.start) ∧
    ∀ c, ({ m with registered := registered } : Machine).Registers c ↔
      m.Registers c ∧ c.number ≠ n
  /-- A trap outside the registered methods finds no site and changes nothing. -/
  outside : ∀ init a, (∀ c, m.Registers c → ¬ (c.start ≤ a ∧ a < c.stop)) →
    trapWith init a m = .ok .noPatchSite m

/-- A method that was compiled is registered behind the others. -/
lemma Ordered.registers_compiled (hm : m.Ordered) {label : String} {method : MethodHandle}
    (hrun : compile label method code m = .ok c m') :
    m'.methods = m.methods ++ [c] ∧ ∀ d, m'.Registers d ↔ m.Registers d ∨ d = c := by
  rcases compile_cases hm.used label method code with
    ⟨f, r, hfail⟩ | ⟨b, r, c', m'', -, hok, hputs, -, hregistered⟩
  · rw [hfail] at hrun
    cases hrun
  rw [hok] at hrun
  cases hrun
  have hnumber : c.number = m.methods.length := hputs.number
  have hmethods : m'.methods = m.methods ++ [c] := hputs.methods
  refine ⟨hmethods, fun d => ?_⟩
  unfold Registers
  rw [hmethods, hregistered, List.mem_append, List.mem_singleton]
  constructor
  · rintro ⟨hn, hd⟩
    rcases Nat.lt_or_ge d.number m.methods.length with hlt | hge
    · rw [List.getElem?_append_left hlt] at hd
      exact .inl ⟨hn.resolve_right (Nat.ne_of_lt hlt), hd⟩
    · rw [List.getElem?_append_right hge] at hd
      exact .inr (List.mem_singleton.1 (List.mem_of_getElem? hd))
  · rintro (⟨hn, hd⟩ | rfl)
    · exact ⟨.inl hn, Builder.getElem?_append_of_some hd⟩
    · exact ⟨.inr hnumber, by simp [hnumber]⟩

lemma Ordered.locates (hm : m.Ordered) : m.Locates where
  inside c hc := by
    obtain ⟨hlow, hle, hstart, hstop⟩ := hm.within c hc
    have hfit := wordAddress_le hm.used
    exact ⟨hlow, hle, Int.lt_of_lt_of_le hstart hfit, Int.le_trans hstop hfit⟩
  apart := hm.apart
  found _ _ := hm.find?_eq_some_iff
  compiled _ _ _ _ _ := hm.registers_compiled
  rejected label method code f m' hrun := by
    rcases compile_cases hm.used label method code with ⟨f, r, hfail⟩ | ⟨b, r, c, m'', -, hok, -⟩
    · rw [hfail] at hrun
      cases hrun
      exact ⟨rfl, rfl, rfl⟩
    · rw [hok] at hrun
      cases hrun
  forgotten n :=
    ⟨m.registered.filter (· ≠ n), rfl, hm.filter_start n, fun _ => registers_without⟩
  outside init a ha := by
    unfold trapWith
    rw [bind_of_ok (get_apply m), hm.find?_eq_none ha]
    rfl

end Machine

namespace Watch

variable {m : Machine} {t : Watch}

/-- Methods are found by their addresses: whatever is called and whatever initializers do, in every
state of a machine the methods that were ever compiled lie apart in the code area, a lookup gives
the registered method that an address lies in, and nothing else can be unloaded or trapped on. -/
theorem methods_found_by_address {words : Nat}
    (hmemory : CodeMemory.create words = .ok m.memory) (hmethods : m.methods = [])
    (hregistered : m.registered = []) (ht : Visits m t) :
    t.machine.Locates ∧ t.machine.memory.capacity = m.memory.capacity ∧
      ∀ o ∈ t.history, o.machine.methods.map CompiledMethod.fresh <+:
        t.machine.methods.map CompiledMethod.fresh := by
  obtain ⟨hcharted, hextends⟩ := ht.charted hmemory hmethods hregistered
  exact ⟨hcharted.ordered.locates, hextends.1, fun o ho => (hcharted.seen o ho).2⟩

/-- A method without instructions and one with a single instruction, and the first is forgotten. -/
def compilesTwice? (m : Machine) : Option (List Call) :=
  (m.area.published? .bootstrap "p/A").bind fun c => (c.methodAt? 0).map fun method =>
    [.request (.compile "empty" method []),
      .request (.compile "single" method [⟨.nop, .none, 0⟩]), .request (.unload 0)]

/-- A method without instructions has an address of its own, and forgetting it leaves the method
behind it alone. -/
theorem empty_method_forgotten :
    ∃ calls, compilesTwice? (smallMachine.after (selfUsing 8)) = some calls ∧
      ∃ u, u = smallMachine.after (selfUsing 8 ++ calls) ∧
        u.methods.map (fun c => (c.start, c.stop)) = [(0, 0), (8, 16)] ∧ u.registered = [1] ∧
        u.Locates := by
  have htest : ((compilesTwice? (smallMachine.after (selfUsing 8))).any fun calls =>
      (smallMachine.after (selfUsing 8 ++ calls)).methods.map (fun c => (c.start, c.stop)) =
        [(0, 0), (8, 16)] ∧
      (smallMachine.after (selfUsing 8 ++ calls)).registered = [1]) = true := by
    decide +kernel
  obtain ⟨calls, hcalls, htest⟩ := (Option.any_eq_true _ _).1 htest
  obtain ⟨hbounds, hregistered⟩ := of_decide_eq_true htest
  have hvisits : Visits smallMachine _ := .between (selfUsing 8 ++ calls)
  have hmemory : CodeMemory.create 4 = .ok smallMachine.memory := rfl
  have hlocates := (methods_found_by_address hmemory rfl rfl hvisits).1
  rw [machine_after] at hlocates
  exact ⟨calls, hcalls, _, rfl, hbounds, hregistered, hlocates⟩

end Watch

end Linkage
