import Linkage.Proofs.Lattice.Naming

/-!
# What questions about types answer

A question about types makes array classes while it is answered. What it answers can be told
beforehand: it depends on the forms that the mentioned classes have, and on nothing else. So
questions can be asked in any order, and asking one does not change the answer to another.
-/

namespace Linkage

open Relation

/-! ### Mentions -/

/-- A mentioned class that is loaded is one of those there are. -/
def Mention.Given (a : Area) : Mention → Prop
  | .loaded c => a.Known c
  | .symbolic _ => True

/-- The form of a mentioned class, if it is loaded. -/
def Area.look (a : Area) : Mention → Option Form
  | .loaded c => some c.form
  | .symbolic r => a.form? r.referer.loader (.ofName r.name)

namespace Area

variable {a b c : Area} {α β : Type}

lemma known_stable (x : Class) : Stable TidyStep fun a => a.Tidy ∧ a.Known x :=
  fun _ _ hstep ha => ⟨(hstep ha.1).1, ha.2.mono (hstep ha.1).2.1 (hstep ha.1).2.2⟩

lemma Asked.known (h : Asked a b) (ha : a.Tidy) {x : Class} (hx : a.Known x) : b.Known x := by
  have hstable : Stable Makes fun a => a.Tidy ∧ a.Known x :=
    fun _ _ hmakes ha => (known_stable x).reflTransGen (hmakes.tidySteps ha.1) ha
  exact (hstable.reflTransGen h ⟨ha, hx⟩).2

lemma Asked.given (h : Asked a b) (ha : a.Tidy) {m : Mention} (hm : m.Given a) : m.Given b := by
  cases m with
  | loaded c => exact h.known ha hm
  | symbolic r => trivial

/-- Questions do not change what mentions mean. -/
lemma Asked.look_eq (h : Asked a b) (ha : a.Tidy) : b.look = a.look := by
  funext m
  cases m with
  | loaded c => rfl
  | symbolic r => exact h.form?_eq ha _ _

lemma Tidy.element_known (h : a.Tidy) {c e : Class} (hc : a.Known c) (he : c.element? = some e) :
    a.Known e := by
  match c with
  | .root _ =>
    cases he
    exact hc
  | .derived .. =>
    cases he
    exact hc
  | .primitiveArray .. => cases he
  | .array .. => exact h.element_known (h.component_known hc).1 he

lemma Tidy.element_given (h : a.Tidy) {m e : Mention} (hm : m.Given a)
    (he : (ReferenceType.ofMention m).elementClass = some e) : e.Given a := by
  cases m with
  | loaded c =>
    obtain ⟨x, hx, rfl⟩ := Option.map_eq_some_iff.1 he
    simp only [Class.elementClass?] at hx
    split at hx
    · exact h.element_known hm hx
    · cases hx
  | symbolic r =>
    simp only [ReferenceType.ofMention, ReferenceType.ofClassRef] at he
    split at he
    · cases he
    · split at he
      · cases he
        trivial
      · cases he

/-- Finding a mentioned class gives a class of the form that it has. -/
lemma Tidy.find_look (h : a.Tidy) {m : Mention} (hm : m.Given a) :
    ∃ v b, m.find a = .ok v b ∧ Asked a b ∧ v.map Class.form = a.look m ∧
      ∀ x ∈ v, b.Known x := by
  cases m with
  | loaded c =>
    refine ⟨some c, a, rfl, ReflTransGen.refl, rfl, fun x hx => ?_⟩
    cases hx
    exact hm
  | symbolic r =>
    obtain ⟨v, b, hrun, hform⟩ := h.findSpelled_form r.referer.loader (.ofName r.name)
    obtain ⟨hsteps, hrooted⟩ := carries_makes.findSpelled r.referer.loader (.ofName r.name) a h
    rw [finalState_of_ok hrun] at hsteps
    exact ⟨v, b, hrun, hsteps, hform, fun x hx => (hrooted v b hrun x hx).owned.known⟩

/-! ### Answers -/

/-- The operation gives a value and does nothing but ask for array classes. -/
def Answers (x : AreaM α) (a : Area) (v : α) : Prop := ∃ b, x a = .ok v b ∧ Asked a b

lemma Answers.pure (v : α) (a : Area) : Answers (Pure.pure v) a v := ⟨a, rfl, ReflTransGen.refl⟩

lemma Answers.after {x : AreaM α} {f : α → AreaM β} {v : α} {w : β} (hrun : x a = .ok v b)
    (hasked : Asked a b) (hf : Answers (f v) b w) : Answers (x >>= f) a w := by
  obtain ⟨c, hrest, hlater⟩ := hf
  exact ⟨c, (bind_of_ok hrun).trans hrest, hasked.trans hlater⟩

lemma Answers.bind {x : AreaM α} {f : α → AreaM β} {v : α} {w : β} (hx : Answers x a v)
    (hf : ∀ b, Asked a b → Answers (f v) b w) : Answers (x >>= f) a w := by
  obtain ⟨b, hrun, hasked⟩ := hx
  exact .after hrun hasked (hf b hasked)

end Area

/-! ### The answer to a question -/

namespace ReferenceType

/-- What is known from names alone of storing an object of type `t`, the answer for its element
being given by `element`, where the class `dest` is expected. -/
def shapeVerdict (t dest : ReferenceType) (element : Mention → Assignable) : Assignable :=
  if !dest.isArray then
    if t.isArray then .ofBool (isArraySupertypeName dest.mention.name) else .maybe
  else if !t.isArray || t.dimension < dest.dimension then .no
  else
    match dest.elementType, dest.elementClass with
    | some p, _ => .ofBool (t.dimension = dest.dimension && t.elementType = some p)
    | none, none => .maybe
    | none, some e =>
      if dest.dimension < t.dimension then .ofBool (isArraySupertypeName e.name)
      else
        match t.elementClass with
        | none => .no
        | some value => element value

section

variable {t dest : ReferenceType} {element : Mention → Assignable}

lemma shapeVerdict_of_plain (hdest : dest.dimension = 0) :
    t.shapeVerdict dest element =
      if t.dimension = 0 then .maybe else .ofBool (isArraySupertypeName dest.mention.name) := by
  by_cases ht : t.dimension = 0 <;> simp [shapeVerdict, isArray, hdest, ht]

lemma shapeVerdict_of_primitive (hdest : dest.dimension ≠ 0) {p : Primitive}
    (hp : dest.elementType = some p) :
    t.shapeVerdict dest element =
      .ofBool (t.dimension = dest.dimension && t.elementType = some p) := by
  simp only [shapeVerdict, isArray, hp]
  by_cases hlt : t.dimension < dest.dimension
  · simp [hdest, hlt, Nat.ne_of_lt hlt, Assignable.ofBool]
  · have ht : t.dimension ≠ 0 := by omega
    simp [hdest, hlt, ht]

lemma shapeVerdict_of_class (hdest : dest.dimension ≠ 0) (htype : dest.elementType = none)
    {e : Mention} (he : dest.elementClass = some e) :
    t.shapeVerdict dest element =
      if t.dimension < dest.dimension then .no
      else if dest.dimension < t.dimension then .ofBool (isArraySupertypeName e.name)
      else (t.elementClass.map element).getD .no := by
  simp only [shapeVerdict, isArray, htype, he]
  by_cases hlt : t.dimension < dest.dimension
  · simp [hdest, hlt]
  · have ht : t.dimension ≠ 0 := by omega
    cases t.elementClass <;> simp [hdest, hlt, ht]

end

/-- Whether an object whose class is mentioned by `value` may be stored where the class `dest` is
expected, if mentions have the given forms. -/
def verdict (look : Mention → Option Form) (value dest : Mention) : Assignable :=
  if value.knownSame dest || dest.isObject then .yes
  else
    match look value, look dest with
    | some v, some d => .ofBool (v.fits d)
    | _, _ =>
      match h : (ofMention dest).elementClass with
      | some e =>
        have : e.depth < dest.depth := depth_of_elementClass h
        (ofMention value).shapeVerdict (ofMention dest) fun v => verdict look v e
      | none => (ofMention value).shapeVerdict (ofMention dest) fun _ => .no
termination_by dest.depth

/-- The same for an object that may be of several classes. -/
def verdicts (look : Mention → Option Form) (dest : Mention) : List Mention → Assignable
  | [] => .yes
  | m :: ms => (verdict look m dest).and (verdicts look dest ms)

section

variable {look : Mention → Option Form} {value dest : Mention}

lemma verdict_of_known (h : (value.knownSame dest || dest.isObject) = true) :
    verdict look value dest = .yes := by
  rw [verdict, if_pos h]

lemma verdict_of_found {f g : Form} (h : (value.knownSame dest || dest.isObject) = false)
    (hvalue : look value = some f) (hdest : look dest = some g) :
    verdict look value dest = .ofBool (f.fits g) := by
  rw [verdict, if_neg (by simp [h])]
  simp only [hvalue, hdest]

/-- The answer about the elements of an array, if the array has such. -/
def elementVerdict (look : Mention → Option Form) (dest value : Mention) : Assignable :=
  match (ofMention dest).elementClass with
  | some e => verdict look value e
  | none => .no

lemma verdict_of_missing (h : (value.knownSame dest || dest.isObject) = false)
    (hmissing : look value = none ∨ look dest = none) :
    verdict look value dest =
      (ofMention value).shapeVerdict (ofMention dest) (elementVerdict look dest) := by
  have hshape : (match hd : (ofMention dest).elementClass with
      | some e => (ofMention value).shapeVerdict (ofMention dest) fun v => verdict look v e
      | none => (ofMention value).shapeVerdict (ofMention dest) fun _ => .no) =
      (ofMention value).shapeVerdict (ofMention dest) (elementVerdict look dest) := by
    split
    · next e he =>
      refine congrArg _ (funext fun v => ?_)
      simp only [elementVerdict, he]
    · next he =>
      refine congrArg _ (funext fun v => ?_)
      simp only [elementVerdict, he]
  rw [verdict, if_neg (by simp [h])]
  split
  · next v d hv hd =>
    rcases hmissing with hnone | hnone
    · rw [hv] at hnone
      cases hnone
    · rw [hd] at hnone
      cases hnone
  · exact hshape

end

/-- An answer that asks nothing but about elements. -/
lemma answers_shapeAssignable {a : Area} (t dest : ReferenceType)
    {element : Mention → AreaM Assignable} {answer : Mention → Assignable}
    (h : ∀ value, t.elementClass = some value → Area.Answers (element value) a (answer value)) :
    Area.Answers (t.shapeAssignable dest element) a (t.shapeVerdict dest answer) := by
  simp only [shapeAssignable, shapeVerdict]
  split
  · split <;> exact .pure _ a
  · split
    · exact .pure _ a
    · cases dest.elementType with
      | some p => exact .pure _ a
      | none =>
        cases dest.elementClass with
        | none => exact .pure _ a
        | some e =>
          dsimp only
          split
          · exact .pure _ a
          · cases hvalue : t.elementClass with
            | none => exact .pure _ a
            | some value => exact h value hvalue

/-- When both classes were looked for, the answer comes from what was found. -/
lemma answers_compared {a : Area} (ha : a.Tidy) {value dest : Mention} (hvalue : value.Given a)
    (hdest : dest.Given a) (hknown : (value.knownSame dest || dest.isObject) = false)
    {v d : Option Class} (hv : v.map Class.form = a.look value) (hvknown : ∀ x ∈ v, a.Known x)
    (hd : d.map Class.form = a.look dest) (hdknown : ∀ x ∈ d, a.Known x)
    (helement : ∀ w e : Mention, (ofMention dest).elementClass = some e → w.Given a → e.Given a →
      Area.Answers (classAssignable w e) a (verdict a.look w e)) :
    Area.Answers
      (match v, d with
      | some v, some d => pure (.ofBool (v.isAssignableTo d))
      | _, _ =>
        match _ : (ofMention dest).elementClass with
        | some e => shapeAssignable (ofMention value) (ofMention dest) fun v => classAssignable v e
        | none => shapeAssignable (ofMention value) (ofMention dest) fun _ => pure .no) a
      (verdict a.look value dest) := by
  have hmissing : v = none ∨ d = none → Area.Answers
      (match _ : (ofMention dest).elementClass with
      | some e => shapeAssignable (ofMention value) (ofMention dest) fun v => classAssignable v e
      | none => shapeAssignable (ofMention value) (ofMention dest) fun _ => pure .no) a
      (verdict a.look value dest) := by
    intro hnone
    have hlook : a.look value = none ∨ a.look dest = none := by
      rw [← hv, ← hd]
      exact hnone.imp (fun h => by rw [h]; rfl) fun h => by rw [h]; rfl
    rw [verdict_of_missing hknown hlook]
    split
    · next e he =>
      refine answers_shapeAssignable _ _ fun w hw => ?_
      simp only [elementVerdict, he]
      exact helement w e he (ha.element_given hvalue hw) (ha.element_given hdest he)
    · next he =>
      refine answers_shapeAssignable _ _ fun w _ => ?_
      simp only [elementVerdict, he]
      exact .pure _ a
  match v, d with
  | some v, some d =>
    rw [verdict_of_found hknown hv.symm hd.symm,
      ← ha.isAssignableTo_eq_fits (hvknown v rfl) (hdknown d rfl)]
    exact .pure _ a
  | none, _ => exact hmissing (.inl rfl)
  | some v, none => exact hmissing (.inr rfl)

/-- Questions about two classes are answered as the forms of the classes say. -/
lemma answers_classAssignable {a : Area} (ha : a.Tidy) {value dest : Mention}
    (hvalue : value.Given a) (hdest : dest.Given a) :
    Area.Answers (classAssignable value dest) a (verdict a.look value dest) := by
  induction hn : dest.depth using Nat.strongRecOn generalizing value dest a with
  | ind n ih =>
    subst hn
    rw [classAssignable]
    split
    · next hknown =>
      rw [verdict_of_known hknown]
      exact .pure _ a
    · next hknown =>
      rw [Bool.not_eq_true] at hknown
      obtain ⟨v, b, hv, hb, hvform, hvknown⟩ := ha.find_look hvalue
      have hbtidy := hb.tidy ha
      obtain ⟨d, c, hd, hc, hdform, hdknown⟩ := hbtidy.find_look (hb.given ha hdest)
      have hctidy := hc.tidy hbtidy
      have hasked : Area.Asked a c := hb.trans hc
      refine .after hv hb (.after hd hc ?_)
      rw [← hasked.look_eq ha] at hvform ⊢
      rw [← hc.look_eq hbtidy] at hdform
      exact answers_compared hctidy (hasked.given ha hvalue) (hasked.given ha hdest) hknown hvform
        (fun x hx => hc.known hbtidy (hvknown x hx)) hdform hdknown
        fun w e he hw he' => ih _ (depth_of_elementClass he) hctidy hw he' rfl

lemma answers_allAssignable {a : Area} (ha : a.Tidy) {dest : Mention} (hdest : dest.Given a)
    {ms : List Mention} (hms : ∀ m ∈ ms, m.Given a) :
    Area.Answers (allAssignable dest ms) a (verdicts a.look dest ms) := by
  induction ms generalizing a with
  | nil => exact .pure _ a
  | cons m ms ih =>
    refine .bind (answers_classAssignable ha (hms m List.mem_cons_self) hdest) fun b hb => ?_
    rw [verdicts, ← hb.look_eq ha]
    refine .bind (ih (hb.tidy ha) (hb.given ha hdest) fun m hm => ?_) fun c _ => .pure _ c
    exact hb.given ha (hms m (List.mem_cons_of_mem _ hm))

end ReferenceType

namespace ValueType

/-- All mentions of a type have a property. -/
def Over (P : Mention → Prop) (t : ValueType) : Prop :=
  ∀ r, t = .reference r → P r.mention ∧ ∀ m ∈ r.branches, P m

lemma Over.imp {P Q : Mention → Prop} {t : ValueType} (h : t.Over P) (himp : ∀ m, P m → Q m) :
    t.Over Q :=
  fun r hr => ⟨himp _ (h r hr).1, fun m hm => himp m ((h r hr).2 m hm)⟩

/-- Whether a value may be stored where another type is expected, if mentions have the given
forms. -/
def verdict (look : Mention → Option Form) (t dest : ValueType) : Assignable :=
  match t, dest with
  | primitive, primitive => .yes
  | returnAddress _, returnAddress _ => .yes
  | null, null => .yes
  | null, reference _ => .yes
  | uninitialized a, uninitialized b => .ofBool (a = b)
  | reference r, reference d => ReferenceType.verdicts look d.mention r.branches
  | _, _ => .no

/-- Questions about types are answered as the forms of the classes say. -/
lemma answers_assignable {a : Area} (ha : a.Tidy) {t dest : ValueType}
    (ht : t.Over (Mention.Given a)) (hdest : dest.Over (Mention.Given a)) :
    Area.Answers (t.assignable dest) a (t.verdict a.look dest) := by
  cases t with
  | reference r =>
    cases dest with
    | reference d =>
      exact ReferenceType.answers_allAssignable ha (hdest d rfl).1 (ht r rfl).2
    | _ => exact .pure _ a
  | _ => cases dest <;> exact .pure _ a

end ValueType

end Linkage
