import Linkage.Proofs.Area.Parents

/-!
# Who is asked for a class

A loader asks the farthest loader along its parents that knows a class, and that one asks again. If
parents form a circle, two loaders of the circle may each ask the other, and then asking goes on for
ever. `Area.Settles` says that it does not. Without circles that is always so, and what settles
stays settled while classes are loaded.
-/

namespace Linkage

namespace Area

variable {a b : Area} {l d x : LoaderId} {name m : String} {k : Nat}

/-! ### Asking other loaders -/

/-- The loader that has to load a class first when a loader is asked for it: another one, which does
not have the class yet. -/
def asks? (a : Area) (name : String) (l : LoaderId) : Option LoaderId :=
  (a.definer? l name).filter fun d => d ≠ l && (a.published? d name).isNone

/-- Whoever is asked for a class in turn, at last one of them asks nobody else. -/
inductive Settles (a : Area) (name : String) : LoaderId → Prop where
  | done {l : LoaderId} (h : a.asks? name l = none) : Settles a name l
  | ask {l d : LoaderId} (h : a.asks? name l = some d) (hd : Settles a name d) : Settles a name l

/-- A class that some loader does not have and is asked for without end. -/
def Endless (a : Area) (name : String) : Prop :=
  IsPlain name ∧ ∃ l, a.published? l name = none ∧ ¬ a.Settles name l

lemma asks?_eq_some : a.asks? name l = some d ↔
    a.definer? l name = some d ∧ d ≠ l ∧ a.published? d name = none := by
  simp [asks?, Option.filter_eq_some_iff, Option.isNone_iff_eq_none]

lemma asks?_eq_none (h : a.asks? name l = none) : a.definer? l name = none ∨
    a.definer? l name = some l ∨
      ∃ d c, d ≠ l ∧ a.definer? l name = some d ∧ a.published? d name = some c := by
  cases hd : a.definer? l name with
  | none => exact .inl rfl
  | some d =>
    by_cases hself : d = l
    · exact .inr (.inl (by rw [hself]))
    · cases hc : a.published? d name with
      | none =>
        rw [asks?_eq_some.2 ⟨hd, hself, hc⟩] at h
        cases h
      | some c => exact .inr (.inr ⟨d, c, hself, rfl, hc⟩)

lemma isSome_of_knows (h : a.knows name l = true) : (a.loaders.get? l).isSome = true := by
  unfold knows at h
  cases hl : a.loaders.get? l with
  | none => simp [hl] at h
  | some data => rfl

/-- So many loaders are asked in turn, one after the other. -/
def SettlesIn (a : Area) (name : String) : Nat → LoaderId → Prop
  | 0, l => a.asks? name l = none
  | k + 1, l => ∃ d, a.asks? name l = some d ∧ a.SettlesIn name k d

lemma SettlesIn.unique {j : Nat} (h : a.SettlesIn name k l) (h' : a.SettlesIn name j l) :
    k = j := by
  induction k generalizing j l with
  | zero =>
    cases j with
    | zero => rfl
    | succ j =>
      obtain ⟨d, hd, -⟩ := h'
      rw [show a.asks? name l = none from h] at hd
      cases hd
  | succ k ih =>
    obtain ⟨d, hd, hrest⟩ := h
    cases j with
    | zero =>
      rw [show a.asks? name l = none from h'] at hd
      cases hd
    | succ j =>
      obtain ⟨d', hd', hrest'⟩ := h'
      obtain rfl : d = d' := Option.some.inj (hd.symm.trans hd')
      rw [ih hrest hrest']

/-- The loaders that are asked in turn are all different. -/
lemma SettlesIn.exists_asked (h : a.SettlesIn name k l) : ∃ ls : List LoaderId, ls.length = k ∧
    ls.Nodup ∧ ∀ x ∈ ls, (a.loaders.get? x).isSome = true ∧ ∃ j < k, a.SettlesIn name j x := by
  induction k generalizing l with
  | zero => exact ⟨[], rfl, List.nodup_nil, by simp⟩
  | succ k ih =>
    obtain ⟨d, hd, hrest⟩ := h
    obtain ⟨ls, hlength, hnodup, hls⟩ := ih hrest
    refine ⟨d :: ls, by simp [hlength], List.nodup_cons.2 ⟨fun hmem => ?_, hnodup⟩, fun x hx => ?_⟩
    · obtain ⟨-, j, hj, hagain⟩ := hls d hmem
      exact absurd (hrest.unique hagain) (by omega)
    · rcases List.mem_cons.1 hx with rfl | hx
      · exact ⟨isSome_of_knows (knows_of_definer? (asks?_eq_some.1 hd).1), k, by omega, hrest⟩
      · obtain ⟨hthere, j, hj, hsettles⟩ := hls x hx
        exact ⟨hthere, j, by omega, hsettles⟩

/-- No more loaders are asked than there are. -/
lemma Settles.exists_settlesIn (h : a.Settles name l) (ha : a.Sound) :
    ∃ k ≤ a.loaders.size, a.SettlesIn name k l := by
  have hcount : ∃ k, a.SettlesIn name k l := by
    induction h with
    | done h => exact ⟨0, h⟩
    | ask h _ ih =>
      obtain ⟨k, hk⟩ := ih
      exact ⟨k + 1, _, h, hk⟩
  obtain ⟨k, hk⟩ := hcount
  obtain ⟨ls, rfl, hnodup, hls⟩ := hk.exists_asked
  exact ⟨_, ha.length_le hnodup fun x hx => (hls x hx).1, hk⟩

/-- Without circles, the loader that is asked defines the class itself. -/
lemma Acyclic.settles (h : a.Acyclic) (ha : a.Sound) (name : String) (l : LoaderId) :
    a.Settles name l := by
  cases hd : a.asks? name l with
  | none => exact .done hd
  | some d =>
    obtain ⟨hd', hne, -⟩ := asks?_eq_some.1 hd
    have hprefers : ¬ a.Prefers name l := by
      intro hprefers
      rw [definer?_of_prefers hprefers] at hd'
      exact hne (Option.some.inj hd').symm
    rw [definer?_of_not_prefers hprefers] at hd'
    refine .ask hd (.done ?_)
    unfold asks?
    rw [h.definer?_farthest ha hd']
    simp

/-- The loader that is to define a class changes only to one that has it. -/
lemma Grown.definer?_cases (h : Grown a b) (hd : b.definer? l name = some d) :
    d = l ∨ (b.published? d name).isSome = true ∨ a.definer? l name = some d := by
  by_cases hprefers : b.Prefers name l
  · rw [definer?_of_prefers hprefers] at hd
    exact .inl (Option.some.inj hd).symm
  · have hprefers' : ¬ a.Prefers name l :=
      fun hp => hprefers ⟨(h.childFirst_eq l).trans hp.1, h.knows hp.2⟩
    rw [definer?_of_not_prefers hprefers, h.chain_eq] at hd
    have hknows := List.find?_some hd
    cases hknown : a.knows name d with
    | true =>
      obtain ⟨-, before, behind, hchain, hbefore⟩ := List.find?_eq_some_iff_append.1 hd
      rw [definer?_of_not_prefers hprefers']
      refine .inr (.inr (List.find?_eq_some_iff_append.2
        ⟨hknown, before, behind, hchain, fun x hx => ?_⟩))
      cases hx' : a.knows name x with
      | false => rfl
      | true =>
        have hnot := hbefore x hx
        rw [h.knows hx'] at hnot
        cases hnot
    | false =>
      rw [knows_eq, h.definition_eq, Bool.or_eq_true] at hknows
      rw [knows_eq, Bool.or_eq_false_iff] at hknown
      exact .inr (.inl (hknows.resolve_left (by simp [hknown.1])))

/-- When loaders get classes, asking still ends where it ended. -/
lemma Settles.grown (hl : a.Settles name l) (h : Grown a b) : b.Settles name l := by
  have hnew : ∀ {l d}, b.asks? name l = some d → a.definer? l name = some d := by
    intro l d hd
    obtain ⟨hd', hne, hnone⟩ := asks?_eq_some.1 hd
    rcases h.definer?_cases hd' with rfl | hsome | hsame
    · exact absurd rfl hne
    · rw [hnone] at hsome
      cases hsome
    · exact hsame
  induction hl with
  | @done l hdone =>
    refine .done ?_
    rw [Option.eq_none_iff_forall_ne_some]
    intro d hd
    have hsame := hnew hd
    obtain ⟨-, hne, hnone⟩ := asks?_eq_some.1 hd
    rcases asks?_eq_none hdone with hnobody | hself | ⟨d', c, -, hd', hc⟩
    · rw [hnobody] at hsame
      cases hsame
    · rw [hself] at hsame
      exact hne (Option.some.inj hsame).symm
    · obtain rfl : d' = d := Option.some.inj (hd'.symm.trans hsame)
      rw [h.kept d' name c hc] at hnone
      cases hnone
  | @ask l d hask _ ih =>
    cases hd' : b.asks? name l with
    | none => exact .done hd'
    | some d' =>
      obtain rfl : d = d' := Option.some.inj ((asks?_eq_some.1 hask).1.symm.trans (hnew hd'))
      exact .ask hd' ih

end Area

end Linkage
