import Linkage.Proofs.Area.Ownership
import Linkage.Proofs.Resolver.Repeat

/-!
# Runs that keep the tables tidy

The resolver asks for array classes only over classes that loaders have, so whatever it does the
tables of the loaders stay tidy, as long as the operations of a run are given no classes but such as
can be had from the area. In tidy tables a class that a name was resolved to is found by that name,
without loading, in every later state.
-/

namespace Linkage

open Relation

/-- Whether all parts of a name are spelled in a way that looking for loaded classes understands.
After the brackets of an array the resolver takes any text for the name of a class; nothing but a
single letter, or a name between `L` and `;`, is looked for there. -/
def Spelling.Readable : Spelling → Prop
  | .plain _ => True
  | .nested _ s => s.Readable
  | .object _ s => s.Readable
  | .unclosed _ => True
  | .bare name s => (Spelling.bare name s).isShort = true

/-- Whether a class name is spelled in such a way. -/
def IsReadable (name : String) : Prop := (Spelling.ofName name).Readable

lemma IsPlain.isReadable {name : String} (h : IsPlain name) : IsReadable name := by
  rw [IsReadable, Spelling.ofName_eq_plain h]
  trivial

namespace Class

/-- A class is an array class if the name of the array class over it begins with two brackets. -/
lemma name_of_nested {c : Class} {rest : List Char} (h : c.arrayName = String.ofList ('[' :: rest))
    (hrest : rest.head? = some '[') : c.name = String.ofList rest := by
  have hchars := congrArg String.toList h
  unfold arrayName at hchars
  split at hchars
  · have hname : c.name.toList = rest := by simpa using hchars
    rw [← hname, String.ofList_toList]
  · have hname : 'L' :: (c.name.toList ++ [';']) = rest := by simpa using hchars
    rw [← hname] at hrest
    cases hrest

/-- A class is no array class if the name of the array class over it has its name between `L` and
`;`. -/
lemma name_of_object {c : Class} {rest element : List Char}
    (h : c.arrayName = String.ofList ('[' :: rest)) (hrest : unwrapObject? rest = some element) :
    c.name = String.ofList element := by
  have hchars := congrArg String.toList h
  unfold arrayName at hchars
  split at hchars
  · next harray =>
    have hname : c.name.toList = rest := by simpa using hchars
    have hplain := not_not.1 (not_isPlain_of_isArray harray)
    rw [hname] at hplain
    unfold unwrapObject? at hrest
    split at hrest
    · cases hplain
    · cases hrest
  · have hname : 'L' :: (c.name.toList ++ [';']) = rest := by simpa using hchars
    rw [← hname] at hrest
    have helement : c.name.toList = element := by simpa [unwrapObject?] using hrest
    rw [← helement, String.ofList_toList]

end Class

namespace Resolver

variable {α β : Type}

/-! ### Parts of the resolver -/

/-- A change that keeps the tables tidy, and in them what was there. -/
def TidyMove (r r' : Resolver) : Prop := Area.TidyStep r.area r'.area

lemma tidyMove_stable : Stable TidyMove fun r => r.area.Tidy := fun _ _ hmove hr => (hmove hr).1

lemma performs_onArea {x : AreaM α} {P : Area → Prop} {Q : α → Area → Prop}
    (hx : Performs Area.TidyStep P x Q) :
    Performs TidyMove (fun r => P r.area) (onArea x) fun v r => Q v r.area := by
  intro r hr
  obtain ⟨hsteps, hq⟩ := hx r.area hr
  have hmoves : ∀ {b}, ReflTransGen Area.TidyStep r.area b →
      ReflTransGen TidyMove r { r with area := b } :=
    fun h => ReflTransGen.lift (p := TidyMove) (fun b => { r with area := b })
      (fun _ _ hstep => hstep) _ _ h
  unfold finalState at hsteps
  unfold finalState onArea
  cases h : x r.area with
  | ok v b =>
    rw [h] at hsteps
    refine ⟨hmoves hsteps, fun w s hw => ?_⟩
    cases hw
    exact hq v b h
  | error e b =>
    rw [h] at hsteps
    refine ⟨hmoves hsteps, fun w s hw => ?_⟩
    cases hw

/-- Operations that keep the tables tidy. -/
def Tidies (x : ResolverM α) : Prop :=
  Performs TidyMove (fun r => r.area.Tidy) x fun _ _ => True

lemma Tidies.final {x : ResolverM α} (hx : Tidies x) {r : Resolver} (hr : r.area.Tidy) :
    (finalState x r).area.Tidy :=
  tidyMove_stable.reflTransGen (hx r hr).1 hr

lemma tidies_onArea {x : AreaM α} {Q : α → Area → Prop}
    (hx : Performs Area.TidyStep Area.Tidy x Q) : Tidies (onArea x) :=
  (performs_onArea hx).weaken (fun _ hr => hr) fun _ _ _ => trivial

lemma closed_tidies : Closed Tidies where
  pure _ := .pure fun _ _ => trivial
  throw e := .throw e
  bind hx hf := Performs.seq tidyMove_stable hx fun v _ => hf v
  recover hx hf := Performs.recover tidyMove_stable hx hf
  look _ hf := Performs.bind .get fun r => (hf r).weaken (fun _ hs => hs.2) fun _ _ h => h
  tally h := .modify fun r _ =>
    ⟨Area.tidyStep_of_eq (by rw [(h r).area]) (by rw [(h r).area]) (by rw [(h r).area])
      (by rw [(h r).area]), trivial⟩

/-- Resolutions that keep the tables tidy and give classes over which array classes may be asked
for. -/
def HandsOn (x : ResolutionM Class) : Prop :=
  Performs TidyMove (fun r => r.area.Tidy) x.run fun v r => ∀ c ∈ v, r.area.Rooted c

lemma HandsOn.tidies {x : ResolutionM Class} (hx : HandsOn x) : Tidies x.run :=
  hx.weaken (fun _ hr => hr) fun _ _ _ => trivial

lemma handsOn_of_none {x : ResolutionM Class} (hx : Tidies x.run)
    (hnone : ∀ r c r', ¬ Gives x r c r') : HandsOn x := by
  intro r hr
  refine ⟨(hx r hr).1, fun v s hv c hc => ?_⟩
  cases hc
  exact absurd hv (hnone r c s)

lemma HandsOn.bind {x : ResolutionM α} {f : α → ResolutionM Class} {N : α → Area → Prop}
    (hx : Performs TidyMove (fun r => r.area.Tidy) x.run fun v r => ∀ c ∈ v, N c r.area)
    (hf : ∀ v, Performs TidyMove (fun r => r.area.Tidy ∧ N v r.area) (f v).run
      fun w r => ∀ c ∈ w, r.area.Rooted c) : HandsOn (x >>= f) := by
  unfold HandsOn
  rw [OptionT.run_bind]
  refine Performs.bind_stable tidyMove_stable hx fun o => ?_
  match o with
  | none => exact .pure fun _ _ => by simp
  | some v => exact (hf v).weaken (fun _ hr => ⟨hr.1, hr.2 v rfl⟩) fun _ _ hw => hw

/-- An operation on the area that is part of a resolution. -/
lemma performs_perform {x : AreaM α} {P : Area → Prop} {Q : α → Area → Prop}
    (hx : Performs Area.TidyStep P x Q) :
    Performs TidyMove (fun r => P r.area) (perform x).run fun v r => ∀ c ∈ v, Q c r.area := by
  refine Performs.bind (performs_onArea hx) fun v => .pure fun r hr c hc => ?_
  cases hc
  exact hr

lemma handsOn_resolvePlain (l : LoaderId) (mode : ResolveMode) (name : String) :
    HandsOn (resolvePlain l mode name) := by
  refine HandsOn.bind
    (performs_perform (Area.carries_rooted.findSpelled l (.plain name))) fun v => ?_
  match v, mode with
  | some c, _ =>
    refine .pure fun r hr x hx => ?_
    cases hx
    exact hr.2 c rfl
  | none, .lazy => exact .pure fun _ _ => by simp
  | none, .eager =>
    exact (performs_perform (Area.tidy_load l name)).weaken (fun _ hr => hr.1)
      fun _ _ hc => hc

lemma HandsOn.arrayOf {x : ResolutionM Class} (hx : HandsOn x) :
    HandsOn (x >>= fun c => perform (Area.arrayOf c)) :=
  HandsOn.bind (N := fun c a => a.Rooted c) hx fun c =>
    performs_perform (Area.carries_rooted.arrayOf c)

lemma handsOn_resolveSpelled (l : LoaderId) (mode : ResolveMode) (s : Spelling) :
    HandsOn (resolveSpelled l mode s) := by
  have hload : ∀ name, HandsOn (perform (Area.load l name)) :=
    fun name => performs_perform (Area.tidy_load l name)
  induction s with
  | plain name => exact handsOn_resolvePlain l mode name
  | nested name s ih =>
    unfold resolveSpelled
    split
    · exact hload name
    · exact ih.arrayOf
  | object name s ih =>
    unfold resolveSpelled
    split
    · exact hload name
    · exact ih.arrayOf
  | unclosed name =>
    unfold resolveSpelled
    split
    · exact hload name
    · exact handsOn_of_none (closed_tidies.fail _) fun _ _ _ => gives_fail
  | bare name s =>
    unfold resolveSpelled
    split
    · exact hload name
    · exact (handsOn_resolvePlain l mode s).arrayOf

/-- Everything that the resolver does keeps the tables tidy. -/
lemma covers_tidies : Covers Tidies where
  toClosed := closed_tidies
  spelled l mode s := (handsOn_resolveSpelled l mode s).tidies
  find m := tidies_onArea (Area.carries_rooted.find m)
  compare t m := tidies_onArea (Area.carries_rooted.valueAssignable t m)
  agree name x y := tidies_onArea (Area.tidy_addConstraint name x y)

lemma Gives.tidy {x : ResolutionM α} {r r' : Resolver} {v : α} (h : Gives x r v r')
    (hx : Tidies x.run) (hr : r.area.Tidy) : r'.area.Tidy := by
  rw [← finalState_of_ok h]
  exact hx.final hr

/-! ### Runs -/

/-- The class can be had: some loader has it, or it is the stand-in for the common supertype of
arrays. -/
def Has (r : Resolver) (c : Class) : Prop :=
  (∃ l n, r.area.published? l n = some c) ∨ c = r.area.core.arrayStub

/-- Whether an operation is given only classes that can be had, where it may make array classes over
them. -/
def Operation.Genuine (r : Resolver) : Operation → Prop
  | arrayOf c => r.Has c
  | merge t _ => ∀ s c, t = .reference s → s.elementClass = some (.loaded c) → r.Has c
  | emit _ i => ∀ c, i.operand = .toClass (.resolved c) → r.Has c
  | _ => True

lemma Has.admitted {r : Resolver} {c : Class} (h : r.Has c) (hr : r.area.Tidy) :
    r.area.Admitted c := by
  rcases h with ⟨l, n, hc⟩ | rfl
  · exact (hr.rooted l n c hc).admitted
  · exact hr.admitted_stub

lemma tidies_discard {x : ResolverM α} (hx : Tidies x) : Tidies (discard x) :=
  closed_tidies.bind hx fun _ => closed_tidies.pure ()

lemma tidy_onArea_discard {x : AreaM α} {P : Area → Prop} {Q : α → Area → Prop}
    (hx : Performs Area.TidyStep P x Q) {r : Resolver} (hr : r.area.Tidy) (hP : P r.area) :
    (finalState (onArea (discard x)) r).area.Tidy := by
  rw [finalState_onArea, finalState_discard]
  exact Area.tidy_stable.reflTransGen (hx r.area hP).1 hr

/-- What one operation keeps. -/
lemma Operation.tidy {r : Resolver} (hr : r.area.Tidy) (op : Operation) (h : op.Genuine r) :
    (finalState op.perform r).area.Tidy := by
  cases op with
  | addLoader parent childFirst => exact hr.addLoader parent childFirst
  | define l d => exact hr.define l d
  | setPhase c p =>
    have hstep : Area.TidyStep r.area (r.area.setPhase c p) :=
      Area.tidyStep_of_eq rfl rfl Nat.le.refl rfl
    exact (hstep hr).1
  | load l name => exact tidy_onArea_discard (Area.tidy_load l name) hr hr
  | find l name => exact tidy_onArea_discard (Area.carries_rooted.findLoaded l name) hr hr
  | arrayOf c => exact tidy_onArea_discard (Area.tidy_arrayOf c) hr ⟨hr, h.admitted hr⟩
  | constrain name x y => exact tidy_onArea_discard (Area.tidy_addConstraint name x y) hr hr
  | accept l c fault =>
    refine (tidies_onArea (Area.tidy_checkLoaded l c ?_)).final hr
    cases fault with
    | none => exact .pure fun _ _ => trivial
    | some f => exact .throw f
  | assignable t dest => exact tidy_onArea_discard (Area.carries_rooted.assignable t dest) hr hr
  | merge t u =>
    exact tidy_onArea_discard
      (Area.carries_admitted.mergeTypes (fun _ _ _ hc hs => hc.superclass hs) t u) hr
      ⟨hr, fun s c hs hc => (h s c hs hc).admitted hr⟩
  | checkSubtypes => exact (tidies_discard (covers_tidies.checkSubtypes _ _ _ _ _ _)).final hr
  | resolveName => exact (tidies_discard (covers_tidies.resolveName _ _ _ _ _)).final hr
  | resolveClass u mode => exact (tidies_discard (covers_tidies.resolveClass u mode)).final hr
  | resolveField u mode => exact (tidies_discard (covers_tidies.resolveField u mode)).final hr
  | resolveMethod u mode => exact (tidies_discard (covers_tidies.resolveMethod u mode)).final hr
  | interfaceTarget target =>
    exact (tidies_discard (covers_tidies.interfaceTarget target)).final hr
  | instruction op u => exact (tidies_discard (covers_tidies.ofUse op u)).final hr
  | emit b i =>
    exact tidy_onArea_discard (emit_of_carries Area.carries_admitted b i) hr
      ⟨hr, fun c hc => (h c hc).admitted hr⟩

/-- One state of the resolver is followed by another, by an operation that is given only classes
that can be had. -/
def GenuineNext (r r' : Resolver) : Prop :=
  ∃ op : Operation, op.Genuine r ∧ r' = finalState op.perform r

/-- A number of such operations leads from one state of the resolver to another. -/
def GenuineRun : Resolver → Resolver → Prop := ReflTransGen GenuineNext

/-- What a whole run keeps. -/
lemma GenuineRun.tidy {r r' : Resolver} (h : GenuineRun r r') (hr : r.area.Tidy) :
    r'.area.Tidy := by
  induction h with
  | refl => exact hr
  | tail _ hnext ih =>
    obtain ⟨op, hgenuine, rfl⟩ := hnext
    exact op.tidy ih hgenuine

lemma genuineRun_performAll {ops : List Operation} (h : ∀ op ∈ ops, ∀ r, op.Genuine r)
    (r : Resolver) : GenuineRun r (performAll ops r) := by
  induction ops generalizing r with
  | nil => exact ReflTransGen.refl
  | cons op ops ih =>
    exact ReflTransGen.head ⟨op, h op List.mem_cons_self r, rfl⟩
      (ih (fun o ho => h o (List.mem_cons_of_mem _ ho)) _)

/-! ### Finding what was resolved -/

section

variable {l : LoaderId} {name : String} {c : Class} {r r' q : Resolver}

lemma find_of_load_short (hname : IsShortArray name) (hr : r.area.Sound) (hq : Evolves r' q)
    (h : Gives (perform (Area.load l name)) r c r') (component : AreaM (Option Class)) :
    Area.findArray l name true component q.area = .ok (some c) q.area := by
  obtain ⟨a, ha, rfl⟩ := gives_perform.1 h
  obtain ⟨rfl, -⟩ := Area.load_short_again .refl hr hname ha
  have hload := (Area.load_short_again hq.area hr hname ha).2
  rw [Area.findArray_short]
  rcases (hq.sound hr).load_short hname l with ⟨c', hc', hagain⟩ | ⟨-, e, hagain⟩ <;>
    rw [hload] at hagain <;> cases hagain
  rw [hc']

/-- A class of an array that a name was resolved to over a component that is found. -/
lemma find_of_array (hname : ¬ IsPlain name) {s : Spelling} {x : ResolutionM Class} {short : Bool}
    (hshort : short = true ↔ name.utf8ByteSize = 2) (hx : Built x.run) (hr : r.area.Sound)
    (hq : Evolves r' q) (htidy : q.area.Tidy)
    (hfind : ∀ e s', Gives x r e s' → Evolves s' q →
      Area.findSpelled l s q.area = .ok (some e) q.area)
    (hover : ∀ e : Class, e.arrayName = name →
      Area.findSpelled l s = Area.findSpelled l (.ofName e.name))
    (h : Gives (if short then perform (Area.load l name)
      else x >>= fun e => perform (Area.arrayOf e)) r c r') :
    Area.findArray l name short (Area.findSpelled l s) q.area = .ok (some c) q.area := by
  cases short with
  | true => exact find_of_load_short ⟨hname, hshort.1 rfl⟩ hr hq h _
  | false =>
    obtain ⟨e, s', he, harray⟩ := gives_bind.1 h
    have hs' := (he.evolves hx hr).sound hr
    have hlater := (harray.evolves (built_arrayOf e) hs').trans hq
    obtain ⟨a, ha, rfl⟩ := gives_perform.1 harray
    have hc := Area.kept_of_steps hq.area ((harray.evolves (built_arrayOf e) hs').sound hs')
      (Area.published?_of_arrayOf ha)
    exact htidy.findArray hname (fun hsize => absurd (hshort.2 hsize) (by simp))
      (hfind e s' he hlater) hc hover

lemma findSpelled_of_resolveSpelled {mode : ResolveMode} {cs : List Char}
    (hread : (Spelling.ofChars cs).Readable) (hr : r.area.Sound)
    (h : Gives (resolveSpelled l mode (.ofChars cs)) r c r') (hq : Evolves r' q)
    (htidy : q.area.Tidy) :
    Area.findSpelled l (.ofChars cs) q.area = .ok (some c) q.area := by
  fun_induction Spelling.ofChars cs generalizing r c r' with
  | case1 rest hhead ih =>
    refine find_of_array (not_isPlain_bracket rest) Spelling.isShort_iff
      (built_resolveSpelled _ _ _) hr hq htidy (fun e s' he hs' => ih hread hr he hs')
      (fun e he => ?_) h
    rw [Class.name_of_nested he hhead, Spelling.ofName, String.toList_ofList]
  | case2 rest hhead element helement hlt ih =>
    refine find_of_array (not_isPlain_bracket rest) Spelling.isShort_iff
      (built_resolveSpelled _ _ _) hr hq htidy (fun e s' he hs' => ih hread hr he hs')
      (fun e he => ?_) h
    rw [Class.name_of_object he helement, Spelling.ofName, String.toList_ofList]
  | case3 rest hhead helement =>
    unfold resolveSpelled at h
    split at h
    · next hs =>
      have hname : IsShortArray (String.ofList ('[' :: rest)) :=
        ⟨not_isPlain_bracket rest, Spelling.isShort_iff.1 hs⟩
      unfold Area.findSpelled
      rw [hs]
      exact find_of_load_short hname hr hq h _
    · exact absurd h gives_fail
  | case4 rest hnested hobject =>
    unfold Spelling.Readable at hread
    have hname : IsShortArray (String.ofList ('[' :: rest)) :=
      ⟨not_isPlain_bracket rest, Spelling.isShort_iff.1 hread⟩
    unfold resolveSpelled at h
    rw [if_pos hread] at h
    unfold Area.findSpelled
    rw [hread]
    exact find_of_load_short hname hr hq h _
  | case5 cs hplain =>
    have hname : IsPlain (String.ofList cs) := isPlain_of_forall hplain
    have hr' := (h.evolves (built_resolvePlain _ _ _) hr).sound hr
    have hc := Area.kept_of_steps hq.area hr' (published?_of_resolvePlain hname hr h)
    have hfind := Area.findSpelled_of_published hc
    rw [Spelling.ofName_eq_plain hname] at hfind
    exact hfind

/-- A class that a name was resolved to is found by that name in every later state. -/
lemma find_of_resolveSpelled {mode : ResolveMode} (hread : IsReadable name) (hr : r.area.Sound)
    (h : Gives (resolveSpelled l mode (.ofName name)) r c r') (hq : Evolves r' q)
    (htidy : q.area.Tidy) : Area.findLoaded l name q.area = .ok (some c) q.area :=
  findSpelled_of_resolveSpelled hread hr h hq htidy

end

end Resolver

end Linkage
