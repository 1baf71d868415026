import Linkage.Proofs.Machine.Frame
import Linkage.Proofs.Machine.Prompt

/-!
# Installed code means what was emitted

A method that was compiled lies in the code area as its instructions say, and it keeps meaning them:
whenever one of its instructions runs, that is with its own opcode and with what its own data word
holds, be it at once or after its site was bound, at the next call or from within an initializer.
-/

namespace Linkage

open Relation

namespace Machine

variable {m m' m'' u : Machine} {c : CompiledMethod} {code : List Instruction} {i : Instruction}
  {k : Nat} {e : Execution} {init : Class → MachineM Unit}

/-! ### Running an instruction -/

/-- What an instruction of a method runs with, where `m` is the machine afterwards. -/
structure Obeys (m : Machine) (c : CompiledMethod) (code : List Instruction) (k : Nat)
    (i : Instruction) (e : Execution) : Prop where
  opcode : e.opcode = i.opcode
  /-- An instruction without a data word runs without a value. -/
  bare : c.slot? code k = none → e.value = none
  /-- An instruction with a data word runs with what the word holds. -/
  value : ∀ a, c.slot? code k = some a → ∃ w, m.word? a = some w ∧ e.value = some w
  /-- A number that is part of the instruction is extended to 64 bits by its sign. -/
  immediate : i.operand = .none → i.opcode.hasImmediate = true → ∃ w, e.value = some (.bits w) ∧
    w = wordOfInt i.immediate ∧
    (-2147483648 ≤ i.immediate → i.immediate < 2147483648 → w.toInt64.toInt = i.immediate)

lemma read_eq_ok {address : Address} {w : Word} (hrun : read address m = .ok w m') :
    m.word? address = some w ∧ m' = m := by
  unfold read at hrun
  rw [bind_of_ok (get_apply m)] at hrun
  cases hw : m.memory.read? address with
  | none =>
    simp only [hw] at hrun
    cases hrun
  | some w' =>
    simp only [hw] at hrun
    cases hrun
    exact ⟨hw, rfl⟩

/-- How an instruction can run: from its code word, or from the word that is there after a trap. -/
lemma executeWith_eq_some {address : Address}
    (hrun : executeWith init address m = .ok (some e) m'') :
    ∃ c w, m.find? address = some c ∧ m.word? address = some w ∧
      (w.isTrap = false ∧ fetched c.entry address w m = .ok e m'' ∨
        w.isTrap = true ∧ ∃ outcome m₁ w₁, trapWith init address m = .ok outcome m₁ ∧
          outcome ≠ .noPatchSite ∧ m₁.word? address = some w₁ ∧
          fetched c.entry address w₁ m₁ = .ok e m'') := by
  have hsome : ∀ {x : MachineM Execution} {m : Machine},
      (do return some (← x)) m = .ok (some e) m'' → x m = .ok e m'' := by
    intro x m h
    obtain ⟨e', m₁, hx, h⟩ := bind_eq_ok.1 h
    cases h
    exact hx
  unfold executeWith at hrun
  rw [bind_of_ok (get_apply m)] at hrun
  cases hc : m.find? address with
  | none =>
    simp only [hc] at hrun
    cases hrun
  | some c =>
    simp only [hc] at hrun
    obtain ⟨w, m₁, hw, hrest⟩ := bind_eq_ok.1 hrun
    obtain ⟨hw, rfl⟩ := read_eq_ok hw
    refine ⟨c, w, rfl, hw, ?_⟩
    split at hrest
    · next htrap =>
      obtain ⟨outcome, m₂, houtcome, hlast⟩ := bind_eq_ok.1 hrest
      split at hlast
      · cases hlast
      · next hne =>
        obtain ⟨w₁, m₃, hw₁, hfetch⟩ := bind_eq_ok.1 hlast
        obtain ⟨hw₁, rfl⟩ := read_eq_ok hw₁
        exact .inr ⟨htrap, outcome, m₃, w₁, houtcome, hne, hw₁, hsome hfetch⟩
    · next htrap => exact .inl ⟨by simpa using htrap, hsome hrest⟩

/-- A code word that stands for an instruction makes the machine run that instruction. -/
lemma fetched_of_encodes {w : UInt64} {address : Address} (hw : c.Encodes code k w)
    (hi : code[k]? = some i) (hslot : ∀ a, c.slot? code k = some a → wrapAddress a = a)
    (hrun : fetched c.entry address (.bits w) m = .ok e m'') :
    m'' = m ∧ e.opcode = i.opcode ∧ (c.slot? code k = none → e.value = none) ∧
      ∀ a, c.slot? code k = some a → ∃ v, m.word? a = some v ∧ e.value = some v := by
  obtain ⟨i', d, hi', hdecode, hzero, hdistance⟩ := hw
  obtain rfl : i' = i := Option.some.inj (hi'.symm.trans hi)
  have hword : decodeWord address (.bits w) m = .ok (i'.opcode, d) m := by
    unfold decodeWord
    simp only [hdecode]
    rfl
  unfold fetched at hrun
  rw [bind_of_ok hword] at hrun
  dsimp only at hrun
  split at hrun
  · next hd =>
    cases hrun
    have hnone := hzero.1 hd
    refine ⟨rfl, rfl, fun _ => rfl, fun a ha => ?_⟩
    rw [hnone] at ha
    cases ha
  · next hd =>
    obtain ⟨v, m₁, hv, hrun⟩ := bind_eq_ok.1 hrun
    cases hrun
    obtain ⟨hv, rfl⟩ := read_eq_ok hv
    refine ⟨rfl, rfl, fun hnone => absurd (hzero.2 hnone) hd, fun a ha => ⟨v, ?_, rfl⟩⟩
    rwa [hdistance a ha, hslot a ha] at hv

/-- A code word that stands for an instruction does not trap. -/
lemma isTrap_of_encodes {w : UInt64} (hw : c.Encodes code k w) (hi : code[k]? = some i)
    (hop : i.opcode ≠ .trap) : isTrap w = false := by
  obtain ⟨i', d, hi', hdecode, -⟩ := hw
  obtain rfl : i' = i := Option.some.inj (hi'.symm.trans hi)
  obtain ⟨op, hnumber, hsame⟩ := Option.map_eq_some_iff.1 hdecode
  refine decide_eq_false fun htrap => hop ?_
  rw [htrap, Opcode.ofNumber?_number] at hnumber
  cases hnumber
  exact (congrArg Prod.fst hsame).symm

/-- An instruction that is fetched from its code word runs with its data word. -/
lemma fetched_of_slot {w : UInt64} (hw : c.Encodes code k w) (hi : code[k]? = some i) {a : Address}
    (ha : c.slot? code k = some a) (hwrap : wrapAddress a = a) {v : Word} (hv : m.word? a = some v)
    (address : Address) : fetched c.entry address (.bits w) m = .ok ⟨i.opcode, some v⟩ m := by
  obtain ⟨i', d, hi', hdecode, hzero, hdistance⟩ := hw
  obtain rfl : i' = i := Option.some.inj (hi'.symm.trans hi)
  have hword : decodeWord address (.bits w) m = .ok (i'.opcode, d) m := by
    unfold decodeWord
    simp only [hdecode]
    rfl
  have hd : d ≠ 0 := by
    rintro rfl
    rw [hzero.1 rfl] at ha
    cases ha
  have hread : read (wrapAddress (c.entry + d)) m = .ok v m := by
    rw [hdistance a ha, hwrap]
    exact read_of_word? hv
  unfold fetched
  rw [bind_of_ok hword]
  dsimp only
  rw [if_neg hd, bind_of_ok hread]
  rfl

/-- A method that was just compiled lies in the code area as its instructions say. -/
lemma faithful_of_compile (hm : m.Laid) {label : String} {method : MethodHandle}
    (hrun : compile label method code m = .ok c m') :
    m'.Faithful c code ∧ m'.Laid ∧ m'.methods[c.number]? = some c ∧ c.fresh = c := by
  obtain ⟨b, m₁, ha, hm₁, hputs⟩ := compile_puts hm hrun
  have hemitted := Builder.emitted_of_emitAll ha
  refine ⟨hputs.faithful hm₁ hemitted, hputs.laid hm₁, ?_, hputs.fresh_eq⟩
  rw [hputs.methods, hputs.number]
  simp

/-- A method that was just compiled has its instructions bound as they were in its code. -/
lemma holds_of_compile (hm : m.Laid) {label : String} {method : MethodHandle}
    (hrun : compile label method code m = .ok c m') :
    ∃ b, ({} : Builder).emitAll code m.area = .ok b m'.area ∧
      ∀ k x, b.binding? k = some x → m'.Holds c code k x := by
  obtain ⟨b, m₁, ha, hm₁, hputs⟩ := compile_puts hm hrun
  exact ⟨b, ha, fun k x hx => hputs.holds hm₁ (Builder.emitted_of_emitAll ha) hx⟩

/-! ### A method in a later machine -/

/-- A method that was compiled from code, as it is in a later machine. -/
structure Standing (m u : Machine) (c : CompiledMethod) (code : List Instruction) : Prop where
  faithful : m.Faithful c.fresh code
  laid : m.Laid
  preserves : Preserves m u
  laid' : u.Laid
  method : u.methods[c.number]? = some c

namespace Standing

variable {s : PatchSite} {a : Address}

/-- The sites of the method are found under its number. -/
lemma site?_eq (h : Standing m u c code) {j : Nat} (hs : c.sites[j]? = some s) :
    u.site? ⟨c.number, j⟩ = some s := by
  simp [site?, h.method, hs]

lemma wrap (h : Standing m u c code) {n : Nat} (hn : n < m.memory.used) :
    wrapAddress (wordAddress n) = wordAddress n := by
  have hused := h.laid.used
  have hcapacity := h.laid.capacity
  exact Builder.wrapAddress_wordAddress (by omega)

lemma wrap_of_slot (h : Standing m u c code) (ha : c.slot? code k = some a) :
    wrapAddress a = a := by
  obtain ⟨-, -, n, hn, rfl⟩ := h.faithful.slot k a ha
  exact h.wrap hn

lemma contains_position (h : Standing m u c code) (hk : k < code.length) :
    c.contains (c.codePosition k) = true := by
  obtain ⟨hlow, hhigh, -⟩ := h.faithful.position k hk
  have hstart : c.start ≤ c.codePosition k := Int.le_trans h.faithful.entry hlow
  have hstop : c.codePosition k < c.stop := hhigh
  simp [CompiledMethod.contains, hstart, hstop]

/-- A site belongs to an instruction that refers to something. -/
lemma site (h : Standing m u c code) (hs : s ∈ c.sites) :
    ∃ k i, code[k]? = some i ∧ i.operand ≠ .none ∧ s.position = c.codePosition k ∧
      c.slot? code k = some s.dataAddress ∧ c.Encodes code k s.saved := by
  have hfresh : { s with state := .unpatched } ∈ c.fresh.sites := List.mem_map_of_mem hs
  obtain ⟨k, i, hi, hreference, hposition, hslot, hsaved, -⟩ := h.faithful.waiting _ hfresh
  exact ⟨k, i, hi, hreference, hposition, hslot, hsaved⟩

/-- The site of an instruction knows its data word. -/
lemma site_of_position (h : Standing m u c code) (hs : s ∈ c.sites) (hi : code[k]? = some i)
    (hposition : s.position = c.codePosition k) :
    i.operand ≠ .none ∧ c.slot? code k = some s.dataAddress ∧ c.Encodes code k s.saved := by
  obtain ⟨j, i', hi', hreference, hposition', hslot, hsaved⟩ := h.site hs
  obtain rfl : j = k := h.faithful.distinct j (List.getElem?_eq_some_iff.1 hi').1 k
    (List.getElem?_eq_some_iff.1 hi).1 (hposition'.symm.trans hposition)
  obtain rfl : i' = i := Option.some.inj (hi'.symm.trans hi)
  exact ⟨hreference, hslot, hsaved⟩

/-- An instruction without a site stands in its code word as long as the machine runs. -/
lemma word_of_bound (h : Standing m u c code) (hk : k < code.length)
    (hnone : ∀ s ∈ c.sites, s.position ≠ c.codePosition k) :
    ∃ w, u.word? (c.codePosition k) = some (.bits w) ∧ c.Encodes code k w := by
  obtain ⟨hlow, -, n, hn, heq⟩ := h.faithful.position k hk
  have heq : c.codePosition k = wordAddress n := heq
  have hsited : ¬ u.Sited (c.codePosition k) := by
    intro hsited
    obtain ⟨s, hs, hposition | hdata⟩ :=
      h.laid'.exists_of_sited h.method (h.contains_position hk) hsited
    · exact hnone s hs hposition
    · obtain ⟨j, i, -, -, -, hslot, -⟩ := h.site hs
      have hbefore := Int.lt_of_lt_of_le (h.faithful.slot j _ hslot).2.1 hlow
      exact absurd hbefore (hdata ▸ Int.lt_irrefl _)
  have hnone' : ∀ s ∈ c.fresh.sites, s.position ≠ c.fresh.codePosition k := by
    intro s hs
    obtain ⟨s', hs', rfl⟩ := List.mem_map.1 hs
    exact hnone s' hs'
  obtain ⟨w, hw, hencodes⟩ := h.faithful.bound k hk hnone'
  refine ⟨w, ?_, hencodes⟩
  have hw : m.word? (c.codePosition k) = some (.bits w) := hw
  rw [heq] at hsited hw ⊢
  rw [h.preserves.word? h.laid h.laid' hn hsited, hw]

/-- The data word of an instruction without a site stays as it is as long as the machine runs. -/
lemma word_of_slot (h : Standing m u c code) (hk : k < code.length)
    (hnone : ∀ s ∈ c.sites, s.position ≠ c.codePosition k) (ha : c.slot? code k = some a) :
    u.word? a = m.word? a := by
  obtain ⟨hlow, hhigh, n, hn, rfl⟩ := h.faithful.slot k a ha
  obtain ⟨hentry, hstop, -⟩ := h.faithful.position k hk
  have hcontains : c.contains (wordAddress n) = true := by
    have hstart : c.start ≤ wordAddress n := hlow
    have hbefore : wordAddress n < c.stop := Int.lt_trans (Int.lt_of_lt_of_le hhigh hentry) hstop
    simp [CompiledMethod.contains, hstart, hbefore]
  refine h.preserves.word? h.laid h.laid' hn fun hsited => ?_
  obtain ⟨s, hs, hsame⟩ := h.laid'.exists_of_sited h.method hcontains hsited
  obtain ⟨j, i, hi, -, hposition, hslot, -⟩ := h.site hs
  rcases hsame with hsame | hsame
  · have hbehind := (h.faithful.position j (List.getElem?_eq_some_iff.1 hi).1).1
    have hbehind : c.entry ≤ c.codePosition j := hbehind
    rw [← hposition, hsame] at hbehind
    exact absurd (Int.lt_of_lt_of_le hhigh hbehind) (Int.lt_irrefl _)
  · rw [hsame] at hslot
    obtain rfl := h.faithful.own j k _ hslot ha
    exact hnone s hs hposition

/-- A number that is part of an instruction stands in its data word as long as the machine runs. -/
lemma word_of_immediate (h : Standing m u c code) (hi : code[k]? = some i)
    (hnone : i.operand = .none) (ha : c.slot? code k = some a) :
    u.word? a = some (.bits (wordOfInt i.immediate)) := by
  have hunsited : ∀ s ∈ c.sites, s.position ≠ c.codePosition k := fun s hs hposition =>
    (h.site_of_position hs hi hposition).1 hnone
  rw [h.word_of_slot (List.getElem?_eq_some_iff.1 hi).1 hunsited ha]
  exact h.faithful.immediate k i _ hi hnone ha

/-- An instruction is bound as it was when the method was compiled. -/
lemma holds (h : Standing m u c code) (hk : k < code.length) {x : Builder.Binding}
    (hx : m.Holds c.fresh code k x) : u.Holds c code k x := by
  cases hx with
  | early unsited slot word =>
    have hunsited : ∀ s ∈ c.sites, s.position ≠ c.codePosition k := fun s hs =>
      unsited { s with state := .unpatched } (List.mem_map_of_mem hs)
    exact .early hunsited slot ((h.word_of_slot hk hunsited slot).trans word)
  | late site position =>
    obtain ⟨s, hs, rfl⟩ := List.mem_map.1 site
    exact .late (s := s) hs position

/-- What an instruction runs with that is fetched from a word which stands for it. -/
lemma obeys (h : Standing m u c code) (hi : code[k]? = some i) {w : UInt64} {address : Address}
    (hw : c.Encodes code k w) (himmediate : i.operand = .none → m' = u)
    (hrun : fetched c.entry address (.bits w) m' = .ok e m'') : Obeys m'' c code k i e := by
  obtain ⟨rfl, hopcode, hbare, hvalue⟩ :=
    fetched_of_encodes hw hi (fun _ ha => h.wrap_of_slot ha) hrun
  refine ⟨hopcode, hbare, hvalue, fun hnone hop => ?_⟩
  obtain ⟨a, ha⟩ := Option.isSome_iff_exists.1 ((h.faithful.slots k i hi).2 (.inr hop))
  obtain ⟨v, hv, hvalue⟩ := hvalue a ha
  rw [himmediate hnone, h.word_of_immediate hi hnone ha] at hv
  cases hv
  exact ⟨_, hvalue, rfl, toInt_wordOfInt⟩

end Standing

end Machine

namespace Watch

open Machine (Standing Obeys Faithful)

variable {m : Machine} {t t' : Watch} {init : Class → WatchM Unit} {init' : Class → MachineM Unit}
  {id : SiteId} {s : PatchSite}

/-! ### Traps that end well -/

/-- After a trap that does not fail the site is bound. -/
lemma patched_of_patchSite (hinit : ∀ c, Keeps (init c)) (ht : Sound t)
    (hs : t.machine.site? id = some s) {outcome : TrapOutcome}
    (hrun : patchSite init id s t = .ok outcome t') : Bound t' id s := by
  have hsite : HasSite id s t := ⟨s.state, hs⟩
  have hsteps := (performs_patchSite hinit id s t ⟨ht, hsite⟩).1
  rw [finalState_of_ok hrun] at hsteps
  obtain ⟨ht', hsite'⟩ := (hasSite_stable id s).reflTransGen hsteps ⟨ht, hsite⟩
  refine ht'.bound hsite' ?_
  obtain ⟨h, m⟩ := t
  by_cases hid : m.Patched id
  · rw [patchSite_of_patched hid] at hrun
    cases hrun
    exact hid
  · rw [patchSite_of_not_patched hid] at hrun
    obtain ⟨hstart, hasked⟩ := steps_asked ht hs hid
    have hbusy := busy_stable _ _ _ _ _ hasked
      (busy_stable _ _ _ _ _ hstart (busy_trapped ht hsite))
    obtain ⟨answer, u, hanswer, hrest⟩ := bind_eq_ok.1 hrun
    have hask := ((keeps_patchWord hinit s.patcher s.operand).attempt _ hbusy.1).1
    rw [finalState_of_ok hanswer] at hask
    have hbusy := (busy_stable h.length id s).reflTransGen hask hbusy
    cases answer with
    | error f =>
      obtain ⟨m', hleave, -⟩ := leaveSite_cases h.length id f u
      cases hleave.symm.trans hrest
    | ok w =>
      have hnote : Step u ⟨u.history ++ [⟨.returned h.length id w, u.machine⟩], u.machine⟩ :=
        .note ⟨by simp, by simp, by simp [Binds]⟩
      obtain ⟨hpatched, hfinish⟩ | ⟨-, words, hfinish, -⟩ :=
        finishSite_cases (busy_stable h.length id s _ _ hnote hbusy) w
      · cases hfinish.symm.trans hrest
        exact hpatched
      · cases hfinish.symm.trans hrest
        obtain ⟨st, hu⟩ := hbusy.2.1
        exact (Machine.patched_withState_self (m := u.machine.withWords words) hu).2 rfl

lemma Follows.eq_ok {α : Type} {x : WatchM α} {y : MachineM α} (h : Follows x y) {v : α}
    {m' : Machine} (hy : y t.machine = .ok v m') : ∃ t', x t = .ok v t' ∧ t'.machine = m' := by
  have hrun := h t
  rw [hy] at hrun
  cases hx : x t with
  | ok v t' =>
    rw [hx] at hrun
    cases hrun
    exact ⟨t', rfl, rfl⟩
  | error e t' =>
    rw [hx] at hrun
    cases hrun

/-! ### Instructions that run -/

section

variable {c : CompiledMethod} {code : List Instruction} {i : Instruction} {k : Nat}
  {e : Execution} {m'' : Machine}

/-- Without a site the code word is the instruction, and a trap finds nothing to bind. -/
lemma obeys_of_bound (hstanding : Standing m t.machine c code) (hi : code[k]? = some i)
    (hnone : ∀ s ∈ c.sites, s.position ≠ c.codePosition k)
    (hrun : Machine.executeWith init' (c.codePosition k) t.machine = .ok (some e) m'') :
    Obeys m'' c code k i e := by
  have hk := (List.getElem?_eq_some_iff.1 hi).1
  obtain ⟨d, w, hd, hw, hcases⟩ := Machine.executeWith_eq_some hrun
  obtain rfl := hstanding.laid'.eq_of_find? hstanding.method (hstanding.contains_position hk) hd
  obtain ⟨v, hv, hencodes⟩ := hstanding.word_of_bound hk hnone
  obtain rfl : w = .bits v := Option.some.inj (hw.symm.trans hv)
  rcases hcases with ⟨-, hfetch⟩ | ⟨-, outcome, m₁, w₁, htrap, hne, -⟩
  · exact hstanding.obeys hi hencodes (fun _ => rfl) hfetch
  · unfold Machine.trapWith at htrap
    rw [bind_of_ok (get_apply t.machine)] at htrap
    simp only [hd, siteIndex?_eq_none hnone] at htrap
    cases htrap
    exact absurd rfl hne

/-- With a site the instruction runs from the word that the site knows, which is there already or
after the trap. -/
lemma obeys_of_site (hstanding : Standing m t.machine c code) (ht : Sound t)
    (hinit : Initializes init init') (hi : code[k]? = some i) (hs : s ∈ c.sites)
    (hposition : s.position = c.codePosition k)
    (hrun : Machine.executeWith init' (c.codePosition k) t.machine = .ok (some e) m'') :
    Obeys m'' c code k i e := by
  have hk := (List.getElem?_eq_some_iff.1 hi).1
  obtain ⟨d, w, hd, hw, hcases⟩ := Machine.executeWith_eq_some hrun
  obtain rfl := ht.laid.eq_of_find? hstanding.method (hstanding.contains_position hk) hd
  obtain ⟨hreference, -, hsaved⟩ := hstanding.site_of_position hs hi hposition
  obtain ⟨j, hj⟩ := List.getElem?_of_mem hs
  have hsite := hstanding.site?_eq hj
  have hinstep := ht.now _ s hsite
  rw [← hposition] at hd hw hcases
  rcases hcases with ⟨hrunning, hfetch⟩ | ⟨-, outcome, m₁, w₁, htrap, -, hw₁, hfetch⟩
  · have hstate : s.state = .patched := by
      by_contra hstate
      obtain rfl : w = .bits trapWord :=
        Option.some.inj (hw.symm.trans (hinstep.waiting hstate).1)
      cases hrunning
    obtain rfl : w = .bits s.saved := Option.some.inj (hw.symm.trans (hinstep.bound hstate).1)
    exact hstanding.obeys hi hsaved (fun hnone => absurd hnone hreference) hfetch
  · rw [Machine.trapWith_of_find? ht.laid hsite hd rfl init'] at htrap
    obtain ⟨t', hwatched, rfl⟩ := (follows_patchSite hinit.follows ⟨d.number, j⟩ s).eq_ok htrap
    have hbound := patched_of_patchSite hinit.keeps ht hsite hwatched
    obtain rfl : w₁ = .bits s.saved := Option.some.inj (hw₁.symm.trans hbound.code)
    exact hstanding.obeys hi hsaved (fun hnone => absurd hnone hreference) hfetch

/-- An instruction runs as it was emitted, whatever happened to the machine in between. -/
lemma obeys_of_execute (hstanding : Standing m t.machine c code) (ht : Sound t)
    (hinit : Initializes init init') (hi : code[k]? = some i)
    (hrun : Machine.executeWith init' (c.codePosition k) t.machine = .ok (some e) m'') :
    Obeys m'' c code k i e := by
  by_cases hnone : ∀ s ∈ c.sites, s.position ≠ c.codePosition k
  · exact obeys_of_bound hstanding hi hnone hrun
  · obtain ⟨s, hs, hposition⟩ : ∃ s ∈ c.sites, s.position = c.codePosition k := by
      simpa using hnone
    exact obeys_of_site hstanding ht hinit hi hs hposition hrun

/-! ### All runs -/

/-- A method that was compiled before is still there. -/
lemma Visits.standing {words : Nat} (hwords : words ≤ 2 ^ 28)
    (hmemory : CodeMemory.create words = .ok m.memory) (hmethods : m.methods = [])
    (ht : Visits m t) {n : Nat} {o : Observation} (ho : t.history[n]? = some o)
    (hlast : n + 1 < t.history.length) {label : String} {method : MethodHandle}
    (hevent : o.event = .called (.request (.compile label method code))) {m' : Machine}
    (hrun : Machine.compile label method code o.machine = .ok c m') :
    ∃ d, d.fresh = c ∧ Standing m' t.machine d code := by
  have hstart : Sound ⟨[], m⟩ := sound_fresh hwords hmemory hmethods
  obtain ⟨hsound, hpreserved⟩ := ht.of_stable preserved_stable hstart ⟨hstart, by simp⟩
  have hlaid : o.machine.Laid := (ht.earlier ho).sound hwords hmemory hmethods |>.laid
  obtain ⟨hfaithful, hlaid', hmethod, hfresh⟩ := Machine.faithful_of_compile hlaid hrun
  obtain ⟨o', ho', hmachine⟩ := ht.compiled ho hlast hevent
  rw [finalState_of_ok hrun] at hmachine
  have hpreserves := hmachine ▸ hpreserved o' ho'
  obtain ⟨d, hd, hdfresh⟩ := hpreserves.method hmethod
  rw [hfresh] at hdfresh
  subst hdfresh
  exact ⟨d, rfl, hfaithful, hlaid', hpreserves, hsound.laid, hd⟩

/-- Compiled code means what was emitted, in every state in which the machine is seen. A method that
is compiled lies in the code area as its instructions say, and one that cannot be compiled leaves
the code area and the methods alone. And after a call that compiled a method, be it made from
outside or by an initializer, every instruction of the method that runs does so with its opcode and
with what its data word holds. -/
theorem compiled_code_means_what_was_emitted {words : Nat} (hwords : words ≤ 2 ^ 28)
    (hmemory : CodeMemory.create words = .ok m.memory) (hmethods : m.methods = [])
    (ht : Visits m t) :
    (∀ label method code c m', Machine.compile label method code t.machine = .ok c m' →
      m'.Faithful c code) ∧
    (∀ label method code f m', Machine.compile label method code t.machine = .error f m' →
      m'.memory = t.machine.memory ∧ m'.methods = t.machine.methods ∧
        m'.registered = t.machine.registered ∧ m'.labels = t.machine.labels) ∧
    ∀ n o label method code c m', t.history[n]? = some o → n + 1 < t.history.length →
      o.event = .called (.request (.compile label method code)) →
      Machine.compile label method code o.machine = .ok c m' →
      ∀ init init', Initializes init init' → ∀ k i e m'', code[k]? = some i →
        Machine.executeWith init' (c.codePosition k) t.machine = .ok (some e) m'' →
        Obeys m'' c code k i e := by
  have hsound := ht.sound hwords hmemory hmethods
  refine ⟨fun label method code c m' hrun => ?_, fun label method code f m' hrun => ?_, ?_⟩
  · exact (Machine.faithful_of_compile hsound.laid hrun).1
  · obtain ⟨resolver, rfl⟩ := Machine.compile_eq_error hsound.laid hrun
    exact ⟨rfl, rfl, rfl, rfl⟩
  · intro n o label method code c m' ho hlast hevent hrun init init' hinit k i e m'' hi hexecute
    obtain ⟨d, rfl, hstanding⟩ :=
      ht.standing hwords hmemory hmethods ho hlast hevent hrun
    have hobeys := obeys_of_execute hstanding hsound hinit hi hexecute
    exact ⟨hobeys.opcode, hobeys.bare, hobeys.value, hobeys.immediate⟩

end

/-- A method that makes an object of a class and has a negative number. -/
def makesAndPushes? (m : Machine) : Option (List Call) :=
  (m.area.published? .bootstrap "p/A").bind fun c => (c.methodAt? 0).map fun method =>
    [.request (.compile "m" method
      [⟨.new, .toClass (.unresolved ⟨method, ⟨c, "p/A"⟩, []⟩), 0⟩, ⟨.bipush, .none, -5⟩])]

/-- Whether the call at a place in the history compiled a method and an instruction of the method
runs afterwards. -/
def runsCompiled (t : Watch) (n k : Nat) : Bool :=
  match t.history[n]? with
  | some ⟨.called (.request (.compile label method code)), m⟩ =>
    match Machine.compile label method code m with
    | .ok c _ => n + 1 < t.history.length && k < code.length &&
      yields Option.isSome (Machine.execute (c.codePosition k) t.machine)
    | .error .. => false
  | _ => false

lemma exists_of_runsCompiled {n k : Nat} (h : runsCompiled t n k = true) :
    ∃ o label method code c m' i e m'', t.history[n]? = some o ∧ n + 1 < t.history.length ∧
      o.event = .called (.request (.compile label method code)) ∧
      Machine.compile label method code o.machine = .ok c m' ∧ code[k]? = some i ∧
      Machine.execute (c.codePosition k) t.machine = .ok (some e) m'' := by
  unfold runsCompiled at h
  split at h
  · next label method code m ho =>
    split at h
    · next c m' hrun =>
      simp only [Bool.and_eq_true, decide_eq_true_eq] at h
      obtain ⟨⟨hlast, hk⟩, hyields⟩ := h
      obtain ⟨found, m'', hexecute, hsome⟩ := exists_of_yields hyields
      obtain ⟨e, rfl⟩ := Option.isSome_iff_exists.1 hsome
      exact ⟨_, label, method, code, c, m', code[k], e, m'', ho, hlast, rfl, hrun,
        List.getElem?_eq_getElem hk, hexecute⟩
    · cases h
  · cases h

/-- Both instructions of a method run as they were emitted: the one whose site is bound by the
initializer that its own trap runs, and the one with a negative number. -/
theorem object_and_number_run_as_emitted :
    ∃ calls t, makesAndPushes? (smallMachine.after (selfUsing 16)) = some calls ∧
      t = after ⟨[], smallMachine⟩ (selfUsing 16 ++ calls) ∧
      ∀ k ∈ [0, 1], ∃ o label method code c m' i e m'', t.history[6]? = some o ∧
        o.event = .called (.request (.compile label method code)) ∧
        Machine.compile label method code o.machine = .ok c m' ∧ m'.Faithful c code ∧
        code[k]? = some i ∧
        Machine.execute (c.codePosition k) t.machine = .ok (some e) m'' ∧
        Obeys m'' c code k i e := by
  have htest : ((makesAndPushes? (smallMachine.after (selfUsing 16))).any fun calls =>
      [0, 1].all (runsCompiled (after ⟨[], smallMachine⟩ (selfUsing 16 ++ calls)) 6)) = true := by
    decide +kernel
  obtain ⟨calls, hcalls, htest⟩ := (Option.any_eq_true _ _).1 htest
  refine ⟨calls, _, hcalls, rfl, fun k hk => ?_⟩
  obtain ⟨o, label, method, code, c, m', i, e, m'', ho, hlast, hevent, hrun, hi, hexecute⟩ :=
    exists_of_runsCompiled (List.all_eq_true.1 htest k hk)
  have hvisits : Visits smallMachine _ := .between (selfUsing 16 ++ calls)
  have hfaithful := (compiled_code_means_what_was_emitted (show 4 ≤ 2 ^ 28 by decide) rfl rfl
    (hvisits.earlier ho)).1 label method code c m' hrun
  have hobeys := (compiled_code_means_what_was_emitted (show 4 ≤ 2 ^ 28 by decide) rfl rfl
    hvisits).2.2 6 o label method code c m' ho hlast hevent hrun _ _ .outside k i e m'' hi hexecute
  exact ⟨o, label, method, code, c, m', i, e, m'', ho, hevent, hrun, hfaithful, hi, hexecute,
    hobeys⟩

end Watch

end Linkage
