import Linkage.Machine.Run
import Linkage.Proofs.Machine.Layout

/-!
# Patch sites in the code area

Every patch site of every compiled method has a code word and a data word of its own. Installing a
method adds sites and leaves the words of the others alone; binding a site writes its two words and
no others.
-/

namespace Linkage

/-- A patch site by the number of its method and its position there. -/
@[ext]
structure SiteId where
  method : Nat
  index : Nat
  deriving DecidableEq, Repr

namespace Machine

variable {m : Machine}

/-- The patch site with a given number. -/
def site? (m : Machine) (id : SiteId) : Option PatchSite :=
  (m.methods[id.method]?).bind fun c => c.sites[id.index]?

/-- The word at a position of the code area. -/
def wordAt (m : Machine) (i : Nat) : Word := m.memory.wordAt i

/-- The machine with another state of a patch site. -/
def withState (m : Machine) (id : SiteId) (s : PatchState) : Machine :=
  { m with methods := m.methods.modify id.method fun c =>
      { c with sites := c.sites.modify id.index fun site => { site with state := s } } }

lemma siteState?_eq (m : Machine) (id : SiteId) :
    m.siteState? id.method id.index = (m.site? id).map PatchSite.state := rfl

lemma site?_withState (m : Machine) (id id' : SiteId) (s : PatchState) :
    (m.withState id s).site? id' =
      if id' = id then (m.site? id').map fun site => { site with state := s } else m.site? id' := by
  obtain ⟨k, i⟩ := id
  obtain ⟨k', i'⟩ := id'
  simp only [site?, withState, List.getElem?_modify, SiteId.mk.injEq]
  by_cases hk : k = k'
  · subst hk
    cases m.methods[k]? with
    | none => simp
    | some c => by_cases hi : i = i' <;> simp [hi, eq_comm]
  · cases m.methods[k']? <;> simp [hk, Ne.symm hk]

lemma site?_withState_self {id : SiteId} {s : PatchSite} (hs : m.site? id = some s)
    (state : PatchState) :
    (m.withState id state).site? id = some { s with state := state } := by
  rw [site?_withState, if_pos rfl, hs]
  rfl

/-- Where the patch sites of a machine lie. -/
structure Laid (m : Machine) : Prop where
  /-- Distances fit into code words. -/
  capacity : m.memory.capacity ≤ Builder.areaLimit
  used : m.memory.used ≤ m.memory.capacity
  /-- Methods are found under their numbers. -/
  numbered : ∀ (k : Nat) (c : CompiledMethod), m.methods[k]? = some c → c.number = k
  /-- Each site has a code word and a data word. -/
  placed : ∀ id s, m.site? id = some s → ∃ p d, s.position = wordAddress p ∧
    s.dataAddress = wordAddress d ∧ p < m.memory.used ∧ d < m.memory.used
  /-- No two sites share their code words. -/
  ownCode : ∀ id id' s s', m.site? id = some s → m.site? id' = some s' →
    s.position = s'.position → id = id'
  /-- No two sites share their data words. -/
  ownData : ∀ id id' s s', m.site? id = some s → m.site? id' = some s' →
    s.dataAddress = s'.dataAddress → id = id'
  /-- No code word is a data word. -/
  apart : ∀ id id' s s', m.site? id = some s → m.site? id' = some s' →
    s.position ≠ s'.dataAddress
  /-- A bound instruction does not trap. -/
  saved : ∀ id s, m.site? id = some s → isTrap s.saved = false
  /-- Methods lie in the words that are handed out. -/
  within : ∀ (k : Nat) (c : CompiledMethod), m.methods[k]? = some c →
    c.stop ≤ wordAddress m.memory.used
  /-- They lie one behind the other. -/
  spread : ∀ (j k : Nat) (c d : CompiledMethod), m.methods[j]? = some c →
    m.methods[k]? = some d → j < k → c.stop ≤ d.start
  /-- Sites lie in their methods. -/
  housed : ∀ (k : Nat) (c : CompiledMethod) (s : PatchSite), m.methods[k]? = some c →
    s ∈ c.sites → c.contains s.position = true ∧ c.contains s.dataAddress = true

/-- The methods of a machine in which the state of a site has changed. -/
lemma getElem?_withState {id : SiteId} {st : PatchState} {k : Nat} {c : CompiledMethod}
    (hc : (m.withState id st).methods[k]? = some c) : ∃ c', m.methods[k]? = some c' ∧
      c.number = c'.number ∧ c.start = c'.start ∧ c.stop = c'.stop ∧
      ∀ s ∈ c.sites,
        ∃ s' ∈ c'.sites, s.position = s'.position ∧ s.dataAddress = s'.dataAddress := by
  simp only [withState, List.getElem?_modify] at hc
  obtain ⟨c', hc', rfl⟩ := Option.map_eq_some_iff.1 hc
  refine ⟨c', hc', ?_⟩
  split
  · refine ⟨rfl, rfl, rfl, fun s hs => ?_⟩
    obtain ⟨i, hi⟩ := List.getElem?_of_mem hs
    simp only [List.getElem?_modify] at hi
    obtain ⟨s', hs', rfl⟩ := Option.map_eq_some_iff.1 hi
    refine ⟨s', List.mem_of_getElem? hs', ?_⟩
    split <;> exact ⟨rfl, rfl⟩
  · exact ⟨rfl, rfl, rfl, fun s hs => ⟨s, hs, rfl, rfl⟩⟩

/-- The layout does not depend on the states of the sites, nor on what their words hold. -/
lemma Laid.withState (h : m.Laid) (id : SiteId) (st : PatchState) : (m.withState id st).Laid := by
  have hsame : ∀ id' s', (m.withState id st).site? id' = some s' → ∃ s, m.site? id' = some s ∧
      s'.position = s.position ∧ s'.dataAddress = s.dataAddress ∧ s'.saved = s.saved := by
    intro id' s' hs'
    rw [site?_withState] at hs'
    split at hs'
    · obtain ⟨s, hs, rfl⟩ := Option.map_eq_some_iff.1 hs'
      exact ⟨s, hs, rfl, rfl, rfl⟩
    · exact ⟨s', hs', rfl, rfl, rfl⟩
  refine ⟨h.capacity, h.used, fun k c hc => ?_, fun id' s' hs' => ?_,
    fun i j s' t' hs' ht' heq => ?_, fun i j s' t' hs' ht' heq => ?_,
    fun i j s' t' hs' ht' heq => ?_, fun i s' hs' => ?_, fun k c hc => ?_,
    fun j k c d hc hd hlt => ?_, fun k c s' hc hs' => ?_⟩
  · obtain ⟨c', hc', hnumber, -⟩ := getElem?_withState hc
    rw [hnumber]
    exact h.numbered k c' hc'
  · obtain ⟨s, hs, hp, hd, -⟩ := hsame id' s' hs'
    obtain ⟨p, d, hpos, hdata, hlt⟩ := h.placed id' s hs
    exact ⟨p, d, hp.trans hpos, hd.trans hdata, hlt⟩
  · obtain ⟨s, hs, hp, -⟩ := hsame i s' hs'
    obtain ⟨t, ht, hp', -⟩ := hsame j t' ht'
    exact h.ownCode i j s t hs ht (hp.symm.trans (heq.trans hp'))
  · obtain ⟨s, hs, -, hd, -⟩ := hsame i s' hs'
    obtain ⟨t, ht, -, hd', -⟩ := hsame j t' ht'
    exact h.ownData i j s t hs ht (hd.symm.trans (heq.trans hd'))
  · obtain ⟨s, hs, hp, -⟩ := hsame i s' hs'
    obtain ⟨t, ht, -, hd, -⟩ := hsame j t' ht'
    exact h.apart i j s t hs ht (hp.symm.trans (heq.trans hd))
  · obtain ⟨s, hs, -, -, hsaved⟩ := hsame i s' hs'
    rw [hsaved]
    exact h.saved i s hs
  · obtain ⟨c', hc', -, -, hstop, -⟩ := getElem?_withState hc
    rw [hstop]
    exact h.within k c' hc'
  · obtain ⟨c', hc', -, -, hstop, -⟩ := getElem?_withState hc
    obtain ⟨d', hd', -, hstart, -⟩ := getElem?_withState hd
    rw [hstop, hstart]
    exact h.spread j k c' d' hc' hd' hlt
  · obtain ⟨c', hc', -, hstart, hstop, hsites⟩ := getElem?_withState hc
    obtain ⟨s, hs, hp, hd⟩ := hsites s' hs'
    have hhoused := h.housed k c' s hc' hs
    simp only [CompiledMethod.contains, hstart, hstop, hp, hd] at hhoused ⊢
    exact hhoused

/-- The machine with other contents of its code area. -/
def withWords (m : Machine) (words : Table Nat Word) : Machine :=
  { m with memory := { m.memory with words := words } }

lemma Laid.withWords (h : m.Laid) (words : Table Nat Word) : (m.withWords words).Laid :=
  ⟨h.capacity, h.used, h.numbered, h.placed, h.ownCode, h.ownData, h.apart, h.saved, h.within,
    h.spread, h.housed⟩

/-! ### Binding a site -/

/-- The word of the code area that an address names. -/
def word? (m : Machine) (address : Address) : Option Word := m.memory.read? address

lemma word?_wordAddress {i : Nat} (hi : i < m.memory.capacity) :
    m.word? (wordAddress i) = some (m.memory.wordAt i) :=
  CodeMemory.read?_wordAddress hi

lemma write_apply {i : Nat} (hi : i < m.memory.capacity) (w : Word) :
    write (wordAddress i) w m = .ok () (m.withWords (m.memory.words.insert i w)) := by
  unfold write
  rw [bind_of_ok (get_apply m)]
  simp only [CodeMemory.write_wordAddress hi]
  rfl

/-- What two words are written over. -/
lemma wordAt_insert_insert (p d i : Nat) (v w : Word) :
    (m.withWords ((m.memory.words.insert d w).insert p v)).memory.wordAt i =
      if p = i then v else if d = i then w else m.memory.wordAt i := by
  refine (CodeMemory.wordAt_insert (m := { m.memory with words := m.memory.words.insert d w })
    p i v).trans ?_
  rw [CodeMemory.wordAt_insert]

/-- Binding a site writes its two words and no others, in particular none of another site. -/
lemma bindSite_apply (h : m.Laid) {id : SiteId} {s : PatchSite} (hs : m.site? id = some s)
    (w : Word) :
    ∃ words, bindSite s w m = .ok () (m.withWords words) ∧
      (m.withWords words).word? s.position = some (.bits s.saved) ∧
      (m.withWords words).word? s.dataAddress = some w ∧
      (∀ id' s', id' ≠ id → m.site? id' = some s' →
        (m.withWords words).word? s'.position = m.word? s'.position ∧
        (m.withWords words).word? s'.dataAddress = m.word? s'.dataAddress) ∧
      ∀ i, s.position ≠ wordAddress i → s.dataAddress ≠ wordAddress i →
        (m.withWords words).memory.wordAt i = m.memory.wordAt i := by
  obtain ⟨p, d, hp, hd, hpu, hdu⟩ := h.placed id s hs
  have hpc : p < m.memory.capacity := Nat.lt_of_lt_of_le hpu h.used
  have hdc : d < m.memory.capacity := Nat.lt_of_lt_of_le hdu h.used
  have hpd : p ≠ d := by
    rintro rfl
    exact h.apart id id s s hs hs (hp.trans hd.symm)
  have hword : ∀ i < m.memory.capacity,
      (m.withWords ((m.memory.words.insert d w).insert p (.bits s.saved))).word? (wordAddress i) =
        some (if p = i then .bits s.saved else if d = i then w else m.memory.wordAt i) := by
    intro i hi
    rw [← wordAt_insert_insert]
    exact word?_wordAddress hi
  refine ⟨(m.memory.words.insert d w).insert p (.bits s.saved), ?_, ?_, ?_,
    fun id' s' hne hs' => ?_, fun i hpi hdi => ?_⟩
  · unfold bindSite
    rw [hd, hp, bind_of_ok (write_apply hdc w)]
    exact write_apply (m := m.withWords (m.memory.words.insert d w)) hpc _
  · rw [hp, hword p hpc, if_pos rfl]
  · rw [hd, hword d hdc, if_neg hpd, if_pos rfl]
  · obtain ⟨p', d', hp', hd', hpu', hdu'⟩ := h.placed id' s' hs'
    have hpc' : p' < m.memory.capacity := Nat.lt_of_lt_of_le hpu' h.used
    have hdc' : d' < m.memory.capacity := Nat.lt_of_lt_of_le hdu' h.used
    rw [hp', hd', hword p' hpc', hword d' hdc', word?_wordAddress hpc', word?_wordAddress hdc',
      if_neg, if_neg, if_neg, if_neg]
    · exact ⟨rfl, rfl⟩
    · rintro rfl
      exact hne (h.ownData id' id s' s hs' hs (hd'.trans hd.symm))
    · rintro rfl
      exact h.apart id id' s s' hs hs' (hp.trans hd'.symm)
    · rintro rfl
      exact h.apart id' id s' s hs' hs (hp'.trans hd.symm)
    · rintro rfl
      exact hne (h.ownCode id' id s' s hs' hs (hp'.trans hp.symm))
  · rw [wordAt_insert_insert, if_neg, if_neg]
    · rintro rfl
      exact hdi hd
    · rintro rfl
      exact hpi hp

/-! ### Installing a method -/

/-- What a new method does to the machine: the methods there were and the words in use stay, in
particular the sites and their words, and the sites that come with the method are not bound. -/
structure Installed (m m' : Machine) : Prop where
  laid : m'.Laid
  old : ∀ id s, m.site? id = some s → m'.site? id = some s ∧
    m'.word? s.position = m.word? s.position ∧ m'.word? s.dataAddress = m.word? s.dataAddress
  new : ∀ id s, m'.site? id = some s → m.site? id = none → s.state = .unpatched ∧
    m'.word? s.position = some (.bits trapWord) ∧ m'.word? s.dataAddress = some (.bits 0)
  methods : m.methods <+: m'.methods
  used : m.memory.used ≤ m'.memory.used
  words : ∀ i < m.memory.used, m'.memory.wordAt i = m.memory.wordAt i

/-- Nothing happens to patch sites as long as the code area and the methods stay. -/
lemma Laid.installed (h : m.Laid) {m' : Machine} (hmemory : m'.memory = m.memory)
    (hmethods : m'.methods = m.methods) : Installed m m' := by
  obtain ⟨resolver, memory, methods, registered, labels, programs, notes, spare⟩ := m'
  subst hmemory hmethods
  refine ⟨⟨h.capacity, h.used, h.numbered, h.placed, h.ownCode, h.ownData, h.apart, h.saved,
    h.within, h.spread, h.housed⟩, fun id s hs => ⟨hs, rfl, rfl⟩, fun id s hs hnone => ?_,
    List.prefix_rfl, Nat.le_refl _, fun _ _ => rfl⟩
  have hs : m.site? id = some s := hs
  rw [hs] at hnone
  cases hnone

lemma site?_append {m' : Machine} {c : CompiledMethod} (hm' : m'.methods = m.methods ++ [c])
    (id : SiteId) :
    m'.site? id = if id.method = m.methods.length then c.sites[id.index]? else m.site? id := by
  unfold site?
  rw [hm']
  rcases Nat.lt_trichotomy id.method m.methods.length with hlt | heq | hgt
  · rw [List.getElem?_append_left hlt, if_neg (Nat.ne_of_lt hlt)]
  · rw [if_pos heq, heq]
    simp
  · have hnone : (m.methods ++ [c])[id.method]? = none := by
      refine List.getElem?_eq_none ?_
      rw [List.length_append]
      exact hgt
    rw [hnone, if_neg (Nat.ne_of_gt hgt), List.getElem?_eq_none (Nat.le_of_lt hgt)]

lemma method_lt_of_site? {id : SiteId} {s : PatchSite} (h : m.site? id = some s) :
    id.method < m.methods.length := by
  obtain ⟨c, hc, -⟩ := Option.bind_eq_some_iff.1 h
  exact (List.getElem?_eq_some_iff.1 hc).1

lemma index_injective {α β : Type} {f : α → β} {xs : List α} (h : (xs.map f).Nodup) {i j : Nat}
    {x y : α} (hx : xs[i]? = some x) (hy : xs[j]? = some y) (heq : f x = f y) : i = j := by
  have hi : i < (xs.map f).length := by
    simpa using (List.getElem?_eq_some_iff.1 hx).1
  refine (List.getElem?_inj hi h).1 ?_
  simp [hx, hy, heq]

/-- The code of a method is put behind the words in use. -/
structure Puts (m : Machine) (b : Builder) (c : CompiledMethod) (m' : Machine) : Prop where
  formed : b.Formed
  room : m.memory.used + b.reservation ≤ m.memory.capacity
  number : c.number = m.methods.length
  start : c.start = wordAddress m.memory.used
  entry : c.entry = wordAddress (m.memory.used + b.data.length)
  stop : c.stop = wordAddress (m.memory.used + (b.data.length + b.code.length))
  sites : c.sites.Perm (b.patches.map
    (b.siteOf (wordAddress m.memory.used + b.data.length * wordSize)))
  methods : m'.methods = m.methods ++ [c]
  capacity : m'.memory.capacity = m.memory.capacity
  used : m'.memory.used = m.memory.used + b.reservation
  words : ∀ i, m'.memory.wordAt i =
    if m.memory.used ≤ i then (b.words[i - m.memory.used]?).getD (m.memory.wordAt i)
    else m.memory.wordAt i

namespace Puts

variable {b : Builder} {c : CompiledMethod} {m' : Machine} {id id' : SiteId} {s s' : PatchSite}

lemma within (hput : Puts m b c m') (h : m.Laid) :
    m.memory.used + b.data.length ≤ Builder.areaLimit := by
  have hsize := b.size_le_reservation
  have hroom := hput.room
  have hcapacity := h.capacity
  omega

/-- A site is one of those there were, or it lies in the words of the new method. -/
lemma split (hput : Puts m b c m') (h : m.Laid) (hs : m'.site? id = some s) :
    (∃ p d, m.site? id = some s ∧ s.position = wordAddress p ∧ s.dataAddress = wordAddress d ∧
      p < m.memory.used ∧ d < m.memory.used) ∨
    ∃ q ∈ b.patches, m.site? id = none ∧ s.state = .unpatched ∧ isTrap s.saved = false ∧
      s.position = wordAddress (m.memory.used + b.data.length + q.codeIndex) ∧
      s.dataAddress = wordAddress (m.memory.used + q.dataIndex) ∧
      q.codeIndex < b.code.length ∧ q.dataIndex < b.data.length ∧
      id.method = m.methods.length ∧ c.sites[id.index]? = some s := by
  rw [site?_append hput.methods] at hs
  split at hs
  · next heq =>
    obtain ⟨q, hq, hstate, hsaved, hpos, hdata⟩ :=
      Builder.exists_of_mem_sites hput.formed (hput.within h) hput.sites (List.mem_of_getElem? hs)
    refine .inr ⟨q, hq, ?_, hstate, hsaved, hpos, hdata, hput.formed.codeIndex_lt hq,
      hput.formed.dataIndex_lt hq, heq, hs⟩
    simp [site?, heq]
  · obtain ⟨p, d, hpos, hdata, hlt⟩ := h.placed id s hs
    exact .inl ⟨p, d, hs, hpos, hdata, hlt⟩

/-- A method is one of those there were, or the new one. -/
lemma method_cases (hput : Puts m b c m') {k : Nat} {c' : CompiledMethod}
    (hc' : m'.methods[k]? = some c') :
    m.methods[k]? = some c' ∨ k = m.methods.length ∧ c' = c := by
  rw [hput.methods] at hc'
  rcases Nat.lt_or_ge k m.methods.length with hlt | hge
  · rw [List.getElem?_append_left hlt] at hc'
    exact .inl hc'
  · rw [List.getElem?_append_right hge, List.getElem?_singleton] at hc'
    split at hc' <;> cases hc'
    exact .inr ⟨by omega, rfl⟩

/-- Where the code words of the new method lie. -/
lemma codePosition_eq (hput : Puts m b c m') (h : m.Laid) {k : Nat} (hk : k < b.code.length) :
    c.codePosition k = wordAddress (m.memory.used + b.data.length + k) := by
  have hsize := b.size_le_reservation
  have hroom := hput.room
  have hcapacity := h.capacity
  unfold CompiledMethod.codePosition
  rw [hput.entry, ← wordAddress_add]
  exact Builder.wrapAddress_wordAddress (by omega)

lemma numbered (hput : Puts m b c m') (h : m.Laid) {k : Nat} {c' : CompiledMethod}
    (hc' : m'.methods[k]? = some c') : c'.number = k := by
  rcases hput.method_cases hc' with hc' | ⟨rfl, rfl⟩
  · exact h.numbered k c' hc'
  · exact hput.number

lemma placed (hput : Puts m b c m') (h : m.Laid) (hs : m'.site? id = some s) :
    ∃ p d, s.position = wordAddress p ∧ s.dataAddress = wordAddress d ∧
      p < m'.memory.used ∧ d < m'.memory.used := by
  have hsize := b.size_le_reservation
  rw [hput.used]
  rcases hput.split h hs with ⟨p, d, -, hpos, hdata, hp, hd⟩ |
    ⟨q, -, -, -, -, hpos, hdata, hcode, hslot, -⟩
  · exact ⟨p, d, hpos, hdata, by omega, by omega⟩
  · exact ⟨_, _, hpos, hdata, by omega, by omega⟩

lemma ownCode (hput : Puts m b c m') (h : m.Laid) (hs : m'.site? id = some s)
    (hs' : m'.site? id' = some s') (heq : s.position = s'.position) : id = id' := by
  rcases hput.split h hs with ⟨p, -, hs, hpos, -, hp, -⟩ |
    ⟨q, -, -, -, -, hpos, -, -, -, hid, hs⟩ <;>
  rcases hput.split h hs' with ⟨p', -, hs', hpos', -, hp', -⟩ |
    ⟨q', -, -, -, -, hpos', -, -, -, hid', hs'⟩
  · exact h.ownCode id id' s s' hs hs' heq
  · have := wordAddress_injective (hpos.symm.trans (heq.trans hpos'))
    omega
  · have := wordAddress_injective (hpos.symm.trans (heq.trans hpos'))
    omega
  · have hindex := index_injective (Builder.nodup_positions hput.formed hput.sites) hs hs' heq
    exact SiteId.ext (hid.trans hid'.symm) hindex

lemma ownData (hput : Puts m b c m') (h : m.Laid) (hs : m'.site? id = some s)
    (hs' : m'.site? id' = some s') (heq : s.dataAddress = s'.dataAddress) : id = id' := by
  rcases hput.split h hs with ⟨-, d, hs, -, hdata, -, hd⟩ |
    ⟨q, -, -, -, -, -, hdata, -, -, hid, hs⟩ <;>
  rcases hput.split h hs' with ⟨-, d', hs', -, hdata', -, hd'⟩ |
    ⟨q', -, -, -, -, -, hdata', -, -, hid', hs'⟩
  · exact h.ownData id id' s s' hs hs' heq
  · have := wordAddress_injective (hdata.symm.trans (heq.trans hdata'))
    omega
  · have := wordAddress_injective (hdata.symm.trans (heq.trans hdata'))
    omega
  · have hindex := index_injective
      (Builder.nodup_dataAddresses hput.formed (hput.within h) hput.sites) hs hs' heq
    exact SiteId.ext (hid.trans hid'.symm) hindex

lemma apart (hput : Puts m b c m') (h : m.Laid) (hs : m'.site? id = some s)
    (hs' : m'.site? id' = some s') : s.position ≠ s'.dataAddress := by
  intro heq
  rcases hput.split h hs with ⟨p, -, hs, hpos, -, hp, -⟩ | ⟨q, -, -, -, -, hpos, -⟩ <;>
  rcases hput.split h hs' with ⟨-, d', hs', -, hdata', -, hd'⟩ |
    ⟨q', -, -, -, -, -, hdata', -, hslot', -⟩
  · exact h.apart id id' s s' hs hs' heq
  all_goals
    have := wordAddress_injective (hpos.symm.trans (heq.trans hdata'))
    omega

lemma within_used (hput : Puts m b c m') (h : m.Laid) {k : Nat} {c' : CompiledMethod}
    (hc' : m'.methods[k]? = some c') : c'.stop ≤ wordAddress m'.memory.used := by
  have hsize := b.size_le_reservation
  rw [hput.used]
  rcases hput.method_cases hc' with hc' | ⟨-, rfl⟩
  · exact Int.le_trans (h.within k c' hc') (wordAddress_le (by omega))
  · rw [hput.stop]
    exact wordAddress_le (by omega)

lemma spread (hput : Puts m b c m') (h : m.Laid) {j k : Nat} {c' d : CompiledMethod}
    (hc' : m'.methods[j]? = some c') (hd : m'.methods[k]? = some d) (hlt : j < k) :
    c'.stop ≤ d.start := by
  rcases hput.method_cases hc' with hc' | ⟨rfl, -⟩ <;>
  rcases hput.method_cases hd with hd | ⟨rfl, rfl⟩
  · exact h.spread j k c' d hc' hd hlt
  · exact hput.start ▸ h.within j c' hc'
  · exact absurd (List.getElem?_eq_some_iff.1 hd).1 (Nat.lt_asymm hlt)
  · exact absurd hlt (Nat.lt_irrefl _)

lemma housed (hput : Puts m b c m') (h : m.Laid) {k : Nat} {c' : CompiledMethod}
    (hc' : m'.methods[k]? = some c') (hs : s ∈ c'.sites) :
    c'.contains s.position = true ∧ c'.contains s.dataAddress = true := by
  rcases hput.method_cases hc' with hc' | ⟨-, rfl⟩
  · exact h.housed k c' s hc' hs
  · obtain ⟨q, hq, -, -, hpos, hdata⟩ :=
      Builder.exists_of_mem_sites hput.formed (hput.within h) hput.sites hs
    have hcode := hput.formed.codeIndex_lt hq
    have hslot := hput.formed.dataIndex_lt hq
    simp only [CompiledMethod.contains, hput.start, hput.stop, hpos, hdata, Bool.and_eq_true,
      decide_eq_true_eq]
    exact ⟨⟨wordAddress_le (by omega), wordAddress_lt (by omega)⟩, wordAddress_le (by omega),
      wordAddress_lt (by omega)⟩

lemma laid (hput : Puts m b c m') (h : m.Laid) : m'.Laid where
  capacity := hput.capacity ▸ h.capacity
  used := by
    rw [hput.used, hput.capacity]
    exact hput.room
  numbered _ _ := hput.numbered h
  placed _ _ := hput.placed h
  ownCode _ _ _ _ := hput.ownCode h
  ownData _ _ _ _ := hput.ownData h
  apart _ _ _ _ := hput.apart h
  saved id s hs := by
    rcases hput.split h hs with ⟨-, -, hs, -⟩ | ⟨-, -, -, -, hsaved, -⟩
    · exact h.saved id s hs
    · exact hsaved
  within _ _ := hput.within_used h
  spread _ _ _ _ := hput.spread h
  housed _ _ _ := hput.housed h

/-- What the new method holds. -/
lemma read (hput : Puts m b c m') {n : Nat} {w : Word} (hw : b.words[n]? = some w) :
    m'.word? (wordAddress (m.memory.used + n)) = some w := by
  have hsize := b.size_le_reservation
  have hlength := b.length_words
  have hlt := (List.getElem?_eq_some_iff.1 hw).1
  have hcapacity := hput.capacity
  have hroom := hput.room
  rw [word?_wordAddress (by omega), hput.words, if_pos (Nat.le_add_right _ _),
    Nat.add_sub_cancel_left, hw]
  rfl

/-- Words that were in use before are left alone. -/
lemma read_old (hput : Puts m b c m') (h : m.Laid) {n : Nat} (hn : n < m.memory.used) :
    m'.word? (wordAddress n) = m.word? (wordAddress n) := by
  have hfit := h.used
  have hcapacity := hput.capacity
  rw [word?_wordAddress (by omega), word?_wordAddress (by omega), hput.words,
    if_neg (Nat.not_le.2 hn)]

lemma installed (hput : Puts m b c m') (h : m.Laid) : Installed m m' where
  laid := hput.laid h
  old id s hs := by
    obtain ⟨p, d, hpos, hdata, hp, hd⟩ := h.placed id s hs
    refine ⟨?_, ?_, ?_⟩
    · rw [site?_append hput.methods, if_neg (Nat.ne_of_lt (method_lt_of_site? hs))]
      exact hs
    · rw [hpos, hput.read_old h hp]
    · rw [hdata, hput.read_old h hd]
  new id s hs hnone := by
    rcases hput.split h hs with ⟨-, -, hs, -⟩ | ⟨q, hq, -, hstate, -, hpos, hdata, -⟩
    · rw [hs] at hnone
      cases hnone
    · refine ⟨hstate, ?_, ?_⟩
      · rw [hpos, Nat.add_assoc]
        exact hput.read (Builder.getElem?_words_code hput.formed hq)
      · rw [hdata]
        exact hput.read (Builder.getElem?_words_data hput.formed hq)
  methods := hput.methods ▸ List.prefix_append _ _
  used := hput.used ▸ Nat.le_add_right _ _
  words i hi := by rw [hput.words, if_neg (Nat.not_le.2 hi)]

end Puts

/-- A method is put into the code area and registered, or there is no room for it and nothing
happens. -/
lemma install_registers (hfit : m.memory.used ≤ m.memory.capacity) {b : Builder} (hb : b.Formed)
    (label : String) (method : MethodHandle) :
    (∃ e, install label method b m = .error e m) ∨
    ∃ c m', install label method b m = .ok c m' ∧ Puts m b c m' ∧ m'.resolver = m.resolver ∧
      m'.registered = m.registered ++ [m.methods.length] := by
  by_cases hroom : m.memory.capacity - m.memory.used < b.reservation
  · have hallocate : m.memory.allocate b.reservation =
        .error (.codeAreaExhausted m.memory.used m.memory.capacity) := if_pos hroom
    refine .inl ⟨.codeAreaExhausted m.memory.used m.memory.capacity, ?_⟩
    exact (bind_of_ok (get_apply m)).trans (ofExcept_bind_of_error hallocate)
  · have hsize := b.size_le_reservation
    have hlength := b.length_words
    have hallocate : m.memory.allocate b.reservation =
        .ok (wordAddress m.memory.used, m.memory.grow b.reservation) := if_neg hroom
    have hfits : m.memory.used + b.words.length ≤ (m.memory.grow b.reservation).capacity := by
      change _ ≤ m.memory.capacity
      omega
    obtain ⟨words, hwrite, hwords⟩ := CodeMemory.writeAll_wordAddress hfits
    obtain ⟨c, hc, hnumber, hstart, hentry, hstop, hsites⟩ :=
      Builder.compiled_eq hb m.methods.length method (wordAddress m.memory.used)
    have hinstall : install label method b m = .ok c { m with
        memory := { m.memory.grow b.reservation with words := words }
        methods := m.methods ++ [c]
        registered := m.registered ++ [m.methods.length]
        labels := m.labels.insert label m.methods.length } := by
      refine (bind_of_ok (get_apply m)).trans ?_
      refine (ofExcept_bind_of_ok hallocate).trans ?_
      refine (ofExcept_bind_of_ok hwrite).trans ?_
      exact ofExcept_bind_of_ok hc
    refine .inr ⟨c, _, hinstall, ?_, rfl, rfl⟩
    exact ⟨hb, by omega, hnumber, hstart, hentry.trans (wordAddress_add _ _).symm,
      hstop.trans (wordAddress_add _ _).symm, hsites, rfl, rfl, rfl, hwords⟩

lemma install_puts (h : m.Laid) {b : Builder} (hb : b.Formed) (label : String)
    (method : MethodHandle) :
    (∃ e, install label method b m = .error e m) ∨
    ∃ c m', install label method b m = .ok c m' ∧ Puts m b c m' ∧ m'.resolver = m.resolver := by
  rcases install_registers h.used hb label method with
    hfull | ⟨c, m', hinstall, hputs, hresolver, -⟩
  · exact .inl hfull
  · exact .inr ⟨c, m', hinstall, hputs, hresolver⟩

/-- A method is installed, or there is no room for it and nothing happens. -/
lemma install_cases (h : m.Laid) {b : Builder} (hb : b.Formed) (label : String)
    (method : MethodHandle) :
    (∃ e, install label method b m = .error e m) ∨
    ∃ c m', install label method b m = .ok c m' ∧ Installed m m' := by
  rcases install_puts h hb label method with hfull | ⟨c, m', hinstall, hputs, -⟩
  · exact .inl hfull
  · exact .inr ⟨c, m', hinstall, hputs.installed h⟩

end Machine

end Linkage
