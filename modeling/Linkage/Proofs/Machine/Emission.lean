import Linkage.Proofs.Machine.Readiness

/-!
# What code is made of instructions

Instructions become three lists that belong together only by their places: code words, data words
and patches. `Builder.Emitted` says how they hang together, whatever the instructions: the data
words stand in the order of the instructions that have one, and each patch is one of an instruction
and its own data word. Distances from the entry count backwards over the data words and go through
32 bits of a code word, from which they come out again.

`Machine.Faithful` is what follows for a method in the code area.
-/

namespace Linkage

/-! ### Code words -/

/-- A code word holds an opcode and a distance of 32 bits. -/
lemma decode?_encode (op : Opcode) {d : Int} (hlow : -2147483648 ≤ d) (hhigh : d < 2147483648) :
    decode? (encode op d) = some (op, d) := by
  have hnumber : op.number < 256 := op.number_lt
  have hunit : opcodeUnit = 72057594037927936 := rfl
  have hhalf : halfValues = 4294967296 := rfl
  obtain ⟨low, hlow', hlt⟩ : ∃ low : Nat, (low : Int) = d % (4294967296 : Nat) ∧ low < 4294967296 :=
    ⟨(d % (4294967296 : Nat)).toNat, by omega, by omega⟩
  have hword : (encode op d).toNat = op.number * 72057594037927936 + low := by
    unfold encode
    rw [hhalf, ← hlow', Int.toNat_natCast, hunit, UInt64.toNat_ofNat', Nat.mod_eq_of_lt (by omega)]
  have hdiv : (op.number * 72057594037927936 + low) / 72057594037927936 = op.number := by omega
  have hmod : ((op.number * 72057594037927936 + low : Nat) : Int) % (4294967296 : Nat) = low := by
    omega
  have hdistance : Int.bmod (low : Nat) 4294967296 = d := by
    rw [hlow', Int.emod_bmod]
    exact Int.bmod_eq_of_le (by omega) (by omega)
  unfold decode?
  rw [hword, hunit, hhalf, hdiv, hmod, Opcode.ofNumber?_number, Option.map_some, hdistance]

/-- The word of a number of 32 bits stands for that number. -/
lemma toInt_wordOfInt {n : Int} (hlow : -2147483648 ≤ n) (hhigh : n < 2147483648) :
    (wordOfInt n).toInt64.toInt = n := by
  have hvalues : wordValues = 18446744073709551616 := rfl
  have hnat : (wordOfInt n).toNat = (n % (18446744073709551616 : Nat)).toNat := by
    unfold wordOfInt
    rw [hvalues, UInt64.toNat_ofNat', Nat.mod_eq_of_lt (by omega)]
  have hint : (wordOfInt n).toInt64.toInt = Int.bmod (wordOfInt n).toNat 18446744073709551616 :=
    BitVec.toInt_eq_toNat_bmod _
  rw [hint, hnat, Int.toNat_of_nonneg (by omega), Int.emod_bmod]
  exact Int.bmod_eq_of_le (by omega) (by omega)

/-! ### Data words -/

/-- The place of the data word of an instruction among the data words of the code. -/
def slotIndex? (code : List Instruction) (k : Nat) : Option Nat :=
  (code[k]?).bind fun i =>
    if i.takesSlot then some ((code.take k).countP Instruction.takesSlot) else none

section

variable {code : List Instruction} {i : Instruction} {j k n : Nat}

lemma slotIndex?_eq_some (h : slotIndex? code k = some n) :
    n = (code.take k).countP Instruction.takesSlot ∧ ∃ i, code[k]? = some i ∧ i.takesSlot := by
  obtain ⟨i, hi, h⟩ := Option.bind_eq_some_iff.1 h
  split at h <;> cases h
  next hslot => exact ⟨rfl, i, hi, hslot⟩

lemma isSome_slotIndex? (hi : code[k]? = some i) : (slotIndex? code k).isSome = i.takesSlot := by
  cases hslot : i.takesSlot <;> simp [slotIndex?, hi, hslot]

lemma slotIndex?_append (hk : k < code.length) :
    slotIndex? (code ++ [i]) k = slotIndex? code k := by
  unfold slotIndex?
  rw [List.getElem?_append_left hk, List.take_append_of_le_length (Nat.le_of_lt hk)]

lemma slotIndex?_length : slotIndex? (code ++ [i]) code.length =
    if i.takesSlot then some (code.countP Instruction.takesSlot) else none := by
  simp [slotIndex?]

/-- The data words up to and with that of an instruction. -/
lemma countP_take_succ (hi : code[k]? = some i) (hslot : i.takesSlot = true) :
    (code.take (k + 1)).countP Instruction.takesSlot =
      (code.take k).countP Instruction.takesSlot + 1 := by
  rw [List.take_add_one, hi, List.countP_append]
  simp [hslot]

lemma countP_take_le (code : List Instruction) (hjk : j ≤ k) :
    (code.take j).countP Instruction.takesSlot ≤ (code.take k).countP Instruction.takesSlot :=
  ((List.take_prefix_take_left hjk).sublist).countP_le

/-- An instruction has its data word among those of the code. -/
lemma slotIndex?_lt (h : slotIndex? code k = some n) : n < code.countP Instruction.takesSlot := by
  obtain ⟨rfl, i, hi, hslot⟩ := slotIndex?_eq_some h
  have hnext := countP_take_succ hi hslot
  have hall := ((List.take_sublist (k + 1) code)).countP_le (p := Instruction.takesSlot)
  omega

/-- No two instructions share their data words. -/
lemma slotIndex?_injective (hj : slotIndex? code j = some n) (hk : slotIndex? code k = some n) :
    j = k := by
  obtain ⟨hj, i, hi, hslot⟩ := slotIndex?_eq_some hj
  obtain ⟨hk, i', hi', hslot'⟩ := slotIndex?_eq_some hk
  have hnext := countP_take_succ hi hslot
  have hnext' := countP_take_succ hi' hslot'
  rcases Nat.lt_trichotomy j k with hlt | heq | hgt
  · have := countP_take_le code (show j + 1 ≤ k from hlt)
    omega
  · exact heq
  · have := countP_take_le code (show k + 1 ≤ j from hgt)
    omega

end

/-! ### Code on its way -/

namespace Builder

variable {b b' : Builder} {done code : List Instruction} {i : Instruction} {a a' : Area} {k : Nat}

/-- What was made of instructions: a code word for each, a data word for each that has one, and
patches only for instructions that refer to something. -/
structure Emitted (code : List Instruction) (b : Builder) : Prop where
  formed : b.Formed
  length : b.code.length = code.length
  data : b.data.length = code.countP Instruction.takesSlot
  instruction : ∀ k i, code[k]? = some i → b.code[k]? = some (i.opcode, slotIndex? code k)
  patched : ∀ p ∈ b.patches, slotIndex? code p.codeIndex = some p.dataIndex ∧
    ∃ i, code[p.codeIndex]? = some i ∧ i.operand ≠ .none
  immediate : ∀ k i n, code[k]? = some i → i.operand = .none → slotIndex? code k = some n →
    b.data[n]? = some (.bits (wordOfInt i.immediate))

lemma emitted_empty : Emitted [] {} :=
  ⟨formed_empty, rfl, rfl, by simp, by simp, by simp⟩

/-- The part of a new instruction in what is made of it and those before. -/
lemma Emitted.snoc (h : Emitted done b) (hformed : b'.Formed) (ws : List Word)
    (ps : List PendingPatch) (hdata : b'.data = b.data ++ ws)
    (hcode : b'.code = b.code ++ [(i.opcode, if i.takesSlot then some b.data.length else none)])
    (hpatches : b'.patches = b.patches ++ ps) (hcount : ws.length = if i.takesSlot then 1 else 0)
    (hps : ∀ p ∈ ps, p.codeIndex = b.code.length ∧ p.dataIndex = b.data.length ∧
      i.takesSlot = true ∧ i.operand ≠ .none)
    (hws : i.operand = .none → ∀ w ∈ ws, w = .bits (wordOfInt i.immediate)) :
    Emitted (done ++ [i]) b' := by
  have hlast : slotIndex? (done ++ [i]) done.length =
      if i.takesSlot then some b.data.length else none := by
    rw [slotIndex?_length, h.data]
  refine ⟨hformed, ?_, ?_, fun k j hj => ?_, fun p hp => ?_, fun k j n hj hnone hn => ?_⟩
  · rw [hcode, List.length_append, List.length_append, h.length]
    rfl
  · rw [hdata, List.length_append, List.countP_append, hcount, h.data]
    simp [List.countP_cons]
  · rcases Watch.getElem?_append_singleton hj with hj | ⟨rfl, rfl⟩
    · rw [slotIndex?_append (List.getElem?_eq_some_iff.1 hj).1, hcode]
      exact getElem?_append_of_some (h.instruction k j hj)
    · rw [hlast, hcode, ← h.length]
      simp
  · rw [hpatches, List.mem_append] at hp
    rcases hp with hp | hp
    · obtain ⟨hslot, j, hj, hreference⟩ := h.patched p hp
      rw [slotIndex?_append (List.getElem?_eq_some_iff.1 hj).1]
      exact ⟨hslot, j, getElem?_append_of_some hj, hreference⟩
    · obtain ⟨hindex, hdataIndex, hslot, hreference⟩ := hps p hp
      rw [hindex, h.length, hlast, hdataIndex, if_pos hslot]
      exact ⟨rfl, i, by simp, hreference⟩
  · rcases Watch.getElem?_append_singleton hj with hj | ⟨rfl, rfl⟩
    · rw [slotIndex?_append (List.getElem?_eq_some_iff.1 hj).1] at hn
      rw [hdata]
      exact getElem?_append_of_some (h.immediate k j n hj hnone hn)
    · rw [hlast] at hn
      split at hn <;> cases hn
      next hslot =>
        rw [if_pos hslot] at hcount
        obtain ⟨w, rfl⟩ := List.length_eq_one_iff.1 hcount
        rw [hdata, hws hnone w (List.mem_singleton.2 rfl)]
        simp

/-- One more instruction. -/
lemma Emitted.emit (h : Emitted done b) (hrun : b.emit i a = .ok b' a') :
    Emitted (done ++ [i]) b' := by
  have hformed := h.formed.emit hrun
  cases emit_adds hrun with
  | word w slot immediate =>
    refine h.snoc hformed [w] [] rfl ?_ (List.append_nil _).symm ?_ (by simp) ?_
    · rw [if_pos slot]
      rfl
    · rw [if_pos slot]
      rfl
    · simpa using immediate
  | bare slot =>
    refine h.snoc hformed [] [] (List.append_nil _).symm ?_
      (List.append_nil _).symm ?_ (by simp) (by simp)
    · rw [slot]
      rfl
    · rw [slot]
      rfl
  | patched patcher operand _ reference =>
    have slot := Instruction.takesSlot_of_ne_none reference
    refine h.snoc hformed [.bits 0] [⟨b.code.length, b.data.length, patcher, operand⟩] rfl ?_ rfl
      ?_ ?_ fun hnone => absurd hnone reference
    · rw [if_pos slot]
      rfl
    · rw [if_pos slot]
      rfl
    · simpa using ⟨slot, reference⟩

/-- All instructions, one after the other. -/
lemma Emitted.emitAll (h : Emitted done b) (hrun : b.emitAll code a = .ok b' a') :
    Emitted (done ++ code) b' := by
  induction code generalizing done b a with
  | nil =>
    cases hrun
    rwa [List.append_nil]
  | cons i code ih =>
    obtain ⟨b₁, a₁, hfirst, hrest⟩ := bind_eq_ok.1 hrun
    have hdone := ih (h.emit hfirst) hrest
    rwa [List.append_assoc] at hdone

lemma emitted_of_emitAll (hrun : ({} : Builder).emitAll code a = .ok b a') : b.Emitted code :=
  emitted_empty.emitAll hrun

/-! ### Words of a method -/

/-- An instruction without a patch stands in its code word from the start. -/
lemma Emitted.word_of_not_patched (h : Emitted code b) (hi : code[k]? = some i)
    (hnone : ∀ p ∈ b.patches, p.codeIndex ≠ k) : b.words[b.data.length + k]? =
      some (.bits (encode i.opcode ((slotIndex? code k).elim 0 b.displacement))) := by
  have hword : b.codeWords[k]? =
      some (encode i.opcode ((slotIndex? code k).elim 0 b.displacement)) := by
    simp [codeWords, h.instruction k i hi]
  have htrapped : b.trappedWords[k]? =
      some (encode i.opcode ((slotIndex? code k).elim 0 b.displacement)) := by
    simpa [trappedWords, List.getElem?_zipIdx, hword] using fun p hp hk => absurd hk (hnone p hp)
  simp [words, List.getElem?_append_right, htrapped]

/-- What is put back when a patch is bound. -/
lemma Emitted.saved_eq (h : Emitted code b) {p : PendingPatch} (hp : p ∈ b.patches) :
    ∃ i, code[p.codeIndex]? = some i ∧ i.operand ≠ .none ∧ ∀ entry,
      (b.siteOf entry p).saved = encode i.opcode (b.displacement p.dataIndex) := by
  obtain ⟨hslot, i, hi, hreference⟩ := h.patched p hp
  refine ⟨i, hi, hreference, fun entry => ?_⟩
  simp [siteOf, codeWords, h.instruction _ i hi, hslot]

end Builder

/-! ### Methods in the code area -/

namespace CompiledMethod

/-- The address of the data word of an instruction, in a method that was compiled from code. -/
def slot? (c : CompiledMethod) (code : List Instruction) (k : Nat) : Option Address :=
  (slotIndex? code k).map fun (n : Nat) => c.start + n * wordSize

/-- A code word stands for an instruction: it holds the opcode and the distance from the entry to
the data word, which is 0 if and only if there is none. -/
def Encodes (c : CompiledMethod) (code : List Instruction) (k : Nat) (w : UInt64) : Prop :=
  ∃ i d, code[k]? = some i ∧ decode? w = some (i.opcode, d) ∧ (d = 0 ↔ c.slot? code k = none) ∧
    ∀ a, c.slot? code k = some a → c.entry + d = a

end CompiledMethod

namespace Machine

variable {m m' : Machine} {c : CompiledMethod} {code : List Instruction} {b : Builder}
  {i : Instruction} {k n : Nat}

/-- A method lies in the code area as the code that it was compiled from says. -/
structure Faithful (m : Machine) (c : CompiledMethod) (code : List Instruction) : Prop where
  entry : c.start ≤ c.entry
  /-- Each instruction has a code word behind the entry. -/
  position : ∀ k < code.length, c.entry ≤ c.codePosition k ∧ c.codePosition k < c.stop ∧
    ∃ n < m.memory.used, c.codePosition k = wordAddress n
  /-- No two instructions share their code words. -/
  distinct : ∀ j < code.length, ∀ k < code.length, c.codePosition j = c.codePosition k → j = k
  /-- An instruction has a data word if it refers to something or holds a number. -/
  slots : ∀ k i, code[k]? = some i →
    ((c.slot? code k).isSome ↔ i.operand ≠ .none ∨ i.opcode.hasImmediate = true)
  /-- Data words lie before the entry. -/
  slot : ∀ k a, c.slot? code k = some a → c.start ≤ a ∧ a < c.entry ∧
    ∃ n < m.memory.used, a = wordAddress n
  /-- No two instructions share their data words. -/
  own : ∀ j k a, c.slot? code j = some a → c.slot? code k = some a → j = k
  /-- An instruction without a site stands in its code word. -/
  bound : ∀ k < code.length, (∀ s ∈ c.sites, s.position ≠ c.codePosition k) →
    ∃ w, m.word? (c.codePosition k) = some (.bits w) ∧ c.Encodes code k w
  /-- An instruction with a site traps, and the site knows the instruction and its data word. -/
  waiting : ∀ s ∈ c.sites, ∃ k i, code[k]? = some i ∧ i.operand ≠ .none ∧
    s.position = c.codePosition k ∧ c.slot? code k = some s.dataAddress ∧
    c.Encodes code k s.saved ∧ m.word? s.position = some (.bits trapWord)
  /-- A number that is part of an instruction stands in its data word. -/
  immediate : ∀ k i a, code[k]? = some i → i.operand = .none → c.slot? code k = some a →
    m.word? a = some (.bits (wordOfInt i.immediate))

/-- How the instruction at a place in a method is bound: its word lies in the code area, or it has a
site with its patcher. -/
inductive Holds (m : Machine) (c : CompiledMethod) (code : List Instruction) (k : Nat) :
    Builder.Binding → Prop
  | early {a : Address} {w : Word} (unsited : ∀ s ∈ c.sites, s.position ≠ c.codePosition k)
      (slot : c.slot? code k = some a) (word : m.word? a = some w) : Holds m c code k (.early w)
  | late {s : PatchSite} (site : s ∈ c.sites) (position : s.position = c.codePosition k) :
      Holds m c code k (.late s.patcher s.operand)

lemma Holds.exists_site {patcher : Patcher} {operand : PatchOperand}
    (h : Holds m c code k (.late patcher operand)) : ∃ (j : Nat) (s : PatchSite),
      c.sites[j]? = some s ∧ s.position = c.codePosition k ∧ s.patcher = patcher ∧
        s.operand = operand := by
  cases h with
  | @late s site position =>
    obtain ⟨j, hj⟩ := List.getElem?_of_mem site
    exact ⟨j, s, hj, position, rfl, rfl⟩

namespace Puts

lemma slot?_eq (hput : Puts m b c m') (hn : slotIndex? code k = some n) :
    c.slot? code k = some (wordAddress (m.memory.used + n)) := by
  rw [CompiledMethod.slot?, hn, hput.start, wordAddress_add]
  rfl

lemma exists_of_slot? (hput : Puts m b c m') {a : Address} (h : c.slot? code k = some a) :
    ∃ n, slotIndex? code k = some n ∧ a = wordAddress (m.memory.used + n) := by
  obtain ⟨n, hn, -⟩ := Option.map_eq_some_iff.1 h
  rw [hput.slot?_eq hn] at h
  exact ⟨n, hn, (Option.some.inj h).symm⟩

/-- The distance of a data word from the entry fits into a code word. -/
lemma encodes (hput : Puts m b c m') (h : m.Laid) (hb : b.Emitted code)
    (hi : code[k]? = some i) :
    c.Encodes code k (encode i.opcode ((slotIndex? code k).elim 0 b.displacement)) := by
  have hlimit : Builder.areaLimit = 268435456 := by decide
  have hwithin := hput.within h
  cases hn : slotIndex? code k with
  | none =>
    have hnone : c.slot? code k = none := by simp [CompiledMethod.slot?, hn]
    have hdecode := decode?_encode i.opcode (d := 0) (by decide) (by decide)
    refine ⟨i, 0, hi, hdecode, by simp [hnone], fun a ha => ?_⟩
    rw [hnone] at ha
    cases ha
  | some n =>
    have hlt : n < b.data.length := hb.data ▸ slotIndex?_lt hn
    have hslot := hput.slot?_eq hn
    have hdistance : b.displacement n = ((n : Int) - b.data.length) * 8 :=
      Builder.displacement_eq (Nat.le_of_lt hlt) (by omega)
    have hdecode := decode?_encode i.opcode (d := b.displacement n) (by omega) (by omega)
    refine ⟨i, b.displacement n, hi, hdecode, ?_, fun a ha => ?_⟩
    · simp only [hslot, reduceCtorEq, iff_false]
      omega
    · rw [hslot] at ha
      cases ha
      have hsum : wordAddress (m.memory.used + b.data.length) + ((n : Int) - b.data.length) * 8 =
          wordAddress (m.memory.used + n) := by
        simp only [wordAddress]
        omega
      rw [hput.entry, hdistance]
      exact hsum

/-- Where the code word of an instruction lies. -/
lemma codePosition_of_lt (hput : Puts m b c m') (h : m.Laid) (hb : b.Emitted code)
    (hk : k < code.length) :
    c.codePosition k = wordAddress (m.memory.used + b.data.length + k) :=
  hput.codePosition_eq h (hb.length ▸ hk)

/-- An instruction without a site stands in its code word. -/
lemma word_of_bound (hput : Puts m b c m') (h : m.Laid) (hb : b.Emitted code)
    (hk : k < code.length) (hnone : ∀ s ∈ c.sites, s.position ≠ c.codePosition k) :
    ∃ w, m'.word? (c.codePosition k) = some (.bits w) ∧ c.Encodes code k w := by
  obtain ⟨i, hi⟩ : ∃ i, code[k]? = some i := ⟨code[k], List.getElem?_eq_getElem hk⟩
  have hposition := hput.codePosition_of_lt h hb hk
  have hpatches : ∀ p ∈ b.patches, p.codeIndex ≠ k := by
    rintro p hp rfl
    have hsite := hput.sites.mem_iff.2 (List.mem_map_of_mem hp)
    exact hnone _ hsite ((Builder.siteOf_position p).trans hposition.symm)
  refine ⟨_, ?_, hput.encodes h hb hi⟩
  rw [hposition, Nat.add_assoc]
  exact hput.read (hb.word_of_not_patched hi hpatches)

/-- An instruction with a site traps. -/
lemma word_of_site (hput : Puts m b c m') (h : m.Laid) (hb : b.Emitted code) {s : PatchSite}
    (hs : s ∈ c.sites) : ∃ k i, code[k]? = some i ∧ i.operand ≠ .none ∧
      s.position = c.codePosition k ∧ c.slot? code k = some s.dataAddress ∧
      c.Encodes code k s.saved ∧ m'.word? s.position = some (.bits trapWord) := by
  obtain ⟨p, hp, rfl⟩ := List.mem_map.1 (hput.sites.mem_iff.1 hs)
  obtain ⟨hindex, -⟩ := hb.patched p hp
  obtain ⟨i, hi, hreference, hsaved⟩ := hb.saved_eq hp
  have hencodes := hput.encodes h hb hi
  rw [hindex] at hencodes
  have hslot : p.dataIndex < b.data.length := hb.formed.dataIndex_lt hp
  refine ⟨p.codeIndex, i, hi, hreference, ?_, ?_, ?_, ?_⟩
  · rw [hput.codePosition_of_lt h hb (List.getElem?_eq_some_iff.1 hi).1, Builder.siteOf_position]
  · rw [hput.slot?_eq hindex, Builder.siteOf_dataAddress hslot (hput.within h)]
  · rw [hsaved]
    exact hencodes
  · rw [Builder.siteOf_position, Nat.add_assoc]
    exact hput.read (Builder.getElem?_words_code hb.formed hp)

/-- A number that is part of an instruction stands in its data word. -/
lemma word_of_immediate (hput : Puts m b c m') (hb : b.Emitted code) (hi : code[k]? = some i)
    (hnone : i.operand = .none) {a : Address} (ha : c.slot? code k = some a) :
    m'.word? a = some (.bits (wordOfInt i.immediate)) := by
  obtain ⟨n, hn, rfl⟩ := hput.exists_of_slot? ha
  exact hput.read (Builder.getElem?_append_of_some (hb.immediate k i n hi hnone hn))

/-- An instruction is bound in the code area as it was in the code on its way there. -/
lemma holds (hput : Puts m b c m') (h : m.Laid) (hb : b.Emitted code) {x : Builder.Binding}
    (hx : b.binding? k = some x) : Holds m' c code k x := by
  cases x with
  | late patcher operand =>
    obtain ⟨s, hs, hposition, rfl, rfl⟩ := hput.exists_site h hx
    exact .late hs hposition
  | early w =>
    obtain ⟨op, n, hn, hw⟩ := Builder.slot_of_early hx
    have hk : k < b.code.length := (List.getElem?_eq_some_iff.1 hn).1
    have hi := hb.instruction k _ (List.getElem?_eq_getElem (hb.length ▸ hk))
    have hslot : slotIndex? code k = some n :=
      congrArg Prod.snd (Option.some.inj (hi.symm.trans hn))
    exact .early (fun s => hput.position_ne h hk hx) (hput.slot?_eq hslot)
      (hput.read (Builder.getElem?_append_of_some hw))

/-- A method that is put into the code area is what was made of its instructions. -/
lemma faithful (hput : Puts m b c m') (h : m.Laid) (hb : b.Emitted code) :
    m'.Faithful c code := by
  have hsize := b.size_le_reservation
  have hroom := hput.room
  have hused := hput.used
  have hlength := hb.length
  refine ⟨?_, fun k hk => ?_, fun j hj k hk heq => ?_, fun k i hi => ?_, fun k a ha => ?_,
    fun j k a hj hk => ?_, fun k hk => hput.word_of_bound h hb hk,
    fun s hs => hput.word_of_site h hb hs,
    fun k i a hi hnone ha => hput.word_of_immediate hb hi hnone ha⟩
  · rw [hput.start, hput.entry]
    exact wordAddress_le (by omega)
  · rw [hput.codePosition_of_lt h hb hk, hput.entry, hput.stop]
    exact ⟨wordAddress_le (by omega), wordAddress_lt (by omega), _, by omega, rfl⟩
  · rw [hput.codePosition_of_lt h hb hj, hput.codePosition_of_lt h hb hk] at heq
    have := wordAddress_injective heq
    omega
  · rw [CompiledMethod.slot?, Option.isSome_map, isSome_slotIndex? hi, Instruction.takesSlot_iff]
  · obtain ⟨n, hn, rfl⟩ := hput.exists_of_slot? ha
    have hlt : n < b.data.length := hb.data ▸ slotIndex?_lt hn
    rw [hput.start, hput.entry]
    exact ⟨wordAddress_le (by omega), wordAddress_lt (by omega), _, by omega, rfl⟩
  · obtain ⟨n, hn, rfl⟩ := hput.exists_of_slot? hj
    obtain ⟨n', hn', heq⟩ := hput.exists_of_slot? hk
    obtain rfl : n = n' := by
      have := wordAddress_injective heq
      omega
    exact slotIndex?_injective hn hn'

end Puts

end Machine

end Linkage
