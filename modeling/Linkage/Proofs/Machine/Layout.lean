import Linkage.Code.Builder
import Linkage.Proofs.Outcome
import Mathlib.Algebra.Group.Nat.Defs
import Mathlib.Data.List.Perm.Basic

/-!
# The layout of compiled methods

A method that is put into the code area takes words that no other method has. Each of its patch
sites has a code word and a data word of its own there: the code word traps, the data word is zero,
and the distance between the two survives its way through 32 bits as long as the code area is not
larger than that.
-/

namespace Linkage

/-- The address of the word at a position. -/
def wordAddress (i : Nat) : Int := i * 8

lemma wordSize_cast : ((wordSize : Nat) : Int) = 8 := rfl

lemma wordAddress_injective {i j : Nat} (h : wordAddress i = wordAddress j) : i = j := by
  simp only [wordAddress] at h
  omega

lemma wordAddress_le {i j : Nat} (h : i ≤ j) : wordAddress i ≤ wordAddress j := by
  simp only [wordAddress]
  omega

lemma wordAddress_lt {i j : Nat} (h : i < j) : wordAddress i < wordAddress j := by
  simp only [wordAddress]
  omega

lemma wordAddress_add (i n : Nat) :
    wordAddress (i + n) = wordAddress i + (n : Int) * wordSize := by
  simp only [wordAddress, wordSize_cast]
  omega

namespace CodeMemory

variable {m : CodeMemory}

/-- The word at a position. -/
def wordAt (m : CodeMemory) (i : Nat) : Word := (m.words.get? i).getD (.bits 0)

lemma index?_wordAddress {i : Nat} (h : i < m.capacity) : m.index? (wordAddress i) = some i := by
  have haddress : wordAddress i = Int.ofNat (i * 8) := by
    simp [wordAddress]
  rw [haddress, index?]
  simp [wordSize, h]

lemma read?_wordAddress {i : Nat} (h : i < m.capacity) :
    m.read? (wordAddress i) = some (m.wordAt i) := by
  simp [read?, index?_wordAddress h, wordAt]

lemma write_wordAddress {i : Nat} (h : i < m.capacity) (w : Word) :
    m.write (wordAddress i) w = .ok { m with words := m.words.insert i w } := by
  simp [write, index?_wordAddress h]

@[simp] lemma wordAt_insert (i j : Nat) (w : Word) :
    ({ m with words := m.words.insert i w } : CodeMemory).wordAt j =
      if i = j then w else m.wordAt j := by
  by_cases h : i = j <;> simp [wordAt, h]

/-- The code area with more words handed out. -/
def grow (m : CodeMemory) (words : Nat) : CodeMemory := { m with used := m.used + words }

/-- Words are written one behind the other, and no others. -/
lemma writeAll_wordAddress {k : Nat} {ws : List Word} (h : k + ws.length ≤ m.capacity) :
    ∃ words, m.writeAll (wordAddress k) ws = .ok { m with words := words } ∧
      ∀ i, ({ m with words := words } : CodeMemory).wordAt i =
        if k ≤ i then (ws[i - k]?).getD (m.wordAt i) else m.wordAt i := by
  induction ws generalizing m k with
  | nil => exact ⟨m.words, rfl, by simp⟩
  | cons w ws ih =>
    rw [List.length_cons] at h
    obtain ⟨words, hrun, hwords⟩ :=
      ih (m := { m with words := m.words.insert k w }) (k := k + 1)
        (by change k + 1 + ws.length ≤ m.capacity; omega)
    have hnext : wordAddress k + wordSize = wordAddress (k + 1) := by
      simp only [wordAddress, wordSize_cast]
      omega
    refine ⟨words, ?_, fun i => ?_⟩
    · rw [writeAll, write_wordAddress (by omega)]
      change writeAll _ (wordAddress k + wordSize) ws = _
      rw [hnext]
      exact hrun
    · refine (hwords i).trans ?_
      rw [wordAt_insert]
      rcases Nat.lt_trichotomy i k with hlt | rfl | hgt
      · simp [Nat.not_le.2 hlt, show ¬ k + 1 ≤ i by omega, show ¬ k = i by omega]
      · simp [show ¬ i + 1 ≤ i by omega]
      · obtain ⟨j, rfl⟩ : ∃ j, i = k + 1 + j := ⟨i - (k + 1), by omega⟩
        simp [show k + 1 + j - k = j + 1 by omega, show k ≤ k + 1 + j by omega,
          show ¬ k = k + 1 + j by omega]

end CodeMemory

/-- Whether an instruction has a data word: for its reference, or for a number of its own. -/
def Instruction.takesSlot (i : Instruction) : Bool :=
  i.operand.kind ≠ .none || i.opcode.hasImmediate

lemma Instruction.takesSlot_iff {i : Instruction} :
    i.takesSlot = true ↔ i.operand ≠ .none ∨ i.opcode.hasImmediate = true := by
  unfold takesSlot
  cases i.operand <;> simp [Operand.kind]

lemma Instruction.takesSlot_of_ne_none {i : Instruction} (h : i.operand ≠ .none) :
    i.takesSlot = true :=
  takesSlot_iff.2 (.inl h)

/-! ### Code on its way -/

namespace Builder

variable {b : Builder}

lemma size_le_reservation (b : Builder) : b.data.length + b.code.length ≤ b.reservation :=
  Nat.le_max_left _ _

/-- What the instructions that are bound later have for themselves: an instruction that does not
trap once it is bound, and an empty data word. -/
structure Formed (b : Builder) : Prop where
  codeOrder : (b.patches.map PendingPatch.codeIndex).Pairwise (· < ·)
  dataOrder : (b.patches.map PendingPatch.dataIndex).Pairwise (· < ·)
  instruction : ∀ p ∈ b.patches, ∃ op slot, b.code[p.codeIndex]? = some (op, slot) ∧ op ≠ .trap
  empty : ∀ p ∈ b.patches, b.data[p.dataIndex]? = some (.bits 0)

lemma Formed.codeIndex_lt (h : b.Formed) {p : PendingPatch} (hp : p ∈ b.patches) :
    p.codeIndex < b.code.length := by
  obtain ⟨op, slot, hcode, -⟩ := h.instruction p hp
  exact (List.getElem?_eq_some_iff.1 hcode).1

lemma Formed.dataIndex_lt (h : b.Formed) {p : PendingPatch} (hp : p ∈ b.patches) :
    p.dataIndex < b.data.length :=
  (List.getElem?_eq_some_iff.1 (h.empty p hp)).1

lemma formed_empty : ({} : Builder).Formed :=
  ⟨List.Pairwise.nil, List.Pairwise.nil, fun _ hp => (List.not_mem_nil hp).elim,
    fun _ hp => (List.not_mem_nil hp).elim⟩

lemma getElem?_append_of_some {α : Type} {xs ys : List α} {i : Nat} {x : α} (h : xs[i]? = some x) :
    (xs ++ ys)[i]? = some x := by
  rw [List.getElem?_append_left (List.getElem?_eq_some_iff.1 h).1, h]

lemma getElem?_of_isPrefix {α : Type} {xs ys : List α} (h : xs <+: ys) {i : Nat} {x : α}
    (hx : xs[i]? = some x) : ys[i]? = some x := by
  obtain ⟨zs, rfl⟩ := h
  exact getElem?_append_of_some hx

lemma Formed.addData (h : b.Formed) (w : Word) : (b.addData w).1.Formed :=
  ⟨h.codeOrder, h.dataOrder, h.instruction, fun p hp => getElem?_append_of_some (h.empty p hp)⟩

lemma Formed.addCode (h : b.Formed) (op : Opcode) (slot : Option Nat) :
    (b.addCode op slot).Formed :=
  ⟨h.codeOrder, h.dataOrder, fun p hp => by
    obtain ⟨op', slot', hcode, hne⟩ := h.instruction p hp
    exact ⟨op', slot', getElem?_append_of_some hcode, hne⟩, h.empty⟩

lemma Formed.addPatched (h : b.Formed) {op : Opcode} (hop : op ≠ .trap) (patcher : Patcher)
    (operand : PatchOperand) : (b.addPatched op patcher operand).Formed := by
  have hpatches : (b.addPatched op patcher operand).patches =
      b.patches ++ [⟨b.code.length, b.data.length, patcher, operand⟩] := rfl
  have hcode : (b.addPatched op patcher operand).code =
      b.code ++ [(op, some b.data.length)] := rfl
  have hdata : (b.addPatched op patcher operand).data = b.data ++ [.bits 0] := rfl
  refine ⟨?_, ?_, fun p hp => ?_, fun p hp => ?_⟩
  · rw [hpatches, List.map_append, List.pairwise_append]
    refine ⟨h.codeOrder, by simp, ?_⟩
    simp only [List.mem_map, List.map_cons, List.map_nil, List.mem_singleton]
    rintro _ ⟨p, hp, rfl⟩ _ rfl
    exact h.codeIndex_lt hp
  · rw [hpatches, List.map_append, List.pairwise_append]
    refine ⟨h.dataOrder, by simp, ?_⟩
    simp only [List.mem_map, List.map_cons, List.map_nil, List.mem_singleton]
    rintro _ ⟨p, hp, rfl⟩ _ rfl
    exact h.dataIndex_lt hp
  · rw [hpatches, List.mem_append, List.mem_singleton] at hp
    rw [hcode]
    rcases hp with hp | rfl
    · obtain ⟨op', slot', hcode, hne⟩ := h.instruction p hp
      exact ⟨op', slot', getElem?_append_of_some hcode, hne⟩
    · exact ⟨op, some b.data.length, by simp, hop⟩
  · rw [hpatches, List.mem_append, List.mem_singleton] at hp
    rw [hdata]
    rcases hp with hp | rfl
    · exact getElem?_append_of_some (h.empty p hp)
    · simp

lemma addResolved_cases (b : Builder) (op : Opcode) (c : Class) (phase : Phase) (w : Word) :
    (op.initializesClass = true ∧ phase ≠ .initialized ∧
      b.addResolved op c phase w = b.addPatched op .initializer (.whenInitialized c w)) ∨
    ((op.initializesClass = true → phase = .initialized) ∧
      b.addResolved op c phase w = (b.addData w).1.addCode op (some b.data.length)) := by
  unfold addResolved
  split
  · next hcond =>
    simp only [Bool.and_eq_true, decide_eq_true_eq] at hcond
    exact .inl ⟨hcond.1, hcond.2, rfl⟩
  · next hcond =>
    refine .inr ⟨fun hop => ?_, rfl⟩
    simpa [hop] using hcond

lemma addUnresolved_eq_ok {op : Opcode} {operand : PatchOperand} {b' : Builder}
    (hrun : b.addUnresolved op operand = .ok b') :
    ∃ patcher, Patcher.ofOpcode? op = some patcher ∧ b' = b.addPatched op patcher operand := by
  unfold addUnresolved at hrun
  split at hrun
  · next patcher hpatcher =>
    cases hrun
    exact ⟨patcher, hpatcher, rfl⟩
  · cases hrun

/-- How an instruction is added: with its data word, without one, or to be bound later. -/
inductive Adds (b : Builder) (i : Instruction) : Builder → Prop
  | word (w : Word) (slot : i.takesSlot = true)
      (immediate : i.operand = .none → w = .bits (wordOfInt i.immediate)) :
      Adds b i ((b.addData w).1.addCode i.opcode (some b.data.length))
  | bare (slot : i.takesSlot = false) : Adds b i (b.addCode i.opcode none)
  | patched (patcher : Patcher) (operand : PatchOperand) (hop : i.opcode ≠ .trap)
      (reference : i.operand ≠ .none) : Adds b i (b.addPatched i.opcode patcher operand)

/-- An instruction whose class, field or method was resolved takes its word, or is bound later. -/
lemma adds_addResolved {i : Instruction} (hoperand : i.operand ≠ .none) (c : Class) (phase : Phase)
    (w : Word) : Adds b i (b.addResolved i.opcode c phase w) := by
  rcases b.addResolved_cases i.opcode c phase w with ⟨hop, -, heq⟩ | ⟨-, heq⟩ <;> rw [heq]
  · refine .patched _ _ (fun htrap => ?_) hoperand
    rw [htrap] at hop
    cases hop
  · exact .word w (Instruction.takesSlot_of_ne_none hoperand) fun h => absurd h hoperand

/-- An instruction whose class, field or method was not resolved is bound later. -/
lemma adds_addUnresolved {i : Instruction} (hoperand : i.operand ≠ .none) {operand : PatchOperand}
    {b' : Builder} (hrun : b.addUnresolved i.opcode operand = .ok b') : Adds b i b' := by
  obtain ⟨patcher, hpatcher, rfl⟩ := addUnresolved_eq_ok hrun
  refine .patched _ _ (fun htrap => ?_) hoperand
  rw [htrap] at hpatcher
  cases hpatcher

lemma emit_adds {i : Instruction} {a a' : Area} {b' : Builder} (hrun : b.emit i a = .ok b' a') :
    Adds b i b' := by
  obtain ⟨op, operand, immediate⟩ := i
  match operand with
  | .none =>
    simp only [Builder.emit] at hrun
    split at hrun
    · next himmediate =>
      cases hrun
      exact .word (i := ⟨op, .none, immediate⟩) _ himmediate fun _ => rfl
    · next himmediate =>
      cases hrun
      refine .bare (i := ⟨op, .none, immediate⟩) ?_
      simpa [Instruction.takesSlot, Operand.kind] using himmediate
  | .toClass (.resolved c) =>
    simp only [Builder.emit] at hrun
    split at hrun <;>
    · obtain ⟨target, s, -, hrun⟩ := bind_eq_ok.1 hrun
      cases hrun
      exact adds_addResolved (by simp) _ _ _
  | .toField (.resolved f) =>
    simp only [Builder.emit] at hrun
    split at hrun <;>
    · obtain ⟨w, s, -, hrun⟩ := bind_eq_ok.1 hrun
      cases hrun
      exact adds_addResolved (by simp) _ _ _
  | .toMethod (.resolved m) =>
    cases hrun
    exact adds_addResolved (i := ⟨op, _, immediate⟩) (by simp) _ _ _
  | .toClass (.unresolved u) => exact adds_addUnresolved (by simp) (ofExcept_eq_ok hrun).1
  | .toField (.unresolved u) => exact adds_addUnresolved (by simp) (ofExcept_eq_ok hrun).1
  | .toMethod (.unresolved u) => exact adds_addUnresolved (by simp) (ofExcept_eq_ok hrun).1

/-- Adding an instruction keeps the code well formed, whatever the instruction. -/
lemma Formed.emit (h : b.Formed) {i : Instruction} {a a' : Area} {b' : Builder}
    (hrun : b.emit i a = .ok b' a') : b'.Formed := by
  cases emit_adds hrun with
  | word w => exact (h.addData w).addCode _ _
  | bare => exact h.addCode _ _
  | patched _ _ hop => exact h.addPatched hop _ _

lemma Formed.emitAll (h : b.Formed) {is : List Instruction} {a a' : Area} {b' : Builder}
    (hrun : b.emitAll is a = .ok b' a') : b'.Formed := by
  induction is generalizing b a with
  | nil =>
    cases hrun
    exact h
  | cons i is ih =>
    obtain ⟨b₁, s, hfirst, hrest⟩ := bind_eq_ok.1 hrun
    exact ih (h.emit hfirst) hrest

/-! ### Sites of a method -/

/-- The largest number of words for which distances fit into their 32 bits. -/
def areaLimit : Nat := 2 ^ 28

/-- The patch site of an instruction that the code has. -/
def siteOf (b : Builder) (entry : Address) (p : PendingPatch) : PatchSite :=
  ⟨entry + p.codeIndex * wordSize, entry, b.displacement p.dataIndex, p.patcher, p.operand,
    (b.codeWords[p.codeIndex]?).getD 0, .unpatched⟩

lemma site_eq (h : b.Formed) {p : PendingPatch} (hp : p ∈ b.patches) (entry : Address) :
    b.site entry p = .ok (b.siteOf entry p) := by
  have hlt : p.codeIndex < b.codeWords.length := by simpa [codeWords] using h.codeIndex_lt hp
  simp [site, siteOf, List.getElem?_eq_getElem hlt]

lemma mapM_eq_ok {α β ε : Type} {f : α → Except ε β} {g : α → β} {xs : List α}
    (h : ∀ x ∈ xs, f x = .ok (g x)) : xs.mapM f = .ok (xs.map g) := by
  induction xs with
  | nil => rfl
  | cons x xs ih =>
    rw [List.mapM_cons, h x List.mem_cons_self, ih fun y hy => h y (List.mem_cons_of_mem _ hy)]
    rfl

lemma insertSite_perm (s : PatchSite) (ts : List PatchSite) : (insertSite s ts).Perm (s :: ts) := by
  induction ts with
  | nil => exact .refl _
  | cons t ts ih =>
    unfold insertSite
    split
    · exact .refl _
    · exact (ih.cons t).trans (.swap s t ts)

lemma sortSites_perm (sites : List PatchSite) : (sortSites sites).Perm sites := by
  have hfold : ∀ (sites sorted : List PatchSite),
      (sites.foldl (fun sorted s => insertSite s sorted) sorted).Perm (sorted ++ sites) := by
    intro sites
    induction sites with
    | nil => simp
    | cons s sites ih =>
      intro sorted
      refine (ih _).trans ?_
      exact ((insertSite_perm s sorted).append_right sites).trans List.perm_middle.symm
  unfold sortSites
  simpa using hfold sites []

/-- The sites of a method, in some order, are those of the instructions to be bound later. -/
lemma compiled_eq (h : b.Formed) (number : Nat) (method : MethodHandle) (start : Address) :
    ∃ c, b.compiled number method start = .ok c ∧ c.number = number ∧ c.start = start ∧
      c.entry = start + b.data.length * wordSize ∧
      c.stop = start + ((b.data.length + b.code.length : Nat) : Int) * wordSize ∧
      c.sites.Perm (b.patches.map (b.siteOf (start + b.data.length * wordSize))) := by
  have hsites : b.patches.mapM (b.site (start + b.data.length * wordSize)) =
      .ok (b.patches.map (b.siteOf (start + b.data.length * wordSize))) :=
    mapM_eq_ok fun p hp => site_eq h hp _
  unfold compiled
  dsimp only
  rw [hsites]
  exact ⟨_, rfl, rfl, rfl, rfl, rfl, sortSites_perm _⟩

lemma isTrap_encode {op : Opcode} (hop : op ≠ .trap) (displacement : Int) :
    isTrap (encode op displacement) = false := by
  have hnumber : op.number < 256 := op.number_lt
  have hne : op.number ≠ Opcode.trap.number := by
    revert hop
    cases op <;> decide
  obtain ⟨low, hlow, hlt⟩ : ∃ low, (displacement % halfValues).toNat = low ∧ low < 4294967296 := by
    refine ⟨_, rfl, ?_⟩
    rw [show ((halfValues : Nat) : Int) = 4294967296 from rfl]
    omega
  have hunit : opcodeUnit = 72057594037927936 := rfl
  unfold isTrap encode
  rw [hlow, UInt64.toNat_ofNat', hunit, Nat.mod_eq_of_lt (by omega)]
  have hdiv : (op.number * 72057594037927936 + low) / 72057594037927936 = op.number := by omega
  simp [hdiv, hne]

lemma siteOf_position {k : Nat} (p : PendingPatch) :
    (b.siteOf (wordAddress k + b.data.length * wordSize) p).position =
      wordAddress (k + b.data.length + p.codeIndex) := by
  change (k : Int) * 8 + b.data.length * 8 + p.codeIndex * 8 = _
  simp only [wordAddress]
  omega

/-- Addresses in the code area are not changed by 64 bits. -/
lemma wrapAddress_wordAddress {i : Nat} (hi : i ≤ areaLimit) :
    wrapAddress (wordAddress i) = wordAddress i := by
  have hlimit : areaLimit = 268435456 := by decide
  exact Int.bmod_eq_of_le (by unfold wordValues wordAddress; omega)
    (by unfold wordValues wordAddress; omega)

/-- Distances that fit into code words are not changed by them. -/
lemma displacement_eq {j : Nat} (hj : j ≤ b.data.length) (hb : b.data.length ≤ areaLimit) :
    b.displacement j = ((j : Int) - b.data.length) * 8 := by
  have hlimit : areaLimit = 268435456 := by decide
  have hhalf : halfValues = 4294967296 := rfl
  unfold displacement
  rw [wordSize_cast, hhalf]
  exact Int.bmod_eq_of_le (by omega) (by omega)

lemma siteOf_dataAddress {k : Nat} {p : PendingPatch} (hp : p.dataIndex < b.data.length)
    (hk : k + b.data.length ≤ areaLimit) :
    (b.siteOf (wordAddress k + b.data.length * wordSize) p).dataAddress =
      wordAddress (k + p.dataIndex) := by
  have hlimit : areaLimit = 268435456 := by decide
  have hdisplacement := displacement_eq (b := b) (Nat.le_of_lt hp) (by omega)
  unfold PatchSite.dataAddress siteOf
  rw [hdisplacement, wordSize_cast]
  have hsum : wordAddress k + b.data.length * 8 + ((p.dataIndex : Int) - b.data.length) * 8 =
      wordAddress (k + p.dataIndex) := by
    simp only [wordAddress]
    omega
  rw [hsum, wrapAddress_wordAddress (by omega)]

lemma isTrap_siteOf (h : b.Formed) {p : PendingPatch} (hp : p ∈ b.patches) (entry : Address) :
    isTrap (b.siteOf entry p).saved = false := by
  obtain ⟨op, slot, hcode, hop⟩ := h.instruction p hp
  have hword : b.codeWords[p.codeIndex]? = some (encode op (slot.elim 0 b.displacement)) := by
    simp [codeWords, hcode]
  simp only [siteOf, hword, Option.getD_some]
  exact isTrap_encode hop _

/-- The sites of a method whose first word stands at a position. -/
lemma exists_of_mem_sites (h : b.Formed) {k : Nat} (hk : k + b.data.length ≤ areaLimit)
    {sites : List PatchSite}
    (hsites : sites.Perm (b.patches.map (b.siteOf (wordAddress k + b.data.length * wordSize))))
    {s : PatchSite} (hs : s ∈ sites) :
    ∃ p ∈ b.patches, s.state = .unpatched ∧ isTrap s.saved = false ∧
      s.position = wordAddress (k + b.data.length + p.codeIndex) ∧
      s.dataAddress = wordAddress (k + p.dataIndex) := by
  obtain ⟨p, hp, rfl⟩ := List.mem_map.1 (hsites.mem_iff.1 hs)
  exact ⟨p, hp, rfl, isTrap_siteOf h hp _, siteOf_position p,
    siteOf_dataAddress (h.dataIndex_lt hp) hk⟩

/-- No two sites of a method have the same code word. -/
lemma nodup_positions (h : b.Formed) {k : Nat} {sites : List PatchSite}
    (hsites : sites.Perm (b.patches.map (b.siteOf (wordAddress k + b.data.length * wordSize)))) :
    (sites.map PatchSite.position).Nodup := by
  rw [(hsites.map PatchSite.position).nodup_iff, List.map_map]
  refine List.Pairwise.map _ (fun p q hpq heq => ?_) (List.pairwise_map.1 h.codeOrder)
  have hindex :=
    wordAddress_injective ((siteOf_position p).symm.trans (heq.trans (siteOf_position q)))
  omega

/-- No two sites of a method have the same data word. -/
lemma nodup_dataAddresses (h : b.Formed) {k : Nat} (hk : k + b.data.length ≤ areaLimit)
    {sites : List PatchSite}
    (hsites : sites.Perm (b.patches.map (b.siteOf (wordAddress k + b.data.length * wordSize)))) :
    (sites.map PatchSite.dataAddress).Nodup := by
  rw [(hsites.map PatchSite.dataAddress).nodup_iff, List.map_map]
  have horder := List.Pairwise.and_mem.1 (List.pairwise_map.1 h.dataOrder)
  refine List.Pairwise.map _ (fun p q hpq heq => ?_) horder
  obtain ⟨hp, hq, hlt⟩ := hpq
  have hindex := wordAddress_injective ((siteOf_dataAddress (h.dataIndex_lt hp) hk).symm.trans
    (heq.trans (siteOf_dataAddress (h.dataIndex_lt hq) hk)))
  omega

/-! ### Words of a method -/

lemma length_words (b : Builder) : b.words.length = b.data.length + b.code.length := by
  simp [words, trappedWords, codeWords]

/-- Before it is bound an instruction traps. -/
lemma getElem?_words_code (h : b.Formed) {p : PendingPatch} (hp : p ∈ b.patches) :
    b.words[b.data.length + p.codeIndex]? = some (.bits trapWord) := by
  have hlt : p.codeIndex < b.codeWords.length := by simpa [codeWords] using h.codeIndex_lt hp
  have hany : (b.patches.any fun q => q.codeIndex = p.codeIndex) = true :=
    List.any_eq_true.2 ⟨p, hp, by simp⟩
  have hword : b.trappedWords[p.codeIndex]? = some trapWord := by
    simp only [trappedWords, List.getElem?_map, List.getElem?_zipIdx, List.getElem?_eq_getElem hlt,
      Option.map_some, Nat.zero_add, if_pos hany]
  simp [words, List.getElem?_append_right, hword]

/-- Before it is bound an instruction has an empty data word. -/
lemma getElem?_words_data (h : b.Formed) {p : PendingPatch} (hp : p ∈ b.patches) :
    b.words[p.dataIndex]? = some (.bits 0) :=
  getElem?_append_of_some (h.empty p hp)

end Builder

end Linkage
