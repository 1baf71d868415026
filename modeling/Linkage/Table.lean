/-!
# Finite tables

A table maps finitely many keys to values and lists its entries in the order in which their keys
were first inserted. The laws say what `get?` answers after each update.
-/

namespace Linkage

/-- A finite map from `κ` to `υ`, kept as a list of entries. -/
structure Table (κ υ : Type) where
  /-- The entries, the oldest first. -/
  entries : List (κ × υ) := []

namespace Table

variable {κ υ : Type} [DecidableEq κ]

/-- The table without entries. -/
def empty : Table κ υ := ⟨[]⟩

/-- The value of the first entry with a given key. -/
def firstValue? (k : κ) : List (κ × υ) → Option υ
  | [] => none
  | e :: es => if e.1 = k then some e.2 else firstValue? k es

/-- The value stored under a key. -/
def get? (t : Table κ υ) (k : κ) : Option υ :=
  firstValue? k t.entries

/-- Whether a value is stored under a key. -/
def contains (t : Table κ υ) (k : κ) : Bool :=
  (t.get? k).isSome

/-- Overwrites the first entry of a key, or appends one. -/
def insertEntry (k : κ) (v : υ) : List (κ × υ) → List (κ × υ)
  | [] => [(k, v)]
  | e :: es => if e.1 = k then (k, v) :: es else e :: insertEntry k v es

/-- Stores a value under a key, replacing the one that was there. -/
def insert (t : Table κ υ) (k : κ) (v : υ) : Table κ υ :=
  ⟨insertEntry k v t.entries⟩

/-- Stores a value under a key unless the key has one already. -/
def insertNew (t : Table κ υ) (k : κ) (v : υ) : Table κ υ :=
  if t.contains k then t else t.insert k v

/-- Applies a function to the value stored under a key, if there is one. -/
def modify (t : Table κ υ) (k : κ) (f : υ → υ) : Table κ υ :=
  match t.get? k with
  | some v => t.insert k (f v)
  | none => t

/-- Forgets a key. -/
def erase (t : Table κ υ) (k : κ) : Table κ υ :=
  ⟨t.entries.filter fun e => e.1 ≠ k⟩

/-- The number of entries. -/
def size (t : Table κ υ) : Nat := t.entries.length

/-- The stored values, the oldest key first. -/
def values (t : Table κ υ) : List υ := t.entries.map Prod.snd

/-- The sum of a quantity over the stored values. -/
def total (t : Table κ υ) (f : υ → Nat) : Nat := t.values.foldr (fun v n => f v + n) 0

/-- What is stored under a key has an entry. -/
theorem mem_entries_of_get? {t : Table κ υ} {k : κ} {v : υ} (h : t.get? k = some v) :
    (k, v) ∈ t.entries := by
  obtain ⟨es⟩ := t
  simp only [get?] at h ⊢
  induction es with
  | nil => cases h
  | cons e es ih =>
    rw [firstValue?] at h
    split at h
    · next hk =>
      cases h
      exact hk ▸ List.mem_cons_self
    · exact List.mem_cons_of_mem _ (ih h)

/-- What is stored under a key is one of the stored values. -/
theorem mem_values_of_get? {t : Table κ υ} {k : κ} {v : υ} (h : t.get? k = some v) :
    v ∈ t.values :=
  List.mem_map_of_mem (mem_entries_of_get? h)

omit [DecidableEq κ] in
/-- Counting what is listed for each entry. -/
theorem length_flatMap_entries {β : Type} {t : Table κ υ} {f : κ × υ → List β} {size : υ → Nat}
    (h : ∀ e, (f e).length = size e.2) : (t.entries.flatMap f).length = t.total size := by
  unfold total values
  induction t.entries with
  | nil => rfl
  | cons e es ih =>
    simp only [List.flatMap_cons, List.length_append, List.map_cons, List.foldr_cons, ih, h]

/-! ### What `get?` answers after an update -/

@[simp]
theorem get?_empty (k : κ) : (empty : Table κ υ).get? k = none := rfl

@[simp]
theorem get?_insert (t : Table κ υ) (k k' : κ) (v : υ) :
    (t.insert k v).get? k' = if k = k' then some v else t.get? k' := by
  obtain ⟨es⟩ := t
  simp only [get?, insert]
  induction es with
  | nil => simp [insertEntry, firstValue?]
  | cons e es ih =>
    by_cases he : e.1 = k
    · subst he
      by_cases h : e.1 = k' <;> simp [insertEntry, firstValue?, h]
    · by_cases h' : e.1 = k'
      · have h : ¬ k = k' := fun h => he (h'.trans h.symm)
        rw [insertEntry, if_neg he]
        simp [firstValue?, h', h]
      · simp [insertEntry, firstValue?, he, h', ih]

theorem get?_insert_self (t : Table κ υ) (k : κ) (v : υ) : (t.insert k v).get? k = some v := by
  simp

theorem get?_insert_of_ne (t : Table κ υ) {k k' : κ} (h : k ≠ k') (v : υ) :
    (t.insert k v).get? k' = t.get? k' := by
  simp [h]

@[simp]
theorem get?_modify (t : Table κ υ) (k k' : κ) (f : υ → υ) :
    (t.modify k f).get? k' = if k = k' then (t.get? k').map f else t.get? k' := by
  unfold modify
  by_cases h : k = k'
  · subst h
    cases h : t.get? k <;> simp [h]
  · cases h' : t.get? k <;> simp [h]

@[simp]
theorem get?_erase (t : Table κ υ) (k k' : κ) :
    (t.erase k).get? k' = if k = k' then none else t.get? k' := by
  obtain ⟨es⟩ := t
  simp only [get?, erase]
  induction es with
  | nil => simp [firstValue?]
  | cons e es ih =>
    by_cases he : e.1 = k
    · rw [List.filter_cons_of_neg (by simp [he]), ih]
      subst he
      by_cases h : e.1 = k' <;> simp [firstValue?, h]
    · rw [List.filter_cons_of_pos (by simp [he])]
      by_cases h' : e.1 = k'
      · have h : ¬ k = k' := fun h => he (h'.trans h.symm)
        simp [firstValue?, h', h]
      · simp only [firstValue?, h', if_false, ih]

end Table

end Linkage
