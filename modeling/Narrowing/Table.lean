import Narrowing.Fault

/-!
Tables whose entries are named by keys of a type of their own, so that the key of one kind of thing
cannot be used to look up another. Keys are handed out densely, in the order in which entries are
added, and entries are never removed.
-/

namespace Narrowing

/-- A type of keys, each of which stands for an index. -/
class Key (κ : Type) where
  index : κ → Nat
  ofIndex : Nat → κ
  index_ofIndex : ∀ n, index (ofIndex n) = n
  ofIndex_index : ∀ k, ofIndex (index k) = k

/-- Plain numbers are keys as they are. -/
instance : Key Nat := ⟨id, id, fun _ => rfl, fun _ => rfl⟩

namespace Key

/-- How many keys can be told apart in writing: a key is written with 32 bits. -/
def count : Nat := 4294967296

/-- The key that a caller's number stands for. Numbers with the same lowest 32 bits stand for the
same key. -/
def ofNumber {κ : Type} [Key κ] (n : Nat) : κ := ofIndex (n % count)

@[simp] theorem index_ofNumber {κ : Type} [Key κ] (n : Nat) :
    index (ofNumber n : κ) = n % count := by
  simp [ofNumber, index_ofIndex]

/-- A number that fits is the index of its key. -/
theorem ofNumber_of_lt {κ : Type} [Key κ] {n : Nat} (h : n < count) :
    (ofNumber n : κ) = ofIndex n := by
  rw [ofNumber, Nat.mod_eq_of_lt h]

end Key

/-- The entries, at the indices of their keys. -/
structure Table (κ α : Type) where
  entries : Array α := #[]
  deriving DecidableEq

namespace Table

variable {κ α : Type} [Key κ]

/-- A table without entries. -/
def empty : Table κ α := {}

/-- The number of entries. -/
def size (t : Table κ α) : Nat := t.entries.size

/-- The key that the next added entry gets. -/
def nextKey (t : Table κ α) : κ := Key.ofIndex t.entries.size

/-- Add an entry under `nextKey`. -/
def push (t : Table κ α) (a : α) : Table κ α := ⟨t.entries.push a⟩

/-- The entry of a key, if there is one. -/
def get? (t : Table κ α) (k : κ) : Option α := t.entries[Key.index k]?

/-- The entry of a key that is taken to exist. -/
def fetch (t : Table κ α) (k : κ) : Checked α :=
  match t.get? k with
  | some a => .ok a
  | none => .error .outOfBounds

/-- Replace the entry of a key; a key without an entry is left without one. -/
def put (t : Table κ α) (k : κ) (a : α) : Table κ α := ⟨t.entries.setIfInBounds (Key.index k) a⟩

/-- Replace the entry of a key that is taken to exist. -/
def store (t : Table κ α) (k : κ) (a : α) : Checked (Table κ α) :=
  if Key.index k < t.entries.size then .ok (t.put k a) else .error .outOfBounds

/-- Change the entry of a key, if there is one. -/
def update (t : Table κ α) (k : κ) (f : α → α) : Table κ α := ⟨t.entries.modify (Key.index k) f⟩

/-- All entries, by increasing key. -/
def toList (t : Table κ α) : List α := t.entries.toList

/-- All keys, in increasing order. -/
def keys (t : Table κ α) : List κ := (List.range t.size).map Key.ofIndex

omit [Key κ] in
@[simp] theorem size_push (t : Table κ α) (a : α) : (t.push a).size = t.size + 1 := by
  simp [push, size]

@[simp] theorem size_put (t : Table κ α) (k : κ) (a : α) : (t.put k a).size = t.size := by
  simp [put, size]

@[simp] theorem size_update (t : Table κ α) (k : κ) (f : α → α) : (t.update k f).size = t.size := by
  simp [update, size]

/-- The added entry is found under the key that was next. -/
@[simp] theorem get?_push_nextKey (t : Table κ α) (a : α) : (t.push a).get? t.nextKey = some a := by
  simp [get?, push, nextKey, Key.index_ofIndex]

/-- Adding an entry leaves those that are there. -/
theorem get?_push_of_lt (t : Table κ α) (a : α) {k : κ} (h : Key.index k < t.size) :
    (t.push a).get? k = t.get? k := by
  simp only [size] at h
  simp [get?, push, Array.getElem?_push, Nat.ne_of_lt h]

/-- An entry is one that was there, or the added one. -/
theorem eq_or_of_get?_push {t : Table κ α} {a b : α} {k : κ} (h : (t.push a).get? k = some b) :
    (Key.index k < t.size ∧ t.get? k = some b) ∨ (k = t.nextKey ∧ b = a) := by
  by_cases hlt : Key.index k < t.size
  · exact Or.inl ⟨hlt, (get?_push_of_lt t a hlt).symm.trans h⟩
  · have hlast : Key.index k = t.entries.size := by
      have hlt' := (Array.getElem?_eq_some_iff.1 h).1
      simp only [push, Array.size_push] at hlt'
      simp only [size] at hlt
      omega
    have hnext : k = t.nextKey := by rw [nextKey, ← hlast, Key.ofIndex_index]
    rw [hnext, get?_push_nextKey] at h
    exact Or.inr ⟨hnext, (Option.some.inj h).symm⟩

theorem get?_put_self (t : Table κ α) (a : α) {k : κ} (h : Key.index k < t.size) :
    (t.put k a).get? k = some a := by
  simp only [size] at h
  simp [get?, put, h]

theorem get?_put_of_ne (t : Table κ α) (a : α) {j k : κ} (h : Key.index j ≠ Key.index k) :
    (t.put j a).get? k = t.get? k := by
  simp [get?, put, Array.getElem?_setIfInBounds_ne h]

theorem eq_of_index {j k : κ} (h : Key.index j = Key.index k) : j = k := by
  rw [← Key.ofIndex_index j, h, Key.ofIndex_index]

/-- All entries after one of them is replaced. -/
theorem get?_put [DecidableEq κ] (t : Table κ α) (a : α) {j : κ} (h : Key.index j < t.size)
    (k : κ) : (t.put j a).get? k = if k = j then some a else t.get? k := by
  by_cases hk : k = j
  · rw [if_pos hk, hk, get?_put_self t a h]
  · rw [if_neg hk, get?_put_of_ne t a fun he => hk (eq_of_index he).symm]

/-- Replacing an entry by itself changes nothing. -/
theorem put_of_get? (t : Table κ α) {k : κ} {a : α} (h : t.get? k = some a) : t.put k a = t := by
  obtain ⟨hlt, ha⟩ := Array.getElem?_eq_some_iff.1 h
  subst ha
  simp only [put, Array.setIfInBounds, dif_pos hlt, Array.set_getElem_self]

/-- Replacing an entry and adding another one can be done in either order. -/
theorem put_push (t : Table κ α) (a b : α) {k : κ} (h : Key.index k < t.size) :
    (t.push a).put k b = (t.put k b).push a := by
  simp only [size] at h
  simp only [put, push, mk.injEq]
  refine Array.ext_getElem? fun i => ?_
  simp only [Array.getElem?_setIfInBounds, Array.getElem?_push, Array.size_setIfInBounds,
    Array.size_push]
  by_cases hi : Key.index k = i
  · subst hi
    simp [Nat.ne_of_lt h, h, Nat.lt_succ_of_lt h]
  · simp [hi]

theorem get?_update_self (t : Table κ α) (f : α → α) (k : κ) :
    (t.update k f).get? k = (t.get? k).map f := by
  simp [get?, update, Array.getElem?_modify]

theorem get?_update_of_ne (t : Table κ α) (f : α → α) {j k : κ} (h : Key.index j ≠ Key.index k) :
    (t.update j f).get? k = t.get? k := by
  simp [get?, update, Array.getElem?_modify, h]

theorem fetch_eq_ok_iff (t : Table κ α) {k : κ} {a : α} :
    t.fetch k = .ok a ↔ t.get? k = some a := by
  unfold fetch
  split
  · next h => simp [h]
  · next h => simp [h]

theorem lt_size_of_get? {t : Table κ α} {k : κ} {a : α} (h : t.get? k = some a) :
    Key.index k < t.size :=
  (Array.getElem?_eq_some_iff.1 h).1

theorem exists_get? (t : Table κ α) {k : κ} (h : Key.index k < t.size) : ∃ a, t.get? k = some a :=
  ⟨_, Array.getElem?_eq_getElem h⟩

theorem mem_toList_iff {t : Table κ α} {a : α} : a ∈ t.toList ↔ ∃ k, t.get? k = some a := by
  unfold toList get?
  rw [List.mem_iff_getElem?]
  refine ⟨fun ⟨n, hn⟩ => ⟨Key.ofIndex n, ?_⟩, fun ⟨k, hk⟩ => ⟨Key.index k, by simpa using hk⟩⟩
  rw [Key.index_ofIndex]
  simpa using hn

theorem get?_eq_none_iff (t : Table κ α) (k : κ) : t.get? k = none ↔ t.size ≤ Key.index k := by
  simp [get?, size]

/-- All entries after one is added. -/
theorem get?_push (t : Table κ α) (a : α) (k : κ) :
    (t.push a).get? k = if Key.index k = t.size then some a else t.get? k := by
  by_cases h : Key.index k = t.size
  · have hnext : t.nextKey = k := eq_of_index (by rw [nextKey, Key.index_ofIndex, h]; rfl)
    rw [if_pos h, ← hnext, get?_push_nextKey]
  · rw [if_neg h]
    by_cases hlt : Key.index k < t.size
    · exact get?_push_of_lt t a hlt
    · rw [(t.get?_eq_none_iff k).2 (Nat.le_of_not_lt hlt), get?_eq_none_iff, size_push]
      exact Nat.lt_of_le_of_ne (Nat.le_of_not_lt hlt) (Ne.symm h)

end Table

end Narrowing
