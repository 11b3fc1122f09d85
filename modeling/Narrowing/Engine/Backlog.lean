/-!
Backlogs: keys that wait in the order in which they came, each with what has gathered for it. A key
waits once; what comes for a waiting key is added to what it has, and the key keeps its place.
-/

namespace Narrowing

/-- The waiting keys, the longest waiting one first, each with what has gathered for it. -/
structure Backlog (κ ε : Type) where
  entries : List (κ × ε) := []
  deriving DecidableEq

namespace Backlog

variable {κ ε : Type} [DecidableEq κ] [Union ε]

/-- Add `e` for the key `k` to the entries. -/
def insertEntry (k : κ) (e : ε) : List (κ × ε) → List (κ × ε)
  | [] => [(k, e)]
  | (k', e') :: rest => if k' = k then (k', e' ∪ e) :: rest else (k', e') :: insertEntry k e rest

/-- Add `e` for the key `k`. -/
def add (b : Backlog κ ε) (k : κ) (e : ε) : Backlog κ ε := ⟨insertEntry k e b.entries⟩

/-- Add what is listed, one after the other. -/
def addAll (b : Backlog κ ε) (arrivals : List (κ × ε)) : Backlog κ ε :=
  arrivals.foldl (fun b arrival => b.add arrival.1 arrival.2) b

/-- The key that has waited longest, with what has gathered for it. -/
def pop? (b : Backlog κ ε) : Option ((κ × ε) × Backlog κ ε) :=
  match b.entries with
  | [] => none
  | first :: rest => some (first, ⟨rest⟩)

/-- Whether nothing waits. -/
def isEmpty (b : Backlog κ ε) : Bool := b.entries.isEmpty

/-- The waiting keys, the longest waiting one first. -/
def keys (b : Backlog κ ε) : List κ := b.entries.map Prod.fst

/-- What has gathered for a waiting key. -/
def gathered? (b : Backlog κ ε) (k : κ) : Option ε := b.entries.lookup k

omit [DecidableEq κ] [Union ε] in
@[simp] theorem keys_nil : (⟨[]⟩ : Backlog κ ε).keys = [] := rfl

theorem map_fst_insertEntry (k : κ) (e : ε) (entries : List (κ × ε)) :
    (insertEntry k e entries).map Prod.fst =
      if k ∈ entries.map Prod.fst then entries.map Prod.fst else entries.map Prod.fst ++ [k] := by
  induction entries with
  | nil => simp [insertEntry]
  | cons entry rest ih =>
    obtain ⟨k', e'⟩ := entry
    by_cases h : k' = k
    · simp [insertEntry, h]
    · have h' : k ≠ k' := fun he => h he.symm
      simp only [insertEntry, h, if_false, List.map_cons, ih, List.mem_cons, h', false_or]
      split <;> simp

/-- A key that waits keeps its place, any other goes to the end. -/
theorem keys_add (b : Backlog κ ε) (k : κ) (e : ε) :
    (b.add k e).keys = if k ∈ b.keys then b.keys else b.keys ++ [k] :=
  map_fst_insertEntry k e b.entries

/-- No key waits twice. -/
theorem nodup_keys_add {b : Backlog κ ε} (h : b.keys.Nodup) (k : κ) (e : ε) :
    (b.add k e).keys.Nodup := by
  rw [keys_add]
  split
  · exact h
  · next hk =>
    exact List.nodup_append.2 ⟨h, by simp, by
      intro a ha b hb
      rw [List.mem_singleton.1 hb]
      exact fun he => hk (he ▸ ha)⟩

omit [Union ε] in
theorem lookup_cons (k k' : κ) (e : ε) (rest : List (κ × ε)) :
    ((k', e) :: rest).lookup k = if k = k' then some e else rest.lookup k := by
  rw [List.lookup_cons]
  by_cases hk : k = k'
  · rw [if_pos hk, beq_iff_eq.2 hk]
  · rw [if_neg hk, beq_eq_false_iff_ne.2 hk]

theorem lookup_insertEntry (k k' : κ) (e : ε) (entries : List (κ × ε)) :
    (insertEntry k e entries).lookup k' =
      if k' = k then some (((entries.lookup k).map (· ∪ e)).getD e) else entries.lookup k' := by
  induction entries with
  | nil => rw [insertEntry, lookup_cons]; rfl
  | cons entry rest ih =>
    obtain ⟨k₀, e₀⟩ := entry
    rw [insertEntry]
    split
    · next hk =>
      subst hk
      rw [lookup_cons, lookup_cons, lookup_cons, if_pos rfl]
      split <;> rfl
    · next hk =>
      rw [lookup_cons, ih, lookup_cons, lookup_cons, if_neg (Ne.symm hk)]
      by_cases hk' : k' = k
      · rw [hk', if_neg (Ne.symm hk), if_pos rfl, if_pos rfl]
      · rw [if_neg hk', if_neg hk']

/-- What comes for a key is added to what has gathered for it. -/
theorem gathered?_add (b : Backlog κ ε) (k k' : κ) (e : ε) :
    (b.add k e).gathered? k' =
      if k' = k then some (((b.gathered? k).map (· ∪ e)).getD e) else b.gathered? k' :=
  lookup_insertEntry k k' e b.entries

omit [Union ε] in
theorem gathered?_eq_none {b : Backlog κ ε} {k : κ} : b.gathered? k = none ↔ k ∉ b.keys := by
  rw [gathered?, keys, List.lookup_eq_none_iff, List.mem_map, not_exists]
  simp only [bne_iff_ne, not_and']
  exact forall_congr' fun entry => ⟨fun h he hmem => h hmem he.symm, fun h hmem he => h he.symm hmem⟩

omit [Union ε] in
/-- What has gathered for a key stands in its entry. -/
theorem gathered?_eq_some {b : Backlog κ ε} (h : b.keys.Nodup) {k : κ} {e : ε} :
    b.gathered? k = some e ↔ (k, e) ∈ b.entries := by
  obtain ⟨entries⟩ := b
  unfold gathered?
  induction entries with
  | nil => exact iff_of_false nofun List.not_mem_nil
  | cons entry rest ih =>
    obtain ⟨k₀, e₀⟩ := entry
    obtain ⟨hfirst, hrest⟩ := List.nodup_cons.1 h
    rw [lookup_cons, List.mem_cons, Prod.mk.injEq]
    split
    · next hk =>
      have hnotMem : (k, e) ∉ rest := fun hmem => hfirst (List.mem_map.2 ⟨_, hmem, hk⟩)
      rw [or_iff_left hnotMem, and_iff_right hk, Option.some.injEq, eq_comm]
    · next hk => rw [ih hrest, or_iff_right fun he => hk he.1]

end Backlog

end Narrowing
