/-!
Sets of values as strictly ascending lists. Two such lists are merged in one walk, and a value of
both is kept once. To put arbitrary values in order, they are merged bottom up: runs wait in slots,
and every slot has room for twice as many arrivals as the one before it. A run that finds its slot
taken is merged with what is there and moves on to the next slot, so every value takes part in few
merges.
-/

namespace Narrowing.Ascending

/-- Put `v`, which comes before everything in `rest`, and `rest` into a strictly ascending list;
`rest` tells what it becomes when it is merged with the remainder. -/
def mergeFrom (v : Int) (rest : List Int → List Int) : List Int → List Int
  | [] => v :: rest []
  | w :: ws =>
    if w < v then w :: mergeFrom v rest ws
    else if w = v then v :: rest ws
    else v :: rest (w :: ws)

/-- Merge two strictly ascending lists into one. -/
def merge : List Int → List Int → List Int
  | [], ws => ws
  | v :: vs, ws => mergeFrom v (merge vs) ws

/-- Put a run into the first of the slots that is free, merged with those on the way there. -/
def carry : List Int → List (List Int) → List (List Int)
  | run, [] => [run]
  | run, [] :: slots => run :: slots
  | run, (v :: vs) :: slots => [] :: carry (merge (v :: vs) run) slots

/-- The listed values, strictly ascending. -/
def ofList (values : List Int) : List Int :=
  (values.foldl (fun slots v => carry [v] slots) []).foldl merge []

theorem mem_mergeFrom {v x : Int} {vs : List Int} {rest : List Int → List Int}
    (hrest : ∀ ws, x ∈ rest ws ↔ x ∈ vs ∨ x ∈ ws) (ws : List Int) :
    x ∈ mergeFrom v rest ws ↔ x ∈ v :: vs ∨ x ∈ ws := by
  induction ws with
  | nil => simp [mergeFrom, hrest]
  | cons w ws ih =>
    simp only [mergeFrom]
    split
    · simp only [List.mem_cons, ih]
      grind
    · split
      · next hw =>
        simp only [List.mem_cons, hrest, hw]
        grind
      · simp only [List.mem_cons, hrest]
        grind

/-- Merging loses nothing and adds nothing. -/
theorem mem_merge {x : Int} (vs ws : List Int) : x ∈ merge vs ws ↔ x ∈ vs ∨ x ∈ ws := by
  induction vs generalizing ws with
  | nil => simp [merge]
  | cons v vs ih => exact mem_mergeFrom ih ws

theorem pairwise_mergeFrom {v : Int} {vs : List Int} {rest : List Int → List Int}
    (hmem : ∀ ws x, x ∈ rest ws ↔ x ∈ vs ∨ x ∈ ws)
    (hrest : ∀ ws, ws.Pairwise (· < ·) → (rest ws).Pairwise (· < ·)) (hv : ∀ x ∈ vs, v < x)
    {ws : List Int} (hws : ws.Pairwise (· < ·)) : (mergeFrom v rest ws).Pairwise (· < ·) := by
  induction ws with
  | nil =>
    refine List.pairwise_cons.2 ⟨fun x hx => ?_, hrest [] hws⟩
    exact hv x (by simpa using (hmem [] x).1 hx)
  | cons w ws ih =>
    obtain ⟨hw, hws'⟩ := List.pairwise_cons.1 hws
    simp only [mergeFrom]
    split
    · next hlt =>
      refine List.pairwise_cons.2 ⟨fun x hx => ?_, ih hws'⟩
      rcases (mem_mergeFrom (fun ws => hmem ws x) ws).1 hx with hx | hx
      · rcases List.mem_cons.1 hx with rfl | hx
        · exact hlt
        · exact Int.lt_trans hlt (hv x hx)
      · exact hw x hx
    · next hge =>
      split
      · next heq =>
        subst heq
        refine List.pairwise_cons.2 ⟨fun x hx => ?_, hrest ws hws'⟩
        exact ((hmem ws x).1 hx).elim (hv x) (hw x)
      · next hne =>
        refine List.pairwise_cons.2 ⟨fun x hx => ?_, hrest (w :: ws) hws⟩
        have hvw : v < w := by omega
        rcases (hmem (w :: ws) x).1 hx with hx | hx
        · exact hv x hx
        · rcases List.mem_cons.1 hx with rfl | hx
          · exact hvw
          · exact Int.lt_trans hvw (hw x hx)

/-- Merging keeps the order. -/
theorem pairwise_merge {vs ws : List Int} (hvs : vs.Pairwise (· < ·)) (hws : ws.Pairwise (· < ·)) :
    (merge vs ws).Pairwise (· < ·) := by
  induction vs generalizing ws with
  | nil => exact hws
  | cons v vs ih =>
    obtain ⟨hv, hvs'⟩ := List.pairwise_cons.1 hvs
    exact pairwise_mergeFrom (fun ws x => mem_merge vs ws) (fun _ h => ih hvs' h) hv hws

theorem mem_flatten_carry {x : Int} (run : List Int) (slots : List (List Int)) :
    x ∈ (carry run slots).flatten ↔ x ∈ run ∨ x ∈ slots.flatten := by
  fun_induction carry run slots with
  | case1 => simp
  | case2 => simp
  | case3 run v vs slots ih =>
    simp only [List.flatten_cons, List.mem_append, ih, mem_merge]
    grind

theorem pairwise_of_mem_carry {run : List Int} {slots : List (List Int)}
    (hrun : run.Pairwise (· < ·)) (hslots : ∀ slot ∈ slots, slot.Pairwise (· < ·)) :
    ∀ slot ∈ carry run slots, slot.Pairwise (· < ·) := by
  fun_induction carry run slots with
  | case1 => simpa using hrun
  | case2 => simp_all
  | case3 run v vs slots ih =>
    intro slot hslot
    rcases List.mem_cons.1 hslot with rfl | hslot
    · exact List.Pairwise.nil
    · exact ih (pairwise_merge (hslots _ List.mem_cons_self) hrun)
        (fun s hs => hslots s (List.mem_cons_of_mem _ hs)) slot hslot

theorem mem_foldl_merge {x : Int} (slots : List (List Int)) (run : List Int) :
    x ∈ slots.foldl merge run ↔ x ∈ run ∨ x ∈ slots.flatten := by
  induction slots generalizing run with
  | nil => simp
  | cons slot slots ih => simp [ih, mem_merge, or_assoc]

theorem pairwise_foldl_merge {slots : List (List Int)} {run : List Int}
    (hslots : ∀ slot ∈ slots, slot.Pairwise (· < ·)) (hrun : run.Pairwise (· < ·)) :
    (slots.foldl merge run).Pairwise (· < ·) := by
  induction slots generalizing run with
  | nil => exact hrun
  | cons slot slots ih =>
    exact ih (fun s hs => hslots s (List.mem_cons_of_mem _ hs))
      (pairwise_merge hrun (hslots slot List.mem_cons_self))

theorem mem_flatten_foldl_carry {x : Int} (values : List Int) (slots : List (List Int)) :
    x ∈ (values.foldl (fun slots v => carry [v] slots) slots).flatten ↔
      x ∈ values ∨ x ∈ slots.flatten := by
  induction values generalizing slots with
  | nil => simp
  | cons v values ih =>
    simp only [List.foldl_cons, ih, mem_flatten_carry, List.mem_cons, List.not_mem_nil, or_false]
    grind

theorem pairwise_of_mem_foldl_carry (values : List Int) {slots : List (List Int)}
    (hslots : ∀ slot ∈ slots, slot.Pairwise (· < ·)) :
    ∀ slot ∈ values.foldl (fun slots v => carry [v] slots) slots, slot.Pairwise (· < ·) := by
  induction values generalizing slots with
  | nil => exact hslots
  | cons v values ih => exact ih (pairwise_of_mem_carry (List.pairwise_singleton _ v) hslots)

/-- The listed values are exactly those that are put in order. -/
@[simp] theorem mem_ofList {x : Int} {values : List Int} : x ∈ ofList values ↔ x ∈ values := by
  rw [ofList, mem_foldl_merge, mem_flatten_foldl_carry]
  simp

/-- Values in order are strictly ascending, so none of them is there twice. -/
theorem pairwise_ofList (values : List Int) : (ofList values).Pairwise (· < ·) :=
  pairwise_foldl_merge (pairwise_of_mem_foldl_carry values (by simp)) List.Pairwise.nil

end Narrowing.Ascending
