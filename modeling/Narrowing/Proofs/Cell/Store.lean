import Narrowing.Cell.Store
import Narrowing.Proofs.Cell.SwapSet
import Mathlib.Logic.Function.Basic

/-!
What cells hold, now and after a rewind. The order of the members of a set is not restored, so what
is compared are the integers and the sets as sets. A write is recorded only once in a frame; that a
rewind gives back the old value all the same rests on the stamps: an integer that bears the stamp of
a frame has a record in it.
-/

namespace Narrowing

/-- The integers as they are stored, and the sets as sets. -/
structure Contents where
  integers : Table CellId Cell
  places : SetId → Finset Nat

namespace Contents

/-- The value of an integer. -/
def value (C : Contents) (c : CellId) : Int := (C.integers.get? c).elim 0 Cell.value

/-- Take back one recorded change. -/
def undo (C : Contents) : CellChange → Contents
  | .written c old => { C with integers := C.integers.put c old }
  | .inserted k e => { C with places := Function.update C.places k ((C.places k).erase e) }
  | .erased k e => { C with places := Function.update C.places k (insert e (C.places k)) }

/-- Contents with one integer replaced. -/
def put (C : Contents) (c : CellId) (cell : Cell) : Contents :=
  { C with integers := C.integers.put c cell }

/-- Contents with one integer more. -/
def push (C : Contents) (cell : Cell) : Contents := { C with integers := C.integers.push cell }

theorem put_put (C : Contents) (c : CellId) (a b : Cell) : (C.put c a).put c b = C.put c b := by
  simp [put, Table.put, Array.setIfInBounds_setIfInBounds]

theorem put_comm (C : Contents) {c c' : CellId} (h : c ≠ c') (a b : Cell) :
    (C.put c a).put c' b = (C.put c' b).put c a := by
  have hne : c.index ≠ c'.index := fun he => h (by cases c; cases c'; exact congrArg CellId.mk he)
  simp [put, Table.put, Array.setIfInBounds_comm _ _ hne, Key.index]

theorem put_of_get? (C : Contents) {c : CellId} {cell : Cell}
    (h : C.integers.get? c = some cell) : C.put c cell = C := by
  rw [put, Table.put_of_get? _ h]

theorem value_put (C : Contents) {c : CellId} {cell : Cell} (h : c.index < C.integers.size) :
    (C.put c cell).value = Function.update C.value c cell.value := by
  funext c'
  change ((C.integers.put c cell).get? c').elim 0 Cell.value = _
  rw [Table.get?_put _ _ h]
  by_cases hc : c' = c
  · rw [if_pos hc, hc, Function.update_self]
    rfl
  · rw [if_neg hc, Function.update_of_ne hc]
    rfl

/-- A write does not show once an older value is put back. -/
theorem foldl_undo_put (C : Contents) {c : CellId} {cell : Cell} {records : List CellChange}
    (h : ∃ old, CellChange.written c old ∈ records) :
    records.foldl undo (C.put c cell) = records.foldl undo C := by
  induction records generalizing C with
  | nil => obtain ⟨old, hold⟩ := h; exact nomatch hold
  | cons r rest ih =>
      obtain ⟨old, hold⟩ := h
      rw [List.foldl_cons, List.foldl_cons]
      cases r with
      | written c' old' =>
          by_cases hc : c = c'
          · subst hc
            exact congrArg (rest.foldl undo) (put_put C c cell old')
          · have hrest : CellChange.written c old ∈ rest := by
              rcases List.mem_cons.1 hold with he | hrest
              · exact absurd (CellChange.written.inj he).1 hc
              · exact hrest
            change rest.foldl undo ((C.put c cell).put c' old') = _
            rw [put_comm C hc]
            exact ih _ ⟨old, hrest⟩
      | inserted k e =>
          exact ih (C.undo (.inserted k e)) ⟨old, (List.mem_cons.1 hold).resolve_left (by simp)⟩
      | erased k e =>
          exact ih (C.undo (.erased k e)) ⟨old, (List.mem_cons.1 hold).resolve_left (by simp)⟩

theorem size_undo (C : Contents) (r : CellChange) : (C.undo r).integers.size = C.integers.size := by
  cases r with
  | written c old => exact Table.size_put _ _ _
  | inserted k e => rfl
  | erased k e => rfl

theorem size_foldl_undo (C : Contents) (records : List CellChange) :
    (records.foldl undo C).integers.size = C.integers.size := by
  induction records generalizing C with
  | nil => rfl
  | cons r rest ih => exact (ih _).trans (size_undo C r)

/-- An integer added later is there with its first value after a rewind. -/
theorem foldl_undo_push (C : Contents) {cell : Cell} {records : List CellChange}
    (h : ∀ c old, CellChange.written c old ∈ records → c.index < C.integers.size) :
    records.foldl undo (C.push cell) = (records.foldl undo C).push cell := by
  induction records generalizing C with
  | nil => rfl
  | cons r rest ih =>
      rw [List.foldl_cons, List.foldl_cons, ← ih (C.undo r) fun c old hr => by
        rw [size_undo]
        exact h c old (List.mem_cons_of_mem _ hr)]
      congr 1
      cases r with
      | written c old =>
          have hlt := h c old List.mem_cons_self
          change (⟨(C.integers.push cell).put c old, C.places⟩ : Contents) = _
          rw [Table.put_push _ _ _ hlt]
          rfl
      | inserted k e => rfl
      | erased k e => rfl

theorem value_of_size_le {C : Contents} {c : CellId} (hc : C.integers.size ≤ c.index) :
    C.value c = 0 := by
  rw [value, (Table.get?_eq_none_iff C.integers c).2 hc]
  rfl

/-- A name without an integer stands for zero, so a zero more changes no value. -/
theorem value_push_zero (C : Contents) (stamp : Option Nat) :
    (C.push ⟨0, stamp⟩).value = C.value := by
  funext c
  change ((C.integers.push ⟨0, stamp⟩).get? c).elim 0 Cell.value =
    (C.integers.get? c).elim 0 Cell.value
  rw [Table.get?_push]
  split
  · next hc => exact (value_of_size_le (Nat.le_of_eq hc.symm)).symm
  · rfl

end Contents

/-- What a change of one cell makes of the contents. -/
def CellOp.Turns (C C' : Contents) : CellOp → Prop
  | .assign c v => C'.value = Function.update C.value c v ∧ C'.places = C.places
  | .add c n => C'.value = Function.update C.value c (C.value c + n) ∧ C'.places = C.places
  | .insert k e => C'.value = C.value ∧
    C'.places = Function.update C.places k (Insert.insert e (C.places k))
  | .erase k e => C'.value = C.value ∧
    C'.places = Function.update C.places k ((C.places k).erase e)
  | .clear k => C'.value = C.value ∧ C'.places = Function.update C.places k ∅

namespace Cells

/-- The members of a set. A name without a set has none. -/
def places (s : Cells) (k : SetId) : Finset Nat := (s.sets.get? k).elim ∅ SwapSet.toFinset

/-- What the cells hold. -/
def contents (s : Cells) : Contents := ⟨s.integers, s.places⟩

/-- What the cells would hold after a rewind to level `k`. -/
def past (s : Cells) (k : Nat) : Contents := (s.trail.undone k).foldl Contents.undo s.contents

/-- What is to be true of the cells for a rewind to give back what was there. The stamps of a level
are borne by integers with a record in its frame only, and a stamp not yet given out by none. -/
structure WellFormed (s : Cells) : Prop where
  sets : ∀ k set, s.sets.get? k = some set → set.WellFormed
  length_stamps : s.stamps.length = s.level + 1
  recorded : ∀ c old, .written c old ∈ s.trail.frames.flatten → c.index < s.integers.size
  stamps_lt : ∀ n ∈ s.stamps, n < s.nextStamp
  fresh : ∀ k ≤ s.level, ∀ c cell, (s.past k).integers.get? c = some cell →
    ∀ n, cell.stamp = some n → n < s.nextStamp
  saved : ∀ k ≤ s.level, ∀ c cell, (s.past k).integers.get? c = some cell →
    cell.stamp = s.stamps[s.level - k]? → ∃ old, .written c old ∈ (s.trail.below k).current

/-- `s'` came from `s` by changes in the current frame. -/
structure Evolves (s s' : Cells) : Prop where
  wellFormed : s'.WellFormed
  level_eq : s'.level = s.level
  size_eq : s'.integers.size = s.integers.size ∧ s'.sets.size = s.sets.size
  past_eq : ∀ k < s.level, s'.past k = s.past k

variable {s s' s'' : Cells} {c : CellId} {k : SetId} {e : Nat} {b : Bool}

theorem Evolves.refl (h : s.WellFormed) : Evolves s s :=
  ⟨h, rfl, ⟨rfl, rfl⟩, fun _ _ => rfl⟩

theorem Evolves.trans (h : Evolves s s') (h' : Evolves s' s'') : Evolves s s'' :=
  ⟨h'.wellFormed, h'.level_eq.trans h.level_eq,
    ⟨h'.size_eq.1.trans h.size_eq.1, h'.size_eq.2.trans h.size_eq.2⟩, fun k hk =>
    (h'.past_eq k (by rw [h.level_eq]; exact hk)).trans (h.past_eq k hk)⟩

theorem past_level (s : Cells) : s.past s.level = s.contents := by
  rw [past, level, Trail.undone_level]
  rfl

namespace WellFormed

variable (h : s.WellFormed)
include h

theorem getElem?_stamps : s.stamps[0]? = some s.stamp := by
  have hlength := h.length_stamps
  unfold stamp
  cases hs : s.stamps with
  | nil => simp [hs] at hlength
  | cons n rest => rfl

theorem stamp_lt : s.stamp < s.nextStamp :=
  h.stamps_lt _ (List.mem_of_getElem? h.getElem?_stamps)

/-- A change of the current frame keeps the cells well-formed if it is recorded, or is a change of
an integer that has a record already. -/
theorem evolves (hsets : ∀ k set, s'.sets.get? k = some set → set.WellFormed)
    (hstamps : s'.stamps = s.stamps) (hnext : s'.nextStamp = s.nextStamp)
    (hsize : s'.integers.size = s.integers.size ∧ s'.sets.size = s.sets.size)
    (htrail : s'.trail = s.trail ∨ ∃ r, s'.trail = s.trail.push r ∧
      ∀ c old, r = .written c old → c.index < s.integers.size)
    (hpast : ∀ k < s.level, s'.past k = s.past k)
    (hcells : ∀ c cell, s'.integers.get? c = some cell → s.integers.get? c = some cell ∨
      (cell.stamp = some s.stamp ∧ ∃ old, .written c old ∈ s'.trail.current)) :
    Evolves s s' := by
  have hlevel : s'.level = s.level := by
    rcases htrail with ht | ⟨r, ht, -⟩
    · rw [level, ht, level]
    · rw [level, ht, Trail.level_push, level]
  have hbelow : ∀ k < s.level, s'.trail.below k = s.trail.below k := by
    intro k hk
    rcases htrail with ht | ⟨r, ht, -⟩
    · rw [ht]
    · rw [ht, Trail.below_push _ _ hk]
  have hcurrent : ∀ r ∈ s.trail.current, r ∈ s'.trail.current := by
    intro r hr
    rcases htrail with ht | ⟨r', ht, -⟩
    · rwa [ht]
    · rw [ht]
      exact List.mem_cons_of_mem _ hr
  have hnow : s'.past s.level = s'.contents := by rw [← hlevel, past_level]
  refine ⟨⟨hsets, ?_, ?_, ?_, ?_, ?_⟩, hlevel, hsize, hpast⟩
  · rw [hstamps, hlevel, h.length_stamps]
  · intro c old hc
    rw [hsize.1]
    rcases htrail with ht | ⟨r, ht, hr⟩
    · exact h.recorded c old (ht ▸ hc)
    · rw [ht, Trail.mem_frames_push] at hc
      rcases hc with hc | hc
      · exact hr c old hc.symm
      · exact h.recorded c old hc
  · intro n hn
    rw [hnext]
    exact h.stamps_lt n (hstamps ▸ hn)
  · intro k hk c cell hcell n hn
    rw [hnext]
    rw [hlevel] at hk
    rcases Nat.lt_or_eq_of_le hk with hk | rfl
    · rw [hpast k hk] at hcell
      exact h.fresh k (Nat.le_of_lt hk) c cell hcell n hn
    · rw [hnow] at hcell
      rcases hcells c cell hcell with hold | ⟨hstamp, -⟩
      · exact h.fresh _ (Nat.le_refl _) c cell (by rw [past_level]; exact hold) n hn
      · rw [← Option.some.inj (hstamp.symm.trans hn)]
        exact h.stamp_lt
  · intro k hk c cell hcell hstamp
    rw [hlevel] at hk
    rw [hlevel, hstamps] at hstamp
    rcases Nat.lt_or_eq_of_le hk with hk | rfl
    · rw [hpast k hk] at hcell
      rw [hbelow k hk]
      exact h.saved k (Nat.le_of_lt hk) c cell hcell hstamp
    · rw [hnow] at hcell
      have hbelow' : s'.trail.below s.level = s'.trail := by
        rw [← hlevel]
        exact Trail.below_level _
      rw [hbelow']
      rcases hcells c cell hcell with hold | ⟨-, hsaved⟩
      · obtain ⟨old, hmem⟩ := h.saved _ (Nat.le_refl _) c cell (by rw [past_level]; exact hold) hstamp
        rw [level, Trail.below_level] at hmem
        exact ⟨old, hcurrent _ hmem⟩
      · exact hsaved

end WellFormed

/-- Without cells nothing has to be given back. -/
theorem wellFormed_init : ({} : Cells).WellFormed := by
  have hempty : ∀ k c cell, (({} : Cells).past k).integers.get? c ≠ some cell := by
    intro k c cell hc
    have hlt := Table.lt_size_of_get? hc
    rw [past, Contents.size_foldl_undo] at hlt
    exact absurd hlt (Nat.not_lt_zero _)
  refine ⟨fun k set hset => ?_, rfl, fun c old hc => absurd hc List.not_mem_nil, fun n hn => ?_,
    fun k hk c cell hc => absurd hc (hempty k c cell),
    fun k hk c cell hc => absurd hc (hempty k c cell)⟩
  · exact absurd (Table.lt_size_of_get? hset) (Nat.not_lt_zero _)
  · rw [List.mem_singleton.1 hn]
    exact Nat.one_pos

/-! ### Changes -/

theorem read_eq_ok {v : Int} (h : s.read c = .ok v) : s.contents.value c = v := by
  obtain ⟨cell, hcell, hv⟩ := Checked.bind_eq_ok h
  rw [Contents.value, contents, (Table.fetch_eq_ok_iff _).1 hcell]
  exact Except.ok.inj hv

theorem set_eq_ok {set : SwapSet} (h : s.set k = .ok set) (hwf : s.WellFormed) :
    set.WellFormed ∧ set.toFinset = s.contents.places k := by
  have hget := (Table.fetch_eq_ok_iff _).1 h
  refine ⟨hwf.sets k set hget, ?_⟩
  change set.toFinset = (s.sets.get? k).elim ∅ SwapSet.toFinset
  rw [hget]
  rfl

theorem members_eq_ok {l : List Nat} (h : s.members k = .ok l) (hwf : s.WellFormed) :
    l.Nodup ∧ ∀ e, e ∈ l ↔ e ∈ s.contents.places k := by
  obtain ⟨set, hset, hl⟩ := Checked.bind_eq_ok h
  obtain rfl := Except.ok.inj hl
  obtain ⟨hset', hplaces⟩ := set_eq_ok hset hwf
  refine ⟨SwapSet.nodup_members hset', fun e => ?_⟩
  rw [← hplaces, SwapSet.toFinset, List.mem_toFinset]

/-- An integer with the stamp of the current frame has a record there. -/
theorem WellFormed.exists_written (h : s.WellFormed) {cell : Cell}
    (hget : s.integers.get? c = some cell) (hstamp : cell.stamp = some s.stamp) :
    ∃ old, .written c old ∈ s.trail.current := by
  obtain ⟨old, hold⟩ := h.saved s.level (Nat.le_refl _) c cell (by rw [past_level]; exact hget)
    (by rw [Nat.sub_self, h.getElem?_stamps, hstamp])
  rw [level, Trail.below_level] at hold
  exact ⟨old, hold⟩

theorem assign_eq_ok (h : s.WellFormed) {v : Int} (ha : s.assign c v = .ok s') :
    Evolves s s' ∧ (CellOp.assign c v).Turns s.contents s'.contents := by
  obtain ⟨cell, hcell, ha⟩ := Checked.bind_eq_ok ha
  have hget := (Table.fetch_eq_ok_iff _).1 hcell
  have hlt := Table.lt_size_of_get? hget
  split at ha
  · next hsame =>
    obtain rfl := Except.ok.inj ha
    refine ⟨.refl h, ?_, rfl⟩
    have hvalue : s.contents.value c = v := by
      rw [Contents.value, contents, hget]
      exact hsame
    rw [← hvalue, Function.update_eq_self]
  · next hnew =>
    obtain rfl := Except.ok.inj ha
    refine ⟨h.evolves h.sets rfl rfl ⟨Table.size_put _ _ _, rfl⟩ ?_ ?_ ?_,
      Contents.value_put s.contents hlt, rfl⟩
    · by_cases hstamp : cell.stamp = some s.stamp
      · exact Or.inl (if_pos hstamp)
      · refine Or.inr ⟨.written c cell, if_neg hstamp, fun c' old he => ?_⟩
        rw [← (CellChange.written.inj he).1]
        exact hlt
    · intro j hj
      unfold past
      by_cases hstamp : cell.stamp = some s.stamp
      · obtain ⟨old, hold⟩ := h.exists_written hget hstamp
        rw [if_pos hstamp]
        exact Contents.foldl_undo_put s.contents ⟨old, Trail.mem_undone_of_current _ hj hold⟩
      · rw [if_neg hstamp, Trail.undone_push _ _ hj, List.foldl_cons]
        congr 1
        change (s.contents.put c ⟨v, some s.stamp⟩).put c cell = s.contents
        rw [Contents.put_put, Contents.put_of_get? s.contents hget]
    · intro c' cell' hc'
      rw [Table.get?_put _ _ hlt] at hc'
      split at hc'
      · next hc =>
        obtain rfl := Option.some.inj hc'
        refine Or.inr ⟨rfl, ?_⟩
        rw [hc]
        by_cases hstamp : cell.stamp = some s.stamp
        · obtain ⟨old, hold⟩ := h.exists_written hget hstamp
          exact ⟨old, by rw [if_pos hstamp]; exact hold⟩
        · exact ⟨cell, by rw [if_neg hstamp]; exact List.mem_cons_self⟩
      · exact Or.inl hc'

theorem add_eq_ok (h : s.WellFormed) {n : Int} (ha : s.add c n = .ok s') :
    Evolves s s' ∧ (CellOp.add c n).Turns s.contents s'.contents := by
  obtain ⟨v, hv, ha⟩ := Checked.bind_eq_ok ha
  obtain ⟨sum, hsum, ha⟩ := Checked.bind_eq_ok ha
  obtain rfl := Amount.eq_of_check hsum
  obtain ⟨hevolves, hturns⟩ := assign_eq_ok h ha
  rw [← read_eq_ok hv] at hturns
  exact ⟨hevolves, hturns⟩

/-- Replacing a set by another one. -/
theorem places_put (s : Cells) {set set' : SwapSet} (hget : s.sets.get? k = some set)
    (trail : Trail CellChange) :
    ({ s with trail, sets := s.sets.put k set' } : Cells).places =
      Function.update s.places k set'.toFinset := by
  funext j
  change ((s.sets.put k set').get? j).elim ∅ SwapSet.toFinset = _
  rw [Table.get?_put _ _ (Table.lt_size_of_get? hget)]
  by_cases hj : j = k
  · rw [if_pos hj, hj, Function.update_self]
    rfl
  · rw [if_neg hj, Function.update_of_ne hj]
    rfl

/-- A set is replaced, with a record that gives the old members back, or by one with the same
members. -/
theorem evolves_put (h : s.WellFormed) {set set' : SwapSet} (hget : s.sets.get? k = some set)
    (hset' : set'.WellFormed) {r : CellChange} (hr : ∀ c old, r ≠ .written c old)
    (hundo : b = true →
      Contents.undo ⟨s.integers, Function.update s.places k set'.toFinset⟩ r = s.contents)
    (hsame : b = false → set'.toFinset = s.places k) :
    Evolves s
      { s with trail := if b = true then s.trail.push r else s.trail, sets := s.sets.put k set' } := by
  refine h.evolves (fun j old hold => ?_) rfl rfl ⟨rfl, Table.size_put _ _ _⟩ ?_ (fun j hj => ?_)
    fun c cell hc => Or.inl hc
  · rw [Table.get?_put _ _ (Table.lt_size_of_get? hget)] at hold
    split at hold
    · obtain rfl := Option.some.inj hold
      exact hset'
    · exact h.sets j old hold
  · cases b with
    | false => exact Or.inl rfl
    | true => exact Or.inr ⟨r, rfl, fun c old he => absurd he (hr c old)⟩
  · unfold past contents
    rw [places_put s hget]
    cases b with
    | false =>
        rw [hsame rfl, Function.update_eq_self]
        rfl
    | true =>
        change ((s.trail.push r).undone j).foldl Contents.undo _ = _
        rw [Trail.undone_push _ _ hj, List.foldl_cons, hundo rfl]
        rfl

theorem insert_eq_ok (h : s.WellFormed) (hi : s.insert k e = .ok (b, s')) :
    Evolves s s' ∧ (CellOp.insert k e).Turns s.contents s'.contents := by
  obtain ⟨set, hset, hi⟩ := Checked.bind_eq_ok hi
  obtain ⟨⟨fresh, set'⟩, hset', hi⟩ := Checked.bind_eq_ok hi
  obtain ⟨rfl, rfl⟩ := Prod.mk.inj (Except.ok.inj hi)
  have hget := (Table.fetch_eq_ok_iff _).1 hset
  obtain ⟨hwf, hplaces⟩ := set_eq_ok hset h
  have hplaces : set.toFinset = s.places k := hplaces
  obtain ⟨hwf', hmembers, hfresh⟩ := SwapSet.insert_eq_ok hwf hset'
  rw [hplaces] at hmembers hfresh
  constructor
  · refine evolves_put h hget hwf' (fun _ _ he => nomatch he) (fun hb => ?_) fun hb => ?_
    · simp only [Contents.undo, Function.update_idem, Function.update_self, hmembers,
        Finset.erase_insert (hfresh.1 hb), Function.update_eq_self]
      rfl
    · rw [hmembers, Finset.insert_eq_self]
      by_contra hnot
      rw [hfresh.2 hnot] at hb
      exact nomatch hb
  · exact ⟨rfl, (places_put s hget _).trans (by rw [hmembers]; rfl)⟩

theorem erase_eq_ok (h : s.WellFormed) (he : s.erase k e = .ok (b, s')) :
    Evolves s s' ∧ (CellOp.erase k e).Turns s.contents s'.contents := by
  obtain ⟨set, hset, he⟩ := Checked.bind_eq_ok he
  obtain ⟨⟨found, set'⟩, hset', he⟩ := Checked.bind_eq_ok he
  obtain ⟨rfl, rfl⟩ := Prod.mk.inj (Except.ok.inj he)
  have hget := (Table.fetch_eq_ok_iff _).1 hset
  obtain ⟨hwf, hplaces⟩ := set_eq_ok hset h
  have hplaces : set.toFinset = s.places k := hplaces
  obtain ⟨hwf', hmembers, hfound⟩ := SwapSet.erase_eq_ok hwf hset'
  rw [hplaces] at hmembers hfound
  constructor
  · refine evolves_put h hget hwf' (fun _ _ he => nomatch he) (fun hb => ?_) fun hb => ?_
    · simp only [Contents.undo, Function.update_idem, Function.update_self, hmembers,
        Finset.insert_erase (hfound.1 hb), Function.update_eq_self]
      rfl
    · rw [hmembers, Finset.erase_eq_self]
      intro hin
      rw [hfound.2 hin] at hb
      exact nomatch hb
  · exact ⟨rfl, (places_put s hget _).trans (by rw [hmembers]; rfl)⟩

theorem eraseAll_eq_ok (h : s.WellFormed) {l : List Nat} (he : s.eraseAll k l = .ok s') :
    Evolves s s' ∧ s'.contents.value = s.contents.value ∧
      s'.contents.places = Function.update s.contents.places k (s.contents.places k \ l.toFinset) := by
  induction l generalizing s with
  | nil =>
      obtain rfl := Except.ok.inj he
      refine ⟨.refl h, rfl, ?_⟩
      rw [List.toFinset_nil, Finset.sdiff_empty, Function.update_eq_self]
  | cons e rest ih =>
      obtain ⟨⟨b, s₁⟩, hfirst, he⟩ := Checked.bind_eq_ok he
      obtain ⟨hevolves, hvalue, hplaces⟩ := erase_eq_ok h hfirst
      obtain ⟨hevolves', hvalue', hplaces'⟩ := ih hevolves.wellFormed he
      refine ⟨hevolves.trans hevolves', hvalue'.trans hvalue, ?_⟩
      rw [hplaces', hplaces, Function.update_idem, Function.update_self]
      congr 1
      ext u
      simp only [Finset.mem_sdiff, Finset.mem_erase, List.mem_toFinset, List.mem_cons]
      tauto

theorem clear_eq_ok (h : s.WellFormed) (he : s.clear k = .ok s') :
    Evolves s s' ∧ (CellOp.clear k).Turns s.contents s'.contents := by
  obtain ⟨l, hl, he⟩ := Checked.bind_eq_ok he
  obtain ⟨hevolves, hvalue, hplaces⟩ := eraseAll_eq_ok h he
  refine ⟨hevolves, hvalue, ?_⟩
  rw [hplaces]
  congr 1
  refine Finset.sdiff_eq_empty_iff_subset.2 fun u hu => ?_
  exact List.mem_toFinset.2 (((members_eq_ok hl h).2 u).2 hu)

/-- Every change is one of the current frame and does what it says. -/
theorem perform_eq_ok (h : s.WellFormed) {op : CellOp} (hop : s.perform op = .ok (b, s')) :
    Evolves s s' ∧ op.Turns s.contents s'.contents := by
  cases op with
  | assign c v =>
      obtain ⟨s₁, hs₁, hop⟩ := Checked.bind_eq_ok hop
      obtain ⟨-, rfl⟩ := Prod.mk.inj (Except.ok.inj hop)
      exact assign_eq_ok h hs₁
  | add c n =>
      obtain ⟨s₁, hs₁, hop⟩ := Checked.bind_eq_ok hop
      obtain ⟨-, rfl⟩ := Prod.mk.inj (Except.ok.inj hop)
      exact add_eq_ok h hs₁
  | insert k e => exact insert_eq_ok h hop
  | erase k e => exact erase_eq_ok h hop
  | clear k =>
      obtain ⟨s₁, hs₁, hop⟩ := Checked.bind_eq_ok hop
      obtain ⟨-, rfl⟩ := Prod.mk.inj (Except.ok.inj hop)
      exact clear_eq_ok h hs₁

/-! ### New cells -/

theorem past_newInteger (h : s.WellFormed) (v : Int) (j : Nat) :
    (s.newInteger v).past j = (s.past j).push ⟨v, none⟩ :=
  Contents.foldl_undo_push s.contents fun c old hc =>
    h.recorded c old (Trail.mem_frames_of_undone _ hc)

theorem wellFormed_newInteger (h : s.WellFormed) (v : Int) : (s.newInteger v).WellFormed := by
  have hold : ∀ j c cell, ((s.newInteger v).past j).integers.get? c = some cell →
      (s.past j).integers.get? c = some cell ∨ cell.stamp = none := by
    intro j c cell hc
    rw [past_newInteger h] at hc
    change ((s.past j).integers.push ⟨v, none⟩).get? c = some cell at hc
    rw [Table.get?_push] at hc
    split at hc
    · exact Or.inr (Option.some.inj hc ▸ rfl)
    · exact Or.inl hc
  refine ⟨h.sets, h.length_stamps, fun c old hc => ?_, h.stamps_lt, fun j hj c cell hc n hn => ?_,
    fun j hj c cell hc hstamp => ?_⟩
  · exact Nat.lt_of_lt_of_eq (Nat.lt_succ_of_lt (h.recorded c old hc)) (Table.size_push _ _).symm
  · rcases hold j c cell hc with hc | hnone
    · exact h.fresh j hj c cell hc n hn
    · rw [hnone] at hn
      exact nomatch hn
  · rcases hold j c cell hc with hc | hnone
    · exact h.saved j hj c cell hc hstamp
    · have hlt : s.level - j < s.stamps.length := by
        rw [h.length_stamps]
        omega
      have hstamp : cell.stamp = s.stamps[s.level - j]? := hstamp
      rw [hnone, List.getElem?_eq_getElem hlt] at hstamp
      exact nomatch hstamp

/-- A new set is empty, like a set that is not there. -/
theorem contents_newSet (s : Cells) (n : Nat) : (s.newSet n).contents = s.contents := by
  have hplaces : (s.newSet n).places = s.places := by
    funext k
    change ((s.sets.push (.ofCapacity n)).get? k).elim ∅ SwapSet.toFinset =
      (s.sets.get? k).elim ∅ SwapSet.toFinset
    rw [Table.get?_push]
    split
    · next hk =>
      rw [(Table.get?_eq_none_iff s.sets k).2 (Nat.le_of_eq hk.symm)]
      exact SwapSet.toFinset_ofCapacity n
    · rfl
  rw [contents, hplaces]
  rfl

theorem past_newSet (s : Cells) (n j : Nat) : (s.newSet n).past j = s.past j := by
  unfold past
  rw [contents_newSet]
  rfl

theorem wellFormed_newSet (h : s.WellFormed) (n : Nat) : (s.newSet n).WellFormed := by
  refine ⟨fun k set hset => ?_, h.length_stamps, h.recorded, h.stamps_lt,
    fun j hj c cell hc => ?_, fun j hj c cell hc => ?_⟩
  · change (s.sets.push (.ofCapacity n)).get? k = some set at hset
    rw [Table.get?_push] at hset
    split at hset
    · obtain rfl := Option.some.inj hset
      exact SwapSet.wellFormed_ofCapacity n
    · exact h.sets k set hset
  · rw [past_newSet] at hc
    exact h.fresh j hj c cell hc
  · rw [past_newSet] at hc
    exact h.saved j hj c cell hc

/-! ### Checkpoints -/

theorem past_mark (s : Cells) {j : Nat} (hj : j ≤ s.level) : s.mark.past j = s.past j := by
  unfold past
  rw [← Trail.undone_mark s.trail hj]
  rfl

theorem wellFormed_mark (h : s.WellFormed) : s.mark.WellFormed := by
  have hnow : s.mark.past (s.level + 1) = s.contents := by
    rw [← level_mark, past_level]
    rfl
  have hcases : ∀ j ≤ s.mark.level, j ≤ s.level ∨ j = s.level + 1 := by
    intro j hj
    rw [level_mark] at hj
    omega
  have hfresh : ∀ j ≤ s.mark.level, ∀ c cell, (s.mark.past j).integers.get? c = some cell →
      ∀ n, cell.stamp = some n → n < s.nextStamp := by
    intro j hj c cell hc n hn
    rcases hcases j hj with hj | rfl
    · rw [past_mark s hj] at hc
      exact h.fresh j hj c cell hc n hn
    · rw [hnow, ← past_level] at hc
      exact h.fresh _ (Nat.le_refl _) c cell hc n hn
  refine ⟨h.sets, ?_, ?_, ?_, ?_, ?_⟩
  · rw [level_mark, ← h.length_stamps]
    rfl
  · intro c old hc
    exact h.recorded c old ((Trail.mem_frames_mark _).1 hc)
  · intro n hn
    rcases List.mem_cons.1 hn with rfl | hn
    · exact Nat.lt_succ_self _
    · exact Nat.lt_succ_of_lt (h.stamps_lt n hn)
  · intro j hj c cell hc n hn
    exact Nat.lt_succ_of_lt (hfresh j hj c cell hc n hn)
  · intro j hj c cell hc hstamp
    rcases hcases j hj with hj' | rfl
    · rw [past_mark s hj'] at hc
      change ∃ old, _ ∈ (s.trail.mark.below j).current
      rw [Trail.below_mark_of_le _ hj']
      refine h.saved j hj' c cell hc (hstamp.trans ?_)
      rw [level_mark, Nat.succ_sub hj']
      exact List.getElem?_cons_succ
    · rw [level_mark, Nat.sub_self] at hstamp
      exact absurd (hfresh _ hj c cell hc _ hstamp) (Nat.lt_irrefl _)

theorem undo_eq_ok (h : ∀ k set, s.sets.get? k = some set → set.WellFormed) {r : CellChange}
    (hu : s.undo r = .ok s') :
    (∀ k set, s'.sets.get? k = some set → set.WellFormed) ∧ s'.contents = s.contents.undo r ∧
      s'.sets.size = s.sets.size ∧ s'.trail = s.trail ∧ s'.stamps = s.stamps ∧
      s'.nextStamp = s.nextStamp := by
  have hput : ∀ {k : SetId} {set set' : SwapSet}, s.sets.get? k = some set → set'.WellFormed →
      ∀ j old, (s.sets.put k set').get? j = some old → old.WellFormed := by
    intro k set set' hget hset' j old hold
    rw [Table.get?_put _ _ (Table.lt_size_of_get? hget)] at hold
    split at hold
    · obtain rfl := Option.some.inj hold
      exact hset'
    · exact h j old hold
  cases r with
  | written c old =>
      obtain rfl := Except.ok.inj hu
      exact ⟨h, rfl, rfl, rfl, rfl, rfl⟩
  | inserted k e =>
      obtain ⟨set, hset, hu⟩ := Checked.bind_eq_ok hu
      obtain ⟨⟨found, set'⟩, hset', hu⟩ := Checked.bind_eq_ok hu
      obtain rfl := Except.ok.inj hu
      have hget := (Table.fetch_eq_ok_iff _).1 hset
      obtain ⟨hwf', hmembers, -⟩ := SwapSet.erase_eq_ok (h k set hget) hset'
      refine ⟨hput hget hwf', ?_, Table.size_put _ _ _, rfl, rfl, rfl⟩
      have hplaces : set.toFinset = s.places k := by rw [places, hget]; rfl
      rw [contents, places_put s hget s.trail, hmembers, hplaces]
      rfl
  | erased k e =>
      obtain ⟨set, hset, hu⟩ := Checked.bind_eq_ok hu
      obtain ⟨⟨found, set'⟩, hset', hu⟩ := Checked.bind_eq_ok hu
      obtain rfl := Except.ok.inj hu
      have hget := (Table.fetch_eq_ok_iff _).1 hset
      obtain ⟨hwf', hmembers, -⟩ := SwapSet.insert_eq_ok (h k set hget) hset'
      refine ⟨hput hget hwf', ?_, Table.size_put _ _ _, rfl, rfl, rfl⟩
      have hplaces : set.toFinset = s.places k := by rw [places, hget]; rfl
      rw [contents, places_put s hget s.trail, hmembers, hplaces]
      rfl

theorem undoAll_eq_ok (h : ∀ k set, s.sets.get? k = some set → set.WellFormed)
    {records : List CellChange} (hu : s.undoAll records = .ok s') :
    (∀ k set, s'.sets.get? k = some set → set.WellFormed) ∧
      s'.contents = records.foldl Contents.undo s.contents ∧ s'.sets.size = s.sets.size ∧
      s'.trail = s.trail ∧ s'.stamps = s.stamps ∧ s'.nextStamp = s.nextStamp := by
  induction records generalizing s with
  | nil =>
      obtain rfl := Except.ok.inj hu
      exact ⟨h, rfl, rfl, rfl, rfl, rfl⟩
  | cons r rest ih =>
      obtain ⟨s₁, hs₁, hu⟩ := Checked.bind_eq_ok hu
      obtain ⟨hsets, hcontents, hsize, htrail, hstamps, hnext⟩ := undo_eq_ok h hs₁
      obtain ⟨hsets', hcontents', hsize', htrail', hstamps', hnext'⟩ := ih hsets hu
      refine ⟨hsets', ?_, hsize'.trans hsize, htrail'.trans htrail, hstamps'.trans hstamps,
        hnext'.trans hnext⟩
      rw [hcontents', hcontents]
      rfl

/-- A rewind gives back what it would have given. -/
theorem rewind_eq_ok (h : s.WellFormed) {j : Nat} (hr : s.rewind j = .ok s') :
    j < s.level ∧ s'.WellFormed ∧ s'.level = j ∧ s'.contents = s.past j ∧
      (s'.integers.size = s.integers.size ∧ s'.sets.size = s.sets.size) ∧
      ∀ i ≤ j, s'.past i = s.past i := by
  obtain ⟨⟨undone, trail⟩, hrewind, hr⟩ := Checked.bind_eq_ok hr
  obtain ⟨s₁, hs₁, hr⟩ := Checked.bind_eq_ok hr
  obtain rfl := Except.ok.inj hr
  obtain ⟨hj, rfl, rfl⟩ := Trail.rewind_eq_ok hrewind
  obtain ⟨hsets, hcontents, hsetsSize, htrail, hstamps, hnext⟩ := undoAll_eq_ok
    (s := { s with trail := s.trail.below j }) h.sets hs₁
  have hj : j < s.level := hj
  have hcontents : s₁.contents = s.past j := hcontents
  have htrail : s₁.trail = s.trail.below j := htrail
  have hstamps : s₁.stamps = s.stamps := hstamps
  have hnext : s₁.nextStamp = s.nextStamp := hnext
  have hlevel : s₁.level = j := by
    rw [level, htrail, Trail.level_below _ (Nat.le_of_lt hj)]
  have hdrop : s.stamps.length - (j + 1) = s.level - j := by
    rw [h.length_stamps]
    omega
  have hpast : ∀ i ≤ j, s₁.past i = s.past i := by
    intro i hi
    unfold past at hcontents ⊢
    rw [hcontents, htrail, Trail.undone_append_below _ hi (Nat.le_of_lt hj), List.foldl_append]
  have hsize : s₁.integers.size = s.integers.size := by
    change s₁.contents.integers.size = _
    rw [hcontents]
    exact Contents.size_foldl_undo _ _
  refine ⟨hj, ⟨hsets, ?_, ?_, ?_, ?_, ?_⟩, hlevel, hcontents, ⟨hsize, hsetsSize⟩, hpast⟩
  · change (s₁.stamps.drop _).length = s₁.level + 1
    rw [hstamps, hdrop, List.length_drop, h.length_stamps, hlevel]
    omega
  · intro c old hc
    have hc : .written c old ∈ s₁.trail.frames.flatten := hc
    rw [htrail] at hc
    change c.index < s₁.integers.size
    rw [hsize]
    exact h.recorded c old (Trail.mem_frames_of_below _ (Nat.le_of_lt hj) hc)
  · intro n hn
    change n < s₁.nextStamp
    rw [hnext]
    exact h.stamps_lt n (hstamps ▸ List.mem_of_mem_drop hn)
  · intro i hi c cell hc n hn
    change n < s₁.nextStamp
    have hi : i ≤ j := hi.trans_eq hlevel
    have hc : (s₁.past i).integers.get? c = some cell := hc
    rw [hpast i hi] at hc
    rw [hnext]
    exact h.fresh i (by omega) c cell hc n hn
  · intro i hi c cell hc hstamp
    have hi : i ≤ j := hi.trans_eq hlevel
    have hc : (s₁.past i).integers.get? c = some cell := hc
    rw [hpast i hi] at hc
    change ∃ old, _ ∈ (s₁.trail.below i).current
    rw [htrail, Trail.below_below _ hi (Nat.le_of_lt hj)]
    refine h.saved i (by omega) c cell hc (hstamp.trans ?_)
    change (s₁.stamps.drop _)[s₁.level - i]? = _
    rw [hstamps, hdrop, hlevel, List.getElem?_drop]
    congr 1
    omega

end Cells

end Narrowing
