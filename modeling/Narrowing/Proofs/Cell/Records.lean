import Narrowing.Proofs.Cell.Snapshots

/-!
What the frames of the cells record of the integers. A frame saves an integer once, before its first
write there: the value that the integer had when the checkpoint of the frame was created. This goes on
to hold when a frame is continued after later ones were left, because the stamps that come back with
the old values are those of frames that are still open and have a record of the integer.
-/

namespace Narrowing

/-- What is saved of an integer among undo records. -/
def CellChange.saves (c : CellId) (records : List CellChange) : List Cell :=
  records.filterMap fun
    | .written c' old => if c' = c then some old else none
    | _ => none

namespace CellChange

variable {c c' : CellId} {old : Cell} {records : List CellChange} {r : CellChange}

theorem mem_saves : old ∈ saves c records ↔ .written c old ∈ records := by
  rw [saves, List.mem_filterMap]
  constructor
  · rintro ⟨r, hr, he⟩
    cases r with
    | written c' old' =>
        dsimp only at he
        split at he
        · next hc =>
          obtain rfl := Option.some.inj he
          rwa [← hc]
        · exact nomatch he
    | inserted k e => exact nomatch he
    | erased k e => exact nomatch he
  · exact fun hr => ⟨_, hr, if_pos rfl⟩

theorem saves_cons_self : saves c (.written c old :: records) = old :: saves c records :=
  List.filterMap_cons_some (if_pos rfl)

theorem saves_cons_of_ne (h : ∀ old, r ≠ .written c old) : saves c (r :: records) = saves c records := by
  refine List.filterMap_cons_none ?_
  cases r with
  | written c' old =>
      refine if_neg fun hc => h old ?_
      rw [hc]
  | inserted k e => rfl
  | erased k e => rfl

theorem saves_reverse : saves c records.reverse = (saves c records).reverse := List.filterMap_reverse

theorem saves_eq_nil (h : ∀ old, .written c old ∉ records) : saves c records = [] :=
  List.eq_nil_iff_forall_not_mem.2 fun old hold => h old (mem_saves.1 hold)

end CellChange

/-- The records of an open frame. -/
theorem Trail.frame_of_le {α : Type} (t : Trail α) {k : Nat} (h : k ≤ t.level) :
    t.frame k = .ok (t.below k).current.reverse := by
  have hcurrent : (t.below k).current = t.frames.getD (t.level - k) [] := by
    have hfirst : (t.below k).frames[0]? = some (t.below k).current := rfl
    rw [t.frames_below h, List.getElem?_drop, Nat.add_zero] at hfirst
    rw [List.getD_eq_getElem?_getD, hfirst, Option.getD_some]
  rw [frame, demandSilently, if_pos (decide_eq_true h), hcurrent]
  rfl

open CellChange

/-- The records of a frame save what has changed since its start: every integer at most once and with
the value that it had at the start. Exactly the integers with a record bear the stamp of the frame. -/
structure Saves (records : List CellChange) (integers : Table CellId Cell) (stamp : Option Nat)
    (start : CellId → Int) : Prop where
  once : ∀ c, (saves c records).length ≤ 1
  borne : ∀ c old, .written c old ∈ records →
    ∃ cell, integers.get? c = some cell ∧ cell.stamp = stamp
  old_eq : ∀ c old, .written c old ∈ records → old.value = start c
  unchanged : ∀ c cell, integers.get? c = some cell → (∀ old, .written c old ∉ records) →
    cell.value = start c

namespace Saves

variable {c : CellId} {cell : Cell} {records : List CellChange} {integers : Table CellId Cell}
  {stamp : Option Nat} {start : CellId → Int} {r : CellChange} {v : Int}

/-- A frame without records, at the start. -/
theorem init (integers : Table CellId Cell) (stamp : Option Nat) :
    Saves [] integers stamp fun c => (integers.get? c).elim 0 Cell.value := by
  refine ⟨fun c => Nat.zero_le 1, (fun c old hr => nomatch hr), (fun c old hr => nomatch hr),
    fun c cell hc _ => ?_⟩
  rw [hc]
  rfl

/-- Changes of sets save nothing of the integers. -/
theorem cons_of_ne (h : Saves records integers stamp start) (hr : ∀ c old, r ≠ .written c old) :
    Saves (r :: records) integers stamp start := by
  have hmem : ∀ c old, .written c old ∈ r :: records ↔ .written c old ∈ records := fun c old =>
    List.mem_cons.trans (or_iff_right fun he => hr c old he.symm)
  refine ⟨fun c => ?_, fun c old hold => ?_, fun c old hold => ?_, fun c cell hc hnone => ?_⟩
  · rw [saves_cons_of_ne (hr c)]
    exact h.once c
  · exact h.borne c old ((hmem c old).1 hold)
  · exact h.old_eq c old ((hmem c old).1 hold)
  · exact h.unchanged c cell hc fun old hold => hnone old ((hmem c old).2 hold)

/-- A write of an integer with a record. -/
theorem put (h : Saves records integers stamp start) (hlt : c.index < integers.size)
    (hsaved : ∃ old, .written c old ∈ records) (v : Int) :
    Saves records (integers.put c ⟨v, stamp⟩) stamp start := by
  refine ⟨h.once, fun c' old hold => ?_, h.old_eq, fun c' cell hc hnone => ?_⟩
  · rw [Table.get?_put _ _ hlt]
    split
    · exact ⟨_, rfl, rfl⟩
    · exact h.borne c' old hold
  · rw [Table.get?_put _ _ hlt] at hc
    split at hc
    · next he =>
      obtain ⟨old, hold⟩ := hsaved
      exact absurd (he ▸ hold) (hnone old)
    · exact h.unchanged c' cell hc hnone

/-- The first write of an integer, with a record of what it was. -/
theorem cons_put (h : Saves records integers stamp start) (hcell : integers.get? c = some cell)
    (hstamp : cell.stamp ≠ stamp) (v : Int) :
    Saves (.written c cell :: records) (integers.put c ⟨v, stamp⟩) stamp start := by
  have hlt := Table.lt_size_of_get? hcell
  have hfirst : ∀ old, .written c old ∉ records := by
    intro old hold
    obtain ⟨cell', hcell', hborne⟩ := h.borne c old hold
    obtain rfl := Option.some.inj (hcell.symm.trans hcell')
    exact hstamp hborne
  refine ⟨fun c' => ?_, fun c' old hold => ?_, fun c' old hold => ?_, fun c' cell' hc' hnone => ?_⟩
  · by_cases hc : c' = c
    · rw [hc, saves_cons_self, saves_eq_nil hfirst, List.length_singleton]
    · rw [saves_cons_of_ne fun old he => hc (CellChange.written.inj he).1.symm]
      exact h.once c'
  · rw [Table.get?_put _ _ hlt]
    split
    · exact ⟨_, rfl, rfl⟩
    · next hc =>
      refine h.borne c' old ((List.mem_cons.1 hold).resolve_left fun he => hc ?_)
      exact (CellChange.written.inj he).1
  · rcases List.mem_cons.1 hold with he | hold
    · obtain ⟨rfl, rfl⟩ := CellChange.written.inj he
      exact h.unchanged _ _ hcell hfirst
    · exact h.old_eq c' old hold
  · rw [Table.get?_put _ _ hlt] at hc'
    split at hc'
    · next hc =>
      rw [hc] at hnone
      exact absurd List.mem_cons_self (hnone cell)
    · exact h.unchanged c' cell' hc' fun old hold => hnone old (List.mem_cons_of_mem _ hold)

/-- One integer more, which starts with its first value. -/
theorem push (h : Saves records integers stamp start)
    (hrecorded : ∀ c old, .written c old ∈ records → c.index < integers.size) (v : Int) :
    Saves records (integers.push ⟨v, none⟩) stamp (Function.update start ⟨integers.size⟩ v) := by
  have hold : ∀ c : CellId, c.index < integers.size → c ≠ ⟨integers.size⟩ := by
    rintro c hc rfl
    exact Nat.lt_irrefl _ hc
  refine ⟨h.once, fun c old hr => ?_, fun c old hr => ?_, fun c cell hc hnone => ?_⟩
  · rw [Table.get?_push_of_lt _ _ (hrecorded c old hr)]
    exact h.borne c old hr
  · rw [Function.update_of_ne (hold c (hrecorded c old hr))]
    exact h.old_eq c old hr
  · rcases Table.eq_or_of_get?_push hc with ⟨hlt, hc⟩ | ⟨rfl, rfl⟩
    · rw [Function.update_of_ne (hold c hlt)]
      exact h.unchanged c cell hc hnone
    · exact (Function.update_self (⟨integers.size⟩ : CellId) v start).symm

end Saves

namespace Cells

variable {s s' s'' : Cells} {c : CellId} {k : SetId} {e : Nat} {b : Bool}

/-! ### One frame -/

/-- `s'` came from `s` by changes in the current frame that are saved there. -/
structure Writes (s s' : Cells) : Prop where
  stamps_eq : s'.stamps = s.stamps
  earlier_eq : s'.trail.earlier = s.trail.earlier
  saves : ∀ start, Saves s.trail.current s.integers (some s.stamp) start →
    Saves s'.trail.current s'.integers (some s.stamp) start

namespace Writes

theorem refl (s : Cells) : Writes s s := ⟨rfl, rfl, fun _ h => h⟩

theorem trans (h : Writes s s') (h' : Writes s' s'') : Writes s s'' := by
  have hstamp : s'.stamp = s.stamp := congrArg (List.headD · 0) h.stamps_eq
  refine ⟨h'.stamps_eq.trans h.stamps_eq, h'.earlier_eq.trans h.earlier_eq, fun start hsaves => ?_⟩
  have hsaves' := h'.saves start
  rw [hstamp] at hsaves'
  exact hsaves' (h.saves start hsaves)

/-- A change of a set. -/
theorem of_sets {r : CellChange} (hr : ∀ c old, r ≠ .written c old) (sets : Table SetId SwapSet) :
    Writes s { s with trail := if b = true then s.trail.push r else s.trail, sets } := by
  cases b with
  | false => exact ⟨rfl, rfl, fun _ h => h⟩
  | true => exact ⟨rfl, rfl, fun _ h => h.cons_of_ne hr⟩

end Writes

theorem writes_assign (h : s.WellFormed) {v : Int} (ha : s.assign c v = .ok s') : Writes s s' := by
  obtain ⟨cell, hcell, ha⟩ := Checked.bind_eq_ok ha
  have hget := (Table.fetch_eq_ok_iff _).1 hcell
  split at ha
  · obtain rfl := Except.ok.inj ha
    exact .refl s
  · obtain rfl := Except.ok.inj ha
    by_cases hstamp : cell.stamp = some s.stamp
    · simp only [if_pos hstamp]
      exact ⟨rfl, rfl, fun start hsaves =>
        hsaves.put (Table.lt_size_of_get? hget) (h.exists_written hget hstamp) v⟩
    · simp only [if_neg hstamp]
      exact ⟨rfl, rfl, fun start hsaves => hsaves.cons_put hget hstamp v⟩

theorem writes_insert (hi : s.insert k e = .ok (b, s')) : Writes s s' := by
  obtain ⟨set, -, hi⟩ := Checked.bind_eq_ok hi
  obtain ⟨⟨fresh, set'⟩, -, hi⟩ := Checked.bind_eq_ok hi
  obtain ⟨-, rfl⟩ := Prod.mk.inj (Except.ok.inj hi)
  exact .of_sets (r := .inserted k e) (fun _ _ he => nomatch he) _

theorem writes_erase (he : s.erase k e = .ok (b, s')) : Writes s s' := by
  obtain ⟨set, -, he⟩ := Checked.bind_eq_ok he
  obtain ⟨⟨found, set'⟩, -, he⟩ := Checked.bind_eq_ok he
  obtain ⟨-, rfl⟩ := Prod.mk.inj (Except.ok.inj he)
  exact .of_sets (r := .erased k e) (fun _ _ he => nomatch he) _

theorem writes_eraseAll {l : List Nat} (he : s.eraseAll k l = .ok s') : Writes s s' := by
  induction l generalizing s with
  | nil =>
      obtain rfl := Except.ok.inj he
      exact .refl s
  | cons e rest ih =>
      obtain ⟨⟨b, s₁⟩, hfirst, he⟩ := Checked.bind_eq_ok he
      exact (writes_erase hfirst).trans (ih he)

/-- Every change of a cell is saved in the current frame. -/
theorem writes_perform (h : s.WellFormed) {op : CellOp} (hop : s.perform op = .ok (b, s')) :
    Writes s s' := by
  cases op with
  | assign c v =>
      obtain ⟨s₁, hs₁, hop⟩ := Checked.bind_eq_ok hop
      obtain ⟨-, rfl⟩ := Prod.mk.inj (Except.ok.inj hop)
      exact writes_assign h hs₁
  | add c n =>
      obtain ⟨s₁, hs₁, hop⟩ := Checked.bind_eq_ok hop
      obtain ⟨-, rfl⟩ := Prod.mk.inj (Except.ok.inj hop)
      obtain ⟨v, -, hs₁⟩ := Checked.bind_eq_ok hs₁
      obtain ⟨sum, -, hs₁⟩ := Checked.bind_eq_ok hs₁
      exact writes_assign h hs₁
  | insert k e => exact writes_insert hop
  | erase k e => exact writes_erase hop
  | clear k =>
      obtain ⟨s₁, hs₁, hop⟩ := Checked.bind_eq_ok hop
      obtain ⟨-, rfl⟩ := Prod.mk.inj (Except.ok.inj hop)
      obtain ⟨l, -, hs₁⟩ := Checked.bind_eq_ok hs₁
      exact writes_eraseAll hs₁

/-! ### All open frames -/

/-- The values of all integers when the checkpoints that are still open after an operation were
created, the current checkpoint first. An integer that came later counts with its first value. -/
def startsAfter (s : Cells) (starts : List (CellId → Int)) : CellStep → List (CellId → Int)
  | .newInteger v => starts.map fun start => Function.update start ⟨s.integers.size⟩ v
  | .mark => s.contents.value :: starts
  | .rewind k => starts.drop (s.level - k)
  | _ => starts

/-- Cells in use, and the values at the starts of the open frames, the current one first. -/
inductive Reached : Cells → List (CellId → Int) → Prop
  | init : Reached {} [fun _ => 0]
  | step {s s' : Cells} {starts : List (CellId → Int)} (h : Reached s starts) {x : CellStep} {b : Bool}
      (hx : s.step x = .ok (b, s')) : Reached s' (s.startsAfter starts x)

/-- The frame of every open checkpoint saves what has changed since its start. -/
structure Saved (s : Cells) (starts : List (CellId → Int)) : Prop where
  wellFormed : s.WellFormed
  length_starts : starts.length = s.level + 1
  saves : ∀ j ≤ s.level, ∀ start, starts[s.level - j]? = some start →
    Saves (s.trail.below j).current (s.past j).integers s.stamps[s.level - j]? start

namespace Saved

variable {starts : List (CellId → Int)}

theorem perform (h : Saved s starts) {op : CellOp} (hop : s.perform op = .ok (b, s')) :
    Saved s' starts := by
  obtain ⟨⟨hwf, hlevel, -, hpast⟩, -⟩ := perform_eq_ok h.wellFormed hop
  have hwrites := writes_perform h.wellFormed hop
  refine ⟨hwf, hlevel ▸ h.length_starts, fun j hj start hstart => ?_⟩
  rw [hlevel] at hj hstart
  rw [hlevel, hwrites.stamps_eq]
  have hsaves := h.saves j hj start hstart
  rcases Nat.lt_or_eq_of_le hj with hj | rfl
  · rw [hpast j hj, ← Trail.below_eq_of_earlier hwrites.earlier_eq.symm hj]
    exact hsaves
  · rw [Nat.sub_self, h.wellFormed.getElem?_stamps] at hsaves ⊢
    have hnow : s'.past s.level = s'.contents := by rw [← hlevel, past_level]
    have hbelow : s'.trail.below s.level = s'.trail := by
      rw [← hlevel]
      exact Trail.below_level _
    rw [hnow, hbelow]
    refine hwrites.saves start ?_
    rwa [past_level, level, Trail.below_level] at hsaves

theorem newInteger (h : Saved s starts) (v : Int) :
    Saved (s.newInteger v) (s.startsAfter starts (.newInteger v)) := by
  refine ⟨wellFormed_newInteger h.wellFormed v, (List.length_map _).trans h.length_starts,
    fun j hj start hstart => ?_⟩
  have hj : j ≤ s.level := hj
  obtain ⟨before, hbefore, rfl⟩ := Option.map_eq_some_iff.1 (List.getElem?_map.symm.trans hstart)
  have hsize : (s.past j).integers.size = s.integers.size := Contents.size_foldl_undo _ _
  rw [past_newInteger h.wellFormed, ← hsize]
  refine (h.saves j hj before hbefore).push (fun c old hr => ?_) v
  rw [hsize]
  refine h.wellFormed.recorded c old (Trail.mem_frames_of_below _ hj ?_)
  exact List.mem_flatten.2 ⟨_, List.mem_cons_self, hr⟩

theorem newSet (h : Saved s starts) (n : Nat) : Saved (s.newSet n) starts := by
  refine ⟨wellFormed_newSet h.wellFormed n, h.length_starts, fun j hj start hstart => ?_⟩
  rw [past_newSet]
  exact h.saves j hj start hstart

theorem mark (h : Saved s starts) : Saved s.mark (s.startsAfter starts .mark) := by
  refine ⟨wellFormed_mark h.wellFormed, ?_, fun j hj start hstart => ?_⟩
  · rw [level_mark, ← h.length_starts]
    rfl
  · rw [level_mark] at hj hstart ⊢
    rcases Nat.lt_or_eq_of_le hj with hj | rfl
    · have hj := Nat.le_of_lt_succ hj
      rw [Nat.succ_sub hj] at hstart ⊢
      rw [past_mark s hj]
      change Saves (s.trail.mark.below j).current _ _ _
      rw [Trail.below_mark_of_le _ hj]
      exact h.saves j hj start hstart
    · rw [Nat.sub_self] at hstart ⊢
      obtain rfl := Option.some.inj hstart
      rw [← level_mark, past_level, level, Trail.below_level]
      exact .init _ _

theorem rewind (h : Saved s starts) {k : Nat} (hr : s.rewind k = .ok s') :
    Saved s' (s.startsAfter starts (.rewind k)) := by
  obtain ⟨hk, hwf, hlevel, -, -, hpast⟩ := rewind_eq_ok h.wellFormed hr
  obtain ⟨htrail, hstamps⟩ : s'.trail = s.trail.below k ∧ s'.stamps = s.stamps.drop (s.level - k) := by
    obtain ⟨⟨undone, trail⟩, hrewind, hr⟩ := Checked.bind_eq_ok hr
    obtain ⟨s₁, hs₁, hr⟩ := Checked.bind_eq_ok hr
    obtain rfl := Except.ok.inj hr
    obtain ⟨-, rfl, rfl⟩ := Trail.rewind_eq_ok hrewind
    obtain ⟨-, -, -, htrail, hstamps, -⟩ := undoAll_eq_ok
      (s := { s with trail := s.trail.below k }) h.wellFormed.sets hs₁
    have hstamps : s₁.stamps = s.stamps := hstamps
    refine ⟨htrail, ?_⟩
    change s₁.stamps.drop (s₁.stamps.length - (k + 1)) = _
    rw [hstamps, h.wellFormed.length_stamps, Nat.add_sub_add_right]
  have hindex : ∀ j ≤ k, s.level - k + (k - j) = s.level - j := fun j hj => by omega
  refine ⟨hwf, ?_, fun j hj start hstart => ?_⟩
  · change (starts.drop (s.level - k)).length = _
    rw [List.length_drop, h.length_starts, hlevel]
    omega
  · rw [hlevel] at hj hstart
    change (starts.drop (s.level - k))[k - j]? = some start at hstart
    rw [List.getElem?_drop, hindex j hj] at hstart
    rw [hpast j hj, htrail, Trail.below_below _ hj (Nat.le_of_lt hk), hlevel, hstamps,
      List.getElem?_drop, hindex j hj]
    exact h.saves j (by omega) start hstart

end Saved

theorem Reached.saved {starts : List (CellId → Int)} (h : Reached s starts) : Saved s starts := by
  induction h with
  | init =>
      refine ⟨wellFormed_init, rfl, fun j hj start hstart => ?_⟩
      obtain rfl := Nat.le_zero.1 hj
      obtain rfl := Option.some.inj hstart
      exact .init _ _
  | @step s s' starts _ x b hx ih =>
      cases x with
      | newInteger v =>
          obtain ⟨-, rfl⟩ := Prod.mk.inj (Except.ok.inj hx)
          exact ih.newInteger v
      | newSet n =>
          obtain ⟨-, rfl⟩ := Prod.mk.inj (Except.ok.inj hx)
          exact ih.newSet n
      | perform op => exact ih.perform hx
      | mark =>
          obtain ⟨-, rfl⟩ := Prod.mk.inj (Except.ok.inj hx)
          exact ih.mark
      | rewind k =>
          obtain ⟨s₁, hs₁, hx⟩ := Checked.bind_eq_ok hx
          obtain ⟨-, rfl⟩ := Prod.mk.inj (Except.ok.inj hx)
          exact ih.rewind hs₁

/-- **Saved once.** The frame of every open checkpoint has at most one record of an integer, whatever
happened in between to frames that were opened later. If an integer does not have the value that it had
when the current checkpoint was created, or its first value if it came later, then the current frame has
exactly one record of it, with that value. -/
theorem Reached.saved_once {starts : List (CellId → Int)} (h : Reached s starts) :
    (∀ k ≤ s.level, ∃ records, s.trail.frame k = .ok records ∧
      ∀ c, (CellChange.saves c records).length ≤ 1) ∧
    ∃ start records, starts.head? = some start ∧ s.trail.frame s.level = .ok records ∧
      ∀ c v, s.read c = .ok v → v ≠ start c →
        ∃ old, CellChange.saves c records = [old] ∧ old.value = start c := by
  obtain ⟨hwf, hlength, hsaves⟩ := h.saved
  have hstarts : ∀ k ≤ s.level, ∃ start, starts[s.level - k]? = some start := fun k hk =>
    ⟨_, List.getElem?_eq_getElem (by omega)⟩
  refine ⟨fun k hk => ⟨_, s.trail.frame_of_le hk, fun c => ?_⟩, ?_⟩
  · obtain ⟨start, hstart⟩ := hstarts k hk
    rw [saves_reverse, List.length_reverse]
    exact (hsaves k hk start hstart).once c
  · obtain ⟨start, hstart⟩ := hstarts s.level (Nat.le_refl _)
    have hnow := hsaves s.level (Nat.le_refl _) start hstart
    refine ⟨start, _, ?_, s.trail.frame_of_le (Nat.le_refl _), fun c v hv hne => ?_⟩
    · rwa [Nat.sub_self, ← List.head?_eq_getElem?] at hstart
    obtain ⟨cell, hcell, hv⟩ := Checked.bind_eq_ok hv
    obtain rfl := Except.ok.inj hv
    obtain ⟨old, hold⟩ : ∃ old, .written c old ∈ (s.trail.below s.level).current := by
      by_contra hnone
      refine hne (hnow.unchanged c cell ?_ fun old hold => hnone ⟨old, hold⟩)
      rw [past_level]
      exact (Table.fetch_eq_ok_iff _).1 hcell
    refine ⟨old, ?_, hnow.old_eq c old hold⟩
    have hmem := mem_saves.2 hold
    obtain ⟨old', hsingle⟩ := List.length_eq_one_iff.1
      (Nat.le_antisymm (hnow.once c) (List.length_pos_of_mem hmem))
    rw [hsingle, List.mem_singleton] at hmem
    rw [saves_reverse, hsingle, hmem, List.reverse_singleton]

/-! ### A frame that is continued -/

/-- The first integer was written in the frame of checkpoint `1`. Checkpoint `2` was left again after
the second integer came there and both were written. In the frame of checkpoint `1` both were written
once more then. -/
def continued : Cells where
  integers := ⟨#[⟨4, some 1⟩, ⟨8, some 1⟩]⟩
  trail := ⟨[.written ⟨1⟩ ⟨7, none⟩, .written ⟨0⟩ ⟨1, none⟩], [[]]⟩
  stamps := [1, 0]
  nextStamp := 3

def continuedStarts : List (CellId → Int) :=
  [Function.update (({} : Cells).newInteger 1).contents.value ⟨1⟩ 7,
    Function.update (Function.update (fun _ => 0) ⟨0⟩ 1) ⟨1⟩ 7]

theorem reached_continued : Reached continued continuedStarts := by
  have hinner : Reached _ _ := Reached.init
    |>.step (x := .newInteger 1) rfl
    |>.step (x := .mark) rfl
    |>.step (x := .perform (.assign ⟨0⟩ 2)) rfl
    |>.step (x := .mark) rfl
    |>.step (x := .newInteger 7) rfl
    |>.step (x := .perform (.assign ⟨0⟩ 3)) rfl
    |>.step (x := .perform (.assign ⟨1⟩ 9)) rfl
  exact hinner
    |>.step (x := .rewind 1) rfl
    |>.step (x := .perform (.assign ⟨0⟩ 4)) rfl
    |>.step (x := .perform (.assign ⟨1⟩ 8)) rfl

theorem saved_once_continued : Reached continued continuedStarts ∧
    (∀ k ≤ continued.level, ∃ records, continued.trail.frame k = .ok records ∧
      ∀ c, (CellChange.saves c records).length ≤ 1) ∧
    ∃ start records, continuedStarts.head? = some start ∧
      continued.trail.frame continued.level = .ok records ∧
      ∀ c v, continued.read c = .ok v → v ≠ start c →
        ∃ old, CellChange.saves c records = [old] ∧ old.value = start c :=
  ⟨reached_continued, reached_continued.saved_once⟩

/-- Both integers differ from what they were at the start of the frame. -/
example : continued.read ⟨0⟩ = .ok 4 ∧ continued.read ⟨1⟩ = .ok 8 ∧
    continuedStarts.map (fun start => (start ⟨0⟩, start ⟨1⟩)) = [(1, 7), (1, 7)] := by decide

end Cells

end Narrowing
