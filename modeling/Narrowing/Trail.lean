import Narrowing.Fault

/-!
A trail: the undo records of everything done so far, divided into frames. A frame is opened by every
checkpoint and collects the records made while that checkpoint is the current one. Rewinding to a
level closes all frames above it and hands their records back, newest first, which is the order in
which they have to be undone.
-/

namespace Narrowing

/-- The records of the current frame and of the frames before it. Frames are listed with the latest
one first, and every frame has its newest record first. -/
structure Trail (α : Type) where
  current : List α := []
  earlier : List (List α) := []
  deriving DecidableEq

namespace Trail

variable {α : Type}

/-- The current checkpoint: the number of frames opened above the root. -/
def level (t : Trail α) : Nat := t.earlier.length

/-- All frames, latest first. -/
def frames (t : Trail α) : List (List α) := t.current :: t.earlier

/-- The number of records in all frames. -/
def length (t : Trail α) : Nat := t.frames.flatten.length

/-- All records in the order in which they were made. -/
def chronicle (t : Trail α) : List α := t.frames.flatten.reverse

/-- Open a frame. -/
def mark (t : Trail α) : Trail α := ⟨[], t.frames⟩

/-- Add a record to the current frame. -/
def push (t : Trail α) (a : α) : Trail α := { t with current := a :: t.current }

/-- The records made while `k` was the current checkpoint, oldest first. -/
def frame (t : Trail α) (k : Nat) : Checked (List α) := do
  demandSilently (k ≤ t.level)
  return (t.frames.getD (t.level - k) []).reverse

/-- The records of all frames above level `k`, newest first. -/
def undone (t : Trail α) (k : Nat) : List α := (t.frames.take (t.level - k)).flatten

/-- The trail without the frames above level `k`. -/
def below (t : Trail α) (k : Nat) : Trail α :=
  match t.frames.drop (t.level - k) with
  | [] => {}
  | current :: earlier => ⟨current, earlier⟩

/-- Close the frames above level `k`, which has to be below the current one. -/
def rewind (t : Trail α) (k : Nat) : Checked (List α × Trail α) := do
  demandSilently (k < t.level)
  return (t.undone k, t.below k)

@[simp] theorem level_mark (t : Trail α) : t.mark.level = t.level + 1 := by
  simp [mark, level, frames]

@[simp] theorem level_push (t : Trail α) (a : α) : (t.push a).level = t.level := rfl

@[simp] theorem chronicle_mark (t : Trail α) : t.mark.chronicle = t.chronicle := by
  simp [mark, chronicle, frames]

@[simp] theorem chronicle_push (t : Trail α) (a : α) :
    (t.push a).chronicle = t.chronicle ++ [a] := by
  simp [push, chronicle, frames]

theorem length_eq_length_chronicle (t : Trail α) : t.length = t.chronicle.length := by
  simp [length, chronicle]

/-- A frame that was just opened is closed again without a trace. -/
theorem below_mark (t : Trail α) : t.mark.below t.level = t := by
  cases t
  simp [below, mark, level, frames]

theorem length_frames (t : Trail α) : t.frames.length = t.level + 1 := rfl

theorem frames_below (t : Trail α) {k : Nat} (h : k ≤ t.level) :
    (t.below k).frames = t.frames.drop (t.level - k) := by
  unfold below
  split
  · next hd =>
    have hlength := congrArg List.length hd
    rw [List.length_drop, length_frames] at hlength
    simp only [List.length_nil] at hlength
    omega
  · next hd => exact hd.symm

@[simp] theorem level_below (t : Trail α) {k : Nat} (h : k ≤ t.level) : (t.below k).level = k := by
  have hlength := congrArg List.length (t.frames_below h)
  rw [List.length_drop, length_frames, length_frames] at hlength
  omega

theorem eq_of_frames_eq {t u : Trail α} (h : t.frames = u.frames) : t = u := by
  cases t
  cases u
  simpa [frames] using h

@[simp] theorem below_level (t : Trail α) : t.below t.level = t :=
  eq_of_frames_eq (by rw [t.frames_below (Nat.le_refl _), Nat.sub_self, List.drop_zero])

/-- Rewinding in two steps is rewinding at once. -/
theorem below_below (t : Trail α) {j k : Nat} (hj : j ≤ k) (hk : k ≤ t.level) :
    (t.below k).below j = t.below j := by
  refine eq_of_frames_eq ?_
  rw [frames_below _ (by rwa [t.level_below hk]), t.frames_below (Nat.le_trans hj hk),
    t.level_below hk, t.frames_below hk, List.drop_drop]
  congr 1
  omega

theorem below_push (t : Trail α) (a : α) {k : Nat} (h : k < t.level) :
    (t.push a).below k = t.below k := by
  refine eq_of_frames_eq ?_
  rw [frames_below _ (by rw [level_push]; omega), t.frames_below (Nat.le_of_lt h), level_push]
  obtain ⟨m, hm⟩ : ∃ m, t.level - k = m + 1 := ⟨t.level - k - 1, by omega⟩
  rw [hm]
  rfl

/-- What lies below a level of earlier frames depends on these frames only. -/
theorem below_eq_of_earlier {t u : Trail α} (h : t.earlier = u.earlier) {k : Nat}
    (hk : k < t.level) : t.below k = u.below k := by
  have hlevel : u.level = t.level := congrArg List.length h.symm
  refine eq_of_frames_eq ?_
  rw [t.frames_below (Nat.le_of_lt hk), u.frames_below (by omega), hlevel]
  obtain ⟨n, hn⟩ : ∃ n, t.level - k = n + 1 := ⟨t.level - k - 1, by omega⟩
  rw [hn, frames, frames, List.drop_succ_cons, List.drop_succ_cons, h]

@[simp] theorem undone_level (t : Trail α) : t.undone t.level = [] := by
  rw [undone, Nat.sub_self]
  rfl

/-- A record of the current frame is undone first. -/
theorem undone_push (t : Trail α) (a : α) {k : Nat} (h : k < t.level) :
    (t.push a).undone k = a :: t.undone k := by
  obtain ⟨m, hm⟩ : ∃ m, t.level - k = m + 1 := ⟨t.level - k - 1, by omega⟩
  rw [undone, undone, level_push, hm]
  rfl

theorem undone_mark (t : Trail α) {k : Nat} (h : k ≤ t.level) : t.mark.undone k = t.undone k := by
  obtain ⟨m, hm⟩ : ∃ m, t.level + 1 - k = m + 1 ∧ t.level - k = m := ⟨t.level - k, by omega⟩
  rw [undone, undone, level_mark, hm.1, hm.2]
  rfl

/-- What is undone in one go is undone in two, the later frames first. -/
theorem undone_append_below (t : Trail α) {j k : Nat} (hj : j ≤ k) (hk : k ≤ t.level) :
    t.undone j = t.undone k ++ (t.below k).undone j := by
  have hsum : t.level - j = (t.level - k) + (k - j) := by omega
  rw [undone, undone, undone, t.level_below hk, t.frames_below hk, hsum, List.take_add,
    List.flatten_append]

/-- Frames opened later do not change what lies below. -/
theorem below_mark_of_le (t : Trail α) {k : Nat} (h : k ≤ t.level) : t.mark.below k = t.below k := by
  rw [← t.mark.below_below h (by rw [level_mark]; omega), below_mark]

@[simp] theorem current_mark (t : Trail α) : t.mark.current = [] := rfl

theorem mem_undone_of_current (t : Trail α) {k : Nat} (h : k < t.level) {a : α}
    (ha : a ∈ t.current) : a ∈ t.undone k := by
  obtain ⟨m, hm⟩ : ∃ m, t.level - k = m + 1 := ⟨t.level - k - 1, by omega⟩
  rw [undone, hm]
  exact List.mem_flatten.2 ⟨t.current, List.mem_cons_self, ha⟩

theorem mem_frames_push (t : Trail α) {a b : α} :
    b ∈ (t.push a).frames.flatten ↔ b = a ∨ b ∈ t.frames.flatten := by
  simp [push, frames]

theorem mem_frames_mark (t : Trail α) {b : α} :
    b ∈ t.mark.frames.flatten ↔ b ∈ t.frames.flatten := by
  simp [mark, frames]

theorem mem_frames_of_undone (t : Trail α) {k : Nat} {a : α} (h : a ∈ t.undone k) :
    a ∈ t.frames.flatten := by
  obtain ⟨frame, hframe, ha⟩ := List.mem_flatten.1 h
  exact List.mem_flatten.2 ⟨frame, List.mem_of_mem_take hframe, ha⟩

theorem mem_frames_of_below (t : Trail α) {k : Nat} (hk : k ≤ t.level) {a : α}
    (h : a ∈ (t.below k).frames.flatten) : a ∈ t.frames.flatten := by
  rw [t.frames_below hk] at h
  obtain ⟨frame, hframe, ha⟩ := List.mem_flatten.1 h
  exact List.mem_flatten.2 ⟨frame, List.mem_of_mem_drop hframe, ha⟩

/-- Every earlier level can be returned to. -/
theorem rewind_of_lt {t : Trail α} {k : Nat} (h : k < t.level) :
    t.rewind k = .ok (t.undone k, t.below k) := by
  have hlevel : decide (k < t.level) = true := decide_eq_true h
  rw [rewind, demandSilently, if_pos hlevel]
  rfl

theorem rewind_eq_ok {t u : Trail α} {k : Nat} {undone : List α}
    (h : t.rewind k = .ok (undone, u)) : k < t.level ∧ undone = t.undone k ∧ u = t.below k := by
  obtain ⟨_, hd, hr⟩ := Checked.bind_eq_ok h
  obtain ⟨rfl, rfl⟩ := Prod.mk.inj (Except.ok.inj hr)
  exact ⟨of_decide_eq_true (demandSilently_eq_ok hd), rfl, rfl⟩

end Trail

end Narrowing
