import Narrowing.Proofs.Domain.Losses
import Narrowing.Proofs.Variable.Portrayal
import Narrowing.Variable.Monitor

/-!
What monitors report. A monitor remembers a length of the record, and the record from there on tells
what became of its domain since; so as long as the owner moves the monitor back after every rewind,
it reports the difference between the values at one earlier moment and the values now. That moment is
when the owner last looked, or the end of the deepest rewind that went back beyond it.
-/

namespace Narrowing

/-! ### Values lost since a length of the record -/

/-- Asked for the losses since there were `p` changes on record, `ask` lists the values of `V` that
are not in `V'`, each of them once. -/
def Reports (ask : Oracle) (p : Nat) (V V' : Finset Int) (l : List Int) : Prop :=
  (∀ limit, ask _ (.removedSince p limit) = .ok (l.take limit)) ∧ l.Nodup ∧
    ∀ v, v ∈ l ↔ v ∈ V ∧ v ∉ V'

theorem Reports.length_le {ask : Oracle} {p n : Nat} {V V' : Finset Int} {l : List Int}
    (h : Reports ask p V V' l) (hfew : V.card ≤ n) : l.length ≤ n := by
  obtain ⟨-, hnodup, hmem⟩ := h
  rw [← List.toFinset_card_of_nodup hnodup]
  refine (Finset.card_le_card fun v hv => ?_).trans hfew
  exact ((hmem v).1 (List.mem_toFinset.1 hv)).1

namespace Domains

variable {s : Domains} {id : DomainId} {d₀ : Domain} {p : Nat}

/-- Beyond the end of the record nothing is recorded. -/
theorem changesSince_min (s : Domains) (id : DomainId) (p : Nat) :
    s.changesSince id (min p s.position) = s.changesSince id p := by
  rcases Nat.le_total p s.position with h | h
  · rw [Nat.min_eq_left h]
  · rw [Nat.min_eq_right h, changesSince_eq, changesSince_eq]
    have hend : s.trail.chronicle.length ≤ p := by
      rwa [← Trail.length_eq_length_chronicle]
    rw [List.drop_eq_nil_of_le hend, position, Trail.length_eq_length_chronicle, List.drop_length]

theorem Since.reports (h : s.Since id (min p s.position) d₀) :
    ∃ l, Reports (s.answer id) p d₀.members (s.table.members id) l := by
  obtain ⟨l, hl, hnodup, hmem⟩ := Domain.lostToAll_eq h.wellFormed h.fit
  refine ⟨l, fun limit => ?_, hnodup, fun v => ?_⟩
  · rw [changesSince_min] at hl
    have hnow := h.now
    rw [changesSince_min] at hnow
    simp only [answer, domain_eq hnow, bind, Except.bind]
    exact hl limit
  · rw [Table.members_of_get? h.now]
    exact hmem v

end Domains

namespace Absolute

variable {ask : Oracle} {V₀ V : Finset Int}

/-- Of the listed values, those are kept whose absolute values are not there. -/
theorem absent_eq (h : Describes ask V) (hr : Responds ask) {lost : List Int}
    (hlost : ∀ v ∈ lost, Value.InRange v ∧ Value.InRange (-v)) :
    ∃ l, absent ask lost = .ok l ∧
      ∀ w, w ∈ l ↔ w ∈ lost.map (fun v => (v.natAbs : Int)) ∧ w ∉ image V := by
  induction lost with
  | nil => exact ⟨[], rfl, by simp⟩
  | cons v rest ih =>
      obtain ⟨l, hl, hmem⟩ := ih fun u hu => hlost u (List.mem_cons_of_mem _ hu)
      obtain ⟨hv, hv'⟩ := hlost v List.mem_cons_self
      have hsize : Value.InRange v.natAbs := by
        unfold Value.InRange at *
        omega
      obtain ⟨here, hhere⟩ := exists_contains hr hsize
      have hiff := contains_eq h hhere
      have heq : absent ask (v :: rest) = .ok (if here then l else (v.natAbs : Int) :: l) := by
        rw [absent, Value.check_eq_ok hsize]
        simp only [bind, Except.bind, hhere, hl]
        rfl
      refine ⟨_, heq, fun w => ?_⟩
      rw [List.map_cons, List.mem_cons]
      cases here with
      | true =>
          rw [if_pos rfl, hmem]
          refine and_congr_left fun hw => (or_iff_right ?_).symm
          rintro rfl
          exact hw (hiff.1 rfl)
      | false =>
          have hout : (v.natAbs : Int) ∉ image V := fun hin => absurd (hiff.2 hin) (by decide)
          rw [if_neg (by decide), List.mem_cons, hmem, or_and_right]
          refine or_congr_left (and_iff_left_of_imp ?_).symm
          rintro rfl
          exact hout

/-- A value is lost to a view when it was there with either sign and is there with none; a view lists
what it lost in ascending order. -/
theorem reports_answer (h : Describes ask V) (hr : Responds ask) (hV₀ : Invertible V₀)
    (hfew : V₀.card ≤ Value.count) {p : Nat} {l : List Int} (hl : Reports ask p V₀ V l) :
    ∃ l', Reports (answer ask) p (image V₀) (image V) l' ∧ l'.Pairwise (· < ·) := by
  have hlength := hl.length_le hfew
  obtain ⟨hask, hnodup, hmem⟩ := hl
  obtain ⟨gone, hgone, hmem'⟩ := absent_eq h hr fun v hv => hV₀ v ((hmem v).1 hv).1
  have hsorted := Ascending.pairwise_ofList gone
  refine ⟨Ascending.ofList gone, ⟨fun limit => ?_, ?_, fun w => ?_⟩, hsorted⟩
  · simp only [answer, removedSince, hask, List.take_of_length_le hlength, bind, Except.bind, hgone]
    rfl
  · exact hsorted.imp fun hlt => ne_of_lt hlt
  · rw [Ascending.mem_ofList, hmem']
    refine and_congr_left fun hw => ?_
    rw [List.mem_map, image, Finset.mem_image]
    constructor
    · rintro ⟨v, hv, rfl⟩
      exact ⟨v, ((hmem v).1 hv).1, rfl⟩
    · rintro ⟨v, hv, rfl⟩
      refine ⟨v, (hmem v).2 ⟨hv, fun hv' => hw ?_⟩, rfl⟩
      exact Finset.mem_image_of_mem _ hv'

end Absolute

namespace Variable

variable {s : Domains} {t : Table DomainId Domain} {d₀ : Domain} {p : Nat}

/-- A variable reports the difference between its values when `p` changes were on record and its
values now. -/
theorem reports (hwf : s.table.WellFormed) {x : Variable} (ht : t.get? x.base = some d₀)
    (h : s.Since x.base (min p s.position) d₀)
    (hleast : ∀ y, x = .abs y → Value.least ∉ d₀.members) :
    ∃ l, Reports (x.answer s) p (x.current t) (x.current s.table) l ∧
      ((∃ y, x = .abs y) → l.Pairwise (· < ·)) := by
  induction x with
  | domain id =>
      obtain ⟨l, hl⟩ := h.reports
      rw [current_domain id ht, current_domain id h.now, ← Table.members_of_get? h.now]
      exact ⟨l, hl, fun ⟨y, hy⟩ => nomatch hy⟩
  | abs x ih =>
      have ht' : t.get? x.base = some d₀ := ht
      have hleast' := hleast x rfl
      have hnow := fun hv => hleast' (Domain.members_applyAll_subset h.wellFormed h.fit hv)
      obtain ⟨l, hl, -⟩ := ih ht' h fun _ _ => hleast'
      have hfew : (x.current t).card ≤ Value.count := by
        rw [current, Table.members_of_get? ht']
        exact Finset.card_image_le.trans (Domain.card_members_le h.wellFormed)
      rw [current_abs, current_abs]
      obtain ⟨l', hl', hsorted⟩ := Absolute.reports_answer (describes_answer hwf x)
        (responds_answer hwf h.now hnow) (invertible_current ht' h.wellFormed hleast') hfew hl
      exact ⟨l', hl', fun _ => hsorted⟩

end Variable

/-! ### Monitors in use -/

/-- A monitor in use. -/
structure Vigil where
  domains : Domains
  monitor : Monitor
  /-- What the domains were at the moment from which on the monitor reports. -/
  reference : Domains
  /-- Whether there was a rewind after which the owner has not moved the monitor yet. -/
  due : Bool

namespace Vigil

open Domains

/-- Whether an edit changes what is on record. -/
def Restricts : Edit → Prop
  | .restrict _ _ _ => True
  | .rewind _ => True
  | _ => False

/-- What can come about when `x` is monitored. After a rewind the owner moves the monitor back before
a variable is restricted. A rewind that takes back changes from before the moment of reference makes
what it leads to the new reference. -/
inductive Reached (x : Variable) : Vigil → Prop
  | start {s : Domains} (hs : s.Reachable) {d : Domain} (hx : s.table.get? x.base = some d) :
      Reached x ⟨s, .start x s, s, false⟩
  | restrict {w : Vigil} (h : Reached x w) (hdue : w.due = false) {y : Variable} {r : Restriction}
      {cause : Cause} {s : Domains} (hs : (Edit.restrict y r cause).run w.domains = .ok s) :
      Reached x { w with domains := s }
  | extend {w : Vigil} (h : Reached x w) {e : Edit} (he : e.Proper) (hkeeps : ¬ Restricts e)
      {s : Domains} (hs : e.run w.domains = .ok s) : Reached x { w with domains := s }
  | rewind {w : Vigil} (h : Reached x w) {k : Nat} {s : Domains} (hs : w.domains.rewind k = .ok s) :
      Reached x { w with
        domains := s
        reference := if s.position < w.reference.position then s else w.reference
        due := true }
  | clamp {w : Vigil} (h : Reached x w) :
      Reached x { w with monitor := w.monitor.clamp w.domains, due := false }
  | advance {w : Vigil} (h : Reached x w) :
      Reached x { w with
        monitor := w.monitor.advance w.domains
        reference := w.domains
        due := false }

/-- The record from the monitor's place on tells what became of the reference. -/
structure Sound (x : Variable) (w : Vigil) : Prop where
  traced : w.domains.Traced
  subject : w.monitor.subject = x
  placed : min w.monitor.position w.domains.position = w.reference.position
  settled : w.due = false → w.monitor.position = w.reference.position
  since : ∃ d₀, w.reference.table.get? x.base = some d₀ ∧
    w.domains.Since x.base w.reference.position d₀

variable {x : Variable} {w : Vigil} {s : Domains}

theorem Sound.le (h : Sound x w) : w.reference.position ≤ w.domains.position := by
  rw [← h.placed]
  exact Nat.min_le_right _ _

/-- From now on. -/
theorem since_now (h : s.Traced) {id : DomainId} {d : Domain} (hd : s.table.get? id = some d) :
    ∃ d₀, s.table.get? id = some d₀ ∧ s.Since id s.position d₀ :=
  ⟨d, hd, .refl hd (h.wellFormed _ d hd)⟩

theorem Sound.restrict (h : Sound x w) (hdue : w.due = false) {y : Variable} {r : Restriction}
    {cause : Cause} (hs : (Edit.restrict y r cause).run w.domains = .ok s) :
    Sound x { w with domains := s } := by
  have hn := narrows_of_restrict h.traced.wellFormed hs
  obtain ⟨d₀, hd₀, hsince⟩ := h.since
  have hsince' := hsince.narrows hn
  refine ⟨h.traced.narrows hn, h.subject, ?_, h.settled, d₀, hd₀, hsince'⟩
  show min w.monitor.position s.position = w.reference.position
  rw [h.settled hdue]
  exact Nat.min_eq_left hsince'.recorded

theorem Sound.extend (h : Sound x w) {e : Edit} (he : e.Proper) (hkeeps : ¬ Restricts e)
    (hs : e.run w.domains = .ok s) : Sound x { w with domains := s } := by
  obtain ⟨d₀, hd₀, hsince⟩ := h.since
  have hlt := Table.lt_size_of_get? hsince.now
  have hsame : s.trail.chronicle = w.domains.trail.chronicle ∧
      s.table.get? x.base = w.domains.table.get? x.base := by
    cases e with
    | push d =>
        obtain rfl := Except.ok.inj hs
        exact ⟨rfl, Table.get?_push_of_lt _ _ hlt⟩
    | mark =>
        obtain rfl := Except.ok.inj hs
        exact ⟨Trail.chronicle_mark _, rfl⟩
    | report =>
        obtain rfl := Except.ok.inj hs
        exact ⟨rfl, rfl⟩
    | restrict => exact absurd trivial hkeeps
    | rewind => exact absurd trivial hkeeps
  have hposition : s.position = w.domains.position := by
    rw [position, position, Trail.length_eq_length_chronicle, hsame.1,
      ← Trail.length_eq_length_chronicle]
  refine ⟨h.traced.run he hs, h.subject, ?_, h.settled, d₀, hd₀, hsince.of_eq hsame.1 hsame.2⟩
  show min w.monitor.position s.position = w.reference.position
  rw [hposition, h.placed]

theorem Sound.rewind (h : Sound x w) {k : Nat} (hs : w.domains.rewind k = .ok s) :
    Sound x { w with
      domains := s
      reference := if s.position < w.reference.position then s else w.reference
      due := true } := by
  have htraced := h.traced.rewind hs
  have hplaced := h.placed
  have hle := position_rewind_le hs
  by_cases hback : s.position < w.reference.position
  · obtain ⟨d₀, -, hsince⟩ := h.since
    obtain ⟨d, hd⟩ := exists_get?_rewind hs hsince.now
    simp only [if_pos hback]
    refine ⟨htraced, h.subject, ?_, (fun hdue => nomatch hdue), since_now htraced hd⟩
    show min w.monitor.position s.position = s.position
    omega
  · obtain ⟨d₀, hd₀, hsince⟩ := h.since
    simp only [if_neg hback]
    refine ⟨htraced, h.subject, ?_, (fun hdue => nomatch hdue), d₀, hd₀,
      hsince.rewind hs (not_lt.1 hback)⟩
    show min w.monitor.position s.position = w.reference.position
    omega

theorem Sound.clamp (h : Sound x w) :
    Sound x { w with monitor := w.monitor.clamp w.domains, due := false } := by
  refine ⟨h.traced, h.subject, ?_, fun _ => h.placed, h.since⟩
  show min (min w.monitor.position w.domains.position) w.domains.position = _
  rw [h.placed]
  exact Nat.min_eq_left h.le

theorem Sound.advance (h : Sound x w) :
    Sound x { w with
      monitor := w.monitor.advance w.domains
      reference := w.domains
      due := false } := by
  obtain ⟨d₀, -, hsince⟩ := h.since
  exact ⟨h.traced, h.subject, Nat.min_self _, fun _ => rfl, since_now h.traced hsince.now⟩

theorem Reached.sound (h : Reached x w) : Sound x w := by
  induction h with
  | start hs hx =>
      exact ⟨hs.traced, rfl, Nat.min_self _, fun _ => rfl, since_now hs.traced hx⟩
  | restrict _ hdue hs ih => exact ih.restrict hdue hs
  | extend _ he hkeeps hs ih => exact ih.extend he hkeeps hs
  | rewind _ hs ih => exact ih.rewind hs
  | clamp _ ih => exact ih.clamp
  | advance _ ih => exact ih.advance

/-- A monitor reports exactly the values that the variable had at the moment of reference and has no
more, each of them once, and those of a view in ascending order. -/
theorem Reached.lost_eq (h : Reached x w)
    (hleast : ∀ y, x = .abs y → Value.least ∉ w.reference.table.members x.base) :
    ∃ l : List Int, (∀ limit, w.monitor.lost w.domains limit = .ok (l.take limit)) ∧ l.Nodup ∧
      (∀ v, v ∈ l ↔ v ∈ x.current w.reference.table ∧ v ∉ x.current w.domains.table) ∧
      ((∃ y, x = .abs y) → l.Pairwise (· < ·)) := by
  have hsound := h.sound
  obtain ⟨d₀, hd₀, hsince⟩ := hsound.since
  rw [← hsound.placed] at hsince
  rw [Table.members_of_get? hd₀] at hleast
  obtain ⟨l, ⟨hl, hnodup, hmem⟩, hsorted⟩ :=
    Variable.reports hsound.traced.wellFormed hd₀ hsince hleast
  refine ⟨l, fun limit => ?_, hnodup, hmem, hsorted⟩
  rw [Monitor.lost, hsound.subject]
  exact hl limit

/-! ### A rewind beyond the moment of reference -/

/-- The value `-2` of the view's domain is lost. -/
def bereft : Domains where
  table := ⟨#[{ cropped with lower := 0, size := 2 }, .interval (-5) 9]⟩
  trail := scarred.trail.push (⟨0⟩, .narrowed (-2) 4 0 4 3 2)
  unreported := #[⟨⟨0⟩, { lowerBound := true }, .decision⟩]

/-- All changes are taken back. -/
def healed : Domains where
  table := ⟨#[holed, .interval (-5) 9]⟩

/-- The values `3` and `-3` are lost again. -/
def hurt : Domains where
  table := scarred.table
  trail := ⟨scarred.trail.current, []⟩
  unreported := #[⟨⟨0⟩, { removal := true }, .decision⟩, ⟨⟨0⟩, { lowerBound := true }, .decision⟩]

/-- A monitor of `|x0|` that was started after the first loss of `3`, and moved back when that loss
was taken back. -/
def relapse : Vigil := ⟨hurt, ⟨.abs (.domain ⟨0⟩), 0⟩, healed, false⟩

theorem reached_relapse : Reached (.abs (.domain ⟨0⟩)) relapse := by
  have hlost : (Edit.restrict (.abs (.domain ⟨0⟩)) (.without 2) .decision).run scarred =
      .ok bereft := by decide
  have hback : bereft.rewind 0 = .ok healed := by decide
  have hagain : (Edit.restrict (.abs (.domain ⟨0⟩)) (.without 3) .decision).run healed =
      .ok hurt := by decide
  have hstart : Reached (.abs (.domain ⟨0⟩)) ⟨scarred, .start _ scarred, scarred, false⟩ :=
    .start reachable_scarred (d := cropped) rfl
  exact (((hstart.restrict rfl hlost).rewind hback).clamp).restrict rfl hagain

theorem lost_eq_relapse :
    Reached (.abs (.domain ⟨0⟩)) relapse ∧
      (∀ y, Variable.abs (.domain ⟨0⟩) = .abs y → Value.least ∉ healed.table.members ⟨0⟩) ∧
      ∃ l : List Int, (∀ limit, relapse.monitor.lost hurt limit = .ok (l.take limit)) ∧ l.Nodup ∧
        (∀ v, v ∈ l ↔ v ∈ (Variable.abs (.domain ⟨0⟩)).current healed.table ∧
          v ∉ (Variable.abs (.domain ⟨0⟩)).current hurt.table) ∧
        ((∃ y, Variable.abs (.domain ⟨0⟩) = .abs y) → l.Pairwise (· < ·)) :=
  ⟨reached_relapse, fun _ _ => by decide, reached_relapse.lost_eq fun _ _ => by decide⟩

example : relapse.monitor.lost hurt Value.count = .ok [3] := by decide

end Vigil

end Narrowing
