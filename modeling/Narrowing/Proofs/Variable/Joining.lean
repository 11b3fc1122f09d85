import Narrowing.Proofs.Domain.Listings
import Narrowing.Proofs.Variable.Width

/-!
Lists of runs. Two lists, in each of which there is a gap between any two runs, are merged by the
ends that come first in the direction of a listing, and neighbours that overlap or touch are joined.
Whatever is near a joined run is near one of its parts, so one look at each neighbour is enough: in
the end there is a gap between any two, and such runs are the maximal ones of what they have. The
look at a neighbour takes the value behind the end of a run, so no run that ends at the greatest
machine value may have another one to be compared with.
-/

namespace Narrowing

namespace Span

variable {a b c r : Span} {l l' : List Span} {V : Finset Int} {v : Int}

/-- Together the two runs are one. -/
def Near (a b : Span) : Prop := a.first ≤ b.last + 1 ∧ b.first ≤ a.last + 1

instance : Decidable (a.Near b) := inferInstanceAs (Decidable (_ ∧ _))

/-- Two runs as one. -/
def glue (a b : Span) : Span := ⟨min a.first b.first, max a.last b.last⟩

/-- A value is in one of the runs. -/
def Covered (l : List Span) (v : Int) : Prop := ∃ r ∈ l, r.first ≤ v ∧ v ≤ r.last

/-- Runs in ascending order, with a gap between any two. -/
structure Spaced (l : List Span) : Prop where
  proper : ∀ r ∈ l, r.first ≤ r.last
  gaps : l.Pairwise fun a b => a.last + 1 < b.first

theorem covered_cons : Covered (a :: l) v ↔ (a.first ≤ v ∧ v ≤ a.last) ∨ Covered l v :=
  List.exists_mem_cons_iff _ _ _

theorem glue_proper (ha : a.first ≤ a.last) : (a.glue b).first ≤ (a.glue b).last := by
  simp only [glue]
  omega

theorem Near.mem_glue (h : a.Near b) :
    (a.glue b).first ≤ v ∧ v ≤ (a.glue b).last ↔
      (a.first ≤ v ∧ v ≤ a.last) ∨ (b.first ≤ v ∧ v ≤ b.last) := by
  unfold Near at h
  simp only [glue]
  omega

/-- What is near neither of two runs is not near what they are joined to. -/
theorem Near.not_glue (h : b.Near c) (ha : a.first ≤ a.last) (hb : ¬ a.Near b) (hc : ¬ a.Near c) :
    ¬ a.Near (b.glue c) := by
  simp only [Near, glue] at *
  omega

theorem Spaced.ascending (h : Spaced l) : l.Pairwise fun a b => a.first < b.first :=
  h.gaps.imp_of_mem fun ha _ hab => by
    have := h.proper _ ha
    omega

theorem Spaced.descending (h : Spaced l) : l.reverse.Pairwise fun a b => b.last < a.last :=
  List.pairwise_reverse.2 <| h.gaps.imp_of_mem fun _ hb hab => by
    have := h.proper _ hb
    omega

/-- A value next to one of the runs is not in any. -/
theorem Spaced.isRun (h : Spaced l) (hV : ∀ v, v ∈ V ↔ Covered l v) (hr : r ∈ l) : r.IsRun V := by
  have hapart : l.Pairwise fun a b => ¬ (a.Near b ∨ b.Near a) := by
    refine h.gaps.imp_of_mem fun ha hb hab => ?_
    have := h.proper _ ha
    have := h.proper _ hb
    unfold Near
    omega
  have : Std.Symm fun a b : Span => ¬ (a.Near b ∨ b.Near a) := ⟨fun _ _ hab => by rwa [or_comm]⟩
  have hnext : ∀ q ∈ l, r ≠ q → ¬ r.Near q := fun q hq hne hnear =>
    hapart.forall hr hq hne (Or.inl hnear)
  have hproper := h.proper r hr
  refine ⟨hproper, fun u hfu hul => (hV u).2 ⟨r, hr, hfu, hul⟩, fun hbefore => ?_, fun hbehind => ?_⟩
  · obtain ⟨q, hq, hfirst, hlast⟩ := (hV _).1 hbefore
    refine hnext q hq ?_ ⟨by omega, by omega⟩
    rintro rfl
    omega
  · obtain ⟨q, hq, hfirst, hlast⟩ := (hV _).1 hbehind
    refine hnext q hq ?_ ⟨by omega, by omega⟩
    rintro rfl
    omega

/-- Runs with a gap between any two are all the maximal runs of what they have. -/
theorem Spaced.mem_iff (h : Spaced l) (hV : ∀ v, v ∈ V ↔ Covered l v) (r : Span) :
    r ∈ l ↔ r.IsRun V := by
  refine ⟨h.isRun hV, fun hr => ?_⟩
  obtain ⟨q, hq, hfirst, hlast⟩ := (hV _).1 hr.first_mem
  rwa [hr.eq_of_first_mem (h.isRun hV hq) hfirst hlast]

theorem Spaced.eq (h : Spaced l) (h' : Spaced l') (hV : ∀ v, v ∈ V ↔ Covered l v)
    (hV' : ∀ v, v ∈ V ↔ Covered l' v) : l = l' :=
  eq_of_mem_iff h.ascending h'.ascending fun r => (h.mem_iff hV r).trans (h'.mem_iff hV' r).symm

end Span

/-! ### Joining neighbours -/

open Enumeration Narrowing.Span

/-- `R` is what the runs of `L` are joined to. -/
structure Joined (before : Span → Span → Prop) (L R : List Span) : Prop where
  proper : ∀ r ∈ R, r.first ≤ r.last
  apart : R.Pairwise fun a b => before a b ∧ ¬ a.Near b
  covered : ∀ v, Covered R v ↔ Covered L v
  /-- A run that is apart from those of `L` is apart from those of `R`. -/
  clear : ∀ a : Span, a.first ≤ a.last → (∀ b ∈ L, before a b ∧ ¬ a.Near b) →
    ∀ r ∈ R, before a r ∧ ¬ a.Near r

/-- A direction to go through runs. Where one run is `before` another one, what is computed to
`join` the two fits a machine value, so they are glued if they are near. -/
structure Sweeps (join : Span → Span → Checked (Option Span)) (before : Span → Span → Prop) :
    Prop where
  join_eq : ∀ {a b : Span}, a.first ≤ a.last → b.first ≤ b.last → before a b →
    join a b = .ok (if a.Near b then some (a.glue b) else none)
  glue_before : ∀ {a b c : Span}, before a c → before b c → before (a.glue b) c
  before_glue : ∀ {a b c : Span}, before a b → before a c → before a (b.glue c)
  apart : ∀ {a b c : Span}, a.first ≤ a.last → b.first ≤ b.last → c.first ≤ c.last →
    before a b → before b c → ¬ a.Near b → ¬ a.Near c

namespace Sweeps

variable {join : Span → Span → Checked (Option Span)} {before : Span → Span → Prop}
  {held : Span} {l : List Span} (h : Sweeps join before)
include h

/-- The run that is still open either takes in the next one or is apart from all that is to come. -/
theorem joinFrom_eq (hproper : ∀ r ∈ held :: l, r.first ≤ r.last)
    (hbefore : (held :: l).Pairwise before) :
    ∃ R, joinFrom join held (ofList l) = ofList R ∧ Joined before (held :: l) R := by
  induction l generalizing held with
  | nil =>
      refine ⟨[held], rfl, hproper, List.pairwise_singleton _ _, fun _ => Iff.rfl, ?_⟩
      exact fun a _ hclear => hclear
  | cons b l ih =>
      obtain ⟨hheld, hrest⟩ := List.pairwise_cons.1 hbefore
      obtain ⟨hb, hl⟩ := List.pairwise_cons.1 hrest
      have hpheld := hproper held List.mem_cons_self
      have hprest : ∀ r ∈ b :: l, r.first ≤ r.last := fun r hr =>
        hproper r (List.mem_cons_of_mem held hr)
      have hpb := hprest b List.mem_cons_self
      have hheldb := hheld b List.mem_cons_self
      rw [ofList, joinFrom, h.join_eq hpheld hpb hheldb]
      by_cases hnear : held.Near b
      · have hglued : (held.glue b :: l).Pairwise before :=
          List.pairwise_cons.2 ⟨fun c hc =>
            h.glue_before (hheld c (List.mem_cons_of_mem b hc)) (hb c hc), hl⟩
        have hpglued : ∀ r ∈ held.glue b :: l, r.first ≤ r.last :=
          List.forall_mem_cons.2 ⟨glue_proper hpheld, fun r hr =>
            hprest r (List.mem_cons_of_mem b hr)⟩
        obtain ⟨R, hR, hjoined⟩ := ih hpglued hglued
        refine ⟨R, by rw [if_pos hnear]; exact hR, hjoined.proper, hjoined.apart, fun v => ?_,
          fun a ha hclear => hjoined.clear a ha ?_⟩
        · rw [hjoined.covered, covered_cons, covered_cons, covered_cons,
            hnear.mem_glue, or_assoc]
        · obtain ⟨hah, hclear⟩ := List.forall_mem_cons.1 hclear
          obtain ⟨hab, hclear⟩ := List.forall_mem_cons.1 hclear
          exact List.forall_mem_cons.2
            ⟨⟨h.before_glue hah.1 hab.1, hnear.not_glue ha hah.2 hab.2⟩, hclear⟩
      · obtain ⟨R, hR, hjoined⟩ := ih hprest hrest
        have happart : ∀ c ∈ b :: l, before held c ∧ ¬ held.Near c := by
          refine List.forall_mem_cons.2 ⟨⟨hheldb, hnear⟩, fun c hc => ?_⟩
          have hpc := hprest c (List.mem_cons_of_mem b hc)
          exact ⟨hheld c (List.mem_cons_of_mem b hc),
            h.apart hpheld hpb hpc hheldb (hb c hc) hnear⟩
        refine ⟨held :: R, by rw [if_neg hnear, ofList, ← hR], ?_, ?_, fun v => ?_, ?_⟩
        · exact List.forall_mem_cons.2 ⟨hpheld, hjoined.proper⟩
        · exact List.pairwise_cons.2 ⟨hjoined.clear held hpheld happart, hjoined.apart⟩
        · rw [covered_cons, hjoined.covered, covered_cons (a := held)]
        · intro a ha hclear
          obtain ⟨hah, hclear⟩ := List.forall_mem_cons.1 hclear
          exact List.forall_mem_cons.2 ⟨hah, hjoined.clear a ha hclear⟩

theorem joinNeighbours_eq (hproper : ∀ r ∈ l, r.first ≤ r.last) (hbefore : l.Pairwise before) :
    ∃ R, (ofList l).joinNeighbours join = ofList R ∧ Joined before l R := by
  cases l with
  | nil => exact ⟨[], rfl, hproper, .nil, fun _ => Iff.rfl, fun _ _ hclear => hclear⟩
  | cons held l => exact h.joinFrom_eq hproper hbefore

end Sweeps

namespace Span

variable {l R : List Span}

/-- `b` comes after `a`, and there is a value behind `a`. -/
def Upward (a b : Span) : Prop := 0 ≤ a.first ∧ a.first ≤ b.first ∧ a.last < Value.greatest

/-- `b` comes after `a` on the way down, and there is a value behind `b`. -/
def Downward (a b : Span) : Prop := 0 ≤ b.first ∧ b.last ≤ a.last ∧ b.last < Value.greatest

/-- The runs of a view are made of machine values that are not negative. -/
structure Folded (l : List Span) : Prop extends Spaced l where
  nonneg : ∀ r ∈ l, 0 ≤ r.first
  le_greatest : ∀ r ∈ l, r.last ≤ Value.greatest

theorem Folded.upward (h : Folded l) : l.Pairwise Upward :=
  h.gaps.imp_of_mem fun ha hb hab => by
    have := h.proper _ ha
    have := h.proper _ hb
    have := h.le_greatest _ hb
    exact ⟨h.nonneg _ ha, by omega, by omega⟩

theorem Folded.downward (h : Folded l) : l.reverse.Pairwise Downward :=
  List.pairwise_reverse.2 <| h.gaps.imp_of_mem fun ha hb hab => by
    have := h.proper _ hb
    have := h.le_greatest _ hb
    exact ⟨h.nonneg _ ha, by omega, by omega⟩

end Span

theorem sweeps_up : Sweeps Absolute.joinUp Upward where
  join_eq := by
    intro a b ha hb hab
    obtain ⟨hnonneg, hfirst, hlast⟩ := hab
    have hbehind : Value.InRange (a.last + 1) := by
      unfold Value.InRange Value.least
      omega
    have hnear : b.first ≤ a.last + 1 ↔ a.Near b := by
      unfold Near
      omega
    rw [Absolute.joinUp, Value.check_eq_ok hbehind]
    simp only [bind, Except.bind, hnear, glue, min_eq_left hfirst]
    rfl
  glue_before := by
    intro a b c hac hbc
    simp only [Upward, glue] at *
    omega
  before_glue := by
    intro a b c hab hac
    simp only [Upward, glue] at *
    omega
  apart := by
    intro a b c ha hb hc hab hbc hnear
    simp only [Upward, Near] at *
    omega

theorem sweeps_down : Sweeps Absolute.joinDown Downward where
  join_eq := by
    intro a b ha hb hab
    obtain ⟨hnonneg, hlast, hgreatest⟩ := hab
    have hbehind : Value.InRange (b.last + 1) := by
      unfold Value.InRange Value.least
      omega
    have hnear : a.first ≤ b.last + 1 ↔ a.Near b := by
      unfold Near
      omega
    rw [Absolute.joinDown, Value.check_eq_ok hbehind]
    simp only [bind, Except.bind, hnear, glue, max_eq_left hlast]
    rfl
  glue_before := by
    intro a b c hac hbc
    simp only [Downward, glue] at *
    omega
  before_glue := by
    intro a b c hab hac
    simp only [Downward, glue] at *
    omega
  apart := by
    intro a b c ha hb hc hab hbc hnear
    simp only [Downward, Near] at *
    omega

section Joined

variable {L R : List Span}

theorem Joined.spaced_up (h : Joined Upward L R) : Spaced R := by
  refine ⟨h.proper, h.apart.imp_of_mem fun ha hb hab => ?_⟩
  have := h.proper _ ha
  have := h.proper _ hb
  simp only [Upward, Near] at hab
  omega

theorem Joined.spaced_down (h : Joined Downward L R) : Spaced R.reverse := by
  refine ⟨fun r hr => h.proper r (List.mem_reverse.1 hr), List.pairwise_reverse.2 ?_⟩
  refine h.apart.imp_of_mem fun ha hb hab => ?_
  have := h.proper _ ha
  have := h.proper _ hb
  simp only [Downward, Near] at hab
  omega

end Joined

section Merge

variable {P N : List Span} {V : Finset Int} {v : Int} {first : Span → Span → Bool}

theorem covered_merge : Covered (P.merge N first) v ↔ Covered P v ∨ Covered N v := by
  simp only [Covered, List.mem_merge, or_and_right, exists_or]

theorem covered_reverse : Covered P.reverse v ↔ Covered P v := by
  simp only [Covered, List.mem_reverse]

/-- In what two lists are merged to, a relation holds between any two in a row if it does so within
the lists and between the ones of both. `ordered` is the order of each of the lists. -/
theorem pairwise_merge_iff {ordered R : Span → Span → Prop}
    (hfirst : ∀ {a b c}, first a b → ordered b c → first a c)
    (hnot : ∀ {a b c}, ¬ first a c → ordered a b → ¬ first b c)
    (hP : P.Pairwise ordered) (hN : N.Pairwise ordered) :
    (P.merge N first).Pairwise R ↔ P.Pairwise R ∧ N.Pairwise R ∧
      ∀ a ∈ P, ∀ b ∈ N, if first a b then R a b else R b a := by
  induction P generalizing N with
  | nil => simp
  | cons a P ihP =>
      obtain ⟨haP, hP'⟩ := List.pairwise_cons.1 hP
      induction N with
      | nil => simp
      | cons b N ihN =>
          obtain ⟨hbN, hN'⟩ := List.pairwise_cons.1 hN
          rw [List.cons_merge_cons]
          split
          · next hab =>
            have hall : ∀ c ∈ b :: N, first a c :=
              List.forall_mem_cons.2 ⟨hab, fun c hc => hfirst hab (hbN c hc)⟩
            have hrow : (∀ c ∈ b :: N, if first a c then R a c else R c a) ↔
                ∀ c ∈ b :: N, R a c :=
              forall₂_congr fun c hc => by rw [if_pos (hall c hc)]
            rw [List.pairwise_cons, ihP hP' hN, List.pairwise_cons (l := P), List.forall_mem_cons,
              hrow]
            simp only [List.mem_merge, or_imp, forall_and]
            tauto
          · next hab =>
            have hall : ∀ c ∈ a :: P, ¬ first c b :=
              List.forall_mem_cons.2 ⟨hab, fun c hc => hnot hab (haP c hc)⟩
            have hcolumn : (∀ c ∈ a :: P, if first c b then R c b else R b c) ↔
                ∀ c ∈ a :: P, R b c :=
              forall₂_congr fun c hc => by rw [if_neg (hall c hc)]
            have hcross : (∀ c ∈ a :: P, ∀ e ∈ b :: N, if first c e then R c e else R e c) ↔
                (∀ c ∈ a :: P, R b c) ∧
                  ∀ c ∈ a :: P, ∀ e ∈ N, if first c e then R c e else R e c := by
              rw [← hcolumn]
              simp only [List.forall_mem_cons (a := b), forall_and]
            rw [List.pairwise_cons, ihN hN', List.pairwise_cons (l := N), hcross]
            simp only [List.mem_merge, or_imp, forall_and]
            tauto

theorem pairwise_up_iff {R : Span → Span → Prop} (hP : Spaced P) (hN : Spaced N) :
    (P.merge N fun a b => a.first ≤ b.first).Pairwise R ↔ P.Pairwise R ∧ N.Pairwise R ∧
      ∀ a ∈ P, ∀ b ∈ N, if a.first ≤ b.first then R a b else R b a := by
  refine (pairwise_merge_iff ?_ ?_ hP.ascending hN.ascending).trans ?_
  · intro a b c hab hbc
    exact decide_eq_true ((of_decide_eq_true hab).trans (le_of_lt hbc))
  · intro a b c hac hab hbc
    exact hac (decide_eq_true ((le_of_lt hab).trans (of_decide_eq_true hbc)))
  · simp only [decide_eq_true_eq]

theorem pairwise_down_iff {R : Span → Span → Prop} (hP : Spaced P) (hN : Spaced N) :
    (P.reverse.merge N.reverse fun a b => b.last ≤ a.last).Pairwise R ↔
      P.reverse.Pairwise R ∧ N.reverse.Pairwise R ∧
        ∀ a ∈ P, ∀ b ∈ N, if b.last ≤ a.last then R a b else R b a := by
  refine (pairwise_merge_iff ?_ ?_ hP.descending hN.descending).trans ?_
  · intro a b c hab hbc
    exact decide_eq_true ((le_of_lt hbc).trans (of_decide_eq_true hab))
  · intro a b c hac hab hbc
    exact hac (decide_eq_true ((of_decide_eq_true hbc).trans (le_of_lt hab)))
  · simp only [List.mem_reverse, decide_eq_true_eq]

/-- Of a run of either list, the one that starts first ends before the greatest machine value. -/
def Fits (P N : List Span) : Prop :=
  ∀ a ∈ P, ∀ b ∈ N, if a.first ≤ b.first then a.last < Value.greatest else b.last < Value.greatest

theorem Fits.upward (h : Fits P N) (hP : Folded P) (hN : Folded N) :
    (P.merge N fun a b => a.first ≤ b.first).Pairwise Upward := by
  refine (pairwise_up_iff hP.toSpaced hN.toSpaced).2 ⟨hP.upward, hN.upward, fun a ha b hb => ?_⟩
  have hab := h a ha b hb
  split at hab
  · next hfirst =>
    rw [if_pos hfirst]
    exact ⟨hP.nonneg a ha, hfirst, hab⟩
  · next hfirst =>
    rw [if_neg hfirst]
    exact ⟨hN.nonneg b hb, le_of_not_ge hfirst, hab⟩

/-- Of a run of either list, one ends before the greatest machine value. -/
def FitsDown (P N : List Span) : Prop :=
  ∀ a ∈ P, ∀ b ∈ N, a.last < Value.greatest ∨ b.last < Value.greatest

theorem Fits.down (h : Fits P N) : FitsDown P N := fun a ha b hb => by
  have hab := h a ha b hb
  split at hab
  · exact Or.inl hab
  · exact Or.inr hab

/-- One of the two ends before the greatest machine value, so the one that ends first does. -/
theorem FitsDown.downward (h : FitsDown P N) (hP : Folded P) (hN : Folded N) :
    (P.reverse.merge N.reverse fun a b => b.last ≤ a.last).Pairwise Downward := by
  refine (pairwise_down_iff hP.toSpaced hN.toSpaced).2
    ⟨hP.downward, hN.downward, fun a ha b hb => ?_⟩
  have hab := h a ha b hb
  have hla := hP.le_greatest a ha
  have hlb := hN.le_greatest b hb
  split
  · next hlast => exact ⟨hN.nonneg b hb, hlast, by omega⟩
  · next hlast => exact ⟨hP.nonneg a ha, by omega, by omega⟩

theorem joinUp_eq_ok {a b : Span} {o : Option Span} (h : Absolute.joinUp a b = .ok o) :
    a.last < Value.greatest ∧ ∀ both ∈ o, b.last ≤ both.last := by
  obtain ⟨behind, hbehind, h⟩ := Checked.bind_eq_ok h
  have hle := (Value.inRange_of_check hbehind).2
  rw [Value.eq_of_check hbehind] at hle
  refine ⟨by omega, fun both hboth => ?_⟩
  rw [← Except.ok.inj h] at hboth
  split at hboth
  · rw [← Option.some.inj hboth]
    exact le_max_right _ _
  · exact nomatch hboth

/-- The end of a run that is followed by another one is compared with, so there is a value behind
it. -/
theorem pairwise_of_joinFrom {held : Span} {l : List Span}
    (h : (joinFrom Absolute.joinUp held (ofList l)).Complete) :
    (held :: l).Pairwise fun a _ => a.last < Value.greatest := by
  induction l generalizing held with
  | nil => exact List.pairwise_singleton _ _
  | cons b l ih =>
      rw [ofList, joinFrom] at h
      split at h
      · exact absurd h (not_complete_fault _)
      · next both hjoin =>
        obtain ⟨hlast, hle⟩ := joinUp_eq_ok hjoin
        obtain ⟨hboth, hl⟩ := List.pairwise_cons.1 (ih h)
        exact List.pairwise_cons.2 ⟨fun _ _ => hlast, List.pairwise_cons.2
          ⟨fun c hc => lt_of_le_of_lt (hle both rfl) (hboth c hc), hl⟩⟩
      · next hjoin =>
        obtain ⟨hlast, -⟩ := joinUp_eq_ok hjoin
        exact List.pairwise_cons.2 ⟨fun _ _ => hlast, ih (complete_item.1 h)⟩

/-- If the listing upwards comes to its end, the runs of both lists fit. -/
theorem fits_of_complete (hP : Spaced P) (hN : Spaced N)
    (h : ((merge (fun a b => a.first ≤ b.first) (ofList P) (ofList N)).joinNeighbours
      Absolute.joinUp).Complete) : Fits P N := by
  rw [merge_ofList] at h
  have hmerged : (P.merge N fun a b => a.first ≤ b.first).Pairwise
      fun a _ => a.last < Value.greatest := by
    revert h
    cases P.merge N fun a b => a.first ≤ b.first with
    | nil => exact fun _ => .nil
    | cons held l => exact pairwise_of_joinFrom
  exact ((pairwise_up_iff hP hN).1 hmerged).2.2

/-- On the way down it is the end of every run but the first that is compared with. -/
theorem lt_greatest_of_joinFrom {held : Span} {l : List Span}
    (h : (joinFrom Absolute.joinDown held (ofList l)).Complete) :
    ∀ b ∈ l, b.last < Value.greatest := by
  induction l generalizing held with
  | nil => exact List.forall_mem_nil _
  | cons b l ih =>
      rw [ofList, joinFrom] at h
      have hlast : ∀ o, Absolute.joinDown held b = .ok o → b.last < Value.greatest := fun o ho => by
        obtain ⟨behind, hbehind, -⟩ := Checked.bind_eq_ok ho
        have hle := (Value.inRange_of_check hbehind).2
        rw [Value.eq_of_check hbehind] at hle
        omega
      split at h
      · exact absurd h (not_complete_fault _)
      · next both hjoin => exact List.forall_mem_cons.2 ⟨hlast _ hjoin, ih h⟩
      · next hjoin => exact List.forall_mem_cons.2 ⟨hlast _ hjoin, ih (complete_item.1 h)⟩

/-- If the listing downwards comes to its end, so do the runs that meet there. -/
theorem fitsDown_of_complete (hP : Spaced P) (hN : Spaced N)
    (h : ((merge (fun a b => b.last ≤ a.last) (ofList P.reverse) (ofList N.reverse)).joinNeighbours
      Absolute.joinDown).Complete) : FitsDown P N := by
  rw [merge_ofList] at h
  have hmerged : (P.reverse.merge N.reverse fun a b => b.last ≤ a.last).Pairwise
      fun _ b => b.last < Value.greatest := by
    revert h
    cases P.reverse.merge N.reverse fun a b => b.last ≤ a.last with
    | nil => exact fun _ => .nil
    | cons held l =>
        intro h
        have hlast := lt_greatest_of_joinFrom h
        exact List.pairwise_cons.2 ⟨hlast, List.pairwise_of_forall_mem_list fun _ _ b hb => hlast b hb⟩
  intro a ha b hb
  have hab := ((pairwise_down_iff hP hN).1 hmerged).2.2 a ha b hb
  split at hab
  · exact Or.inr hab
  · exact Or.inl hab

section Joined

variable (hP : Folded P) (hN : Folded N) (hV : ∀ v, v ∈ V ↔ Covered P v ∨ Covered N v)
include hP hN hV

/-- Two lists of runs are joined to one on the way up. -/
theorem exists_joined_up (hfits : Fits P N) :
    ∃ l, (merge (fun a b => a.first ≤ b.first) (ofList P) (ofList N)).joinNeighbours
          Absolute.joinUp = ofList l ∧ Spaced l ∧ ∀ v, v ∈ V ↔ Covered l v := by
  have hproper : ∀ r ∈ P.merge N fun a b => a.first ≤ b.first, r.first ≤ r.last := fun r hr =>
    (List.mem_merge.1 hr).elim (hP.proper r) (hN.proper r)
  obtain ⟨up, hup, hjoined⟩ := sweeps_up.joinNeighbours_eq hproper (hfits.upward hP hN)
  refine ⟨up, by rw [merge_ofList, hup], hjoined.spaced_up, fun v => ?_⟩
  rw [hV, hjoined.covered, covered_merge]

/-- So they are on the way down. -/
theorem exists_joined_down (hfits : FitsDown P N) :
    ∃ l, (merge (fun a b => b.last ≤ a.last) (ofList P.reverse) (ofList N.reverse)).joinNeighbours
          Absolute.joinDown = ofList l.reverse ∧ Spaced l ∧ ∀ v, v ∈ V ↔ Covered l v := by
  have hproper : ∀ r ∈ P.reverse.merge N.reverse fun a b => b.last ≤ a.last, r.first ≤ r.last := by
    intro r hr
    rw [List.mem_merge, List.mem_reverse, List.mem_reverse] at hr
    exact hr.elim (hP.proper r) (hN.proper r)
  obtain ⟨down, hdown, hjoined⟩ := sweeps_down.joinNeighbours_eq hproper (hfits.downward hP hN)
  refine ⟨down.reverse, ?_, hjoined.spaced_down, fun v => ?_⟩
  · rw [merge_ofList, hdown, List.reverse_reverse]
  · rw [hV, covered_reverse, hjoined.covered, covered_merge, covered_reverse, covered_reverse]

/-- Two lists of runs are joined to one, and to the same one in both directions. -/
theorem exists_joined (hfits : Fits P N) :
    ∃ l, (merge (fun a b => a.first ≤ b.first) (ofList P) (ofList N)).joinNeighbours
          Absolute.joinUp = ofList l ∧
      (merge (fun a b => b.last ≤ a.last) (ofList P.reverse) (ofList N.reverse)).joinNeighbours
          Absolute.joinDown = ofList l.reverse ∧
      Spaced l ∧ ∀ v, v ∈ V ↔ Covered l v := by
  obtain ⟨up, hup, hspaced, hcovered⟩ := exists_joined_up hP hN hV hfits
  obtain ⟨down, hdown, hspaced', hcovered'⟩ := exists_joined_down hP hN hV hfits.down
  obtain rfl := hspaced.eq hspaced' hcovered hcovered'
  exact ⟨up, hup, hdown, hspaced, hcovered⟩

end Joined

end Merge

end Narrowing
