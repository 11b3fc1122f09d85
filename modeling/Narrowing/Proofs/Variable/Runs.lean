import Narrowing.Proofs.Variable.Joining
import Narrowing.Proofs.Variable.Portrayal

/-!
The runs that a view lists. Those of what it looks at are cut at zero and the negative parts turned
over; two lists come of that, which are merged and joined. In either direction these are the maximal
runs of the absolute values, unless the greatest machine value is in the way.
-/

namespace Narrowing

open Enumeration Narrowing.Span

/-! ### Both signs -/

namespace Absolute

variable {ask : Oracle} {l : List Span} {V : Finset Int} {a b : Span} {v : Int}

/-- What a run has of the values that are not negative. -/
def upperPart (s : Span) : Option Span :=
  if 0 ≤ s.last then some ⟨max s.first 0, s.last⟩ else none

/-- What a run with a negative value has of the values that are not positive, turned over. -/
def lowerPart (s : Span) : Option Span :=
  if s.first < 0 then some ⟨-min s.last 0, -s.first⟩ else none

theorem upperHalf_eq (s : Span) : upperHalf s = (upperPart s).map .ok := by
  unfold upperHalf upperPart
  split <;> rfl

theorem lowerHalf_eq {s : Span} (hfirst : Value.InRange (-s.first))
    (hlast : Value.InRange (-s.last)) : lowerHalf s = (lowerPart s).map .ok := by
  unfold lowerHalf lowerPart
  split
  · have hmin : Value.InRange (-min s.last 0) := by
      unfold Value.InRange Value.least Value.greatest at *
      omega
    rw [negate_of_inRange hmin, negate_of_inRange hfirst]
    rfl
  · rfl

theorem upperPart_eq_some : upperPart a = some b ↔
    0 ≤ a.last ∧ b.first = max a.first 0 ∧ b.last = a.last := by
  unfold upperPart
  split <;> grind [Span]

theorem lowerPart_eq_some : lowerPart a = some b ↔
    a.first < 0 ∧ b.first = -min a.last 0 ∧ b.last = -a.first := by
  unfold lowerPart
  split <;> grind [Span]

theorem covered_upperParts : Covered (l.filterMap upperPart) v ↔ 0 ≤ v ∧ Covered l v := by
  simp only [Covered, List.mem_filterMap, upperPart_eq_some]
  constructor
  · rintro ⟨b, ⟨a, ha, hlast, hfirst', hlast'⟩, hbv, hvb⟩
    exact ⟨by omega, a, ha, by omega, by omega⟩
  · rintro ⟨hv, a, ha, hav, hva⟩
    exact ⟨⟨max a.first 0, a.last⟩, ⟨a, ha, by omega, rfl, rfl⟩, max_le hav hv, hva⟩

theorem covered_lowerParts :
    Covered (l.reverse.filterMap lowerPart) v ↔
      ∃ a ∈ l, a.first < 0 ∧ -min a.last 0 ≤ v ∧ v ≤ -a.first := by
  simp only [Covered, List.mem_filterMap, lowerPart_eq_some, List.mem_reverse]
  constructor
  · rintro ⟨b, ⟨a, ha, hfirst, hfirst', hlast'⟩, hbv, hvb⟩
    exact ⟨a, ha, hfirst, by omega, by omega⟩
  · rintro ⟨a, ha, hfirst, hav, hva⟩
    exact ⟨⟨-min a.last 0, -a.first⟩, ⟨a, ha, hfirst, rfl, rfl⟩, hav, hva⟩

/-- The two parts have the absolute values. -/
theorem mem_image_iff_covered (hV : ∀ v, v ∈ V ↔ Covered l v) :
    v ∈ image V ↔
      Covered (l.filterMap upperPart) v ∨ Covered (l.reverse.filterMap lowerPart) v := by
  rw [mem_image, hV, hV, covered_upperParts, covered_lowerParts]
  constructor
  · rintro ⟨hv, hcovered | ⟨a, ha, hav, hva⟩⟩
    · exact Or.inl ⟨hv, hcovered⟩
    · rcases Int.lt_or_eq_of_le hv with hpos | rfl
      · exact Or.inr ⟨a, ha, by omega, by omega, by omega⟩
      · exact Or.inl ⟨hv, a, ha, by omega, by omega⟩
  · rintro (⟨hv, hcovered⟩ | ⟨a, ha, hfirst, hav, hva⟩)
    · exact ⟨hv, Or.inl hcovered⟩
    · exact ⟨by omega, Or.inr ⟨a, ha, by omega, by omega⟩⟩

theorem folded_filterMap {f : Span → Option Span}
    (hpart : ∀ a ∈ l, ∀ b, f a = some b →
      0 ≤ b.first ∧ b.first ≤ b.last ∧ b.last ≤ Value.greatest)
    (hgaps : l.Pairwise fun a a' => ∀ b, f a = some b → ∀ b', f a' = some b' →
      b.last + 1 < b'.first) : Folded (l.filterMap f) := by
  have hof : ∀ b ∈ l.filterMap f, 0 ≤ b.first ∧ b.first ≤ b.last ∧ b.last ≤ Value.greatest := by
    intro b hb
    obtain ⟨a, ha, hab⟩ := List.mem_filterMap.1 hb
    exact hpart a ha b hab
  exact ⟨⟨fun b hb => (hof b hb).2.1, List.pairwise_filterMap.2 hgaps⟩,
    fun b hb => (hof b hb).1, fun b hb => (hof b hb).2.2⟩

section Parts

variable (h : Spaced l) (hV : ∀ v, v ∈ V ↔ Covered l v) (hinv : Invertible V)
include h hV hinv

theorem ends_inRange (ha : a ∈ l) : Value.InRange a.first ∧ Value.InRange (-a.first) ∧
    Value.InRange a.last ∧ Value.InRange (-a.last) := by
  have hproper := h.proper a ha
  obtain ⟨hfirst, hfirst'⟩ := hinv a.first ((hV _).2 ⟨a, ha, le_refl _, hproper⟩)
  obtain ⟨hlast, hlast'⟩ := hinv a.last ((hV _).2 ⟨a, ha, hproper, le_refl _⟩)
  exact ⟨hfirst, hfirst', hlast, hlast'⟩

theorem folded_upperParts : Folded (l.filterMap upperPart) := by
  refine folded_filterMap (fun a ha b hb => ?_) (h.gaps.imp fun haa' b hb b' hb' => ?_)
  · obtain ⟨hlast, hfirst', hlast'⟩ := upperPart_eq_some.1 hb
    obtain ⟨-, -, hrange, -⟩ := ends_inRange h hV hinv ha
    have hproper := h.proper a ha
    have hle := hrange.2
    omega
  · obtain ⟨hlast, hfirst', hlast'⟩ := upperPart_eq_some.1 hb
    obtain ⟨hlast₁, hfirst₁, hlast₁'⟩ := upperPart_eq_some.1 hb'
    omega

theorem folded_lowerParts : Folded (l.reverse.filterMap lowerPart) := by
  refine folded_filterMap (fun a ha b hb => ?_)
    ((List.pairwise_reverse.2 h.gaps).imp fun haa' b hb b' hb' => ?_)
  · have ha := List.mem_reverse.1 ha
    obtain ⟨hfirst, hfirst', hlast'⟩ := lowerPart_eq_some.1 hb
    obtain ⟨-, hrange, -, -⟩ := ends_inRange h hV hinv ha
    have hproper := h.proper a ha
    have hle := hrange.2
    omega
  · obtain ⟨hfirst, hfirst', hlast'⟩ := lowerPart_eq_some.1 hb
    obtain ⟨hfirst₁, hfirst₁', hlast₁'⟩ := lowerPart_eq_some.1 hb'
    omega

end Parts

end Absolute

/-- The listings have runs with a gap between any two, the same ones in both directions, and what
they have are the values `V`. -/
def ListsRuns (ask : Oracle) (V : Finset Int) : Prop :=
  ∃ l, ask _ .runs = .ok (ofList l) ∧ ask _ .runsDown = .ok (ofList l.reverse) ∧ Spaced l ∧
    ∀ v, v ∈ V ↔ Covered l v

namespace Absolute

variable {ask : Oracle} {V : Finset Int}

/-- Let `a` be what a run has of the values that are not negative, and `b` what a run with a negative
value has of the others, turned over: whichever of the two starts first ends before the greatest
machine value. -/
def Joinable (V : Finset Int) : Prop :=
  ∀ r q : Span, r.IsRun V → q.IsRun V → ∀ a ∈ upperPart r, ∀ b ∈ lowerPart q,
    if a.first ≤ b.first then a.last < Value.greatest else b.last < Value.greatest

/-- Where all values have one sign, there are no two parts. -/
theorem joinable_image (V : Finset Int) : Joinable (image V) := by
  intro r q hr hq a ha b hb
  have hneg := (lowerPart_eq_some.1 hb).1
  exact absurd (mem_image.1 hq.first_mem).1 (not_le.2 hneg)

theorem joinable_of_notMem (hinv : Invertible V) (hgreatest : Value.greatest ∉ image V) :
    Joinable V := by
  intro r q hr hq a ha b hb
  obtain ⟨hlast, -, hlast'⟩ := upperPart_eq_some.1 ha
  obtain ⟨hfirst, -, hfirst'⟩ := lowerPart_eq_some.1 hb
  have hne : a.last ≠ Value.greatest := fun he =>
    hgreatest (mem_image.2 ⟨by decide, Or.inl (by rw [← he, hlast']; exact hr.last_mem)⟩)
  have hne' : b.last ≠ Value.greatest := fun he =>
    hgreatest (mem_image.2 ⟨by decide, Or.inr (by rw [← he, hfirst', neg_neg]; exact hq.first_mem)⟩)
  have hle : a.last ≤ Value.greatest := hlast' ▸ (hinv _ hr.last_mem).1.2
  have hle' : b.last ≤ Value.greatest := hfirst' ▸ (hinv _ hq.first_mem).2.2
  split
  · exact lt_of_le_of_ne hle hne
  · exact lt_of_le_of_ne hle' hne'

theorem joinable_iff_fits {l : List Span} (hl : Spaced l) (hV : ∀ v, v ∈ V ↔ Covered l v) :
    Joinable V ↔ Fits (l.filterMap upperPart) (l.reverse.filterMap lowerPart) := by
  constructor
  · intro h a ha b hb
    obtain ⟨r, hr, hra⟩ := List.mem_filterMap.1 ha
    obtain ⟨q, hq, hqb⟩ := List.mem_filterMap.1 hb
    exact h r q (hl.isRun hV hr) (hl.isRun hV (List.mem_reverse.1 hq)) a hra b hqb
  · intro h r q hr hq a ha b hb
    have hr := (hl.mem_iff hV r).2 hr
    have hq := (hl.mem_iff hV q).2 hq
    exact h a (List.mem_filterMap.2 ⟨r, hr, ha⟩) b
      (List.mem_filterMap.2 ⟨q, List.mem_reverse.2 hq, hb⟩)

/-- The greatest machine value is not the absolute value of two values. -/
def JoinableDown (V : Finset Int) : Prop := Value.greatest ∉ V ∨ -Value.greatest ∉ V

theorem joinableDown_iff_fitsDown {l : List Span} (hl : Spaced l) (hV : ∀ v, v ∈ V ↔ Covered l v)
    (hinv : Invertible V) :
    JoinableDown V ↔ FitsDown (l.filterMap upperPart) (l.reverse.filterMap lowerPart) := by
  constructor
  · intro h a ha b hb
    obtain ⟨r, hr, hra⟩ := List.mem_filterMap.1 ha
    obtain ⟨q, hq, hqb⟩ := List.mem_filterMap.1 hb
    have hr := hl.isRun hV hr
    have hq := hl.isRun hV (List.mem_reverse.1 hq)
    have hlast := (upperPart_eq_some.1 hra).2.2
    have hfirst := (lowerPart_eq_some.1 hqb).2.2
    have hle := (hinv _ hr.last_mem).1.2
    have hle' := (hinv _ hq.first_mem).2.2
    refine h.imp (fun hnot => ?_) fun hnot => ?_
    · exact lt_of_le_of_ne (hlast ▸ hle) fun he => hnot (he ▸ hlast ▸ hr.last_mem)
    · refine lt_of_le_of_ne (hfirst ▸ hle') fun he => hnot ?_
      rw [← he, hfirst, neg_neg]
      exact hq.first_mem
  · intro h
    by_contra hboth
    obtain ⟨hgreatest, hopposite⟩ := not_or.1 hboth
    obtain ⟨r, hr, -, hlast⟩ := (hV _).1 (not_not.1 hgreatest)
    obtain ⟨q, hq, hfirst, -⟩ := (hV _).1 (not_not.1 hopposite)
    have hpos : (0 : Int) < Value.greatest := by decide
    have hlast0 : 0 ≤ r.last := by omega
    have hfirst0 : q.first < 0 := by omega
    have ha : (⟨max r.first 0, r.last⟩ : Span) ∈ l.filterMap upperPart :=
      List.mem_filterMap.2 ⟨r, hr, if_pos hlast0⟩
    have hb : (⟨-min q.last 0, -q.first⟩ : Span) ∈ l.reverse.filterMap lowerPart :=
      List.mem_filterMap.2 ⟨q, List.mem_reverse.2 hq, if_pos hfirst0⟩
    rcases h _ ha _ hb with hlt | hlt
    · exact absurd hlast (not_le.2 hlt)
    · simp only at hlt
      omega

section Sources

variable {up down : Enumeration Span} (hup : ask _ .runs = .ok up)
  (hdown : ask _ .runsDown = .ok down)
include hup hdown

theorem runs_of_ok : answer ask _ .runs =
    .ok ((merge (fun a b => a.first ≤ b.first) (up.filterMap upperHalf)
      (down.filterMap lowerHalf)).joinNeighbours joinUp) := by
  simp only [answer, runs, hup, hdown, bind, Except.bind]
  rfl

theorem runsDown_of_ok : answer ask _ .runsDown =
    .ok ((merge (fun a b => b.last ≤ a.last) (down.filterMap upperHalf)
      (up.filterMap lowerHalf)).joinNeighbours joinDown) := by
  simp only [answer, runsDown, hup, hdown, bind, Except.bind]
  rfl

end Sources

section Halves

variable {l : List Span} (hl : Spaced l) (hV : ∀ v, v ∈ V ↔ Covered l v) (hinv : Invertible V)

theorem filterMap_upperHalf (l : List Span) :
    (ofList l).filterMap upperHalf = ofList (l.filterMap upperPart) :=
  filterMap_ofList fun a _ => upperHalf_eq a

include hl hV hinv

theorem lowerHalf_of_mem {a : Span} (ha : a ∈ l) : lowerHalf a = (lowerPart a).map .ok := by
  obtain ⟨-, hfirst, -, hlast⟩ := ends_inRange hl hV hinv ha
  exact lowerHalf_eq hfirst hlast

theorem filterMap_lowerHalf :
    (ofList l).filterMap lowerHalf = ofList (l.filterMap lowerPart) :=
  filterMap_ofList fun _ ha => lowerHalf_of_mem hl hV hinv ha

theorem filterMap_lowerHalf_reverse :
    (ofList l.reverse).filterMap lowerHalf = ofList (l.reverse.filterMap lowerPart) :=
  filterMap_ofList fun _ ha => lowerHalf_of_mem hl hV hinv (List.mem_reverse.1 ha)

end Halves

/-- A view of values with listed runs lists the runs of their absolute values. -/
theorem listsRuns_answer (h : ListsRuns ask V) (hinv : Invertible V) (hjoin : Joinable V) :
    ListsRuns (answer ask) (image V) := by
  obtain ⟨l, hup, hdown, hl, hV⟩ := h
  obtain ⟨l', hup', hdown', hl', hV'⟩ := exists_joined (folded_upperParts hl hV hinv)
    (folded_lowerParts hl hV hinv) (fun v => mem_image_iff_covered hV)
    ((joinable_iff_fits hl hV).1 hjoin)
  refine ⟨l', ?_, ?_, hl', hV'⟩
  · rw [runs_of_ok hup hdown, filterMap_upperHalf, filterMap_lowerHalf_reverse hl hV hinv, hup']
  · rw [runsDown_of_ok hup hdown, filterMap_upperHalf, filterMap_lowerHalf hl hV hinv, ← hdown',
      ← List.filterMap_reverse, ← List.filterMap_reverse, List.reverse_reverse]

/-- The listing upwards comes to its end only if the greatest machine value is not in the way. -/
theorem joinable_of_complete (h : ListsRuns ask V) (hinv : Invertible V)
    {up : Enumeration Span} (hup : answer ask _ .runs = .ok up) (hcomplete : up.Complete) :
    Joinable V := by
  obtain ⟨l, hasked, hasked', hl, hV⟩ := h
  rw [runs_of_ok hasked hasked', filterMap_upperHalf, filterMap_lowerHalf_reverse hl hV hinv] at hup
  rw [← Except.ok.inj hup] at hcomplete
  exact (joinable_iff_fits hl hV).2 (fits_of_complete (folded_upperParts hl hV hinv).toSpaced
    (folded_lowerParts hl hV hinv).toSpaced hcomplete)

/-- The listing downwards comes to its end exactly if the greatest machine value is not met twice. -/
theorem complete_runsDown_iff (h : ListsRuns ask V) (hinv : Invertible V)
    {down : Enumeration Span} (hdown : answer ask _ .runsDown = .ok down) :
    down.Complete ↔ JoinableDown V := by
  obtain ⟨l, hasked, hasked', hl, hV⟩ := h
  have hP := folded_upperParts hl hV hinv
  have hN := folded_lowerParts hl hV hinv
  rw [runsDown_of_ok hasked hasked', filterMap_upperHalf, filterMap_lowerHalf hl hV hinv,
    ← List.reverse_reverse (l.filterMap lowerPart), ← List.filterMap_reverse,
    List.filterMap_reverse (l := l) (f := upperPart)] at hdown
  obtain rfl := Except.ok.inj hdown
  rw [joinableDown_iff_fitsDown hl hV hinv]
  refine ⟨fitsDown_of_complete hP.toSpaced hN.toSpaced, fun hfits => ?_⟩
  obtain ⟨l', hl', -⟩ := exists_joined_down hP hN (fun v => mem_image_iff_covered hV) hfits
  rw [hl']
  exact complete_ofList _

end Absolute

theorem Domains.listsRuns_answer {s : Domains} {id : DomainId} {d : Domain}
    (hd : s.table.get? id = some d) (h : d.WellFormed) : ListsRuns (s.answer id) d.members := by
  obtain ⟨l, hup, hdown, hsorted, hmem⟩ := Domain.runs_eq h
  refine ⟨l, ?_, ?_, ⟨fun r hr => ((hmem r).1 hr).1, ?_⟩, fun v => ⟨fun hv => ?_, ?_⟩⟩
  · simp only [answer, domain_eq hd, bind, Except.bind, eq_ofList hup]
    rfl
  · simp only [answer, domain_eq hd, bind, Except.bind, eq_ofList hdown]
    rfl
  · refine hsorted.imp_of_mem fun ha hb hab => lt_of_le_of_ne hab fun he => ?_
    exact ((hmem _).1 ha).2.2.2 (he ▸ ((hmem _).1 hb).first_mem)
  · obtain ⟨r, hr, hfirst, hlast⟩ := Domain.exists_isRun h hv
    exact ⟨r, (hmem r).2 hr, hfirst, hlast⟩
  · rintro ⟨r, hr, hfirst, hlast⟩
    exact ((hmem r).1 hr).2.1 v hfirst hlast

/-- A view of whatever nesting lists its runs. What lies below a view of a view has one sign, so only
the members at the bottom can be in the way. -/
theorem Variable.listsRuns_answer {s : Domains} (hwf : s.table.WellFormed) {y : Variable}
    {d : Domain} (hd : s.table.get? y.base = some d) (hleast : Value.least ∉ d.members)
    (hjoin : Absolute.Joinable d.members) :
    ListsRuns ((abs y).answer s) (Absolute.image d.members) := by
  have hinv := invertible_members (hwf _ d hd) hleast
  induction y with
  | domain id =>
      exact Absolute.listsRuns_answer (Domains.listsRuns_answer hd (hwf _ d hd)) hinv hjoin
  | abs x ih =>
      have himage : Absolute.image (Absolute.image d.members) = Absolute.image d.members :=
        calc Absolute.image (Absolute.image d.members)
            = Absolute.image ((abs x).current s.table) := by rw [current_abs_eq (y := x) hd]
          _ = (abs (.abs x)).current s.table := (current_abs _ _).symm
          _ = Absolute.image d.members := current_abs_eq (y := .abs x) hd
      rw [← himage]
      exact Absolute.listsRuns_answer (ih hd) hinv.image (Absolute.joinable_image _)

/-- What has to hold of the members at the bottom for the view of `y` to list its runs downwards to
their end. A view of a view goes through the listings of the view below in both directions. -/
def Variable.JoinableDown : Variable → Finset Int → Prop
  | .domain _, V => Absolute.JoinableDown V
  | .abs _, V => Absolute.Joinable V

/-- Where the members at the bottom are in the way, the listing of a view meets a fault, upwards at any
depth and downwards below a view of a view. -/
theorem Variable.complete_iff {s : Domains} (hwf : s.table.WellFormed) {y : Variable}
    {d : Domain} (hd : s.table.get? y.base = some d) (hleast : Value.least ∉ d.members) :
    ∃ up down, (abs y).answer s _ .runs = .ok up ∧ (abs y).answer s _ .runsDown = .ok down ∧
      (up.Complete ↔ Absolute.Joinable d.members) ∧
      (down.Complete ↔ y.JoinableDown d.members) := by
  have hinv := invertible_members (hwf _ d hd) hleast
  have hlisted : ∀ {x : Variable} {up down : Enumeration Span}, s.table.get? x.base = some d →
      (abs x).answer s _ .runs = .ok up → (abs x).answer s _ .runsDown = .ok down →
      Absolute.Joinable d.members → up.Complete ∧ down.Complete := by
    intro x up down hd hup hdown hjoin
    obtain ⟨l, hup', hdown', -⟩ := listsRuns_answer hwf hd hleast hjoin
    obtain rfl := Except.ok.inj (hup.symm.trans hup')
    obtain rfl := Except.ok.inj (hdown.symm.trans hdown')
    exact ⟨complete_ofList l, complete_ofList l.reverse⟩
  induction y with
  | domain id =>
      have hlists := Domains.listsRuns_answer hd (hwf _ d hd)
      have ⟨l, hup, hdown, _⟩ := hlists
      have hruns := Absolute.runs_of_ok hup hdown
      have hrunsDown := Absolute.runsDown_of_ok hup hdown
      exact ⟨_, _, hruns, hrunsDown,
        ⟨Absolute.joinable_of_complete hlists hinv hruns, fun hjoin =>
          (hlisted (x := .domain id) hd hruns hrunsDown hjoin).1⟩,
        Absolute.complete_runsDown_iff hlists hinv hrunsDown⟩
  | abs x ih =>
      obtain ⟨up, down, hup, hdown, hjoin, -⟩ := ih hd
      have hruns := Absolute.runs_of_ok hup hdown
      have hrunsDown := Absolute.runsDown_of_ok hup hdown
      exact ⟨_, _, hruns, hrunsDown,
        ⟨fun hcomplete => hjoin.1 hcomplete.of_joinNeighbours.of_merge.of_filterMap, fun hj =>
          (hlisted (x := .abs x) hd hruns hrunsDown hj).1⟩,
        ⟨fun hcomplete => hjoin.1 hcomplete.of_joinNeighbours.of_merge_right.of_filterMap, fun hj =>
          (hlisted (x := .abs x) hd hruns hrunsDown hj).2⟩⟩

/-! ### States that a run leads to -/

namespace Domains.Reachable

variable {s : Domains} (hs : s.Reachable)
include hs

/-- Where no member is at the ends of the machine values, a view of whatever nesting lists the
maximal runs of its values upwards, with a gap between any two, and the same runs downwards. -/
theorem runs_view {y : Variable} {d : Domain} (hd : s.table.get? y.base = some d)
    (hrange : ∀ v ∈ d.members, -Value.greatest < v ∧ v < Value.greatest) :
    ∃ up down l, (Variable.abs y).answer s _ .runs = .ok up ∧
      (Variable.abs y).answer s _ .runsDown = .ok down ∧
      up.toList = .ok l ∧ down.toList = .ok l.reverse ∧
      l.Pairwise (fun a b => a.last + 1 < b.first) ∧
      ∀ r, r ∈ l ↔ r.IsRun (Absolute.image d.members) := by
  have hleast : Value.least ∉ d.members := fun hmem =>
    absurd (hrange _ hmem).1 (by decide)
  have hgreatest : Value.greatest ∉ Absolute.image d.members := fun hmem => by
    rcases (Absolute.mem_image.1 hmem).2 with hmem | hmem
    · exact lt_irrefl _ (hrange _ hmem).2
    · exact lt_irrefl _ (hrange _ hmem).1
  obtain ⟨l, hup, hdown, hl, hV⟩ := Variable.listsRuns_answer hs.traced.wellFormed hd hleast
    (Absolute.joinable_of_notMem (Variable.invertible_members (hs.traced.wellFormed _ d hd) hleast)
      hgreatest)
  exact ⟨_, _, l, hup, hdown, toList_ofList l, toList_ofList l.reverse, hl.gaps, hl.mem_iff hV⟩

omit hs in
theorem runs_view_scarred :
    scarred.Reachable ∧ scarred.table.get? ⟨0⟩ = some cropped ∧
      (∀ v ∈ cropped.members, -Value.greatest < v ∧ v < Value.greatest) ∧
      ∃ up down l, (Variable.abs (.abs (.domain ⟨0⟩))).answer scarred _ .runs = .ok up ∧
        (Variable.abs (.abs (.domain ⟨0⟩))).answer scarred _ .runsDown = .ok down ∧
        up.toList = .ok l ∧ down.toList = .ok l.reverse ∧
        l.Pairwise (fun a b => a.last + 1 < b.first) ∧
        ∀ r, r ∈ l ↔ r.IsRun (Absolute.image cropped.members) :=
  ⟨reachable_scarred, by decide, by decide,
    runs_view reachable_scarred (y := .abs (.domain ⟨0⟩)) (by decide) (by decide)⟩

end Domains.Reachable

end Narrowing
