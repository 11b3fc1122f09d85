import Narrowing.Among.Propagator
import Narrowing.Proofs.Cell.Restoring
import Narrowing.Proofs.Engine.Run

/-!
What a restore gives back. What a return to a level would give is fixed when the level is left for
the next one: nothing that is done above the level changes it, and what is made there is added to
it as it is when it is made. A restore gives exactly that, and never fails.
-/

namespace Narrowing

namespace Cells

/-- What every change of a cell keeps, every action of a propagator keeps. -/
theorem ends_run {ν α : Type} {Q : Cells → Prop}
    (hQ : ∀ {s s' : Cells} {op : CellOp} {b : Bool}, Q s → s.perform op = .ok (b, s') → Q s')
    (self : PropagatorId) (action : Action ν α) {w : Workspace ν} (h : Q w.cells) :
    Ends (action.run self) w (fun _ w' => Q w'.cells) fun _ w' => Q w'.cells :=
  action.writes_all.ends (fun _ => hQ) h

/-- `s'` came from `s` without a change of what a rewind to level `k` gives back; it may have more
cells. -/
structure Upholds (k : Nat) (s s' : Cells) : Prop where
  integers : ∀ c cell, (s.past k).integers.get? c = some cell →
    (s'.past k).integers.get? c = some cell
  places_eq : (s'.past k).places = (s.past k).places
  sets_le : s.sets.size ≤ s'.sets.size

variable {k : Nat} {s s' s'' : Cells}

theorem Upholds.trans (h : Upholds k s s') (h' : Upholds k s' s'') : Upholds k s s'' :=
  ⟨fun c cell hc => h'.integers c cell (h.integers c cell hc), h'.places_eq.trans h.places_eq,
    Nat.le_trans h.sets_le h'.sets_le⟩

theorem Upholds.of_eq (h : s'.past k = s.past k) (hsets : s'.sets.size = s.sets.size) :
    Upholds k s s' :=
  ⟨fun _ _ hc => h ▸ hc, congrArg Contents.places h, Nat.le_of_eq hsets.symm⟩

/-- `s'` has the cells of `s` and new ones, which a rewind to level `k` leaves as they are. -/
structure Grows (k : Nat) (s s' : Cells) : Prop extends Upholds k s s' where
  restorable : s'.Restorable
  level_eq : s'.level = s.level
  new_integers : ∀ c : CellId, s.integers.size ≤ c.index →
    (s'.past k).integers.get? c = s'.integers.get? c
  places_eq' : s'.places = s.places

theorem Grows.refl (h : s.Restorable) : Grows k s s where
  toUpholds := .of_eq rfl rfl
  restorable := h
  level_eq := rfl
  new_integers c hc := by
    have hpast : (s.past k).integers.size ≤ c.index := by
      rw [past, Contents.size_foldl_undo]
      exact hc
    rw [(Table.get?_eq_none_iff _ c).2 hpast, (Table.get?_eq_none_iff _ c).2 hc]
  places_eq' := rfl

theorem Grows.newInteger (h : Grows k s s') (v : Int) : Grows k s (s'.newInteger v) := by
  have hpast := past_newInteger h.restorable.wellFormed v k
  have hsize : (s'.past k).integers.size = s'.integers.size := Contents.size_foldl_undo _ _
  have hplaces : ((s'.newInteger v).past k).places = (s'.past k).places := by
    rw [hpast]
    rfl
  refine ⟨h.toUpholds.trans ⟨fun c cell hc => ?_, hplaces, Nat.le_refl _⟩, h.restorable.newInteger v,
    h.level_eq, fun c hc => ?_, h.places_eq'⟩
  · rw [hpast]
    exact (Table.get?_push_of_lt _ _ (Table.lt_size_of_get? hc)).trans hc
  · rw [hpast]
    change ((s'.past k).integers.push ⟨v, none⟩).get? c = (s'.integers.push ⟨v, none⟩).get? c
    rw [Table.get?_push, Table.get?_push, hsize, h.new_integers c hc]

theorem Grows.newSet (h : Grows k s s') (n : Nat) : Grows k s (s'.newSet n) := by
  have hpast := past_newSet s' n k
  refine ⟨h.toUpholds.trans ⟨fun c cell hc => hpast ▸ hc, congrArg Contents.places hpast, ?_⟩,
    h.restorable.newSet n, h.level_eq, fun c hc => ?_, ?_⟩
  · exact Nat.le_of_lt (Nat.lt_of_lt_of_eq (Nat.lt_succ_self _) (Table.size_push _ _).symm)
  · rw [hpast]
    exact h.new_integers c hc
  · exact (congrArg Contents.places (contents_newSet s' n)).trans h.places_eq'

theorem Grows.newCells (h : Grows k s s') (integers : List Int) (sets : List Nat) :
    Grows k s (sets.foldl Cells.newSet (integers.foldl Cells.newInteger s')) := by
  induction integers generalizing s' with
  | cons v rest ih => exact ih (h.newInteger v)
  | nil =>
      change Grows k s (sets.foldl Cells.newSet s')
      induction sets generalizing s' with
      | nil => exact h
      | cons n rest ih => exact ih (h.newSet n)

end Cells

namespace Engine

variable {P : Type} [Propagator P]

/-- An engine whose domains and cells can be trusted, and can be given back. -/
structure Trusted (e : Engine P) : Prop where
  consistent : Consistent e
  restorable : e.cells.Restorable

/-- `e'` came from `e` by work in the current frame. -/
structure Inside (e e' : Engine P) : Prop where
  trusted : Trusted e'
  earlier_eq : e'.domains.trail.earlier = e.domains.trail.earlier
  size_eq : e'.domains.table.size = e.domains.table.size
  cells_size_eq : e'.cells.integers.size = e.cells.integers.size ∧
    e'.cells.sets.size = e.cells.sets.size
  past_eq : ∀ k < e.level, e'.domains.past k = e.domains.past k
  cells_past_eq : ∀ k < e.level, e'.cells.past k = e.cells.past k

namespace Inside

variable {e₀ e e' : Engine P}

theorem refl (h : Trusted e) : Inside e e := ⟨h, rfl, rfl, ⟨rfl, rfl⟩, fun _ _ => rfl, fun _ _ => rfl⟩

theorem level_eq (h : Inside e e') : e'.level = e.level := congrArg List.length h.earlier_eq

/-- What is waiting does not matter. -/
theorem of_same (h : Inside e₀ e) (hc : Consistent e') (htable : e'.domains.table = e.domains.table)
    (htrail : e'.domains.trail = e.domains.trail) (hcells : e'.cells = e.cells) : Inside e₀ e' where
  trusted := ⟨hc, hcells ▸ h.trusted.restorable⟩
  earlier_eq := htrail ▸ h.earlier_eq
  size_eq := htable ▸ h.size_eq
  cells_size_eq := hcells ▸ h.cells_size_eq
  past_eq k hk := by
    rw [← h.past_eq k hk, Domains.past, htable, htrail]
    rfl
  cells_past_eq k hk := hcells ▸ h.cells_past_eq k hk

theorem worked (h : Inside e₀ e) {cause : Cause} {w : Workspace (Propagator.Note P)}
    (hp : Workspace.Progress cause e.toWorkspace w) (hr : w.cells.Restorable) :
    Inside e₀ (e.worked w) where
  trusted := ⟨h.trusted.consistent.worked hp, hr⟩
  earlier_eq := hp.narrows.trail_eq.2.trans h.earlier_eq
  size_eq := hp.narrows.size_eq.trans h.size_eq
  cells_size_eq := ⟨hp.evolves.size_eq.1.trans h.cells_size_eq.1,
    hp.evolves.size_eq.2.trans h.cells_size_eq.2⟩
  past_eq k hk := by
    have hk' : k < e.domains.level := hk.trans_eq h.level_eq.symm
    exact (hp.narrows.past_eq h.trusted.consistent.workspace.table hk').trans (h.past_eq k hk)
  cells_past_eq k hk := by
    have hk' : k < e.cells.level := by
      rw [h.trusted.consistent.workspace.level_eq]
      exact hk.trans_eq h.level_eq.symm
    exact (hp.evolves.past_eq k hk').trans (h.cells_past_eq k hk)

theorem answered (h : Inside e₀ e) (id : PropagatorId) (p : P) (response : Response) :
    Inside e₀ (e.answered id p response) := by
  cases response with
  | skip => exact h
  | enqueue => exact h.of_same (h.trusted.consistent.answered id p .enqueue) rfl rfl rfl

theorem failed (h : Inside e₀ e) (c : Contradiction) : Inside e₀ (e.fail c) :=
  h.of_same (h.trusted.consistent.failed c) rfl rfl rfl

end Inside

/-- Propagation works in the current frame only. -/
theorem closed_inside (e₀ : Engine P) : Closed (Inside e₀) (Inside e₀) := by
  have hact : ∀ {e : Engine P} {α : Type} (id : PropagatorId)
      (action : Action (Propagator.Note P) α), Inside e₀ e →
      Ends (action.run id) e.toWorkspace (fun _ w => Inside e₀ (e.worked w))
        fun _ w => Inside e₀ (e.worked w) := by
    intro e α id action h
    exact ((action.progress h.trusted.consistent.workspace).and
      (Cells.ends_run (fun hs hop => hs.perform hop) id action h.trusted.restorable)).mono
      (fun _ w hw => h.worked hw.1 hw.2) fun _ w hw => h.worked hw.1 hw.2
  refine ⟨fun h _ => h.of_same (h.trusted.consistent.told _) rfl rfl rfl, ?_, ?_⟩
  · intro e l events rest p h _ _ _
    have hd := h.of_same (h.trusted.consistent.delivered rest) rfl rfl rfl
    exact (hact _ _ hd).mono (fun response w hw => hw.answered _ _ response) fun _ w hw _ _ => hw
  · intro e r rest p h _ hr _
    have hm := h.of_same (h.trusted.consistent.met hr) rfl rfl rfl
    exact (hact _ _ hm).mono (fun _ w hw => hw) fun _ w hw _ _ => hw

theorem Inside.of_settle {e e' : Engine P} (h : Trusted e) {r : Except Contradiction Unit}
    (hs : Engine.settle e = .ok r e') : Inside e e' :=
  (closed_inside e).settle (fun c h => h.failed c) (.refl h) hs

/-- `e'` came from `e` without a change of what a return to level `k` gives back; it may have more
domains and cells. -/
structure Upholds (k : Nat) (e e' : Engine P) : Prop where
  domains : ∀ id d, (e.domains.past k).get? id = some d → (e'.domains.past k).get? id = some d
  cells : e.cells.Upholds k e'.cells
  trail_eq : e'.domains.trail.below k = e.domains.trail.below k

/-- The domains, integers and sets with these numbers or later ones are given back by a return to
level `k` as they are. -/
structure Stores (k : Nat) (e : Engine P) (domains integers sets : Nat) : Prop where
  domains : ∀ id : DomainId, domains ≤ id.index →
    (e.domains.past k).get? id = e.domains.table.get? id
  integers : ∀ c : CellId, integers ≤ c.index →
    (e.cells.past k).integers.get? c = e.cells.integers.get? c
  sets : ∀ j : SetId, sets ≤ j.index → (e.cells.past k).places j = e.cells.places j

section Upholds

variable {k : Nat} {e e' e'' : Engine P}

theorem Upholds.trans (h : Upholds k e e') (h' : Upholds k e' e'') : Upholds k e e'' :=
  ⟨fun id d hd => h'.domains id d (h.domains id d hd), h.cells.trans h'.cells,
    h'.trail_eq.trans h.trail_eq⟩

theorem Upholds.of_eq (hdomains : e'.domains.past k = e.domains.past k)
    (hcells : e'.cells.past k = e.cells.past k) (hsets : e'.cells.sets.size = e.cells.sets.size)
    (htrail : e'.domains.trail.below k = e.domains.trail.below k) : Upholds k e e' :=
  ⟨fun _ _ hd => hdomains ▸ hd, .of_eq hcells hsets, htrail⟩

theorem Upholds.of_inside (h : Inside e e') (hk : k < e.level) : Upholds k e e' :=
  .of_eq (h.past_eq k hk) (h.cells_past_eq k hk) h.cells_size_eq.2
    (Trail.below_eq_of_earlier h.earlier_eq (hk.trans_eq h.level_eq.symm))

/-- What is not there is given back as such. -/
theorem stores_of_size_eq (h : Trusted e) (hdomains : e'.domains.table.size = e.domains.table.size)
    (hcells : e'.cells.integers.size = e.cells.integers.size ∧
      e'.cells.sets.size = e.cells.sets.size) :
    Stores k e e'.domains.table.size e'.cells.integers.size e'.cells.sets.size where
  domains id hid := by
    rw [hdomains] at hid
    rw [(Table.get?_eq_none_iff _ id).2 hid, Table.get?_eq_none_iff, Domains.size_past]
    exact hid
  integers c hc := by
    rw [hcells.1] at hc
    rw [(Table.get?_eq_none_iff _ c).2 hc, Table.get?_eq_none_iff, Cells.past,
      Contents.size_foldl_undo]
    exact hc
  sets j hj := by
    rw [hcells.2] at hj
    rw [h.restorable.places_past_of_le hj, Cells.places, (Table.get?_eq_none_iff _ j).2 hj]
    rfl

end Upholds

/-- Everything is given back as it is by a return to the current level from the next one. -/
theorem stores_level {e : Engine P} (h : Consistent e) : Stores e.level e 0 0 0 := by
  have hdomains := Domains.past_level e.domains
  have hcells := Cells.past_level e.cells
  rw [h.workspace.level_eq] at hcells
  refine ⟨fun id _ => ?_, fun c _ => ?_, fun j _ => ?_⟩
  · exact congrArg (Table.get? · id) hdomains
  · exact congrArg (fun C => Table.get? C.integers c) hcells
  · exact congrArg (fun C => Contents.places C j) hcells

namespace Trusted

variable {e e' : Engine P} (h : Trusted e)
include h

theorem grown {d : Domain} (hd : d.WellFormed) (k : Nat) : Trusted (e.grown d) ∧
    Upholds k e (e.grown d) ∧
    Stores k (e.grown d) e.domains.table.size e.cells.integers.size e.cells.sets.size := by
  have hpast : (e.grown d).domains.past k = (e.domains.past k).push d :=
    Domains.past_push _ h.consistent.workspace.recorded d k
  have hsame : Stores k e e.domains.table.size e.cells.integers.size e.cells.sets.size :=
    stores_of_size_eq h rfl ⟨rfl, rfl⟩
  refine ⟨⟨h.consistent.grown hd, h.restorable⟩, ⟨fun id d' hd' => ?_, .of_eq rfl rfl, rfl⟩,
    ⟨fun id hid => ?_, hsame.integers, hsame.sets⟩⟩
  · rw [hpast]
    exact (Table.get?_push_of_lt _ _ (Table.lt_size_of_get? hd')).trans hd'
  · rw [hpast, Table.get?_push, Domains.size_past, hsame.domains id hid, ← Table.get?_push]
    rfl

theorem joined {p : Posting P} {notifier : Notifier} {journal : Array (Message (Propagator.Note P))}
    (hwatched : Watched e.notifier notifier e.propagators.nextKey p.interests) (k : Nat) :
    Trusted (e.joined p notifier journal) ∧ Upholds k e (e.joined p notifier journal) ∧
      Stores k (e.joined p notifier journal) e.domains.table.size e.cells.integers.size
        e.cells.sets.size := by
  have hgrows := (Cells.Grows.refl (k := k) h.restorable).newCells p.integers p.sets
  have hsame : Stores k e e.domains.table.size e.cells.integers.size e.cells.sets.size :=
    stores_of_size_eq h rfl ⟨rfl, rfl⟩
  refine ⟨⟨h.consistent.joined hwatched, hgrows.restorable⟩,
    ⟨fun _ _ hd => hd, hgrows.toUpholds, rfl⟩, ⟨hsame.domains, hgrows.new_integers, fun j hj => ?_⟩⟩
  exact (congrFun hgrows.places_eq j).trans ((hsame.sets j hj).trans
    (congrFun hgrows.places_eq' j).symm)

theorem marked (journal : Array (Message (Propagator.Note P))) {k : Nat} (hk : k ≤ e.level) :
    Trusted (e.entered journal) ∧ Upholds k e (e.entered journal) := by
  refine ⟨⟨h.consistent.marked journal, h.restorable.mark⟩, .of_eq (Domains.past_mark _ hk)
    (Cells.past_mark _ ?_) rfl (Trail.below_mark_of_le _ hk)⟩
  rw [h.consistent.workspace.level_eq]
  exact hk

theorem rewound {j : Nat} {domains : Domains} {cells : Cells}
    {journal : Array (Message (Propagator.Note P))} (hdomains : e.domains.rewind j = .ok domains)
    (hcells : e.cells.rewind j = .ok cells) {k : Nat} (hk : k ≤ j) :
    Trusted (e.rewound domains cells journal) ∧ Upholds k e (e.rewound domains cells journal) := by
  obtain ⟨hj, hwf, -, -, hsize, hpast⟩ := Cells.rewind_eq_ok h.restorable.wellFormed hcells
  obtain ⟨cells', hcells', hrestorable, -⟩ := h.restorable.exists_rewind hj
  obtain rfl := Except.ok.inj (hcells.symm.trans hcells')
  obtain ⟨hj', -, htrail, -⟩ := Domains.rewind_eq_ok hdomains
  refine ⟨⟨h.consistent.rewound hdomains hcells, hrestorable⟩,
    .of_eq (Domains.past_of_rewind hdomains hk) (hpast k hk) hsize.2 ?_⟩
  change domains.trail.below k = _
  rw [htrail, Trail.below_below _ hk (Nat.le_of_lt hj')]

/-- Whatever a move does, the engine can be trusted afterwards. -/
theorem outcome {move : Move P} {settled : Bool} (hrange : move.InRange)
    (ho : Outcome e move settled e') : Trusted e' := by
  refine ⟨h.consistent.outcome hrange ho, ?_⟩
  cases ho with
  | joined hwatched => exact (h.joined hwatched 0).1.restorable
  | constrained _ hwatched hsettle =>
      exact (Inside.of_settle (h.joined hwatched 0).1 hsettle).trusted.restorable
  | settled hsettle => exact (Inside.of_settle h hsettle).trusted.restorable
  | marked _ _ _ => exact h.restorable.mark
  | rewound hdomains hcells => exact (h.rewound hdomains hcells (Nat.zero_le _)).1.restorable
  | _ => exact h.restorable

/-- Above a level, a move changes nothing of what a return to it gives back, and what the move makes
is given back as it is made. -/
theorem upholds {move : Move P} {settled : Bool} (hrange : move.InRange)
    (ho : Outcome e move settled e') {k : Nat} (hk : k < e.level) (hk' : k < e'.level) :
    Upholds k e e' ∧
      Stores k e' e.domains.table.size e.cells.integers.size e.cells.sets.size := by
  have htrusted := h.outcome hrange ho
  cases ho with
  | unchanged => exact ⟨.of_eq rfl rfl rfl rfl, stores_of_size_eq h rfl ⟨rfl, rfl⟩⟩
  | grown hd => exact (h.grown (hd hrange) k).2
  | joined hwatched => exact (h.joined hwatched k).2
  | constrained hroot _ _ => exact absurd (hroot ▸ hk) (Nat.not_lt_zero k)
  | replaced => exact ⟨.of_eq rfl rfl rfl rfl, stores_of_size_eq htrusted rfl ⟨rfl, rfl⟩⟩
  | @narrowed x r domains hn =>
      have hinside : Inside e { e with domains } :=
        (Inside.refl h).worked (w := ⟨domains, e.cells, e.journal⟩)
          ⟨hn.mono fun _ _ => trivial, .refl h.restorable.wellFormed⟩ h.restorable
      exact ⟨.of_inside hinside hk, stores_of_size_eq htrusted hinside.size_eq.symm ⟨rfl, rfl⟩⟩
  | forced _ => exact ⟨.of_eq rfl rfl rfl rfl, stores_of_size_eq htrusted rfl ⟨rfl, rfl⟩⟩
  | settled hsettle =>
      have hinside := Inside.of_settle h hsettle
      exact ⟨.of_inside hinside hk, stores_of_size_eq htrusted hinside.size_eq.symm
        ⟨hinside.cells_size_eq.1.symm, hinside.cells_size_eq.2.symm⟩⟩
  | marked _ _ _ =>
      exact ⟨(h.marked _ (Nat.le_of_lt hk)).2, stores_of_size_eq htrusted rfl ⟨rfl, rfl⟩⟩
  | @rewound _ j domains cells journal hdomains hcells =>
      obtain ⟨hj, htable, htrail, -⟩ := Domains.rewind_eq_ok hdomains
      obtain ⟨-, -, -, -, hsize, -⟩ := Cells.rewind_eq_ok h.restorable.wellFormed hcells
      have hlevel : (e.rewound domains cells journal).level = j := by
        change domains.trail.level = j
        rw [htrail, Trail.level_below _ (Nat.le_of_lt hj)]
      refine ⟨(h.rewound hdomains hcells (Nat.le_of_lt (hlevel ▸ hk'))).2,
        stores_of_size_eq htrusted ?_ ⟨hsize.1.symm, hsize.2.symm⟩⟩
      change e.domains.table.size = domains.table.size
      rw [htable, Domains.size_past]

/-- Only a new checkpoint leads to a higher level. -/
theorem level_le {move : Move P} {settled : Bool} (ho : Outcome e move settled e') :
    e'.level ≤ e.level ∨ (move = .newCheckpoint ∧ e'.level = e.level + 1) := by
  cases ho with
  | constrained _ hwatched hsettle =>
      exact Or.inl (Nat.le_of_eq (Inside.of_settle (h.joined hwatched 0).1 hsettle).level_eq)
  | narrowed hn => exact Or.inl (Nat.le_of_eq hn.trail_eq.1)
  | settled hsettle => exact Or.inl (Nat.le_of_eq (Inside.of_settle h hsettle).level_eq)
  | marked _ _ _ => exact Or.inr ⟨rfl, Domains.level_mark _⟩
  | rewound hdomains hcells =>
      obtain ⟨hj, -, htrail, -⟩ := Domains.rewind_eq_ok hdomains
      have hlevel := (congrArg Trail.level htrail).trans (Trail.level_below _ (Nat.le_of_lt hj))
      exact Or.inl (Nat.le_of_lt (hlevel.trans_lt hj))
  | _ => exact Or.inl (Nat.le_refl _)

end Trusted

/-! ### Runs above a level -/

variable {rules : Rules P} {skipsOwn : Bool} {k : Nat} {m m' m'' : Moment P}

/-- A move allowed by the rules, made while the level is above `k`, and that does not lead back to
`k` or below. -/
structure StepAbove (rules : Rules P) (k : Nat) (m m' : Moment P) : Prop where
  move : ∃ move : Move P, move.InRange ∧ rules.Permit m move ∧
    move.play m.engine = .ok m'.settled m'.engine
  level_lt : k < m.engine.level ∧ k < m'.engine.level

/-- Moves allowed by the rules lead from one moment to another, and level `k` is not returned to. -/
inductive LeadsAbove (rules : Rules P) (k : Nat) (m : Moment P) : Moment P → Prop
  | refl : LeadsAbove rules k m m
  | step {m' m'' : Moment P} (h : LeadsAbove rules k m m') (hstep : StepAbove rules k m' m'') :
      LeadsAbove rules k m m''

/-- At `m₀`, a moment of a run, level `k` was left for the next one, and it was not returned to on
the way to `m`. -/
structure Leaves (rules : Rules P) (skipsOwn : Bool) (k : Nat) (m₀ m : Moment P) : Prop where
  reached : Reached rules skipsOwn m₀
  level_eq : m₀.engine.level = k
  opens : ∃ e, newCheckpoint m₀.engine = .ok () e ∧ LeadsAbove rules k ⟨e, false⟩ m

theorem Reached.trusted (h : Reached rules skipsOwn m) : Trusted m.engine := by
  induction h with
  | refl => exact ⟨consistent_init skipsOwn, Cells.restorable_init⟩
  | step _ hrange _ hplay ih =>
      exact ih.outcome hrange (outcome_of_play ih.consistent.workspace.table hplay)

theorem StepAbove.upholds (hstep : StepAbove rules k m m') (h : Trusted m.engine) :
    Trusted m'.engine ∧ Upholds k m.engine m'.engine ∧
      Stores k m'.engine m.engine.domains.table.size m.engine.cells.integers.size
        m.engine.cells.sets.size := by
  obtain ⟨⟨move, hrange, -, hplay⟩, hk, hk'⟩ := hstep
  have ho := outcome_of_play h.consistent.workspace.table hplay
  exact ⟨h.outcome hrange ho, h.upholds hrange ho hk hk'⟩

theorem LeadsAbove.upholds (hleads : LeadsAbove rules k m m') (h : Trusted m.engine) :
    Trusted m'.engine ∧ Upholds k m.engine m'.engine := by
  induction hleads with
  | refl => exact ⟨h, .of_eq rfl rfl rfl rfl⟩
  | step _ hstep ih =>
      obtain ⟨htrusted, hupholds, -⟩ := hstep.upholds ih.1
      exact ⟨htrusted, ih.2.trans hupholds⟩

/-- Every level below the current one was left once and not returned to. -/
theorem Reached.exists_leaves (h : Reached rules skipsOwn m) (hk : k < m.engine.level) :
    ∃ m₀, Leaves rules skipsOwn k m₀ m := by
  induction h with
  | refl => exact absurd hk (Nat.not_lt_zero k)
  | @step m' move settled e hleads hrange hpermit hplay ih =>
      have htrusted := Reached.trusted hleads
      have ho := outcome_of_play htrusted.consistent.workspace.table hplay
      by_cases hold : k < m'.engine.level
      · obtain ⟨m₀, hreached, hlevel, e₀, hopens, habove⟩ := ih hold
        exact ⟨m₀, hreached, hlevel, e₀, hopens,
          habove.step ⟨⟨move, hrange, hpermit, hplay⟩, hold, hk⟩⟩
      · rcases htrusted.level_le ho with hle | ⟨rfl, hlevel⟩
        · exact absurd (Nat.lt_of_lt_of_le hk hle) hold
        · have hlevel : e.level = m'.engine.level + 1 := hlevel
          have hk : k < e.level := hk
          have heq : m'.engine.level = k := by omega
          have hsettled : settled = false := by
            cases ho <;> rfl
          rw [hsettled]
          exact ⟨m', hleads, heq, e, newCheckpoint_of_play hplay, .refl⟩

/-! ### Restoring -/

theorem exists_cellChangesAbove {cells : Cells} {k n : Nat} (h : k + n ≤ cells.level) :
    ∃ changes, cellChangesAbove cells k n = .ok changes := by
  induction n generalizing k with
  | zero => exact ⟨0, rfl⟩
  | succ n ih =>
      obtain ⟨changes, hchanges⟩ := ih (k := k + 1) (by omega)
      obtain ⟨here, hhere⟩ : ∃ here, cells.changesAt (k + 1) = .ok here := by
        have hlevel : decide (k + 1 ≤ cells.trail.level) = true :=
          decide_eq_true (show k + 1 ≤ cells.level by omega)
        rw [Cells.changesAt, Trail.frame, demandSilently, if_pos hlevel]
        exact ⟨_, rfl⟩
      refine ⟨here + changes, ?_⟩
      rw [cellChangesAbove, hhere]
      change (cellChangesAbove cells (k + 1) n >>= _) = _
      rw [hchanges]
      rfl

/-- A restore to an earlier level never fails. -/
theorem Trusted.exists_restoreTo {e : Engine P} (h : Trusted e) {k : Nat} (hk : k < e.level) :
    ∃ domains cells journal, e.domains.rewind k = .ok domains ∧ e.cells.rewind k = .ok cells ∧
      restoreTo k e = .ok () (e.rewound domains cells journal) := by
  have hlevels : e.cells.level = e.level := h.consistent.workspace.level_eq
  obtain ⟨changes, hchanges⟩ : ∃ changes, cellChangesAbove e.cells k (e.level - k) = .ok changes :=
    exists_cellChangesAbove (by omega)
  obtain ⟨domains, hdomains⟩ := Domains.exists_rewind (s := e.domains) hk
  obtain ⟨cells, hcells, -⟩ := h.restorable.exists_rewind (hk.trans_eq hlevels.symm)
  refine ⟨domains, cells,
    e.journal.push (.restored k (e.domains.position - domains.position) changes),
    hdomains, hcells, ?_⟩
  have hle : decide (k ≤ e.level) = true := decide_eq_true (Nat.le_of_lt hk)
  refine (bind_of_ok rfl).trans ?_
  refine (bind_of_ok (checked_of_ok (if_pos hle))).trans ?_
  rw [if_neg (Nat.ne_of_lt hk)]
  refine (bind_of_ok (checked_of_ok hchanges)).trans ?_
  refine (bind_of_ok (checked_of_ok hdomains)).trans ?_
  exact bind_of_ok (checked_of_ok hcells)

/-- The domains, integers and sets of `e` with these numbers or later ones are in `e'` what they are
in `e`. -/
structure GivesBack (e e' : Engine P) (domains integers sets : Nat) : Prop where
  domains : ∀ id d, domains ≤ id.index → e.domains.table.get? id = some d →
    e'.domains.table.get? id = some d
  integers : ∀ c v, integers ≤ c.index → e.cells.read c = .ok v → e'.cells.read c = .ok v
  sets : ∀ j l, sets ≤ j.index → e.cells.members j = .ok l →
    ∃ l', e'.cells.members j = .ok l' ∧ l'.Perm l

/-- What was stored for a level is given back by a return to it. -/
theorem GivesBack.of_stores {e₁ e : Engine P} {domains integers sets : Nat}
    (hstores : Stores k e₁ domains integers sets) (hupholds : Upholds k e₁ e) (h₁ : Trusted e₁)
    (h : Trusted e) {s : Domains} {cells : Cells} {journal : Array (Message (Propagator.Note P))}
    (hs : e.domains.rewind k = .ok s) (hcells : e.cells.rewind k = .ok cells) :
    GivesBack e₁ (e.rewound s cells journal) domains integers sets := by
  obtain ⟨-, htable, -, -⟩ := Domains.rewind_eq_ok hs
  obtain ⟨-, hwf, -, hcontents, hsize, -⟩ := Cells.rewind_eq_ok h.restorable.wellFormed hcells
  refine ⟨fun id d hid hd => ?_, fun c v hc hv => ?_, fun j l hj hl => ?_⟩
  · change s.table.get? id = some d
    rw [htable]
    exact hupholds.domains id d ((hstores.domains id hid).trans hd)
  · obtain ⟨cell, hcell, hv⟩ := Checked.bind_eq_ok hv
    have hcell := (hstores.integers c hc).trans ((Table.fetch_eq_ok_iff _).1 hcell)
    have hnow : cells.integers.get? c = some cell := by
      rw [show cells.integers = (e.cells.past k).integers from congrArg Contents.integers hcontents]
      exact hupholds.cells.integers c cell hcell
    change (cells.integers.fetch c >>= fun cell => pure cell.value) = _
    rw [(Table.fetch_eq_ok_iff _).2 hnow]
    exact hv
  · obtain ⟨set, hset, -⟩ := Checked.bind_eq_ok hl
    have hlt : j.index < cells.sets.size := by
      rw [hsize.2]
      exact Nat.lt_of_lt_of_le (Table.lt_size_of_get? ((Table.fetch_eq_ok_iff _).1 hset))
        hupholds.cells.sets_le
    obtain ⟨set', hset'⟩ := cells.sets.exists_get? hlt
    have hl' : cells.members j = .ok set'.members := by
      rw [Cells.members, Cells.set, (Table.fetch_eq_ok_iff _).2 hset']
      rfl
    have hplaces : cells.places j = e₁.cells.places j := by
      rw [show cells.places = (e.cells.past k).places from congrArg Contents.places hcontents,
        hupholds.cells.places_eq]
      exact hstores.sets j hj
    obtain ⟨hnodup, hmem⟩ := Cells.members_eq_ok hl h₁.restorable.wellFormed
    obtain ⟨hnodup', hmem'⟩ := Cells.members_eq_ok hl' hwf
    refine ⟨set'.members, hl', (List.perm_ext_iff_of_nodup hnodup' hnodup).2 fun u => ?_⟩
    rw [hmem' u, hmem u]
    change u ∈ cells.places j ↔ u ∈ e₁.cells.places j
    rw [hplaces]

/-- **A restore returns to the end of its level.** From any moment of a run, a restore to a level
below the current one succeeds. Afterwards domains and cells are at that level and nothing is
pending; what there was when the level was last left is as it was then, and what was made since is
as it was made. -/
theorem restoreTo_gives_back (h : Reached rules skipsOwn m) (hk : k < m.engine.level) :
    ∃ e', restoreTo k m.engine = .ok () e' ∧ e'.domains.level = k ∧ e'.cells.level = k ∧
      e'.contradiction = none ∧ e'.Idle ∧ (∃ m₀, Leaves rules skipsOwn k m₀ m) ∧
      (∀ m₀, Leaves rules skipsOwn k m₀ m →
        e'.domains.trail = m₀.engine.domains.trail ∧ GivesBack m₀.engine e' 0 0 0) ∧
      ∀ m₁ m₂, Reached rules skipsOwn m₁ → StepAbove rules k m₁ m₂ → LeadsAbove rules k m₂ m →
        GivesBack m₂.engine e' m₁.engine.domains.table.size m₁.engine.cells.integers.size
          m₁.engine.cells.sets.size := by
  have htrusted := h.trusted
  obtain ⟨domains, cells, journal, hdomains, hcells, hrestore⟩ := htrusted.exists_restoreTo hk
  obtain ⟨-, -, htrail, hunreported⟩ := Domains.rewind_eq_ok hdomains
  obtain ⟨-, -, hlevel, -⟩ := Cells.rewind_eq_ok htrusted.restorable.wellFormed hcells
  refine ⟨_, hrestore, ?_, hlevel, rfl, ⟨hunreported, rfl, rfl⟩, h.exists_leaves hk, ?_, ?_⟩
  · exact (congrArg Trail.level htrail).trans (Trail.level_below _ (Nat.le_of_lt hk))
  · intro m₀ hleaves
    obtain ⟨hreached, rfl, e, hopens, habove⟩ := hleaves
    obtain ⟨-, -, -, journal₀, rfl⟩ := ends_newCheckpoint.of_ok hopens
    have h₀ := hreached.trusted
    obtain ⟨hentered, hmarked⟩ := h₀.marked journal₀ (Nat.le_refl _)
    have hupholds := hmarked.trans (habove.upholds hentered).2
    refine ⟨?_, .of_stores (stores_level h₀.consistent) hupholds h₀ htrusted hdomains hcells⟩
    exact htrail.trans (hupholds.trail_eq.trans (Trail.below_level _))
  · intro m₁ m₂ hreached hstep habove
    obtain ⟨h₂, -, hstores⟩ := hstep.upholds hreached.trusted
    exact .of_stores hstores (habove.upholds h₂).2 h₂ htrusted hdomains hcells

section Counted

open AmongPropagator

/-- How often a variable is `1` is counted, up to a fixed point. -/
def counted : Moment AmongPropagator :=
  ((Moment.mk (init false) false |>.after (.newListed [1, 2])).after (.newInterval 0 1)).after
    (.add (posting [.domain ⟨0⟩] (.domain ⟨1⟩) [1] true)) |>.after .settle

/-- At the next level the variable is decided, and counted again. -/
def recounted : Moment AmongPropagator :=
  (counted.after .newCheckpoint).after (.impose (.domain ⟨0⟩) (.exactly 1)) |>.after .settle

/-- The variable and its count are given back, and the variable made since has its values. -/
theorem restoreTo_gives_back_of_recounted :
    ∃ e', restoreTo 0 (recounted.after (.newListed [3, 5])).engine = .ok () e' ∧
      recounted.engine.cells.read ⟨0⟩ = .ok 1 ∧ e'.cells.read ⟨0⟩ = .ok 0 ∧
      recounted.engine.cells.members ⟨0⟩ = .ok [] ∧
      (∃ l, e'.cells.members ⟨0⟩ = .ok l ∧ l.Perm [0]) ∧
      e'.domains.table.get? ⟨0⟩ = Domain.listed [1, 2] ∧
      e'.domains.table.get? ⟨2⟩ = Domain.listed [3, 5] := by
  have hstart : Reached (P := AmongPropagator) {} false ⟨init false, false⟩ := .refl
  have hlisted := hstart.after (.newListed [1, 2]) (by decide) trivial (by decide +kernel)
  have hinterval := hlisted.after (.newInterval 0 1) (by decide) trivial (by decide +kernel)
  have hadded := hinterval.after (.add (posting [.domain ⟨0⟩] (.domain ⟨1⟩) [1] true)) trivial
    trivial (by decide +kernel)
  have hcounted : Reached {} false counted := hadded.after .settle trivial trivial (by decide +kernel)
  have hentered := hcounted.after .newCheckpoint trivial trivial (by decide +kernel)
  have hdecided := hentered.after (.impose (.domain ⟨0⟩) (.exactly 1)) trivial trivial
    (by decide +kernel)
  have hrecounted : Reached {} false recounted :=
    hdecided.after .settle trivial trivial (by decide +kernel)
  have hmade := hrecounted.after (.newListed [3, 5]) (by decide) trivial (by decide +kernel)
  obtain ⟨e', hrestore, -, -, -, -, -, hleft, hsince⟩ :=
    restoreTo_gives_back (k := 0) hmade (by decide +kernel)
  have hstep : ∀ (m : Moment AmongPropagator) (move : Move AmongPropagator), move.InRange →
      Rules.Permit {} m move → m.plays move = true →
      0 < m.engine.level ∧ 0 < (m.after move).engine.level → StepAbove {} 0 m (m.after move) :=
    fun m move hrange hpermit hplays hlevels =>
      ⟨⟨move, hrange, hpermit, Moment.play_eq_ok hplays⟩, hlevels⟩
  have hdecide := hstep ⟨(counted.after .newCheckpoint).engine, false⟩
    (.impose (.domain ⟨0⟩) (.exactly 1)) trivial trivial (by decide +kernel) (by decide +kernel)
  have hsettle := hstep ((counted.after .newCheckpoint).after (.impose (.domain ⟨0⟩) (.exactly 1)))
    .settle trivial trivial (by decide +kernel) (by decide +kernel)
  have hlast := hstep recounted (.newListed [3, 5]) (by decide) trivial (by decide +kernel)
    (by decide +kernel)
  have habove : LeadsAbove {} 0 ⟨(counted.after .newCheckpoint).engine, false⟩
      (recounted.after (.newListed [3, 5])) :=
    ((LeadsAbove.refl.step hdecide).step hsettle).step hlast
  have hopens := newCheckpoint_of_play (Moment.play_eq_ok
    (show counted.plays .newCheckpoint = true by decide +kernel))
  obtain ⟨-, hback⟩ := hleft counted ⟨hcounted, by decide +kernel, _, hopens, habove⟩
  have hnew := hsince recounted _ hrecounted hlast .refl
  refine ⟨e', hrestore, by decide +kernel, ?_, by decide +kernel, ?_, ?_, ?_⟩
  · exact hback.integers ⟨0⟩ 0 (Nat.zero_le _) (by decide +kernel)
  · exact hback.sets ⟨0⟩ [0] (Nat.zero_le _) (by decide +kernel)
  · exact hback.domains ⟨0⟩ _ (Nat.zero_le _) (by decide +kernel)
  · exact hnew.domains ⟨2⟩ _ (by decide +kernel) (by decide +kernel)

end Counted

end Engine

end Narrowing
