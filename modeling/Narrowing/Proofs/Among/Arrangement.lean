import Narrowing.Proofs.Among.Course
import Narrowing.Proofs.Among.Ownership
import Narrowing.Proofs.Among.Strain
import Narrowing.Proofs.Engine.Abandonment
import Narrowing.Proofs.Engine.FirstPass
import Narrowing.Proofs.Engine.Restore

/-!
What is in its place in every run with Among propagators, whenever they are added and whenever
checkpoints are opened: each propagator has cells of its own, with room for its scope, and a count that
the scope allows for, now and after any restore; and whoever is to be told of something or to make a
pass is there. So a propagator that is called can rely on what it needs.
-/

namespace Narrowing.AmongPropagator

open Narrowing.Action Narrowing.Engine

variable {safe : Prop} {e e' : Engine AmongPropagator} {j : PropagatorId} {p : AmongPropagator}
  {w : Workspace Remark}

/-- The propagator `p` under the name `j` has its cells, now and after a restore. -/
structure Seated (e : Engine AmongPropagator) (j : PropagatorId) (p : AmongPropagator) : Prop where
  placed : Placed Nobody e j p
  capacity_eq : e.cells.capacity p.possible = p.scope.length
  past : ∀ k < e.level,
    p.Counts ((e.cells.past k).places p.possible) ((e.cells.past k).value p.sure)

/-- The listener is a propagator that has a variable under the number. -/
def Reaches (e : Engine AmongPropagator) (l : Listener) : Prop :=
  ∃ p, e.propagators.get? l.propagator = some p ∧ l.localId ≤ p.scope.length

/-- Everything is in its place. -/
structure Arranged (e : Engine AmongPropagator) : Prop where
  trusted : Trusted e
  seated : ∀ j p, e.propagators.get? j = some p → Seated e j p
  size_eq : e.cells.integers.size = e.propagators.size ∧ e.cells.sets.size = e.propagators.size
  lists : ∀ l, e.notifier.Lists l → Reaches e l
  pending : ∀ x ∈ e.notifier.pending.entries, Reaches e x.1
  requests : ∀ r ∈ e.agenda.requests, ∃ p, e.propagators.get? r.propagator = some p
  unreported : ∀ o ∈ e.domains.unreported.toList, o.domain.index < e.domains.table.size

/-- The cells of every propagator stand for counts that the scope allows for. -/
def Counted (e : Engine AmongPropagator) : Prop :=
  ∀ j p, e.propagators.get? j = some p → p.Counts (p.may e.toWorkspace) (p.surely e.toWorkspace)

/-- What is true of an engine between the moves of the caller. -/
structure Orderly (e : Engine AmongPropagator) : Prop extends Arranged e where
  counted : e.contradiction = none → Counted e

/-- Every propagator tracks machine values. -/
def AllTracksValues (e : Engine AmongPropagator) : Prop :=
  ∀ j p, e.propagators.get? j = some p → ∀ v ∈ p.tracked, Value.InRange v

/-- Every propagator is tame. -/
def AllTame (e : Engine AmongPropagator) : Prop :=
  ∀ j p, e.propagators.get? j = some p → p.Tame e.domains.table

/-- What is true of an engine at work. -/
structure Working (safe : Prop) (e : Engine AmongPropagator) : Prop extends Arranged e where
  contradiction_eq : e.contradiction = none
  counted : Counted e
  tame : safe → AllTame e

/-- However a call of `p` in `w` ends, this is what it comes to. -/
structure Acts (p : AmongPropagator) (me : PropagatorId) (w w' : Workspace Remark) : Prop where
  progress : Workspace.Progress (.propagator me) w w'
  restorable : w'.cells.Restorable
  capacity_eq : w'.cells.capacity = w.cells.capacity
  spares : p.Spares w.cells w'.cells

theorem Keeps.acts {α : Type} {m : Step α} (h : p.Keeps m) (hwf : w.WellFormed)
    (hr : w.cells.Restorable) :
    Ends (m.run j) w (fun _ w' => Acts p j w w') fun _ w' => Acts p j w w' := by
  let kept (s : Cells) : Prop := s.Restorable ∧ s.capacity = w.cells.capacity
  have hkept : Ends (m.run j) w (fun _ w' => kept w'.cells) fun _ w' => kept w'.cells := by
    refine Cells.ends_run (fun hs hop => ⟨hs.1.perform hop, ?_⟩) j m ⟨hr, rfl⟩
    exact (Cells.keeps_perform hs.1.wellFormed hop).capacity_eq.trans hs.2
  exact ((m.progress hwf).and (hkept.and (h.spares hwf.cells))).mono
    (fun _ _ hw => ⟨hw.1, hw.2.1.1, hw.2.1.2, hw.2.2⟩) fun _ _ hw => ⟨hw.1, hw.2.1.1, hw.2.1.2, hw.2.2⟩

/-! ### Steps of an engine -/

theorem Reaches.further {l : Listener} (h : Reaches e l)
    (hp : ∀ j p, e.propagators.get? j = some p → e'.propagators.get? j = some p) : Reaches e' l := by
  obtain ⟨p, hget, hle⟩ := h
  exact ⟨p, hp _ _ hget, hle⟩

namespace Arranged

variable (h : Arranged e)
include h

/-- Two propagators have no cell in common. -/
theorem cells_ne {i : PropagatorId} {q : AmongPropagator} (hp : e.propagators.get? j = some p)
    (hq : e.propagators.get? i = some q) (hne : i ≠ j) :
    q.sure ≠ p.sure ∧ q.possible ≠ p.possible := by
  have hindex : i.index ≠ j.index := fun he => hne (by cases i; cases j; exact congrArg _ he)
  have hp := (h.seated j p hp).placed
  have hq := (h.seated i q hq).placed
  rw [hp.sure_eq, hp.possible_eq, hq.sure_eq, hq.possible_eq]
  exact ⟨fun he => hindex (CellId.mk.inj he), fun he => hindex (SetId.mk.inj he)⟩

/-- Domains, cells, propagators and watches stay what they are. -/
theorem same (htrusted : Trusted e') (htable : e'.domains.table = e.domains.table)
    (hlevel : e'.level = e.level) (hcells : e'.cells = e.cells)
    (hpropagators : e'.propagators = e.propagators)
    (hwatches : e'.notifier.watches = e.notifier.watches)
    (hpending : ∀ x ∈ e'.notifier.pending.entries, Reaches e x.1)
    (hrequests : ∀ r ∈ e'.agenda.requests, ∃ p, e.propagators.get? r.propagator = some p)
    (hunreported : ∀ o ∈ e'.domains.unreported.toList, o.domain.index < e.domains.table.size) :
    Arranged e' where
  trusted := htrusted
  seated i q hq := by
    rw [hpropagators] at hq
    have hseated := h.seated i q hq
    refine ⟨hseated.placed.further (fun id _ => by rw [htable]) (by rw [htable])
      fun l id events hl => hl.of_eq hwatches, ?_, fun k hk => ?_⟩
    · rw [hcells]
      exact hseated.capacity_eq
    · rw [hcells]
      exact hseated.past k (hk.trans_eq hlevel)
  size_eq := by
    rw [hcells, hpropagators]
    exact h.size_eq
  lists l hl := by
    refine (h.lists l ?_).further fun i q hq => hpropagators ▸ hq
    unfold Notifier.Lists at hl ⊢
    rwa [hwatches] at hl
  pending x hx := (hpending x hx).further fun i q hq => hpropagators ▸ hq
  requests r hr := hpropagators ▸ hrequests r hr
  unreported o ho := htable ▸ hunreported o ho

theorem told {notices : List Notice}
    (hn : e.notifier.noticesOfAll e.domains.unreported.toList = .ok notices) :
    Arranged (e.told notices) := by
  apply h.same ⟨h.trusted.consistent.told notices, h.trusted.restorable⟩ rfl rfl rfl rfl rfl
  · exact Notifier.forall_pending_accept hn h.lists h.pending
  · exact h.requests
  · exact fun o ho => nomatch ho

theorem delivered {first : Listener × EventSet} {rest : List (Listener × EventSet)}
    (hpending : e.notifier.pending.entries = first :: rest) : Arranged (e.delivered rest) := by
  apply h.same ⟨h.trusted.consistent.delivered rest, h.trusted.restorable⟩ rfl rfl rfl rfl rfl
  · exact fun x hx => h.pending x (hpending ▸ List.mem_cons_of_mem first hx)
  · exact h.requests
  · exact h.unreported

theorem met {r : Request} {rest : List Request} (hr : e.agenda.requests = r :: rest) :
    Arranged (e.met rest) := by
  apply h.same ⟨h.trusted.consistent.met hr, h.trusted.restorable⟩ rfl rfl rfl rfl rfl h.pending
  · exact fun r' hr' => h.requests r' (hr ▸ List.mem_cons_of_mem r hr')
  · exact h.unreported

theorem requested (hp : e.propagators.get? j = some p) (priority : Priority) (passes : Passes) :
    Arranged { e with agenda := e.agenda.request j priority passes } := by
  apply h.same ⟨h.trusted.consistent.requested j priority passes, h.trusted.restorable⟩ rfl rfl rfl
    rfl rfl h.pending
  · exact Agenda.forall_request
      (Q := fun id _ => ∃ p, e.propagators.get? id = some p) (fun _ _ hq => hq) h.requests ⟨p, hp⟩
  · exact h.unreported

theorem failed (c : Contradiction) : Arranged (e.fail c) := by
  apply h.same ⟨h.trusted.consistent.failed c, h.trusted.restorable⟩ rfl rfl rfl rfl rfl
  · exact fun x hx => nomatch hx
  · exact fun r hr => nomatch hr
  · exact h.unreported

/-- Changes of domains and cells, made for whatever cause. -/
theorem worked {cause : Cause} (hp : Workspace.Progress cause e.toWorkspace w)
    (hr : w.cells.Restorable) (hcapacity : w.cells.capacity = e.cells.capacity) :
    Arranged (e.worked w) where
  trusted := ⟨h.trusted.consistent.worked hp, hr⟩
  seated i q hq := by
    have hseated := h.seated i q hq
    refine ⟨hseated.placed.narrower (f := e.worked w) hp.narrows h.trusted.consistent.workspace.table
      fun _ _ _ hl => hl, (congrFun hcapacity _).trans hseated.capacity_eq,
      fun k hk => ?_⟩
    have hk : k < e.domains.level := hk.trans_eq hp.narrows.trail_eq.1
    have hk' : k < e.cells.level := hk.trans_eq h.trusted.consistent.workspace.level_eq.symm
    change q.Counts ((w.cells.past k).places q.possible) ((w.cells.past k).value q.sure)
    rw [hp.evolves.past_eq k hk']
    exact hseated.past k hk
  size_eq := ⟨hp.evolves.size_eq.1.trans h.size_eq.1, hp.evolves.size_eq.2.trans h.size_eq.2⟩
  lists := h.lists
  pending := h.pending
  requests := h.requests
  unreported := hp.narrows.unreported_lt h.unreported

theorem grown {d : Domain} (hd : d.WellFormed) : Arranged (e.grown d) where
  trusted := (h.trusted.grown hd 0).1
  seated i q hq := by
    have hseated := h.seated i q hq
    exact ⟨hseated.placed.further (f := e.grown d) (fun _ hid => Table.get?_push_of_lt _ _ hid)
      (Nat.le_of_lt ((Nat.lt_succ_self _).trans_eq (Table.size_push _ _).symm)) fun _ _ _ hl => hl.grow,
      hseated.capacity_eq, hseated.past⟩
  size_eq := h.size_eq
  lists l hl := h.lists l hl.of_grow
  pending := h.pending
  requests := h.requests
  unreported o ho := by
    have hlt := h.unreported o ho
    change o.domain.index < (e.domains.table.push d).size
    rw [Table.size_push]
    exact Nat.lt_succ_of_lt hlt

/-- What a propagator that is called can rely on. -/
theorem able (hp : e.propagators.get? j = some p) (htame : safe → AllTame e) :
    p.Able safe e.toWorkspace := by
  have hseated := h.seated j p hp
  have hlt : j.index < e.propagators.size := Table.lt_size_of_get? hp
  refine ⟨h.trusted.consistent.workspace, hseated.placed.grounded, hseated.placed.sorted,
    ⟨?_, ?_⟩, hseated.capacity_eq, fun hsafe => htame hsafe j p hp⟩
  · rw [hseated.placed.sure_eq]
    exact hlt.trans_eq h.size_eq.1.symm
  · rw [hseated.placed.possible_eq]
    exact hlt.trans_eq h.size_eq.2.symm

end Arranged

/-! ### Propagation -/

namespace Working

theorem told {notices : List Notice} (h : Working safe e)
    (hn : e.notifier.noticesOfAll e.domains.unreported.toList = .ok notices) :
    Working safe (e.told notices) :=
  ⟨h.toArranged.told hn, h.contradiction_eq, h.counted, h.tame⟩

theorem delivered {first : Listener × EventSet} {rest : List (Listener × EventSet)}
    (h : Working safe e) (hpending : e.notifier.pending.entries = first :: rest) :
    Working safe (e.delivered rest) :=
  ⟨h.toArranged.delivered hpending, h.contradiction_eq, h.counted, h.tame⟩

theorem met {r : Request} {rest : List Request} (h : Working safe e)
    (hr : e.agenda.requests = r :: rest) : Working safe (e.met rest) :=
  ⟨h.toArranged.met hr, h.contradiction_eq, h.counted, h.tame⟩

theorem answered (h : Working safe e) (hp : e.propagators.get? j = some p) (response : Response) :
    Working safe (e.answered j p response) := by
  cases response with
  | skip => exact h
  | enqueue => exact ⟨h.toArranged.requested hp _ _, h.contradiction_eq, h.counted, h.tame⟩

/-- A call of a propagator that leaves counts that its scope allows for. -/
theorem acted (h : Working safe e) (hp : e.propagators.get? j = some p)
    (hacts : Acts p j e.toWorkspace w) (hcounts : p.Counts (p.may w) (p.surely w)) :
    Working safe (e.worked w) := by
  refine ⟨h.toArranged.worked hacts.progress hacts.restorable hacts.capacity_eq, h.contradiction_eq,
    fun i q hq => ?_, fun hsafe i q hq => ?_⟩
  · have hq : e.propagators.get? i = some q := hq
    by_cases hne : i = j
    · obtain rfl : q = p := Option.some.inj ((hne ▸ hq).symm.trans hp)
      exact hcounts
    · obtain ⟨hsure, hpossible⟩ := h.cells_ne hp hq hne
      have hmay : q.may w = q.may e.toWorkspace := hacts.spares.places_eq _ hpossible
      have hsurely : q.surely w = q.surely e.toWorkspace := hacts.spares.value_eq _ hsure
      change q.Counts (q.may w) (q.surely w)
      rw [hmay, hsurely]
      exact h.counted i q hq
  · have hwf := h.trusted.consistent.workspace.table
    exact (h.tame hsafe i q hq).below (hacts.progress.narrows.table_below hwf)

/-- What a propagator that is called can rely on. -/
theorem able (h : Working safe e) (hp : e.propagators.get? j = some p) :
    p.Able safe e.toWorkspace :=
  h.toArranged.able hp h.tame

theorem risks_notified (h : Working safe e) {l : Listener} {events : EventSet}
    {rest : List (Listener × EventSet)} (hpending : e.notifier.pending.entries = (l, events) :: rest)
    (hp : e.propagators.get? l.propagator = some p) {hazard : Fault → Workspace Remark → Prop}
    (hcovers : p.Covers safe hazard) :
    Risks l.propagator (p.notified l.localId events) e.toWorkspace
      (fun _ w => p.Counts (p.may w) (p.surely w)) hazard := by
  obtain ⟨q, hq, hle⟩ := h.pending (l, events) (hpending ▸ List.mem_cons_self)
  obtain rfl : p = q := Option.some.inj (hp.symm.trans hq)
  exact (h.able hp).risks_notified hcovers (h.counted _ p hp) hle

theorem risks_pass (h : Working safe e) (hp : e.propagators.get? j = some p) (passes : Passes) :
    Risks j (p.pass j passes) e.toWorkspace (fun _ w => p.Counts (p.may w) (p.surely w))
      (p.Hazard safe) :=
  (h.able hp).risks_pass (escorts_hazard p j safe) (h.counted j p hp) (fun _ => trivial)
    fun _ _ => trivial

end Working

/-- The rounds of propagation keep everything in its place. -/
theorem closed_working (safe : Prop) : Closed (Working safe) Arranged := by
  refine ⟨fun h hn => h.told hn, ?_, ?_⟩
  · intro e l events rest p h _ hpending hp
    refine (Ends.and ((keeps_notified l.localId events).acts h.trusted.consistent.workspace
      h.trusted.restorable) (h.risks_notified hpending hp (covers_hazard p safe))).mono
      (fun response w hw => ?_) fun _ w hw _ _ => ?_
    · exact ((h.delivered hpending).acted hp hw.1 hw.2).answered hp response
    · exact (h.toArranged.delivered hpending).worked hw.1.progress hw.1.restorable hw.1.capacity_eq
  · intro e r rest p h _ hr hp
    refine (Ends.and ((keeps_pass r.passes).acts h.trusted.consistent.workspace
      h.trusted.restorable) (h.risks_pass hp r.passes)).mono (fun _ w hw => ?_) fun _ w hw _ _ => ?_
    · exact (h.met hr).acted hp hw.1 hw.2
    · exact (h.toArranged.met hr).worked hw.1.progress hw.1.restorable hw.1.capacity_eq

theorem Orderly.working (h : Orderly e) (hc : e.contradiction = none)
    (htame : safe → AllTame e) : Working safe e :=
  ⟨h.toArranged, hc, h.counted hc, htame⟩

theorem Orderly.settle (h : Orderly e) {r : Except Contradiction Unit}
    (hs : Engine.settle e = .ok r e') : Orderly e' := by
  cases hc : e.contradiction with
  | some c =>
      rw [settle_of_contradiction hc] at hs
      obtain ⟨-, rfl⟩ := EStateM.Result.ok.inj hs
      exact h
  | none =>
      have hworking : Working False e := h.working hc fun hf => hf.elim
      rcases (closed_working False).settle_eq_ok hworking hc hs with
        ⟨-, h', -⟩ | ⟨c, broken, -, rfl, h'⟩
      · exact ⟨h'.toArranged, fun _ => h'.counted⟩
      · exact ⟨h'.failed c, fun hc' => nomatch hc'⟩

/-! ### Moves of the caller -/

/-- What is given back for the cells of a propagator that joins is nothing, and for the others it is
what it was. -/
theorem past_joined (h : e.cells.WellFormed) (n k : Nat) :
    (((e.cells.newInteger 0).newSet n).past k).value = (e.cells.past k).value ∧
      (((e.cells.newInteger 0).newSet n).past k).places = (e.cells.past k).places := by
  rw [Cells.past_newSet, Cells.past_newInteger h]
  exact ⟨Contents.value_push_zero _ none, rfl⟩

theorem localId_le_of_mem_interests {scope : List Variable} {counter : Variable} {tracked : List Int}
    {backPropagates : Bool} {i : Interest}
    (hi : i ∈ (posting scope counter tracked backPropagates).interests) :
    i.localId ≤ scope.length := by
  rcases List.mem_append.1 hi with hi | hi
  · obtain ⟨⟨x, n⟩, hx, rfl⟩ := List.mem_map.1 hi
    obtain ⟨-, hlt, -⟩ := List.mem_zipIdx hx
    exact Nat.le_of_lt (hlt.trans_eq (Nat.zero_add _))
  · obtain rfl := List.mem_singleton.1 hi
    exact Nat.le_refl _

section Joined

variable {scope : List Variable} {counter : Variable} {tracked : List Int} {backPropagates : Bool}
  {notifier : Notifier} {journal : Array (Message (Propagator.Note AmongPropagator))}
  (h : Arranged e)
  (hwatched : Watched e.notifier notifier e.propagators.nextKey
    (posting scope counter tracked backPropagates).interests)
include h hwatched

/-- A propagator keeps its cells when another one joins. -/
theorem Seated.joined (hseated : Seated e j p) (hp : e.propagators.get? j = some p) :
    Seated (e.joined (posting scope counter tracked backPropagates) notifier journal) j p := by
  refine ⟨hseated.placed.further (f := e.joined _ notifier journal) (fun _ _ => rfl) (Nat.le_refl _)
    hwatched.hears, ?_, fun k hk => ?_⟩
  · have hlt : p.possible.index < (e.cells.newInteger 0).sets.size := by
      rw [hseated.placed.possible_eq]
      exact (Table.lt_size_of_get? hp).trans_eq h.size_eq.2.symm
    exact (Cells.capacity_newSet_of_lt _ _ hlt).trans hseated.capacity_eq
  · obtain ⟨hvalues, hplaces⟩ := past_joined h.trusted.restorable.wellFormed scope.length k
    change p.Counts ((((e.cells.newInteger 0).newSet scope.length).past k).places p.possible)
      ((((e.cells.newInteger 0).newSet scope.length).past k).value p.sure)
    rw [hvalues, hplaces]
    exact hseated.past k hk

/-- A propagator that joins has its cells, and nothing is in them. -/
theorem seated_joined :
    Seated (e.joined (posting scope counter tracked backPropagates) notifier journal)
      e.propagators.nextKey ⟨⟨scope, counter, Ascending.ofList tracked⟩, ⟨e.cells.sets.size⟩,
        ⟨e.cells.integers.size⟩, backPropagates⟩ := by
  refine ⟨placed_joined h.trusted.consistent h.size_eq hwatched fun hf => hf.elim,
    Cells.capacity_newSet_self (e.cells.newInteger 0) scope.length, fun k _ => ?_⟩
  obtain ⟨hvalues, hplaces⟩ := past_joined h.trusted.restorable.wellFormed scope.length k
  have hzero : (e.cells.past k).value ⟨e.cells.integers.size⟩ = 0 := by
    apply Contents.value_of_size_le
    rw [Cells.past, Contents.size_foldl_undo]
    exact Nat.le_refl _
  have hempty : (e.cells.past k).places ⟨e.cells.sets.size⟩ = ∅ :=
    h.trusted.restorable.places_past_of_le (Nat.le_refl _) k
  change Among.Counts _
    ((((e.cells.newInteger 0).newSet scope.length).past k).places ⟨e.cells.sets.size⟩)
    ((((e.cells.newInteger 0).newSet scope.length).past k).value ⟨e.cells.integers.size⟩)
  rw [hvalues, hplaces, hzero, hempty]
  exact Among.counts_empty _

end Joined

/-- A propagator joins. -/
theorem Orderly.joined (h : Orderly e) {scope : List Variable} {counter : Variable}
    {tracked : List Int} {backPropagates : Bool} {notifier : Notifier}
    {journal : Array (Message (Propagator.Note AmongPropagator))}
    (hwatched : Watched e.notifier notifier e.propagators.nextKey
      (posting scope counter tracked backPropagates).interests)
    (hlists : ∀ l, notifier.Lists l → e.notifier.Lists l ∨
      ∃ i ∈ (posting scope counter tracked backPropagates).interests,
        l = ⟨e.propagators.nextKey, i.localId⟩) :
    Orderly (e.joined (posting scope counter tracked backPropagates) notifier journal) := by
  set e' := e.joined (posting scope counter tracked backPropagates) notifier journal with he'
  set made : AmongPropagator := ⟨⟨scope, counter, Ascending.ofList tracked⟩,
    ⟨e.cells.sets.size⟩, ⟨e.cells.integers.size⟩, backPropagates⟩ with hmade
  have hget : ∀ i q, e'.propagators.get? i = some q →
      e.propagators.get? i = some q ∨ (i = e.propagators.nextKey ∧ q = made) := fun i q hq =>
    (Table.eq_or_of_get?_push hq).imp_left And.right
  have hold : ∀ i q, e.propagators.get? i = some q → e'.propagators.get? i = some q := fun i q hq =>
    (Table.get?_push_of_lt _ _ (Table.lt_size_of_get? hq)).trans hq
  have hnew : e'.propagators.get? e.propagators.nextKey = some made := Table.get?_push_nextKey _ _
  have hseated : ∀ i q, e'.propagators.get? i = some q → Seated e' i q := by
    intro i q hq
    rcases hget i q hq with hq | ⟨rfl, rfl⟩
    · exact (h.seated i q hq).joined h.toArranged hwatched hq
    · exact seated_joined h.toArranged hwatched
  have hsizes : e'.cells.integers.size = e'.propagators.size ∧
      e'.cells.sets.size = e'.propagators.size := by
    change (e.cells.integers.push _).size = (e.propagators.push _).size ∧
      (e.cells.sets.push _).size = (e.propagators.push _).size
    simp only [Table.size_push, h.size_eq, and_self]
  refine ⟨⟨(h.trusted.joined hwatched 0).1, hseated, hsizes, fun l hl => ?_, fun x hx => ?_, ?_,
    h.unreported⟩, fun hc i q hq => ?_⟩
  · rcases hlists l hl with hl | ⟨i, hi, rfl⟩
    · exact (h.lists l hl).further hold
    · exact ⟨made, hnew, localId_le_of_mem_interests hi⟩
  · change x ∈ notifier.pending.entries at hx
    rw [hwatched.pending_eq] at hx
    exact (h.pending x hx).further hold
  · apply Agenda.forall_request (Q := fun id _ => ∃ q, e'.propagators.get? id = some q)
    · exact fun _ _ hq => hq
    · exact fun r hr => (h.requests r hr).imp fun q hq => hold _ q hq
    · exact ⟨made, hnew⟩
  · obtain ⟨hvalue, hplaces, hempty⟩ := contents_joined e scope.length
    change q.Counts (((e.cells.newInteger 0).newSet scope.length).contents.places q.possible)
      (((e.cells.newInteger 0).newSet scope.length).contents.value q.sure)
    rw [hvalue, hplaces]
    rcases hget i q hq with hq | ⟨rfl, rfl⟩
    · exact h.counted hc i q hq
    · have hzero : e.cells.contents.value made.sure = 0 :=
        Contents.value_of_size_le (Nat.le_refl _)
      rw [hempty, hzero]
      exact Among.counts_empty _

theorem Orderly.grown (h : Orderly e) {d : Domain} (hd : d.WellFormed) : Orderly (e.grown d) :=
  ⟨h.toArranged.grown hd, h.counted⟩

/-- A decision is taken. -/
theorem Orderly.narrowed (h : Orderly e) {B : DomainId → Prop} {cause : Cause} {domains : Domains}
    (hn : Domains.Narrows B cause e.domains domains) : Orderly { e with domains } :=
  ⟨h.toArranged.worked (w := ⟨domains, e.cells, e.journal⟩)
    ⟨hn.mono fun _ _ => trivial, .refl h.trusted.consistent.workspace.cells⟩ h.trusted.restorable rfl,
    h.counted⟩

theorem Orderly.requested (h : Orderly e) (hp : e.propagators.get? j = some p) (priority : Priority)
    (passes : Passes) : Orderly { e with agenda := e.agenda.request j priority passes } :=
  ⟨h.toArranged.requested hp priority passes, h.counted⟩

/-- A checkpoint is opened, and the counts are put down. -/
theorem Orderly.entered (h : Orderly e) (hc : e.contradiction = none)
    (journal : Array (Message (Propagator.Note AmongPropagator))) : Orderly (e.entered journal) := by
  refine ⟨⟨(h.trusted.marked journal (Nat.le_refl _)).1, fun i q hq => ?_, h.size_eq, h.lists,
    h.pending, h.requests, h.unreported⟩, h.counted⟩
  have hseated := h.seated i q hq
  refine ⟨hseated.placed.further (f := e.entered journal) (fun _ _ => rfl) (Nat.le_refl _)
    fun _ _ _ hl => hl, hseated.capacity_eq, fun k hk => ?_⟩
  have hk : k ≤ e.level := Nat.le_of_lt_succ (hk.trans_eq (Domains.level_mark _))
  have hlevels : e.cells.level = e.level := h.trusted.consistent.workspace.level_eq
  change q.Counts ((e.cells.mark.past k).places q.possible) ((e.cells.mark.past k).value q.sure)
  rw [Cells.past_mark _ (hk.trans_eq hlevels.symm)]
  rcases Nat.lt_or_eq_of_le hk with hlt | rfl
  · exact hseated.past k hlt
  · rw [← hlevels, Cells.past_level]
    exact h.counted hc i q hq

/-- A restore gives back the counts that were put down. -/
theorem Orderly.rewound (h : Orderly e) {k : Nat} {domains : Domains} {cells : Cells}
    {journal : Array (Message (Propagator.Note AmongPropagator))}
    (hdomains : e.domains.rewind k = .ok domains) (hcells : e.cells.rewind k = .ok cells) :
    Orderly (e.rewound domains cells journal) := by
  obtain ⟨hk, -, htrail, hunreported⟩ := Domains.rewind_eq_ok hdomains
  obtain ⟨hk', -, -, hcontents, hsizes, hpasts⟩ :=
    Cells.rewind_eq_ok h.trusted.restorable.wellFormed hcells
  obtain ⟨cells', hcells', -, hcapacity⟩ := h.trusted.restorable.exists_rewind hk'
  obtain rfl := Except.ok.inj (hcells.symm.trans hcells')
  refine ⟨⟨(h.trusted.rewound hdomains hcells (Nat.le_refl k)).1, fun i q hq => ?_,
    ⟨hsizes.1.trans h.size_eq.1, hsizes.2.trans h.size_eq.2⟩, h.lists,
    fun _ hx => absurd hx List.not_mem_nil, fun _ hr => absurd hr List.not_mem_nil, fun o ho => ?_⟩,
    fun _ i q hq => ?_⟩
  · have hseated := h.seated i q hq
    refine ⟨hseated.placed.rewound hdomains fun hf => hf.elim,
      (congrFun hcapacity _).trans hseated.capacity_eq, fun n hn => ?_⟩
    have hlevel : domains.level = k := by
      rw [Domains.level, htrail, Trail.level_below _ (Nat.le_of_lt hk)]
    have hn : n < k := hn.trans_eq hlevel
    change q.Counts ((cells.past n).places q.possible) ((cells.past n).value q.sure)
    rw [hpasts n (Nat.le_of_lt hn)]
    exact hseated.past n (hn.trans hk)
  · have ho : o ∈ domains.unreported.toList := ho
    rw [hunreported] at ho
    exact absurd ho List.not_mem_nil
  · change q.Counts (cells.contents.places q.possible) (cells.contents.value q.sure)
    rw [hcontents]
    exact (h.seated i q hq).past k hk

/-! ### Runs -/

/-- The caller adds Among propagators whenever it likes, in whatever way, and never replaces one. -/
def openRules : Rules AmongPropagator where
  adds _ p := ∃ scope counter tracked backPropagates, p = posting scope counter tracked backPropagates
  replaces := False

/-- The caller adds Among propagators whenever it likes, with any scope and counter and any machine
values to track, and never replaces one. -/
def freeRules : Rules AmongPropagator where
  adds _ p := ∃ scope counter tracked backPropagates,
    p = posting scope counter tracked backPropagates ∧ ∀ v ∈ tracked, Value.InRange v
  replaces := False

theorem orderly_init (skipsOwn : Bool) : Orderly (init skipsOwn) := by
  have hnone : ∀ {j p}, (init skipsOwn : Engine AmongPropagator).propagators.get? j = some p → False :=
    fun hp => Nat.not_lt_zero _ (Table.lt_size_of_get? hp)
  refine ⟨⟨⟨consistent_init skipsOwn, Cells.restorable_init⟩, fun j p hp => (hnone hp).elim,
    ⟨rfl, rfl⟩, fun l hl => ?_, fun _ hx => (nomatch hx), fun _ hr => (nomatch hr),
    fun _ ho => (nomatch ho)⟩, fun _ j p hp => (hnone hp).elim⟩
  obtain ⟨id, ws, hws, -⟩ := hl
  exact absurd (Table.lt_size_of_get? hws) (Nat.not_lt_zero _)

/-- Whatever the caller does, everything is in its place. -/
theorem orderly_of_reached {skipsOwn : Bool} {m : Moment AmongPropagator}
    (h : Reached openRules skipsOwn m) : Orderly m.engine := by
  induction h with
  | refl => exact orderly_init skipsOwn
  | @step m' move settled e' hleads hrange hpermit hplay ih =>
      cases outcome_of_play ih.trusted.consistent.workspace.table hplay with
      | unchanged => exact ih
      | grown hd => exact ih.grown (hd hrange)
      | joined hwatched =>
          obtain ⟨scope, counter, tracked, back, rfl⟩ := hpermit
          apply ih.joined hwatched
          have hends : Ends (Move.play (.add (posting scope counter tracked back))) m'.engine
              (fun _ e' => ∀ l, e'.notifier.Lists l → m'.engine.notifier.Lists l ∨
                ∃ i ∈ (posting scope counter tracked back).interests,
                  l = ⟨m'.engine.propagators.nextKey, i.localId⟩) fun _ _ => True :=
            (ends_add_lists _).bind fun _ _ hl => ends_pure hl
          exact hends.of_ok hplay
      | constrained hroot =>
          rcases addConstraint_of_play hplay with ⟨-, rfl⟩ |
            ⟨-, notifier, journal, id, r, hwatched, hadd, hsettle⟩
          · exact ih
          · obtain ⟨scope, counter, tracked, back, rfl⟩ := hpermit hroot
            exact (ih.joined hwatched ((ends_add_lists _).of_ok hadd)).settle hsettle
      | replaced => exact hpermit.elim
      | narrowed hn => exact ih.narrowed hn
      | forced hp => exact ih.requested hp _ _
      | settled hsettle => exact ih.settle hsettle
      | marked _ _ hc => exact ih.entered hc _
      | rewound hdomains hcells => exact ih.rewound hdomains hcells

section Free

variable {skipsOwn : Bool} {m : Moment AmongPropagator} (h : Reached freeRules skipsOwn m)
include h

theorem open_of_free : Reached openRules skipsOwn m := by
  refine h.weaken ?_ (fun _ hm => hm) id
  rintro e p ⟨scope, counter, tracked, back, hp, -⟩
  exact ⟨scope, counter, tracked, back, hp⟩

/-- Without the least machine value in the domains, every propagator is tame. -/
theorem allTame_of_free (hleast : ∀ id, Value.least ∉ m.engine.domains.table.members id) :
    AllTame m.engine := by
  have htracked : AllTracksValues m.engine := by
    refine h.forall_propagators id ?_
    rintro e p integers sets ⟨scope, counter, tracked, back, rfl, htracked⟩ v hv
    exact htracked v (Ascending.mem_ofList.1 hv)
  exact fun j p hp => ⟨htracked j p hp, fun x _ => Or.inr (hleast x.base)⟩

end Free

end Narrowing.AmongPropagator
