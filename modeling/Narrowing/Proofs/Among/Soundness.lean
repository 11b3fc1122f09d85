import Narrowing.Proofs.Among.Course

/-!
Soundness of propagation over whole runs. However variables, constraints, decisions, checkpoints and
propagation follow each other, propagation takes no value that occurs in a solution, and it comes to
a contradiction only if there is none.
-/

namespace Narrowing.AmongPropagator

open Narrowing.Engine

/-- A caller who adds Among constraints at the root, over scopes that can be counted. -/
def rootRules : Rules AmongPropagator := amongRules False fun _ _ _ _ => True

/-- Where scopes can be counted, propagation that comes to a fixed point keeps every solution, and
propagation that comes to a contradiction had none to keep. -/
theorem settle_keeps_solutions {skipsOwn : Bool} {m : Moment AmongPropagator}
    (h : Reached rootRules skipsOwn m) {r : Except Contradiction Unit} {e' : Engine AmongPropagator}
    (hs : settle m.engine = .ok r e') :
    (r = .ok () → ∀ σ, Solves m.engine σ → e'.domains.table.Admits σ) ∧
      ∀ c, r = .error c → ∀ σ, ¬ Solves m.engine σ := by
  have hsane : Sane Nobody m.engine := sane_of_reached (fun _ _ _ _ _ hf => hf.elim)
    (fun hf => hf.elim) (fun hf => hf.elim) h
  cases hc : m.engine.contradiction with
  | some c =>
      rw [settle_of_contradiction hc] at hs
      obtain ⟨rfl, rfl⟩ := EStateM.Result.ok.inj hs
      exact ⟨fun hr => (nomatch hr), fun _ _ => hsane.unsolvable fun hn => nomatch hc.symm.trans hn⟩
  | none =>
      have hstart : Since Nobody m.engine m.engine := ⟨hsane.live hc, rfl, fun σ hσ => hσ.1⟩
      rcases (closed_since m.engine).settle_eq_ok hstart hc hs with
        ⟨rfl, hsince, -⟩ | ⟨c, broken, rfl, -, hhopeless⟩
      · exact ⟨fun _ => hsince.kept, fun _ hr => nomatch hr⟩
      · exact ⟨fun hr => (nomatch hr), fun _ _ => hhopeless.refuted⟩

/-- A decision about the counter fixes the variable, to the one value that occurs in a solution. -/
theorem settle_keeps_solutions_of_countedTwice :
    ∃ e', settle countedTwice.engine = .ok (.ok ()) e' ∧ e'.domains.table.members ⟨0⟩ = {1} ∧
      ∀ σ, Solves countedTwice.engine σ → e'.domains.table.Admits σ :=
  ⟨_, settle_countedTwice, by decide +kernel,
    (settle_keeps_solutions (reached_countedTwice trivial) settle_countedTwice).1 rfl⟩

end Narrowing.AmongPropagator
