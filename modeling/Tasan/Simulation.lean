import Mathlib

/-!
# Sequences of operations, and what carries over from one step to all of them

A step function runs one operation on a state and returns a result, or fails. `runOps` runs a list of
operations. Two rules lift what is known of one step to every sequence: `runOps_map` for a function
from the states of one system to those of another, and `runOps_simulates` for a relation.
-/

namespace Tasan.Simulation

variable {σ τ ω ρ : Type}

/-- A sequence of operations, with their results. -/
def runOps (step : σ → ω → Option (σ × ρ)) : List ω → σ → Option (σ × List ρ)
  | [], s => some (s, [])
  | op :: ops, s => (step s op).bind fun p => (runOps step ops p.1).map fun q => (q.1, p.2 :: q.2)

/-- An abstraction function that commutes with each step commutes with every sequence, and what each
step keeps is kept. -/
theorem runOps_map {step : σ → ω → Option (σ × ρ)} {astep : τ → ω → Option (τ × ρ)} {abs : σ → τ}
    {inv : σ → Prop} {ok : ω → Prop}
    (hstep : ∀ s op, inv s → ok op → (step s op).map (fun p => (abs p.1, p.2)) = astep (abs s) op ∧
      ∀ p, step s op = some p → inv p.1)
    {ops : List ω} (hops : ∀ op ∈ ops, ok op) {s : σ} (hs : inv s) :
    (runOps step ops s).map (fun p => (abs p.1, p.2)) = runOps astep ops (abs s) ∧
      ∀ p, runOps step ops s = some p → inv p.1 := by
  induction ops generalizing s with
  | nil =>
    refine ⟨rfl, ?_⟩
    rintro p ⟨⟩
    exact hs
  | cons op ops ih =>
    obtain ⟨hone, hkeep⟩ := hstep s op hs (hops op List.mem_cons_self)
    unfold runOps
    rw [← hone]
    cases hexec : step s op with
    | none => simp
    | some p =>
      obtain ⟨hrun, hinv⟩ := ih (fun op' h => hops op' (List.mem_cons_of_mem _ h)) (hkeep p hexec)
      simp only [Option.bind_some, Option.map_some, ← hrun, Option.map_map]
      refine ⟨rfl, fun q hq => ?_⟩
      obtain ⟨q', hq', rfl⟩ := Option.map_eq_some_iff.mp hq
      exact hinv q' hq'

theorem runOps_simulates {step : σ → ω → Option (σ × ρ)} {astep : τ → ω → Option (τ × ρ)}
    {rel : σ → τ → Prop}
    (hstep : ∀ s a op p, rel s a → astep a op = some p →
      ∃ s', step s op = some (s', p.2) ∧ rel s' p.1)
    {ops : List ω} {s : σ} {a : τ} {p : τ × List ρ} (hs : rel s a)
    (h : runOps astep ops a = some p) : ∃ s', runOps step ops s = some (s', p.2) ∧ rel s' p.1 := by
  induction ops generalizing s a p with
  | nil =>
    obtain rfl := Option.some.inj h
    exact ⟨s, rfl, hs⟩
  | cons op ops ih =>
    obtain ⟨q, hq, h⟩ := Option.bind_eq_some_iff.mp h
    obtain ⟨p', hp', rfl⟩ := Option.map_eq_some_iff.mp h
    obtain ⟨s₁, hs₁, hrel₁⟩ := hstep s a op q hs hq
    obtain ⟨s', hs', hrel'⟩ := ih hrel₁ hp'
    refine ⟨s', ?_, hrel'⟩
    rw [runOps, hs₁, Option.bind_some, hs']
    rfl

end Tasan.Simulation
