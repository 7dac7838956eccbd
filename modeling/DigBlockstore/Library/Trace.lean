import Mathlib

/-! Finite runs of a labelled step relation, and the rule that what every step preserves
every run preserves. -/
namespace DigBlockstore.Trace

variable {σ α : Type}

inductive Run (step : σ → α → σ → Prop) : σ → List α → σ → Prop where
  | nil (s) : Run step s [] s
  | cons {s a t as u} (first : step s a t) (later : Run step t as u) : Run step s (a :: as) u

def Guarded (guard : σ → α → Prop) (step : σ → α → σ → Prop) (s : σ) (a : α) (t : σ) : Prop :=
  guard s a ∧ step s a t

namespace Run
variable {step step' : σ → α → σ → Prop} {s t u : σ} {as bs : List α}

theorem invariant {I : σ → Prop} (run : Run step s as t) (start : I s)
    (preserved : ∀ s a t, I s → step s a t → I t) : I t := by
  induction run with
  | nil => exact start
  | cons first later ih => exact ih (preserved _ _ _ start first)

theorem mono (run : Run step s as t) (sub : ∀ s a t, step s a t → step' s a t) : Run step' s as t := by
  induction run with
  | nil => exact .nil _
  | cons first later ih => exact .cons (sub _ _ _ first) ih

theorem append (first : Run step s as t) (later : Run step t bs u) : Run step s (as ++ bs) u := by
  induction first with
  | nil => exact later
  | cons step _ ih => exact .cons step (ih later)

theorem invariantWith {Known Inv : σ → Prop} (run : Run step s as t) (known : Known s)
    (knownKept : ∀ s a t, Known s → step s a t → Known t) (start : Inv s)
    (preserved : ∀ s a t, Known s → Inv s → step s a t → Inv t) : Known t ∧ Inv t :=
  run.invariant (I := fun s => Known s ∧ Inv s) ⟨known,start⟩ fun s a t both taken =>
    ⟨knownKept s a t both.1 taken,preserved s a t both.1 both.2 taken⟩

/- Each step seen as some moves, the run is seen as all of them in turn. -/
theorem simulated {τ β : Type} {Known : σ → Prop} {view : σ → τ} {move : τ → β → τ} {moves : α → List β} (run : Run step s as t)
    (start : Known s) (kept : ∀ s a t, Known s → step s a t → Known t ∧ view t = (moves a).foldl move (view s)) :
    Known t ∧ view t = (as.flatMap moves).foldl move (view s) := by
  induction run with
  | nil => exact ⟨start,rfl⟩
  | cons first later ih =>
    obtain ⟨known,seen⟩ := kept _ _ _ start first
    rw [List.flatMap_cons,List.foldl_append,← seen]
    exact ih known

/- Each step balanced, so is the run: what was counted and gained is what is counted and lost. -/
theorem tallied {Known : σ → Prop} {count : σ → Nat} {gain loss : α → Nat} (run : Run step s as t) (start : Known s)
    (kept : ∀ s a t, Known s → step s a t → Known t ∧ count s + gain a = count t + loss a) :
    Known t ∧ count s + (as.map gain).sum = count t + (as.map loss).sum := by
  induction run with
  | nil => exact ⟨start,rfl⟩
  | cons first later ih =>
    obtain ⟨known,balanced⟩ := kept _ _ _ start first
    obtain ⟨last,rest⟩ := ih known
    simp only [List.map_cons,List.sum_cons]
    exact ⟨last,by omega⟩

end Run

end DigBlockstore.Trace
