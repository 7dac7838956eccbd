import DigBlockstore.Library.Trace

/-! Runs with one turning step: before it each step keeps one condition, after it another. -/
namespace DigBlockstore.Trace

variable {σ α : Type} {step : σ → α → σ → Prop} {s t : σ} {as : List α} {Before After : σ → Prop}

namespace Run

theorem settled {calm : α → Prop} (run : Run step s as t) (start : After s)
    (kept : ∀ s a t, After s → step s a t → After t ∧ calm a) : After t ∧ ∀ a ∈ as, calm a := by
  induction run with
  | nil => exact ⟨start,by simp⟩
  | cons first _ ih =>
    obtain ⟨after,here⟩ := kept _ _ _ start first
    obtain ⟨last,rest⟩ := ih after
    exact ⟨last,List.forall_mem_cons.mpr ⟨here,rest⟩⟩

theorem turns {early late : α → Prop} {turn : σ → α → σ → Prop} (run : Run step s as t) (start : Before s)
    (first : ∀ s a t, Before s → step s a t → Before t ∧ early a ∨ turn s a t ∧ After t)
    (later : ∀ s a t, After s → step s a t → After t ∧ late a) :
    (Before t ∧ ∀ a ∈ as, early a) ∨ ∃ before a after u v, as = before ++ a :: after ∧
      (∀ b ∈ before, early b) ∧ Before u ∧ turn u a v ∧ Run step v after t ∧ After v ∧ After t ∧ ∀ b ∈ after, late b := by
  induction run with
  | nil => exact .inl ⟨start,by simp⟩
  | @cons s a t as u taken rest ih =>
    rcases first _ _ _ start taken with ⟨still,calm⟩ | ⟨turned,after⟩
    · rcases ih still with ⟨last,calms⟩ | ⟨before,b,more,v,w,rfl,calms,there,turned⟩
      · exact .inl ⟨last,List.forall_mem_cons.mpr ⟨calm,calms⟩⟩
      · exact .inr ⟨a :: before,b,more,v,w,rfl,List.forall_mem_cons.mpr ⟨calm,calms⟩,there,turned⟩
    · obtain ⟨last,calms⟩ := rest.settled after later
      exact .inr ⟨[],a,as,s,t,rfl,by simp,start,turned,rest,after,last,calms⟩

end Run

end DigBlockstore.Trace
