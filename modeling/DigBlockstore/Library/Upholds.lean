import DigBlockstore.Library.Within

/-! An invariant that an operation upholds however it ends, with what it says of the value
when it returns one. -/
namespace DigBlockstore.Faulty
variable {σ τ ε α β : Type} {I : σ → Prop} {P : α → Prop} {Q : β → Prop}

def Upholds (I : σ → Prop) (P : α → Prop) (m : Op σ ε α) : Prop :=
  ∀ s r t, I s → Runs m s r t → I t ∧ ∀ a, r = .ok a → P a

theorem Upholds.mono {P' : α → Prop} {m : Op σ ε α} (upholds : Upholds I P m) (sub : ∀ a, P a → P' a) :
    Upholds I P' m := fun s r t inv h =>
  have ⟨after,value⟩ := upholds s r t inv h
  ⟨after,fun a same => sub a (value a same)⟩

theorem Upholds.any {m : Op σ ε α} (upholds : Upholds I P m) : Upholds I (fun _ => True) m :=
  upholds.mono fun _ _ => trivial

theorem Within.upholds {R : σ → σ → Prop} {m : Op σ ε α} (within : Within R m) (along : ∀ s t, R s t → I s → I t) :
    Upholds I (fun _ => True) m := fun s r t inv h => ⟨along s t (within s r t h) inv,fun _ _ => trivial⟩

theorem upholdsPure {a : α} (here : P a) : Upholds I P (pure a : Op σ ε α) := by
  intro s r t inv h
  obtain ⟨rfl,rfl⟩ := runsPure.mp h
  exact ⟨inv,fun b same => Except.ok.inj same ▸ here⟩

theorem upholdsError (e : ε) : Upholds I P (Op.error e : Op σ ε α) := by
  intro s r t inv h
  obtain ⟨rfl,rfl⟩ := runsError.mp h
  exact ⟨inv,fun a bad => by cases bad⟩

theorem upholdsGet : Upholds I I (Op.get : Op σ ε σ) := by
  intro s r t inv h
  obtain ⟨rfl,rfl⟩ := runsGet.mp h
  exact ⟨inv,fun a same => Except.ok.inj same ▸ inv⟩

theorem upholdsModify {f : σ → σ} (kept : ∀ s, I s → I (f s)) : Upholds I (fun _ => True) (Op.modify f : Op σ ε Unit) := by
  intro s r t inv h
  rw [(runsModify.mp h).2]
  exact ⟨kept s inv,fun _ _ => trivial⟩

theorem upholdsStep (failure : String → ε) : Upholds I (fun _ => True) (Op.step failure : Op σ ε Unit) := by
  intro s r t inv h
  rw [(runsStep.mp h).1]
  exact ⟨inv,fun _ _ => trivial⟩

theorem upholdsBind {m : Op σ ε α} {f : α → Op σ ε β} (first : Upholds I P m) (later : ∀ a, P a → Upholds I Q (f a)) :
    Upholds I Q (m >>= f) := by
  intro s r t inv h
  rcases runsBind h with ⟨a,u,one,two⟩ | ⟨e,rfl,one⟩
  · obtain ⟨middle,value⟩ := first s _ u inv one
    exact later a (value a rfl) u r t middle two
  · exact ⟨(first s _ t inv one).1,fun a bad => by cases bad⟩

theorem upholdsForEach {f : α → Op σ ε Unit} (as : List α) (turn : ∀ a ∈ as, Upholds I (fun _ => True) (f a)) :
    Upholds I (fun _ => True) (Op.forEach f as) := by
  induction as with
  | nil => exact upholdsPure trivial
  | cons a rest ih =>
    exact upholdsBind (turn a (by simp)) fun _ _ => ih fun b mem => turn b (List.mem_cons_of_mem _ mem)

theorem upholdsCollect {f : α → Op σ ε β} (as : List α) (turn : ∀ a ∈ as, Upholds I Q (f a)) :
    Upholds I (fun bs => ∀ b ∈ bs, Q b) (Op.collect f as) := by
  induction as with
  | nil => exact upholdsPure (by simp)
  | cons a rest ih =>
    refine upholdsBind (turn a (by simp)) fun b here =>
      upholdsBind (ih fun c mem => turn c (List.mem_cons_of_mem _ mem)) fun bs more => upholdsPure fun c mem => ?_
    rcases List.mem_cons.mp mem with rfl | older
    · exact here
    · exact more c older

theorem upholdsAttempt {m : Op σ ε α} (inner : Upholds I P m) : Upholds I (fun _ => True) (Op.attempt m) := by
  intro s r t inv h
  refine ⟨?_,fun _ _ => trivial⟩
  rcases runsAttempt h with ⟨a,_,run⟩ | ⟨e,_,run⟩ | ⟨e,_,run⟩ <;> exact (inner s _ t inv run).1

theorem upholdsZoom {p : σ → τ} {q : τ → σ → σ} {m : Op τ ε α} (part : ∀ s d, I s → I (q d s)) :
    Upholds I (fun _ => True) (Op.zoom p q m) :=
  (withinZoom (R := fun s t => I s → I t) part).upholds fun _ _ along inv => along inv

theorem upholdsPart {p : τ → σ} {q : σ → τ → τ} {m : Op σ ε α} (inner : Upholds I P m) (back : ∀ d t, p (q d t) = d) :
    Upholds (fun t => I (p t)) P (Op.zoom p q m) := by
  intro s r t inv h
  obtain ⟨d,run,rfl⟩ := runsZoom h
  dsimp only
  rw [back]
  exact inner _ _ _ inv run

end DigBlockstore.Faulty
