import DigBlockstore.Library.Faulty

/-! What an operation may do to its state, however it ends: a reflexive and transitive
relation between the states before and after, composed along the operation. -/
namespace DigBlockstore.Faulty
variable {σ τ ε α β : Type} {R : σ → σ → Prop}

def Within (R : σ → σ → Prop) (m : Op σ ε α) : Prop := ∀ s r t, Runs m s r t → R s t

theorem Within.mono {R' : σ → σ → Prop} {m : Op σ ε α} (within : Within R m) (sub : ∀ s t, R s t → R' s t) :
    Within R' m := fun s r t h => sub s t (within s r t h)

theorem withinModify {f : σ → σ} (here : ∀ s, R s (f s)) : Within R (Op.modify f : Op σ ε Unit) := by
  intro s r t h
  rw [(runsModify.mp h).2]
  exact here s

theorem withinAttempt {m : Op σ ε α} (inner : Within R m) : Within R (Op.attempt m) := by
  intro s r t h
  rcases runsAttempt h with ⟨a,_,run⟩ | ⟨e,_,run⟩ | ⟨e,_,run⟩ <;> exact inner s _ t run

/- What it may do when it fails. -/
def FailsWithin (R : σ → σ → Prop) (m : Op σ ε α) : Prop := ∀ s e t, Runs m s (.error e) t → R s t

theorem Within.fails {m : Op σ ε α} (within : Within R m) : FailsWithin R m := fun s _ t h => within s _ t h

section Composition
variable [IsPreorder σ R]

theorem withinPure (a : α) : Within R (pure a : Op σ ε α) := by
  intro s r t h
  rw [(runsPure.mp h).2]
  exact refl_of R s

theorem withinStop (e : Stop ε) : Within R (Op.stop e : Op σ ε α) := by
  intro s r t h
  rw [(runsStop.mp h).2]
  exact refl_of R s

theorem withinError (e : ε) : Within R (Op.error e : Op σ ε α) := withinStop _

theorem withinPanic (message : String) : Within R (Op.panic message : Op σ ε α) := withinStop _

theorem withinGet : Within R (Op.get : Op σ ε σ) := by
  intro s r t h
  rw [(runsGet.mp h).2]
  exact refl_of R s

theorem withinStep (failure : String → ε) : Within R (Op.step failure : Op σ ε Unit) := by
  intro s r t h
  rw [(runsStep.mp h).1]
  exact refl_of R s

theorem withinOfExcept (x : Except ε α) : Within R (Op.ofExcept x : Op σ ε α) := by
  cases x with
  | ok a => exact withinPure a
  | error e => exact withinError e

theorem withinLift (x : Except (Stop ε) α) : Within R (Op.lift x : Op σ ε α) := by
  cases x with
  | ok a => exact withinPure a
  | error e => exact withinStop e

theorem withinBind {m : Op σ ε α} {f : α → Op σ ε β} (first : Within R m) (later : ∀ a, Within R (f a)) :
    Within R (m >>= f) := by
  intro s r t h
  rcases runsBind h with ⟨a,u,one,two⟩ | ⟨e,_,one⟩
  · exact trans_of R (first s _ u one) (later a u r t two)
  · exact first s _ t one

theorem failsBind {m : Op σ ε α} {f : α → Op σ ε β} (first : Within R m) (later : ∀ a, FailsWithin R (f a)) :
    FailsWithin R (m >>= f) := by
  intro s e t h
  rcases runsBind h with ⟨a,u,one,two⟩ | ⟨e,_,one⟩
  · exact trans_of R (first s _ u one) (later a u e t two)
  · exact first s _ t one

theorem withinForEach {f : α → Op σ ε Unit} (as : List α) (turn : ∀ a ∈ as, Within R (f a)) :
    Within R (Op.forEach f as) := by
  induction as with
  | nil => exact withinPure ()
  | cons a rest ih =>
    exact withinBind (turn a (by simp)) fun _ => ih fun b mem => turn b (List.mem_cons_of_mem _ mem)

theorem withinCollect {f : α → Op σ ε β} (as : List α) (turn : ∀ a ∈ as, Within R (f a)) :
    Within R (Op.collect f as) := by
  induction as with
  | nil => exact withinPure []
  | cons a rest ih =>
    exact withinBind (turn a (by simp)) fun _ =>
      withinBind (ih fun b mem => turn b (List.mem_cons_of_mem _ mem)) fun _ => withinPure _

end Composition

theorem withinZoom {p : σ → τ} {q : τ → σ → σ} {m : Op τ ε α} (part : ∀ s d, R s (q d s)) :
    Within R (Op.zoom p q m) := by
  intro s r t h
  obtain ⟨d,_,rfl⟩ := runsZoom h
  exact part s d

instance partPreorder (part : τ → σ) [IsPreorder σ R] : IsPreorder τ (InvImage R part) where
  refl t := refl_of R (part t)
  trans _ _ _ := trans_of R

theorem withinPart {p : τ → σ} {q : σ → τ → τ} {m : Op σ ε α} (inner : Within R m) (back : ∀ d t, p (q d t) = d) :
    Within (InvImage R p) (Op.zoom p q m) := by
  intro s r t h
  obtain ⟨d,run,rfl⟩ := runsZoom h
  change R (p s) (p (q d s))
  rw [back]
  exact inner _ _ _ run

end DigBlockstore.Faulty
