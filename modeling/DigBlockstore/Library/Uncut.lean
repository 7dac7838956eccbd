import DigBlockstore.Library.Faulty

/-! Operations that come to an end, with an answer, an error or a panic, once no external step
fails or crashes any more. -/
namespace DigBlockstore.Faulty
variable {σ τ ε α β : Type}

/- Past the end of the script the operation ends, and not by a crash. -/
def Uncut (m : Op σ ε α) : Prop := ∀ s, ∃ r t, Clean m s r t ∧ r ≠ .error .crash

theorem uncutPure (a : α) : Uncut (pure a : Op σ ε α) := fun s => ⟨_,_,cleanPure a s,by simp⟩

theorem uncutGet : Uncut (Op.get : Op σ ε σ) := fun s => ⟨_,_,cleanGet s,by simp⟩

theorem uncutModify (f : σ → σ) : Uncut (Op.modify f : Op σ ε Unit) := fun s => ⟨_,_,cleanModify f s,by simp⟩

theorem uncutStep (failure : String → ε) : Uncut (Op.step failure : Op σ ε Unit) := fun s =>
  ⟨_,_,cleanStep failure s,by simp⟩

theorem uncutError (e : ε) : Uncut (Op.error e : Op σ ε α) := fun s => ⟨_,_,cleanError e s,by simp⟩

theorem uncutOfExcept (x : Except ε α) : Uncut (Op.ofExcept x : Op σ ε α) := by
  cases x with
  | ok a => exact uncutPure a
  | error e => exact uncutError e

theorem uncutBind {m : Op σ ε α} {f : α → Op σ ε β} (first : Uncut m) (later : ∀ a, Uncut (f a)) : Uncut (m >>= f) := by
  intro s
  obtain ⟨r,u,one,whole⟩ := first s
  cases r with
  | ok a =>
    obtain ⟨r',t,two,whole'⟩ := later a u
    exact ⟨r',t,cleanBind one two,whole'⟩
  | error e =>
    refine ⟨.error e,u,?_,fun crash => whole (by cases crash; rfl)⟩
    change Op.bind m f ⟨s,[]⟩ = _
    unfold Op.bind
    rw [show m ⟨s,[]⟩ = _ from one]

theorem uncutForEach {f : α → Op σ ε Unit} (as : List α) (turn : ∀ a, Uncut (f a)) : Uncut (Op.forEach f as) := by
  induction as with
  | nil => exact uncutPure ()
  | cons a rest ih => exact uncutBind (turn a) fun _ => ih

theorem uncutAttempt {m : Op σ ε α} (inner : Uncut m) : Uncut (Op.attempt m) := by
  intro s
  obtain ⟨r,t,ran,whole⟩ := inner s
  unfold Clean Op.attempt
  rw [show m ⟨s,[]⟩ = _ from ran]
  cases r with
  | ok a => exact ⟨_,_,rfl,by simp⟩
  | error e =>
    cases e with
    | error e => exact ⟨_,_,rfl,by simp⟩
    | panic message => exact ⟨_,_,rfl,by simp⟩
    | crash => exact absurd rfl whole

theorem uncutZoom {p : σ → τ} {q : τ → σ → σ} {m : Op τ ε α} (inner : Uncut m) : Uncut (Op.zoom p q m) := by
  intro s
  obtain ⟨r,d,ran,whole⟩ := inner (p s)
  exact ⟨r,_,cleanZoom ran,whole⟩

end DigBlockstore.Faulty
