import Mathlib

/-! Operations whose external steps may fail or be cut short by a crash.
A script gives the outcome of each external step in order; past its end every step
succeeds. The state reached is kept on every exit, so what a failed operation leaves
behind can be stated. -/
namespace DigBlockstore.Faulty

inductive Event where
  | ok
  | fail (why : String)
  | crash
  deriving DecidableEq, Repr

inductive Stop (ε : Type) where
  | error (e : ε)
  | panic (message : String)
  | crash
  deriving DecidableEq, Repr

structure World (σ : Type) where
  state : σ
  script : List Event

def Op (σ ε α : Type) := World σ → Except (Stop ε) α × World σ

variable {σ τ ε α β : Type}

namespace Op

def bind (m : Op σ ε α) (f : α → Op σ ε β) : Op σ ε β := fun w =>
  match m w with
  | (.ok a, w') => f a w'
  | (.error e, w') => (.error e, w')

instance : Monad (Op σ ε) where
  pure a := fun w => (.ok a, w)
  bind := Op.bind

def get : Op σ ε σ := fun w => (.ok w.state, w)

def modify (f : σ → σ) : Op σ ε Unit := fun w => (.ok (), ⟨f w.state, w.script⟩)

def stop (e : Stop ε) : Op σ ε α := fun w => (.error e, w)

def error (e : ε) : Op σ ε α := stop (.error e)

def panic (message : String) : Op σ ε α := stop (.panic message)

/- One external step: the script decides whether it succeeds. -/
def step (failure : String → ε) : Op σ ε Unit := fun w =>
  match w.script with
  | [] => (.ok (), w)
  | .ok :: rest => (.ok (), ⟨w.state, rest⟩)
  | .fail why :: rest => (.error (.error (failure why)), ⟨w.state, rest⟩)
  | .crash :: rest => (.error .crash, ⟨w.state, rest⟩)

def lift : Except (Stop ε) α → Op σ ε α
  | .ok a => pure a
  | .error e => stop e

def ofExcept : Except ε α → Op σ ε α
  | .ok a => pure a
  | .error e => error e

/- Returned errors become values; a panic or a crash still ends the operation. -/
def attempt (m : Op σ ε α) : Op σ ε (Except ε α) := fun w =>
  match m w with
  | (.ok a, w') => (.ok (.ok a), w')
  | (.error (.error e), w') => (.ok (.error e), w')
  | (.error (.panic message), w') => (.error (.panic message), w')
  | (.error .crash, w') => (.error .crash, w')

def zoom (part : σ → τ) (put : τ → σ → σ) (m : Op τ ε α) : Op σ ε α := fun w =>
  match m ⟨part w.state, w.script⟩ with
  | (r, w') => (r, ⟨put w'.state w.state, w'.script⟩)

def forEach (f : α → Op σ ε Unit) : List α → Op σ ε Unit
  | [] => pure ()
  | a :: rest => do
      f a
      forEach f rest

def collect (f : α → Op σ ε β) : List α → Op σ ε (List β)
  | [] => pure []
  | a :: rest => do
      let b ← f a
      let bs ← collect f rest
      pure (b :: bs)

end Op

/- Some script takes the operation from `s` to `t` with result `r`. -/
def Runs (m : Op σ ε α) (s : σ) (r : Except (Stop ε) α) (t : σ) : Prop :=
  ∃ script rest, m ⟨s,script⟩ = (r,⟨t,rest⟩)

/- The run in which no external step fails. -/
def Clean (m : Op σ ε α) (s : σ) (r : Except (Stop ε) α) (t : σ) : Prop :=
  m ⟨s,[]⟩ = (r,⟨t,[]⟩)

theorem Clean.runs {m : Op σ ε α} {s r t} (h : Clean m s r t) : Runs m s r t := ⟨[],[],h⟩

theorem Runs.ofResult {m : Op σ ε α} {s : σ} {r : Except (Stop ε) α} (h : (m ⟨s,[]⟩).1 = r) :
    Runs m s r (m ⟨s,[]⟩).2.state := ⟨[],_,Prod.ext h rfl⟩

theorem okOfIsSome {x : Except ε α} (ok : x.toOption.isSome = true) : ∃ a, x = .ok a := by
  cases x with
  | error e => cases ok
  | ok a => exact ⟨a,rfl⟩

theorem Clean.unique {m : Op σ ε α} {s r r' t t'} (h : Clean m s r t) (h' : Clean m s r' t') :
    r = r' ∧ t = t' := by
  unfold Clean at h h'
  rw [h] at h'
  injection h' with hr hw
  injection hw with ht
  exact ⟨hr,ht⟩

section Inversion

theorem runsPure {a : α} {s t : σ} {r : Except (Stop ε) α} :
    Runs (pure a : Op σ ε α) s r t ↔ r = .ok a ∧ t = s := by
  constructor
  · rintro ⟨script,rest,h⟩
    injection h with hr hw
    injection hw with ht
    exact ⟨hr.symm,ht.symm⟩
  · rintro ⟨rfl,rfl⟩
    exact ⟨[],[],rfl⟩

theorem runsGet {s t : σ} {r : Except (Stop ε) σ} :
    Runs (Op.get : Op σ ε σ) s r t ↔ r = .ok s ∧ t = s := by
  constructor
  · rintro ⟨script,rest,h⟩
    injection h with hr hw
    injection hw with ht
    exact ⟨hr.symm,ht.symm⟩
  · rintro ⟨rfl,rfl⟩
    exact ⟨[],[],rfl⟩

theorem runsModify {f : σ → σ} {s t : σ} {r : Except (Stop ε) Unit} :
    Runs (Op.modify f : Op σ ε Unit) s r t ↔ r = .ok () ∧ t = f s := by
  constructor
  · rintro ⟨script,rest,h⟩
    injection h with hr hw
    injection hw with ht
    exact ⟨hr.symm,ht.symm⟩
  · rintro ⟨rfl,rfl⟩
    exact ⟨[],[],rfl⟩

theorem runsStop {e : Stop ε} {s t : σ} {r : Except (Stop ε) α} :
    Runs (Op.stop e : Op σ ε α) s r t ↔ r = .error e ∧ t = s := by
  constructor
  · rintro ⟨script,rest,h⟩
    injection h with hr hw
    injection hw with ht
    exact ⟨hr.symm,ht.symm⟩
  · rintro ⟨rfl,rfl⟩
    exact ⟨[],[],rfl⟩

theorem runsError {e : ε} {s t : σ} {r : Except (Stop ε) α} :
    Runs (Op.error e : Op σ ε α) s r t ↔ r = .error (.error e) ∧ t = s := runsStop

theorem runsPanic {message : String} {s t : σ} {r : Except (Stop ε) α} :
    Runs (Op.panic message : Op σ ε α) s r t ↔ r = .error (.panic message) ∧ t = s := runsStop

theorem runsStep {failure : String → ε} {s t : σ} {r : Except (Stop ε) Unit} :
    Runs (Op.step failure : Op σ ε Unit) s r t ↔
      t = s ∧ (r = .ok () ∨ (∃ why, r = .error (.error (failure why))) ∨ r = .error .crash) := by
  constructor
  · rintro ⟨script,rest,h⟩
    cases script with
    | nil =>
      injection h with hr hw
      injection hw with ht
      exact ⟨ht.symm,.inl hr.symm⟩
    | cons event later =>
      cases event with
      | ok =>
        injection h with hr hw
        injection hw with ht
        exact ⟨ht.symm,.inl hr.symm⟩
      | fail why =>
        injection h with hr hw
        injection hw with ht
        exact ⟨ht.symm,.inr (.inl ⟨why,hr.symm⟩)⟩
      | crash =>
        injection h with hr hw
        injection hw with ht
        exact ⟨ht.symm,.inr (.inr hr.symm)⟩
  · rintro ⟨rfl,rfl | ⟨why,rfl⟩ | rfl⟩
    · exact ⟨[],[],rfl⟩
    · exact ⟨[.fail why],[],rfl⟩
    · exact ⟨[.crash],[],rfl⟩

@[simp] theorem runsGetBind {f : σ → Op σ ε β} {s t : σ} {r : Except (Stop ε) β} :
    Runs (Op.get >>= f) s r t ↔ Runs (f s) s r t := Iff.rfl

@[simp] theorem runsModifyBind {g : σ → σ} {f : Unit → Op σ ε β} {s t : σ} {r : Except (Stop ε) β} :
    Runs (Op.modify g >>= f) s r t ↔ Runs (f ()) (g s) r t := Iff.rfl

@[simp] theorem runsPureBind {a : α} {f : α → Op σ ε β} {s t : σ} {r : Except (Stop ε) β} :
    Runs ((pure a : Op σ ε α) >>= f) s r t ↔ Runs (f a) s r t := Iff.rfl

theorem runsBind {m : Op σ ε α} {f : α → Op σ ε β} {s t : σ} {r : Except (Stop ε) β}
    (h : Runs (m >>= f) s r t) :
    (∃ a u, Runs m s (.ok a) u ∧ Runs (f a) u r t) ∨
      ∃ e, r = .error e ∧ Runs m s (.error e) t := by
  obtain ⟨script,rest,h⟩ := h
  change Op.bind m f ⟨s,script⟩ = _ at h
  unfold Op.bind at h
  split at h
  · rename_i a w first
    exact .inl ⟨a,w.state,⟨script,w.script,first⟩,⟨w.script,rest,h⟩⟩
  · rename_i e w first
    injection h with hr hw
    subst hr hw
    exact .inr ⟨e,rfl,⟨script,rest,first⟩⟩

theorem runsBindOk {m : Op σ ε α} {f : α → Op σ ε β} {s t : σ} {b : β}
    (h : Runs (m >>= f) s (.ok b) t) : ∃ a u, Runs m s (.ok a) u ∧ Runs (f a) u (.ok b) t := by
  rcases runsBind h with found | ⟨e,impossible,_⟩
  · exact found
  · cases impossible

theorem runsStepOk {failure : String → ε} {s t : σ} {u : Unit}
    (h : Runs (Op.step failure : Op σ ε Unit) s (.ok u) t) : t = s := (runsStep.mp h).1

theorem runsLift {x : Except (Stop ε) α} {s t : σ} {r : Except (Stop ε) α}
    (h : Runs (Op.lift x : Op σ ε α) s r t) : r = x ∧ t = s := by
  cases x with
  | ok a => exact runsPure.mp h
  | error e => exact runsStop.mp h

theorem runsOfExcept {x : Except ε α} {s t : σ} {r : Except (Stop ε) α}
    (h : Runs (Op.ofExcept x : Op σ ε α) s r t) :
    t = s ∧ ((∃ a, x = .ok a ∧ r = .ok a) ∨ ∃ e, x = .error e ∧ r = .error (.error e)) := by
  cases x with
  | ok a =>
    obtain ⟨hr,ht⟩ := runsPure.mp h
    exact ⟨ht,.inl ⟨a,rfl,hr⟩⟩
  | error e =>
    obtain ⟨hr,ht⟩ := runsError.mp h
    exact ⟨ht,.inr ⟨e,rfl,hr⟩⟩

theorem runsOfExceptOk {x : Except ε α} {s t : σ} {a : α}
    (h : Runs (Op.ofExcept x : Op σ ε α) s (.ok a) t) : x = .ok a ∧ t = s := by
  obtain ⟨ht,⟨b,hx,hr⟩ | ⟨e,_,hr⟩⟩ := runsOfExcept h
  · cases hr
    exact ⟨hx,ht⟩
  · cases hr

theorem runsAttempt {m : Op σ ε α} {s t : σ} {r : Except (Stop ε) (Except ε α)}
    (h : Runs (Op.attempt m) s r t) :
    (∃ a, r = .ok (.ok a) ∧ Runs m s (.ok a) t) ∨
      (∃ e, r = .ok (.error e) ∧ Runs m s (.error (.error e)) t) ∨
      ∃ e, r = .error e ∧ Runs m s (.error e) t := by
  obtain ⟨script,rest,h⟩ := h
  unfold Op.attempt at h
  split at h <;> rename_i w first <;> injection h with hr hw <;> subst hr hw
  · exact .inl ⟨_,rfl,script,rest,first⟩
  · exact .inr (.inl ⟨_,rfl,script,rest,first⟩)
  · exact .inr (.inr ⟨_,rfl,script,rest,first⟩)
  · exact .inr (.inr ⟨_,rfl,script,rest,first⟩)

theorem runsZoom {p : σ → τ} {q : τ → σ → σ} {m : Op τ ε α} {s t : σ}
    {r : Except (Stop ε) α} (h : Runs (Op.zoom p q m) s r t) :
    ∃ d, Runs m (p s) r d ∧ t = q d s := by
  obtain ⟨script,rest,h⟩ := h
  unfold Op.zoom at h
  obtain ⟨⟨r',w⟩,run⟩ : ∃ x, m ⟨p s,script⟩ = x := ⟨_,rfl⟩
  rw [run] at h
  injection h with hr hw
  injection hw with ht hs
  subst hr
  exact ⟨w.state,⟨script,w.script,run⟩,ht.symm⟩

end Inversion

section Exact

def eventAt (script : List Event) (i : Nat) : Event := script.getD i .ok

theorem eventAtTail (script : List Event) (i : Nat) : eventAt script.tail i = eventAt script (i + 1) := by
  cases script <;> rfl

theorem eventAtDrop (script : List Event) (n i : Nat) : eventAt (script.drop n) i = eventAt script (n + i) := by
  unfold eventAt
  rw [List.getD_eq_getElem?_getD,List.getD_eq_getElem?_getD,List.getElem?_drop]

theorem stepAt (failure : String → ε) (s : σ) (script : List Event) :
    (Op.step failure : Op σ ε Unit) ⟨s,script⟩ = match eventAt script 0 with
      | .ok => (.ok (),⟨s,script.tail⟩)
      | .fail why => (.error (.error (failure why)),⟨s,script.tail⟩)
      | .crash => (.error .crash,⟨s,script.tail⟩) := by
  cases script with
  | nil => rfl
  | cons event rest => cases event <;> rfl

theorem bindAt {m : Op σ ε α} {f : α → Op σ ε β} {w w' : World σ} {r : Except (Stop ε) β}
    (h : (m >>= f) w = (r,w')) :
    (∃ a v, m w = (.ok a,v) ∧ f a v = (r,w')) ∨ ∃ e, r = .error e ∧ m w = (.error e,w') := by
  change Op.bind m f w = _ at h
  unfold Op.bind at h
  split at h
  · rename_i a v first
    exact .inl ⟨a,v,first,h⟩
  · rename_i e v first
    injection h with hr hw
    subst hr hw
    exact .inr ⟨e,rfl,first⟩

theorem bindOk {m : Op σ ε α} (f : α → Op σ ε β) {w w' : World σ} {a : α} (first : m w = (.ok a,w')) :
    (m >>= f) w = f a w' := by
  change Op.bind m f w = _
  unfold Op.bind
  rw [first]

theorem bindError {m : Op σ ε α} (f : α → Op σ ε β) {w : World σ} {e : Stop ε} (first : (m w).1 = .error e) :
    ((m >>= f) w).1 = .error e := by
  change (Op.bind m f w).1 = _
  unfold Op.bind
  split
  · rename_i same
    rw [same] at first
    cases first
  · rename_i same
    rw [same] at first
    cases first
    rfl

theorem attemptAt {m : Op σ ε α} {w w' : World σ} {r : Except (Stop ε) (Except ε α)}
    (h : Op.attempt m w = (r,w')) :
    (∃ a, r = .ok (.ok a) ∧ m w = (.ok a,w')) ∨ (∃ e, r = .ok (.error e) ∧ m w = (.error (.error e),w')) ∨
      (∃ message, r = .error (.panic message) ∧ m w = (.error (.panic message),w')) ∨
      r = .error .crash ∧ m w = (.error .crash,w') := by
  unfold Op.attempt at h
  split at h <;> rename_i v first <;> injection h with hr hw <;> subst hr hw
  · exact .inl ⟨_,rfl,first⟩
  · exact .inr (.inl ⟨_,rfl,first⟩)
  · exact .inr (.inr (.inl ⟨_,rfl,first⟩))
  · exact .inr (.inr (.inr ⟨rfl,first⟩))

end Exact

section Loops

theorem runsForEach {I : σ → Prop} {f : α → Op σ ε Unit} {as : List α} {s t : σ}
    {r : Except (Stop ε) Unit} (h : Runs (Op.forEach f as) s r t) (start : I s)
    (turn : ∀ a ∈ as, ∀ u v r, I u → Runs (f a) u r v → I v) : I t := by
  induction as generalizing s with
  | nil =>
    obtain ⟨_,rfl⟩ := runsPure.mp h
    exact start
  | cons a rest ih =>
    rcases runsBind h with ⟨_,u,first,later⟩ | ⟨e,_,first⟩
    · exact ih later (turn a (by simp) s u _ start first)
        fun b mem => turn b (List.mem_cons_of_mem _ mem)
    · exact turn a (by simp) s t _ start first

theorem runsCollect {I : σ → Prop} {f : α → Op σ ε β} {as : List α} {s t : σ}
    {r : Except (Stop ε) (List β)} (h : Runs (Op.collect f as) s r t) (start : I s)
    (turn : ∀ a ∈ as, ∀ u v r, I u → Runs (f a) u r v → I v) : I t := by
  induction as generalizing s r with
  | nil =>
    obtain ⟨_,rfl⟩ := runsPure.mp h
    exact start
  | cons a rest ih =>
    rcases runsBind h with ⟨b,u,first,later⟩ | ⟨e,_,first⟩
    · have kept := turn a (by simp) s u _ start first
      have turns := fun b (mem : b ∈ rest) => turn b (List.mem_cons_of_mem _ mem)
      rcases runsBind later with ⟨bs,v,middle,last⟩ | ⟨e,_,middle⟩
      · obtain ⟨_,rfl⟩ := runsPure.mp last
        exact ih middle kept turns
      · exact ih middle kept turns
    · exact turn a (by simp) s t _ start first

theorem collectAnswers {I : σ → Prop} {f : α → Op σ ε β} {answer : α → β} {as : List α} {s t : σ}
    {bs : List β} (h : Runs (Op.collect f as) s (.ok bs) t) (start : I s)
    (turn : ∀ a ∈ as, ∀ u v b, I u → Runs (f a) u (.ok b) v → I v ∧ b = answer a) :
    I t ∧ bs = as.map answer := by
  induction as generalizing s bs with
  | nil =>
    obtain ⟨hr,rfl⟩ := runsPure.mp h
    cases hr
    exact ⟨start,rfl⟩
  | cons a rest ih =>
    obtain ⟨b,u,first,later⟩ := runsBindOk h
    obtain ⟨bs',v,middle,last⟩ := runsBindOk later
    obtain ⟨hr,rfl⟩ := runsPure.mp last
    cases hr
    obtain ⟨kept,same⟩ := turn a (by simp) s u b start first
    obtain ⟨done,rest'⟩ := ih middle kept fun c mem => turn c (List.mem_cons_of_mem _ mem)
    exact ⟨done,by simp [same,rest']⟩

end Loops

section Forward

theorem cleanPure (a : α) (s : σ) : Clean (pure a : Op σ ε α) s (.ok a) s := rfl

theorem cleanGet (s : σ) : Clean (Op.get : Op σ ε σ) s (.ok s) s := rfl

theorem cleanModify (f : σ → σ) (s : σ) : Clean (Op.modify f : Op σ ε Unit) s (.ok ()) (f s) := rfl

theorem cleanStep (failure : String → ε) (s : σ) :
    Clean (Op.step failure : Op σ ε Unit) s (.ok ()) s := rfl

theorem cleanError (e : ε) (s : σ) : Clean (Op.error e : Op σ ε α) s (.error (.error e)) s := rfl

theorem cleanBind {m : Op σ ε α} {f : α → Op σ ε β} {s u t : σ} {a : α} {r : Except (Stop ε) β}
    (first : Clean m s (.ok a) u) (later : Clean (f a) u r t) : Clean (m >>= f) s r t := by
  change Op.bind m f ⟨s,[]⟩ = _
  unfold Op.bind
  rw [first]
  exact later

@[simp] theorem cleanGetBind {f : σ → Op σ ε β} {s t : σ} {r : Except (Stop ε) β} :
    Clean (Op.get >>= f) s r t ↔ Clean (f s) s r t := Iff.rfl

@[simp] theorem cleanModifyBind {g : σ → σ} {f : Unit → Op σ ε β} {s t : σ} {r : Except (Stop ε) β} :
    Clean (Op.modify g >>= f) s r t ↔ Clean (f ()) (g s) r t := Iff.rfl

@[simp] theorem cleanPureBind {a : α} {f : α → Op σ ε β} {s t : σ} {r : Except (Stop ε) β} :
    Clean ((pure a : Op σ ε α) >>= f) s r t ↔ Clean (f a) s r t := Iff.rfl

theorem cleanZoom {p : σ → τ} {q : τ → σ → σ} {m : Op τ ε α} {s : σ} {d : τ}
    {r : Except (Stop ε) α} (h : Clean m (p s) r d) :
    Clean (Op.zoom p q m) s r (q d s) := by
  unfold Clean Op.zoom
  rw [show m ⟨p s,[]⟩ = _ from h]

end Forward

end DigBlockstore.Faulty
