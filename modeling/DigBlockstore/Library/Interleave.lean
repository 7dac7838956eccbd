import DigBlockstore.Library.Faulty

/-! Procedures as sequences of atomic steps on one shared state, and any number of them running at
once, their steps in any order. The rely rule proves each of them against what the steps of the
others may do. -/
namespace DigBlockstore.Faulty
variable {ι ℓ σ ε α β : Type}

/- `act` performs an operation whole and goes on with its value; the label says what it does to
the state it finds. -/
inductive Proc (ℓ σ ε α : Type) : Type 1 where
  | ret (r : Except (Stop ε) α)
  | act {β : Type} (label : σ → ℓ) (m : Op σ ε β) (next : β → Proc ℓ σ ε α)

namespace Proc

def bind : Proc ℓ σ ε α → (α → Proc ℓ σ ε β) → Proc ℓ σ ε β
  | ret (.ok a),f => f a
  | ret (.error e),_ => ret (.error e)
  | act label m next,f => act label m fun b => (next b).bind f

instance : Monad (Proc ℓ σ ε) where
  pure a := ret (.ok a)
  bind := Proc.bind

def atom (label : σ → ℓ) (m : Op σ ε α) : Proc ℓ σ ε α := act label m fun a => ret (.ok a)

def stop (e : Stop ε) : Proc ℓ σ ε α := ret (.error e)

def error (e : ε) : Proc ℓ σ ε α := stop (.error e)

def ofExcept : Except ε α → Proc ℓ σ ε α
  | .ok a => pure a
  | .error e => error e

def each (f : α → Proc ℓ σ ε Unit) : List α → Proc ℓ σ ε Unit
  | [] => pure ()
  | a :: rest => do
      f a
      each f rest

def gather (f : α → Proc ℓ σ ε β) : List α → Proc ℓ σ ε (List β)
  | [] => pure []
  | a :: rest => do
      let b ← f a
      let bs ← gather f rest
      pure (b :: bs)

def attempt : Proc ℓ σ ε α → Proc ℓ σ ε (Except ε α)
  | ret (.ok a) => ret (.ok (.ok a))
  | ret (.error (.error e)) => ret (.ok (.error e))
  | ret (.error (.panic message)) => ret (.error (.panic message))
  | ret (.error .crash) => ret (.error .crash)
  | act label m next => act label (Op.attempt m) fun
      | .ok b => (next b).attempt
      | .error e => ret (.ok (.error e))

/- Every step ends and changes the state as the relation says of its label. -/
def Moves (R : σ → ℓ → σ → Prop) : Proc ℓ σ ε α → Prop
  | ret _ => True
  | act label m next => (∀ s, ∃ r t, Clean m s r t ∧ R s (label s) t) ∧ ∀ b, (next b).Moves R

def Blind (R : σ → σ → Prop) : Proc ℓ σ ε α → Prop
  | ret _ => True
  | act _ m next => (∀ s t r t', R s t → Clean m t r t' → ∃ s', Clean m s r s' ∧ R s' t') ∧ ∀ b, (next b).Blind R

/- The procedure with nothing else running. -/
def alone : Proc ℓ σ ε α → Op σ ε α
  | ret r => Op.lift r
  | act _ m next => m >>= fun b => (next b).alone

def result? : Proc ℓ σ ε α → Option (Except (Stop ε) α)
  | ret r => some r
  | act .. => none

def resume (next : β → Proc ℓ σ ε α) : Except (Stop ε) β → Proc ℓ σ ε α
  | .ok b => next b
  | .error e => ret (.error e)

/- One step: its label, what is left of the procedure, and the world after it. -/
def advance : Proc ℓ σ ε α → World σ → Option (ℓ × Proc ℓ σ ε α × World σ)
  | ret _,_ => none
  | act label m next,w => some (label w.state,resume next (m w).1,(m w).2)

end Proc

section Alone
open Proc

theorem opBindPure (m : Op σ ε α) : (m >>= fun a => pure a) = m := by
  funext w
  change Op.bind m _ w = _
  unfold Op.bind
  split <;> rename_i run <;> exact run.symm

theorem opBindAssoc {γ : Type} (m : Op σ ε α) (f : α → Op σ ε β) (g : β → Op σ ε γ) :
    m >>= f >>= g = m >>= fun a => f a >>= g := by
  funext w
  change Op.bind (Op.bind m f) g w = Op.bind m (fun a => Op.bind (f a) g) w
  unfold Op.bind
  cases m w with
  | mk r w' => cases r <;> rfl

@[simp] theorem alonePure (a : α) : (pure a : Proc ℓ σ ε α).alone = pure a := rfl

@[simp] theorem aloneStop (e : Stop ε) : (stop e : Proc ℓ σ ε α).alone = Op.stop e := rfl

@[simp] theorem aloneError (e : ε) : (error e : Proc ℓ σ ε α).alone = Op.error e := rfl

@[simp] theorem aloneAtom (label : σ → ℓ) (m : Op σ ε α) : (atom label m).alone = m := opBindPure m

@[simp] theorem aloneOfExcept (x : Except ε α) : (Proc.ofExcept x : Proc ℓ σ ε α).alone = Op.ofExcept x := by
  cases x <;> rfl

@[simp] theorem aloneBind (p : Proc ℓ σ ε α) (f : α → Proc ℓ σ ε β) :
    (p >>= f).alone = p.alone >>= fun a => (f a).alone := by
  change (p.bind f).alone = _
  induction p with
  | ret r => cases r <;> rfl
  | act label m next ih =>
    change (m >>= fun b => ((next b).bind f).alone) = (m >>= fun b => (next b).alone) >>= fun a => (f a).alone
    rw [opBindAssoc]
    congr 1
    funext b
    exact ih b

@[simp] theorem aloneEach (f : α → Proc ℓ σ ε Unit) (as : List α) :
    (each f as).alone = Op.forEach (fun a => (f a).alone) as := by
  induction as with
  | nil => rfl
  | cons a rest ih => rw [each,aloneBind,ih]; rfl

@[simp] theorem aloneGather (f : α → Proc ℓ σ ε β) (as : List α) :
    (gather f as).alone = Op.collect (fun a => (f a).alone) as := by
  induction as with
  | nil => rfl
  | cons a rest ih =>
    simp only [gather,aloneBind,ih,alonePure]
    rfl

@[simp] theorem aloneAttempt (p : Proc ℓ σ ε α) : p.attempt.alone = Op.attempt p.alone := by
  induction p with
  | ret r => rcases r with (e | message | _) | a <;> rfl
  | act label m next ih =>
    funext w
    unfold Proc.attempt alone
    change Op.bind _ _ w = Op.attempt (Op.bind _ _) w
    unfold Op.attempt Op.bind
    rcases run : m w with ⟨(e | message | _) | b,v⟩
    · simp only [run]; rfl
    · simp only [run]
    · simp only [run]
    · simp only [run,ih]; rfl

end Alone

section Settles

def Settles (m : Op σ ε α) : Prop := ∀ s, ∃ r t, Clean m s r t

theorem settlesPure (a : α) : Settles (pure a : Op σ ε α) := fun s => ⟨_,s,rfl⟩

theorem settlesStop (e : Stop ε) : Settles (Op.stop e : Op σ ε α) := fun s => ⟨_,s,rfl⟩

theorem settlesGet : Settles (Op.get : Op σ ε σ) := fun s => ⟨_,s,rfl⟩

theorem settlesModify (f : σ → σ) : Settles (Op.modify f : Op σ ε Unit) := fun s => ⟨_,f s,rfl⟩

theorem settlesStep (failure : String → ε) : Settles (Op.step failure : Op σ ε Unit) := fun s => ⟨_,s,rfl⟩

theorem settlesBind {m : Op σ ε α} {f : α → Op σ ε β} (first : Settles m) (later : ∀ a, Settles (f a)) : Settles (m >>= f) := by
  intro s
  obtain ⟨r,u,ran⟩ := first s
  change ∃ r t, Op.bind m f ⟨s,[]⟩ = _
  unfold Op.bind
  rw [show m ⟨s,[]⟩ = _ from ran]
  cases r with
  | ok a => exact later a u
  | error e => exact ⟨_,u,rfl⟩

theorem settlesZoom {τ : Type} {part : σ → τ} {put : τ → σ → σ} {m : Op τ ε α} (inner : Settles m) : Settles (Op.zoom part put m) := by
  intro s
  obtain ⟨r,t,ran⟩ := inner (part s)
  refine ⟨r,put t s,?_⟩
  unfold Clean Op.zoom
  dsimp only
  rw [show m ⟨part s,[]⟩ = _ from ran]

end Settles

section Moves
open Proc
variable {R : σ → ℓ → σ → Prop}

theorem Proc.Moves.bind {p : Proc ℓ σ ε α} {f : α → Proc ℓ σ ε β} (first : p.Moves R) (later : ∀ a, (f a).Moves R) :
    (p >>= f).Moves R := by
  change (p.bind f).Moves R
  induction p with
  | ret r =>
    cases r with
    | ok a => exact later a
    | error e => trivial
  | act label m next ih => exact ⟨first.1,fun b => ih b (first.2 b)⟩

theorem movesAtom {label : σ → ℓ} {m : Op σ ε α} (here : ∀ s, ∃ r t, Clean m s r t ∧ R s (label s) t) :
    (atom label m).Moves R := ⟨here,fun _ => trivial⟩

theorem Proc.Moves.clean {p : Proc ℓ σ ε α} (moves : p.Moves R) (s : σ) : ∃ r t, Clean p.alone s r t := by
  induction p generalizing s with
  | ret r => exact ⟨r,s,by cases r <;> rfl⟩
  | act label m next ih =>
    obtain ⟨r,u,ran,_⟩ := moves.1 s
    cases r with
    | ok b =>
      obtain ⟨r,t,later⟩ := ih b (moves.2 b) u
      exact ⟨r,t,(bindOk _ ran).trans later⟩
    | error e =>
      refine ⟨.error e,u,?_⟩
      change Op.bind m _ _ = _
      unfold Op.bind
      rw [show m ⟨s,[]⟩ = _ from ran]

theorem movesGather {f : α → Proc ℓ σ ε β} (as : List α) (turn : ∀ a ∈ as, (f a).Moves R) : (gather f as).Moves R := by
  induction as with
  | nil => trivial
  | cons a rest ih =>
    exact (turn a (by simp)).bind fun _ =>
      (ih fun b mem => turn b (List.mem_cons_of_mem _ mem)).bind fun _ => trivial

theorem Proc.Blind.bind {R : σ → σ → Prop} {p : Proc ℓ σ ε α} {f : α → Proc ℓ σ ε β} (first : p.Blind R)
    (later : ∀ a, (f a).Blind R) : (p >>= f).Blind R := by
  change (p.bind f).Blind R
  induction p with
  | ret r =>
    cases r with
    | ok a => exact later a
    | error e => trivial
  | act label m next ih => exact ⟨first.1,fun b => ih b (first.2 b)⟩

theorem blindAtom {R : σ → σ → Prop} {label : σ → ℓ} {m : Op σ ε α}
    (here : ∀ s t r t', R s t → Clean m t r t' → ∃ s', Clean m s r s' ∧ R s' t') : (atom label m).Blind R :=
  ⟨here,fun _ => trivial⟩

theorem blindGather {R : σ → σ → Prop} {f : α → Proc ℓ σ ε β} (as : List α) (turn : ∀ a, (f a).Blind R) :
    (gather f as).Blind R := by
  induction as with
  | nil => trivial
  | cons a rest ih => exact (turn a).bind fun _ => ih.bind fun _ => trivial

end Moves

section Goes
open Proc
variable {R : σ → ℓ → σ → Prop} {marked : ℓ → Prop} {P : α → Prop} {Q : β → Prop}

/- Every step ends, and one whose label is not marked returns and changes the state as the relation
says of its label; the value returned is as the postcondition says. -/
def Proc.Goes (R : σ → ℓ → σ → Prop) (marked : ℓ → Prop) (P : α → Prop) : Proc ℓ σ ε α → Prop
  | ret r => ∃ a, r = .ok a ∧ P a
  | act label m next => ∀ s, ∃ r t, Clean m s r t ∧
      (marked (label s) ∨ R s (label s) t ∧ ∃ b, r = .ok b ∧ (next b).Goes R marked P)

theorem goesPure {a : α} (here : P a) : (pure a : Proc ℓ σ ε α).Goes R marked P := ⟨a,rfl,here⟩

theorem goesAtom {label : σ → ℓ} {m : Op σ ε α}
    (here : ∀ s, ∃ r t, Clean m s r t ∧ (marked (label s) ∨ R s (label s) t ∧ ∃ a, r = .ok a ∧ P a)) :
    (atom label m).Goes R marked P := fun s => by
  obtain ⟨r,t,ran,mark | ⟨moved,a,rfl,holds⟩⟩ := here s
  · exact ⟨r,t,ran,.inl mark⟩
  · exact ⟨.ok a,t,ran,.inr ⟨moved,a,rfl,a,rfl,holds⟩⟩

theorem Proc.Goes.bind {p : Proc ℓ σ ε β} {f : β → Proc ℓ σ ε α} (first : p.Goes R marked Q)
    (later : ∀ b, Q b → (f b).Goes R marked P) : (p >>= f).Goes R marked P := by
  change (p.bind f).Goes R marked P
  induction p with
  | ret r =>
    obtain ⟨b,rfl,holds⟩ := first
    exact later b holds
  | act label m next ih =>
    intro s
    obtain ⟨r,t,ran,mark | ⟨moved,b,rfl,on⟩⟩ := first s
    · exact ⟨r,t,ran,.inl mark⟩
    · exact ⟨.ok b,t,ran,.inr ⟨moved,b,rfl,ih b on⟩⟩

theorem Proc.Goes.mono {P' : α → Prop} {p : Proc ℓ σ ε α} (goes : p.Goes R marked P) (sub : ∀ a, P a → P' a) :
    p.Goes R marked P' := by
  induction p with
  | ret r =>
    obtain ⟨a,same,holds⟩ := goes
    exact ⟨a,same,sub a holds⟩
  | act label m next ih =>
    intro s
    obtain ⟨r,t,ran,mark | ⟨moved,b,same,on⟩⟩ := goes s
    · exact ⟨r,t,ran,.inl mark⟩
    · exact ⟨r,t,ran,.inr ⟨moved,b,same,ih b on⟩⟩

theorem goesEach {f : α → Proc ℓ σ ε Unit} (as : List α) (turn : ∀ a ∈ as, (f a).Goes R marked fun _ => True) :
    (each f as).Goes R marked fun _ => True := by
  induction as with
  | nil => exact goesPure trivial
  | cons a rest ih => exact (turn a (by simp)).bind fun _ _ => ih fun b mem => turn b (List.mem_cons_of_mem _ mem)

theorem goesGather {f : α → Proc ℓ σ ε β} {T : α → β → Prop} (as : List α)
    (turn : ∀ a ∈ as, (f a).Goes R marked (T a)) : (gather f as).Goes R marked (List.Forall₂ T as) := by
  induction as with
  | nil => exact goesPure .nil
  | cons a rest ih =>
    exact (turn a (by simp)).bind fun b here => (ih fun c mem => turn c (List.mem_cons_of_mem _ mem)).bind fun bs all =>
      goesPure (.cons here all)

theorem Proc.Goes.attempt {p : Proc ℓ σ ε α} (goes : p.Goes R marked P) :
    p.attempt.Goes R marked fun r => ∃ a, r = .ok a ∧ P a := by
  induction p with
  | ret r =>
    obtain ⟨a,rfl,holds⟩ := goes
    exact ⟨.ok a,rfl,a,rfl,holds⟩
  | act label m next ih =>
    unfold Proc.attempt
    intro s
    obtain ⟨r,t,ran,on⟩ := goes s
    have ran' : m ⟨s,[]⟩ = (r,⟨t,[]⟩) := ran
    rcases on with mark | ⟨moved,b,rfl,on⟩
    · have ends : ∃ r' t', Clean (Op.attempt m) s r' t' := by
        unfold Clean Op.attempt
        rw [ran']
        rcases r with (e | message | _) | b
        · exact ⟨_,_,rfl⟩
        · exact ⟨_,_,rfl⟩
        · exact ⟨_,_,rfl⟩
        · exact ⟨_,_,rfl⟩
      obtain ⟨r',t',ran''⟩ := ends
      exact ⟨r',t',ran'',.inl mark⟩
    · refine ⟨.ok (.ok b),t,?_,.inr ⟨moved,.ok b,rfl,ih b on⟩⟩
      unfold Clean Op.attempt
      rw [ran']

end Goes

structure Live (ι ℓ σ ε α : Type) : Type 1 where
  world : World σ
  procs : ι → Proc ℓ σ ε α

def Live.start (s : σ) (procs : ι → Proc ℓ σ ε α) : Live ι ℓ σ ε α := ⟨⟨s,[]⟩,procs⟩

def Live.now (c : Live ι ℓ σ ε α) : σ := c.world.state

def Live.Finished (c : Live ι ℓ σ ε α) : Prop := ∀ i, (c.procs i).result?.isSome

section Orders
variable [DecidableEq ι]

def Live.after (c : Live ι ℓ σ ε α) (i : ι) (p : Proc ℓ σ ε α) (w : World σ) : Live ι ℓ σ ε α :=
  ⟨w,Function.update c.procs i p⟩

/- The steps taken so far in some order, with what they leave. -/
inductive Interleaving (start : Live ι ℓ σ ε α) : List (ι × ℓ) → Live ι ℓ σ ε α → Prop where
  | start : Interleaving start [] start
  | step {past c i label p w} (before : Interleaving start past c)
      (taken : (c.procs i).advance c.world = some (label,p,w)) :
      Interleaving start (past ++ [(i,label)]) (c.after i p w)

def play : List ι → List (ι × ℓ) → Live ι ℓ σ ε α → Option (List (ι × ℓ) × Live ι ℓ σ ε α)
  | [],past,c => some (past,c)
  | i :: rest,past,c =>
      match (c.procs i).advance c.world with
      | none => none
      | some (label,p,w) => play rest (past ++ [(i,label)]) (c.after i p w)

theorem playInterleaves {start c d : Live ι ℓ σ ε α} {order : List ι} {past es : List (ι × ℓ)}
    (before : Interleaving start past c) (played : play order past c = some (es,d)) : Interleaving start es d := by
  induction order generalizing past c with
  | nil =>
    cases played
    exact before
  | cons i rest ih =>
    unfold play at played
    split at played
    · cases played
    · rename_i taken
      exact ih (.step before taken) played

def Reached (start : Live ι ℓ σ ε α) (i : ι) (p : Proc ℓ σ ε α) (w : World σ) : Prop :=
  ∃ past c, Interleaving start past c ∧ c.procs i = p ∧ c.world = w

theorem Reached.peel {start : Live ι ℓ σ ε α} {i : ι} {p : Proc ℓ σ ε β} {f : β → Proc ℓ σ ε α} {a : α} {w v : World σ}
    (here : Reached start i (p >>= f) w) (run : (p >>= f).alone w = (.ok a,v)) :
    ∃ b u, p.alone w = (.ok b,u) ∧ Reached start i (f b) u ∧ (f b).alone u = (.ok a,v) := by
  induction p generalizing w with
  | ret r =>
    cases r with
    | error e => cases run
    | ok b => exact ⟨b,w,rfl,here,run⟩
  | act label m next ih =>
    obtain ⟨past,c,before,mine,rfl⟩ := here
    rcases bindAt run with ⟨b,u,first,later⟩ | ⟨e,bad,_⟩
    · have taken : (c.procs i).advance c.world = some (label c.now,(next b).bind f,u) := by
        rw [mine]
        change some (label c.now,Proc.resume _ (m c.world).1,(m c.world).2) = _
        rw [first]
        rfl
      have on : Reached start i (next b >>= f) u := ⟨_,_,.step before taken,Function.update_self ..,rfl⟩
      obtain ⟨b',u',ran,on',later'⟩ := ih b on later
      exact ⟨b',u',(bindOk _ first).trans ran,on',later'⟩
    · cases bad

end Orders

section Taken
variable [DecidableEq ι]

def taken (i : ι) (test : ℓ → Bool) (past : List (ι × ℓ)) : List ℓ :=
  (past.filter fun e => e.1 = i && test e.2).map Prod.snd

theorem takenAppend (i : ι) (test : ℓ → Bool) (past more : List (ι × ℓ)) :
    taken i test (past ++ more) = taken i test past ++ taken i test more := by
  simp [taken]

theorem takenNext (i : ι) {test : ℓ → Bool} {label : ℓ} (past : List (ι × ℓ)) (passes : test label = true) :
    taken i test (past ++ [(i,label)]) = taken i test past ++ [label] := by
  simp [taken,passes]

theorem takenSkip (i : ι) {test : ℓ → Bool} {label : ℓ} (past : List (ι × ℓ)) (fails : test label = false) :
    taken i test (past ++ [(i,label)]) = taken i test past := by
  simp [taken,fails]

theorem takenOthers {i : ι} {test : ℓ → Bool} {past more : List (ι × ℓ)} (apart : ∀ e ∈ more, e.1 ≠ i) :
    taken i test (past ++ more) = taken i test past := by
  have none' : more.filter (fun e => e.1 = i && test e.2) = [] := List.filter_eq_nil_iff.mpr fun e mem => by
    simp [apart e mem]
  rw [takenAppend,show taken i test more = [] by rw [taken,none',List.map_nil],List.append_nil]

theorem takenSublist {i : ι} {test : ℓ → Bool} {past : List (ι × ℓ)} {labels : List ℓ}
    (inside : labels.Sublist (taken i test past)) : (labels.map (Prod.mk i)).Sublist past := by
  have back : (taken i test past).map (Prod.mk i) = past.filter fun e => e.1 = i && test e.2 := by
    rw [taken,List.map_map]
    refine (List.map_congr_left fun e mem => ?_).trans (List.map_id _)
    have own := (List.mem_filter.mp mem).2
    simp only [Bool.and_eq_true,decide_eq_true_eq] at own
    rw [Function.comp_apply,← own.1]
    rfl
  have mapped := inside.map (Prod.mk i)
  rw [back] at mapped
  exact mapped.trans List.filter_sublist

end Taken

section Before

def before (test : ℓ → Bool) (past : List (ι × ℓ)) : List (ι × ℓ) := past.takeWhile fun e => !test e.2

theorem beforeAll {test : ℓ → Bool} {past : List (ι × ℓ)} (none' : ∀ e ∈ past, test e.2 = false) (more : List (ι × ℓ)) :
    before test (past ++ more) = past ++ before test more :=
  List.takeWhile_append_of_pos fun e mem => by rw [none' e mem]; rfl

theorem beforeStays {test : ℓ → Bool} {past : List (ι × ℓ)} (passed : ∃ e ∈ past, test e.2 = true) (more : List (ι × ℓ)) :
    before test (past ++ more) = before test past := by
  induction past with
  | nil => simp at passed
  | cons e rest ih =>
    unfold before at ih ⊢
    rw [List.cons_append,List.takeWhile_cons,List.takeWhile_cons]
    cases here : test e.2 with
    | true => rfl
    | false =>
      obtain ⟨e',mem,passes⟩ := passed
      have later : e' ∈ rest := by
        rcases List.mem_cons.mp mem with rfl | later
        · rw [here] at passes
          cases passes
        · exact later
      simp only [Bool.not_false,if_true]
      rw [ih ⟨e',later,passes⟩]

theorem beforeGrows {test : ℓ → Bool} {past : List (ι × ℓ)} {e : ι × ℓ} (mem : e ∈ before test past) (more : List (ι × ℓ)) :
    e ∈ before test (past ++ more) := by
  by_cases passed : ∃ e ∈ past, test e.2 = true
  · rwa [beforeStays passed]
  · rw [beforeAll fun e mem => Bool.eq_false_iff.mpr fun passes => passed ⟨e,mem,passes⟩]
    exact List.mem_append_left _ ((List.takeWhile_sublist _).mem mem)

end Before

section Keeps
open Proc
variable {inv : σ → Prop} {R : σ → σ → Prop} {P : α → Prop} {Q : β → Prop}

/- From a state that meets the invariant every step, however it ends, keeps it and changes the
state as the relation says; and the value returned is as the postcondition says. -/
def Proc.Keeps (inv : σ → Prop) (R : σ → σ → Prop) (P : α → Prop) : Proc ℓ σ ε α → Prop
  | ret r => ∀ a, r = .ok a → P a
  | act _ m next => ∀ s r t, inv s → Runs m s r t →
      (inv t ∧ R s t) ∧ ∀ b, r = .ok b → (next b).Keeps inv R P

theorem keepsPure {a : α} (here : P a) : (pure a : Proc ℓ σ ε α).Keeps inv R P := fun _ same =>
  Except.ok.inj same ▸ here

theorem keepsStop (e : Stop ε) : (stop e : Proc ℓ σ ε α).Keeps inv R P := fun _ bad => by cases bad

theorem keepsOfExcept {x : Except ε α} (here : ∀ a, x = .ok a → P a) : (Proc.ofExcept x : Proc ℓ σ ε α).Keeps inv R P := by
  cases x with
  | ok a => exact keepsPure (here a rfl)
  | error e => exact keepsStop _

theorem Proc.Keeps.mono {P' : α → Prop} {p : Proc ℓ σ ε α} (keeps : p.Keeps inv R P) (sub : ∀ a, P a → P' a) :
    p.Keeps inv R P' := by
  induction p with
  | ret r => exact fun a same => sub a (keeps a same)
  | act label m next ih => exact fun s r t here run =>
      ⟨(keeps s r t here run).1,fun b same => ih b ((keeps s r t here run).2 b same)⟩

theorem Proc.Keeps.bind {p : Proc ℓ σ ε β} {f : β → Proc ℓ σ ε α} (first : p.Keeps inv R Q)
    (later : ∀ b, Q b → (f b).Keeps inv R P) : (p >>= f).Keeps inv R P := by
  change (p.bind f).Keeps inv R P
  induction p with
  | ret r =>
    cases r with
    | ok b => exact later b (first b rfl)
    | error e => exact fun _ bad => by cases bad
  | act label m next ih => exact fun s r t here run =>
      ⟨(first s r t here run).1,fun b same => ih b ((first s r t here run).2 b same)⟩

theorem keepsAtom {label : σ → ℓ} {m : Op σ ε α}
    (here : ∀ s r t, inv s → Runs m s r t → (inv t ∧ R s t) ∧ ∀ a, r = .ok a → P a) : (atom label m).Keeps inv R P :=
  fun s r t started run => ⟨(here s r t started run).1,fun a same => keepsPure ((here s r t started run).2 a same)⟩

theorem keepsEach {f : α → Proc ℓ σ ε Unit} (as : List α) (turn : ∀ a ∈ as, (f a).Keeps inv R fun _ => True) :
    (each f as).Keeps inv R fun _ => True := by
  induction as with
  | nil => exact keepsPure trivial
  | cons a rest ih => exact (turn a (by simp)).bind fun _ _ => ih fun b mem => turn b (List.mem_cons_of_mem _ mem)

theorem keepsGather {f : α → Proc ℓ σ ε β} (as : List α) (turn : ∀ a ∈ as, (f a).Keeps inv R fun _ => True) :
    (gather f as).Keeps inv R fun _ => True := by
  induction as with
  | nil => exact keepsPure trivial
  | cons a rest ih =>
    exact (turn a (by simp)).bind fun _ _ =>
      (ih fun b mem => turn b (List.mem_cons_of_mem _ mem)).bind fun _ _ => keepsPure trivial

theorem Proc.Keeps.advance {p p' : Proc ℓ σ ε α} {label : ℓ} {w w' : World σ} (keeps : p.Keeps inv R P) (here : inv w.state)
    (taken : p.advance w = some (label,p',w')) : (inv w'.state ∧ R w.state w'.state) ∧ p'.Keeps inv R P := by
  cases p with
  | ret r => cases taken
  | act label' m next =>
    cases taken
    obtain ⟨moved,on⟩ := keeps w.state _ _ here ⟨w.script,(m w).2.script,rfl⟩
    refine ⟨moved,?_⟩
    cases ended : (m w).1 with
    | ok b => exact on b ended
    | error e => exact fun _ bad => by cases bad

theorem interleavingKeeps [DecidableEq ι] {start c : Live ι ℓ σ ε α} {past : List (ι × ℓ)} (here : inv start.now)
    (each : ∀ i, (start.procs i).Keeps inv R P) (run : Interleaving start past c) :
    inv c.now ∧ ∀ i, (c.procs i).Keeps inv R P := by
  induction run with
  | start => exact ⟨here,each⟩
  | @step past c i label p w _ taken ih =>
    obtain ⟨there,all⟩ := ih
    obtain ⟨⟨kept,_⟩,left⟩ := (all i).advance there taken
    refine ⟨kept,fun j => ?_⟩
    change (Function.update c.procs i p j).Keeps inv R P
    by_cases same : j = i
    · subst same
      rwa [Function.update_self]
    · rw [Function.update_of_ne same]
      exact all j

end Keeps

/- The steps taken so far, and the state they leave. -/
structure Scene (ι ℓ σ : Type) where
  past : List (ι × ℓ)
  now : σ

namespace Scene

def next (x : Scene ι ℓ σ) (i : ι) (label : ℓ) (s : σ) : Scene ι ℓ σ := ⟨x.past ++ [(i,label)],s⟩

/- Only the others have gone on, and the state has changed as the relation says. -/
def Others (R : σ → σ → Prop) (i : ι) (x y : Scene ι ℓ σ) : Prop :=
  (∃ more, y.past = x.past ++ more ∧ ∀ e ∈ more, e.1 ≠ i) ∧ R x.now y.now

instance othersPreorder (R : σ → σ → Prop) [IsPreorder σ R] (i : ι) : IsPreorder (Scene ι ℓ σ) (Others R i) where
  refl x := ⟨⟨[],by simp,by simp⟩,refl_of R x.now⟩
  trans x y z := by
    rintro ⟨⟨first,grown,apart⟩,one⟩ ⟨⟨later,grown',apart'⟩,two⟩
    refine ⟨⟨first ++ later,by rw [grown',grown,List.append_assoc],fun e mem => ?_⟩,trans_of R one two⟩
    exact (List.mem_append.mp mem).elim (apart e) (apart' e)

theorem othersNext {R : σ → σ → Prop} {i j : ι} (apart : j ≠ i) (x : Scene ι ℓ σ) (label : ℓ) {t : σ} (moved : R x.now t) :
    Others R j x (x.next i label t) :=
  ⟨⟨[(i,label)],rfl,fun e mem => by rw [List.mem_singleton.mp mem]; exact apart.symm⟩,moved⟩

end Scene

section Rely
/- Every scene meets the invariant; `rely i` is what procedure `i` may find done between two of its
own steps; `allow` says which orders are considered. -/
variable (allow : List (ι × ℓ) → Prop) (inv : Scene ι ℓ σ → Prop) (rely : ι → Scene ι ℓ σ → Scene ι ℓ σ → Prop)

/- Run from the scene among others that keep to its rely, the procedure keeps to theirs and to the
invariant, and ends as the postcondition says. -/
def Proc.Safe (i : ι) (post : Except (Stop ε) α → Scene ι ℓ σ → Prop) : Proc ℓ σ ε α → Scene ι ℓ σ → Prop
  | .ret r,x => ∀ y, rely i x y → inv y → post r y
  | .act label m next,x => ∀ y, rely i x y → inv y → allow (y.past ++ [(i,label y.now)]) →
      ∃ r t, Clean m y.now r t ∧ inv (y.next i (label y.now) t) ∧
        (∀ j, j ≠ i → rely j y (y.next i (label y.now) t)) ∧
        (∀ b, r = .ok b → Proc.Safe i post (next b) (y.next i (label y.now) t)) ∧
        ∀ e, r = .error e → ∀ z, rely i (y.next i (label y.now) t) z → inv z → post (.error e) z

variable {allow inv rely} {i : ι} {post : Except (Stop ε) α → Scene ι ℓ σ → Prop} {x y : Scene ι ℓ σ}

theorem Proc.Safe.mono {post' : Except (Stop ε) α → Scene ι ℓ σ → Prop} {p : Proc ℓ σ ε α}
    (safe : p.Safe allow inv rely i post x) (sub : ∀ r z, inv z → post r z → post' r z) :
    p.Safe allow inv rely i post' x := by
  induction p generalizing x with
  | ret r => exact fun y later here => sub _ _ here (safe y later here)
  | act label m next ih =>
    intro y later here allowed
    obtain ⟨r,t,ran,kept,others,on,failed⟩ := safe y later here allowed
    exact ⟨r,t,ran,kept,others,fun b same => ih b (on b same),
      fun e same z after there => sub _ _ there (failed e same z after there)⟩

theorem safeAct {label : σ → ℓ} {m : Op σ ε β} {next : β → Proc ℓ σ ε α}
    (step : ∀ y, rely i x y → inv y → ∃ r t l, Clean m y.now r t ∧ label y.now = l ∧ (allow (y.past ++ [(i,l)]) →
      inv (y.next i l t) ∧ (∀ j, j ≠ i → rely j y (y.next i l t)) ∧
        (∀ b, r = .ok b → (next b).Safe allow inv rely i post (y.next i l t)) ∧
        ∀ e, r = .error e → ∀ z, rely i (y.next i l t) z → inv z → post (.error e) z)) :
    (Proc.act label m next).Safe allow inv rely i post x := by
  intro y later here allowed
  obtain ⟨r,t,l,ran,rfl,on⟩ := step y later here
  exact ⟨r,t,ran,on allowed⟩

/- Steps that all keep the invariant, what the others rely on, and a phase of the procedure's own
that the others leave alone. -/
theorem Proc.Moves.safe {R : σ → ℓ → σ → Prop} {phase : Scene ι ℓ σ → Prop} {p : Proc ℓ σ ε α} (moves : p.Moves R)
    (start : phase x) (stays : ∀ y z, phase y → rely i y z → phase z)
    (kept : ∀ y label t, inv y → phase y → R y.now label t → allow (y.past ++ [(i,label)]) →
      (inv (y.next i label t) ∧ ∀ j, j ≠ i → rely j y (y.next i label t)) ∧ phase (y.next i label t)) :
    p.Safe allow inv rely i (fun _ z => phase z) x := by
  induction p generalizing x with
  | ret r => exact fun y later _ => stays x y start later
  | act label m next ih =>
    intro y later here allowed
    obtain ⟨r,t,ran,moved⟩ := moves.1 y.now
    obtain ⟨⟨there,others⟩,on⟩ := kept y _ t here (stays x y start later) moved allowed
    exact ⟨r,t,ran,there,others,fun b _ => ih b (moves.2 b) on,fun e _ z more _ => stays _ z on more⟩

theorem Proc.Goes.safe {R : σ → ℓ → σ → Prop} {marked : ℓ → Prop} {P : α → Prop} {phase : Scene ι ℓ σ → Prop}
    {p : Proc ℓ σ ε α} (goes : p.Goes R marked P) (start : phase x) (stays : ∀ y z, phase y → rely i y z → phase z)
    (clear : ∀ es l, allow (es ++ [(i,l)]) → ¬marked l)
    (kept : ∀ y label t, inv y → phase y → R y.now label t → allow (y.past ++ [(i,label)]) →
      (inv (y.next i label t) ∧ ∀ j, j ≠ i → rely j y (y.next i label t)) ∧ phase (y.next i label t)) :
    p.Safe allow inv rely i (fun r z => (∃ a, r = .ok a ∧ P a) ∧ phase z) x := by
  induction p generalizing x with
  | ret r => exact fun y later _ => ⟨goes,stays x y start later⟩
  | act label m next ih =>
    intro y later here allowed
    obtain ⟨r,t,ran,mark | ⟨moved,b,rfl,on⟩⟩ := goes y.now
    · exact absurd mark (clear _ _ allowed)
    · obtain ⟨⟨there,others⟩,after⟩ := kept y _ t here (stays x y start later) moved allowed
      exact ⟨.ok b,t,ran,there,others,fun b' same => by cases same; exact ih b on after,fun e bad => by cases bad⟩

theorem Proc.Safe.blind {R : σ → σ → Prop} {p : Proc ℓ σ ε α} {s t : σ} {r : Except (Stop ε) α} (blind : p.Blind R)
    (hides : ∀ s y z, R s y.now → rely i y z → R s z.now) (safe : p.Safe allow inv rely i post x)
    (same : R s x.now) (ran : Clean p.alone s r t) :
    p.Safe allow inv rely i (fun r' z => (r' = r ∧ R t z.now) ∧ post r' z) x := by
  induction p generalizing x s with
  | ret r' =>
    have ends : r' = r ∧ s = t := by
      cases r' <;> (injection ran with hr hw; injection hw with ht; exact ⟨hr,ht⟩)
    intro y later here
    exact ⟨⟨ends.1,ends.2 ▸ hides s x y same later⟩,safe y later here⟩
  | act label m next ih =>
    intro y later here allowed
    obtain ⟨r',v,one,kept,others,on,failed⟩ := safe y later here allowed
    obtain ⟨u,ghost,there⟩ := blind.1 s y.now r' v (hides s x y same later) one
    refine ⟨r',v,one,kept,others,fun b eq => ?_,fun e eq => ?_⟩
    · subst eq
      exact ih b (blind.2 b) (on b rfl) there ((bindOk _ ghost).symm.trans ran)
    · subst eq
      intro z more inside
      have ended : (Proc.act label m next).alone ⟨s,[]⟩ = (.error e,⟨u,[]⟩) := by
        change Op.bind m _ _ = _
        unfold Op.bind
        rw [show m ⟨s,[]⟩ = _ from ghost]
      rw [show (Proc.act label m next).alone ⟨s,[]⟩ = _ from ran] at ended
      injection ended with hr hw
      injection hw with ht
      exact ⟨⟨hr.symm,ht ▸ hides u _ z there more⟩,failed e rfl z more inside⟩

section Preorder
variable [pre : ∀ i, IsPreorder (Scene ι ℓ σ) (rely i)]

theorem Proc.Safe.along {p : Proc ℓ σ ε α} (safe : p.Safe allow inv rely i post x) (later : rely i x y) :
    p.Safe allow inv rely i post y := by
  cases p with
  | ret r => exact fun z more => safe z (trans_of (rely i) later more)
  | act label m next => exact fun z more => safe z (trans_of (rely i) later more)

theorem Proc.Safe.bind {p : Proc ℓ σ ε β} {f : β → Proc ℓ σ ε α} (here : inv x)
    (safe : p.Safe allow inv rely i (fun r y => (∀ b, r = .ok b → (f b).Safe allow inv rely i post y) ∧
      ∀ e, r = .error e → post (.error e) y) x) : (p >>= f).Safe allow inv rely i post x := by
  change (p.bind f).Safe allow inv rely i post x
  induction p generalizing x with
  | ret r =>
    cases r with
    | ok b => exact (safe x (refl_of (rely i) x) here).1 b rfl
    | error e => exact fun y later there => (safe y later there).2 e rfl
  | act label m next ih =>
    intro y later there allowed
    obtain ⟨r,t,ran,kept,others,on,failed⟩ := safe y later there allowed
    exact ⟨r,t,ran,kept,others,fun b same => ih b kept (on b same),
      fun e same z after where' => (failed e same z after where').2 e rfl⟩

theorem Proc.Safe.attempt {Q : α → Scene ι ℓ σ → Prop} {p : Proc ℓ σ ε α}
    (safe : p.Safe allow inv rely i (fun r z => ∃ a, r = .ok a ∧ Q a z) x) :
    p.attempt.Safe allow inv rely i (fun r z => ∃ a, r = .ok (.ok a) ∧ Q a z) x := by
  induction p generalizing x with
  | ret r =>
    rcases r with (e | message | _) | a
    · intro y later here
      obtain ⟨a,bad,_⟩ := safe y later here
      cases bad
    · intro y later here
      obtain ⟨a,bad,_⟩ := safe y later here
      cases bad
    · intro y later here
      obtain ⟨a,bad,_⟩ := safe y later here
      cases bad
    · intro y later here
      obtain ⟨a',same,holds⟩ := safe y later here
      cases same
      exact ⟨a,rfl,holds⟩
  | act label m next ih =>
    unfold Proc.attempt
    intro y later here allowed
    obtain ⟨r,t,ran,kept,others,on,failed⟩ := safe y later here allowed
    cases r with
    | error e =>
      obtain ⟨a,bad,_⟩ := failed e rfl _ (refl_of (rely i) _) kept
      cases bad
    | ok b =>
      have ran' : m ⟨y.now,[]⟩ = (.ok b,⟨t,[]⟩) := ran
      refine ⟨.ok (.ok b),t,?_,kept,others,fun b' same => ?_,fun e bad => by cases bad⟩
      · unfold Clean Op.attempt
        rw [ran']
      · cases same
        exact ih b (on b rfl)

theorem safeEach {turns : List α → Scene ι ℓ σ → Prop} {f : α → Proc ℓ σ ε Unit} (as : List α) (here : inv x)
    (start : turns as x) (stable : ∀ rest y z, turns rest y → rely i y z → turns rest z)
    (turn : ∀ a rest y, inv y → turns (a :: rest) y →
      (f a).Safe allow inv rely i (fun r z => r = .ok () ∧ turns rest z) y) :
    (Proc.each f as).Safe allow inv rely i (fun r z => r = .ok () ∧ turns [] z) x := by
  induction as generalizing x with
  | nil => exact fun y later _ => ⟨rfl,stable _ _ _ start later⟩
  | cons a rest ih =>
    refine Proc.Safe.bind here ((turn a rest x here start).mono fun r z there ended =>
      ⟨fun b same => ih there ended.2,fun e bad => ?_⟩)
    rw [ended.1] at bad
    cases bad

theorem safeGather {phase : Scene ι ℓ σ → Prop} {f : α → Proc ℓ σ ε β} (as : List α) (here : inv x) (start : phase x)
    (stays : ∀ y z, phase y → rely i y z → phase z)
    (turn : ∀ a ∈ as, ∀ y, inv y → phase y → (f a).Safe allow inv rely i (fun _ z => phase z) y) :
    (Proc.gather f as).Safe allow inv rely i (fun _ z => phase z) x := by
  induction as generalizing x with
  | nil => exact fun y later _ => stays x y start later
  | cons a rest ih =>
    refine Proc.Safe.bind here ((turn a (by simp) x here start).mono fun r y there on => ⟨fun b _ => ?_,fun _ _ => on⟩)
    refine Proc.Safe.bind there ((ih there on fun c mem => turn c (List.mem_cons_of_mem _ mem)).mono
      fun r z _ more => ⟨fun bs _ => fun w later _ => stays z w more later,fun _ _ => more⟩)

variable [DecidableEq ι]

/- Procedures safe against each other stay so in every allowed order of their steps. -/
theorem interleavingSafe {start c : Live ι ℓ σ ε α} {post : ι → Except (Stop ε) α → Scene ι ℓ σ → Prop}
    {past : List (ι × ℓ)} (shorter : ∀ es e, allow (es ++ [e]) → allow es) (clean : start.world.script = [])
    (here : inv ⟨[],start.now⟩)
    (safe : ∀ i, (start.procs i).Safe allow inv rely i (post i) ⟨[],start.now⟩)
    (run : Interleaving start past c) (allowed : allow past) :
    c.world.script = [] ∧ inv ⟨past,c.now⟩ ∧ ∀ i, (c.procs i).Safe allow inv rely i (post i) ⟨past,c.now⟩ := by
  induction run with
  | start => exact ⟨clean,here,safe⟩
  | @step past c i label p w before taken ih =>
    obtain ⟨quiet,there,each⟩ := ih (shorter _ _ allowed)
    obtain ⟨⟨s,script⟩,procs⟩ := c
    cases quiet
    dsimp only [Live.now] at each there
    cases mine : procs i with
    | ret r => rw [show (Live.mk ⟨s,[]⟩ procs).procs i = .ret r from mine] at taken; cases taken
    | act label' m next =>
      rw [show (Live.mk ⟨s,[]⟩ procs).procs i = .act label' m next from mine] at taken
      cases taken
      have own := each i
      rw [mine] at own
      obtain ⟨r,t,ran,kept,others,on,failed⟩ := own ⟨past,s⟩ (refl_of (rely i) _) there allowed
      have run' : m ⟨s,[]⟩ = (r,⟨t,[]⟩) := ran
      dsimp only [Live.after,Live.now]
      rw [run']
      refine ⟨rfl,kept,fun j => ?_⟩
      by_cases same : j = i
      · subst same
        rw [Function.update_self]
        cases r with
        | ok b => exact on b rfl
        | error e => exact failed e rfl
      · rw [Function.update_of_ne same]
        exact (each j).along (others j same)

theorem interleavingEnds {start c : Live ι ℓ σ ε α} {post : ι → Except (Stop ε) α → Scene ι ℓ σ → Prop}
    {past : List (ι × ℓ)} (shorter : ∀ es e, allow (es ++ [e]) → allow es) (clean : start.world.script = [])
    (here : inv ⟨[],start.now⟩)
    (safe : ∀ i, (start.procs i).Safe allow inv rely i (post i) ⟨[],start.now⟩)
    (run : Interleaving start past c) (allowed : allow past) {r : Except (Stop ε) α} (ended : (c.procs i).result? = some r) :
    post i r ⟨past,c.now⟩ := by
  obtain ⟨_,there,each⟩ := interleavingSafe shorter clean here safe run allowed
  have own := each i
  cases mine : c.procs i with
  | act label m next => rw [mine] at ended; cases ended
  | ret r' =>
    rw [mine] at own ended
    cases ended
    exact own _ (refl_of (rely i) _) there

end Preorder
end Rely
end DigBlockstore.Faulty
