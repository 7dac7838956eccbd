import DigBlockstore.Compactions
import DigBlockstore.FlushSteps
import DigBlockstore.RetainedRuns
import DigBlockstore.StepRules

/-! Concurrent ingests of one block. Each call reports the block as new exactly when it read its row
before any of them had stored it. -/
namespace DigBlockstore
open ByteCodec Faulty ColumnStore Pipeline

/- A call that may store blocks, and what it answers for each. -/
inductive BlockCall where
  | putBlock (block : L2Block) (canonical : Bool)
  | extendChain (block : L2Block)
  | flush (jobs : List PipelineJob)

namespace BlockCall
variable (crates : Crates)

def steps : BlockCall → Steps (List Report)
  | putBlock block canonical => do
      let added ← Store.putBlockSteps crates block canonical
      pure [⟨block.hash crates,0,.ok added⟩]
  | extendChain block => do
      let added ← Store.extendChainSteps crates block
      pure [⟨block.hash crates,0,.ok added⟩]
  | flush jobs => Pipeline.flushSteps crates jobs

def On (x : Bytes32) : BlockCall → Prop
  | putBlock block _ => block.hash crates = x
  | extendChain block => block.hash crates = x
  | flush jobs => ∃ job ∈ jobs, job.block.hash crates = x

end BlockCall

def answersOn (x : Bytes32) (reports : List Report) : List (Except BlockStoreError Bool) :=
  (reports.filter fun report => report.hash = x).map Report.result

/- One answer calls the block new, the others do not. -/
def SaysNew (answers : List (Except BlockStoreError Bool)) : Prop :=
  ∃ front back, answers = front ++ .ok true :: back ∧ ∀ a ∈ front ++ back, a = .ok false

def SaysKnown (answers : List (Except BlockStoreError Bool)) : Prop := answers ≠ [] ∧ ∀ a ∈ answers, a = .ok false

def storesRow (x : Bytes32) : Access → Bool
  | .batch writes => writes.any fun write => (write.effect .blocks (hashKey x)).isSome
  | _ => false

def bodyRead (x : Bytes32) : Access := .rowRead .blocks (hashKey x)

section Orders
variable {ι : Type}

def Saved (x : Bytes32) (past : List (ι × Access)) : Prop := ∃ e ∈ past, storesRow x e.2 = true

/- A call has read the row of the block before any batch put it. -/
def Early (x : Bytes32) (past : List (ι × Access)) (i : ι) : Prop := (i,bodyRead x) ∈ before (storesRow x) past

instance [DecidableEq ι] (x : Bytes32) (past : List (ι × Access)) (i : ι) : Decidable (Early x past i) :=
  inferInstanceAs (Decidable (_ ∈ _))

/- One call reports the block as new, and every other as known. -/
def NovelOnce (x : Bytes32) (c : Live ι Access Store BlockStoreError (List Report)) : Prop :=
  ∃ i, (∃ reports, c.procs i = .ret (.ok reports) ∧ SaysNew (answersOn x reports)) ∧
    ∀ j, j ≠ i → ∃ reports, c.procs j = .ret (.ok reports) ∧ SaysKnown (answersOn x reports)

variable {x : Bytes32} {i : ι} {past : List (ι × Access)}

theorem savedGrows (saved : Saved x past) (more : List (ι × Access)) : Saved x (past ++ more) := by
  obtain ⟨e,mem,stores⟩ := saved
  exact ⟨e,List.mem_append_left _ mem,stores⟩

theorem lateStays (saved : Saved x past) (more : List (ι × Access)) : Early x (past ++ more) i ↔ Early x past i := by
  unfold Early
  rw [beforeStays saved]

theorem earlyRead (unsaved : ¬Saved x past) : Early x (past ++ [(i,bodyRead x)]) i := by
  unfold Early
  rw [beforeAll fun e mem => Bool.eq_false_iff.mpr fun stores => unsaved ⟨e,mem,stores⟩]
  exact List.mem_append_right _ (List.mem_singleton_self _)

theorem earlyPast (early : Early x past i) : (i,bodyRead x) ∈ past := (List.takeWhile_sublist _).mem early

end Orders

namespace Store
variable {crates : Crates} {ι : Type} {x : Bytes32} {i : ι}

/- What is known of the block at every moment: a batch that put its row has left one, nothing else
has told of the block, and who put the row had found none. -/
structure Traced (x : Bytes32) (y : Scene ι Access Store) : Prop where
  row : Saved x y.past → (y.now.db .blocks)[hashKey x]?.isSome
  heard : y.now.Heard x → Saved x y.past
  savers : ∀ e ∈ y.past, storesRow x e.2 = true → Early x y.past e.1

abbrev Waits (i : ι) : Scene ι Access Store → Scene ι Access Store → Prop := Scene.Others (fun _ _ => True) i

instance alwaysPreorder : IsPreorder Store fun _ _ => True where
  refl _ := trivial
  trans _ _ _ _ _ := trivial

def Calm (past : List (ι × Access)) : Prop := ∀ e ∈ past, e.2 ≠ .fault

theorem calmLabel {past : List (ι × Access)} {label : Access} (calm : Calm (past ++ [(i,label)])) : label ≠ .fault :=
  calm _ (List.mem_append_right _ (List.mem_singleton_self (i,label)))

def Unread (x : Bytes32) (i : ι) (y : Scene ι Access Store) : Prop := (i,bodyRead x) ∉ y.past

theorem waitsSaved {y z : Scene ι Access Store} (saved : Saved x y.past) (waits : Waits i y z) : Saved x z.past := by
  obtain ⟨⟨more,grown,_⟩,_⟩ := waits
  rw [grown]
  exact savedGrows saved more

theorem waitsEarly {y z : Scene ι Access Store} (early : Early x y.past i) (waits : Waits i y z) : Early x z.past i := by
  obtain ⟨⟨more,grown,_⟩,_⟩ := waits
  rw [grown]
  exact beforeGrows early more

theorem waitsFixed {y z : Scene ι Access Store} (saved : Saved x y.past) (waits : Waits i y z) :
    Early x z.past i ↔ Early x y.past i := by
  obtain ⟨⟨more,grown,_⟩,_⟩ := waits
  rw [grown]
  exact lateStays saved more

theorem waitsLate {y z : Scene ι Access Store} (saved : Saved x y.past) (late : ¬Early x y.past i) (waits : Waits i y z) :
    ¬Early x z.past i := fun early => late ((waitsFixed saved waits).mp early)

theorem waitsUnread {y z : Scene ι Access Store} (unread : Unread x i y) (waits : Waits i y z) : Unread x i z := by
  obtain ⟨⟨more,grown,apart⟩,_⟩ := waits
  intro mem
  rw [grown] at mem
  rcases List.mem_append.mp mem with old | new
  · exact unread old
  · exact apart _ new rfl

/- A step of the call carries the trace on when it leaves a row saved, tells of the block only once it
is saved, and puts its row only early. -/
theorem Traced.next {y : Scene ι Access Store} (traced : Traced x y) {label : Access} {t : Store}
    (row : Saved x (y.past ++ [(i,label)]) → (t.db .blocks)[hashKey x]?.isSome)
    (heard : t.Heard x → Saved x (y.past ++ [(i,label)])) (saver : storesRow x label = true → Early x y.past i) :
    Carries (Traced x) Waits i y (y.next i label t) := by
  refine ⟨⟨row,heard,fun e mem stores => ?_⟩,fun j apart => Scene.othersNext apart y label trivial⟩
  rcases List.mem_append.mp mem with old | new
  · exact beforeGrows (traced.savers e old stores) _
  · rw [List.mem_singleton.mp new] at stores ⊢
    exact beforeGrows (saver stores) _

def KeepsBody (x : Bytes32) (s : Store) (access : Access) (t : Store) : Prop :=
  storesRow x access = false ∧ ((s.db .blocks)[hashKey x]?.isSome → (t.db .blocks)[hashKey x]?.isSome)

def Ignores (x : Bytes32) (s : Store) (access : Access) (t : Store) : Prop :=
  t = s ∧ storesRow x access = false ∧ access ≠ bodyRead x

section Phases
variable {α : Type} {P : α → Prop} {p : Steps α} {y : Scene ι Access Store}

structure Phase (x : Bytes32) (i : ι) (phase : Scene ι Access Store → Prop) : Prop where
  stays : ∀ y z, phase y → Waits i y z → phase z
  goes : ∀ y label, phase y → label ≠ bodyRead x → phase (y.next i label y.now)

theorem unreadPhase : Phase x i (Unread x i) where
  stays _ _ := waitsUnread
  goes y label unread apart mem := by
    rcases List.mem_append.mp mem with old | new
    · exact unread old
    · injection List.mem_singleton.mp new with _ same
      exact apart same.symm

theorem earlyPhase : Phase x i fun y => Early x y.past i where
  stays _ _ := waitsEarly
  goes _ _ early _ := beforeGrows early _

theorem ignoresSafe {phase : Scene ι Access Store → Prop} (phased : Phase x i phase)
    (goes : p.Goes (Ignores x) (· = .fault) P) (start : phase y) :
    p.Safe Calm (Traced x) Waits i (fun r z => (∃ a, r = .ok a ∧ P a) ∧ phase z) y := by
  refine goes.safe start phased.stays (fun _ _ => calmLabel) fun y label t traced here ignores _ => ?_
  obtain ⟨rfl,stores,apart⟩ := ignores
  refine ⟨traced.next (fun saved => ?_) (fun heard => savedGrows (traced.heard heard) _) (fun bad => ?_),
    phased.goes y label here apart⟩
  · obtain ⟨e,mem,passes⟩ := saved
    rcases List.mem_append.mp mem with old | new
    · exact traced.row ⟨e,old,passes⟩
    · rw [List.mem_singleton.mp new,stores] at passes
      cases passes
  · rw [stores] at bad
    cases bad

theorem keepsBodySafe (goes : p.Goes (KeepsBody x) (· = .fault) P) (start : Saved x y.past) :
    p.Safe Calm (Traced x) Waits i
      (fun r z => (∃ a, r = .ok a ∧ P a) ∧ Saved x z.past ∧ (Early x z.past i ↔ Early x y.past i)) y := by
  refine goes.safe ⟨start,Iff.rfl⟩
    (fun u z here waits => ?_) (fun _ _ => calmLabel) fun u label t traced here kept _ => ?_
  · obtain ⟨⟨more,grown,_⟩,_⟩ := waits
    rw [grown]
    exact ⟨savedGrows here.1 more,(lateStays here.1 more).trans here.2⟩
  · have grown := savedGrows here.1 [(i,label)]
    refine ⟨traced.next (fun _ => kept.2 (traced.row here.1)) (fun _ => grown) (fun bad => ?_),grown,
      (lateStays here.1 _).trans here.2⟩
    rw [kept.1] at bad
    cases bad

end Phases

section Moves

theorem labelOk {α : Type} {access : Access} {m : StoreM α} {s t : Store} {a : α} (ran : Clean m s (.ok a) t) :
    (if (m ⟨s,[]⟩).1.isOk then access else Access.fault) = access := by
  rw [show m ⟨s,[]⟩ = _ from ran]
  rfl

theorem labelError {α : Type} {access : Access} {m : StoreM α} {s t : Store} {e : Stop BlockStoreError}
    (ran : Clean m s (.error e) t) : (if (m ⟨s,[]⟩).1.isOk then access else Access.fault) = .fault := by
  rw [show m ⟨s,[]⟩ = _ from ran]
  rfl

theorem ignoresLook {α : Type} {m : StoreM α} (looks : ∀ s, ∃ r, Clean m s r s) :
    (other m).Goes (Ignores x) (· = .fault) fun _ => True := goesAtom fun s => by
  obtain ⟨r,ran⟩ := looks s
  cases r with
  | error e => exact ⟨_,s,ran,.inl (labelError ran)⟩
  | ok a =>
    refine ⟨_,s,ran,.inr ⟨?_,a,rfl,trivial⟩⟩
    dsimp only
    rw [labelOk ran]
    exact ⟨rfl,rfl,by simp [bodyRead]⟩

theorem looksAskOk {α : Type} (f : Store → Except BlockStoreError α) (s : Store) : ∃ r, Clean (askOk f) s r s := by
  change ∃ r, Op.ofExcept (f s) ⟨s,[]⟩ = _
  cases f s with
  | error e => exact ⟨_,rfl⟩
  | ok a => exact ⟨_,rfl⟩

theorem looksOfExcept {α : Type} (r : Except BlockStoreError α) (s : Store) : ∃ r', Clean (Op.ofExcept r : StoreM α) s r' s := by
  cases r with
  | error e => exact ⟨_,rfl⟩
  | ok a => exact ⟨_,rfl⟩

theorem looksRefuse (message : String) (s : Store) : ∃ r, Clean (refuseReadOnly message) s r s := by
  change ∃ r, (if s.readOnly then _ else _ : StoreM Unit) ⟨s,[]⟩ = _
  split
  · exact ⟨_,rfl⟩
  · exact ⟨_,rfl⟩

theorem keepsBodyDoes {α : Type} {m : StoreM α} {access : Access} (stores : storesRow x access = false)
    (keeps : ∀ s, ∃ r t, Clean m s r t ∧ ((s.db .blocks)[hashKey x]?.isSome → (t.db .blocks)[hashKey x]?.isSome)) :
    (does (fun _ => access) m).Goes (KeepsBody x) (· = .fault) fun _ => True := goesAtom fun s => by
  obtain ⟨r,t,ran,kept⟩ := keeps s
  cases r with
  | error e => exact ⟨_,t,ran,.inl (labelError ran)⟩
  | ok a =>
    refine ⟨_,t,ran,.inr ⟨?_,a,rfl,trivial⟩⟩
    dsimp only
    rw [labelOk ran]
    exact ⟨stores,kept⟩

theorem keepsBodyAsk {α : Type} (f : Store → α) {access : Access} (stores : storesRow x access = false) :
    (does (fun _ => access) (ask f)).Goes (KeepsBody x) (· = .fault) fun _ => True :=
  keepsBodyDoes stores fun s => ⟨_,s,cleanAsk f s,id⟩

theorem keepsBodyLook {α : Type} {m : StoreM α} (looks : ∀ s, ∃ r, Clean m s r s) :
    (other m).Goes (KeepsBody x) (· = .fault) fun _ => True :=
  keepsBodyDoes rfl fun s => by
    obtain ⟨r,ran⟩ := looks s
    exact ⟨r,s,ran,id⟩

theorem keepsBodyModify {f : Store → Store} {access : Access} (stores : storesRow x access = false)
    (rows : ∀ s, (f s).db = s.db) : (does (fun _ => access) (Op.modify f)).Goes (KeepsBody x) (· = .fault) fun _ => True :=
  keepsBodyDoes stores fun s => ⟨_,_,cleanModify f s,fun row => by rw [rows]; exact row⟩

theorem cleanWrite (batch : List Write) (s : Store) : Clean (write batch) s (.ok ()) (s.commit batch) := rfl

theorem keepsBodyWrite {batch : List Write} (apart : storesRow x (.batch batch) = false) :
    (does (fun _ => .batch batch) (write batch)).Goes (KeepsBody x) (· = .fault) fun _ => True := by
  refine keepsBodyDoes apart fun s => ⟨_,_,cleanWrite batch s,fun row => ?_⟩
  change (applyAll batch s.db .blocks)[hashKey x]?.isSome
  rw [ColumnStore.frame fun write mem => ?_]
  · exact row
  · have none' := List.any_eq_false.mp apart write mem
    simpa using none'

theorem resizeSettles (n : Nat) (setLenFailed remapFailed : String) :
    Settles (CanonicalDenseFile.resize n setLenFailed remapFailed) :=
  settlesBind (settlesModify _) fun _ => settlesBind (settlesStep _) fun _ => settlesBind (settlesModify _) fun _ =>
    settlesBind (settlesStep _) fun _ => settlesModify _

theorem writeHashSettles (height : UInt64) (hash : Bytes32) : Settles (CanonicalDenseFile.writeHash height hash) := by
  unfold CanonicalDenseFile.writeHash
  split
  · exact settlesStop _
  · refine settlesBind settlesGet fun d => ?_
    split
    · exact settlesStop _
    · refine settlesBind ?_ fun _ => settlesModify _
      unfold CanonicalDenseFile.grow
      split
      · exact resizeSettles _ _ _
      · exact settlesPure ()

theorem extendWriteSettles (height : UInt64) (hash : Bytes32) : Settles (CanonicalBin.extendWrite height hash) := by
  intro bin
  cases bin with
  | rw dense =>
    have zoomed : Settles (Op.zoom (fun _ => dense) (fun d _ => CanonicalBin.rw d) (CanonicalDenseFile.writeHash height hash)) :=
      settlesZoom (writeHashSettles height hash)
    exact zoomed (CanonicalBin.rw dense)
  | ro mmap => exact ⟨_,.ro mmap,rfl⟩
  | disabled left => exact ⟨_,.disabled left,rfl⟩

theorem slotKeepsBody (height : UInt64) (hash : Bytes32) : (slotStep height hash).Goes (KeepsBody x) (· = .fault) fun _ => True :=
  keepsBodyDoes rfl fun s => by
    obtain ⟨r,t,ran⟩ := settlesZoom (extendWriteSettles height hash) s
    obtain ⟨bin,_,rfl⟩ := onBinRuns (Clean.runs ran)
    exact ⟨r,_,ran,id⟩

theorem indexKeepsBody (canonical : Bool) (height : UInt64) (hash : Bytes32) :
    (indexCanonicalSteps canonical height hash).Goes (KeepsBody x) (· = .fault) fun _ => True := by
  cases canonical with
  | false => exact goesPure trivial
  | true =>
    exact (slotKeepsBody height hash).bind fun _ _ =>
      keepsBodyModify rfl fun s => by rw [insertHeightRest]

theorem trainKeepsBody : (maybeTrainDictionarySteps crates).Goes (KeepsBody x) (· = .fault) fun _ => True := by
  have unpaid : ∀ {α : Type} {a : α}, (pure a : Steps α).Goes (KeepsBody x) (· = .fault) fun _ => True := goesPure trivial
  refine (keepsBodyAsk useCompressionDict rfl).bind fun use _ => ?_
  cases use with
  | false => exact unpaid
  | true =>
    refine (keepsBodyAsk _ rfl).bind fun held _ => ?_
    cases held with
    | true => exact unpaid
    | false =>
      refine (keepsBodyAsk _ rfl).bind fun row _ => ?_
      cases row with
      | true => exact (keepsBodyAsk _ rfl).bind fun loaded _ => keepsBodyModify rfl fun _ => rfl
      | false =>
        refine (keepsBodyAsk _ rfl).bind fun few _ => ?_
        cases few with
        | true => exact unpaid
        | false =>
          refine .bind (Q := fun _ => True) ?_ fun dict _ => keepsBodyModify rfl fun _ => rfl
          refine (keepsBodyAsk _ rfl).bind fun found _ => ?_
          cases found with
          | some blob => exact unpaid
          | none =>
            refine .bind (Q := fun _ => True) ?_ fun samples _ => ?_
            · refine (keepsBodyAsk _ rfl).bind fun blobs _ => ?_
              split
              · exact keepsBodyLook fun s => ⟨_,rfl⟩
              · exact (goesGather _ fun blob _ => keepsBodyLook (looksAskOk _)).mono fun _ _ => trivial
            · exact (keepsBodyLook (looksOfExcept _)).bind fun dict _ => (keepsBodyWrite (by simp [storesRow,effectPut])).bind
                fun _ _ => unpaid

theorem setTipKeepsBody (tip : ChainTip) : (setTipSteps tip).Goes (KeepsBody x) (· = .fault) fun _ => True :=
  (keepsBodyLook (looksRefuse _)).bind fun _ _ => (keepsBodyWrite (by simp [storesRow,effectPut])).bind fun _ _ =>
    keepsBodyModify rfl fun _ => rfl

end Moves

section Ingests
variable {y : Scene ι Access Store}

theorem silentRead (access : Access) (stores : storesRow x access = false) (traced : Traced x y) :
    Carries (Traced x) Waits i y (y.next i access y.now) := by
  refine traced.next (fun saved => ?_) (fun heard => savedGrows (traced.heard heard) _) (fun bad => ?_)
  · obtain ⟨e,mem,passes⟩ := saved
    rcases List.mem_append.mp mem with old | new
    · exact traced.row ⟨e,old,passes⟩
    · rw [List.mem_singleton.mp new,stores] at passes
      cases passes
  · rw [stores] at bad
    cases bad

theorem lateLook (access : Access) (traced : Traced x y) (heard : y.now.Heard x) (unread : Unread x i y) {z : Scene ι Access Store}
    (waits : Waits i (y.next i access y.now) z) : Saved x z.past ∧ ¬Early x z.past i := by
  have saved := traced.heard heard
  have late : ¬Early x (y.past ++ [(i,access)]) i := by
    rw [lateStays saved]
    exact fun early => unread (earlyPast early)
  exact ⟨waitsSaved (savedGrows saved _) waits,waitsLate (savedGrows saved _) late waits⟩

theorem putBatchStores {block : L2Block} (own : block.hash crates = x) (compressed headerBytes : Bytes) (canonical : Bool) :
    storesRow x (.batch (putBatch (block.hash crates) compressed headerBytes canonical block.height)) = true := by
  rw [own]
  simp [storesRow,putBatch,bodyRows,effectPut]

theorem batchSaves {batch : List Write} (stores : storesRow x (.batch batch) = true) (row : ∀ s : Store, ((s.commit batch).db .blocks)[hashKey x]?.isSome)
    (traced : Traced x y) (early : Early x y.past i) :
    Carries (Traced x) Waits i y (y.next i (.batch batch) (y.now.commit batch)) ∧
      Saved x (y.past ++ [(i,.batch batch)]) ∧ Early x (y.past ++ [(i,.batch batch)]) i := by
  have saved : Saved x (y.past ++ [(i,.batch batch)]) :=
    ⟨_,List.mem_append_right _ (List.mem_singleton_self _),stores⟩
  exact ⟨traced.next (fun _ => row y.now) (fun _ => saved) fun _ => early,saved,beforeGrows early _⟩

/- What a put among such calls answers: the block is saved, and it was new to a call that had not read
its row before exactly if this one read it early. -/
theorem putSafe {block : L2Block} (canonical : Bool) (own : block.hash crates = x) (here : Traced x y) :
    (putBlockSteps crates block canonical).Safe Calm (Traced x) Waits i (fun r z => ∃ added, r = .ok added ∧ Saved x z.past ∧
      (Early x y.past i → Early x z.past i) ∧ (Unread x i y → (added = true ↔ Early x z.past i))) y := by
  have phased : Phase x i fun z => (Early x y.past i → Early x z.past i) ∧ (Unread x i y → Unread x i z) :=
    { stays := fun u z on waits => ⟨fun early => waitsEarly (on.1 early) waits,fun unread => waitsUnread (on.2 unread) waits⟩
      goes := fun u label on apart => ⟨fun early => earlyPhase.goes u label (on.1 early) apart,
        fun unread => unreadPhase.goes u label (on.2 unread) apart⟩ }
  unfold putBlockSteps
  refine Proc.Safe.bind here ((ignoresSafe phased (ignoresLook (looksRefuse _)) ⟨id,id⟩).mono fun r z _ ended => ?_)
  obtain ⟨⟨_,rfl,_⟩,on⟩ := ended
  refine ⟨fun _ _ => ?_,fun e bad => by cases bad⟩
  refine safeAsk fun w later traced allowed => ⟨silentRead _ rfl traced,?_⟩
  have on := phased.stays z w on later
  cases row : (w.now.db .blocks)[hashKey (block.hash crates)]?.isSome with
  | true =>
    have heard : w.now.Heard x := .inr (.inr (by rw [← own]; exact row))
    have saved := savedGrows (traced.heard heard) [(i,bodyRead x)]
    have keeps (early : Early x y.past i) : Early x (w.next i (bodyRead x) w.now).past i := beforeGrows (on.1 early) _
    rw [own]
    refine fun v waits _ => ⟨false,rfl,waitsSaved saved waits,fun early => waitsEarly (keeps early) waits,fun unread => ?_⟩
    have late := (lateLook (bodyRead x) traced heard (on.2 unread) waits).2
    exact ⟨fun bad => (by cases bad),fun early => absurd early late⟩
  | false =>
    have unsaved : ¬Saved x w.past := fun saved => by
      have found := traced.row saved
      rw [← own,row] at found
      cases found
    have early : Early x (w.next i (.rowRead .blocks (hashKey (block.hash crates))) w.now).past i := by
      rw [own]
      exact earlyRead unsaved
    have there := (silentRead (i := i) (.rowRead .blocks (hashKey (block.hash crates))) rfl traced).1
    rw [if_neg (by simp)]
    refine Proc.Safe.bind there ((ignoresSafe earlyPhase (ignoresLook (looksAskOk _)) early).mono fun r u there ended => ?_)
    obtain ⟨⟨compressed,rfl,_⟩,early⟩ := ended
    refine ⟨fun _ same => ?_,fun e bad => by cases bad⟩
    cases same
    refine Proc.Safe.bind there ((ignoresSafe earlyPhase (ignoresLook (looksOfExcept _)) early).mono fun r u there ended => ?_)
    obtain ⟨⟨headerBytes,rfl,_⟩,early⟩ := ended
    refine ⟨fun _ same => ?_,fun e bad => by cases bad⟩
    cases same
    refine safeReturns fun v waits traced => ⟨(),_,cleanWrite _ _,fun _ => ?_⟩
    have stored (s : Store) : ((s.commit (putBatch (block.hash crates) compressed headerBytes canonical block.height)).db
        .blocks)[hashKey x]?.isSome := by
      have row := (rowWritesFiled [⟨block.hash crates,block,compressed,headerBytes,canonical,0⟩] s.db (.inl rfl) x).mpr
        (.inl (List.mem_singleton.mpr own.symm))
      rwa [List.flatMap_cons,List.flatMap_nil,List.append_nil] at row
    obtain ⟨carries,saved,early⟩ := batchSaves (putBatchStores own compressed headerBytes canonical) stored traced
      (waitsEarly early waits)
    refine ⟨carries,?_⟩
    have rest : (do
        indexCanonicalSteps canonical block.height (block.hash crates)
        other (Op.modify (cacheRecord (block.hash crates) (BlockRecord.fromHeader crates block.header .validated)))
        other (Op.modify (cacheBody (block.hash crates) block))
        other (Op.modify (cacheHeader (block.hash crates) block.header))
        other (Op.modify (cacheHeight (block.hash crates) block.height))
        maybeTrainDictionarySteps crates
        pure true : Steps Bool).Goes (KeepsBody x) (· = .fault) fun added => added = true :=
      .bind (indexKeepsBody canonical _ _) fun _ _ => .bind (keepsBodyModify rfl fun _ => rfl) fun _ _ =>
        .bind (keepsBodyModify rfl fun _ => rfl) fun _ _ => .bind (keepsBodyModify rfl fun _ => rfl) fun _ _ =>
          .bind (keepsBodyModify rfl fun _ => rfl) fun _ _ => .bind trainKeepsBody fun _ _ => goesPure rfl
    refine (keepsBodySafe rest saved).mono fun r z _ ended => ?_
    obtain ⟨⟨added,rfl,rfl⟩,saved,same⟩ := ended
    exact ⟨true,rfl,saved,fun _ => same.mpr early,fun _ => ⟨fun _ => same.mpr early,fun _ => rfl⟩⟩

theorem hasBlockSafe (here : Unread x i y) :
    (hasBlockSteps x).Safe Calm (Traced x) Waits i (fun r z => ∃ found, r = .ok found ∧
      (found = true → Saved x z.past ∧ ¬Early x z.past i) ∧ (found = false → Early x z.past i)) y := by
  have hit {u : Scene ι Access Store} (access : Access) (traced : Traced x u) (heard : u.now.Heard x) (unread : Unread x i u) :
      (Proc.ret (.ok true) : Steps Bool).Safe Calm (Traced x) Waits i (fun r z => ∃ found, r = .ok found ∧
        (found = true → Saved x z.past ∧ ¬Early x z.past i) ∧ (found = false → Early x z.past i)) (u.next i access u.now) :=
    fun z waits _ => ⟨true,rfl,fun _ => lateLook access traced heard unread waits,fun bad => by cases bad⟩
  unfold hasBlockSteps
  refine safeAsk fun u later traced _ => ⟨silentRead _ rfl traced,?_⟩
  have unread := waitsUnread here later
  cases body : u.now.blockCache.contains x with
  | true => exact hit _ traced (.inl (.inr (.inl body))) unread
  | false =>
    have unread := unreadPhase.goes u .other unread (by simp [bodyRead])
    refine safeAsk fun v later traced _ => ⟨silentRead _ rfl traced,?_⟩
    have unread := waitsUnread unread later
    cases header : v.now.headerCache.contains x with
    | true => exact hit _ traced (.inl (.inl header)) unread
    | false =>
      have unread := unreadPhase.goes v .other unread (by simp [bodyRead])
      refine safeAsk fun w later traced _ => ⟨silentRead _ rfl traced,?_⟩
      have unread := waitsUnread unread later
      cases row : (w.now.db .headers)[hashKey x]?.isSome with
      | true => exact hit _ traced (.inr (.inl row)) unread
      | false =>
        have unread := unreadPhase.goes w (.rowRead .headers (hashKey x)) unread (by simp [bodyRead])
        refine safeAsk fun v later traced _ => ⟨silentRead _ rfl traced,?_⟩
        have unread := waitsUnread unread later
        cases row : (v.now.db .blocks)[hashKey x]?.isSome with
        | true => exact hit _ traced (.inr (.inr row)) unread
        | false =>
          have unsaved : ¬Saved x v.past := fun saved => by
            have found := traced.row saved
            rw [row] at found
            cases found
          exact fun z waits _ => ⟨false,rfl,fun bad => (by cases bad),fun _ => waitsEarly (earlyRead unsaved) waits⟩

theorem extendSafe {block : L2Block} (own : block.hash crates = x) (here : Traced x y) (unread : Unread x i y) :
    (extendChainSteps crates block).Safe Calm (Traced x) Waits i (fun r z => ∃ added, r = .ok added ∧ Saved x z.past ∧
      (added = true ↔ Early x z.past i)) y := by
  unfold extendChainSteps
  rw [own]
  refine Proc.Safe.bind here ((hasBlockSafe unread).mono fun r z traced ended => ?_)
  obtain ⟨found,rfl,hit,miss⟩ := ended
  refine ⟨fun _ same => ?_,fun e bad => by cases bad⟩
  cases same
  cases found with
  | true =>
    obtain ⟨saved,late⟩ := hit rfl
    exact fun v waits _ => ⟨false,rfl,waitsSaved saved waits,fun bad => (by cases bad),
      fun early => absurd early (waitsLate saved late waits)⟩
  | false =>
    have early := miss rfl
    refine Proc.Safe.bind traced ((putSafe true own traced).mono fun r w traced ended => ?_)
    obtain ⟨_,rfl,saved,keeps,_⟩ := ended
    refine ⟨fun _ _ => ?_,fun e bad => by cases bad⟩
    have rest : (do
        setTipSteps ⟨x,block.height⟩
        pure true : Steps Bool).Goes (KeepsBody x) (· = .fault) fun added => added = true :=
      .bind (setTipKeepsBody _) fun _ _ => goesPure rfl
    refine (keepsBodySafe rest saved).mono fun r z _ ended => ?_
    obtain ⟨⟨_,rfl,rfl⟩,saved,same⟩ := ended
    exact ⟨true,rfl,saved,fun _ => same.mpr (keeps early),fun _ => rfl⟩

end Ingests

section Flushes
variable {y : Scene ι Access Store}

theorem latePhase : Phase x i fun y => Saved x y.past ∧ ¬Early x y.past i where
  stays _ _ late waits := ⟨waitsSaved late.1 waits,waitsLate late.1 late.2 waits⟩
  goes _ _ late _ := ⟨savedGrows late.1 _,by
    change ¬Early x (_ ++ _) i
    rw [lateStays late.1]
    exact late.2⟩

theorem cleanLookUp (key : Bytes) (s : Store) : Clean (do
    Op.step BlockStoreError.rocksDb
    ask fun s => (s.db .blocks)[key]?.isSome) s (.ok (s.db .blocks)[key]?.isSome) s := rfl

theorem rowIgnores (job : PipelineJob) (apart : job.block.hash crates ≠ x) :
    (rowSteps crates job).Goes (Ignores x) (· = .fault) fun row => ∀ staged, row = some staged → staged.hash ≠ x := by
  have look : (does (fun _ => .rowRead .blocks (hashKey (job.block.hash crates))) (do
      Op.step BlockStoreError.rocksDb
      ask fun s => (s.db .blocks)[hashKey (job.block.hash crates)]?.isSome)).Goes (Ignores x) (· = .fault) fun _ => True :=
    goesAtom fun s => ⟨_,s,cleanLookUp _ s,.inr ⟨⟨rfl,rfl,fun same => apart (hashKeyInj.mp (by
      change Access.rowRead .blocks (hashKey (job.block.hash crates)) = _ at same
      injection same))⟩,_,rfl,trivial⟩⟩
  refine look.bind fun stored _ => ?_
  split
  · exact goesPure fun staged bad => by cases bad
  · refine (ignoresLook (looksAskOk _)).bind fun compressed _ => (ignoresLook (looksOfExcept _)).bind fun headerBytes _ => ?_
    refine goesPure fun staged same => ?_
    cases same
    exact apart

theorem rowSafe (job : PipelineJob) (own : job.block.hash crates = x) (unread : Unread x i y) :
    (rowSteps crates job).Safe Calm (Traced x) Waits i (fun r z => ∃ row, r = .ok row ∧
      ((∃ staged, row = some staged ∧ staged.hash = x ∧ Early x z.past i) ∨
        row = none ∧ Saved x z.past ∧ ¬Early x z.past i)) y := by
  unfold rowSteps
  rw [own]
  refine safeReturns fun w later traced => ⟨_,w.now,cleanLookUp _ w.now,fun _ => ⟨silentRead _ rfl traced,?_⟩⟩
  have unread := waitsUnread unread later
  cases row : (w.now.db .blocks)[hashKey x]?.isSome with
  | true =>
    exact fun z waits _ => ⟨none,rfl,.inr ⟨rfl,lateLook (bodyRead x) traced (.inr (.inr row)) unread waits⟩⟩
  | false =>
    have unsaved : ¬Saved x w.past := fun saved => by
      have found := traced.row saved
      rw [row] at found
      cases found
    have early : Early x (w.next i (bodyRead x) w.now).past i := earlyRead unsaved
    have there := (silentRead (i := i) (bodyRead x) rfl traced).1
    have rest : (do
        let compressed ← other (askOk fun s => s.serializeBlock crates job.block)
        let headerBytes ← other (Op.ofExcept (Store.serializeHeader crates job.block.header))
        pure (some ⟨x,job.block,compressed,headerBytes,job.canonical,job.ack⟩) : Steps (Option StagedRow)).Goes (Ignores x)
          (· = .fault) fun row => ∃ staged, row = some staged ∧ staged.hash = x :=
      .bind (ignoresLook (looksAskOk _)) fun _ _ => .bind (ignoresLook (looksOfExcept _)) fun _ _ => goesPure ⟨_,rfl,rfl⟩
    refine (ignoresSafe earlyPhase rest early).mono fun r z _ ended => ?_
    obtain ⟨⟨_,rfl,staged,rfl,same⟩,early⟩ := ended
    exact ⟨_,rfl,.inl ⟨staged,rfl,same,early⟩⟩

theorem answersAppend (front back : List Report) : answersOn x (front ++ back) = answersOn x front ++ answersOn x back := by
  simp [answersOn]

theorem answersOther {reports : List Report} (apart : ∀ report ∈ reports, report.hash ≠ x) : answersOn x reports = [] := by
  rw [answersOn,List.filter_eq_nil_iff.mpr fun report mem => by simp [apart report mem],List.map_nil]

theorem answersUnstaged (ack : Nat) {hash : Bytes32} (apart : hash ≠ x) (row : Except BlockStoreError (Option StagedRow)) :
    answersOn x (unstaged hash ack row) = [] :=
  answersOther fun report mem => by
    rcases row with e | _ | staged
    · rw [List.mem_singleton.mp mem]
      exact apart
    · rw [List.mem_singleton.mp mem]
      exact apart
    · cases mem

def Skips (x : Bytes32) (staged : List StagedRow) : Prop := ∀ row ∈ staged, row.hash ≠ x

def StagesOnce (x : Bytes32) (staged : List StagedRow) : Prop :=
  ∃ front row back, staged = front ++ row :: back ∧ row.hash = x ∧ Skips x (front ++ back)

theorem Skips.join {front : Option StagedRow} {back : List StagedRow} (first : ∀ row, front = some row → row.hash ≠ x)
    (later : Skips x back) : Skips x (front.toList ++ back) := fun row mem => by
  rcases List.mem_append.mp mem with here | there
  · exact first row (Option.mem_toList.mp here)
  · exact later row there

theorem StagesOnce.cons {first : StagedRow} {back : List StagedRow} (own : first.hash = x) (later : Skips x back) :
    StagesOnce x (first :: back) := ⟨[],first,back,rfl,own,later⟩

theorem StagesOnce.join {front : Option StagedRow} {back : List StagedRow} (first : ∀ row, front = some row → row.hash ≠ x)
    (later : StagesOnce x back) : StagesOnce x (front.toList ++ back) := by
  obtain ⟨before,row,after,rfl,own,apart⟩ := later
  exact ⟨front.toList ++ before,row,after,(List.append_assoc ..).symm,own,by rw [List.append_assoc]; exact apart.join first⟩

theorem stageIgnores (seen : List Bytes32) (jobs : List PipelineJob) (met : x ∈ seen) :
    (stageSteps crates seen jobs).Goes (Ignores x) (· = .fault) fun p =>
      (∀ a ∈ answersOn x p.1, a = .ok false) ∧ Skips x p.2 := by
  induction jobs generalizing seen with
  | nil => exact goesPure ⟨by simp [answersOn],by simp [Skips]⟩
  | cons job rest ih =>
    rw [stageSteps]
    split
    · refine (ih seen met).bind fun later known => goesPure ⟨fun a mem => ?_,known.2⟩
      rw [← List.singleton_append,answersAppend] at mem
      rcases List.mem_append.mp mem with here | there
      · obtain ⟨report,inside,rfl⟩ := List.mem_map.mp here
        rw [List.mem_singleton.mp (List.mem_of_mem_filter inside)]
      · exact known.1 a there
    · rename_i new
      have apart : job.block.hash crates ≠ x := fun same => new (same ▸ met)
      refine (rowIgnores job apart).attempt.bind fun row staged => ?_
      obtain ⟨staged,rfl,other⟩ := staged
      refine (ih _ (List.mem_cons_of_mem _ met)).bind fun later known => goesPure ⟨fun a mem => ?_,known.2.join other⟩
      rw [answersAppend,answersUnstaged job.ack apart,List.nil_append] at mem
      exact known.1 a mem

def Sorted (x : Bytes32) (i : ι) (p : List Report × List StagedRow) (z : Scene ι Access Store) : Prop :=
  (∀ a ∈ answersOn x p.1, a = .ok false) ∧
    (Early x z.past i ∧ StagesOnce x p.2 ∨ (Saved x z.past ∧ ¬Early x z.past i) ∧ answersOn x p.1 ≠ [] ∧ Skips x p.2)

theorem Sorted.stays {p : List Report × List StagedRow} {z w : Scene ι Access Store} (sorted : Sorted x i p z)
    (waits : Waits i z w) : Sorted x i p w := by
  obtain ⟨known,⟨early,once⟩ | ⟨late,rest⟩⟩ := sorted
  · exact ⟨known,.inl ⟨waitsEarly early waits,once⟩⟩
  · exact ⟨known,.inr ⟨latePhase.stays _ w late waits,rest⟩⟩

theorem Sorted.join {front : List Report} {first : Option StagedRow} {p : List Report × List StagedRow}
    {z : Scene ι Access Store} (sorted : Sorted x i p z) (none' : answersOn x front = [])
    (other : ∀ row, first = some row → row.hash ≠ x) : Sorted x i (front ++ p.1,first.toList ++ p.2) z := by
  unfold Sorted
  rw [answersAppend,none',List.nil_append]
  obtain ⟨known,⟨early,once⟩ | ⟨late,answered,skips⟩⟩ := sorted
  · exact ⟨known,.inl ⟨early,once.join other⟩⟩
  · exact ⟨known,.inr ⟨late,answered,skips.join other⟩⟩

theorem stageSafe (seen : List Bytes32) (jobs : List PipelineJob) (new : x ∉ seen) (on : ∃ job ∈ jobs, job.block.hash crates = x)
    (here : Traced x y) (unread : Unread x i y) : (stageSteps crates seen jobs).Safe Calm (Traced x) Waits i
      (fun r z => ∃ p, r = .ok p ∧ Sorted x i p z) y := by
  induction jobs generalizing seen y with
  | nil => simp at on
  | cons job rest ih =>
    rw [stageSteps]
    by_cases own : job.block.hash crates = x
    · rw [own,if_neg new]
      refine Proc.Safe.bind here ((rowSafe job own unread).attempt.mono fun r z traced ended => ?_)
      obtain ⟨row,rfl,ended⟩ := ended
      refine ⟨fun _ same => ?_,fun e bad => by cases bad⟩
      cases same
      have met : x ∈ x :: seen := List.mem_cons_self
      rcases ended with ⟨staged,rfl,same,early⟩ | ⟨rfl,late⟩
      · refine Proc.Safe.bind traced ((ignoresSafe earlyPhase (stageIgnores _ rest met) early).mono fun r v traced ended => ?_)
        obtain ⟨⟨later,rfl,known,apart⟩,early⟩ := ended
        refine ⟨fun _ same => ?_,fun e bad => by cases bad⟩
        cases same
        exact fun w waits _ => ⟨_,rfl,known,.inl ⟨waitsEarly early waits,StagesOnce.cons same apart⟩⟩
      · refine Proc.Safe.bind traced ((ignoresSafe latePhase (stageIgnores _ rest met) late).mono fun r v traced ended => ?_)
        obtain ⟨⟨later,rfl,known,apart⟩,late⟩ := ended
        refine ⟨fun _ same => ?_,fun e bad => by cases bad⟩
        cases same
        refine fun w waits _ => ⟨_,rfl,?_,.inr ⟨latePhase.stays _ w late waits,?_,apart⟩⟩
        · intro a mem
          rw [answersAppend] at mem
          rcases List.mem_append.mp mem with first | there
          · simpa [answersOn,unstaged] using first
          · exact known a there
        · rw [answersAppend]
          simp [answersOn,unstaged]
    · have on : ∃ job ∈ rest, job.block.hash crates = x := by
        obtain ⟨job',mem,same⟩ := on
        rcases List.mem_cons.mp mem with rfl | later
        · exact absurd same own
        · exact ⟨job',later,same⟩
      split
      · refine Proc.Safe.bind here ((ih seen new on here unread).mono fun r z traced ended => ?_)
        obtain ⟨later,rfl,sorted⟩ := ended
        refine ⟨fun _ same => ?_,fun e bad => by cases bad⟩
        cases same
        have apart : answersOn x [⟨job.block.hash crates,job.ack,.ok false⟩] = [] :=
          answersOther fun report mem => by rw [List.mem_singleton.mp mem]; exact own
        exact fun w waits _ => ⟨_,rfl,(sorted.stays waits).join apart fun row (bad : none = some row) => by cases bad⟩
      · refine Proc.Safe.bind here ((ignoresSafe unreadPhase (rowIgnores job own).attempt unread).mono fun r z traced ended => ?_)
        obtain ⟨⟨_,rfl,row,rfl,other⟩,unread⟩ := ended
        refine ⟨fun _ same => ?_,fun e bad => by cases bad⟩
        cases same
        have new' : x ∉ job.block.hash crates :: seen := List.not_mem_cons_of_ne_of_not_mem (Ne.symm own) new
        refine Proc.Safe.bind traced ((ih _ new' on traced unread).mono fun r v traced ended => ?_)
        obtain ⟨later,rfl,sorted⟩ := ended
        refine ⟨fun _ same => ?_,fun e bad => by cases bad⟩
        cases same
        exact fun w waits _ => ⟨_,rfl,(sorted.stays waits).join (answersUnstaged job.ack own _) other⟩

abbrev Added (row : StagedRow) (report : Report) : Prop := report.hash = row.hash ∧ report.result = .ok true

theorem answersAdded {staged : List StagedRow} {reports : List Report} (added : List.Forall₂ Added staged reports) :
    answersOn x reports = (staged.filter fun row => row.hash = x).map fun _ => .ok true := by
  induction added with
  | nil => rfl
  | @cons row report rows reports here _ ih =>
    unfold answersOn at ih ⊢
    rw [List.filter_cons,List.filter_cons,here.1]
    split
    · rw [List.map_cons,List.map_cons,here.2,ih]
    · exact ih

theorem answersOnce {staged : List StagedRow} {reports : List Report} (once : StagesOnce x staged)
    (added : List.Forall₂ Added staged reports) : answersOn x reports = [.ok true] := by
  obtain ⟨front,row,back,rfl,own,apart⟩ := once
  have none' : ∀ rows : List StagedRow, Skips x rows → rows.filter (fun row => row.hash = x) = [] := fun rows skips =>
    List.filter_eq_nil_iff.mpr fun row mem => by simp [skips row mem]
  rw [answersAdded added,List.filter_append,List.filter_cons,none' front fun row mem => apart row (List.mem_append_left _ mem),
    none' back fun row mem => apart row (List.mem_append_right _ mem)]
  simp [own]

theorem answersNone {staged : List StagedRow} {reports : List Report} (skips : Skips x staged)
    (added : List.Forall₂ Added staged reports) : answersOn x reports = [] := by
  rw [answersAdded added,List.filter_eq_nil_iff.mpr fun row mem => by simp [skips row mem],List.map_nil]

theorem cacheRowKeepsBody (row : StagedRow) : (cacheRowSteps crates row).Goes (KeepsBody x) (· = .fault) (Added row) :=
  .bind (keepsBodyModify rfl fun _ => rfl) fun _ _ => .bind (keepsBodyModify rfl fun _ => rfl) fun _ _ =>
    .bind (keepsBodyModify rfl fun _ => rfl) fun _ _ => .bind trainKeepsBody.attempt fun done ended => by
      obtain ⟨_,rfl,_⟩ := ended
      exact goesPure ⟨rfl,rfl⟩

theorem placeKeepsBody (staged : List StagedRow) :
    (placeSteps crates staged).Goes (KeepsBody x) (· = .fault) (List.Forall₂ Added staged) := by
  have written : (Proc.each writeBinSteps staged).Goes (KeepsBody x) (· = .fault) fun _ => True := goesEach _ fun row _ => by
    unfold writeBinSteps
    split
    · exact slotKeepsBody _ _
    · exact goesPure trivial
  unfold placeSteps
  refine written.attempt.bind fun r ended => ?_
  obtain ⟨_,rfl,_⟩ := ended
  exact goesGather _ fun row _ => cacheRowKeepsBody row

theorem rowsStore (staged : List StagedRow) :
    storesRow x (.batch (staged.flatMap rowWrites)) = staged.any fun row => row.hash = x := by
  unfold storesRow
  dsimp only
  rw [List.any_flatMap]
  congr 1
  funext row
  cases canonical : row.canonical <;> by_cases own : row.hash = x <;>
    simp [rowWrites,bodyRows,canonicalRow,effectPut,canonical,own,hashKeyInj]

theorem commitSafe {staged : List StagedRow} (here : Traced x y) (start : Early x y.past i ∧ StagesOnce x staged ∨
      (Saved x y.past ∧ ¬Early x y.past i) ∧ Skips x staged) : (commitSteps crates staged).Safe Calm (Traced x) Waits i
        (fun r z => ∃ reports, r = .ok reports ∧ List.Forall₂ Added staged reports ∧ Saved x z.past ∧
          (Early x z.past i ↔ Early x y.past i)) y := by
  unfold commitSteps
  rcases start with ⟨early,once⟩ | ⟨⟨saved,late⟩,skips⟩
  · obtain ⟨front,row,back,parts,own,_⟩ := once
    have inside : x ∈ staged.map StagedRow.hash := by
      rw [parts]
      simp [own]
    have stores : storesRow x (.batch (staged.flatMap rowWrites)) = true := by
      rw [rowsStore,parts]
      simp [own]
    have written : (does (fun _ => .batch (staged.flatMap rowWrites)) (write (staged.flatMap rowWrites))).Safe Calm (Traced x)
        Waits i (fun r z => ∃ a, r = .ok a ∧ Saved x z.past ∧ Early x z.past i) y :=
      safeAct fun z waits traced => ⟨_,_,_,cleanWrite _ _,labelOk (cleanWrite _ _),fun _ => by
        obtain ⟨carries,saved,early⟩ := batchSaves stores (fun s => (rowWritesFiled staged s.db (.inl rfl) x).mpr (.inl inside))
          traced (waitsEarly early waits)
        exact ⟨carries.1,carries.2,fun b _ w waits _ => ⟨b,rfl,waitsSaved saved waits,waitsEarly early waits⟩,
          fun e bad => by cases bad⟩⟩
    refine Proc.Safe.bind here (written.attempt.mono fun r z traced ended => ?_)
    obtain ⟨_,rfl,saved,after⟩ := ended
    refine ⟨fun _ same => ?_,fun e bad => by cases bad⟩
    cases same
    refine (keepsBodySafe (placeKeepsBody staged) saved).mono fun r z _ ended => ?_
    obtain ⟨⟨reports,rfl,added⟩,saved,same⟩ := ended
    exact ⟨reports,rfl,added,saved,iff_of_true (same.mpr after) early⟩
  · have all : (commitSteps crates staged).Goes (KeepsBody x) (· = .fault) (List.Forall₂ Added staged) := by
      unfold commitSteps
      have apart : storesRow x (.batch (staged.flatMap rowWrites)) = false := by
        rw [rowsStore,List.any_eq_false]
        exact fun row mem => by simp [skips row mem]
      refine (keepsBodyWrite apart).attempt.bind fun r ended => ?_
      obtain ⟨_,rfl,_⟩ := ended
      exact placeKeepsBody staged
    refine (keepsBodySafe all saved).mono fun r z _ ended => ?_
    obtain ⟨⟨reports,rfl,added⟩,saved,same⟩ := ended
    exact ⟨reports,rfl,added,saved,same⟩

theorem flushSafe {jobs : List PipelineJob} (on : ∃ job ∈ jobs, job.block.hash crates = x) (here : Traced x y)
    (unread : Unread x i y) : (flushSteps crates jobs).Safe Calm (Traced x) Waits i (fun r z => ∃ reports, r = .ok reports ∧
      Saved x z.past ∧ (Early x z.past i ∧ SaysNew (answersOn x reports) ∨
        ¬Early x z.past i ∧ SaysKnown (answersOn x reports))) y := by
  unfold flushSteps
  refine Proc.Safe.bind here ((ignoresSafe unreadPhase (ignoresLook (looksRefuse _)).attempt unread).mono
    fun r z traced ended => ?_)
  obtain ⟨⟨_,rfl,_,rfl,_⟩,unread⟩ := ended
  refine ⟨fun _ same => ?_,fun e bad => by cases bad⟩
  cases same
  refine Proc.Safe.bind traced ((stageSafe [] jobs (by simp) on traced unread).mono fun r z traced ended => ?_)
  obtain ⟨⟨reports,staged⟩,rfl,known,ended⟩ := ended
  refine ⟨fun _ same => ?_,fun e bad => by cases bad⟩
  cases same
  split
  · rename_i empty
    rcases ended with ⟨_,_,_,_,parts,_⟩ | ⟨late,answered,_⟩
    · rw [show staged = [] from empty] at parts
      simp at parts
    · exact fun w waits _ => ⟨_,rfl,waitsSaved late.1 waits,.inr ⟨waitsLate late.1 late.2 waits,answered,known⟩⟩
  · have start := ended.imp_right fun late => And.intro late.1 late.2.2
    refine Proc.Safe.bind traced ((commitSafe traced start).mono fun r v _ done => ?_)
    obtain ⟨more,rfl,added,saved,same⟩ := done
    refine ⟨fun _ eq => ?_,fun e bad => by cases bad⟩
    cases eq
    refine fun w waits _ => ⟨_,rfl,waitsSaved saved waits,?_⟩
    rw [answersAppend]
    rcases ended with ⟨early,once⟩ | ⟨⟨_,late⟩,answered,skips⟩
    · rw [answersOnce once added]
      exact .inl ⟨waitsEarly (same.mpr early) waits,answersOn x reports,[],rfl,by simpa using known⟩
    · rw [answersNone skips added,List.append_nil]
      exact .inr ⟨waitsLate saved (fun early => late (same.mp early)) waits,answered,known⟩

end Flushes

def Answered (x : Bytes32) (i : ι) (r : Exit (List Report)) (z : Scene ι Access Store) : Prop :=
  ∃ reports, r = .ok reports ∧ Saved x z.past ∧
    (Early x z.past i ∧ SaysNew (answersOn x reports) ∨ ¬Early x z.past i ∧ SaysKnown (answersOn x reports))

theorem answeredOne {ack : Nat} {added : Bool} {z : Scene ι Access Store} (saved : Saved x z.past)
    (new : added = true ↔ Early x z.past i) : Answered x i (.ok [⟨x,ack,.ok added⟩]) z := by
  refine ⟨_,rfl,saved,?_⟩
  have own : answersOn x [⟨x,ack,.ok added⟩] = [.ok added] := by simp [answersOn]
  rw [own]
  cases added with
  | true => exact .inl ⟨new.mp rfl,[],[],rfl,by simp⟩
  | false => exact .inr ⟨fun early => (by cases new.mpr early),by simp,by simp⟩

theorem answersSteps {call : BlockCall} (on : call.On crates x) {y : Scene ι Access Store} (here : Traced x y)
    (unread : Unread x i y) : (call.steps crates).Safe Calm (Traced x) Waits i (Answered x i) y := by
  cases call with
  | flush jobs => exact flushSafe on here unread
  | putBlock block canonical =>
    rw [BlockCall.steps,show block.hash crates = x from on]
    refine Proc.Safe.bind here ((putSafe canonical on here).mono fun r z _ ended => ?_)
    obtain ⟨added,rfl,saved,_,new⟩ := ended
    refine ⟨fun _ same => ?_,fun e bad => by cases bad⟩
    cases same
    exact fun w waits _ => answeredOne (waitsSaved saved waits) ((new unread).trans (waitsFixed saved waits).symm)
  | extendChain block =>
    rw [BlockCall.steps,show block.hash crates = x from on]
    refine Proc.Safe.bind here ((extendSafe on here unread).mono fun r z _ ended => ?_)
    obtain ⟨added,rfl,saved,new⟩ := ended
    refine ⟨fun _ same => ?_,fun e bad => by cases bad⟩
    cases same
    exact fun w waits _ => answeredOne (waitsSaved saved waits) (new.trans (waitsFixed saved waits).symm)

theorem calmShorter (es : List (ι × Access)) (e : ι × Access) (calm : Calm (es ++ [e])) : Calm es := fun e' mem =>
  calm e' (List.mem_append_left _ mem)

end Store

theorem SaysNew.unknown {answers : List (Except BlockStoreError Bool)} (new : SaysNew answers) : ¬SaysKnown answers := by
  rintro ⟨_,known⟩
  obtain ⟨front,back,rfl,_⟩ := new
  have bad := known (.ok true) (by simp)
  cases bad

/- Any number of calls for one block that is nowhere in the store, run together in some order without
a failed step: one reports it as new and all others as known, exactly when only one read the row of
the block before some call stored it. -/
theorem novelOnce {crates : Crates} {s : Store} {x : Bytes32} (absent : ¬s.Heard x) {ι : Type} [DecidableEq ι] [Nonempty ι]
    {calls : ι → BlockCall} (on : ∀ i, (calls i).On crates x) {past : List (ι × Access)}
    {c : Live ι Access Store BlockStoreError (List Report)}
    (order : Interleaving (Live.start s fun i => (calls i).steps crates) past c) (ended : c.Finished) (calm : Store.Calm past) :
    NovelOnce x c ↔ ∀ i j, Early x past i → Early x past j → i = j := by
  have here : Store.Traced x (⟨[],s⟩ : Scene ι Access Store) :=
    ⟨fun ⟨_,mem,_⟩ => (by cases mem),fun heard => absurd heard absent,fun _ mem => by cases mem⟩
  have safe (i : ι) : ((calls i).steps crates).Safe Store.Calm (Store.Traced x) Store.Waits i (Store.Answered x i) ⟨[],s⟩ :=
    Store.answersSteps (on i) here fun mem => by cases mem
  have each (i : ι) : ∃ reports, c.procs i = .ret (.ok reports) ∧ Saved x past ∧
      (Early x past i ∧ SaysNew (answersOn x reports) ∨ ¬Early x past i ∧ SaysKnown (answersOn x reports)) := by
    obtain ⟨r,result⟩ := Option.isSome_iff_exists.mp (ended i)
    obtain ⟨reports,rfl,rest⟩ := interleavingEnds Store.calmShorter rfl here safe order calm result
    refine ⟨reports,?_,rest⟩
    cases mine : c.procs i with
    | ret r' =>
      rw [mine] at result
      cases result
      rfl
    | act label m next =>
      rw [mine] at result
      cases result
  constructor
  · rintro ⟨k,_,others⟩
    have only (i : ι) (early : Early x past i) : i = k := by
      by_contra apart
      obtain ⟨reports,mine,known⟩ := others i apart
      obtain ⟨reports',mine',_,⟨_,new⟩ | ⟨late,_⟩⟩ := each i
      · rw [mine] at mine'
        cases mine'
        exact new.unknown known
      · exact late early
    exact fun i j first second => (only i first).trans (only j second).symm
  · intro single
    obtain ⟨first⟩ := ‹Nonempty ι›
    obtain ⟨_,_,saved,_⟩ := each first
    have traced := (interleavingSafe Store.calmShorter rfl here safe order calm).2.1
    obtain ⟨e,mem,stores⟩ := saved
    have early := traced.savers e mem stores
    refine ⟨e.1,?_,fun j apart => ?_⟩
    · obtain ⟨reports,mine,_,⟨_,new⟩ | ⟨late,_⟩⟩ := each e.1
      · exact ⟨reports,mine,new⟩
      · exact absurd early late
    · obtain ⟨reports,mine,_,⟨early',_⟩ | ⟨_,known⟩⟩ := each j
      · exact absurd (single j e.1 early' early) apart
      · exact ⟨reports,mine,known⟩

namespace Sample

def ingest : Bool → BlockCall
  | true => .putBlock (block 1 0 1) true
  | false => .flush [⟨block 1 0 1,true,0⟩,⟨block 1 0 1,true,1⟩]

def ingests : Live Bool Access Store BlockStoreError (List Report) :=
  .start (Store.created config) fun i => (ingest i).steps crates

def endsWith (test : List (Bool × Access) → Bool) (order : List Bool) : Bool :=
  (play order [] ingests).any fun moment =>
    (∀ i, (moment.2.procs i).result?.isSome) ∧ (∀ e ∈ moment.1, e.2 ≠ .fault) ∧ test moment.1

theorem endsWithRun {test : List (Bool × Access) → Bool} {order : List Bool} (ends : endsWith test order = true) :
    ∃ past c, Interleaving ingests past c ∧ c.Finished ∧ Store.Calm past ∧ test past = true := by
  obtain ⟨⟨past,c⟩,played,passed⟩ := (Option.any_eq_true _ _).mp ends
  obtain ⟨ended,calm,passed⟩ := of_decide_eq_true passed
  exact ⟨past,c,playInterleaves .start played,ended,calm,passed⟩

theorem ingestsOn (i : Bool) : (ingest i).On crates (hash 1) := by
  cases i with
  | true => exact rfl
  | false => exact ⟨_,List.mem_cons_self,rfl⟩

theorem unheard : ¬(Store.created config).Heard (hash 1) := by
  unfold Store.Heard Store.Mentions Store.Stored
  decide +kernel

end Sample

/- The calls in turn, and with both their reads first. -/
theorem novelOnceSample : (∃ past c, Interleaving Sample.ingests past c ∧ NovelOnce (Sample.hash 1) c) ∧
    ∃ past c, Interleaving Sample.ingests past c ∧ c.Finished ∧ Store.Calm past ∧ ¬NovelOnce (Sample.hash 1) c := by
  constructor
  · have ends : Sample.endsWith (fun past => ¬Early (Sample.hash 1) past false) (List.replicate 15 true ++ List.replicate 2 false) =
        true := by decide +kernel
    obtain ⟨past,c,order,ended,calm,late⟩ := Sample.endsWithRun ends
    refine ⟨past,c,order,(novelOnce Sample.unheard Sample.ingestsOn order ended calm).mpr fun i j first second => ?_⟩
    have late := of_decide_eq_true late
    cases i with
    | false => exact absurd first late
    | true =>
      cases j with
      | false => exact absurd second late
      | true => rfl
  · have ends : Sample.endsWith (fun past => ∀ i, Early (Sample.hash 1) past i)
        (List.replicate 2 true ++ List.replicate 2 false ++ List.replicate 13 true ++ List.replicate 11 false) = true := by
      decide +kernel
    obtain ⟨past,c,order,ended,calm,early⟩ := Sample.endsWithRun ends
    have early := of_decide_eq_true early
    refine ⟨past,c,order,ended,calm,fun novel => ?_⟩
    have same := (novelOnce Sample.unheard Sample.ingestsOn order ended calm).mp novel true false (early true) (early false)
    cases same

end DigBlockstore
