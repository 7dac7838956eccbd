import DigBlockstore.Crashes
import DigBlockstore.Library.Turning

/-! Putting one block until it answers. Each attempt ends in any way at any step, with reads and
reopenings in between: one of them commits the rows, and what it answered is not answered again. -/
namespace DigBlockstore
open ByteCodec Faulty ColumnStore PartialMap Trace

inductive Try where
  | put (canonical : Bool)
  | extend
  deriving DecidableEq, Repr

def Try.canonical : Try → Bool
  | .put canonical => canonical
  | .extend => true

inductive TryEvent where
  | attempt (how : Try) (answer : Exit Bool)
  | read (r : Read)
  | reopen (config : BlockStoreConfig)
  | reopenReadonly (path : String)

def TryEvent.Fails : TryEvent → Prop
  | .attempt _ answer => ∃ e, answer = .error e
  | _ => True

def TryEvent.Known : TryEvent → Prop
  | .attempt _ answer => answer = .ok false ∨ answer = .error (.error (.serialization errMutationReadOnly))
  | _ => True

namespace Store
variable {crates : Crates} {s t u v : Store} {block : L2Block}

def tryBlock (crates : Crates) (block : L2Block) : Try → StoreM Bool
  | .put canonical => putBlock crates block canonical
  | .extend => extendChain crates block

/- An attempt with its answer, a read however it ends, a handle opened anew on what the database holds. -/
def Tries (crates : Crates) (block : L2Block) (s : Store) (event : TryEvent) (t : Store) : Prop :=
  match event with
  | .attempt how answer => Runs (tryBlock crates block how) s answer t
  | .read r => ∃ answer, Runs (read crates r) s answer t
  | .reopen config => ∃ file disk, Runs (openStore crates config) ⟨s.db,file⟩ (.ok t) disk
  | .reopenReadonly path => ∃ file disk, Runs (openReadonly crates path) ⟨s.db,file⟩ (.ok t) disk

def BothRows (crates : Crates) (block : L2Block) (s : Store) : Prop :=
  (s.db .blocks)[hashKey (block.hash crates)]?.isSome ∧ s.Stored (block.hash crates)

/- The attempt that commits: the rows of the put in one batch, and the tip only with an answer of
`Ok(true)` from an extension. A dictionary row may come with them. -/
structure CommitsOnce (crates : Crates) (block : L2Block) (s : Store) (how : Try) (answer : Exit Bool) (t : Store) : Prop where
  answered : answer = .ok true ∨ ∃ e, answer = .error e
  rows : ∃ compressed headerBytes, Packs crates s block compressed headerBytes ∧
    ∀ cf key, ¬Training cf key → ¬(cf = .metadata ∧ key = metaTip) →
      (t.db cf)[key]? = ((s.commit (putRows crates block how.canonical compressed headerBytes)).db cf)[key]?
  tipRow : (t.db .metadata)[metaTip]? =
    if how = .extend ∧ answer = .ok true then some (ChainTip.toBytes ⟨block.hash crates,block.height⟩)
    else (s.db .metadata)[metaTip]?
  tip : t.tip = if how = .extend ∧ answer = .ok true then some ⟨block.hash crates,block.height⟩ else s.tip

section Tips

def SameTip (s t : Store) : Prop := t.tip = s.tip

instance : IsPreorder Store SameTip where
  refl _ := rfl
  trans _ _ _ first later := later.trans first

theorem putTailTip (block : L2Block) (canonical : Bool) : Within SameTip (putTail crates block canonical) := by
  have index : Within SameTip (indexCanonical canonical block.height (block.hash crates)) := by
    unfold indexCanonical
    split
    · exact withinBind (withinZoom fun _ _ => rfl) fun _ => withinModify fun s => by
        rw [SameTip,insertHeightRest]
    · exact withinPure _
  have training : Within SameTip (maybeTrainDictionary crates) := fun s r t h => by
    rw [SameTip,(maybeTrainRuns h).rest]
  exact withinBind index fun _ => withinBind (withinModify fun _ => rfl) fun _ => withinBind (withinModify fun _ => rfl) fun _ =>
    withinBind (withinModify fun _ => rfl) fun _ => withinBind (withinModify fun _ => rfl) fun _ =>
      withinBind training fun _ => withinPure _

end Tips

section Attempts

theorem putTries {canonical : Bool} {answer : Exit Bool} (unheard : ¬s.Heard (block.hash crates))
    (h : Runs (putBlock crates block canonical) s answer t) :
    (∃ e, answer = .error e) ∧ t = s ∨ (answer = .ok true ∨ ∃ e, answer = .error e) ∧ t.tip = s.tip ∧
      ∃ compressed headerBytes, Packs crates s block compressed headerBytes ∧
        Untouched Training (s.commit (putRows crates block canonical compressed headerBytes)) t := by
  rcases putBlockRuns h with ⟨_,_,present⟩ | failed | ⟨compressed,headerBytes,packs,later⟩
  · exact absurd (.inr (.inr present)) unheard
  · exact .inl failed
  · have tip : SameTip _ t := putTailTip block canonical _ _ _ later
    refine .inr ⟨?_,tip,compressed,headerBytes,packs,tailWithin block canonical _ _ _ later⟩
    cases answer with
    | error e => exact .inr ⟨e,rfl⟩
    | ok added => exact .inl (congrArg _ (putTailOk later).1)

theorem untouchedRows {canonical : Bool} {compressed headerBytes : Bytes}
    (kept : ∀ (cf : Cf) (key : Bytes), cf = .blocks ∨ cf = .headers →
      (t.db cf)[key]? = ((s.commit (putRows crates block canonical compressed headerBytes)).db cf)[key]?) :
    t.BothRows crates block := by
  have row (cf : Cf) (side : cf = .blocks ∨ cf = .headers) : (t.db cf)[hashKey (block.hash crates)]?.isSome := by
    rw [kept cf _ side]
    change (applyAll (putRows crates block canonical compressed headerBytes) s.db cf)[hashKey (block.hash crates)]?.isSome
    rw [putRowsColumn side,bodyRowsRow]
    rcases side with rfl | rfl
    · simp
    · simp
  exact ⟨row .blocks (.inl rfl),row .headers (.inr rfl)⟩

theorem putCommits {canonical : Bool} {answer : Exit Bool} (unheard : ¬s.Heard (block.hash crates))
    (h : Runs (putBlock crates block canonical) s answer t) :
    (∃ e, answer = .error e) ∧ t = s ∨ CommitsOnce crates block s (.put canonical) answer t ∧ t.BothRows crates block := by
  rcases putTries unheard h with failed | ⟨answered,tip,compressed,headerBytes,packs,untouched⟩
  · exact .inl failed
  · refine .inr ⟨⟨answered,⟨compressed,headerBytes,packs,fun cf key out _ => untouched cf key out⟩,?_,?_⟩,
      untouchedRows fun cf key side => untouched cf key ?_⟩
    · rw [if_neg (by simp),untouched .metadata metaTip (by simp [Training])]
      exact metadataPutRows ..
    · rw [if_neg (by simp),tip]
    · rintro ⟨rfl,_⟩
      simp at side

theorem CommitsOnce.failing {answer : Exit Bool} (committed : CommitsOnce crates block s (.put true) answer t)
    (e : Stop BlockStoreError) : CommitsOnce crates block s .extend (.error e) t where
  answered := .inr ⟨e,rfl⟩
  rows := committed.rows
  tipRow := by simpa using committed.tipRow
  tip := by simpa using committed.tip

theorem CommitsOnce.tipped {answer : Exit Bool} (committed : CommitsOnce crates block s (.put true) answer t) :
    CommitsOnce crates block s .extend (.ok true) (t.withTip ⟨block.hash crates,block.height⟩) where
  answered := .inl rfl
  rows := by
    obtain ⟨compressed,headerBytes,packs,same⟩ := committed.rows
    refine ⟨compressed,headerBytes,packs,fun cf key untrained out => ?_⟩
    rw [show ((s.commit (putRows crates block Try.extend.canonical _ _)).db cf)[key]? = _ from (same cf key untrained out).symm]
    refine ColumnStore.frame fun write mem => ?_
    rw [List.mem_singleton.mp mem,effectPut,if_neg]
    exact fun here => out ⟨here.1.symm,here.2.symm⟩
  tipRow := by
    rw [if_pos ⟨rfl,rfl⟩]
    change (applyAll [.put .metadata metaTip (ChainTip.toBytes ⟨block.hash crates,block.height⟩)] t.db .metadata)[metaTip]? = _
    simp [getApplyAll,lastEffectCons,effectPut]
  tip := rfl

theorem extendCommits {answer : Exit Bool} (unheard : ¬s.Heard (block.hash crates))
    (h : Runs (extendChain crates block) s answer t) :
    (∃ e, answer = .error e) ∧ t = s ∨ CommitsOnce crates block s .extend answer t ∧ t.BothRows crates block := by
  have missing : s.hasBlock (block.hash crates) = false := Bool.eq_false_iff.mpr fun has => unheard (by
    rcases hasBlockIff.mp has with (body | row) | header | stored
    · exact .inl (.inr (.inl body))
    · exact .inr (.inr row)
    · exact .inl (.inl header)
    · exact .inr (.inl stored))
  unfold extendChain at h
  rw [runsGetBind,if_neg (by simp [missing])] at h
  rcases runsBind h with ⟨added,u,putting,later⟩ | ⟨e,rfl,putting⟩
  · rcases putCommits unheard putting with ⟨⟨e,bad⟩,_⟩ | ⟨committed,rows⟩
    · cases bad
    · rcases runsBind later with ⟨_,w,setting,last⟩ | ⟨e,rfl,setting⟩
      · obtain ⟨rfl,rfl⟩ := runsPure.mp last
        rcases setTipRuns setting with ⟨⟨e,bad⟩,_⟩ | ⟨_,_,rfl⟩
        · cases bad
        · exact .inr ⟨committed.tipped,rows⟩
      · rcases setTipRuns setting with ⟨_,rfl⟩ | ⟨bad,_⟩
        · exact .inr ⟨committed.failing e,rows⟩
        · cases bad
  · rcases putCommits unheard putting with ⟨_,rfl⟩ | ⟨committed,rows⟩
    · exact .inl ⟨⟨e,rfl⟩,rfl⟩
    · exact .inr ⟨committed.failing e,rows⟩

theorem putKnown {canonical : Bool} {answer : Exit Bool} (rows : s.BothRows crates block)
    (h : Runs (putBlock crates block canonical) s answer t) :
    t = s ∧ (answer = .ok false ∨ answer = .error (.error (.serialization errMutationReadOnly))) := by
  unfold putBlock at h
  rcases runsBind h with ⟨_,u,opening,checked⟩ | ⟨e,rfl,opening⟩
  · obtain ⟨_,rfl⟩ := refuseReadOnlyOk opening
    rw [runsGetBind,if_pos rows.1] at checked
    obtain ⟨rfl,rfl⟩ := runsPure.mp checked
    exact ⟨rfl,.inl rfl⟩
  · unfold refuseReadOnly at opening
    rw [runsGetBind] at opening
    split at opening
    · obtain ⟨same,rfl⟩ := runsError.mp opening
      exact ⟨rfl,.inr (congrArg _ (Except.error.inj same))⟩
    · cases (runsPure.mp opening).1

theorem extendKnown {answer : Exit Bool} (rows : s.BothRows crates block) (h : Runs (extendChain crates block) s answer t) :
    t = s ∧ answer = .ok false := by
  unfold extendChain at h
  rw [runsGetBind,if_pos (hasBlockIff.mpr (.inr (.inr rows.2)))] at h
  obtain ⟨rfl,rfl⟩ := runsPure.mp h
  exact ⟨rfl,rfl⟩

end Attempts

section Events

theorem bootedHeard {config : BlockStoreConfig} {readOnly : Bool} {x : Bytes32} (booted : Booted config readOnly s.db t)
    (heard : t.Heard x) : s.Heard x := by
  obtain ⟨bin,dict,tip,rfl,_⟩ := booted.built
  rcases heard with mentioned | stored | body
  · exact absurd mentioned (bootedMentions booted x)
  · exact .inr (.inl stored)
  · exact .inr (.inr body)

theorem idleTries {event : TryEvent} (idle : ∀ how answer, event ≠ .attempt how answer)
    (h : Tries crates block s event t) : t.db = s.db ∧ ∀ x, t.Heard x → s.Heard x := by
  cases event with
  | attempt how answer => exact absurd rfl (idle how answer)
  | read r =>
    obtain ⟨answer,ran⟩ := h
    have touched := readTouched ran
    exact ⟨touched.db,fun x => touched.echoes.heard⟩
  | reopen config =>
    obtain ⟨file,disk,ran⟩ := h
    obtain ⟨_,u,booted,touched⟩ := openStoreOk ran
    refine ⟨touched.db.trans ?_,fun x heard => bootedHeard booted (touched.echoes.heard heard)⟩
    obtain ⟨bin,dict,tip,rfl,_⟩ := booted.built
    rfl
  | reopenReadonly path =>
    obtain ⟨file,disk,ran⟩ := h
    obtain ⟨_,booted⟩ := openReadonlyOk ran
    refine ⟨?_,fun x => bootedHeard booted⟩
    obtain ⟨bin,dict,tip,rfl,_⟩ := booted.built
    rfl

theorem earlyTries {event : TryEvent} {db : Db} (before : ¬s.Heard (block.hash crates) ∧ s.db = db)
    (h : Tries crates block s event t) :
    (¬t.Heard (block.hash crates) ∧ t.db = db) ∧ event.Fails ∨
      (∃ how answer, event = .attempt how answer ∧ CommitsOnce crates block s how answer t) ∧ t.BothRows crates block := by
  obtain ⟨unheard,same⟩ := before
  have still (idle : ∀ how answer, event ≠ .attempt how answer) : ¬t.Heard (block.hash crates) ∧ t.db = db := by
    obtain ⟨kept,heard⟩ := idleTries idle h
    exact ⟨fun new => unheard (heard _ new),kept.trans same⟩
  cases event with
  | attempt how answer =>
    have outcome : (∃ e, answer = .error e) ∧ t = s ∨ CommitsOnce crates block s how answer t ∧ t.BothRows crates block := by
      cases how with
      | put canonical => exact putCommits unheard h
      | extend => exact extendCommits unheard h
    rcases outcome with ⟨failed,rfl⟩ | ⟨committed,rows⟩
    · exact .inl ⟨⟨unheard,same⟩,failed⟩
    · exact .inr ⟨⟨how,answer,rfl,committed⟩,rows⟩
  | read r => exact .inl ⟨still (fun _ _ bad => by cases bad),trivial⟩
  | reopen config => exact .inl ⟨still (fun _ _ bad => by cases bad),trivial⟩
  | reopenReadonly path => exact .inl ⟨still (fun _ _ bad => by cases bad),trivial⟩

theorem lateTries {event : TryEvent} (rows : s.BothRows crates block) (h : Tries crates block s event t) :
    t.db = s.db ∧ event.Known := by
  cases event with
  | attempt how answer =>
    cases how with
    | put canonical =>
      obtain ⟨rfl,known⟩ := putKnown rows h
      exact ⟨rfl,known⟩
    | extend =>
      obtain ⟨rfl,known⟩ := extendKnown rows h
      exact ⟨rfl,.inl known⟩
  | read r => exact ⟨(idleTries (fun _ _ bad => by cases bad) h).1,trivial⟩
  | reopen config => exact ⟨(idleTries (fun _ _ bad => by cases bad) h).1,trivial⟩
  | reopenReadonly path => exact ⟨(idleTries (fun _ _ bad => by cases bad) h).1,trivial⟩

theorem BothRows.congr (rows : s.BothRows crates block) (same : t.db = s.db) : t.BothRows crates block := by
  rwa [BothRows,Stored,same]

end Events

end Store

/- However often one unknown block is put or extended with, and however each attempt ends, at most one
attempt commits its rows, in full. It answers `Ok(true)` or fails, those before it only failed and those
after it are told the block is there: what the committing attempt left out is never made up for. -/
theorem attemptsCommitOnce {crates : Crates} {s t : Store} {block : L2Block} {events : List TryEvent}
    (unheard : ¬s.Heard (block.hash crates)) (run : Run (Store.Tries crates block) s events t) :
    (t.db = s.db ∧ ∀ event ∈ events, event.Fails) ∨ ∃ before how answer after u v,
      events = before ++ .attempt how answer :: after ∧ (∀ event ∈ before, event.Fails) ∧ u.db = s.db ∧
      Store.CommitsOnce crates block u how answer v ∧ (∀ event ∈ after, event.Known) ∧ t.db = v.db ∧ t.BothRows crates block := by
  have late : ∀ s event t, s.BothRows crates block → Store.Tries crates block s event t →
      t.BothRows crates block ∧ event.Known := fun s event t rows h => by
    obtain ⟨same,known⟩ := Store.lateTries rows h
    exact ⟨rows.congr same,known⟩
  rcases @Run.turns Store TryEvent _ _ _ _ (fun u => ¬u.Heard (block.hash crates) ∧ u.db = s.db) _ TryEvent.Fails _ _
      run ⟨unheard,rfl⟩ (fun s event t before h => Store.earlyTries before h) late with
    ⟨⟨_,same⟩,fails⟩ | ⟨before,_,after,u,v,rfl,fails,⟨_,same⟩,⟨how,answer,rfl,committed⟩,rest,rows,rows',known⟩
  · exact .inl ⟨same,fails⟩
  · have kept := rest.invariant (I := fun w => w.BothRows crates block ∧ w.db = v.db) ⟨rows,rfl⟩
      fun w event w' both h => ⟨(late w event w' both.1 h).1,(Store.lateTries both.1 h).1.trans both.2⟩
    exact .inr ⟨before,how,answer,after,u,v,rfl,fails,same,committed,known,kept.2,rows'⟩

namespace Sample

def grounded : Store := .after crates (Store.links crates) config [.initGenesis (block 0 0 1)]

def failing : List Event := [.ok,.ok,.ok,.fail "io error"]

def untipped : Store := (Store.tryBlock crates (block 1 1 2) .extend ⟨grounded,failing⟩).2.state

def untippedRead : Store := (Store.read crates (.getBlock (hash 2)) ⟨untipped,[]⟩).2.state

def untippedAgain : Store := (Store.tryBlock crates (block 1 1 2) .extend ⟨untippedRead,[]⟩).2.state

theorem groundedUnheard : ¬grounded.Heard ((block 1 1 2).hash crates) := by
  unfold Store.Heard Store.Mentions Store.Stored
  decide +kernel

theorem untippedTries : Run (Store.Tries crates (block 1 1 2)) grounded
    [.attempt .extend (.error (.error (.rocksDb "io error"))),.read (.getBlock (hash 2)),.attempt .extend (.ok false)]
    untippedAgain :=
  .cons (Store.ranUnder failing (by decide +kernel)) (.cons ⟨.ok (),Store.ranHere (by decide +kernel)⟩
    (.cons (Store.ranHere (by decide +kernel)) (.nil _)))

end Sample

/- The extension that failed on its tip has committed: the retry answers the block is there. -/
theorem attemptsCommitOnceSample : ∃ before how answer after u v,
    [.attempt .extend (.error (.error (.rocksDb "io error"))),.read (.getBlock (Sample.hash 2)),.attempt .extend (.ok false)] =
      before ++ TryEvent.attempt how answer :: after ∧ (∀ event ∈ before, event.Fails) ∧ u.db = Sample.grounded.db ∧
      Store.CommitsOnce Sample.crates (Sample.block 1 1 2) u how answer v ∧ (∀ event ∈ after, event.Known) ∧
      Sample.untippedAgain.db = v.db := by
  rcases attemptsCommitOnce Sample.groundedUnheard Sample.untippedTries with
    ⟨same,_⟩ | ⟨before,how,answer,after,u,v,split,fails,same,committed,known,kept,_⟩
  · have row : Sample.untippedAgain.Stored ((Sample.block 1 1 2).hash Sample.crates) := by
      unfold Store.Stored
      decide +kernel
    rw [Store.Stored,same] at row
    exact absurd (.inr (.inl row)) Sample.groundedUnheard
  · exact ⟨before,how,answer,after,u,v,split,fails,same,committed,known,kept⟩

end DigBlockstore
