import DigBlockstore.Switches
import DigBlockstore.WellFormed

/-! One rollback or reorg among lookups by height, in any order of their steps. -/
namespace DigBlockstore
open ByteCodec Faulty ColumnStore PartialMap
namespace Store
variable {crates : Crates} {s t : Store}

section Blind
variable {α β : Type} {access : Store → Access}

def Steady (m : StoreM α) : Prop := ∀ s cache, m ⟨{s with canonicalHeightCache := cache},[]⟩ =
  ((m ⟨s,[]⟩).1,⟨{(m ⟨s,[]⟩).2.state with canonicalHeightCache := cache},(m ⟨s,[]⟩).2.script⟩)

theorem blindDoes {m : StoreM α} (steady : Steady m) : (does access m).Blind Warmed :=
  blindAtom fun s t r t' warm ran => by
    rw [show t = _ from warm,Clean,steady] at ran
    obtain ⟨r',⟨u,script⟩,alone⟩ : ∃ r' v, m ⟨s,[]⟩ = (r',v) := ⟨_,_,rfl⟩
    rw [alone] at ran
    cases ran
    exact ⟨u,alone,rfl⟩

theorem steadyAsk {f : Store → α} (same : ∀ s cache, f {s with canonicalHeightCache := cache} = f s) : Steady (ask f) :=
  fun s cache => by
    change (Except.ok (f _),_) = _
    rw [same]
    rfl

theorem steadyRefuse (message : String) : Steady (refuseReadOnly message) := fun s cache => by
  have alone : ∀ t : Store, refuseReadOnly message ⟨t,[]⟩ =
      (if t.readOnly = true then Op.error (.serialization message) else pure () : StoreM Unit) ⟨t,[]⟩ := fun _ => rfl
  rw [alone,alone]
  by_cases closed : s.readOnly = true
  · rw [if_pos closed]
    rfl
  · rw [if_neg closed]
    rfl

theorem blindOfExcept (x : Except BlockStoreError α) : (Proc.ofExcept x : Steps α).Blind Warmed := by
  cases x <;> trivial

theorem getRecordBlind (hash : Bytes32) : (getRecordSteps crates hash).Blind Warmed := by
  refine (blindDoes (steadyAsk fun _ _ => rfl)).bind fun held => ?_
  cases held with
  | some record => trivial
  | none =>
    have probe : Steady (do
        let s ← Op.get
        Op.modify (promoteHeader hash)
        pure (s.headerCache.getClone hash).1 : StoreM (Option L2BlockHeader)) := fun _ _ => rfl
    refine (blindDoes probe).bind fun cached => ?_
    cases cached with
    | some header => exact .bind (blindDoes fun _ _ => rfl) fun _ => trivial
    | none =>
      refine (blindDoes (steadyAsk fun _ _ => rfl)).bind fun row => ?_
      cases row with
      | none => trivial
      | some bytes =>
        exact .bind (blindOfExcept _) fun header => .bind (blindDoes fun _ _ => rfl) fun _ =>
          .bind (blindDoes fun _ _ => rfl) fun _ => trivial

theorem getRecordOrMissingBlind (hash : Bytes32) : (getRecordOrMissingSteps crates hash).Blind Warmed := by
  refine (getRecordBlind hash).bind fun found => ?_
  cases found <;> trivial

end Blind

end Store

namespace Switch
variable {ι : Type} [DecidableEq ι] {crates : Crates} {sw : Switch} {w : ι} {s t : Store} {tips : Option ChainTip → Prop}
  {allow : List (ι × Access) → Prop} {x y : Scene ι Access Store} {α β : Type}

section Writer

theorem silentUnmarked (sw : Switch) {access : Access} (silent : access.silent = true) : sw.mark access = false := by
  cases access <;> first | rfl | cases silent

/- Where the switching procedure is, and all it can have seen change. -/
structure Poised (sw : Switch) (w : ι) (s : Store) (stage : List Access) (x : Scene ι Access Store) : Prop where
  at' : sw.stage w x.past = stage
  warmed : Store.Warmed s x.now

theorem Poised.along {stage : List Access} (poised : sw.Poised w s stage x) (later : Rely w w x y) :
    sw.Poised w s stage y :=
  ⟨(relyStage later rfl).trans poised.at',trans_of Store.Warmed poised.warmed (later.2 rfl)⟩

theorem idlesSafe {p : Steps α} {stage : List Access} {r : Exit α} (moves : p.Moves Store.Idles) (blind : p.Blind Store.Warmed)
    (poised : sw.Poised w t stage x) {t' : Store} (ran : Clean p.alone t r t') :
    p.Safe allow (sw.Racing w s tips) (Rely w) w (fun r' z => r' = r ∧ sw.Poised w t' stage z) x := by
  have safe : p.Safe allow (sw.Racing w s tips) (Rely w) w (fun _ z => sw.stage w z.past = stage) x :=
    moves.safe poised.at' (fun y z at' later => (relyStage later rfl).trans at') fun y label t here at' moved _ => by
      have silent := sw.silentUnmarked moved.1
      exact ⟨Switch.carries (here.shelved (.inr silent) moved.2) (.inl rfl),(stageNext sw y t (.inr silent)).trans at'⟩
  have both := safe.blind blind (fun a y z warm later => trans_of Store.Warmed warm (later.2 rfl)) poised.warmed ran
  exact both.mono fun r' z _ ended => ⟨ended.1.1,ended.2,ended.1.2⟩

def Looks (sw : Switch) (stage : List Access) : Prop := stage = [] ∨ stage = [.batch sw.batch,.cut sw.cut] ∧ sw.rows = []

theorem Says.row {stage : List Access} {h : UInt64} {hash : Bytes32} (looks : sw.Looks stage) (told : sw.Says s stage h hash) :
    sw.RowAt s stage h hash := by
  rcases looks with rfl | ⟨rfl,none'⟩
  · exact told.first rfl
  · rcases told.settled with row | pending
    · exact row
    · generalize same : ([.batch sw.batch,.cut sw.cut] : List Access) = stage at pending
      cases pending with
      | cut early => rcases early with rfl | rfl <;> cases same
      | row early => rcases early with rfl | rfl <;> cases same
      | slot rows mem =>
        rw [none'] at rows
        rw [(List.append_eq_nil_iff.mp rows.symm).2] at mem
        cases mem

theorem writerRules {stage : List Access} (fits : sw.Fits s) (indexed : s.Indexed) (looks : sw.Looks stage) (h : UInt64) :
    Store.LookupRules allow (sw.Racing w s tips) (Rely w) w h (sw.Poised w t stage)
      (fun hash _ => s.minRetainedHeightCached ≤ h → sw.RowAt s stage h hash) where
  stays _ _ poised later := poised.along later
  silent y label silent racing poised := by
    have unmarked := sw.silentUnmarked silent
    exact ⟨carries (racing.shelved (.inr unmarked) rfl) (.inl rfl),(stageNext sw y y.now (.inr unmarked)).trans poised.at',
      poised.warmed⟩
  slot y hash racing poised read above := by
    refine Says.row looks ?_
    rw [← poised.at']
    refine Switch.fileSays fits indexed racing.writes racing.order above ?_
    rw [← racing.bin,CanonicalBin.answer,read]
  row y hash racing poised found _ := by
    have rows := racing.rows
    rw [poised.at'] at rows
    unfold RowAt
    split
    · rename_i early
      rw [if_pos early] at rows
      rw [← rows]
      exact found
    · rename_i later
      rw [if_neg later] at rows
      rw [← rows]
      exact found
  keeps _ _ _ fresh _ := fresh
  put y hash racing poised fresh _ := by
    have may : s.minRetainedHeightCached ≤ h → sw.MayCache s (sw.stage w y.past) h hash := fun above => by
      have row := fresh above
      rw [poised.at']
      unfold RowAt at row
      split at row
      · rename_i early
        exact ⟨fun _ => row,fun late => absurd early late⟩
      · rename_i later
        exact ⟨fun early => absurd early later,fun _ => .inl row⟩
    exact ⟨carries (racing.put (.inr rfl) may) (.inl rfl),(stageNext sw y _ (.inr rfl)).trans poised.at',
      trans_of Store.Warmed poised.warmed (Store.insertHeightRest y.now h hash)⟩

theorem Racing.askable {h : UInt64} (indexed : s.Indexed) (racing : sw.Racing w s tips y)
    (inside : s.canonicalBin.mapping = true → h ≠ lastSlot) : Store.Askable y.now h := by
  constructor
  · rw [racing.bin]
    exact ⟨_,CanonicalBin.readsAnswer (fileReady _ indexed.bin.ready) (by rwa [fileMapping])⟩
  · intro value row
    obtain ⟨_,hash,_,rfl⟩ := racing.typed _ _ row
    simp [hashKey,Bytes32.ofBytesBytes]

theorem collectSafe {heights : List UInt64} {stage : List Access} (fits : sw.Fits s) (indexed : s.Indexed) (looks : sw.Looks stage)
    (here : sw.Racing w s tips x) (poised : sw.Poised w t stage x) :
    (Store.collectCanonicalSteps heights).Safe allow (sw.Racing w s tips) (Rely w) w (fun _ z => sw.Poised w t stage z) x := by
  refine Proc.Safe.bind here ((safeGather heights here poised (fun _ _ on later => on.along later) fun h _ y there on =>
    (Store.lookupSafe (writerRules fits indexed looks h) on (.inl (trivial : True))).mono fun _ _ _ ended => ended.1).mono
      fun r z there on => ⟨fun found _ => fun z' later _ => on.along later,fun _ _ => on⟩)

def Settles (sw : Switch) (w : ι) (r : Exit α) (x : Scene ι Access Store) : Prop :=
  (∃ e, r = .error e) ∧ sw.stage w x.past = [] ∨ (∃ v, r = .ok v) ∧ sw.stage w x.past = sw.marks

theorem Settles.along {r : Exit α} (settles : sw.Settles w r x) (later : Rely w w x y) : sw.Settles w r y := by
  unfold Settles at settles ⊢
  rwa [relyStage later rfl]

theorem asideCarries {label : Access} {stage : List Access} {t : Store} (racing : sw.Racing w s tips y)
    (poised : sw.stage w y.past = stage) (skips : sw.mark label = false)
    (db : TypedRows t.db ∧ canonicalAt t.db = canonicalAt y.now.db) (tip : tips t.tip)
    (rest : t = {y.now with db := t.db,tip := t.tip}) :
    Store.Carries (sw.Racing w s tips) (Rely w) w y (y.next w label t) ∧ sw.Poised w t stage (y.next w label t) :=
  ⟨carries (racing.aside (.inr skips) db (by rw [rest]) (by rw [rest]) (by rw [rest]) tip (by rw [rest])) (.inl rfl),
    (stageNext sw y t (.inr skips)).trans poised,refl_of Store.Warmed t⟩

theorem setTipSafe {tip : ChainTip} {stage : List Access} (free : ∀ tip, tips tip) (writes : s.readOnly = false)
    (tipRow : sw.mark (.batch [.put .metadata metaTip tip.toBytes]) = false)
    (poised : sw.stage w x.past = stage) :
    (Store.setTipSteps tip).Safe allow (sw.Racing w s tips) (Rely w) w (fun r z => r = .ok () ∧ sw.stage w z.past = stage) x := by
  have along : ∀ {y z : Scene ι Access Store}, sw.stage w y.past = stage → Rely w w y z → sw.stage w z.past = stage :=
    fun at' later => (relyStage later rfl).trans at'
  refine Store.safeReturns fun y later racing => ⟨(),y.now,Store.refuseReadOnlyClean _ (racing.readOnly.trans writes),fun _ => ?_⟩
  obtain ⟨carries,on⟩ := asideCarries racing (along poised later) (show sw.mark .other = false from rfl)
    ⟨racing.typed,rfl⟩ racing.tip rfl
  refine ⟨carries,Store.safeReturns fun y later racing => ⟨(),_,Store.writeClean _ y.now,fun _ => ?_⟩⟩
  have typed : ∀ write ∈ [(.put .metadata metaTip tip.toBytes : Write)], TypedWrite write := fun write mem => by
    rw [List.mem_singleton.mp mem]
    trivial
  have same : canonicalAt (y.now.commit [.put .metadata metaTip tip.toBytes]).db = canonicalAt y.now.db :=
    funext (Store.canonicalAtCongr (frameColumn fun write mem => by rw [List.mem_singleton.mp mem]; simp [ColumnStore.Write.column]))
  obtain ⟨carries,on⟩ := asideCarries (t := y.now.commit [.put .metadata metaTip tip.toBytes]) racing (along on.at' later) tipRow
    ⟨typedCommit racing.typed typed,same⟩ racing.tip rfl
  refine ⟨carries,Store.safeModify fun y later racing _ => ?_⟩
  obtain ⟨carries,on⟩ := asideCarries racing (along on.at' later) (show sw.mark (.tipSet tip) = false from rfl)
    (t := {y.now with tip := some tip}) ⟨racing.typed,rfl⟩ (free _) rfl
  exact ⟨carries,fun z later _ => ⟨rfl,along on.at' later⟩⟩

theorem cutSafe {f : Unit → Steps α} {post : Exit α → Scene ι Access Store → Prop} (fits : sw.Fits s)
    (batched : sw.stage w x.past = [.batch sw.batch])
    (next : ∀ y, sw.Racing w s tips y → sw.stage w y.past = [.batch sw.batch,.cut sw.cut] →
      (f ()).Safe allow (sw.Racing w s tips) (Rely w) w post y) :
    (Store.cutStep sw.cut >>= f).Safe allow (sw.Racing w s tips) (Rely w) w post x := by
  refine Store.safeReturns fun y later racing => ⟨(),_,Store.truncateClean ?_,fun _ => ?_⟩
  · rw [racing.bin,fileAccepts]
    exact fits.cut
  · have here := (relyStage later rfl).trans batched
    have after := racing.cuts here
    refine ⟨carries after (.inl rfl),next _ after ?_⟩
    rw [stageMark rfl,here]
    rfl

theorem swapSafe (sw : Switch) {f : Unit → Steps α} {post : Exit α → Scene ι Access Store → Prop} {m : StoreM Unit}
    (swaps : ∀ s, Clean m s (.ok ()) ((s.dropCachedHeights sw.heights).cacheReorgHeights sw.records))
    (whole : sw.stage w x.past = .batch sw.batch :: .cut sw.cut :: sw.rows.map slot)
    (next : ∀ y, sw.Racing w s tips y → sw.stage w y.past = sw.marks →
      (f ()).Safe allow (sw.Racing w s tips) (Rely w) w post y) :
    (Store.does (fun _ => .heightsSwap sw.heights sw.records) m >>= f).Safe allow (sw.Racing w s tips) (Rely w) w post x := by
  refine Store.safeReturns fun y later racing => ⟨(),_,swaps y.now,fun _ => ?_⟩
  have here := (relyStage later rfl).trans whole
  have after := racing.swaps here
  refine ⟨carries after (.inl rfl),next _ after ?_⟩
  rw [stageMark rfl,here]
  rfl

theorem shelvedSafe {f : Unit → Steps α} {post : Exit α → Scene ι Access Store → Prop} {m : StoreM Unit} {stage : List Access}
    (shelves : ∀ s, ∃ t, Clean m s (.ok ()) t ∧ Store.Shelved s t) (at' : sw.stage w x.past = stage)
    (next : ∀ y, sw.Racing w s tips y → sw.stage w y.past = stage →
      (f ()).Safe allow (sw.Racing w s tips) (Rely w) w post y) :
    (Store.other m >>= f).Safe allow (sw.Racing w s tips) (Rely w) w post x := by
  refine Store.safeReturns fun y later racing => ?_
  obtain ⟨t,ran,shelved⟩ := shelves y.now
  have here := (relyStage later rfl).trans at'
  have after := racing.shelved (w := w) (i := w) (.inr (show sw.mark .other = false from rfl)) shelved
  exact ⟨(),t,ran,fun _ => ⟨carries after (.inl rfl),next _ after ((stageNext sw y t (.inr rfl)).trans here)⟩⟩

end Writer

section Rollback
variable {target : UInt64} {heights : List UInt64}

def ofRollback (target : UInt64) (heights : List UInt64) : Switch :=
  ⟨heights.map fun h => .delete .canonical (heightKey h),target,heights,[]⟩

theorem rollbackFits (accepts : s.canonicalBin.Accepts target) (above : ∀ h ∈ heights, target < h) :
    (ofRollback target heights).Fits s where
  above _ := above
  cut := accepts
  slots _ bad := by cases bad
  typed := Store.typedDeletes heights
  indexed db := canonicalAtDeletes heights db

theorem revertSafe (fits : (ofRollback target heights).Fits s) (indexed : s.Indexed) (writes : s.readOnly = false)
    (some' : heights ≠ []) (free : ∀ tip, tips tip)
    (here : (ofRollback target heights).Racing w s tips x) (poised : (ofRollback target heights).Poised w t [] x) :
    (Store.revertSteps target heights).Safe allow ((ofRollback target heights).Racing w s tips) (Rely w) w
      ((ofRollback target heights).Settles w) x := by
  have unmarked : ∀ tip : ChainTip, (ofRollback target heights).mark (.batch [.put .metadata metaTip tip.toBytes]) = false := by
    intro tip
    cases heights with
    | nil => exact absurd rfl some'
    | cons h rest => simp [mark,ofRollback]
  refine Proc.Safe.bind here ((collectSafe fits indexed (.inl rfl) here poised).mono fun r y racing on =>
    ⟨fun reverted _ => ?_,fun e same => .inl ⟨⟨e,rfl⟩,on.at'⟩⟩)
  refine Store.safeReturns fun y later racing => ⟨(),_,Store.writeClean _ y.now,fun _ => ?_⟩
  have on := on.along later
  have after := racing.batch fits writes on.at'
  refine ⟨carries after (.inl rfl),cutSafe fits ?_ fun y racing cut => ?_⟩
  · rw [stageMark (by simp [mark,ofRollback]),on.at']
    rfl
  have asked : False ∨ ∀ z, (ofRollback target heights).Racing w s tips z →
      (ofRollback target heights).Poised w y.now [.batch (ofRollback target heights).batch,.cut (ofRollback target heights).cut] z →
        Store.Askable z.now target := .inr fun z racing _ => racing.askable indexed fun mapped =>
          CanonicalBin.acceptsApart (indexed.writable writes) mapped fits.cut
  refine Proc.Safe.bind racing ((Store.lookupSafe (writerRules fits indexed (.inr ⟨rfl,rfl⟩) target)
    ⟨cut,refl_of Store.Warmed y.now⟩ asked).mono fun r z racing ended => ?_)
  obtain ⟨on,bad | ⟨found,rfl⟩⟩ := ended
  · cases bad
  · refine ⟨fun found' same => ?_,fun e bad => by cases bad⟩
    cases same
    have rest : ∀ z, (ofRollback target heights).Racing w s tips z → (ofRollback target heights).stage w z.past =
        [.batch (ofRollback target heights).batch,.cut (ofRollback target heights).cut] →
        (do
          Store.other (Op.modify (Store.flagRecords false reverted))
          Store.does (fun _ => .heightsSwap heights []) (Op.modify (Store.dropCachedHeights heights))
          pure reverted : Steps (List Bytes32)).Safe allow ((ofRollback target heights).Racing w s tips) (Rely w) w
            ((ofRollback target heights).Settles w) z := by
      intro z racing on
      refine shelvedSafe (fun s => ⟨_,cleanModify _ s,?_⟩) on fun z racing on => ?_
      · rw [Store.flagRecordsRest]
        rfl
      · refine swapSafe (ofRollback target heights) (fun s => ?_) on fun z racing on => ?_
        · exact cleanModify _ s
        · exact fun z' later _ => Settles.along (.inr ⟨⟨_,rfl⟩,on⟩) later
    cases found with
    | none => exact rest z racing on.at'
    | some hash =>
      refine Proc.Safe.bind racing ((setTipSafe free writes (unmarked _) on.at').mono fun r z racing ended =>
        ⟨fun _ _ => rest z racing ended.2,fun e bad => ?_⟩)
      rw [ended.1] at bad
      cases bad

theorem readSafe {f : β → Steps α} {post : Exit α → Scene ι Access Store → Prop} {access : Store → Access} {g : Store → β}
    {stage : List Access} (silent : ∀ s, (access s).silent = true)
    (steady : ∀ s cache, g {s with canonicalHeightCache := cache} = g s)
    (poised : sw.Poised w t stage x)
    (next : ∀ y, sw.Racing w s tips y → sw.Poised w t stage y → (f (g t)).Safe allow (sw.Racing w s tips) (Rely w) w post y) :
    (Store.does access (Store.ask g) >>= f).Safe allow (sw.Racing w s tips) (Rely w) w post x := by
  refine Store.safeAsk fun y later racing _ => ?_
  have on := poised.along later
  have unmarked := sw.silentUnmarked (silent y.now)
  have after := racing.shelved (w := w) (i := w) (t := y.now) (.inr unmarked) rfl
  rw [show g y.now = g t by rw [on.warmed]; exact steady ..]
  exact ⟨carries after (.inl rfl),next _ after ⟨(stageNext sw y y.now (.inr unmarked)).trans on.at',on.warmed⟩⟩

theorem refuseSafe {f : Unit → Steps α} {post : Exit α → Scene ι Access Store → Prop} {message : String} {stage : List Access}
    (here : sw.Racing w s tips x) (poised : sw.Poised w t stage x)
    (refused : t.readOnly = true → ∀ e y, sw.Poised w t stage y → post (.error e) y)
    (next : t.readOnly = false → ∀ y, sw.Racing w s tips y → sw.Poised w t stage y →
      (f ()).Safe allow (sw.Racing w s tips) (Rely w) w post y) :
    (Store.other (Store.refuseReadOnly message) >>= f).Safe allow (sw.Racing w s tips) (Rely w) w post x := by
  cases writes : t.readOnly with
  | false =>
    have ran : Clean (Store.other (Store.refuseReadOnly message)).alone t (.ok ()) t := by
      rw [Store.aloneOther]
      exact Store.refuseReadOnlyClean message writes
    refine Proc.Safe.bind here ((idlesSafe (Store.refuseMoves message) (Store.blindDoes (Store.steadyRefuse message)) poised
      ran).mono fun r y racing ended => ⟨fun _ _ => next writes y racing ended.2,fun e bad => ?_⟩)
    rw [ended.1] at bad
    cases bad
  | true =>
    have ran : Clean (Store.other (Store.refuseReadOnly message)).alone t (.error (.error (.serialization message))) t := by
      rw [Store.aloneOther]
      change (if t.readOnly then _ else _ : StoreM Unit) ⟨t,[]⟩ = _
      rw [if_pos writes]
      rfl
    refine Proc.Safe.bind here ((idlesSafe (Store.refuseMoves message) (Store.blindDoes (Store.steadyRefuse message)) poised
      ran).mono fun r y racing ended => ⟨fun _ bad => ?_,fun e _ => refused writes e y ended.2⟩)
    rw [ended.1] at bad
    cases bad

def Rolled (sw : Switch) (w : ι) (s : Store) (target : UInt64) (r : Exit α) (x : Scene ι Access Store) : Prop :=
  (∃ e, r = .error e) ∧ sw.stage w x.past = [] ∨ ∃ tip, s.tip = some tip ∧
    (target = tip.height ∧ sw.stage w x.past = [] ∨ target < tip.height ∧ sw.stage w x.past = sw.marks)

theorem rollbackSafe (fits : sw.Fits s) (indexed : s.Indexed) (free : ∀ tip, tips tip)
    (plan : ∀ tip, s.tip = some tip → target < tip.height → sw = ofRollback target (heightsThrough (target + 1) tip.height))
    (here : sw.Racing w s tips x) (poised : sw.Poised w s [] x) :
    (Store.rollbackToHeightSteps target).Safe allow (sw.Racing w s tips) (Rely w) w (sw.Rolled w s target) x := by
  have fails : ∀ {e : Stop BlockStoreError} {y}, sw.Poised w s [] y →
      (Proc.ret (.error e) : Steps (List Bytes32)).Safe allow (sw.Racing w s tips) (Rely w) w (sw.Rolled w s target) y :=
    fun on z later _ => .inl ⟨⟨_,rfl⟩,(on.along later).at'⟩
  refine refuseSafe here poised (fun _ e y on => .inl ⟨⟨e,rfl⟩,on.at'⟩) fun writes y racing on => ?_
  refine readSafe (fun _ => rfl) (fun _ _ => rfl) on fun y racing on => ?_
  cases head : s.tip with
  | none =>
    exact fails on
  | some top =>
    dsimp only
    split
    · exact fails on
    · rename_i under
      refine readSafe (fun _ => rfl) (fun _ _ => rfl) on fun y racing on => ?_
      split
      · exact fails on
      · split
        · rename_i same
          exact fun z later _ => .inr ⟨top,head,.inl ⟨same,(on.along later).at'⟩⟩
        · rename_i apart
          have lower : target < top.height := UInt64.lt_of_le_of_ne (UInt64.not_lt.mp under) apart
          obtain rfl := plan top head lower
          refine (revertSafe fits indexed writes ?_ free racing on).mono fun r z _ settles =>
            settles.imp_right fun done => ⟨top,head,.inr ⟨lower,done.2⟩⟩
          intro none'
          have bound := top.height.toNat_lt
          have strict := UInt64.lt_iff_toNat_lt.mp lower
          have mem := (Store.memAboveTip (h := top.height) (by omega)).mpr
            ⟨lower,UInt64.le_refl _⟩
          rw [none'] at mem
          cases mem

end Rollback

section Reorg
variable {ancestor : UInt64} {hashes reverted : List Bytes32} {heights : List UInt64} {records : List (Bytes32 × BlockRecord)}
  {newTip tip : ChainTip}

def ofReorg (ancestor : UInt64) (heights : List UInt64) (records : List (Bytes32 × BlockRecord)) (newTip : ChainTip) : Switch :=
  ⟨Store.reorgRows heights records newTip,ancestor,heights,records⟩

theorem reorgFits (indexed : s.Indexed) (writes : s.readOnly = false) (accepts : s.canonicalBin.Accepts ancestor)
    (slots : ∀ row ∈ records, s.canonicalBin.Accepts row.2.height) (newTip : ChainTip) :
    (ofReorg ancestor (heightsThrough (ancestor + 1) tip.height) records newTip).Fits s where
  above mapped h mem := by
    have open' := indexed.writable writes
    cases bin : s.canonicalBin with
    | rw d =>
      rw [bin] at accepts
      obtain ⟨n,found⟩ := Option.isSome_iff_exists.mp (show (slotEnd ancestor).isSome from accepts)
      have small := (CanonicalDenseFile.slotEndSome found).2
      exact ((Store.memAboveTip (by omega)).mp mem).1
    | ro mmap =>
      rw [bin] at open'
      cases open'
    | disabled left =>
      rw [bin] at mapped
      cases mapped
  cut := accepts
  slots row mem := by
    obtain ⟨pair,inside,rfl⟩ := List.mem_map.mp mem
    exact slots pair inside
  typed := Store.typedReorg ⟨tip,newTip,records,heightsThrough (ancestor + 1) tip.height,[]⟩
  indexed db := Store.canonicalAtReorg ⟨tip,newTip,records,heightsThrough (ancestor + 1) tip.height,[]⟩ db

def Slotting (sw : Switch) (w : ι) (rest : List (Bytes32 × BlockRecord)) (x : Scene ι Access Store) : Prop :=
  ∃ done, sw.rows = done ++ Store.rowsOf rest ∧ sw.stage w x.past = .batch sw.batch :: .cut sw.cut :: done.map slot

theorem slotsSafe (fits : sw.Fits s) (indexed : s.Indexed) (here : sw.Racing w s tips x) (slotting : sw.Slotting w records x) :
    (Proc.each (fun row => Store.slotStep row.2.height row.1) records).Safe allow (sw.Racing w s tips) (Rely w) w
      (fun r z => r = .ok () ∧ sw.Slotting w [] z) x := by
  have along : ∀ rest y z, sw.Slotting w rest y → Rely w w y z → sw.Slotting w rest z := by
    rintro rest y z ⟨done,rows,at'⟩ later
    exact ⟨done,rows,(relyStage later rfl).trans at'⟩
  refine safeEach records here slotting along fun row rest y racing on => ?_
  change (Store.does (fun _ => .slotWrite row.2.height row.1) (Store.onBin (CanonicalBin.extendWrite row.2.height row.1)) >>=
    fun _ => pure () : Steps Unit).Safe _ _ _ _ _ _
  refine Store.safeReturns fun y later racing => ?_
  obtain ⟨done,rows,at'⟩ := along _ _ _ on later
  have mem : (row.2.height,row.1) ∈ sw.rows := by
    rw [rows]
    exact List.mem_append_right _ (by simp [Store.rowsOf])
  have ready : y.now.canonicalBin.Ready := by
    rw [racing.bin]
    exact fileReady _ indexed.bin.ready
  have accepts : y.now.canonicalBin.Accepts row.2.height := by
    rw [racing.bin,fileAccepts]
    exact fits.slots (row.2.height,row.1) mem
  refine ⟨(),_,Store.extendWriteClean row.1 ready accepts,fun _ => ?_⟩
  have after := racing.slotted (show sw.rows = done ++ (row.2.height,row.1) :: Store.rowsOf rest from rows) at'
  refine ⟨carries after (.inl rfl),fun z later _ => ⟨rfl,along _ _ z ⟨done ++ [(row.2.height,row.1)],?_,?_⟩ later⟩⟩
  · rw [rows,List.append_assoc]
    rfl
  · rw [stageMark rfl,at']
    simp [slot]

theorem switchSafe (fits : (ofReorg ancestor heights records newTip).Fits s) (indexed : s.Indexed) (writes : s.readOnly = false)
    (free : tips (some newTip)) (poised : (ofReorg ancestor heights records newTip).stage w x.past = []) :
    (Store.switchSteps ancestor heights reverted hashes records newTip).Safe allow
      ((ofReorg ancestor heights records newTip).Racing w s tips) (Rely w) w
      ((ofReorg ancestor heights records newTip).Settles w) x := by
  refine Store.safeReturns fun y later racing => ⟨(),_,Store.writeClean _ y.now,fun _ => ?_⟩
  have on := (relyStage later rfl).trans poised
  have after := racing.batch fits writes on
  refine ⟨carries after (.inl rfl),cutSafe fits ?_ fun y racing cut => ?_⟩
  · rw [stageMark (by simp [mark,ofReorg]),on]
    rfl
  refine Proc.Safe.bind racing ((slotsSafe fits indexed racing ⟨[],rfl,cut⟩).mono fun r z racing ended => ⟨fun _ _ => ?_,fun e bad => ?_⟩)
  · obtain ⟨_,done,rows,at'⟩ := ended
    obtain rfl : (ofReorg ancestor heights records newTip).rows = done := rows.trans (List.append_nil done)
    refine shelvedSafe (fun s => ⟨Store.flagRecords true hashes (Store.flagRecords false reverted s),rfl,?_⟩) at' fun z racing on => ?_
    · rw [Store.flagRecordsRest,Store.flagRecordsRest]
      rfl
    · refine swapSafe (ofReorg ancestor heights records newTip) (fun s => rfl) on fun z racing on => ?_
      · refine Store.safeModify fun y later racing _ => ?_
        obtain ⟨carries,on⟩ := asideCarries (t := {y.now with tip := some newTip}) racing ((relyStage later rfl).trans on)
          (show mark _ (.tipSet newTip) = false from rfl) ⟨racing.typed,rfl⟩ free rfl
        exact ⟨carries,fun z' later _ => Settles.along (.inr ⟨⟨_,rfl⟩,on.at'⟩) later⟩
  · rw [ended.1] at bad
    cases bad

theorem reorgSafe (fits : sw.Fits s) (indexed : s.Indexed)
    (plan : ∀ tip last records u, s.readOnly = false → s.tip = some tip → hashes.getLast? = some last →
      Clean (Op.collect (Store.getRecordOrMissing crates) hashes) s (.ok records) u →
      sw = ofReorg ancestor (heightsThrough (ancestor + 1) tip.height) records
        ⟨last,(records.getLast?.map fun row => row.2.height).getD 0⟩ ∧
        tips (some ⟨last,(records.getLast?.map fun row => row.2.height).getD 0⟩))
    (here : sw.Racing w s tips x) (poised : sw.Poised w s [] x) :
    (Store.applyReorgSteps crates ancestor hashes).Safe allow (sw.Racing w s tips) (Rely w) w (sw.Settles w) x := by
  have fails : ∀ {e : Stop BlockStoreError} {t y}, sw.Poised w t [] y →
      (Proc.ret (.error e) : Steps ReorgResult).Safe allow (sw.Racing w s tips) (Rely w) w (sw.Settles w) y :=
    fun on z later _ => .inl ⟨⟨_,rfl⟩,(on.along later).at'⟩
  refine refuseSafe here poised (fun _ e y on => .inl ⟨⟨e,rfl⟩,on.at'⟩) fun writes y racing on => ?_
  refine readSafe (fun _ => rfl) (fun _ _ => rfl) on fun y racing on => ?_
  cases head : s.tip with
  | none => exact fails on
  | some top =>
    cases last : hashes.getLast? with
    | none => exact fails on
    | some newest =>
      have moves : (Proc.gather (Store.getRecordOrMissingSteps crates) hashes).Moves Store.Idles :=
        movesGather hashes fun hash _ => Store.getRecordOrMissingMoves hash
      have blind : (Proc.gather (Store.getRecordOrMissingSteps crates) hashes).Blind Store.Warmed :=
        blindGather hashes Store.getRecordOrMissingBlind
      obtain ⟨r,u,ran⟩ := moves.clean s
      refine Proc.Safe.bind racing ((idlesSafe moves blind on ran).mono fun r' y racing ended => ?_)
      obtain ⟨rfl,on⟩ := ended
      refine ⟨fun records same => ?_,fun e _ => .inl ⟨⟨e,rfl⟩,on.at'⟩⟩
      subst same
      rw [aloneGather,funext (Store.getRecordOrMissingAlone crates)] at ran
      obtain ⟨rfl,free⟩ := plan top newest records u writes head last ran
      unfold Store.heightAboveSteps
      split
      · exact fails on
      · change (Store.collectCanonicalSteps (heightsThrough (ancestor + 1) top.height).reverse >>= fun reverted =>
          Store.switchSteps ancestor (heightsThrough (ancestor + 1) top.height) reverted hashes records ⟨newest,_⟩ :
            Steps ReorgResult).Safe _ _ _ _ _ _
        refine Proc.Safe.bind racing ((collectSafe fits indexed (.inl rfl) racing on).mono fun r z racing on =>
          ⟨fun reverted _ => ?_,fun e _ => .inl ⟨⟨e,rfl⟩,on.at'⟩⟩)
        exact switchSafe fits indexed writes free on.at'

end Reorg

section Ended
variable {h : UInt64}

theorem unpending (sw : Switch) : ¬sw.Pending h sw.marks := by
  intro pending
  generalize whole : sw.marks = stage at pending
  cases pending with
  | cut early => rcases early with rfl | rfl <;> simp [marks] at whole
  | row early => rcases early with rfl | rfl <;> simp [marks] at whole
  | slot => exact marksApart sw _ whole.symm

omit [DecidableEq ι] in
theorem Says.mayCache {stage : List Access} {hash : Bytes32} (told : sw.Says s stage h hash)
    (ended : stage = [] ∨ stage = sw.marks) : sw.MayCache s stage h hash := by
  refine ⟨told.first,fun late => .inl (told.settled.resolve_right fun pending => ?_)⟩
  rw [ended.resolve_left late] at pending
  exact unpending sw pending

theorem Racing.answersRow (fits : sw.Fits s) (indexed : s.Indexed) (racing : sw.Racing w s tips x)
    (cached : ∀ y, sw.MayCache s (sw.stage w x.past) h y → canonicalAt x.now.db h = some y)
    (told : ∀ y, sw.Says s (sw.stage w x.past) h y → canonicalAt x.now.db h = some y)
    (above : s.minRetainedHeightCached ≤ h) (asked : s.Representable h) : x.now.Answers h (canonicalAt x.now.db h) := by
  intro script
  rw [Store.getHashByHeightUnfolds,racing.floor,if_neg (UInt64.not_lt.mpr above)]
  cases held : x.now.canonicalHeightCache[h]? with
  | some y => rw [cached y (racing.cache h y above held)]
  | none =>
    have inside : (file (sw.stage w x.past) s.canonicalBin).mapping = true → h ≠ lastSlot := by
      rw [fileMapping]
      exact fun mapped last => UInt64.not_lt.mpr above (asked mapped last)
    have reads := CanonicalBin.readsAnswer (fileReady (sw.stage w x.past) indexed.bin.ready) inside
    rw [← racing.bin] at reads
    dsimp only
    rw [reads]
    cases answer : x.now.canonicalBin.answer h with
    | some y => rw [told y (Switch.fileSays fits indexed racing.writes racing.order above (by rw [← racing.bin]; exact answer))]
    | none =>
      dsimp only
      cases row : (x.now.db .canonical)[heightKey h]? with
      | none =>
        rw [show canonicalAt x.now.db h = none by rw [canonicalAt,row]; rfl]
      | some value =>
        obtain ⟨_,hash,_,rfl⟩ := racing.typed _ _ row
        rw [show canonicalAt x.now.db h = some hash by rw [canonicalAt,row]; exact Bytes32.ofBytesBytes hash]
        simp [hashKey,Bytes32.ofBytesBytes]

theorem Racing.answers (fits : sw.Fits s) (indexed : s.Indexed) (racing : sw.Racing w s tips x)
    (ended : sw.stage w x.past = [] ∨ sw.stage w x.past = sw.marks) (above : s.minRetainedHeightCached ≤ h)
    (asked : s.Representable h) : x.now.Answers h (canonicalAt x.now.db h) := by
  have rows := congrFun racing.rows h
  have seen : ∀ y, sw.MayCache s (sw.stage w x.past) h y → canonicalAt x.now.db h = some y := by
    intro y may
    rw [rows]
    rcases ended with at' | at'
    · rw [if_pos at']
      exact may.first at'
    · have late : sw.stage w x.past ≠ [] := by rw [at']; simp [marks]
      rw [if_neg late]
      exact (may.later late).resolve_right fun bad => bad.1 at'
  exact racing.answersRow fits indexed seen (fun y told => seen y (told.mayCache ended)) above asked

end Ended

def swapping : Access → Bool
  | .heightsSwap .. => true
  | _ => false

def putting : Access → Bool
  | .heightPut .. => true
  | _ => false

omit [DecidableEq ι] in
/- No lookup is overtaken where none puts after the swap. -/
theorem unovertaken {past : List (ι × Access)} (settled : past.Pairwise fun e d => swapping e.2 = true → putting d.2 = false) :
    ¬Overtaken w s past := by
  rintro ⟨_,order,_⟩
  have swapped := order.subset (List.mem_cons_of_mem _ (List.mem_singleton_self _))
  have inner := (List.pairwise_append.mp (List.pairwise_cons.mp (List.pairwise_append.mp settled).2.1).2).2.2
  cases inner _ swapped _ (List.mem_cons_self ..) rfl

end Switch

inductive Mover where
  | rollback (target : UInt64)
  | reorg (ancestor : UInt64) (hashes : List Bytes32)

namespace Mover
variable {crates : Crates} {s : Store}

def steps (crates : Crates) : Mover → Steps Unit
  | rollback target => do
      let _ ← Store.rollbackToHeightSteps target
      pure ()
  | reorg ancestor hashes => do
      let _ ← Store.applyReorgSteps crates ancestor hashes
      pure ()

inductive Fits (crates : Crates) (s : Store) : Mover → Prop where
  | rollback {target : UInt64} (cut : s.canonicalBin.Accepts target) : Fits crates s (.rollback target)
  | reorg {ancestor : UInt64} {hashes : List Bytes32} (cut : s.canonicalBin.Accepts ancestor)
      (slots : ∀ records u, Runs (Op.collect (Store.getRecordOrMissing crates) hashes) s (.ok records) u →
        ∀ row ∈ records, s.canonicalBin.Accepts row.2.height) : Fits crates s (.reorg ancestor hashes)

theorem Fits.small (crates : Crates) (s : Store) {target : UInt64} (fits : (slotEnd target).isSome) :
    (Mover.rollback target).Fits crates s := .rollback (Store.acceptsSlot fits)

/- One such call and any number of lookups, each at its height. -/
def among (crates : Crates) {ρ : Type} (mover : Mover) (height : ρ → UInt64) : Option ρ → Steps Unit
  | none => mover.steps crates
  | some r => do
      let _ ← Store.getHashByHeightSteps (height r)
      pure ()

def idle : Switch := ⟨[],0,[],[]⟩

theorem idleFits (s : Store) : idle.Fits s where
  above _ _ bad := by cases bad
  cut := Store.acceptsSlot rfl
  slots _ bad := by cases bad
  typed _ bad := by cases bad
  indexed _ := rfl

/- How the call ends: nothing switched, or all of it; and a rollback that returns Ok has switched
from the tip down to its target. -/
def Ends (mover : Mover) (s : Store) {ι : Type} [DecidableEq ι] (w : ι) (sw : Switch) (r : Exit Unit)
    (x : Scene ι Access Store) : Prop :=
  (sw.stage w x.past = [] ∨ sw.stage w x.past = sw.marks) ∧ ∀ target, mover = .rollback target → r = .ok () →
    ∃ tip, s.tip = some tip ∧ (target = tip.height ∧ sw.stage w x.past = [] ∨
      target < tip.height ∧ sw = Switch.ofRollback target (heightsThrough (target + 1) tip.height) ∧ sw.stage w x.past = sw.marks)

theorem switches {ι : Type} [DecidableEq ι] {w : ι} {allow : List (ι × Access) → Prop} (mover : Mover) (indexed : s.Indexed)
    (coherent : s.Coherent) (fits : mover.Fits crates s) : ∃ sw : Switch, sw.Fits s ∧
      (mover.steps crates).Safe allow (sw.Racing w s fun _ => True) (Switch.Rely w) w (mover.Ends s w sw) ⟨[],s⟩ := by
  have start : ∀ sw : Switch, sw.Racing w s (fun _ => True) ⟨[],s⟩ := fun sw => .start indexed coherent trivial
  have poised : ∀ sw : Switch, sw.Poised w s [] ⟨[],s⟩ := fun sw => ⟨rfl,refl_of Store.Warmed s⟩
  cases fits with
  | @rollback target cut =>
    have finish : ∀ {sw : Switch}, (∀ tip, s.tip = some tip → target < tip.height →
        sw = Switch.ofRollback target (heightsThrough (target + 1) tip.height)) → sw.Fits s →
        ((Mover.rollback target).steps crates).Safe allow (sw.Racing w s fun _ => True) (Switch.Rely w) w
          ((Mover.rollback target).Ends s w sw) ⟨[],s⟩ := by
      intro sw plan fits
      have ends : ∀ {r z}, (∃ tip, s.tip = some tip ∧ (target = tip.height ∧ sw.stage w z.past = [] ∨
          target < tip.height ∧ sw.stage w z.past = sw.marks)) → (Mover.rollback target).Ends s w sw r z := by
        rintro r z ⟨tip,head,done⟩
        refine ⟨done.imp And.right And.right,fun other same _ => ?_⟩
        cases same
        exact ⟨tip,head,done.imp_right fun both => ⟨both.1,plan tip head both.1,both.2⟩⟩
      refine Proc.Safe.bind (start sw) ((Switch.rollbackSafe fits indexed (fun _ => trivial) plan (start sw) (poised sw)).mono
        fun r y _ rolled => ⟨?_,?_⟩)
      · rintro v rfl z later _
        rcases rolled with ⟨⟨_,bad⟩,_⟩ | done
        · cases bad
        · refine ends ?_
          rwa [Switch.relyStage later rfl]
      · rintro e rfl
        rcases rolled with ⟨_,at'⟩ | done
        · exact ⟨.inl at',fun _ _ bad => by cases bad⟩
        · exact ends done
    by_cases planned : ∃ tip, s.tip = some tip ∧ target < tip.height
    · obtain ⟨tip,head,lower⟩ := planned
      have bound := tip.height.toNat_lt
      have strict := UInt64.lt_iff_toNat_lt.mp lower
      have above : ∀ h ∈ heightsThrough (target + 1) tip.height, target < h :=
        fun h mem => ((Store.memAboveTip (by omega)).mp mem).1
      have fits' := Switch.rollbackFits cut above
      refine ⟨_,fits',finish (fun other same _ => ?_) fits'⟩
      rw [head] at same
      cases same
      rfl
    · exact ⟨idle,idleFits s,finish (fun tip head lower => absurd ⟨tip,head,lower⟩ planned) (idleFits s)⟩
  | @reorg ancestor hashes cut slots =>
    have finish : ∀ {sw : Switch}, (∀ tip last records u, s.readOnly = false → s.tip = some tip → hashes.getLast? = some last →
        Clean (Op.collect (Store.getRecordOrMissing crates) hashes) s (.ok records) u →
        sw = Switch.ofReorg ancestor (heightsThrough (ancestor + 1) tip.height) records
          ⟨last,(records.getLast?.map fun row => row.2.height).getD 0⟩) → sw.Fits s →
        ((Mover.reorg ancestor hashes).steps crates).Safe allow (sw.Racing w s fun _ => True) (Switch.Rely w) w
          ((Mover.reorg ancestor hashes).Ends s w sw) ⟨[],s⟩ := by
      intro sw plan fits
      refine Proc.Safe.bind (start sw) ((Switch.reorgSafe fits indexed (fun tip last records u writes head newest ran =>
        ⟨plan tip last records u writes head newest ran,trivial⟩) (start sw) (poised sw)).mono
          fun r y _ settles => ⟨fun v _ z later _ => ⟨?_,fun _ bad => by cases bad⟩,fun e same => ⟨?_,fun _ bad => by cases bad⟩⟩)
      · rw [Switch.relyStage later rfl]
        exact settles.imp And.right And.right
      · exact settles.imp And.right And.right
    by_cases planned : ∃ tip last records u, s.readOnly = false ∧ s.tip = some tip ∧ hashes.getLast? = some last ∧
        Clean (Op.collect (Store.getRecordOrMissing crates) hashes) s (.ok records) u
    · obtain ⟨tip,last,records,u,writes,head,newest,ran⟩ := planned
      have fits' : (Switch.ofReorg ancestor (heightsThrough (ancestor + 1) tip.height) records
          ⟨last,(records.getLast?.map fun row => row.2.height).getD 0⟩).Fits s :=
        Switch.reorgFits indexed writes cut (slots records u ran.runs) _
      refine ⟨_,fits',finish (fun tip' last' records' u' _ head' newest' ran' => ?_) fits'⟩
      rw [head] at head'
      rw [newest] at newest'
      cases head'
      cases newest'
      cases (ran.unique ran').1
      rfl
    · exact ⟨idle,idleFits s,finish (fun tip last records u writes head newest ran =>
        absurd ⟨tip,last,records,u,writes,head,newest,ran⟩ planned) (idleFits s)⟩

theorem readerSafe {ρ : Type} [DecidableEq ρ] {sw : Switch} {x : Scene (Option ρ) Access Store} (fits : sw.Fits s)
    (indexed : s.Indexed) (r : ρ) (h : UInt64) (here : sw.Racing none s (fun _ => True) x) :
    (do
      let _ ← Store.getHashByHeightSteps h
      pure () : Steps Unit).Safe (Switch.Orderly none s) (sw.Racing none s fun _ => True)
        (Switch.Rely none) (some r) (fun _ _ => True) x :=
  Proc.Safe.bind here ((Store.lookupSafe (Switch.readerRules fits indexed (Option.some_ne_none r)) trivial
    (.inl (trivial : True))).mono fun _ _ _ _ => ⟨fun _ _ _ _ _ => trivial,fun _ _ => trivial⟩)

/- Once all have ended the lookups answer the rows, and a rollback that returned Ok has reverted its heights. -/
structure Quiesced (mover : Mover) (s : Store) {ρ : Type} (c : Live (Option ρ) Access Store BlockStoreError Unit) : Prop where
  answers : ∀ h, s.minRetainedHeightCached ≤ h → s.Representable h → c.now.Answers h (canonicalAt c.now.db h)
  reverted : ∀ target, mover = .rollback target → (c.procs none).result? = some (.ok ()) → ∀ h, target < h →
    s.minRetainedHeightCached ≤ h → s.Representable h →
      (∀ tip, s.tip = some tip → tip.height < h → canonicalAt s.db h = none) → c.now.Answers h none

end Mover

/- The runs of the code: the steps in an order that keeps the lock of the file. -/
structure LockedRun {ι : Type} [DecidableEq ι] (start : Live ι Access Store BlockStoreError Unit) (past : List (ι × Access))
    (c : Live ι Access Store BlockStoreError Unit) : Prop where
  run : Interleaving start past c
  locked : FileLocked past

/- Among the steps of one rollback or reorg no order leaves a lookup that answers other than the rows,
unless the switch overtakes a lookup between its read of the rows and its put. -/
theorem racedLookups {crates : Crates} {s : Store} {ρ : Type} [DecidableEq ρ] (mover : Mover) (height : ρ → UInt64)
    {past : List (Option ρ × Access)} {c : Live (Option ρ) Access Store BlockStoreError Unit} (reached : Reaches crates s)
    (coherent : s.Coherent) (fits : mover.Fits crates s) (run : LockedRun (.start s (mover.among crates height)) past c)
    (finished : c.Finished) (orderly : ¬Switch.Overtaken none s past) : mover.Quiesced s c := by
  have indexed := reachesIndexed reached
  have switches : ∃ sw : Switch, sw.Fits s ∧ (mover.steps crates).Safe (Switch.Orderly none s)
      (sw.Racing none s fun _ => True) (Switch.Rely (none : Option ρ)) none (mover.Ends s none sw) ⟨[],s⟩ :=
    mover.switches indexed coherent fits
  obtain ⟨sw,fitting,moves⟩ := switches
  have start : sw.Racing none s (fun _ => True) (⟨[],s⟩ : Scene (Option ρ) Access Store) := .start indexed coherent trivial
  let post : Option ρ → Exit Unit → Scene (Option ρ) Access Store → Prop
    | none => mover.Ends s none sw
    | some _ => fun _ _ => True
  have safe : ∀ i, (mover.among crates height i).Safe (Switch.Orderly none s)
      (sw.Racing none s fun _ => True) (Switch.Rely none) i (post i) ⟨[],s⟩ := by
    intro i
    cases i with
    | none => exact moves
    | some r => exact Mover.readerSafe fitting indexed r (height r) start
  have shorter : ∀ (es : List (Option ρ × Access)) e, Switch.Orderly none s (es ++ [e]) → Switch.Orderly none s es :=
    fun es e => Switch.Orderly.shorter
  have kept : Switch.Orderly none s past := ⟨run.locked,orderly⟩
  obtain ⟨_,racing,_⟩ := interleavingSafe shorter rfl start safe run.run kept
  obtain ⟨r,ended⟩ := Option.isSome_iff_exists.mp (finished none)
  have ends : mover.Ends s none sw r ⟨past,c.now⟩ := interleavingEnds shorter rfl start safe run.run kept ended
  have answers : ∀ h, s.minRetainedHeightCached ≤ h → s.Representable h → c.now.Answers h (canonicalAt c.now.db h) :=
    fun h above asked => racing.answers fitting indexed ends.1 above asked
  refine ⟨answers,fun target same ok h higher above asked bare => ?_⟩
  obtain ⟨tip,head,done⟩ := ends.2 target same (Option.some.inj (ended.symm.trans ok))
  have rows := congrFun racing.rows h
  have none' : canonicalAt c.now.db h = none := by
    rcases done with ⟨rfl,at'⟩ | ⟨lower,rfl,at'⟩
    · rw [rows,if_pos at']
      exact bare tip head higher
    · rw [rows,if_neg (by rw [at']; simp [Switch.marks])]
      change eraseAll (heightsThrough (target + 1) tip.height) (canonicalAt s.db) h = none
      rw [eraseAll]
      split
      · rfl
      · rename_i outside
        have bound := tip.height.toNat_lt
        have strict := UInt64.lt_iff_toNat_lt.mp lower
        refine bare tip head (UInt64.not_le.mp fun under => outside ?_)
        exact (Store.memAboveTip (by omega)).mpr ⟨higher,under⟩
  have found := answers h above asked
  rwa [none'] at found

namespace Sample

def uncached : Store :=
  .after crates Store.tame config
    [.initGenesis (block 0 0 1),.putBlock (block 1 1 2) false,.setCanonicalBatch [hash 2],.setTip ⟨hash 2,1⟩,
      .disableCanonicalBinAcceleration]

def race : Live (Option Unit) Access Store BlockStoreError Unit :=
  .start uncached ((Mover.rollback 0).among crates fun _ => 1)

def returned (c : Live (Option Unit) Access Store BlockStoreError Unit) : Bool :=
  (c.procs none).result? matches some (.ok ()) && (c.procs (some ())).result? matches some (.ok ())

def putsFirst (past : List (Option Unit × Access)) : Bool :=
  past.Pairwise fun e d => Switch.swapping e.2 = true → Switch.putting d.2 = false

theorem putsFirstSound {past : List (Option Unit × Access)} (h : putsFirst past = true) :
    past.Pairwise fun e d => Switch.swapping e.2 = true → Switch.putting d.2 = false := of_decide_eq_true h

def resurrected (s : Store) : Bool :=
  canonicalAt s.db 1 = none ∧ (Store.getHashByHeight 1 ⟨s,[]⟩).1 = .ok (some (hash 2))

def raced (order : List (Option Unit)) : Option (List (Option Unit × Access) × Store) :=
  match play order [] race with
  | some (past,c) => if returned c && FileLocked past then some (past,c.now) else none
  | none => none

theorem racedRun {order : List (Option Unit)} {test : List (Option Unit × Access) × Store → Bool}
    (h : (raced order).any test = true) : ∃ past c, LockedRun race past c ∧ c.Finished ∧
      (c.procs none).result? = some (.ok ()) ∧ test (past,c.now) = true := by
  obtain ⟨⟨past,s⟩,ran,passed⟩ := Option.any_eq_true _ _ |>.mp h
  unfold raced at ran
  split at ran
  · rename_i c played
    split at ran
    · rename_i both
      cases ran
      rw [Bool.and_eq_true] at both
      obtain ⟨both,locked⟩ := both
      unfold returned at both
      rw [Bool.and_eq_true] at both
      have ok : ∀ {i}, ((c.procs i).result? matches some (.ok ())) = true → (c.procs i).result? = some (.ok ()) := by
        intro i h
        split at h
        · assumption
        · cases h
      refine ⟨past,c,⟨playInterleaves .start played,of_decide_eq_true locked⟩,fun i => ?_,ok both.1,passed⟩
      rcases i with _ | ⟨⟩
      · rw [ok both.1]
        rfl
      · rw [ok both.2]
        rfl
    · cases ran
  · cases ran

end Sample

/- The lookup ends before the rollback begins. -/
theorem racedLookupsSample : ∃ past c, LockedRun Sample.race past c ∧ c.Finished ∧
    (Mover.rollback 0).Quiesced Sample.uncached c := by
  have run : ReachesUnshadowed Sample.crates Sample.uncached := Store.afterTame (by decide +kernel)
  have played : (Sample.raced (List.replicate 5 (some ()) ++ List.replicate 17 none)).any
      (fun end' => Sample.putsFirst end'.1) = true := by decide +kernel
  obtain ⟨past,c,ran,ended,_,passed⟩ := Sample.racedRun played
  have fits := Mover.Fits.small Sample.crates Sample.uncached (show (slotEnd 0).isSome from rfl)
  exact ⟨past,c,ran,ended,racedLookups (.rollback 0) (fun _ => 1) run.reaches (reachesCoherent run).2 fits ran ended
    (Switch.unovertaken (Sample.putsFirstSound passed))⟩

/- The lookup reads its row, the rollback runs, and the lookup puts what it has read: the reverted
height resolves from then on. -/
theorem racedResurrects : Reaches Sample.crates Sample.uncached ∧ Sample.uncached.Coherent ∧
    (Mover.rollback 0).Fits Sample.crates Sample.uncached ∧ ∃ past c, LockedRun Sample.race past c ∧ c.Finished ∧
      (c.procs none).result? = some (.ok ()) ∧ canonicalAt c.now.db 1 = none ∧
      (Store.getHashByHeight 1 ⟨c.now,[]⟩).1 = .ok (some (Sample.hash 2)) := by
  have run : ReachesUnshadowed Sample.crates Sample.uncached := Store.afterTame (by decide +kernel)
  have played : (Sample.raced (List.replicate 4 (some ()) ++ List.replicate 20 none ++ [some ()])).any
      (fun end' => Sample.resurrected end'.2) = true := by decide +kernel
  obtain ⟨past,c,ran,ended,ok,passed⟩ := Sample.racedRun played
  have fits := Mover.Fits.small Sample.crates Sample.uncached (show (slotEnd 0).isSome from rfl)
  exact ⟨run.reaches,(reachesCoherent run).2,fits,past,c,ran,ended,ok,of_decide_eq_true passed⟩

end DigBlockstore
