import DigBlockstore.LinkedSteps
import DigBlockstore.Previews
import DigBlockstore.Streams

/-! Linked runs from an empty database: the rows stay a linked chain, the height cache stays with
them, and so every query by height answers from that chain. -/
namespace DigBlockstore
open ByteCodec Faulty ColumnStore PartialMap Pipeline Trace ChainSegment
namespace Store
variable {crates : Crates} {s t u : Store} {content : Bytes32 → L2BlockHeader}

theorem bareLinked (filed : Filed crates content s) (db : s.db = fun _ => ∅) (empty : ∀ hash, ¬s.Mentions hash)
    (tip : s.tip = none) (floor : s.minRetainedHeightCached = 0) : Linked crates content s where
  filed := filed
  whole := ⟨fun hash => by simp [db],fun hash mentioned => absurd mentioned (empty hash)⟩
  chain := by
    rw [tip,db]
    exact ⟨fun h => by simp [canonicalAt],floor⟩
  held h x found := by simp [db,canonicalAt] at found

theorem bootedMentions {config : BlockStoreConfig} {readOnly : Bool} {db : Db} (booted : Booted config readOnly db s)
    (hash : Bytes32) : ¬s.Mentions hash := by
  obtain ⟨bin,dict,tip,rfl,_⟩ := booted.built
  simp [Mentions,fresh]

theorem Linked.booted {config : BlockStoreConfig} {readOnly : Bool} (linked : Linked crates content s) (indexed : Indexed s)
    (booted : Booted config readOnly s.db u) : Linked crates content u where
  filed := bootedFiled linked.filed booted
  whole := by
    refine ⟨fun hash => ?_,fun hash mentioned => absurd mentioned (bootedMentions booted hash)⟩
    rw [(bootedIndexed indexed.typed indexed.tipRow booted).2.1]
    exact linked.whole.paired hash
  chain := by
    obtain ⟨_,db,tip,floor,_⟩ := bootedIndexed indexed.typed indexed.tipRow booted
    rw [db,tip,floor,indexed.floorRow]
    exact linked.chain
  held h x found := by
    obtain ⟨_,db,_⟩ := bootedIndexed indexed.typed indexed.tipRow booted
    rw [db] at found
    rw [Stored,db]
    exact linked.held h x found

theorem linkedUnshadowed {c : Call} {v : Unit} (indexed : Indexed s) (coherent : Coherent s) (linked : Linked crates content s)
    (linkedCall : LinkedCall crates s c) (h : Runs (call crates c) s (.ok v) t) : Unshadowed crates s c := by
  have chain := linked.chain
  intro rows behind k x y low last cached
  have row := coherent k x low cached
  cases linkedCall with
  | genesis block =>
    rw [(initGenesisShift indexed h).1] at chain
    rw [chain.1 k] at row
    cases row
  | @extend block tip head up next =>
    cases behind with
    | extend off absent =>
      rw [head] at chain
      rw [lastRowOne last,chain.spans.outside (.inr (by rw [next]; omega))] at row
      cases row
  | read => cases behind
  | aside => cases behind
  | rollback => cases behind
  | reorg => cases behind
  | prune => cases behind

theorem linkedKeeps {c : Call} {v : Unit} (lawful : crates.Lawful) (indexed : Indexed s) (coherent : Coherent s)
    (linked : Linked crates content s) (linkedCall : LinkedCall crates s c) (h : Runs (call crates c) s (.ok v) t) :
    ∃ content', Linked crates content' t := by
  cases linkedCall with
  | read r => exact ⟨content,(readTouched h).linked lawful linked⟩
  | genesis block => exact genesisLinked indexed linked h
  | aside block =>
    obtain ⟨added,run⟩ := discardOk h
    exact putAside indexed linked run
  | extend head up next =>
    obtain ⟨added,run⟩ := discardOk h
    exact extendLinked indexed linked head up next run
  | rollback target =>
    obtain ⟨reverted,run⟩ := discardOk h
    exact ⟨content,rollbackLinked lawful indexed coherent linked run⟩
  | reorg found steps =>
    obtain ⟨result,run⟩ := discardOk h
    exact ⟨content,reorgLinked lawful indexed coherent linked found steps run⟩
  | prune head below =>
    obtain ⟨n,run⟩ := discardOk h
    exact ⟨content,pruneLinked lawful indexed coherent linked head below run⟩

end Store

def LinkedAction (crates : Crates) (s : Store) : Action → Prop
  | .call c => s.LinkedCall crates c
  | .reopen _ | .reopenReadonly _ => True

def ReachesLinked (crates : Crates) (s : Store) : Prop :=
  ∃ start actions, Opened crates start ∧ Run (Guarded (LinkedAction crates) (Takes crates)) start actions s

theorem ReachesLinked.reaches {crates : Crates} {s : Store} (h : ReachesLinked crates s) : Reaches crates s := by
  obtain ⟨start,actions,opened,run⟩ := h
  exact ⟨start,actions,opened,run.mono fun _ _ _ both => both.2⟩

theorem takesLinked {crates : Crates} {s t : Store} {action : Action} (lawful : crates.Lawful) (indexed : s.Indexed)
    (coherent : s.Coherent) (linked : ∃ content, s.Linked crates content) (guard : LinkedAction crates s action)
    (h : Takes crates s action t) : t.Coherent ∧ ∃ content, t.Linked crates content := by
  obtain ⟨content,linked⟩ := linked
  cases action with
  | call c =>
    exact ⟨Store.callCoherent indexed coherent (Store.linkedUnshadowed indexed coherent linked guard h) h,
      Store.linkedKeeps lawful indexed coherent linked guard h⟩
  | reopen config =>
    refine ⟨@takesCoherent crates s t (.reopen config) indexed coherent trivial h,content,?_⟩
    obtain ⟨disk,run⟩ := h
    obtain ⟨_,u,booted,touched⟩ := Store.openStoreOk run
    exact touched.linked lawful (linked.booted indexed booted)
  | reopenReadonly path =>
    refine ⟨@takesCoherent crates s t (.reopenReadonly path) indexed coherent trivial h,content,?_⟩
    obtain ⟨disk,run⟩ := h
    obtain ⟨_,booted⟩ := Store.openReadonlyOk run
    exact linked.booted indexed booted

theorem openedLinked {crates : Crates} {s : Store} (lawful : crates.Lawful) (opened : Opened crates s) :
    ∃ content, s.Linked crates content := by
  obtain ⟨config,file,disk,run⟩ := opened
  obtain ⟨_,u,booted,touched⟩ := Store.openStoreOk run
  have bare := Store.bareLinked (Store.createdFiled crates config
    fun _ => ⟨0,0,Bytes32.zero,0,0,0,0,0,0,0,0,Bytes32.zero,Bytes32.zero,[]⟩) rfl (fun hash => by simp [Store.Mentions,Store.created,Store.fresh]) rfl rfl
  exact ⟨_,touched.linked lawful (bare.booted (openedIndexed (by exact Store.createdOpened crates config)).1 booted)⟩

theorem reachesLinked {crates : Crates} {s : Store} (lawful : crates.Lawful) (h : ReachesLinked crates s) :
    s.Agreed ∧ ∃ content, s.Linked crates content := by
  have reached := h.reaches
  obtain ⟨start,actions,opened,run⟩ := h
  obtain ⟨indexed,coherent,_⟩ := openedIndexed opened
  have both : s.Indexed ∧ s.Coherent ∧ ∃ content, s.Linked crates content :=
    run.invariantWith indexed (fun _ _ _ known taken => takesIndexed known taken.2) ⟨coherent,openedLinked lawful opened⟩
      fun _ _ _ known kept taken => takesLinked lawful known kept.1 kept.2 taken.1 taken.2
  exact ⟨agreedOf reached both.2.1,both.2.2⟩

namespace Store
variable {crates : Crates} {s : Store}

def climbs (crates : Crates) (s : Store) : Bytes32 → UInt64 → List Bytes32 → Bool
  | _,_,[] => true
  | a,height,c :: rest =>
      match s.headerAt crates c with
      | none => false
      | some header => header.parentHash == a && header.height.toNat == height.toNat + 1 &&
          climbs crates s c header.height rest

theorem climbsSound {a : Bytes32} {height : UInt64} {walk : List Bytes32} (h : climbs crates s a height walk = true) :
    ∃ top, ParentWalk crates s a height walk (walk.getLastD a) top := by
  induction walk generalizing a height with
  | nil => exact ⟨height,.nil a height⟩
  | cons c rest ih =>
    unfold climbs at h
    split at h
    · cases h
    · rename_i header row
      simp only [Bool.and_eq_true,beq_iff_eq] at h
      obtain ⟨top,later⟩ := ih h.2
      refine ⟨top,.cons row h.1.1 h.1.2 ?_⟩
      rwa [List.getLastD_cons]

def links (crates : Crates) (s : Store) : Call → Bool
  | .initGenesis _ | .putBlock _ false | .rollbackToHeight _ | .read _ => true
  | .extendChain block =>
      match s.tip with
      | none => false
      | some tip => block.header.parentHash == tip.hash && block.height.toNat == tip.height.toNat + 1
  | .applyReorg ancestor walk =>
      match (findCommonAncestor crates (walk.getLastD Bytes32.zero) 8 ⟨s,[]⟩).1 with
      | .ok (some (a,height)) => height == ancestor && walk ≠ [] && climbs crates s a ancestor walk
      | _ => false
  | _ => false

theorem ranOk {α : Type} {m : StoreM α} {a : α} (answered : (m ⟨s,[]⟩).1 = .ok a) : ∃ t, Runs m s (.ok a) t := by
  cases ran : m ⟨s,[]⟩ with
  | mk r w =>
    rw [ran] at answered
    cases answered
    exact ⟨w.state,[],w.script,ran⟩

theorem linksSound (s : Store) (c : Call) (h : links crates s c = true) : LinkedAction crates s (.call c) := by
  cases c with
  | read r => exact .read r
  | initGenesis block => exact .genesis block
  | putBlock block canonical =>
    cases canonical with
    | false => exact .aside block
    | true => cases h
  | rollbackToHeight target => exact .rollback target
  | extendChain block =>
    simp only [links] at h
    split at h
    · cases h
    · rename_i tip head
      simp only [Bool.and_eq_true,beq_iff_eq] at h
      exact .extend head h.1 h.2
  | applyReorg ancestor walk =>
    simp only [links] at h
    split at h
    · rename_i a height found
      simp only [Bool.and_eq_true,beq_iff_eq,decide_eq_true_eq] at h
      obtain ⟨⟨rfl,some'⟩,climbing⟩ := h
      obtain ⟨top,steps⟩ := climbsSound climbing
      cases walk with
      | nil => exact absurd rfl some'
      | cons c rest =>
        rw [List.getLastD_cons] at steps found
        obtain ⟨u,ran⟩ := ranOk found
        exact .reorg ran steps
    · cases h
  | _ => cases h

theorem afterLinked {config : BlockStoreConfig} {calls : List Call}
    (done : (exec crates (links crates) calls (created config)).isSome = true) :
    ReachesLinked crates (after crates (links crates) config calls) :=
  ⟨_,_,createdOpened crates config,execRun linksSound (afterExec done)⟩

end Store

namespace Store
variable {crates : Crates} {s t : Store} {content : Bytes32 → L2BlockHeader}

/- What a query by height answers, whatever befalls it. -/
def Answers (s : Store) (height : UInt64) (found : Option Bytes32) : Prop :=
  ∀ script, (getHashByHeight height ⟨s,script⟩).1 = .ok found

/- The queries at a height answer from the linked chain, and from nothing else. -/
structure ChainAnswers (crates : Crates) (s : Store) (h : UInt64) : Prop where
  inside : ∀ tip, s.tip = some tip → s.minRetainedHeightCached ≤ h → h ≤ tip.height → ∃ x header,
    s.Answers h (some x) ∧ s.headerAt crates x = some header ∧ (s.db .blocks)[hashKey x]?.isSome ∧ header.height = h ∧
      (s.minRetainedHeightCached < h → s.Answers (h - 1) (some header.parentHash))
  outside : (∀ tip, s.tip = some tip → h < s.minRetainedHeightCached ∨ tip.height < h) → s.Answers h none
  top : ∀ tip, s.tip = some tip → h = tip.height → s.Answers h (some tip.hash)
  canonical : ∀ x, s.Answers h (some x) → canonicalAt s.db h = some x
  headers : ∀ header t, Runs (getHeaderByHeight crates h) s (.ok (some header)) t →
    ∃ x, canonicalAt s.db h = some x ∧ s.headerAt crates x = some header
  blocks : ∀ block t, Runs (getBlockByHeight crates h) s (.ok (some block)) t →
    ∃ x, canonicalAt s.db h = some x ∧ s.headerAt crates x = some block.header
  records : ∀ record t, Runs (getRecordByHeight crates h) s (.ok (some record)) t →
    ∃ x header, canonicalAt s.db h = some x ∧ s.headerAt crates x = some header ∧ record.height = header.height ∧
      record.parentHash = header.parentHash

section Queries

theorem byHeightRow {α : Type} (crates : Crates) (agreed : Agreed s) {height : UInt64} {a : α}
    {next : Option Bytes32 → StoreM (Option α)} (h : Runs (getHashByHeight height >>= next) s (.ok (some a)) t)
    (missing : next none = pure none) :
    ∃ x u, canonicalAt s.db height = some x ∧ Touched crates s u ∧ Runs (next (some x)) u (.ok (some a)) t := by
  obtain ⟨found,u,looking,later⟩ := runsBindOk h
  obtain ⟨touched,answer⟩ := @getHashByHeightRuns crates _ _ _ _ looking
  have row := answer found rfl
  rw [coherentAnswer agreed.indexed agreed.coherent] at row
  cases found with
  | none =>
    rw [missing] at later
    cases (runsPure.mp later).1
  | some x => exact ⟨x,u,canonicalAnswerRow row.symm,touched,later⟩

theorem getHeaderKnown {hash : Bytes32} {header : L2BlockHeader} (h : Runs (getHeader crates hash) s (.ok (some header)) t) :
    s.Knows crates hash header := by
  unfold getHeader at h
  rw [runsGetBind,runsModifyBind] at h
  split at h
  · rename_i cached
    cases (runsPure.mp h).1
    exact .inl cached
  · split at h
    · cases (runsPure.mp h).1
    · rename_i raw row
      obtain ⟨found,u,read,later⟩ := runsBindOk h
      obtain ⟨decoded,rfl⟩ := runsOfExceptOk read
      rw [runsModifyBind,runsModifyBind] at later
      cases (runsPure.mp later).1
      exact .inr (.inl (headerAtRow row decoded))

theorem getBlockFiled (lawful : crates.Lawful) (filed : Filed crates content s) {hash : Bytes32} {block : L2Block}
    (h : Runs (getBlock crates hash) s (.ok (some block)) t) : block.header = content hash := by
  obtain ⟨script,_,ran⟩ := h
  have answer := getBlockAnswers crates hash s script
  rw [ran,blockAnswer] at answer
  split at answer
  · rename_i cached
    cases answer
    exact filed.body hash block cached
  · split at answer
    · cases answer
    · rename_i raw row
      split at answer
      · rename_i decoded
        cases answer
        exact filed.bodyAt lawful (bodyAtRow row decoded)
      · cases answer

end Queries

theorem Linked.answers (lawful : crates.Lawful) (agreed : Agreed s) (linked : Linked crates content s) {h : UInt64}
    (fits : s.Representable h) : ChainAnswers crates s h := by
  have found : ∀ {k x}, s.Representable k → s.minRetainedHeightCached ≤ k → canonicalAt s.db k = some x →
      s.Answers k (some x) := fun asked above row script =>
    (lookupAnswered crates agreed).mpr ⟨asked,by rw [canonicalAnswerAbove above,row]⟩
  have filed : ∀ {x}, canonicalAt s.db h = some x → s.headerAt crates x = some (content x) := fun row =>
    linked.filed.storedHeader lawful (linked.held h _ row)
  constructor
  case inside =>
    intro tip head above below
    have chain := linked.chain
    rw [head] at chain
    obtain ⟨x,row⟩ := chain.spans.item (UInt64.le_iff_toNat_le.mp above) (UInt64.le_iff_toNat_le.mp below)
    refine ⟨x,content x,found fits above row,filed row,(linked.whole.paired x).mpr (linked.held h x row),
      chain.spans.placed h x row,fun higher => ?_⟩
    have floor := UInt64.lt_iff_toNat_lt.mp higher
    have one : (1 : UInt64) ≤ h := UInt64.le_iff_toNat_le.mpr (by rw [UInt64.toNat_one]; omega)
    have under : (h - 1).toNat = h.toNat - 1 := by rw [UInt64.toNat_sub_of_le _ _ one,UInt64.toNat_one]
    have parent := chain.spans.linked (h - 1) h x row (by omega) (by omega)
    refine found (fun mapped last => ?_) (UInt64.le_iff_toNat_le.mpr (by omega)) parent
    rw [last,agreed.seated mapped] at parent
    cases parent
  case outside =>
    intro apart script
    refine (lookupAnswered crates agreed).mpr ⟨fits,?_⟩
    have chain := linked.chain
    unfold canonicalAnswer
    split
    · rfl
    · rename_i above
      cases head : s.tip with
      | none =>
        rw [head] at chain
        exact (chain.1 h).symm
      | some tip =>
        rw [head] at chain
        have past := (apart tip head).resolve_left above
        exact (chain.spans.outside (.inr (UInt64.lt_iff_toNat_lt.mp past))).symm
  case top =>
    rintro tip head rfl
    have chain := linked.chain
    rw [head] at chain
    exact found fits (UInt64.le_iff_toNat_le.mpr chain.spans.order) chain.top
  case canonical =>
    intro x answers
    exact canonicalAnswerRow ((lookupAnswered crates agreed).mp (answers [])).2.symm
  case headers =>
    intro header t run
    obtain ⟨x,u,row,touched,read⟩ := byHeightRow crates agreed run rfl
    refine ⟨x,row,?_⟩
    rw [filed row,(touched.filed lawful linked.filed).knows lawful (getHeaderKnown read)]
  case blocks =>
    intro block t run
    obtain ⟨x,u,row,touched,read⟩ := byHeightRow crates agreed run rfl
    refine ⟨x,row,?_⟩
    rw [filed row,getBlockFiled lawful (touched.filed lawful linked.filed) read]
  case records =>
    intro record t run
    obtain ⟨x,u,row,touched,read⟩ := byHeightRow crates agreed run rfl
    obtain ⟨more,_,cached,_⟩ := getRecordRuns read
    exact ⟨x,content x,row,filed row,
      (more.filed lawful (touched.filed lawful linked.filed)).record x record (cached record rfl)⟩

theorem ChainAnswers.fits (crates : Crates) (agreed : Agreed s) {h : UInt64} (answers : ChainAnswers crates s h) :
    s.Representable h := by
  have asked : ∃ found, s.Answers h found := by
    cases head : s.tip with
    | none => exact ⟨none,answers.outside fun tip some' => by rw [head] at some'; cases some'⟩
    | some tip =>
      by_cases on : s.minRetainedHeightCached ≤ h ∧ h ≤ tip.height
      · obtain ⟨x,_,here,_⟩ := answers.inside tip head on.1 on.2
        exact ⟨some x,here⟩
      · refine ⟨none,answers.outside fun tip' same => ?_⟩
        rw [head] at same
        cases same
        simp only [not_and_or,UInt64.not_le] at on
        exact on
  obtain ⟨found,here⟩ := asked
  exact ((lookupAnswered crates agreed).mp (here [])).1

end Store

/- After every linked run the tip row decodes to the tip, and the queries at a height answer from
the linked chain exactly when the file can be asked about the height. -/
theorem linkedAnswers {crates : Crates} {s : Store} (lawful : crates.Lawful) (run : ReachesLinked crates s) :
    Store.loadTip s.db = .ok s.tip ∧ ∀ h, s.ChainAnswers crates h ↔ s.Representable h := by
  obtain ⟨agreed,content,linked⟩ := reachesLinked lawful run
  exact ⟨Store.loadTipRow agreed.indexed.tipRow,fun h =>
    ⟨Store.ChainAnswers.fits crates agreed,linked.answers lawful agreed⟩⟩

namespace Sample

def rebased : Store := .after crates (Store.links crates) config
  [.initGenesis (block 0 0 1),.extendChain (block 1 1 2),.extendChain (block 2 2 3),.putBlock (block 1 1 4) false,
    .putBlock (block 2 4 5) false,.applyReorg 0 [hash 4,hash 5]]

theorem rebasedLinked : ReachesLinked crates rebased := Store.afterLinked (by decide +kernel)

end Sample

theorem linkedAnswersSample : Sample.crates.Lawful ∧ ReachesLinked Sample.crates Sample.rebased ∧
    Sample.rebased.tip = some ⟨Sample.hash 5,2⟩ ∧ Sample.rebased.ChainAnswers Sample.crates 1 :=
  ⟨Sample.lawful,Sample.rebasedLinked,by decide +kernel,
    ((linkedAnswers Sample.lawful Sample.rebasedLinked).2 1).mpr fun _ last => by cases last⟩

/- At the height whose slot ends past the last `usize` a lookup panics, and does not answer `None`. -/
theorem linkedPanics : Sample.crates.Lawful ∧ ReachesLinked Sample.crates Sample.rebased ∧
    Sample.rebased.tip = some ⟨Sample.hash 5,2⟩ ∧
    (Store.getHashByHeight lastSlot ⟨Sample.rebased,[]⟩).1 = .error (.panic "canonical.bin slot end overflows usize") ∧
    ¬Sample.rebased.ChainAnswers Sample.crates lastSlot :=
  have stuck : (Store.getHashByHeight lastSlot ⟨Sample.rebased,[]⟩).1 =
      .error (.panic "canonical.bin slot end overflows usize") := by decide +kernel
  have head : Sample.rebased.tip = some ⟨Sample.hash 5,2⟩ := by decide +kernel
  ⟨Sample.lawful,Sample.rebasedLinked,head,stuck,fun answers => by
    have none' := answers.outside (fun tip same => by
      rw [head] at same
      cases same
      exact .inr (by decide)) []
    rw [stuck] at none'
    cases none'⟩

end DigBlockstore
