import DigBlockstore.Crashes

/-! The counts `stats` reports. Over a linked run they are what the answers of the calls add up to. -/
namespace DigBlockstore
open ByteCodec Faulty ColumnStore PartialMap Trace ChainSegment BlockTree

structure StorageStats where
  blockCount : UInt64
  canonicalBlockCount : UInt64
  headerCount : UInt64
  checkpointCount : UInt64
  attestedCount : UInt64
  tipHeight : Option UInt64
  minHeight : Option UInt64
  totalSizeBytes : UInt64
  deriving DecidableEq, Repr

def StorageStats.default : StorageStats := ⟨0,0,0,0,0,none,none,0⟩

namespace Store
variable (crates : Crates) (estimate : Cf → Except String (Option UInt64))

def countEntries : List (Bytes × Bytes) → UInt64 → Exit UInt64
  | [],n => .ok n
  | _ :: rest,n =>
      if n.toNat + 1 = 2 ^ 64 ∧ crates.overflowChecks then .error (.panic "attempt to add with overflow")
      else countEntries rest (n + 1)

def countCfEntries (cf : Cf) (s : Store) : Exit UInt64 := countEntries crates (s.db cf).toList 0

def saturatingAdd (a b : UInt64) : UInt64 := if a.toNat + b.toNat < 2 ^ 64 then a + b else UInt64.ofNat (2 ^ 64 - 1)

/- `rocksdb.estimate-live-data-size` of each family: `estimate` is what the engine answers. -/
def sumEstimates : List Cf → UInt64 → Exit UInt64
  | [],sum => .ok sum
  | cf :: rest,sum =>
      match estimate cf with
      | .error why => .error (.error (.rocksDb why))
      | .ok none => sumEstimates rest sum
      | .ok (some v) => sumEstimates rest (saturatingAdd sum v)

def sumCfLiveDataSizeEstimates : Exit UInt64 :=
  sumEstimates estimate [.blocks,.headers,.canonical,.metadata,.attested,.checkpoints] 0

def stats (s : Store) : Exit StorageStats := do
  let blockCount ← s.countCfEntries crates .blocks
  let canonicalBlockCount ← s.countCfEntries crates .canonical
  let headerCount ← s.countCfEntries crates .headers
  let checkpointCount ← s.countCfEntries crates .checkpoints
  let attestedCount ← s.countCfEntries crates .attested
  let minHeight ← (readMinRetainedHeight s.db).mapError Stop.error
  let totalSizeBytes ← sumCfLiveDataSizeEstimates estimate
  pure {
    blockCount := blockCount
    canonicalBlockCount := canonicalBlockCount
    headerCount := headerCount
    checkpointCount := checkpointCount
    attestedCount := attestedCount
    tipHeight := s.tip.map ChainTip.height
    minHeight := minHeight
    totalSizeBytes := totalSizeBytes }

variable {crates : Crates} {estimate : Cf → Except String (Option UInt64)} {s t u : Store} {content : Bytes32 → L2BlockHeader}

section Counting

theorem exitBindOk {α β : Type} {m : Exit α} {f : α → Exit β} {b : β} (h : (m >>= f) = .ok b) :
    ∃ a, m = .ok a ∧ f a = .ok b := by
  cases m with
  | error e => cases h
  | ok a => exact ⟨a,rfl,h⟩

theorem countEntriesOk {rows : List (Bytes × Bytes)} {n m : UInt64} (h : countEntries crates rows n = .ok m) :
    m = n + UInt64.ofNat rows.length := by
  induction rows generalizing n with
  | nil =>
    cases h
    simp
  | cons row rest ih =>
    unfold countEntries at h
    split at h
    · cases h
    · rw [ih h,List.length_cons,UInt64.ofNat_add,UInt64.add_assoc,UInt64.add_comm 1]
      rfl

theorem countEntriesFits {rows : List (Bytes × Bytes)} {n : UInt64} (fits : n.toNat + rows.length < 2 ^ 64) :
    countEntries crates rows n = .ok (n + UInt64.ofNat rows.length) := by
  induction rows generalizing n with
  | nil => simp [countEntries]
  | cons row rest ih =>
    rw [List.length_cons] at fits
    have next : (n + 1).toNat = n.toNat + 1 := by
      rw [UInt64.toNat_add,UInt64.toNat_one]
      exact Nat.mod_eq_of_lt (by omega)
    have small : ¬(n.toNat + 1 = 2 ^ 64 ∧ crates.overflowChecks = true) := fun both => by omega
    rw [countEntries,if_neg small,ih (by omega),List.length_cons,UInt64.ofNat_add,UInt64.add_assoc,UInt64.add_comm 1]
    rfl

def rowCount (s : Store) (cf : Cf) : Nat := (s.db cf).size

theorem countCfOk {cf : Cf} {n : UInt64} (h : s.countCfEntries crates cf = .ok n) : n = UInt64.ofNat (s.rowCount cf) := by
  rw [countEntriesOk h,Std.ExtTreeMap.length_toList,UInt64.zero_add]
  rfl

theorem countCfFits {cf : Cf} (fits : s.rowCount cf < 2 ^ 64) :
    s.countCfEntries crates cf = .ok (UInt64.ofNat (s.rowCount cf)) := by
  have few : (0 : UInt64).toNat + (s.db cf).toList.length < 2 ^ 64 := by
    rw [Std.ExtTreeMap.length_toList,UInt64.toNat_zero,Nat.zero_add]
    exact fits
  rw [countCfEntries,countEntriesFits few,Std.ExtTreeMap.length_toList,UInt64.zero_add]
  rfl

end Counting

section Linked

theorem Linked.storedRows (linked : Linked crates content s) :
    ∃ hashes : List Bytes32, hashes.Nodup ∧ (∀ x, x ∈ hashes ↔ s.Stored x) ∧
      s.rowCount .headers = hashes.length ∧ s.rowCount .blocks = hashes.length := by
  have listed : ∀ x, x ∈ (s.db .headers).keys.filterMap Bytes32.ofBytes? ↔ s.Stored x := by
    intro x
    rw [List.mem_filterMap]
    constructor
    · rintro ⟨key,mem,decoded⟩
      rw [Stored,show hashKey x = key from (Bytes32.ofBytesSome decoded).symm]
      exact memKeys.mp mem
    · intro stored
      exact ⟨hashKey x,memKeys.mpr stored,Bytes32.ofBytesBytes x⟩
  have distinct : ((s.db .headers).keys.filterMap Bytes32.ofBytes?).Nodup :=
    (keysNodup _).filterMap fun a b x here there => by
      rw [Bytes32.ofBytesSome here,Bytes32.ofBytesSome there]
  have wide : (((s.db .headers).keys.filterMap Bytes32.ofBytes?).map hashKey).Nodup := distinct.map fun _ _ => hashKeyInj.mp
  refine ⟨_,distinct,listed,?_,?_⟩
  · rw [rowCount,← List.length_map hashKey]
    refine sizeHeld wide fun key => ⟨fun row => ?_,fun mem => ?_⟩
    · obtain ⟨raw,found⟩ := Option.isSome_iff_exists.mp row
      obtain ⟨x,rfl⟩ := linked.filed.keys .headers key raw (.inr rfl) found
      exact List.mem_map_of_mem ((listed x).mpr row)
    · obtain ⟨x,inside,rfl⟩ := List.mem_map.mp mem
      exact (listed x).mp inside
  · rw [rowCount,← List.length_map hashKey]
    refine sizeHeld wide fun key => ⟨fun row => ?_,fun mem => ?_⟩
    · obtain ⟨raw,found⟩ := Option.isSome_iff_exists.mp row
      obtain ⟨x,rfl⟩ := linked.filed.keys .blocks key raw (.inl rfl) found
      exact List.mem_map_of_mem ((listed x).mpr ((linked.whole.paired x).mp row))
    · obtain ⟨x,inside,rfl⟩ := List.mem_map.mp mem
      exact (linked.whole.paired x).mpr ((listed x).mp inside)

theorem Linked.paired (linked : Linked crates content s) : s.rowCount .headers = s.rowCount .blocks := by
  obtain ⟨_,_,_,headers,blocks⟩ := linked.storedRows
  rw [headers,blocks]

theorem sameStored {content' : Bytes32 → L2BlockHeader} (linked : Linked crates content s) (linked' : Linked crates content' t)
    (same : ∀ x, t.Stored x ↔ s.Stored x) : t.rowCount .blocks = s.rowCount .blocks := by
  obtain ⟨hashes,distinct,listed,_,rows⟩ := linked.storedRows
  obtain ⟨hashes',distinct',listed',_,rows'⟩ := linked'.storedRows
  rw [rows,rows']
  exact ((List.perm_ext_iff_of_nodup distinct' distinct).mpr fun x => by rw [listed',listed,same]).length_eq

theorem oneMoreStored {content' : Bytes32 → L2BlockHeader} {x : Bytes32} (linked : Linked crates content s)
    (linked' : Linked crates content' t) (absent : ¬s.Stored x) (more : ∀ y, t.Stored y ↔ y = x ∨ s.Stored y) :
    t.rowCount .blocks = s.rowCount .blocks + 1 := by
  obtain ⟨hashes,distinct,listed,_,rows⟩ := linked.storedRows
  obtain ⟨hashes',distinct',listed',_,rows'⟩ := linked'.storedRows
  have wider : (x :: hashes).Nodup := List.nodup_cons.mpr ⟨fun mem => absent ((listed x).mp mem),distinct⟩
  rw [rows,rows']
  exact ((List.perm_ext_iff_of_nodup distinct' wider).mpr fun y => by rw [listed',more,List.mem_cons,listed]).length_eq

def chainLength (s : Store) : Nat :=
  s.tip.elim 0 fun tip => tip.height.toNat + 1 - s.minRetainedHeightCached.toNat

theorem heightsThroughLength (low high : UInt64) : (heightsThrough low high).length = high.toNat + 1 - low.toNat := by
  simp [heightsThrough]

theorem Linked.chainRows (indexed : Indexed s) (linked : Linked crates content s) : s.rowCount .canonical = s.chainLength := by
  have chain := linked.chain
  cases head : s.tip with
  | none =>
    rw [head] at chain
    rw [chainLength,head,Option.elim_none]
    change (s.db .canonical).size = ([] : List Bytes).length
    refine sizeHeld .nil fun key => iff_of_false (fun row => ?_) (by simp)
    obtain ⟨raw,found⟩ := Option.isSome_iff_exists.mp row
    obtain ⟨h,x,rfl,rfl⟩ := indexed.typed key raw found
    have there := (canonicalRowIff indexed.typed h x).mpr found
    rw [chain.1 h] at there
    cases there
  | some tip =>
    rw [head] at chain
    rw [chainLength,head,Option.elim_some,← heightsThroughLength,← List.length_map heightKey]
    have wide : ((heightsThrough s.minRetainedHeightCached tip.height).map heightKey).Nodup :=
      (heightsThroughNodup ..).map fun _ _ => heightKeyInj.mp
    refine sizeHeld wide fun key => ⟨fun row => ?_,fun mem => ?_⟩
    · obtain ⟨raw,found⟩ := Option.isSome_iff_exists.mp row
      obtain ⟨h,x,rfl,rfl⟩ := indexed.typed key raw found
      obtain ⟨above,below⟩ := chain.spans.inside ((canonicalRowIff indexed.typed h x).mpr found)
      exact List.mem_map_of_mem (memHeightsThrough.mpr ⟨UInt64.le_iff_toNat_le.mpr above,UInt64.le_iff_toNat_le.mpr below⟩)
    · obtain ⟨h,inside,rfl⟩ := List.mem_map.mp mem
      obtain ⟨above,below⟩ := memHeightsThrough.mp inside
      obtain ⟨x,found⟩ := chain.spans.item (UInt64.le_iff_toNat_le.mp above) (UInt64.le_iff_toNat_le.mp below)
      rw [(canonicalRowIff indexed.typed h x).mp found]
      rfl

theorem Linked.aboveLength (linked : Linked crates content s) {tip : ChainTip} {target : UInt64} (head : s.tip = some tip)
    (retained : s.minRetainedHeightCached ≤ target) (next : target.toNat + 1 < 2 ^ 64) :
    (s.canonicalAbove target tip).length = tip.height.toNat - target.toNat := by
  have chain := linked.chain
  rw [head] at chain
  obtain ⟨heights,descends,within,rows⟩ := @canonicalAboveDescends s target tip next
  have distinct : heights.Nodup := descends.imp fun {a b} (higher : a > b) (same : a = b) => by
    subst same
    exact UInt64.lt_irrefl a higher
  have every : heights.Perm (heightsThrough (target + 1) tip.height) :=
    (List.perm_ext_iff_of_nodup distinct (heightsThroughNodup ..)).mpr fun h => by
      rw [within,memAboveTip next,and_congr_right_iff]
      intro above
      refine and_iff_left_of_imp fun below => (chain.spans.span h).mpr ⟨?_,UInt64.le_iff_toNat_le.mp below⟩
      exact Nat.le_of_lt (Nat.lt_of_le_of_lt (UInt64.le_iff_toNat_le.mp retained) (UInt64.lt_iff_toNat_lt.mp above))
  have lengths := congrArg List.length rows
  rw [List.length_map,List.length_map] at lengths
  have exact' : (target + 1).toNat = target.toNat + 1 := by
    rw [UInt64.toNat_add,UInt64.toNat_one]
    exact Nat.mod_eq_of_lt next
  rw [lengths,every.length_eq,heightsThroughLength,exact']
  omega

end Linked

structure Entry where
  stored : Nat
  removed : Nat
  linked : Nat
  unlinked : Nat

def Entry.none : Entry := ⟨0,0,0,0⟩

/- The actions of a linked run with what their answers account for. Genesis writes over its own row,
and a prune unlinks the heights it raises the floor by. -/
inductive Books (crates : Crates) (s : Store) : Entry → Store → Prop where
  | genesis {block : L2Block} {t : Store} (ran : Runs (initGenesis crates block) s (.ok ()) t) :
      Books crates s ⟨if s.hasBlock (block.hash crates) then 0 else 1,0,1,0⟩ t
  | aside {block : L2Block} {added : Bool} {t : Store} (ran : Runs (putBlock crates block false) s (.ok added) t) :
      Books crates s ⟨added.toNat,0,0,0⟩ t
  | extend {block : L2Block} {tip : ChainTip} {added : Bool} {t : Store} (head : s.tip = some tip)
      (up : block.header.parentHash = tip.hash) (next : block.height.toNat = tip.height.toNat + 1)
      (ran : Runs (extendChain crates block) s (.ok added) t) : Books crates s ⟨added.toNat,0,added.toNat,0⟩ t
  | rollback {target : UInt64} {reverted : List Bytes32} {t : Store}
      (ran : Runs (rollbackToHeight target) s (.ok reverted) t) : Books crates s ⟨0,0,0,reverted.length⟩ t
  | reorg {a b : Bytes32} {ancestor top depth : UInt64} {walk : List Bytes32} {result : ReorgResult} {u t : Store}
      (found : Runs (findCommonAncestor crates b depth) s (.ok (some (a,ancestor))) u)
      (steps : ParentWalk crates s a ancestor walk b top) (ran : Runs (applyReorg crates ancestor walk) s (.ok result) t) :
      Books crates s ⟨0,0,result.applied.length,result.reverted.length⟩ t
  | prune {tip : ChainTip} {height : UInt64} {n : Nat} {t : Store} (head : s.tip = some tip) (below : height ≤ tip.height)
      (ran : Runs (pruneBeforeHeight crates height) s (.ok n) t) :
      Books crates s ⟨0,n,0,(heightsBefore s.minRetainedHeightCached height).length⟩ t
  | read {r : Read} {t : Store} (ran : Runs (call crates (.read r)) s (.ok ()) t) : Books crates s .none t
  | reopen {config : BlockStoreConfig} {t : Store} (taken : Takes crates s (.reopen config) t) : Books crates s .none t
  | reopenReadonly {path : String} {t : Store} (taken : Takes crates s (.reopenReadonly path) t) : Books crates s .none t

section Books

theorem discardRan {α : Type} {m : StoreM α} {a : α} (h : Runs m s (.ok a) t) : Runs (discard m) s (.ok ()) t := by
  obtain ⟨script,rest,ran⟩ := h
  exact ⟨script,rest,by simp only [discard,bind,Op.bind,ran]; rfl⟩

theorem Books.takes {entry : Entry} (books : Books crates s entry t) :
    ∃ action, LinkedAction crates s action ∧ Takes crates s action t := by
  cases books with
  | @genesis block _ ran => exact ⟨.call (.initGenesis block),.genesis block,ran⟩
  | @aside block _ _ ran => exact ⟨.call (.putBlock block false),.aside block,discardRan ran⟩
  | @extend block _ _ _ head up next ran => exact ⟨.call (.extendChain block),.extend head up next,discardRan ran⟩
  | @rollback target _ _ ran => exact ⟨.call (.rollbackToHeight target),.rollback target,discardRan ran⟩
  | @reorg _ _ ancestor _ _ walk _ _ _ found steps ran =>
    exact ⟨.call (.applyReorg ancestor walk),.reorg found steps,discardRan ran⟩
  | @prune _ height _ _ head below ran => exact ⟨.call (.pruneBeforeHeight height),.prune head below,discardRan ran⟩
  | @read r _ ran => exact ⟨.call (.read r),.read r,ran⟩
  | @reopen config _ taken => exact ⟨.reopen config,trivial,taken⟩
  | @reopenReadonly path _ taken => exact ⟨.reopenReadonly path,trivial,taken⟩

def Sound (crates : Crates) (s : Store) : Prop := s.Agreed ∧ ∃ content, s.Linked crates content

theorem Sound.step {action : Action} (lawful : crates.Lawful) (sound : s.Sound crates) (guard : LinkedAction crates s action)
    (h : Takes crates s action t) : t.Sound crates := by
  obtain ⟨agreed,linked⟩ := sound
  obtain ⟨coherent,linked'⟩ := takesLinked lawful agreed.indexed agreed.coherent linked guard h
  exact ⟨⟨takesIndexed agreed.indexed h,coherent,takesSeated agreed.indexed agreed.seated h⟩,linked'⟩

end Books

/- The counts before with what was booked, and after. -/
def Balanced (s t : Store) (entry : Entry) : Prop :=
  s.rowCount .blocks + entry.stored = t.rowCount .blocks + entry.removed ∧
    s.chainLength + entry.linked = t.chainLength + entry.unlinked

section Balances

theorem Linked.span (linked : Linked crates content s) {tip : ChainTip} (head : s.tip = some tip) :
    s.minRetainedHeightCached.toNat ≤ tip.height.toNat := by
  have chain := linked.chain
  rw [head] at chain
  exact chain.spans.order

theorem chainLengthSome {tip : ChainTip} (head : s.tip = some tip) :
    s.chainLength = tip.height.toNat + 1 - s.minRetainedHeightCached.toNat := by
  rw [chainLength,head,Option.elim_some]

theorem sameChain (tip : t.tip = s.tip) (floor : t.minRetainedHeightCached = s.minRetainedHeightCached) :
    t.chainLength = s.chainLength := by
  rw [chainLength,tip,floor,chainLength]

theorem sameBlocks {content' : Bytes32 → L2BlockHeader} (lawful : crates.Lawful) (linked : Linked crates content s)
    (linked' : Linked crates content' t) (same : (t.tree crates).blocks = (s.tree crates).blocks) :
    t.rowCount .blocks = s.rowCount .blocks := sameStored linked linked' fun x => by
  rw [← linked'.stored lawful,← linked.stored lawful,same]

theorem addedBlock {content' : Bytes32 → L2BlockHeader} {x : Bytes32} {header : L2BlockHeader} (lawful : crates.Lawful)
    (linked : Linked crates content s) (linked' : Linked crates content' t)
    (more : (t.tree crates).blocks = Function.update (s.tree crates).blocks x (some header)) :
    t.rowCount .blocks = s.rowCount .blocks + if s.hasBlock x then 0 else 1 := by
  have stored : ∀ y, t.Stored y ↔ y = x ∨ s.Stored y := by
    intro y
    rw [← linked'.stored lawful,← linked.stored lawful,more]
    by_cases same : y = x
    · simp [same]
    · simp [same]
  by_cases present : s.Stored x
  · rw [if_pos ((linked.present x).mpr present)]
    exact sameStored linked linked' fun y => (stored y).trans (or_iff_right_of_imp fun same => same ▸ present)
  · rw [if_neg fun has => present ((linked.present x).mp has)]
    exact oneMoreStored linked linked' present stored

theorem genesisBalanced {block : L2Block} (lawful : crates.Lawful) (indexed : Indexed s) (linked : Linked crates content s)
    (linked' : ∃ content', Linked crates content' t) (ran : Runs (initGenesis crates block) s (.ok ()) t) :
    Balanced s t ⟨if s.hasBlock (block.hash crates) then 0 else 1,0,1,0⟩ := by
  obtain ⟨content',linked'⟩ := linked'
  obtain ⟨headless,shift⟩ := initGenesisShift indexed ran
  have chain := linked.chain
  rw [headless] at chain
  have blocks := congrArg Tree.blocks (genesisTree lawful indexed linked ran)
  refine ⟨(addedBlock lawful linked linked' blocks).symm,?_⟩
  rw [chainLengthSome shift.tip,shift.floor,chain.2,chainLength,headless]
  rfl

theorem asideBalanced {block : L2Block} {added : Bool} (lawful : crates.Lawful) (indexed : Indexed s)
    (linked : Linked crates content s) (linked' : ∃ content', Linked crates content' t)
    (ran : Runs (putBlock crates block false) s (.ok added) t) : Balanced s t ⟨added.toNat,0,0,0⟩ := by
  obtain ⟨content',linked'⟩ := linked'
  have tree := asideTree lawful indexed linked ran
  rcases putBlockOk ran with ⟨rfl,rfl,_⟩ | ⟨rfl,compressed,headerBytes,packs,_,trained⟩
  · exact ⟨rfl,rfl⟩
  · have absent : ¬s.Stored (block.hash crates) := fun stored => by
      have row := (linked.whole.paired _).mpr stored
      rw [packs.absent] at row
      cases row
    have shift := (ingestedShift indexed packs.writes block false compressed headerBytes).andQuiet trained.quiet
    rw [HeaderTree.move,Tree.move,if_neg fun row => absent ((linked.stored lawful _).mp row)] at tree
    have more := addedBlock lawful linked linked' (congrArg Tree.blocks tree)
    rw [if_neg fun has => absent ((linked.present _).mp has)] at more
    exact ⟨more.symm,(sameChain shift.tip shift.floor).symm⟩

theorem extendBalanced {block : L2Block} {tip : ChainTip} {added : Bool} (lawful : crates.Lawful) (indexed : Indexed s)
    (linked : Linked crates content s) (linked' : ∃ content', Linked crates content' t) (head : s.tip = some tip)
    (next : block.height.toNat = tip.height.toNat + 1) (ran : Runs (extendChain crates block) s (.ok added) t) :
    Balanced s t ⟨added.toNat,0,added.toNat,0⟩ := by
  obtain ⟨content',linked'⟩ := linked'
  have tree := extendTree lawful indexed linked ran
  rcases extendChainOk ran with ⟨rfl,rfl,_⟩ | ⟨rfl,missing,u,b,putting,_,same⟩
  · exact ⟨rfl,rfl⟩
  · have absent : ¬s.Stored (block.hash crates) := fun row => by
      rw [(linked.present _).mpr row] at missing
      cases missing
    rw [HeaderTree.move,Tree.move,if_neg fun row => absent ((linked.stored lawful _).mp row)] at tree
    have more := addedBlock lawful linked linked' (congrArg Tree.blocks tree)
    rw [if_neg fun has => absent ((linked.present _).mp has)] at more
    have floor : t.minRetainedHeightCached = s.minRetainedHeightCached :=
      UInt64.toNat_inj.mp (congrArg Tree.floor tree)
    have top : t.tip = some ⟨block.hash crates,block.height⟩ := by rw [same]; rfl
    have order := linked.span head
    refine ⟨more.symm,?_⟩
    rw [chainLengthSome top,chainLengthSome head,floor]
    simp only [Bool.toNat_true]
    omega

theorem rollbackBalanced {target : UInt64} {reverted : List Bytes32} (lawful : crates.Lawful) (agreed : Agreed s)
    (linked : Linked crates content s) (linked' : ∃ content', Linked crates content' t)
    (ran : Runs (rollbackToHeight target) s (.ok reverted) t) : Balanced s t ⟨0,0,0,reverted.length⟩ := by
  obtain ⟨content',linked'⟩ := linked'
  obtain ⟨tip,head,_⟩ := @rollbackOk crates _ _ _ _ ran
  obtain ⟨low,below,cut⟩ := rollbackCuts crates agreed head ran
  have chain := linked.chain
  rw [head] at chain
  have order := UInt64.le_iff_toNat_le.mp low
  have blocks : (t.tree crates).blocks = (s.tree crates).blocks := by
    rw [rollbackTree lawful agreed linked ran]
    rfl
  refine ⟨(sameBlocks lawful linked linked' blocks).symm,?_⟩
  rcases UInt64.lt_or_eq_of_le below with under | rfl
  · have next : target.toNat + 1 < 2 ^ 64 := Nat.lt_of_le_of_lt (UInt64.lt_iff_toNat_lt.mp under) tip.height.toNat_lt
    obtain ⟨x,row⟩ := chain.spans.item (h := target) order (UInt64.le_iff_toNat_le.mp below)
    have top := cut.head under
    rw [row] at top
    rw [chainLengthSome top,chainLengthSome head,cut.floor,rollbackReverts crates agreed head next ran,
      linked.aboveLength head low next]
    have higher := UInt64.lt_iff_toNat_lt.mp under
    dsimp only
    omega
  · obtain ⟨heights,_,within,rows⟩ := cut.removed
    have empty : heights = [] := List.eq_nil_iff_forall_not_mem.mpr fun h mem =>
      UInt64.not_lt.mpr ((within h).mp mem).2.1 ((within h).mp mem).1
    rw [empty,List.map_nil,List.map_eq_nil_iff] at rows
    rw [rows]
    exact (sameChain (cut.same rfl) cut.floor).symm

theorem reorgBalanced {a b : Bytes32} {ancestor top depth : UInt64} {walk : List Bytes32} {result : ReorgResult}
    (lawful : crates.Lawful) (agreed : Agreed s) (linked : Linked crates content s)
    (linked' : ∃ content', Linked crates content' t)
    (found : Runs (findCommonAncestor crates b depth) s (.ok (some (a,ancestor))) u)
    (steps : ParentWalk crates s a ancestor walk b top) (ran : Runs (applyReorg crates ancestor walk) s (.ok result) t) :
    Balanced s t ⟨0,0,result.applied.length,result.reverted.length⟩ := by
  obtain ⟨content',linked'⟩ := linked'
  have blocks : (t.tree crates).blocks = (s.tree crates).blocks := by
    rw [reorgTree lawful agreed.indexed linked steps ran]
    rfl
  refine ⟨(sameBlocks lawful linked linked' blocks).symm,?_⟩
  obtain ⟨plan,v,planned,fits,_,rfl,rfl⟩ := applyReorgOk ran
  have shift := applyReorgShift agreed.indexed planned fits
  have walk' := steps.walk lawful linked.filed
  have risen := walk'.rises
  have longer := List.length_pos_iff.mpr planned.some
  have bound := top.toNat_lt
  have answer := ancestorWalkFound agreed.indexed agreed.coherent found
  have low : s.minRetainedHeightCached ≤ ancestor := by
    by_contra under
    rw [canonicalAnswer,if_pos (UInt64.not_le.mp under)] at answer
    cases answer
  rw [canonicalAnswerAbove low] at answer
  have chain := linked.chain
  rw [planned.head] at chain
  obtain ⟨order,below⟩ := chain.spans.inside answer
  have tip := shift.tip
  rw [planned.newTip lawful linked.filed walk'] at tip
  rw [chainLengthSome tip,chainLengthSome planned.head,shift.floor,
    reorgReverts agreed planned.head low (by omega) ran,linked.aboveLength planned.head low (by omega)]
  dsimp only
  omega

theorem pruneBalanced {tip : ChainTip} {height : UInt64} {n : Nat} (lawful : crates.Lawful) (agreed : Agreed s)
    (linked : Linked crates content s) (head : s.tip = some tip) (below : height ≤ tip.height)
    (ran : Runs (pruneBeforeHeight crates height) s (.ok n) t) :
    Balanced s t ⟨0,n,0,(heightsBefore s.minRetainedHeightCached height).length⟩ := by
  have span : (heightsBefore s.minRetainedHeightCached height).length = height.toNat - s.minRetainedHeightCached.toNat := by
    simp [heightsBefore]
  rcases pruneRuns agreed.indexed ran with ⟨⟨e,bad⟩,_⟩ | ⟨_,low,zero,rfl⟩ | ⟨plan,u,pruning,count,rfl⟩
  · cases bad
  · cases zero
    refine ⟨rfl,?_⟩
    have order := UInt64.le_iff_toNat_le.mp low
    dsimp only
    rw [span]
    omega
  · cases count
    have shift := pruneShift agreed.indexed pruning
    have retains := linked.retains agreed.coherent tip head
    refine ⟨(pruning.counts retains).mpr fun x mem => ?_,?_⟩
    · exact (linked.whole.paired x).mpr ((pruning.lists lawful linked.filed retains).mp mem).1
    · have raised := UInt64.lt_iff_toNat_lt.mp pruning.above
      have under := UInt64.le_iff_toNat_le.mp below
      rw [chainLengthSome (shift.tip.trans head),chainLengthSome head,shift.floor,span]
      dsimp only
      omega

theorem Books.balanced {entry : Entry} (lawful : crates.Lawful) (sound : s.Sound crates) (books : Books crates s entry t) :
    t.Sound crates ∧ Balanced s t entry := by
  obtain ⟨action,guard,taken⟩ := books.takes
  have sound' := sound.step lawful guard taken
  refine ⟨sound',?_⟩
  obtain ⟨agreed,content,linked⟩ := sound
  obtain ⟨agreed',linked'⟩ := sound'
  cases books with
  | genesis ran => exact genesisBalanced lawful agreed.indexed linked linked' ran
  | aside ran => exact asideBalanced lawful agreed.indexed linked linked' ran
  | extend head up next ran => exact extendBalanced lawful agreed.indexed linked linked' head next ran
  | rollback ran => exact rollbackBalanced lawful agreed linked linked' ran
  | reorg found steps ran => exact reorgBalanced lawful agreed linked linked' found steps ran
  | prune head below ran => exact pruneBalanced lawful agreed linked head below ran
  | @read r _ ran =>
    have touched := readTouched ran
    exact ⟨by rw [rowCount,rowCount,touched.db]; rfl,(sameChain touched.tip touched.floor).symm⟩
  | reopen taken =>
    obtain ⟨disk,run⟩ := taken
    obtain ⟨_,u,booted,touched⟩ := openStoreOk run
    obtain ⟨_,db,tip,floor,_⟩ := bootedIndexed agreed.indexed.typed agreed.indexed.tipRow booted
    refine ⟨by rw [rowCount,rowCount,touched.db,db]; rfl,(sameChain (touched.tip.trans tip) (touched.floor.trans ?_)).symm⟩
    rw [floor,agreed.indexed.floorRow]
  | reopenReadonly taken =>
    obtain ⟨disk,run⟩ := taken
    obtain ⟨_,booted⟩ := openReadonlyOk run
    obtain ⟨_,db,tip,floor,_⟩ := bootedIndexed agreed.indexed.typed agreed.indexed.tipRow booted
    refine ⟨by rw [rowCount,rowCount,db]; rfl,(sameChain tip ?_).symm⟩
    rw [floor,agreed.indexed.floorRow]

end Balances

/- What the counts of a linked store tell of it. -/
structure Reports (s : Store) (report : StorageStats) : Prop where
  tip : report.tipHeight = s.tip.map ChainTip.height
  floor : report.minHeight.getD 0 = s.minRetainedHeightCached
  blocks : ∃ hashes : List Bytes32, hashes.Nodup ∧ (∀ x, x ∈ hashes ↔ s.hasBlock x = true) ∧
    report.blockCount = UInt64.ofNat hashes.length ∧ report.headerCount = UInt64.ofNat hashes.length
  chain : ∀ tip, s.tip = some tip → report.canonicalBlockCount = tip.height - s.minRetainedHeightCached + 1
  bare : s.tip = none → report.canonicalBlockCount = 0

section FloorRow

def Floored (db : Db) : Prop := ∃ low, readMinRetainedHeight db = .ok low

def OffFloor (cf : Cf) (key : Bytes) : Prop := ¬(cf = .metadata ∧ key = metaMinHeight)

theorem Untouched.floored (untouched : Untouched OffFloor s t) (floored : Floored s.db) : Floored t.db := by
  have same := untouched .metadata metaMinHeight fun off => off ⟨rfl,rfl⟩
  rwa [Floored,readMinRetainedHeight,same]

theorem trainingOff {cf : Cf} {key : Bytes} (training : Training cf key) : OffFloor cf key := by
  obtain ⟨rfl,rfl⟩ := training
  simp [OffFloor]

theorem switchedOff {cf : Cf} {key : Bytes} (switched : Switched cf key) : OffFloor cf key := by
  rcases switched with rfl | ⟨rfl,rfl⟩
  · simp [OffFloor]
  · simp [OffFloor]

theorem putOff (block : L2Block) (canonical : Bool) : Within (Untouched OffFloor) (putBlock crates block canonical) :=
  putBlockWithin (fun s compressed headerBytes _ cf key out => by
      obtain ⟨rfl,rfl⟩ := not_not.mp out
      exact @metadataPutRows crates block canonical compressed headerBytes s.db metaMinHeight)
    ((tailWithin block canonical).mono fun _ _ same => same.widen fun _ _ => trainingOff)

theorem genesisOff {block : L2Block} {r : Exit Unit} (ran : Runs (initGenesis crates block) s r t) : Untouched OffFloor s t := by
  rcases initGenesisRuns ran with rfl | ⟨compressed,headerBytes,_,_,_,tail⟩
  · exact refl_of _ _
  · refine trans_of _ (untouchedCommit fun write mem cf key out => ?_)
      ((genesisTailWithin block _ _ _ tail).widen fun _ _ => trainingOff)
    obtain ⟨rfl,rfl⟩ := not_not.mp out
    rcases List.mem_append.mp mem with body | rest
    · exact (asideBodyRows _ _ _ write body).2.2
    · simp only [List.mem_cons,List.not_mem_nil,or_false] at rest
      rcases rest with rfl | rfl | rfl
      · exact metadataCanonicalRow _ _ _
      · simp [effectPut]
      · simp [effectPut]

theorem Books.floored {entry : Entry} (sound : s.Sound crates) (floored : Floored s.db) (books : Books crates s entry t) :
    Floored t.db := by
  have indexed := sound.1.indexed
  cases books with
  | genesis ran => exact (genesisOff ran).floored floored
  | @aside block _ _ ran => exact (putOff block false _ _ _ ran).floored floored
  | @extend block _ _ _ _ _ _ ran =>
    have head (tip : ChainTip) : Within (Untouched OffFloor) (setTip tip) :=
      (setTipWithin tip).mono fun _ _ same => same.widen fun _ _ => switchedOff
    exact (extendChainWithin (putOff block true) head _ _ _ ran).floored floored
  | @rollback target _ _ ran => exact ((rollbackWithin crates target _ _ _ ran).widen fun _ _ => switchedOff).floored floored
  | @reorg _ _ ancestor _ _ walk _ _ _ _ _ ran =>
    exact ((applyReorgWithin ancestor walk _ _ _ ran).widen fun _ _ => switchedOff).floored floored
  | @prune _ height _ _ _ _ ran =>
    rcases pruneRuns indexed ran with ⟨⟨e,bad⟩,_⟩ | ⟨_,_,_,rfl⟩ | ⟨plan,u,pruning,_,rfl⟩
    · cases bad
    · exact floored
    · rw [prunedDb]
      have eight : (toLeBytes height).length = 8 := by simp [toLeBytes]
      exact ⟨some height,by simp only [readMinRetainedHeight,floorRowPrune,if_pos eight,fromLeBytesToLeBytes]⟩
  | read ran => rwa [(readTouched ran).db]
  | reopen taken =>
    obtain ⟨disk,run⟩ := taken
    obtain ⟨_,u,booted,touched⟩ := openStoreOk run
    rwa [touched.db,(bootedIndexed indexed.typed indexed.tipRow booted).2.1]
  | reopenReadonly taken =>
    obtain ⟨disk,run⟩ := taken
    obtain ⟨_,booted⟩ := openReadonlyOk run
    rwa [(bootedIndexed indexed.typed indexed.tipRow booted).2.1]

end FloorRow

section Reporting

theorem statsOk {report : StorageStats} (h : s.stats crates estimate = .ok report) :
    report.blockCount = UInt64.ofNat (s.rowCount .blocks) ∧ report.canonicalBlockCount = UInt64.ofNat (s.rowCount .canonical) ∧
      report.headerCount = UInt64.ofNat (s.rowCount .headers) ∧ report.tipHeight = s.tip.map ChainTip.height ∧
      readMinRetainedHeight s.db = .ok report.minHeight := by
  obtain ⟨blocks,counted,h⟩ := exitBindOk h
  obtain ⟨rows,chain,h⟩ := exitBindOk h
  obtain ⟨headers,counted',h⟩ := exitBindOk h
  obtain ⟨_,_,h⟩ := exitBindOk h
  obtain ⟨_,_,h⟩ := exitBindOk h
  obtain ⟨low,floor,h⟩ := exitBindOk h
  obtain ⟨_,_,h⟩ := exitBindOk h
  cases h
  refine ⟨countCfOk counted,countCfOk chain,countCfOk counted',rfl,?_⟩
  cases read : readMinRetainedHeight s.db with
  | error e => rw [read] at floor; cases floor
  | ok found => rw [read] at floor; cases floor; rfl

theorem sumEstimatesOk (answers : ∀ cf, ∃ v, estimate cf = .ok v) (cfs : List Cf) (sum : UInt64) :
    ∃ total, sumEstimates estimate cfs sum = .ok total := by
  induction cfs generalizing sum with
  | nil => exact ⟨sum,rfl⟩
  | cons cf rest ih =>
    obtain ⟨v,answer⟩ := answers cf
    cases v with
    | none => simpa [sumEstimates,answer] using ih sum
    | some v => simpa [sumEstimates,answer] using ih (saturatingAdd sum v)

theorem statsAnswers (fits : ∀ cf, s.rowCount cf < 2 ^ 64) (floor : ∃ low, readMinRetainedHeight s.db = .ok low)
    (answers : ∀ cf, ∃ v, estimate cf = .ok v) : ∃ report, s.stats crates estimate = .ok report := by
  obtain ⟨low,read⟩ := floor
  obtain ⟨total,sum⟩ := sumEstimatesOk answers [.blocks,.headers,.canonical,.metadata,.attested,.checkpoints] 0
  have counted (cf : Cf) := @countCfFits crates s cf (fits cf)
  exact ⟨_,by
    simp only [stats,counted,read,sumCfLiveDataSizeEstimates,sum]
    rfl⟩

theorem Sound.reports {report : StorageStats} (sound : s.Sound crates) (h : s.stats crates estimate = .ok report) :
    s.Reports report := by
  obtain ⟨agreed,content,linked⟩ := sound
  obtain ⟨blocks,chain,headers,tip,floor⟩ := statsOk h
  obtain ⟨hashes,distinct,listed,rows,rows'⟩ := linked.storedRows
  have length := linked.chainRows agreed.indexed
  exact {
    tip := tip
    floor := by
      rw [← agreed.indexed.floorRow,loadFloor,floor]
      cases report.minHeight with
      | none => rfl
      | some low => rfl
    blocks := ⟨hashes,distinct,fun x => (listed x).trans (linked.present x).symm,rows' ▸ blocks,rows ▸ headers⟩
    chain := fun top head => by
      have order := linked.span head
      rw [chain,length,chainLengthSome head,Nat.sub_add_comm order,UInt64.ofNat_add,UInt64.ofNat_sub order,
        UInt64.ofNat_toNat,UInt64.ofNat_toNat]
      rfl
    bare := fun head => by
      rw [chain,length,chainLength,head]
      rfl }

end Reporting

section Runs

theorem openedDb (opened : Opened crates s) : s.db = fun _ => ∅ := by
  obtain ⟨config,file,disk,run⟩ := opened
  obtain ⟨_,u,booted,touched⟩ := openStoreOk run
  have bare := (openedIndexed (createdOpened crates config)).1
  rw [touched.db]
  exact (bootedIndexed bare.typed bare.tipRow booted).2.1

theorem openedTip (opened : Opened crates s) : s.tip = none := by
  have tree := congrArg Tree.head (openedTree opened)
  exact Option.map_eq_none_iff.mp tree

end Runs

end Store

/- Over a linked run the counts are what the answers of its calls add up to. -/
theorem countsAddUp {crates : Crates} {start s : Store} {entries : List Store.Entry} (lawful : crates.Lawful)
    (opened : Opened crates start) (run : Run (Store.Books crates) start entries s)
    {estimate : Cf → Except String (Option UInt64)} :
    (∀ report, s.stats crates estimate = .ok report → s.Reports report ∧
      report.blockCount + UInt64.ofNat (entries.map Store.Entry.removed).sum =
        UInt64.ofNat (entries.map Store.Entry.stored).sum ∧
      report.canonicalBlockCount + UInt64.ofNat (entries.map Store.Entry.unlinked).sum =
        UInt64.ofNat (entries.map Store.Entry.linked).sum) ∧
      ((∀ cf, s.rowCount cf < 2 ^ 64) → (∀ cf, ∃ v, estimate cf = .ok v) →
        ∃ report, s.stats crates estimate = .ok report) := by
  have bare := Store.openedDb opened
  have floored : Store.Floored start.db := by
    rw [bare]
    exact ⟨none,rfl⟩
  have sound : start.Sound crates ∧ Store.Floored start.db :=
    ⟨reachesLinked lawful ⟨start,[],opened,.nil start⟩,floored⟩
  have step (s : Store) (entry : Store.Entry) (t : Store) (known : s.Sound crates ∧ Store.Floored s.db)
      (books : s.Books crates entry t) : (t.Sound crates ∧ Store.Floored t.db) ∧ s.Balanced t entry :=
    have balanced := books.balanced lawful known.1
    ⟨⟨balanced.1,books.floored known.1 known.2⟩,balanced.2⟩
  obtain ⟨⟨sound',floored'⟩,blocks⟩ := run.tallied sound fun s entry t known books =>
    ⟨(step s entry t known books).1,(step s entry t known books).2.1⟩
  obtain ⟨_,chain⟩ := run.tallied sound fun s entry t known books =>
    ⟨(step s entry t known books).1,(step s entry t known books).2.2⟩
  have none' : start.rowCount .blocks = 0 := by rw [Store.rowCount,bare]; rfl
  have unlinked : start.chainLength = 0 := by rw [Store.chainLength,Store.openedTip opened]; rfl
  rw [none',Nat.zero_add] at blocks
  rw [unlinked,Nat.zero_add] at chain
  refine ⟨fun report asked => ?_,fun fits answers => Store.statsAnswers fits floored' answers⟩
  obtain ⟨counted,counted',_⟩ := Store.statsOk asked
  obtain ⟨agreed,content,linked⟩ := id sound'
  refine ⟨sound'.reports asked,?_,?_⟩
  · rw [counted,← UInt64.ofNat_add,blocks]
  · rw [counted',linked.chainRows agreed.indexed,← UInt64.ofNat_add,chain]

namespace Sample

def audited0 : Store := .created config

def audited1 : Store := (Store.initGenesis crates (block 0 0 1) ⟨audited0,[]⟩).2.state

def audited2 : Store := (Store.extendChain crates (block 1 1 2) ⟨audited1,[]⟩).2.state

def audited3 : Store := (Store.extendChain crates (block 2 2 3) ⟨audited2,[]⟩).2.state

def audited4 : Store := (Store.putBlock crates (block 1 1 4) false ⟨audited3,[]⟩).2.state

def audited : Store := (Store.rollbackToHeight 1 ⟨audited4,[]⟩).2.state

theorem auditedRun : ∃ entries, Run (Store.Books crates) audited0 entries audited :=
  ⟨_,.cons (.genesis (Store.ranHere (by decide +kernel)))
    (.cons (@Store.Books.extend crates audited1 (block 1 1 2) ⟨hash 1,0⟩ true _ (by decide +kernel) (by decide) (by decide)
      (Store.ranHere (by decide +kernel)))
    (.cons (@Store.Books.extend crates audited2 (block 2 2 3) ⟨hash 2,1⟩ true _ (by decide +kernel) (by decide) (by decide)
      (Store.ranHere (by decide +kernel)))
    (.cons (@Store.Books.aside crates audited3 (block 1 1 4) true _ (Store.ranHere (by decide +kernel)))
    (.cons (@Store.Books.rollback crates audited4 1 [hash 3] _ (Store.ranHere (by decide +kernel))) (.nil _)))))⟩

def auditedStats : StorageStats := ⟨4,2,4,0,0,some 1,none,0⟩

theorem auditedReport : audited.stats crates (fun _ => .ok none) = .ok auditedStats := by decide +kernel

end Sample

theorem countsAddUpSample : ∃ entries, Run (Store.Books Sample.crates) Sample.audited0 entries Sample.audited ∧
    Sample.auditedStats.blockCount + UInt64.ofNat (entries.map Store.Entry.removed).sum =
      UInt64.ofNat (entries.map Store.Entry.stored).sum :=
  have ⟨entries,run⟩ := Sample.auditedRun
  ⟨entries,run,((countsAddUp Sample.lawful (Store.createdOpened Sample.crates Sample.config) run).1 _ Sample.auditedReport).2.1⟩

end DigBlockstore
