import DigBlockstore.Trees
import DigBlockstore.ReorgMoments
import DigBlockstore.Library.Crown

/-! The tip as the head of the canonical rows, over runs with blocks of any height. Which calls keep it
so is a condition on the call and the store before it. -/
namespace DigBlockstore
open ByteCodec Faulty ColumnStore PartialMap Trace ChainCrown
namespace Store
variable {crates : Crates} {s t u : Store} {content : Bytes32 → L2BlockHeader}

/- The tip names the highest canonical row, or there is no tip and there are no rows. -/
def Heads (s : Store) : Prop :=
  Crowned UInt64.toNat (canonicalAt s.db) s.minRetainedHeightCached (s.tip.map fun tip => (tip.height,tip.hash))

def Rising (crates : Crates) (s : Store) (hashes : List Bytes32) : Prop :=
  ∃ headers : List L2BlockHeader, hashes.map (s.headerAt crates) = headers.map some ∧
    headers.Pairwise fun a b => a.height < b.height

/- With the height cache off no other hash is left in it where a new block goes. -/
def Vacant (crates : Crates) (s : Store) (block : L2Block) : Prop :=
  s.hasBlock (block.hash crates) = false → s.canonicalHeightCacheCapacity = 0 → s.minRetainedHeightCached ≤ block.height →
    ∀ x, s.canonicalHeightCache[block.height]? = some x → x = block.hash crates

/- The calls that move the chain, with blocks and targets of any height, and reads. A genesis block stands
for no other stored one, and an extension for no hash that a reorg left behind in a cache that is off. -/
inductive HeadCall (crates : Crates) (s : Store) : Call → Prop where
  | read (r : Read) : HeadCall crates s (.read r)
  | genesis {block : L2Block} (own : Unclaimed crates s block) : HeadCall crates s (.initGenesis block)
  | aside (block : L2Block) : HeadCall crates s (.putBlock block false)
  | extend {block : L2Block} (vacant : s.Vacant crates block) : HeadCall crates s (.extendChain block)
  | rollback (target : UInt64) : HeadCall crates s (.rollbackToHeight target)
  | reorg {ancestor : UInt64} {hashes : List Bytes32} (rising : s.Rising crates hashes) :
      HeadCall crates s (.applyReorg ancestor hashes)
  | prune (height : UInt64) : HeadCall crates s (.pruneBeforeHeight height)

/- The calls that leave the tip at the head. -/
def KeepsHead (crates : Crates) (s : Store) : Call → Prop
  | .initGenesis _ => s.minRetainedHeightCached = 0
  | .extendChain block => s.hasBlock (block.hash crates) = false →
      (s.tip = none → s.minRetainedHeightCached ≤ block.height) ∧ ∀ tip, s.tip = some tip → tip.height ≤ block.height
  | .rollbackToHeight target => (canonicalAt s.db target).isSome
  | .applyReorg ancestor hashes => ∀ tip header, s.tip = some tip → hashes.getLast?.bind (s.headerAt crates) = some header →
      s.minRetainedHeightCached ≤ header.height ∧
        ∀ h, header.height < h → (canonicalAt s.db h).isSome → h ∈ heightsThrough (ancestor + 1) tip.height
  | .pruneBeforeHeight height => ∀ tip, s.tip = some tip → height ≤ tip.height
  | _ => True

section Steps

theorem Heads.bare (heads : Heads s) (head : s.tip = none) (h : UInt64) : canonicalAt s.db h = none := by
  unfold Heads at heads
  rw [head] at heads
  exact heads h

theorem Heads.crown {tip : ChainTip} (heads : Heads s) (head : s.tip = some tip) :
    Crown UInt64.toNat (canonicalAt s.db) s.minRetainedHeightCached tip.height tip.hash := by
  unfold Heads at heads
  rw [head] at heads
  exact heads

theorem headsSome {tip : ChainTip} (head : t.tip = some tip) :
    Heads t ↔ Crown UInt64.toNat (canonicalAt t.db) t.minRetainedHeightCached tip.height tip.hash := by
  rw [Heads,head]
  rfl

theorem headsSame (rows : canonicalAt t.db = canonicalAt s.db) (tip : t.tip = s.tip)
    (floor : t.minRetainedHeightCached = s.minRetainedHeightCached) : Heads t ↔ Heads s := by
  rw [Heads,rows,tip,floor,Heads]

theorem genesisHeads {block : L2Block} {v : Unit} (indexed : Indexed s) (heads : Heads s)
    (h : Runs (initGenesis crates block) s (.ok v) t) : Heads t ↔ s.minRetainedHeightCached = 0 := by
  obtain ⟨headless,shift⟩ := initGenesisShift indexed h
  rw [headsSome shift.tip,shift.rows,shift.floor,Crown.first (heads.bare headless)]
  exact UInt64.le_iff_toNat_le.symm.trans UInt64.le_zero_iff

theorem extendHeads {block : L2Block} {added : Bool} (indexed : Indexed s) (heads : Heads s)
    (h : Runs (extendChain crates block) s (.ok added) t) : Heads t ↔ KeepsHead crates s (.extendChain block) := by
  rcases extendChainShift indexed h with ⟨_,rfl,present⟩ | ⟨_,absent,shift⟩
  · exact iff_of_true heads fun missing => by
      rw [present] at missing
      cases missing
  · have rows : canonicalAt t.db = Function.update (canonicalAt s.db) block.height (some (block.hash crates)) := shift.rows
    rw [headsSome shift.tip,rows,shift.floor,KeepsHead,forall_prop_of_true absent]
    cases head : s.tip with
    | none =>
      rw [Crown.first (heads.bare head)]
      simp [UInt64.le_iff_toNat_le]
    | some tip =>
      rw [(heads.crown head).put]
      simp [UInt64.le_iff_toNat_le]

theorem rollbackHeads (crates : Crates) {target : UInt64} {reverted : List Bytes32} (agreed : Agreed s) (heads : Heads s)
    (h : Runs (rollbackToHeight target) s (.ok reverted) t) : Heads t ↔ (canonicalAt s.db target).isSome := by
  obtain ⟨tip,head,_⟩ := @rollbackOk crates _ _ _ _ h
  obtain ⟨low,below,cut⟩ := rollbackCuts crates agreed head h
  have crown := heads.crown head
  have rows : ∀ h, canonicalAt t.db h =
      if target.toNat < h.toNat ∧ h.toNat ≤ tip.height.toNat then none else canonicalAt s.db h := cut.rows
  rcases UInt64.lt_or_eq_of_le below with under | rfl
  · cases row : canonicalAt s.db target with
    | none =>
      have top := cut.head under
      rw [row] at top
      rw [headsSome (top.trans head),cut.floor]
      exact iff_of_false (Crown.notCut (UInt64.lt_iff_toNat_lt.mp under) rows) (by simp)
    | some x =>
      have top := cut.head under
      rw [row] at top
      rw [headsSome top,cut.floor]
      exact iff_of_true (crown.cut (UInt64.le_iff_toNat_le.mp low) row rows) rfl
  · rw [crown.row]
    refine iff_of_true ?_ rfl
    rw [headsSame (funext fun h => ?_) (cut.same rfl) cut.floor]
    · exact heads
    · rw [cut.rows,if_neg fun between => UInt64.not_lt.mpr between.2 between.1]

theorem Rising.heights {hashes : List Bytes32} (lawful : crates.Lawful) (filed : Filed crates content s)
    (rising : s.Rising crates hashes) : hashes.Pairwise fun x y => (content x).height < (content y).height := by
  obtain ⟨headers,held,rises⟩ := rising
  have same : headers = hashes.map content := by
    have found : headers.map some = (hashes.map content).map some := by
      rw [← held,List.map_map]
      refine List.map_congr_left fun x mem => ?_
      have row : s.headerAt crates x ∈ headers.map some := held ▸ List.mem_map_of_mem mem
      obtain ⟨header,_,same⟩ := List.mem_map.mp row
      rw [filed.headerAt lawful] at same ⊢
      split at same
      · rename_i stored
        rw [if_pos stored]
        rfl
      · cases same
    exact List.map_injective_iff.mpr (Option.some_injective _) found
  rw [same,List.pairwise_map] at rises
  exact rises

theorem reorgHeads {ancestor : UInt64} {hashes : List Bytes32} {result : ReorgResult} (lawful : crates.Lawful)
    (indexed : Indexed s) (filed : Filed crates content s) (rising : s.Rising crates hashes)
    (h : Runs (applyReorg crates ancestor hashes) s (.ok result) t) :
    Heads t ↔ KeepsHead crates s (.applyReorg ancestor hashes) := by
  obtain ⟨plan,u,planned,fits,_,_,rfl⟩ := applyReorgOk h
  have shift := applyReorgShift indexed planned fits
  obtain ⟨rows,top⟩ := planned.heightsOf lawful filed
  have climbs := rising.heights lawful filed
  have unique : ((rowsOf plan.records).map Prod.fst).Nodup := by
    rw [rows,List.map_map]
    refine List.nodup_iff_pairwise_ne.mpr (List.pairwise_map.mpr (climbs.imp fun {x y} lower same => ?_))
    exact UInt64.lt_irrefl _ (lower.trans_eq same.symm)
  obtain ⟨before,split⟩ := List.getLast?_eq_some_iff.mp planned.last
  have member : plan.newTip.hash ∈ hashes := List.mem_of_getLast? planned.last
  rw [planned.last,Option.map_some,Option.getD_some] at top
  have last : lastRow (rowsOf plan.records) plan.newTip.height = some plan.newTip.hash := by
    refine lastRowUnique unique ?_
    rw [rows,top]
    exact List.mem_map_of_mem member
  have highest : ∀ h z, lastRow (rowsOf plan.records) h = some z → h.toNat ≤ plan.newTip.height.toNat := by
    intro h z row
    have mem := lastRowMem row
    rw [rows] at mem
    obtain ⟨y,inside,same⟩ := List.mem_map.mp mem
    cases same
    rw [top]
    rw [split,List.pairwise_append] at climbs
    rw [split] at inside
    rcases List.mem_append.mp inside with earlier | own
    · exact Nat.le_of_lt (UInt64.lt_iff_toNat_lt.mp (climbs.2.2 _ earlier _ (by simp)))
    · rw [List.mem_singleton.mp own]
  have held : hashes.getLast?.bind (s.headerAt crates) = some (content plan.newTip.hash) := by
    rw [planned.last,Option.bind_some]
    obtain ⟨headers,same,_⟩ := rising
    have row : s.headerAt crates plan.newTip.hash ∈ headers.map some := same ▸ List.mem_map_of_mem member
    obtain ⟨header,_,found⟩ := List.mem_map.mp row
    rw [← found]
    exact congrArg some ((filed.knows lawful (.inr (.inl found.symm))))
  have crowned := @Crown.replace UInt64 Bytes32 UInt64.toNat (canonicalAt s.db) s.minRetainedHeightCached _ _ _
    plan.heights _ last highest
  rw [headsSome shift.tip,shift.rows,shift.floor,ReorgPlan.index,crowned,planned.heights,KeepsHead]
  constructor
  · intro both tip header head found
    rw [planned.head] at head
    rw [held] at found
    cases head
    cases found
    rw [← top,UInt64.le_iff_toNat_le]
    exact ⟨both.1,fun h above => both.2 h (UInt64.lt_iff_toNat_lt.mp above)⟩
  · intro keeps
    obtain ⟨floor,erased⟩ := keeps plan.tip _ planned.head held
    rw [← top] at floor erased
    exact ⟨UInt64.le_iff_toNat_le.mp floor,fun h above => erased h (UInt64.lt_iff_toNat_lt.mpr above)⟩

theorem pruneHeads {height : UInt64} {n : Nat} (indexed : Indexed s) (heads : Heads s)
    (h : Runs (pruneBeforeHeight crates height) s (.ok n) t) : Heads t ↔ KeepsHead crates s (.pruneBeforeHeight height) := by
  rcases pruneRuns indexed h with ⟨⟨e,bad⟩,_⟩ | ⟨_,low,_,rfl⟩ | ⟨plan,u,pruning,_,rfl⟩
  · cases bad
  · exact iff_of_true heads fun tip head =>
      UInt64.le_trans low (UInt64.le_iff_toNat_le.mpr (heads.crown head).floor)
  · have shift := pruneShift indexed pruning
    cases head : s.tip with
    | none =>
      refine iff_of_true ?_ fun tip some' => by rw [head] at some'; cases some'
      rw [Heads,shift.tip,head,shift.rows]
      intro h
      rw [eraseAll,heads.bare head,ite_self]
    | some tip =>
      have raised : Crown UInt64.toNat (eraseAll (heightsBefore s.minRetainedHeightCached height) (canonicalAt s.db)) height
          tip.height tip.hash ↔ height.toNat ≤ tip.height.toNat :=
        (heads.crown head).raise fun h mem => UInt64.lt_iff_toNat_lt.mp (memHeightsBefore.mp mem).2
      rw [headsSome (shift.tip.trans head),shift.rows,shift.floor,raised]
      simp [KeepsHead,head,UInt64.le_iff_toNat_le]

end Steps

section Runs

def Kept (crates : Crates) (s : Store) : Prop := s.Agreed ∧ ∃ content, s.Housed crates content

theorem headUnshadowed {c : Call} (coherent : Coherent s) (indexed : Indexed s) (heads : Heads s) (headCall : HeadCall crates s c)
    {v : Unit} (h : Runs (call crates c) s (.ok v) t) : s.Unshadowed crates c := by
  intro rows behind k x y low last cached
  cases headCall with
  | @genesis block own =>
    have row := coherent k x low cached
    rw [heads.bare (initGenesisShift indexed h).1 k] at row
    cases row
  | extend vacant =>
    cases behind with
    | extend off absent =>
      cases List.mem_singleton.mp (lastRowMem last)
      exact vacant absent off low x cached
  | read => cases behind
  | aside => cases behind
  | rollback => cases behind
  | reorg => cases behind
  | prune => cases behind

theorem Kept.step {c : Call} {v : Unit} (lawful : crates.Lawful) (kept : s.Kept crates) (heads : Heads s)
    (headCall : HeadCall crates s c) (h : Runs (call crates c) s (.ok v) t) : t.Kept crates := by
  obtain ⟨agreed,content,housed⟩ := kept
  have unshadowed := headUnshadowed agreed.coherent agreed.indexed heads headCall h
  refine ⟨⟨callIndexed agreed.indexed h,callCoherent agreed.indexed agreed.coherent unshadowed h,
    callSeated agreed.indexed agreed.seated h⟩,callHoused lawful agreed.indexed housed ?_ h⟩
  cases headCall with
  | genesis own => exact own
  | _ => trivial

theorem callHeads {c : Call} {v : Unit} (lawful : crates.Lawful) (kept : s.Kept crates) (heads : Heads s)
    (headCall : HeadCall crates s c) (h : Runs (call crates c) s (.ok v) t) : Heads t ↔ KeepsHead crates s c := by
  obtain ⟨agreed,content,housed⟩ := kept
  cases headCall with
  | read r =>
    have touched := readTouched h
    have same : Heads t ↔ Heads s := headsSame (by rw [touched.db]) touched.tip touched.floor
    exact iff_of_true (same.mpr heads) trivial
  | genesis own => exact genesisHeads agreed.indexed heads h
  | aside block =>
    obtain ⟨added,run⟩ := discardOk h
    rcases putBlockShift agreed.indexed run with ⟨_,rfl⟩ | ⟨_,_,shift⟩
    · exact iff_of_true heads trivial
    · have same : Heads t ↔ Heads s := headsSame shift.rows shift.tip shift.floor
      exact iff_of_true (same.mpr heads) trivial
  | extend =>
    obtain ⟨added,run⟩ := discardOk h
    exact extendHeads agreed.indexed heads run
  | rollback target =>
    obtain ⟨reverted,run⟩ := discardOk h
    exact rollbackHeads crates agreed heads run
  | reorg rising =>
    obtain ⟨result,run⟩ := discardOk h
    exact reorgHeads lawful agreed.indexed housed.filed rising run
  | prune height =>
    obtain ⟨n,run⟩ := discardOk h
    exact pruneHeads agreed.indexed heads run

end Runs

end Store

def HeadAction (crates : Crates) (s : Store) : Action → Prop
  | .call c => s.HeadCall crates c ∧ s.KeepsHead crates c
  | .reopen _ | .reopenReadonly _ => True

theorem takesHeads {crates : Crates} {s t : Store} {action : Action} (lawful : crates.Lawful) (both : s.Kept crates ∧ s.Heads)
    (guard : HeadAction crates s action) (h : Takes crates s action t) : t.Kept crates ∧ t.Heads := by
  obtain ⟨kept,heads⟩ := both
  obtain ⟨agreed,housed⟩ := kept
  have indexed := agreed.indexed
  cases action with
  | call c => exact ⟨Store.Kept.step lawful ⟨agreed,housed⟩ heads guard.1 h,
      (Store.callHeads lawful ⟨agreed,housed⟩ heads guard.1 h).mpr guard.2⟩
  | reopen config =>
    refine ⟨⟨⟨takesIndexed indexed h,@takesCoherent crates s t (.reopen config) indexed agreed.coherent trivial h,
      takesSeated indexed agreed.seated h⟩,@takesHoused crates s t (.reopen config) lawful indexed housed trivial h⟩,?_⟩
    obtain ⟨disk,run⟩ := h
    obtain ⟨_,u,booted,touched⟩ := Store.openStoreOk run
    obtain ⟨_,db,tip,floor,_⟩ := Store.bootedIndexed indexed.typed indexed.tipRow booted
    exact (Store.headsSame (by rw [touched.db,db]) (touched.tip.trans tip)
      (touched.floor.trans (floor.trans indexed.floorRow))).mpr heads
  | reopenReadonly path =>
    refine ⟨⟨⟨takesIndexed indexed h,@takesCoherent crates s t (.reopenReadonly path) indexed agreed.coherent trivial h,
      takesSeated indexed agreed.seated h⟩,@takesHoused crates s t (.reopenReadonly path) lawful indexed housed trivial h⟩,?_⟩
    obtain ⟨disk,run⟩ := h
    obtain ⟨_,booted⟩ := Store.openReadonlyOk run
    obtain ⟨_,db,tip,floor,_⟩ := Store.bootedIndexed indexed.typed indexed.tipRow booted
    exact (Store.headsSame (by rw [db]) tip (floor.trans indexed.floorRow)).mpr heads

theorem openedHeads {crates : Crates} {s : Store} (lawful : crates.Lawful) (opened : Opened crates s) :
    s.Kept crates ∧ s.Heads := by
  obtain ⟨indexed,coherent,_,empty⟩ := openedIndexed opened
  have agreed := agreedOf ⟨s,[],opened,.nil s⟩ coherent
  have headless : s.tip = none := Option.map_eq_none_iff.mp (congrArg BlockTree.Tree.head (Store.openedTree opened))
  refine ⟨⟨agreed,openedHoused lawful opened⟩,?_⟩
  rw [Store.Heads,headless]
  exact empty

/- Over runs with blocks, targets and floors of any height the tip is the stored head of the canonical
rows for as long as each call meets its condition, and the first one that does not leaves it otherwise. -/
theorem tipStaysHead {crates : Crates} {start s : Store} {actions : List Action} (lawful : crates.Lawful)
    (opened : Opened crates start) (run : Run (Guarded (HeadAction crates) (Takes crates)) start actions s) :
    Store.loadTip s.db = .ok s.tip ∧ (∀ tip, s.tip = some tip → s.Stored tip.hash ∧ s.Answers tip.height (some tip.hash) ∧
      s.minRetainedHeightCached ≤ tip.height ∧ canonicalAt s.db tip.height = some tip.hash ∧
      ∀ h, tip.height < h → canonicalAt s.db h = none ∧ (s.Representable h → s.Answers h none)) ∧
    ∀ c t, s.HeadCall crates c → Runs (Store.call crates c) s (.ok ()) t → (t.Heads ↔ s.KeepsHead crates c) := by
  obtain ⟨kept,heads⟩ := run.invariant (openedHeads lawful opened)
    fun s action t both taken => takesHeads lawful both taken.1 taken.2
  obtain ⟨agreed,content,housed⟩ := id kept
  refine ⟨Store.loadTipRow agreed.indexed.tipRow,fun tip head => ?_,fun c t headCall ran =>
    Store.callHeads lawful kept heads headCall ran⟩
  have crown := heads.crown head
  have low := UInt64.le_iff_toNat_le.mpr crown.floor
  refine ⟨(housed.retains.tiers _ _ low (.inr crown.row)).1,fun script => ?_,low,crown.row,fun h above => ?_⟩
  · exact (Store.lookupAnswered crates agreed).mpr ⟨Store.Seated.representable agreed.seated crown.row,
      (Store.canonicalAnswerAbove low).trans crown.row |>.symm⟩
  · have none' := crown.above h (UInt64.lt_iff_toNat_lt.mp above)
    have higher := UInt64.le_trans low (UInt64.le_of_lt above)
    exact ⟨none',fun fits script => (Store.lookupAnswered crates agreed).mpr
      ⟨fits,((Store.canonicalAnswerAbove higher).trans none').symm⟩⟩

namespace Store

def heightens (s : Store) : Call → Bool
  | .putBlock _ false | .read _ => true
  | .extendChain block => s.canonicalHeightCacheCapacity != 0 &&
      match s.tip with
      | none => decide (s.minRetainedHeightCached ≤ block.height)
      | some tip => decide (tip.height ≤ block.height)
  | .rollbackToHeight target => (canonicalAt s.db target).isSome
  | _ => false

theorem heightensSound {crates : Crates} (s : Store) (c : Call) (h : heightens s c = true) : HeadAction crates s (.call c) := by
  cases c with
  | read r => exact ⟨.read r,trivial⟩
  | putBlock block canonical =>
    cases canonical with
    | false => exact ⟨.aside block,trivial⟩
    | true => cases h
  | rollbackToHeight target => exact ⟨.rollback target,h⟩
  | extendChain block =>
    simp only [heightens,Bool.and_eq_true,bne_iff_ne] at h
    refine ⟨.extend fun _ off => absurd off h.1,fun _ => ?_⟩
    · obtain ⟨_,high⟩ := h
      constructor
      · intro head
        simpa [head] using high
      · intro tip head
        simpa [head] using high
  | _ => cases h

end Store

namespace Sample

def leapt : Store := .after crates Store.heightens config
  [.extendChain (block 0 0 1),.putBlock (block 3 1 3) false,.extendChain (block 5 1 2)]

theorem leaptRun : ∃ actions, Run (Guarded (HeadAction crates) (Takes crates)) (.created config) actions leapt :=
  ⟨_,Store.execRun Store.heightensSound (Store.afterExec (by decide +kernel))⟩

def leaptBack : Store := (Store.call crates (.rollbackToHeight 3) ⟨leapt,[]⟩).2.state

theorem leaptBackRan : Runs (Store.call crates (.rollbackToHeight 3)) leapt (.ok ()) leaptBack :=
  Store.ranHere (by decide +kernel)

end Sample

/- A rollback into the gap leaves a tip with no row. -/
theorem tipStaysHeadSample : Sample.leapt.tip = some ⟨Sample.hash 2,5⟩ ∧ Sample.leapt.Answers 5 (some (Sample.hash 2)) ∧
    Runs (Store.call Sample.crates (.rollbackToHeight 3)) Sample.leapt (.ok ()) Sample.leaptBack ∧ ¬Sample.leaptBack.Heads := by
  have head : Sample.leapt.tip = some ⟨Sample.hash 2,5⟩ := by decide +kernel
  have gap : canonicalAt Sample.leapt.db 3 = none := by decide +kernel
  obtain ⟨_,run⟩ := Sample.leaptRun
  obtain ⟨_,top,exactly⟩ := tipStaysHead Sample.lawful (Store.createdOpened Sample.crates Sample.config) run
  refine ⟨head,(top _ head).2.1,Sample.leaptBackRan,mt (exactly _ _ (.rollback 3) Sample.leaptBackRan).mp ?_⟩
  rw [Store.KeepsHead,gap]
  simp

end DigBlockstore
