import DigBlockstore.Epochs
import DigBlockstore.Ancestors

/-! What a rollback and a reorg revert, and the preview of it: one list, read off the rows
above the target. -/
namespace DigBlockstore
open ByteCodec Faulty ColumnStore
namespace Store
variable {crates : Crates} {s t u : Store} {content : Bytes32 → L2BlockHeader}

/- The canonical hashes above the target up to the tip, the highest first. -/
def canonicalAbove (s : Store) (target : UInt64) (tip : ChainTip) : List Bytes32 :=
  (heightsThrough (target + 1) tip.height).reverse.filterMap (canonicalAt s.db)

/- Every height above the target up to the tip can be asked about. -/
def Revertable (s : Store) (target : UInt64) (tip : ChainTip) : Prop :=
  ∀ h, target < h → h ≤ tip.height → s.Representable h

section Heights

theorem memAboveTip {target top h : UInt64} (next : target.toNat + 1 < 2 ^ 64) :
    h ∈ heightsThrough (target + 1) top ↔ target < h ∧ h ≤ top := by
  have exact' : (target + 1).toNat = target.toNat + 1 := by
    rw [UInt64.toNat_add,UInt64.toNat_one]
    exact Nat.mod_eq_of_lt next
  rw [memHeightsThrough,UInt64.le_iff_toNat_le,exact',UInt64.lt_iff_toNat_lt]
  rfl

theorem filterMapRows {α β : Type} (f : α → Option β) (as : List α) :
    (as.filterMap f).map some = (as.filter fun a => (f a).isSome).map f := by
  induction as with
  | nil => rfl
  | cons a as ih => cases row : f a <;> simp [row,ih]

theorem canonicalAboveDescends {target : UInt64} {tip : ChainTip} (next : target.toNat + 1 < 2 ^ 64) :
    ∃ heights : List UInt64, heights.Pairwise (· > ·) ∧
      (∀ h, h ∈ heights ↔ target < h ∧ h ≤ tip.height ∧ (canonicalAt s.db h).isSome) ∧
      (s.canonicalAbove target tip).map some = heights.map (canonicalAt s.db) := by
  refine ⟨_,?_,fun h => ?_,filterMapRows ..⟩
  · exact (List.pairwise_reverse.mpr (heightsAscend ..)).filter _
  · rw [List.mem_filter,List.mem_reverse,memAboveTip next,and_assoc]

theorem lookupAbove (agreed : Agreed s) {target : UInt64} {tip : ChainTip} (retained : s.minRetainedHeightCached ≤ target)
    (next : target.toNat + 1 < 2 ^ 64) : (heightsThrough (target + 1) tip.height).reverse.filterMap s.lookup =
      s.canonicalAbove target tip := by
  refine List.filterMap_congr fun h mem => ?_
  obtain ⟨above,_⟩ := (memAboveTip next).mp (List.mem_reverse.mp mem)
  rw [coherentAnswer agreed.indexed agreed.coherent,canonicalAnswerAbove (UInt64.le_trans retained (UInt64.le_of_lt above))]

end Heights

section Preview

theorem previewRuns (crates : Crates) (agreed : Agreed s) {target : UInt64} {tip : ChainTip} (head : s.tip = some tip)
    (retained : s.minRetainedHeightCached ≤ target) (next : target.toNat + 1 < 2 ^ 64) (script : List Event) :
    ∃ t, Touched crates s t ∧ Warmed s t ∧
      (s.Revertable target tip ∧ blocksToRevert target ⟨s,script⟩ = (.ok (s.canonicalAbove target tip),⟨t,script⟩) ∨
        ¬s.Revertable target tip ∧ ∃ message, (blocksToRevert target ⟨s,script⟩).1 = .error (.panic message)) := by
  by_cases above : target ≥ tip.height
  · refine ⟨s,.refl s,rfl,.inl ⟨fun h higher low => absurd (UInt64.lt_of_lt_of_le higher low) (UInt64.not_lt.mpr above),?_⟩⟩
    have empty : heightsThrough (target + 1) tip.height = [] := List.eq_nil_iff_forall_not_mem.mpr fun h mem => by
      obtain ⟨higher,low⟩ := (memAboveTip next).mp mem
      exact absurd (UInt64.lt_of_lt_of_le higher low) (UInt64.not_lt.mpr above)
    simp only [blocksToRevert,bind,Op.bind,Op.get,head,if_pos above,canonicalAbove,empty]
    rfl
  · have asks : blocksToRevert target ⟨s,script⟩ =
        collectCanonical (heightsThrough (target + 1) tip.height).reverse ⟨s,script⟩ := by
      simp only [blocksToRevert,bind,Op.bind,Op.get,head,if_neg above]
    have mem : ∀ h, h ∈ (heightsThrough (target + 1) tip.height).reverse ↔ target < h ∧ h ≤ tip.height := fun h => by
      rw [List.mem_reverse,memAboveTip next]
    rw [asks]
    by_cases fits : s.Revertable target tip
    · obtain ⟨t,touched,warmed,ran⟩ := collectCanonicalRows crates agreed
        (fun h inside => fits h ((mem h).mp inside).1 ((mem h).mp inside).2) script
      refine ⟨t,touched,warmed,.inl ⟨fits,ran.trans ?_⟩⟩
      rw [← lookupAbove agreed retained next]
      simp only [coherentAnswer agreed.indexed agreed.coherent]
    · have past := fits
      simp only [Revertable,not_forall] at past
      obtain ⟨h,higher,low,stuck⟩ := past
      exact ⟨s,.refl s,rfl,.inr ⟨fits,collectCanonicalPast crates agreed ((mem h).mpr ⟨higher,low⟩) stuck script⟩⟩

theorem Touched.lookups (touched : Touched crates s t) (agreed : Agreed s) (height : UInt64) (script : List Event) :
    (getHashByHeight height ⟨t,script⟩).1 = (getHashByHeight height ⟨s,script⟩).1 := by
  have quiet := touched.quiet
  by_cases fits : s.Representable height
  · obtain ⟨_,_,_,ran⟩ := lookupRow crates agreed fits script
    obtain ⟨_,_,_,ran'⟩ := lookupRow crates (quiet.agreed agreed) (quiet.representable.mpr fits) script
    rw [ran,ran',quiet.canonicalAnswer]
  · rw [lookupPast agreed fits,lookupPast (quiet.agreed agreed) (fun here => fits (quiet.representable.mp here))]

end Preview

section Reverted

theorem rollbackReverts (crates : Crates) (agreed : Agreed s) {target : UInt64} {tip : ChainTip} {reverted : List Bytes32}
    (head : s.tip = some tip) (next : target.toNat + 1 < 2 ^ 64)
    (h : Runs (rollbackToHeight target) s (.ok reverted) t) : reverted = s.canonicalAbove target tip := by
  obtain ⟨tip',head',_,retained,_,outcome⟩ := @rollbackOk crates _ _ _ _ h
  rw [head] at head'
  cases head'
  rcases outcome with ⟨rfl,rfl,rfl⟩ | back
  · have empty : heightsThrough (tip.height + 1) tip.height = [] := List.eq_nil_iff_forall_not_mem.mpr fun h mem => by
      obtain ⟨higher,low⟩ := (memAboveTip next).mp mem
      exact absurd higher (UInt64.not_lt.mpr low)
    rw [canonicalAbove,empty]
    rfl
  · obtain ⟨u,v,found,rolling,_⟩ := back.steps
    rw [(collectCanonicalOk crates agreed.indexed rolling.collected).2 agreed.coherent,lookupAbove agreed retained next]

theorem reorgReverts (agreed : Agreed s) {ancestor : UInt64} {tip : ChainTip} {hashes : List Bytes32}
    {result : ReorgResult} (head : s.tip = some tip) (retained : s.minRetainedHeightCached ≤ ancestor)
    (next : ancestor.toNat + 1 < 2 ^ 64) (h : Runs (applyReorg crates ancestor hashes) s (.ok result) t) :
    result.reverted = s.canonicalAbove ancestor tip := by
  obtain ⟨plan,u,planned,_,_,rfl,_⟩ := applyReorgOk h
  obtain ⟨v,reading,reverting⟩ := planned.validated
  have quiet := (validatedTouched reading).quiet
  have agreed' := quiet.agreed agreed
  have heads := planned.head
  rw [head] at heads
  cases heads
  dsimp only
  rw [(collectCanonicalOk crates agreed'.indexed reverting).2 agreed'.coherent,planned.heights,
    lookupAbove agreed' (by rwa [quiet.floor]) next,canonicalAbove,canonicalAbove,funext quiet.canonicalAt]

end Reverted

section Clean

theorem setTipClean (tip : ChainTip) (writes : s.readOnly = false) : Clean (setTip tip) s (.ok ()) (s.withTip tip) :=
  cleanBind (refuseReadOnlyClean _ writes) (cleanBind (writeClean _ _) (cleanModify _ _))

theorem retipAtClean {target : UInt64} (writes : s.readOnly = false) (found : Option Bytes32) :
    Clean (retipAt target found) s (.ok ()) (s.retip target found) := by
  cases found with
  | none => exact cleanPure _ _
  | some hash => exact setTipClean _ writes

theorem rollbackClean (crates : Crates) (agreed : Agreed s) {target : UInt64} {tip : ChainTip} (head : s.tip = some tip)
    (writes : s.readOnly = false) (retained : s.minRetainedHeightCached ≤ target) (below : target ≤ tip.height)
    (fits : s.canonicalBin.Accepts target) (revertable : s.Revertable target tip) :
    ∃ reverted t, Clean (rollbackToHeight target) s (.ok reverted) t := by
  by_cases same : target = tip.height
  · refine ⟨[],s,cleanBind (refuseReadOnlyClean _ writes) ?_⟩
    rw [cleanGetBind,head]
    dsimp only
    rw [if_neg (UInt64.not_lt.mpr below),if_neg (UInt64.not_lt.mpr retained),if_pos same]
    exact cleanPure _ _
  · have strict : target < tip.height := UInt64.lt_of_le_of_ne below same
    have mem : ∀ h, h ∈ (heightsThrough (target + 1) tip.height).reverse ↔ target < h ∧ h ≤ tip.height := fun h => by
      rw [List.mem_reverse,memAbove strict]
    obtain ⟨u,touched,_,ran⟩ := collectCanonicalRows crates agreed
      (fun h inside => revertable h ((mem h).mp inside).1 ((mem h).mp inside).2) []
    have quiet := touched.quiet
    have indexed := quiet.indexed agreed.indexed
    have writes' := quiet.readOnly.trans writes
    have fits' : u.canonicalBin.Accepts target := by rwa [quiet.bin]
    have cut := shiftCut indexed writes' (fun h inside => ((mem h).mp (List.mem_reverse.mpr inside)).1)
    have asked : ((u.commit (deleteRows (heightsThrough (target + 1) tip.height))).cutSlots target).Answerable target :=
      fun mapped last => by
        have mapped' : u.canonicalBin.mapping = true := by rwa [← CanonicalBin.cutMapping target]
        exact absurd last (CanonicalBin.acceptsApart (indexed.writable writes') mapped' fits')
    obtain ⟨v,looking,looked⟩ := lookupAnswers crates cut.indexed asked []
    have tail : ∀ reverted, ∃ t, Clean (rollbackTail target (heightsThrough (target + 1) tip.height) reverted)
        (u.commit (deleteRows (heightsThrough (target + 1) tip.height))) (.ok reverted) t := fun reverted =>
      ⟨_,cleanBind (truncateClean (s := u.commit _) fits') (cleanBind looked
        (cleanBind (retipAtClean (looking.readOnly.trans writes') _)
          (cleanBind (cleanModify _ _) (cleanBind (cleanModify _ _) (cleanPure _ _)))))⟩
    obtain ⟨t,last⟩ := tail ((heightsThrough (target + 1) tip.height).reverse.filterMap s.canonicalAnswer)
    refine ⟨(heightsThrough (target + 1) tip.height).reverse.filterMap s.canonicalAnswer,t,
      cleanBind (refuseReadOnlyClean _ writes) (cleanGetBind.mpr ?_)⟩
    rw [head]
    dsimp only
    rw [if_neg (UInt64.not_lt.mpr below),if_neg (UInt64.not_lt.mpr retained),if_neg same]
    exact cleanBind ran (cleanBind (writeClean _ _) last)

theorem Filed.storedHeader (lawful : crates.Lawful) (filed : Filed crates content s) {hash : Bytes32}
    (stored : s.Stored hash) : s.headerAt crates hash = some (content hash) := by
  rw [filed.headerAt lawful]
  exact if_pos stored

theorem Filed.headerStored (lawful : crates.Lawful) (filed : Filed crates content s) {hash : Bytes32}
    {header : L2BlockHeader} (row : s.headerAt crates hash = some header) : s.Stored hash ∧ header = content hash := by
  rw [filed.headerAt lawful] at row
  split at row
  · rename_i stored
    cases row
    exact ⟨stored,rfl⟩
  · cases row

theorem recordStored (lawful : crates.Lawful) (filed : Filed crates content s) {hash : Bytes32} (stored : s.Stored hash)
    (script : List Event) : ∃ record t, Touched crates s t ∧
      getRecord crates hash ⟨s,script⟩ = (.ok (some record),⟨t,script⟩) ∧ record.height = (content hash).height := by
  obtain ⟨t,touched,_,ran⟩ := getRecordAnswers (filed.reads lawful hash) script
  have row := filed.storedHeader lawful stored
  obtain ⟨record,found⟩ : ∃ record, s.recordAt crates hash = some record := by
    unfold recordAt
    cases s.recordCache hash with
    | some record => exact ⟨record,rfl⟩
    | none =>
      cases s.headerCache.peek hash with
      | some header => exact ⟨_,rfl⟩
      | none => exact ⟨_,by rw [row]; rfl⟩
  rw [found] at ran
  have held := (getRecordRuns ⟨script,script,ran⟩).2.2.1 record rfl
  exact ⟨record,t,touched,ran,((touched.filed lawful filed).record hash record held).1⟩

theorem recordsClean (lawful : crates.Lawful) (filed : Filed crates content s) {hashes : List Bytes32}
    (stored : ∀ x ∈ hashes, s.Stored x) : ∃ records t,
      Clean (Op.collect (getRecordOrMissing crates) hashes) s (.ok records) t ∧ Touched crates s t ∧
        ∀ row ∈ records, row.1 ∈ hashes ∧ row.2.height = (content row.1).height := by
  induction hashes generalizing s with
  | nil => exact ⟨[],s,rfl,.refl s,by simp⟩
  | cons hash rest ih =>
    obtain ⟨record,u,touched,ran,height⟩ := recordStored lawful filed (stored hash (by simp)) []
    have read : Clean (getRecordOrMissing crates hash) s (.ok (hash,record)) u := cleanBind ran rfl
    obtain ⟨records,t,later,more,heights⟩ := ih (touched.filed lawful filed) fun x mem => by
      rw [Stored,touched.db]
      exact stored x (List.mem_cons_of_mem _ mem)
    refine ⟨(hash,record) :: records,t,cleanBind read (cleanBind later rfl),touched.trans more,?_⟩
    rw [List.forall_mem_cons]
    exact ⟨⟨by simp,height⟩,fun other mem => ⟨List.mem_cons_of_mem _ (heights other mem).1,(heights other mem).2⟩⟩

theorem extendAllClean {records : List (Bytes32 × BlockRecord)} (ready : s.canonicalBin.Ready)
    (fits : ∀ row ∈ records, s.canonicalBin.Accepts row.2.height) :
    ∃ t, Clean (Op.forEach (fun row : Bytes32 × BlockRecord =>
      onBin (CanonicalBin.extendWrite row.2.height row.1)) records) s (.ok ()) t := by
  induction records generalizing s with
  | nil => exact ⟨s,rfl⟩
  | cons row rest ih =>
    obtain ⟨t,later⟩ := ih (s := s.writeSlot row.2.height row.1) (CanonicalBin.writtenReady ready _ _) fun other mem =>
      (CanonicalBin.writtenAccepts ..).mpr (fits other (List.mem_cons_of_mem _ mem))
    exact ⟨t,cleanBind (extendWriteClean _ ready (fits row (by simp))) later⟩

theorem plannedClean (lawful : crates.Lawful) (agreed : Agreed s) (filed : Filed crates content s)
    {ancestor : UInt64} {tip : ChainTip} {hashes : List Bytes32} (head : s.tip = some tip) (writes : s.readOnly = false)
    (next : ancestor.toNat + 1 < 2 ^ 64) (some' : hashes ≠ []) (stored : ∀ x ∈ hashes, s.Stored x)
    (revertable : s.Revertable ancestor tip) : ∃ plan u v, Planned crates s v ancestor hashes plan ∧
      Clean (Op.collect (getRecordOrMissing crates) hashes) s (.ok plan.records) u ∧
      Clean (collectCanonical plan.heights.reverse) u (.ok plan.reverted) v ∧
      ∀ row ∈ plan.records, row.1 ∈ hashes ∧ row.2.height = (content row.1).height := by
  obtain ⟨records,u,reading,touched,heights⟩ := recordsClean lawful filed stored
  have asked : ∀ h ∈ (heightsThrough (ancestor + 1) tip.height).reverse, u.Representable h := fun h inside => by
    obtain ⟨above,low⟩ := (memAboveTip next).mp (List.mem_reverse.mp inside)
    exact touched.quiet.representable.mpr (revertable h above low)
  obtain ⟨v,looking,_,collected⟩ := collectCanonicalRows crates (touched.quiet.agreed agreed) asked []
  obtain ⟨last,ends⟩ := Option.isSome_iff_exists.mp (List.getLast?_isSome.mpr some')
  refine ⟨⟨tip,⟨last,(records.getLast?.map fun row => row.2.height).getD 0⟩,records,
    heightsThrough (ancestor + 1) tip.height,
    (heightsThrough (ancestor + 1) tip.height).reverse.filterMap u.canonicalAnswer⟩,u,v,?_,reading,collected,heights⟩
  exact ⟨head,ends,rfl,writes,rfl,fun wraps => absurd wraps (by omega),u,reading.runs,⟨[],[],collected⟩⟩

theorem applyReorgClean (lawful : crates.Lawful) (agreed : Agreed s) (filed : Filed crates content s)
    {ancestor : UInt64} {tip : ChainTip} {hashes : List Bytes32} (head : s.tip = some tip) (writes : s.readOnly = false)
    (next : ancestor.toNat + 1 < 2 ^ 64) (some' : hashes ≠ []) (stored : ∀ x ∈ hashes, s.Stored x)
    (fits : s.canonicalBin.Accepts ancestor) (slots : ∀ x ∈ hashes, s.canonicalBin.Accepts (content x).height)
    (revertable : s.Revertable ancestor tip) : ∃ result t, Clean (applyReorg crates ancestor hashes) s (.ok result) t := by
  obtain ⟨plan,u,v,planned,reading,collected,heights⟩ := plannedClean lawful agreed filed head writes next some' stored revertable
  have bin : v.canonicalBin = s.canonicalBin := planned.touched.bin
  have tail : ∃ result t, Clean (reorgTail ancestor hashes plan) (v.commit plan.rows) (.ok result) t := by
    have ready : ((v.commit plan.rows).cutSlots ancestor).canonicalBin.Ready :=
      CanonicalBin.cutReady (planned.touched.quiet.agreed agreed).indexed.bin.ready _
    have takes : ∀ row ∈ plan.records, ((v.commit plan.rows).cutSlots ancestor).canonicalBin.Accepts row.2.height := by
      intro row mem
      rw [(heights row mem).2]
      refine (CanonicalBin.cutAccepts ..).mpr ?_
      change v.canonicalBin.Accepts _
      rw [bin]
      exact slots row.1 (heights row mem).1
    obtain ⟨w,slotted⟩ := extendAllClean ready takes
    refine ⟨_,_,cleanBind (truncateClean (s := v.commit _) ?_) (cleanBind slotted (cleanBind (cleanModify _ _)
      (cleanBind (cleanModify _ _) (cleanBind (cleanModify _ _) (cleanBind (cleanModify _ _)
        (cleanBind (cleanModify _ _) (cleanPure _ _)))))))⟩
    change v.canonicalBin.Accepts _
    rwa [bin]
  obtain ⟨result,t,done⟩ := tail
  have above : Clean (heightAbove crates ancestor) u (.ok (ancestor + 1)) u := by
    unfold heightAbove
    rw [if_neg fun wraps => absurd wraps.1 (by omega)]
    exact cleanPure _ _
  have head' := planned.head
  refine ⟨result,t,cleanBind (refuseReadOnlyClean _ writes) (cleanGetBind.mpr ?_)⟩
  rw [head',planned.last]
  refine cleanBind reading (cleanBind above ?_)
  rw [← planned.heights,← planned.height]
  exact cleanBind collected (cleanBind (writeClean _ _) done)

end Clean

/- The list that the preview of a target, a rollback to it and a reorg from it agree on. -/
structure OneList (crates : Crates) (s : Store) (target : UInt64) (tip : ChainTip) (list : List Bytes32) : Prop where
  rows : ∃ heights : List UInt64, heights.Pairwise (· > ·) ∧
    (∀ h, h ∈ heights ↔ target < h ∧ h ≤ tip.height ∧ (canonicalAt s.db h).isSome) ∧
    list.map some = heights.map (canonicalAt s.db)
  previewed : ∀ script, ∃ t, blocksToRevert target ⟨s,script⟩ = (.ok list,⟨t,script⟩) ∧ Warmed s t ∧
    ∀ height script', (getHashByHeight height ⟨t,script'⟩).1 = (getHashByHeight height ⟨s,script'⟩).1
  rolledBack : ∀ reverted t, Runs (rollbackToHeight target) s (.ok reverted) t → reverted = list
  reorged : ∀ hashes result t, Runs (applyReorg crates target hashes) s (.ok result) t → result.reverted = list
  rollbackReturns : s.readOnly = false → s.canonicalBin.Accepts target →
    ∃ t, Clean (rollbackToHeight target) s (.ok list) t
  reorgReturns : s.readOnly = false → s.canonicalBin.Accepts target → ∀ hashes ≠ [],
    (∀ x ∈ hashes, ∃ header, s.headerAt crates x = some header ∧ s.canonicalBin.Accepts header.height) →
      ∃ result t, Clean (applyReorg crates target hashes) s (.ok result) t

end Store

/- Where the lookup tiers agree with the canonical rows, the preview of a target lists the rows
above it exactly when each height above it can be asked about, and then a rollback and a reorg
revert that list. -/
theorem previewAgrees {crates : Crates} {s : Store} {tip : ChainTip} (target : UInt64) (lawful : crates.Lawful)
    (reached : Reaches crates s) (coherent : s.Coherent) (head : s.tip = some tip)
    (retained : s.minRetainedHeightCached ≤ target) (below : target ≤ tip.height) (next : target.toNat + 1 < 2 ^ 64) :
    (∃ list, s.OneList crates target tip list) ↔ s.Revertable target tip := by
  obtain ⟨content,filed⟩ := reachesFiled lawful reached
  have agreed := agreedOf reached coherent
  constructor
  · rintro ⟨list,one⟩
    obtain ⟨t,answered,_⟩ := one.previewed []
    obtain ⟨_,_,_,⟨revertable,_⟩ | ⟨_,message,ran⟩⟩ := Store.previewRuns crates agreed head retained next []
    · exact revertable
    · rw [answered] at ran
      cases ran
  · intro revertable
    refine ⟨s.canonicalAbove target tip,Store.canonicalAboveDescends next,fun script => ?_,fun reverted t run => ?_,
      fun hashes result t run => ?_,fun writes fits => ?_,fun writes fits hashes some' taken => ?_⟩
    · obtain ⟨t,touched,warmed,⟨_,ran⟩ | ⟨stuck,_⟩⟩ := Store.previewRuns crates agreed head retained next script
      · exact ⟨t,ran,warmed,touched.lookups agreed⟩
      · exact absurd revertable stuck
    · exact Store.rollbackReverts crates agreed head next run
    · exact Store.reorgReverts agreed head retained next run
    · obtain ⟨reverted,t,ran⟩ := Store.rollbackClean crates agreed head writes retained below fits revertable
      rw [← Store.rollbackReverts crates agreed head next ran.runs]
      exact ⟨t,ran⟩
    · have rows : ∀ x ∈ hashes, s.Stored x ∧ s.canonicalBin.Accepts (content x).height := fun x mem => by
        obtain ⟨header,row,slot⟩ := taken x mem
        obtain ⟨stored,rfl⟩ := filed.headerStored lawful row
        exact ⟨stored,slot⟩
      exact Store.applyReorgClean lawful agreed filed head writes next some' (fun x mem => (rows x mem).1) fits
        (fun x mem => (rows x mem).2) revertable

namespace Sample

def threeBlocks : Store := .after crates Store.tame config
  [.initGenesis (block 0 0 1),.extendChain (block 1 1 2),.extendChain (block 2 2 3)]

def farHead : Store := .after crates Store.tame config [.initGenesis (block 0 0 1),.setTip ⟨hash 1,lastSlot⟩]

end Sample

theorem previewAgreesSample : ∃ t, Clean (Store.rollbackToHeight 0) Sample.threeBlocks
    (.ok [Sample.hash 3,Sample.hash 2]) t := by
  have run : ReachesUnshadowed Sample.crates Sample.threeBlocks := Store.afterTame (by decide +kernel)
  have head : Sample.threeBlocks.tip = some ⟨Sample.hash 3,2⟩ := by decide +kernel
  obtain ⟨list,one⟩ := (previewAgrees 0 Sample.lawful run.reaches (reachesCoherent run).2 head
    (by decide +kernel) (by decide) (by decide)).mpr fun h _ low _ last => absurd (last ▸ low) (by decide)
  obtain ⟨t,ran⟩ := one.rollbackReturns (by decide +kernel) (by decide +kernel)
  have answer : (Store.rollbackToHeight 0 ⟨Sample.threeBlocks,[]⟩).1 = .ok [Sample.hash 3,Sample.hash 2] := by
    decide +kernel
  rw [show Store.rollbackToHeight 0 ⟨Sample.threeBlocks,[]⟩ = _ from ran] at answer
  cases answer
  exact ⟨t,ran⟩

/- The preview panics where the one height above the target cannot be asked about. -/
theorem previewLost : Reaches Sample.crates Sample.farHead ∧ Sample.farHead.Coherent ∧
    Sample.farHead.tip = some ⟨Sample.hash 1,lastSlot⟩ ∧ Sample.farHead.minRetainedHeightCached ≤ lastSlot - 1 ∧
    (Store.blocksToRevert (lastSlot - 1) ⟨Sample.farHead,[]⟩).1 =
      .error (.panic "canonical.bin slot end overflows usize") ∧
    ∀ list, ¬Sample.farHead.OneList Sample.crates (lastSlot - 1) ⟨Sample.hash 1,lastSlot⟩ list :=
  have run : ReachesUnshadowed Sample.crates Sample.farHead := Store.afterTame (by decide +kernel)
  have stuck : (Store.blocksToRevert (lastSlot - 1) ⟨Sample.farHead,[]⟩).1 =
      .error (.panic "canonical.bin slot end overflows usize") := by decide +kernel
  ⟨run.reaches,(reachesCoherent run).2,by decide +kernel,by decide +kernel,stuck,fun list one => by
    obtain ⟨t,answered,_⟩ := one.previewed []
    rw [answered] at stuck
    cases stuck⟩

end DigBlockstore
