import DigBlockstore.LinkedRuns
import DigBlockstore.Previews
import DigBlockstore.PruneClears
import DigBlockstore.RowFrames

/-! What a rollback leaves. It cuts the rows between its target and the tip it reads, and moves the
tip to the row it finds at the target: it owes more than it does where rows lie above the tip or the
target has none. -/
namespace DigBlockstore
open ByteCodec Faulty ColumnStore PartialMap
namespace Store
variable {crates : Crates} {s t : Store}

/- Nothing canonical is left above the target, in the rows or in any tier; the tip is the row of the
target; what was removed is returned, the highest first, and flagged so; all else is as it was. -/
structure RolledTo (s t : Store) (target : UInt64) (reverted : List Bytes32) : Prop where
  above : ∀ h, target < h → canonicalAt t.db h = none ∧ t.canonicalHeightCache[h]? = none ∧ t.canonicalBin.answer h = none
  below : ∀ h, h ≤ target → canonicalAt t.db h = canonicalAt s.db h ∧ t.lookup h = s.lookup h
  head : ∃ x, canonicalAt s.db target = some x ∧ t.tip = some ⟨x,target⟩ ∧
    (t.db .metadata)[metaTip]? = some (ChainTip.toBytes ⟨x,target⟩)
  removed : ∃ heights : List UInt64, heights.Pairwise (· > ·) ∧
    (∀ h, h ∈ heights ↔ (canonicalAt s.db h).isSome ∧ canonicalAt t.db h = none) ∧
    reverted.map some = heights.map (canonicalAt s.db)
  flagged : ∀ x ∈ reverted, ∀ record, t.recordCache x = some record → record.inCanonicalChain = false
  rest : s.Untouched Switched t ∧ t.minRetainedHeightCached = s.minRetainedHeightCached

/- No row lies above the tip, and the target has one: the tip's own at the tip. -/
def Rollable (s : Store) (tip : ChainTip) (target : UInt64) : Prop :=
  (∀ h, tip.height < h → canonicalAt s.db h = none) ∧
    ∃ x, canonicalAt s.db target = some x ∧ (target = tip.height → x = tip.hash)

theorem flagRecordAt (flag : Bool) (hash : Bytes32) (s : Store) (x : Bytes32) : (s.flagRecord flag hash).recordCache x =
    if x = hash then (s.recordCache x).map fun record => {record with inCanonicalChain := flag} else s.recordCache x := by
  unfold flagRecord
  split
  · rename_i record held
    by_cases same : x = hash
    · subst same
      rw [cacheRecordSelf,if_pos rfl,held]
      rfl
    · rw [cacheRecordOther same,if_neg same]
  · rename_i none'
    split
    · rename_i same
      subst same
      rw [none']
      rfl
    · rfl

theorem flaggedAs (flag : Bool) (hashes : List Bytes32) (s : Store) {x : Bytes32} (mem : x ∈ hashes) {record : BlockRecord}
    (held : (flagRecords flag hashes s).recordCache x = some record) : record.inCanonicalChain = flag := by
  have kept (hashes : List Bytes32) (s : Store) (flagged : ∀ record, s.recordCache x = some record → record.inCanonicalChain = flag) :
      ∀ record, (flagRecords flag hashes s).recordCache x = some record → record.inCanonicalChain = flag := by
    unfold flagRecords
    induction hashes generalizing s with
    | nil => exact flagged
    | cons hash rest ih =>
      rw [List.foldl_cons]
      refine ih _ fun record held => ?_
      rw [flagRecordAt] at held
      split at held
      · obtain ⟨_,_,rfl⟩ := Option.map_eq_some_iff.mp held
        rfl
      · exact flagged record held
  obtain ⟨front,back,rfl⟩ := List.append_of_mem mem
  unfold flagRecords at held
  rw [List.foldl_append,List.foldl_cons] at held
  refine kept back _ (fun record held => ?_) record held
  rw [flagRecordAt,if_pos rfl] at held
  obtain ⟨_,_,rfl⟩ := Option.map_eq_some_iff.mp held
  rfl

theorem coherentTiers (indexed : Indexed s) (coherent : Coherent s) {h : UInt64} (low : s.minRetainedHeightCached ≤ h)
    (none' : canonicalAt s.db h = none) : s.canonicalHeightCache[h]? = none ∧ s.canonicalBin.answer h = none := by
  constructor
  · cases cached : s.canonicalHeightCache[h]? with
    | none => rfl
    | some x =>
      have row := coherent h x low cached
      rw [none'] at row
      cases row
  · cases answer : s.canonicalBin.answer h with
    | none => rfl
    | some x =>
      have row := indexed.bin.agrees h x low answer
      rw [none'] at row
      cases row

structure Cut (s t : Store) (target : UInt64) (tip : ChainTip) (reverted : List Bytes32) : Prop where
  indexed : t.Indexed
  coherent : t.Coherent
  floor : t.minRetainedHeightCached = s.minRetainedHeightCached
  rows : ∀ h, canonicalAt t.db h = if target < h ∧ h ≤ tip.height then none else canonicalAt s.db h
  head : target < tip.height → t.tip = ((canonicalAt s.db target).map (ChainTip.mk · target)).or s.tip
  same : target = tip.height → t.tip = s.tip
  removed : ∃ heights : List UInt64, heights.Pairwise (· > ·) ∧
    (∀ h, h ∈ heights ↔ target < h ∧ h ≤ tip.height ∧ (canonicalAt s.db h).isSome) ∧
    reverted.map some = heights.map (canonicalAt s.db)
  flagged : ∀ x ∈ reverted, ∀ record, t.recordCache x = some record → record.inCanonicalChain = false

theorem rollbackCuts (crates : Crates) (agreed : s.Agreed) {target : UInt64} {tip : ChainTip} {reverted : List Bytes32}
    (head : s.tip = some tip) (h : Runs (rollbackToHeight target) s (.ok reverted) t) :
    s.minRetainedHeightCached ≤ target ∧ target ≤ tip.height ∧ Cut s t target tip reverted := by
  obtain ⟨tip',head',low,retained,_,outcome⟩ := @rollbackOk crates _ _ _ _ h
  rw [head] at head'
  cases head'
  refine ⟨retained,low,?_⟩
  rcases outcome with ⟨rfl,rfl,rfl⟩ | back
  · exact {
      indexed := agreed.indexed
      coherent := agreed.coherent
      floor := rfl
      rows := fun h => by rw [if_neg fun between => UInt64.not_lt.mpr between.2 between.1]
      head := fun bad => absurd bad (UInt64.lt_irrefl _)
      same := fun _ => rfl
      removed := ⟨[],.nil,fun h => iff_of_false (by simp) fun between => UInt64.not_lt.mpr between.2.1 between.1,rfl⟩
      flagged := fun x mem => by cases mem }
  · obtain ⟨found,⟨_,answered⟩,shift⟩ := rollbackShift agreed.indexed back
    have below : target < tip.height := by
      obtain ⟨_,_,_,rolling,_⟩ := back.steps
      exact rolling.below
    have next : target.toNat + 1 < 2 ^ 64 := Nat.lt_of_le_of_lt (UInt64.lt_iff_toNat_lt.mp below) tip.height.toNat_lt
    exact {
      indexed := shift.indexed
      coherent := shift.coherent agreed.coherent (UInt64.le_refl _) fun h x _ keep _ row => by rw [eraseAll,if_neg keep,row]
      floor := shift.floor
      rows := fun h => by rw [shift.rows,eraseAll,if_congr (memAbove below) rfl rfl]
      head := fun _ => by rw [shift.tip,answered agreed.coherent]
      same := fun bad => absurd below (bad ▸ UInt64.lt_irrefl _)
      removed := by
        rw [rollbackReverts crates agreed head next h]
        exact canonicalAboveDescends next
      flagged := by
        obtain ⟨_,v,_,_,_,_,rfl⟩ := back.steps
        exact fun x mem record held => flaggedAs false reverted _ mem held }

theorem Linked.clear {content : Bytes32 → L2BlockHeader} (linked : Linked crates content s) {tip : ChainTip} (head : s.tip = some tip)
    (h : UInt64) (above : tip.height < h) : canonicalAt s.db h = none := by
  have chain := linked.chain
  rw [head] at chain
  exact chain.spans.outside (.inr (UInt64.lt_iff_toNat_lt.mp above))

end Store

/- Where the lookup tiers agree with the canonical rows, a rollback that returns Ok keeps what it owes
exactly when no row lies above the tip and the target has one. -/
theorem rollbackKeepsWord {crates : Crates} {s t : Store} {tip : ChainTip} {target : UInt64} {reverted : List Bytes32}
    (reached : Reaches crates s) (coherent : s.Coherent) (head : s.tip = some tip)
    (ran : Runs (Store.rollbackToHeight target) s (.ok reverted) t) :
    s.RolledTo t target reverted ↔ s.Rollable tip target := by
  have agreed := agreedOf reached coherent
  obtain ⟨retained,low,cut⟩ := Store.rollbackCuts crates agreed head ran
  constructor
  · intro rolled
    refine ⟨fun h above => ?_,?_⟩
    · have gone := (rolled.above h (UInt64.lt_of_le_of_lt low above)).1
      rwa [cut.rows,if_neg fun between => UInt64.not_lt.mpr between.2 above] at gone
    · obtain ⟨x,row,moved,_⟩ := rolled.head
      refine ⟨x,row,fun same => ?_⟩
      rw [cut.same same,head] at moved
      cases moved
      rfl
  · rintro ⟨clear,x,row,own⟩
    have rows (h : UInt64) : canonicalAt t.db h = if target < h then none else canonicalAt s.db h := by
      rw [cut.rows]
      by_cases above : target < h
      · rw [if_pos above]
        split
        · rfl
        · rename_i past
          exact clear h (UInt64.not_le.mp fun top => past ⟨above,top⟩)
      · rw [if_neg above,if_neg fun between => above between.1]
    have moved : t.tip = some ⟨x,target⟩ := by
      rcases UInt64.lt_or_eq_of_le low with below | same
      · rw [cut.head below,row]
        rfl
      · rw [cut.same same,head,own same,same]
    exact {
      above := fun h above => by
        have none' := rows h
        rw [if_pos above] at none'
        exact ⟨none',Store.coherentTiers cut.indexed cut.coherent
          (cut.floor ▸ UInt64.le_trans retained (UInt64.le_of_lt above)) none'⟩
      below := fun h under => by
        have same := rows h
        rw [if_neg (UInt64.not_lt.mpr under)] at same
        exact ⟨same,by rw [Store.lookupCoherent cut.indexed cut.coherent,Store.lookupCoherent agreed.indexed coherent,
          cut.floor,same]⟩
      head := ⟨x,row,moved,by rw [cut.indexed.tipRow,moved]; rfl⟩
      removed := by
        obtain ⟨heights,order,mem,same⟩ := cut.removed
        refine ⟨heights,order,fun h => (mem h).trans ⟨fun between => ⟨between.2.2,?_⟩,fun gone => ?_⟩,same⟩
        · rw [rows,if_pos between.1]
        · obtain ⟨y,row⟩ := Option.isSome_iff_exists.mp gone.1
          have left := gone.2
          rw [rows,row] at left
          split at left
          · rename_i above
            refine ⟨above,UInt64.not_lt.mp fun past => ?_,gone.1⟩
            rw [clear h past] at row
            cases row
          · cases left
      flagged := cut.flagged
      rest := ⟨Store.rollbackWithin crates target _ _ _ ran,cut.floor⟩ }

namespace Sample

def aboveHead : Store := .after crates Store.tame config
  [.initGenesis (block 0 0 1),.extendChain (block 1 1 2),.putBlock (block 5 1 3) true]

end Sample

/- A chain rolled back, and a block put canonical above the head that outlives its rollback. -/
theorem rollbackKeepsWordSample :
    (∃ t, Runs (Store.rollbackToHeight 0) Sample.rebased (.ok [Sample.hash 5,Sample.hash 4]) t ∧
      Sample.rebased.RolledTo t 0 [Sample.hash 5,Sample.hash 4]) ∧
    ∃ t reverted, Runs (Store.rollbackToHeight 0) Sample.aboveHead (.ok reverted) t ∧
      ¬Sample.aboveHead.RolledTo t 0 reverted := by
  obtain ⟨agreed,_,linked⟩ := reachesLinked Sample.lawful Sample.rebasedLinked
  have head : Sample.rebased.tip = some ⟨Sample.hash 5,2⟩ := by decide +kernel
  have ran : Runs (Store.rollbackToHeight 0) Sample.rebased (.ok [Sample.hash 5,Sample.hash 4]) _ :=
    Store.ranHere (by decide +kernel)
  have run : ReachesUnshadowed Sample.crates Sample.aboveHead := Store.afterTame (by decide +kernel)
  have head' : Sample.aboveHead.tip = some ⟨Sample.hash 2,1⟩ := by decide +kernel
  have ran' : Runs (Store.rollbackToHeight 0) Sample.aboveHead (.ok [Sample.hash 2]) _ := Store.ranHere (by decide +kernel)
  refine ⟨⟨_,ran,(rollbackKeepsWord Sample.rebasedLinked.reaches agreed.coherent head ran).mpr ⟨?_,?_⟩⟩,
    _,_,ran',fun rolled => ?_⟩
  · exact linked.clear head
  · exact ⟨Sample.hash 1,by decide +kernel,fun bad => by cases bad⟩
  · have none' := ((rollbackKeepsWord run.reaches (reachesCoherent run).2 head' ran').mp rolled).1 5 (by decide)
    have row : canonicalAt Sample.aboveHead.db 5 = some (Sample.hash 3) := by decide +kernel
    rw [row] at none'
    cases none'

end DigBlockstore
