import DigBlockstore.PipelineAcks
import DigBlockstore.CallFrames

/-! What a call may do to the rows, however it ends. A switch or a move of the tip stays
within the canonical rows and the tip; any call but a prune keeps the block and header rows,
and only genesis writes over one. -/
namespace DigBlockstore
open ByteCodec Faulty ColumnStore PartialMap Pipeline Trace
namespace Store
variable {crates : Crates} {s t u : Store} {inside : Cf → Bytes → Prop}

def Untouched (inside : Cf → Bytes → Prop) (s t : Store) : Prop :=
  ∀ cf key, ¬inside cf key → (t.db cf)[key]? = (s.db cf)[key]?

instance : IsPreorder Store (Untouched inside) where
  refl _ _ _ _ := rfl
  trans _ _ _ first later cf key out := (later cf key out).trans (first cf key out)

section Moves

theorem untouchedDb (same : t.db = s.db) : Untouched inside s t := fun _ _ _ => by rw [same]

theorem untouchedCommit {batch : List Write}
    (only : ∀ write ∈ batch, ∀ cf key, ¬inside cf key → write.effect cf key = none) :
    Untouched inside s (s.commit batch) :=
  fun cf key out => ColumnStore.frame fun write mem => only write mem cf key out

theorem withinWrite {batch : List Write}
    (only : ∀ write ∈ batch, ∀ cf key, ¬inside cf key → write.effect cf key = none) :
    Within (Untouched inside) (write batch) :=
  withinBind (withinStep _) fun _ => withinModify fun _ => untouchedCommit only

theorem withinOnBin (m : CanonicalBin.Bin Unit) : Within (Untouched inside) (onBin m) :=
  withinZoom fun _ _ => untouchedDb rfl

theorem withinMemory {f : Store → Store} (same : ∀ s, (f s).db = s.db) :
    Within (Untouched inside) (Op.modify f : StoreM Unit) := withinModify fun s => untouchedDb (same s)

theorem withinTouched (crates : Crates) {α : Type} {m : StoreM α} (touched : ∀ s r t, Runs m s r t → Touched crates s t) :
    Within (Untouched inside) m := fun s r t h => untouchedDb (touched s r t h).db

theorem withinHeightCache (height : UInt64) (hash : Bytes32) :
    Within (Untouched inside) (Op.modify (insertCanonicalHeightCache height hash) : StoreM Unit) :=
  withinMemory fun s => by rw [insertHeightRest]

end Moves

section Switches

def Switched (cf : Cf) (key : Bytes) : Prop := cf = .canonical ∨ cf = .metadata ∧ key = metaTip

theorem switchedRow (height : UInt64) (hash : Bytes32) {cf : Cf} {key : Bytes} (out : ¬Switched cf key) :
    (canonicalRow height hash).effect cf key = none := by
  rw [canonicalRow,effectPut,if_neg]
  rintro ⟨rfl,_⟩
  exact out (.inl rfl)

theorem switchedTip (tip : Bytes) {cf : Cf} {key : Bytes} (out : ¬Switched cf key) :
    (.put .metadata metaTip tip : Write).effect cf key = none := by
  rw [effectPut,if_neg]
  rintro ⟨rfl,rfl⟩
  exact out (.inr ⟨rfl,rfl⟩)

theorem switchedDelete (key' : Bytes) {cf : Cf} {key : Bytes} (out : ¬Switched cf key) :
    (.delete .canonical key' : Write).effect cf key = none := by
  rw [effectDelete,if_neg]
  rintro ⟨rfl,_⟩
  exact out (.inl rfl)

theorem setTipWithin (tip : ChainTip) : Within (Untouched Switched) (setTip tip) :=
  withinBind (withinRefuse _) fun _ => withinBind
    (withinWrite fun write mem cf key out => by
      rw [List.mem_singleton.mp mem]
      exact switchedTip _ out)
    fun _ => withinMemory fun _ => rfl

theorem recordWithin (hash : Bytes32) : Within (Untouched inside) (getRecordOrMissing crates hash) :=
  withinBind (withinTouched crates fun _ _ _ h => getRecordTouched h) fun found => by
    cases found with
    | none => exact withinError _
    | some record => exact withinPure _

theorem markedDb (hash : Bytes32) (record : BlockRecord) (s : Store) : (s.markCanonical hash record).db = s.db := by
  rw [markedRest]

theorem setCanonicalWithin (hash : Bytes32) : Within (Untouched Switched) (setCanonical crates hash) :=
  withinBind (withinRefuse _) fun _ => withinBind (recordWithin hash) fun row => withinBind
    (withinWrite fun write mem cf key out => by
      rw [List.mem_singleton.mp mem]
      exact switchedRow _ _ out)
    fun _ => withinBind (withinOnBin _) fun _ => withinBind (withinHeightCache _ _) fun _ =>
      withinBind (withinMemory fun _ => rfl) fun _ => withinMemory (markedDb hash row.2)

theorem setCanonicalBatchWithin (hashes : List Bytes32) :
    Within (Untouched Switched) (setCanonicalBatch crates hashes) :=
  withinBind (withinRefuse _) fun _ => by
    split
    · exact withinPure _
    · refine withinBind (withinCollect hashes fun hash _ => recordWithin hash) fun validated => withinBind ?_ fun _ => ?_
      · refine withinWrite fun write mem cf key out => ?_
        obtain ⟨row,_,rfl⟩ := List.mem_map.mp mem
        exact switchedRow _ _ out
      · exact withinForEach _ fun row _ => withinBind (withinOnBin _) fun _ => withinMemory (markedDb row.1 row.2)

theorem flagRecordsDb (flag : Bool) (hashes : List Bytes32) (s : Store) : (flagRecords flag hashes s).db = s.db := by
  rw [flagRecordsRest]

theorem rollbackWithin (crates : Crates) (target : UInt64) : Within (Untouched Switched) (rollbackToHeight target) :=
  withinBind (withinRefuse _) fun _ => withinBind withinGet fun s => by
    split
    · exact withinError _
    · rename_i tip _
      split
      · exact withinError _
      · split
        · exact withinError _
        · split
          · exact withinPure _
          · refine withinBind (withinTouched crates fun _ _ _ h => collectCanonicalTouched h) fun reverted => ?_
            refine withinBind (withinWrite fun write mem cf key out => ?_) fun _ => ?_
            · obtain ⟨h,_,rfl⟩ := List.mem_map.mp mem
              exact switchedDelete _ out
            · refine withinBind (withinOnBin _) fun _ => ?_
              refine withinBind (withinTouched crates fun _ _ _ h => getHashByHeightTouched h) fun found => ?_
              refine withinBind ?_ fun _ => ?_
              · cases found with
                | none => exact withinPure _
                | some hash => exact setTipWithin _
              · exact withinBind (withinMemory (flagRecordsDb false reverted)) fun _ =>
                  withinBind (withinMemory fun _ => rfl) fun _ => withinPure _

theorem heightAboveWithin (height : UInt64) : Within (Untouched inside) (heightAbove crates height) :=
  fun _ _ _ h => untouchedDb (by rw [(heightAboveRuns h).1])

theorem applyReorgWithin (ancestor : UInt64) (hashes : List Bytes32) :
    Within (Untouched Switched) (applyReorg crates ancestor hashes) :=
  withinBind (withinRefuse _) fun _ => withinBind withinGet fun s => by
    split
    · exact withinError _
    · exact withinError _
    · refine withinBind (withinCollect hashes fun hash _ => recordWithin hash) fun records => ?_
      refine withinBind (heightAboveWithin _) fun start => ?_
      refine withinBind (withinTouched crates fun _ _ _ h => collectCanonicalTouched h) fun reverted => ?_
      refine withinBind (withinWrite fun write mem cf key out => ?_) fun _ => ?_
      · rcases List.mem_append.mp mem with rows | tip
        · rcases List.mem_append.mp rows with deletes | puts
          · obtain ⟨h,_,rfl⟩ := List.mem_map.mp deletes
            exact switchedDelete _ out
          · obtain ⟨row,_,rfl⟩ := List.mem_map.mp puts
            exact switchedRow _ _ out
        · rw [List.mem_singleton.mp tip]
          exact switchedTip _ out
      · refine withinBind (withinOnBin _) fun _ => ?_
        refine withinBind (withinForEach _ fun row _ => withinOnBin _) fun _ => ?_
        exact withinBind (withinMemory (flagRecordsDb false reverted)) fun _ =>
          withinBind (withinMemory (flagRecordsDb true hashes)) fun _ =>
            withinBind (withinMemory fun _ => rfl) fun _ => withinBind (withinMemory fun _ => rfl) fun _ =>
              withinBind (withinMemory fun _ => rfl) fun _ => withinPure _

end Switches

section Additions

/- Every block row encodes a block whose header has a row under the same key. -/
structure Stocked (crates : Crates) (s : Store) : Prop where
  body : ∀ (key raw : Bytes), (s.db .blocks)[key]? = some raw → ∃ block headerBytes, Encodes crates block raw ∧
    (s.db .headers)[key]? = some headerBytes ∧ crates.serializeHeader block.header = .ok headerBytes
  header : ∀ key : Bytes, (s.db .headers)[key]?.isSome → (s.db .blocks)[key]?.isSome

def Adds (crates : Crates) (s t : Store) : Prop :=
  Stocked crates s → Stocked crates t ∧ ∀ (cf : Cf) (key value : Bytes), cf = .blocks ∨ cf = .headers →
    (s.db cf)[key]? = some value → (t.db cf)[key]? = some value

instance : IsPreorder Store (Adds crates) where
  refl _ stocked := ⟨stocked,fun _ _ _ _ row => row⟩
  trans _ _ _ first later stocked :=
    have middle := first stocked
    have last := later middle.1
    ⟨last.1,fun cf key value side row => last.2 cf key value side (middle.2 cf key value side row)⟩

def Beside (cf : Cf) (_ : Bytes) : Prop := cf ≠ .blocks ∧ cf ≠ .headers

theorem Untouched.adds (same : Untouched Beside s t) : Adds crates s t := by
  intro stocked
  have body : ∀ key, (t.db .blocks)[key]? = (s.db .blocks)[key]? := fun key => same _ key fun out => out.1 rfl
  have header : ∀ key, (t.db .headers)[key]? = (s.db .headers)[key]? := fun key => same _ key fun out => out.2 rfl
  refine ⟨⟨fun key raw row => ?_,fun key row => ?_⟩,fun cf key value side row => ?_⟩
  · rw [body] at row
    rw [header]
    exact stocked.body key raw row
  · rw [header] at row
    rw [body]
    exact stocked.header key row
  · rcases side with rfl | rfl
    · rw [body]
      exact row
    · rw [header]
      exact row

theorem Within.adds {α : Type} {m : StoreM α} (within : Within (Untouched Beside) m) : Within (Adds crates) m :=
  within.mono fun _ _ => Untouched.adds

theorem switchedBeside {cf : Cf} {key : Bytes} (switched : Switched cf key) : Beside cf key := by
  rcases switched with rfl | ⟨rfl,_⟩ <;> exact ⟨by simp,by simp⟩

theorem Untouched.widen {wider : Cf → Bytes → Prop} (same : Untouched inside s t)
    (sub : ∀ cf key, inside cf key → wider cf key) : Untouched wider s t :=
  fun cf key out => same cf key fun mem => out (sub cf key mem)

theorem Within.switched {α : Type} {m : StoreM α} (within : Within (Untouched Switched) m) : Within (Adds crates) m :=
  within.mono fun _ _ same => (same.widen fun _ _ => switchedBeside).adds

theorem withinTrain (metadata : ∀ key, inside .metadata key) : Within (Untouched inside) (maybeTrainDictionary crates) := by
  intro s r t h cf key out
  rw [(maybeTrainRuns h).column]
  rintro rfl
  exact out (metadata key)

theorem besideMetadata (key : Bytes) : Beside .metadata key := ⟨by simp,by simp⟩

theorem getBodyRows (hash : Bytes32) (compressed headerBytes : Bytes) {more : List Write}
    (aside : ∀ write ∈ more, Beside write.column []) {cf : Cf} (side : cf = .blocks ∨ cf = .headers) (key : Bytes) :
    ((s.commit (bodyRows hash compressed headerBytes ++ more)).db cf)[key]? =
      if cf = .headers ∧ key = hashKey hash then some headerBytes
      else if cf = .blocks ∧ key = hashKey hash then some compressed else (s.db cf)[key]? := by
  change (applyAll (bodyRows hash compressed headerBytes ++ more) s.db cf)[key]? = _
  rw [applyAllAppend,frameColumn,bodyRowsRow]
  intro write mem same
  rcases side with rfl | rfl
  · exact (aside write mem).1 same
  · exact (aside write mem).2 same

theorem addBody {hash : Bytes32} {block : L2Block} {compressed headerBytes : Bytes} {more : List Write}
    (absent : (s.db .blocks)[hashKey hash]? = none) (body : Encodes crates block compressed)
    (header : crates.serializeHeader block.header = .ok headerBytes)
    (aside : ∀ write ∈ more, Beside write.column []) :
    Adds crates s (s.commit (bodyRows hash compressed headerBytes ++ more)) := by
  intro stocked
  have rows {cf : Cf} := fun side => @getBodyRows s hash compressed headerBytes more aside cf side
  have none' : (s.db .headers)[hashKey hash]? = none := by
    cases row : (s.db .headers)[hashKey hash]? with
    | none => rfl
    | some _ =>
      have stored := stocked.header _ (by rw [row]; rfl)
      rw [absent] at stored
      cases stored
  refine ⟨⟨fun key raw row => ?_,fun key row => ?_⟩,fun cf key value side row => ?_⟩
  · rw [rows (.inl rfl),if_neg (by simp)] at row
    rw [rows (.inr rfl)]
    split at row
    · rename_i here
      cases row
      exact ⟨block,headerBytes,body,if_pos ⟨rfl,here.2⟩,header⟩
    · rename_i apart
      rw [if_neg fun here => apart ⟨rfl,here.2⟩,if_neg (by simp)]
      exact stocked.body key raw row
  · rw [rows (.inr rfl)] at row
    rw [rows (.inl rfl),if_neg (by simp)]
    split at row
    · rename_i here
      rw [if_pos ⟨rfl,here.2⟩]
      rfl
    · rename_i apart
      rw [if_neg fun here => apart ⟨rfl,here.2⟩]
      rw [if_neg (by simp)] at row
      exact stocked.header key row
  · rw [rows side,if_neg,if_neg]
    · exact row
    · rintro ⟨rfl,rfl⟩
      rw [absent] at row
      cases row
    · rintro ⟨rfl,rfl⟩
      rw [none'] at row
      cases row

theorem canonicalBeside {canonical : Bool} {height : UInt64} {hash : Bytes32} :
    ∀ write ∈ if canonical then [canonicalRow height hash] else [], Beside write.column [] := by
  intro write mem
  split at mem
  · rw [List.mem_singleton.mp mem]
    exact ⟨by simp [canonicalRow,ColumnStore.Write.column],by simp [canonicalRow,ColumnStore.Write.column]⟩
  · cases mem

theorem indexWithin (canonical : Bool) (height : UInt64) (hash : Bytes32) :
    Within (Untouched inside) (indexCanonical canonical height hash) := by
  unfold indexCanonical
  split
  · exact withinBind (withinOnBin _) fun _ => withinHeightCache _ _
  · exact withinPure _

theorem putTailWithin (metadata : ∀ key, inside .metadata key) (block : L2Block) (canonical : Bool) :
    Within (Untouched inside) (putTail crates block canonical) :=
  withinBind (indexWithin _ _ _) fun _ => withinBind (withinMemory fun _ => rfl) fun _ =>
    withinBind (withinMemory fun _ => rfl) fun _ => withinBind (withinMemory fun _ => rfl) fun _ =>
      withinBind (withinMemory fun _ => rfl) fun _ => withinBind (withinTrain metadata) fun _ => withinPure _

theorem putBlockAdds (block : L2Block) (canonical : Bool) : Within (Adds crates) (putBlock crates block canonical) :=
  putBlockWithin (fun _ _ _ packs =>
      addBody packs.absent (serializeBlockEncodes packs.body) (serializeHeaderOk packs.header) canonicalBeside)
    (Within.adds (putTailWithin besideMetadata block canonical))

end Additions

end Store
end DigBlockstore
