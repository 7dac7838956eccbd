import DigBlockstore.RollbackEffects

/-! Reorg: its outcomes, and what it does to the index. -/
namespace DigBlockstore
open ByteCodec Faulty ColumnStore PartialMap
namespace Store
variable {crates : Crates} {s t u : Store}

/- What a reorg has computed when it comes to its batch. -/
structure ReorgPlan where
  tip : ChainTip
  newTip : ChainTip
  records : List (Bytes32 × BlockRecord)
  heights : List UInt64
  reverted : List Bytes32

def ReorgPlan.rows (plan : ReorgPlan) : List Write :=
  plan.heights.reverse.map (fun h => .delete .canonical (heightKey h))
    ++ plan.records.map (fun row => canonicalRow row.2.height row.1)
    ++ [.put .metadata metaTip plan.newTip.toBytes]

structure Planned (crates : Crates) (s u : Store) (ancestor : UInt64) (hashes : List Bytes32)
    (plan : ReorgPlan) : Prop where
  head : s.tip = some plan.tip
  last : hashes.getLast? = some plan.newTip.hash
  height : plan.newTip.height = (plan.records.getLast?.map fun row => row.2.height).getD 0
  writes : s.readOnly = false
  heights : plan.heights = heightsThrough (ancestor + 1) plan.tip.height
  wraps : ancestor.toNat + 1 = 2 ^ 64 → crates.overflowChecks = false
  validated : ∃ v, Runs (Op.collect (getRecordOrMissing crates) hashes) s (.ok plan.records) v ∧
    Runs (collectCanonical plan.heights.reverse) v (.ok plan.reverted) u

def reorgTail (ancestor : UInt64) (hashes : List Bytes32) (plan : ReorgPlan) : StoreM ReorgResult := do
  onBin (CanonicalBin.truncateToHeight ancestor)
  Op.forEach (fun row => onBin (CanonicalBin.extendWrite row.2.height row.1)) plan.records
  Op.modify (flagRecords false plan.reverted)
  Op.modify (flagRecords true hashes)
  Op.modify (dropCachedHeights plan.heights)
  Op.modify (cacheReorgHeights plan.records)
  Op.modify fun s => {s with tip := some plan.newTip}
  pure ⟨plan.reverted,hashes,plan.newTip⟩

theorem heightAboveRuns {height : UInt64} {r : Exit UInt64} (h : Runs (heightAbove crates height) s r t) :
    t = s ∧ ((∃ e, r = .error e) ∨ r = .ok (height + 1) ∧
      (height.toNat + 1 = 2 ^ 64 → crates.overflowChecks = false)) := by
  unfold heightAbove at h
  split at h
  · exact ⟨(runsPanic.mp h).2,.inl ⟨_,(runsPanic.mp h).1⟩⟩
  · rename_i below
    refine ⟨(runsPure.mp h).2,.inr ⟨(runsPure.mp h).1,fun wraps => ?_⟩⟩
    simpa [wraps] using below

theorem validatedTouched {hashes : List Bytes32} {r : Exit (List (Bytes32 × BlockRecord))}
    (h : Runs (Op.collect (getRecordOrMissing crates) hashes) s r t) : Touched crates s t := by
  refine runsCollect (I := fun u => Touched crates s u) h (.refl s) fun hash _ u v r kept turn => ?_
  refine kept.trans ?_
  rcases runsBind turn with ⟨found,w,read,later⟩ | ⟨e,_,read⟩
  · have touched := (getRecordRuns read).1
    cases found with
    | none => rw [(runsError.mp later).2]; exact touched
    | some record => rw [(runsPure.mp later).2]; exact touched
  · exact (getRecordRuns read).1

theorem applyReorgRuns {ancestor : UInt64} {hashes : List Bytes32} {r : Exit ReorgResult}
    (h : Runs (applyReorg crates ancestor hashes) s r t) :
    (∃ e, r = .error e) ∧ Touched crates s t ∨
    ∃ plan u, Planned crates s u ancestor hashes plan ∧
      Runs (reorgTail ancestor hashes plan) (u.commit plan.rows) r t := by
  unfold applyReorg at h
  rcases runsBind h with ⟨_,u,opening,checking⟩ | ⟨e,rfl,opening⟩
  · obtain ⟨writes,rfl⟩ := refuseReadOnlyOk opening
    rw [runsGetBind] at checking
    split at checking
    · exact .inl ⟨⟨_,(runsError.mp checking).1⟩,by rw [(runsError.mp checking).2]; exact .refl _⟩
    · exact .inl ⟨⟨_,(runsError.mp checking).1⟩,by rw [(runsError.mp checking).2]; exact .refl _⟩
    · rename_i tip hash head last
      rcases runsBind checking with ⟨records,v,reading,starting⟩ | ⟨e,rfl,reading⟩
      · rcases runsBind starting with ⟨start,w,above,collecting⟩ | ⟨e,rfl,above⟩
        · obtain ⟨rfl,⟨e,bad⟩ | ⟨same,wraps⟩⟩ := heightAboveRuns above
          · cases bad
          · cases same
            rcases runsBind collecting with ⟨reverted,x,reverting,writing⟩ | ⟨e,rfl,reverting⟩
            · rcases runsBind writing with ⟨_,y,batching,tail⟩ | ⟨e,rfl,batching⟩
              · have batch := writeOk batching
                subst batch
                exact .inr ⟨⟨tip,⟨hash,_⟩,records,_,reverted⟩,x,
                  ⟨head,last,rfl,writes,rfl,wraps,w,reading,reverting⟩,tail⟩
              · rcases writeRuns batching with ⟨bad,_⟩ | ⟨_,rfl⟩
                · cases bad
                · exact .inl ⟨⟨e,rfl⟩,(validatedTouched reading).trans (collectCanonicalTouched reverting)⟩
            · exact .inl ⟨⟨e,rfl⟩,(validatedTouched reading).trans (collectCanonicalTouched reverting)⟩
        · rw [(heightAboveRuns above).1]
          exact .inl ⟨⟨e,rfl⟩,validatedTouched reading⟩
      · exact .inl ⟨⟨e,rfl⟩,validatedTouched reading⟩
  · rw [(refuseReadOnlyRuns opening).1]
    exact .inl ⟨⟨e,rfl⟩,.refl _⟩

def headAt (tip : ChainTip) (s : Store) : Store := {s with tip := some tip}

def switched (ancestor : UInt64) (plan : ReorgPlan) (s : Store) : Store :=
  {s.commit plan.rows with canonicalBin := (s.canonicalBin.cut ancestor).writtenAll (rowsOf plan.records)}

def reorged (ancestor : UInt64) (hashes : List Bytes32) (plan : ReorgPlan) (s : Store) : Store :=
  headAt plan.newTip (cacheReorgHeights plan.records (dropCachedHeights plan.heights
    (flagRecords true hashes (flagRecords false plan.reverted (s.switched ancestor plan)))))

theorem extendAllOk {records : List (Bytes32 × BlockRecord)} {v : Unit}
    (h : Runs (Op.forEach (fun row : Bytes32 × BlockRecord =>
      onBin (CanonicalBin.extendWrite row.2.height row.1)) records) s (.ok v) t) :
    (∀ row ∈ records, s.canonicalBin.Accepts row.2.height) ∧
      t = {s with canonicalBin := s.canonicalBin.writtenAll (rowsOf records)} := by
  induction records generalizing s with
  | nil => exact ⟨by simp,(runsPure.mp h).2⟩
  | cons row rest ih =>
    obtain ⟨_,u,slot,later⟩ := runsBindOk h
    obtain ⟨fits,rfl⟩ := extendWriteRuns slot
    obtain ⟨fits',same⟩ := ih later
    refine ⟨fun other mem => ?_,same⟩
    rcases List.mem_cons.mp mem with rfl | older
    · exact fits
    · simpa [writeSlot] using fits' other older

theorem applyReorgOk {ancestor : UInt64} {hashes : List Bytes32} {result : ReorgResult}
    (h : Runs (applyReorg crates ancestor hashes) s (.ok result) t) :
    ∃ plan u, Planned crates s u ancestor hashes plan ∧ u.canonicalBin.Accepts ancestor ∧
      (∀ row ∈ plan.records, u.canonicalBin.Accepts row.2.height) ∧
      result = ⟨plan.reverted,hashes,plan.newTip⟩ ∧ t = u.reorged ancestor hashes plan := by
  rcases applyReorgRuns h with ⟨⟨e,bad⟩,_⟩ | ⟨plan,u,planned,tail⟩
  · cases bad
  · obtain ⟨_,x,truncating,extending⟩ := runsBindOk tail
    obtain ⟨fits,rfl⟩ := truncateRuns truncating
    obtain ⟨_,y,slots,caching⟩ := runsBindOk extending
    obtain ⟨fits',rfl⟩ := extendAllOk slots
    rw [runsModifyBind,runsModifyBind,runsModifyBind,runsModifyBind,runsModifyBind] at caching
    obtain ⟨hr,rfl⟩ := runsPure.mp caching
    refine ⟨plan,u,planned,fits,fun row mem => ?_,Except.ok.inj hr,rfl⟩
    simpa [cutSlots,commit] using fits' row mem

theorem Planned.touched {ancestor : UInt64} {hashes : List Bytes32} {plan : ReorgPlan}
    (planned : Planned crates s u ancestor hashes plan) : Touched crates s u := by
  obtain ⟨v,reading,reverting⟩ := planned.validated
  exact (validatedTouched reading).trans (collectCanonicalTouched reverting)

theorem Planned.hashes {ancestor : UInt64} {hashes : List Bytes32} {plan : ReorgPlan}
    (planned : Planned crates s u ancestor hashes plan) : plan.records.map Prod.fst = hashes := by
  obtain ⟨v,reading,_⟩ := planned.validated
  exact (validatedOk reading).2.2.1

theorem eraseAllReverse (heights : List UInt64) (index : UInt64 → Option Bytes32) :
    eraseAll heights.reverse index = eraseAll heights index := by
  funext h
  simp [eraseAll]

def ReorgPlan.index (plan : ReorgPlan) (index : UInt64 → Option Bytes32) : UInt64 → Option Bytes32 :=
  putAll (rowsOf plan.records) (eraseAll plan.heights index)

theorem canonicalAtReorg (plan : ReorgPlan) (db : Db) :
    canonicalAt (applyAll plan.rows db) = plan.index (canonicalAt db) := by
  have tipRow : ∀ db : Db, canonicalAt (applyAll [.put .metadata metaTip plan.newTip.toBytes] db) =
      canonicalAt db := by
    intro db
    refine funext (canonicalAtCongr (frameColumn ?_))
    simp [ColumnStore.Write.column]
  have rows : plan.records.map (fun row => canonicalRow row.2.height row.1) =
      (rowsOf plan.records).map fun row => canonicalRow row.1 row.2 := by simp [rowsOf,Function.comp_def]
  rw [ReorgPlan.rows,applyAllAppend,tipRow,applyAllAppend,rows,canonicalAtPutAll,canonicalAtDeletes,
    eraseAllReverse,ReorgPlan.index]

theorem typedReorg (plan : ReorgPlan) : ∀ write ∈ plan.rows, TypedWrite write := by
  intro write mem
  rcases List.mem_append.mp mem with rows | tip
  · rcases List.mem_append.mp rows with deleted | put
    · obtain ⟨h,_,rfl⟩ := List.mem_map.mp deleted
      trivial
    · obtain ⟨row,_,rfl⟩ := List.mem_map.mp put
      exact typedCanonicalRow _ _
  · rw [List.mem_singleton.mp tip]
    trivial

theorem tipRowReorg (plan : ReorgPlan) (db : Db) :
    (applyAll plan.rows db .metadata)[metaTip]? = some plan.newTip.toBytes := by
  rw [getApplyAll,ReorgPlan.rows,lastEffectAppend,lastEffectCons,lastEffectNil,effectPut,if_pos ⟨rfl,rfl⟩]
  rfl

theorem floorRowReorg (plan : ReorgPlan) (db : Db) :
    (applyAll plan.rows db .metadata)[metaMinHeight]? = (db .metadata)[metaMinHeight]? := by
  apply ColumnStore.frame
  intro write mem
  rcases List.mem_append.mp mem with rows | tip
  · rcases List.mem_append.mp rows with deleted | put
    · obtain ⟨h,_,rfl⟩ := List.mem_map.mp deleted
      simp [effectDelete]
    · obtain ⟨row,_,rfl⟩ := List.mem_map.mp put
      exact metadataCanonicalRow _ _ _
  · rw [List.mem_singleton.mp tip,effectPut,if_neg]
    simp

/- Where `ancestor + 1` wraps the file takes no slot, so only a disabled tier goes on. -/
theorem cutSound {bin : CanonicalBin} {floor ancestor top : UInt64} {index : UInt64 → Option Bytes32}
    (sound : bin.Sound floor index) (writes : bin.writable = true) (fits : bin.Accepts ancestor) :
    (bin.cut ancestor).Sound floor (eraseAll (heightsThrough (ancestor + 1) top) index) := by
  cases bin with
  | ro mmap => cases writes
  | disabled left => exact ⟨trivial,fun h x _ found => by cases found⟩
  | rw d =>
    obtain ⟨n,slot⟩ := Option.isSome_iff_exists.mp fits
    obtain ⟨need,small⟩ := CanonicalDenseFile.slotEndSome slot
    have exact' : (ancestor + 1).toNat = ancestor.toNat + 1 := by
      rw [UInt64.toNat_add,UInt64.toNat_one]
      exact Nat.mod_eq_of_lt (by omega)
    refine sound.truncate writes fun h kept => ?_
    rw [eraseAll,if_neg]
    intro mem
    have above := (memHeightsThrough.mp mem).1
    rw [UInt64.le_iff_toNat_le] at above kept
    omega

theorem cacheReorgFound {records : List (Bytes32 × BlockRecord)} {h : UInt64} {x : Bytes32}
    (found : (s.cacheReorgHeights records).canonicalHeightCache[h]? = some x) :
    lastRow (rowsOf records) h = some x ∨
      lastRow (rowsOf records) h = none ∧ s.canonicalHeightCache[h]? = some x := by
  unfold cacheReorgHeights at found
  dsimp only at found
  generalize s.canonicalHeightCache = cache at found ⊢
  induction records generalizing cache with
  | nil => exact .inr ⟨rfl,found⟩
  | cons row rest ih =>
    have split : lastRow (rowsOf (row :: rest)) h =
        (lastRow (rowsOf rest) h).or (if row.2.height = h then some row.1 else none) := lastRowCons ..
    rw [split]
    rcases ih _ found with later | ⟨unset,older⟩
    · exact .inl (by rw [later]; rfl)
    · rw [unset,Option.none_or]
      rw [Std.ExtTreeMap.getElem?_insert] at older
      by_cases same : row.2.height = h
      · rw [if_pos (by rw [same]; exact Std.ReflCmp.compare_self)] at older
        exact .inl (by rw [if_pos same]; exact older)
      · rw [if_neg fun eq => same (Std.LawfulEqCmp.eq_of_compare eq)] at older
        exact .inr ⟨if_neg same,older⟩

theorem Shift.cacheReorg {index : UInt64 → Option Bytes32} {head : Option ChainTip} {base : UInt64}
    {kept : UInt64 → Prop} (shift : Shift s t index head base kept) {records : List (Bytes32 × BlockRecord)}
    (rows : ∀ h x, lastRow (rowsOf records) h = some x → index h = some x) :
    Shift s (t.cacheReorgHeights records) index head base
      fun h => kept h ∧ lastRow (rowsOf records) h = none where
  indexed := ⟨shift.indexed.typed,shift.indexed.bin,shift.indexed.writable,shift.indexed.tipRow,
    shift.indexed.floorRow⟩
  rows := shift.rows
  tip := shift.tip
  floor := shift.floor
  readOnly := shift.readOnly
  capacity := shift.capacity
  heights h x low found := by
    rcases cacheReorgFound found with row | ⟨unset,older⟩
    · exact .inl (rows h x row)
    · exact (shift.heights h x low older).imp_right fun first => ⟨first.1,first.2,unset⟩

theorem flagRecordsHead (flag : Bool) (hashes : List Bytes32) (tip : ChainTip) (s : Store) :
    flagRecords flag hashes (s.headAt tip) = (flagRecords flag hashes s).headAt tip := by
  unfold flagRecords
  induction hashes generalizing s with
  | nil => rfl
  | cons hash rest ih =>
    rw [List.foldl_cons,List.foldl_cons,← ih]
    congr 1
    unfold flagRecord headAt
    dsimp only
    cases s.recordCache hash <;> rfl

/- The tip in memory may as well be set together with the slots. -/
theorem reorgedHead (ancestor : UInt64) (hashes : List Bytes32) (plan : ReorgPlan) (s : Store) :
    s.reorged ancestor hashes plan = cacheReorgHeights plan.records (dropCachedHeights plan.heights
      (flagRecords true hashes (flagRecords false plan.reverted ((s.switched ancestor plan).headAt plan.newTip)))) := by
  rw [flagRecordsHead,flagRecordsHead]
  rfl

theorem applyReorgShift {ancestor : UInt64} {hashes : List Bytes32} {plan : ReorgPlan} (indexed : Indexed s)
    (planned : Planned crates s u ancestor hashes plan) (fits : u.canonicalBin.Accepts ancestor) :
    Shift s (u.reorged ancestor hashes plan) (plan.index (canonicalAt s.db)) (some plan.newTip)
      s.minRetainedHeightCached
      fun h => h ∉ plan.heights ∧ lastRow (rowsOf plan.records) h = none := by
  have quiet := planned.touched.quiet
  have indexed' := quiet.indexed indexed
  have writable := indexed'.writable (quiet.readOnly.trans planned.writes)
  have cut := @cutSound _ _ _ plan.tip.height _ indexed'.bin writable fits
  rw [← planned.heights] at cut
  have moved := @shiftCommit u indexed' _ _ _ (some plan.newTip) (typedReorg plan) (canonicalAtReorg plan u.db)
    (cut.writeAll ((CanonicalBin.cutWritable ..).trans writable) (rowsOf plan.records))
    (by rw [CanonicalBin.writtenAllWritable,CanonicalBin.cutWritable,writable])
    (tipRowReorg plan u.db) (floorRowReorg plan u.db)
  have flagged := (moved.andQuiet (quietFlagRecords false plan.reverted)).andQuiet (quietFlagRecords true hashes)
  have cached := @Shift.cacheReorg _ _ _ _ _ _ (flagged.drop plan.heights) plan.records fun h x row => by
    rw [ReorgPlan.index,putAllAt,row]
    rfl
  have done := Shift.afterQuiet quiet indexed cached (by rw [quiet.floor]; exact UInt64.le_refl _)
    fun h _ kept => by rw [ReorgPlan.index,putAllAt,kept.2,Option.none_or,eraseAll,if_neg kept.1.2,quiet.canonicalAt]
  rw [quiet.floor,funext quiet.canonicalAt] at done
  rw [reorgedHead]
  exact ⟨done.indexed,done.rows,done.tip,done.floor,done.readOnly,done.capacity,
    fun h x low hit => (done.heights h x low hit).imp_right fun older => ⟨older.1,older.2.1.2,older.2.2⟩⟩

theorem reorgedColumn (ancestor : UInt64) (hashes : List Bytes32) (plan : ReorgPlan) {cf : Cf}
    (rows : cf ≠ .canonical) (metas : cf ≠ .metadata) : (u.reorged ancestor hashes plan).db cf = u.db cf := by
  change (flagRecords true hashes (flagRecords false plan.reverted (u.switched ancestor plan))).db cf = u.db cf
  rw [flagRecordsRest,flagRecordsRest]
  refine frameColumn fun write mem => ?_
  rcases List.mem_append.mp mem with body | tip
  · rcases List.mem_append.mp body with deleted | put
    · obtain ⟨h,_,rfl⟩ := List.mem_map.mp deleted
      exact Ne.symm rows
    · obtain ⟨row,_,rfl⟩ := List.mem_map.mp put
      exact Ne.symm rows
  · rw [List.mem_singleton.mp tip]
    exact Ne.symm metas

end Store
end DigBlockstore
