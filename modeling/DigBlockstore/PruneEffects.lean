import DigBlockstore.ReorgEffects

/-! Pruning: its outcomes, and what it does to the index. -/
namespace DigBlockstore
open ByteCodec Faulty ColumnStore PartialMap
namespace Store
variable {crates : Crates} {s t u : Store}

/- The canonical rows and the fork hashes one prune drops. -/
structure PrunePlan where
  rows : List (UInt64 × Bytes32)
  forks : List Bytes32

def dropRow (row : UInt64 × Bytes32) : List Write :=
  bodyDeletes row.2 ++ [.delete .canonical (heightKey row.1)]

def PrunePlan.batch (plan : PrunePlan) (height : UInt64) : List Write :=
  plan.rows.flatMap dropRow ++ plan.forks.flatMap bodyDeletes ++ [.put .metadata metaMinHeight (toLeBytes height)]

def PrunePlan.hashes (plan : PrunePlan) : List Bytes32 := plan.rows.map Prod.snd ++ plan.forks

theorem pruneCanonicalTouched {heights : List UInt64} {r : Exit (List Write × List Bytes32)}
    (h : Runs (pruneCanonical heights) s r t) : Touched crates s t := by
  induction heights generalizing s t r with
  | nil =>
    obtain ⟨_,rfl⟩ := runsPure.mp h
    exact .refl _
  | cons height rest ih =>
    rcases runsBind h with ⟨found,u,looking,later⟩ | ⟨e,rfl,looking⟩
    · refine (getHashByHeightRuns looking).1.trans ?_
      rcases runsBind later with ⟨pair,v,more,last⟩ | ⟨e,rfl,more⟩
      · have touched := ih more
        cases found with
        | none => rw [(runsPure.mp last).2]; exact touched
        | some hash => rw [(runsPure.mp last).2]; exact touched
      · exact ih more
    · exact (getHashByHeightRuns looking).1

theorem withinPruneCanonical (heights : List UInt64) : Within Warmed (pruneCanonical heights) := by
  induction heights with
  | nil => exact withinPure _
  | cons height rest ih =>
    refine withinBind (withinLookup height) fun found => withinBind ih fun pair => ?_
    cases found with
    | none => exact withinPure _
    | some hash => exact withinPure _

theorem pruneCanonicalOk (crates : Crates) {heights : List UInt64} {pair : List Write × List Bytes32} (indexed : Indexed s)
    (low : ∀ h ∈ heights, s.minRetainedHeightCached ≤ h)
    (run : Runs (pruneCanonical heights) s (.ok pair) t) :
    ∃ rows : List (UInt64 × Bytes32), pair = (rows.flatMap dropRow,rows.map Prod.snd) ∧
      (∀ row ∈ rows, row.1 ∈ heights ∧ Tier s row.1 row.2) ∧
      (∀ h ∈ heights, canonicalAt s.db h ≠ none → h ∈ rows.map Prod.fst) ∧ (rows.map Prod.fst).Sublist heights := by
  induction heights generalizing s t pair with
  | nil =>
    obtain ⟨hr,rfl⟩ := runsPure.mp run
    cases hr
    exact ⟨[],rfl,by simp,by simp,.slnil⟩
  | cons height rest ih =>
    obtain ⟨found,u,looking,later⟩ := runsBindOk run
    obtain ⟨pair',v,more,last⟩ := runsBindOk later
    obtain ⟨touched,answer⟩ := @getHashByHeightRuns crates _ _ _ _ looking
    have here := answer found rfl
    have floor := low height (by simp)
    obtain ⟨rows,rfl,sound,complete,ordered⟩ := ih (touched.quiet.indexed indexed)
      (fun h mem => by rw [touched.floor]; exact low h (List.mem_cons_of_mem _ mem)) more
    have sound' : ∀ row ∈ rows, row.1 ∈ height :: rest ∧ Tier s row.1 row.2 := fun row mem =>
      ⟨List.mem_cons_of_mem _ (sound row mem).1,touched.tier indexed
        (low row.1 (List.mem_cons_of_mem _ (sound row mem).1)) (sound row mem).2⟩
    have complete' : ∀ h ∈ rest, canonicalAt s.db h ≠ none → h ∈ rows.map Prod.fst := fun h mem row =>
      complete h mem (by rwa [touched.quiet.canonicalAt])
    rw [lookup,if_neg (UInt64.not_lt.mpr floor),indexed.stored floor] at here
    cases found with
    | none =>
      obtain ⟨hr,rfl⟩ := runsPure.mp last
      cases hr
      refine ⟨rows,rfl,sound',fun h mem row => ?_,ordered.cons _⟩
      rcases List.mem_cons.mp mem with rfl | older
      · exact absurd (Option.or_eq_none_iff.mp here.symm).2 row
      · exact complete' h older row
    | some hash =>
      obtain ⟨hr,rfl⟩ := runsPure.mp last
      cases hr
      refine ⟨(height,hash) :: rows,by simp [dropRow],fun row mem => ?_,fun h mem row => ?_,ordered.cons_cons _⟩
      · rcases List.mem_cons.mp mem with rfl | older
        · exact ⟨by simp,(Option.or_eq_some_iff.mp here.symm).imp_right And.right⟩
        · exact sound' row older
      · rcases List.mem_cons.mp mem with rfl | older
        · simp
        · exact List.mem_cons_of_mem _ (complete' h older row)

structure Pruning (crates : Crates) (s u : Store) (height : UInt64) (plan : PrunePlan) : Prop where
  writes : s.readOnly = false
  above : s.minRetainedHeightCached < height
  touched : Touched crates s u
  sound : ∀ row ∈ plan.rows, s.minRetainedHeightCached ≤ row.1 ∧ row.1 < height ∧ Tier s row.1 row.2
  complete : ∀ h, s.minRetainedHeightCached ≤ h → h < height → canonicalAt s.db h ≠ none →
    h ∈ plan.rows.map Prod.fst
  forks : plan.forks = pruneForks crates height (plan.rows.map Prod.snd) (s.db .headers).toList
  distinct : (plan.rows.map Prod.fst).Nodup
  warmed : Warmed s u

def floorAt (height : UInt64) (s : Store) : Store := {s with minRetainedHeightCached := height}

def evictAll (hashes : List Bytes32) (s : Store) : Store := hashes.foldl (fun s hash => s.evictPruned hash) s

def pruned (height : UInt64) (plan : PrunePlan) (s : Store) : Store :=
  evictHeightsBelow height (evictAll plan.hashes ((s.commit (plan.batch height)).floorAt height))

theorem pruneRuns {height : UInt64} {r : Exit Nat} (indexed : Indexed s)
    (h : Runs (pruneBeforeHeight crates height) s r t) :
    (∃ e, r = .error e) ∧ Touched crates s t ∨
    (s.readOnly = false ∧ height ≤ s.minRetainedHeightCached ∧ r = .ok 0 ∧ t = s) ∨
    ∃ plan u, Pruning crates s u height plan ∧ r = .ok plan.hashes.length ∧ t = u.pruned height plan := by
  unfold pruneBeforeHeight at h
  rcases runsBind h with ⟨_,u,opening,checking⟩ | ⟨e,rfl,opening⟩
  · obtain ⟨writes,rfl⟩ := refuseReadOnlyOk opening
    rw [runsGetBind] at checking
    split at checking
    · rename_i below
      obtain ⟨rfl,rfl⟩ := runsPure.mp checking
      exact .inr (.inl ⟨writes,below,rfl,rfl⟩)
    · rename_i above
      rcases runsBind checking with ⟨pair,v,collecting,writing⟩ | ⟨e,rfl,collecting⟩
      · have touched := @pruneCanonicalTouched crates _ _ _ _ collecting
        obtain ⟨rows,rfl,sound,complete,ordered⟩ := pruneCanonicalOk crates indexed
          (fun h mem => (memHeightsBefore.mp mem).1) collecting
        dsimp only at writing
        rw [runsGetBind] at writing
        rcases runsBind writing with ⟨_,w,batching,last⟩ | ⟨e,rfl,batching⟩
        · have batch := writeOk batching
          subst batch
          rw [runsModifyBind,runsModifyBind,runsModifyBind] at last
          obtain ⟨rfl,rfl⟩ := runsPure.mp last
          refine .inr (.inr ⟨⟨rows,pruneForks crates height (rows.map Prod.snd) (v.db .headers).toList⟩,v,
            ⟨writes,by simpa using above,touched,fun row mem => ?_,fun h low high row => ?_,by rw [touched.db],
              ordered.nodup (heightsBeforeNodup _ _),withinPruneCanonical _ _ _ _ collecting⟩,rfl,rfl⟩)
          · obtain ⟨inside,tier⟩ := sound row mem
            exact ⟨(memHeightsBefore.mp inside).1,(memHeightsBefore.mp inside).2,tier⟩
          · exact complete h (memHeightsBefore.mpr ⟨low,high⟩) row
        · rcases writeRuns batching with ⟨bad,_⟩ | ⟨_,rfl⟩
          · cases bad
          · exact .inl ⟨⟨e,rfl⟩,touched⟩
      · exact .inl ⟨⟨e,rfl⟩,pruneCanonicalTouched collecting⟩
  · rw [(refuseReadOnlyRuns opening).1]
    exact .inl ⟨⟨e,rfl⟩,.refl _⟩

theorem canonicalAtErase {batch : List Write} {heights : List UInt64} (db : Db)
    (only : ∀ write ∈ batch, ∀ h left, write.effect .canonical (heightKey h) = some left → left = none ∧ h ∈ heights)
    (all : ∀ h ∈ heights, (.delete .canonical (heightKey h) : Write) ∈ batch) :
    canonicalAt (applyAll batch db) = eraseAll heights (canonicalAt db) := by
  funext h
  unfold canonicalAt eraseAll
  by_cases mem : h ∈ heights
  · rw [if_pos mem,deletedNone (all h mem) fun value put => ?_]
    · rfl
    · obtain ⟨bad,_⟩ := only _ put h (some value) (by rw [effectPut,if_pos ⟨rfl,rfl⟩])
      cases bad
  · rw [if_neg mem,ColumnStore.frame fun write inside => ?_]
    cases effect : write.effect .canonical (heightKey h) with
    | none => rfl
    | some left => exact absurd (only write inside h left effect).2 mem

theorem bodyDeletesColumn {hash : Bytes32} {write : Write} (mem : write ∈ bodyDeletes hash) :
    write.column ≠ .canonical ∧ write.column ≠ .metadata := by
  simp only [bodyDeletes,List.mem_cons,List.not_mem_nil,or_false] at mem
  rcases mem with rfl | rfl | rfl <;> simp [ColumnStore.Write.column]

theorem typedBodyDelete {hash : Bytes32} {write : Write} (mem : write ∈ bodyDeletes hash) : TypedWrite write := by
  simp only [bodyDeletes,List.mem_cons,List.not_mem_nil,or_false] at mem
  rcases mem with rfl | rfl | rfl <;> trivial

theorem pruneWrite {plan : PrunePlan} {height : UInt64} {write : Write} (mem : write ∈ plan.batch height) :
    (∃ hash ∈ plan.hashes, write ∈ bodyDeletes hash) ∨
      (∃ row ∈ plan.rows, write = .delete .canonical (heightKey row.1)) ∨
      write = .put .metadata metaMinHeight (toLeBytes height) := by
  rcases List.mem_append.mp mem with body | last
  · rcases List.mem_append.mp body with rows | forks
    · obtain ⟨row,inside,dropped⟩ := List.mem_flatMap.mp rows
      rcases List.mem_append.mp dropped with deleted | here
      · exact .inl ⟨row.2,List.mem_append_left _ (List.mem_map.mpr ⟨row,inside,rfl⟩),deleted⟩
      · exact .inr (.inl ⟨row,inside,List.mem_singleton.mp here⟩)
    · obtain ⟨hash,inside,deleted⟩ := List.mem_flatMap.mp forks
      exact .inl ⟨hash,List.mem_append_right _ inside,deleted⟩
  · exact .inr (.inr (List.mem_singleton.mp last))

theorem canonicalAtPrune (plan : PrunePlan) (height : UInt64) (db : Db) :
    canonicalAt (applyAll (plan.batch height) db) = eraseAll (plan.rows.map Prod.fst) (canonicalAt db) := by
  refine canonicalAtErase db (fun write mem h left effect => ?_) fun h mem => ?_
  · rcases pruneWrite mem with ⟨hash,_,body⟩ | ⟨row,inside,rfl⟩ | rfl
    · rw [effectOtherColumn (bodyDeletesColumn body).1] at effect
      cases effect
    · rw [effectDelete] at effect
      split at effect
      · rename_i same
        exact ⟨(Option.some.inj effect).symm,heightKeyInj.mp same.2 ▸ List.mem_map.mpr ⟨row,inside,rfl⟩⟩
      · cases effect
    · simp [effectPut] at effect
  · obtain ⟨row,inside,rfl⟩ := List.mem_map.mp mem
    exact List.mem_append_left _ (List.mem_append_left _
      (List.mem_flatMap.mpr ⟨row,inside,List.mem_append_right _ (by simp)⟩))

theorem metadataPrune (plan : PrunePlan) (height : UInt64) (db : Db) {key : Bytes} (apart : key ≠ metaMinHeight) :
    (applyAll (plan.batch height) db .metadata)[key]? = (db .metadata)[key]? := by
  apply ColumnStore.frame
  intro write mem
  rcases pruneWrite mem with ⟨hash,_,body⟩ | ⟨row,inside,rfl⟩ | rfl
  · exact effectOtherColumn (bodyDeletesColumn body).2 key
  · simp [effectDelete]
  · rw [effectPut,if_neg]
    simp [Ne.symm apart]

theorem floorRowPrune (plan : PrunePlan) (height : UInt64) (db : Db) :
    (applyAll (plan.batch height) db .metadata)[metaMinHeight]? = some (toLeBytes height) := by
  rw [getApplyAll,PrunePlan.batch,lastEffectAppend,lastEffectCons,lastEffectNil,effectPut,if_pos ⟨rfl,rfl⟩]
  rfl

theorem loadFloorRow {db : Db} {height : UInt64} (row : (db .metadata)[metaMinHeight]? = some (toLeBytes height)) :
    loadFloor db = height := by
  have length : (toLeBytes height).length = 8 := by simp [toLeBytes]
  simp [loadFloor,readMinRetainedHeight,row,length,fromLeBytesToLeBytes]

theorem evictAllRest (hashes : List Bytes32) (s : Store) :
    evictAll hashes s = {s with
      blockCache := (evictAll hashes s).blockCache
      headerCache := (evictAll hashes s).headerCache
      recordCache := (evictAll hashes s).recordCache
      hashToHeightCache := (evictAll hashes s).hashToHeightCache} := by
  unfold evictAll
  induction hashes generalizing s with
  | nil => rfl
  | cons hash rest ih =>
    rw [List.foldl_cons,ih]
    rfl

theorem quietEvictAll (hashes : List Bytes32) : Quiet s (evictAll hashes s) := by
  rw [evictAllRest]
  exact ⟨rfl,rfl,rfl,rfl,rfl,rfl,rfl,rfl,fun _ _ _ found => .inl found⟩

theorem quietEvictHeights (height : UInt64) : Quiet s (s.evictHeightsBelow height) where
  canonical := rfl
  tipRow := rfl
  floorRow := rfl
  bin := rfl
  tip := rfl
  floor := rfl
  readOnly := rfl
  capacity := rfl
  heights h x _ found := by
    unfold evictHeightsBelow at found
    rw [Std.ExtTreeMap.getElem?_filter'] at found
    exact .inl (Option.filter_eq_some_iff.mp found).1

theorem Pruning.erased {height : UInt64} {plan : PrunePlan}
    (pruning : Pruning crates s u height plan) :
    canonicalAt (applyAll (plan.batch height) u.db) =
      eraseAll (heightsBefore s.minRetainedHeightCached height) (canonicalAt s.db) := by
  rw [canonicalAtPrune,pruning.touched.db]
  funext h
  unfold eraseAll
  by_cases inside : h ∈ heightsBefore s.minRetainedHeightCached height
  · rw [if_pos inside]
    obtain ⟨low,high⟩ := memHeightsBefore.mp inside
    by_cases row : canonicalAt s.db h = none
    · rw [row,ite_self]
    · rw [if_pos (pruning.complete h low high row)]
  · rw [if_neg inside,if_neg]
    intro mem
    obtain ⟨row,found,rfl⟩ := List.mem_map.mp mem
    obtain ⟨low,high,_⟩ := pruning.sound row found
    exact inside (memHeightsBefore.mpr ⟨low,high⟩)

theorem pruneShift {height : UInt64} {plan : PrunePlan} (indexed : Indexed s)
    (pruning : Pruning crates s u height plan) :
    Shift s (u.pruned height plan) (eraseAll (heightsBefore s.minRetainedHeightCached height) (canonicalAt s.db))
      s.tip height fun _ => True := by
  have quiet := pruning.touched.quiet
  have indexed' := quiet.indexed indexed
  have erased := pruning.erased
  have apart : ∀ h, height ≤ h → h ∉ heightsBefore s.minRetainedHeightCached height := fun h low mem =>
    UInt64.not_le.mpr (memHeightsBefore.mp mem).2 low
  have moved : Shift u ((u.commit (plan.batch height)).floorAt height)
      (eraseAll (heightsBefore s.minRetainedHeightCached height) (canonicalAt s.db)) u.tip height fun _ => True :=
    { indexed :=
        { typed := typedCommit indexed'.typed fun write mem => by
            rcases pruneWrite mem with ⟨hash,_,body⟩ | ⟨row,_,rfl⟩ | rfl
            · exact typedBodyDelete body
            · trivial
            · trivial
          bin := by
            change u.canonicalBin.Sound height (canonicalAt (applyAll (plan.batch height) u.db))
            rw [erased]
            refine indexed'.bin.raise ?_ fun h low => ?_
            · rw [quiet.floor]
              exact UInt64.le_of_lt pruning.above
            · rw [eraseAll,if_neg (apart h low),quiet.canonicalAt]
          writable := indexed'.writable
          tipRow := (metadataPrune plan height u.db (by simp)).trans indexed'.tipRow
          floorRow := loadFloorRow (floorRowPrune plan height u.db) }
      rows := erased
      tip := rfl
      floor := rfl
      readOnly := rfl
      capacity := rfl
      heights := fun h x _ found => .inr ⟨found,trivial⟩ }
  have evicted := (moved.andQuiet (quietEvictAll plan.hashes)).andQuiet (quietEvictHeights height)
  rw [quiet.tip] at evicted
  exact Shift.afterQuiet quiet indexed evicted (UInt64.le_of_lt pruning.above)
    fun h low _ => by rw [eraseAll,if_neg (apart h low)]

section Dropped

theorem memPruneForks {height : UInt64} {canonical : List Bytes32} {rows : List (Bytes × Bytes)} {hash : Bytes32} :
    hash ∈ pruneForks crates height canonical rows ↔ hash ∉ canonical ∧
      ∃ raw header, (hashKey hash,raw) ∈ rows ∧ deserializeHeader crates raw = .ok header ∧ header.height < height := by
  unfold pruneForks
  rw [List.mem_filterMap]
  constructor
  · rintro ⟨⟨key,raw⟩,mem,kept⟩
    dsimp only at kept
    split at kept
    · cases kept
    · rename_i other decoded
      split at kept
      · cases kept
      · rename_i apart
        split at kept
        · cases kept
        · rename_i header read
          split at kept
          · rename_i below
            cases kept
            rw [Bytes32.ofBytesSome decoded] at mem
            exact ⟨apart,raw,header,mem,read,below⟩
          · cases kept
  · rintro ⟨apart,raw,header,mem,read,below⟩
    exact ⟨_,mem,by simp [hashKey,apart,read,below]⟩

theorem pruneFrame (plan : PrunePlan) (height : UInt64) (db : Db) {cf : Cf} {key : Bytes}
    (side : cf = .blocks ∨ cf = .headers ∨ cf = .attested) :
    (applyAll (plan.batch height) db cf)[key]? =
      if ∃ hash ∈ plan.hashes, key = hashKey hash then none else (db cf)[key]? := by
  split
  · rename_i dropped
    obtain ⟨hash,mem,rfl⟩ := dropped
    refine deletedNone ?_ fun value put => ?_
    · have body : (.delete cf (hashKey hash) : Write) ∈ bodyDeletes hash := by
        rcases side with rfl | rfl | rfl <;> simp [bodyDeletes]
      unfold PrunePlan.batch
      rcases List.mem_append.mp mem with found | fork
      · obtain ⟨row,inside,rfl⟩ := List.mem_map.mp found
        exact List.mem_append_left _ (List.mem_append_left _
          (List.mem_flatMap.mpr ⟨row,inside,List.mem_append_left _ body⟩))
      · exact List.mem_append_left _ (List.mem_append_right _ (List.mem_flatMap.mpr ⟨hash,fork,body⟩))
    · rcases pruneWrite put with ⟨other,_,body⟩ | ⟨row,_,bad⟩ | bad
      · simp [bodyDeletes] at body
      · cases bad
      · rcases side with rfl | rfl | rfl <;> cases bad
  · rename_i spared
    refine ColumnStore.frame fun write mem => ?_
    rcases pruneWrite mem with ⟨hash,inside,body⟩ | ⟨row,_,rfl⟩ | rfl
    · simp only [bodyDeletes,List.mem_cons,List.not_mem_nil,or_false] at body
      have apart : hashKey hash ≠ key := fun same => spared ⟨hash,inside,same.symm⟩
      rcases body with rfl | rfl | rfl <;> simp [effectDelete,apart]
    · rw [effectDelete,if_neg]
      rcases side with rfl | rfl | rfl <;> simp
    · rw [effectPut,if_neg]
      rcases side with rfl | rfl | rfl <;> simp

theorem prunedDb (plan : PrunePlan) (height : UInt64) (u : Store) :
    (u.pruned height plan).db = applyAll (plan.batch height) u.db := by
  change (evictAll plan.hashes ((u.commit (plan.batch height)).floorAt height)).db = _
  rw [evictAllRest]
  rfl

theorem prunedRow (plan : PrunePlan) (height : UInt64) {cf : Cf} {hash : Bytes32}
    (side : cf = .blocks ∨ cf = .headers ∨ cf = .attested) :
    ((u.pruned height plan).db cf)[hashKey hash]? = if hash ∈ plan.hashes then none else (u.db cf)[hashKey hash]? := by
  rw [prunedDb,pruneFrame plan height u.db side]
  by_cases mem : hash ∈ plan.hashes
  · rw [if_pos ⟨hash,mem,rfl⟩,if_pos mem]
  · rw [if_neg mem,if_neg]
    rintro ⟨other,inside,eq⟩
    rw [hashKeyInj] at eq
    subst eq
    exact mem inside

theorem evictAllHeader (hashes : List Bytes32) (hash : Bytes32) : (evictAll hashes s).headerCache.peek hash =
    if hash ∈ hashes then none else s.headerCache.peek hash := by
  unfold evictAll
  induction hashes generalizing s with
  | nil => rfl
  | cons other rest ih =>
    rw [List.foldl_cons,ih]
    change (if hash ∈ rest then none else (s.headerCache.remove other).peek hash) = _
    rw [ShardedLruCache.peekRemove]
    by_cases same : hash = other <;> by_cases mem : hash ∈ rest <;> simp [same,mem]

theorem evictAllBody (hashes : List Bytes32) (hash : Bytes32) : (evictAll hashes s).blockCache.peek hash =
    if hash ∈ hashes then none else s.blockCache.peek hash := by
  unfold evictAll
  induction hashes generalizing s with
  | nil => rfl
  | cons other rest ih =>
    rw [List.foldl_cons,ih]
    change (if hash ∈ rest then none else (s.blockCache.remove other).peek hash) = _
    rw [ShardedLruCache.peekRemove]
    by_cases same : hash = other <;> by_cases mem : hash ∈ rest <;> simp [same,mem]

theorem evictAllRecord (hashes : List Bytes32) (hash : Bytes32) : (evictAll hashes s).recordCache hash =
    if hash ∈ hashes then none else s.recordCache hash := by
  unfold evictAll
  induction hashes generalizing s with
  | nil => rfl
  | cons other rest ih =>
    rw [List.foldl_cons,ih]
    change (if hash ∈ rest then none else Function.update s.recordCache other none hash) = _
    rw [Function.update_apply]
    by_cases same : hash = other <;> by_cases mem : hash ∈ rest <;> simp [same,mem]

theorem prunedMentions (height : UInt64) (plan : PrunePlan) (hash : Bytes32) :
    (u.pruned height plan).headerCache.peek hash = (if hash ∈ plan.hashes then none else u.headerCache.peek hash) ∧
    (u.pruned height plan).blockCache.peek hash = (if hash ∈ plan.hashes then none else u.blockCache.peek hash) ∧
    (u.pruned height plan).recordCache hash = if hash ∈ plan.hashes then none else u.recordCache hash :=
  ⟨evictAllHeader plan.hashes hash,evictAllBody plan.hashes hash,evictAllRecord plan.hashes hash⟩

end Dropped

end Store
end DigBlockstore
