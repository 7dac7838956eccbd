import DigBlockstore.IngestShift

/-! Rollback: its outcomes, and what it does to the index. -/
namespace DigBlockstore
open ByteCodec Faulty ColumnStore PartialMap
namespace Store
variable {crates : Crates} {s t u : Store}

def Tier (s : Store) (h : UInt64) (x : Bytes32) : Prop :=
  s.canonicalHeightCache[h]? = some x ∨ canonicalAt s.db h = some x

theorem Touched.tier (touched : Touched crates s t) (indexed : Indexed s) {h : UInt64} {x : Bytes32}
    (low : s.minRetainedHeightCached ≤ h) (found : Tier t h x) : Tier s h x := by
  rcases found with cached | row
  · rcases touched.heights h x cached with older | ⟨_,row⟩
    · exact .inl older
    · rw [indexed.stored low] at row
      exact .inr row
  · rw [touched.quiet.canonicalAt] at row
    exact .inr row

theorem collectCanonicalOk (crates : Crates) {heights : List UInt64} {hashes : List Bytes32}
    (indexed : Indexed s) (h : Runs (collectCanonical heights) s (.ok hashes) t) :
    Touched crates s t ∧ (Coherent s → hashes = heights.filterMap s.lookup) := by
  refine ⟨collectCanonicalTouched h,fun coherent => ?_⟩
  obtain ⟨found,u,looking,last⟩ := runsBindOk h
  obtain ⟨hr,rfl⟩ := runsPure.mp last
  cases hr
  have answers := collectAnswers (I := fun u => Touched crates s u) looking (.refl s)
    fun height _ v w b kept one => by
      obtain ⟨touched,answer⟩ := @getHashByHeightRuns crates _ _ _ _ one
      refine ⟨kept.trans touched,?_⟩
      rw [answer b rfl,kept.quiet.lookup indexed coherent]
  rw [answers.2]
  simp [List.filterMap_map]

theorem flagRecordsRest (flag : Bool) (hashes : List Bytes32) (s : Store) :
    s.flagRecords flag hashes = {s with recordCache := (s.flagRecords flag hashes).recordCache} := by
  unfold flagRecords
  induction hashes generalizing s with
  | nil => rfl
  | cons hash rest ih =>
    rw [List.foldl_cons,ih,flagRecordRest]

theorem quietFlagRecords (flag : Bool) (hashes : List Bytes32) : Quiet s (s.flagRecords flag hashes) := by
  rw [flagRecordsRest]
  exact quietRecords _

theorem dropCachedFound {heights : List UInt64} {h : UInt64} {x : Bytes32}
    (found : (s.dropCachedHeights heights).canonicalHeightCache[h]? = some x) :
    s.canonicalHeightCache[h]? = some x ∧ h ∉ heights := by
  unfold dropCachedHeights at found
  dsimp only at found
  generalize s.canonicalHeightCache = cache at found
  induction heights generalizing cache with
  | nil => exact ⟨found,by simp⟩
  | cons k rest ih =>
    obtain ⟨kept,unseen⟩ := ih _ found
    rw [Std.ExtTreeMap.getElem?_erase] at kept
    split at kept
    · cases kept
    · rename_i apart
      refine ⟨kept,fun mem => ?_⟩
      rcases List.mem_cons.mp mem with rfl | older
      · exact apart Std.ReflCmp.compare_self
      · exact unseen older

theorem Shift.drop {index : UInt64 → Option Bytes32} {head : Option ChainTip} {base : UInt64}
    {kept : UInt64 → Prop} (shift : Shift s t index head base kept) (heights : List UInt64) :
    Shift s (t.dropCachedHeights heights) index head base fun h => kept h ∧ h ∉ heights where
  indexed := ⟨shift.indexed.typed,shift.indexed.bin,shift.indexed.writable,shift.indexed.tipRow,
    shift.indexed.floorRow⟩
  rows := shift.rows
  tip := shift.tip
  floor := shift.floor
  readOnly := shift.readOnly
  capacity := shift.capacity
  heights h x low found := by
    obtain ⟨older,unseen⟩ := dropCachedFound found
    exact (shift.heights h x low older).imp_right fun first => ⟨first.1,first.2,unseen⟩

def deleteRows (heights : List UInt64) : List Write :=
  heights.map fun h => .delete .canonical (heightKey h)

theorem typedDeletes (heights : List UInt64) : ∀ write ∈ deleteRows heights, TypedWrite write := by
  intro write mem
  obtain ⟨h,_,rfl⟩ := List.mem_map.mp mem
  trivial

theorem metadataDeletes (heights : List UInt64) (db : Db) (key : Bytes) :
    (applyAll (deleteRows heights) db .metadata)[key]? = (db .metadata)[key]? := by
  apply ColumnStore.frame
  intro write mem
  obtain ⟨h,_,rfl⟩ := List.mem_map.mp mem
  simp [effectDelete]

theorem shiftCut (indexed : Indexed s) (writes : s.readOnly = false) {heights : List UInt64} {target : UInt64}
    (above : ∀ h ∈ heights, target < h) :
    Shift s ((s.commit (deleteRows heights)).cutSlots target) (eraseAll heights (canonicalAt s.db)) s.tip
      s.minRetainedHeightCached fun _ => True := by
  refine shiftCommit indexed (typedDeletes heights) (canonicalAtDeletes heights s.db) ?_
    ((CanonicalBin.cutWritable ..).trans (indexed.writable writes))
    ((metadataDeletes ..).trans indexed.tipRow) (metadataDeletes ..)
  refine indexed.bin.truncate (indexed.writable writes) fun h kept => ?_
  unfold eraseAll
  rw [if_neg]
  intro mem
  exact UInt64.not_le.mpr (above h mem) kept

def retip (target : UInt64) (found : Option Bytes32) (s : Store) : Store :=
  match found with
  | some hash => s.withTip ⟨hash,target⟩
  | none => s

theorem retipAtOk {target : UInt64} {found : Option Bytes32} {v : Unit}
    (h : Runs (retipAt target found) s (.ok v) t) : t = s.retip target found := by
  cases found with
  | none => exact (runsPure.mp h).2
  | some hash => exact (setTipOk h).2

theorem retipAtRuns {target : UInt64} {found : Option Bytes32} {r : Exit Unit}
    (h : Runs (retipAt target found) s r t) : (∃ e, r = .error e) ∧ t = s ∨ r = .ok () ∧ t = s.retip target found := by
  cases found with
  | none => exact .inr (runsPure.mp h)
  | some hash => exact (setTipRuns h).imp_right fun done => ⟨done.1,done.2.2⟩

/- What a rollback has established when it comes to its batch. -/
structure Rolling (crates : Crates) (s u : Store) (target : UInt64) (tip : ChainTip) (reverted : List Bytes32) :
    Prop where
  head : s.tip = some tip
  below : target < tip.height
  retained : s.minRetainedHeightCached ≤ target
  writes : s.readOnly = false
  collected : Runs (collectCanonical (heightsThrough (target + 1) tip.height).reverse) s (.ok reverted) u

theorem Rolling.touched {target : UInt64} {tip : ChainTip} {reverted : List Bytes32}
    (rolling : Rolling crates s u target tip reverted) : Touched crates s u := collectCanonicalTouched rolling.collected

def rollbackTail (target : UInt64) (heights : List UInt64) (reverted : List Bytes32) : StoreM (List Bytes32) := do
  onBin (CanonicalBin.truncateToHeight target)
  let found ← getHashByHeight target
  retipAt target found
  Op.modify (flagRecords false reverted)
  Op.modify (dropCachedHeights heights)
  pure reverted

theorem rollbackRuns {target : UInt64} {r : Exit (List Bytes32)} (h : Runs (rollbackToHeight target) s r t) :
    (∃ e, r = .error e) ∧ Touched crates s t ∨
    (∃ tip, s.tip = some tip ∧ target = tip.height ∧ s.minRetainedHeightCached ≤ target ∧ s.readOnly = false ∧
      r = .ok [] ∧ t = s) ∨
    ∃ tip reverted u, Rolling crates s u target tip reverted ∧
      Runs (rollbackTail target (heightsThrough (target + 1) tip.height) reverted)
        (u.commit (deleteRows (heightsThrough (target + 1) tip.height))) r t := by
  unfold rollbackToHeight at h
  rcases runsBind h with ⟨_,u,opening,checking⟩ | ⟨e,rfl,opening⟩
  · obtain ⟨writes,rfl⟩ := refuseReadOnlyOk opening
    rw [runsGetBind] at checking
    split at checking
    · exact .inl ⟨⟨_,(runsError.mp checking).1⟩,by rw [(runsError.mp checking).2]; exact .refl _⟩
    · rename_i tip head
      split at checking
      · exact .inl ⟨⟨_,(runsError.mp checking).1⟩,by rw [(runsError.mp checking).2]; exact .refl _⟩
      · rename_i below
        split at checking
        · exact .inl ⟨⟨_,(runsError.mp checking).1⟩,by rw [(runsError.mp checking).2]; exact .refl _⟩
        · rename_i retained
          split at checking
          · rename_i same
            obtain ⟨hr,rfl⟩ := runsPure.mp checking
            exact .inr (.inl ⟨tip,head,same,UInt64.not_lt.mp retained,writes,hr,rfl⟩)
          · rename_i apart
            have strict : target < tip.height := by
              rcases UInt64.lt_or_eq_of_le (UInt64.not_lt.mp below) with lt | eq
              · exact lt
              · exact absurd eq apart
            rcases runsBind checking with ⟨reverted,v,collecting,committing⟩ | ⟨e,rfl,collecting⟩
            · rcases runsBind committing with ⟨_,w,batching,tail⟩ | ⟨e,rfl,batching⟩
              · have batch := writeOk batching
                subst batch
                exact .inr (.inr ⟨tip,reverted,v,⟨head,strict,UInt64.not_lt.mp retained,writes,collecting⟩,tail⟩)
              · rcases writeRuns batching with ⟨bad,_⟩ | ⟨_,rfl⟩
                · cases bad
                · exact .inl ⟨⟨e,rfl⟩,collectCanonicalTouched collecting⟩
            · exact .inl ⟨⟨e,rfl⟩,collectCanonicalTouched collecting⟩
  · rw [(refuseReadOnlyRuns opening).1]
    exact .inl ⟨⟨e,rfl⟩,.refl _⟩

structure RolledBack (crates : Crates) (s t : Store) (target : UInt64) (tip : ChainTip)
    (reverted : List Bytes32) : Prop where
  steps : ∃ u v found, Rolling crates s u target tip reverted ∧ s.canonicalBin.Accepts target ∧
    Runs (getHashByHeight target)
      ((u.commit (deleteRows (heightsThrough (target + 1) tip.height))).cutSlots target) (.ok found) v ∧
    t = dropCachedHeights (heightsThrough (target + 1) tip.height)
      (flagRecords false reverted (v.retip target found))

theorem rollbackOk {target : UInt64} {reverted : List Bytes32}
    (h : Runs (rollbackToHeight target) s (.ok reverted) t) :
    ∃ tip, s.tip = some tip ∧ target ≤ tip.height ∧ s.minRetainedHeightCached ≤ target ∧ s.readOnly = false ∧
      ((target = tip.height ∧ reverted = [] ∧ t = s) ∨ RolledBack crates s t target tip reverted) := by
  rcases @rollbackRuns crates _ _ _ _ h with ⟨⟨e,bad⟩,_⟩ | ⟨tip,head,same,low,writes,hr,rfl⟩ |
    ⟨tip,hashes,u,rolling,tail⟩
  · cases bad
  · exact ⟨tip,head,same ▸ UInt64.le_refl _,low,writes,.inl ⟨same,Except.ok.inj hr,rfl⟩⟩
  · obtain ⟨_,x,truncating,looking⟩ := runsBindOk tail
    obtain ⟨fits,rfl⟩ := truncateRuns truncating
    obtain ⟨found,y,lookup,tipping⟩ := runsBindOk looking
    obtain ⟨_,z,moving,last⟩ := runsBindOk tipping
    have moved := retipAtOk moving
    subst moved
    rw [runsModifyBind,runsModifyBind] at last
    obtain ⟨hr,rfl⟩ := runsPure.mp last
    cases hr
    refine ⟨tip,rolling.head,UInt64.le_of_lt rolling.below,rolling.retained,rolling.writes,
      .inr ⟨⟨u,y,found,rolling,?_,lookup,rfl⟩⟩⟩
    rwa [show (u.commit _).canonicalBin = u.canonicalBin from rfl,rolling.touched.bin] at fits

theorem Shift.retip {index : UInt64 → Option Bytes32} {head : Option ChainTip} {base : UInt64}
    {kept : UInt64 → Prop} (shift : Shift s t index head base kept) (target : UInt64) (found : Option Bytes32) :
    Shift s (t.retip target found) index ((found.map (ChainTip.mk · target)).or head) base kept := by
  cases found with
  | none => exact shift
  | some hash => exact shift.withTip ⟨hash,target⟩

/- The lookup at the target, made on the truncated index: what it answers, a tier of the
store answered before. -/
theorem rollbackFound {target : UInt64} {heights : List UInt64} {found : Option Bytes32} {v : Store}
    (indexed : Indexed s) (touched : Touched crates s u) (retained : s.minRetainedHeightCached ≤ target)
    (apart : target ∉ heights)
    (shift : Shift u t (eraseAll heights (canonicalAt u.db)) u.tip u.minRetainedHeightCached fun _ => True)
    (cache : t.canonicalHeightCache = u.canonicalHeightCache)
    (looking : Runs (getHashByHeight target) t (.ok found) v) :
    (∀ x, found = some x → Tier s target x) ∧ (Coherent s → found = canonicalAt s.db target) := by
  have row : t.stored target = canonicalAt s.db target := by
    rw [shift.indexed.stored (by rwa [shift.floor,touched.floor]),shift.rows,eraseAll,if_neg apart,
      touched.quiet.canonicalAt]
  have answer := (@getHashByHeightRuns crates _ _ _ _ looking).2 found rfl
  rw [lookup,if_neg (by rw [shift.floor,touched.floor]; exact UInt64.not_lt.mpr retained),cache,row] at answer
  refine ⟨fun x hit => touched.tier indexed retained ?_,fun coherent => ?_⟩
  · rw [answer,Option.or_eq_some_iff] at hit
    exact hit.imp_right fun later => (touched.quiet.canonicalAt target).trans later.2
  · rw [answer]
    cases cached : u.canonicalHeightCache[target]? with
    | none => rfl
    | some x =>
      have kept := touched.quiet.coherent indexed coherent target x (by rwa [touched.floor]) cached
      rw [← touched.quiet.canonicalAt,kept]
      rfl

theorem rollbackShift {target : UInt64} {tip : ChainTip} {reverted : List Bytes32} (indexed : Indexed s)
    (back : RolledBack crates s t target tip reverted) :
    ∃ found, ((∀ x, found = some x → Tier s target x) ∧ (Coherent s → found = canonicalAt s.db target)) ∧
      Shift s t (eraseAll (heightsThrough (target + 1) tip.height) (canonicalAt s.db))
        ((found.map (ChainTip.mk · target)).or s.tip) s.minRetainedHeightCached
        fun h => h ∉ heightsThrough (target + 1) tip.height := by
  obtain ⟨u,v,found,rolling,_,looking,rfl⟩ := back.steps
  have quiet := rolling.touched.quiet
  have above : ∀ h ∈ heightsThrough (target + 1) tip.height, target < h := fun h mem =>
    ((memAbove rolling.below).mp mem).1
  have cut := shiftCut (quiet.indexed indexed) (quiet.readOnly.trans rolling.writes) above
  have answered := rollbackFound indexed rolling.touched rolling.retained
    (fun mem => UInt64.lt_irrefl _ (above target mem)) cut rfl looking
  have tipped := ((cut.andQuiet (@getHashByHeightRuns crates _ _ _ _ looking).1.quiet).retip target found).andQuiet
    (quietFlagRecords false reverted)
  have done := Shift.afterQuiet quiet indexed (tipped.drop _) (by rw [quiet.floor]; exact UInt64.le_refl _)
    fun h _ kept => by rw [eraseAll,if_neg kept.2,quiet.canonicalAt]
  rw [quiet.tip,quiet.floor,funext quiet.canonicalAt] at done
  exact ⟨found,answered,done.indexed,done.rows,done.tip,done.floor,done.readOnly,done.capacity,
    fun h x low hit => (done.heights h x low hit).imp_right fun older => ⟨older.1,older.2.2⟩⟩

theorem retipColumn (target : UInt64) (found : Option Bytes32) {cf : Cf} (apart : cf ≠ .metadata) :
    (s.retip target found).db cf = s.db cf := by
  cases found with
  | none => rfl
  | some hash => exact frameColumn (by simp [ColumnStore.Write.column,Ne.symm apart])

theorem deletedColumn (heights : List UInt64) (db : Db) {cf : Cf} (apart : cf ≠ .canonical) :
    applyAll (deleteRows heights) db cf = db cf := by
  refine frameColumn fun write mem => ?_
  obtain ⟨h,_,rfl⟩ := List.mem_map.mp mem
  exact Ne.symm apart

theorem RolledBack.column {target : UInt64} {tip : ChainTip} {reverted : List Bytes32}
    (back : RolledBack crates s t target tip reverted) {cf : Cf} (rows : cf ≠ .canonical) (metas : cf ≠ .metadata) :
    t.db cf = s.db cf := by
  obtain ⟨u,v,found,rolling,_,looking,rfl⟩ := back.steps
  have touched := (@getHashByHeightRuns crates _ _ _ _ looking).1
  change (flagRecords false reverted (v.retip target found)).db cf = s.db cf
  rw [flagRecordsRest]
  change (v.retip target found).db cf = s.db cf
  rw [retipColumn target found metas,touched.db]
  change applyAll (deleteRows (heightsThrough (target + 1) tip.height)) u.db cf = s.db cf
  rw [deletedColumn _ _ rows,rolling.touched.db]

end Store
end DigBlockstore
