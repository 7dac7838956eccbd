import DigBlockstore.Lookup
import DigBlockstore.Calls
import DigBlockstore.Library.Within

/-! Every read touches caches only, on every exit; a lookup by height that returns
answers the first tier that has the height. -/
namespace DigBlockstore
open ByteCodec Faulty
namespace Store
variable {crates : Crates} {s t u : Store} {hash : Bytes32}

section Steps

theorem touchedProbeBody : Touched crates s (s.promoteBody hash) :=
  {Touched.refl s with
    rest := rfl
    bodies := fun other block found => .inl (by rwa [promoteBody,ShardedLruCache.peekGetClone] at found)}

theorem knowsProbeHeader {other : Bytes32} {header : L2BlockHeader} :
    (s.promoteHeader hash).Knows crates other header ↔
      s.Knows crates other header := by
  simp only [Knows,promoteHeader,ShardedLruCache.peekGetClone]
  rfl

theorem touchedProbeHeader : Touched crates s (s.promoteHeader hash) :=
  {Touched.refl s with
    rest := rfl
    headers := fun other header found => .inl (by rwa [promoteHeader,ShardedLruCache.peekGetClone] at found)}

theorem touchedCacheBody {block : L2Block} (row : s.bodyAt crates hash = some block) :
    Touched crates s (s.cacheBody hash block) :=
  {Touched.refl s with
    rest := rfl
    bodies := fun other found held => by
      rcases ShardedLruCache.peekInsert held with ⟨rfl,rfl⟩ | ⟨_,older⟩
      · exact .inr row
      · exact .inl older}

theorem touchedCacheHeader {header : L2BlockHeader} (known : s.Knows crates hash header) :
    Touched crates s (s.cacheHeader hash header) :=
  {Touched.refl s with
    rest := rfl
    headers := fun other found held => by
      rcases ShardedLruCache.peekInsert held with ⟨rfl,rfl⟩ | ⟨_,older⟩
      · exact known
      · exact .inl older}

theorem touchedCacheRecord {header : L2BlockHeader} (empty : s.recordCache hash = none)
    (known : s.Knows crates hash header) :
    Touched crates s (s.cacheRecord hash (.fromHeader crates header .validated)) :=
  {Touched.refl s with
    rest := rfl
    records := fun other record held => by
      by_cases same : other = hash
      · subst same
        rw [cacheRecordSelf] at held
        exact .inr ⟨empty,header,known,(Option.some.inj held).symm⟩
      · rw [cacheRecordOther same] at held
        exact .inl held
    recordsKept := fun other record held => by
      have apart : other ≠ hash := by
        rintro rfl
        rw [empty] at held
        cases held
      rw [cacheRecordOther apart]
      exact held}

theorem touchedCacheHeight {n : UInt64}
    (known : (∃ header, s.Knows crates hash header ∧ n = header.height) ∨
      ∃ record, s.recordCache hash = some record ∧ n = record.height) :
    Touched crates s (s.cacheHeight hash n) :=
  {Touched.refl s with
    rest := rfl
    heightsOf := fun other found held => by
      rcases ShardedLruCache.peekInsert held with ⟨rfl,rfl⟩ | ⟨_,older⟩
      · exact .inr known
      · exact .inl older}

theorem bodyAtRow {raw : Bytes} {block : L2Block} (row : (s.db .blocks)[hashKey hash]? = some raw)
    (decoded : s.deserializeBlock crates raw = .ok block) : s.bodyAt crates hash = some block := by
  simp [bodyAt,row,decoded,Except.toOption]

theorem headerAtRow {raw : Bytes} {header : L2BlockHeader}
    (row : (s.db .headers)[hashKey hash]? = some raw)
    (decoded : deserializeHeader crates raw = .ok header) : s.headerAt crates hash = some header := by
  simp [headerAt,row,decoded,Except.toOption]

end Steps

theorem getHashByHeightRuns {height : UInt64} {r : Exit (Option Bytes32)}
    (h : Runs (getHashByHeight height) s r t) :
    Touched crates s t ∧ ∀ found, r = .ok found → found = s.lookup height := by
  unfold getHashByHeight at h
  rw [runsGetBind] at h
  unfold lookup
  split at h
  · rename_i below
    obtain ⟨rfl,rfl⟩ := runsPure.mp h
    refine ⟨.refl _,fun found same => ?_⟩
    rw [if_pos below]
    exact (Except.ok.inj same).symm
  · rename_i above
    have low : s.minRetainedHeightCached ≤ height := UInt64.not_lt.mp above
    rw [if_neg above]
    split at h
    · rename_i x cached
      obtain ⟨rfl,rfl⟩ := runsPure.mp h
      refine ⟨.refl _,fun found same => ?_⟩
      rw [cached,← Except.ok.inj same]
      rfl
    · rename_i uncached
      rw [uncached]
      rcases runsBind h with ⟨slot,v,read,later⟩ | ⟨e,rfl,read⟩
      · obtain ⟨answered,rfl⟩ := runsLift read
        have tier : v.canonicalBin.answer height = slot := by
          rw [CanonicalBin.answer,← answered]
        split at later
        · rename_i x
          have row : v.stored height = some x := by rw [stored,tier]; rfl
          rw [runsModifyBind] at later
          obtain ⟨rfl,rfl⟩ := runsPure.mp later
          refine ⟨touchedInsertHeight crates low row,fun found same => ?_⟩
          rw [← Except.ok.inj same,row]
          rfl
        · have fall : v.stored height = canonicalAt v.db height := by rw [stored,tier]; rfl
          split at later
          · rename_i empty
            obtain ⟨rfl,rfl⟩ := runsPure.mp later
            refine ⟨.refl _,fun found same => ?_⟩
            rw [← Except.ok.inj same,fall,canonicalAt,empty]
            rfl
          · rename_i bytes present
            split at later
            · obtain ⟨rfl,rfl⟩ := runsError.mp later
              exact ⟨.refl _,fun found same => by cases same⟩
            · rename_i x decoded
              have row : v.stored height = some x := by
                rw [fall,canonicalAt,present]
                exact decoded
              rw [runsModifyBind] at later
              obtain ⟨rfl,rfl⟩ := runsPure.mp later
              refine ⟨touchedInsertHeight crates low row,fun found same => ?_⟩
              rw [← Except.ok.inj same,row]
              rfl
      · obtain ⟨_,rfl⟩ := runsLift read
        exact ⟨.refl _,fun found same => by cases same⟩

def Warmed (s t : Store) : Prop := t = {s with canonicalHeightCache := t.canonicalHeightCache}

instance warmedPreorder : IsPreorder Store Warmed where
  refl _ := rfl
  trans _ _ _ first later := by
    unfold Warmed at first later ⊢
    rw [later,first]

theorem withinLookup (height : UInt64) : Within Warmed (getHashByHeight height) := by
  have insert : ∀ hash, Within Warmed (Op.modify (insertCanonicalHeightCache height hash) : StoreM Unit) := fun hash =>
    withinModify fun s => insertHeightRest s height hash
  refine withinBind withinGet fun s => ?_
  split
  · exact withinPure none
  · split
    · exact withinPure _
    · refine withinBind (withinLift _) fun found => ?_
      split
      · exact withinBind (insert _) fun _ => withinPure _
      · split
        · exact withinPure none
        · split
          · exact withinError _
          · exact withinBind (insert _) fun _ => withinPure _

theorem getBlockTouched {r : Exit (Option L2Block)} (h : Runs (getBlock crates hash) s r t) :
    Touched crates s t := by
  unfold getBlock at h
  rw [runsGetBind,runsModifyBind] at h
  have probed : Touched crates s (s.promoteBody hash) := touchedProbeBody
  refine probed.trans ?_
  split at h
  · obtain ⟨_,rfl⟩ := runsPure.mp h
    exact .refl _
  · split at h
    · obtain ⟨_,rfl⟩ := runsPure.mp h
      exact .refl _
    · rename_i raw row
      rcases runsBind h with ⟨block,v,read,later⟩ | ⟨e,_,read⟩
      · obtain ⟨decoded,rfl⟩ := runsOfExceptOk read
        rw [runsModifyBind,runsModifyBind,runsModifyBind] at later
        obtain ⟨_,rfl⟩ := runsPure.mp later
        have body : Touched crates (s.promoteBody hash) (cacheBody hash block (s.promoteBody hash)) :=
          touchedCacheBody (bodyAtRow row decoded)
        have known : Knows crates (cacheBody hash block (s.promoteBody hash))
            hash block.header := .inr (.inr ⟨block,bodyAtRow row decoded,rfl⟩)
        have header := touchedCacheHeader known
        refine body.trans (header.trans (touchedCacheHeight (.inl ⟨block.header,?_,rfl⟩)))
        exact .inl (ShardedLruCache.peekInsertSelf ..)
      · rw [(runsOfExcept read).1]
        exact .refl _

theorem getHeaderTouched {r : Exit (Option L2BlockHeader)} (h : Runs (getHeader crates hash) s r t) :
    Touched crates s t := by
  unfold getHeader at h
  rw [runsGetBind,runsModifyBind] at h
  have probed : Touched crates s (s.promoteHeader hash) := touchedProbeHeader
  refine probed.trans ?_
  split at h
  · obtain ⟨_,rfl⟩ := runsPure.mp h
    exact .refl _
  · split at h
    · obtain ⟨_,rfl⟩ := runsPure.mp h
      exact .refl _
    · rename_i raw row
      rcases runsBind h with ⟨header,v,read,later⟩ | ⟨e,_,read⟩
      · obtain ⟨decoded,rfl⟩ := runsOfExceptOk read
        rw [runsModifyBind,runsModifyBind] at later
        obtain ⟨_,rfl⟩ := runsPure.mp later
        have known : Knows crates (s.promoteHeader hash) hash header :=
          .inr (.inl (headerAtRow row decoded))
        refine (touchedCacheHeader known).trans (touchedCacheHeight (.inl ⟨header,?_,rfl⟩))
        exact .inl (ShardedLruCache.peekInsertSelf ..)
      · rw [(runsOfExcept read).1]
        exact .refl _

theorem getRecordRuns {r : Exit (Option BlockRecord)} (h : Runs (getRecord crates hash) s r t) :
    Touched crates s t ∧ t.canonicalHeightCache = s.canonicalHeightCache ∧
      (∀ record, r = .ok (some record) → t.recordCache hash = some record) ∧
      (r = .ok none → s.recordCache hash = none ∧ s.headerCache.peek hash = none ∧
        (s.db .headers)[hashKey hash]? = none) := by
  unfold getRecord at h
  rw [runsGetBind] at h
  split at h
  · rename_i record cached
    obtain ⟨rfl,rfl⟩ := runsPure.mp h
    exact ⟨.refl _,rfl,fun found same => by rw [cached]; exact Except.ok.inj same,by simp⟩
  · rename_i empty
    rw [runsModifyBind] at h
    have probed : Touched crates s (s.promoteHeader hash) := touchedProbeHeader
    split at h
    · rename_i header cached
      rw [runsModifyBind] at h
      obtain ⟨rfl,rfl⟩ := runsPure.mp h
      have known : Knows crates (s.promoteHeader hash) hash header :=
        knowsProbeHeader.mpr (.inl cached)
      refine ⟨probed.trans (touchedCacheRecord empty known),rfl,fun found same => ?_,by simp⟩
      rw [← Option.some.inj (Except.ok.inj same)]
      exact cacheRecordSelf ..
    · rename_i uncached
      split at h
      · rename_i missing
        obtain ⟨rfl,rfl⟩ := runsPure.mp h
        exact ⟨probed,rfl,by simp,fun _ => ⟨empty,uncached,missing⟩⟩
      · rename_i raw row
        rcases runsBind h with ⟨header,v,read,later⟩ | ⟨e,rfl,read⟩
        · obtain ⟨decoded,rfl⟩ := runsOfExceptOk read
          rw [runsModifyBind,runsModifyBind] at later
          obtain ⟨rfl,rfl⟩ := runsPure.mp later
          have known : Knows crates (s.promoteHeader hash) hash header :=
            .inr (.inl (headerAtRow row decoded))
          refine ⟨probed.trans ((touchedCacheHeader known).trans (touchedCacheRecord empty ?_)),rfl,
            fun found same => ?_,by simp⟩
          · exact .inl (ShardedLruCache.peekInsertSelf ..)
          · rw [← Option.some.inj (Except.ok.inj same)]
            exact cacheRecordSelf ..
        · rw [(runsOfExcept read).1]
          exact ⟨probed,rfl,by simp,by simp⟩

section Composed

theorem touchedBind {α β : Type} {m : StoreM α} {f : α → StoreM β} {r : Exit β}
    (h : Runs (m >>= f) s r t) (first : ∀ u r, Runs m s r u → Touched crates s u)
    (later : ∀ a u, Runs m s (.ok a) u → Runs (f a) u r t → Touched crates u t) : Touched crates s t := by
  rcases runsBind h with ⟨a,u,one,two⟩ | ⟨e,_,one⟩
  · exact (first u _ one).trans (later a u one two)
  · exact first t _ one

theorem touchedPure {α : Type} {a : α} {r : Exit α} (h : Runs (pure a : StoreM α) s r t) :
    Touched crates s t := by
  rw [(runsPure.mp h).2]
  exact .refl s

theorem touchedError {α : Type} {e : BlockStoreError} {r : Exit α}
    (h : Runs (Op.error e : StoreM α) s r t) : Touched crates s t := by
  rw [(runsError.mp h).2]
  exact .refl s

theorem touchedOfExcept {α : Type} {x : Except BlockStoreError α} {r : Exit α}
    (h : Runs (Op.ofExcept x : StoreM α) s r t) : Touched crates s t := by
  rw [(runsOfExcept h).1]
  exact .refl s

theorem touchedCollect {α β : Type} {f : α → StoreM β} {as : List α} {r : Exit (List β)}
    (h : Runs (Op.collect f as) s r t)
    (turn : ∀ a u v r, Runs (f a) u r v → Touched crates u v) : Touched crates s t :=
  runsCollect (I := fun v => Touched crates s v) h (.refl s) fun a _ u v r kept one =>
    kept.trans (turn a u v r one)

theorem touchedAttempt {α : Type} {m : StoreM α} {r : Exit (Except BlockStoreError α)}
    (h : Runs (Op.attempt m) s r t) (inner : ∀ r, Runs m s r t → Touched crates s t) :
    Touched crates s t := by
  rcases runsAttempt h with ⟨a,_,run⟩ | ⟨e,_,run⟩ | ⟨e,_,run⟩ <;> exact inner _ run

theorem touchedDiscard {α : Type} {m : StoreM α} {r : Exit Unit} (h : Runs (discard m) s r t)
    (inner : ∀ u r, Runs m s r u → Touched crates s u) : Touched crates s t :=
  touchedBind h inner fun _ _ _ last => touchedPure last

theorem getHashByHeightTouched {height : UInt64} {r : Exit (Option Bytes32)}
    (h : Runs (getHashByHeight height) s r t) : Touched crates s t := (getHashByHeightRuns h).1

theorem getRecordTouched {r : Exit (Option BlockRecord)} (h : Runs (getRecord crates hash) s r t) :
    Touched crates s t := (getRecordRuns h).1

theorem byHeightTouched {α : Type} {height : UInt64} {m : Bytes32 → StoreM (Option α)} {r : Exit (Option α)}
    (h : Runs (do match ← getHashByHeight height with
                  | none => pure none
                  | some hash => m hash) s r t)
    (inner : ∀ hash u r v, Runs (m hash) u r v → Touched crates u v) : Touched crates s t := by
  refine touchedBind h (fun u r => getHashByHeightTouched) fun found u _ later => ?_
  cases found with
  | none => exact touchedPure later
  | some hash => exact inner hash u r t later

theorem getBlockByHeightTouched {height : UInt64} {r : Exit (Option L2Block)}
    (h : Runs (getBlockByHeight crates height) s r t) : Touched crates s t :=
  byHeightTouched h fun _ _ _ _ => getBlockTouched

theorem getRecordByHeightTouched {height : UInt64} {r : Exit (Option BlockRecord)}
    (h : Runs (getRecordByHeight crates height) s r t) : Touched crates s t :=
  byHeightTouched h fun _ _ _ _ => getRecordTouched

theorem getHeaderByHeightTouched {height : UInt64} {r : Exit (Option L2BlockHeader)}
    (h : Runs (getHeaderByHeight crates height) s r t) : Touched crates s t :=
  byHeightTouched h fun _ _ _ _ => getHeaderTouched

theorem collectCanonicalTouched {heights : List UInt64} {r : Exit (List Bytes32)}
    (h : Runs (collectCanonical heights) s r t) : Touched crates s t :=
  touchedBind h (fun _ _ one => touchedCollect one fun _ _ _ _ => getHashByHeightTouched)
    fun _ _ _ last => touchedPure last

theorem blocksToRevertTouched {targetHeight : UInt64} {r : Exit (List Bytes32)}
    (h : Runs (blocksToRevert targetHeight) s r t) : Touched crates s t := by
  unfold blocksToRevert at h
  rw [runsGetBind] at h
  split at h
  · exact touchedPure h
  · split at h
    · exact touchedPure h
    · exact collectCanonicalTouched h

theorem reserveTouched {size : Nat} {lo hi : UInt64} {r : Exit Unit}
    (h : Runs (reserve crates size lo hi) s r t) : Touched crates s t := by
  have same : t = s := by
    unfold reserve at h
    dsimp only at h
    split at h
    · split at h
      · exact (runsPanic.mp h).2
      · exact (runsPure.mp h).2
    · split at h
      · exact (runsPanic.mp h).2
      · exact (runsPure.mp h).2
  rw [same]
  exact .refl s

theorem rangeTouched {α : Type} {f : UInt64 → StoreM (Option α)} {size : Nat} {lo hi : UInt64}
    {r : Exit (List α)}
    (h : Runs (if lo > hi then pure [] else do
                 reserve crates size lo hi
                 let found ← Op.collect f (heightsThrough lo hi)
                 pure (found.filterMap id)) s r t)
    (turn : ∀ a u v r, Runs (f a) u r v → Touched crates u v) : Touched crates s t := by
  split at h
  · exact touchedPure h
  · refine touchedBind h (fun u r => reserveTouched) fun _ u _ later => ?_
    exact touchedBind later (fun _ _ one => touchedCollect one turn) fun _ _ _ last => touchedPure last

theorem epochHashesTouched {heights : List UInt64} {r : Exit (List Bytes32)}
    (h : Runs (epochHashes heights) s r t) : Touched crates s t := by
  induction heights generalizing s t r with
  | nil => exact touchedPure h
  | cons height rest ih =>
    refine touchedBind h (fun u r => getHashByHeightTouched) fun found u _ later => ?_
    cases found with
    | none => exact touchedPure later
    | some hash => exact touchedBind later (fun v r => ih) fun _ _ _ last => touchedPure last

theorem ancestorWalkTouched {depth : Nat} {r : Exit (Option (Bytes32 × UInt64))}
    (h : Runs (ancestorWalk crates hash depth) s r t) : Touched crates s t := by
  induction depth generalizing s t hash r with
  | zero => exact touchedPure h
  | succ depth ih =>
    refine touchedBind h (fun u r => getRecordTouched) fun found u read later => ?_
    cases found with
    | none => exact touchedPure later
    | some record =>
      have cached := (getRecordRuns read).2.2.1 record rfl
      rw [runsModifyBind] at later
      refine (touchedCacheHeight (.inr ⟨record,cached,rfl⟩)).trans ?_
      refine touchedBind later (fun v r => getHashByHeightTouched) fun found v _ last => ?_
      split at last
      · exact touchedPure last
      · exact ih last

theorem probeBlocksTouched {rows : List (Bytes32 × Nat)} {results : List (Option L2Block)} {misses : List Nat}
    {r : Exit (List (Option L2Block) × List Nat)} (h : Runs (probeBlocks rows results misses) s r t) :
    Touched crates s t := by
  induction rows generalizing s results misses with
  | nil => exact touchedPure h
  | cons row rest ih =>
    unfold probeBlocks at h
    rw [runsGetBind,runsModifyBind] at h
    split at h
    · exact .trans touchedProbeBody (ih h)
    · exact .trans touchedProbeBody (ih h)

theorem loadMissingTouched {hashes : List Bytes32} {rows : List (Option Bytes × Nat)}
    {results : List (Option L2Block)} {r : Exit (List (Option L2Block))}
    (asked : ∀ row ∈ rows, row.1 = (s.db .blocks)[hashKey (hashes.getD row.2 Bytes32.zero)]?)
    (h : Runs (loadMissing crates hashes rows results) s r t) : Touched crates s t := by
  induction rows generalizing s results with
  | nil => exact touchedPure h
  | cons row rest ih =>
    obtain ⟨found,idx⟩ := row
    have later : ∀ row ∈ rest, row.1 = (s.db .blocks)[hashKey (hashes.getD row.2 Bytes32.zero)]? :=
      fun row mem => asked row (List.mem_cons_of_mem _ mem)
    cases found with
    | none => exact ih later h
    | some raw =>
      unfold loadMissing at h
      rw [runsGetBind] at h
      refine touchedBind h (fun w r => touchedOfExcept) fun block w read loading => ?_
      obtain ⟨decoded,rfl⟩ := runsOfExceptOk read
      rw [runsModifyBind,runsModifyBind] at loading
      have row : (w.db .blocks)[hashKey (hashes.getD idx Bytes32.zero)]? = some raw := (asked (some raw,idx) (by simp)).symm
      have body := @bodyAtRow crates _ _ _ _ row decoded
      have cached := (touchedCacheBody body).trans (touchedCacheHeader (.inr (.inr ⟨block,body,rfl⟩)))
      exact cached.trans (ih later loading)

theorem getBlocksByHashTouched {hashes : List Bytes32} {r : Exit (List (Option L2Block))}
    (h : Runs (getBlocksByHash crates hashes) s r t) : Touched crates s t := by
  refine touchedBind h (fun _ _ => probeBlocksTouched) fun probed u _ loading => ?_
  obtain ⟨results,misses⟩ := probed
  dsimp only at loading
  split at loading
  · exact touchedPure loading
  · rw [runsGetBind] at loading
    refine loadMissingTouched (fun row mem => ?_) loading
    obtain ⟨i,j,rfl⟩ := List.mem_iff_getElem.mp mem
    simp [multiGet]

theorem streamNextTouched {r : Exit L2Block} (h : Runs (streamNext crates hash) s r t) :
    Touched crates s t := by
  unfold streamNext at h
  rw [runsGetBind,runsModifyBind] at h
  have probed : Touched crates s (s.promoteBody hash) := touchedProbeBody
  refine probed.trans ?_
  split at h
  · exact touchedPure h
  · split at h
    · exact touchedError h
    · rename_i raw row
      refine touchedBind h (fun w r => touchedOfExcept) fun block w read later => ?_
      obtain ⟨decoded,rfl⟩ := runsOfExceptOk read
      rw [runsModifyBind,runsModifyBind] at later
      refine .trans ?_ (touchedPure later)
      have body := @bodyAtRow crates (s.promoteBody hash) _ _ _ row decoded
      exact (touchedCacheBody body).trans (touchedCacheHeader (.inr (.inr ⟨block,body,rfl⟩)))

theorem exportFrameTouched {height : UInt64} {r : Exit Bytes}
    (h : Runs (exportFrame height) s r t) : Touched crates s t := by
  refine touchedBind h (fun u r => getHashByHeightTouched) fun found u _ later => ?_
  have stays : ∀ v r, Runs snapshotWrite u r v → Touched crates u v := fun v r one => by
    rw [(runsStep.mp one).1]
    exact .refl u
  cases found with
  | none => exact touchedError later
  | some hash =>
    dsimp only at later
    rw [runsGetBind] at later
    split at later
    · exact touchedError later
    · refine touchedBind later stays fun _ v one rest => ?_
      have same := runsStepOk one
      subst same
      exact touchedBind rest stays fun _ _ _ last => touchedPure last

theorem exportSnapshotTouched {lo hi : UInt64} {r : Exit (SnapshotManifest × Bytes)}
    (h : Runs (exportSnapshot crates lo hi) s r t) : Touched crates s t := by
  have stays : ∀ u v r, Runs snapshotWrite u r v → Touched crates u v := fun u v r one => by
    rw [(runsStep.mp one).1]
    exact .refl u
  unfold exportSnapshot at h
  dsimp only at h
  split at h
  · rw [(runsPanic.mp h).2]
    exact .refl s
  · refine touchedBind h (fun u r => getHeaderByHeightTouched) fun found u _ later => ?_
    cases found with
    | none => exact touchedError later
    | some header =>
      refine touchedBind later (fun v r => touchedOfExcept) fun _ v _ rest => ?_
      refine touchedBind rest (stays v) fun _ w _ rest => ?_
      refine touchedBind rest (fun x r one => touchedCollect one fun _ _ _ _ => exportFrameTouched)
        fun _ x _ rest => ?_
      exact touchedBind rest (stays x) fun _ _ _ last => touchedPure last

theorem readTouched {r : Read} {e : Exit Unit} (h : Runs (read crates r) s e t) : Touched crates s t := by
  cases r with
  | getHashByHeight height => exact touchedDiscard h fun _ _ => getHashByHeightTouched
  | getBlock hash => exact touchedDiscard h fun _ _ => getBlockTouched
  | getHeader hash => exact touchedDiscard h fun _ _ => getHeaderTouched
  | getRecord hash => exact touchedDiscard h fun _ _ => getRecordTouched
  | hasBlock hash => exact touchedPure h
  | getBlocksByHash hashes => exact touchedDiscard h fun _ _ => getBlocksByHashTouched
  | getBlockByHeight height => exact touchedDiscard h fun _ _ => getBlockByHeightTouched
  | getHeaderByHeight height => exact touchedDiscard h fun _ _ => getHeaderByHeightTouched
  | getRecordByHeight height => exact touchedDiscard h fun _ _ => getRecordByHeightTouched
  | getBlocksInRange size lo hi =>
    exact touchedDiscard h fun _ _ one => rangeTouched one fun _ _ _ _ => getBlockByHeightTouched
  | getRecordsInRange size lo hi =>
    exact touchedDiscard h fun _ _ one => rangeTouched one fun _ _ _ _ => getRecordByHeightTouched
  | getEpochBlockHashes epoch => exact touchedDiscard h fun _ _ => epochHashesTouched
  | streamBlocksInRange lo hi =>
    refine touchedDiscard h fun u e one => ?_
    unfold streamBlocksInRange at one
    split at one
    · exact touchedPure one
    · rw [runsGetBind] at one
      refine touchedBind one (fun _ _ => touchedOfExcept) fun _ v _ later => ?_
      exact touchedCollect later fun _ _ _ _ turn => touchedAttempt turn fun _ => streamNextTouched
  | blocksToRevert targetHeight => exact touchedDiscard h fun _ _ => blocksToRevertTouched
  | findCommonAncestor hash maxDepth => exact touchedDiscard h fun _ _ => ancestorWalkTouched
  | getAttestation hash =>
    refine touchedDiscard h fun u e one => ?_
    unfold getAttestation at one
    rw [runsGetBind] at one
    split at one
    · exact touchedPure one
    · exact touchedBind one (fun _ _ => touchedOfExcept) fun _ _ _ last => touchedPure last
  | getCheckpoint epoch =>
    refine touchedDiscard h fun u e one => ?_
    unfold getCheckpoint at one
    rw [runsGetBind] at one
    split at one
    · exact touchedPure one
    · exact touchedBind one (fun _ _ => touchedOfExcept) fun _ _ _ last => touchedPure last
  | getLatestCheckpoint =>
    refine touchedDiscard h fun u e one => ?_
    unfold getLatestCheckpoint at one
    rw [runsGetBind] at one
    split at one
    · exact touchedPure one
    · exact touchedBind one (fun _ _ => touchedOfExcept) fun _ _ _ last => touchedPure last
  | getCheckpointsInRange lo hi =>
    refine touchedDiscard h fun u e one => ?_
    unfold getCheckpointsInRange at one
    split at one
    · exact touchedPure one
    · rw [runsGetBind] at one
      exact touchedCollect one fun _ _ _ _ => touchedOfExcept
  | exportSnapshot lo hi => exact touchedDiscard h fun _ _ => exportSnapshotTouched

end Composed

end Store
end DigBlockstore
