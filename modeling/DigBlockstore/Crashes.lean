import DigBlockstore.Trees

/-! Crashes of a linked call, and what the next open finds. A call stopped anywhere leaves the
tree of before or the tree of after, but where its canonical rows and its tip are two writes. -/
namespace DigBlockstore
open ByteCodec Faulty ColumnStore PartialMap Trace ChainSegment BlockTree
namespace Store
variable {crates : Crates} {s t u v w : Store} {content : Bytes32 → L2BlockHeader} {db db' : Db} {head : Option ChainTip}
  {low : UInt64}

section Databases

/- Block and header rows as a linked store has them. -/
structure Shelf (crates : Crates) (content : Bytes32 → L2BlockHeader) (db : Db) : Prop where
  keys : ∀ (cf : Cf) (key value : Bytes), cf = .blocks ∨ cf = .headers → (db cf)[key]? = some value → ∃ hash, key = hashKey hash
  headerRow : ∀ hash raw, (db .headers)[hashKey hash]? = some raw → crates.serializeHeader (content hash) = .ok raw
  bodyRow : ∀ hash raw, (db .blocks)[hashKey hash]? = some raw → ∃ block, Encodes crates block raw ∧ block.header = content hash
  paired : ∀ hash, (db .blocks)[hashKey hash]?.isSome ↔ (db .headers)[hashKey hash]?.isSome

structure Booting (db : Db) (head : Option ChainTip) (low : UInt64) : Prop where
  typed : TypedRows db
  tipRow : (db .metadata)[metaTip]? = head.map ChainTip.toBytes
  floorRow : loadFloor db = low

structure Based (crates : Crates) (content : Bytes32 → L2BlockHeader) (db : Db) (head : Option ChainTip) (low : UInt64) : Prop where
  shelf : Shelf crates content db
  booting : Booting db head low
  chain : Chained content (canonicalAt db) low head
  held : ∀ h x, canonicalAt db h = some x → (db .headers)[hashKey x]?.isSome

theorem shelfOf (filed : Filed crates content s) (whole : Whole s) : Shelf crates content s.db :=
  ⟨filed.keys,filed.headerRow,filed.bodyRow,whole.paired⟩

theorem Indexed.booting (indexed : Indexed s) : Booting s.db s.tip s.minRetainedHeightCached :=
  ⟨indexed.typed,indexed.tipRow,indexed.floorRow⟩

theorem Linked.based (linked : Linked crates content s) (indexed : Indexed s) :
    Based crates content s.db s.tip s.minRetainedHeightCached :=
  ⟨shelfOf linked.filed linked.whole,indexed.booting,linked.chain,linked.held⟩

theorem Shelf.congr (shelf : Shelf crates content db) (bodies : db' .blocks = db .blocks) (headers : db' .headers = db .headers) :
    Shelf crates content db' where
  keys cf key value side row := by
    rcases side with rfl | rfl
    · exact shelf.keys .blocks key value (.inl rfl) (by rwa [bodies] at row)
    · exact shelf.keys .headers key value (.inr rfl) (by rwa [headers] at row)
  headerRow := by rw [headers]; exact shelf.headerRow
  bodyRow := by rw [bodies]; exact shelf.bodyRow
  paired := by rw [bodies,headers]; exact shelf.paired

theorem Booting.congr (booting : Booting db head low) (rows : db' .canonical = db .canonical)
    (tipRow : (db' .metadata)[metaTip]? = (db .metadata)[metaTip]?)
    (floorRow : (db' .metadata)[metaMinHeight]? = (db .metadata)[metaMinHeight]?) : Booting db' head low where
  typed k v row := booting.typed k v (by rwa [rows] at row)
  tipRow := tipRow.trans booting.tipRow
  floorRow := (loadFloorCongr floorRow).trans booting.floorRow

theorem Shelf.booted {config : BlockStoreConfig} {readOnly : Bool} (shelf : Shelf crates content db)
    (booted : Booted config readOnly db u) : Filed crates content u ∧ Whole u := by
  have quiet := bootedMentions booted
  obtain ⟨bin,dict,tip,rfl,_⟩ := booted.built
  simp only [Mentions,not_or,Option.not_isSome_iff_eq_none] at quiet
  refine ⟨⟨shelf.keys,shelf.headerRow,shelf.bodyRow,fun x header found => ?_,fun x block found => ?_,fun x record found => ?_⟩,
    shelf.paired,fun x mentioned => absurd mentioned (bootedMentions booted x)⟩
  · rw [(quiet x).1] at found
    cases found
  · rw [(quiet x).2.1] at found
    cases found
  · rw [(quiet x).2.2] at found
    cases found

/- What an open comes up with: the rows it finds, filed and agreed, and the tip and floor they tell. -/
structure Reopened (crates : Crates) (content : Bytes32 → L2BlockHeader) (db : Db) (head : Option ChainTip) (low : UInt64)
    (v : Store) : Prop where
  db : v.db = db
  tip : v.tip = head
  floor : v.minRetainedHeightCached = low
  agreed : Agreed v
  filed : Filed crates content v
  whole : Whole v

theorem openReopens {config : BlockStoreConfig} {file : Option Bytes} {disk : Disk} (lawful : crates.Lawful)
    (shelf : Shelf crates content db) (booting : Booting db head low)
    (h : Runs (openStore crates config) ⟨db,file⟩ (.ok v) disk) : Reopened crates content db head low v := by
  have clear := openStoreSeated h
  obtain ⟨_,u,booted,touched⟩ := openStoreOk h
  obtain ⟨indexed,rows,tip,floor,cache,_⟩ := bootedIndexed booting.typed booting.tipRow booted
  obtain ⟨filed,whole⟩ := shelf.booted booted
  have agreed : Agreed u := ⟨indexed,cachelessCoherent cache,fun _ => by rw [rows]; exact clear⟩
  exact ⟨touched.db.trans rows,touched.tip.trans tip,touched.floor.trans (floor.trans booting.floorRow),touched.quiet.agreed agreed,
    touched.filed lawful filed,touched.whole whole⟩

theorem Based.linked (based : Based crates content db head low) (reopened : Reopened crates content db head low v) :
    Linked crates content v where
  filed := reopened.filed
  whole := reopened.whole
  chain := by rw [reopened.db,reopened.tip,reopened.floor]; exact based.chain
  held h x found := by
    rw [reopened.db] at found
    rw [Stored,reopened.db]
    exact based.held h x found

end Databases

section Halts

def Training (cf : Cf) (key : Bytes) : Prop := cf = .metadata ∧ key = metaZstdDict

theorem trainingWithin : Within (Untouched Training) (maybeTrainDictionary crates) := fun _ _ _ h cf key out =>
  (maybeTrainRuns h).rows cf key out

theorem tailWithin (block : L2Block) (canonical : Bool) : Within (Untouched Training) (putTail crates block canonical) :=
  withinBind (indexWithin _ _ _) fun _ => withinBind (withinMemory fun _ => rfl) fun _ =>
    withinBind (withinMemory fun _ => rfl) fun _ => withinBind (withinMemory fun _ => rfl) fun _ =>
      withinBind (withinMemory fun _ => rfl) fun _ => withinBind trainingWithin fun _ => withinPure _

theorem genesisTailWithin (block : L2Block) : Within (Untouched Training) (genesisTail crates block) :=
  withinBind (withinOnBin _) fun _ => withinBind (withinMemory fun _ => rfl) fun _ =>
    withinBind (withinMemory fun _ => rfl) fun _ => withinBind (withinMemory fun _ => rfl) fun _ =>
      withinBind (withinMemory fun _ => rfl) fun _ => trainingWithin

theorem ingestedDb (block : L2Block) (canonical : Bool) (compressed headerBytes : Bytes) :
    (s.ingested crates block canonical compressed headerBytes).db = (s.commit (putRows crates block canonical compressed headerBytes)).db := by
  unfold ingested refreshIndex
  split
  · rw [insertHeightRest]
    rfl
  · rfl

theorem putHalts {block : L2Block} {canonical : Bool} {r : Exit Bool} (h : Runs (putBlock crates block canonical) s r t) :
    t.db = s.db ∨ ∃ compressed headerBytes, Packs crates s block compressed headerBytes ∧
      Untouched Training (s.ingested crates block canonical compressed headerBytes) t := by
  rcases putBlockRuns h with ⟨_,rfl,_⟩ | ⟨_,rfl⟩ | ⟨compressed,headerBytes,packs,later⟩
  · exact .inl rfl
  · exact .inl rfl
  · exact .inr ⟨compressed,headerBytes,packs,trans_of _ (untouchedDb (ingestedDb ..).symm) (tailWithin block canonical _ _ _ later)⟩

theorem Untouched.booting (untouched : Untouched Training s t) (booting : Booting s.db head low) : Booting t.db head low :=
  booting.congr (untouched.column (by simp [Training])) (untouched _ _ (by simp [Training])) (untouched _ _ (by simp [Training]))

theorem Untouched.shelf (untouched : Untouched Training s t) (shelf : Shelf crates content s.db) : Shelf crates content t.db :=
  shelf.congr (untouched.column (by simp [Training])) (untouched.column (by simp [Training]))

theorem discardRuns {α : Type} {m : StoreM α} {r : Exit Unit} (h : Runs (discard m) s r t) :
    ∃ r' : Exit α, Runs m s r' t ∧ ∀ a, r' = .ok a → r = .ok () := by
  rcases runsBind h with ⟨a,u,one,last⟩ | ⟨e,rfl,one⟩
  · obtain ⟨rfl,rfl⟩ := runsPure.mp last
    exact ⟨.ok a,one,fun _ _ => rfl⟩
  · exact ⟨.error e,one,fun _ bad => by cases bad⟩

end Halts

section Landings

/- An open of the database shows the tree. -/
def Landed (crates : Crates) (tree : HeaderTree) (db : Db) : Prop :=
  ∃ content head low, Based crates content db head low ∧ tree.head = head.map ChainTip.hash ∧ tree.floor = low.toNat ∧
    ∀ x, tree.blocks x = if (db .headers)[hashKey x]?.isSome then some (content x) else none

theorem Linked.landed (lawful : crates.Lawful) (linked : Linked crates content s) (indexed : Indexed s) :
    Landed crates (s.tree crates) s.db :=
  ⟨content,_,_,linked.based indexed,rfl,rfl,fun _ => linked.filed.headerAt lawful⟩

theorem Landed.congr {tree : HeaderTree} (landed : Landed crates tree s.db) (untouched : Untouched Training s t) :
    Landed crates tree t.db := by
  obtain ⟨content,head,low,based,top,floor,blocks⟩ := landed
  have rows : t.db .canonical = s.db .canonical := untouched.column (by simp [Training])
  have headers : t.db .headers = s.db .headers := untouched.column (by simp [Training])
  have index : canonicalAt t.db = canonicalAt s.db := funext (canonicalAtCongr rows)
  exact ⟨content,head,low,⟨untouched.shelf based.shelf,untouched.booting based.booting,by rw [index]; exact based.chain,
    by rw [index,headers]; exact based.held⟩,top,floor,by rw [headers]; exact blocks⟩

theorem chainLands (lawful : crates.Lawful) (filed : Filed crates content w) (whole : Whole w) (booting : Booting w.db head low)
    (chain : Chained content (canonicalAt w.db) low head) (held : ∀ h x, canonicalAt w.db h = some x → w.Stored x) :
    Landed crates ⟨w.headerAt crates,head.map ChainTip.hash,low.toNat⟩ w.db :=
  ⟨content,head,low,⟨shelfOf filed whole,booting,chain,held⟩,rfl,rfl,fun _ => filed.headerAt lawful⟩

theorem Reopened.tree {tree : HeaderTree} (lawful : crates.Lawful) (reopened : Reopened crates content db head low v)
    (top : tree.head = head.map ChainTip.hash) (floor : tree.floor = low.toNat)
    (blocks : ∀ x, tree.blocks x = if (db .headers)[hashKey x]?.isSome then some (content x) else none) : v.tree crates = tree := by
  have rows : v.headerAt crates = tree.blocks := funext fun x => by
    rw [reopened.filed.headerAt lawful,reopened.db,blocks]
  rw [Store.tree,rows,reopened.tip,reopened.floor,← top,← floor]

theorem Landed.shows {tree : HeaderTree} {config : BlockStoreConfig} {file : Option Bytes} {disk : Disk} (lawful : crates.Lawful)
    (landed : Landed crates tree db) (h : Runs (openStore crates config) ⟨db,file⟩ (.ok v) disk) :
    v.tree crates = tree ∧ v.Agreed ∧ ∃ content, v.Linked crates content := by
  obtain ⟨content,head,low,based,top,floor,blocks⟩ := landed
  have reopened := openReopens lawful based.shelf based.booting h
  exact ⟨reopened.tree lawful top floor blocks,reopened.agreed,content,based.linked reopened⟩

end Landings

section Calls

theorem asideLands {block : L2Block} {compressed headerBytes : Bytes} (lawful : crates.Lawful) (indexed : Indexed s)
    (linked : Linked crates content s) (packs : Packs crates s block compressed headerBytes) :
    Landed crates ((s.tree crates).move (.add (block.hash crates) block.header))
      (s.ingested crates block false compressed headerBytes).db := by
  have absent : ¬s.Stored (block.hash crates) := fun row => by
    have body := (linked.whole.paired _).mpr row
    rw [packs.absent] at body
    cases body
  have ingests := @ingestedIngests crates s block false compressed headerBytes
  have filed := @ingestedFiled crates s content block false _ _ linked.filed packs.body packs.header
  have shift := @ingestedShift crates s indexed packs.writes block false compressed headerBytes
  have rows : canonicalAt (s.ingested crates block false compressed headerBytes).db = canonicalAt s.db := shift.rows
  have booting := shift.indexed.booting
  rw [shift.tip,shift.floor] at booting
  have landed := chainLands lawful filed (linked.whole.ingest ingests) booting
    (by rw [rows]; exact linked.chain.ingest (linked.apart absent))
    fun h x found => (ingests.stored x).mpr (.inr (linked.held h x (by rwa [rows] at found)))
  have blocks := putTree lawful linked.filed filed ingests fun _ => Iff.rfl
  rw [HeaderTree.move,Tree.move,if_neg fun row => absent ((linked.stored lawful _).mp row)]
  rwa [blocks] at landed

theorem Indexed.headless (indexed : Indexed s) (absent : (s.db .metadata)[metaTip]? = none) : s.tip = none := by
  have row := indexed.tipRow
  rw [absent] at row
  exact Option.map_eq_none_iff.mp row.symm

theorem genesisDb {block : L2Block} (zero : block.height = 0) (compressed headerBytes : Bytes) :
    (s.genesis crates block compressed headerBytes).db =
      (((s.ingested crates block true compressed headerBytes).withTip ⟨block.hash crates,0⟩).commit
        [.put .metadata metaGenesisHash (block.hash crates).bytes]).db := by
  change applyAll _ s.db = applyAll _ (applyAll _ (s.ingested crates block true compressed headerBytes).db)
  rw [ingestedDb,← applyAllAppend]
  change _ = applyAll _ (applyAll _ s.db)
  rw [← applyAllAppend,putRows,if_pos rfl,zero,genesisRows]
  simp

theorem genesisLands {block : L2Block} {r : Exit Unit} (lawful : crates.Lawful) (indexed : Indexed s)
    (linked : Linked crates content s) (h : Runs (initGenesis crates block) s r t) :
    t.db = s.db ∨ Landed crates ((s.tree crates).move (.genesis (block.hash crates) block.header)) t.db := by
  rcases initGenesisRuns h with rfl | ⟨compressed,headerBytes,body,header,⟨writes,absent,_,zero⟩,later⟩
  · exact .inl rfl
  have headless := indexed.headless absent
  have chain := linked.chain
  rw [headless] at chain
  obtain ⟨empty,floor⟩ := chain
  have shift := (@ingestedShift crates s indexed writes block true compressed headerBytes).withTip ⟨block.hash crates,0⟩
  have ingests := @genesisIngests crates s block compressed headerBytes
  have filed := linked.filed.ingest (serializeBlockEncodes body) (serializeHeaderOk header) ingests
  have db := @genesisDb crates s block zero compressed headerBytes
  have column : (s.genesis crates block compressed headerBytes).db .canonical =
      ((s.ingested crates block true compressed headerBytes).withTip ⟨block.hash crates,0⟩).db .canonical := by
    rw [db]
    exact frameColumn (by simp [ColumnStore.Write.column])
  have rows : canonicalAt (s.genesis crates block compressed headerBytes).db =
      Function.update (canonicalAt s.db) 0 (some (block.hash crates)) := by
    rw [funext (canonicalAtCongr column),shift.rows,putIndex,if_pos rfl,zero]
  have booting : Booting (s.genesis crates block compressed headerBytes).db (some ⟨block.hash crates,0⟩) s.minRetainedHeightCached := by
    have before := shift.indexed.booting
    rw [shift.tip,shift.floor] at before
    refine before.congr column ?_ ?_
    · rw [db]
      exact ColumnStore.frame fun write mem => by
        rw [List.mem_singleton.mp mem,effectPut,if_neg]
        simp
    · rw [db]
      exact ColumnStore.frame fun write mem => by
        rw [List.mem_singleton.mp mem,effectPut,if_neg]
        simp
  have landed := chainLands lawful filed (linked.whole.ingest ingests) booting (by
      rw [rows,floor]
      refine ⟨Segment.single toNatInjective ?_ empty,Function.update_self ..⟩
      rw [Store.ingest,Function.update_self]
      exact zero)
    fun h x found => by
      rw [ingests.stored]
      rw [rows] at found
      by_cases same : h = 0
      · subst same
        rw [Function.update_self] at found
        exact .inl (Option.some.inj found).symm
      · rw [Function.update_of_ne same,empty] at found
        cases found
  rw [putTree lawful linked.filed filed ingests fun _ => Iff.rfl] at landed
  exact .inr (landed.congr (trans_of _ (untouchedDb rfl) (genesisTailWithin block _ _ _ later)))

theorem extendHalts {block : L2Block} {r : Exit Bool} (h : Runs (extendChain crates block) s r t) :
    t.db = s.db ∨ (∃ compressed headerBytes, Packs crates s block compressed headerBytes ∧
      Untouched Training (s.ingested crates block true compressed headerBytes) t) ∨ ∃ added, r = .ok added := by
  unfold extendChain at h
  rw [runsGetBind] at h
  split at h
  · exact .inr (.inr ⟨_,(runsPure.mp h).1⟩)
  · rcases runsBind h with ⟨added,u,putting,later⟩ | ⟨e,_,putting⟩
    · rcases runsBind later with ⟨_,w,setting,last⟩ | ⟨e,_,setting⟩
      · exact .inr (.inr ⟨_,(runsPure.mp last).1⟩)
      · rcases setTipRuns setting with ⟨_,rfl⟩ | ⟨bad,_⟩
        · exact (putHalts putting).imp_right .inl
        · cases bad
    · exact (putHalts putting).imp_right .inl

/- The rows above the target are gone and nothing else is. -/
def Beheaded (s t : Store) (target : UInt64) : Prop :=
  ∃ tip, s.tip = some tip ∧ target < tip.height ∧ s.minRetainedHeightCached ≤ target ∧
    t.db = applyAll (deleteRows (heightsThrough (target + 1) tip.height)) s.db

theorem rollbackHalts (crates : Crates) {target : UInt64} {r : Exit (List Bytes32)} (h : Runs (rollbackToHeight target) s r t) :
    t.db = s.db ∨ Beheaded s t target ∨ ∃ reverted, r = .ok reverted := by
  rcases @rollbackRuns crates _ _ _ _ h with ⟨_,touched⟩ | ⟨_,_,_,_,_,rfl,_⟩ | ⟨tip,reverted,u,rolling,later⟩
  · exact .inl touched.db
  · exact .inr (.inr ⟨_,rfl⟩)
  · have half (w : Store) (same : w.db = (u.commit (deleteRows (heightsThrough (target + 1) tip.height))).db) :
        Beheaded s w target := by
      refine ⟨tip,rolling.head,rolling.below,rolling.retained,?_⟩
      rw [same,← rolling.touched.db]
      rfl
    unfold rollbackTail at later
    rcases runsBind later with ⟨_,a,cutting,later⟩ | ⟨e,_,cutting⟩
    · obtain ⟨_,rfl⟩ := truncateRuns cutting
      rcases runsBind later with ⟨found,b,looking,later⟩ | ⟨e,_,looking⟩
      · have touched := (@getHashByHeightRuns crates _ _ _ _ looking).1
        rcases runsBind later with ⟨_,c,setting,later⟩ | ⟨e,_,setting⟩
        · rw [runsModifyBind,runsModifyBind] at later
          exact .inr (.inr ⟨_,(runsPure.mp later).1⟩)
        · rcases retipAtRuns setting with ⟨_,rfl⟩ | ⟨bad,_⟩
          · exact .inr (.inl (half t touched.db))
          · cases bad
      · exact .inr (.inl (half t (@getHashByHeightRuns crates _ _ _ _ looking).1.db))
    · exact .inr (.inl (half t (by
        have kept : Untouched (fun _ _ => False) (u.commit (deleteRows (heightsThrough (target + 1) tip.height))) t :=
          withinOnBin _ _ _ _ cutting
        exact funext fun cf => kept.column fun _ => id)))

theorem reorgTailDb {ancestor : UInt64} {hashes : List Bytes32} {plan : ReorgPlan} {r : Exit ReorgResult}
    (h : Runs (reorgTail ancestor hashes plan) s r t) : t.db = s.db := by
  have kept : Within (Untouched fun _ _ => False) (reorgTail ancestor hashes plan) :=
    withinBind (withinOnBin _) fun _ => withinBind (withinForEach _ fun _ _ => withinOnBin _) fun _ =>
      withinBind (withinMemory (flagRecordsDb false plan.reverted)) fun _ => withinBind (withinMemory (flagRecordsDb true hashes)) fun _ =>
        withinBind (withinMemory fun _ => rfl) fun _ => withinBind (withinMemory fun _ => rfl) fun _ =>
          withinBind (withinMemory fun _ => rfl) fun _ => withinPure _
  exact funext fun cf => (kept _ _ _ h).column fun _ => id

theorem reorgLands {a b : Bytes32} {ancestor top : UInt64} {hashes : List Bytes32} {r : Exit ReorgResult} (lawful : crates.Lawful)
    (indexed : Indexed s) (linked : Linked crates content s) (base : canonicalAt s.db ancestor = some a)
    (steps : ParentWalk crates s a ancestor hashes b top) (h : Runs (applyReorg crates ancestor hashes) s r t) :
    t.db = s.db ∨ Landed crates ((s.tree crates).move (.reorg hashes)) t.db := by
  rcases applyReorgRuns h with ⟨_,touched⟩ | ⟨plan,u,planned,later⟩
  · exact .inl touched.db
  right
  have db : t.db = applyAll plan.rows s.db := by
    rw [reorgTailDb later,← planned.touched.db]
    rfl
  have walk := steps.walk lawful linked.filed
  have rows := (planned.heightsOf lawful linked.filed).1
  have chain := linked.chain
  rw [planned.head] at chain
  obtain ⟨spans,top'⟩ := reorgSpans chain.spans base walk planned.some planned.heights rows
  have column : ∀ cf, cf ≠ .canonical → cf ≠ .metadata → t.db cf = s.db cf := fun cf canonical metas => by
    have kept := reorgedColumn ancestor hashes plan (u := u) canonical metas
    rw [planned.touched.db] at kept
    rw [← kept,reorgTailDb later]
    change _ = (flagRecords true hashes (flagRecords false plan.reverted (u.switched ancestor plan))).db cf
    rw [flagRecordsDb,flagRecordsDb]
    rfl
  have index : canonicalAt t.db = plan.index (canonicalAt s.db) := by rw [db,canonicalAtReorg]
  have headers := column .headers (by simp) (by simp)
  have based : Based crates content t.db (some ⟨b,top⟩) s.minRetainedHeightCached :=
    { shelf := (shelfOf linked.filed linked.whole).congr (column .blocks (by simp) (by simp)) headers
      booting :=
        { typed := by rw [db]; exact typedCommit indexed.typed (typedReorg plan)
          tipRow := by rw [db,tipRowReorg,planned.newTip lawful linked.filed walk]; rfl
          floorRow := by rw [@loadFloorCongr s.db t.db (by rw [db,floorRowReorg]),indexed.floorRow] }
      chain := by rw [index]; exact ⟨spans,top'⟩
      held := fun h x found => by
        rw [headers]
        rw [index,ReorgPlan.index,putAllAt,rows] at found
        rcases Option.or_eq_some_iff.mp found with last | ⟨_,older⟩
        · obtain ⟨y,mem,same⟩ := List.mem_map.mp (lastRowMem last)
          cases same
          exact steps.stored _ mem
        · exact linked.held h x (eraseAllSome older) }
  refine ⟨content,_,_,based,?_,rfl,fun x => ?_⟩
  · exact (walk.ends planned.some).1
  · rw [headers]
    exact linked.filed.headerAt lawful

def treeAfter (crates : Crates) (s : Store) (c : Call) : HeaderTree := (c.moves crates).foldl HeaderTree.move (s.tree crates)

/- A call stopped between its rows and its tip. -/
inductive Half (crates : Crates) (s t : Store) : Call → Prop where
  | extend {block : L2Block} {tip : ChainTip} {compressed headerBytes : Bytes} (head : s.tip = some tip)
      (next : block.height.toNat = tip.height.toNat + 1) (packs : Packs crates s block compressed headerBytes)
      (left : Untouched Training (s.ingested crates block true compressed headerBytes) t) : Half crates s t (.extendChain block)
  | rollback {target : UInt64} (left : Beheaded s t target) : Half crates s t (.rollbackToHeight target)

theorem callOkLands {c : Call} (lawful : crates.Lawful) (agreed : Agreed s) (linked : Linked crates content s)
    (linkedCall : LinkedCall crates s c) (h : Runs (call crates c) s (.ok ()) t) : Landed crates (s.treeAfter crates c) t.db := by
  obtain ⟨content',linked'⟩ := linkedKeeps lawful agreed.indexed agreed.coherent linked linkedCall h
  have seen : t.tree crates = s.treeAfter crates c := @takesTree crates s t content (.call c) lawful agreed linked linkedCall h
  rw [← seen]
  exact linked'.landed lawful (callIndexed agreed.indexed h)

theorem callHalts {c : Call} {r : Exit Unit} (lawful : crates.Lawful) (agreed : Agreed s) (linked : Linked crates content s)
    (linkedCall : LinkedCall crates s c) (h : Runs (call crates c) s r t) :
    Landed crates (s.tree crates) t.db ∨ Landed crates (s.treeAfter crates c) t.db ∨ Half crates s t c := by
  have before := linked.landed lawful agreed.indexed
  have whole : r = .ok () → Landed crates (s.treeAfter crates c) t.db := fun ok => by
    subst ok
    exact callOkLands lawful agreed linked linkedCall h
  have same (db : t.db = s.db) : Landed crates (s.tree crates) t.db := by rwa [db]
  cases linkedCall with
  | read r => exact .inl (same (readTouched h).db)
  | genesis block => exact (genesisLands lawful agreed.indexed linked h).imp same .inl
  | aside block =>
    obtain ⟨r',run,_⟩ := discardRuns h
    rcases putHalts run with db | ⟨compressed,headerBytes,packs,left⟩
    · exact .inl (same db)
    · exact .inr (.inl ((asideLands lawful agreed.indexed linked packs).congr left))
  | extend head up next =>
    obtain ⟨r',run,done⟩ := discardRuns h
    rcases extendHalts run with db | ⟨compressed,headerBytes,packs,left⟩ | ⟨added,ok⟩
    · exact .inl (same db)
    · exact .inr (.inr (.extend head next packs left))
    · exact .inr (.inl (whole (done added ok)))
  | rollback target =>
    obtain ⟨r',run,done⟩ := discardRuns h
    rcases rollbackHalts crates run with db | left | ⟨reverted,ok⟩
    · exact .inl (same db)
    · exact .inr (.inr (.rollback left))
    · exact .inr (.inl (whole (done reverted ok)))
  | reorg found steps =>
    obtain ⟨r',run,_⟩ := discardRuns h
    have answer := ancestorWalkFound agreed.indexed agreed.coherent found
    have base : canonicalAt s.db _ = some _ := canonicalAnswerRow answer
    exact (reorgLands lawful agreed.indexed linked base steps run).imp same .inl
  | prune head below =>
    obtain ⟨r',run,done⟩ := discardRuns h
    rcases pruneRuns agreed.indexed run with ⟨_,touched⟩ | ⟨_,_,_,rfl⟩ | ⟨plan,u,_,ok,_⟩
    · exact .inl (same touched.db)
    · exact .inl before
    · exact .inr (.inl (whole (done _ ok)))

end Calls

section Torn

/- The canonical rows have moved, the tip and the floor have not. -/
def Torn (s t : Store) : Prop :=
  canonicalAt t.db ≠ canonicalAt s.db ∧ (t.db .metadata)[metaTip]? = (s.db .metadata)[metaTip]? ∧
    (t.db .metadata)[metaMinHeight]? = (s.db .metadata)[metaMinHeight]?

def Topped (s : Store) : Prop :=
  ∀ tip, s.tip = some tip → canonicalAt s.db tip.height = some tip.hash ∧ ∀ h, tip.height < h → canonicalAt s.db h = none

theorem Linked.topped (linked : Linked crates content s) : Topped s := by
  intro tip head
  refine ⟨?_,linked.clear head⟩
  have chain := linked.chain
  rw [head] at chain
  exact chain.top

theorem tipRowInj {head head' : Option ChainTip} (same : head.map ChainTip.toBytes = head'.map ChainTip.toBytes) : head = head' := by
  cases head with
  | none =>
    cases head' with
    | none => rfl
    | some tip' => cases same
  | some tip =>
    cases head' with
    | none => cases same
    | some tip' =>
      have read := congrArg ChainTip.fromBytes (Option.some.inj same)
      rw [ChainTip.fromBytesToBytes,ChainTip.fromBytesToBytes] at read
      rw [Except.ok.inj read]

theorem Torn.booting (torn : Torn s t) (before : Booting s.db s.tip s.minRetainedHeightCached) (after : Booting t.db head low) :
    head = s.tip ∧ low = s.minRetainedHeightCached := by
  obtain ⟨_,tipRow,floorRow⟩ := torn
  exact ⟨tipRowInj (by rw [← after.tipRow,tipRow,before.tipRow]),by rw [← after.floorRow,loadFloorCongr floorRow,before.floorRow]⟩

theorem Landed.chainAt {tree : HeaderTree} (landed : Landed crates tree db) (h : UInt64) : canonicalAt db h = tree.chainAt h.toNat := by
  obtain ⟨content,head,low,based,top,floor,blocks⟩ := landed
  exact based.chain.chainAt top floor (fun k x found => by rw [blocks,if_pos (based.held k x found)]) h

theorem Landed.notTorn (lawful : crates.Lawful) (linked : Linked crates content s) (landed : Landed crates (s.tree crates) t.db) :
    ¬Torn s t := fun torn => torn.1 (funext fun h => by rw [landed.chainAt,linked.chainAt lawful])

theorem sameTree {c : Call} {r : Exit Unit} (lawful : crates.Lawful) (agreed : Agreed s) (linked : Linked crates content s)
    (linkedCall : LinkedCall crates s c) (h : Runs (call crates c) s r t) (torn : Torn s t)
    (top : (s.treeAfter crates c).head = (s.tree crates).head) (floor : (s.treeAfter crates c).floor = (s.tree crates).floor) :
    s.treeAfter crates c = s.tree crates := by
  cases linkedCall with
  | read r => rfl
  | genesis block =>
    rcases initGenesisRuns h with rfl | ⟨_,_,_,_,founds,_⟩
    · exact absurd rfl torn.1
    · have headless := agreed.indexed.headless founds.headless
      change some _ = s.tip.map ChainTip.hash at top
      rw [headless] at top
      cases top
  | aside block =>
    obtain ⟨r',run,_⟩ := discardRuns h
    rcases putHalts run with db | ⟨compressed,headerBytes,packs,left⟩
    · exact absurd (by rw [db]) torn.1
    · have rows : t.db .canonical = _ := left.column (by simp [Training])
      have shift := @ingestedShift crates s agreed.indexed packs.writes block false compressed headerBytes
      exact absurd ((funext (canonicalAtCongr rows)).trans shift.rows) torn.1
  | @extend block tip head up next =>
    change (s.tree crates).move (.extend (block.hash crates) block.header) = s.tree crates
    change ((s.tree crates).move (.extend (block.hash crates) block.header)).head = (s.tree crates).head at top
    have chain := linked.chain
    rw [head] at chain
    rw [HeaderTree.move,Tree.move] at top ⊢
    split at top
    · rename_i stored
      rw [if_pos stored]
    · rename_i absent
      change some _ = s.tip.map ChainTip.hash at top
      rw [head] at top
      refine absurd ((linked.stored lawful _).mpr ?_) absent
      rw [Option.some.inj top]
      exact linked.held _ _ chain.top
  | rollback target =>
    change {s.tree crates with head := (s.treeAfter crates (.rollbackToHeight target)).head} = _
    rw [top]
  | @reorg _ _ ancestor _ _ walk _ found steps =>
    change {s.tree crates with head := (s.treeAfter crates (.applyReorg ancestor walk)).head} = _
    rw [top]
  | @prune tip height head below =>
    change (s.tree crates).move (.prune height.toNat) = s.tree crates
    change ((s.tree crates).move (.prune height.toNat)).floor = (s.tree crates).floor at floor
    rw [HeaderTree.move,Tree.move] at floor ⊢
    split at floor
    · rename_i low
      rw [if_pos low]
    · rename_i high
      exact absurd (Nat.le_of_eq floor) high

theorem afterNotTorn {c : Call} {r : Exit Unit} (lawful : crates.Lawful) (agreed : Agreed s) (linked : Linked crates content s)
    (linkedCall : LinkedCall crates s c) (h : Runs (call crates c) s r t) (landed : Landed crates (s.treeAfter crates c) t.db) :
    ¬Torn s t := by
  intro torn
  have before := landed
  obtain ⟨_,_,_,based,top,floor,_⟩ := landed
  obtain ⟨rfl,rfl⟩ := torn.booting agreed.indexed.booting based.booting
  rw [sameTree lawful agreed linked linkedCall h torn top floor] at before
  exact before.notTorn lawful linked torn

end Torn

section Again

theorem linkedStep {c : Call} (lawful : crates.Lawful) (agreed : Agreed s) (linked : Linked crates content s)
    (linkedCall : LinkedCall crates s c) (h : Runs (call crates c) s (.ok ()) t) :
    t.tree crates = s.treeAfter crates c ∧ t.Agreed ∧ ∃ content, t.Linked crates content :=
  ⟨@takesTree crates s t content (.call c) lawful agreed linked linkedCall h,
    ⟨callIndexed agreed.indexed h,
      callCoherent agreed.indexed agreed.coherent (linkedUnshadowed agreed.indexed agreed.coherent linked linkedCall h) h,
      callSeated agreed.indexed agreed.seated h⟩,
    linkedKeeps lawful agreed.indexed agreed.coherent linked linkedCall h⟩

theorem ParentWalk.along {a b : Bytes32} {height top : UInt64} {walk : List Bytes32} (same : t.headerAt crates = s.headerAt crates)
    (steps : ParentWalk crates s a height walk b top) : ParentWalk crates t a height walk b top := by
  induction steps with
  | nil a height => exact .nil a height
  | cons row up next later ih => exact .cons (by rw [same]; exact row) up next ih

theorem Linked.tipOf (lawful : crates.Lawful) (linked : Linked crates content s) {tip : ChainTip} (head : s.tip = some tip) :
    (s.tree crates).head = some tip.hash ∧ (s.tree crates).blocks tip.hash = some (content tip.hash) ∧
      (content tip.hash).height = tip.height := by
  obtain ⟨_,placed⟩ := linked.treeTop lawful head
  have chain := linked.chain
  rw [head] at chain
  exact ⟨by rw [tree,head]; rfl,linked.filed.storedHeader lawful (linked.held _ _ chain.top),placed⟩

theorem sameTip {content' : Bytes32 → L2BlockHeader} {tip : ChainTip} (lawful : crates.Lawful) (linked : Linked crates content s)
    (linked' : Linked crates content' v) (head : s.tip = some tip) (top : (v.tree crates).head = (s.tree crates).head)
    (kept : ∀ x header, (v.tree crates).blocks x = some header → (s.tree crates).blocks x = some header) : v.tip = some tip := by
  obtain ⟨top',block,height⟩ := linked.tipOf lawful head
  rw [top'] at top
  cases head' : v.tip with
  | none =>
    change v.tip.map ChainTip.hash = _ at top
    rw [head'] at top
    cases top
  | some tip' =>
    obtain ⟨here,block',height'⟩ := linked'.tipOf lawful head'
    have hash : tip'.hash = tip.hash := Option.some.inj (here.symm.trans top)
    have same := kept _ _ block'
    rw [hash,block] at same
    rw [hash] at height'
    have level : tip'.height = tip.height := by rw [← height',← height,Option.some.inj same]
    exact congrArg some (by
      cases tip'
      cases tip
      cases hash
      cases level
      rfl)

theorem rolledBackStays {content' : Bytes32 → L2BlockHeader} {target : UInt64} {tip : ChainTip} (lawful : crates.Lawful)
    (linked : Linked crates content s) (linked' : Linked crates content' v) (head : v.tip = some tip)
    (after : v.tree crates = s.treeAfter crates (.rollbackToHeight target)) :
    v.treeAfter crates (.rollbackToHeight target) = s.treeAfter crates (.rollbackToHeight target) := by
  obtain ⟨top,block,height⟩ := linked'.tipOf lawful head
  have row : canonicalAt s.db target = some tip.hash := by
    rw [linked.chainAt lawful,← top,after]
    rfl
  have chain := linked.chain
  have placed : (content tip.hash).height = target := by
    cases head' : s.tip with
    | none =>
      rw [head'] at chain
      rw [chain.1] at row
      cases row
    | some tip' =>
      rw [head'] at chain
      exact chain.spans.placed _ _ row
  have here : tip.height = target := by
    have stored : (s.tree crates).blocks tip.hash = some (content' tip.hash) := by
      rw [← block,after]
      rfl
    rw [show (s.tree crates).blocks tip.hash = _ from linked.filed.storedHeader lawful (linked.held _ _ row)] at stored
    rw [← height,← Option.some.inj stored,placed]
  have chain' := linked'.chain
  rw [head] at chain'
  have stays : (v.tree crates).chainAt target.toNat = (v.tree crates).head := by
    rw [← linked'.chainAt lawful,top,← here,chain'.top]
  change {v.tree crates with head := (v.tree crates).chainAt target.toNat} = _
  rw [stays,after]

theorem extendAgain {block : L2Block} {content' : Bytes32 → L2BlockHeader} (lawful : crates.Lawful)
    (linked' : Linked crates content' v) (after : v.tree crates = s.treeAfter crates (.extendChain block)) {added : Bool}
    (h : Runs (extendChain crates block) v (.ok added) w) : w = v := by
  have stored : v.Stored (block.hash crates) := (linked'.stored lawful _).mp (by
    rw [after]
    exact @Tree.extendStored _ _ L2BlockHeader.level L2BlockHeader.parentHash _ _ _ _)
  rcases extendChainOk h with ⟨_,rfl,_⟩ | ⟨_,missing,_⟩
  · rfl
  · rw [(linked'.present _).mpr stored] at missing
    cases missing

theorem pruneHead {content' : Bytes32 → L2BlockHeader} {tip : ChainTip} {height : UInt64} (lawful : crates.Lawful)
    (linked : Linked crates content s) (linked' : Linked crates content' v) (head : s.tip = some tip)
    (stage : v.tree crates = s.tree crates ∨ v.tree crates = s.treeAfter crates (.pruneBeforeHeight height)) : v.tip = some tip := by
  rcases stage with before | after
  · exact sameTip lawful linked linked' head (by rw [before]) fun x header row => by rwa [before] at row
  · refine sameTip lawful linked linked' head ?_ fun x header row => ?_
    · rw [after]
      change ((s.tree crates).move (.prune height.toNat)).head = _
      rw [HeaderTree.move,Tree.move]
      split <;> rfl
    · rw [after] at row
      exact @Tree.pruneKept _ _ L2BlockHeader.level L2BlockHeader.parentHash _ _ _ _ _ row

section Reorgs
variable {a b : Bytes32} {ancestor top : UInt64} {walk : List Bytes32} {content' : Bytes32 → L2BlockHeader}

/- The ancestor is canonical also after the reorg: the walk is then the end of the chain, and it starts there. -/
theorem reorgBase {tip : ChainTip} (lawful : crates.Lawful) (linked : Linked crates content s) (linked' : Linked crates content' v)
    (answer : s.canonicalAnswer ancestor = some a) (steps : ParentWalk crates v a ancestor walk b top) (some' : walk ≠ [])
    (head : v.tip = some tip)
    (stage : v.tree crates = s.tree crates ∨ v.tree crates = s.treeAfter crates (.applyReorg ancestor walk)) :
    canonicalAt v.db ancestor = some a := by
  rcases stage with before | after
  · rw [linked'.chainAt lawful,before,← linked.chainAt lawful,canonicalAnswerRow answer]
  · have walked := steps.walk lawful linked'.filed
    obtain ⟨ends,level⟩ := walked.ends some'
    obtain ⟨here,_,height⟩ := linked'.tipOf lawful head
    have last : tip.hash = b := by
      rw [after] at here
      exact Option.some.inj (here.symm.trans ends)
    have floor : v.minRetainedHeightCached.toNat = s.minRetainedHeightCached.toNat := congrArg Tree.floor after
    have low : s.minRetainedHeightCached ≤ ancestor := by
      by_contra below
      rw [canonicalAnswerBelow (UInt64.not_le.mp below)] at answer
      cases answer
    have chain := linked'.chain
    rw [head] at chain
    refine chain.spans.base walked ?_ ?_
    · rw [← level,← last,height]
      exact chain.top
    · rw [floor]
      exact UInt64.le_iff_toNat_le.mp low

theorem reorgAgain {result : ReorgResult} (lawful : crates.Lawful) (linked : Linked crates content s) (agreed' : Agreed v)
    (linked' : Linked crates content' v) (answer : s.canonicalAnswer ancestor = some a)
    (steps : ParentWalk crates s a ancestor walk b top)
    (stage : v.tree crates = s.tree crates ∨ v.tree crates = s.treeAfter crates (.applyReorg ancestor walk))
    (h : Runs (applyReorg crates ancestor walk) v (.ok result) w) :
    w.tree crates = s.treeAfter crates (.applyReorg ancestor walk) ∧ Linked crates content' w := by
  obtain ⟨plan,_,planned,_⟩ := applyReorgOk h
  have headers : v.headerAt crates = s.headerAt crates := stage.elim (congrArg Tree.blocks) (congrArg Tree.blocks)
  have steps' := steps.along headers
  have base := reorgBase lawful linked linked' answer steps' planned.some planned.head stage
  refine ⟨?_,reorgOntoLinked lawful agreed'.indexed linked' base steps' h⟩
  rw [reorgTree lawful agreed'.indexed linked' steps' h]
  rcases stage with before | after
  · rw [before]
    rfl
  · rw [after]
    rfl

end Reorgs

/- A call interrupted before or after its writes ends where it would have when it is made again. -/
theorem madeAgain {c : Call} {content' : Bytes32 → L2BlockHeader} (lawful : crates.Lawful) (agreed : Agreed s)
    (linked : Linked crates content s) (linkedCall : LinkedCall crates s c) (agreed' : Agreed v) (linked' : Linked crates content' v)
    (stage : v.tree crates = s.tree crates ∨ v.tree crates = s.treeAfter crates c) (h : Runs (call crates c) v (.ok ()) w) :
    w.tree crates = s.treeAfter crates c ∧ w.Agreed ∧ ∃ content, w.Linked crates content := by
  have again (here : LinkedCall crates v c) (same : v.treeAfter crates c = s.treeAfter crates c) :
      w.tree crates = s.treeAfter crates c ∧ w.Agreed ∧ ∃ content, w.Linked crates content := by
    rw [← same]
    exact linkedStep lawful agreed' linked' here h
  have fresh (same : v.tree crates = s.tree crates) : v.treeAfter crates c = s.treeAfter crates c := by
    rw [treeAfter,same,treeAfter]
  cases linkedCall with
  | read r => exact again (.read r) (stage.elim id id)
  | genesis block =>
    refine again (.genesis block) (stage.elim fresh fun after => ?_)
    have headless := (initGenesisShift agreed'.indexed h).1
    have top : (v.tree crates).head = some (block.hash crates) := by
      rw [after]
      rfl
    change v.tip.map ChainTip.hash = _ at top
    rw [headless] at top
    cases top
  | aside block =>
    refine again (.aside block) (stage.elim fresh fun after => ?_)
    rw [treeAfter,after]
    exact @Tree.addTwice _ _ L2BlockHeader.level L2BlockHeader.parentHash _ _ _ _
  | @extend block tip head up next =>
    rcases stage with before | after
    · exact again (.extend (sameTip lawful linked linked' head (by rw [before]) fun x header row => by rwa [before] at row) up next)
        (fresh before)
    · obtain ⟨added,run⟩ := discardOk h
      obtain rfl := extendAgain lawful linked' after run
      exact ⟨after,agreed',content',linked'⟩
  | rollback target =>
    refine again (.rollback target) (stage.elim fresh fun after => ?_)
    obtain ⟨reverted,run⟩ := discardOk h
    obtain ⟨tip,head,_⟩ := @rollbackOk crates _ _ _ _ run
    exact rolledBackStays lawful linked linked' head after
  | @reorg a b ancestor top depth walk u found steps =>
    obtain ⟨result,run⟩ := discardOk h
    have answer := ancestorWalkFound agreed.indexed agreed.coherent found
    have agreedAfter : w.Agreed := ⟨callIndexed agreed'.indexed h,
      callCoherent agreed'.indexed agreed'.coherent (fun rows behind => by cases behind) h,callSeated agreed'.indexed agreed'.seated h⟩
    obtain ⟨tree,linkedAfter⟩ := reorgAgain lawful linked agreed' linked' answer steps stage run
    exact ⟨tree,agreedAfter,content',linkedAfter⟩
  | @prune tip height head below =>
    refine again (.prune (pruneHead lawful linked linked' head stage) below) (stage.elim fresh fun after => ?_)
    rw [treeAfter,after]
    exact @Tree.pruneTwice _ _ L2BlockHeader.level L2BlockHeader.parentHash _ _ _

end Again

section Halves

/- What half a call leaves to open: the rows filed, the tip and the floor as they were, the tip not the top. -/
structure Broken (crates : Crates) (content : Bytes32 → L2BlockHeader) (s t : Store) : Prop where
  shelf : Shelf crates content t.db
  booting : Booting t.db s.tip s.minRetainedHeightCached
  torn : Torn s t
  topless : ∀ v : Store, v.db = t.db → v.tip = s.tip → ¬v.Topped

theorem extendBreaks {block : L2Block} {tip : ChainTip} {compressed headerBytes : Bytes} (indexed : Indexed s)
    (linked : Linked crates content s) (head : s.tip = some tip) (next : block.height.toNat = tip.height.toNat + 1)
    (packs : Packs crates s block compressed headerBytes)
    (left : Untouched Training (s.ingested crates block true compressed headerBytes) t) :
    Broken crates (ingest crates content block) s t ∧ (t.db .headers)[hashKey (block.hash crates)]?.isSome := by
  have ingests := @ingestedIngests crates s block true compressed headerBytes
  have filed := @ingestedFiled crates s content block true _ _ linked.filed packs.body packs.header
  have shift := @ingestedShift crates s indexed packs.writes block true compressed headerBytes
  have booting := left.booting shift.indexed.booting
  rw [shift.tip,shift.floor] at booting
  have column : t.db .canonical = (s.ingested crates block true compressed headerBytes).db .canonical := left.column (by simp [Training])
  have here : canonicalAt t.db block.height = some (block.hash crates) := by
    rw [funext (canonicalAtCongr column),shift.rows,putIndex,if_pos rfl,Function.update_self]
  have above : tip.height < block.height := UInt64.lt_iff_toNat_lt.mpr (by omega)
  refine ⟨⟨left.shelf (shelfOf filed (linked.whole.ingest ingests)),booting,⟨fun same => ?_,?_,?_⟩,fun v db same topped => ?_⟩,?_⟩
  · rw [same,linked.clear head _ above] at here
    cases here
  · rw [booting.tipRow,indexed.tipRow]
  · rw [left .metadata metaMinHeight (by simp [Training]),ingestedDb]
    exact @metadataPutRows crates block true compressed headerBytes s.db metaMinHeight
  · have none' := (topped tip (same.trans head)).2 _ above
    rw [db,here] at none'
    cases none'
  · rw [left .headers (hashKey (block.hash crates)) (by simp [Training])]
    exact (ingests.stored _).mpr (.inl rfl)

theorem Beheaded.column {target : UInt64} (left : Beheaded s t target) {cf : Cf} (apart : cf ≠ .canonical) : t.db cf = s.db cf := by
  obtain ⟨tip,_,_,_,db⟩ := left
  rw [db,deletedColumn _ _ apart]

theorem Beheaded.breaks {target : UInt64} (left : Beheaded s t target) (indexed : Indexed s) (linked : Linked crates content s) :
    Broken crates content s t := by
  have bodies : t.db .blocks = s.db .blocks := left.column (by simp)
  have headers : t.db .headers = s.db .headers := left.column (by simp)
  have metas : ∀ key : Bytes, (t.db .metadata)[key]? = (s.db .metadata)[key]? := fun key => by rw [left.column (by simp)]
  obtain ⟨tip,head,below,_,db⟩ := left
  have chain := linked.chain
  rw [head] at chain
  have gone : canonicalAt t.db tip.height = none := by
    rw [db]
    unfold deleteRows
    rw [canonicalAtDeletes,eraseAll,if_pos ((memAbove below).mpr ⟨below,UInt64.le_refl _⟩)]
  refine ⟨(shelfOf linked.filed linked.whole).congr bodies headers,⟨?_,?_,?_⟩,⟨fun same => ?_,metas _,metas _⟩,fun v rows same topped => ?_⟩
  · rw [db]
    exact typedCommit indexed.typed (typedDeletes _)
  · rw [metas,indexed.tipRow]
  · rw [loadFloorCongr (metas metaMinHeight),indexed.floorRow]
  · rw [same,chain.top] at gone
    cases gone
  · have row := (topped tip (same.trans head)).1
    rw [rows,gone] at row
    cases row

/- An extension broken off is not made good by making it again. -/
theorem extendStaysBroken {block : L2Block} {tip : ChainTip} (lawful : crates.Lawful) (linked : Linked crates content s)
    (head : s.tip = some tip) (absent : ¬s.Stored (block.hash crates)) (top : v.tip = s.tip) (stored : v.Stored (block.hash crates))
    (h : Runs (call crates (.extendChain block)) v (.ok ()) w) : ¬w.Shows crates (s.treeAfter crates (.extendChain block)) := by
  intro shows
  obtain ⟨added,run⟩ := discardOk h
  have same : w.tip = s.tip := by
    rcases extendChainOk run with ⟨_,rfl,_⟩ | ⟨_,missing,_⟩
    · exact top
    · simp [hasBlock,show (v.db .headers)[hashKey (block.hash crates)]?.isSome = true from stored] at missing
  have moved := shows.head
  have after : s.treeAfter crates (.extendChain block) =
      {(s.tree crates).put (block.hash crates) block.header with head := some (block.hash crates)} := by
    change (s.tree crates).move (.extend (block.hash crates) block.header) = _
    rw [HeaderTree.move,Tree.move,if_neg fun row => absent ((linked.stored lawful _).mp row)]
  have here : (s.treeAfter crates (.extendChain block)).top = some (block.hash crates,block.header) := by
    rw [after]
    simp [Tree.top,Tree.put]
  rw [same,head,here] at moved
  have chain := linked.chain
  rw [head] at chain
  have hash : tip.hash = block.hash crates := congrArg ChainTip.hash (Option.some.inj moved)
  exact absent (hash ▸ linked.held _ _ chain.top)

/- A rollback broken off is made good by making it again. -/
theorem Beheaded.mended {target : UInt64} (lawful : crates.Lawful) (linked : Linked crates content s) (left : Beheaded s t target)
    (reopened : Reopened crates content t.db s.tip s.minRetainedHeightCached v)
    (h : Runs (call crates (.rollbackToHeight target)) v (.ok ()) w) :
    w.Shows crates (s.treeAfter crates (.rollbackToHeight target)) := by
  obtain ⟨reverted,run⟩ := discardOk h
  have columns : ∀ cf, cf ≠ .canonical → v.db cf = s.db cf := fun cf apart => by rw [reopened.db,left.column apart]
  obtain ⟨tip,head,below,retained,db⟩ := left
  have top := reopened.tip.trans head
  obtain ⟨low,_,cut⟩ := rollbackCuts crates reopened.agreed top run
  have index : ∀ h, canonicalAt v.db h = if target < h ∧ h ≤ tip.height then none else canonicalAt s.db h := fun h => by
    rw [reopened.db,db]
    unfold deleteRows
    rw [canonicalAtDeletes,eraseAll,if_congr (memAbove below) rfl rfl]
  have chain := linked.chain
  rw [head] at chain
  have kept : ∀ h, canonicalAt w.db h = if h.toNat ≤ target.toNat then canonicalAt s.db h else none := by
    intro h
    rw [cut.rows,index]
    by_cases inside : h.toNat ≤ target.toNat
    · have out : ¬(target < h ∧ h ≤ tip.height) := fun both => UInt64.not_lt.mpr (UInt64.le_iff_toNat_le.mpr inside) both.1
      rw [if_pos inside,if_neg out,if_neg out]
    · rw [if_neg inside]
      have above : target < h := UInt64.lt_iff_toNat_lt.mpr (Nat.not_le.mp inside)
      split
      · rfl
      · rename_i out
        exact linked.clear head h (UInt64.not_le.mp fun low => out ⟨above,low⟩)
  obtain ⟨x,row⟩ := chain.spans.item (h := target) retained (UInt64.le_iff_toNat_le.mp (UInt64.le_of_lt below))
  have moved : w.tip = some ⟨x,target⟩ := by
    rw [cut.head below,index,if_neg fun both => UInt64.lt_irrefl _ both.1,row]
    rfl
  have floor : w.minRetainedHeightCached = s.minRetainedHeightCached := cut.floor.trans reopened.floor
  have rest := rollbackWithin crates target _ _ _ run
  have bodies : w.db .blocks = v.db .blocks := rest.column (by simp [Switched])
  have headers : w.db .headers = v.db .headers := rest.column (by simp [Switched])
  obtain ⟨filed,whole⟩ : Filed crates content w ∧ Whole w := by
    obtain ⟨tip',head',_,_,_,⟨_,_,rfl⟩ | back⟩ := @rollbackOk crates _ _ _ _ run
    · exact ⟨reopened.filed,reopened.whole⟩
    · obtain ⟨a,b,first,second,cutting,last⟩ := rolledBackKeeps back
      have sides : ∀ cf, cf ≠ .canonical → applyAll (deleteRows (heightsThrough (target + 1) tip'.height)) a.db cf = v.db cf :=
        fun cf apart => by rw [deletedColumn _ _ apart,first.db]
      refine ⟨last.filed (second.filed lawful (cutting.filed (first.filed lawful reopened.filed))),
        last.whole (second.whole (cutting.whole (first.whole reopened.whole) ?_ ?_)) ?_ ?_⟩
      · exact deletedColumn _ _ (by simp)
      · exact deletedColumn _ _ (by simp)
      · rw [bodies,second.db]
        exact (sides _ (by simp)).symm
      · rw [headers,second.db]
        exact (sides _ (by simp)).symm
  have linked' : Linked crates content w :=
    { filed := filed
      whole := whole
      chain := by
        rw [moved,floor]
        exact ⟨chain.spans.cut retained (UInt64.le_iff_toNat_le.mp (UInt64.le_of_lt below)) kept,by rw [kept,if_pos (Nat.le_refl _)]; exact row⟩
      held := fun h y found => by
        rw [kept] at found
        split at found
        · rw [Stored,headers,columns _ (by simp)]
          exact linked.held h y found
        · cases found }
  have agreed : w.Agreed := ⟨cut.indexed,cut.coherent,callSeated reopened.agreed.indexed reopened.agreed.seated h⟩
  have seen : w.tree crates = s.treeAfter crates (.rollbackToHeight target) := by
    change _ = {s.tree crates with head := (s.tree crates).chainAt target.toNat}
    have blocks : w.headerAt crates = s.headerAt crates := headerRows (headers.trans (columns _ (by simp)))
    rw [tree,blocks,moved,floor,← linked.chainAt lawful,row]
    rfl
  rw [← seen]
  exact linked'.shows lawful agreed

end Halves

end Store

/- A linked call that ends in any way, and the next open. The tip found is the top of the rows unless they were written
without it; then the tree is that of before or of after the call. Made again, the call ends where it would have, but for an
extension whose rows were written without its tip. -/
theorem crashRecovers {crates : Crates} {s t v : Store} {c : Call} {r : Exit Unit} {config : BlockStoreConfig} {file : Option Bytes}
    {disk : Disk} (lawful : crates.Lawful) (reached : ReachesLinked crates s) (linkedCall : s.LinkedCall crates c)
    (ran : Runs (Store.call crates c) s r t) (opened : Runs (Store.openStore crates config) ⟨t.db,file⟩ (.ok v) disk) :
    (v.Topped ↔ ¬s.Torn t) ∧
      (¬s.Torn t → v.Shows crates (s.tree crates) ∨ v.Shows crates (s.treeAfter crates c)) ∧
      ∀ w, Runs (Store.call crates c) v (.ok ()) w →
        (w.Shows crates (s.treeAfter crates c) ↔ ¬(s.Torn t ∧ ∃ block, c = .extendChain block)) := by
  obtain ⟨agreed,content,linked⟩ := reachesLinked lawful reached
  have whole {tree : HeaderTree} (landed : Store.Landed crates tree t.db) (stage : tree = s.tree crates ∨ tree = s.treeAfter crates c)
      (intact : ¬s.Torn t) : (v.Topped ↔ ¬s.Torn t) ∧ v.Shows crates tree ∧
        ∀ w, Runs (Store.call crates c) v (.ok ()) w →
          (w.Shows crates (s.treeAfter crates c) ↔ ¬(s.Torn t ∧ ∃ block, c = .extendChain block)) := by
    obtain ⟨seen,agreed',content',linked'⟩ := landed.shows lawful opened
    subst seen
    refine ⟨⟨fun _ => intact,fun _ => linked'.topped⟩,linked'.shows lawful agreed',fun w h => ⟨fun _ both => intact both.1,fun _ => ?_⟩⟩
    obtain ⟨seen,agreed'',content'',linked''⟩ := Store.madeAgain lawful agreed linked linkedCall agreed' linked' stage h
    rw [← seen]
    exact linked''.shows lawful agreed''
  rcases Store.callHalts lawful agreed linked linkedCall ran with before | after | half
  · obtain ⟨topped,shows,again⟩ := whole before (.inl rfl) (before.notTorn lawful linked)
    exact ⟨topped,fun _ => .inl shows,again⟩
  · obtain ⟨topped,shows,again⟩ := whole after (.inr rfl) (Store.afterNotTorn lawful agreed linked linkedCall ran after)
    exact ⟨topped,fun _ => .inr shows,again⟩
  · cases half with
    | @extend block tip compressed headerBytes head next packs left =>
      obtain ⟨broken,stored⟩ := Store.extendBreaks agreed.indexed linked head next packs left
      have reopened := Store.openReopens lawful broken.shelf broken.booting opened
      have absent : ¬s.Stored (block.hash crates) := fun row => by
        have body := (linked.whole.paired _).mpr row
        rw [packs.absent] at body
        cases body
      refine ⟨⟨fun topped => absurd topped (broken.topless v reopened.db reopened.tip),fun intact => absurd broken.torn intact⟩,
        fun intact => absurd broken.torn intact,fun w h => ⟨fun shows => ?_,fun intact => absurd ⟨broken.torn,block,rfl⟩ intact⟩⟩
      exact absurd shows (Store.extendStaysBroken lawful linked head absent reopened.tip
        (by rw [Store.Stored,reopened.db]; exact stored) h)
    | @rollback target left =>
      have broken := left.breaks agreed.indexed linked
      have reopened := Store.openReopens lawful broken.shelf broken.booting opened
      refine ⟨⟨fun topped => absurd topped (broken.topless v reopened.db reopened.tip),fun intact => absurd broken.torn intact⟩,
        fun intact => absurd broken.torn intact,fun w h => ⟨fun _ both => ?_,fun _ => left.mended lawful linked reopened h⟩⟩
      obtain ⟨_,block,bad⟩ := both
      cases bad

theorem Store.ranUnder {α : Type} {m : StoreM α} {s : Store} {r : Exit α} (script : List Event) (answered : (m ⟨s,script⟩).1 = r) :
    Runs m s r (m ⟨s,script⟩).2.state := ⟨script,_,Prod.ext answered rfl⟩

namespace Sample

def brokenOff : Store := (Store.call crates (.extendChain (block 3 5 6)) ⟨rebased,[.ok,.crash]⟩).2.state

theorem brokenOffOpens : ∃ v disk, Runs (Store.openStore crates config) ⟨brokenOff.db,none⟩ (.ok v) disk ∧
    v.tip = some ⟨hash 5,2⟩ ∧ canonicalAt v.db 3 = some (hash 6) ∧ (Store.call crates (.extendChain (block 3 5 6)) ⟨v,[]⟩).1 = .ok () := by
  have checked : (match (Store.openStore crates config ⟨⟨brokenOff.db,none⟩,[]⟩).1 with
      | .ok v => decide (v.tip = some ⟨hash 5,2⟩ ∧ canonicalAt v.db 3 = some (hash 6) ∧
          (Store.call crates (.extendChain (block 3 5 6)) ⟨v,[]⟩).1 = .ok ())
      | .error _ => false) = true := by decide +kernel
  cases answer : (Store.openStore crates config ⟨⟨brokenOff.db,none⟩,[]⟩).1 with
  | ok v =>
    rw [answer] at checked
    exact ⟨v,_,Faulty.Runs.ofResult answer,of_decide_eq_true checked⟩
  | error e =>
    rw [answer] at checked
    cases checked

end Sample

theorem crashRecoversSample : ∃ v w disk, Runs (Store.openStore Sample.crates Sample.config) ⟨Sample.brokenOff.db,none⟩ (.ok v) disk ∧
    Runs (Store.call Sample.crates (.extendChain (Sample.block 3 5 6))) v (.ok ()) w ∧ ¬v.Topped ∧
    ¬w.Shows Sample.crates (Sample.rebased.treeAfter Sample.crates (.extendChain (Sample.block 3 5 6))) := by
  obtain ⟨v,disk,opened,head,row,again⟩ := Sample.brokenOffOpens
  have guard : Sample.rebased.LinkedCall Sample.crates (.extendChain (Sample.block 3 5 6)) :=
    Store.linksSound _ (.extendChain (Sample.block 3 5 6)) (by decide +kernel)
  have ran : Runs (Store.call Sample.crates (.extendChain (Sample.block 3 5 6))) Sample.rebased (.error .crash) Sample.brokenOff :=
    Store.ranUnder [.ok,.crash] (by decide +kernel)
  obtain ⟨topped,_,made⟩ := crashRecovers Sample.lawful Sample.rebasedLinked guard ran opened
  have broken : ¬v.Topped := fun top => by
    have none' := (top _ head).2 3 (by decide)
    rw [row] at none'
    cases none'
  refine ⟨v,_,disk,opened,Store.ranHere again,broken,fun shows => ?_⟩
  exact (made _ (Store.ranHere again)).mp shows ⟨by_contra fun intact => broken (topped.mpr intact),_,rfl⟩

end DigBlockstore
