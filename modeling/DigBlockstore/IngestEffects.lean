import DigBlockstore.Indexed
import DigBlockstore.Library.PartialMap

/-! Genesis, puts, extension and canonical switches: their outcomes, and what they do to
the index. -/
namespace DigBlockstore
open ByteCodec Faulty ColumnStore PartialMap

theorem applyAllAppend (first later : List Write) (db : Db) :
    applyAll (first ++ later) db = applyAll later (applyAll first db) := List.foldl_append ..

def Aside (write : Write) : Prop :=
  (∀ key, write.effect .canonical key = none) ∧ write.effect .metadata metaTip = none ∧
    write.effect .metadata metaMinHeight = none

theorem canonicalAtPut (db : Db) (height : UInt64) (hash : Bytes32) :
    canonicalAt (applyAll [Store.canonicalRow height hash] db) =
      Function.update (canonicalAt db) height (some hash) := by
  funext h
  rw [canonicalAtCommit,Store.canonicalRow,lastEffectCons,lastEffectNil,Option.none_or,effectPut]
  by_cases same : h = height
  · subst same
    simp [hashKey]
  · have apart : heightKey height ≠ heightKey h := fun eq => same (heightKeyInj.mp eq).symm
    simp [apart,Function.update_of_ne same]

theorem canonicalAtAside {batch : List Write} (aside : ∀ write ∈ batch, Aside write) (db : Db) :
    canonicalAt (applyAll batch db) = canonicalAt db := by
  funext h
  rw [canonicalAtCommit,lastEffectNone.mpr fun write mem => (aside write mem).1 _]

theorem canonicalAtPutAll (rows : List (UInt64 × Bytes32)) (db : Db) :
    canonicalAt (applyAll (rows.map fun row => Store.canonicalRow row.1 row.2) db) =
      putAll rows (canonicalAt db) := by
  induction rows generalizing db with
  | nil => rfl
  | cons row rows ih =>
    change canonicalAt (applyAll (rows.map _) (applyAll [Store.canonicalRow row.1 row.2] db)) = _
    rw [ih,canonicalAtPut,putAllCons]

theorem canonicalAtDeletes (heights : List UInt64) (db : Db) :
    canonicalAt (applyAll (heights.map fun h => .delete .canonical (heightKey h)) db) =
      eraseAll heights (canonicalAt db) := by
  have rows : (heights.map fun h => (.delete .canonical (heightKey h) : Write)) =
      (heights.map heightKey).map (.delete .canonical) := by
    rw [List.map_map]
    rfl
  funext h
  rw [canonicalAt,rows,getDeletes,eraseAll]
  by_cases mem : h ∈ heights
  · rw [if_pos (List.mem_map_of_mem mem),if_pos mem]
    rfl
  · rw [if_neg,if_neg mem]
    · rfl
    · intro found
      obtain ⟨k,inside,same⟩ := List.mem_map.mp found
      exact mem (heightKeyInj.mp same ▸ inside)

theorem typedAside {write : Write} (aside : Aside write) : TypedWrite write := by
  cases write with
  | put c k v =>
    cases c <;> try trivial
    have none' := aside.1 k
    rw [effectPut,if_pos ⟨rfl,rfl⟩] at none'
    cases none'
  | delete c k => trivial

theorem typedCanonicalRow (height : UInt64) (hash : Bytes32) :
    TypedWrite (Store.canonicalRow height hash) := ⟨height,hash,rfl,rfl⟩

theorem asideBodyRows (hash : Bytes32) (compressed headerBytes : Bytes) :
    ∀ write ∈ Store.bodyRows hash compressed headerBytes, Aside write := by
  simp [Store.bodyRows,Aside,effectPut]

theorem metadataCanonicalRow (height : UInt64) (hash : Bytes32) (key : Bytes) :
    (Store.canonicalRow height hash).effect .metadata key = none := by
  simp [Store.canonicalRow,effectPut]

namespace Store
variable {crates : Crates} {s t u : Store}

theorem quietCommit {batch : List Write} (aside : ∀ write ∈ batch, Aside write) :
    Quiet s (s.commit batch) where
  canonical := by
    apply Std.ExtTreeMap.ext_getElem?
    intro key
    exact ColumnStore.frame fun write mem => (aside write mem).1 key
  tipRow := ColumnStore.frame fun write mem => (aside write mem).2.1
  floorRow := ColumnStore.frame fun write mem => (aside write mem).2.2
  bin := rfl
  tip := rfl
  floor := rfl
  readOnly := rfl
  capacity := rfl
  heights _ _ _ found := .inl found

def cacheBlock (crates : Crates) (block : L2Block) (s : Store) : Store :=
  ((s.cacheRecord (block.hash crates) (.fromHeader crates block.header .validated)).cacheBody
    (block.hash crates) block).cacheHeader (block.hash crates) block.header

theorem quietCacheBlock (block : L2Block) : Quiet s (s.cacheBlock crates block) :=
  ⟨rfl,rfl,rfl,rfl,rfl,rfl,rfl,rfl,fun _ _ _ found => .inl found⟩

theorem quietCacheHeight (hash : Bytes32) (n : UInt64) : Quiet s (s.cacheHeight hash n) :=
  ⟨rfl,rfl,rfl,rfl,rfl,rfl,rfl,rfl,fun _ _ _ found => .inl found⟩

def putRows (crates : Crates) (block : L2Block) (canonical : Bool) (compressed headerBytes : Bytes) :
    List Write :=
  bodyRows (block.hash crates) compressed headerBytes
    ++ if canonical then [canonicalRow block.height (block.hash crates)] else []

def refreshIndex (canonical : Bool) (height : UInt64) (hash : Bytes32) (s : Store) : Store :=
  if canonical then (s.writeSlot height hash).insertCanonicalHeightCache height hash else s

def ingested (crates : Crates) (block : L2Block) (canonical : Bool) (compressed headerBytes : Bytes)
    (s : Store) : Store :=
  (((s.commit (putRows crates block canonical compressed headerBytes)).refreshIndex canonical block.height
    (block.hash crates)).cacheBlock crates block).cacheHeight (block.hash crates) block.height

theorem indexCanonicalOk {canonical : Bool} {height : UInt64} {hash : Bytes32} {v : Unit}
    (h : Runs (indexCanonical canonical height hash) s (.ok v) t) :
    (canonical = true → s.canonicalBin.Accepts height) ∧ t = s.refreshIndex canonical height hash := by
  unfold indexCanonical at h
  unfold refreshIndex
  cases canonical with
  | false => exact ⟨by simp,(runsPure.mp h).2⟩
  | true =>
    obtain ⟨_,u,slot,later⟩ := runsBindOk h
    obtain ⟨fits,rfl⟩ := extendWriteRuns slot
    exact ⟨fun _ => fits,(runsModify.mp later).2⟩

def putTail (crates : Crates) (block : L2Block) (canonical : Bool) : StoreM Bool := do
  indexCanonical canonical block.height (block.hash crates)
  Op.modify (cacheRecord (block.hash crates) (.fromHeader crates block.header .validated))
  Op.modify (cacheBody (block.hash crates) block)
  Op.modify (cacheHeader (block.hash crates) block.header)
  Op.modify (cacheHeight (block.hash crates) block.height)
  maybeTrainDictionary crates
  pure true

/- The rows of a block under the store's dictionary, for a hash not stored yet. -/
structure Packs (crates : Crates) (s : Store) (block : L2Block) (compressed headerBytes : Bytes) : Prop where
  writes : s.readOnly = false
  absent : (s.db .blocks)[hashKey (block.hash crates)]? = none
  body : s.serializeBlock crates block = .ok compressed
  header : serializeHeader crates block.header = .ok headerBytes

theorem putBlockRuns {block : L2Block} {canonical : Bool} {r : Exit Bool}
    (h : Runs (putBlock crates block canonical) s r t) :
    (r = .ok false ∧ t = s ∧ (s.db .blocks)[hashKey (block.hash crates)]?.isSome) ∨
    (∃ e, r = .error e) ∧ t = s ∨
    ∃ compressed headerBytes, Packs crates s block compressed headerBytes ∧
      Runs (putTail crates block canonical) (s.commit (putRows crates block canonical compressed headerBytes)) r t := by
  unfold putBlock at h
  rcases runsBind h with ⟨_,u,opening,checked⟩ | ⟨e,rfl,opening⟩
  · obtain ⟨writes,rfl⟩ := refuseReadOnlyOk opening
    rw [runsGetBind] at checked
    split at checked
    · rename_i present
      obtain ⟨rfl,rfl⟩ := runsPure.mp checked
      exact .inl ⟨rfl,rfl,present⟩
    · rename_i absent
      rcases runsBind checked with ⟨compressed,v,one,packed⟩ | ⟨e,rfl,one⟩
      · obtain ⟨body,rfl⟩ := runsOfExceptOk one
        rcases runsBind packed with ⟨headerBytes,w,two,ready⟩ | ⟨e,rfl,two⟩
        · obtain ⟨header,rfl⟩ := runsOfExceptOk two
          rcases runsBind ready with ⟨_,x,three,tail⟩ | ⟨e,rfl,three⟩
          · have batch := writeOk three
            subst batch
            exact .inr (.inr ⟨compressed,headerBytes,⟨writes,by simpa using absent,body,header⟩,tail⟩)
          · rcases writeRuns three with ⟨bad,_⟩ | ⟨_,same⟩
            · cases bad
            · exact .inr (.inl ⟨⟨e,rfl⟩,same⟩)
        · exact .inr (.inl ⟨⟨e,rfl⟩,(runsOfExcept two).1⟩)
      · exact .inr (.inl ⟨⟨e,rfl⟩,(runsOfExcept one).1⟩)
  · exact .inr (.inl ⟨⟨e,rfl⟩,(refuseReadOnlyRuns opening).1⟩)

theorem putTailOk {block : L2Block} {canonical added : Bool} (h : Runs (putTail crates block canonical) s (.ok added) t) :
    added = true ∧ (canonical = true → s.canonicalBin.Accepts block.height) ∧
      Trained (((s.refreshIndex canonical block.height (block.hash crates)).cacheBlock crates block).cacheHeight
        (block.hash crates) block.height) t := by
  obtain ⟨_,u,index,cached⟩ := runsBindOk h
  obtain ⟨fits,rfl⟩ := indexCanonicalOk index
  rw [runsModifyBind,runsModifyBind,runsModifyBind,runsModifyBind] at cached
  obtain ⟨_,v,training,last⟩ := runsBindOk cached
  obtain ⟨hr,rfl⟩ := runsPure.mp last
  exact ⟨Except.ok.inj hr,fits,maybeTrainRuns training⟩

theorem putBlockOk {block : L2Block} {canonical added : Bool}
    (h : Runs (putBlock crates block canonical) s (.ok added) t) :
    (added = false ∧ t = s ∧ (s.db .blocks)[hashKey (block.hash crates)]?.isSome) ∨
    added = true ∧ ∃ compressed headerBytes, Packs crates s block compressed headerBytes ∧
      (canonical = true → s.canonicalBin.Accepts block.height) ∧
      Trained (s.ingested crates block canonical compressed headerBytes) t := by
  rcases putBlockRuns h with ⟨hr,same,present⟩ | ⟨⟨e,bad⟩,_⟩ | ⟨compressed,headerBytes,packs,tail⟩
  · exact .inl ⟨Except.ok.inj hr,same,present⟩
  · cases bad
  · obtain ⟨hr,fits,trained⟩ := putTailOk tail
    exact .inr ⟨hr,compressed,headerBytes,packs,fits,trained⟩

theorem setTipRuns {tip : ChainTip} {r : Exit Unit} (h : Runs (setTip tip) s r t) :
    (∃ e, r = .error e) ∧ t = s ∨ r = .ok () ∧ s.readOnly = false ∧
      t = {s.commit [.put .metadata metaTip tip.toBytes] with tip := some tip} := by
  rcases runsBind h with ⟨_,u,opening,writing⟩ | ⟨e,rfl,opening⟩
  · obtain ⟨writes,rfl⟩ := refuseReadOnlyOk opening
    rcases runsBind writing with ⟨_,v,one,last⟩ | ⟨e,rfl,one⟩
    · have batch := writeOk one
      subst batch
      obtain ⟨rfl,rfl⟩ := runsModify.mp last
      exact .inr ⟨rfl,writes,rfl⟩
    · rcases writeRuns one with ⟨bad,_⟩ | ⟨_,same⟩
      · cases bad
      · exact .inl ⟨⟨e,rfl⟩,same⟩
  · exact .inl ⟨⟨e,rfl⟩,(refuseReadOnlyRuns opening).1⟩

def withTip (tip : ChainTip) (s : Store) : Store :=
  {s.commit [.put .metadata metaTip tip.toBytes] with tip := some tip}

theorem setTipOk {tip : ChainTip} {v : Unit} (h : Runs (setTip tip) s (.ok v) t) :
    s.readOnly = false ∧ t = s.withTip tip := by
  rcases setTipRuns h with ⟨⟨e,bad⟩,_⟩ | ⟨_,writes,same⟩
  · cases bad
  · exact ⟨writes,same⟩

theorem extendChainOk {block : L2Block} {added : Bool} (h : Runs (extendChain crates block) s (.ok added) t) :
    (added = false ∧ t = s ∧ s.hasBlock (block.hash crates) = true) ∨
    added = true ∧ s.hasBlock (block.hash crates) = false ∧
      ∃ u b, Runs (putBlock crates block true) s (.ok b) u ∧ u.readOnly = false ∧
        t = u.withTip ⟨block.hash crates,block.height⟩ := by
  unfold extendChain at h
  rw [runsGetBind] at h
  split at h
  · rename_i present
    obtain ⟨hr,rfl⟩ := runsPure.mp h
    exact .inl ⟨Except.ok.inj hr,rfl,present⟩
  · rename_i absent
    obtain ⟨b,u,putting,tipping⟩ := runsBindOk h
    obtain ⟨_,v,setting,last⟩ := runsBindOk tipping
    obtain ⟨hr,rfl⟩ := runsPure.mp last
    obtain ⟨writes,rfl⟩ := setTipOk setting
    exact .inr ⟨Except.ok.inj hr,by simpa using absent,u,b,putting,writes,rfl⟩

end Store
end DigBlockstore
