import DigBlockstore.Previews

/-! A batch switch against the same switches one by one: they leave the same rows, slots and
records, and the same lookups where no height of the list is cached under another hash. -/
namespace DigBlockstore
open ByteCodec Faulty ColumnStore PartialMap

def BlockRecord.marked (record : BlockRecord) : BlockRecord := {record with inCanonicalChain := true}

namespace Store
variable {crates : Crates} {s t u : Store} {content : Bytes32 → L2BlockHeader}

section Record

/- The record of a stored hash: the cached one, or one made from its header. -/
def recordOf (crates : Crates) (content : Bytes32 → L2BlockHeader) (s : Store) (hash : Bytes32) : BlockRecord :=
  (s.recordCache hash).getD (.fromHeader crates (content hash) .validated)

def readHeader (content : Bytes32 → L2BlockHeader) (known : Bool) (hash : Bytes32)
    (cache : ShardedLruCache L2BlockHeader) : ShardedLruCache L2BlockHeader :=
  if known then cache
  else if (cache.peek hash).isSome then (cache.getClone hash).2
  else (cache.getClone hash).2.insert hash (content hash)

def readRecord (crates : Crates) (content : Bytes32 → L2BlockHeader) (hash : Bytes32) (s : Store) : Store :=
  {s with
    recordCache := Function.update s.recordCache hash (some (s.recordOf crates content hash))
    headerCache := readHeader content (s.recordCache hash).isSome hash s.headerCache}

theorem getRecordReads (lawful : crates.Lawful) (filed : Filed crates content s) {hash : Bytes32} (stored : s.Stored hash)
    (script : List Event) : getRecord crates hash ⟨s,script⟩ =
      (.ok (some (s.recordOf crates content hash)),⟨s.readRecord crates content hash,script⟩) := by
  simp only [getRecord,bind,Op.bind,Op.get,readRecord,recordOf,readHeader]
  cases held : s.recordCache hash with
  | some record =>
    have same : Function.update s.recordCache hash (some record) = s.recordCache := by
      rw [← held,Function.update_eq_self]
    simp only [Option.getD_some,Option.isSome_some,if_true,same]
    rfl
  | none =>
    simp only [ShardedLruCache.getClone]
    cases cached : s.headerCache.peek hash with
    | some header =>
      rw [filed.header hash header cached]
      rfl
    | none =>
      have row := filed.storedHeader lawful stored
      obtain ⟨raw,found,decoded⟩ := Option.bind_eq_some_iff.mp row
      have read : deserializeHeader crates raw = .ok (content hash) := by
        cases packed : deserializeHeader crates raw with
        | error e => rw [packed] at decoded; cases decoded
        | ok header =>
          rw [packed] at decoded
          cases decoded
          rfl
      simp only [found,read]
      rfl

end Record

section Swept

/- The header cache after record reads in turn; a hash once read is known by its record. -/
def readHeaders (content : Bytes32 → L2BlockHeader) : (Bytes32 → Bool) → ShardedLruCache L2BlockHeader → List Bytes32 →
    ShardedLruCache L2BlockHeader
  | _,cache,[] => cache
  | known,cache,hash :: rest =>
      readHeaders content (Function.update known hash true) (readHeader content (known hash) hash cache) rest

def known (s : Store) (hash : Bytes32) : Bool := (s.recordCache hash).isSome

def listed (content : Bytes32 → L2BlockHeader) (hashes : List Bytes32) : List (UInt64 × Bytes32) :=
  hashes.map fun x => ((content x).height,x)

theorem memListed {hashes : List Bytes32} {x : Bytes32} (mem : x ∈ hashes) :
    ((content x).height,x) ∈ listed content hashes := List.mem_map_of_mem (f := fun x => ((content x).height,x)) mem

structure Swept (crates : Crates) (content : Bytes32 → L2BlockHeader) (s t : Store) (hashes : List Bytes32) : Prop where
  rest : t = {s with
    db := applyAll ((listed content hashes).map fun row => canonicalRow row.1 row.2) s.db
    canonicalBin := s.canonicalBin.writtenAll (listed content hashes)
    recordCache := t.recordCache
    headerCache := readHeaders content s.known s.headerCache hashes
    canonicalHeightCache := t.canonicalHeightCache
    hashToHeightCache := t.hashToHeightCache}
  records : ∀ y, t.recordCache y =
    if y ∈ hashes then some (s.recordOf crates content y).marked else s.recordCache y

theorem Swept.known {hashes : List Bytes32} (swept : Swept crates content s t hashes) (y : Bytes32) :
    t.known y = (decide (y ∈ hashes) || s.known y) := by
  rw [Store.known,swept.records]
  by_cases mem : y ∈ hashes
  · rw [if_pos mem,decide_eq_true mem]
    rfl
  · rw [if_neg mem,decide_eq_false mem]
    rfl

theorem sweptNil : Swept crates content s s [] := ⟨rfl,fun y => by simp⟩

theorem Swept.cons {hash : Bytes32} {rest : List Bytes32} (first : Swept crates content s u [hash])
    (later : Swept crates content u t rest) : Swept crates content s t (hash :: rest) where
  rest := by
    have known : u.known = Function.update s.known hash true := by
      funext y
      rw [first.known]
      by_cases same : y = hash
      · subst same
        simp
      · rw [Function.update_of_ne same]
        simp [same]
    have headers : readHeaders content u.known u.headerCache rest = readHeaders content s.known s.headerCache (hash :: rest) := by
      rw [known,first.rest]
      rfl
    have rows : applyAll ((listed content rest).map fun row => canonicalRow row.1 row.2) u.db =
        applyAll ((listed content (hash :: rest)).map fun row => canonicalRow row.1 row.2) s.db := by
      rw [first.rest]
      rfl
    rw [later.rest,headers,rows,first.rest]
    rfl
  records y := by
    rw [later.records]
    have held := first.records y
    by_cases mem : y ∈ rest
    · rw [if_pos mem,if_pos (List.mem_cons_of_mem _ mem),recordOf,held]
      by_cases same : y = hash
      · simp [same,BlockRecord.marked]
      · simp [same,recordOf]
    · rw [if_neg mem,held]
      simp [mem]

end Swept

section Runs

theorem markedAt {hash : Bytes32} {record held : BlockRecord} (cached : s.recordCache hash = some held) :
    (s.markCanonical hash record).recordCache =
      Function.update s.recordCache hash (some held.marked) := by
  unfold markCanonical flagRecord
  rw [cached]
  rfl

theorem setCanonicalSwept (lawful : crates.Lawful) (ready : s.canonicalBin.Ready) (filed : Filed crates content s)
    (writes : s.readOnly = false) {hash : Bytes32} (stored : s.Stored hash)
    (fits : s.canonicalBin.Accepts (content hash).height) :
    ∃ t, Clean (setCanonical crates hash) s (.ok ()) t ∧ Swept crates content s t [hash] := by
  have read := getRecordReads lawful filed stored []
  have height : (s.recordOf crates content hash).height = (content hash).height := by
    unfold recordOf
    cases held : s.recordCache hash with
    | some record => exact (filed.record hash record held).1
    | none => rfl
  have row : Clean (getRecordOrMissing crates hash) s (.ok (hash,s.recordOf crates content hash))
      (s.readRecord crates content hash) := cleanBind read rfl
  have cached : (s.readRecord crates content hash).recordCache hash = some (s.recordOf crates content hash) :=
    Function.update_self ..
  have marks : ∀ v : Store, v.recordCache = (s.readRecord crates content hash).recordCache → ∀ record y,
      (v.markCanonical hash record).recordCache y =
        if y ∈ [hash] then some (s.recordOf crates content y).marked else s.recordCache y := by
    intro v same record y
    rw [← same] at cached
    rw [markedAt cached,same]
    by_cases here : y = hash
    · subst here
      rw [Function.update_self,if_pos (List.mem_singleton.mpr rfl)]
    · rw [Function.update_of_ne here,if_neg fun mem => here (List.mem_singleton.mp mem)]
      exact Function.update_of_ne here ..
  refine ⟨_,cleanBind (refuseReadOnlyClean _ writes) (cleanBind row (cleanBind (writeClean _ _)
    (cleanBind (extendWriteClean _ ready ?_) (cleanBind (cleanModify _ _) (cleanBind (cleanModify _ _)
      (cleanModify _ _)))))),?_,fun y => ?_⟩
  · rw [height]
    exact fits
  · rw [markedRest,insertHeightRest]
    dsimp only
    rw [height]
    rfl
  · refine marks _ ?_ _ y
    rw [insertHeightRest]
    rfl

theorem Swept.keeps {hashes : List Bytes32} (swept : Swept crates content s t hashes) {cf : Cf} (apart : cf ≠ .canonical) :
    t.db cf = s.db cf := by
  rw [swept.rest]
  refine frameColumn fun write mem => ?_
  obtain ⟨row,_,rfl⟩ := List.mem_map.mp mem
  exact Ne.symm apart

theorem Swept.stored {hashes : List Bytes32} (swept : Swept crates content s t hashes) {hash : Bytes32} :
    t.Stored hash ↔ s.Stored hash := by
  rw [Stored,swept.keeps (by simp),Stored]

theorem setCanonicalAgreed {hash : Bytes32} {v : Unit} (on : s.canonicalHeightCacheCapacity ≠ 0) (agreed : Agreed s)
    (h : Runs (setCanonical crates hash) s (.ok v) t) : Agreed t where
  indexed := callIndexed (c := .setCanonical hash) agreed.indexed h
  coherent := by
    refine callCoherent (c := .setCanonical hash) agreed.indexed agreed.coherent (fun rows behind => ?_) h
    cases behind with
    | set off held => exact absurd off on
  seated := callSeated (c := .setCanonical hash) agreed.indexed agreed.seated h

theorem setCanonicalOff {hash : Bytes32} {v : Unit} (off : s.canonicalHeightCacheCapacity = 0)
    (h : Runs (setCanonical crates hash) s (.ok v) t) : t.canonicalHeightCache = s.canonicalHeightCache := by
  obtain ⟨record,u,_,touched,cache,_,_,rfl⟩ := setCanonicalOk h
  have off' : ((u.commit [canonicalRow record.height hash]).writeSlot record.height hash).canonicalHeightCacheCapacity = 0 :=
    touched.capacity.trans off
  rw [markedRest,insertCanonicalHeightCache,if_pos off']
  exact cache

theorem setEachSwept (lawful : crates.Lawful) (indexed : Indexed s) (filed : Filed crates content s)
    (writes : s.readOnly = false) {hashes : List Bytes32} (stored : ∀ x ∈ hashes, s.Stored x)
    (fits : ∀ x ∈ hashes, s.canonicalBin.Accepts (content x).height) :
    ∃ t, Clean (Op.forEach (setCanonical crates) hashes) s (.ok ()) t ∧ Swept crates content s t hashes ∧
      (s.canonicalHeightCacheCapacity ≠ 0 → Agreed s → Agreed t) ∧
      (s.canonicalHeightCacheCapacity = 0 → t.canonicalHeightCache = s.canonicalHeightCache) := by
  induction hashes generalizing s with
  | nil => exact ⟨s,rfl,sweptNil,fun _ agreed => agreed,fun _ => rfl⟩
  | cons hash rest ih =>
    obtain ⟨u,first,swept⟩ := setCanonicalSwept lawful indexed.bin.ready filed writes (stored hash (by simp))
      (fits hash (by simp))
    have indexed' : Indexed u := callIndexed (c := .setCanonical hash) indexed first.runs
    obtain ⟨v,touched,keeps⟩ := setCanonicalKeeps first.runs
    have writes' : u.readOnly = false := by
      rw [swept.rest]
      exact writes
    have capacity : u.canonicalHeightCacheCapacity = s.canonicalHeightCacheCapacity := by rw [swept.rest]
    obtain ⟨t,later,swept',on,off⟩ := ih indexed' (keeps.filed (touched.filed lawful filed)) writes'
      (fun x mem => swept.stored.mpr (stored x (List.mem_cons_of_mem _ mem))) fun x mem => by
        rw [swept.rest]
        exact (CanonicalBin.writtenAccepts ..).mpr (fits x (List.mem_cons_of_mem _ mem))
    refine ⟨t,cleanBind first later,swept.cons swept',fun big agreed => ?_,fun zero => ?_⟩
    · exact on (by rwa [capacity]) (setCanonicalAgreed big agreed first.runs)
    · exact (off (capacity.trans zero)).trans (setCanonicalOff zero first.runs)

structure ReadAll (crates : Crates) (content : Bytes32 → L2BlockHeader) (s u : Store) (hashes : List Bytes32) : Prop where
  rest : u = {s with
    recordCache := u.recordCache
    headerCache := readHeaders content s.known s.headerCache hashes}
  records : ∀ y, u.recordCache y = if y ∈ hashes then some (s.recordOf crates content y) else s.recordCache y

theorem readAllClean (lawful : crates.Lawful) (filed : Filed crates content s) {hashes : List Bytes32}
    (stored : ∀ x ∈ hashes, s.Stored x) : ∃ validated u,
      Clean (Op.collect (getRecordOrMissing crates) hashes) s (.ok validated) u ∧ ReadAll crates content s u hashes ∧
        rowsOf validated = listed content hashes := by
  induction hashes generalizing s with
  | nil => exact ⟨[],s,rfl,⟨rfl,fun y => by simp⟩,rfl⟩
  | cons hash rest ih =>
    have read := getRecordReads lawful filed (stored hash (by simp)) []
    have one : Clean (getRecordOrMissing crates hash) s (.ok (hash,s.recordOf crates content hash))
        (s.readRecord crates content hash) := cleanBind read rfl
    have touched := (getRecordRuns (Clean.runs read)).1
    have height := (touched.filed lawful filed).record hash _ ((getRecordRuns (Clean.runs read)).2.2.1 _ rfl)
    obtain ⟨validated,u,later,all,rows⟩ := ih (touched.filed lawful filed) fun x mem => by
      rw [Stored,touched.db]
      exact stored x (List.mem_cons_of_mem _ mem)
    have known : (s.readRecord crates content hash).known = Function.update s.known hash true := by
      funext y
      by_cases same : y = hash
      · subst same
        simp [Store.known,readRecord]
      · simp [Store.known,readRecord,same]
    refine ⟨(hash,s.recordOf crates content hash) :: validated,u,cleanBind one (cleanBind later rfl),⟨?_,fun y => ?_⟩,?_⟩
    · have headers := congrArg headerCache all.rest
      rw [known] at headers
      rw [all.rest,known]
      rfl
    · rw [all.records]
      have held : (s.readRecord crates content hash).recordCache y =
          if y = hash then some (s.recordOf crates content hash) else s.recordCache y := by
        by_cases same : y = hash
        · subst same
          simp [readRecord]
        · simp [readRecord,same]
      rw [recordOf,held]
      by_cases same : y = hash
      · subst same
        simp
      · simp [same,recordOf]
    · rw [rowsOf,List.map_cons,height.1]
      exact congrArg _ rows

theorem markAllAt {validated : List (Bytes32 × BlockRecord)} (cached : ∀ row ∈ validated, (s.recordCache row.1).isSome)
    (y : Bytes32) : (markAll validated s).recordCache y = if y ∈ validated.map Prod.fst then
      (s.recordCache y).map BlockRecord.marked else s.recordCache y := by
  induction validated generalizing s with
  | nil => simp [markAll]
  | cons row rest ih =>
    obtain ⟨held,found⟩ := Option.isSome_iff_exists.mp (cached row (by simp))
    have marked := @markedAt s row.1 row.2 held found
    have here : ∀ z, (s.markCanonical row.1 row.2).recordCache z =
        if z = row.1 then some held.marked else s.recordCache z := fun z => by
      rw [marked]
      by_cases same : z = row.1
      · rw [same,Function.update_self,if_pos rfl]
      · rw [Function.update_of_ne same,if_neg same]
    rw [markAll,List.foldl_cons]
    have later := ih (s := s.markCanonical row.1 row.2) fun r mem => by
      rw [here]
      split
      · rfl
      · exact cached r (List.mem_cons_of_mem _ mem)
    rw [markAll] at later
    rw [later,here,List.map_cons]
    by_cases same : y = row.1
    · subst same
      simp [found,BlockRecord.marked]
    · have tail : y ∈ row.1 :: rest.map Prod.fst ↔ y ∈ rest.map Prod.fst := by simp [same]
      simp only [if_neg same,tail]

theorem batchTurnsClean {validated : List (Bytes32 × BlockRecord)} (ready : s.canonicalBin.Ready)
    (fits : ∀ row ∈ validated, s.canonicalBin.Accepts row.2.height) : ∃ t, Clean (Op.forEach (fun row => do
      onBin (CanonicalBin.extendWrite row.2.height row.1)
      Op.modify (markCanonical row.1 row.2)) validated) s (.ok ()) t := by
  induction validated generalizing s with
  | nil => exact ⟨s,rfl⟩
  | cons row rest ih =>
    have marked : ((s.writeSlot row.2.height row.1).markCanonical row.1 row.2).canonicalBin =
        s.canonicalBin.written row.2.height row.1 := by
      rw [markedRest]
      rfl
    obtain ⟨t,later⟩ := ih (s := (s.writeSlot row.2.height row.1).markCanonical row.1 row.2)
      (by rw [marked]; exact CanonicalBin.writtenReady ready _ _) fun other mem => by
        rw [marked]
        exact (CanonicalBin.writtenAccepts ..).mpr (fits other (List.mem_cons_of_mem _ mem))
    exact ⟨t,cleanBind (cleanBind (extendWriteClean _ ready (fits row (by simp))) (cleanModify _ _)) later⟩

theorem setCanonicalBatchSwept (lawful : crates.Lawful) (ready : s.canonicalBin.Ready) (filed : Filed crates content s)
    (writes : s.readOnly = false) {hashes : List Bytes32} (stored : ∀ x ∈ hashes, s.Stored x)
    (fits : ∀ x ∈ hashes, s.canonicalBin.Accepts (content x).height) :
    ∃ t, Clean (setCanonicalBatch crates hashes) s (.ok ()) t ∧ Swept crates content s t hashes ∧
      t.canonicalHeightCache = s.canonicalHeightCache := by
  by_cases empty : hashes = []
  · subst empty
    exact ⟨s,cleanBind (refuseReadOnlyClean _ writes) rfl,sweptNil,rfl⟩
  · obtain ⟨validated,u,reading,all,rows⟩ := readAllClean lawful filed stored
    have batch : validated.map (fun row => canonicalRow row.2.height row.1) =
        (listed content hashes).map fun row => canonicalRow row.1 row.2 := by
      rw [← rows,rowsOf,List.map_map]
      rfl
    have order : validated.map Prod.fst = hashes := by
      rw [← rowsOfHashes,rows,listed,List.map_map]
      exact List.map_id _
    obtain ⟨records,same⟩ : ∃ records, u = {s with
        recordCache := records
        headerCache := readHeaders content s.known s.headerCache hashes} := ⟨_,all.rest⟩
    subst same
    have held : ∀ y, records y = if y ∈ hashes then some (s.recordOf crates content y) else s.recordCache y := all.records
    have turns := @batchTurnsClean (Store.commit (validated.map fun row => canonicalRow row.2.height row.1) {s with
        recordCache := records
        headerCache := readHeaders content s.known s.headerCache hashes}) validated ready fun row mem => by
        change s.canonicalBin.Accepts _
        have inside : (row.2.height,row.1) ∈ listed content hashes := by
          rw [← rows]
          exact List.mem_map_of_mem mem
        obtain ⟨x,here,same⟩ := List.mem_map.mp inside
        injection same with height _
        rw [← height]
        exact fits x here
    obtain ⟨t,ran⟩ := turns
    obtain ⟨_,done⟩ := setBatchTurns ran.runs
    refine ⟨t,cleanBind (refuseReadOnlyClean _ writes) ?_,⟨?_,fun y => ?_⟩,?_⟩
    · rw [if_neg empty]
      exact cleanBind reading (cleanBind (writeClean _ _) ran)
    · rw [done,batch,rows]
      rfl
    · have mark := @markAllAt (Store.commit (validated.map fun row => canonicalRow row.2.height row.1) {s with
        recordCache := records
        headerCache := readHeaders content s.known s.headerCache hashes}) validated (fun row mem => by
          change (records row.1).isSome
          rw [held,if_pos (order ▸ List.mem_map_of_mem mem)]
          rfl) y
      rw [done]
      refine mark.trans ?_
      change (if y ∈ validated.map Prod.fst then (records y).map BlockRecord.marked else records y) = _
      rw [order,held]
      split <;> rfl
    · rw [done]
      rfl

theorem Swept.index {hashes : List Bytes32} (swept : Swept crates content s t hashes) :
    canonicalAt t.db = putAll (listed content hashes) (canonicalAt s.db) := by
  rw [swept.rest]
  exact canonicalAtPutAll ..

theorem batchAccepts (lawful : crates.Lawful) (filed : Filed crates content s) {hashes : List Bytes32} {v : Unit}
    (h : Runs (setCanonicalBatch crates hashes) s (.ok v) t) :
    s.readOnly = false ∧ ∀ row ∈ listed content hashes, s.canonicalBin.Accepts row.1 := by
  obtain ⟨_,_,opening,_⟩ := runsBindOk h
  refine ⟨(refuseReadOnlyOk opening).1,fun row mem => ?_⟩
  rcases setCanonicalBatchOk h with ⟨rfl,_⟩ | ⟨validated,u,_,touched,_,order,held,fits,_⟩
  · cases mem
  · obtain ⟨x,inside,rfl⟩ := List.mem_map.mp mem
    rw [← order] at inside
    obtain ⟨one,member,rfl⟩ := List.mem_map.mp inside
    have height := (filed.mayRecord lawful (touched.mayRecord (held one member))).1
    have taken := fits one member
    rwa [height,touched.bin] at taken

theorem setCanonicalBatchAgreed (lawful : crates.Lawful) (filed : Filed crates content s) {hashes : List Bytes32} {v : Unit}
    (clear : s.Clear (listed content hashes)) (agreed : Agreed s)
    (h : Runs (setCanonicalBatch crates hashes) s (.ok v) t) : Agreed t where
  indexed := callIndexed (c := .setCanonicalBatch hashes) agreed.indexed h
  coherent := by
    refine callCoherent (c := .setCanonicalBatch hashes) agreed.indexed agreed.coherent (fun rows behind => ?_) h
    cases behind with
    | batch order held =>
      rename_i validated
      have same : rowsOf validated = listed content hashes := by
        rw [← order,listed,List.map_map,rowsOf]
        refine List.map_congr_left fun row mem => ?_
        rw [(filed.mayRecord lawful (held row mem)).1]
        rfl
      rwa [same]
  seated := callSeated (c := .setCanonicalBatch hashes) agreed.indexed agreed.seated h

end Runs

section Answers

theorem getRecordSame (records : t.recordCache = s.recordCache) (headers : t.headerCache = s.headerCache)
    (rows : t.db .headers = s.db .headers) (hash : Bytes32) (script : List Event) :
    (getRecord crates hash ⟨t,script⟩).1 = (getRecord crates hash ⟨s,script⟩).1 := by
  simp only [getRecord,bind,Op.bind,Op.get,records,headers,rows]
  cases s.recordCache hash with
  | some record => rfl
  | none =>
    cases (s.headerCache.getClone hash).1 with
    | some header => rfl
    | none =>
      cases (s.db .headers)[hashKey hash]? with
      | none => rfl
      | some raw =>
        dsimp only
        cases deserializeHeader crates raw <;> rfl

theorem lookupSame (floor : t.minRetainedHeightCached = s.minRetainedHeightCached)
    (cache : t.canonicalHeightCache = s.canonicalHeightCache) (bin : t.canonicalBin = s.canonicalBin)
    (rows : t.db .canonical = s.db .canonical) (height : UInt64) (script : List Event) :
    (getHashByHeight height ⟨t,script⟩).1 = (getHashByHeight height ⟨s,script⟩).1 := by
  simp only [getHashByHeightUnfolds,floor,cache,bin,rows]
  split
  · rfl
  · cases s.canonicalHeightCache[height]? with
    | some hash => rfl
    | none =>
      cases s.canonicalBin.readHashBytes height with
      | error e => rfl
      | ok found =>
        cases found with
        | some hash => rfl
        | none =>
          cases (s.db .canonical)[heightKey height]? with
          | none => rfl
          | some value =>
            dsimp only
            cases Bytes32.ofBytes? value <;> rfl

theorem agreedSame (crates : Crates) (agreed : Agreed s) (agreed' : Agreed t) (floor : t.minRetainedHeightCached = s.minRetainedHeightCached)
    (bin : t.canonicalBin = s.canonicalBin) (rows : t.db .canonical = s.db .canonical) (height : UInt64)
    (script : List Event) : (getHashByHeight height ⟨t,script⟩).1 = (getHashByHeight height ⟨s,script⟩).1 := by
  have fits : t.Representable height ↔ s.Representable height := by rw [Representable,bin,floor,Representable]
  have answer : t.canonicalAnswer height = s.canonicalAnswer height := by
    rw [canonicalAnswer,floor,canonicalAtCongr rows,canonicalAnswer]
  by_cases here : s.Representable height
  · obtain ⟨_,_,_,ran⟩ := lookupRow crates agreed here script
    obtain ⟨_,_,_,ran'⟩ := lookupRow crates agreed' (fits.mpr here) script
    rw [ran,ran',answer]
  · rw [lookupPast agreed here,lookupPast agreed' (fun there => here (fits.mp there))]

def heightsOf (crates : Crates) (s : Store) (hashes : List Bytes32) : List (UInt64 × Bytes32) :=
  hashes.filterMap fun x => (s.headerAt crates x).map fun header => (header.height,x)

theorem heightsOfListed (lawful : crates.Lawful) (filed : Filed crates content s) {hashes : List Bytes32}
    (stored : ∀ x ∈ hashes, s.Stored x) : s.heightsOf crates hashes = listed content hashes := by
  induction hashes with
  | nil => rfl
  | cons hash rest ih =>
    rw [heightsOf,List.filterMap_cons,filed.storedHeader lawful (stored hash (by simp))]
    exact congrArg _ (ih fun x mem => stored x (List.mem_cons_of_mem _ mem))

end Answers

section Missing

theorem cleanFail {α β : Type} {m : StoreM α} {f : α → StoreM β} {e : Stop BlockStoreError}
    (first : Clean m s (.error e) t) : Clean (m >>= f) s (.error e) t := by
  unfold Clean at first ⊢
  change Op.bind m f _ = _
  unfold Op.bind
  rw [first]

theorem collectMissing (lawful : crates.Lawful) (filed : Filed crates content s) {hashes : List Bytes32}
    (ends : ∀ x ∈ hashes, s.Ends crates x) (missing : ∃ x ∈ hashes, s.headerAt crates x = none) :
    ∃ x t, x ∈ hashes ∧ s.headerAt crates x = none ∧ Touched crates s t ∧
      t.canonicalHeightCache = s.canonicalHeightCache ∧
      Clean (Op.collect (getRecordOrMissing crates) hashes) s (.error (.error (.blockNotInStore x))) t := by
  induction hashes generalizing s with
  | nil =>
    obtain ⟨x,mem,_⟩ := missing
    cases mem
  | cons hash rest ih =>
    cases row : s.headerAt crates hash with
    | none =>
      obtain ⟨t,touched,cache,ran⟩ := getRecordAnswers (filed.reads lawful hash) []
      rcases recordAtRow lawful filed (ends hash (by simp)) with ⟨_,none'⟩ | ⟨header,_,found,_⟩
      · rw [none'] at ran
        exact ⟨hash,t,by simp,row,touched,cache,cleanFail (cleanBind ran rfl)⟩
      · rw [row] at found
        cases found
    | some header =>
      have read := getRecordReads lawful filed (filed.headerStored lawful row).1 []
      obtain ⟨touched,cache,_⟩ := getRecordRuns (Clean.runs read)
      have one : Clean (getRecordOrMissing crates hash) s (.ok (hash,s.recordOf crates content hash))
          (s.readRecord crates content hash) := cleanBind read rfl
      have later : ∃ x ∈ rest, (s.readRecord crates content hash).headerAt crates x = none := by
        obtain ⟨x,mem,none'⟩ := missing
        rcases List.mem_cons.mp mem with rfl | older
        · rw [row] at none'
          cases none'
        · exact ⟨x,older,by rw [touched.headerAt]; exact none'⟩
      obtain ⟨x,t,mem,none',touched',cache',ran⟩ := ih (touched.filed lawful filed)
        (fun y mem => touched.ends (ends y (List.mem_cons_of_mem _ mem))) later
      rw [touched.headerAt] at none'
      exact ⟨x,t,List.mem_cons_of_mem _ mem,none',touched.trans touched',cache'.trans cache,
        cleanBind one (cleanFail ran)⟩

theorem Touched.recordOf (lawful : crates.Lawful) (filed : Filed crates content s) (touched : Touched crates s t)
    (hash : Bytes32) : t.recordOf crates content hash = s.recordOf crates content hash := by
  unfold Store.recordOf
  cases held : s.recordCache hash with
  | some record => rw [touched.recordsKept hash record held]
  | none =>
    cases found : t.recordCache hash with
    | none => rfl
    | some record =>
      rcases touched.records hash record found with older | ⟨_,header,known,rfl⟩
      · rw [held] at older
        cases older
      · rw [filed.knows lawful known]
        rfl

theorem Touched.record (lawful : crates.Lawful) (filed : Filed crates content s) (touched : Touched crates s t)
    {hash : Bytes32} (ends : s.Ends crates hash) (script : List Event) :
    (getRecord crates hash ⟨t,script⟩).1 = (getRecord crates hash ⟨s,script⟩).1 := by
  have filed' := touched.filed lawful filed
  cases row : s.headerAt crates hash with
  | some header =>
    have stored := (filed.headerStored lawful row).1
    have stored' : t.Stored hash := by
      rw [Stored,touched.db]
      exact stored
    rw [getRecordReads lawful filed stored,getRecordReads lawful filed' stored',touched.recordOf lawful filed]
  | none =>
    have nothing : ∀ u, Filed crates content u → u.Ends crates hash → u.headerAt crates hash = none →
        (getRecord crates hash ⟨u,script⟩).1 = .ok none := by
      intro u filed ends row
      obtain ⟨_,_,_,ran⟩ := getRecordAnswers (filed.reads lawful hash) script
      rcases recordAtRow lawful filed ends with ⟨_,none'⟩ | ⟨header,_,found,_⟩
      · rw [ran,none']
      · rw [row] at found
        cases found
    rw [nothing s filed ends row,nothing t filed' (touched.ends ends) (by rw [touched.headerAt]; exact row)]

end Missing

section Agreement

theorem Swept.floor {hashes : List Bytes32} (swept : Swept crates content s t hashes) :
    t.minRetainedHeightCached = s.minRetainedHeightCached := by rw [swept.rest]

/- Lookups alike after the batch and after the switches one by one leave nothing stale. -/
theorem batchClear (lawful : crates.Lawful) (agreed : Agreed s) (filed : Filed crates content s) {hashes : List Bytes32}
    {t' : Store} (on : s.canonicalHeightCacheCapacity ≠ 0) (stored : ∀ x ∈ hashes, s.Stored x)
    (ran : Clean (setCanonicalBatch crates hashes) s (.ok ()) t)
    (ran' : Clean (Op.forEach (setCanonical crates) hashes) s (.ok ()) t')
    (same : ∀ h script, (getHashByHeight h ⟨t,script⟩).1 = (getHashByHeight h ⟨t',script⟩).1) :
    s.Clear (listed content hashes) := by
  obtain ⟨writes,fits⟩ := batchAccepts lawful filed ran.runs
  have fits' : ∀ x ∈ hashes, s.canonicalBin.Accepts (content x).height := fun x mem => fits ((content x).height,x) (memListed mem)
  obtain ⟨u,again,swept,cache⟩ := setCanonicalBatchSwept lawful agreed.indexed.bin.ready filed writes stored fits'
  obtain ⟨u',again',swept',big,_⟩ := setEachSwept lawful agreed.indexed filed writes stored fits'
  have here := (ran.unique again).2
  have here' := (ran'.unique again').2
  subst here here'
  intro h x y low last cached
  have stale : (getHashByHeight h ⟨t,[]⟩).1 = .ok (some x) := by
    rw [getHashByHeightUnfolds,swept.floor,if_neg (UInt64.not_lt.mpr low),cache,cached]
  have row : canonicalAt t'.db h = some y := by
    rw [swept'.index,putAllAt,last]
    rfl
  rw [same,lookupAnswered crates (big on agreed),canonicalAnswerAbove (by rwa [swept'.floor]),row] at stale
  exact Option.some.inj stale.2

theorem batchSame (lawful : crates.Lawful) (agreed : Agreed s) (filed : Filed crates content s)
    (writes : s.readOnly = false) {hashes : List Bytes32} (stored : ∀ x ∈ hashes, s.Stored x)
    (fits : ∀ row ∈ listed content hashes, s.canonicalBin.Accepts row.1)
    (clear : s.canonicalHeightCacheCapacity ≠ 0 → s.Clear (listed content hashes)) :
    ∃ t t', Clean (setCanonicalBatch crates hashes) s (.ok ()) t ∧
      Clean (Op.forEach (setCanonical crates) hashes) s (.ok ()) t' ∧ t.db .canonical = t'.db .canonical ∧
      (∀ h script, (getHashByHeight h ⟨t,script⟩).1 = (getHashByHeight h ⟨t',script⟩).1) ∧
      ∀ y script, (getRecord crates y ⟨t,script⟩).1 = (getRecord crates y ⟨t',script⟩).1 := by
  have fits' : ∀ x ∈ hashes, s.canonicalBin.Accepts (content x).height := fun x mem => fits ((content x).height,x) (memListed mem)
  obtain ⟨t,ran,swept,cache⟩ := setCanonicalBatchSwept lawful agreed.indexed.bin.ready filed writes stored fits'
  obtain ⟨t',ran',swept',big,off⟩ := setEachSwept lawful agreed.indexed filed writes stored fits'
  have records : t.recordCache = t'.recordCache := funext fun y => (swept.records y).trans (swept'.records y).symm
  have db : t.db = t'.db := by rw [swept.rest,swept'.rest]
  have bin : t.canonicalBin = t'.canonicalBin := by rw [swept.rest,swept'.rest]
  have headers : t.headerCache = t'.headerCache := by rw [swept.rest,swept'.rest]
  have floor : t.minRetainedHeightCached = t'.minRetainedHeightCached := swept.floor.trans swept'.floor.symm
  refine ⟨t,t',ran,ran',by rw [db],fun h script => ?_,fun y script => getRecordSame records headers (by rw [db]) y script⟩
  by_cases zero : s.canonicalHeightCacheCapacity = 0
  · exact lookupSame floor (cache.trans (off zero).symm) bin (by rw [db]) h script
  · have agreed' := setCanonicalBatchAgreed lawful filed (clear zero) agreed ran.runs
    exact agreedSame crates (big zero agreed) agreed' floor bin (by rw [db]) h script

end Agreement

end Store

/- Where the lookup tiers agree, a batch switch of stored hashes leaves the same rows, lookups and
records as the switches one by one exactly on a writable store whose file takes their heights
and whose cached heights in the list hold the last hash there; an unknown hash ends it first. -/
theorem batchSwitchAgrees {crates : Crates} {s : Store} (lawful : crates.Lawful) (reached : Reaches crates s)
    (coherent : s.Coherent) (hashes : List Bytes32) :
    ((∀ x ∈ hashes, (s.headerAt crates x).isSome) →
      ((∃ t t', Clean (Store.setCanonicalBatch crates hashes) s (.ok ()) t ∧
          Clean (Op.forEach (Store.setCanonical crates) hashes) s (.ok ()) t' ∧
          t.db .canonical = t'.db .canonical ∧
          (∀ h script, (Store.getHashByHeight h ⟨t,script⟩).1 = (Store.getHashByHeight h ⟨t',script⟩).1) ∧
          ∀ y script, (Store.getRecord crates y ⟨t,script⟩).1 = (Store.getRecord crates y ⟨t',script⟩).1) ↔
        s.readOnly = false ∧ (∀ row ∈ s.heightsOf crates hashes, s.canonicalBin.Accepts row.1) ∧
          (s.canonicalHeightCacheCapacity ≠ 0 → s.Clear (s.heightsOf crates hashes)))) ∧
    ((∃ x ∈ hashes, s.headerAt crates x = none) → s.readOnly = false → (∀ x ∈ hashes, s.Ends crates x) →
      ∃ x t, x ∈ hashes ∧ s.headerAt crates x = none ∧
        Clean (Store.setCanonicalBatch crates hashes) s (.error (.error (.blockNotInStore x))) t ∧ t.db = s.db ∧
        (∀ h script, (Store.getHashByHeight h ⟨t,script⟩).1 = (Store.getHashByHeight h ⟨s,script⟩).1) ∧
        ∀ y, s.Ends crates y → ∀ script,
          (Store.getRecord crates y ⟨t,script⟩).1 = (Store.getRecord crates y ⟨s,script⟩).1) := by
  obtain ⟨content,filed⟩ := reachesFiled lawful reached
  have agreed := agreedOf reached coherent
  refine ⟨fun rows => ?_,fun missing writes ends => ?_⟩
  · have stored : ∀ x ∈ hashes, s.Stored x := fun x mem => by
      obtain ⟨header,row⟩ := Option.isSome_iff_exists.mp (rows x mem)
      exact (filed.headerStored lawful row).1
    rw [Store.heightsOfListed lawful filed stored]
    constructor
    · rintro ⟨t,t',ran,ran',_,same,_⟩
      obtain ⟨writes,fits⟩ := Store.batchAccepts lawful filed ran.runs
      exact ⟨writes,fits,fun on => Store.batchClear lawful agreed filed on stored ran ran' same⟩
    · rintro ⟨writes,fits,clear⟩
      exact Store.batchSame lawful agreed filed writes stored fits clear
  · obtain ⟨x,t,mem,row,touched,cache,ran⟩ := Store.collectMissing lawful filed ends missing
    have some' : hashes ≠ [] := List.ne_nil_of_mem mem
    refine ⟨x,t,mem,row,?_,touched.db,fun h script => ?_,fun y known script => touched.record lawful filed known script⟩
    · refine cleanBind (Store.refuseReadOnlyClean _ writes) ?_
      rw [if_neg some']
      exact Store.cleanFail ran
    · exact Store.lookupSame touched.floor cache touched.bin (by rw [touched.db]) h script

namespace Sample

def besides : Store := .after crates Store.tame config
  [.initGenesis (block 0 0 1),.extendChain (block 1 1 2),.putBlock (block 1 1 3) false]

end Sample

theorem batchSwitchAgreesSample : ∃ t t', Clean (Store.setCanonicalBatch Sample.crates [Sample.hash 3,Sample.hash 2])
      Sample.besides (.ok ()) t ∧
    Clean (Op.forEach (Store.setCanonical Sample.crates) [Sample.hash 3,Sample.hash 2]) Sample.besides (.ok ()) t' ∧
    ∀ h script, (Store.getHashByHeight h ⟨t,script⟩).1 = (Store.getHashByHeight h ⟨t',script⟩).1 := by
  have run : ReachesUnshadowed Sample.crates Sample.besides := Store.afterTame (by decide +kernel)
  have rows : Sample.besides.heightsOf Sample.crates [Sample.hash 3,Sample.hash 2] =
      [(1,Sample.hash 3),(1,Sample.hash 2)] := by decide +kernel
  obtain ⟨t,t',ran,ran',_,same,_⟩ := ((batchSwitchAgrees Sample.lawful run.reaches (reachesCoherent run).2
      [Sample.hash 3,Sample.hash 2]).1 (by decide +kernel)).mpr ⟨by decide +kernel,by decide +kernel,fun _ h x y _ last cached => by
    rw [rows] at last
    have here : h = 1 := by
      have mem := PartialMap.lastRowMem last
      simp only [List.mem_cons,Prod.mk.injEq,List.not_mem_nil,or_false] at mem
      rcases mem with ⟨one,_⟩ | ⟨one,_⟩ <;> exact one
    subst here
    have held : Sample.besides.canonicalHeightCache[(1 : UInt64)]? = some (Sample.hash 2) := by decide +kernel
    have row : PartialMap.lastRow [((1 : UInt64),Sample.hash 3),(1,Sample.hash 2)] 1 = some (Sample.hash 2) := by
      decide +kernel
    rw [held] at cached
    rw [row] at last
    exact (Option.some.inj cached).symm.trans (Option.some.inj last)⟩
  exact ⟨t,t',ran,ran',same⟩

/- After a batch switch of the block beside the one cached, lookups answer the cached one. -/
theorem batchSwitchStale : Reaches Sample.crates Sample.besides ∧ Sample.besides.Coherent ∧
    (Sample.besides.headerAt Sample.crates (Sample.hash 3)).isSome ∧
    (Store.setCanonicalBatch Sample.crates [Sample.hash 3] ⟨Sample.besides,[]⟩).1 = .ok () ∧
    (Store.setCanonical Sample.crates (Sample.hash 3) ⟨Sample.besides,[]⟩).1 = .ok () ∧
    (Store.getHashByHeight 1 (Store.setCanonicalBatch Sample.crates [Sample.hash 3] ⟨Sample.besides,[]⟩).2).1 =
      .ok (some (Sample.hash 2)) ∧
    (Store.getHashByHeight 1 (Store.setCanonical Sample.crates (Sample.hash 3) ⟨Sample.besides,[]⟩).2).1 =
      .ok (some (Sample.hash 3)) :=
  have run : ReachesUnshadowed Sample.crates Sample.besides := Store.afterTame (by decide +kernel)
  ⟨run.reaches,(reachesCoherent run).2,by decide +kernel,by decide +kernel,by decide +kernel,by decide +kernel,
    by decide +kernel⟩

end DigBlockstore
