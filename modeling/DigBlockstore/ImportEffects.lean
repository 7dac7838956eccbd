import DigBlockstore.Lookups

/-! What an import does: the frames it reads, each put as a canonical block, and the lookup
at a height before and after them, also when the stream is rejected part-way. -/
namespace DigBlockstore
open ByteCodec Faulty ColumnStore PartialMap
namespace Store
variable {crates : Crates} {s t u : Store}

section Heights

def CoherentAt (s : Store) (h : UInt64) : Prop :=
  s.minRetainedHeightCached ≤ h → ∀ x, s.canonicalHeightCache[h]? = some x → canonicalAt s.db h = some x

theorem Coherent.at (coherent : Coherent s) (h : UInt64) : CoherentAt s h := fun low x found => coherent h x low found

theorem lookupAt (indexed : Indexed s) {h : UInt64} (here : CoherentAt s h) : s.lookup h = s.canonicalAnswer h := by
  unfold lookup canonicalAnswer
  split
  · rfl
  · rename_i above
    have low : s.minRetainedHeightCached ≤ h := UInt64.not_lt.mp above
    rw [indexed.stored low]
    cases cached : s.canonicalHeightCache[h]? with
    | none => rfl
    | some x => exact (here low x cached).symm

variable {index : UInt64 → Option Bytes32} {head : Option ChainTip} {kept : UInt64 → Prop} {h : UInt64} {x : Bytes32}

theorem Shift.sameAt (indexed : Indexed s) (shift : Shift s t index head s.minRetainedHeightCached kept)
    (here : CoherentAt s h) (same : index h = canonicalAt s.db h) : CoherentAt t h ∧ t.lookup h = s.lookup h := by
  have after : CoherentAt t h := by
    intro low y cached
    rw [shift.floor] at low
    rw [shift.rows]
    rcases shift.heights h y low cached with row | ⟨older,_⟩
    · exact row
    · rw [same]
      exact here low y older
  refine ⟨after,?_⟩
  rw [lookupAt indexed here,lookupAt shift.indexed after]
  unfold canonicalAnswer
  rw [shift.floor,shift.rows,same]

theorem Shift.newAt (shift : Shift s t index head s.minRetainedHeightCached kept) (row : index h = some x)
    (low : s.minRetainedHeightCached ≤ h) (clear : ∀ y, s.canonicalHeightCache[h]? = some y → kept h → y = x) :
    CoherentAt t h ∧ t.lookup h = some x := by
  have after : CoherentAt t h := by
    intro low' y cached
    rw [shift.rows,row]
    rcases shift.heights h y low cached with same | ⟨older,keep⟩
    · rw [row] at same
      exact same
    · rw [clear y older keep]
  refine ⟨after,?_⟩
  rw [lookupAt shift.indexed after]
  unfold canonicalAnswer
  rw [shift.floor,if_neg (UInt64.not_lt.mpr low),shift.rows,row]

/- The row at the height is `x`, and the cache holds that or what was found there before. -/
structure Settled (s t : Store) (h : UInt64) (x : Bytes32) : Prop where
  row : canonicalAt t.db h = some x
  floor : t.minRetainedHeightCached = s.minRetainedHeightCached
  cached : ∀ y, s.minRetainedHeightCached ≤ h → t.canonicalHeightCache[h]? = some y → y = x ∨ s.lookup h = some y

theorem Settled.lookup (settled : Settled s t h x) (indexed : Indexed t) : t.lookup h = some x ∨ t.lookup h = s.lookup h := by
  by_cases below : h < s.minRetainedHeightCached
  · right
    rw [Store.lookup,Store.lookup,settled.floor,if_pos below,if_pos below]
  · have low : s.minRetainedHeightCached ≤ h := UInt64.not_lt.mp below
    have found : t.lookup h = t.canonicalHeightCache[h]?.or (some x) := by
      rw [Store.lookup,settled.floor,if_neg below,indexed.stored (by rw [settled.floor]; exact low),settled.row]
    rw [found]
    cases cached : t.canonicalHeightCache[h]? with
    | none => exact .inl rfl
    | some y =>
      rcases settled.cached y low cached with rfl | older
      · exact .inl rfl
      · exact .inr older.symm

theorem Shift.settle (shift : Shift u t index head u.minRetainedHeightCached kept) (row : index h = some x)
    (here : CoherentAt u h) (indexed : Indexed u) (floor : u.minRetainedHeightCached = s.minRetainedHeightCached)
    (same : u.lookup h = s.lookup h) : Settled s t h x where
  row := by rw [shift.rows,row]
  floor := shift.floor.trans floor
  cached y low cached := by
    have low' : u.minRetainedHeightCached ≤ h := by rwa [floor]
    rcases shift.heights h y low' cached with new | ⟨older,_⟩
    · rw [row] at new
      exact .inl (Option.some.inj new).symm
    · right
      rw [← same,lookupAt indexed here,canonicalAnswer,if_neg (UInt64.not_lt.mpr low')]
      exact here low' y older

theorem Settled.shift (settled : Settled s u h x) (shift : Shift u t index head u.minRetainedHeightCached kept)
    (same : index h = canonicalAt u.db h) : Settled s t h x where
  row := by rw [shift.rows,same,settled.row]
  floor := shift.floor.trans settled.floor
  cached y low cached := by
    rcases shift.heights h y (by rwa [settled.floor]) cached with new | ⟨older,_⟩
    · rw [same,settled.row] at new
      exact .inl (Option.some.inj new).symm
    · exact settled.cached y low older

end Heights

section Frames

/- The next frame of a stream: a block under the store's dictionary, at the height and over
the hash expected. -/
structure Framed (crates : Crates) (s : Store) (prev : Option Bytes32) (input : Bytes) (height : UInt64)
    (block : L2Block) (left : Bytes) : Prop where
  read : ∃ lenBytes body compressed, readExact "snapshot read: " 4 input = .ok (lenBytes,body) ∧
    readExact "snapshot read: " (leNat lenBytes) body = .ok (compressed,left) ∧
    s.deserializeBlock crates compressed = .ok block
  level : block.height = height
  linked : ∀ hash, prev = some hash → block.header.parentHash = hash

inductive Frames (crates : Crates) : Option Bytes32 → Bytes → List UInt64 → Store → List L2Block → Bytes → Store → Prop where
  | nil (prev : Option Bytes32) (input : Bytes) (s : Store) : Frames crates prev input [] s [] input s
  | cons {prev : Option Bytes32} {input left last : Bytes} {height : UInt64} {heights : List UInt64} {block : L2Block}
      {blocks : List L2Block} {added : Bool} {s u t : Store} (framed : Framed crates s prev input height block left)
      (put : Runs (putBlock crates block true) s (.ok added) u)
      (later : Frames crates (some (block.hash crates)) left heights u blocks last t) :
      Frames crates prev input (height :: heights) s (block :: blocks) last t

theorem Frames.puts {prev : Option Bytes32} {input left : Bytes} {heights : List UInt64} {blocks : List L2Block}
    (frames : Frames crates prev input heights s blocks left t) : Puts crates blocks s t := by
  induction frames with
  | nil prev input s => exact .nil s
  | cons _ put _ ih => exact .cons put ih

theorem Frames.heights {prev : Option Bytes32} {input left : Bytes} {heights : List UInt64} {blocks : List L2Block}
    (frames : Frames crates prev input heights s blocks left t) : blocks.map L2Block.height = heights := by
  induction frames with
  | nil => rfl
  | cons framed _ _ ih => rw [List.map_cons,framed.level,ih]

inductive Stopped (crates : Crates) (u : Store) (left : Bytes) : List UInt64 → Exit (Bytes × Bytes) → Store → Prop where
  | done (hashed : Bytes) : Stopped crates u left [] (.ok (left,hashed)) u
  | refused {height : UInt64} {heights : List UInt64} (e : BlockStoreError) :
      Stopped crates u left (height :: heights) (.error (.error e)) u
  | failed {height : UInt64} {heights : List UInt64} {prev : Option Bytes32} {block : L2Block} {after : Bytes}
      {e : Stop BlockStoreError} {t : Store} (framed : Framed crates u prev left height block after)
      (put : Runs (putBlock crates block true) u (.error e) t) : Stopped crates u left (height :: heights) (.error e) t

theorem runsOfExceptError {α : Type} {x : Except BlockStoreError α} {e : Stop BlockStoreError}
    (h : Runs (Op.ofExcept x : StoreM α) s (.error e) t) : ∃ why, e = .error why ∧ t = s := by
  obtain ⟨same,⟨_,_,bad⟩ | ⟨why,_,stop⟩⟩ := runsOfExcept h
  · cases bad
  · exact ⟨why,Except.error.inj stop,same⟩

theorem importFramesRuns {prev : Option Bytes32} {input hashed : Bytes} {heights : List UInt64} {r : Exit (Bytes × Bytes)}
    (h : Runs (importFrames crates prev input hashed heights) s r t) :
    ∃ read unread blocks left u, heights = read ++ unread ∧ Frames crates prev input read s blocks left u ∧
      Stopped crates u left unread r t := by
  induction heights generalizing prev input hashed s with
  | nil =>
    obtain ⟨rfl,rfl⟩ := runsPure.mp h
    exact ⟨[],[],[],input,_,rfl,.nil prev input _,.done hashed⟩
  | cons height rest ih =>
    have refuse {e : BlockStoreError} : Stopped crates s input (height :: rest) (.error (.error e)) s := .refused e
    rcases runsBind h with ⟨⟨lenBytes,body⟩,a,one,reading⟩ | ⟨e,rfl,one⟩
    · obtain ⟨lengthRead,rfl⟩ := runsOfExceptOk one
      rcases runsBind reading with ⟨⟨compressed,left⟩,b,two,unpacking⟩ | ⟨e,rfl,two⟩
      · obtain ⟨bodyRead,rfl⟩ := runsOfExceptOk two
        rw [runsGetBind] at unpacking
        rcases runsBind unpacking with ⟨block,c,three,checking⟩ | ⟨e,rfl,three⟩
        · obtain ⟨decoded,rfl⟩ := runsOfExceptOk three
          split at checking
          · obtain ⟨rfl,rfl⟩ := runsError.mp checking
            exact ⟨[],_,[],input,_,rfl,.nil prev input _,refuse⟩
          · rename_i level
            split at checking
            · obtain ⟨rfl,rfl⟩ := runsError.mp checking
              exact ⟨[],_,[],input,_,rfl,.nil prev input _,refuse⟩
            · rename_i linked
              have framed : Framed crates c prev input height block left := by
                refine ⟨⟨lenBytes,body,compressed,lengthRead,bodyRead,decoded⟩,by simpa using level,?_⟩
                rintro hash rfl
                have same : hash = block.header.parentHash := by simpa using linked
                exact same.symm
              rcases runsBind checking with ⟨added,d,putting,more⟩ | ⟨e,rfl,putting⟩
              · obtain ⟨read,unread,blocks,last,u,rfl,frames,stopped⟩ := ih more
                exact ⟨height :: read,unread,block :: blocks,last,u,rfl,.cons framed putting frames,stopped⟩
              · exact ⟨[],_,[],input,_,rfl,.nil prev input _,.failed framed putting⟩
        · obtain ⟨e',rfl,rfl⟩ := runsOfExceptError three
          exact ⟨[],_,[],input,_,rfl,.nil prev input _,refuse⟩
      · obtain ⟨e',rfl,rfl⟩ := runsOfExceptError two
        exact ⟨[],_,[],input,_,rfl,.nil prev input _,refuse⟩
    · obtain ⟨e',rfl,rfl⟩ := runsOfExceptError one
      exact ⟨[],_,[],input,_,rfl,.nil prev input _,refuse⟩

end Frames

section Puts
variable {block : L2Block} {blocks : List L2Block} {added : Bool} {h : UInt64}

theorem putElsewhere (indexed : Indexed s) (here : CoherentAt s h)
    (apart : h = block.height → (s.db .blocks)[hashKey (block.hash crates)]?.isSome)
    (run : Runs (putBlock crates block true) s (.ok added) t) : CoherentAt t h ∧ t.lookup h = s.lookup h := by
  rcases putBlockShift indexed run with ⟨_,rfl⟩ | ⟨_,absent,shift⟩
  · exact ⟨here,rfl⟩
  · refine shift.sameAt indexed here ?_
    rw [putIndex,if_pos rfl,Function.update_of_ne]
    intro same
    have stored := apart same
    rw [absent] at stored
    cases stored

structure PutRows (crates : Crates) (s t : Store) (block : L2Block) : Prop where
  kept : ∀ key raw : Bytes, (s.db .blocks)[key]? = some raw → (t.db .blocks)[key]? = some raw
  here : ∃ raw, (t.db .blocks)[hashKey (block.hash crates)]? = some raw ∧
    ((s.db .blocks)[hashKey (block.hash crates)]? = none → Encodes crates block raw)
  others : ∀ hash, hash ≠ block.hash crates → (t.db .blocks)[hashKey hash]? = (s.db .blocks)[hashKey hash]?

theorem putRowsAfter (run : Runs (putBlock crates block true) s (.ok added) t) : PutRows crates s t block := by
  rcases putBlockOk run with ⟨_,rfl,stored⟩ | ⟨_,compressed,headerBytes,packs,_,trained⟩
  · obtain ⟨raw,row⟩ := Option.isSome_iff_exists.mp stored
    refine ⟨fun _ _ row => row,⟨raw,row,fun absent => ?_⟩,fun _ _ => rfl⟩
    rw [row] at absent
    cases absent
  · have rows : ∀ key : Bytes, (t.db .blocks)[key]? =
        if key = hashKey (block.hash crates) then some compressed else (s.db .blocks)[key]? := by
      intro key
      rw [trained.column (by simp),(ingestedIngests block true compressed headerBytes).rows .blocks (.inl rfl),
        bodyRowsRow,if_neg (by simp)]
      simp
    refine ⟨fun key raw row => ?_,⟨compressed,by rw [rows,if_pos rfl],fun _ => serializeBlockEncodes packs.body⟩,
      fun hash apart => by rw [rows,if_neg fun same => apart (hashKeyInj.mp same)]⟩
    rw [rows,if_neg]
    · exact row
    · rintro rfl
      rw [packs.absent] at row
      cases row

theorem putsSplit {before after : List L2Block} (puts : Puts crates (before ++ block :: after) s t) :
    ∃ u v added, Puts crates before s u ∧ Runs (putBlock crates block true) u (.ok added) v ∧ Puts crates after v t := by
  induction before generalizing s with
  | nil =>
    cases puts with
    | cons first later => exact ⟨_,_,_,.nil _,first,later⟩
  | cons other rest ih =>
    cases puts with
    | cons first later =>
      obtain ⟨u,v,added,ahead,here,behind⟩ := ih later
      exact ⟨u,v,added,.cons first ahead,here,behind⟩

theorem putsRows (puts : Puts crates blocks s t) :
    (∀ key raw : Bytes, (s.db .blocks)[key]? = some raw → (t.db .blocks)[key]? = some raw) ∧
      ∀ hash, hash ∉ blocks.map (L2Block.hash crates) → (t.db .blocks)[hashKey hash]? = (s.db .blocks)[hashKey hash]? := by
  induction puts with
  | nil s => exact ⟨fun _ _ row => row,fun _ _ => rfl⟩
  | cons first _ ih =>
    have rows := putRowsAfter first
    refine ⟨fun key raw row => ih.1 key raw (rows.kept key raw row),fun hash unseen => ?_⟩
    rw [List.map_cons,List.mem_cons,not_or] at unseen
    rw [ih.2 hash unseen.2,rows.others hash unseen.1]

theorem putsElsewhere (puts : Puts crates blocks s t) (indexed : Indexed s) (here : CoherentAt s h)
    (apart : ∀ block ∈ blocks, block.height = h → (s.db .blocks)[hashKey (block.hash crates)]?.isSome) :
    CoherentAt t h ∧ t.lookup h = s.lookup h := by
  induction puts with
  | nil s => exact ⟨here,rfl⟩
  | cons first later ih =>
    obtain ⟨here',same⟩ := putElsewhere indexed here (fun level => apart _ (by simp) level.symm) first
    obtain ⟨done,same'⟩ := ih (putIndexed indexed first) here' fun block mem level => by
      obtain ⟨raw,row⟩ := Option.isSome_iff_exists.mp (apart block (List.mem_cons_of_mem _ mem) level)
      rw [(putRowsAfter first).kept _ _ row]
      rfl
    exact ⟨done,same'.trans same⟩

theorem ingestedMapping (block : L2Block) (compressed headerBytes : Bytes) :
    (s.ingested crates block true compressed headerBytes).canonicalBin.mapping = s.canonicalBin.mapping := by
  rw [ingested,refreshIndex,if_pos rfl,insertHeightRest]
  exact CanonicalBin.writtenMapping ..

theorem putsFrame (puts : Puts crates blocks s t) (indexed : Indexed s) : t.tip = s.tip ∧
    t.minRetainedHeightCached = s.minRetainedHeightCached ∧
    t.canonicalHeightCacheCapacity = s.canonicalHeightCacheCapacity ∧ t.canonicalBin.mapping = s.canonicalBin.mapping := by
  induction puts with
  | nil s => exact ⟨rfl,rfl,rfl,rfl⟩
  | @cons block rest added s u t first later ih =>
    obtain ⟨tip,floor,capacity,mapping⟩ := ih (putIndexed indexed first)
    have bin : u.canonicalBin.mapping = s.canonicalBin.mapping := by
      rcases putBlockOk first with ⟨_,rfl,_⟩ | ⟨_,compressed,headerBytes,_,_,trained⟩
      · rfl
      · rw [trained.rest]
        exact ingestedMapping ..
    rcases putBlockShift indexed first with ⟨_,rfl⟩ | ⟨_,_,shift⟩
    · exact ⟨tip,floor,capacity,mapping⟩
    · exact ⟨tip.trans shift.tip,floor.trans shift.floor,capacity.trans shift.capacity,mapping.trans bin⟩

theorem putsCacheOff (puts : Puts crates blocks s t) (off : s.canonicalHeightCacheCapacity = 0) :
    t.canonicalHeightCache = s.canonicalHeightCache := by
  induction puts with
  | nil s => rfl
  | cons first _ ih =>
    obtain ⟨cache,capacity,_⟩ := putCacheOff off first
    exact (ih (capacity.trans off)).trans cache

theorem putsLand {before after : List L2Block} (puts : Puts crates (before ++ block :: after) s t) (indexed : Indexed s)
    (levels : ((before ++ block :: after).map L2Block.height).Nodup)
    (fresh : block.hash crates ∉ before.map (L2Block.hash crates))
    (absent : (s.db .blocks)[hashKey (block.hash crates)]? = none) (low : s.minRetainedHeightCached ≤ block.height)
    (clear : s.canonicalHeightCacheCapacity ≠ 0 ∨
      ∀ x, s.canonicalHeightCache[block.height]? = some x → x = block.hash crates) :
    t.lookup block.height = some (block.hash crates) := by
  obtain ⟨u,v,added,ahead,put,behind⟩ := putsSplit puts
  rw [List.map_append,List.map_cons] at levels
  have apart := List.nodup_append.mp levels
  have before' : ∀ other ∈ before, other.height ≠ block.height := fun other mem same =>
    apart.2.2 _ (List.mem_map_of_mem mem) _ (by simp) same
  have after' : ∀ other ∈ after, other.height ≠ block.height := fun other mem same =>
    (List.nodup_cons.mp apart.2.1).1 (same ▸ List.mem_map_of_mem mem)
  obtain ⟨_,floor,capacity,_⟩ := putsFrame ahead indexed
  have indexed' := putsIndexed ahead indexed
  have absent' : (u.db .blocks)[hashKey (block.hash crates)]? = none := by rw [(putsRows ahead).2 _ fresh,absent]
  have landed : CoherentAt v block.height ∧ v.lookup block.height = some (block.hash crates) := by
    rcases putBlockShift indexed' put with ⟨no,same⟩ | ⟨_,_,shift⟩
    · rcases putBlockOk put with ⟨_,_,stored⟩ | ⟨yes,_⟩
      · rw [absent'] at stored
        cases stored
      · rw [no] at yes
        cases yes
    · refine shift.newAt (by rw [putIndex,if_pos rfl,Function.update_self]) (by rw [floor]; exact low) fun y older keep => ?_
      rcases clear with on | none'
      · exact absurd rfl (keep rfl (by rwa [capacity]))
      · by_cases off : s.canonicalHeightCacheCapacity = 0
        · rw [putsCacheOff ahead off] at older
          exact none' y older
        · exact absurd rfl (keep rfl (by rwa [capacity]))
  rw [(putsElsewhere behind (putIndexed indexed' put) landed.1 fun other mem same => absurd same (after' other mem)).2]
  exact landed.2

theorem settledPuts {x : Bytes32} {start : Store} (puts : Puts crates blocks s t) (indexed : Indexed s)
    (settled : Settled start s h x) (apart : ∀ block ∈ blocks, block.height ≠ h) : Settled start t h x := by
  induction puts with
  | nil s => exact settled
  | @cons block rest added s u t first later ih =>
    refine ih (putIndexed indexed first) ?_ fun other mem => apart other (List.mem_cons_of_mem _ mem)
    rcases putBlockShift indexed first with ⟨_,rfl⟩ | ⟨_,_,shift⟩
    · exact settled
    · exact settled.shift shift (by rw [putIndex,if_pos rfl,Function.update_of_ne (apart block (by simp)).symm])

theorem putsLookup (puts : Puts crates blocks s t) (indexed : Indexed s) (here : CoherentAt s h)
    (levels : (blocks.map L2Block.height).Nodup) : (CoherentAt t h ∧ t.lookup h = s.lookup h) ∨
      ∃ block ∈ blocks, block.height = h ∧ (s.db .blocks)[hashKey (block.hash crates)]? = none ∧
        Settled s t h (block.hash crates) := by
  by_cases found : ∃ block ∈ blocks, block.height = h ∧ (s.db .blocks)[hashKey (block.hash crates)]? = none
  · obtain ⟨block,mem,rfl,absent⟩ := found
    obtain ⟨before,after,rfl⟩ := List.append_of_mem mem
    obtain ⟨u,v,added,ahead,put,behind⟩ := putsSplit puts
    rw [List.map_append,List.map_cons] at levels
    have apart := List.nodup_append.mp levels
    have before' : ∀ other ∈ before, other.height ≠ block.height := fun other inside same =>
      apart.2.2 _ (List.mem_map_of_mem inside) _ (by simp) same
    have after' : ∀ other ∈ after, other.height ≠ block.height := fun other inside same =>
      (List.nodup_cons.mp apart.2.1).1 (same ▸ List.mem_map_of_mem inside)
    obtain ⟨here',same⟩ := putsElsewhere ahead indexed here fun other inside level => absurd level (before' other inside)
    have indexed' := putsIndexed ahead indexed
    rcases putBlockShift indexed' put with ⟨_,rfl⟩ | ⟨_,_,shift⟩
    · obtain ⟨here'',same'⟩ := putsElsewhere behind indexed' here' fun other inside level => absurd level (after' other inside)
      exact .inl ⟨here'',same'.trans same⟩
    · have settled := shift.settle (by rw [putIndex,if_pos rfl,Function.update_self]) here' indexed'
        (putsFrame ahead indexed).2.1 same
      exact .inr ⟨block,mem,rfl,absent,settledPuts behind (putIndexed indexed' put) settled after'⟩
  · simp only [not_exists,not_and] at found
    refine .inl (putsElsewhere puts indexed here fun block mem level => ?_)
    exact Option.ne_none_iff_isSome.mp (found block mem level)

end Puts

section Rejected
variable {block : L2Block} {h : UInt64} {e : BlockStoreError}

theorem writeHashFails {height : UInt64} {hash : Bytes32} {d d' : CanonicalDenseFile} (mapped : d.mapped = true)
    (run : Runs (CanonicalDenseFile.writeHash height hash) d (.error (.error e)) d') (still : d'.mapped = true) :
    d' = d ∧ slotEnd height = none := by
  unfold CanonicalDenseFile.writeHash at run
  split at run
  · rename_i overflow
    exact ⟨(runsError.mp run).2,overflow⟩
  · rename_i need fits
    rw [runsGetBind,CanonicalDenseFile.lenBytes,if_pos mapped] at run
    dsimp only at run
    rcases runsBind run with ⟨_,v,_,last⟩ | ⟨_,_,growing⟩
    · cases (runsModify.mp last).1
    · unfold CanonicalDenseFile.grow at growing
      split at growing
      · rcases CanonicalDenseFile.resizeRuns growing with ⟨bad,_⟩ | ⟨_,lost⟩
        · cases bad
        · rw [lost] at still
          cases still
      · cases (runsPure.mp growing).1

theorem extendWriteFails {height : UInt64} {hash : Bytes32} (ready : s.canonicalBin.Ready)
    (run : Runs (onBin (CanonicalBin.extendWrite height hash)) s (.error (.error e)) t) (still : t.canonicalBin.Ready) :
    t = s ∧ s.canonicalBin.answer height = none := by
  obtain ⟨bin,inner,rfl⟩ := onBinRuns run
  rcases CanonicalBin.onDenseRuns inner with ⟨d,d',before,rfl,write⟩ | ⟨_,bad,_⟩
  · rw [before] at ready
    obtain ⟨rfl,overflow⟩ := writeHashFails ready.1 write still.1
    refine ⟨by rw [← before],?_⟩
    unfold slotEnd at overflow
    split at overflow
    · cases overflow
    · rename_i outside
      rw [before,CanonicalBin.answerRw ready.1,if_neg (by omega)]
  · cases bad

theorem putBlockFails (indexed : Indexed s) (run : Runs (putBlock crates block true) s (.error (.error e)) t)
    (still : t.canonicalBin.Ready) : t = s ∨ (s.db .blocks)[hashKey (block.hash crates)]? = none ∧
      t.canonicalBin.mapping = s.canonicalBin.mapping ∧
      Shift s t (putIndex crates s block true) s.tip s.minRetainedHeightCached fun _ => True := by
  rcases putBlockRuns run with ⟨bad,_⟩ | ⟨_,same⟩ | ⟨compressed,headerBytes,packs,tail⟩
  · cases bad
  · exact .inl same
  · rcases runsBind tail with ⟨_,u,indexing,caching⟩ | ⟨_,stop,indexing⟩
    · obtain ⟨_,rfl⟩ := indexCanonicalOk indexing
      rw [runsModifyBind,runsModifyBind,runsModifyBind,runsModifyBind] at caching
      have shift := @ingestedShift crates s indexed packs.writes block true compressed headerBytes
      rcases runsBind caching with ⟨_,v,_,last⟩ | ⟨_,_,training⟩
      · cases (runsPure.mp last).1
      · have after := shift.andQuiet (maybeTrainRuns training).quiet
        have bin : t.canonicalBin = (s.ingested crates block true compressed headerBytes).canonicalBin := by
          rw [(maybeTrainRuns training).rest]
          rfl
        exact .inr ⟨packs.absent,by rw [bin,ingestedMapping],after.indexed,after.rows,after.tip,after.floor,after.readOnly,
          after.capacity,fun h x low found => (after.heights h x low found).imp_right fun older => ⟨older.1,trivial⟩⟩
    · cases stop
      rw [indexCanonical,if_pos rfl] at indexing
      rcases runsBind indexing with ⟨_,v,_,last⟩ | ⟨_,stop,writing⟩
      · cases (runsModify.mp last).1
      · cases stop
        have ready : (s.commit (putRows crates block true compressed headerBytes)).canonicalBin.Ready := indexed.bin.ready
        obtain ⟨rfl,unread⟩ := extendWriteFails ready writing still
        have sound : s.canonicalBin.Sound s.minRetainedHeightCached (putIndex crates s block true) := by
          refine ⟨indexed.bin.ready,fun h x low found => ?_⟩
          have old := indexed.bin.agrees h x low found
          rw [putIndex,if_pos rfl,Function.update_of_ne]
          · exact old
          · rintro rfl
            rw [show s.canonicalBin.answer block.height = none from unread] at found
            cases found
        exact .inr ⟨packs.absent,rfl,shiftCommit indexed (typedPutRows block true compressed headerBytes)
          (putRowsCanonical block compressed headerBytes s.db) sound (indexed.writable packs.writes)
          ((metadataPutRows ..).trans indexed.tipRow) (metadataPutRows ..)⟩

end Rejected

end Store
end DigBlockstore
