import DigBlockstore.ImportEffects

/-! Imports that return Ok and imports that are rejected: what lookups, the tip and the
block rows say afterwards. -/
namespace DigBlockstore
open ByteCodec Faulty ColumnStore PartialMap Trace
namespace Store
variable {crates : Crates} {s t u : Store}

/- The blocks an import has handed to `put_block` by the time it stops. -/
def Handed (crates : Crates) (input : Bytes) (s : Store) (blocks : List L2Block) : Prop :=
  ∃ manifest body read unread left u accepted, crates.deserializeManifest input = .ok (manifest,body) ∧
    heightsThrough manifest.startHeight manifest.endHeight = read ++ unread ∧
    Frames crates none body read s accepted left u ∧
    (blocks = accepted ∨ ∃ prev height rest block after, unread = height :: rest ∧ blocks = accepted ++ [block] ∧
      Framed crates u prev left height block after)

/- The whole stream read: a block for each height of the manifest. -/
def ReadsStream (crates : Crates) (input : Bytes) (s : Store) (manifest : SnapshotManifest) (blocks : List L2Block)
    (t : Store) : Prop :=
  ∃ body left, crates.deserializeManifest input = .ok (manifest,body) ∧
    Frames crates none body (heightsThrough manifest.startHeight manifest.endHeight) s blocks left t

theorem importSnapshotRuns {input : Bytes} {r : Exit SnapshotManifest} (h : Runs (importSnapshot crates input) s r t) :
    (∃ e, r = .error (.error e)) ∧ t = s ∨
    ∃ manifest body read unread blocks left u inner, crates.deserializeManifest input = .ok (manifest,body) ∧
      heightsThrough manifest.startHeight manifest.endHeight = read ++ unread ∧
      Frames crates none body read s blocks left u ∧ Stopped crates u left unread inner t ∧
      ((∃ e, inner = .error e ∧ r = .error e) ∨
        (∃ rest, inner = .ok rest) ∧ (r = .ok manifest ∨ ∃ e, r = .error (.error e))) := by
  rcases runsBind h with ⟨⟨manifest,body⟩,a,one,reading⟩ | ⟨e,rfl,one⟩
  · obtain ⟨decoded,rfl⟩ := runsOfExceptOk one
    have parsed : crates.deserializeManifest input = .ok (manifest,body) := by
      cases answer : crates.deserializeManifest input with
      | error why => rw [answer] at decoded; cases decoded
      | ok pair => rw [answer] at decoded; cases decoded; rfl
    rcases runsBind reading with ⟨bytes,b,two,checking⟩ | ⟨e,rfl,two⟩
    · obtain ⟨_,rfl⟩ := runsOfExceptOk two
      dsimp only at checking
      split at checking
      · obtain ⟨rfl,rfl⟩ := runsError.mp checking
        exact .inl ⟨⟨_,rfl⟩,rfl⟩
      · right
        rcases runsBind checking with ⟨⟨left',hashed⟩,c,three,summing⟩ | ⟨e,rfl,three⟩
        · obtain ⟨read,unread,blocks,left,u,split,frames,stopped⟩ := importFramesRuns three
          refine ⟨manifest,body,read,unread,blocks,left,u,.ok (left',hashed),parsed,split,frames,?_,.inr ⟨⟨_,rfl⟩,?_⟩⟩
          · have same : t = c := by
              rcases runsBind summing with ⟨⟨sum,_⟩,d,four,last⟩ | ⟨e,_,four⟩
              · obtain ⟨_,rfl⟩ := runsOfExceptOk four
                dsimp only at last
                split at last
                · exact (runsError.mp last).2
                · exact (runsPure.mp last).2
              · exact (runsOfExcept four).1
            rw [same]
            exact stopped
          · rcases runsBind summing with ⟨⟨sum,_⟩,d,four,last⟩ | ⟨e,rfl,four⟩
            · obtain ⟨_,rfl⟩ := runsOfExceptOk four
              dsimp only at last
              split at last
              · exact .inr ⟨_,(runsError.mp last).1⟩
              · exact .inl (runsPure.mp last).1
            · obtain ⟨why,rfl,_⟩ := runsOfExceptError four
              exact .inr ⟨why,rfl⟩
        · obtain ⟨read,unread,blocks,left,u,split,frames,stopped⟩ := importFramesRuns three
          exact ⟨manifest,body,read,unread,blocks,left,u,_,parsed,split,frames,stopped,.inl ⟨e,rfl,rfl⟩⟩
    · obtain ⟨why,rfl,rfl⟩ := runsOfExceptError two
      exact .inl ⟨⟨why,rfl⟩,rfl⟩
  · obtain ⟨why,rfl,rfl⟩ := runsOfExceptError one
    exact .inl ⟨⟨why,rfl⟩,rfl⟩

theorem importReads {input : Bytes} {manifest : SnapshotManifest}
    (h : Runs (importSnapshot crates input) s (.ok manifest) t) : ∃ blocks, ReadsStream crates input s manifest blocks t := by
  rcases importSnapshotRuns h with ⟨⟨e,bad⟩,_⟩ | ⟨manifest',body,read,unread,blocks,left,u,inner,parsed,split,frames,stopped,ended⟩
  · cases bad
  · rcases ended with ⟨e,_,bad⟩ | ⟨⟨rest,rfl⟩,same⟩
    · cases bad
    · rcases same with same | ⟨e,bad⟩
      · cases same
        cases stopped
        rw [List.append_nil] at split
        exact ⟨blocks,body,left,parsed,split ▸ frames⟩
      · cases bad

def Resolves (s : Store) (height : UInt64) (x : Bytes32) : Prop :=
  ∀ script, (getHashByHeight height ⟨s,script⟩).1 = .ok (some x)

/- The file is off, or the height is not the one whose slot ends past the last `usize`. -/
def Inside (s : Store) (height : UInt64) : Prop := s.canonicalBin.mapping = true → height ≠ lastSlot

theorem resolvesIff (crates : Crates) (indexed : Indexed s) {height : UInt64} {x : Bytes32} (inside : Inside s height) :
    Resolves s height x ↔ s.lookup height = some x := by
  have answers : ∀ script, (getHashByHeight height ⟨s,script⟩).1 = .ok (s.lookup height) := fun script => by
    obtain ⟨t,_,same⟩ := lookupAnswers crates indexed (fun mapped last => absurd last (inside mapped)) script
    rw [same]
  constructor
  · intro found
    have same := found []
    rw [answers] at same
    exact Except.ok.inj same
  · intro found script
    rw [answers,found]

section Rejected

theorem resolvesAfter {height : UInt64} {x : Bytes32} (crates : Crates) (indexed : Indexed s) (indexed' : Indexed t)
    (mapping : t.canonicalBin.mapping = s.canonicalBin.mapping) (inside : Inside s height) (found : Resolves s height x)
    (same : t.lookup height = s.lookup height) : Resolves t height x := by
  have inside' : Inside t height := by rwa [Inside,mapping]
  rw [resolvesIff crates indexed' inside',same]
  exact (resolvesIff crates indexed inside).mp found

theorem Frames.levels {input left : Bytes} {prev : Option Bytes32} {read unread : List UInt64} {lo hi : UInt64}
    {blocks : List L2Block} (frames : Frames crates prev input read s blocks left u)
    (split : heightsThrough lo hi = read ++ unread) : (blocks.map L2Block.height).Nodup := by
  rw [frames.heights]
  have whole := heightsThroughNodup lo hi
  rw [split] at whole
  exact (List.nodup_append.mp whole).1

theorem Frames.unseen {input left : Bytes} {prev : Option Bytes32} {read rest : List UInt64} {height lo hi : UInt64}
    {blocks : List L2Block} (frames : Frames crates prev input read s blocks left u)
    (split : heightsThrough lo hi = read ++ height :: rest) : ∀ block ∈ blocks, block.height ≠ height := by
  intro block mem same
  have whole := heightsThroughNodup lo hi
  rw [split] at whole
  refine (List.nodup_append.mp whole).2.2 height ?_ height (by simp) rfl
  rw [← frames.heights,← same]
  exact List.mem_map_of_mem mem

end Rejected

end Store

namespace Sample

def snapshotOf (calls : List Call) (lo hi : UInt64) : Bytes :=
  match (Store.exportSnapshot crates lo hi ⟨.after crates (fun _ _ => true) config calls,[]⟩).1 with
  | .ok (_,bytes) => bytes
  | .error _ => []

def spoiled (bytes : Bytes) : Bytes := bytes.dropLast ++ [bytes.getLastD 0 + 1]

def aloneStream : Bytes := snapshotOf [.putBlock (block 1 1 3) true] 1 1

def aloneManifest : SnapshotManifest := ⟨snapshotVersion,1,1,0,Bytes32.zero,Bytes32.zero⟩

def grown : Store := .after crates Store.tame config [.initGenesis (block 0 0 1),.extendChain (block 1 1 2)]

def withFork : Store := .after crates (fun _ _ => true) config [.putBlock (block 1 1 3) false]

def importedGrown : Store := (Store.importSnapshot crates aloneStream ⟨grown,[]⟩).2.state

def spoiledGrown : Store := (Store.importSnapshot crates (spoiled aloneStream) ⟨grown,[]⟩).2.state

def importedFork : Store := (Store.importSnapshot crates aloneStream ⟨withFork,[]⟩).2.state

end Sample

/- After a rejected import the tip stands, and a height resolves as it did unless one of the
blocks handed over was new to the store there. -/
theorem rejectedImport {crates : Crates} {s t : Store} {input : Bytes} {e : BlockStoreError} (reached : Reaches crates s)
    (h : Runs (Store.importSnapshot crates input) s (.error (.error e)) t) (still : t.canonicalBin.Ready) :
    t.tip = s.tip ∧ ∃ blocks, (blocks = [] ∨ Store.Handed crates input s blocks) ∧
      ∀ height x, s.CoherentAt height → s.Inside height → s.Resolves height x → t.Resolves height x ∨
        ∃ block ∈ blocks, block.height = height ∧ (s.db .blocks)[hashKey (block.hash crates)]? = none ∧
          t.Resolves height (block.hash crates) := by
  have indexed := reachesIndexed reached
  rcases Store.importSnapshotRuns h with ⟨_,rfl⟩ |
    ⟨manifest,body,read,unread,blocks,left,u,inner,parsed,split,frames,stopped,ended⟩
  · exact ⟨rfl,[],.inl rfl,fun height x _ _ found => .inl found⟩
  · have puts := frames.puts
    have indexed' := Store.putsIndexed puts indexed
    have frame := Store.putsFrame puts indexed
    have handed : Store.Handed crates input s blocks :=
      ⟨manifest,body,read,unread,left,u,blocks,parsed,split,frames,.inl rfl⟩
    have settledResolves {v : Store} {height : UInt64} {x y : Bytes32} (indexedV : v.Indexed)
        (mapping : v.canonicalBin.mapping = s.canonicalBin.mapping) (inside : s.Inside height)
        (found : s.Resolves height x) (settled : s.Settled v height y) :
        v.Resolves height x ∨ v.Resolves height y := by
      rcases settled.lookup indexedV with new | same
      · right
        rw [Store.resolvesIff crates indexedV (by rwa [Store.Inside,mapping])]
        exact new
      · exact .inl (Store.resolvesAfter crates indexed indexedV mapping inside found same)
    -- what the accepted blocks alone leave
    have accepted : ∀ height x, s.CoherentAt height → s.Inside height → s.Resolves height x → u.Resolves height x ∨
        ∃ block ∈ blocks, block.height = height ∧ (s.db .blocks)[hashKey (block.hash crates)]? = none ∧
          u.Resolves height (block.hash crates) := by
      intro height x here inside found
      rcases Store.putsLookup puts indexed here (frames.levels split) with ⟨_,same⟩ | ⟨block,mem,level,absent,settled⟩
      · exact .inl (Store.resolvesAfter crates indexed indexed' frame.2.2.2 inside found same)
      · exact (settledResolves indexed' frame.2.2.2 inside found settled).imp_right fun new => ⟨block,mem,level,absent,new⟩
    cases stopped with
    | done hashed => exact ⟨frame.1,blocks,.inr handed,accepted⟩
    | refused why => exact ⟨frame.1,blocks,.inr handed,accepted⟩
    | @failed height heights prev block after stop _ framed put =>
      have failing : stop = .error e := by
        rcases ended with ⟨_,one,two⟩ | ⟨⟨_,bad⟩,_⟩
        · cases one
          cases two
          rfl
        · cases bad
      subst failing
      have handed' : Store.Handed crates input s (blocks ++ [block]) :=
        ⟨manifest,body,read,_,left,u,blocks,parsed,split,frames,.inr ⟨prev,height,heights,block,after,rfl,rfl,framed⟩⟩
      rcases Store.putBlockFails indexed' put still with rfl | ⟨absent,mapping,shift⟩
      · exact ⟨frame.1,blocks,.inr handed,accepted⟩
      · refine ⟨shift.tip.trans frame.1,blocks ++ [block],.inr handed',fun k x here inside found => ?_⟩
        have mapping' := mapping.trans frame.2.2.2
        rcases Store.putsLookup puts indexed here (frames.levels split) with ⟨here',same⟩ | ⟨other,mem,level,absent',settled⟩
        · by_cases level : block.height = k
          · subst level
            have settled := shift.settle (by rw [Store.putIndex,if_pos rfl,Function.update_self]) here' indexed' frame.2.1 same
            refine (settledResolves shift.indexed mapping' inside found settled).imp_right fun new =>
              ⟨block,by simp,rfl,?_,new⟩
            cases row : (s.db .blocks)[hashKey (block.hash crates)]? with
            | none => rfl
            | some raw =>
              rw [(Store.putsRows puts).1 _ _ row] at absent
              cases absent
          · obtain ⟨_,same'⟩ := shift.sameAt indexed' here'
              (by rw [Store.putIndex,if_pos rfl,Function.update_of_ne (Ne.symm level)])
            exact .inl (Store.resolvesAfter crates indexed shift.indexed mapping' inside found (same'.trans same))
        · have apart : block.height ≠ k := by
            rw [framed.level,← level]
            exact (frames.unseen split other mem).symm
          have settled' := settled.shift shift (by rw [Store.putIndex,if_pos rfl,Function.update_of_ne apart.symm])
          exact (settledResolves shift.indexed mapping' inside found settled').imp_right fun new =>
            ⟨other,List.mem_append_left _ mem,level,absent',new⟩

theorem rejectedImportSample : Sample.spoiledGrown.tip = Sample.grown.tip ∧ ∃ blocks,
    (blocks = [] ∨ Store.Handed Sample.crates (Sample.spoiled Sample.aloneStream) Sample.grown blocks) ∧
      ∀ height x, Sample.grown.CoherentAt height → Sample.grown.Inside height → Sample.grown.Resolves height x →
        Sample.spoiledGrown.Resolves height x ∨ ∃ block ∈ blocks, block.height = height ∧
          (Sample.grown.db .blocks)[hashKey (block.hash Sample.crates)]? = none ∧
          Sample.spoiledGrown.Resolves height (block.hash Sample.crates) :=
  have reached : ReachesUnshadowed Sample.crates Sample.grown := Store.afterTame (by decide +kernel)
  @rejectedImport _ _ _ _ (.serialization "snapshot checksum mismatch") reached.reaches
    (Faulty.Runs.ofResult (by decide +kernel)) (by decide +kernel)

/- A stream with a spoiled checksum is rejected after its block has taken height 1. -/
theorem rejectedRewrites : Reaches Sample.crates Sample.grown ∧
    (Store.importSnapshot Sample.crates (Sample.spoiled Sample.aloneStream) ⟨Sample.grown,[]⟩).1 =
      .error (.error (.serialization "snapshot checksum mismatch")) ∧
    (Store.getHashByHeight 1 ⟨Sample.grown,[]⟩).1 = .ok (some (Sample.hash 2)) ∧
    (Store.getHashByHeight 1 ⟨Sample.spoiledGrown,[]⟩).1 = .ok (some (Sample.hash 3)) :=
  have reached : ReachesUnshadowed Sample.crates Sample.grown := Store.afterTame (by decide +kernel)
  ⟨reached.reaches,by decide +kernel,by decide +kernel,by decide +kernel⟩

namespace Store
variable {crates : Crates} {s t : Store} {manifest : SnapshotManifest} {blocks : List L2Block}

def Holds (crates : Crates) (s : Store) (block : L2Block) : Prop :=
  ∃ raw, (s.db .blocks)[hashKey (block.hash crates)]? = some raw ∧ Encodes crates block raw

/- Every block of the stream is stored and found at its height, and the tip is at the highest
canonical height, not below the last of the stream. -/
structure TakesEffect (crates : Crates) (manifest : SnapshotManifest) (blocks : List L2Block) (t : Store) : Prop where
  found : ∀ block ∈ blocks, Resolves t block.height (block.hash crates) ∧ Holds crates t block
  head : ∃ tip, t.tip = some tip ∧ (t.lookup tip.height).isSome ∧ (∀ h, (t.lookup h).isSome → h ≤ tip.height) ∧
    manifest.endHeight ≤ tip.height

/- A block new to the store, with no other hash left in a height cache that is off; or one
that is stored and found at its height already. -/
def Lands (crates : Crates) (s : Store) (block : L2Block) : Prop :=
  (s.db .blocks)[hashKey (block.hash crates)]? = none ∧ (s.canonicalHeightCacheCapacity ≠ 0 ∨
      ∀ x, s.canonicalHeightCache[block.height]? = some x → x = block.hash crates) ∨
    s.lookup block.height = some (block.hash crates) ∧ Holds crates s block

/- The destinations an import takes effect on: every block lands, and the tip is already at
the highest of the heights canonical before and those of the stream. -/
structure Receptive (crates : Crates) (manifest : SnapshotManifest) (blocks : List L2Block) (s : Store) : Prop where
  lands : ∀ block ∈ blocks, Lands crates s block
  head : ∃ tip, s.tip = some tip ∧ ((s.lookup tip.height).isSome ∨ ∃ block ∈ blocks, block.height = tip.height) ∧
    (∀ h, (s.lookup h).isSome → h ≤ tip.height) ∧ manifest.endHeight ≤ tip.height

section Effect
variable (puts : Puts crates blocks s t) (indexed : Indexed s) (coherent : Coherent s)
  (levels : (blocks.map L2Block.height).Nodup) (hashes : (blocks.map (L2Block.hash crates)).Nodup)
  (low : ∀ block ∈ blocks, s.minRetainedHeightCached ≤ block.height) {block : L2Block} (mem : block ∈ blocks)
include puts indexed coherent levels hashes low mem

theorem landsIff : t.lookup block.height = some (block.hash crates) ∧ Holds crates t block ↔ Lands crates s block := by
  obtain ⟨before,after,rfl⟩ := List.append_of_mem mem
  have fresh : block.hash crates ∉ before.map (L2Block.hash crates) := by
    rw [List.map_append,List.map_cons] at hashes
    exact fun inside => (List.nodup_append.mp hashes).2.2 _ inside _ (by simp) rfl
  cases row : (s.db .blocks)[hashKey (block.hash crates)]? with
  | none =>
    have holds : Holds crates t block := by
      obtain ⟨u,v,added,ahead,put,behind⟩ := putsSplit puts
      obtain ⟨raw,here,encodes⟩ := (putRowsAfter put).here
      exact ⟨raw,(putsRows behind).1 _ _ here,encodes (by rw [(putsRows ahead).2 _ fresh,row])⟩
    constructor
    · rintro ⟨found,_⟩
      refine .inl ⟨row,or_iff_not_imp_left.mpr fun on x cached => ?_⟩
      have off : s.canonicalHeightCacheCapacity = 0 := not_not.mp on
      have kept : t.canonicalHeightCache[block.height]? = some x := by rw [putsCacheOff puts off,cached]
      have above : ¬block.height < t.minRetainedHeightCached := by
        rw [(putsFrame puts indexed).2.1]
        exact UInt64.not_lt.mpr (low block mem)
      rw [Store.lookup,if_neg above,kept] at found
      exact Option.some.inj found
    · rintro (⟨_,clear⟩ | ⟨_,raw,there,_⟩)
      · exact ⟨putsLand puts indexed levels fresh row (low block mem) clear,holds⟩
      · rw [row] at there
        cases there
  | some raw =>
    have kept := (putsRows puts).1 _ _ row
    have same := (putsElsewhere puts indexed (coherent.at block.height) fun other inside level => by
      obtain rfl := List.inj_on_of_nodup_map levels inside mem level
      rw [row]
      rfl).2
    have holds : Holds crates t block ↔ Holds crates s block := by
      unfold Holds
      rw [kept,row]
    rw [same,holds]
    constructor
    · exact .inr
    · rintro (⟨absent,_⟩ | both)
      · rw [row] at absent
        cases absent
      · exact both

end Effect

theorem takesEffectIff (puts : Puts crates blocks s t) (indexed : Indexed s) (coherent : Coherent s)
    (levels : (blocks.map L2Block.height).Nodup) (hashes : (blocks.map (L2Block.hash crates)).Nodup)
    (low : ∀ block ∈ blocks, s.minRetainedHeightCached ≤ block.height)
    (high : ∀ block ∈ blocks, block.height ≤ manifest.endHeight) (inside : ∀ block ∈ blocks, Inside s block.height) :
    TakesEffect crates manifest blocks t ↔ Receptive crates manifest blocks s := by
  have indexed' := putsIndexed puts indexed
  obtain ⟨tip,_,_,mapping⟩ := putsFrame puts indexed
  have found : ∀ block ∈ blocks, Resolves t block.height (block.hash crates) ∧ Holds crates t block ↔ Lands crates s block :=
    fun block mem => by
      rw [resolvesIff crates indexed' (by rw [Inside,mapping]; exact inside block mem)]
      exact landsIff puts indexed coherent levels hashes low mem
  have heights (lands : ∀ block ∈ blocks, Lands crates s block) (h : UInt64) :
      (t.lookup h).isSome ↔ (s.lookup h).isSome ∨ ∃ block ∈ blocks, block.height = h := by
    by_cases put : ∃ block ∈ blocks, block.height = h
    · refine iff_of_true ?_ (.inr put)
      obtain ⟨block,mem,rfl⟩ := put
      rw [((landsIff puts indexed coherent levels hashes low mem).mpr (lands block mem)).1]
      rfl
    · rw [(putsElsewhere puts indexed (coherent.at h) fun block mem level => absurd ⟨block,mem,level⟩ put).2]
      exact ⟨.inl,fun either => either.resolve_right put⟩
  constructor
  · rintro ⟨all,head,here,top,highest,ends⟩
    have lands : ∀ block ∈ blocks, Lands crates s block := fun block mem => (found block mem).mp (all block mem)
    exact ⟨lands,head,tip ▸ here,(heights lands _).mp top,fun h some' => highest h ((heights lands h).mpr (.inl some')),ends⟩
  · rintro ⟨lands,head,here,top,highest,ends⟩
    refine ⟨fun block mem => (found block mem).mpr (lands block mem),head,tip.trans here,(heights lands _).mpr top,
      fun h some' => ?_,ends⟩
    rcases (heights lands h).mp some' with older | ⟨block,mem,rfl⟩
    · exact highest h older
    · exact UInt64.le_trans (high block mem) ends

section Reading

theorem readExactAppend (failure : String) (front rest : Bytes) :
    readExact failure front.length (front ++ rest) = .ok (front,rest) := by
  unfold readExact
  rw [if_pos (by simp),List.take_left,List.drop_left]

theorem readsFrame (failure : String) {value : Bytes} (short : value.length < 2 ^ 32) (rest : Bytes) :
    readExact failure 4 (frame value ++ rest) = .ok (leBytes 4 value.length,value ++ rest) ∧
      readExact failure (leNat (leBytes 4 value.length)) (value ++ rest) = .ok (value,rest) := by
  have width := leBytesLength 4 value.length
  have counted : leNat (leBytes 4 value.length) = value.length := by
    rw [leNatLeBytes]
    omega
  constructor
  · have read := readExactAppend failure (leBytes 4 value.length) (value ++ rest)
    rw [width] at read
    rw [frame,Nat.mod_eq_of_lt short,List.append_assoc]
    exact read
  · rw [counted]
    exact readExactAppend ..

/- A stream of one frame hands over the block the frame decodes to. -/
theorem ReadsStream.alone {crates : Crates} {s t : Store} {input value tail : Bytes} {manifest : SnapshotManifest} {block : L2Block}
    {blocks : List L2Block} {height : UInt64} (laid : crates.deserializeManifest input = .ok (manifest,frame value ++ tail))
    (one : heightsThrough manifest.startHeight manifest.endHeight = [height]) (short : value.length < 2 ^ 32)
    (decodes : s.deserializeBlock crates value = .ok block) (reads : ReadsStream crates input s manifest blocks t) :
    blocks = [block] := by
  obtain ⟨body,left,parsed,frames⟩ := reads
  obtain ⟨_,rfl⟩ := Prod.mk.inj (Except.ok.inj (parsed.symm.trans laid))
  obtain ⟨fronted,counted⟩ := readsFrame "snapshot read: " short tail
  rw [one] at frames
  cases frames with
  | cons framed _ later =>
    cases later
    obtain ⟨lenBytes,rest,compressed,first,second,decoded⟩ := framed.read
    obtain ⟨rfl,rfl⟩ := Prod.mk.inj (Except.ok.inj (first.symm.trans fronted))
    obtain ⟨rfl,_⟩ := Prod.mk.inj (Except.ok.inj (second.symm.trans counted))
    rw [Except.ok.inj (decoded.symm.trans decodes)]

end Reading

end Store

/- An import that returns Ok takes effect exactly on the destinations that are receptive. -/
theorem importTakesEffect {crates : Crates} {s t : Store} {input : Bytes} {manifest : SnapshotManifest}
    (reached : Reaches crates s) (h : Runs (Store.importSnapshot crates input) s (.ok manifest) t)
    (retained : s.minRetainedHeightCached ≤ manifest.startHeight) :
    ∃ blocks, Store.ReadsStream crates input s manifest blocks t ∧
      blocks.map L2Block.height = heightsThrough manifest.startHeight manifest.endHeight ∧
      (s.Coherent → (∀ block ∈ blocks, s.Inside block.height) → (blocks.map (L2Block.hash crates)).Nodup →
        (Store.TakesEffect crates manifest blocks t ↔ Store.Receptive crates manifest blocks s)) := by
  obtain ⟨blocks,body,left,parsed,frames⟩ := Store.importReads h
  have range : ∀ block ∈ blocks, manifest.startHeight ≤ block.height ∧ block.height ≤ manifest.endHeight :=
    fun block mem => memHeightsThrough.mp (frames.heights ▸ List.mem_map_of_mem mem)
  refine ⟨blocks,⟨body,left,parsed,frames⟩,frames.heights,fun coherent inside hashes => ?_⟩
  refine Store.takesEffectIff frames.puts (reachesIndexed reached) coherent ?_ hashes
    (fun block mem => UInt64.le_trans retained (range block mem).1) (fun block mem => (range block mem).2) inside
  rw [frames.heights]
  exact heightsThroughNodup _ _

namespace Sample

theorem aloneLaid : crates.deserializeManifest aloneStream = .ok (aloneManifest,Store.frame (encodeBlock (block 1 1 3)) ++
    aloneStream.drop (16 + (Store.frame (encodeBlock (block 1 1 3))).length)) := by decide +kernel

theorem aloneDecodes : grown.deserializeBlock crates (encodeBlock (block 1 1 3)) = .ok (block 1 1 3) := by decide +kernel

theorem grownTop {h : UInt64} (found : (canonicalAt grown.db h).isSome) : h ≤ 1 :=
  of_decide_eq_true (@Store.canonicalHeights grown.db (fun h => decide (h ≤ 1)) (by decide +kernel) h found)

theorem grownReceptive (coherent : grown.Coherent) (indexed : grown.Indexed) :
    Store.Receptive crates aloneManifest [block 1 1 3] grown where
  lands other mem := by
    obtain rfl := List.mem_singleton.mp mem
    exact .inl ⟨by decide +kernel,.inl (by decide +kernel)⟩
  head := by
    refine ⟨⟨hash 2,1⟩,by decide +kernel,.inl (by decide +kernel),fun h found => ?_,by decide⟩
    rw [Store.lookupAt indexed (coherent.at h),Store.canonicalAnswer] at found
    split at found
    · cases found
    · exact grownTop found

end Sample

theorem importTakesEffectSample :
    Store.ReadsStream Sample.crates Sample.aloneStream Sample.grown Sample.aloneManifest [Sample.block 1 1 3] Sample.importedGrown ∧
      Store.TakesEffect Sample.crates Sample.aloneManifest [Sample.block 1 1 3] Sample.importedGrown := by
  have reached : ReachesUnshadowed Sample.crates Sample.grown := Store.afterTame (by decide +kernel)
  have coherent := (reachesCoherent reached).2
  obtain ⟨blocks,reads,_,effect⟩ := @importTakesEffect Sample.crates Sample.grown Sample.importedGrown Sample.aloneStream
    Sample.aloneManifest reached.reaches (Faulty.Runs.ofResult (by decide +kernel)) (by decide +kernel)
  obtain rfl := reads.alone Sample.aloneLaid (show heightsThrough 1 1 = [1] by decide) (by decide +kernel) Sample.aloneDecodes
  refine ⟨reads,(effect coherent (fun other mem _ => ?_) (List.nodup_singleton _)).mpr
    (Sample.grownReceptive coherent (reachesIndexed reached.reaches))⟩
  rw [List.mem_singleton.mp mem]
  decide

/- A block of the stream already stored as a fork is not made canonical, and the tip stays
where it was. -/
theorem importSkipsFork : Reaches Sample.crates Sample.withFork ∧
    (Store.importSnapshot Sample.crates Sample.aloneStream ⟨Sample.withFork,[]⟩).1 = .ok Sample.aloneManifest ∧
    (Store.getHashByHeight 1 ⟨Sample.importedFork,[]⟩).1 =
      .ok none ∧
    Sample.importedFork.tip = none :=
  ⟨Store.afterReaches (by decide +kernel),by decide +kernel,by decide +kernel,by decide +kernel⟩

end DigBlockstore
