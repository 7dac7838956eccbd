import DigBlockstore.HeightBounds
import DigBlockstore.Imports
import DigBlockstore.LinkedRuns
import DigBlockstore.Streams

/-! What a successful export writes: the manifest, a frame for each height from the body
rows, and the hash of all of it. The counts in the manifest come from the bounds, the frames
from the loop over them. -/
namespace DigBlockstore
open ByteCodec Faulty ColumnStore Greatest
namespace Store
variable {crates : Crates} {s t u : Store}

/- A hash a lookup of the height may answer. -/
def Offers (s : Store) (h : UInt64) (x : Bytes32) : Prop :=
  s.minRetainedHeightCached ≤ h ∧ (s.canonicalHeightCache[h]? = some x ∨ s.stored h = some x)

theorem Offers.canonical {h : UInt64} {x : Bytes32} (indexed : s.Indexed) (coherent : s.Coherent) (offers : s.Offers h x) :
    canonicalAt s.db h = some x := by
  obtain ⟨above,cached | row⟩ := offers
  · exact coherent h x above cached
  · rwa [indexed.stored above] at row

theorem Touched.offers (touched : Touched crates s u) {h : UInt64} {x : Bytes32} (offers : u.Offers h x) : s.Offers h x := by
  obtain ⟨above,cached | row⟩ := offers
  · rw [touched.floor] at above
    exact ⟨above,(touched.heights h x cached).imp_right And.right⟩
  · rw [touched.floor] at above
    rw [touched.stored] at row
    exact ⟨above,.inr row⟩

theorem lookupOffers {h : UInt64} {x : Bytes32} (run : Runs (getHashByHeight h) s (.ok (some x)) t) :
    Touched crates s t ∧ s.Offers h x := by
  obtain ⟨touched,same⟩ := @getHashByHeightRuns crates _ _ _ _ run
  refine ⟨touched,?_⟩
  have looked := same _ rfl
  rw [lookup] at looked
  split at looked
  · cases looked
  · rename_i above
    exact ⟨UInt64.not_lt.mp above,(Option.or_eq_some_iff.mp looked.symm).imp_right And.right⟩

/- The value stored under a hash. -/
def BodyRow (s : Store) (x : Bytes32) (value : Bytes) : Prop := (s.db .blocks)[hashKey x]? = some value

section Walk
variable {h last : UInt64} {x : Bytes32}

/- A lookup that finds a hash finds it in the height cache, or puts it there. -/
theorem lookupCaches (run : Runs (getHashByHeight h) u (.ok (some x)) t) :
    u.canonicalHeightCache[h]? = some x ∧ t = u ∨
      u.canonicalHeightCache[h]? = none ∧ u.stored h = some x ∧ t = u.insertCanonicalHeightCache h x := by
  unfold getHashByHeight at run
  rw [runsGetBind] at run
  split at run
  · cases (runsPure.mp run).1
  · split at run
    · rename_i cached
      cases (runsPure.mp run).1
      exact .inl ⟨cached,(runsPure.mp run).2⟩
    · rename_i missing
      obtain ⟨slot,v,read,later⟩ := runsBindOk run
      obtain ⟨answered,rfl⟩ := runsLift read
      have tier : v.canonicalBin.answer h = slot := by rw [CanonicalBin.answer,← answered]
      split at later
      · rw [runsModifyBind] at later
        cases (runsPure.mp later).1
        exact .inr ⟨missing,by rw [stored,tier]; rfl,(runsPure.mp later).2⟩
      · have fall : v.stored h = canonicalAt v.db h := by rw [stored,tier]; rfl
        split at later
        · cases (runsPure.mp later).1
        · rename_i bytes present
          split at later
          · cases (runsError.mp later).1
          · rename_i decoded
            rw [runsModifyBind] at later
            cases (runsPure.mp later).1
            exact .inr ⟨missing,by rw [fall,canonicalAt,present,Option.bind_some,decoded],(runsPure.mp later).2⟩

/- The cache holds as many heights above the given one as it may hold at all. -/
def Crowded (s : Store) (last : UInt64) : Prop := s.canonicalHeightCacheCapacity ≤ (above s.cachedHeights last).card

/- The cache loses the entry of the last height on the walk up to it: some height on the way is not
cached, and its insert leaves only heights above. -/
def Loses (s : Store) (start last : UInt64) : Prop :=
  s.canonicalHeightCacheCapacity ≠ 0 ∧ s.Crowded last ∧ ∃ h, start ≤ h ∧ h < last ∧ s.canonicalHeightCache[h]? = none

/- An insert below a height drops its entry exactly when it is crowded out, and leaves the crowd as it was. -/
theorem insertBelow (on : s.canonicalHeightCacheCapacity ≠ 0) (below : h < last) :
    ((s.insertCanonicalHeightCache h x).Crowded last ↔ s.Crowded last) ∧
    (s.Crowded last → (s.insertCanonicalHeightCache h x).canonicalHeightCache[last]? = none) ∧
    (¬s.Crowded last → (s.insertCanonicalHeightCache h x).canonicalHeightCache[last]? = s.canonicalHeightCache[last]?) := by
  have same : above (insert h s.cachedHeights) last = above s.cachedHeights last := aboveInsertBelow below
  have capacity : (s.insertCanonicalHeightCache h x).canonicalHeightCacheCapacity = s.canonicalHeightCacheCapacity := by
    rw [insertHeightRest]
  refine ⟨?_,fun crowded => ?_,fun roomy => ?_⟩
  · rw [Crowded,capacity,insertHeightsOn on,crowdedGreatest,same]
    exact Iff.rfl
  · rw [insertHeightAt on,if_neg fun mem => ?_]
    have few := (memGreatest.mp mem).2
    rw [same] at few
    exact absurd crowded (Nat.not_le_of_lt few)
  · have few : (above (insert h s.cachedHeights) last).card < s.canonicalHeightCacheCapacity := by
      rw [same]
      exact Nat.lt_of_not_le roomy
    rw [insertHeightAt on]
    by_cases held : last ∈ s.cachedHeights
    · rw [if_pos (memGreatest.mpr ⟨Finset.mem_insert_of_mem held,few⟩),if_neg below.ne']
    · have missing : s.canonicalHeightCache[last]? = none :=
        Std.ExtTreeMap.getElem?_eq_none fun mem => held (memHeightsIn.mpr mem)
      rw [missing]
      split
      · rw [if_neg below.ne']
      · rfl

/- The height cache after the lookups of some heights below the last one. -/
structure Passed (crates : Crates) (s : Store) (last : UInt64) (past : List UInt64) (u : Store) : Prop where
  touched : Touched crates s u
  capacity : u.canonicalHeightCacheCapacity = s.canonicalHeightCacheCapacity
  crowded : u.Crowded last ↔ s.Crowded last
  kept : s.canonicalHeightCacheCapacity = 0 ∨ ¬s.Crowded last → u.canonicalHeightCache[last]? = s.canonicalHeightCache[last]?
  lost : s.canonicalHeightCacheCapacity ≠ 0 → s.Crowded last →
    u.canonicalHeightCache = s.canonicalHeightCache ∧ (∀ h ∈ past, s.canonicalHeightCache[h]? ≠ none) ∨
      u.canonicalHeightCache[last]? = none ∧ ∃ h ∈ past, s.canonicalHeightCache[h]? = none

theorem Passed.start (crates : Crates) (s : Store) (last : UInt64) : Passed crates s last [] s :=
  ⟨.refl s,rfl,Iff.rfl,fun _ => rfl,fun _ _ => .inl ⟨rfl,by simp⟩⟩

theorem Passed.step {past : List UInt64} (walked : Passed crates s last past u) (below : h < last)
    (run : Runs (getHashByHeight h) u (.ok (some x)) t) : Passed crates s last (past ++ [h]) t := by
  have touched : Touched crates s t := walked.touched.trans (getHashByHeightTouched run)
  rcases lookupCaches run with ⟨cached,rfl⟩ | ⟨missing,_,rfl⟩
  · refine ⟨touched,walked.capacity,walked.crowded,walked.kept,fun on crowded => ?_⟩
    rcases walked.lost on crowded with ⟨same,all⟩ | ⟨gone,k,mem,none'⟩
    · refine .inl ⟨same,fun k mem => ?_⟩
      rcases List.mem_append.mp mem with older | own
      · exact all k older
      · rw [List.mem_singleton.mp own,← same,cached]
        simp
    · exact .inr ⟨gone,k,List.mem_append_left _ mem,none'⟩
  · by_cases on : u.canonicalHeightCacheCapacity = 0
    · have idle : u.insertCanonicalHeightCache h x = u := by rw [insertCanonicalHeightCache,if_pos on]
      have off := walked.capacity.symm.trans on
      rw [idle]
      exact ⟨walked.touched,walked.capacity,walked.crowded,walked.kept,fun bad => absurd off bad⟩
    · obtain ⟨crowd,drops,stays⟩ := @insertBelow u h last x on below
      refine ⟨touched,?_,crowd.trans walked.crowded,fun roomy => ?_,fun _ crowded => .inr ⟨drops (walked.crowded.mpr crowded),?_⟩⟩
      · rw [insertHeightRest]
        exact walked.capacity
      · have roomy' := roomy.resolve_left fun off => on (walked.capacity.trans off)
        exact (stays fun bad => roomy' (walked.crowded.mp bad)).trans (walked.kept roomy)
      · rcases walked.lost (fun off => on (walked.capacity.trans off)) crowded with ⟨same,_⟩ | ⟨_,k,mem,none'⟩
        · exact ⟨h,by simp,by rwa [same] at missing⟩
        · exact ⟨k,List.mem_append_left _ mem,none'⟩

/- What the lookup of the last height answers after the walk: the row where the entry was dropped. -/
theorem Passed.answer {start : UInt64} {past : List UInt64} (walked : Passed crates s last past u)
    (heights : ∀ h, h ∈ past ↔ start ≤ h ∧ h < last) {v : Store} (run : Runs (getHashByHeight last) u (.ok (some x)) v) :
    (s.Loses start last → s.stored last = some x) ∧
      (¬s.Loses start last → ∀ y, s.canonicalHeightCache[last]? = some y → x = y) := by
  have looked := lookupCaches run
  have stored := walked.touched.stored last
  constructor
  · rintro ⟨on,crowded,k,low,high,missing⟩
    have gone : u.canonicalHeightCache[last]? = none := by
      rcases walked.lost on crowded with ⟨_,all⟩ | ⟨gone,_⟩
      · exact absurd missing (all k ((heights k).mpr ⟨low,high⟩))
      · exact gone
    rcases looked with ⟨cached,_⟩ | ⟨_,row,_⟩
    · rw [gone] at cached
      cases cached
    · rwa [stored] at row
  · intro spared y cached
    have same : u.canonicalHeightCache[last]? = s.canonicalHeightCache[last]? := by
      by_cases roomy : s.canonicalHeightCacheCapacity = 0 ∨ ¬s.Crowded last
      · exact walked.kept roomy
      · rw [not_or,not_not] at roomy
        rcases walked.lost roomy.1 roomy.2 with ⟨same,_⟩ | ⟨_,k,mem,missing⟩
        · rw [same]
        · obtain ⟨low,high⟩ := (heights k).mp mem
          exact absurd ⟨roomy.1,roomy.2,k,low,high,missing⟩ spared
    rcases looked with ⟨own,_⟩ | ⟨missing,_⟩
    · rw [same,cached] at own
      exact (Option.some.inj own).symm
    · rw [same,cached] at missing
      cases missing

end Walk

section Frames

theorem exportFrameOk {h : UInt64} {bytes : Bytes} (touched : Touched crates s u) (run : Runs (exportFrame h) u (.ok bytes) t) :
    ∃ x value, Runs (getHashByHeight h) u (.ok (some x)) t ∧ bytes = frame value ∧ s.Offers h x ∧ s.BodyRow x value := by
  obtain ⟨found,v,looking,later⟩ := runsBindOk run
  cases found with
  | none => cases (runsError.mp later).1
  | some x =>
    obtain ⟨more,offers⟩ := @lookupOffers crates _ _ _ _ looking
    dsimp only at later
    rw [runsGetBind] at later
    split at later
    · cases (runsError.mp later).1
    · rename_i value row
      obtain ⟨_,w,one,later⟩ := runsBindOk later
      obtain ⟨_,w',two,last⟩ := runsBindOk later
      obtain rfl := runsStepOk one
      obtain rfl := runsStepOk two
      obtain ⟨same,rfl⟩ := runsPure.mp last
      refine ⟨x,value,looking,Except.ok.inj same,touched.offers offers,?_⟩
      rwa [(touched.trans more).db] at row

/- The frames up to the last height are the body rows of the hashes found, in order; the last hash is
found where the walk below it has left off. -/
theorem exportWalk {heights past : List UInt64} {last : UInt64} {frames : List Bytes} (walked : Passed crates s last past u)
    (below : ∀ h ∈ heights, h < last) (run : Runs (Op.collect exportFrame (heights ++ [last])) u (.ok frames) t) :
    ∃ hashes values, frames = values.map frame ∧ List.Forall₂ s.Offers (heights ++ [last]) hashes ∧
      List.Forall₂ s.BodyRow hashes values ∧ ∃ x v w, hashes.getLast? = some x ∧ Passed crates s last (past ++ heights) v ∧
        Runs (getHashByHeight last) v (.ok (some x)) w := by
  induction heights generalizing u t frames past with
  | nil =>
    obtain ⟨bytes,v,first,later⟩ := runsBindOk run
    obtain ⟨more,w,none',end'⟩ := runsBindOk later
    cases (runsPure.mp none').1
    cases (runsPure.mp end').1
    obtain ⟨x,value,looking,rfl,offers,row⟩ := exportFrameOk walked.touched first
    refine ⟨[x],[value],rfl,.cons offers .nil,.cons row .nil,x,u,v,rfl,?_,looking⟩
    rwa [List.append_nil]
  | cons h rest ih =>
    obtain ⟨bytes,v,first,later⟩ := runsBindOk run
    obtain ⟨more,w,middle,end'⟩ := runsBindOk later
    cases (runsPure.mp end').1
    obtain ⟨x,value,looking,rfl,offers,row⟩ := exportFrameOk walked.touched first
    obtain ⟨hashes,values,rfl,found,rows,y,v',w',last',walked',ended⟩ :=
      ih (walked.step (below h (by simp)) looking) (fun k mem => below k (List.mem_cons_of_mem _ mem)) middle
    rw [List.append_assoc,List.singleton_append] at walked'
    refine ⟨x :: hashes,value :: values,rfl,.cons offers found,.cons row rows,y,v',w',?_,walked',ended⟩
    rw [List.getLast?_cons,last',Option.getD_some]

/- The header a read of the hash answers. -/
def headerSeen (crates : Crates) (s : Store) (x : Bytes32) : Option L2BlockHeader :=
  (s.headerCache.peek x).or (s.headerAt crates x)

theorem getHeaderSeen {x : Bytes32} {header : L2BlockHeader} (run : Runs (getHeader crates x) s (.ok (some header)) t) :
    s.headerSeen crates x = some header ∧ t.canonicalHeightCacheCapacity = s.canonicalHeightCacheCapacity ∧
      t.canonicalHeightCache = s.canonicalHeightCache := by
  unfold getHeader at run
  rw [runsGetBind,runsModifyBind] at run
  split at run
  · rename_i cached
    obtain ⟨same,rfl⟩ := runsPure.mp run
    cases same
    have peeked : s.headerCache.peek x = some header := cached
    exact ⟨by rw [headerSeen,peeked,Option.some_or],rfl,rfl⟩
  · rename_i missed
    have peeked : s.headerCache.peek x = none := missed
    split at run
    · cases (runsPure.mp run).1
    · rename_i raw row
      obtain ⟨found,u,decoding,later⟩ := runsBindOk run
      obtain ⟨decoded,rfl⟩ := runsOfExceptOk decoding
      rw [runsModifyBind,runsModifyBind] at later
      obtain ⟨same,rfl⟩ := runsPure.mp later
      cases same
      refine ⟨?_,rfl,rfl⟩
      rw [headerSeen,peeked,Option.none_or,headerAt,row,Option.bind_some,decoded]
      rfl

/- The header at the end height is that of the hash a lookup answers; finding it cached moves no height,
and finding it stored means that nothing else is cached. -/
theorem headingOk {h : UInt64} {header : L2BlockHeader} (run : Runs (getHeaderByHeight crates h) s (.ok (some header)) t) :
    ∃ y, s.lookup h = some y ∧ s.headerSeen crates y = some header ∧
      (s.canonicalHeightCache[h]? = some y ∧ t.canonicalHeightCacheCapacity = s.canonicalHeightCacheCapacity ∧
          t.canonicalHeightCache = s.canonicalHeightCache ∨
        s.canonicalHeightCache[h]? = none ∧ s.stored h = some y) := by
  obtain ⟨found,u,looking,later⟩ := runsBindOk run
  cases found with
  | none => cases (runsPure.mp later).1
  | some y =>
    obtain ⟨_,same⟩ := @getHashByHeightRuns crates _ _ _ _ looking
    obtain ⟨seen,capacity,cache⟩ := getHeaderSeen later
    refine ⟨y,(same _ rfl).symm,?_⟩
    rcases lookupCaches looking with ⟨cached,rfl⟩ | ⟨missing,row,rfl⟩
    · exact ⟨seen,.inl ⟨cached,capacity,cache⟩⟩
    · refine ⟨?_,.inr ⟨missing,row⟩⟩
      rw [insertHeightRest] at seen
      exact seen

end Frames

section Layout

theorem mapErrorOk {ε ε' α : Type} {f : ε → ε'} {x : Except ε α} {a : α} (h : x.mapError f = .ok a) : x = .ok a := by
  cases x with
  | error e => cases h
  | ok b => exact congrArg _ (Except.ok.inj h)

/- The counts the export writes, from the bounds alone. -/
def manifestOf (start endHeight : UInt64) (root checksum : Bytes32) : SnapshotManifest :=
  ⟨snapshotVersion,start,endHeight,UInt64.ofNat (endHeight.toNat - start.toNat + 1),root,checksum⟩

/- What an export is made of: the hashes found and their body rows, the manifest and the frames. The root is
that of the hash found first at the end height, which the cache may have lost when its frame is written. -/
structure Exported (crates : Crates) (s : Store) (start endHeight : UInt64) (manifest : SnapshotManifest) (bytes : Bytes)
    (hashes : List Bytes32) (values : List Bytes) : Prop where
  found : List.Forall₂ s.Offers (heightsThrough start endHeight) hashes
  rows : List.Forall₂ s.BodyRow hashes values
  root : ∃ y header, s.lookup endHeight = some y ∧ s.headerSeen crates y = some header ∧
    manifest = manifestOf start endHeight header.stateRoot manifest.checksum ∧
    ∀ x, hashes.getLast? = some x → (s.Loses start endHeight → s.stored endHeight = some x) ∧
      (¬s.Loses start endHeight → x = y)
  laid : ∃ head, crates.serializeManifest {manifest with checksum := Bytes32.zero} = .ok head ∧
    bytes = head ++ (values.map frame).flatten ++ manifest.checksum.bytes ∧
    manifest.checksum = crates.sha256 (head ++ (values.map frame).flatten)
  counts : ¬(endHeight.toNat - start.toNat + 1 = 2 ^ 64 ∧ crates.overflowChecks = true)

theorem spanSplit {start endHeight : UInt64} (ordered : start ≤ endHeight) :
    heightsThrough start endHeight = heightsBefore start endHeight ++ [endHeight] := by
  have low := UInt64.le_iff_toNat_le.mp ordered
  have count : endHeight.toNat + 1 - start.toNat = (endHeight.toNat - start.toNat) + 1 := by omega
  rw [heightsThrough,count,List.range_succ,List.map_append,List.map_singleton,Nat.add_sub_cancel' low,UInt64.ofNat_toNat]
  rfl

/- What the loop finds and writes, and at its end what the last lookup has to do with the first. -/
theorem exportLoop {start endHeight : UInt64} {y : Bytes32} {frames : List Bytes} (touched : Touched crates s u)
    (heading : s.canonicalHeightCache[endHeight]? = some y ∧ u.canonicalHeightCacheCapacity = s.canonicalHeightCacheCapacity ∧
        u.canonicalHeightCache = s.canonicalHeightCache ∨
      s.canonicalHeightCache[endHeight]? = none ∧ s.stored endHeight = some y)
    (run : Runs (Op.collect exportFrame (heightsThrough start endHeight)) u (.ok frames) t) :
    ∃ hashes values, frames = values.map frame ∧ List.Forall₂ s.Offers (heightsThrough start endHeight) hashes ∧
      List.Forall₂ s.BodyRow hashes values ∧ ∀ x, hashes.getLast? = some x →
        (s.Loses start endHeight → s.stored endHeight = some x) ∧ (¬s.Loses start endHeight → x = y) := by
  by_cases ordered : start ≤ endHeight
  · rw [spanSplit ordered] at run ⊢
    obtain ⟨hashes,values,rfl,found,rows,x,v,w,last,walked,looking⟩ := exportWalk (Passed.start crates u endHeight)
      (fun h mem => (memHeightsBefore.mp mem).2) run
    refine ⟨hashes,values,rfl,found.imp fun h x offers => touched.offers offers,?_,fun z last' => ?_⟩
    · refine rows.imp fun x value row => ?_
      rwa [BodyRow,touched.db] at row
    · cases last.symm.trans last'
      obtain ⟨dropped,kept⟩ := walked.answer (fun h => by rw [List.nil_append]; exact memHeightsBefore) looking
      rw [touched.stored] at dropped
      rcases heading with ⟨cached,capacity,same⟩ | ⟨missing,row⟩
      · have drops : u.Loses start endHeight ↔ s.Loses start endHeight := by
          rw [Loses,Loses,Crowded,Crowded,cachedHeights,cachedHeights,same,capacity]
        exact ⟨fun own => dropped (drops.mpr own),fun spared => kept (fun own => spared (drops.mp own)) y (by rw [same,cached])⟩
      · have offers : s.Offers endHeight x :=
          touched.offers (walked.touched.offers (@lookupOffers crates _ _ _ _ looking).2)
        have here : s.stored endHeight = some x := offers.2.resolve_left (by rw [missing]; simp)
        exact ⟨fun _ => here,fun _ => Option.some.inj (here.symm.trans row)⟩
  · rw [inverted (UInt64.not_le.mp ordered)] at run ⊢
    cases (runsPure.mp run).1
    exact ⟨[],[],rfl,.nil,.nil,fun x last => by cases last⟩

theorem exportOk {start endHeight : UInt64} {manifest : SnapshotManifest} {bytes : Bytes}
    (run : Runs (exportSnapshot crates start endHeight) s (.ok (manifest,bytes)) t) :
    ∃ hashes values, Exported crates s start endHeight manifest bytes hashes values := by
  unfold exportSnapshot at run
  dsimp only at run
  split at run
  · cases (runsPanic.mp run).1
  · rename_i counts
    obtain ⟨found,u,heading,later⟩ := runsBindOk run
    cases found with
    | none => cases (runsError.mp later).1
    | some header =>
      obtain ⟨y,looked,seen,first⟩ := headingOk heading
      obtain ⟨head,v,serial,writing⟩ := runsBindOk later
      obtain ⟨encoded,same⟩ := runsOfExceptOk serial
      subst same
      obtain ⟨_,w,one,looping⟩ := runsBindOk writing
      have same := runsStepOk one
      subst same
      obtain ⟨frames,z,body,sealing⟩ := runsBindOk looping
      obtain ⟨_,z',_,last⟩ := runsBindOk sealing
      cases (runsPure.mp last).1
      obtain ⟨hashes,values,rfl,found,rows,ended⟩ := exportLoop (getHeaderByHeightTouched heading) first body
      exact ⟨hashes,values,found,rows,⟨y,header,looked,seen,rfl,ended⟩,⟨head,mapErrorOk encoded,rfl,rfl⟩,counts⟩

/- What an export is for, over the hashes it found and the body rows it wrote: the stored value of each
height of the range in a frame of its true length, as many as the manifest counts and the bounds span, the
last one that of a block whose state root the manifest carries, sealed by the hash of all of it. -/
structure WellFramed (crates : Crates) (s : Store) (start endHeight : UInt64) (manifest : SnapshotManifest) (bytes : Bytes)
    (hashes : List Bytes32) (values : List Bytes) : Prop where
  found : List.Forall₂ s.Offers (heightsThrough start endHeight) hashes
  rows : List.Forall₂ s.BodyRow hashes values
  laid : ∃ head, crates.serializeManifest {manifest with checksum := Bytes32.zero} = .ok head ∧
    bytes = head ++ (values.map frame).flatten ++ (crates.sha256 (head ++ (values.map frame).flatten)).bytes
  lengths : ∀ value ∈ values, leNat ((frame value).take 4) = value.length ∧ (frame value).drop 4 = value
  counted : values.length = manifest.blockCount.toNat
  spanned : (values.length : Int) = endHeight.toNat - start.toNat + 1
  ended : ∃ x, hashes.getLast? = some x ∧ (s.headerSeen crates x).map (·.stateRoot) = some manifest.stateRoot

/- Where the cache loses the hash of the end height during the walk, the stored one has the same root. -/
def KeepsRoot (crates : Crates) (s : Store) (start endHeight : UInt64) : Prop :=
  s.Loses start endHeight → ∀ y x, s.lookup endHeight = some y → s.stored endHeight = some x →
    (s.headerSeen crates x).map (·.stateRoot) = (s.headerSeen crates y).map (·.stateRoot)

theorem frameLength (value : Bytes) :
    (leNat ((frame value).take 4) = value.length ∧ (frame value).drop 4 = value) ↔ value.length < 2 ^ 32 := by
  have width := leBytesLength 4 (value.length % 2 ^ 32)
  have front : (frame value).take 4 = leBytes 4 (value.length % 2 ^ 32) := by
    rw [frame,List.take_append_of_le_length (by omega),List.take_of_length_le (by omega)]
  have back : (frame value).drop 4 = value := by
    rw [frame,List.drop_append_of_le_length (by omega),List.drop_of_length_le (by omega),List.nil_append]
  rw [front,back,leNatLeBytes,show (256 : Nat) ^ 4 = 2 ^ 32 from rfl]
  constructor
  · rintro ⟨same,_⟩
    omega
  · intro short
    exact ⟨by omega,rfl⟩

theorem spanLength {start endHeight : UInt64} (ordered : start ≤ endHeight) :
    (heightsThrough start endHeight).length = endHeight.toNat - start.toNat + 1 := by
  have low := UInt64.le_iff_toNat_le.mp ordered
  rw [heightsThrough,List.length_map,List.length_range]
  omega

theorem lastPair {α β : Type} {R : α → β → Prop} {as : List α} {bs : List β} (pairs : List.Forall₂ R as bs) {a : α}
    (last : as.getLast? = some a) : ∃ b, bs.getLast? = some b := by
  cases bs with
  | nil =>
    cases pairs
    cases last
  | cons b rest => exact ⟨_,List.getLast?_cons⟩

theorem framedIff {start endHeight : UInt64} {manifest : SnapshotManifest} {bytes : Bytes} {hashes : List Bytes32}
    {values : List Bytes} (exported : Exported crates s start endHeight manifest bytes hashes values) :
    WellFramed crates s start endHeight manifest bytes hashes values ↔
      start ≤ endHeight ∧ endHeight.toNat - start.toNat + 1 < 2 ^ 64 ∧ (∀ value ∈ values, value.length < 2 ^ 32) ∧
        s.KeepsRoot crates start endHeight := by
  obtain ⟨y,header,looked,seen,made,ended⟩ := exported.root
  have count : manifest.blockCount = UInt64.ofNat (endHeight.toNat - start.toNat + 1) := by rw [made]; rfl
  have root : (s.headerSeen crates y).map (·.stateRoot) = some manifest.stateRoot := by rw [seen,made]; rfl
  have paired := exported.found.length_eq.trans exported.rows.length_eq
  have bound := endHeight.toNat_lt
  constructor
  · intro framed
    obtain ⟨x,last,same⟩ := framed.ended
    have ordered : start ≤ endHeight := by
      by_contra above
      have none' := framed.found.length_eq
      rw [inverted (UInt64.not_le.mp above)] at none'
      rw [List.eq_nil_of_length_eq_zero none'.symm] at last
      cases last
    rw [spanLength ordered] at paired
    have counted := framed.counted
    rw [count,UInt64.toNat_ofNat',← paired] at counted
    refine ⟨ordered,?_,fun value mem => (frameLength value).mp (framed.lengths value mem),fun drops y' x' first row => ?_⟩
    · by_contra large
      omega
    · cases looked.symm.trans first
      cases ((ended x last).1 drops).symm.trans row
      exact same.trans root.symm
  · rintro ⟨ordered,small,short,carries⟩
    obtain ⟨head,serial,laid,sealed⟩ := exported.laid
    have low := UInt64.le_iff_toNat_le.mp ordered
    have tail : (heightsThrough start endHeight).getLast? = some endHeight := by
      rw [spanSplit ordered,List.getLast?_append,List.getLast?_singleton,Option.some_or]
    obtain ⟨x,last⟩ := lastPair exported.found tail
    rw [spanLength ordered] at paired
    refine ⟨exported.found,exported.rows,⟨head,serial,by rw [← sealed,laid]⟩,
      fun value mem => (frameLength value).mpr (short value mem),?_,?_,x,last,?_⟩
    · rw [count,UInt64.toNat_ofNat',← paired,Nat.mod_eq_of_lt small]
    · omega
    · by_cases drops : s.Loses start endHeight
      · exact (carries drops y x looked ((ended x last).1 drops)).trans root
      · rw [(ended x last).2 drops]
        exact root

end Layout

end Store

/- A successful export writes the body rows of its range, and is framed as it should be exactly when
the range is not inverted, its count fits, each value's length fits its length field, and the height cache
does not lose a hash with another root at the end height. -/
theorem exportFramed {crates : Crates} {s t : Store} {start endHeight : UInt64} {manifest : SnapshotManifest} {bytes : Bytes}
    (run : Runs (Store.exportSnapshot crates start endHeight) s (.ok (manifest,bytes)) t) :
    ∃ hashes values, List.Forall₂ s.Offers (heightsThrough start endHeight) hashes ∧ List.Forall₂ s.BodyRow hashes values ∧
      (Store.WellFramed crates s start endHeight manifest bytes hashes values ↔
        start ≤ endHeight ∧ endHeight.toNat - start.toNat + 1 < 2 ^ 64 ∧ (∀ value ∈ values, value.length < 2 ^ 32) ∧
          s.KeepsRoot crates start endHeight) := by
  obtain ⟨hashes,values,exported⟩ := Store.exportOk run
  exact ⟨hashes,values,exported.found,exported.rows,Store.framedIff exported⟩

theorem exportFramedSample : ∃ manifest bytes hashes values,
    (Store.exportSnapshot Sample.crates 0 2 ⟨Sample.threeBlocks,[]⟩).1 = .ok (manifest,bytes) ∧
    Store.WellFramed Sample.crates Sample.threeBlocks 0 2 manifest bytes hashes values := by
  have ran : (Store.exportSnapshot Sample.crates 0 2 ⟨Sample.threeBlocks,[]⟩).1.toOption.isSome := by decide +kernel
  have short : (Sample.threeBlocks.db .blocks).toList.all (fun row => row.2.length < 2 ^ 32) = true := by decide +kernel
  have room : Sample.threeBlocks.canonicalHeightCache.size < Sample.threeBlocks.canonicalHeightCacheCapacity := by
    decide +kernel
  obtain ⟨⟨manifest,bytes⟩,out⟩ := okOfIsSome ran
  obtain ⟨hashes,values,found,rows,framed⟩ := exportFramed (Runs.ofResult out)
  refine ⟨manifest,bytes,hashes,values,out,framed.mpr ⟨by decide,by decide,fun value mem => ?_,?_⟩⟩
  · obtain ⟨i,inside,same⟩ := List.mem_iff_getElem.mp mem
    have row := (List.forall₂_iff_get.mp rows).2 i (by rw [rows.length_eq]; exact inside) inside
    rw [List.get_eq_getElem,List.get_eq_getElem,same] at row
    have cell := List.all_eq_true.mp short _ (Std.ExtTreeMap.mem_toList_iff_getElem?_eq_some.mpr row)
    simpa using cell
  · rintro ⟨_,crowded,_⟩
    have more := crowded.trans (Finset.card_filter_le ..)
    rw [Store.cachedHeights,Store.cardHeightsIn] at more
    exact absurd room (Nat.not_lt_of_le more)

/- An inverted range exports a manifest that counts one block, and no frame. -/
theorem exportInverted : Reaches Sample.crates Sample.threeBlocks ∧ ∃ manifest bytes,
    (Store.exportSnapshot Sample.crates 2 1 ⟨Sample.threeBlocks,[]⟩).1 = .ok (manifest,bytes) ∧
    ∀ hashes values, ¬Store.WellFramed Sample.crates Sample.threeBlocks 2 1 manifest bytes hashes values := by
  have run : ReachesUnshadowed Sample.crates Sample.threeBlocks := Store.afterTame (by decide +kernel)
  have count : (Store.exportSnapshot Sample.crates 2 1 ⟨Sample.threeBlocks,[]⟩).1.toOption.map (fun pair => pair.1.blockCount) =
      some 1 := by decide +kernel
  cases out : (Store.exportSnapshot Sample.crates 2 1 ⟨Sample.threeBlocks,[]⟩).1 with
  | error e =>
    rw [out] at count
    cases count
  | ok pair =>
    rw [out] at count
    change some pair.1.blockCount = some 1 at count
    refine ⟨run.reaches,pair.1,pair.2,rfl,fun hashes values framed => ?_⟩
    have counted := framed.counted
    rw [← framed.rows.length_eq,← framed.found.length_eq,Option.some.inj count] at counted
    cases counted

end DigBlockstore
