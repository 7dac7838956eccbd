import DigBlockstore.Imports
import DigBlockstore.Exports

/-! What an accepted import has checked of its stream: the manifest against the frames that
follow it, and every byte before the checksum. -/
namespace DigBlockstore
open ByteCodec Faulty
namespace Store
variable {crates : Crates} {s t : Store} {input : Bytes} {manifest : SnapshotManifest}

section Frames

/- The payloads of the next frames, each behind its `u32` length, and what is left. -/
def splitFrames : Nat → Bytes → Option (List Bytes × Bytes)
  | 0,input => some ([],input)
  | n + 1,input => do
      let (lenBytes,body) ← (readExact "" 4 input).toOption
      let (payload,left) ← (readExact "" (leNat lenBytes) body).toOption
      let (payloads,last) ← splitFrames n left
      some (payload :: payloads,last)

/- The bytes an import hashes: the manifest re-encoded, and every length and payload. -/
def covered (crates : Crates) (input : Bytes) : Option Bytes := do
  let (manifest,body) ← (crates.deserializeManifest input).toOption
  let head ← (crates.serializeManifest manifest).toOption
  let (payloads,_) ← splitFrames (heightsThrough manifest.startHeight manifest.endHeight).length body
  some (head ++ (payloads.map frame).flatten)

theorem readExactOk {failure : String} {n : Nat} {input front left : Bytes} :
    readExact failure n input = .ok (front,left) ↔ input = front ++ left ∧ front.length = n := by
  unfold readExact
  constructor
  · intro read
    split at read
    · rename_i long
      cases read
      exact ⟨(List.take_append_drop n input).symm,by rw [List.length_take]; omega⟩
    · cases read
  · rintro ⟨rfl,rfl⟩
    rw [if_pos (by simp),List.take_left,List.drop_left]

theorem toOptionSome {ε α : Type} {x : Except ε α} {a : α} : x.toOption = some a ↔ x = .ok a := by
  cases x <;> simp [Except.toOption]

theorem frameRead {lenBytes payload : Bytes} (four : lenBytes.length = 4) (whole : payload.length = leNat lenBytes) :
    lenBytes ++ payload = frame payload := by
  have small := leNatLt lenBytes
  rw [four,show (256 : Nat) ^ 4 = 2 ^ 32 from rfl] at small
  have same := leBytesLeNat lenBytes
  rw [four,← whole] at same
  rw [frame,Nat.mod_eq_of_lt (by omega),same]

theorem splitFramesLaid {n : Nat} {input left : Bytes} {payloads : List Bytes} (split : splitFrames n input = some (payloads,left)) :
    input = (payloads.map frame).flatten ++ left ∧ payloads.length = n := by
  induction n generalizing input payloads with
  | zero =>
    cases split
    exact ⟨rfl,rfl⟩
  | succ n ih =>
    simp only [splitFrames,bind,Option.bind_eq_some_iff] at split
    obtain ⟨⟨lenBytes,body⟩,one,⟨payload,next⟩,two,⟨rest,last⟩,later,done⟩ := split
    cases done
    obtain ⟨rfl,four⟩ := readExactOk.mp (toOptionSome.mp one)
    obtain ⟨rfl,whole⟩ := readExactOk.mp (toOptionSome.mp two)
    obtain ⟨rfl,count⟩ := ih later
    refine ⟨?_,by rw [List.length_cons,count]⟩
    rw [List.map_cons,List.flatten_cons,← frameRead four whole]
    simp

theorem importFramesRead {prev : Option Bytes32} {input hashed left hashed' : Bytes} {heights : List UInt64}
    (h : Runs (importFrames crates prev input hashed heights) s (.ok (left,hashed')) t) :
    ∃ payloads, splitFrames heights.length input = some (payloads,left) ∧ hashed' = hashed ++ (payloads.map frame).flatten := by
  induction heights generalizing prev input hashed s with
  | nil =>
    obtain ⟨same,_⟩ := runsPure.mp h
    cases same
    exact ⟨[],rfl,by simp⟩
  | cons height rest ih =>
    obtain ⟨⟨lenBytes,body⟩,a,one,reading⟩ := runsBindOk h
    obtain ⟨lengthRead,rfl⟩ := runsOfExceptOk one
    obtain ⟨⟨payload,next⟩,b,two,unpacking⟩ := runsBindOk reading
    obtain ⟨bodyRead,rfl⟩ := runsOfExceptOk two
    rw [runsGetBind] at unpacking
    obtain ⟨block,c,three,checking⟩ := runsBindOk unpacking
    obtain ⟨_,rfl⟩ := runsOfExceptOk three
    have lengthSplit := readExactOk.mp lengthRead
    have bodySplit := readExactOk.mp bodyRead
    split at checking
    · cases (runsError.mp checking).1
    · split at checking
      · cases (runsError.mp checking).1
      · obtain ⟨added,d,_,more⟩ := runsBindOk checking
        obtain ⟨payloads,split,hashes⟩ := ih more
        refine ⟨payload :: payloads,?_,?_⟩
        · simp only [List.length_cons,splitFrames,readExactOk.mpr lengthSplit,readExactOk.mpr bodySplit,Except.toOption,split,
            bind,Option.bind_some]
        · rw [hashes,List.map_cons,List.flatten_cons,← frameRead lengthSplit.2 bodySplit.2]
          simp

end Frames

/- What an import that returns Ok has read: a supported manifest, the frames of its range, and the
checksum of the bytes hashed on the way. -/
structure Consumes (crates : Crates) (input : Bytes) (s : Store) (manifest : SnapshotManifest) (t : Store)
    (hashed rest : Bytes) : Prop where
  version : manifest.version = snapshotVersion
  parsed : ∃ head body, crates.deserializeManifest input = .ok (manifest,body) ∧ crates.serializeManifest manifest = .ok head ∧
    Runs (importFrames crates none body head (heightsThrough manifest.startHeight manifest.endHeight)) s
      (.ok ((crates.sha256 hashed).bytes ++ rest,hashed)) t

theorem importOk (h : Runs (importSnapshot crates input) s (.ok manifest) t) :
    ∃ hashed rest, Consumes crates input s manifest t hashed rest := by
  obtain ⟨⟨read,body⟩,a,one,reading⟩ := runsBindOk h
  obtain ⟨decoded,rfl⟩ := runsOfExceptOk one
  have parsed : crates.deserializeManifest input = .ok (read,body) := by
    cases answer : crates.deserializeManifest input with
    | error why => rw [answer] at decoded; cases decoded
    | ok pair => rw [answer] at decoded; cases decoded; rfl
  obtain ⟨head,b,two,checking⟩ := runsBindOk reading
  obtain ⟨encoded,rfl⟩ := runsOfExceptOk two
  have serial : crates.serializeManifest read = .ok head := by
    cases answer : crates.serializeManifest read with
    | error why => rw [answer] at encoded; cases encoded
    | ok bytes => rw [answer] at encoded; cases encoded; rfl
  dsimp only at checking
  split at checking
  · cases (runsError.mp checking).1
  · rename_i known
    obtain ⟨⟨left,hashed⟩,c,three,summing⟩ := runsBindOk checking
    obtain ⟨⟨sum,rest⟩,d,four,last⟩ := runsBindOk summing
    obtain ⟨sumRead,rfl⟩ := runsOfExceptOk four
    obtain ⟨laid,_⟩ := readExactOk.mp sumRead
    dsimp only at laid last
    split at last
    · cases (runsError.mp last).1
    · rename_i agrees
      obtain ⟨same,rfl⟩ := runsPure.mp last
      cases same
      rw [laid,not_not.mp agrees] at three
      exact ⟨hashed,rest,not_not.mp known,head,body,parsed,serial,three⟩

section Manifest
variable {prev : Option Bytes32} {left : Bytes} {heights : List UInt64} {blocks : List L2Block}

theorem Frames.linked (frames : Frames crates prev input heights s blocks left t) :
    blocks.IsChain (fun parent child => child.header.parentHash = parent.hash crates) ∧
      ∀ first ∈ blocks.head?, ∀ hash ∈ prev, first.header.parentHash = hash := by
  induction frames with
  | nil => exact ⟨.nil,fun first bad => by cases bad⟩
  | @cons prev input left last height heights block blocks added s u t framed _ _ ih =>
    refine ⟨List.isChain_cons.mpr ⟨fun next mem => ih.2 next mem _ rfl,ih.1⟩,fun first mem hash known => ?_⟩
    cases mem
    exact framed.linked hash known

/- A manifest that fits the blocks read: its version, its count, its range, their links, its root. -/
structure Matched (crates : Crates) (manifest : SnapshotManifest) (blocks : List L2Block) : Prop where
  version : manifest.version = snapshotVersion
  spanned : (manifest.blockCount.toNat : Int) = manifest.endHeight.toNat - manifest.startHeight.toNat + 1
  counted : manifest.blockCount.toNat = blocks.length
  levels : blocks.map L2Block.height = heightsThrough manifest.startHeight manifest.endHeight
  linked : blocks.IsChain fun parent child => child.header.parentHash = parent.hash crates
  rooted : ∃ last, blocks.getLast? = some last ∧ manifest.stateRoot = last.header.stateRoot

/- What the manifest has to get right by itself: a range the right way round, the length of that
range, and the root of the block in the last frame. -/
structure Declares (manifest : SnapshotManifest) (blocks : List L2Block) : Prop where
  ordered : manifest.startHeight ≤ manifest.endHeight
  counted : manifest.blockCount.toNat = manifest.endHeight.toNat - manifest.startHeight.toNat + 1
  rooted : ∃ last, blocks.getLast? = some last ∧ manifest.stateRoot = last.header.stateRoot

theorem matchedIff (version : manifest.version = snapshotVersion)
    (frames : Frames crates none input (heightsThrough manifest.startHeight manifest.endHeight) s blocks left t) :
    Matched crates manifest blocks ↔ Declares manifest blocks := by
  have lengths : blocks.length = (heightsThrough manifest.startHeight manifest.endHeight).length := by
    rw [← frames.heights,List.length_map]
  constructor
  · intro matched
    have ordered : manifest.startHeight ≤ manifest.endHeight := by
      by_contra above
      rw [inverted (UInt64.not_le.mp above)] at lengths
      obtain ⟨_,last,_⟩ := matched.rooted
      rw [List.eq_nil_of_length_eq_zero lengths] at last
      cases last
    have low := UInt64.le_iff_toNat_le.mp ordered
    have spanned := matched.spanned
    exact ⟨ordered,by omega,matched.rooted⟩
  · intro declares
    have low := UInt64.le_iff_toNat_le.mp declares.ordered
    have counted := declares.counted
    rw [spanLength declares.ordered] at lengths
    exact ⟨version,by omega,by omega,frames.heights,frames.linked.1,declares.rooted⟩

end Manifest

section Tampered

/- What a decoded manifest is re-encoded to are the bytes it was read from. -/
def CanonicalManifest (crates : Crates) : Prop := ∀ input manifest body, crates.deserializeManifest input = .ok (manifest,body) →
  ∃ head, crates.serializeManifest manifest = .ok head ∧ input = head ++ body

/- Some destination imports the stream. -/
def Accepts (crates : Crates) (input : Bytes) : Prop :=
  ∃ s manifest t, Runs (importSnapshot crates input) s (.ok manifest) t

def checksumAfter (input hashed : Bytes) : Bytes := (input.drop hashed.length).take 32

theorem Consumes.covers {hashed rest : Bytes} (canonical : CanonicalManifest crates)
    (consumes : Consumes crates input s manifest t hashed rest) :
    covered crates input = some hashed ∧ input = hashed ++ (crates.sha256 hashed).bytes ++ rest := by
  obtain ⟨head,body,parsed,serial,frames⟩ := consumes.parsed
  obtain ⟨payloads,split,same⟩ := importFramesRead frames
  obtain ⟨laid,_⟩ := splitFramesLaid split
  obtain ⟨front,serial',whole⟩ := canonical input manifest body parsed
  rw [serial] at serial'
  cases serial'
  constructor
  · simp only [covered,parsed,serial,split,Except.toOption,bind,Option.bind_some,same]
  · rw [whole,laid,same]
    simp

theorem checksumCovered {hashed rest : Bytes} :
    checksumAfter (hashed ++ (crates.sha256 hashed).bytes ++ rest) hashed = (crates.sha256 hashed).bytes := by
  rw [checksumAfter,List.append_assoc,List.drop_left,List.take_left' (crates.sha256 hashed).length]

theorem Accepts.checksum {hashed : Bytes} (canonical : CanonicalManifest crates) (accepts : Accepts crates input)
    (reads : covered crates input = some hashed) :
    checksumAfter input hashed = (crates.sha256 hashed).bytes ∧ input.take hashed.length = hashed := by
  obtain ⟨s,manifest,t,run⟩ := accepts
  obtain ⟨hashed',rest,consumes⟩ := importOk run
  obtain ⟨reads',laid⟩ := consumes.covers canonical
  rw [reads] at reads'
  cases reads'
  rw [laid]
  exact ⟨checksumCovered,by rw [List.append_assoc,List.take_left]⟩

theorem Accepts.covers (canonical : CanonicalManifest crates) (accepts : Accepts crates input) :
    ∃ hashed, covered crates input = some hashed := by
  obtain ⟨s,manifest,t,run⟩ := accepts
  obtain ⟨hashed,rest,consumes⟩ := importOk run
  exact ⟨hashed,(consumes.covers canonical).1⟩

section Free
variable {feasible : Set Bytes} (canonical : CanonicalManifest crates) (free : Set.InjOn crates.sha256 feasible)
  {input' hashed hashed' : Bytes} (accepts : Accepts crates input) (reads : covered crates input = some hashed)
  (inside : hashed ∈ feasible)
include canonical free accepts reads inside

theorem sameChecksum (accepts' : Accepts crates input') (reads' : covered crates input' = some hashed')
    (inside' : hashed' ∈ feasible) (same : checksumAfter input hashed = checksumAfter input' hashed') : hashed = hashed' := by
  rw [(accepts.checksum canonical reads).1,(accepts'.checksum canonical reads').1] at same
  exact free inside inside' (Bytes32.ext same)

theorem tamperedRejected {other : Bytes} (changed : other ≠ hashed) (length : other.length = hashed.length)
    (inside' : other ∈ feasible)
    (consumed : ∀ again, covered crates (other ++ input.drop hashed.length) = some again → again.length = hashed.length) :
    ¬Accepts crates (other ++ input.drop hashed.length) := by
  intro accepts'
  obtain ⟨again,reads'⟩ := accepts'.covers canonical
  have front := (accepts'.checksum canonical reads').2
  rw [consumed again reads',← length,List.take_left] at front
  subst front
  refine changed (sameChecksum canonical free accepts reads inside accepts' reads' inside' ?_).symm
  rw [checksumAfter,checksumAfter,List.drop_left]

end Free

end Tampered

end Store

namespace Sample

section Wire

theorem wordAppend (width n : Nat) (rest tail : Bytes) : word width n rest ++ tail = word width n (rest ++ tail) :=
  List.append_assoc ..

theorem unwordLt {width : Nat} {y : Bytes} (long : width ≤ y.length) : (unword width y).1 < 256 ^ width := by
  have bound := leNatLt (y.take width).reverse
  rwa [List.length_reverse,List.length_take,Nat.min_eq_left long] at bound

theorem wordUnword {width : Nat} {y : Bytes} (long : width ≤ y.length) :
    word width (unword width y).1 (unword width y).2 = y := by
  have same := beBytesBeNat (y.take width)
  rw [List.length_take,Nat.min_eq_left long] at same
  rw [unword,word,same,List.take_append_drop]

theorem wideField {y : Bytes} (long : 8 ≤ y.length) :
    word 8 (UInt64.ofNat (unword 8 y).1).toNat (unword 8 y).2 = y := by
  rw [UInt64.toNat_ofNat_of_lt' (unwordLt long),wordUnword long]

theorem narrowField {y : Bytes} (long : 4 ≤ y.length) :
    word 4 (UInt32.ofNat (unword 4 y).1).toNat (unword 4 y).2 = y := by
  rw [UInt32.toNat_ofNat_of_lt' (unwordLt long),wordUnword long]

theorem hashField {y : Bytes} (long : 32 ≤ y.length) : (unhash y).1.bytes ++ (unhash y).2 = y := by
  have width : (y.take 32).length = 32 := by rw [List.length_take]; omega
  rw [unhash,Bytes32.ofBytes?,dif_pos width]
  exact List.take_append_drop 32 y

def encodeManifest (manifest : SnapshotManifest) : Bytes :=
  word 4 manifest.version.toNat (word 8 manifest.startHeight.toNat (word 8 manifest.endHeight.toNat
    (word 8 manifest.blockCount.toNat (manifest.stateRoot.bytes ++ manifest.checksum.bytes))))

def decodeManifest (bytes : Bytes) : Except String (SnapshotManifest × Bytes) :=
  if bytes.length < 92 then .error "unexpected end of file"
  else
    let version := unword 4 bytes
    let startHeight := unword 8 version.2
    let endHeight := unword 8 startHeight.2
    let blockCount := unword 8 endHeight.2
    let stateRoot := unhash blockCount.2
    let checksum := unhash stateRoot.2
    .ok (⟨.ofNat version.1,.ofNat startHeight.1,.ofNat endHeight.1,.ofNat blockCount.1,stateRoot.1,checksum.1⟩,checksum.2)

theorem decodeManifestOk {bytes body : Bytes} {manifest : SnapshotManifest}
    (decoded : decodeManifest bytes = .ok (manifest,body)) : bytes = encodeManifest manifest ++ body := by
  unfold decodeManifest at decoded
  split at decoded
  · cases decoded
  · rename_i long
    cases decoded
    have version := narrowField (y := bytes) (by omega)
    have startHeight := wideField (y := (unword 4 bytes).2) (by simp only [unword,List.length_drop]; omega)
    have endHeight := wideField (y := (unword 8 (unword 4 bytes).2).2) (by simp only [unword,List.length_drop]; omega)
    have blockCount := wideField (y := (unword 8 (unword 8 (unword 4 bytes).2).2).2)
      (by simp only [unword,List.length_drop]; omega)
    have stateRoot := hashField (y := (unword 8 (unword 8 (unword 8 (unword 4 bytes).2).2).2).2)
      (by simp only [unword,List.length_drop]; omega)
    have checksum := hashField (y := (unhash (unword 8 (unword 8 (unword 8 (unword 4 bytes).2).2).2).2).2)
      (by simp only [unhash,unword,List.length_drop]; omega)
    simp only [encodeManifest,wordAppend,List.append_assoc,checksum,stateRoot,blockCount,endHeight,startHeight,version]

def wired : Crates := {crates with
  serializeManifest := fun manifest => .ok (encodeManifest manifest)
  deserializeManifest := decodeManifest}

theorem wiredCanonical : Store.CanonicalManifest wired :=
  fun _ manifest _ decoded => ⟨encodeManifest manifest,rfl,decodeManifestOk decoded⟩

end Wire

def laid (manifest : SnapshotManifest) (payloads : List Bytes) : Bytes :=
  encodeManifest manifest ++ (payloads.map Store.frame).flatten

def sealedStream (manifest : SnapshotManifest) (payloads : List Bytes) : Bytes :=
  laid manifest payloads ++ (wired.sha256 (laid manifest payloads)).bytes

def miscounted : SnapshotManifest := ⟨snapshotVersion,1,1,5,hash 3,Bytes32.zero⟩

def counted : SnapshotManifest := {miscounted with blockCount := 1}

def oneFrame : List Bytes := [encodeBlock (block 1 1 3)]

def bare : Store := .after wired Store.tame config []

def recounted : Bytes :=
  laid miscounted oneFrame ++ (sealedStream counted oneFrame).drop (laid counted oneFrame).length

def importedCounted : Store := (Store.importSnapshot wired (sealedStream counted oneFrame) ⟨bare,[]⟩).2.state

theorem countedLaid : wired.deserializeManifest (sealedStream counted oneFrame) =
    .ok (counted,Store.frame (encodeBlock (block 1 1 3)) ++ (wired.sha256 (laid counted oneFrame)).bytes) := by decide +kernel

theorem countedDecodes : bare.deserializeBlock wired (encodeBlock (block 1 1 3)) = .ok (block 1 1 3) := by decide +kernel

end Sample

/- An accepted stream has a manifest that fits its frames exactly when the manifest declares its
own range, length and root rightly. -/
theorem manifestMatches {crates : Crates} {input : Bytes} {s t : Store} {manifest : SnapshotManifest}
    (run : Runs (Store.importSnapshot crates input) s (.ok manifest) t) :
    ∃ blocks, Store.ReadsStream crates input s manifest blocks t ∧
      (Store.Matched crates manifest blocks ↔ Store.Declares manifest blocks) := by
  obtain ⟨blocks,body,left,parsed,frames⟩ := Store.importReads run
  obtain ⟨_,_,consumes⟩ := Store.importOk run
  exact ⟨blocks,⟨body,left,parsed,frames⟩,Store.matchedIff consumes.version frames⟩

theorem manifestMatchesSample :
    Store.ReadsStream Sample.wired (Sample.sealedStream Sample.counted Sample.oneFrame) Sample.bare Sample.counted
      [Sample.block 1 1 3] Sample.importedCounted ∧
    Store.Matched Sample.wired Sample.counted [Sample.block 1 1 3] := by
  have ran : Runs (Store.importSnapshot Sample.wired (Sample.sealedStream Sample.counted Sample.oneFrame)) Sample.bare
      (.ok Sample.counted) Sample.importedCounted := Runs.ofResult (by decide +kernel)
  obtain ⟨blocks,reads,exactly⟩ := manifestMatches ran
  obtain rfl := reads.alone Sample.countedLaid (show heightsThrough 1 1 = [1] by decide) (by decide +kernel) Sample.countedDecodes
  exact ⟨reads,exactly.mpr ⟨by decide,by decide,_,rfl,rfl⟩⟩

/- A manifest of one block that counts five is accepted. -/
theorem importMiscounted : Reaches Sample.wired Sample.bare ∧
    (Store.importSnapshot Sample.wired (Sample.sealedStream Sample.miscounted Sample.oneFrame) ⟨Sample.bare,[]⟩).1 =
      .ok Sample.miscounted ∧ ∀ blocks, ¬Store.Matched Sample.wired Sample.miscounted blocks := by
  refine ⟨Store.afterReaches (by decide +kernel),by decide +kernel,fun blocks matched => ?_⟩
  exact absurd matched.spanned (by decide)

/- Under a hash free of collisions on what is hashed: an accepted stream is what was hashed, its
hash, and what the import left unread; one checksum follows one text only; and an accepted stream
with other bytes before its checksum, as many as before, is rejected. -/
theorem tamperEvident {crates : Crates} {feasible : Set Bytes} (canonical : Store.CanonicalManifest crates)
    (free : Set.InjOn crates.sha256 feasible) :
    (∀ input s manifest t, Runs (Store.importSnapshot crates input) s (.ok manifest) t →
      ∃ hashed rest, Store.Consumes crates input s manifest t hashed rest ∧ Store.covered crates input = some hashed ∧
        input = hashed ++ (crates.sha256 hashed).bytes ++ rest) ∧
    (∀ input input' hashed hashed', Store.Accepts crates input → Store.Accepts crates input' →
      Store.covered crates input = some hashed → Store.covered crates input' = some hashed' →
      hashed ∈ feasible → hashed' ∈ feasible →
      Store.checksumAfter input hashed = Store.checksumAfter input' hashed' → hashed = hashed') ∧
    ∀ input hashed other, Store.Accepts crates input → Store.covered crates input = some hashed →
      other ≠ hashed → other.length = hashed.length → hashed ∈ feasible → other ∈ feasible →
      (∀ again, Store.covered crates (other ++ input.drop hashed.length) = some again → again.length = hashed.length) →
      ¬Store.Accepts crates (other ++ input.drop hashed.length) := by
  refine ⟨fun input s manifest t run => ?_,fun input input' hashed hashed' accepts accepts' reads reads' inside inside' same => ?_,
    fun input hashed other accepts reads changed length inside inside' consumed => ?_⟩
  · obtain ⟨hashed,rest,consumes⟩ := Store.importOk run
    exact ⟨hashed,rest,consumes,consumes.covers canonical⟩
  · exact Store.sameChecksum canonical free accepts reads inside accepts' reads' inside' same
  · exact Store.tamperedRejected canonical free accepts reads inside changed length inside' consumed

theorem tamperEvidentSample : Store.Accepts Sample.wired (Sample.sealedStream Sample.counted Sample.oneFrame) ∧
    ¬Store.Accepts Sample.wired Sample.recounted := by
  have accepts : Store.Accepts Sample.wired (Sample.sealedStream Sample.counted Sample.oneFrame) :=
    ⟨Sample.bare,Sample.counted,Sample.importedCounted,Faulty.Runs.ofResult (by decide +kernel)⟩
  have free : Set.InjOn Sample.wired.sha256
      {Sample.laid Sample.counted Sample.oneFrame,Sample.laid Sample.miscounted Sample.oneFrame} :=
    Set.injOn_pair.mpr fun same => absurd same (by decide +kernel)
  have length : (Store.covered Sample.wired Sample.recounted).map List.length =
      some (Sample.laid Sample.counted Sample.oneFrame).length := by decide +kernel
  refine ⟨accepts,(tamperEvident Sample.wiredCanonical free).2.2 _ _ _ accepts (by decide +kernel) (by decide +kernel)
    (by decide +kernel) (.inl rfl) (.inr rfl) fun again reads => ?_⟩
  rw [show Store.covered Sample.wired Sample.recounted = some again from reads] at length
  exact Option.some.inj length

end DigBlockstore
