import DigBlockstore.ImportEffects
import DigBlockstore.Lookups
import DigBlockstore.Steps

/-! What a failed resize leaves of `canonical.bin`: the mapping is dropped before the steps
that may fail, and installed again only past them. -/
namespace DigBlockstore
open ByteCodec Faulty ColumnStore

namespace CanonicalDenseFile

inductive Resizing where
  | writeHash (height : UInt64) (hash : Bytes32)
  | truncate (maxHeight : UInt64)

namespace Resizing

def height : Resizing → UInt64
  | writeHash h _ | truncate h => h

def perform : Resizing → Dense Unit
  | writeHash h hash => CanonicalDenseFile.writeHash h hash
  | truncate h => CanonicalDenseFile.truncate h

end Resizing

/- No later call finds the mapping gone. -/
structure Usable (d : CanonicalDenseFile) : Prop where
  len : d.lenBytes ≠ notMapped
  read : ∀ h, d.readHash h ≠ notMapped
  slot : ∀ h, d.readSlotNonzeroBytes h ≠ notMapped
  write : ∀ h x r t, Runs (writeHash h x) d r t → r ≠ notMapped

structure Survives (d d' : CanonicalDenseFile) : Prop where
  usable : d'.Usable
  kept : ∀ h : UInt64, h.toNat * 32 + 32 ≤ min d.file.length d'.file.length →
    d'.readHash h = d.readHash h ∧ d'.readSlotNonzeroBytes h = d.readSlotNonzeroBytes h

variable {d d' : CanonicalDenseFile} {e : BlockStoreError}

theorem stepSafe {σ : Type} {failure : String → BlockStoreError} {s t : σ} {r : Exit Unit}
    (run : Runs (Op.step failure) s r t) (message : String) : r ≠ .error (.panic message) := by
  rcases (runsStep.mp run).2 with rfl | ⟨_,rfl⟩ | rfl <;> intro bad <;> cases bad

theorem resizeSafe {n : Nat} {a b : String} {r : Exit Unit} (run : Runs (resize n a b) d r d') (message : String) :
    r ≠ .error (.panic message) := by
  unfold resize at run
  rw [runsModifyBind] at run
  rcases runsBind run with ⟨_,d₁,_,later⟩ | ⟨_,rfl,size⟩
  · rw [runsModifyBind] at later
    rcases runsBind later with ⟨_,d₂,_,last⟩ | ⟨_,rfl,remap⟩
    · rw [(runsModify.mp last).1]
      intro bad
      cases bad
    · exact stepSafe remap message
  · exact stepSafe size message

theorem writeHashSafe {h : UInt64} {x : Bytes32} {r : Exit Unit} (mapped : d.mapped = true)
    (run : Runs (writeHash h x) d r d') (message : String) : r ≠ .error (.panic message) := by
  unfold writeHash at run
  split at run
  · rw [(runsError.mp run).1]
    intro bad
    cases bad
  · rw [runsGetBind,lenBytes,if_pos mapped] at run
    dsimp only at run
    rcases runsBind run with ⟨_,v,_,last⟩ | ⟨_,rfl,growing⟩
    · rw [(runsModify.mp last).1]
      intro bad
      cases bad
    · unfold grow at growing
      split at growing
      · exact resizeSafe growing message
      · cases (runsPure.mp growing).1

theorem usableMapped (mapped : d.mapped = true) : d.Usable where
  len := by
    rw [lenBytes,if_pos mapped]
    intro bad
    cases bad
  read h := by
    unfold readHash
    rw [if_pos mapped]
    split
    · intro bad; cases bad
    · split
      · intro bad
        simp [notMapped] at bad
      · split <;> intro bad <;> cases bad
  slot h := by
    unfold readSlotNonzeroBytes readSliceNonzero
    rw [if_pos mapped]
    split
    · intro bad; cases bad
    · split
      · intro bad
        simp [notMapped] at bad
      · split
        · intro bad; cases bad
        · dsimp only
          split <;> intro bad <;> cases bad
  write h x r t run := writeHashSafe mapped run _

theorem truncateFails {maxHeight : UInt64} (run : Runs (truncate maxHeight) d (.error (.error e)) d') :
    slotEnd maxHeight = none ∧ d' = d ∨ (slotEnd maxHeight).isSome ∧ d'.mapped = false := by
  unfold truncate at run
  split at run
  · rename_i overflow
    exact .inl ⟨overflow,(runsError.mp run).2⟩
  · rename_i fits
    rcases resizeRuns run with ⟨bad,_⟩ | ⟨_,lost⟩
    · cases bad
    · exact .inr ⟨by rw [fits]; rfl,lost⟩

theorem performFails {o : Resizing} (mapped : d.mapped = true) (run : Runs o.perform d (.error (.error e)) d') :
    slotEnd o.height = none ∧ d' = d ∨ (slotEnd o.height).isSome ∧ d'.mapped = false := by
  cases o with
  | truncate h => exact truncateFails run
  | writeHash h x =>
    cases still : d'.mapped with
    | true =>
      obtain ⟨same,overflow⟩ := Store.writeHashFails mapped run still
      exact .inl ⟨overflow,same⟩
    | false =>
      refine .inr ⟨?_,rfl⟩
      by_contra overflow
      rw [Option.not_isSome_iff_eq_none] at overflow
      have refused : writeHash h x = Op.error (.serialization "canonical.bin write: height overflow") := by
        unfold writeHash
        rw [show slotEnd h = none from overflow]
      rw [Resizing.perform,refused] at run
      rw [(runsError.mp run).2,mapped] at still
      cases still

theorem survivesIff {op : Resizing} (mapped : d.mapped = true) (run : Runs op.perform d (.error (.error e)) d') :
    Survives d d' ↔ slotEnd op.height = none := by
  rcases performFails mapped run with ⟨overflow,rfl⟩ | ⟨fits,lost⟩
  · exact ⟨fun _ => overflow,fun _ => ⟨usableMapped mapped,fun _ _ => ⟨rfl,rfl⟩⟩⟩
  · constructor
    · intro survives
      refine absurd ?_ survives.usable.len
      rw [lenBytes,if_neg (by simp [lost])]
    · intro overflow
      rw [overflow] at fits
      cases fits

end CanonicalDenseFile

namespace Store
variable {crates : Crates} {s t : Store} {block : L2Block} {e : BlockStoreError}

/- A canonical put whose batch is committed and whose slot cannot be written. -/
def GrowFails (crates : Crates) (s : Store) (block : L2Block) (e : BlockStoreError) (t : Store) : Prop :=
  ∃ compressed headerBytes, Packs crates s block compressed headerBytes ∧
    Runs (onBin (CanonicalBin.extendWrite block.height (block.hash crates)))
      (s.commit (putRows crates block true compressed headerBytes)) (.error (.error e)) t

theorem putBlockCommits {canonical : Bool} {compressed headerBytes : Bytes} {script : List Event}
    (packs : Packs crates s block compressed headerBytes) (lands : eventAt script 0 = .ok) :
    putBlock crates block canonical ⟨s,script⟩ =
      putTail crates block canonical ⟨s.commit (putRows crates block canonical compressed headerBytes),script.tail⟩ := by
  have written : write (putRows crates block canonical compressed headerBytes) ⟨s,script⟩ =
      (.ok (),⟨s.commit (putRows crates block canonical compressed headerBytes),script.tail⟩) := by
    cases script with
    | nil => rfl
    | cons event rest =>
      cases (lands : event = .ok)
      rfl
  unfold putBlock
  rw [refuseBind,if_neg (by simp [packs.writes]),getBind]
  dsimp only
  rw [if_neg (by simp [packs.absent]),packs.body,packs.header]
  exact bindOk _ written

theorem GrowFails.runs (failed : GrowFails crates s block e t) :
    Runs (putBlock crates block true) s (.error (.error e)) t := by
  obtain ⟨compressed,headerBytes,packs,script,rest,run⟩ := failed
  refine ⟨.ok :: script,rest,?_⟩
  have stopped : putTail crates block true ⟨s.commit (putRows crates block true compressed headerBytes),script⟩ =
      (.error (.error e),⟨t,rest⟩) := by
    unfold putTail indexCanonical
    rw [if_pos rfl,opBindAssoc]
    change Op.bind _ _ _ = _
    rw [Op.bind,run]
  rw [putBlockCommits packs rfl]
  exact stopped

theorem GrowFails.leaves (indexed : s.Indexed) (failed : GrowFails crates s block e t) :
    TypedRows t.db ∧ t.minRetainedHeightCached = s.minRetainedHeightCached ∧
      t.canonicalHeightCache = s.canonicalHeightCache ∧
      ∃ d d', s.canonicalBin = .rw d ∧ t.canonicalBin = .rw d' ∧ d.mapped = true ∧
        (slotEnd block.height = none ∧ d' = d ∨ (slotEnd block.height).isSome ∧ d'.mapped = false) := by
  obtain ⟨compressed,headerBytes,packs,run⟩ := failed
  obtain ⟨bin,inner,rfl⟩ := onBinRuns run
  refine ⟨typedCommit indexed.typed (typedPutRows block true compressed headerBytes),rfl,rfl,?_⟩
  rcases CanonicalBin.onDenseRuns inner with ⟨d,d',before,rfl,write⟩ | ⟨_,bad,_⟩
  · have before' : s.canonicalBin = .rw d := before
    have ready := indexed.bin.ready
    rw [before'] at ready
    exact ⟨d,d',before',rfl,ready.1,CanonicalDenseFile.performFails (o := .writeHash block.height _) ready.1 write⟩
  · cases bad

/- A height the lookup answers without asking the file. -/
def Unasked (s : Store) (h : UInt64) : Prop :=
  h < s.minRetainedHeightCached ∨ s.canonicalHeightCache[h]?.isSome ∨ 2 ^ 64 ≤ h.toNat * 32

theorem tierAnswers (typed : TypedRows s.db) {h : UInt64} {found : Option Bytes32}
    (read : s.canonicalBin.readHashBytes h = .ok found) (script : List Event) :
    ∃ answer, (getHashByHeight h ⟨s,script⟩).1 = .ok answer := by
  rw [getHashByHeightUnfolds]
  split
  · exact ⟨_,rfl⟩
  · split
    · exact ⟨_,rfl⟩
    · rw [read]
      cases found with
      | some x => exact ⟨_,rfl⟩
      | none =>
        dsimp only
        split
        · exact ⟨_,rfl⟩
        · rename_i value row
          obtain ⟨_,x,_,rfl⟩ := typed _ _ row
          rw [hashKey,Bytes32.ofBytesBytes]
          exact ⟨_,rfl⟩

/- After a put that could not write its slot, a height is answered when the file is not asked,
or when it was refused for the put's own height and still maps. -/
theorem growAnswers (indexed : s.Indexed) (failed : GrowFails crates s block e t) (h : UInt64) (script : List Event) :
    (∃ found, (getHashByHeight h ⟨t,script⟩).1 = .ok found) ↔
      s.Unasked h ∨ slotEnd block.height = none ∧ h ≠ lastSlot := by
  obtain ⟨typed,floor,cached,d,d',before,after,mapped,outcome⟩ := failed.leaves indexed
  constructor
  · rintro ⟨found,answer⟩
    by_contra asked
    obtain ⟨inside,lost⟩ := not_or.mp asked
    simp only [Unasked,not_or] at inside
    rw [getHashByHeightUnfolds,floor,if_neg inside.1,cached,Option.not_isSome_iff_eq_none.mp inside.2.1,after] at answer
    rcases outcome with ⟨overflow,rfl⟩ | ⟨_,unmapped⟩
    · have last : h = lastSlot := by
        by_contra apart
        exact lost ⟨overflow,apart⟩
      subst last
      have ready := indexed.bin.ready
      rw [before] at ready
      rw [CanonicalBin.readsLastSlot ready rfl] at answer
      cases answer
    · rw [CanonicalBin.readHashBytes,CanonicalDenseFile.readSlotNonzeroBytes,if_neg (by omega),if_neg (by simp [unmapped])] at answer
      cases answer
  · rintro ((low | hit | far) | ⟨overflow,apart⟩)
    · exact ⟨none,by rw [getHashByHeightUnfolds,floor,if_pos low]⟩
    · obtain ⟨x,hit'⟩ := Option.isSome_iff_exists.mp hit
      rw [getHashByHeightUnfolds,cached,hit']
      split <;> exact ⟨_,rfl⟩
    · refine @tierAnswers t typed h none ?_ script
      rw [after,CanonicalBin.readHashBytes,CanonicalDenseFile.readSlotNonzeroBytes,if_pos (by omega)]
    · have same : t.canonicalBin = s.canonicalBin := by
        rcases outcome with ⟨_,rfl⟩ | ⟨fits,_⟩
        · rw [after,before]
        · rw [overflow] at fits
          cases fits
      exact tierAnswers typed (by rw [same]; exact CanonicalBin.readsAnswer indexed.bin.ready fun _ => apart) script

end Store

/- A failed resize leaves the file usable exactly when it was refused for its height, and a lookup
after a put that failed so answers exactly when the file is not asked or still maps. -/
theorem failedResizes (crates : Crates) :
    (∀ (d d' : CanonicalDenseFile) (op : CanonicalDenseFile.Resizing) (e : BlockStoreError), d.mapped = true →
      Runs op.perform d (.error (.error e)) d' → (d.Survives d' ↔ slotEnd op.height = none)) ∧
    ∀ (s t : Store) (block : L2Block) (e : BlockStoreError), s.Indexed → Store.GrowFails crates s block e t →
      Runs (Store.putBlock crates block true) s (.error (.error e)) t ∧ ∀ h script,
        ((∃ found, (Store.getHashByHeight h ⟨t,script⟩).1 = .ok found) ↔
          s.Unasked h ∨ slotEnd block.height = none ∧ h ≠ lastSlot) :=
  ⟨fun _ _ _ _ mapped run => CanonicalDenseFile.survivesIff mapped run,
    fun _ _ _ _ indexed failed => ⟨failed.runs,Store.growAnswers indexed failed⟩⟩

namespace Sample

def remote : L2Block := block 1152921504606846976 0 1

def seed : Store := .after crates Store.tame config [.initGenesis (block 0 0 1)]

def twoSlots : CanonicalDenseFile := ⟨(hash 1).bytes ++ (hash 2).bytes,true⟩

/- A block past every slot, put over the genesis block. -/
def distant : L2Block := block 1152921504606846976 1 3

def distantLeft : Store := seed.commit (Store.putRows crates distant true (encodeBlock distant) (encodeHeader distant.header []))

end Sample

theorem failedResizesSample : Sample.twoSlots.Survives Sample.twoSlots ∧
    Runs (Store.putBlock Sample.crates Sample.distant true) Sample.seed
      (.error (.error (.serialization "canonical.bin write: height overflow"))) Sample.distantLeft ∧
    ∃ found, (Store.getHashByHeight 0 ⟨Sample.distantLeft,[]⟩).1 = .ok found := by
  have run : ReachesUnshadowed Sample.crates Sample.seed := Store.afterTame (by decide +kernel)
  have refused : Runs (CanonicalDenseFile.Resizing.writeHash 1152921504606846976 (Sample.hash 3)).perform Sample.twoSlots
      (.error (.error (.serialization "canonical.bin write: height overflow"))) Sample.twoSlots := ⟨[],[],rfl⟩
  have failed : Store.GrowFails Sample.crates Sample.seed Sample.distant
      (.serialization "canonical.bin write: height overflow") Sample.distantLeft :=
    ⟨_,_,⟨rfl,rfl,rfl,rfl⟩,[],[],rfl⟩
  obtain ⟨survives,puts⟩ := failedResizes Sample.crates
  obtain ⟨ran,answers⟩ := puts _ _ _ _ (reachesIndexed run.reaches) failed
  exact ⟨(survives _ _ _ _ rfl refused).mpr (by decide),ran,(answers 0 []).mpr (.inr ⟨by decide,by decide⟩)⟩

/- A put that finds no room for its slot, and the lookup of another height after it. -/
theorem failedResizeLoses :
    Runs (CanonicalDenseFile.Resizing.writeHash 1 (Sample.hash 2)).perform ⟨[],true⟩
      (.error (.error (.serialization "canonical.bin set_len: no space"))) ⟨[],false⟩ ∧
    ¬(⟨[],true⟩ : CanonicalDenseFile).Survives ⟨[],false⟩ ∧
    (Store.putBlock Sample.crates (Sample.block 1 1 2) true ⟨Sample.seed,[.ok,.fail "no space"]⟩).1 =
      .error (.error (.serialization "canonical.bin set_len: no space")) ∧
    (Store.getHashByHeight 0 (Store.putBlock Sample.crates (Sample.block 1 1 2) true
      ⟨Sample.seed,[.ok,.fail "no space"]⟩).2).1 =
        .error (.panic "canonical.bin: mmap must be installed after open/remap") :=
  ⟨⟨[.fail "no space"],[],rfl⟩,fun survives => survives.usable.len rfl,by decide +kernel,by decide +kernel⟩

end DigBlockstore
