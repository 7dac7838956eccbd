import DigBlockstore.Slots
import DigBlockstore.Library.PartialMap

/-! `canonical.bin` as a lookup tier: the hash it answers at a height, the one height it
cannot be asked about, and agreement with the canonical rows above the floor. -/
namespace DigBlockstore
open ByteCodec Faulty

/- The height whose slot ends past the last `usize`: `2^59 - 1`. -/
def lastSlot : UInt64 := 576460752303423487

theorem lastSlotIff (height : UInt64) :
    height = lastSlot ↔ height.toNat * 32 < 2 ^ 64 ∧ 2 ^ 64 ≤ height.toNat * 32 + 32 := by
  rw [← UInt64.toNat_inj]
  have value : lastSlot.toNat = 576460752303423487 := rfl
  omega

namespace CanonicalBin

def answer (bin : CanonicalBin) (height : UInt64) : Option Bytes32 :=
  match bin.readHashBytes height with
  | .ok found => found
  | .error _ => none

def Ready : CanonicalBin → Prop
  | rw d => d.mapped = true ∧ 32 ∣ d.file.length
  | ro mmap => 32 ∣ mmap.length
  | disabled _ => True

def mapping : CanonicalBin → Bool
  | disabled _ => false
  | _ => true

def writable : CanonicalBin → Bool
  | ro _ => false
  | _ => true

instance (bin : CanonicalBin) : Decidable bin.Ready := by
  cases bin <;> unfold Ready <;> infer_instance

theorem answerRw {d : CanonicalDenseFile} (mapped : d.mapped = true) (height : UInt64) :
    (rw d).answer height = if height.toNat * 32 + 32 < 2 ^ 64 then liveSlot d.file height.toNat else none := by
  unfold answer readHashBytes CanonicalDenseFile.readSlotNonzeroBytes
  by_cases fits : height.toNat * 32 + 32 < 2 ^ 64
  · simp only [if_neg (show ¬height.toNat * 32 ≥ 2 ^ 64 by omega),if_pos mapped,readLiveSlot fits,if_pos fits]
  · by_cases outside : height.toNat * 32 ≥ 2 ^ 64
    · simp only [if_pos outside,if_neg fits]
    · simp only [if_neg outside,if_pos mapped,readSliceNonzero,if_neg fits,
        if_pos (show height.toNat * 32 + 32 ≥ 2 ^ 64 by omega)]

theorem answerRo (mmap : Bytes) (height : UInt64) :
    (ro mmap).answer height = if height.toNat * 32 + 32 < 2 ^ 64 then liveSlot mmap height.toNat else none := by
  unfold answer readHashBytes
  by_cases fits : height.toNat * 32 + 32 < 2 ^ 64
  · simp only [if_neg (show ¬height.toNat * 32 ≥ 2 ^ 64 by omega),readLiveSlot fits,if_pos fits]
  · by_cases outside : height.toNat * 32 ≥ 2 ^ 64
    · simp only [if_pos outside,if_neg fits]
    · simp only [if_neg outside,readSliceNonzero,if_neg fits,if_pos (show height.toNat * 32 + 32 ≥ 2 ^ 64 by omega)]

theorem readsAnswer {bin : CanonicalBin} (ready : bin.Ready) {height : UInt64}
    (inside : bin.mapping = true → height ≠ lastSlot) :
    bin.readHashBytes height = .ok (bin.answer height) := by
  cases bin with
  | rw d =>
    have apart := inside rfl
    rw [Ne,lastSlotIff] at apart
    rw [answerRw ready.1]
    unfold readHashBytes CanonicalDenseFile.readSlotNonzeroBytes
    by_cases outside : height.toNat * 32 ≥ 2 ^ 64
    · simp only [if_pos outside,if_neg (show ¬height.toNat * 32 + 32 < 2 ^ 64 by omega)]
    · have fits : height.toNat * 32 + 32 < 2 ^ 64 := by omega
      simp only [if_neg outside,if_pos ready.1,readLiveSlot fits,if_pos fits]
  | ro mmap =>
    have apart := inside rfl
    rw [Ne,lastSlotIff] at apart
    unfold answer readHashBytes
    by_cases outside : height.toNat * 32 ≥ 2 ^ 64
    · simp only [if_pos outside]
    · have fits : height.toNat * 32 + 32 < 2 ^ 64 := by omega
      simp only [if_neg outside,readLiveSlot fits]
  | disabled left => rfl

theorem readsLastSlot {bin : CanonicalBin} (ready : bin.Ready) (mapped : bin.mapping = true) :
    bin.readHashBytes lastSlot = .error (.panic "canonical.bin slot end overflows usize") := by
  obtain ⟨inside,past⟩ := (lastSlotIff lastSlot).mp rfl
  cases bin with
  | rw d =>
    unfold readHashBytes CanonicalDenseFile.readSlotNonzeroBytes readSliceNonzero
    simp only [if_neg (show ¬lastSlot.toNat * 32 ≥ 2 ^ 64 by omega),if_pos ready.1,if_pos past]
  | ro mmap =>
    unfold readHashBytes readSliceNonzero
    simp only [if_neg (show ¬lastSlot.toNat * 32 ≥ 2 ^ 64 by omega),if_pos past]
  | disabled left => cases mapped

def written (height : UInt64) (hash : Bytes32) : CanonicalBin → CanonicalBin
  | rw d => rw (d.written height hash)
  | other => other

def cut (maxHeight : UInt64) : CanonicalBin → CanonicalBin
  | rw d => rw (d.cut maxHeight)
  | other => other

def Accepts (bin : CanonicalBin) (height : UInt64) : Prop :=
  match bin with
  | rw _ => (slotEnd height).isSome
  | _ => True

instance (bin : CanonicalBin) (height : UInt64) : Decidable (bin.Accepts height) := by
  cases bin <;> unfold Accepts <;> infer_instance

theorem onDenseRuns {m : CanonicalDenseFile.Dense Unit} {bin bin' : CanonicalBin} {r : Exit Unit}
    (h : Runs (onDense m) bin r bin') :
    (∃ d d', bin = rw d ∧ bin' = rw d' ∧ Runs m d r d') ∨
      ((∀ d, bin ≠ rw d) ∧ r = .ok () ∧ bin' = bin) := by
  obtain ⟨script,rest,h⟩ := h
  cases bin with
  | rw d =>
    obtain ⟨d',run,same⟩ := runsZoom (p := fun _ => d) (q := fun d _ => rw d) ⟨script,rest,h⟩
    exact .inl ⟨d,d',rfl,same,run⟩
  | ro mmap =>
    injection h with hr hw
    injection hw with same
    exact .inr ⟨by simp,hr.symm,same.symm⟩
  | disabled left =>
    injection h with hr hw
    injection hw with same
    exact .inr ⟨by simp,hr.symm,same.symm⟩

theorem extendWriteOk {height : UInt64} {hash : Bytes32} {bin bin' : CanonicalBin} {u : Unit}
    (h : Runs (extendWrite height hash) bin (.ok u) bin') :
    bin.Accepts height ∧ bin' = bin.written height hash := by
  rcases onDenseRuns h with ⟨d,d',rfl,rfl,run⟩ | ⟨other,_,rfl⟩
  · obtain ⟨_,fits,rfl⟩ := CanonicalDenseFile.writeHashOk run
    exact ⟨fits,rfl⟩
  · cases bin' with
    | rw d => exact absurd rfl (other d)
    | ro mmap => exact ⟨trivial,rfl⟩
    | disabled left => exact ⟨trivial,rfl⟩

theorem truncateToHeightOk {maxHeight : UInt64} {bin bin' : CanonicalBin} {u : Unit}
    (h : Runs (truncateToHeight maxHeight) bin (.ok u) bin') :
    bin.Accepts maxHeight ∧ bin' = bin.cut maxHeight := by
  rcases onDenseRuns h with ⟨d,d',rfl,rfl,run⟩ | ⟨other,_,rfl⟩
  · obtain ⟨fits,rfl⟩ := CanonicalDenseFile.truncateOk run
    exact ⟨fits,rfl⟩
  · cases bin' with
    | rw d => exact absurd rfl (other d)
    | ro mmap => exact ⟨trivial,rfl⟩
    | disabled left => exact ⟨trivial,rfl⟩

theorem onDenseClean {m : CanonicalDenseFile.Dense Unit} {d d' : CanonicalDenseFile} {r : Exit Unit}
    (h : Clean m d r d') : Clean (onDense m) (rw d) r (rw d') :=
  cleanZoom (p := fun _ => d) (q := fun d _ => rw d) h

theorem extendWriteClean {height : UInt64} (hash : Bytes32) {bin : CanonicalBin} (ready : bin.Ready)
    (fits : bin.Accepts height) :
    Clean (extendWrite height hash) bin (.ok ()) (bin.written height hash) := by
  cases bin with
  | rw d => exact onDenseClean (CanonicalDenseFile.writeHashClean hash ready.1 fits)
  | ro mmap => rfl
  | disabled left => rfl

theorem truncateToHeightClean {maxHeight : UInt64} {bin : CanonicalBin} (fits : bin.Accepts maxHeight) :
    Clean (truncateToHeight maxHeight) bin (.ok ()) (bin.cut maxHeight) := by
  cases bin with
  | rw d => exact onDenseClean (CanonicalDenseFile.truncateClean d fits)
  | ro mmap => rfl
  | disabled left => rfl

theorem writtenReady {bin : CanonicalBin} (ready : bin.Ready) (height : UInt64) (hash : Bytes32) :
    (bin.written height hash).Ready := by
  cases bin with
  | rw d => exact ⟨rfl,CanonicalDenseFile.writtenAligned ready.2 height hash⟩
  | ro mmap => exact ready
  | disabled left => exact ready

theorem cutReady {bin : CanonicalBin} (ready : bin.Ready) (maxHeight : UInt64) :
    (bin.cut maxHeight).Ready := by
  cases bin with
  | rw d => exact ⟨rfl,CanonicalDenseFile.cutAligned d maxHeight⟩
  | ro mmap => exact ready
  | disabled left => exact ready

@[simp] theorem writtenMapping (height : UInt64) (hash : Bytes32) (bin : CanonicalBin) :
    (bin.written height hash).mapping = bin.mapping := by cases bin <;> rfl

@[simp] theorem cutMapping (maxHeight : UInt64) (bin : CanonicalBin) :
    (bin.cut maxHeight).mapping = bin.mapping := by cases bin <;> rfl

@[simp] theorem writtenWritable (height : UInt64) (hash : Bytes32) (bin : CanonicalBin) :
    (bin.written height hash).writable = bin.writable := by cases bin <;> rfl

@[simp] theorem cutWritable (maxHeight : UInt64) (bin : CanonicalBin) :
    (bin.cut maxHeight).writable = bin.writable := by cases bin <;> rfl

@[simp] theorem writtenAccepts (height other : UInt64) (hash : Bytes32) (bin : CanonicalBin) :
    (bin.written height hash).Accepts other ↔ bin.Accepts other := by cases bin <;> rfl

@[simp] theorem cutAccepts (maxHeight other : UInt64) (bin : CanonicalBin) :
    (bin.cut maxHeight).Accepts other ↔ bin.Accepts other := by cases bin <;> rfl

theorem answerWritten {bin : CanonicalBin} (ready : bin.Ready) (writes : bin.writable = true)
    {height other : UInt64} {hash found : Bytes32}
    (h : (bin.written height hash).answer other = some found) :
    other = height ∧ found = hash ∨ other ≠ height ∧ bin.answer other = some found := by
  cases bin with
  | rw d =>
    rw [written,answerRw rfl,CanonicalDenseFile.liveSlotWritten ready.2] at h
    split at h <;> try contradiction
    rename_i fits
    split at h
    · rename_i same
      split at h <;> try contradiction
      exact .inl ⟨UInt64.toNat_inj.mp same,(Option.some.inj h).symm⟩
    · rename_i apart
      refine .inr ⟨fun same => apart (congrArg _ same),?_⟩
      rw [answerRw ready.1,if_pos fits]
      exact h
  | ro mmap => cases writes
  | disabled left => cases h

theorem answerCut {bin : CanonicalBin} (ready : bin.Ready) (writes : bin.writable = true)
    (maxHeight height : UInt64) :
    (bin.cut maxHeight).answer height = if height ≤ maxHeight then bin.answer height else none := by
  cases bin with
  | rw d =>
    rw [cut,answerRw rfl,CanonicalDenseFile.liveSlotCut ready.2,answerRw ready.1]
    simp only [UInt64.le_iff_toNat_le]
    split <;> split <;> simp_all
  | ro mmap => cases writes
  | disabled left => simp [cut,answer,readHashBytes]

/- The tier says nothing at or above the floor that the rows do not say. -/
structure Sound (bin : CanonicalBin) (floor : UInt64) (rows : UInt64 → Option Bytes32) : Prop where
  ready : bin.Ready
  agrees : ∀ h x, floor ≤ h → bin.answer h = some x → rows h = some x

theorem Sound.raise {bin : CanonicalBin} {floor floor' : UInt64} {rows rows' : UInt64 → Option Bytes32}
    (sound : bin.Sound floor rows) (above : floor ≤ floor')
    (same : ∀ h, floor' ≤ h → rows' h = rows h) : bin.Sound floor' rows' where
  ready := sound.ready
  agrees h x low found := by
    rw [same h low]
    exact sound.agrees h x (UInt64.le_trans above low) found

theorem Sound.write {bin : CanonicalBin} {floor height : UInt64} {hash : Bytes32}
    {rows rows' : UInt64 → Option Bytes32} (sound : bin.Sound floor rows)
    (writes : bin.writable = true) (here : rows' height = some hash)
    (elsewhere : ∀ h, h ≠ height → rows' h = rows h) :
    (bin.written height hash).Sound floor rows' where
  ready := writtenReady sound.ready height hash
  agrees h x low found := by
    rcases answerWritten sound.ready writes found with ⟨rfl,rfl⟩ | ⟨apart,older⟩
    · exact here
    · rw [elsewhere h apart]
      exact sound.agrees h x low older

def writtenAll (rows : List (UInt64 × Bytes32)) (bin : CanonicalBin) : CanonicalBin :=
  rows.foldl (fun bin row => bin.written row.1 row.2) bin

@[simp] theorem writtenAllNil (bin : CanonicalBin) : bin.writtenAll [] = bin := rfl

@[simp] theorem writtenAllCons (row : UInt64 × Bytes32) (rows : List (UInt64 × Bytes32)) (bin : CanonicalBin) :
    bin.writtenAll (row :: rows) = (bin.written row.1 row.2).writtenAll rows := rfl

@[simp] theorem writtenAllWritable (rows : List (UInt64 × Bytes32)) (bin : CanonicalBin) :
    (bin.writtenAll rows).writable = bin.writable := by
  induction rows generalizing bin with
  | nil => rfl
  | cons row rows ih => rw [writtenAllCons,ih,writtenWritable]

@[simp] theorem writtenAllMapping (rows : List (UInt64 × Bytes32)) (bin : CanonicalBin) :
    (bin.writtenAll rows).mapping = bin.mapping := by
  induction rows generalizing bin with
  | nil => rfl
  | cons row rows ih => rw [writtenAllCons,ih,writtenMapping]

theorem Sound.writeAll {bin : CanonicalBin} {floor : UInt64} {index : UInt64 → Option Bytes32}
    (sound : bin.Sound floor index) (writes : bin.writable = true) (rows : List (UInt64 × Bytes32)) :
    (bin.writtenAll rows).Sound floor (PartialMap.putAll rows index) := by
  induction rows generalizing bin index with
  | nil => exact sound
  | cons row rows ih =>
    refine ih (sound.write writes (Function.update_self ..) fun h apart => Function.update_of_ne apart ..) ?_
    rw [writtenWritable,writes]

theorem Sound.truncate {bin : CanonicalBin} {floor maxHeight : UInt64}
    {rows rows' : UInt64 → Option Bytes32} (sound : bin.Sound floor rows)
    (writes : bin.writable = true) (below : ∀ h, h ≤ maxHeight → rows' h = rows h) :
    (bin.cut maxHeight).Sound floor rows' where
  ready := cutReady sound.ready maxHeight
  agrees h x low found := by
    rw [answerCut sound.ready writes] at found
    split at found <;> try contradiction
    rename_i kept
    rw [below h kept]
    exact sound.agrees h x low found

theorem Sound.disable {bin : CanonicalBin} {floor : UInt64} {rows : UInt64 → Option Bytes32} :
    bin.disable.Sound floor rows where
  ready := trivial
  agrees h x low found := by cases found

end CanonicalBin

end DigBlockstore
