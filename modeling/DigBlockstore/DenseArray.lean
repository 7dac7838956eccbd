import DigBlockstore.Resizes

/-! `canonical.bin` as a growable array of hashes: each resize and write does to the bytes what the same operation
does to the array, and both reads answer its slots. -/
namespace DigBlockstore
open ByteCodec Faulty Trace

def slotsTo (slots : List Bytes32) (n : Nat) : List Bytes32 :=
  slots.take n ++ List.replicate (n - slots.length) Bytes32.zero

theorem slotsToLength (slots : List Bytes32) (n : Nat) : (slotsTo slots n).length = n := by
  simp only [slotsTo,List.length_append,List.length_take,List.length_replicate]
  omega

theorem slotsToAt (slots : List Bytes32) (n i : Nat) :
    (slotsTo slots n)[i]? = if i < n then (if i < slots.length then slots[i]? else some Bytes32.zero) else none := by
  unfold slotsTo
  rw [List.getElem?_append,List.length_take]
  split
  · rw [List.getElem?_take,if_pos (by omega),if_pos (by omega),if_pos (by omega)]
  · rw [List.getElem?_replicate]
    split
    · rw [if_pos (by omega),if_neg (by omega)]
    · rw [if_neg (by omega)]

namespace CanonicalDenseFile

/- What the operations mean on the array. -/
def Resizing.onSlots (slots : List Bytes32) : Resizing → List Bytes32
  | .writeHash h x => (slotsTo slots (max slots.length (h.toNat + 1))).set h.toNat x
  | .truncate m => slotsTo slots (m.toNat + 1)

theorem writeOnSlots (slots : List Bytes32) (h : UInt64) (x : Bytes32) (i : Nat) :
    ((Resizing.writeHash h x).onSlots slots)[i]? = if i = h.toNat then some x else if i < slots.length then slots[i]?
      else if i < h.toNat then some Bytes32.zero else none := by
  rw [Resizing.onSlots,List.getElem?_set,slotsToLength,slotsToAt]
  by_cases here : i = h.toNat
  · rw [if_pos here.symm,if_pos here,if_pos (by omega)]
  · rw [if_neg (Ne.symm here),if_neg here]
    by_cases inside : i < slots.length
    · rw [if_pos (by omega),if_pos inside,if_pos inside]
    · rw [if_neg inside,if_neg inside]
      by_cases gap : i < h.toNat
      · rw [if_pos (by omega),if_pos gap]
      · rw [if_neg (by omega),if_neg gap]

theorem truncateOnSlots (slots : List Bytes32) (m : UInt64) (i : Nat) :
    ((Resizing.truncate m).onSlots slots)[i]? = if i ≤ m.toNat then
      (if i < slots.length then slots[i]? else some Bytes32.zero) else none := by
  rw [Resizing.onSlots,slotsToAt]
  simp only [Nat.lt_succ_iff]

/- The file is the bytes of the slots, one after the other. -/
structure Holds (slots : List Bytes32) (d : CanonicalDenseFile) : Prop where
  mapped : d.mapped = true
  length : d.file.length = slots.length * 32
  slot : ∀ (i : Nat) (x : Bytes32), slots[i]? = some x → slotBytes d.file i = x.bytes

section Steps
variable {slots : List Bytes32} {d d' : CanonicalDenseFile}

theorem slotBytesSetLen {file : Bytes} {n i : Nat} (aligned : file.length = n * 32) (k : Nat) (inside : i < k) :
    slotBytes (setLen file (k * 32)) i = if i < n then slotBytes file i else Bytes32.zero.bytes := by
  apply List.ext_getElem?
  intro j
  rw [slotBytesAt]
  split
  · rename_i small
    rw [setLenAt,if_pos (by omega)]
    by_cases old : i < n
    · rw [if_pos old,if_pos (by omega),slotBytesAt,if_pos small]
    · rw [if_neg old,if_neg (by omega),Bytes32.zero,List.getElem?_replicate,if_pos small]
  · rename_i past
    split
    · rw [slotBytesAt,if_neg past]
    · rw [Bytes32.zero,List.getElem?_replicate,if_neg past]

theorem Holds.resized (holds : Holds slots d) (k : Nat) : Holds (slotsTo slots k) ⟨setLen d.file (k * 32),true⟩ where
  mapped := rfl
  length := by rw [setLenLength,slotsToLength]
  slot i x found := by
    rw [slotsToAt] at found
    split at found
    · rename_i inside
      rw [slotBytesSetLen holds.length k inside]
      split at found
      · rename_i old
        rw [if_pos old]
        exact holds.slot i x found
      · rename_i new
        rw [if_neg new]
        cases found
        rfl
    · cases found

theorem slotBytesCopy {file : Bytes} {x : Bytes32} {i k : Nat} (fits : i * 32 + 32 ≤ file.length) :
    slotBytes (copyAt file (i * 32) x.bytes) k = if k = i then x.bytes else slotBytes file k := by
  have width := x.length
  apply List.ext_getElem?
  intro j
  rw [slotBytesAt]
  split
  · rename_i small
    rw [copyAtAt (by omega)]
    by_cases here : k = i
    · rw [if_pos (by omega),if_pos here]
      congr 1
      omega
    · rw [if_neg (by omega),if_neg here,slotBytesAt,if_pos small]
  · rename_i past
    split
    · rw [List.getElem?_eq_none (by omega)]
    · rw [slotBytesAt,if_neg past]

theorem Holds.copied (holds : Holds slots d) {i : Nat} (inside : i < slots.length) (x : Bytes32) :
    Holds (slots.set i x) ⟨copyAt d.file (i * 32) x.bytes,true⟩ where
  mapped := rfl
  length := by
    have width := x.length
    have length := holds.length
    rw [List.length_set,← length]
    exact copyAtLength (by omega)
  slot k y found := by
    have length := holds.length
    rw [List.getElem?_set,if_pos inside] at found
    rw [slotBytesCopy (by omega)]
    by_cases here : k = i
    · rw [if_pos here.symm] at found
      rw [if_pos here,Option.some.inj found]
    · rw [if_neg (Ne.symm here)] at found
      rw [if_neg here]
      exact holds.slot k y found

theorem Holds.perform (holds : Holds slots d) {op : Resizing} (run : Runs op.perform d (.ok ()) d') :
    Holds (op.onSlots slots) d' := by
  cases op with
  | writeHash h x =>
    obtain ⟨_,_,rfl⟩ := writeHashOk run
    have length := holds.length
    have grown := holds.resized (max slots.length (h.toNat + 1))
    have written := grown.copied (i := h.toNat) (by rw [slotsToLength]; omega) x
    have same : max slots.length (h.toNat + 1) * 32 = max d.file.length ((h.toNat + 1) * 32) := by omega
    rw [same] at written
    exact written
  | truncate m =>
    obtain ⟨_,rfl⟩ := truncateOk run
    exact holds.resized (m.toNat + 1)

end Steps

section Reads
variable {slots : List Bytes32} {d : CanonicalDenseFile}

theorem Holds.lenBytes (holds : Holds slots d) : d.lenBytes = .ok (32 * slots.length) := by
  rw [CanonicalDenseFile.lenBytes,if_pos holds.mapped,holds.length,Nat.mul_comm]

theorem Holds.readHash (holds : Holds slots d) {h : UInt64} (fits : h.toNat * 32 + 32 < 2 ^ 64) :
    d.readHash h = .ok slots[h.toNat]? := by
  have length := holds.length
  unfold CanonicalDenseFile.readHash
  rw [if_neg (by omega),if_neg (by omega),if_pos holds.mapped]
  by_cases inside : h.toNat < slots.length
  · have found := List.getElem?_eq_getElem inside
    have bytes : (d.file.drop (h.toNat * 32)).take 32 = slots[h.toNat].bytes := holds.slot _ _ found
    rw [if_neg (by omega),bytes,Bytes32.ofBytesBytes,found]
  · rw [if_pos (by omega),List.getElem?_eq_none (by omega)]

theorem Holds.readSlot (holds : Holds slots d) {h : UInt64} (fits : h.toNat * 32 + 32 < 2 ^ 64) :
    d.readSlotNonzeroBytes h = .ok (slots[h.toNat]?.filter fun x => !x.bytes.all (· == 0)) := by
  have length := holds.length
  unfold readSlotNonzeroBytes
  rw [if_neg (by omega),if_pos holds.mapped,readLiveSlot fits]
  by_cases inside : h.toNat < slots.length
  · have found := List.getElem?_eq_getElem inside
    rw [liveSlot,holds.slot _ _ found,Bytes32.ofBytesBytes,found]
  · rw [liveSlotOutside (by omega),List.getElem?_eq_none (by omega)]
    rfl

end Reads

def Performs (d : CanonicalDenseFile) (op : Resizing) (d' : CanonicalDenseFile) : Prop := Runs op.perform d (.ok ()) d'

def slotsOf (ops : List Resizing) : List Bytes32 := ops.foldl Resizing.onSlots []

theorem performedHolds {slots : List Bytes32} {d d' : CanonicalDenseFile} {ops : List Resizing} (holds : Holds slots d)
    (run : Run Performs d ops d') : Holds (ops.foldl Resizing.onSlots slots) d' := by
  induction run generalizing slots with
  | nil => exact holds
  | cons first _ ih => exact ih (holds.perform first)

/- After any run of successful operations from an empty file, the file is the array they leave, and reads as it. -/
theorem denseRefines {ops : List Resizing} {d : CanonicalDenseFile} (run : Run Performs ⟨[],true⟩ ops d) :
    Holds (slotsOf ops) d ∧ d.lenBytes = .ok (32 * (slotsOf ops).length) ∧
    (∀ h : UInt64, h.toNat * 32 + 32 < 2 ^ 64 → d.readHash h = .ok (slotsOf ops)[h.toNat]? ∧
      d.readSlotNonzeroBytes h = .ok ((slotsOf ops)[h.toNat]?.filter fun x => !x.bytes.all (· == 0))) ∧
    (∀ slots h x (i : Nat), ((Resizing.writeHash h x).onSlots slots)[i]? = if i = h.toNat then some x
      else if i < slots.length then slots[i]? else if i < h.toNat then some Bytes32.zero else none) ∧
    ∀ slots m, ((Resizing.truncate m).onSlots slots).length = m.toNat + 1 ∧
      ∀ i < slots.length, i ≤ m.toNat → ((Resizing.truncate m).onSlots slots)[i]? = slots[i]? := by
  have empty : Holds [] ⟨[],true⟩ := ⟨rfl,rfl,fun i x found => by cases found⟩
  have holds := performedHolds empty run
  refine ⟨holds,holds.lenBytes,fun h fits => ⟨holds.readHash fits,holds.readSlot fits⟩,writeOnSlots,fun slots m =>
    ⟨slotsToLength ..,fun i inside kept => ?_⟩⟩
  rw [truncateOnSlots,if_pos kept,if_pos inside]

theorem canPerform {d : CanonicalDenseFile} (op : Resizing) (mapped : d.mapped = true) (fits : (slotEnd op.height).isSome) :
    ∃ d', Performs d op d' ∧ d'.mapped = true := by
  cases op with
  | writeHash h x => exact ⟨_,(writeHashClean x mapped fits).runs,rfl⟩
  | truncate m => exact ⟨_,(truncateClean d fits).runs,rfl⟩

/- A slot cut off and grown back is zero. -/
theorem denseRefinesSample : ∃ d, Run Performs ⟨[],true⟩
    [.writeHash 1 ⟨List.replicate 32 1,rfl⟩,.truncate 0,.truncate 1] d ∧ d.readHash 1 = .ok (some Bytes32.zero) := by
  obtain ⟨d₁,wrote,mapped⟩ := @canPerform ⟨[],true⟩ (.writeHash 1 ⟨List.replicate 32 1,rfl⟩) rfl (by decide)
  obtain ⟨d₂,shrank,mapped⟩ := canPerform (.truncate 0) mapped (by decide)
  obtain ⟨d₃,regrew,_⟩ := canPerform (.truncate 1) mapped (by decide)
  have run := Run.cons wrote (.cons shrank (.cons regrew (.nil d₃)))
  exact ⟨d₃,run,((denseRefines run).2.2.1 1 (by decide)).1⟩

end CanonicalDenseFile
end DigBlockstore
