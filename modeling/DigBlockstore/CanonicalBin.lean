import DigBlockstore.Types
import DigBlockstore.Library.Faulty

/-! `canonical.bin`: 32-byte slots, slot `h` at byte `32 * h`, all zero when empty.
The mapping always covers the whole file. It is dropped before the file is resized and
installed again afterwards, so a step failing in between leaves the file unmapped. -/
namespace DigBlockstore
open ByteCodec Faulty

abbrev Exit (α : Type) := Except (Stop BlockStoreError) α

structure CanonicalDenseFile where
  file : Bytes
  mapped : Bool
  deriving DecidableEq, Repr

/- `(height + 1) * 32` when it fits a 64-bit `usize`. -/
def slotEnd (height : UInt64) : Option Nat :=
  if (height.toNat + 1) * 32 < 2 ^ 64 then some ((height.toNat + 1) * 32) else none

/- `File::set_len`: cut, or pad with zeros. -/
def setLen (file : Bytes) (n : Nat) : Bytes := file.take n ++ List.replicate (n - file.length) 0

def copyAt (file : Bytes) (o : Nat) (bytes : Bytes) : Bytes :=
  file.take o ++ bytes ++ file.drop (o + bytes.length)

def readSliceNonzero (mmap : Bytes) (off : Nat) : Exit (Option Bytes32) :=
  -- an addition overflow where these are checked, and a slice ending before it starts where not
  if off + 32 ≥ 2 ^ 64 then .error (.panic "canonical.bin slot end overflows usize")
  else if off + 32 > mmap.length then .ok none
  else
    let s := (mmap.drop off).take 32
    if s.all (· == 0) then .ok none else .ok (Bytes32.ofBytes? s)

namespace CanonicalDenseFile

abbrev Dense (α : Type) := Op CanonicalDenseFile BlockStoreError α

def notMapped {α : Type} : Exit α :=
  .error (.panic "canonical.bin: mmap must be installed after open/remap")

def lenBytes (d : CanonicalDenseFile) : Exit Nat := if d.mapped then .ok d.file.length else notMapped

def readHash (d : CanonicalDenseFile) (height : UInt64) : Exit (Option Bytes32) :=
  if height.toNat * 32 ≥ 2 ^ 64 then
    .error (.error (.serialization "canonical.bin read: height overflow"))
  else if height.toNat * 32 + 32 ≥ 2 ^ 64 then
    .error (.panic "canonical.bin slot end overflows usize")
  else if d.mapped then
    if height.toNat * 32 + 32 > d.file.length then .ok none
    else .ok (Bytes32.ofBytes? ((d.file.drop (height.toNat * 32)).take 32))
  else notMapped

def readSlotNonzeroBytes (d : CanonicalDenseFile) (height : UInt64) : Exit (Option Bytes32) :=
  if height.toNat * 32 ≥ 2 ^ 64 then .ok none
  else if d.mapped then readSliceNonzero d.file (height.toNat * 32) else notMapped

def resize (n : Nat) (setLenFailed remapFailed : String) : Dense Unit := do
  Op.modify fun d => {d with mapped := false}
  Op.step fun why => .serialization (setLenFailed ++ why)
  Op.modify fun d => {d with file := setLen d.file n}
  Op.step fun why => .serialization (remapFailed ++ why)
  Op.modify fun d => {d with mapped := true}

def grow (need cur : Nat) : Dense Unit :=
  if need > cur then resize need "canonical.bin set_len: " "canonical.bin remap after extend: "
  else pure ()

def writeHash (height : UInt64) (hash : Bytes32) : Dense Unit := do
  match slotEnd height with
  | none => Op.error (.serialization "canonical.bin write: height overflow")
  | some need =>
      let d ← Op.get
      match d.lenBytes with
      | .error e => Op.stop e
      | .ok cur =>
          grow need cur
          Op.modify fun d => {d with file := copyAt d.file (height.toNat * 32) hash.bytes}

def truncate (maxHeight : UInt64) : Dense Unit :=
  match slotEnd maxHeight with
  | none => Op.error (.serialization "canonical.bin truncate: height overflow")
  | some newLen => resize newLen "canonical.bin truncate set_len: " "canonical.bin truncate remap: "

end CanonicalDenseFile

/- `disabled` remembers the file left on disk, which nothing reads before the next open. -/
inductive CanonicalBin where
  | rw (dense : CanonicalDenseFile)
  | ro (mmap : Bytes)
  | disabled (file : Option Bytes)
  deriving DecidableEq, Repr

namespace CanonicalBin

abbrev Bin (α : Type) := Op CanonicalBin BlockStoreError α

def file : CanonicalBin → Option Bytes
  | rw d => some d.file
  | ro mmap => some mmap
  | disabled left => left

def disable (bin : CanonicalBin) : CanonicalBin := disabled bin.file

def readHashBytes (bin : CanonicalBin) (height : UInt64) : Exit (Option Bytes32) :=
  match bin with
  | rw d => d.readSlotNonzeroBytes height
  | ro mmap => if height.toNat * 32 ≥ 2 ^ 64 then .ok none else readSliceNonzero mmap (height.toNat * 32)
  | disabled _ => .ok none

def onDense (m : CanonicalDenseFile.Dense Unit) : Bin Unit := fun w =>
  match w.state with
  | rw d => Op.zoom (fun _ => d) (fun d _ => rw d) m w
  | ro _ | disabled _ => (.ok (),w)

def extendWrite (height : UInt64) (hash : Bytes32) : Bin Unit :=
  onDense (CanonicalDenseFile.writeHash height hash)

def truncateToHeight (maxHeight : UInt64) : Bin Unit :=
  onDense (CanonicalDenseFile.truncate maxHeight)

end CanonicalBin

end DigBlockstore
