import DigBlockstore.Open

/-! The slots of `canonical.bin`: what a write and a resize do to each of them, and when
the file says nothing that the canonical rows do not say. -/
namespace DigBlockstore
open ByteCodec Faulty

def slotBytes (file : Bytes) (i : Nat) : Bytes := (file.drop (i * 32)).take 32

def liveSlot (file : Bytes) (i : Nat) : Option Bytes32 :=
  (Bytes32.ofBytes? (slotBytes file i)).filter fun x => !x.bytes.all (· == 0)

theorem slotBytesAt (file : Bytes) (i j : Nat) :
    (slotBytes file i)[j]? = if j < 32 then file[i * 32 + j]? else none := by
  simp [slotBytes,List.getElem?_take,List.getElem?_drop]

theorem slotBytesLength (file : Bytes) (i : Nat) :
    (slotBytes file i).length = min 32 (file.length - i * 32) := by
  simp [slotBytes]

theorem readLiveSlot {file : Bytes} {i : Nat} (fits : i * 32 + 32 < 2 ^ 64) :
    readSliceNonzero file (i * 32) = .ok (liveSlot file i) := by
  have length := slotBytesLength file i
  unfold readSliceNonzero
  rw [if_neg (by omega)]
  split
  · rename_i short
    have partial' : (slotBytes file i).length ≠ 32 := by omega
    simp [liveSlot,Bytes32.ofBytes?,partial']
  · have full : (slotBytes file i).length = 32 := by omega
    have same : (file.drop (i * 32)).take 32 = slotBytes file i := rfl
    simp only [same,liveSlot,Bytes32.ofBytes?,full,dite_true,Option.filter_some]
    cases (slotBytes file i).all (· == 0) <;> rfl

theorem liveSlotCongr {file file' : Bytes} {i : Nat}
    (same : ∀ j < 32, file'[i * 32 + j]? = file[i * 32 + j]?) : liveSlot file' i = liveSlot file i := by
  have bytes : slotBytes file' i = slotBytes file i := by
    apply List.ext_getElem?
    intro j
    rw [slotBytesAt,slotBytesAt]
    split
    · exact same j (by assumption)
    · rfl
  rw [liveSlot,liveSlot,bytes]

theorem liveSlotOutside {file : Bytes} {i : Nat} (outside : file.length < i * 32 + 32) :
    liveSlot file i = none := by
  have length := slotBytesLength file i
  have partial' : (slotBytes file i).length ≠ 32 := by omega
  simp [liveSlot,Bytes32.ofBytes?,partial']

theorem liveSlotZero {file : Bytes} {i : Nat} (zero : ∀ j < 32, file[i * 32 + j]? = some 0) :
    liveSlot file i = none := by
  have all : (slotBytes file i).all (· == 0) = true := by
    rw [List.all_eq_true]
    intro b mem
    obtain ⟨j,hj⟩ := List.mem_iff_getElem?.mp mem
    rw [slotBytesAt] at hj
    split at hj
    · rw [zero j (by assumption)] at hj
      cases hj
      rfl
    · cases hj
  rw [liveSlot,Option.filter_eq_none_iff]
  intro x found
  rw [← Bytes32.ofBytesSome found,all]
  simp

theorem copyAtAt {file bytes : Bytes} {o : Nat} (fits : o + bytes.length ≤ file.length) (j : Nat) :
    (copyAt file o bytes)[j]? =
      if o ≤ j ∧ j < o + bytes.length then bytes[j - o]? else file[j]? := by
  have front : (file.take o).length = o := by rw [List.length_take]; omega
  unfold copyAt
  rw [List.append_assoc,List.getElem?_append]
  split
  · rename_i before
    rw [front] at before
    rw [if_neg (by omega),List.getElem?_take,if_pos before]
  · rename_i after
    rw [front] at after ⊢
    rw [List.getElem?_append]
    split
    · rw [if_pos (by omega)]
    · rw [if_neg (by omega),List.getElem?_drop]
      congr 1
      omega

@[simp] theorem copyAtLength {file bytes : Bytes} {o : Nat} (fits : o + bytes.length ≤ file.length) :
    (copyAt file o bytes).length = file.length := by
  simp only [copyAt,List.length_append,List.length_take,List.length_drop]
  omega

theorem liveSlotCopyOther {file : Bytes} {x : Bytes32} {i k : Nat} (fits : i * 32 + 32 ≤ file.length)
    (apart : k ≠ i) : liveSlot (copyAt file (i * 32) x.bytes) k = liveSlot file k := by
  have width := x.length
  apply liveSlotCongr
  intro j small
  rw [copyAtAt (by omega),if_neg (by omega)]

theorem liveSlotCopySelf {file : Bytes} {x : Bytes32} {i : Nat} (fits : i * 32 + 32 ≤ file.length) :
    liveSlot (copyAt file (i * 32) x.bytes) i =
      if x.bytes.all (· == 0) then none else some x := by
  have width := x.length
  have bytes : slotBytes (copyAt file (i * 32) x.bytes) i = x.bytes := by
    apply List.ext_getElem?
    intro j
    rw [slotBytesAt]
    split
    · rw [copyAtAt (by omega),if_pos (by omega)]
      congr 1
      omega
    · rw [List.getElem?_eq_none]
      omega
  rw [liveSlot,bytes,Bytes32.ofBytesBytes,Option.filter_some]
  cases x.bytes.all (· == 0) <;> rfl

@[simp] theorem setLenLength (file : Bytes) (n : Nat) : (setLen file n).length = n := by
  simp only [setLen,List.length_append,List.length_take,List.length_replicate]
  omega

theorem setLenAt (file : Bytes) (n j : Nat) :
    (setLen file n)[j]? =
      if j < n then (if j < file.length then file[j]? else some 0) else none := by
  unfold setLen
  rw [List.getElem?_append,List.length_take]
  split
  · rw [List.getElem?_take,if_pos (by omega),if_pos (by omega),if_pos (by omega)]
  · rw [List.getElem?_replicate]
    split
    · rw [if_pos (by omega),if_neg (by omega)]
    · rw [if_neg (by omega)]

theorem liveSlotSetLen {file : Bytes} (aligned : 32 ∣ file.length) (k i : Nat) :
    liveSlot (setLen file (k * 32)) i = if i < k then liveSlot file i else none := by
  obtain ⟨m,hm⟩ := aligned
  split
  · by_cases inside : i < m
    · apply liveSlotCongr
      intro j small
      rw [setLenAt,if_pos (by omega),if_pos (by omega)]
    · have outside : liveSlot file i = none := liveSlotOutside (by omega)
      rw [outside]
      apply liveSlotZero
      intro j small
      rw [setLenAt,if_pos (by omega),if_neg (by omega)]
  · apply liveSlotOutside
    rw [setLenLength]
    omega

namespace CanonicalDenseFile

def written (d : CanonicalDenseFile) (height : UInt64) (hash : Bytes32) : CanonicalDenseFile where
  file := copyAt (setLen d.file (max d.file.length ((height.toNat + 1) * 32))) (height.toNat * 32) hash.bytes
  mapped := true

def cut (d : CanonicalDenseFile) (maxHeight : UInt64) : CanonicalDenseFile :=
  ⟨setLen d.file ((maxHeight.toNat + 1) * 32),true⟩

theorem setLenSelf (file : Bytes) : setLen file file.length = file := by simp [setLen]

theorem slotEndSome {height : UInt64} {n : Nat} (h : slotEnd height = some n) :
    n = (height.toNat + 1) * 32 ∧ height.toNat * 32 + 32 < 2 ^ 64 := by
  unfold slotEnd at h
  split at h <;> try contradiction
  cases Option.some.inj h
  exact ⟨rfl,by omega⟩

theorem resizeRuns {n : Nat} {a b : String} {d d' : CanonicalDenseFile} {r : Exit Unit}
    (h : Runs (resize n a b) d r d') :
    r = .ok () ∧ d' = ⟨setLen d.file n,true⟩ ∨ r ≠ .ok () ∧ d'.mapped = false := by
  unfold resize at h
  rw [runsModifyBind] at h
  rcases runsBind h with ⟨_,d₁,size,later⟩ | ⟨e,rfl,size⟩
  · have same := runsStepOk size
    subst same
    rw [runsModifyBind] at later
    rcases runsBind later with ⟨_,d₂,remap,last⟩ | ⟨e,rfl,remap⟩
    · have same := runsStepOk remap
      subst same
      obtain ⟨rfl,rfl⟩ := runsModify.mp last
      exact .inl ⟨rfl,rfl⟩
    · have same := (runsStep.mp remap).1
      subst same
      exact .inr ⟨by simp,rfl⟩
  · have same := (runsStep.mp size).1
    subst same
    exact .inr ⟨by simp,rfl⟩

theorem resizeClean (n : Nat) (a b : String) (d : CanonicalDenseFile) :
    Clean (resize n a b) d (.ok ()) ⟨setLen d.file n,true⟩ := rfl

theorem grownFile (d : CanonicalDenseFile) (need : Nat) :
    setLen d.file (max d.file.length need) = if need > d.file.length then setLen d.file need else d.file := by
  split
  · rw [Nat.max_eq_right (by omega)]
  · rw [Nat.max_eq_left (by omega),setLenSelf]

theorem growOk {need : Nat} {d d' : CanonicalDenseFile} {u : Unit} (mapped : d.mapped = true)
    (h : Runs (grow need d.file.length) d (.ok u) d') :
    d' = ⟨setLen d.file (max d.file.length need),true⟩ := by
  rw [grownFile]
  unfold grow at h
  split at h
  · rename_i longer
    rw [if_pos longer]
    rcases resizeRuns h with ⟨_,same⟩ | ⟨bad,_⟩
    · exact same
    · exact absurd rfl bad
  · rename_i enough
    rw [if_neg enough,← mapped]
    exact (runsPure.mp h).2

theorem growClean {d : CanonicalDenseFile} (mapped : d.mapped = true) (need : Nat) :
    Clean (grow need d.file.length) d (.ok ()) ⟨setLen d.file (max d.file.length need),true⟩ := by
  rw [grownFile]
  unfold grow
  split
  · exact resizeClean ..
  · rw [← mapped]
    exact cleanPure _ _

theorem writeHashOk {height : UInt64} {hash : Bytes32} {d d' : CanonicalDenseFile} {u : Unit}
    (h : Runs (writeHash height hash) d (.ok u) d') :
    d.mapped = true ∧ (slotEnd height).isSome ∧ d' = d.written height hash := by
  unfold writeHash at h
  split at h
  · cases (runsError.mp h).1
  · rename_i need fits
    obtain ⟨hneed,_⟩ := slotEndSome fits
    rw [runsGetBind] at h
    split at h
    · cases (runsStop.mp h).1
    · rename_i cur found
      unfold lenBytes at found
      split at found <;> try contradiction
      rename_i mapped
      cases Except.ok.inj found
      obtain ⟨_,d₁,grown,last⟩ := runsBindOk h
      obtain ⟨_,rfl⟩ := runsModify.mp last
      have same := growOk mapped grown
      subst same
      exact ⟨mapped,by rw [fits]; rfl,by rw [written,hneed]⟩

theorem writeHashClean {height : UInt64} (hash : Bytes32) {d : CanonicalDenseFile}
    (mapped : d.mapped = true) (fits : (slotEnd height).isSome) :
    Clean (writeHash height hash) d (.ok ()) (d.written height hash) := by
  obtain ⟨need,found⟩ := Option.isSome_iff_exists.mp fits
  obtain ⟨hneed,_⟩ := slotEndSome found
  unfold writeHash
  rw [found,cleanGetBind,lenBytes,if_pos mapped,written,← hneed]
  exact cleanBind (growClean mapped need) rfl

theorem truncateOk {maxHeight : UInt64} {d d' : CanonicalDenseFile} {u : Unit}
    (h : Runs (truncate maxHeight) d (.ok u) d') :
    (slotEnd maxHeight).isSome ∧ d' = d.cut maxHeight := by
  unfold truncate at h
  split at h
  · cases (runsError.mp h).1
  · rename_i newLen fits
    obtain ⟨hlen,_⟩ := slotEndSome fits
    rcases resizeRuns h with ⟨_,rfl⟩ | ⟨bad,_⟩
    · exact ⟨by rw [fits]; rfl,by rw [hlen]; rfl⟩
    · exact absurd rfl bad

theorem truncateClean {maxHeight : UInt64} (d : CanonicalDenseFile)
    (fits : (slotEnd maxHeight).isSome) :
    Clean (truncate maxHeight) d (.ok ()) (d.cut maxHeight) := by
  obtain ⟨newLen,found⟩ := Option.isSome_iff_exists.mp fits
  obtain ⟨hlen,_⟩ := slotEndSome found
  unfold truncate cut
  rw [found,← hlen]
  exact resizeClean ..

theorem writtenAligned {d : CanonicalDenseFile} (aligned : 32 ∣ d.file.length) (height : UInt64)
    (hash : Bytes32) : 32 ∣ (d.written height hash).file.length := by
  have width := hash.length
  change 32 ∣ (copyAt _ _ _).length
  rw [copyAtLength (by rw [setLenLength]; omega),setLenLength]
  omega

theorem cutAligned (d : CanonicalDenseFile) (maxHeight : UInt64) :
    32 ∣ (d.cut maxHeight).file.length := by
  change 32 ∣ (setLen _ _).length
  rw [setLenLength]
  omega

theorem liveSlotWritten {d : CanonicalDenseFile} (aligned : 32 ∣ d.file.length) (height : UInt64)
    (hash : Bytes32) (i : Nat) :
    liveSlot (d.written height hash).file i =
      if i = height.toNat then (if hash.bytes.all (· == 0) then none else some hash)
      else liveSlot d.file i := by
  obtain ⟨m,hm⟩ := aligned
  have fits : height.toNat * 32 + 32 ≤
      (setLen d.file (max d.file.length ((height.toNat + 1) * 32))).length := by
    rw [setLenLength]
    omega
  unfold written
  split
  · rename_i same
    subst same
    exact liveSlotCopySelf fits
  · rename_i apart
    rw [liveSlotCopyOther fits apart]
    have length : max d.file.length ((height.toNat + 1) * 32) = max m (height.toNat + 1) * 32 := by omega
    rw [length,liveSlotSetLen ⟨m,hm⟩]
    split
    · rfl
    · exact (liveSlotOutside (by omega)).symm

theorem liveSlotCut {d : CanonicalDenseFile} (aligned : 32 ∣ d.file.length) (maxHeight : UInt64) (i : Nat) :
    liveSlot (d.cut maxHeight).file i = if i ≤ maxHeight.toNat then liveSlot d.file i else none := by
  unfold cut
  rw [liveSlotSetLen aligned]
  simp only [Nat.lt_succ_iff]

end CanonicalDenseFile

end DigBlockstore
