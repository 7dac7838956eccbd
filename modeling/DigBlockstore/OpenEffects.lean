import DigBlockstore.PipelineEffects

/-! Opening a store: the file it maps agrees with the canonical rows, and warming the
caches only reads. -/
namespace DigBlockstore
open ByteCodec Faulty ColumnStore

namespace CanonicalBin
variable {crates : Crates}

theorem parseCanonicalOk {cells : List (Bytes × Bytes)} {rows : List (UInt64 × Bytes32)}
    (h : parseCanonical cells = .ok rows) {height : UInt64} {x : Bytes32} (mem : (height,x) ∈ rows) :
    (heightKey height,hashKey x) ∈ cells := by
  induction cells generalizing rows with
  | nil =>
    cases h
    cases mem
  | cons cell rest ih =>
    unfold parseCanonical at h
    split at h
    · cases h
    · rename_i eight
      split at h
      · cases h
      · rename_i hash decoded
        cases later : parseCanonical rest with
        | error e => rw [later] at h; cases h
        | ok more =>
          rw [later] at h
          cases h
          rcases List.mem_cons.mp mem with same | older
          · cases same
            have key : heightKey (decodeHeightKey cell.1) = cell.1 := heightKeyDecode (by simpa using eight)
            rw [key]
            refine List.mem_cons.mpr (.inl (Prod.ext rfl ?_))
            exact (Bytes32.ofBytesSome decoded).symm
          · exact List.mem_cons_of_mem _ (ih later older)

theorem usizeOk {message : String} {n m : Nat} (h : usize crates message n = .ok m) :
    n < 2 ^ 64 ∧ m = n ∨ 2 ^ 64 ≤ n ∧ m = n % 2 ^ 64 := by
  unfold usize at h
  split at h
  · rename_i small
    exact .inl ⟨small,(Except.ok.inj h).symm⟩
  · rename_i large
    split at h
    · cases h
    · exact .inr ⟨by omega,(Except.ok.inj h).symm⟩

theorem fillDenseOk {rows : List (UInt64 × Bytes32)} {buf out : Bytes} (h : fillDense crates buf rows = .ok out) :
    out.length = buf.length ∧ ∀ i x, liveSlot out i = some x →
      (∃ height : UInt64, height.toNat = i ∧ (height,x) ∈ rows) ∨ liveSlot buf i = some x := by
  induction rows generalizing buf with
  | nil =>
    cases h
    exact ⟨rfl,fun _ _ found => .inr found⟩
  | cons row rest ih =>
    unfold fillDense at h
    dsimp only at h
    split at h
    · cases h
    · rename_i stop computed
      split at h
      · cases h
      · rename_i inside
        split at h
        · cases h
        · rename_i ordered
          have width := row.2.length
          have bounds := usizeOk computed
          have exact' : min (row.1.toNat * 32) (2 ^ 64 - 1) = row.1.toNat * 32 ∧
              row.1.toNat * 32 + 32 ≤ buf.length := by omega
          rw [exact'.1] at h
          obtain ⟨same,slots⟩ := ih h
          rw [copyAtLength (by omega)] at same
          refine ⟨same,fun i x found => ?_⟩
          rcases slots i x found with ⟨height,here,mem⟩ | older
          · exact .inl ⟨height,here,List.mem_cons_of_mem _ mem⟩
          · by_cases at' : i = row.1.toNat
            · subst at'
              rw [liveSlotCopySelf exact'.2] at older
              split at older
              · cases older
              · cases older
                exact .inl ⟨row.1,rfl,by simp⟩
            · rw [liveSlotCopyOther exact'.2 at'] at older
              exact .inr older

theorem liveSlotEmpty (n i : Nat) : liveSlot (List.replicate n 0) i = none := by
  by_cases outside : n < i * 32 + 32
  · exact liveSlotOutside (by simpa using outside)
  · apply liveSlotZero
    intro j small
    rw [List.getElem?_replicate,if_pos (by omega)]

/- A dense file says nothing that the canonical rows do not say. -/
theorem denseBytesOk {db : Db} {file : Bytes} (h : denseBytesFromCf crates db = .ok file) :
    32 ∣ file.length ∧ ∀ (height : UInt64) x, liveSlot file height.toNat = some x →
      canonicalAt db height = some x := by
  unfold denseBytesFromCf at h
  split at h
  · cases h
  · cases h
    refine ⟨by simp,fun height x found => ?_⟩
    rw [liveSlotOutside (by simp)] at found
    cases found
  · rename_i first rest parsed
    dsimp only at h
    split at h
    · cases h
    · rename_i size sized
      obtain ⟨same,slots⟩ := fillDenseOk h
      refine ⟨?_,fun height x found => ?_⟩
      · rw [same,List.length_replicate]
        unfold denseSize at sized
        split at sized
        · cases sized
        · rename_i slots' _
          split at sized
          · cases sized
          · rename_i bytes multiplied
            split at sized
            · cases sized
            · cases sized
              have bounds := usizeOk multiplied
              omega
      · rcases slots height.toNat x found with ⟨other,same,mem⟩ | older
        · rw [UInt64.toNat_inj] at same
          subst same
          have cell := parseCanonicalOk parsed mem
          rw [Std.ExtTreeMap.mem_toList_iff_getElem?_eq_some] at cell
          rw [canonicalAt,cell]
          exact Bytes32.ofBytesBytes x
        · rw [liveSlotEmpty] at older
          cases older

theorem mappedSound {db : Db} {file : Bytes} (dense : denseBytesFromCf crates db = .ok file) (floor : UInt64) :
    (rw ⟨file,true⟩).Sound floor (canonicalAt db) ∧ (ro file).Sound floor (canonicalAt db) := by
  obtain ⟨aligned,slots⟩ := denseBytesOk dense
  refine ⟨⟨⟨rfl,aligned⟩,fun h x _ found => ?_⟩,⟨aligned,fun h x _ found => ?_⟩⟩
  · rw [answerRw rfl] at found
    split at found
    · exact slots h x found
    · cases found
  · unfold answer readHashBytes at found
    dsimp only at found
    by_cases fits : h.toNat * 32 + 32 < 2 ^ 64
    · rw [if_neg (by omega),readLiveSlot fits] at found
      exact slots h x found
    · by_cases outside : h.toNat * 32 ≥ 2 ^ 64
      · rw [if_pos outside] at found
        cases found
      · rw [if_neg outside,readSliceNonzero,if_pos (by omega)] at found
        cases found

theorem ioStepRuns {before path after : String} {file file' : Option Bytes} {v : Unit}
    (h : Runs (ioStep before path after) file (.ok v) file') : file' = file := runsStepOk h

theorem mapFileOk {path : String} {writable : Bool} {file file' : Option Bytes} {bin : CanonicalBin}
    (h : Runs (mapFile path writable) file (.ok bin) file') :
    bin = if writable then rw ⟨file.getD [],true⟩ else ro (file.getD []) := by
  unfold mapFile at h
  cases writable with
  | true =>
    obtain ⟨_,a,one,opening⟩ := runsBindOk h
    obtain ⟨_,b,two,creating⟩ := runsBindOk opening
    rw [runsModifyBind] at creating
    obtain ⟨_,c,three,mapping⟩ := runsBindOk creating
    obtain ⟨_,d,four,last⟩ := runsBindOk mapping
    rw [runsGetBind] at last
    rw [Except.ok.inj (runsPure.mp last).1,ioStepRuns four,ioStepRuns three,ioStepRuns two,ioStepRuns one]
    rfl
  | false =>
    obtain ⟨_,a,one,mapping⟩ := runsBindOk h
    obtain ⟨_,b,two,last⟩ := runsBindOk mapping
    rw [runsGetBind] at last
    rw [Except.ok.inj (runsPure.mp last).1,ioStepRuns two,ioStepRuns one]
    rfl

theorem rebuildFileOk {path : String} {expected : Bytes} {file file' : Option Bytes} {v : Unit}
    (h : Runs (rebuildFile path expected) file (.ok v) file') : file' = some expected := by
  obtain ⟨_,a,one,opening⟩ := runsBindOk h
  obtain ⟨_,b,two,emptied⟩ := runsBindOk opening
  rw [runsModifyBind] at emptied
  obtain ⟨_,c,three,written⟩ := runsBindOk emptied
  rw [runsModifyBind] at written
  exact ioStepRuns written

theorem touchEmptyOk {path : String} {file file' : Option Bytes} {v : Unit}
    (h : Runs (touchEmpty path) file (.ok v) file') : file' = some [] := by
  obtain ⟨_,a,one,touching⟩ := runsBindOk h
  obtain ⟨_,b,two,last⟩ := runsBindOk touching
  exact (runsModify.mp last).2

theorem readFileOk {path : String} {file file' found : Option Bytes}
    (h : Runs (readFile path) file (.ok found) file') : found = file ∧ file' = file := by
  unfold readFile at h
  rw [runsGetBind] at h
  split at h
  · obtain ⟨_,a,one,last⟩ := runsBindOk h
    obtain ⟨hr,rfl⟩ := runsPure.mp last
    exact ⟨Except.ok.inj hr,ioStepRuns one⟩
  · obtain ⟨hr,rfl⟩ := runsPure.mp h
    exact ⟨Except.ok.inj hr,rfl⟩

theorem openSyncedOk {db : Db} {path : String} {writable : Bool} {file file' : Option Bytes}
    {bin : CanonicalBin} (floor : UInt64)
    (h : Runs (openSynced crates db path writable) file (.ok bin) file') :
    bin.Sound floor (canonicalAt db) ∧ (writable = true → bin.writable = true) := by
  obtain ⟨expected,a,one,reading⟩ := runsBindOk h
  obtain ⟨dense,_⟩ := runsLift one
  obtain ⟨sound,soundRo⟩ := mappedSound dense.symm floor
  have disabledSound : ∀ left, (disabled left).Sound floor (canonicalAt db) := fun left =>
    ⟨trivial,fun h x _ found => by cases found⟩
  have mapped : ∀ {before after : Option Bytes}, before.getD [] = expected →
      Runs (mapFile path writable) before (.ok bin) after →
      bin.Sound floor (canonicalAt db) ∧ (writable = true → bin.writable = true) := by
    intro before after same mapping
    rw [mapFileOk mapping,same]
    cases writable with
    | true => exact ⟨sound,fun _ => rfl⟩
    | false => exact ⟨soundRo,by simp⟩
  obtain ⟨found,b,two,comparing⟩ := runsBindOk reading
  obtain ⟨here,rfl⟩ := readFileOk two
  subst here
  split at comparing
  · split at comparing
    · rename_i readOnly
      rw [Except.ok.inj (runsPure.mp comparing).1]
      exact ⟨disabledSound _,fun yes => by simp [yes] at readOnly⟩
    · obtain ⟨_,c,three,mapping⟩ := runsBindOk comparing
      exact mapped (by rw [rebuildFileOk three]; rfl) mapping
  · rename_i same
    split at comparing
    · rename_i fresh
      split at comparing
      · obtain ⟨_,c,three,mapping⟩ := runsBindOk comparing
        exact mapped (by rw [touchEmptyOk three,fresh.1]; rfl) mapping
      · rename_i readOnly
        rw [Except.ok.inj (runsPure.mp comparing).1]
        exact ⟨disabledSound _,fun yes => absurd yes readOnly⟩
    · exact mapped (Decidable.not_not.mp same) comparing

end CanonicalBin

namespace Store
variable {crates : Crates} {s t : Store}

/- A store as opening builds it, before its caches are warmed. -/
structure Booted (config : BlockStoreConfig) (readOnly : Bool) (db : Db) (s : Store) : Prop where
  built : ∃ bin dict tip, s = fresh config readOnly db bin dict tip ∧ loadTip db = .ok tip ∧
    dict = resolveZstdDictionary db config.useCompressionDict config.zstdDictionaryOverride ∧
    bin.Sound (loadFloor db) (canonicalAt db) ∧ (readOnly = false → bin.writable = true)

theorem openFilesOk {config : BlockStoreConfig} {readOnly : Bool} {disk disk' : Disk}
    (h : Runs (openFiles crates config readOnly) disk (.ok s) disk') :
    disk'.db = disk.db ∧ Booted config readOnly disk.db s := by
  obtain ⟨_,a,one,mapping⟩ := runsBindOk h
  have same := runsStepOk one
  subst same
  rw [runsGetBind] at mapping
  obtain ⟨bin,b,two,reading⟩ := runsBindOk mapping
  obtain ⟨file,opening,rfl⟩ := runsZoom two
  obtain ⟨sound,writable⟩ := CanonicalBin.openSyncedOk (loadFloor a.db) opening
  obtain ⟨tip,c,three,last⟩ := runsBindOk reading
  obtain ⟨loaded,rfl⟩ := runsOfExceptOk three
  obtain ⟨hr,rfl⟩ := runsPure.mp last
  exact ⟨rfl,⟨bin,_,tip,Except.ok.inj hr,loaded,rfl,sound,fun no => writable (by simp [no])⟩⟩

theorem warmHeightTouched {h : UInt64} {r : Exit Nat} (run : Runs (warmHeight crates h) s r t) :
    Touched crates s t := by
  refine touchedBind run (fun u r one => touchedAttempt one fun _ => getBlockByHeightTouched)
    fun found u _ later => ?_
  split at later
  · exact touchedBind later (fun v r one => touchedAttempt one fun _ => getRecordByHeightTouched)
      fun _ _ _ last => touchedPure last
  · exact touchedPure later

theorem warmCachesTouched {depth : UInt64} {r : Exit Nat} (h : Runs (warmCaches crates depth) s r t) :
    Touched crates s t := by
  unfold warmCaches at h
  rw [runsGetBind] at h
  split at h
  · exact touchedPure h
  · exact touchedBind h (fun u r one => touchedCollect one fun _ _ _ _ => warmHeightTouched)
      fun _ _ _ last => touchedPure last

theorem warmOk {config : BlockStoreConfig} {disk disk' : Disk} (h : Runs (warm crates config s) disk (.ok t) disk') :
    disk' = disk ∧ Touched crates s t := by
  obtain ⟨script,rest,h⟩ := h
  unfold warm at h
  split at h <;> rename_i w run <;> injection h with hr hw
  · injection hw with ht hs
    cases hr
    exact ⟨ht.symm,warmCachesTouched ⟨script,w.script,run⟩⟩
  · cases hr

theorem openStoreOk {config : BlockStoreConfig} {disk disk' : Disk}
    (h : Runs (openStore crates config) disk (.ok t) disk') :
    disk'.db = disk.db ∧ ∃ s, Booted config false disk.db s ∧ Touched crates s t := by
  obtain ⟨_,a,one,opening⟩ := runsBindOk h
  have same := runsStepOk one
  subst same
  obtain ⟨s,b,two,warming⟩ := runsBindOk opening
  obtain ⟨db,booted⟩ := openFilesOk two
  split at warming
  · obtain ⟨rfl,touched⟩ := warmOk warming
    exact ⟨db,s,booted,touched⟩
  · obtain ⟨hr,rfl⟩ := runsPure.mp warming
    cases hr
    exact ⟨db,t,booted,.refl t⟩

theorem openReadonlyOk {path : String} {disk disk' : Disk}
    (h : Runs (openReadonly crates path) disk (.ok t) disk') :
    disk'.db = disk.db ∧ Booted (.default path) true disk.db t := by
  obtain ⟨_,a,one,opening⟩ := runsBindOk h
  have same := runsStepOk one
  subst same
  exact openFilesOk opening

theorem loadTipRow {db : Db} {head : Option ChainTip} (row : (db .metadata)[metaTip]? = head.map ChainTip.toBytes) :
    loadTip db = .ok head := by
  unfold loadTip
  rw [row]
  cases head with
  | none => rfl
  | some tip =>
    rw [Option.map_some]
    dsimp only
    rw [ChainTip.fromBytesToBytes]
    rfl

theorem bootedIndexed {config : BlockStoreConfig} {readOnly : Bool} {db : Db} {head : Option ChainTip}
    (typed : TypedRows db) (row : (db .metadata)[metaTip]? = head.map ChainTip.toBytes)
    (booted : Booted config readOnly db s) :
    Indexed s ∧ s.db = db ∧ s.tip = head ∧ s.minRetainedHeightCached = loadFloor db ∧
      s.canonicalHeightCache = ∅ ∧ s.readOnly = readOnly := by
  obtain ⟨bin,dict,tip,rfl,loaded,_,sound,writable⟩ := booted.built
  rw [loadTipRow row] at loaded
  cases loaded
  exact ⟨⟨typed,sound,writable,row,rfl⟩,rfl,rfl,rfl,rfl,rfl⟩

theorem cachelessCoherent (empty : s.canonicalHeightCache = ∅) : Coherent s := by
  intro h x _ found
  rw [empty,Std.ExtTreeMap.getElem?_empty] at found
  cases found

end Store
end DigBlockstore
