import DigBlockstore.WriteEffects

/-! The index invariant: typed canonical rows, a `canonical.bin` that agrees with them
above the floor, and the tip and floor in memory equal to their metadata rows. Apart from
it, coherence of the height cache, which some writers break. -/
namespace DigBlockstore
open ByteCodec Faulty ColumnStore

def TypedRows (db : Db) : Prop :=
  ∀ k v : Bytes, (db .canonical)[k]? = some v → ∃ h x, k = heightKey h ∧ v = hashKey x

theorem canonicalRowIff {db : Db} (typed : TypedRows db) (h : UInt64) (x : Bytes32) :
    canonicalAt db h = some x ↔ (db .canonical)[heightKey h]? = some (hashKey x) := by
  unfold canonicalAt
  constructor
  · intro found
    obtain ⟨v,row,decoded⟩ := Option.bind_eq_some_iff.mp found
    obtain ⟨_,y,_,rfl⟩ := typed _ _ row
    rw [hashKey,Bytes32.ofBytesBytes] at decoded
    cases decoded
    exact row
  · intro row
    rw [row]
    exact Bytes32.ofBytesBytes x

theorem canonicalNoneIff {db : Db} (typed : TypedRows db) (h : UInt64) :
    canonicalAt db h = none ↔ (db .canonical)[heightKey h]? = none := by
  constructor
  · intro none'
    cases row : (db .canonical)[heightKey h]? with
    | none => rfl
    | some v =>
      obtain ⟨_,y,_,rfl⟩ := typed _ _ row
      have some' := (canonicalRowIff typed h y).mpr row
      rw [none'] at some'
      cases some'
  · intro row
    rw [canonicalAt,row]
    rfl

theorem canonicalAtCommit (batch : List Write) (db : Db) (h : UInt64) :
    canonicalAt (applyAll batch db) h =
      match lastEffect batch .canonical (heightKey h) with
      | none => canonicalAt db h
      | some left => left.bind Bytes32.ofBytes? := by
  unfold canonicalAt
  rw [getApplyAll]
  cases lastEffect batch .canonical (heightKey h) <;> rfl

def TypedWrite : Write → Prop
  | .put .canonical k v => ∃ h x, k = heightKey h ∧ v = hashKey x
  | _ => True

theorem typedCommit {batch : List Write} {db : Db} (typed : TypedRows db)
    (writes : ∀ write ∈ batch, TypedWrite write) : TypedRows (applyAll batch db) := by
  intro k v row
  rw [getApplyAll] at row
  cases last : lastEffect batch .canonical k with
  | none =>
    rw [last] at row
    exact typed k v row
  | some left =>
    rw [last] at row
    cases row
    obtain ⟨write,mem,effect⟩ := lastEffectMem last
    have shape := writes write mem
    cases write with
    | put c k' v' =>
      rw [effectPut] at effect
      split at effect
      · rename_i same
        obtain ⟨rfl,rfl⟩ := same
        cases effect
        exact shape
      · cases effect
    | delete c k' =>
      rw [effectDelete] at effect
      split at effect <;> cases effect

namespace Store
variable {crates : Crates} {s t u : Store}

structure Indexed (s : Store) : Prop where
  typed : TypedRows s.db
  bin : s.canonicalBin.Sound s.minRetainedHeightCached (canonicalAt s.db)
  writable : s.readOnly = false → s.canonicalBin.writable = true
  tipRow : (s.db .metadata)[metaTip]? = s.tip.map ChainTip.toBytes
  floorRow : loadFloor s.db = s.minRetainedHeightCached

/- Every cached height at or above the floor holds its canonical row. -/
def Coherent (s : Store) : Prop :=
  ∀ h x, s.minRetainedHeightCached ≤ h → s.canonicalHeightCache[h]? = some x → canonicalAt s.db h = some x

theorem Indexed.stored (indexed : Indexed s) {h : UInt64} (low : s.minRetainedHeightCached ≤ h) :
    s.stored h = canonicalAt s.db h := by
  unfold Store.stored
  cases found : s.canonicalBin.answer h with
  | none => rfl
  | some x => exact (indexed.bin.agrees h x low found).symm

theorem lookupCoherent (indexed : Indexed s) (coherent : Coherent s) (h : UInt64) :
    s.lookup h = if h < s.minRetainedHeightCached then none else canonicalAt s.db h := by
  unfold lookup
  split
  · rfl
  · rename_i above
    have low : s.minRetainedHeightCached ≤ h := UInt64.not_lt.mp above
    rw [indexed.stored low]
    cases cached : s.canonicalHeightCache[h]? with
    | none => rfl
    | some x => exact (coherent h x low cached).symm

/- Nothing the index invariant reads has changed, and the height cache holds no more than
it did but for rows. -/
structure Quiet (s t : Store) : Prop where
  canonical : t.db .canonical = s.db .canonical
  tipRow : (t.db .metadata)[metaTip]? = (s.db .metadata)[metaTip]?
  floorRow : (t.db .metadata)[metaMinHeight]? = (s.db .metadata)[metaMinHeight]?
  bin : t.canonicalBin = s.canonicalBin
  tip : t.tip = s.tip
  floor : t.minRetainedHeightCached = s.minRetainedHeightCached
  readOnly : t.readOnly = s.readOnly
  capacity : t.canonicalHeightCacheCapacity = s.canonicalHeightCacheCapacity
  heights : ∀ h x, s.minRetainedHeightCached ≤ h → t.canonicalHeightCache[h]? = some x →
    s.canonicalHeightCache[h]? = some x ∨ s.stored h = some x

theorem loadFloorCongr {db db' : Db} (same : (db' .metadata)[metaMinHeight]? = (db .metadata)[metaMinHeight]?) :
    loadFloor db' = loadFloor db := by
  unfold loadFloor readMinRetainedHeight
  rw [same]

theorem canonicalAtCongr {db db' : Db} (same : db' .canonical = db .canonical) (h : UInt64) :
    canonicalAt db' h = canonicalAt db h := by
  unfold canonicalAt
  rw [same]

namespace Quiet

theorem refl (s : Store) : Quiet s s :=
  ⟨rfl,rfl,rfl,rfl,rfl,rfl,rfl,rfl,fun _ _ _ found => .inl found⟩

theorem canonicalAt (quiet : Quiet s t) (h : UInt64) :
    DigBlockstore.canonicalAt t.db h = DigBlockstore.canonicalAt s.db h := canonicalAtCongr quiet.canonical h

theorem stored (quiet : Quiet s t) (h : UInt64) : t.stored h = s.stored h := by
  rw [Store.stored,quiet.bin,quiet.canonicalAt,Store.stored]

theorem trans (first : Quiet s t) (later : Quiet t u) : Quiet s u where
  canonical := later.canonical.trans first.canonical
  tipRow := later.tipRow.trans first.tipRow
  floorRow := later.floorRow.trans first.floorRow
  bin := later.bin.trans first.bin
  tip := later.tip.trans first.tip
  floor := later.floor.trans first.floor
  readOnly := later.readOnly.trans first.readOnly
  capacity := later.capacity.trans first.capacity
  heights h x low found := by
    rcases later.heights h x (by rwa [first.floor]) found with cached | row
    · exact first.heights h x low cached
    · rw [first.stored] at row
      exact .inr row

theorem indexed (quiet : Quiet s t) (indexed : Indexed s) : Indexed t where
  typed k v row := indexed.typed k v (by rwa [quiet.canonical] at row)
  bin := by
    rw [quiet.bin,quiet.floor]
    exact indexed.bin.raise (UInt64.le_refl _) fun h _ => quiet.canonicalAt h
  writable writes := by
    rw [quiet.bin]
    exact indexed.writable (by rwa [quiet.readOnly] at writes)
  tipRow := by rw [quiet.tipRow,quiet.tip,indexed.tipRow]
  floorRow := by rw [loadFloorCongr quiet.floorRow,quiet.floor,indexed.floorRow]

theorem coherent (quiet : Quiet s t) (indexed : Indexed s) (coherent : Coherent s) : Coherent t := by
  intro h x low cached
  rw [quiet.floor] at low
  rw [quiet.canonicalAt]
  rcases quiet.heights h x low cached with older | row
  · exact coherent h x low older
  · rwa [indexed.stored low] at row

theorem lookup (quiet : Quiet s t) (indexed : Indexed s) (coherent : Coherent s) (h : UInt64) :
    t.lookup h = s.lookup h := by
  rw [lookupCoherent (quiet.indexed indexed) (quiet.coherent indexed coherent),
    lookupCoherent indexed coherent,quiet.floor,quiet.canonicalAt]

end Quiet

theorem Touched.quiet (touched : Touched crates s t) : Quiet s t where
  canonical := by rw [touched.db]
  tipRow := by rw [touched.db]
  floorRow := by rw [touched.db]
  bin := touched.bin
  tip := touched.tip
  floor := touched.floor
  readOnly := touched.readOnly
  capacity := touched.capacity
  heights h x _ found := (touched.heights h x found).imp_right And.right

theorem Trained.quiet (trained : Trained s t) : Quiet s t where
  canonical := trained.column (by simp)
  tipRow := trained.rows _ _ (by decide)
  floorRow := trained.rows _ _ (by decide)
  bin := by rw [trained.rest]
  tip := by rw [trained.rest]
  floor := by rw [trained.rest]
  readOnly := by rw [trained.rest]
  capacity := by rw [trained.rest]
  heights h x _ found := by
    rw [trained.rest] at found
    exact .inl found

/- A call that moves the index: the rows, tip and floor it leaves, and the heights at which
the height cache may still hold what it held before. -/
structure Shift (s t : Store) (index : UInt64 → Option Bytes32) (head : Option ChainTip) (base : UInt64)
    (kept : UInt64 → Prop) : Prop where
  indexed : Indexed t
  rows : canonicalAt t.db = index
  tip : t.tip = head
  floor : t.minRetainedHeightCached = base
  readOnly : t.readOnly = s.readOnly
  capacity : t.canonicalHeightCacheCapacity = s.canonicalHeightCacheCapacity
  heights : ∀ h x, base ≤ h → t.canonicalHeightCache[h]? = some x →
    index h = some x ∨ s.canonicalHeightCache[h]? = some x ∧ kept h

namespace Shift
variable {index : UInt64 → Option Bytes32} {head : Option ChainTip} {base : UInt64} {kept : UInt64 → Prop}

theorem ofQuiet (quiet : Quiet s t) (indexed : Indexed s) :
    Shift s t (canonicalAt s.db) s.tip s.minRetainedHeightCached fun _ => True where
  indexed := quiet.indexed indexed
  rows := funext quiet.canonicalAt
  tip := quiet.tip
  floor := quiet.floor
  readOnly := quiet.readOnly
  capacity := quiet.capacity
  heights h x low found := by
    rcases quiet.heights h x low found with older | row
    · exact .inr ⟨older,trivial⟩
    · exact .inl (by rwa [indexed.stored low] at row)

theorem andQuiet (shift : Shift s t index head base kept) (quiet : Quiet t u) :
    Shift s u index head base kept where
  indexed := quiet.indexed shift.indexed
  rows := (funext quiet.canonicalAt).trans shift.rows
  tip := quiet.tip.trans shift.tip
  floor := quiet.floor.trans shift.floor
  readOnly := quiet.readOnly.trans shift.readOnly
  capacity := quiet.capacity.trans shift.capacity
  heights h x low found := by
    have low' : t.minRetainedHeightCached ≤ h := by rwa [shift.floor]
    rcases quiet.heights h x low' found with older | row
    · exact shift.heights h x low older
    · rw [shift.indexed.stored low',shift.rows] at row
      exact .inl row

/- Reads before the move may have cached rows of the old index, which must still hold where
the move keeps them. -/
theorem afterQuiet (quiet : Quiet s t) (indexed : Indexed s) (shift : Shift t u index head base kept)
    (above : s.minRetainedHeightCached ≤ base) (same : ∀ h, base ≤ h → kept h → index h = canonicalAt s.db h) :
    Shift s u index head base kept where
  indexed := shift.indexed
  rows := shift.rows
  tip := shift.tip
  floor := shift.floor
  readOnly := shift.readOnly.trans quiet.readOnly
  capacity := shift.capacity.trans quiet.capacity
  heights h x low found := by
    rcases shift.heights h x low found with row | ⟨older,keep⟩
    · exact .inl row
    · have low' := UInt64.le_trans above low
      rcases quiet.heights h x low' older with first | row
      · exact .inr ⟨first,keep⟩
      · rw [indexed.stored low'] at row
        exact .inl (by rw [same h low keep]; exact row)

theorem coherent (shift : Shift s t index head base kept) (coherent : Coherent s)
    (above : s.minRetainedHeightCached ≤ base)
    (same : ∀ h x, base ≤ h → kept h → s.canonicalHeightCache[h]? = some x →
      canonicalAt s.db h = some x → index h = some x) : Coherent t := by
  intro h x low cached
  rw [shift.floor] at low
  rw [shift.rows]
  rcases shift.heights h x low cached with row | ⟨older,keep⟩
  · exact row
  · exact same h x low keep older (coherent h x (UInt64.le_trans above low) older)

end Shift

end Store
end DigBlockstore
