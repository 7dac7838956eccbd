import DigBlockstore.Sharded

/-! Runs of a sharded cache: its size, the shard of a key, and what it may answer for one. -/
namespace DigBlockstore
open Cache

inductive CacheOp (V : Type) where
  | insert (key : Bytes32) (value : V)
  | getClone (key : Bytes32)
  | contains (key : Bytes32)
  | remove (key : Bytes32)

namespace CacheOp
variable {V : Type}

def apply (cache : ShardedLruCache V) : CacheOp V → ShardedLruCache V
  | .insert key value => cache.insert key value
  | .getClone key => (cache.getClone key).2
  | .contains _ => cache
  | .remove key => cache.remove key

/- The last value inserted for each key and not removed since. -/
def holds (held : Bytes32 → Option V) : CacheOp V → Bytes32 → Option V
  | .insert key value => Function.update held key (some value)
  | .remove key => Function.update held key none
  | .getClone _ | .contains _ => held

end CacheOp

namespace ShardedLruCache
variable {V : Type} {cache : ShardedLruCache V}

def ran (cache : ShardedLruCache V) (ops : List (CacheOp V)) : ShardedLruCache V := ops.foldl CacheOp.apply cache

def lastHeld (ops : List (CacheOp V)) : Bytes32 → Option V := ops.foldl CacheOp.holds fun _ => none

def entryCount (cache : ShardedLruCache V) : Nat := ∑ i, (cache.shards i).entries.length

section Size

theorem touchCapacity (lru : Lru Bytes32 V) (key : Bytes32) : (lru.touch key).capacity = lru.capacity := by
  unfold Lru.touch
  split <;> rfl

structure Sized (shardCount perShard : Nat) (cache : ShardedLruCache V) : Prop where
  count : cache.numShards = shardCount
  each : ∀ i, (cache.shards i).capacity = perShard

theorem Sized.onShard {shardCount perShard : Nat} (sized : Sized shardCount perShard cache) {key : Bytes32}
    {f : Lru Bytes32 V → Lru Bytes32 V} (keeps : ∀ lru, (f lru).capacity = lru.capacity) :
    Sized shardCount perShard (cache.onShard key f) where
  count := sized.count
  each := by
    have each : ∀ i : Fin cache.numShards, (Function.update cache.shards (cache.shardIndex key)
        (f (cache.shards (cache.shardIndex key))) i).capacity = perShard := fun i => by
      rw [Function.update_apply]
      split
      · rw [keeps]
        exact sized.each _
      · exact sized.each i
    exact each

theorem Sized.apply {shardCount perShard : Nat} (sized : Sized shardCount perShard cache) (op : CacheOp V) :
    Sized shardCount perShard (op.apply cache) := by
  cases op with
  | insert key value => exact @Sized.onShard _ _ _ _ sized key (·.put key value) fun _ => rfl
  | getClone key => exact sized.onShard fun lru => touchCapacity lru key
  | contains key => exact sized
  | remove key => exact @Sized.onShard _ _ _ _ sized key (·.pop key) fun _ => rfl

theorem Sized.ran {shardCount perShard : Nat} (sized : Sized shardCount perShard cache) (ops : List (CacheOp V)) :
    Sized shardCount perShard (cache.ran ops) := by
  induction ops generalizing cache with
  | nil => exact sized
  | cons op rest ih => exact ih (sized.apply op)

theorem Sized.entryCount {shardCount perShard : Nat} (sized : Sized shardCount perShard cache) :
    cache.entryCount ≤ shardCount * perShard := by
  have each : ∀ i ∈ Finset.univ, (cache.shards i).entries.length ≤ perShard := fun i _ => by
    rw [← sized.each i]
    exact (cache.shards i).bounded
  calc cache.entryCount
    _ ≤ (Finset.univ : Finset (Fin cache.numShards)).card • perShard := Finset.sum_le_card_nsmul _ _ _ each
    _ = shardCount * perShard := by rw [Finset.card_univ,Fintype.card_fin,sized.count,smul_eq_mul]

theorem shareBound (totalCapacity shardCount : Nat) :
    shardCount * max (totalCapacity / shardCount) 1 ≤ max totalCapacity shardCount := by
  rcases Nat.le_total (totalCapacity / shardCount) 1 with small | big
  · rw [max_eq_right small,Nat.mul_one]
    exact le_max_right ..
  · rw [max_eq_left big]
    exact le_max_of_le_left (Nat.mul_div_le ..)

end Size

section Keys

theorem maskRemainder {n : Nat} (power : isPowerOfTwo n = true) (b : Nat) : b &&& (n - 1) = b % n := by
  unfold isPowerOfTwo at power
  rw [Bool.and_eq_true,decide_eq_true_iff,decide_eq_true_iff] at power
  obtain ⟨k,rfl⟩ := (Nat.and_sub_one_eq_zero_iff_isPowerOfTwo (Nat.ne_of_gt power.1)).mp power.2
  exact Nat.and_two_pow_sub_one_eq_mod b k

theorem shardIndexMod (cache : ShardedLruCache V) (key : Bytes32) :
    (cache.shardIndex key).val = (key.bytes.headD 0).toNat % cache.numShards := by
  change shardNumber cache.numShards key = _
  unfold shardNumber
  dsimp only
  split
  · exact maskRemainder ‹_› _
  · rfl

theorem insertElsewhere (key : Bytes32) (value : V) {i : Fin cache.numShards} (apart : i ≠ cache.shardIndex key) :
    (cache.insert key value).shards i = cache.shards i := Function.update_of_ne apart ..

end Keys

/- Every entry is the last inserted for its key. -/
def Faithful (cache : ShardedLruCache V) (held : Bytes32 → Option V) : Prop :=
  ∀ key value, cache.peek key = some value → held key = some value

theorem Faithful.apply {held : Bytes32 → Option V} (faithful : Faithful cache held) (op : CacheOp V) :
    Faithful (op.apply cache) (op.holds held) := by
  intro key value found
  cases op with
  | insert key' value' =>
    rcases peekInsert found with ⟨rfl,rfl⟩ | ⟨apart,older⟩
    · exact Function.update_self ..
    · exact (Function.update_of_ne apart ..).trans (faithful key value older)
  | getClone key' =>
    rw [CacheOp.apply,peekGetClone] at found
    exact faithful key value found
  | contains key' => exact faithful key value found
  | remove key' =>
    rw [CacheOp.apply,peekRemove] at found
    split at found
    · cases found
    · rename_i apart
      exact (Function.update_of_ne apart ..).trans (faithful key value found)

theorem Faithful.ran {held : Bytes32 → Option V} (faithful : Faithful cache held) (ops : List (CacheOp V)) :
    Faithful (cache.ran ops) (ops.foldl CacheOp.holds held) := by
  induction ops generalizing cache held with
  | nil => exact faithful
  | cons op rest ih => exact ih (faithful.apply op)

def made (totalCapacity shardCount : Nat) (ops : List (CacheOp V)) : ShardedLruCache V :=
  (new totalCapacity shardCount).ran ops

/- After any run: each key has the shard its first byte gives, the entries are no more than the capacity or the number
of shards, an insertion leaves the other shards alone, and a hit is the last value inserted and not removed. -/
theorem shardsHold (totalCapacity : Nat) {shardCount : Nat} (positive : 1 ≤ shardCount) (ops : List (CacheOp V)) :
    (made totalCapacity shardCount ops).numShards = shardCount ∧
    (∀ key, ((made totalCapacity shardCount ops).shardIndex key).val = (key.bytes.headD 0).toNat % shardCount) ∧
    (made totalCapacity shardCount ops).entryCount ≤ max totalCapacity shardCount ∧
    (∀ key value i, i ≠ (made totalCapacity shardCount ops).shardIndex key →
      ((made totalCapacity shardCount ops).insert key value).shards i = (made totalCapacity shardCount ops).shards i) ∧
    ∀ key value, ((made totalCapacity shardCount ops).getClone key).1 = some value → lastHeld ops key = some value := by
  have start : Sized shardCount (max (totalCapacity / shardCount) 1) (new totalCapacity shardCount : ShardedLruCache V) := by
    refine ⟨max_eq_left positive,fun _ => ?_⟩
    simp only [new,Lru.new,max_eq_left positive]
  have sized : Sized shardCount _ (made totalCapacity shardCount ops) := start.ran ops
  refine ⟨sized.count,fun key => ?_,sized.entryCount.trans (shareBound ..),fun key value i apart => insertElsewhere key value apart,?_⟩
  · rw [shardIndexMod,sized.count]
  · have empty : Faithful (new totalCapacity shardCount : ShardedLruCache V) fun _ => none := fun key value found => by
      rw [peekNew] at found
      cases found
    exact empty.ran ops

def keyOf (first : UInt8) : Bytes32 := ⟨first :: List.replicate 31 0,rfl⟩

/- Six keys for three shards of one entry, two to a shard. -/
def crowd : List (CacheOp Nat) :=
  [.insert (keyOf 0) 10,.insert (keyOf 1) 11,.insert (keyOf 2) 12,.insert (keyOf 3) 13,.insert (keyOf 4) 14,
    .insert (keyOf 5) 15,.getClone (keyOf 4),.remove (keyOf 5)]

theorem shardsHoldSample : (made 4 3 crowd).numShards = 3 ∧ ((made 4 3 crowd).shardIndex (keyOf 4)).val = 1 ∧
    (made 4 3 crowd).entryCount ≤ 4 ∧ ((made 4 3 crowd).getClone (keyOf 1)).1 = none ∧
    ((made 4 3 crowd).getClone (keyOf 4)).1 = some 14 ∧ lastHeld crowd (keyOf 4) = some 14 := by
  obtain ⟨count,shard,few,_,faithful⟩ := shardsHold 4 (by decide : 1 ≤ 3) crowd
  have found : ((made 4 3 crowd).getClone (keyOf 4)).1 = some 14 := by decide +kernel
  exact ⟨count,(shard (keyOf 4)).trans (by decide),few,by decide +kernel,found,faithful _ _ found⟩

end ShardedLruCache

end DigBlockstore
