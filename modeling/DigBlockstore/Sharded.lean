import DigBlockstore.Types
import DigBlockstore.Library.Lru

/-! The sharded caches: the first byte of the hash picks the shard, each shard is an
LRU of an equal part of the capacity. -/
namespace DigBlockstore
open Cache

structure ShardedLruCache (V : Type) where
  numShards : Nat
  positive : 0 < numShards
  shards : Fin numShards → Lru Bytes32 V

namespace ShardedLruCache
variable {V : Type}

def new (totalCapacity numShards : Nat) : ShardedLruCache V where
  numShards := max numShards 1
  positive := by omega
  shards := fun _ => Lru.new (max (totalCapacity / max numShards 1) 1) (by omega)

def isPowerOfTwo (n : Nat) : Bool := 0 < n && n &&& (n - 1) = 0

/- `b & (num_shards - 1)` for a power of two, `b % num_shards` otherwise. -/
def shardNumber (numShards : Nat) (key : Bytes32) : Nat :=
  let b := (key.bytes.headD 0).toNat
  if isPowerOfTwo numShards then b &&& (numShards - 1) else b % numShards

theorem shardNumberLt {numShards : Nat} (positive : 0 < numShards) (key : Bytes32) :
    shardNumber numShards key < numShards := by
  unfold shardNumber
  dsimp only
  split
  · have := Nat.and_le_right (n := (key.bytes.headD 0).toNat) (m := numShards - 1)
    omega
  · exact Nat.mod_lt _ positive

def shardIndex (cache : ShardedLruCache V) (key : Bytes32) : Fin cache.numShards :=
  ⟨shardNumber cache.numShards key,shardNumberLt cache.positive key⟩

def onShard (cache : ShardedLruCache V) (key : Bytes32) (f : Lru Bytes32 V → Lru Bytes32 V) :
    ShardedLruCache V :=
  {cache with shards := Function.update cache.shards (cache.shardIndex key)
                          (f (cache.shards (cache.shardIndex key)))}

def peek (cache : ShardedLruCache V) (key : Bytes32) : Option V :=
  (cache.shards (cache.shardIndex key)).peek key

def contains (cache : ShardedLruCache V) (key : Bytes32) : Bool := (cache.peek key).isSome

/- `get_clone`: the value found, and the cache with its entry promoted. -/
def getClone (cache : ShardedLruCache V) (key : Bytes32) : Option V × ShardedLruCache V :=
  (cache.peek key,cache.onShard key (·.touch key))

def insert (cache : ShardedLruCache V) (key : Bytes32) (value : V) : ShardedLruCache V :=
  cache.onShard key (·.put key value)

def remove (cache : ShardedLruCache V) (key : Bytes32) : ShardedLruCache V :=
  cache.onShard key (·.pop key)

@[simp] theorem peekNew (totalCapacity numShards : Nat) (key : Bytes32) :
    (new totalCapacity numShards : ShardedLruCache V).peek key = none := rfl

theorem peekOnShard (cache : ShardedLruCache V) (key other : Bytes32)
    (f : Lru Bytes32 V → Lru Bytes32 V) :
    (cache.onShard key f).peek other =
      if cache.shardIndex other = cache.shardIndex key then (f (cache.shards (cache.shardIndex key))).peek other
      else cache.peek other := by
  change (Function.update cache.shards (cache.shardIndex key) _ (cache.shardIndex other)).peek other = _
  split
  · rename_i same
    rw [same,Function.update_self]
  · rename_i apart
    rw [Function.update_of_ne apart]
    rfl

@[simp] theorem peekGetClone (cache : ShardedLruCache V) (key other : Bytes32) :
    (cache.getClone key).2.peek other = cache.peek other := by
  simp only [getClone,peekOnShard,Lru.peekTouch]
  split
  · rename_i same
    rw [peek,same]
  · rfl

theorem peekInsert {cache : ShardedLruCache V} {key other : Bytes32} {value found : V}
    (h : (cache.insert key value).peek other = some found) :
    other = key ∧ found = value ∨ other ≠ key ∧ cache.peek other = some found := by
  rw [insert,peekOnShard] at h
  split at h
  · rename_i same
    rcases Lru.peekPut h with hit | ⟨apart,older⟩
    · exact .inl hit
    · exact .inr ⟨apart,by rw [peek,same]; exact older⟩
  · rename_i apart
    refine .inr ⟨?_,h⟩
    rintro rfl
    exact apart rfl

@[simp] theorem peekInsertSelf (cache : ShardedLruCache V) (key : Bytes32) (value : V) :
    (cache.insert key value).peek key = some value := by
  rw [insert,peekOnShard,if_pos rfl]
  exact Lru.peekPutSelf _ key value

@[simp] theorem peekRemove (cache : ShardedLruCache V) (key other : Bytes32) :
    (cache.remove key).peek other = if other = key then none else cache.peek other := by
  rw [remove,peekOnShard]
  split
  · rename_i same
    rw [Lru.peekPop,peek,same]
  · rename_i apart
    rw [if_neg]
    rintro rfl
    exact apart rfl

end ShardedLruCache

end DigBlockstore
