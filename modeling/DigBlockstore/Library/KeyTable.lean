import DigBlockstore.Library.Bytes

/-! Tables whose keys encode an ordered type in byte order: their rows come in its order. -/
namespace DigBlockstore.ByteCodec
open Std (ExtTreeMap)

theorem beNatCons (b : UInt8) (rest : Bytes) : beNat (b :: rest) = b.toNat * 256 ^ rest.length + beNat rest := by
  have split : ∀ xs ys : Bytes, leNat (xs ++ ys) = leNat xs + 256 ^ xs.length * leNat ys := by
    intro xs ys
    induction xs with
    | nil => simp [leNat]
    | cons x xs ih =>
      rw [List.cons_append,leNat,leNat,ih,List.length_cons,Nat.pow_succ]
      ring
  rw [beNat,beNat,List.reverse_cons,split,List.length_reverse]
  simp only [leNat]
  ring

theorem compareBeNat {a b : Bytes} (same : a.length = b.length) : compare a b = compare (beNat a) (beNat b) := by
  induction a generalizing b with
  | nil =>
    cases b with
    | nil => rfl
    | cons b rest => simp at same
  | cons x xs ih =>
    cases b with
    | nil => simp at same
    | cons y ys =>
      have length : xs.length = ys.length := by simpa using same
      have boundX : beNat xs < 256 ^ ys.length := by
        have h := leNatLt xs.reverse
        rwa [List.length_reverse,length] at h
      have boundY : beNat ys < 256 ^ ys.length := by
        have h := leNatLt ys.reverse
        rwa [List.length_reverse] at h
      change List.compareLex compare (x :: xs) (y :: ys) = _
      rw [List.compareLex_cons_cons,beNatCons,beNatCons,length]
      have head : compare x y = compare x.toNat y.toNat := by
        change compareOfLessAndEq x y = compareOfLessAndEq x.toNat y.toNat
        simp only [compareOfLessAndEq,UInt8.lt_iff_toNat_lt,UInt8.toNat_inj]
      change (compare x y).then (compare xs ys) = _
      rw [ih length,head]
      rcases Nat.lt_trichotomy x.toNat y.toNat with lt | eq | gt
      · rw [Nat.compare_eq_lt.mpr lt]
        have bigger : x.toNat * 256 ^ ys.length + beNat xs < y.toNat * 256 ^ ys.length + beNat ys := by nlinarith
        exact (Nat.compare_eq_lt.mpr bigger).symm
      · rw [eq,Nat.compare_eq_eq.mpr rfl]
        change compare (beNat xs) (beNat ys) = _
        rw [Nat.compare_eq_ite_lt,Nat.compare_eq_ite_lt]
        simp only [Nat.add_lt_add_iff_left]
      · rw [Nat.compare_eq_gt.mpr gt]
        have bigger : y.toNat * 256 ^ ys.length + beNat ys < x.toNat * 256 ^ ys.length + beNat xs := by nlinarith
        exact (Nat.compare_eq_gt.mpr bigger).symm

/- A key encoding that byte order follows. -/
structure Ordered {K : Type} [LT K] (encode : K → Bytes) : Prop where
  below : ∀ a b, compare (encode a) (encode b) = .lt ↔ a < b
  injective : Function.Injective encode

theorem Ordered.rows {K V : Type} [LT K] {encode : K → Bytes} (ordered : Ordered encode)
    (table : ExtTreeMap Bytes V compare) (keys : ∀ key ∈ table, ∃ k, key = encode k) :
    ∃ rows : List (K × V), table.toList = rows.map (Prod.map encode id) ∧
      rows.Pairwise (fun a b => a.1 < b.1) ∧ ∀ k v, (k,v) ∈ rows ↔ table[encode k]? = some v := by
  have typed : ∀ row ∈ table.toList, ∃ k, row.1 = encode k := by
    intro row mem
    have found := ExtTreeMap.mem_toList_iff_getElem?_eq_some.mp mem
    exact keys row.1 (ExtTreeMap.mem_iff_isSome_getElem?.mpr (by rw [found]; rfl))
  obtain ⟨rows,same⟩ : ∃ rows : List (K × V), table.toList = rows.map (Prod.map encode id) := by
    generalize table.toList = list at typed
    induction list with
    | nil => exact ⟨[],rfl⟩
    | cons row rest ih =>
      obtain ⟨rows,later⟩ := ih fun r mem => typed r (List.mem_cons_of_mem _ mem)
      obtain ⟨k,here⟩ := typed row (by simp)
      exact ⟨(k,row.2) :: rows,by rw [List.map_cons,later,Prod.map,id,← here]⟩
  refine ⟨rows,same,?_,fun k v => ?_⟩
  · have sorted := table.ordered_keys_toList
    rw [same,List.pairwise_map] at sorted
    exact sorted.imp fun lt => (ordered.below _ _).mp lt
  · rw [← ExtTreeMap.mem_toList_iff_getElem?_eq_some,same,List.mem_map]
    constructor
    · exact fun mem => ⟨(k,v),mem,rfl⟩
    · rintro ⟨⟨k',v'⟩,mem,eq⟩
      injection eq with hk hv
      rw [ordered.injective hk] at mem
      cases hv
      exact mem

end DigBlockstore.ByteCodec
