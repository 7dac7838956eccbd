import Mathlib.Data.Finset.Max
import Mathlib.Data.Finset.Card

/-! The `k` greatest elements of a finite set. Taking them early, between two unions, changes
nothing, and a least element drops out first. -/
namespace DigBlockstore.Greatest
variable {α : Type} [LinearOrder α] {A B : Finset α} {a b : α} {k : Nat}

def above (A : Finset α) (a : α) : Finset α := A.filter (a < ·)

/- The elements with fewer than `k` above them. -/
def greatest (k : Nat) (A : Finset α) : Finset α := A.filter fun a => (above A a).card < k

theorem memAbove : b ∈ above A a ↔ b ∈ A ∧ a < b := Finset.mem_filter

theorem memGreatest : a ∈ greatest k A ↔ a ∈ A ∧ (above A a).card < k := Finset.mem_filter

theorem greatestSubset : greatest k A ⊆ A := Finset.filter_subset ..

theorem aboveMono (sub : A ⊆ B) : above A a ⊆ above B a := Finset.filter_subset_filter _ sub

theorem aboveBelow (below : a < b) : above A b ⊆ above A a := fun _ mem =>
  memAbove.mpr ⟨(memAbove.mp mem).1,below.trans (memAbove.mp mem).2⟩

theorem greatestInsertLeast (least : ∀ b ∈ A, a < b) :
    greatest k (insert a A) = if A.card < k then insert a (greatest k A) else greatest k A := by
  have self : above (insert a A) a = A := by
    ext b
    rw [memAbove,Finset.mem_insert]
    exact ⟨fun ⟨mem,up⟩ => mem.resolve_left up.ne',fun mem => ⟨.inr mem,least b mem⟩⟩
  have others : ∀ b ∈ A, above (insert a A) b = above A b := fun b mem => by
    ext c
    rw [memAbove,memAbove,Finset.mem_insert]
    exact ⟨fun ⟨held,up⟩ => ⟨held.resolve_left fun same => (least b mem).asymm (same ▸ up),up⟩,
      fun ⟨held,up⟩ => ⟨.inr held,up⟩⟩
  have older : (A.filter fun b => (above (insert a A) b).card < k) = greatest k A :=
    Finset.filter_congr fun b mem => by rw [others b mem]
  rw [greatest,Finset.filter_insert,self,older]

theorem cardGreatest (k : Nat) (A : Finset α) : (greatest k A).card = min k A.card := by
  induction A using Finset.induction_on_min with
  | empty => simp [greatest]
  | insert a A least ih =>
    have fresh : a ∉ A := fun mem => lt_irrefl a (least a mem)
    rw [greatestInsertLeast least,Finset.card_insert_of_notMem fresh]
    split
    · rw [Finset.card_insert_of_notMem fun mem => fresh (greatestSubset mem),ih]
      omega
    · rw [ih]
      omega

theorem greatestOfLe (room : A.card ≤ k) : greatest k A = A :=
  Finset.eq_of_subset_of_card_le greatestSubset (by rw [cardGreatest]; omega)

theorem greatestZero : greatest 0 A = ∅ := Finset.card_eq_zero.mp (by rw [cardGreatest]; omega)

theorem aboveInsertBelow (below : b < a) : above (insert b A) a = above A a := by
  ext c
  rw [memAbove,memAbove,Finset.mem_insert]
  exact ⟨fun ⟨held,up⟩ => ⟨held.resolve_left fun same => (below.trans up).ne' same,up⟩,fun ⟨held,up⟩ => ⟨.inr held,up⟩⟩

theorem crowdedGreatest : k ≤ (above (greatest k A) a).card ↔ k ≤ (above A a).card := by
  refine ⟨fun full => full.trans (Finset.card_le_card (aboveMono greatestSubset)),fun full => ?_⟩
  have all : above (greatest k A) a = greatest k A := Finset.filter_true_of_mem fun b mem => by
    by_contra low
    have more := Finset.card_le_card (fun c high => memAbove.mpr ⟨(memAbove.mp high).1,(not_lt.mp low).trans_lt
      (memAbove.mp high).2⟩ : above A a ⊆ above A b)
    exact absurd (memGreatest.mp mem).2 (Nat.not_lt_of_le (full.trans more))
  rw [all,cardGreatest]
  have more := Finset.card_le_card (Finset.filter_subset (a < ·) A)
  exact Nat.le_of_eq (Nat.min_eq_left (full.trans more)).symm

theorem aboveGreatest (few : (above (greatest k A) a).card < k) : above A a ⊆ greatest k A := by
  have room : (above A a).card < k := by
    by_contra full
    have sub : greatest k (above A a) ⊆ above (greatest k A) a := fun b mem => by
      obtain ⟨held,low⟩ := memGreatest.mp mem
      obtain ⟨held,up⟩ := memAbove.mp held
      refine memAbove.mpr ⟨memGreatest.mpr ⟨held,lt_of_le_of_lt (Finset.card_le_card fun c high => ?_) low⟩,up⟩
      obtain ⟨inside,higher⟩ := memAbove.mp high
      exact memAbove.mpr ⟨memAbove.mpr ⟨inside,up.trans higher⟩,higher⟩
    have count := Finset.card_le_card sub
    rw [cardGreatest] at count
    omega
  intro b mem
  obtain ⟨held,up⟩ := memAbove.mp mem
  exact memGreatest.mpr ⟨held,(Finset.card_le_card (aboveBelow up)).trans_lt room⟩

theorem greatestUnion (k : Nat) (A B : Finset α) : greatest k (greatest k A ∪ B) = greatest k (A ∪ B) := by
  have sub : greatest k A ∪ B ⊆ A ∪ B := Finset.union_subset_union_left greatestSubset
  ext a
  rw [memGreatest,memGreatest]
  constructor
  · rintro ⟨mem,few⟩
    have shown : above A a ⊆ greatest k A :=
      aboveGreatest ((Finset.card_le_card (aboveMono Finset.subset_union_left)).trans_lt few)
    refine ⟨sub mem,(Finset.card_le_card fun b high => ?_).trans_lt few⟩
    obtain ⟨held,up⟩ := memAbove.mp high
    rcases Finset.mem_union.mp held with left | right
    · exact memAbove.mpr ⟨Finset.mem_union_left _ (shown (memAbove.mpr ⟨left,up⟩)),up⟩
    · exact memAbove.mpr ⟨Finset.mem_union_right _ right,up⟩
  · rintro ⟨mem,few⟩
    refine ⟨?_,(Finset.card_le_card (aboveMono sub)).trans_lt few⟩
    rcases Finset.mem_union.mp mem with left | right
    · exact Finset.mem_union_left _ (memGreatest.mpr
        ⟨left,(Finset.card_le_card (aboveMono Finset.subset_union_left)).trans_lt few⟩)
    · exact Finset.mem_union_right _ right

end DigBlockstore.Greatest
