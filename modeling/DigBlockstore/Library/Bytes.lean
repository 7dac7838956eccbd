import Mathlib

/-! Fixed-width byte encodings of natural numbers, least or most significant byte first. -/
namespace DigBlockstore.ByteCodec

abbrev Bytes := List UInt8

def leBytes : Nat → Nat → Bytes
  | 0, _ => []
  | width+1, n => UInt8.ofNat n :: leBytes width (n / 256)

def leNat : Bytes → Nat
  | [] => 0
  | b :: rest => b.toNat + 256 * leNat rest

def beBytes (width n : Nat) : Bytes := (leBytes width n).reverse

def beNat (bytes : Bytes) : Nat := leNat bytes.reverse

@[simp] theorem leBytesLength (width n : Nat) : (leBytes width n).length = width := by
  induction width generalizing n with
  | zero => rfl
  | succ width ih => simp [leBytes,ih]

@[simp] theorem beBytesLength (width n : Nat) : (beBytes width n).length = width := by
  simp [beBytes]

theorem leNatLeBytes (width n : Nat) : leNat (leBytes width n) = n % 256 ^ width := by
  induction width generalizing n with
  | zero => simp [leBytes,leNat,Nat.mod_one]
  | succ width ih =>
    have byte : (UInt8.ofNat n).toNat = n % 256 := by simp
    rw [leBytes,leNat,ih,byte,Nat.pow_succ,Nat.mul_comm (256 ^ width),Nat.mod_mul]

theorem beNatBeBytes (width n : Nat) : beNat (beBytes width n) = n % 256 ^ width := by
  simp [beNat,beBytes,leNatLeBytes]

theorem leNatLt (bytes : Bytes) : leNat bytes < 256 ^ bytes.length := by
  induction bytes with
  | nil => simp [leNat]
  | cons b rest ih =>
    have small := b.toNat_lt
    simp only [leNat,List.length_cons,Nat.pow_succ]
    omega

theorem leBytesLeNat (bytes : Bytes) : leBytes bytes.length (leNat bytes) = bytes := by
  induction bytes with
  | nil => rfl
  | cons b rest ih =>
    have small := b.toNat_lt
    have rest' : (b.toNat + 256 * leNat rest) / 256 = leNat rest := by omega
    have byte : UInt8.ofNat (b.toNat + 256 * leNat rest) = b := by
      apply UInt8.toNat_inj.mp
      simp only [UInt8.toNat_ofNat']
      omega
    simp only [List.length_cons,leNat,leBytes,rest',ih,byte]

theorem beBytesBeNat (bytes : Bytes) : beBytes bytes.length (beNat bytes) = bytes := by
  have h := leBytesLeNat bytes.reverse
  simp only [List.length_reverse] at h
  simp [beBytes,beNat,h]

theorem leBytesInj {width m n : Nat} (hm : m < 256 ^ width) (hn : n < 256 ^ width)
    (h : leBytes width m = leBytes width n) : m = n := by
  have same := congrArg leNat h
  rwa [leNatLeBytes,leNatLeBytes,Nat.mod_eq_of_lt hm,Nat.mod_eq_of_lt hn] at same

theorem beBytesInj {width m n : Nat} (hm : m < 256 ^ width) (hn : n < 256 ^ width)
    (h : beBytes width m = beBytes width n) : m = n :=
  leBytesInj hm hn (List.reverse_injective h)

end DigBlockstore.ByteCodec
