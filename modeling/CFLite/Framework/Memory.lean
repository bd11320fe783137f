import Mathlib.Algebra.Group.Nat.Defs
import Mathlib.Algebra.Group.Int.Defs
import Mathlib.Data.List.Induction
import CFLite.Framework.Read

/-!
# A block of bytes in a 64-bit address space

`Memory` is the block a function was handed as a pointer and a length: the
address of its first byte and its bytes. The bytes at other addresses are
arbitrary (`beyond`), so a run that leaves the block goes on with an unknown
value, and shows what it did in the addresses it touched.

* `deref_of_bytes`, `derefBytes_inside`: what a read inside the block gives;
* `beValue_beBytes`, `beBytes_beValue`: big-endian integers of a given width;
* `HoldsAt m off bytes`: the block has `bytes` at offset `off`.
-/

namespace CFLite.Framework

/-- A block of bytes at an address of a 64-bit address space, which neither
starts at the null pointer nor wraps, and the bytes outside it. -/
structure Memory where
  base : Nat
  bytes : List UInt8
  beyond : Nat → UInt8
  base_pos : 0 < base
  /-- Lengths are signed 64-bit integers. -/
  length_lt : bytes.length < 2 ^ 63
  /-- The pointer just past the block exists. -/
  fits : base + bytes.length < 2 ^ 64

namespace Memory

/-- The address is one of the block's. -/
def Inside (m : Memory) (a : Nat) : Prop := m.base ≤ a ∧ a < m.base + m.bytes.length

instance (m : Memory) (a : Nat) : Decidable (m.Inside a) := inferInstanceAs (Decidable (_ ∧ _))

/-- The byte at an address. -/
def byteAt (m : Memory) (a : Nat) : UInt8 :=
  if m.Inside a then m.bytes.getD (a - m.base) 0 else m.beyond a

/-- `*a` -/
def deref (m : Memory) (a : Nat) : Read UInt8 := ⟨[a], .ok (m.byteAt a)⟩

/-- The `n` bytes from address `a` on. -/
def readAt (m : Memory) (a n : Nat) : List UInt8 := (List.range n).map fun i => m.byteAt (a + i)

/-- `memmove(…, a, n)` -/
def derefBytes (m : Memory) (a n : Nat) : Read (List UInt8) :=
  ⟨(List.range n).map (a + ·), .ok (m.readAt a n)⟩

@[simp] theorem deref_result (m : Memory) (a : Nat) : (m.deref a).result = .ok (m.byteAt a) := rfl
@[simp] theorem deref_touched (m : Memory) (a : Nat) : (m.deref a).touched = [a] := rfl
@[simp] theorem derefBytes_result (m : Memory) (a n : Nat) :
    (m.derefBytes a n).result = .ok (m.readAt a n) := rfl
@[simp] theorem derefBytes_touched (m : Memory) (a n : Nat) :
    (m.derefBytes a n).touched = (List.range n).map (a + ·) := rfl

@[simp] theorem length_readAt (m : Memory) (a n : Nat) : (m.readAt a n).length = n := by
  simp [readAt]

@[simp] theorem readAt_zero (m : Memory) (a : Nat) : m.readAt a 0 = [] := rfl

theorem readAt_succ (m : Memory) (a n : Nat) : m.readAt a (n + 1) = m.byteAt a :: m.readAt (a + 1) n := by
  simp only [readAt, List.range_succ_eq_map, List.map_cons, List.map_map, Nat.add_zero]
  congr 1
  exact List.map_congr_left fun i _ => by simp only [Function.comp, Nat.succ_eq_add_one]; congr 1; omega

theorem readAt_add (m : Memory) (a n k : Nat) : m.readAt a (n + k) = m.readAt a n ++ m.readAt (a + n) k := by
  induction n generalizing a with
  | zero => simp
  | succ n ih =>
    rw [show n + 1 + k = n + k + 1 by omega, readAt_succ, readAt_succ, ih (a + 1), List.cons_append,
      show a + 1 + n = a + (n + 1) by omega]

theorem take_readAt (m : Memory) (a : Nat) {n k : Nat} (h : k ≤ n) : (m.readAt a n).take k = m.readAt a k := by
  obtain ⟨j, rfl⟩ := Nat.exists_eq_add_of_le h
  rw [readAt_add, List.take_left' (length_readAt m a k)]

theorem drop_readAt (m : Memory) (a : Nat) {n k : Nat} (h : k ≤ n) :
    (m.readAt a n).drop k = m.readAt (a + k) (n - k) := by
  obtain ⟨j, rfl⟩ := Nat.exists_eq_add_of_le h
  rw [readAt_add, List.drop_left' (length_readAt m a k)]
  congr 1; omega

/-- A dereference of an address inside the block. -/
theorem deref_safe {m : Memory} {a : Nat} {Q : UInt8 → Prop} (h : m.Inside a) (hQ : Q (m.byteAt a)) :
    Read.Safe m.Inside Q (m.deref a) :=
  ⟨by simpa using h, fun b hb => by cases hb; exact hQ⟩

/-- Reading `n` bytes that lie in the block. -/
theorem derefBytes_safe {m : Memory} {a n : Nat} {Q : List UInt8 → Prop} (hl : m.base ≤ a)
    (hu : a + n ≤ m.base + m.bytes.length) (hQ : Q (m.readAt a n)) :
    Read.Safe m.Inside Q (m.derefBytes a n) := by
  refine ⟨fun p hp => ?_, fun b hb => by cases hb; exact hQ⟩
  obtain ⟨i, hi, rfl⟩ := List.mem_map.mp hp
  have := List.mem_range.mp hi
  exact ⟨by omega, by omega⟩

/-- The block has `bytes` at offset `off`. -/
def HoldsAt (m : Memory) (off : Nat) (bytes : List UInt8) : Prop := m.readAt (m.base + off) bytes.length = bytes

theorem holdsAt_append {m : Memory} {off : Nat} {xs ys : List UInt8} :
    m.HoldsAt off (xs ++ ys) ↔ m.HoldsAt off xs ∧ m.HoldsAt (off + xs.length) ys := by
  simp only [HoldsAt, List.length_append, readAt_add]
  rw [← Nat.add_assoc]
  exact ⟨fun h => List.append_inj h (length_readAt ..), fun ⟨h₁, h₂⟩ => by rw [h₁, h₂]⟩

theorem holdsAt_cons {m : Memory} {off : Nat} {x : UInt8} {xs : List UInt8} :
    m.HoldsAt off (x :: xs) ↔ m.byteAt (m.base + off) = x ∧ m.HoldsAt (off + 1) xs := by
  simp only [HoldsAt, List.length_cons, readAt_succ, List.cons.injEq, Nat.add_assoc]

/-- The bytes of the block, found at their offset. -/
theorem holdsAt_of_append {m : Memory} {pre mid post : List UInt8} (h : m.bytes = pre ++ (mid ++ post)) :
    m.HoldsAt pre.length mid := by
  refine List.ext_getElem (length_readAt _ _ _) fun i h₁ h₂ => ?_
  have hi : m.Inside (m.base + pre.length + i) := by
    have := congrArg List.length h
    simp only [List.length_append] at this
    exact ⟨by omega, by omega⟩
  simp only [readAt, List.getElem_map, List.getElem_range, byteAt, if_pos hi, h]
  rw [show m.base + pre.length + i - m.base = pre.length + i by omega, List.getD_eq_getElem?_getD,
    List.getElem?_append_right (by omega), show pre.length + i - pre.length = i by omega,
    List.getElem?_append_left h₂, List.getElem?_eq_getElem h₂]
  rfl

end Memory

/-! ## Big-endian integers -/

/-- The value of a big-endian integer. -/
def beValue (bytes : List UInt8) : Nat := bytes.foldl (fun value b => value * 256 + b.toNat) 0

/-- The last `width` bytes of a big-endian integer. -/
def beBytes : (width : Nat) → (value : Nat) → List UInt8
  | 0, _ => []
  | width + 1, value => beBytes width (value / 256) ++ [UInt8.ofNat value]

@[simp] theorem beValue_nil : beValue [] = 0 := rfl

theorem beValue_append_singleton (bytes : List UInt8) (b : UInt8) :
    beValue (bytes ++ [b]) = beValue bytes * 256 + b.toNat := by
  simp [beValue, List.foldl_append]

theorem beValue_append (xs ys : List UInt8) : beValue (xs ++ ys) = beValue xs * 256 ^ ys.length + beValue ys := by
  induction ys using List.reverseRecOn with
  | nil => simp
  | append_singleton ys b ih =>
    rw [← List.append_assoc, beValue_append_singleton, ih, beValue_append_singleton, List.length_append,
      List.length_singleton, Nat.pow_succ, Nat.add_mul, Nat.mul_assoc, Nat.add_assoc]

@[simp] theorem length_beBytes (width value : Nat) : (beBytes width value).length = width := by
  induction width generalizing value with
  | zero => rfl
  | succ width ih => simp [beBytes, ih]

theorem beValue_eq_zero {bytes : List UInt8} : beValue bytes = 0 ↔ ∀ b ∈ bytes, b = 0 := by
  induction bytes using List.reverseRecOn with
  | nil => simp
  | append_singleton bytes b ih =>
    rw [beValue_append_singleton, List.forall_mem_append, List.forall_mem_singleton, ← ih, ← UInt8.toNat_inj,
      UInt8.toNat_zero]
    omega

theorem beValue_lt (bytes : List UInt8) : beValue bytes < 256 ^ bytes.length := by
  induction bytes using List.reverseRecOn with
  | nil => simp
  | append_singleton bytes b ih =>
    have hb := b.toNat_lt
    rw [beValue_append_singleton, List.length_append, List.length_singleton, Nat.pow_succ]
    omega

theorem beValue_beBytes (width value : Nat) : beValue (beBytes width value) = value % 256 ^ width := by
  induction width generalizing value with
  | zero => simp [beBytes, Nat.mod_one]
  | succ width ih =>
    have hlow : (UInt8.ofNat value).toNat = value % 256 := by simp
    rw [beBytes, beValue_append_singleton, ih, hlow, Nat.pow_succ, Nat.mul_comm (256 ^ width) 256, Nat.mod_mul]
    omega

theorem beValue_beBytes_of_lt {width value : Nat} (h : value < 256 ^ width) :
    beValue (beBytes width value) = value := by
  rw [beValue_beBytes, Nat.mod_eq_of_lt h]

theorem beBytes_beValue (bytes : List UInt8) : beBytes bytes.length (beValue bytes) = bytes := by
  induction bytes using List.reverseRecOn with
  | nil => rfl
  | append_singleton bytes b ih =>
    have hb := b.toNat_lt
    rw [List.length_append, List.length_singleton, beBytes, beValue_append_singleton,
      show (beValue bytes * 256 + b.toNat) / 256 = beValue bytes by omega, ih]
    congr 2
    exact UInt8.toNat_inj.mp (by simp)

theorem beBytes_add (width low value : Nat) :
    beBytes (width + low) value = beBytes width (value / 256 ^ low) ++ beBytes low value := by
  induction low generalizing value with
  | zero => simp [beBytes]
  | succ low ih =>
    rw [← Nat.add_assoc, beBytes, ih, beBytes, ← List.append_assoc, Nat.div_div_eq_div_mul, ← Nat.pow_succ']

/-- The last bytes of an integer written at a larger width. -/
theorem drop_beBytes {width total : Nat} (h : width ≤ total) (value : Nat) :
    (beBytes total value).drop (total - width) = beBytes width value := by
  obtain ⟨extra, rfl⟩ := Nat.exists_eq_add_of_le' h
  rw [beBytes_add, Nat.add_sub_cancel, List.drop_left' (length_beBytes ..)]

end CFLite.Framework
