import CFLite.Framework.Memory

/-!
# The binary property list format

The markers and the trailer of a binary property list, and the arithmetic
its reader does on them. Offsets and lengths are 64-bit integers; an addition
that the source does not check is taken modulo `2 ^ 64` (`addPtr`), a checked
one fails instead of wrapping (`checkPtrAdd`, `checkMul`).
-/

namespace CFLite.BinaryPlist

open CFLite.Framework

/-! ## Markers -/

def markerNull : UInt8 := 0x00
def markerFalse : UInt8 := 0x08
def markerTrue : UInt8 := 0x09
def markerInt : UInt8 := 0x10
def markerReal : UInt8 := 0x20
def markerDate : UInt8 := 0x33
def markerData : UInt8 := 0x40
def markerASCIIString : UInt8 := 0x50
def markerUnicode16String : UInt8 := 0x60
def markerUID : UInt8 := 0x80
def markerArray : UInt8 := 0xa0
def markerSet : UInt8 := 0xc0
def markerDict : UInt8 := 0xd0

/-- `marker & 0x0f` -/
def lowNibble (marker : UInt8) : Nat := (marker &&& 0x0f).toNat

theorem lowNibble_lt (marker : UInt8) : lowNibble marker < 16 := by
  have h : marker &&& 0x0f ≤ 0x0f := UInt8.and_le_right
  have := UInt8.le_iff_toNat_le.mp h
  simp only [lowNibble]
  exact Nat.lt_succ_of_le this

/-- `bplist0` -/
def magic : List UInt8 := [0x62, 0x70, 0x6c, 0x69, 0x73, 0x74, 0x30]

/-! ## The trailer -/

/-- `CFBinaryPlistTrailer`, in host byte order. Its six unused bytes are not
read. -/
structure Trailer where
  offsetIntSize : UInt8
  objectRefSize : UInt8
  numObjects : Nat
  topObject : Nat
  offsetTableOffset : Nat
  deriving DecidableEq, Repr

/-- `sizeof(CFBinaryPlistTrailer)` -/
def trailerSize : Nat := 32

/-- The trailer in the last 32 bytes of the data. -/
def Trailer.ofBytes (trail : List UInt8) : Trailer where
  offsetIntSize := trail.getD 6 0
  objectRefSize := trail.getD 7 0
  numObjects := beValue ((trail.drop 8).take 8)
  topObject := beValue ((trail.drop 16).take 8)
  offsetTableOffset := beValue ((trail.drop 24).take 8)

/-- The last offset an object can start at. -/
def Trailer.objectsRangeEnd (t : Trailer) : Nat := t.offsetTableOffset - 1

/-! ## 64-bit arithmetic -/

/-- `LONG_MAX` -/
def longMax : Nat := 2 ^ 63 - 1

/-- `UINT64_MAX`, the failure value of `_getOffsetOfRefAt` -/
def maxOffset : Nat := 2 ^ 64 - 1

/-- `x + y` on 64-bit unsigned integers -/
def addPtr (x y : Nat) : Nat := (x + y) % 2 ^ 64

/-- `x - y` on 64-bit unsigned integers -/
def subPtr (x y : Nat) : Nat := (x + (2 ^ 64 - y)) % 2 ^ 64

/-- `check_ptr_add` and the test of `err` after it -/
def checkPtrAdd (x y : Nat) : Read Nat := do
  Read.failIf (2 ^ 64 - 1 - y < x)
  return x + y

/-- `check_size_t_mul` and the test of `err` after it -/
def checkMul (x y : Nat) : Read Nat :=
  if x = 0 then return 0
  else do
    Read.failIf ((2 ^ 64 - 1) / x < y)
    return x * y

/-- `databytes + off` -/
def ptr (m : Memory) (off : Nat) : Nat := addPtr m.base off

theorem addPtr_of_lt {x y : Nat} (h : x + y < 2 ^ 64) : addPtr x y = x + y := Nat.mod_eq_of_lt h

theorem checkPtrAdd_eq_ok {x y z : Nat} (hy : y < 2 ^ 64) :
    (checkPtrAdd x y).result = .ok z ↔ x + y < 2 ^ 64 ∧ z = x + y := by
  simp only [checkPtrAdd, Read.bind_eq_ok, Read.failIf_eq_ok, Read.pure_result, Except.ok.injEq]
  constructor
  · rintro ⟨-, h, rfl⟩; exact ⟨by omega, rfl⟩
  · rintro ⟨h, rfl⟩; exact ⟨(), by omega, rfl⟩

theorem checkPtrAdd_of_lt {x y : Nat} (h : x + y < 2 ^ 64) : checkPtrAdd x y = pure (x + y) := by
  simp only [checkPtrAdd]
  rw [Read.failIf_of_not (by omega), Read.pure_bind]

theorem checkMul_of_lt {x y : Nat} (h : x * y < 2 ^ 64) : checkMul x y = pure (x * y) := by
  simp only [checkMul]
  split
  · rename_i hx; rw [hx, Nat.zero_mul]
  · rename_i hx
    have hy : y ≤ (2 ^ 64 - 1) / x := (Nat.le_div_iff_mul_le (by omega)).mpr (by rw [Nat.mul_comm]; omega)
    rw [Read.failIf_of_not (by omega), Read.pure_bind]

section Safe

variable {P : Nat → Prop} {α : Type} {R : α → Prop}

theorem checkPtrAdd_safe {x y : Nat} {f : Nat → Read α} (hy : y < 2 ^ 64)
    (hf : x + y < 2 ^ 64 → Read.Safe P R (f (x + y))) : Read.Safe P R (checkPtrAdd x y >>= f) := by
  by_cases h : x + y < 2 ^ 64
  · rw [checkPtrAdd_of_lt h, Read.pure_bind]; exact hf h
  · simp only [checkPtrAdd]
    rw [Read.failIf_of (by omega)]
    exact Read.Safe.fail

theorem checkMul_safe {x y : Nat} {f : Nat → Read α}
    (hf : x * y < 2 ^ 64 → Read.Safe P R (f (x * y))) : Read.Safe P R (checkMul x y >>= f) := by
  by_cases h : x * y < 2 ^ 64
  · rw [checkMul_of_lt h, Read.pure_bind]; exact hf h
  · have hx : x ≠ 0 := by rintro rfl; simp at h
    have hy : (2 ^ 64 - 1) / x < y := (Nat.div_lt_iff_lt_mul (by omega)).mpr (by rw [Nat.mul_comm]; omega)
    simp only [checkMul, if_neg hx]
    rw [Read.failIf_of hy]
    exact Read.Safe.fail

end Safe

/-! ## Sized integers -/

/-- `_getSizedInt`: sizes 1, 2, 4 and 8 are loaded at once, any other size
byte by byte, so that only the last 64 bits count. -/
def getSizedInt (m : Memory) (data : Nat) (valSize : UInt8) : Read Nat := do
  let bytes ← m.derefBytes data valSize.toNat
  if valSize = 1 ∨ valSize = 2 ∨ valSize = 4 ∨ valSize = 8 then
    return beValue bytes
  else
    return bytes.foldl (fun res b => (res * 256 + b.toNat) % 2 ^ 64) 0

theorem foldl_sizedInt (bytes : List UInt8) :
    bytes.foldl (fun res b => (res * 256 + b.toNat) % 2 ^ 64) 0 = beValue bytes % 2 ^ 64 := by
  induction bytes using List.reverseRecOn with
  | nil => rfl
  | append_singleton bytes b ih =>
    rw [List.foldl_append, ih, List.foldl_cons, List.foldl_nil, beValue_append_singleton]
    omega

/-- Whatever its size, the integer is the big-endian value modulo `2 ^ 64`. -/
theorem getSizedInt_eq (m : Memory) (data : Nat) (valSize : UInt8) :
    getSizedInt m data valSize = (do
      let bytes ← m.derefBytes data valSize.toNat
      return beValue bytes % 2 ^ 64) := by
  simp only [getSizedInt]
  split
  · rename_i h
    have hlt : beValue (m.readAt data valSize.toNat) < 2 ^ 64 := by
      have := beValue_lt (m.readAt data valSize.toNat)
      rw [Memory.length_readAt] at this
      rcases h with rfl | rfl | rfl | rfl <;> exact Nat.lt_of_lt_of_le this (by decide)
    simp only [Read.bind_of_ok (Memory.derefBytes_result ..), Nat.mod_eq_of_lt hlt]
  · simp only [foldl_sizedInt]

theorem getSizedInt_result (m : Memory) (data : Nat) (valSize : UInt8) :
    (getSizedInt m data valSize).result = .ok (beValue (m.readAt data valSize.toNat) % 2 ^ 64) := by
  rw [getSizedInt_eq, Read.bind_of_ok (Memory.derefBytes_result ..)]; rfl

theorem getSizedInt_touched (m : Memory) (data : Nat) (valSize : UInt8) :
    (getSizedInt m data valSize).touched = (m.derefBytes data valSize.toNat).touched := by
  rw [getSizedInt_eq, Read.bind_of_ok (Memory.derefBytes_result ..)]; simp

theorem getSizedInt_safe {m : Memory} {data : Nat} {valSize : UInt8} (hl : m.base ≤ data)
    (hu : data + valSize.toNat ≤ m.base + m.bytes.length) :
    Read.Safe m.Inside (· = beValue (m.readAt data valSize.toNat) % 2 ^ 64) (getSizedInt m data valSize) := by
  refine ⟨fun p hp => ?_, fun a ha => ?_⟩
  · rw [getSizedInt_touched] at hp
    exact (Memory.derefBytes_safe (Q := fun _ => True) hl hu trivial).1 p hp
  · rw [getSizedInt_result] at ha
    exact (Except.ok.inj ha).symm

end CFLite.BinaryPlist
