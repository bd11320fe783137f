import CFLite.BinaryPlist.Reader
import CFLite.Framework.ByteOrder

/-!
# Integers of every width

`_getSizedInt` has two ways to its result: a load of one machine word for the
sizes 1, 2, 4 and 8, and a loop over the bytes for the others. They agree
(`loadSizedInt_eq_loop`). `_readInt` announces a width of up to `2 ^ 15` bytes
and passes it on as a `uint8_t`: from 256 bytes on nothing is read
(`readInt_result`), so that the number is right only where its last eight
bytes are zero (`readInt_reads_iff`).
-/

namespace CFLite.BinaryPlist

open CFLite.Framework

/-! ## The two ways to read an integer -/

/-- The direct loads of `_getSizedInt` on a little-endian host: the word at
`data`, with its bytes swapped by `CFSwapInt16BigToHost`,
`CFSwapInt32BigToHost` or `CFSwapInt64BigToHost`. -/
def loadSizedInt (m : Memory) (data : Nat) (valSize : UInt8) : Read Nat := do
  let bytes ← m.derefBytes data valSize.toNat
  return swapBytes valSize.toNat (combineBytes bytes)

/-- The loop of `_getSizedInt`, with `count` bytes left. -/
def loopSizedInt (m : Memory) : (count data res : Nat) → Read Nat
  | 0, _, res => return res
  | count + 1, data, res => do
    let b ← m.deref data
    loopSizedInt m count (data + 1) ((res * 256 + b.toNat) % 2 ^ 64)

/-- The low 64 bits of the big-endian integer in the `count` bytes at `data`. -/
def lowBitsAt (m : Memory) (data count : Nat) : Nat := beValue (m.readAt data count) % 2 ^ 64

theorem combineBytes_reverse (bytes : List UInt8) : combineBytes bytes.reverse = beValue bytes := by
  induction bytes using List.reverseRecOn with
  | nil => rfl
  | append_singleton bytes b ih =>
    rw [List.reverse_append, List.reverse_singleton, List.singleton_append, combineBytes, ih,
      beValue_append_singleton]
    omega

/-- A word loaded and swapped is the big-endian integer of its bytes. -/
theorem swapBytes_combineBytes (bytes : List UInt8) : swapBytes bytes.length (combineBytes bytes) = beValue bytes := by
  rw [swapBytes, split_combine, combineBytes_reverse]

/-- The addresses of `count + 1` bytes in a row. -/
theorem map_range_succ (data count : Nat) :
    (List.range (count + 1)).map (data + ·) = data :: (List.range count).map (data + 1 + ·) := by
  rw [List.range_succ_eq_map, List.map_cons, List.map_map, Nat.add_zero]
  congr 1
  exact List.map_congr_left fun i _ => by simp only [Function.comp, Nat.succ_eq_add_one]; omega

/-- The loop from any value on: it reads the bytes in order, and keeps the low
64 bits. -/
theorem loopSizedInt_eq (m : Memory) (count data res : Nat) (hres : res < 2 ^ 64) :
    loopSizedInt m count data res =
      ⟨(List.range count).map (data + ·),
        .ok ((m.readAt data count).foldl (fun res b => (res * 256 + b.toNat) % 2 ^ 64) res)⟩ := by
  induction count generalizing data res with
  | zero => rfl
  | succ count ih =>
    rw [loopSizedInt, Read.bind_of_ok (Memory.deref_result m data), ih _ _ (Nat.mod_lt _ (by decide)),
      Memory.readAt_succ, List.foldl_cons, map_range_succ, Memory.deref_touched, List.singleton_append]

/-- `_getSizedInt` is its loop, whatever the size. -/
theorem getSizedInt_eq_loop (m : Memory) (data : Nat) (valSize : UInt8) :
    getSizedInt m data valSize = loopSizedInt m valSize.toNat data 0 := by
  rw [getSizedInt_eq, loopSizedInt_eq m _ _ 0 (by decide), foldl_sizedInt,
    Read.bind_of_ok (Memory.derefBytes_result ..)]
  simp

/-- `_getSizedInt` is its direct load, where there is one. -/
theorem getSizedInt_eq_load (m : Memory) (data : Nat) {valSize : UInt8}
    (h : valSize = 1 ∨ valSize = 2 ∨ valSize = 4 ∨ valSize = 8) :
    getSizedInt m data valSize = loadSizedInt m data valSize := by
  have hswap := swapBytes_combineBytes (m.readAt data valSize.toNat)
  rw [Memory.length_readAt] at hswap
  rw [getSizedInt, loadSizedInt]
  simp only [if_pos h, Read.bind_of_ok (Memory.derefBytes_result ..), hswap]

theorem loadSizedInt_eq_loop (m : Memory) (data : Nat) {valSize : UInt8}
    (h : valSize = 1 ∨ valSize = 2 ∨ valSize = 4 ∨ valSize = 8) :
    loadSizedInt m data valSize = loopSizedInt m valSize.toNat data 0 := by
  rw [← getSizedInt_eq_load m data h, getSizedInt_eq_loop]

/-! ## The low 64 bits -/

/-- Only the last eight bytes have a part in the low 64 bits. -/
theorem lowBitsAt_add (m : Memory) (data count : Nat) : lowBitsAt m data (count + 8) = lowBitsAt m (data + count) 8 := by
  rw [lowBitsAt, lowBitsAt, Memory.readAt_add, beValue_append, Memory.length_readAt,
    show (256 : Nat) ^ 8 = 2 ^ 64 by norm_num, Nat.mul_add_mod_self_right]

theorem lowBitsAt_of_le (m : Memory) (data : Nat) {count : Nat} (h : count ≤ 8) :
    lowBitsAt m data count = beValue (m.readAt data count) := by
  have hlt := beValue_lt (m.readAt data count)
  rw [Memory.length_readAt] at hlt
  refine Nat.mod_eq_of_lt (Nat.lt_of_lt_of_le hlt ?_)
  calc 256 ^ count ≤ 256 ^ 8 := Nat.pow_le_pow_right (by decide) h
    _ = 2 ^ 64 := by norm_num

/-- The low 64 bits are zero where the last eight bytes are. -/
theorem lowBitsAt_eq_zero (m : Memory) (data : Nat) {count : Nat} (h : 8 ≤ count) :
    lowBitsAt m data count = 0 ↔ ∀ i < 8, m.byteAt (data + (count - 8) + i) = 0 := by
  obtain ⟨rest, rfl⟩ := Nat.exists_eq_add_of_le' h
  rw [lowBitsAt_add, lowBitsAt_of_le m _ (Nat.le_refl 8), beValue_eq_zero, Memory.readAt]
  simp only [List.mem_map, List.mem_range, forall_exists_index, and_imp, forall_apply_eq_imp_iff₂,
    Nat.add_sub_cancel]

/-! ## `_readInt` -/

/-- What `_readInt` makes of a marker and the `2 ^ n` bytes after it: it skips
them all, and reads as many as the lowest byte of their number says. -/
theorem readInt_result {m : Memory} {p endBytePtr : Nat} (hmarker : m.byteAt p &&& 0xf0 = markerInt)
    (hend : p + 2 ^ lowNibble (m.byteAt p) ≤ endBytePtr) (hfits : p + 1 + 2 ^ lowNibble (m.byteAt p) < 2 ^ 64) :
    (readInt m p endBytePtr).result =
      .ok (lowBitsAt m (p + 1) (2 ^ lowNibble (m.byteAt p) % 256), p + 1 + 2 ^ lowNibble (m.byteAt p)) := by
  have hpos := Nat.two_pow_pos (lowNibble (m.byteAt p))
  rw [readInt, Read.failIf_of_not (by omega), Read.pure_bind]
  simp only [Read.bind_of_ok (Memory.deref_result ..)]
  rw [addPtr_of_lt (by omega), Read.failIf_of_not (by simp [hmarker]), Read.pure_bind,
    checkPtrAdd_of_lt hfits, Read.pure_bind, Read.failIf_of_not (by omega), Read.pure_bind, Read.bind_result,
    getSizedInt_result, UInt8.toNat_ofNat']
  rfl

/-- A width of at least 256 bytes is a multiple of 256. -/
theorem two_pow_mod {n : Nat} (h : 8 ≤ n) : 2 ^ n % 256 = 0 := by
  obtain ⟨k, rfl⟩ := Nat.exists_eq_add_of_le' h
  rw [Nat.pow_add]
  exact Nat.mul_mod_left _ _

/-- An integer of `2 ^ n` bytes inside the data is read as its low 64 bits,
and skipped, exactly if it has fewer than 256 bytes or its last eight bytes
are zero. The two ways to read an integer never differ. -/
theorem readInt_reads_iff (m : Memory) (p endBytePtr n : Nat) (hmarker : m.byteAt p &&& 0xf0 = markerInt)
    (hnibble : lowNibble (m.byteAt p) = n)
    (hinside : p + 1 + 2 ^ n ≤ m.base + m.bytes.length) (hend : p + 2 ^ n ≤ endBytePtr) :
    ((readInt m p endBytePtr).result = .ok (beValue (m.readAt (p + 1) (2 ^ n)) % 2 ^ 64, p + 1 + 2 ^ n) ↔
      n < 8 ∨ ∀ i < 8, m.byteAt (p + 1 + (2 ^ n - 8) + i) = 0) ∧
    ∀ (data : Nat) (valSize : UInt8), getSizedInt m data valSize = loopSizedInt m valSize.toNat data 0 ∧
      (valSize = 1 ∨ valSize = 2 ∨ valSize = 4 ∨ valSize = 8 →
        loadSizedInt m data valSize = loopSizedInt m valSize.toNat data 0) := by
  subst hnibble
  refine ⟨?_, fun data valSize => ⟨getSizedInt_eq_loop m data valSize, loadSizedInt_eq_loop m data⟩⟩
  rw [readInt_result hmarker hend (by have := m.fits; omega)]
  generalize lowNibble (m.byteAt p) = n
  simp only [Except.ok.injEq, Prod.mk.injEq, and_true]
  change lowBitsAt m (p + 1) (2 ^ n % 256) = lowBitsAt m (p + 1) (2 ^ n) ↔ _
  by_cases hn : n < 8
  · have hlt : 2 ^ n < 256 := Nat.pow_lt_pow_right (by decide : 1 < 2) hn
    rw [Nat.mod_eq_of_lt hlt]
    exact iff_of_true rfl (.inl hn)
  · have hle : 8 ≤ 2 ^ n := Nat.le_trans (by omega) (Nat.lt_two_pow_self (n := n)).le
    rw [two_pow_mod (by omega), ← lowBitsAt_eq_zero m (p + 1) hle, eq_comm]
    exact ⟨.inr, fun h => h.resolve_left hn⟩

/-- A block of an integer marker and the bytes it announces, at address 1. -/
def intBlock (marker : UInt8) (bytes : List UInt8) (h : bytes.length < 2 ^ 62) : Memory where
  base := 1
  bytes := marker :: bytes
  beyond := fun _ => 0
  base_pos := Nat.one_pos
  length_lt := by rw [List.length_cons]; omega
  fits := by rw [List.length_cons]; omega

/-- An integer of two bytes. -/
theorem readInt_two :
    (readInt (intBlock 0x11 [1, 2] (by decide)) 1 3).result = .ok (258, 4) := by
  have h := (readInt_reads_iff (intBlock 0x11 [1, 2] (by decide)) 1 3 1 (by decide) (by decide) (by decide)
    (by decide)).1.mpr (.inl (by decide))
  rwa [show beValue ((intBlock 0x11 [1, 2] (by decide)).readAt (1 + 1) (2 ^ 1)) % 2 ^ 64 = 258 by decide] at h

/-- The integer 1 in 256 bytes. -/
def wideBlock : Memory :=
  intBlock 0x18 (List.replicate 255 0 ++ [1]) (by rw [List.length_append, List.length_replicate]; decide)

/-- It is read as 0. -/
theorem readInt_wide :
    (readInt wideBlock 1 257).result = .ok (0, 258) ∧ beValue (wideBlock.readAt 2 (2 ^ 8)) % 2 ^ 64 = 1 := by
  have hmarker : wideBlock.byteAt 1 = 0x18 := by decide +kernel
  have hnibble : lowNibble (wideBlock.byteAt 1) = 8 := by rw [hmarker]; decide
  refine ⟨?_, by decide +kernel⟩
  rw [readInt_result (by rw [hmarker]; decide) (by rw [hnibble]; decide) (by rw [hnibble]; decide), hnibble]
  rfl

end CFLite.BinaryPlist
