import Mathlib.Algebra.Group.Nat.Defs
import Mathlib.Algebra.Group.Int.Defs
import CFLite.Framework.Base64
import CFLite.Framework.Wp

/-!
# Writing data in base-64

`_XMLPlistAppendDataUsingBase64` fills lines in a buffer on the stack and
appends them, indented, to the text. Every byte of the data that is read and
every character that is put into the buffer is an event.

* `encoded`: the characters of the data, without lines;
* `appendData_spec`: the text is lines of these characters, no line is wider
  than 78 columns, and all accesses are in bounds.
-/

namespace CFLite.TextPlist

open CFLite.Framework

/-! ## The code -/

inductive EncodeEvent where
  /-- A byte of the data is read. -/
  | byte (index : Int)
  /-- A character is stored in `buf`. -/
  | buffer (index : Nat)
  deriving DecidableEq, Repr

/-- `MAXLINELEN` -/
def maxLineLen : Nat := 76

/-- `char buf[MAXLINELEN + 4 + 2]` -/
def EncodeEvent.inBounds (length : Nat) : EncodeEvent → Bool
  | byte index => 0 ≤ index && index < length
  | buffer index => index < maxLineLen + 4 + 2

/-- The characters in the buffer and the text. -/
structure LineWriter where
  buf : List UInt8
  mData : List UInt8

abbrev Encode (α : Type) := Run EncodeEvent LineWriter α

def ascii (c : Char) : UInt8 := UInt8.ofNat c.toNat

/-- `__CFPLDataEncodeTable` -/
def encodeTable : List UInt8 :=
  "ABCDEFGHIJKLMNOPQRSTUVWXYZabcdefghijklmnopqrstuvwxyz0123456789+/".toList.map ascii

/-- The byte at an index, as an `int`. -/
def readByte (bytes : List UInt8) (index : Int) : Encode Nat := do
  Run.emit (.byte index)
  return (bytes.getD index.toNat 0).toNat

/-- `buf[pos++] = c;` -/
def put (c : UInt8) : Encode Unit := do
  Run.emit (.buffer (← Run.get).buf.length)
  Run.modify fun s => { s with buf := s.buf ++ [c] }

/-- `buf[pos++] = __CFPLDataEncodeTable [index];` -/
def putDigit (index : Nat) : Encode Unit := put (encodeTable.getD index 0)

/-- What `_appendIndents` appends, four tabs at a time. -/
def indents : Nat → List UInt8
  | n + 4 => List.replicate 4 (ascii '\t') ++ indents n
  | n => List.replicate n (ascii '\t')

/-- A line is ended and appended with its indentation. What counts is the text
up to the first null character. -/
def flushLine (indent : Nat) : Encode Unit := do
  put (ascii '\n')
  put 0
  Run.modify fun s => { buf := [], mData := s.mData ++ indents indent ++ s.buf.takeWhile (· ≠ 0) }

/-- The `switch` for the byte at `i`. -/
def encodeByte (bytes : List UInt8) (i : Nat) : Encode Unit :=
  match i % 3 with
  | 0 => do
    putDigit (((← readByte bytes i) >>> 2) &&& 0x3f)
  | 1 => do
    let p1 ← readByte bytes (i - 1)
    let p0 ← readByte bytes i
    putDigit ((((p1 <<< 8) ||| p0) >>> 4) &&& 0x3f)
  | _ => do
    let p1 ← readByte bytes (i - 1)
    let p0 ← readByte bytes i
    putDigit ((((p1 <<< 8) ||| p0) >>> 6) &&& 0x3f)
    putDigit ((← readByte bytes i) &&& 0x3f)

/-- The body of the loop. Lines are flushed every 76 (or fewer) characters,
indents count against the line length. -/
def encodeStep (bytes : List UInt8) (indent i : Nat) : Encode Unit := do
  encodeByte bytes i
  if maxLineLen - 8 * indent ≤ (← Run.get).buf.length then flushLine indent

/-- The `switch` after the last byte. -/
def encodeEnd (bytes : List UInt8) : Encode Unit :=
  match bytes.length % 3 with
  | 0 => pure ()
  | 1 => do
    putDigit (((← readByte bytes (bytes.length - 1)) <<< 4) &&& 0x30)
    put (ascii '=')
    put (ascii '=')
  | _ => do
    putDigit (((← readByte bytes (bytes.length - 1)) <<< 2) &&& 0x3c)
    put (ascii '=')

/-- `_XMLPlistAppendDataUsingBase64` -/
def appendDataUsingBase64 (bytes : List UInt8) (indent : Nat) : Encode Unit := do
  let indent := if indent > 8 then 8 else indent
  (List.range bytes.length).forM (encodeStep bytes indent)
  encodeEnd bytes
  if 0 < (← Run.get).buf.length then flushLine indent

/-! ## Characters -/

/-- The character of a digit. -/
def digitChar (digit : Nat) : UInt8 := encodeTable.getD digit 0

/-- The characters of bytes, with padding. -/
def encoded (bytes : List UInt8) : List UInt8 :=
  (Base64.digits (bytes.map UInt8.toNat) ++ Base64.lastDigit (bytes.map UInt8.toNat)).map digitChar ++
    List.replicate (Base64.padding bytes.length) (ascii '=')

theorem digitChar_ne : ∀ digit < 64, digitChar digit ≠ 0 ∧ digitChar digit ≠ ascii '\n' := by
  decide +kernel

theorem indents_eq (n : Nat) : indents n = List.replicate n (ascii '\t') := by
  fun_induction indents n with
  | case1 n ih => rw [ih, List.replicate_append_replicate, Nat.add_comm]
  | case2 n => rfl

/-! ## Digits by shifts and masks -/

theorem and_mask (n x : Nat) : x &&& (2 ^ n - 1) = x % 2 ^ n := Nat.and_two_pow_sub_one_eq_mod x n

theorem firstDigit {c : Nat} (hc : c < 256) : (c >>> 2) &&& 0x3f = c / 4 := by
  rw [show 0x3f = 2 ^ 6 - 1 from rfl, and_mask, Nat.shiftRight_eq_div_pow]
  omega

/-- Two bytes next to each other. -/
theorem twoBytes {b c : Nat} (hc : c < 256) : (b <<< 8) ||| c = b * 256 + c := by
  rw [← Nat.shiftLeft_add_eq_or_of_lt (show c < 2 ^ 8 from hc), Nat.shiftLeft_eq]

theorem secondDigit {b c : Nat} (hc : c < 256) :
    (((b <<< 8) ||| c) >>> 4) &&& 0x3f = b % 4 * 16 + c / 16 := by
  rw [show 0x3f = 2 ^ 6 - 1 from rfl, and_mask, Nat.shiftRight_eq_div_pow, twoBytes hc]
  omega

theorem thirdDigit {b c : Nat} (hc : c < 256) :
    (((b <<< 8) ||| c) >>> 6) &&& 0x3f = b % 16 * 4 + c / 64 := by
  rw [show 0x3f = 2 ^ 6 - 1 from rfl, and_mask, Nat.shiftRight_eq_div_pow, twoBytes hc]
  omega

theorem fourthDigit (c : Nat) : c &&& 0x3f = c % 64 := and_mask 6 c

theorem oneByteLeft (c : Nat) : (c <<< 4) &&& 0x30 = c % 4 * 16 :=
  calc (c <<< 4) &&& 0x30 = c % 2 ^ 2 * 2 ^ 4 := by
        rw [show 0x30 = (2 ^ 2 - 1) <<< 4 from rfl, ← Nat.shiftLeft_and_distrib, and_mask, Nat.shiftLeft_eq]
    _ = c % 4 * 16 := rfl

theorem twoBytesLeft (c : Nat) : (c <<< 2) &&& 0x3c = c % 16 * 4 :=
  calc (c <<< 2) &&& 0x3c = c % 2 ^ 4 * 2 ^ 2 := by
        rw [show 0x3c = (2 ^ 4 - 1) <<< 2 from rfl, ← Nat.shiftLeft_and_distrib, and_mask, Nat.shiftLeft_eq]
    _ = c % 16 * 4 := rfl

/-! ## One byte -/

section Steps

open Run

variable {t : Prop} {E : EncodeEvent → Prop} {s : LineWriter} {bytes : List UInt8} {i : Nat}

@[simp] theorem wp_readByte {index : Int} {Q : Nat → LineWriter → Prop} :
    Wp t E (readByte bytes index) s Q ↔ E (.byte index) ∧ Q (bytes.getD index.toNat 0).toNat s := by
  simp [readByte]

@[simp] theorem wp_put {c : UInt8} {Q : Unit → LineWriter → Prop} :
    Wp t E (put c) s Q ↔ E (.buffer s.buf.length) ∧ Q () { s with buf := s.buf ++ [c] } := by
  simp [put]

/-- The byte before. -/
theorem getLastD_take (hi : i ≤ bytes.length) (hpos : 0 < i) :
    ((bytes.take i).map UInt8.toNat).getLastD 0 = (bytes.getD (i - 1) 0).toNat := by
  obtain ⟨j, rfl⟩ := Nat.exists_eq_succ_of_ne_zero (Nat.ne_of_gt hpos)
  have hj : j < bytes.length := hi
  rw [List.take_succ_eq_append_getElem hj, List.map_append, List.map_singleton, List.getLastD_concat]
  simp [hj]

theorem encodeByte_spec (hi : i < bytes.length) (hs : s.buf.length < maxLineLen) :
    Wp True (fun e => e.inBounds bytes.length = true) (encodeByte bytes i) s fun _ s' =>
      s' = { s with buf := s.buf ++
        (Base64.newDigits ((bytes.take i).map UInt8.toNat) (bytes.getD i 0).toNat).map digitChar } := by
  have hc := (bytes.getD i 0).toNat_lt
  have hlast := getLastD_take (Nat.le_of_lt hi)
  have hlength : ((bytes.take i).map UInt8.toNat).length = i := by
    rw [List.length_map, List.length_take, Nat.min_eq_left (Nat.le_of_lt hi)]
  have hread : EncodeEvent.inBounds bytes.length (.byte i) = true := by
    simp [EncodeEvent.inBounds, hi]
  have hbefore : 0 < i → EncodeEvent.inBounds bytes.length (.byte (i - 1)) = true := fun hpos => by
    simp only [EncodeEvent.inBounds, Bool.and_eq_true, decide_eq_true_eq]
    omega
  have hput : ∀ n < 82, EncodeEvent.inBounds bytes.length (.buffer n) = true := fun n hn => decide_eq_true hn
  have hindex : ((i : Int) - 1).toNat = i - 1 := by omega
  rw [maxLineLen] at hs
  rw [Base64.newDigits, encodeByte, hlength]
  rcases h : i % 3 with _ | _ | k
  · simp only [wp_bind, wp_readByte, putDigit, wp_put, Int.toNat_natCast, firstDigit hc]
    exact ⟨hread, hput _ (by omega), rfl⟩
  · have hpos : 0 < i := by omega
    simp only [wp_bind, wp_readByte, putDigit, wp_put, Int.toNat_natCast, hindex, secondDigit hc, hlast hpos]
    exact ⟨hbefore hpos, hread, hput _ (by omega), rfl⟩
  · have hpos : 0 < i := by omega
    simp only [wp_bind, wp_readByte, putDigit, wp_put, Int.toNat_natCast, hindex, thirdDigit hc, hlast hpos]
    rw [fourthDigit]
    refine ⟨hbefore hpos, hread, hput _ (by omega), hread, hput _ ?_, ?_⟩
    · simp only [List.length_append, List.length_singleton]
      omega
    · simp [digitChar]

/-! ## Lines -/

/-- A line of the text. -/
def line (indent : Nat) (chars : List UInt8) : List UInt8 := indents indent ++ chars ++ [ascii '\n']

/-- `chars` have come: the text has whole lines of them, and the buffer the
rest. No line is wider than 78 columns, a tab counted as eight. -/
def Written (indent : Nat) (start chars : List UInt8) (s : LineWriter) : Prop :=
  ∃ lines : List (List UInt8), s.mData = start ++ lines.flatMap (line indent) ∧ lines.flatten ++ s.buf = chars ∧
    ∀ l ∈ lines, 8 * indent + l.length ≤ 78

variable {indent : Nat} {start chars : List UInt8}

theorem Written.put (h : Written indent start chars s) (cs : List UInt8) :
    Written indent start (chars ++ cs) { s with buf := s.buf ++ cs } := by
  obtain ⟨lines, htext, hchars, hwidth⟩ := h
  exact ⟨lines, htext, by rw [← hchars, List.append_assoc], hwidth⟩

theorem Written.mem (h : Written indent start chars s) {c : UInt8} (hc : c ∈ s.buf) : c ∈ chars := by
  obtain ⟨lines, -, hchars, -⟩ := h
  rw [← hchars]
  exact List.mem_append_right _ hc

theorem flushLine_spec (h : Written indent start chars s) (hchars : ∀ c ∈ chars, c ≠ 0)
    (hwidth : 8 * indent + s.buf.length ≤ 78) :
    Wp True (fun e => e.inBounds bytes.length = true) (flushLine indent) s fun _ s' =>
      Written indent start chars s' ∧ s'.buf = [] := by
  have hline : (s.buf ++ [ascii '\n'] ++ [0]).takeWhile (fun c => decide (c ≠ 0)) = s.buf ++ [ascii '\n'] := by
    rw [List.takeWhile_append_of_pos, List.takeWhile_cons_of_neg (by decide), List.append_nil]
    intro c hc
    rcases List.mem_append.mp hc with hc | hc
    · exact decide_eq_true (hchars c (h.mem hc))
    · rw [List.mem_singleton.mp hc]
      decide
  obtain ⟨lines, htext, hbuf, hlines⟩ := h
  simp only [flushLine, wp_bind, wp_put, wp_modify, hline]
  refine ⟨decide_eq_true ?_, decide_eq_true ?_, ⟨lines ++ [s.buf], ?_, ?_, ?_⟩, trivial⟩
  · rw [maxLineLen]
    omega
  · rw [maxLineLen, List.length_append, List.length_singleton]
    omega
  · simp [htext, line]
  · simpa using hbuf
  · intro l hl
    rcases List.mem_append.mp hl with hl | hl
    · exact hlines l hl
    · rw [List.mem_singleton.mp hl]
      exact hwidth

/-- The digits of the last group. -/
theorem encodeEnd_spec (hs : s.buf.length < maxLineLen) :
    Wp True (fun e => e.inBounds bytes.length = true) (encodeEnd bytes) s fun _ s' =>
      s' = { s with buf := s.buf ++ ((Base64.lastDigit (bytes.map UInt8.toNat)).map digitChar ++
        List.replicate (Base64.padding bytes.length) (ascii '=')) } := by
  have hput : ∀ n < 82, EncodeEvent.inBounds bytes.length (.buffer n) = true := fun n hn => decide_eq_true hn
  have hread : 0 < bytes.length → EncodeEvent.inBounds bytes.length (.byte (bytes.length - 1)) = true := fun hpos => by
    simp only [EncodeEvent.inBounds, Bool.and_eq_true, decide_eq_true_eq]
    omega
  have hlast := getLastD_take (Nat.le_refl bytes.length)
  have hindex : ((bytes.length : Int) - 1).toNat = bytes.length - 1 := by omega
  rw [maxLineLen] at hs
  rw [List.take_length] at hlast
  rw [Base64.lastDigit_eq, encodeEnd, Base64.padding, List.length_map]
  rcases h : bytes.length % 3 with _ | _ | k
  · simp
  · have hpos : 0 < bytes.length := by omega
    simp only [wp_bind, wp_readByte, putDigit, wp_put, hindex, oneByteLeft, hlast hpos, List.length_append,
      List.length_singleton]
    refine ⟨hread hpos, hput _ (by omega), hput _ (by omega), hput _ (by omega), ?_⟩
    simp [digitChar]
  · have hpos : 0 < bytes.length := by omega
    obtain rfl : k = 0 := by omega
    simp only [wp_bind, wp_readByte, putDigit, wp_put, hindex, twoBytesLeft, hlast hpos, List.length_append,
      List.length_singleton]
    refine ⟨hread hpos, hput _ (by omega), hput _ (by omega), ?_⟩
    simp [digitChar]

theorem length_newDigits_le (before : List Nat) (c : Nat) : (Base64.newDigits before c).length ≤ 2 := by
  rw [Base64.newDigits]
  split <;> simp

theorem digits_toNat_lt (bytes : List UInt8) : ∀ d ∈ Base64.digits (bytes.map UInt8.toNat), d < 64 := by
  refine Base64.digits_lt fun b hb => ?_
  obtain ⟨x, -, rfl⟩ := List.mem_map.mp hb
  exact x.toNat_lt

theorem encoded_ne (bytes : List UInt8) : ∀ c ∈ encoded bytes, c ≠ 0 ∧ c ≠ ascii '\n' := by
  intro c hc
  rcases List.mem_append.mp hc with hc | hc
  · obtain ⟨d, hd, rfl⟩ := List.mem_map.mp hc
    rcases List.mem_append.mp hd with hd | hd
    · exact digitChar_ne d (digits_toNat_lt bytes d hd)
    · exact digitChar_ne d (Base64.lastDigit_lt d hd)
  · rw [List.eq_of_mem_replicate hc]
    decide

/-- Each round of the loop adds the digits of a byte. -/
theorem encodeStep_spec (hindent : indent ≤ 8) (hi : i < bytes.length)
    (hwritten : Written indent start ((Base64.digits ((bytes.take i).map UInt8.toNat)).map digitChar) s)
    (hroom : 8 * indent + s.buf.length < maxLineLen) :
    Wp True (fun e => e.inBounds bytes.length = true) (encodeStep bytes indent i) s fun _ s' =>
      Written indent start ((Base64.digits ((bytes.take (i + 1)).map UInt8.toNat)).map digitChar) s' ∧
        8 * indent + s'.buf.length < maxLineLen := by
  have hdigits : Base64.digits ((bytes.take (i + 1)).map UInt8.toNat) =
      Base64.digits ((bytes.take i).map UInt8.toNat) ++
        Base64.newDigits ((bytes.take i).map UInt8.toNat) (bytes.getD i 0).toNat := by
    rw [List.take_succ_eq_append_getElem hi, List.map_append, List.map_singleton, Base64.digits_concat,
      List.getD_eq_getElem?_getD, List.getElem?_eq_getElem hi, Option.getD_some]
  have hnew := length_newDigits_le ((bytes.take i).map UInt8.toNat) (bytes.getD i 0).toNat
  have hadded := hwritten.put
    ((Base64.newDigits ((bytes.take i).map UInt8.toNat) (bytes.getD i 0).toNat).map digitChar)
  rw [← List.map_append, ← hdigits] at hadded
  rw [encodeStep, wp_bind]
  refine (encodeByte_spec hi (by omega)).mono ?_
  rintro - _ rfl
  simp only [wp_bind, wp_get, wp_ite, wp_pure, maxLineLen, List.length_append, List.length_map] at hroom ⊢
  refine ⟨fun hfull => ?_, fun hfull => ⟨hadded, ?_⟩⟩
  · have hne : ∀ c ∈ (Base64.digits ((bytes.take (i + 1)).map UInt8.toNat)).map digitChar, c ≠ 0 := by
      intro c hc
      obtain ⟨d, hd, rfl⟩ := List.mem_map.mp hc
      exact (digitChar_ne d (digits_toNat_lt _ d hd)).1
    refine (flushLine_spec hadded hne ?_).mono ?_
    · simp only [List.length_append, List.length_map]
      omega
    · rintro - s' ⟨hs', hempty⟩
      refine ⟨hs', ?_⟩
      rw [hempty, List.length_nil]
      omega
  · omega

/-- The loop over the bytes leaves less than a line in the buffer. -/
theorem appendData_loop (bytes start : List UInt8) (hindent : indent ≤ 8) :
    Wp True (fun e => e.inBounds bytes.length = true) (List.forM (List.range bytes.length) (encodeStep bytes indent))
      ⟨[], start⟩ fun _ s' =>
      Written indent start ((Base64.digits (bytes.map UInt8.toNat)).map digitChar) s' ∧
        8 * indent + s'.buf.length < maxLineLen := by
  have hstart : Written indent start ((Base64.digits ((bytes.take 0).map UInt8.toNat)).map digitChar) ⟨[], start⟩ ∧
      8 * indent + ([] : List UInt8).length < maxLineLen :=
    ⟨⟨[], by simp, rfl, nofun⟩, by rw [maxLineLen, List.length_nil]; omega⟩
  have h := Wp.forM_range (t := True) (E := fun e : EncodeEvent => e.inBounds bytes.length = true)
    (I := fun i s => Written indent start ((Base64.digits ((bytes.take i).map UInt8.toNat)).map digitChar) s ∧
      8 * indent + s.buf.length < maxLineLen)
    (fun i hi s hI => encodeStep_spec hindent hi hI.1 hI.2) hstart
  simpa only [List.take_length] using h

/-- Everything that is written: lines of the characters of the data. -/
theorem appendData_spec (bytes start : List UInt8) (indent : Nat) :
    Wp True (fun e => e.inBounds bytes.length = true) (appendDataUsingBase64 bytes indent) ⟨[], start⟩ fun _ s' =>
      ∃ lines : List (List UInt8), s'.mData = start ++ lines.flatMap (line (min indent 8)) ∧
        lines.flatten = encoded bytes ∧ ∀ l ∈ lines, 8 * min indent 8 + l.length ≤ 78 := by
  have hindent : (if indent > 8 then 8 else indent) = min indent 8 := by
    split <;> omega
  have hle : min indent 8 ≤ 8 := Nat.min_le_right indent 8
  have hend : (Base64.lastDigit (bytes.map UInt8.toNat)).length + Base64.padding bytes.length ≤ 3 := by
    rw [Base64.lastDigit_eq, Base64.padding, List.length_map]
    rcases h : bytes.length % 3 with _ | _ | k
    · simp
    · simp
    · simp
      omega
  simp only [appendDataUsingBase64, hindent]
  generalize min indent 8 = indent at hle ⊢
  rw [wp_bind]
  refine (appendData_loop bytes start hle).mono ?_
  rintro - s ⟨hwritten, hroom⟩
  rw [maxLineLen] at hroom
  have hadded := hwritten.put ((Base64.lastDigit (bytes.map UInt8.toNat)).map digitChar ++
    List.replicate (Base64.padding bytes.length) (ascii '='))
  rw [← List.append_assoc, ← List.map_append, ← encoded] at hadded
  rw [wp_bind]
  refine (encodeEnd_spec (by rw [maxLineLen]; omega)).mono ?_
  rintro - _ rfl
  simp only [wp_bind, wp_get, wp_ite, wp_pure]
  refine ⟨fun _ => ?_, fun hempty => ?_⟩
  · refine (flushLine_spec hadded ?_ ?_).mono ?_
    · exact fun c hc => (encoded_ne bytes c hc).1
    · simp only [List.length_append, List.length_map, List.length_replicate]
      omega
    · rintro - s' ⟨⟨lines, htext, hchars, hwidth⟩, hbuf⟩
      rw [hbuf, List.append_nil] at hchars
      exact ⟨lines, htext, hchars, hwidth⟩
  · obtain ⟨lines, htext, hchars, hwidth⟩ := hadded
    have hbuf := List.length_eq_zero_iff.mp (Nat.le_zero.mp (Nat.not_lt.mp hempty))
    rw [hbuf, List.append_nil] at hchars
    exact ⟨lines, htext, hchars, hwidth⟩

end Steps

end CFLite.TextPlist
