import CFLite.TextPlist.Base64Encode
import CFLite.TextPlist.Results

/-!
# The base-64 round trip

`__CFPLDataDecode` gives back the data that `_XMLPlistAppendDataUsingBase64`
wrote. White space changes nothing, so the text is decoded as the characters
without their lines, and these are decoded group by group.

The size of the buffer of the decoder is an `int` that grows with the data, and
goes from `maxBufferLength` to a negative number. So data for which that is not
enough cannot be read back: `dataRoundTrip_iff`.
-/

namespace CFLite.TextPlist

open CFLite.Framework

/-! ## Characters one after the other -/

/-- What comes of decoding some units: the variables, or an abort. -/
inductive Decodes (input : Input) : List UInt16 → DataDecoder → Except Abort DataDecoder → Prop where
  | nil {d} : Decodes input [] d (.ok d)
  | cons {c units d d' r} (hc : ∀ p, (d.step input c p).result = .ok (d', p)) (h : Decodes input units d' r) :
      Decodes input (c :: units) d r
  | halts {c units d e} (hc : ∀ p, (d.step input c p).result = .error e) : Decodes input (c :: units) d (.error e)

section Decodes

variable {input : Input} {units more : List UInt16} {d d' : DataDecoder} {r : Except Abort DataDecoder} {e : Abort}
  {c : UInt16}

theorem Decodes.append (h : Decodes input units d (.ok d')) (h' : Decodes input more d' r) :
    Decodes input (units ++ more) d r := by
  generalize hr : Except.ok d' = result at h
  induction h with
  | nil =>
    cases hr
    exact h'
  | cons hc _ ih => exact .cons hc (ih hr)
  | halts hc => cases hr

theorem Decodes.append_error (h : Decodes input units d (.error e)) : Decodes input (units ++ more) d (.error e) := by
  generalize hr : Except.error e = result at h
  induction h with
  | nil => cases hr
  | cons hc _ ih => exact .cons hc (ih hr)
  | halts hc => exact .halts hc

/-- White space between lines. -/
def isLineSpace (c : UInt16) : Bool := c = unichar '\n' || c = unichar '\t'

theorem step_lineSpace (hc : isLineSpace c = true) (p : ParseInfo) : (d.step input c p).result = .ok (d, p) := by
  simp only [isLineSpace, Bool.or_eq_true, decide_eq_true_eq] at hc
  rcases hc with rfl | rfl <;> rfl

/-- White space between the lines does not count. -/
theorem Decodes.of_filter (h : Decodes input (units.filter (!isLineSpace ·)) d r) : Decodes input units d r := by
  induction units generalizing d with
  | nil => exact h
  | cons c units ih =>
    cases hc : isLineSpace c with
    | true =>
      rw [List.filter_cons_of_neg (by rw [hc]; decide)] at h
      exact .cons (step_lineSpace hc) (ih h)
    | false =>
      rw [List.filter_cons_of_pos (by rw [hc]; decide)] at h
      cases h with
      | cons hstep h => exact .cons hstep (ih h)
      | halts hstep => exact .halts hstep

/-- The loop over the units up to the end of the text or a tag. -/
theorem dataDecode_loop (h : Decodes input units d r) {p : ParseInfo} {tail : List UInt16} {n : Nat}
    (hrest : input.rest p.curr = units ++ tail) (hopen : ∀ c ∈ units, c ≠ unichar '<')
    (hend : tail = [] ∨ tail.head? = some (unichar '<')) (hn : units.length < n) :
    (Run.loop (fun d => do
      let curr ← currentIndex
      if curr < input.length then
        let c ← deref input curr
        if c = unichar '<' then return .inr d
        else
          let d ← DataDecoder.step d input c
          advance 1
          return .inl d
      else return .inr d : DataDecoder → Parse (DataDecoder ⊕ DataDecoder)) n d p).result =
      r.map (·, { p with curr := p.curr + units.length }) := by
  induction h generalizing n p with
  | nil =>
    obtain ⟨n, rfl⟩ := Nat.exists_eq_succ_of_ne_zero (Nat.ne_of_gt (Nat.zero_lt_of_lt hn))
    rw [loop_result]
    rcases tail with - | ⟨c, tail⟩
    · have hover := Input.length_le_of_rest hrest
      simp only [result_bind, currentIndex_result, ok_bind, if_neg (Nat.not_lt.mpr hover), pure_result]
      rfl
    · obtain rfl : c = unichar '<' := by simpa using hend
      simp only [result_bind, currentIndex_result, ok_bind, if_pos (Input.lt_length hrest), deref_result,
        Input.unit_eq hrest, if_true, pure_result]
      rfl
  | @cons c units d d' r hc h ih =>
    obtain ⟨n, rfl⟩ := Nat.exists_eq_succ_of_ne_zero (Nat.ne_of_gt (Nat.zero_lt_of_lt hn))
    rw [List.forall_mem_cons] at hopen
    have hnext := ih (p := { p with curr := p.curr + 1 }) (n := n) (Input.rest_succ hrest) hopen.2
      (by rw [List.length_cons] at hn; omega)
    rw [loop_result]
    simp only [result_bind, currentIndex_result, ok_bind, if_pos (Input.lt_length hrest), deref_result,
      Input.unit_eq hrest, if_neg hopen.1, hc, advance_result, pure_result, hnext, List.length_cons]
    rw [Nat.add_assoc, Nat.add_comm 1]
  | @halts c units d e hc =>
    obtain ⟨n, rfl⟩ := Nat.exists_eq_succ_of_ne_zero (Nat.ne_of_gt (Nat.zero_lt_of_lt hn))
    rw [List.forall_mem_cons] at hopen
    rw [loop_result]
    simp only [result_bind, currentIndex_result, ok_bind, if_pos (Input.lt_length hrest), deref_result,
      Input.unit_eq hrest, if_neg hopen.1, hc]
    rfl

theorem dataDecode_result (h : Decodes input units {} r) {p : ParseInfo} {tail : List UInt16}
    (hrest : input.rest p.curr = units ++ tail) (hopen : ∀ c ∈ units, c ≠ unichar '<')
    (hend : tail = [] ∨ tail.head? = some (unichar '<')) :
    (dataDecode input p).result = r.map (fun d => (d.bytes, { p with curr := p.curr + units.length })) := by
  have hlen := congrArg List.length hrest
  rw [Input.length_rest, List.length_append] at hlen
  rw [dataDecode, result_bind, whileAdvancing_result, dataDecode_loop h hrest hopen hend (by omega)]
  cases r <;> rfl

end Decodes

/-! ## The buffer -/

/-- The largest size of the buffer. -/
def maxBufferLength : Int := 2 ^ 31 - 2 ^ 18

/-- The sizes that the buffer takes, one after the other. -/
structure GoodLength (n : Int) : Prop where
  size : n = 256 ∨ n = 1024 ∨ n = 4096 ∨ n = 16384 ∨ n = 65536 ∨ 2 ^ 18 ∣ n
  pos : 0 < n
  le : n ≤ maxBufferLength

theorem growBuffer_of_lt {n : Int} (h : GoodLength n) (hlt : n < maxBufferLength) :
    GoodLength (growBuffer n) ∧ n + 3 ≤ growBuffer n := by
  obtain ⟨hsize, hpos, hle⟩ := h
  rw [maxBufferLength] at hlt hle
  have hgrown : growBuffer n = if n < 256 * 1024 then n * 4 else if n < 16 * 1024 * 1024 then n * 2 else n + 256 * 1024 :=
    int32_of_fits (by split_ifs <;> omega) (by split_ifs <;> omega)
  rw [hgrown]
  refine ⟨⟨?_, ?_, ?_⟩, ?_⟩
  · split_ifs <;> omega
  · split_ifs <;> omega
  · rw [maxBufferLength]
    split_ifs <;> omega
  · split_ifs <;> omega

theorem growBuffer_max : growBuffer maxBufferLength = -2 ^ 31 := by decide

/-- The bytes are in the buffer. -/
structure DataDecoder.InBuffer (d : DataDecoder) : Prop where
  good : GoodLength d.tmpbuflen
  room : d.bytes.length ≤ d.tmpbuflen

/-- The bytes of a group. -/
def DataDecoder.group (d : DataDecoder) : List UInt8 :=
  [UInt8.ofNat (d.acc / 2 ^ 16)] ++ ((if d.numeq < 2 then [UInt8.ofNat (d.acc / 2 ^ 8)] else []) ++
    if d.numeq < 1 then [UInt8.ofNat d.acc] else [])

section Buffer

variable {d : DataDecoder}

theorem DataDecoder.length_group_le (d : DataDecoder) : d.group.length ≤ 3 := by
  rw [group]
  split_ifs <;> simp

theorem DataDecoder.flush_ok (h : d.InBuffer) (hfits : d.bytes.length + 3 ≤ maxBufferLength) :
    ∃ n, ({ d with tmpbuflen := n, bytes := d.bytes ++ d.group } : DataDecoder).InBuffer ∧
      ∀ p, (d.flush p).result = .ok ({ d with tmpbuflen := n, bytes := d.bytes ++ d.group }, p) := by
  have hgroup := d.length_group_le
  have hbytes : ∀ n : Int, d.bytes.length + 3 ≤ n → ((d.bytes ++ d.group).length : Int) ≤ n := fun n hn => by
    rw [List.length_append]
    omega
  have hsize := h.room
  by_cases hfull : d.tmpbuflen ≤ d.bytes.length + 2
  · obtain ⟨hgood, hgrown⟩ := growBuffer_of_lt h.good (by omega)
    have hpos := Int.not_lt.mpr (Int.le_of_lt hgood.pos)
    refine ⟨growBuffer d.tmpbuflen, ⟨hgood, hbytes (growBuffer d.tmpbuflen) (by omega)⟩, fun p => ?_⟩
    simp only [flush, hfull, if_true, true_and, if_neg hpos, pure_result, group, List.append_assoc]
  · refine ⟨d.tmpbuflen, ⟨h.good, hbytes d.tmpbuflen (by omega)⟩, fun p => ?_⟩
    simp only [flush, hfull, false_and, if_false, pure_result, group, List.append_assoc]

theorem DataDecoder.flush_halt (h : d.InBuffer) (hover : maxBufferLength < d.bytes.length + 3) (p : ParseInfo) :
    (d.flush p).result = .error .halt := by
  obtain ⟨⟨hsize, hpos, hle⟩, hroom⟩ := h
  have hmax : d.tmpbuflen = maxBufferLength := by
    rw [maxBufferLength] at hle hover ⊢
    omega
  have hfull : d.tmpbuflen ≤ d.bytes.length + 2 := by omega
  have hneg : growBuffer d.tmpbuflen < 0 := by
    rw [hmax, growBuffer_max]
    decide
  simp only [flush, hfull, if_true, true_and, if_pos hneg]
  rfl

end Buffer

/-! ## Groups -/

/-- `c` stands for the six bits `x`. -/
structure Stands (c : UInt16) (x : Nat) : Prop where
  entry : ∀ input : Input, decodeTable.getD c.toNat (input.beyondDecodeTable (c.toNat - 128)) = x
  notSpace : isSpace c = false

/-- The equality signs at the end after one more character. -/
def countEq (numeq : Int) (c : UInt16) : Int := if c = unichar '=' then int32 (numeq + 1) else 0

theorem stands_eq : Stands (unichar '=') 0 := ⟨fun _ => rfl, rfl⟩

/-- The entries of the table for the characters that are written. -/
theorem decodeTable_digitChar : ∀ x < 64, decodeTable[(digitChar x).toNat]? = some (x : Int) ∧
    isSpace (digitChar x).toUInt16 = false ∧ (digitChar x).toUInt16 ≠ unichar '=' := by
  decide +kernel

theorem stands_digitChar {x : Nat} (hx : x < 64) : Stands (digitChar x).toUInt16 x := by
  obtain ⟨hentry, hspace, -⟩ := decodeTable_digitChar x hx
  refine ⟨fun input => ?_, hspace⟩
  rw [UInt8.toNat_toUInt16, List.getD_eq_getElem?_getD, hentry, Option.getD_some]

theorem countEq_digitChar {x : Nat} (hx : x < 64) (numeq : Int) : countEq numeq (digitChar x).toUInt16 = 0 :=
  if_neg (decodeTable_digitChar x hx).2.2

/-- The variables after one more character. -/
def DataDecoder.shift (d : DataDecoder) (c : UInt16) (x : Nat) : DataDecoder :=
  { d with numeq := countEq d.numeq c, acc := (d.acc * 2 ^ 6 + x) % 2 ^ 32, cntr := d.cntr + 1 }

section Groups

variable {input : Input} {d : DataDecoder} {c : UInt16} {x : Nat}

theorem step_result (hc : Stands c x) (p : ParseInfo) : (d.step input c p).result =
    if (d.cntr + 1) % 4 = 0 then ((d.shift c x).flush p).result else .ok (d.shift c x, p) := by
  obtain ⟨hentry, hspace⟩ := hc
  have hnumeq : (if c = unichar '=' then int32 (d.numeq + 1) else if isSpace c then d.numeq else 0) =
      countEq d.numeq c := by
    rw [countEq, hspace, if_neg Bool.false_ne_true]
  have hread : ∀ q, (decodeEntry input c q).result = .ok ((x : Int), q) := fun q => by
    rw [← hentry input]
    rfl
  simp only [DataDecoder.step, result_bind, hread, ok_bind, hnumeq, if_neg (Int.not_lt.mpr (Int.natCast_nonneg x)),
    Int.toNat_natCast]
  split <;> rfl

theorem group_of_acc {a b c : UInt8} (hacc : d.acc % 2 ^ 24 = (a.toNat * 256 + b.toNat) * 256 + c.toNat) :
    d.group = [a] ++ ((if d.numeq < 2 then [b] else []) ++ if d.numeq < 1 then [c] else []) := by
  have ha := a.toNat_lt
  have hb := b.toNat_lt
  have hc := c.toNat_lt
  have hfirst : UInt8.ofNat (d.acc / 2 ^ 16) = a := by
    rw [← UInt8.toNat_inj, UInt8.toNat_ofNat']
    omega
  have hsecond : UInt8.ofNat (d.acc / 2 ^ 8) = b := by
    rw [← UInt8.toNat_inj, UInt8.toNat_ofNat']
    omega
  have hthird : UInt8.ofNat d.acc = c := by
    rw [← UInt8.toNat_inj, UInt8.toNat_ofNat']
    omega
  rw [DataDecoder.group, hfirst, hsecond, hthird]

/-- The variables after a group, before its bytes are put into the buffer. -/
def DataDecoder.shiftGroup (d : DataDecoder) (c₀ c₁ c₂ c₃ : UInt16) (x₀ x₁ x₂ x₃ : Nat) : DataDecoder :=
  (((d.shift c₀ x₀).shift c₁ x₁).shift c₂ x₂).shift c₃ x₃

/-- Units that are decoded to bytes from the start of a group to the end of
one, if the buffer can become large enough for them. -/
structure DecodesTo (input : Input) (units : List UInt16) (bytes : List UInt8) (room : Nat) : Prop where
  ok : ∀ d : DataDecoder, d.InBuffer → d.cntr % 4 = 0 → d.bytes.length + room ≤ maxBufferLength →
    ∃ d', Decodes input units d (.ok d') ∧ d'.InBuffer ∧ d'.cntr % 4 = 0 ∧ d'.bytes = d.bytes ++ bytes
  halts : ∀ d : DataDecoder, d.InBuffer → d.cntr % 4 = 0 → maxBufferLength < d.bytes.length + room →
    Decodes input units d (.error .halt)

variable {c₀ c₁ c₂ c₃ : UInt16} {x₀ x₁ x₂ x₃ : Nat}

theorem decodes_group (h₀ : Stands c₀ x₀) (h₁ : Stands c₁ x₁) (h₂ : Stands c₂ x₂) (h₃ : Stands c₃ x₃)
    {bytes : List UInt8} (hbytes : ∀ d : DataDecoder, (d.shiftGroup c₀ c₁ c₂ c₃ x₀ x₁ x₂ x₃).group = bytes) :
    DecodesTo input [c₀, c₁, c₂, c₃] bytes 3 := by
  have hshift : ∀ (d : DataDecoder) r, d.cntr % 4 = 0 →
      (∀ p, ((d.shiftGroup c₀ c₁ c₂ c₃ x₀ x₁ x₂ x₃).flush p).result = r.map (·, p)) →
      Decodes input [c₀, c₁, c₂, c₃] d r := by
    intro d r hcntr hflush
    have hinside : ∀ (d : DataDecoder) c x, Stands c x → (d.cntr + 1) % 4 ≠ 0 → ∀ p,
        (d.step input c p).result = .ok (d.shift c x, p) := fun d c x hc hne p => by
      rw [step_result hc, if_neg hne]
    refine .cons (hinside d c₀ x₀ h₀ (by omega)) ?_
    refine .cons (hinside _ c₁ x₁ h₁ (show (d.cntr + 1 + 1) % 4 ≠ 0 by omega)) ?_
    refine .cons (hinside _ c₂ x₂ h₂ (show (d.cntr + 1 + 1 + 1) % 4 ≠ 0 by omega)) ?_
    have hend : ((((d.shift c₀ x₀).shift c₁ x₁).shift c₂ x₂).cntr + 1) % 4 = 0 :=
      show (d.cntr + 1 + 1 + 1 + 1) % 4 = 0 by omega
    have hlast : ∀ p, ((((d.shift c₀ x₀).shift c₁ x₁).shift c₂ x₂).step input c₃ p).result = r.map (·, p) := fun p => by
      rw [step_result h₃, if_pos hend]
      exact hflush p
    cases r with
    | ok d' => exact .cons hlast .nil
    | error e => exact .halts hlast
  constructor
  · intro d hd hcntr hfits
    have hbuffer : (d.shiftGroup c₀ c₁ c₂ c₃ x₀ x₁ x₂ x₃).InBuffer := ⟨hd.good, hd.room⟩
    obtain ⟨n, hn, hflush⟩ := DataDecoder.flush_ok hbuffer hfits
    refine ⟨_, hshift d _ hcntr hflush, hn, ?_, congrArg (d.bytes ++ ·) (hbytes d)⟩
    exact show (d.cntr + 1 + 1 + 1 + 1) % 4 = 0 by omega
  · intro d hd hcntr hover
    have hbuffer : (d.shiftGroup c₀ c₁ c₂ c₃ x₀ x₁ x₂ x₃).InBuffer := ⟨hd.good, hd.room⟩
    exact hshift d _ hcntr (DataDecoder.flush_halt hbuffer hover)

theorem acc_shiftGroup (d : DataDecoder) (h₀ : x₀ < 64) (h₁ : x₁ < 64) (h₂ : x₂ < 64) (h₃ : x₃ < 64) :
    (d.shiftGroup c₀ c₁ c₂ c₃ x₀ x₁ x₂ x₃).acc % 2 ^ 24 = ((x₀ * 64 + x₁) * 64 + x₂) * 64 + x₃ := by
  simp only [DataDecoder.shiftGroup, DataDecoder.shift]
  omega

theorem encoded_three (a b c : UInt8) : encoded [a, b, c] =
    [digitChar (a.toNat / 4), digitChar (a.toNat % 4 * 16 + b.toNat / 16), digitChar (b.toNat % 16 * 4 + c.toNat / 64),
      digitChar (c.toNat % 64)] := by
  simp [encoded, Base64.digits, Base64.lastDigit, Base64.padding]

theorem encoded_two (a b : UInt8) : encoded [a, b] =
    [digitChar (a.toNat / 4), digitChar (a.toNat % 4 * 16 + b.toNat / 16), digitChar (b.toNat % 16 * 4), ascii '='] := rfl

theorem encoded_one (a : UInt8) : encoded [a] =
    [digitChar (a.toNat / 4), digitChar (a.toNat % 4 * 16), ascii '=', ascii '='] := rfl

theorem encoded_cons (a b c : UInt8) (rest : List UInt8) :
    encoded (a :: b :: c :: rest) = encoded [a, b, c] ++ encoded rest := by
  have hpad : Base64.padding (a :: b :: c :: rest).length = Base64.padding rest.length := by
    rw [Base64.padding, Base64.padding, show (a :: b :: c :: rest).length % 3 = rest.length % 3 from Nat.add_mod_right _ 3]
  rw [encoded_three]
  simp only [encoded, hpad, List.map_cons, Base64.digits, Base64.lastDigit, List.cons_append, List.nil_append]

theorem decodes_three (a b c : UInt8) : DecodesTo input ((encoded [a, b, c]).map UInt8.toUInt16) [a, b, c] 3 := by
  have ha := a.toNat_lt
  have hb := b.toNat_lt
  have hc := c.toNat_lt
  have h₀ : a.toNat / 4 < 64 := by omega
  have h₁ : a.toNat % 4 * 16 + b.toNat / 16 < 64 := by omega
  have h₂ : b.toNat % 16 * 4 + c.toNat / 64 < 64 := by omega
  have h₃ : c.toNat % 64 < 64 := Nat.mod_lt _ (by decide)
  rw [encoded_three]
  refine decodes_group (stands_digitChar h₀) (stands_digitChar h₁) (stands_digitChar h₂) (stands_digitChar h₃)
    fun d => ?_
  refine (group_of_acc ((acc_shiftGroup d h₀ h₁ h₂ h₃).trans (Base64.group_value _ _ _))).trans ?_
  rw [DataDecoder.shiftGroup, DataDecoder.shift, countEq_digitChar h₃]
  rfl

theorem decodes_two (a b : UInt8) : DecodesTo input ((encoded [a, b]).map UInt8.toUInt16) [a, b] 3 := by
  have ha := a.toNat_lt
  have hb := b.toNat_lt
  have h₀ : a.toNat / 4 < 64 := by omega
  have h₁ : a.toNat % 4 * 16 + b.toNat / 16 < 64 := by omega
  have h₂ : b.toNat % 16 * 4 < 64 := by omega
  have h₃ : 0 < 64 := by decide
  rw [encoded_two]
  refine decodes_group (stands_digitChar h₀) (stands_digitChar h₁) (stands_digitChar h₂) stands_eq fun d => ?_
  refine (group_of_acc (c := 0) ((acc_shiftGroup d h₀ h₁ h₂ h₃).trans (Base64.group_value _ _ 0))).trans ?_
  simp only [DataDecoder.shiftGroup, DataDecoder.shift, countEq_digitChar h₂]
  rfl

theorem decodes_one (a : UInt8) : DecodesTo input ((encoded [a]).map UInt8.toUInt16) [a] 3 := by
  have ha := a.toNat_lt
  have h₀ : a.toNat / 4 < 64 := by omega
  have h₁ : a.toNat % 4 * 16 < 64 := by omega
  have h₂ : 0 < 64 := by decide
  rw [encoded_one]
  refine decodes_group (stands_digitChar h₀) (stands_digitChar h₁) stands_eq stands_eq fun d => ?_
  refine (group_of_acc (b := 0) (c := 0) ((acc_shiftGroup d h₀ h₁ h₂ h₂).trans (Base64.group_value _ 0 0))).trans ?_
  simp only [DataDecoder.shiftGroup, DataDecoder.shift, countEq_digitChar h₁]
  rfl

theorem DecodesTo.append {units more : List UInt16} {bytes moreBytes : List UInt8} {room moreRoom : Nat}
    (h : DecodesTo input units bytes room) (h' : DecodesTo input more moreBytes moreRoom)
    (hroom : bytes.length = room) : DecodesTo input (units ++ more) (bytes ++ moreBytes) (room + moreRoom) := by
  constructor
  · intro d hd hcntr hfits
    obtain ⟨d₁, hrun, hd₁, hcntr₁, hbytes⟩ := h.ok d hd hcntr (by omega)
    have hlen := congrArg List.length hbytes
    rw [List.length_append] at hlen
    obtain ⟨d₂, hrun', hd₂, hcntr₂, hbytes'⟩ := h'.ok d₁ hd₁ hcntr₁ (by omega)
    exact ⟨d₂, hrun.append hrun', hd₂, hcntr₂, by rw [hbytes', hbytes, List.append_assoc]⟩
  · intro d hd hcntr hover
    by_cases hfits : d.bytes.length + room ≤ maxBufferLength
    · obtain ⟨d₁, hrun, hd₁, hcntr₁, hbytes⟩ := h.ok d hd hcntr hfits
      have hlen := congrArg List.length hbytes
      rw [List.length_append] at hlen
      exact hrun.append (h'.halts d₁ hd₁ hcntr₁ (by omega))
    · exact (h.halts d hd hcntr (by omega)).append_error

/-- The room that whole groups of the bytes need. -/
def roomFor (length : Nat) : Nat := 3 * ((length + 2) / 3)

/-- The characters of bytes are decoded to these bytes. -/
theorem decodes_encoded : ∀ bytes : List UInt8,
    DecodesTo input ((encoded bytes).map UInt8.toUInt16) bytes (roomFor bytes.length)
  | a :: b :: c :: rest => by
    have hroom : roomFor (a :: b :: c :: rest).length = 3 + roomFor rest.length := by
      simp only [roomFor, List.length_cons]
      omega
    rw [encoded_cons, List.map_append, hroom]
    exact (decodes_three a b c).append (decodes_encoded rest) rfl
  | [a, b] => by
    rw [show roomFor [a, b].length = 3 by simp [roomFor]]
    exact decodes_two a b
  | [a] => by
    rw [show roomFor [a].length = 3 by simp [roomFor]]
    exact decodes_one a
  | [] =>
    ⟨fun d hd hcntr _ => ⟨d, .nil, hd, hcntr, (List.append_nil _).symm⟩, fun d hd _ hover => by
      have hle := hd.good.le
      have hsize := hd.room
      rw [show roomFor ([] : List UInt8).length = 0 from rfl] at hover
      omega⟩

end Groups

/-! ## The text that is written -/

section Text

variable {input : Input} {bytes text : List UInt8}

/-- The text in lines of `_XMLPlistAppendDataUsingBase64`, as units. -/
def units (text : List UInt8) : List UInt16 := text.map UInt8.toUInt16

theorem units_append (text more : List UInt8) : units (text ++ more) = units text ++ units more := List.map_append

theorem isLineSpace_digitChar : ∀ x < 64, isLineSpace (digitChar x).toUInt16 = false ∧
    (digitChar x).toUInt16 ≠ unichar '<' := by
  decide +kernel

theorem encoded_units : ∀ c ∈ encoded bytes, isLineSpace c.toUInt16 = false ∧ c.toUInt16 ≠ unichar '<' := by
  intro c hc
  rcases List.mem_append.mp hc with hc | hc
  · obtain ⟨d, hd, rfl⟩ := List.mem_map.mp hc
    rcases List.mem_append.mp hd with hd | hd
    · exact isLineSpace_digitChar d (digits_toNat_lt bytes d hd)
    · exact isLineSpace_digitChar d (Base64.lastDigit_lt d hd)
  · rw [List.eq_of_mem_replicate hc]
    decide

/-- The characters between the lines. -/
theorem line_units (indent : Nat) (chars : List UInt8) :
    units (line indent chars) = List.replicate indent (unichar '\t') ++ units chars ++ [unichar '\n'] := by
  rw [line, indents_eq, units_append, units_append, units, List.map_replicate]
  rfl

/-- Each unit of lines is white space or comes from the characters. -/
theorem mem_lines {indent : Nat} {lines : List (List UInt8)} {c : UInt16}
    (hc : c ∈ units (lines.flatMap (line indent))) : isLineSpace c = true ∨ c ∈ units lines.flatten := by
  induction lines with
  | nil => exact absurd hc List.not_mem_nil
  | cons l lines ih =>
    rw [List.flatMap_cons, units_append, List.mem_append, line_units] at hc
    rw [List.flatten_cons, units_append, List.mem_append]
    rcases hc with hc | hc
    · rcases List.mem_append.mp hc with hc | hc
      · rcases List.mem_append.mp hc with hc | hc
        · rw [List.eq_of_mem_replicate hc]
          exact .inl rfl
        · exact .inr (.inl hc)
      · rw [List.mem_singleton.mp hc]
        exact .inl rfl
    · exact (ih hc).imp_right .inr

/-- What is left of lines without the white space. -/
theorem filter_lines (indent : Nat) (lines : List (List UInt8))
    (hchars : ∀ c ∈ units lines.flatten, isLineSpace c = false) :
    (units (lines.flatMap (line indent))).filter (!isLineSpace ·) = units lines.flatten := by
  induction lines with
  | nil => rfl
  | cons l lines ih =>
    rw [List.flatten_cons, units_append] at hchars ⊢
    rw [List.forall_mem_append] at hchars
    have hline : (units (line indent l)).filter (!isLineSpace ·) = units l := by
      have hspace : (!isLineSpace (unichar '\t')) = false := rfl
      have hend : [unichar '\n'].filter (!isLineSpace ·) = [] := rfl
      have hkept : (units l).filter (!isLineSpace ·) = units l :=
        List.filter_eq_self.mpr fun c hc => by rw [hchars.1 c hc]; rfl
      rw [line_units, List.filter_append, List.filter_append, List.filter_replicate_of_neg (by rw [hspace]; decide), hend,
        hkept, List.nil_append, List.append_nil]
    rw [List.flatMap_cons, units_append, List.filter_append, hline, ih hchars.2]

theorem units_encoded (bytes : List UInt8) :
    ∀ c ∈ units (encoded bytes), isLineSpace c = false ∧ c ≠ unichar '<' := by
  intro c hc
  obtain ⟨b, hb, rfl⟩ := List.mem_map.mp hc
  exact encoded_units b hb

/-- Lines of the characters of bytes are decoded as the characters are. -/
theorem decodes_lines {lines : List (List UInt8)} (hlines : lines.flatten = encoded bytes) (indent : Nat)
    {d : DataDecoder} {r : Except Abort DataDecoder} (h : Decodes input (units (encoded bytes)) d r) :
    Decodes input (units (lines.flatMap (line indent))) d r := by
  refine Decodes.of_filter ?_
  rw [filter_lines indent lines, hlines]
  · exact h
  · rw [hlines]
    exact fun c hc => (units_encoded bytes c hc).1

theorem lines_ne_open {lines : List (List UInt8)} (hlines : lines.flatten = encoded bytes) (indent : Nat) :
    ∀ c ∈ units (lines.flatMap (line indent)), c ≠ unichar '<' := by
  rintro c hc rfl
  rcases mem_lines hc with hspace | hchar
  · exact absurd hspace (by decide)
  · rw [hlines] at hchar
    exact (units_encoded bytes _ hchar).2 rfl

end Text

/-! ## The round trip -/

theorem inBuffer_start : ({} : DataDecoder).InBuffer := by
  refine ⟨⟨.inl rfl, by decide, by decide⟩, by decide⟩

/-- Lines that end with a newline, have no other one, and are not wider than 78
columns: 76, and the characters of a group that is not finished. -/
def LinesWithin (text : List UInt8) : Prop :=
  ∃ (indent : Nat) (lines : List (List UInt8)), text = lines.flatMap (line indent) ∧
    ∀ l ∈ lines, ascii '\n' ∉ l ∧ 8 * indent + l.length ≤ 78

/-- The text is decoded to the bytes, up to its end or the next tag. -/
def DecodesBack (text bytes : List UInt8) : Prop :=
  ∀ (input : Input) (p : ParseInfo) (tail : List UInt16), input.rest p.curr = units text ++ tail →
    (tail = [] ∨ tail.head? = some (unichar '<')) →
    (dataDecode input p).result = .ok (bytes, { p with curr := p.curr + (units text).length })

/-- The data is written within the bounds of the line buffer, in lines that are
not too long, and is read back. -/
def RoundTrips (bytes : List UInt8) (indent : Nat) : Prop :=
  ∀ start : List UInt8, Run.Wp True (fun e => EncodeEvent.inBounds bytes.length e = true)
    (appendDataUsingBase64 bytes indent) ⟨[], start⟩ fun _ s =>
      ∃ text, s.mData = start ++ text ∧ LinesWithin text ∧ DecodesBack text bytes

section RoundTrip

variable {bytes : List UInt8}

theorem decodesBack_of_le {lines : List (List UInt8)} (hlines : lines.flatten = encoded bytes) (indent : Nat)
    (hfits : roomFor bytes.length ≤ maxBufferLength) : DecodesBack (lines.flatMap (line indent)) bytes := by
  intro input p tail hrest hend
  have hdecodes : DecodesTo input _ bytes _ := decodes_encoded bytes
  obtain ⟨d, hrun, -, -, hbytes⟩ := hdecodes.ok {} inBuffer_start rfl (by simpa using hfits)
  rw [dataDecode_result (decodes_lines hlines indent hrun) hrest (lines_ne_open hlines indent) hend]
  rw [List.nil_append] at hbytes
  rw [← hbytes]
  rfl

theorem not_decodesBack {lines : List (List UInt8)} (hlines : lines.flatten = encoded bytes) (indent : Nat)
    (hover : maxBufferLength < roomFor bytes.length) : ¬DecodesBack (lines.flatMap (line indent)) bytes := by
  intro h
  have hrest : (plainInput (units (lines.flatMap (line indent)))).rest 0 = units (lines.flatMap (line indent)) ++ [] :=
    (List.append_nil _).symm
  have hback := h _ ⟨0, none⟩ [] hrest (.inl rfl)
  have hdecodes : DecodesTo (plainInput (units (lines.flatMap (line indent)))) _ bytes _ := decodes_encoded bytes
  have hrun := hdecodes.halts {} inBuffer_start rfl (by simpa using hover)
  rw [dataDecode_result (decodes_lines hlines indent hrun) hrest (lines_ne_open hlines indent) (.inl rfl)] at hback
  cases hback

theorem roundTrips_of_le (indent : Nat) (hfits : roomFor bytes.length ≤ maxBufferLength) : RoundTrips bytes indent := by
  intro start
  refine (appendData_spec bytes start indent).mono ?_
  rintro - s ⟨lines, htext, hlines, hwidth⟩
  refine ⟨_, htext, ⟨_, lines, rfl, fun l hl => ⟨fun hmem => ?_, hwidth l hl⟩⟩, decodesBack_of_le hlines _ hfits⟩
  have hchar : ascii '\n' ∈ encoded bytes := by
    rw [← hlines]
    exact List.mem_flatten.mpr ⟨l, hl, hmem⟩
  exact (encoded_ne bytes _ hchar).2 rfl

theorem not_roundTrips (indent : Nat) (hover : maxBufferLength < roomFor bytes.length) : ¬RoundTrips bytes indent := by
  intro h
  obtain ⟨-, hresult⟩ := h []
  obtain ⟨-, hspec⟩ := appendData_spec bytes [] indent
  cases hrun : (appendDataUsingBase64 bytes indent ⟨[], []⟩).result with
  | error e => rw [hrun] at hspec; exact hspec trivial
  | ok q =>
    rw [hrun] at hresult hspec
    obtain ⟨lines, htext, hlines, -⟩ := hspec
    obtain ⟨text, htext', -, hback⟩ := hresult
    rw [htext, List.nil_append, List.nil_append] at htext'
    rw [← htext'] at hback
    exact not_decodesBack hlines _ hover hback

end RoundTrip

end CFLite.TextPlist
