import CFLite.URL.Components

/-!
# The steps of parsing

`Holds string p parts rest`: the locals `p` have recorded the components
`parts`, and `rest` is still to be parsed. Each step of `_parseComponents` takes
the components of its part of the URL from the text that is left.

* `Holds.front`, `Holds.back`: a component is recorded at either end;
* `parseTail_holds`, `parseScheme_holds`, `parseNetLocation_holds`.
-/

namespace CFLite.URL

open Framework

variable {string rest : List UniChar} {p : Parse} {parts : Component → Option (List UniChar)} {c d : Component}
  {flags bits : BitVec 32} {loc len k : Nat}

/-! ## Base index and flags -/

@[simp] theorem Parse.withBase_baseIdx : (p.withBase k).baseIdx = k := rfl

@[simp] theorem Parse.withBase_stringLength : (p.withBase k).stringLength = p.stringLength := rfl

@[simp] theorem Parse.withBase_withBase {j : Nat} : (p.withBase j).withBase k = p.withBase k := rfl

@[simp] theorem Parse.record_stringLength : (p.record c loc len).stringLength = p.stringLength := rfl

theorem Component.bit_injective : Function.Injective Component.bit := by
  intro c d h
  cases c <;> cases d <;> first | rfl | cases h

theorem Component.bit_lt (c : Component) : c.bit < 9 := by cases c <;> decide

theorem Component.mem_all (c : Component) : c ∈ Component.all := by cases c <;> decide

theorem hasComponent_eq (flags : BitVec 32) (c : Component) : hasComponent flags c = flags.getLsbD c.bit := by
  have hbit := c.bit_lt
  have hflag : BitVec.twoPow 32 c.bit ≠ 0 := by
    intro h
    have := congrArg (fun x : BitVec 32 => x.getLsbD c.bit) h
    simp [show c.bit < 32 by omega] at this
  rw [hasComponent, Component.flag, BitVec.and_twoPow]
  cases flags.getLsbD c.bit with
  | true => simpa using hflag
  | false => rfl

theorem hasComponent_or : hasComponent (flags ||| bits) c = (hasComponent flags c || hasComponent bits c) := by
  simp only [hasComponent_eq, BitVec.getLsbD_or]

theorem hasComponent_flag : hasComponent d.flag c = decide (c = d) := by
  have hbit := c.bit_lt
  have hd := d.bit_lt
  rw [hasComponent_eq, Component.flag, BitVec.getLsbD_twoPow]
  by_cases h : c = d
  · subst h
    simp [show c.bit < 32 by omega]
  · have hne : c.bit ≠ d.bit := fun heq => h (Component.bit_injective heq)
    simp [h, hne.symm]

/-! ## What has been recorded -/

/-- The text of a range. -/
def CFRange.text (string : List UniChar) (r : CFRange) : List UniChar :=
  slice string r.location (r.location + r.length)

/-- The recorded ranges are those of the components `parts`, in their order. -/
structure Recorded (string : List UniChar) (p : Parse) (parts : Component → Option (List UniChar)) : Prop where
  flags : ∀ c, hasComponent p.flags c = (p.ranges c).isSome
  count : p.numRanges = (Component.all.filter fun c => (p.ranges c).isSome).length
  texts : ∀ c, (p.ranges c).map (CFRange.text string) = parts c
  inside : ∀ c r, p.ranges c = some r → r.location + r.length ≤ string.length
  ordered : ∀ c d r r', p.ranges c = some r → p.ranges d = some r' → c.bit < d.bit →
    r.location + r.length ≤ r'.location

/-- The recorded ranges are those of `parts`, on both sides of the text `rest`
that is still to be parsed. -/
structure Holds (string : List UniChar) (p : Parse) (parts : Component → Option (List UniChar))
    (rest : List UniChar) : Prop extends Recorded string p parts where
  front : ∀ c r, p.ranges c = some r → c.bit < 5 → r.location + r.length ≤ p.baseIdx
  back : ∀ c r, p.ranges c = some r → 5 < c.bit → p.stringLength ≤ r.location
  path : p.ranges .path = none
  base_le : p.baseIdx ≤ p.stringLength
  length_le : p.stringLength ≤ string.length
  rest_eq : slice string p.baseIdx p.stringLength = rest

theorem Recorded.none_iff (h : Recorded string p parts) : p.ranges c = none ↔ parts c = none := by
  rw [← h.texts, Option.map_eq_none_iff]

/-- Recording one component more adds one to the number of ranges. -/
theorem length_filter_update (f : Component → Option CFRange) (h : f c = none) (r : CFRange) :
    (Component.all.filter fun d => (Function.update f c (some r) d).isSome).length =
      (Component.all.filter fun d => (f d).isSome).length + 1 := by
  simp only [← List.countP_eq_length_filter, Component.all, List.countP_cons, List.countP_nil]
  cases c <;> simp [h] <;> omega

/-- A component is recorded between those before it and those after it. -/
theorem Recorded.record (c : Component) (loc len : Nat) (h : Recorded string p parts) (hnew : parts c = none) (hinside : loc + len ≤ string.length)
    (hbelow : ∀ d r, p.ranges d = some r → d.bit < c.bit → r.location + r.length ≤ loc)
    (habove : ∀ d r, p.ranges d = some r → c.bit < d.bit → loc + len ≤ r.location) :
    Recorded string (p.record c loc len) (Function.update parts c (some (slice string loc (loc + len)))) := by
  have hnone : p.ranges c = none := h.none_iff.mpr hnew
  have hcases : ∀ d r, (p.record c loc len).ranges d = some r →
      (d = c ∧ r = ⟨loc, len⟩) ∨ (d ≠ c ∧ p.ranges d = some r) := by
    intro d r hr
    by_cases hd : d = c
    · subst hd
      exact .inl ⟨rfl, by simpa [Parse.record] using hr.symm⟩
    · exact .inr ⟨hd, by simpa [Parse.record, hd] using hr⟩
  refine ⟨fun d => ?_, ?_, fun d => ?_, fun d r hr => ?_, fun d e r r' hr hr' hlt => ?_⟩
  · rw [Parse.record, hasComponent_or, hasComponent_flag, h.flags]
    by_cases hd : d = c
    · subst hd
      simp
    · simp [hd]
  · rw [Parse.record, length_filter_update p.ranges hnone, h.count]
  · by_cases hd : d = c
    · subst hd
      simp [Parse.record, CFRange.text]
    · simp [Parse.record, hd, h.texts]
  · rcases hcases d r hr with ⟨_, rfl⟩ | ⟨_, hr⟩
    · exact hinside
    · exact h.inside d r hr
  · rcases hcases d r hr with ⟨hd, rfl⟩ | ⟨_, hold⟩ <;> rcases hcases e r' hr' with ⟨he, rfl⟩ | ⟨_, hold'⟩
    · rw [hd, he] at hlt
      omega
    · exact habove e r' hold' (hd ▸ hlt)
    · exact hbelow d r hold (he ▸ hlt)
    · exact h.ordered d e r r' hold hold' hlt

/-- More flags that are no component's. -/
theorem Holds.setFlags (h : Holds string p parts rest) (hbits : ∀ c, hasComponent bits c = false) :
    Holds string (p.setFlags bits) parts rest :=
  { h with flags := fun c => by rw [Parse.setFlags, hasComponent_or, hbits, Bool.or_false, h.flags] }

theorem Holds.setFlagsIf (h : Holds string p parts rest) {condition : Bool} (hbits : ∀ c, hasComponent bits c = false) :
    Holds string (p.setFlagsIf condition bits) parts rest := by
  rw [Parse.setFlagsIf]
  split
  · exact h.setFlags hbits
  · exact h

/-- Some of the rest is passed over. -/
theorem Holds.advance (h : Holds string p parts rest) (hbase : p.baseIdx ≤ k) (hlen : k ≤ p.stringLength) :
    Holds string (p.withBase k) parts (slice string k p.stringLength) :=
  { h with
    front := fun c r hr hc => (h.front c r hr hc).trans hbase
    base_le := hlen
    rest_eq := rfl }

/-- A component at the front, behind those recorded there. -/
theorem Holds.recordFront (c : Component) (loc len : Nat) (h : Holds string p parts rest) (hc : c.bit < 5) (hnew : parts c = none)
    (hfirst : ∀ d, parts d ≠ none → d.bit < 5 → d.bit < c.bit) (hloc : p.baseIdx ≤ loc)
    (hlen : loc + len ≤ p.stringLength) :
    Holds string ((p.record c loc len).withBase (loc + len))
      (Function.update parts c (some (slice string loc (loc + len))))
      (slice string (loc + len) p.stringLength) := by
  have hpath : c ≠ .path := by
    rintro rfl
    exact absurd hc (by decide)
  have hrecorded : Recorded string (p.record c loc len)
      (Function.update parts c (some (slice string loc (loc + len)))) := by
    refine h.toRecorded.record c loc len hnew (hlen.trans h.length_le) (fun d r hr hlt => ?_) fun d r hr hlt => ?_
    · exact (h.front d r hr (by omega)).trans hloc
    · by_cases hd : d.bit < 5
      · have hlast := hfirst d (fun hnone => by rw [← h.texts, hr] at hnone; cases hnone) hd
        omega
      · have hne : d.bit ≠ 5 := by
          intro heq
          obtain rfl : d = .path := Component.bit_injective heq
          rw [h.path] at hr
          cases hr
        exact hlen.trans (h.back d r hr (by omega))
  have hcases : ∀ d r, (p.record c loc len).ranges d = some r →
      (d = c ∧ r = ⟨loc, len⟩) ∨ p.ranges d = some r := by
    intro d r hr
    by_cases hd : d = c
    · subst hd
      exact .inl ⟨rfl, by simpa [Parse.record] using hr.symm⟩
    · exact .inr (by simpa [Parse.record, hd] using hr)
  refine { toRecorded := { hrecorded with }, front := fun d r hr hd => ?_, back := fun d r hr hd => ?_,
           path := ?_, base_le := hlen, length_le := h.length_le, rest_eq := rfl }
  · rcases hcases d r hr with ⟨_, rfl⟩ | hr
    · exact le_rfl
    · have hfront := h.front d r hr hd
      rw [Parse.withBase_baseIdx]
      omega
  · rcases hcases d r hr with ⟨rfl, rfl⟩ | hr
    · omega
    · exact h.back d r hr hd
  · simpa [Parse.record, Parse.withBase, hpath.symm] using h.path

/-- A component at the back, before those recorded there. -/
theorem Holds.recordBack (h : Holds string p parts rest) (hc : 5 < c.bit) (hnew : parts c = none)
    (hlast : ∀ d, parts d ≠ none → 5 < d.bit → c.bit < d.bit) (hk : p.baseIdx ≤ k) (hlen : k < p.stringLength) :
    Holds string { p.record c (k + 1) (p.stringLength - (k + 1)) with stringLength := k }
      (Function.update parts c (some (slice string (k + 1) p.stringLength))) (slice string p.baseIdx k) := by
  have hpath : c ≠ .path := by
    rintro rfl
    exact absurd hc (by decide)
  have hend : k + 1 + (p.stringLength - (k + 1)) = p.stringLength := by omega
  have hrecorded := h.toRecorded.record c (k + 1) (p.stringLength - (k + 1)) hnew
    (by rw [hend]; exact h.length_le)
    (fun d r hr hlt => by
      by_cases hd : 5 < d.bit
      · have hfirst := hlast d (fun hnone => by rw [← h.texts, hr] at hnone; cases hnone) hd
        omega
      · have hne : d.bit ≠ 5 := by
          intro heq
          obtain rfl : d = .path := Component.bit_injective heq
          rw [h.path] at hr
          cases hr
        have hfront := h.front d r hr (by omega)
        omega)
    (fun d r hr hlt => by rw [hend]; exact h.back d r hr (by omega))
  rw [hend] at hrecorded
  have hcases : ∀ d r, (p.record c (k + 1) (p.stringLength - (k + 1))).ranges d = some r →
      (d = c ∧ r = ⟨k + 1, p.stringLength - (k + 1)⟩) ∨ p.ranges d = some r := by
    intro d r hr
    by_cases hd : d = c
    · subst hd
      exact .inl ⟨rfl, by simpa [Parse.record] using hr.symm⟩
    · exact .inr (by simpa [Parse.record, hd] using hr)
  refine { toRecorded := { hrecorded with }, front := fun d r hr hd => ?_, back := fun d r hr hd => ?_,
           path := ?_, base_le := hk, length_le := (Nat.le_of_lt hlen).trans h.length_le, rest_eq := rfl }
  · rcases hcases d r hr with ⟨rfl, rfl⟩ | hr
    · omega
    · exact h.front d r hr hd
  · rcases hcases d r hr with ⟨_, rfl⟩ | hr
    · exact Nat.le_succ k
    · have hback := h.back d r hr hd
      dsimp only
      omega
  · simpa [Parse.record, hpath.symm] using h.path

/-! ## The steps -/

theorem update_none (h : parts c = none) : Function.update parts c none = parts := by
  rw [← h, Function.update_eq_self]

/-- The fragment, the query and the parameters. -/
theorem parseTail_holds (delimiter : Char) (h : Holds string p parts rest) (hc : 5 < c.bit) (hnew : parts c = none)
    (hlast : ∀ d, parts d ≠ none → 5 < d.bit → c.bit < d.bit) :
    Holds string (parseTail delimiter c string p) (Function.update parts c (cutAt delimiter rest).2)
      (cutAt delimiter rest).1 := by
  obtain rfl := h.rest_eq
  rw [parseTail, cutAt, cut_slice]
  cases hfirst : firstIn (· == unichar delimiter) string p.baseIdx p.stringLength with
  | none =>
    rw [update_none hnew]
    exact h
  | some idx =>
    obtain ⟨hbase, hlen, _⟩ := firstIn_eq_some hfirst
    exact h.recordBack hc hnew hlast hbase hlen

theorem parseFragment_eq : parseFragment string p = parseTail '#' .fragment string p := rfl

theorem splitScheme_some {name text : List UniChar} (hname : ∀ y ∈ name, (y == unichar ':' || !schemeValid y) = false) :
    splitScheme (name ++ unichar ':' :: text) = (some name, text) := by
  have hcolon : ∀ y ∈ name, (y == unichar ':') = false := fun y hy => by
    have := hname y hy
    simp only [Bool.or_eq_false_iff] at this
    exact this.1
  have hvalid : name.all schemeValid = true := List.all_eq_true.mpr fun y hy => by
    have := hname y hy
    simp only [Bool.or_eq_false_iff, Bool.not_eq_false'] at this
    exact this.2
  rw [splitScheme, cutAt, cut_append hcolon (by simp)]
  simp [hvalid]

theorem splitScheme_none {name text : List UniChar} {ch : UniChar}
    (hname : ∀ y ∈ name, (y == unichar ':' || !schemeValid y) = false) (hch : ch ≠ unichar ':')
    (hinvalid : schemeValid ch = false) : splitScheme (name ++ ch :: text) = (none, name ++ ch :: text) := by
  have hcolon : ∀ y ∈ name, (y == unichar ':') = false := fun y hy => by
    have := hname y hy
    simp only [Bool.or_eq_false_iff] at this
    exact this.1
  have hcut : (cut (· == unichar ':') (ch :: text)).1 = ch :: (cut (· == unichar ':') text).1 := by
    rw [cut, if_neg (by simpa using hch)]
  rw [splitScheme, cutAt, cut_append_left hcolon, hcut]
  split
  · rename_i name' rest' heq
    obtain ⟨rfl, _⟩ := Prod.mk.inj heq
    rw [if_neg (by simp [hinvalid])]
  · rfl

theorem splitScheme_all {text : List UniChar} (htext : ∀ y ∈ text, (y == unichar ':' || !schemeValid y) = false) :
    splitScheme text = (none, text) := by
  have hcolon : ∀ y ∈ text, (y == unichar ':') = false := fun y hy => by
    have := htext y hy
    simp only [Bool.or_eq_false_iff] at this
    exact this.1
  rw [splitScheme, cutAt, cut_of_none hcolon]

theorem hasComponent_absolute (c : Component) : hasComponent IS_ABSOLUTE c = false := by cases c <;> decide

theorem hasComponent_http (c : Component) : hasComponent HAS_HTTP_SCHEME c = false := by cases c <;> decide

theorem hasComponent_file (c : Component) : hasComponent HAS_FILE_SCHEME c = false := by cases c <;> decide

theorem parseScheme_holds (h : Holds string p parts rest) (hbase : p.baseIdx = 0)
    (hnew : ∀ d, parts d ≠ none → 5 < d.bit) :
    Holds string (parseScheme string p) (Function.update parts .scheme (splitScheme rest).1) (splitScheme rest).2 := by
  have hscheme : parts .scheme = none := by
    by_contra hne
    exact absurd (hnew _ hne) (by decide)
  obtain rfl := h.rest_eq
  rw [parseScheme]
  cases hfirst : firstIn (fun ch => ch == unichar ':' || !schemeValid ch) string p.baseIdx p.stringLength with
  | none =>
    rw [splitScheme_all (firstIn_eq_none hfirst), update_none hscheme]
    exact h
  | some idx =>
    obtain ⟨hle, hlt, ⟨ch, hch, hstop⟩, hbefore⟩ := firstIn_eq_some hfirst
    have hsplit := slice_split hch hle hlt
    by_cases hcolon : ch = unichar ':'
    · subst hcolon
      have hrecord := (h.recordFront .scheme p.baseIdx idx (by decide) hscheme
        (fun d hd hlow => absurd (hnew d hd) (by omega)) le_rfl (by omega)).advance (k := idx + 1)
        (by rw [Parse.withBase_baseIdx]; omega) hlt
      rw [hsplit, splitScheme_some hbefore]
      simp only [hch, if_true]
      rw [hbase, Nat.zero_add] at hrecord
      rw [hbase]
      exact ((hrecord.setFlags hasComponent_absolute).setFlagsIf hasComponent_http).setFlagsIf hasComponent_file
    · have hinvalid : schemeValid ch = false := by
        simpa only [Bool.or_eq_true, beq_iff_eq, hcolon, false_or, Bool.not_eq_true'] using hstop
      rw [hsplit, splitScheme_none hbefore hcolon hinvalid, update_none hscheme, ← hsplit]
      simp only [hch, Option.some_inj, hcolon, if_false]
      exact h

/-! ## The net location -/

/-- The user and the password are before the `'@'` at `k`. -/
theorem parseUser_holds (h : Holds string p parts rest) (hbase : p.baseIdx ≤ k) (hlen : k ≤ p.stringLength)
    (hnew : ∀ d, parts d ≠ none → d.bit < 5 → d.bit < 1) :
    Holds string ((parseUser string p.baseIdx k p).withBase k)
      (Function.update (Function.update parts .user (some (cutAt ':' (slice string p.baseIdx k)).1)) .password
        (cutAt ':' (slice string p.baseIdx k)).2)
      (slice string k p.stringLength) := by
  have huser : parts .user = none := by
    by_contra hne
    exact absurd (hnew _ hne (by decide)) (by decide)
  have hpassword : parts .password = none := by
    by_contra hne
    exact absurd (hnew _ hne (by decide)) (by decide)
  rw [parseUser, cutAt, cut_slice]
  cases hfirst : firstIn (· == unichar ':') string p.baseIdx k with
  | none =>
    have hfront := h.recordFront .user p.baseIdx (k - p.baseIdx) (by decide) huser
      (fun d hd hlow => hnew d hd hlow) le_rfl (by omega)
    rw [Nat.add_sub_cancel' hbase] at hfront
    rw [update_none (by rw [Function.update_of_ne (by decide)]; exact hpassword)]
    exact hfront
  | some idx =>
    obtain ⟨hle, hlt, _⟩ := firstIn_eq_some hfirst
    have hfront := h.recordFront .user p.baseIdx (idx - p.baseIdx) (by decide) huser
      (fun d hd hlow => hnew d hd hlow) le_rfl (by omega)
    rw [Nat.add_sub_cancel' hle] at hfront
    have hnext := hfront.recordFront .password (idx + 1) (k - (idx + 1)) (by decide)
      (by rw [Function.update_of_ne (by decide)]; exact hpassword)
      (fun d hd hlow => by
        by_cases hd' : d = .user
        · subst hd'
          decide
        · rw [Function.update_of_ne hd'] at hd
          exact (hnew d hd hlow).trans (by decide))
      (Nat.le_succ idx) (by rw [Parse.withBase_stringLength, Parse.record_stringLength]; omega)
    have hend : idx + 1 + (k - (idx + 1)) = k := by omega
    rw [hend] at hnext
    exact hnext

theorem splitPort_address {text rest : List UniChar} (htext : ∀ y ∈ text, (y == unichar ']') = false) :
    splitPort true (text ++ unichar ']' :: rest) =
      (text ++ unichar ']' :: (splitPort false rest).1, (splitPort false rest).2) := by
  induction text with
  | nil => rfl
  | cons ch text ih =>
    obtain ⟨hch, htext⟩ := List.forall_mem_cons.mp htext
    have hne : (ch != unichar ']') = true := by simpa using hch
    rw [List.cons_append, splitPort, if_pos rfl, hne, ih htext]
    rfl

theorem splitPort_open {text : List UniChar} (htext : ∀ y ∈ text, (y == unichar ']') = false) :
    splitPort true text = (text, none) := by
  induction text with
  | nil => rfl
  | cons ch text ih =>
    obtain ⟨hch, htext⟩ := List.forall_mem_cons.mp htext
    have hne : (ch != unichar ']') = true := by simpa using hch
    rw [splitPort, if_pos rfl, hne, ih htext]

/-- What the search for the port has found is where the port is split off. -/
def FindsPort (string : List UniChar) (idx extent : Nat) (found : Option Nat) : Prop :=
  match found with
  | some i => idx ≤ i ∧ i < extent ∧
      splitPort false (slice string idx extent) = (slice string idx i, some (slice string (i + 1) extent))
  | none => splitPort false (slice string idx extent) = (slice string idx extent, none)

/-- An address is passed over. -/
theorem FindsPort.address {idx close extent : Nat} {found : Option Nat}
    (h : FindsPort string (close + 1) extent found) (hopen : string[idx]? = some (unichar '['))
    (hclose : string[close]? = some (unichar ']')) (hlt : idx < close) (hextent : close < extent)
    (hbetween : ∀ y ∈ slice string idx close, (y == unichar ']') = false) : FindsPort string idx extent found := by
  have hslice : ∀ e, close < e → slice string idx e =
      unichar '[' :: (slice string (idx + 1) close ++ unichar ']' :: slice string (close + 1) e) := fun e he => by
    rw [slice_cons hopen (by omega), slice_split hclose (by omega) he]
  have hinner : ∀ y ∈ slice string (idx + 1) close, (y == unichar ']') = false := fun y hy =>
    hbetween y (by rw [slice_cons hopen hlt]; exact List.mem_cons_of_mem _ hy)
  have hsplit : splitPort false (slice string idx extent) =
      (unichar '[' :: (slice string (idx + 1) close ++ unichar ']' ::
        (splitPort false (slice string (close + 1) extent)).1),
        (splitPort false (slice string (close + 1) extent)).2) := by
    rw [hslice extent hextent, splitPort, if_neg Bool.false_ne_true, if_pos rfl, splitPort_address hinner]
  cases found with
  | none =>
    have hrest : splitPort false (slice string (close + 1) extent) = (slice string (close + 1) extent, none) := h
    rw [FindsPort, hsplit, hrest, hslice extent hextent]
  | some i =>
    obtain ⟨hle, hi, hrest⟩ := h
    refine ⟨by omega, hi, ?_⟩
    rw [hsplit, hrest, hslice i (by omega)]

/-- A character that starts no address and is no colon is passed over. -/
theorem FindsPort.next {idx extent : Nat} {found : Option Nat} {ch : UniChar}
    (h : FindsPort string (idx + 1) extent found) (hch : string[idx]? = some ch) (hlt : idx < extent)
    (hopen : ch ≠ unichar '[') (hcolon : ch ≠ unichar ':') : FindsPort string idx extent found := by
  have hsplit : splitPort false (slice string idx extent) =
      (ch :: (splitPort false (slice string (idx + 1) extent)).1,
        (splitPort false (slice string (idx + 1) extent)).2) := by
    rw [slice_cons hch hlt, splitPort, if_neg Bool.false_ne_true, if_neg hopen, if_neg hcolon]
  cases found with
  | none =>
    have hrest : splitPort false (slice string (idx + 1) extent) = (slice string (idx + 1) extent, none) := h
    rw [FindsPort, hsplit, hrest, slice_cons hch hlt]
  | some i =>
    obtain ⟨hle, hi, hrest⟩ := h
    refine ⟨by omega, hi, ?_⟩
    rw [hsplit, hrest, slice_cons hch hle]

theorem findPort_spec (string : List UniChar) {idx extent : Nat} (hidx : idx ≤ extent) (hextent : extent ≤ string.length) :
    FindsPort string idx extent (findPort string idx extent).1 := by
  induction hn : extent - idx using Nat.strong_induction_on generalizing idx with
  | _ n ih =>
    rw [findPort]
    by_cases hlt : idx < extent
    · obtain ⟨ch, hch⟩ : ∃ ch, string[idx]? = some ch := ⟨_, List.getElem?_eq_getElem (by omega)⟩
      rw [if_pos hlt]
      by_cases hopen : ch = unichar '['
      · subst hopen
        rw [if_pos hch]
        split
        · rename_i close hclose
          obtain ⟨hle, hend, ⟨x, hx, hstop⟩, hbetween⟩ := firstIn_eq_some hclose
          obtain rfl : x = unichar ']' := by simpa using hstop
          have hne : idx ≠ close := by
            rintro rfl
            rw [hch, Option.some_inj] at hx
            exact absurd hx (by decide)
          exact (ih (extent - (close + 1)) (by omega) hend rfl).address hch hx (by omega) hend hbetween
        · rename_i hclose
          have hnone := firstIn_eq_none hclose
          rw [slice_cons hch hlt] at hnone
          rw [FindsPort, slice_cons hch hlt, splitPort, if_neg Bool.false_ne_true, if_pos rfl,
            splitPort_open (List.forall_mem_cons.mp hnone).2]
      · by_cases hcolon : ch = unichar ':'
        · subst hcolon
          rw [if_neg (by rw [hch, Option.some_inj]; exact hopen), if_pos hch]
          refine ⟨le_rfl, hlt, ?_⟩
          rw [slice_cons hch hlt, slice_self, splitPort, if_neg Bool.false_ne_true, if_neg hopen, if_pos rfl]
        · rw [if_neg (by rw [hch, Option.some_inj]; exact hopen), if_neg (by rw [hch, Option.some_inj]; exact hcolon)]
          exact (ih (extent - (idx + 1)) (by omega) hlt rfl).next hch hlt hopen hcolon
    · have heq : idx = extent := by omega
      subst heq
      rw [if_neg hlt, FindsPort, slice_self, splitPort]

theorem hasComponent_ipv6 (c : Component) : hasComponent IS_IPV6_ENCODED c = false := by cases c <;> decide

/-- The host and the port are between the base index and `k`. -/
theorem parseHost_holds (h : Holds string p parts rest) (hbase : p.baseIdx ≤ k) (hlen : k ≤ p.stringLength)
    (hnew : ∀ d, parts d ≠ none → d.bit < 5 → d.bit < 3) :
    Holds string ((parseHost string p.baseIdx k p).withBase k)
      (Function.update (Function.update parts .host (some (splitPort false (slice string p.baseIdx k)).1)) .port
        (splitPort false (slice string p.baseIdx k)).2)
      (slice string k p.stringLength) := by
  have hhost : parts .host = none := by
    by_contra hne
    exact absurd (hnew _ hne (by decide)) (by decide)
  have hport : parts .port = none := by
    by_contra hne
    exact absurd (hnew _ hne (by decide)) (by decide)
  have hfound := findPort_spec string hbase (hlen.trans h.length_le)
  rw [parseHost]
  generalize findPort string p.baseIdx k = result at hfound ⊢
  obtain ⟨found, ipv6⟩ := result
  cases found with
  | none =>
    have hsplit : splitPort false (slice string p.baseIdx k) = (slice string p.baseIdx k, none) := hfound
    have hfront := h.recordFront .host p.baseIdx (k - p.baseIdx) (by decide) hhost
      (fun d hd hlow => hnew d hd hlow) le_rfl (by omega)
    rw [Nat.add_sub_cancel' hbase] at hfront
    rw [hsplit, update_none (by rw [Function.update_of_ne (by decide)]; exact hport)]
    cases ipv6 with
    | true => exact hfront.setFlags hasComponent_ipv6
    | false => exact hfront
  | some idx =>
    obtain ⟨hle, hlt, hsplit⟩ := hfound
    have hfront := h.recordFront .host p.baseIdx (idx - p.baseIdx) (by decide) hhost
      (fun d hd hlow => hnew d hd hlow) le_rfl (by omega)
    rw [Nat.add_sub_cancel' hle] at hfront
    have hnext := hfront.recordFront .port (idx + 1) (k - (idx + 1)) (by decide)
      (by rw [Function.update_of_ne (by decide)]; exact hport)
      (fun d hd hlow => by
        by_cases hd' : d = .host
        · subst hd'
          decide
        · rw [Function.update_of_ne hd'] at hd
          exact (hnew d hd hlow).trans (by decide))
      (Nat.le_succ idx) (by rw [Parse.withBase_stringLength, Parse.record_stringLength]; omega)
    have hend : idx + 1 + (k - (idx + 1)) = k := by omega
    rw [hend] at hnext
    rw [hsplit]
    cases ipv6 with
    | true => exact hnext.setFlags hasComponent_ipv6
    | false => exact hnext

end CFLite.URL
