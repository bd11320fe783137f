import CFLite.Strings.Decompositions

/-!
# Compatibility decomposition in place

`CFUniCharCompatibilityDecompose` decomposes the characters of a buffer where they
stand: a decomposition of several characters moves what follows it.

* `getElem?_expand`: what a buffer holds after one character of it was decomposed;
* `Scanned`, `Scanned.next`: what the buffer and the length are in the middle of the loop;
* `compatibilityDecomposesRight_iff`: when every character is decomposed.
-/

namespace CFLite.Strings.Decomposing

variable (T : Tables)

/-! ## The code -/

/-- `__CFUniCharMoveBufferFromEnd1`: the characters from `start`, moved by `delta`. -/
def moveBufferFromEnd1 (buffer : List Nat) (start delta : Nat) : Nat → List Nat
  | 0 => buffer
  | length + 1 =>
    moveBufferFromEnd1 (buffer.set (start + length + delta) (buffer.getD (start + length) 0)) start delta length

/-- The loop that stores characters from `p` on. -/
def storeCharacters (buffer : List Nat) (p : Nat) : List Nat → List Nat
  | [] => buffer
  | c :: cs => storeCharacters (buffer.set p c) (p + 1) cs

/-- A buffer whose character at `p`, before `limit`, gives way to others. -/
def expand (buffer : List Nat) (p : Nat) (chars : List Nat) (limit : Nat) : List Nat :=
  storeCharacters
    (if 1 < chars.length then moveBufferFromEnd1 buffer (p + 1) (chars.length - 1) (limit - p - 1) else buffer)
    p chars

/-- `CFUniCharCompatibilityDecompose`: the length that it returns, and the buffer. Nothing where
it writes at or past `maxBufferLength`, or past the end of its own buffer for one character. -/
def compatibilityDecompose (maxBufferLength limit : Nat) : Nat → List Nat → Nat → Int → Option (Int × List Nat)
  | 0, _, _, _ => none
  | rounds + 1, buffer, p, length =>
    if p < limit then
      buffer[p]?.bind fun currentChar =>
        if T.isCompatibilityDecomposable currentChar then
          let filled := recursivelyCompatibilityDecompose T currentChar
          if maxCompDecompLen < filled.length then none
          else if (maxBufferLength : Int) < filled.length + length - 1 then some (0, buffer)
          else if maxBufferLength < p + filled.length ∨
              (1 < filled.length ∧ maxBufferLength < limit + (filled.length - 1)) then none
          else
            compatibilityDecompose maxBufferLength limit rounds (expand buffer p filled limit)
              (p + filled.length) (length + (filled.length - 1))
        else compatibilityDecompose maxBufferLength limit rounds buffer (p + 1) length
    else some (length, buffer)

/-! ## One character -/

theorem length_moveBufferFromEnd1 (buffer : List Nat) (start delta length : Nat) :
    (moveBufferFromEnd1 buffer start delta length).length = buffer.length := by
  induction length generalizing buffer with
  | zero => rfl
  | succ length ih => rw [moveBufferFromEnd1, ih, List.length_set]

theorem getElem?_moveBufferFromEnd1 {buffer : List Nat} {start delta length : Nat}
    (h : start + length + delta ≤ buffer.length) (k : Nat) :
    (moveBufferFromEnd1 buffer start delta length)[k]? =
      if start + delta ≤ k ∧ k < start + length + delta then buffer[k - delta]? else buffer[k]? := by
  induction length generalizing buffer with
  | zero => rw [moveBufferFromEnd1, if_neg (by omega)]
  | succ length ih =>
    have hlt : start + length < buffer.length := by omega
    have hlast : buffer.getD (start + length) 0 = buffer[start + length] := by simp [hlt]
    rw [moveBufferFromEnd1, ih (by rw [List.length_set]; omega)]
    by_cases hk : start + delta ≤ k ∧ k < start + length + delta
    · rw [if_pos hk, if_pos (by omega), List.getElem?_set_ne (by omega)]
    · rw [if_neg hk]
      by_cases hlen : k = start + length + delta
      · subst hlen
        rw [if_pos (by omega), List.getElem?_set_self (by omega), hlast,
          show start + length + delta - delta = start + length by omega, List.getElem?_eq_getElem]
      · rw [if_neg (by omega), List.getElem?_set_ne (by omega)]

theorem length_storeCharacters (buffer : List Nat) (p : Nat) (chars : List Nat) :
    (storeCharacters buffer p chars).length = buffer.length := by
  induction chars generalizing buffer p with
  | nil => rfl
  | cons c cs ih => rw [storeCharacters, ih, List.length_set]

theorem getElem?_storeCharacters {buffer : List Nat} {p : Nat} {chars : List Nat}
    (h : p + chars.length ≤ buffer.length) (k : Nat) :
    (storeCharacters buffer p chars)[k]? =
      if p ≤ k ∧ k < p + chars.length then chars[k - p]? else buffer[k]? := by
  induction chars generalizing buffer p with
  | nil => rw [storeCharacters, if_neg (by simp)]
  | cons c cs ih =>
    rw [List.length_cons] at h ⊢
    rw [storeCharacters, ih (by rw [List.length_set]; omega)]
    by_cases hk : p + 1 ≤ k ∧ k < p + 1 + cs.length
    · rw [if_pos hk, if_pos (by omega), show k - p = (k - (p + 1)) + 1 by omega, List.getElem?_cons_succ]
    · rw [if_neg hk]
      by_cases hp : k = p
      · subst hp
        rw [if_pos (by omega), List.getElem?_set_self (by omega), Nat.sub_self, List.getElem?_cons_zero]
      · rw [if_neg (by omega), List.getElem?_set_ne (Ne.symm hp)]

theorem length_expand (buffer : List Nat) (p : Nat) (chars : List Nat) (limit : Nat) :
    (expand buffer p chars limit).length = buffer.length := by
  rw [expand, length_storeCharacters]
  split
  · rw [length_moveBufferFromEnd1]
  · rfl

/-- What a buffer holds after one character of it was decomposed. -/
theorem getElem?_expand {buffer : List Nat} {p limit : Nat} {chars : List Nat} (hp : p < limit) (hne : chars ≠ [])
    (hroom : limit + chars.length ≤ buffer.length + 1) (k : Nat) :
    (expand buffer p chars limit)[k]? =
      if k < p then buffer[k]?
      else if k < p + chars.length then chars[k - p]?
      else if k + 1 < limit + chars.length then buffer[k + 1 - chars.length]?
      else buffer[k]? := by
  have hpos := List.length_pos_of_ne_nil hne
  have hsize : p + chars.length ≤ (if 1 < chars.length then
      moveBufferFromEnd1 buffer (p + 1) (chars.length - 1) (limit - p - 1) else buffer).length := by
    rw [apply_ite List.length, length_moveBufferFromEnd1, ite_self]
    omega
  rw [expand, getElem?_storeCharacters hsize]
  by_cases hmid : p ≤ k ∧ k < p + chars.length
  · rw [if_pos hmid, if_neg (by omega), if_pos hmid.2]
  · rw [if_neg hmid]
    split
    · rw [getElem?_moveBufferFromEnd1 (by omega)]
      by_cases hk : k < p
      · rw [if_neg (by omega), if_pos hk]
      · rw [if_neg hk, if_neg (show ¬ k < p + chars.length by omega)]
        by_cases hend : k + 1 < limit + chars.length
        · rw [if_pos (by omega), if_pos hend, show k - (chars.length - 1) = k + 1 - chars.length by omega]
        · rw [if_neg (by omega), if_neg hend]
    · by_cases hk : k < p
      · rw [if_pos hk]
      · rw [if_neg hk, if_neg (show ¬ k < p + chars.length by omega), show k + 1 - chars.length = k by omega, ite_self]

/-- A character that gives way to itself. -/
theorem expand_self {buffer : List Nat} {p limit c : Nat} (hc : buffer[p]? = some c) :
    expand buffer p [c] limit = buffer := by
  obtain ⟨hp, rfl⟩ := List.getElem?_eq_some_iff.mp hc
  rw [expand, if_neg (by simp), storeCharacters, storeCharacters, List.set_getElem_self]

/-! ## Where the loop stands -/

/-- What the code puts in the place of a character. -/
def decomposed (c : Nat) : List Nat :=
  if T.isCompatibilityDecomposable c then recursivelyCompatibilityDecompose T c else [c]

/-- What belongs in the place of a character. -/
def fullyDecomposed (c : Nat) : List Nat :=
  if T.isCompatibilityDecomposable c then fullCompatibilityDecomposition T c else [c]

/-- How many of the characters become longer. -/
def expansions (chars : List Nat) : Nat := chars.countP fun c => 1 < (decomposed T c).length

/-- The buffer, the cursor and the length when the loop has come from `chars`, followed in the
buffer by `junk`, through `done` to `rest`. -/
structure Scanned (chars junk done rest buffer : List Nat) (p : Nat) (length : Int) : Prop where
  split : chars = done ++ rest
  cursor : p = (done.flatMap (decomposed T)).length
  total : length = (p + rest.length : Nat)
  size : buffer.length = (chars ++ junk).length
  /-- The part that the loop still reads is right. -/
  front : ∀ k < chars.length, buffer[k]? = (done.flatMap (decomposed T) ++ rest)[k]?
  /-- One expansion leaves the whole buffer right. -/
  whole : expansions T done ≤ 1 → ∀ k < p + rest.length, buffer[k]? = (done.flatMap (decomposed T) ++ rest)[k]?
  /-- From the second on, the last character is one that never was written. -/
  reach : ∃ top, chars.length ≤ top ∧ top ≤ p + rest.length ∧
    (expansions T done = 0 → p + rest.length = chars.length) ∧
    (1 ≤ expansions T done → chars.length < p + rest.length) ∧
    (2 ≤ expansions T done → top < p + rest.length) ∧
    ∀ k, top ≤ k → buffer[k]? = (chars ++ junk)[k]?

variable {T}
variable {chars junk done rest buffer : List Nat} {c p : Nat} {length : Int}

theorem scanned_start : Scanned T chars junk [] chars (chars ++ junk) 0 chars.length where
  split := rfl
  cursor := rfl
  total := by rw [Nat.zero_add]
  size := rfl
  front k hk := List.getElem?_append_left hk
  whole _ k hk := List.getElem?_append_left (by omega)
  reach := ⟨chars.length, le_rfl, by omega, fun _ => Nat.zero_add _, fun h => absurd h (by simp [expansions]),
    fun h => absurd h (by simp [expansions]), fun _ _ => rfl⟩

theorem expansions_snoc : expansions T (done ++ [c]) =
    expansions T done + if 1 < (decomposed T c).length then 1 else 0 := by
  rw [expansions, List.countP_append, List.countP_singleton]
  simp only [decide_eq_true_eq, expansions]

/-- What the buffer should hold once a character is decomposed, at each place. -/
theorem getElem?_flatMap_snoc (hcursor : p = (done.flatMap (decomposed T)).length) (c : Nat) (rest : List Nat)
    (k : Nat) :
    ((done ++ [c]).flatMap (decomposed T) ++ rest)[k]? =
      if k < p then (done.flatMap (decomposed T) ++ c :: rest)[k]?
      else if k < p + (decomposed T c).length then (decomposed T c)[k - p]?
      else (done.flatMap (decomposed T) ++ c :: rest)[k + 1 - (decomposed T c).length]? := by
  rw [List.flatMap_append, List.flatMap_singleton, List.append_assoc]
  by_cases hk : k < p
  · rw [if_pos hk, List.getElem?_append_left (by omega), List.getElem?_append_left (by omega)]
  · rw [if_neg hk, List.getElem?_append_right (by omega), ← hcursor]
    by_cases hmid : k < p + (decomposed T c).length
    · rw [if_pos hmid, List.getElem?_append_left (by omega)]
    · rw [if_neg hmid, List.getElem?_append_right (by omega), List.getElem?_append_right (by omega), ← hcursor,
        show k + 1 - (decomposed T c).length - p = (k - p - (decomposed T c).length) + 1 by omega,
        List.getElem?_cons_succ]

/-- One character of the loop. -/
theorem Scanned.next (h : Scanned T chars junk done (c :: rest) buffer p length) (hp : p < chars.length)
    (hne : decomposed T c ≠ []) (hroom : chars.length + (decomposed T c).length ≤ buffer.length + 1) :
    Scanned T chars junk (done ++ [c]) rest (expand buffer p (decomposed T c) chars.length)
      (p + (decomposed T c).length) (length + ((decomposed T c).length - 1)) := by
  have hpos := List.length_pos_of_ne_nil hne
  have hget := getElem?_expand hp hne hroom
  have htarget := getElem?_flatMap_snoc h.cursor c rest
  obtain ⟨top, hlo, hhi, hzero, hone, htwo, hrest⟩ := h.reach
  rw [List.length_cons] at hhi hzero hone htwo
  refine ⟨by rw [h.split, List.append_assoc, List.singleton_append], ?_, ?_, ?_, fun k hk => ?_,
    fun hexp k hk => ?_, ?_⟩
  · rw [List.flatMap_append, List.flatMap_singleton, List.length_append, ← h.cursor]
  · rw [h.total, List.length_cons]
    push_cast
    ring
  · rw [length_expand, h.size]
  · rw [hget, htarget, if_pos (show k + 1 < chars.length + (decomposed T c).length by omega), h.front k hk]
    by_cases hmid : k < p + (decomposed T c).length
    · simp only [if_pos hmid]
    · rw [if_neg hmid, if_neg hmid, h.front _ (by omega)]
  · rw [hget, htarget]
    rw [expansions_snoc] at hexp
    by_cases hbefore : k < p
    · rw [if_pos hbefore, if_pos hbefore, h.front k (by omega)]
    · rw [if_neg hbefore, if_neg hbefore]
      by_cases hmid : k < p + (decomposed T c).length
      · rw [if_pos hmid, if_pos hmid]
      · rw [if_neg hmid, if_neg hmid]
        by_cases hlong : 1 < (decomposed T c).length
        · rw [if_pos hlong] at hexp
          have := hzero (by omega)
          rw [if_pos (by omega), h.front _ (by omega)]
        · have hsame : k + 1 - (decomposed T c).length = k := by omega
          rw [hsame, ite_self, h.whole (by omega) k (by rw [List.length_cons]; omega)]
  · refine ⟨if 1 < (decomposed T c).length then max top (chars.length + (decomposed T c).length - 1) else top, ?_⟩
    rw [expansions_snoc]
    split
    · refine ⟨by omega, by omega, by omega, fun _ => by omega, fun hexp => ?_, fun k hk => ?_⟩
      · have := hone (by omega)
        omega
      · rw [hget, if_neg (by omega), if_neg (by omega), if_neg (by omega), hrest k (by omega)]
    · refine ⟨hlo, by omega, fun hexp => ?_, fun hexp => ?_, fun hexp => ?_, fun k hk => ?_⟩
      · have := hzero (by omega)
        omega
      · have := hone (by omega)
        omega
      · have := htwo (by omega)
        omega
      · rw [hget, if_neg (by omega), if_neg (by omega), if_neg (by omega), hrest k hk]

/-! ## The loop -/

variable (T)

/-- The characters that a loop which stops at `limit` reaches, from the cursor at `p`. -/
def reached (limit : Nat) : Nat → List Nat → List Nat
  | _, [] => []
  | p, c :: rest => if p < limit then c :: reached limit (p + (decomposed T c).length) rest else []

/-- Those that it does not reach. -/
def unreached (limit : Nat) : Nat → List Nat → List Nat
  | _, [] => []
  | p, c :: rest => if p < limit then unreached limit (p + (decomposed T c).length) rest else c :: rest

/-- The code's decomposition of a character is one that its own buffer holds, and not empty. -/
def Sound (c : Nat) : Prop := decomposed T c ≠ [] ∧ (decomposed T c).length ≤ maxCompDecompLen

/-- A character whose decomposition has no room in the buffer. -/
def RefusesAt (maxBufferLength : Nat) (length : Int) (c : Nat) : Prop :=
  T.isCompatibilityDecomposable c ∧ (decomposed T c).length ≤ maxCompDecompLen ∧
    (maxBufferLength : Int) < (decomposed T c).length + length - 1

/-- A loop that comes to a character whose decomposition has no room in the buffer. -/
def Refuses (maxBufferLength limit : Nat) : Nat → Int → List Nat → Prop
  | _, _, [] => False
  | p, length, c :: rest => p < limit ∧
      (RefusesAt T maxBufferLength length c ∨ Sound T c ∧
        Refuses maxBufferLength limit (p + (decomposed T c).length) (length + ((decomposed T c).length - 1)) rest)

variable {T}
variable {maxBufferLength limit rounds : Nat}

/-- The loop returns at a character whose decomposition has no room. -/
theorem compatibilityDecompose_refuses (hp : p < limit) (hc : buffer[p]? = some c)
    (h : RefusesAt T maxBufferLength length c) :
    compatibilityDecompose T maxBufferLength limit (rounds + 1) buffer p length = some (0, buffer) := by
  obtain ⟨hcompat, hlen, hroom⟩ := h
  rw [decomposed, if_pos hcompat] at hlen hroom
  rw [compatibilityDecompose, if_pos hp, hc, Option.bind_some, if_pos hcompat]
  simp only [if_neg (Nat.not_lt.mpr hlen), if_pos hroom]

/-- The loop goes on after a character. -/
theorem compatibilityDecompose_next (hp : p < limit) (hlimit : (limit : Int) ≤ length) (hc : buffer[p]? = some c)
    (hsound : Sound T c) (h : ¬ RefusesAt T maxBufferLength length c) :
    compatibilityDecompose T maxBufferLength limit (rounds + 1) buffer p length =
      compatibilityDecompose T maxBufferLength limit rounds (expand buffer p (decomposed T c) limit)
        (p + (decomposed T c).length) (length + ((decomposed T c).length - 1)) := by
  have hpos := List.length_pos_of_ne_nil hsound.1
  have hlen := hsound.2
  rw [compatibilityDecompose, if_pos hp, hc, Option.bind_some]
  by_cases hcompat : T.isCompatibilityDecomposable c
  · have hroom : ¬ (maxBufferLength : Int) < (decomposed T c).length + length - 1 := fun hr => h ⟨hcompat, hlen, hr⟩
    simp only [decomposed, hcompat, if_true] at hpos hlen hroom ⊢
    rw [if_neg (by omega), if_neg hroom, if_neg (by omega)]
  · simp only [decomposed, hcompat, Bool.false_eq_true, if_false]
    rw [expand_self hc]
    simp

/-- The loop never leaves a character whose decomposition is empty, nor survives one that is too long. -/
theorem compatibilityDecompose_unsound (hp : p < limit) (hc : buffer[p]? = some c)
    (hunsound : ¬ Sound T c) (h : ¬ RefusesAt T maxBufferLength length c) :
    compatibilityDecompose T maxBufferLength limit rounds buffer p length = none := by
  induction rounds generalizing length with
  | zero => rfl
  | succ rounds ih =>
    have hcompat : T.isCompatibilityDecomposable c := by
      by_contra hcompat
      exact hunsound ⟨by simp [decomposed, hcompat], by simp [decomposed, hcompat, maxCompDecompLen]⟩
    rw [compatibilityDecompose, if_pos hp, hc, Option.bind_some, if_pos hcompat]
    simp only [Sound, RefusesAt, decomposed, hcompat, if_true, true_and, not_and, not_le, not_lt] at hunsound h
    by_cases hlen : maxCompDecompLen < (recursivelyCompatibilityDecompose T c).length
    · rw [if_pos hlen]
    · have hnil : recursivelyCompatibilityDecompose T c = [] := by
        by_contra hne
        exact hlen (hunsound hne)
      have hroom := h (by omega)
      rw [hnil] at hroom
      rw [if_neg hlen, if_neg (by omega), hnil]
      split
      · rfl
      · refine ih fun hr => ?_
        obtain ⟨-, -, hr⟩ := hr
        rw [decomposed, if_pos hcompat, hnil] at hr
        simp only [List.length_nil] at hroom hr
        omega

/-- The character at the cursor is the next of the rest. -/
theorem Scanned.getElem?_cursor (h : Scanned T chars junk done (c :: rest) buffer p length) (hp : p < chars.length) :
    buffer[p]? = some c := by
  rw [h.front p hp, List.getElem?_append_right h.cursor.ge, ← h.cursor, Nat.sub_self, List.getElem?_cons_zero]

theorem Scanned.limit_le (h : Scanned T chars junk done rest buffer p length) : (chars.length : Int) ≤ length := by
  obtain ⟨top, hlo, hhi, -⟩ := h.reach
  rw [h.total]
  omega

/-- A character that the loop does not refuse has room. -/
theorem Scanned.next_of_sound (h : Scanned T chars junk done (c :: rest) buffer p length) (hp : p < chars.length)
    (hjunk : junk.length = maxBufferLength - chars.length) (hsound : Sound T c)
    (hno : ¬ RefusesAt T maxBufferLength length c) :
    Scanned T chars junk (done ++ [c]) rest (expand buffer p (decomposed T c) chars.length)
      (p + (decomposed T c).length) (length + ((decomposed T c).length - 1)) := by
  refine h.next hp hsound.1 ?_
  have hsize := h.size
  rw [List.length_append, hjunk] at hsize
  by_cases hcompat : T.isCompatibilityDecomposable c
  · have hroom : ¬ (maxBufferLength : Int) < (decomposed T c).length + length - 1 :=
      fun hr => hno ⟨hcompat, hsound.2, hr⟩
    have := h.limit_le
    omega
  · rw [decomposed, if_neg hcompat, List.length_singleton]
    omega

/-- A loop that comes to a character without room returns 0. -/
theorem Scanned.refused (h : Scanned T chars junk done rest buffer p length)
    (hjunk : junk.length = maxBufferLength - chars.length)
    (hrefuses : Refuses T maxBufferLength chars.length p length rest) :
    ∃ rounds buffer', compatibilityDecompose T maxBufferLength chars.length rounds buffer p length =
      some (0, buffer') := by
  induction rest generalizing done buffer p length with
  | nil => exact absurd hrefuses id
  | cons c rest ih =>
    obtain ⟨hp, hat | ⟨hsound, hlater⟩⟩ := hrefuses
    · exact ⟨1, buffer, compatibilityDecompose_refuses hp (h.getElem?_cursor hp) hat⟩
    · by_cases hat : RefusesAt T maxBufferLength length c
      · exact ⟨1, buffer, compatibilityDecompose_refuses hp (h.getElem?_cursor hp) hat⟩
      · obtain ⟨rounds, buffer', hrun⟩ := ih (h.next_of_sound hp hjunk hsound hat) hlater
        refine ⟨rounds + 1, buffer', ?_⟩
        rw [compatibilityDecompose_next hp h.limit_le (h.getElem?_cursor hp) hsound hat, hrun]

/-- A loop that comes to an unsound character never returns. -/
theorem Scanned.stuck (h : Scanned T chars junk done rest buffer p length)
    (hjunk : junk.length = maxBufferLength - chars.length)
    (hno : ¬ Refuses T maxBufferLength chars.length p length rest)
    (hunsound : ¬ ∀ c ∈ reached T chars.length p rest, Sound T c) (rounds : Nat) :
    compatibilityDecompose T maxBufferLength chars.length rounds buffer p length = none := by
  induction rest generalizing done buffer p length rounds with
  | nil => exact absurd (fun c hc => absurd hc (List.not_mem_nil)) hunsound
  | cons c rest ih =>
    by_cases hp : p < chars.length
    · simp only [Refuses, hp, true_and, not_or, not_and] at hno
      simp only [reached, hp, if_true, List.forall_mem_cons, not_and] at hunsound
      by_cases hsound : Sound T c
      · cases rounds with
        | zero => rfl
        | succ rounds =>
          rw [compatibilityDecompose_next hp h.limit_le (h.getElem?_cursor hp) hsound hno.1]
          exact ih (h.next_of_sound hp hjunk hsound hno.1) (hno.2 hsound) (hunsound hsound) rounds
      · exact compatibilityDecompose_unsound hp (h.getElem?_cursor hp) hsound hno.1
    · simp [reached, hp] at hunsound

/-- A loop over sound characters returns with every character that it reaches decomposed. -/
theorem Scanned.finishes (h : Scanned T chars junk done rest buffer p length)
    (hjunk : junk.length = maxBufferLength - chars.length)
    (hno : ¬ Refuses T maxBufferLength chars.length p length rest)
    (hsound : ∀ c ∈ reached T chars.length p rest, Sound T c) :
    ∃ rounds buffer' p' length', compatibilityDecompose T maxBufferLength chars.length rounds buffer p length =
        some (length', buffer') ∧
      Scanned T chars junk (done ++ reached T chars.length p rest) (unreached T chars.length p rest) buffer' p'
        length' := by
  induction rest generalizing done buffer p length with
  | nil =>
    obtain ⟨top, hlo, hhi, -⟩ := h.reach
    rw [List.length_nil] at hhi
    refine ⟨1, buffer, p, length, by rw [compatibilityDecompose, if_neg (by omega)], ?_⟩
    rwa [reached, unreached, List.append_nil]
  | cons c rest ih =>
    by_cases hp : p < chars.length
    · simp only [Refuses, hp, true_and, not_or, not_and] at hno
      simp only [reached, unreached, hp, if_true, List.forall_mem_cons] at hsound ⊢
      obtain ⟨rounds, buffer', p', length', hrun, hscanned⟩ :=
        ih (h.next_of_sound hp hjunk hsound.1 hno.1) (hno.2 hsound.1) hsound.2
      refine ⟨rounds + 1, buffer', p', length', ?_, by rwa [List.append_assoc, List.singleton_append] at hscanned⟩
      rw [compatibilityDecompose_next hp h.limit_le (h.getElem?_cursor hp) hsound.1 hno.1, hrun]
    · simp only [reached, unreached, hp, if_false, List.append_nil]
      exact ⟨1, buffer, p, length, by rw [compatibilityDecompose, if_neg hp], h⟩

/-- What the loop gives does not depend on how many rounds it is given. -/
theorem compatibilityDecompose_unique {rounds' : Nat} {result result' : Int × List Nat}
    (h : compatibilityDecompose T maxBufferLength limit rounds buffer p length = some result)
    (h' : compatibilityDecompose T maxBufferLength limit rounds' buffer p length = some result') :
    result = result' := by
  induction rounds generalizing rounds' buffer p length with
  | zero => exact absurd h (by simp [compatibilityDecompose])
  | succ rounds ih =>
    cases rounds' with
    | zero => exact absurd h' (by simp [compatibilityDecompose])
    | succ rounds' =>
      rw [compatibilityDecompose] at h h'
      split at h
      · next hp =>
        rw [if_pos hp] at h'
        obtain ⟨c, hc, h⟩ := Option.bind_eq_some_iff.mp h
        rw [hc, Option.bind_some] at h'
        split at h
        · next hcompat =>
          rw [if_pos hcompat] at h'
          simp only at h h'
          split_ifs at h h'
          · exact Option.some.inj (h.symm.trans h')
          · exact ih h h'
        · next hcompat =>
          rw [if_neg hcompat] at h'
          exact ih h h'
      · next hp =>
        rw [if_neg hp] at h'
        exact Option.some.inj (h.symm.trans h')

/-! ## Every character is decomposed -/

theorem fullyDecomposed_ne_nil (c : Nat) : fullyDecomposed T c ≠ [] := by
  rw [fullyDecomposed]
  split
  · exact fullCompatibilityDecomposition_ne_nil c
  · exact List.cons_ne_nil _ _

theorem length_decomposed (c : Nat) : (decomposed T c).length ≤ (fullyDecomposed T c).length := by
  rw [decomposed, fullyDecomposed]
  split
  · exact length_recursivelyCompatibilityDecompose c
  · exact le_rfl

/-- As long as the full decomposition, the code's is the same. -/
theorem keeps_of_length {c : Nat} (hcompat : T.isCompatibilityDecomposable c)
    (h : (decomposed T c).length = (fullyDecomposed T c).length) : Keeps T c := by
  rw [decomposed, fullyDecomposed, if_pos hcompat, if_pos hcompat] at h
  by_contra hk
  have := (recursivelyCompatibilityDecompose_spec c).2 hk
  omega

variable (T) in
/-- The tables have, and the code's own buffer holds, the full decomposition of a character. -/
def Delivers (c : Nat) : Prop :=
  T.isCompatibilityDecomposable c → Keeps T c ∧ (fullCompatibilityDecomposition T c).length ≤ maxCompDecompLen

theorem Delivers.decomposed_eq {c : Nat} (h : Delivers T c) : decomposed T c = fullyDecomposed T c := by
  rw [decomposed, fullyDecomposed]
  split
  · next hcompat => exact (recursivelyCompatibilityDecompose_eq_iff c).mpr (h hcompat).1
  · rfl

theorem Delivers.sound {c : Nat} (h : Delivers T c) : Sound T c := by
  rw [Sound, h.decomposed_eq]
  refine ⟨fullyDecomposed_ne_nil c, ?_⟩
  rw [fullyDecomposed]
  split
  · next hcompat => exact (h hcompat).2
  · rw [List.length_singleton, maxCompDecompLen]
    omega

/-- Lists that are no longer piece by piece, and as long together, are as long piece by piece. -/
theorem length_flatMap_eq {α β : Type} {f g : α → List β} {l : List α} (hle : ∀ c ∈ l, (f c).length ≤ (g c).length) :
    (l.flatMap f).length ≤ (l.flatMap g).length ∧
      ((l.flatMap f).length = (l.flatMap g).length → ∀ c ∈ l, (f c).length = (g c).length) := by
  induction l with
  | nil => exact ⟨le_rfl, fun _ c hc => absurd hc List.not_mem_nil⟩
  | cons c l ih =>
    rw [List.forall_mem_cons] at hle
    obtain ⟨hlen, heq⟩ := ih hle.2
    simp only [List.flatMap_cons, List.length_append, List.forall_mem_cons]
    exact ⟨by omega, fun h => ⟨by omega, heq (by omega)⟩⟩

/-- A list that stays itself when each of its elements gives way to one is one of fixed elements. -/
theorem eq_singleton_of_flatMap {α : Type} {f : α → List α} {l : List α} (hone : ∀ c ∈ l, (f c).length = 1)
    (h : l.flatMap f = l) : ∀ c ∈ l, f c = [c] := by
  induction l with
  | nil => exact fun c hc => absurd hc List.not_mem_nil
  | cons c l ih =>
    rw [List.forall_mem_cons] at hone ⊢
    obtain ⟨x, hx⟩ := List.length_eq_one_iff.mp hone.1
    rw [List.flatMap_cons, hx, List.singleton_append, List.cons.injEq] at h
    exact ⟨hx.trans (by rw [h.1]), ih hone.2 h.2⟩

variable (T) in
/-- The call returns 0, or the length of a buffer that has every character decomposed,
whatever is in the buffer behind the characters. -/
def CompatibilityDecomposesRight (maxBufferLength : Nat) (chars : List Nat) : Prop :=
  ∀ junk : List Nat, junk.length = maxBufferLength - chars.length →
    ∃ rounds length buffer,
      compatibilityDecompose T maxBufferLength chars.length rounds (chars ++ junk) 0 chars.length =
        some (length, buffer) ∧
      (length = 0 ∨ (length = (chars.flatMap (fullyDecomposed T)).length ∧
        buffer.take length.toNat = chars.flatMap (fullyDecomposed T)))

theorem Scanned.length_eq (h : Scanned T chars junk done rest buffer p length) :
    length = (done.flatMap (decomposed T) ++ rest).length := by
  rw [h.total, List.length_append, ← h.cursor]

/-- The buffer when one character at most became longer. -/
theorem Scanned.take_eq (h : Scanned T chars junk done rest buffer p length) (hexp : expansions T done ≤ 1) :
    buffer.take length.toNat = done.flatMap (decomposed T) ++ rest := by
  rw [h.total, Int.toNat_natCast]
  refine List.ext_getElem? fun k => ?_
  rw [List.getElem?_take]
  split
  · next hk => exact h.whole hexp k hk
  · next hk =>
    refine (List.getElem?_eq_none ?_).symm
    rw [List.length_append, ← h.cursor]
    omega

/-- The last character of the buffer when two became longer: one that was there before. -/
theorem Scanned.getElem?_last (h : Scanned T chars junk done rest buffer p length) (hexp : 2 ≤ expansions T done) :
    0 < length.toNat ∧
      buffer[length.toNat - 1]? = junk[length.toNat - 1 - chars.length]? := by
  obtain ⟨top, hlo, -, -, -, htwo, hrest⟩ := h.reach
  have htop := htwo hexp
  rw [h.total, Int.toNat_natCast]
  exact ⟨by omega, by rw [hrest _ (by omega), List.getElem?_append_right (by omega)]⟩

/-- Full decompositions that are as long as what the loop left: it had them all, and left nothing
that decomposes to more characters than one. -/
theorem delivers_of_length (hsound : ∀ c ∈ done, Sound T c)
    (h : (done.flatMap (decomposed T) ++ rest).length = ((done ++ rest).flatMap (fullyDecomposed T)).length) :
    (∀ c ∈ done, Delivers T c) ∧ ∀ c ∈ rest, (fullyDecomposed T c).length = 1 := by
  rw [List.flatMap_append, List.length_append, List.length_append] at h
  obtain ⟨hdone, hdoneEq⟩ := length_flatMap_eq (l := done) fun c _ => length_decomposed (T := T) c
  obtain ⟨hrest, hrestEq⟩ := length_flatMap_eq (l := rest) (f := fun c => [c]) (g := fullyDecomposed T)
    fun c _ => List.length_pos_of_ne_nil (fullyDecomposed_ne_nil c)
  rw [List.flatMap_singleton'] at hrest hrestEq
  refine ⟨fun c hc hcompat => ?_, fun c hc => (hrestEq (by omega) c hc).symm⟩
  have hlen := hdoneEq (by omega) c hc
  refine ⟨keeps_of_length hcompat hlen, ?_⟩
  have hfull := (hsound c hc).2
  rwa [hlen, fullyDecomposed, if_pos hcompat] at hfull

/-- Every character is decomposed exactly when the decomposition of one of them has no room in the buffer,
or the code has the decomposition of every character that it reaches, of which one at most
becomes longer, and what it does not reach has nothing to decompose. -/
theorem compatibilityDecomposesRight_iff (T : Tables) (maxBufferLength : Nat) (chars : List Nat) :
    CompatibilityDecomposesRight T maxBufferLength chars ↔
      Refuses T maxBufferLength chars.length 0 chars.length chars ∨
      ((∀ c ∈ reached T chars.length 0 chars, Delivers T c) ∧
        expansions T (reached T chars.length 0 chars) ≤ 1 ∧
        ∀ c ∈ unreached T chars.length 0 chars, fullyDecomposed T c = [c]) := by
  by_cases hrefuses : Refuses T maxBufferLength chars.length 0 chars.length chars
  · refine iff_of_true (fun junk hjunk => ?_) (.inl hrefuses)
    obtain ⟨rounds, buffer, hrun⟩ := scanned_start.refused hjunk hrefuses
    exact ⟨rounds, 0, buffer, hrun, .inl rfl⟩
  rw [or_iff_right hrefuses]
  constructor
  · intro h
    -- behind the characters, one that is not the last of those that belong there
    have hjunk : (List.replicate (maxBufferLength - chars.length)
        ((chars.flatMap (fullyDecomposed T)).getLastD 0 + 1)).length = maxBufferLength - chars.length :=
      List.length_replicate
    obtain ⟨rounds, length, buffer, hrun, hright⟩ := h _ hjunk
    have hsound : ∀ c ∈ reached T chars.length 0 chars, Sound T c := by
      by_contra hunsound
      rw [scanned_start.stuck hjunk hrefuses hunsound rounds] at hrun
      exact absurd hrun (Option.some_ne_none _).symm
    obtain ⟨rounds', buffer', p, length', hrun', hscanned⟩ := scanned_start.finishes hjunk hrefuses hsound
    obtain ⟨rfl, rfl⟩ := Prod.mk.inj (compatibilityDecompose_unique hrun hrun')
    rw [List.nil_append] at hscanned
    obtain ⟨hlength, htake⟩ : length = (chars.flatMap (fullyDecomposed T)).length ∧
        buffer.take length.toNat = chars.flatMap (fullyDecomposed T) := by
      refine hright.elim (fun hzero => ?_) id
      have hlimit := hscanned.limit_le
      have hnil : chars = [] := List.length_eq_zero_iff.mp (by omega)
      rw [hzero, hnil]
      exact ⟨rfl, rfl⟩
    have hsplit := hscanned.split
    obtain ⟨hdelivers, hone⟩ := delivers_of_length hsound (by
      have := hscanned.length_eq
      rw [hlength] at this
      rw [← hsplit]
      exact_mod_cast this.symm)
    have hexp : expansions T (reached T chars.length 0 chars) ≤ 1 := by
      by_contra hexp
      obtain ⟨hpos, hlast⟩ := hscanned.getElem?_last (by omega)
      rw [← List.getElem?_take_of_lt (show length.toNat - 1 < length.toNat by omega), htake,
        show length.toNat - 1 = (chars.flatMap (fullyDecomposed T)).length - 1 by omega,
        ← List.getLast?_eq_getElem?, List.getElem?_replicate] at hlast
      split at hlast
      · have hd := congrArg (·.getD 0) hlast
        simp only [Option.getD_some, ← List.getLastD_eq_getLast?] at hd
        omega
      · rw [List.getLast?_eq_none_iff.mp hlast, List.length_nil] at hlength
        omega
    refine ⟨hdelivers, hexp, eq_singleton_of_flatMap hone ?_⟩
    have hall : chars.flatMap (fullyDecomposed T) = (reached T chars.length 0 chars).flatMap (decomposed T) ++
        (unreached T chars.length 0 chars).flatMap (fullyDecomposed T) := by
      conv_lhs => rw [hsplit, List.flatMap_append]
      rw [List.flatMap_congr fun c hc => (hdelivers c hc).decomposed_eq]
    have hbuffer := hscanned.take_eq hexp
    rw [htake, hall] at hbuffer
    exact List.append_cancel_left hbuffer
  · rintro ⟨hdelivers, hexp, hleft⟩ junk hjunk
    obtain ⟨rounds, buffer, p, length, hrun, hscanned⟩ :=
      scanned_start.finishes hjunk hrefuses fun c hc => (hdelivers c hc).sound
    rw [List.nil_append] at hscanned
    have hall : (reached T chars.length 0 chars).flatMap (decomposed T) ++ unreached T chars.length 0 chars =
        chars.flatMap (fullyDecomposed T) := by
      conv_rhs => rw [hscanned.split, List.flatMap_append]
      rw [List.flatMap_congr fun c hc => (hdelivers c hc).decomposed_eq, List.flatMap_congr hleft,
        List.flatMap_singleton']
    refine ⟨rounds, length, buffer, hrun, .inr ⟨?_, ?_⟩⟩
    · rw [hscanned.length_eq, hall]
    · rw [hscanned.take_eq hexp, hall]

/-- The tables of U+FB01, the ligature of the letters f and i. -/
def ligature : Tables where
  isDecomposable _ := false
  isCompatibilityDecomposable c := c == 0xFB01
  canonical _ := .plain []
  compatibility c := if c = 0xFB01 then [0x66, 0x69] else []
  rank c := if c = 0xFB01 then 1 else 0
  rank_canonical h := by simp at h
  rank_compatibility {c m} h := by
    split at h
    · simp only [List.mem_cons, List.not_mem_nil, or_false] at h
      obtain rfl | rfl := h <;> simp [*]
    · simp at h

theorem isCompatibilityDecomposable_ligature : ligature.isCompatibilityDecomposable 0xFB01 = true := rfl

theorem recursivelyCompatibilityDecompose_ligature :
    recursivelyCompatibilityDecompose ligature 0xFB01 = [0x66, 0x69] := by
  rw [recursivelyCompatibilityDecompose_eq]
  rfl

/-- Of two ligatures, the second is moved past the end of the loop. -/
theorem not_compatibilityDecomposesRight_ligatures :
    ¬ CompatibilityDecomposesRight ligature 8 [0xFB01, 0xFB01] := by
  intro h
  obtain ⟨rounds, length, buffer, hrun, hright⟩ := h [0, 0, 0, 0, 0, 0] rfl
  have hcode : compatibilityDecompose ligature 8 2 2 [0xFB01, 0xFB01, 0, 0, 0, 0, 0, 0] 0 2 =
      some (3, [0x66, 0x69, 0xFB01, 0, 0, 0, 0, 0]) := by
    simp [compatibilityDecompose, recursivelyCompatibilityDecompose_ligature, isCompatibilityDecomposable_ligature,
      maxCompDecompLen, expand, moveBufferFromEnd1, storeCharacters]
  have hfull : [0xFB01, 0xFB01].flatMap (fullyDecomposed ligature) = [0x66, 0x69, 0x66, 0x69] := by
    have hone : fullyDecomposed ligature 0xFB01 = [0x66, 0x69] := by
      rw [fullyDecomposed, if_pos isCompatibilityDecomposable_ligature,
        fullCompatibilityDecomposition_eq (by simp [ligature])]
      rfl
    simp [hone]
  obtain ⟨rfl, rfl⟩ := Prod.mk.inj (compatibilityDecompose_unique hrun hcode)
  rw [hfull] at hright
  simp at hright

end CFLite.Strings.Decomposing
