import Mathlib.Data.List.Count
import Mathlib.Data.List.Perm.Basic
import CFLite.Date.TimeZone

/-!
# The periods of a time zone

* `gmtOffset_init`: an offset fits a period when its absolute value has 16 bits;
* `readCounts_spec`, `readTransition_isSome`: the checks of the header keep
  every fixed-size read inside the data;
* `parseLoop_spec`: the transitions up to the first one with an error become
  periods, each holding its abbreviation once;
* `parseTimeZoneData_iff`: exactly when the parser does all that is expected of
  it.
-/

namespace CFLite.TimeZone

open Framework Sorting

/-! ## The info of a period -/

theorem bitfieldSetValue_above {v n1 n2 : Nat} (h : v < 2 ^ n2) (x : Nat) :
    bitfieldSetValue v n1 n2 x = v + x % 2 ^ (n1 - n2 + 1) * 2 ^ n2 := by
  rw [bitfieldSetValue, bitfieldGetValue, Nat.div_eq_of_lt h, Nat.zero_mod, Nat.zero_mul, Nat.sub_zero]

theorem info_init (startTime : Int) (abbreviation : Option Abbreviation) (offset : Int) (isDST : Bool) :
    (TZPeriod.init startTime abbreviation offset isDST).info =
      offset.natAbs % 65536 + (if offset < 0 then 1 else 0) * 65536 + (if isDST then 1 else 0) * 131072 := by
  have hlow : offset.natAbs % 2 ^ 16 < 2 ^ 16 := Nat.mod_lt _ (by decide)
  have hsign : ∀ n, n < 2 ^ 16 → n + (if offset < 0 then 1 else 0) % 2 ^ (16 - 16 + 1) * 2 ^ 16 < 2 ^ 17 := by
    intro n hn
    split <;> omega
  rw [TZPeriod.init]
  dsimp only
  rw [bitfieldSetValue_above (by decide : 0 < 2 ^ 0), Nat.zero_add, Nat.pow_zero, Nat.mul_one,
    bitfieldSetValue_above hlow, bitfieldSetValue_above (hsign _ hlow)]
  split <;> split <;> rfl

theorem gmtOffset_init (startTime : Int) (abbreviation : Option Abbreviation) (offset : Int) (isDST : Bool) :
    (TZPeriod.init startTime abbreviation offset isDST).gmtOffset = offset ↔ offset.natAbs < 2 ^ 16 := by
  have hlow : bitfieldGetValue (TZPeriod.init startTime abbreviation offset isDST).info 15 0 = offset.natAbs % 65536 := by
    rw [info_init, bitfieldGetValue]
    split <;> split <;> omega
  have hsign : bitfieldGetValue (TZPeriod.init startTime abbreviation offset isDST).info 16 16 ≠ 0 ↔ offset < 0 := by
    rw [info_init, bitfieldGetValue]
    split <;> split <;> omega
  rw [TZPeriod.gmtOffset, hlow]
  simp only [hsign]
  split <;> omega

theorem isDST_init (startTime : Int) (abbreviation : Option Abbreviation) (offset : Int) (isDST : Bool) :
    (TZPeriod.init startTime abbreviation offset isDST).isDST = isDST := by
  rw [TZPeriod.isDST, info_init, bitfieldGetValue]
  cases isDST
  · rw [bne_eq_false_iff_eq]
    split <;> simp <;> omega
  · rw [bne_iff_ne]
    split <;> simp <;> omega

/-! ## Reads within the data -/

theorem detzcode_isSome (bytes : List UInt8) (p : Nat) (h : p + 4 ≤ bytes.length) : ∃ code, detzcode bytes p = some code := by
  have hget : ∀ i < 4, ∃ b, bytes[p + i]? = some b := fun i hi => ⟨_, List.getElem?_eq_getElem (by omega)⟩
  obtain ⟨b0, h0⟩ := hget 0 (by decide)
  obtain ⟨b1, h1⟩ := hget 1 (by decide)
  obtain ⟨b2, h2⟩ := hget 2 (by decide)
  obtain ⟨b3, h3⟩ := hget 3 (by decide)
  rw [Nat.add_zero] at h0
  rw [← Option.isSome_iff_exists, detzcode]
  simp only [h0, h1, h2, h3, Option.bind_eq_bind, Option.bind_some, Option.pure_def, Option.isSome_some]

/-- The data holds the header and the arrays that the counts announce, and the
counts are small. -/
structure Fits (bytes : List UInt8) (c : Counts) : Prop where
  typecnt_pos : 0 < c.typecnt
  charcnt_le : c.charcnt ≤ 128
  fits : sizeOfTzhead + 5 * c.timecnt + 6 * c.typecnt + c.charcnt ≤ bytes.length

theorem readCounts_spec (bytes : List UInt8) :
    readCounts bytes = some none ∨ ∃ c, readCounts bytes = some (some c) ∧ Fits bytes c := by
  unfold readCounts
  have hlen : (BitVec.ofNat 32 bytes.length).toInt ≤ bytes.length := by
    rw [BitVec.toInt_eq_toNat_cond, BitVec.toNat_ofNat]
    split <;> omega
  generalize (BitVec.ofNat 32 bytes.length).toInt = len at hlen
  have hhead : (sizeOfTzhead : Int) = 44 := rfl
  dsimp only
  split
  · exact Or.inl rfl
  · rename_i hlong
    have hget : ∀ i < 4, ∃ b, bytes[i]? = some b := fun i hi => ⟨_, List.getElem?_eq_getElem (by omega)⟩
    obtain ⟨b0, h0⟩ := hget 0 (by decide)
    obtain ⟨b1, h1⟩ := hget 1 (by decide)
    obtain ⟨b2, h2⟩ := hget 2 (by decide)
    obtain ⟨b3, h3⟩ := hget 3 (by decide)
    obtain ⟨timecnt, htime⟩ := detzcode_isSome bytes 32 (by omega)
    obtain ⟨typecnt, htype⟩ := detzcode_isSome bytes 36 (by omega)
    obtain ⟨charcnt, hchar⟩ := detzcode_isSome bytes 40 (by omega)
    simp only [h0, h1, h2, h3, htime, htype, hchar, Option.bind_eq_bind, Option.bind_some, Option.pure_def]
    split
    · exact Or.inl rfl
    · split
      · exact Or.inl rfl
      · rename_i hpos
        split
        · exact Or.inl rfl
        · rename_i hsmall
          split
          · exact Or.inl rfl
          · rename_i hroom
            refine Or.inr ⟨_, rfl, ?_, ?_, ?_⟩ <;> dsimp only <;> omega

theorem readTransition_isSome {bytes : List UInt8} {c : Counts} (h : Fits bytes c) {idx : Nat} (hidx : idx < c.cnt) :
    (∃ t, readTransition bytes c idx = some (some t) ∧ t.abbridx ≤ c.charcnt) ∨ readTransition bytes c idx = some none := by
  obtain ⟨hpos, -, hfits⟩ := h
  have hhead : sizeOfTzhead = 44 := rfl
  have hcnt : 4 * idx + 4 ≤ 4 * c.timecnt + 6 := by
    unfold Counts.cnt at hidx
    split at hidx <;> omega
  obtain ⟨type, htype⟩ : ∃ type, readType bytes c idx = some type := by
    unfold readType
    split
    · have hlt : c.typep + idx < bytes.length := by
        unfold Counts.cnt at hidx
        simp only [Counts.typep, Counts.timep]
        split at hidx <;> omega
      exact ⟨_, by rw [List.getElem?_eq_getElem hlt]; rfl⟩
    · exact ⟨0, rfl⟩
  obtain ⟨code, hcode⟩ := detzcode_isSome bytes (sizeOfTzhead + 4 * idx) (by omega)
  unfold readTransition
  simp only [Counts.ttisp, Counts.typep, Counts.timep]
  simp only [hcode, htype, Option.bind_eq_bind, Option.bind_some, Option.pure_def]
  split
  · exact Or.inr rfl
  · rename_i hknown
    obtain ⟨offset, hoffset⟩ := detzcode_isSome bytes (sizeOfTzhead + 4 * c.timecnt + c.timecnt + 6 * type) (by omega)
    have hget : ∀ i < 6, ∃ b, bytes[sizeOfTzhead + 4 * c.timecnt + c.timecnt + 6 * type + i]? = some b :=
      fun i hi => ⟨_, List.getElem?_eq_getElem (by omega)⟩
    obtain ⟨dst, hdst⟩ := hget 4 (by decide)
    obtain ⟨abbridx, habbridx⟩ := hget 5 (by decide)
    simp only [hoffset, hdst, habbridx, Option.bind_some]
    split
    · exact Or.inr rfl
    · split
      · exact Or.inr rfl
      · rename_i hindex
        exact Or.inl ⟨_, rfl, Nat.not_lt.mp hindex⟩

/-! ## The loop over the transitions -/

/-- The transitions before the first one with an error, and whether they are
all. -/
def leading (bytes : List UInt8) (c : Counts) : (n idx : Nat) → Bool × List Transition
  | 0, _ => (true, [])
  | n + 1, idx =>
    match readTransition bytes c idx with
    | some (some t) => ((leading bytes c n (idx + 1)).1, t :: (leading bytes c n (idx + 1)).2)
    | _ => (false, [])

/-- The characters of the abbreviation at an index of the table, if they end in
the data. -/
def characters (bytes : List UInt8) (c : Counts) (abbridx : Nat) : Option (List UInt8) :=
  cString (bytes.drop (c.charp + abbridx))

theorem cString_isSome {bytes : List UInt8} : (cString bytes).isSome ↔ 0 ∈ bytes := by
  induction bytes with
  | nil => simp [cString]
  | cons b rest ih =>
    rw [cString, List.mem_cons]
    split
    · rename_i hb
      simp [hb]
    · rename_i hb
      rw [Option.isSome_map, ih]
      exact ⟨Or.inr, fun h => h.resolve_left (Ne.symm hb)⟩

/-- The abbreviation of a transition. -/
def Transition.abbreviation (bytes : List UInt8) (c : Counts) (t : Transition) : Abbreviation :=
  ⟨t.abbridx, (characters bytes c t.abbridx).getD []⟩

/-- The period of a transition. -/
def Transition.period (bytes : List UInt8) (c : Counts) (t : Transition) : TZPeriod :=
  .init t.itime (some (t.abbreviation bytes c)) t.offset t.dst

/-- The arrays once the transitions `done` are stored: an abbreviation is held
once by its place in the array, and once by each of its periods. -/
structure Stored (bytes : List UInt8) (c : Counts) (done : List Transition) (s : ParseState) : Prop where
  periods : ∃ rest : List TZPeriod, s.periods = done.map (Transition.period bytes c) ++ rest ∧
    done.length + rest.length = c.cnt
  length_abbrs : s.abbrs.length = c.charcnt + 1
  created : ∀ i a, s.abbrs[i]? = some (some a) → a.abbridx = i ∧ characters bytes c i = some a.characters
  retains : ∀ a, s.retains a = (done.map (Transition.abbreviation bytes c)).count a + s.abbrs.count (some a)

theorem retain_apply (retains : Abbreviation → Nat) (a b : Abbreviation) :
    retain retains a b = retains b + if a = b then 1 else 0 := by
  rw [retain, Function.update_apply]
  by_cases h : b = a
  · rw [if_pos h, if_pos h.symm, h]
  · rw [if_neg h, if_neg (Ne.symm h), Nat.add_zero]

/-- The abbreviation of a transition is there, or can be created. -/
theorem createAbbreviation_spec {bytes : List UInt8} {c : Counts} {done : List Transition} {s : ParseState}
    (h : Stored bytes c done s) {abbridx : Nat} (hidx : abbridx ≤ c.charcnt) :
    (∃ s' a, createAbbreviation bytes c abbridx s = some s' ∧ Stored bytes c done s' ∧ s'.periods = s.periods ∧
      s'.abbrs[abbridx]? = some (some a) ∧ characters bytes c abbridx = some a.characters) ∨
    (createAbbreviation bytes c abbridx s = none ∧ characters bytes c abbridx = none) := by
  have hlt : abbridx < s.abbrs.length := by rw [h.length_abbrs]; omega
  unfold createAbbreviation
  simp only [Option.bind_eq_bind, Option.pure_def]
  cases hslot : s.abbrs[abbridx]? with
  | none => exact absurd hslot (by rw [List.getElem?_eq_getElem hlt]; exact Option.some_ne_none _)
  | some slot =>
    rw [Option.bind_some]
    cases slot with
    | some a => exact Or.inl ⟨s, a, rfl, h, rfl, hslot, (h.created _ _ hslot).2⟩
    | none =>
      dsimp only
      cases hchars : characters bytes c abbridx with
      | none =>
        rw [show cString (bytes.drop (c.charp + abbridx)) = none from hchars]
        exact Or.inr ⟨rfl, rfl⟩
      | some chars =>
        rw [show cString (bytes.drop (c.charp + abbridx)) = some chars from hchars, Option.bind_some, write_eq hlt]
        refine Or.inl ⟨_, ⟨abbridx, chars⟩, rfl, ⟨h.periods, ?_, ?_, ?_⟩, rfl, List.getElem?_set_self hlt, rfl⟩
        · exact List.length_set.trans h.length_abbrs
        · intro i a hi
          by_cases hia : abbridx = i
          · subst hia
            rw [List.getElem?_set_self hlt] at hi
            obtain rfl := Option.some.inj (Option.some.inj hi)
            exact ⟨rfl, hchars⟩
          · rw [List.getElem?_set_ne hia] at hi
            exact h.created i a hi
        · intro a
          have hget : s.abbrs[abbridx] = none :=
            (Option.some.inj (hslot.symm.trans (List.getElem?_eq_getElem hlt))).symm
          dsimp only
          rw [retain_apply, h.retains a, List.count_set hlt, hget]
          simp [Nat.add_assoc]

theorem storePeriod_spec {bytes : List UInt8} {c : Counts} {done : List Transition} {s : ParseState}
    (h : Stored bytes c done s) {t : Transition} (hidx : t.abbridx ≤ c.charcnt) (hroom : done.length < c.cnt) :
    (∃ s', storePeriod bytes c done.length t s = some s' ∧ Stored bytes c (done ++ [t]) s' ∧
      (characters bytes c t.abbridx).isSome) ∨
    (storePeriod bytes c done.length t s = none ∧ characters bytes c t.abbridx = none) := by
  unfold storePeriod
  simp only [Option.bind_eq_bind, Option.pure_def]
  rcases createAbbreviation_spec h hidx with ⟨s', a, hcreate, hs', hperiods, hslot, hchars⟩ | ⟨hcreate, hchars⟩
  · obtain ⟨rest, hrest, hlen⟩ := hs'.periods
    obtain ⟨zero, rest, rfl⟩ := List.exists_cons_of_length_pos (show 0 < rest.length by omega)
    have habbreviation : t.abbreviation bytes c = a := by
      have hidx' := (hs'.created _ _ hslot).1
      rw [Transition.abbreviation, hchars, Option.getD_some, ← hidx']
    have hwrite : write s'.periods done.length (t.period bytes c) =
        some ((done ++ [t]).map (Transition.period bytes c) ++ rest) := by
      rw [write_eq (by rw [hrest]; simp), hrest, List.set_append_right _ _ (by simp)]
      simp
    rw [hcreate, Option.bind_some, hslot, Option.bind_some, ← habbreviation]
    rw [show TZPeriod.init t.itime (some (t.abbreviation bytes c)) t.offset t.dst = t.period bytes c from rfl, hwrite]
    refine Or.inl ⟨_, rfl, ⟨⟨rest, rfl, ?_⟩, hs'.length_abbrs, hs'.created, fun b => ?_⟩, by rw [hchars]; rfl⟩
    · simp only [List.length_append, List.length_cons, List.length_nil] at hlen ⊢
      omega
    · dsimp only
      rw [retain_apply, hs'.retains b, List.map_append, List.count_append]
      simp [List.count_singleton]
      omega
  · exact Or.inr ⟨by rw [hcreate]; rfl, hchars⟩

/-- The loop stores the leading transitions, when all their abbreviations end
in the data, and leaves the data otherwise. -/
theorem parseLoop_spec {bytes : List UInt8} {c : Counts} (hc : Fits bytes c) {done : List Transition} {s : ParseState}
    (h : Stored bytes c done s) {n : Nat} (hn : done.length + n = c.cnt) :
    (∃ s', parseLoop bytes c n done.length s = some ((leading bytes c n done.length).1, s') ∧
      Stored bytes c (done ++ (leading bytes c n done.length).2) s' ∧
      ∀ t ∈ (leading bytes c n done.length).2, (characters bytes c t.abbridx).isSome) ∨
    (parseLoop bytes c n done.length s = none ∧
      ∃ t ∈ (leading bytes c n done.length).2, characters bytes c t.abbridx = none) := by
  induction n generalizing done s with
  | zero =>
    refine Or.inl ⟨s, rfl, ?_, fun t ht => absurd ht List.not_mem_nil⟩
    rwa [leading, List.append_nil]
  | succ n ih =>
    rw [parseLoop, leading]
    rcases readTransition_isSome hc (show done.length < c.cnt by omega) with ⟨t, hread, hidx⟩ | hread
    · simp only [hread, Option.bind_eq_bind, Option.bind_some]
      rcases storePeriod_spec h hidx (by omega) with ⟨s₁, hstore, hstored, hchars⟩ | ⟨hstore, hchars⟩
      · have hnext := ih hstored (by rw [List.length_append, List.length_singleton]; omega)
        rw [List.length_append, List.length_singleton, List.append_assoc, List.singleton_append] at hnext
        rw [hstore, Option.bind_some]
        rcases hnext with ⟨s', hloop, hs', hall⟩ | ⟨hloop, t', ht', hnone⟩
        · refine Or.inl ⟨s', hloop, hs', fun t' ht' => ?_⟩
          rcases List.mem_cons.mp ht' with rfl | ht'
          · exact hchars
          · exact hall t' ht'
        · exact Or.inr ⟨hloop, t', List.mem_cons_of_mem t ht', hnone⟩
      · exact Or.inr ⟨by rw [hstore]; rfl, t, List.mem_cons_self, hchars⟩
    · simp only [hread, Option.bind_eq_bind, Option.bind_some]
      refine Or.inl ⟨s, rfl, ?_, fun t ht => absurd ht List.not_mem_nil⟩
      rwa [List.append_nil]

theorem releaseAbbrev_apply (retains : Abbreviation → Nat) (slot : Option Abbreviation) (a : Abbreviation) :
    releaseAbbrev retains slot a = retains a - if slot = some a then 1 else 0 := by
  cases slot with
  | none => simp [releaseAbbrev]
  | some b =>
    rw [releaseAbbrev, Function.update_apply]
    by_cases h : a = b
    · simp [h]
    · rw [if_neg h, if_neg fun he => h (Option.some.inj he).symm, Nat.sub_zero]

/-- Each string of the array is released once. -/
theorem foldl_releaseAbbrev (abbrs : List (Option Abbreviation)) (retains : Abbreviation → Nat) (a : Abbreviation) :
    abbrs.foldl releaseAbbrev retains a = retains a - abbrs.count (some a) := by
  induction abbrs generalizing retains with
  | nil => rfl
  | cons slot abbrs ih =>
    rw [List.foldl_cons, ih, releaseAbbrev_apply, List.count_cons, Nat.sub_sub, Nat.add_comm]
    simp only [beq_iff_eq]

/-! ## Dropping -/

section Superseded

variable {β : Type} (start : β → Int) (bound : Int)

/-- Of neighbours at the bound the last one is kept. -/
def keepLast : List β → List β
  | [] => []
  | [a] => [a]
  | a :: b :: l => if start a = bound ∧ start b = bound then keepLast (b :: l) else a :: keepLast (b :: l)

/-- Of neighbours at the bound the first one is kept, which may be `prev`. -/
def keepFirstAfter (prev : β) : List β → List β
  | [] => []
  | a :: l => if start a = bound ∧ start prev = bound then keepFirstAfter prev l else a :: keepFirstAfter a l

/-- Of neighbours at the bound the first one is kept. -/
def keepFirst : List β → List β
  | [] => []
  | a :: l => a :: keepFirstAfter start bound a l

variable {start bound}

theorem keepLast_cons (a : β) (l : List β) :
    keepLast start bound (a :: l) =
      if start a = bound ∧ l.head?.map start = some bound then keepLast start bound l else a :: keepLast start bound l := by
  cases l with
  | nil => simp [keepLast]
  | cons b l => simp [keepLast]

theorem keepLast_map {γ : Type} (f : γ → β) (l : List γ) :
    keepLast start bound (l.map f) = (keepLast (fun c => start (f c)) bound l).map f := by
  induction l with
  | nil => rfl
  | cons a l ih =>
    rw [List.map_cons, keepLast_cons, keepLast_cons, ih, List.head?_map, Option.map_map]
    simp only [Function.comp_def]
    split
    · rfl
    · rfl

theorem keepFirstAfter_map {γ : Type} (f : γ → β) (prev : γ) (l : List γ) :
    keepFirstAfter start bound (f prev) (l.map f) = (keepFirstAfter (fun c => start (f c)) bound prev l).map f := by
  induction l generalizing prev with
  | nil => rfl
  | cons a l ih =>
    rw [List.map_cons, keepFirstAfter, keepFirstAfter, ih prev, ih a]
    split
    · rfl
    · rfl

theorem keepFirst_map {γ : Type} (f : γ → β) (l : List γ) :
    keepFirst start bound (l.map f) = (keepFirst (fun c => start (f c)) bound l).map f := by
  cases l with
  | nil => rfl
  | cons a l => rw [List.map_cons, keepFirst, keepFirst, keepFirstAfter_map, List.map_cons]

theorem keepLast_sublist (l : List β) : (keepLast start bound l).Sublist l := by
  induction l with
  | nil => exact List.Sublist.refl _
  | cons a l ih =>
    rw [keepLast_cons]
    split
    · exact ih.cons a
    · exact ih.cons_cons a

theorem keepFirstAfter_sublist (prev : β) (l : List β) : (keepFirstAfter start bound prev l).Sublist l := by
  induction l generalizing prev with
  | nil => exact List.Sublist.refl _
  | cons a l ih =>
    rw [keepFirstAfter]
    split
    · exact (ih prev).cons a
    · exact (ih a).cons_cons a

theorem keepFirst_sublist (l : List β) : (keepFirst start bound l).Sublist l := by
  cases l with
  | nil => exact List.Sublist.refl _
  | cons a l => exact (keepFirstAfter_sublist a l).cons_cons a

theorem keepLast_ne_nil {l : List β} (h : l ≠ []) : keepLast start bound l ≠ [] := by
  induction l with
  | nil => exact absurd rfl h
  | cons a l ih =>
    rw [keepLast_cons]
    split
    · rename_i hdrop
      refine ih fun hnil => ?_
      rw [hnil] at hdrop
      exact Option.some_ne_none bound hdrop.2.symm
    · exact List.cons_ne_nil _ _

theorem keepFirst_ne_nil {l : List β} (h : l ≠ []) : keepFirst start bound l ≠ [] := by
  cases l with
  | nil => exact absurd rfl h
  | cons a l => exact List.cons_ne_nil _ _

/-- Nothing is dropped that is not at the bound. -/
theorem keepLast_filter (l : List β) :
    (keepLast start bound l).filter (start · ≠ bound) = l.filter (start · ≠ bound) := by
  induction l with
  | nil => rfl
  | cons a l ih =>
    rw [keepLast_cons]
    split
    · rename_i hdrop
      rw [ih, List.filter_cons_of_neg (by simpa using hdrop.1)]
    · rw [List.filter_cons, ih, List.filter_cons]

theorem keepFirstAfter_filter (prev : β) (l : List β) :
    (keepFirstAfter start bound prev l).filter (start · ≠ bound) = l.filter (start · ≠ bound) := by
  induction l generalizing prev with
  | nil => rfl
  | cons a l ih =>
    rw [keepFirstAfter]
    split
    · rename_i hdrop
      rw [ih, List.filter_cons_of_neg (by simpa using hdrop.1)]
    · rw [List.filter_cons, ih, List.filter_cons]

theorem keepFirst_filter (l : List β) :
    (keepFirst start bound l).filter (start · ≠ bound) = l.filter (start · ≠ bound) := by
  cases l with
  | nil => rfl
  | cons a l => rw [keepFirst, List.filter_cons, keepFirstAfter_filter, List.filter_cons]

end Superseded

/-- Every abbreviation is held by its periods, and by nothing else. -/
def Balanced (periods : List TZPeriod) (retains : Abbreviation → Nat) : Prop :=
  ∀ a, retains a = (periods.map TZPeriod.abbreviation).count (some a)

/-- A period is dropped with the reference that it holds. -/
theorem Balanced.release {periods periods' : List TZPeriod} {period : TZPeriod} {retains : Abbreviation → Nat}
    (h : Balanced periods retains) (hperm : periods.Perm (period :: periods')) :
    Balanced periods' (releaseAbbrev retains period.abbreviation) := by
  intro a
  rw [releaseAbbrev_apply, h a, (hperm.map TZPeriod.abbreviation).count_eq, List.map_cons, List.count_cons]
  simp

theorem Balanced.eraseIdx {periods : List TZPeriod} {retains : Abbreviation → Nat} (h : Balanced periods retains) {idx : Nat}
    (hidx : idx < periods.length) :
    Balanced (periods.eraseIdx idx) (releaseAbbrev retains periods[idx].abbreviation) :=
  h.release (List.getElem_cons_eraseIdx_perm hidx).symm

theorem take_eraseIdx_self {β : Type} {l : List β} {idx : Nat} (h : idx < l.length) : (l.eraseIdx idx).take idx = l.take idx := by
  rw [List.eraseIdx_eq_take_drop_succ, List.take_left' (List.length_take_of_le h.le)]

theorem drop_eraseIdx_self {β : Type} {l : List β} {idx : Nat} (h : idx < l.length) :
    (l.eraseIdx idx).drop idx = l.drop (idx + 1) := by
  rw [List.eraseIdx_eq_take_drop_succ, List.drop_left' (List.length_take_of_le h.le)]

theorem dropLowLoop_spec (idx : Nat) {periods : List TZPeriod} {retains : Abbreviation → Nat} (h : Balanced periods retains) :
    (dropLowLoop idx periods retains).1 =
      periods.take idx ++ keepLast TZPeriod.startSec intMin (periods.drop idx) ∧
    Balanced (dropLowLoop idx periods retains).1 (dropLowLoop idx periods retains).2 := by
  induction idx, periods, retains using dropLowLoop.induct with
  | case1 idx periods retains hidx hdrop ih =>
    obtain ⟨hlist, hbalanced⟩ := ih (h.eraseIdx hidx)
    rw [dropLowLoop, dif_pos hidx, if_pos hdrop]
    refine ⟨?_, hbalanced⟩
    rw [hlist, take_eraseIdx_self hidx, drop_eraseIdx_self hidx, List.drop_eq_getElem_cons hidx, keepLast_cons,
      List.head?_drop, if_pos hdrop]
  | case2 idx periods retains hidx hkeep ih =>
    obtain ⟨hlist, hbalanced⟩ := ih h
    rw [dropLowLoop, dif_pos hidx, if_neg hkeep]
    refine ⟨?_, hbalanced⟩
    rw [hlist, List.drop_eq_getElem_cons hidx, keepLast_cons, List.head?_drop, if_neg hkeep,
      List.take_succ_eq_append_getElem hidx, List.append_assoc, List.singleton_append]
  | case3 idx periods retains hidx =>
    rw [dropLowLoop, dif_neg hidx]
    refine ⟨?_, h⟩
    rw [List.drop_eq_nil_of_le (Nat.not_lt.mp hidx), keepLast, List.append_nil, List.take_of_length_le (Nat.not_lt.mp hidx)]

theorem dropHighLoop_spec {idx : Nat} {periods : List TZPeriod} {retains : Abbreviation → Nat} (h : Balanced periods retains)
    (hpos : 0 < idx) {prev : TZPeriod} (hprev : periods[idx - 1]? = some prev) :
    (dropHighLoop idx periods retains).1 =
      periods.take idx ++ keepFirstAfter TZPeriod.startSec intMax prev (periods.drop idx) ∧
    Balanced (dropHighLoop idx periods retains).1 (dropHighLoop idx periods retains).2 := by
  induction idx, periods, retains using dropHighLoop.induct generalizing prev with
  | case1 idx periods retains hidx hdrop ih =>
    have hbefore : (periods.eraseIdx idx)[idx - 1]? = some prev := by
      rw [List.getElem?_eraseIdx_of_lt (by omega), hprev]
    obtain ⟨hlist, hbalanced⟩ := ih (h.eraseIdx hidx) hpos hbefore
    have hsuperseded : periods[idx].startSec = intMax ∧ prev.startSec = intMax := by
      rw [hprev] at hdrop
      exact ⟨hdrop.1, Option.some.inj hdrop.2.2⟩
    rw [dropHighLoop, dif_pos hidx, if_pos hdrop]
    refine ⟨?_, hbalanced⟩
    rw [hlist, take_eraseIdx_self hidx, drop_eraseIdx_self hidx, List.drop_eq_getElem_cons hidx, keepFirstAfter,
      if_pos hsuperseded]
  | case2 idx periods retains hidx hkeep ih =>
    obtain ⟨hlist, hbalanced⟩ := ih h (Nat.succ_pos idx) (List.getElem?_eq_getElem hidx)
    have hstays : ¬ (periods[idx].startSec = intMax ∧ prev.startSec = intMax) := by
      rintro ⟨hmax, hprevMax⟩
      rw [hprev] at hkeep
      exact hkeep ⟨hmax, hpos, congrArg some hprevMax⟩
    rw [dropHighLoop, dif_pos hidx, if_neg hkeep]
    refine ⟨?_, hbalanced⟩
    rw [hlist, List.drop_eq_getElem_cons hidx, keepFirstAfter, if_neg hstays, List.take_succ_eq_append_getElem hidx,
      List.append_assoc, List.singleton_append]
  | case3 idx periods retains hidx =>
    rw [dropHighLoop, dif_neg hidx]
    refine ⟨?_, h⟩
    rw [List.drop_eq_nil_of_le (Nat.not_lt.mp hidx), keepFirstAfter, List.append_nil,
      List.take_of_length_le (Nat.not_lt.mp hidx)]

/-- Both loops together. -/
theorem dropLoops_spec {periods : List TZPeriod} {retains : Abbreviation → Nat} (h : Balanced periods retains) :
    (dropHighLoop 0 (dropLowLoop 0 periods retains).1 (dropLowLoop 0 periods retains).2).1 =
      keepFirst TZPeriod.startSec intMax (keepLast TZPeriod.startSec intMin periods) ∧
    Balanced (dropHighLoop 0 (dropLowLoop 0 periods retains).1 (dropLowLoop 0 periods retains).2).1
      (dropHighLoop 0 (dropLowLoop 0 periods retains).1 (dropLowLoop 0 periods retains).2).2 := by
  obtain ⟨hlow, hbalanced⟩ := dropLowLoop_spec 0 h
  rw [List.take_zero, List.nil_append, List.drop_zero] at hlow
  generalize dropLowLoop 0 periods retains = low at hlow hbalanced ⊢
  obtain ⟨kept, retains⟩ := low
  dsimp only at hlow hbalanced ⊢
  rw [← hlow]
  cases kept with
  | nil =>
    have hstop : dropHighLoop 0 [] retains = ([], retains) := by
      rw [dropHighLoop]
      rfl
    rw [hstop]
    exact ⟨rfl, hbalanced⟩
  | cons first rest =>
    have hprev : (first :: rest)[1 - 1]? = some first := rfl
    obtain ⟨hhigh, hbalanced'⟩ := dropHighLoop_spec hbalanced Nat.one_pos hprev
    have hstep : dropHighLoop 0 (first :: rest) retains = dropHighLoop 1 (first :: rest) retains := by
      have hpos : 0 < (first :: rest).length := Nat.succ_pos _
      rw [dropHighLoop, dif_pos hpos, if_neg fun h => absurd h.2.1 (Nat.lt_irrefl 0)]
    rw [hstep]
    exact ⟨hhigh, hbalanced'⟩

/-! ## Sorting -/

/-- Periods are compared by their start, apart from the answer for equal
ones. -/
theorem compareTZPeriods_gt (a b : TZPeriod) :
    compareTZPeriods a b = .gt ↔ compare a.startSec b.startSec = .gt := by
  rw [compareTZPeriods, compare_gt_iff_gt]
  split
  · rename_i hle
    exact ⟨(nomatch ·), fun h => absurd hle (not_le.mpr h)⟩
  · rename_i hlt
    exact ⟨fun _ => not_le.mp hlt, fun _ => rfl⟩

theorem totalPreorder_start {β : Type} (start : β → Int) : TotalPreorder fun a b => compare (start a) (start b) where
  swap a b := by rw [← Std.OrientedCmp.eq_swap]
  trans a b c hab hbc := by
    rw [Ne, compare_gt_iff_gt, not_lt] at hab hbc ⊢
    exact hab.trans hbc

theorem notAfter_start {β : Type} (start : β → Int) (a b : β) :
    NotAfter (fun a b => compare (start a) (start b)) a b ↔ start a ≤ start b := by
  rw [NotAfter, Ne, compare_gt_iff_gt, not_lt]

/-! ## The whole parser -/

/-- A leading daylight element, of several. -/
def withoutLeading {β : Type} (dst : β → Bool) : List β → List β
  | first :: second :: rest => if dst first then second :: rest else first :: second :: rest
  | l => l

/-- The transitions whose periods are handed out: those that no neighbour at
the same end of the range supersedes, in the order of their times, and without
a leading daylight one. -/
def HandedOut (transitions handed : List Transition) : Prop :=
  ∃ sorted, IsStableSort (fun a b => a.itime ≤ b.itime)
      (keepFirst Transition.itime intMax (keepLast Transition.itime intMin transitions)) sorted ∧
    handed = withoutLeading Transition.dst sorted

/-- What a period says. -/
def TZPeriod.contents (period : TZPeriod) : Int × Int × Bool × Option (List UInt8) :=
  (period.startSec, period.gmtOffset, period.isDST, period.abbreviation.map Abbreviation.characters)

/-- What the data says about a transition. -/
def Transition.contents (bytes : List UInt8) (c : Counts) (t : Transition) : Int × Int × Bool × Option (List UInt8) :=
  (t.itime, t.offset, t.dst, characters bytes c t.abbridx)

/-- All that is expected of the parser. It stays within the data and its
arrays; when it fails it leaves no reference behind; and when it succeeds it
hands out at least one period, in order, each with what the data says about its
transition, and each abbreviation is held once by each of its periods. -/
def Expected (bytes : List UInt8) : Prop :=
  ∃ out, parseTimeZoneData bytes = some out ∧
    (out.result = false → out.periods = [] ∧ ∀ a, out.retains a = 0) ∧
    (out.result = true → out.periods ≠ [] ∧ out.periods.Pairwise (fun p q => p.startSec ≤ q.startSec) ∧
      Balanced out.periods out.retains ∧
      ∃ c transitions handed, readCounts bytes = some (some c) ∧ leading bytes c c.cnt 0 = (true, transitions) ∧
        HandedOut transitions handed ∧ out.periods.map TZPeriod.contents = handed.map (Transition.contents bytes c))

/-- Every abbreviation that is needed ends in the data; an error is found with
the first transition or not at all; and the offsets that are handed out have 16
bits. -/
def Harmless (bytes : List UInt8) : Prop :=
  ∀ c, readCounts bytes = some (some c) →
    (∀ t ∈ (leading bytes c c.cnt 0).2, 0 ∈ bytes.drop (c.charp + t.abbridx)) ∧
    ((leading bytes c c.cnt 0).1 = false → (leading bytes c c.cnt 0).2 = []) ∧
    ((leading bytes c c.cnt 0).1 = true →
      ∀ handed, HandedOut (leading bytes c c.cnt 0).2 handed → ∀ t ∈ handed, t.offset.natAbs < 2 ^ 16)

theorem characters_isSome {bytes : List UInt8} {c : Counts} {abbridx : Nat} :
    (characters bytes c abbridx).isSome ↔ 0 ∈ bytes.drop (c.charp + abbridx) :=
  cString_isSome

theorem length_leading {bytes : List UInt8} {c : Counts} {n idx : Nat} (h : (leading bytes c n idx).1 = true) :
    (leading bytes c n idx).2.length = n := by
  induction n generalizing idx with
  | zero => rfl
  | succ n ih =>
    rw [leading] at h ⊢
    split at h
    · exact congrArg Nat.succ (ih h)
    · exact absurd h Bool.false_ne_true

/-- A period says what the data says about its transition when the offset has
16 bits. -/
theorem contents_period_iff {bytes : List UInt8} {c : Counts} {t : Transition}
    (h : (characters bytes c t.abbridx).isSome) :
    (t.period bytes c).contents = t.contents bytes c ↔ t.offset.natAbs < 2 ^ 16 := by
  obtain ⟨chars, hchars⟩ := Option.isSome_iff_exists.mp h
  have habbreviation : (t.period bytes c).abbreviation.map Abbreviation.characters = characters bytes c t.abbridx := by
    rw [hchars]
    exact congrArg some (congrArg (Option.getD · []) hchars)
  rw [TZPeriod.contents, Transition.contents, habbreviation, Transition.period, isDST_init, ← gmtOffset_init, Prod.mk.injEq,
    Prod.mk.injEq]
  exact ⟨fun h => h.2.1, fun h => ⟨rfl, h, rfl⟩⟩

/-- Sorting the periods of transitions. -/
theorem qSortArray_periods (bytes : List UInt8) (c : Counts) (kept : List Transition) :
    ∃ sorted, IsStableSort (fun a b => a.itime ≤ b.itime) kept sorted ∧
      qSortArray (kept.map (Transition.period bytes c)) sizeOfTZPeriod compareTZPeriods =
        some (sorted.map (Transition.period bytes c)) := by
  have hsize : ∀ {β : Type}, sizeOfTZPeriod < 1 → Subsingleton β := fun h => absurd h (by decide)
  obtain ⟨r, hsort, -, hstable⟩ := sortArray_spec 0 (kept.map (Transition.period bytes c)) hsize
    fun a b => compare a.startSec b.startSec
  obtain ⟨sorted, -, -, hsorted⟩ := sortArray_spec 0 kept hsize fun a b => compare a.itime b.itime
  have hmap : IsStableSort (NotAfter fun a b : TZPeriod => compare a.startSec b.startSec)
      (kept.map (Transition.period bytes c)) (sorted.map (Transition.period bytes c)) :=
    (hsorted (totalPreorder_start _)).map fun a b => by rw [notAfter_start, notAfter_start]; rfl
  have hle : (NotAfter fun a b : Transition => compare a.itime b.itime) = fun a b => a.itime ≤ b.itime := by
    funext a b
    exact propext (notAfter_start _ a b)
  refine ⟨sorted, hle ▸ hsorted (totalPreorder_start _), ?_⟩
  rw [qSortArray, sortArray_congr compareTZPeriods_gt, hsort, (hstable (totalPreorder_start _)).unique hmap]

theorem withoutLeading_sublist {β : Type} (dst : β → Bool) (l : List β) : (withoutLeading dst l).Sublist l := by
  unfold withoutLeading
  split
  · split
    · exact List.sublist_cons_self _ _
    · exact List.Sublist.refl _
  · exact List.Sublist.refl _

theorem withoutLeading_ne_nil {β : Type} {dst : β → Bool} {l : List β} (h : l ≠ []) : withoutLeading dst l ≠ [] := by
  unfold withoutLeading
  split
  · split
    · exact List.cons_ne_nil _ _
    · exact List.cons_ne_nil _ _
  · exact h

theorem dropLeadingDST_spec {bytes : List UInt8} {c : Counts} {sorted : List Transition} {retains : Abbreviation → Nat}
    (h : Balanced (sorted.map (Transition.period bytes c)) retains) :
    ∃ retains', dropLeadingDST (sorted.map (Transition.period bytes c)) retains =
        ((withoutLeading Transition.dst sorted).map (Transition.period bytes c), retains') ∧
      Balanced ((withoutLeading Transition.dst sorted).map (Transition.period bytes c)) retains' := by
  cases sorted with
  | nil => exact ⟨retains, rfl, h⟩
  | cons first rest =>
    cases rest with
    | nil => exact ⟨retains, rfl, h⟩
    | cons second rest =>
      simp only [List.map_cons, dropLeadingDST, withoutLeading, Transition.period, isDST_init] at h ⊢
      split
      · exact ⟨_, rfl, h.release (List.Perm.refl _)⟩
      · exact ⟨_, rfl, h⟩

/-- What happens once all transitions are stored. -/
theorem dropAndSort_spec {bytes : List UInt8} {c : Counts} {transitions : List Transition} {retains : Abbreviation → Nat}
    (h : Balanced (transitions.map (Transition.period bytes c)) retains) (hne : transitions ≠ []) :
    ∃ handed retains', HandedOut transitions handed ∧ handed ≠ [] ∧ handed.Pairwise (fun s t => s.itime ≤ t.itime) ∧
      dropAndSort (transitions.map (Transition.period bytes c)) retains =
        some (handed.map (Transition.period bytes c), retains') ∧
      Balanced (handed.map (Transition.period bytes c)) retains' := by
  obtain ⟨hkept, hbalanced⟩ := dropLoops_spec h
  have hstart : (fun t => TZPeriod.startSec (Transition.period bytes c t)) = Transition.itime := rfl
  rw [keepLast_map, keepFirst_map, hstart] at hkept
  obtain ⟨sorted, hsorted, hsort⟩ := qSortArray_periods bytes c
    (keepFirst Transition.itime intMax (keepLast Transition.itime intMin transitions))
  have hperm := hsorted.perm
  have hsortedNe : sorted ≠ [] := fun hnil => by
    rw [hnil] at hperm
    exact keepFirst_ne_nil (keepLast_ne_nil hne) (List.nil_perm.mp hperm)
  have hdrop : dropAndSort (transitions.map (Transition.period bytes c)) retains =
      (qSortArray (dropHighLoop 0 (dropLowLoop 0 (transitions.map (Transition.period bytes c)) retains).1
        (dropLowLoop 0 (transitions.map (Transition.period bytes c)) retains).2).1 sizeOfTZPeriod compareTZPeriods).bind
      fun periods => some (dropLeadingDST periods
        (dropHighLoop 0 (dropLowLoop 0 (transitions.map (Transition.period bytes c)) retains).1
          (dropLowLoop 0 (transitions.map (Transition.period bytes c)) retains).2).2) := rfl
  generalize dropHighLoop 0 (dropLowLoop 0 (transitions.map (Transition.period bytes c)) retains).1
    (dropLowLoop 0 (transitions.map (Transition.period bytes c)) retains).2 = high at hkept hbalanced hdrop
  have hsortedBalanced : Balanced (sorted.map (Transition.period bytes c)) high.2 := by
    intro a
    rw [hbalanced a, hkept]
    exact (((hperm.map (Transition.period bytes c)).map TZPeriod.abbreviation).count_eq _).symm
  obtain ⟨retains', hlead, hend⟩ := dropLeadingDST_spec hsortedBalanced
  refine ⟨withoutLeading Transition.dst sorted, retains', ⟨sorted, hsorted, rfl⟩, withoutLeading_ne_nil hsortedNe,
    hsorted.pairwise.sublist (withoutLeading_sublist _ _), ?_, hend⟩
  rw [hdrop, hkept, hsort, Option.bind_some, hlead]

theorem HandedOut.unique {transitions handed handed' : List Transition} (h : HandedOut transitions handed)
    (h' : HandedOut transitions handed') : handed = handed' := by
  obtain ⟨sorted, hsorted, rfl⟩ := h
  obtain ⟨sorted', hsorted', rfl⟩ := h'
  rw [hsorted.unique hsorted']

theorem HandedOut.mem {transitions handed : List Transition} (h : HandedOut transitions handed) {t : Transition}
    (ht : t ∈ handed) : t ∈ transitions := by
  obtain ⟨sorted, hsorted, rfl⟩ := h
  exact (keepLast_sublist _).mem ((keepFirst_sublist _).mem (hsorted.perm.mem_iff.mp ((withoutLeading_sublist _ _).mem ht)))

/-- Only transitions at an end of the range, and a daylight one before the
others, are not handed out. -/
theorem HandedOut.dropped {transitions handed : List Transition} (h : HandedOut transitions handed) {t : Transition}
    (ht : t ∈ transitions) :
    t ∈ handed ∨ t.itime = intMin ∨ t.itime = intMax ∨ (t.dst = true ∧ ∀ t' ∈ handed, t.itime ≤ t'.itime) := by
  obtain ⟨sorted, hsorted, rfl⟩ := h
  by_cases hmin : t.itime = intMin
  · exact Or.inr (Or.inl hmin)
  · by_cases hmax : t.itime = intMax
    · exact Or.inr (Or.inr (Or.inl hmax))
    · have hlow : t ∈ keepLast Transition.itime intMin transitions := by
        have hmem : t ∈ transitions.filter (Transition.itime · ≠ intMin) := List.mem_filter.mpr ⟨ht, by simpa using hmin⟩
        rw [← keepLast_filter] at hmem
        exact (List.mem_filter.mp hmem).1
      have hkept : t ∈ keepFirst Transition.itime intMax (keepLast Transition.itime intMin transitions) := by
        have hmem : t ∈ (keepLast Transition.itime intMin transitions).filter (Transition.itime · ≠ intMax) :=
          List.mem_filter.mpr ⟨hlow, by simpa using hmax⟩
        rw [← keepFirst_filter] at hmem
        exact (List.mem_filter.mp hmem).1
      have hmem := hsorted.perm.mem_iff.mpr hkept
      have hpairwise := hsorted.pairwise
      cases sorted with
      | nil => exact absurd hmem List.not_mem_nil
      | cons first rest =>
        cases rest with
        | nil => exact Or.inl hmem
        | cons second rest =>
          rw [withoutLeading]
          split
          · rename_i hdst
            rcases List.mem_cons.mp hmem with rfl | hmem
            · exact Or.inr (Or.inr (Or.inr ⟨hdst, fun t' ht' => List.rel_of_pairwise_cons hpairwise ht'⟩))
            · exact Or.inl hmem
          · exact Or.inl hmem

/-- The arrays before the loop. -/
def startState (c : Counts) : ParseState :=
  ⟨List.replicate c.cnt ⟨0, none, 0⟩, List.replicate (c.charcnt + 1) none, fun _ => 0⟩

theorem stored_start (bytes : List UInt8) (c : Counts) : Stored bytes c [] (startState c) where
  periods := ⟨List.replicate c.cnt ⟨0, none, 0⟩, rfl, by rw [List.length_replicate]; exact Nat.zero_add _⟩
  length_abbrs := List.length_replicate
  created i a h := by
    rw [startState, List.getElem?_replicate] at h
    split at h
    · exact absurd (Option.some.inj h).symm (Option.some_ne_none a)
    · exact absurd h.symm (Option.some_ne_none _)
  retains a := by
    rw [List.map_nil, List.count_nil, Nat.zero_add, startState, List.count_replicate]
    rfl

/-- References once the array of abbreviations is given back. -/
theorem Stored.released {bytes : List UInt8} {c : Counts} {done : List Transition} {s : ParseState}
    (h : Stored bytes c done s) (a : Abbreviation) :
    s.abbrs.foldl releaseAbbrev s.retains a = (done.map (Transition.abbreviation bytes c)).count a := by
  rw [foldl_releaseAbbrev, h.retains, Nat.add_sub_cancel]

/-- The references of the periods are those of the transitions. -/
theorem Stored.balanced {bytes : List UInt8} {c : Counts} {done : List Transition} {s : ParseState}
    (h : Stored bytes c done s) :
    Balanced (done.map (Transition.period bytes c)) (s.abbrs.foldl releaseAbbrev s.retains) := by
  intro a
  have hmap : (done.map (Transition.period bytes c)).map TZPeriod.abbreviation =
      (done.map (Transition.abbreviation bytes c)).map some := by
    rw [List.map_map, List.map_map]
    rfl
  rw [h.released, hmap, List.count_map_of_injective _ some (Option.some_injective _)]

theorem parse_of_counts {bytes : List UInt8} {c : Counts} (hcounts : readCounts bytes = some (some c)) :
    parseTimeZoneData bytes = (parseLoop bytes c c.cnt 0 (startState c)).bind fun p =>
      if p.1 then
        (dropAndSort p.2.periods (p.2.abbrs.foldl releaseAbbrev p.2.retains)).bind fun q => some ⟨true, q.1, q.2⟩
      else some ⟨false, [], p.2.abbrs.foldl releaseAbbrev p.2.retains⟩ := by
  rw [parseTimeZoneData, hcounts]
  rfl

/-- The parser once all transitions are stored. -/
theorem parse_complete {bytes : List UInt8} {c : Counts} {transitions : List Transition} {s : ParseState}
    (hcounts : readCounts bytes = some (some c)) (hleading : leading bytes c c.cnt 0 = (true, transitions))
    (hparse : parseTimeZoneData bytes = (dropAndSort s.periods (s.abbrs.foldl releaseAbbrev s.retains)).bind
      fun p => some ⟨true, p.1, p.2⟩)
    (hstored : Stored bytes c transitions s) (hall : ∀ t ∈ transitions, (characters bytes c t.abbridx).isSome) :
    Expected bytes ↔ ∀ handed, HandedOut transitions handed → ∀ t ∈ handed, t.offset.natAbs < 2 ^ 16 := by
  have hlen : transitions.length = c.cnt := by
    have hfull := length_leading (congrArg Prod.fst hleading)
    rwa [hleading] at hfull
  have hcnt : 0 < c.cnt := by
    unfold Counts.cnt
    split
    · assumption
    · exact Nat.one_pos
  have hperiods : s.periods = transitions.map (Transition.period bytes c) := by
    obtain ⟨rest, hrest, hsum⟩ := hstored.periods
    rw [hrest, List.eq_nil_of_length_eq_zero (show rest.length = 0 by omega), List.append_nil]
  obtain ⟨handed, retains, hhanded, hne, hpairwise, hdrop, hbalanced⟩ :=
    dropAndSort_spec hstored.balanced (List.ne_nil_of_length_pos (hlen ▸ hcnt))
  rw [hperiods, hdrop] at hparse
  have hcontents : (handed.map (Transition.period bytes c)).map TZPeriod.contents = handed.map (Transition.contents bytes c) ↔
      ∀ t ∈ handed, t.offset.natAbs < 2 ^ 16 := by
    rw [List.map_map, List.map_inj_left]
    exact forall₂_congr fun t ht => contents_period_iff (hall t (hhanded.mem ht))
  constructor
  · rintro ⟨out, hout, -, hok⟩ handed' hhanded' t ht
    obtain rfl := Option.some.inj (hparse.symm.trans hout)
    obtain ⟨-, -, -, c', transitions', handed'', hcounts', hleading', hhanded'', hmap⟩ := hok rfl
    obtain rfl := Option.some.inj (Option.some.inj (hcounts.symm.trans hcounts'))
    obtain rfl := (Prod.mk.inj (hleading.symm.trans hleading')).2
    obtain rfl := hhanded''.unique hhanded
    obtain rfl := hhanded'.unique hhanded''
    exact hcontents.mp hmap t ht
  · intro h
    refine ⟨_, hparse, fun hfalse => absurd hfalse.symm Bool.false_ne_true, fun _ => ⟨?_, ?_, hbalanced, c, transitions, handed,
      hcounts, hleading, hhanded, hcontents.mpr (h handed hhanded)⟩⟩
    · exact fun hnil => hne (List.map_eq_nil_iff.mp hnil)
    · exact List.pairwise_map.mpr hpairwise

/-- Exactly when the parser does all that is expected of it. -/
theorem parseTimeZoneData_iff (bytes : List UInt8) : Expected bytes ↔ Harmless bytes := by
  rcases readCounts_spec bytes with hreject | ⟨c, hcounts, hfits⟩
  · have hparse : parseTimeZoneData bytes = some ⟨false, [], fun _ => 0⟩ := by
      rw [parseTimeZoneData, hreject]
      rfl
    refine ⟨fun _ c hc => ?_, fun _ => ⟨_, hparse, fun _ => ⟨rfl, fun _ => rfl⟩, fun h => absurd h Bool.false_ne_true⟩⟩
    rw [hreject] at hc
    exact absurd (Option.some.inj hc).symm (Option.some_ne_none c)
  · have huse : ∀ c', readCounts bytes = some (some c') → c' = c := fun c' hc' =>
      Option.some.inj (Option.some.inj (hc'.symm.trans hcounts))
    rcases parseLoop_spec hfits (stored_start bytes c) (Nat.zero_add c.cnt) with
      ⟨s, hloop, hstored, hall⟩ | ⟨hloop, t, ht, hnone⟩
    · have hread : ∀ t ∈ (leading bytes c c.cnt 0).2, 0 ∈ bytes.drop (c.charp + t.abbridx) :=
        fun t ht => characters_isSome.mp (hall t ht)
      have hharmless : Harmless bytes ↔ ((leading bytes c c.cnt 0).1 = false → (leading bytes c c.cnt 0).2 = []) ∧
          ((leading bytes c c.cnt 0).1 = true → ∀ handed, HandedOut (leading bytes c c.cnt 0).2 handed →
            ∀ t ∈ handed, t.offset.natAbs < 2 ^ 16) := by
        refine ⟨fun h => (h c hcounts).2, fun h c' hc' => ?_⟩
        obtain rfl := huse c' hc'
        exact ⟨hread, h⟩
      rw [hharmless]
      have hparse := parse_of_counts hcounts
      rw [show parseLoop bytes c c.cnt 0 _ = some _ from hloop, Option.bind_some] at hparse
      dsimp only [List.length_nil] at hparse
      rw [List.nil_append, List.length_nil] at hstored
      cases hcomplete : (leading bytes c c.cnt 0).1 with
      | true =>
        rw [if_pos hcomplete] at hparse
        have hleading : leading bytes c c.cnt 0 = (true, (leading bytes c c.cnt 0).2) := Prod.ext hcomplete rfl
        rw [parse_complete hcounts hleading hparse hstored hall]
        exact ⟨fun h => ⟨fun hfalse => absurd hfalse.symm Bool.false_ne_true, fun _ => h⟩, fun h => h.2 rfl⟩
      | false =>
        rw [if_neg (ne_of_eq_of_ne hcomplete Bool.false_ne_true)] at hparse
        refine Iff.trans ?_ (show (leading bytes c c.cnt 0).2 = [] ↔ _ from
          ⟨fun h => ⟨fun _ => h, fun htrue => absurd htrue Bool.false_ne_true⟩, fun h => h.1 rfl⟩)
        constructor
        · rintro ⟨out, hout, hfail, -⟩
          obtain rfl := Option.some.inj (hparse.symm.trans hout)
          by_contra hne
          obtain ⟨t, rest, hcons⟩ := List.exists_cons_of_ne_nil hne
          have hzero := (hfail rfl).2 (t.abbreviation bytes c)
          dsimp only at hzero
          rw [hstored.released, hcons, List.map_cons, List.count_cons_self] at hzero
          exact absurd hzero (Nat.succ_ne_zero _)
        · intro hnil
          refine ⟨_, hparse, fun _ => ⟨rfl, fun a => ?_⟩, fun htrue => absurd htrue Bool.false_ne_true⟩
          dsimp only
          rw [hstored.released, hnil]
          rfl
    · -- an abbreviation that does not end in the data
      have hparse : parseTimeZoneData bytes = none := by
        rw [parse_of_counts hcounts, show parseLoop bytes c c.cnt 0 _ = none from hloop]
        rfl
      constructor
      · rintro ⟨out, hout, -⟩
        exact absurd (hparse.symm.trans hout).symm (Option.some_ne_none out)
      · intro h
        have hsome := characters_isSome.mpr ((h c hcounts).1 t ht)
        rw [hnone] at hsome
        exact absurd hsome Bool.false_ne_true

/-- A header with the three counts. -/
def header (timecnt typecnt charcnt : UInt8) : List UInt8 :=
  [0x54, 0x5A, 0x69, 0x66] ++ List.replicate 28 0 ++ [0, 0, 0, timecnt, 0, 0, 0, typecnt, 0, 0, 0, charcnt]

/-- An abbreviation without an end is read beyond the data; an error in the
second transition leaves the abbreviation of the first one retained; and an
offset of 65537 seconds becomes one second. -/
theorem unterminated_leaked_truncated :
    parseTimeZoneData (header 0 1 1 ++ [0, 0, 0, 0, 0, 0] ++ [0x41]) = none ∧
    (parseTimeZoneData (header 2 1 2 ++ [0, 0, 0, 0, 0, 0, 0, 1, 0, 1] ++ [0, 0, 0, 0, 0, 0] ++ [0x41, 0])).map
      (fun out => (out.result, out.retains ⟨0, [0x41]⟩)) = some (false, 1) ∧
    (parseTimeZoneData (header 0 1 2 ++ [0, 1, 0, 1, 0, 0] ++ [0x41, 0])).map
      (fun out => out.periods.map TZPeriod.gmtOffset) = some [1] :=
  ⟨by decide, by decide, by decide +kernel⟩

end CFLite.TimeZone
