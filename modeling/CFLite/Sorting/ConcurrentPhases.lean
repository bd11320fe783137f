import CFLite.Sorting.ConcurrentSort
import Mathlib.Logic.Function.Basic

/-!
# The phases of the concurrent sort

The list and the buffers are followed as blocks, one for each section. A phase puts
into the buffers, or back into the list, the blocks that `exchanged` gives, in
whichever order its sections run.

* `sortSections_spec`, `mergeEven_dispatch`, `mergeOdd_dispatch`: the three uses of
  `dispatch_apply`;
* `mergePhases_spec`: the loop;
* `sortIndexesN_agrees`: the list afterwards is the one of the sequential sort.
-/

namespace CFLite.Sorting

open Framework

variable {β : Type*}

/-! ## Sections of a list -/

section Joined

variable {B : Nat → List β} {n sz : Nat}

theorem joined_congr {B' : Nat → List β} (h : ∀ k < n, B k = B' k) : joined B n = joined B' n := by
  rw [joined, joined, List.map_congr_left fun k hk => h k (List.mem_range.mp hk)]

theorem joined_perm_congr {B' : Nat → List β} {k : Nat} (h : ∀ i < k, (B i).Perm (B' i)) :
    (joined B k).Perm (joined B' k) := by
  induction k with
  | zero => exact List.Perm.refl _
  | succ k ih =>
    rw [joined_succ, joined_succ]
    exact (ih fun i hi => h i (by omega)).append (h k (Nat.lt_succ_self k))

theorem length_joined (hfull : ∀ k, k + 1 < n → (B k).length = sz) {k : Nat} (hk : k < n) :
    (joined B k).length = k * sz := by
  induction k with
  | zero => rw [Nat.zero_mul]; rfl
  | succ k ih => rw [joined_succ, List.length_append, ih (by omega), hfull k hk, Nat.succ_mul]

/-- Block `k`, and what stands around it. -/
theorem joined_split (B : Nat → List β) {k : Nat} (hk : k < n) :
    ∃ rest, ∀ v, joined (Function.update B k v) n = joined B k ++ v ++ rest := by
  induction n, hk using Nat.le_induction with
  | base =>
    refine ⟨[], fun v => ?_⟩
    rw [joined_succ, Function.update_self, List.append_nil,
      joined_congr fun i hi => Function.update_of_ne (Nat.ne_of_lt hi) v B]
  | succ n hn ih =>
    obtain ⟨rest, hrest⟩ := ih
    refine ⟨rest ++ B n, fun v => ?_⟩
    rw [joined_succ, hrest, Function.update_of_ne (Nat.ne_of_gt hn), List.append_assoc]

theorem readRange_joined (hfull : ∀ k, k + 1 < n → (B k).length = sz) {k : Nat} (hk : k < n) :
    readRange (joined B n) (k * sz : Nat) (B k).length = some (B k) := by
  obtain ⟨rest, hrest⟩ := joined_split B hk
  have hB := hrest (B k)
  have hlen := length_joined hfull hk
  rw [Function.update_eq_self] at hB
  rw [hB, readRange_eq (by rw [List.length_append, List.length_append]; omega), List.append_assoc, ← hlen,
    List.drop_left, List.take_left]

theorem writeRange_joined (hfull : ∀ k, k + 1 < n → (B k).length = sz) {k : Nat} (hk : k < n) {v : List β}
    (hv : v.length = (B k).length) :
    writeRange (joined B n) (k * sz : Nat) v = some (joined (Function.update B k v) n) := by
  obtain ⟨rest, hrest⟩ := joined_split B hk
  have hB := hrest (B k)
  have hlen := length_joined hfull hk
  rw [Function.update_eq_self] at hB
  rw [hrest, hB, writeRange_eq (by rw [List.length_append, List.length_append]; omega), ← hlen]
  rw [List.append_assoc (joined B k) (B k), List.take_left, ← List.drop_drop, List.drop_left, hv, List.drop_left]

end Joined

/-! ## The states between the phases -/

/-- The length of section `k`. -/
def Cut.len (cut : Cut) (k : Nat) : Nat := if k + 1 < cut.num_sect then cut.sz else cut.last_sect_len

/-- There is a full section before the last one. -/
structure Cut.Ok (cut : Cut) : Prop where
  two : 2 ≤ cut.num_sect
  pos : 0 < cut.last_sect_len
  le : cut.last_sect_len ≤ cut.sz

section State

variable {cut : Cut} {B : Nat → List β} {s : Sections β}

/-- Every block has the length of its section. -/
def Sized (cut : Cut) (B : Nat → List β) : Prop := ∀ k < cut.num_sect, (B k).length = cut.len k

/-- Every section has a buffer of full size. -/
structure Buffered (cut : Cut) (tmps : List (List β)) : Prop where
  length : tmps.length = cut.num_sect
  size : ∀ tmp ∈ tmps, tmp.length = cut.sz

/-- The buffer of section `k` starts with `v`. -/
def TmpAt (tmps : List (List β)) (k : Nat) (v : List β) : Prop := ∃ rest, tmps[k]? = some (v ++ rest)

theorem Cut.len_full {k : Nat} (hk : k + 1 < cut.num_sect) : cut.len k = cut.sz := if_pos hk

theorem Cut.len_last {k : Nat} (hk : k + 1 = cut.num_sect) : cut.len k = cut.last_sect_len := if_neg (by omega)

theorem Cut.Ok.len_le (hc : cut.Ok) (k : Nat) : cut.len k ≤ cut.sz := by
  have := hc.le
  rw [Cut.len]
  split <;> omega

theorem Cut.Ok.len_pos (hc : cut.Ok) (k : Nat) : 0 < cut.len k := by
  have := hc.pos
  have := hc.le
  rw [Cut.len]
  split <;> omega

theorem Sized.full (hB : Sized cut B) (k : Nat) (hk : k + 1 < cut.num_sect) : (B k).length = cut.sz :=
  (hB k (by omega)).trans (Cut.len_full hk)

theorem Sized.update (hB : Sized cut B) {k : Nat} {v : List β} (hv : v.length = cut.len k) :
    Sized cut (Function.update B k v) := by
  intro i hi
  by_cases hik : i = k
  · rw [hik, Function.update_self, hv]
  · rw [Function.update_of_ne hik, hB i hi]

theorem Sized.read (hB : Sized cut B) {k : Nat} (hk : k < cut.num_sect) :
    readRange (joined B cut.num_sect) (k * cut.sz : Nat) (cut.len k) = some (B k) := by
  rw [← hB k hk]
  exact readRange_joined hB.full hk

theorem Sized.write (hB : Sized cut B) {k : Nat} (hk : k < cut.num_sect) {v : List β} (hv : v.length = cut.len k) :
    writeRange (joined B cut.num_sect) (k * cut.sz : Nat) v =
      some (joined (Function.update B k v) cut.num_sect) :=
  writeRange_joined hB.full hk (hv.trans (hB k hk).symm)

theorem TmpAt.read {k : Nat} {v : List β} (h : TmpAt s.tmps k v) : readTmp s k v.length = some v := by
  obtain ⟨rest, hrest⟩ := h
  have hread : readRange (v ++ rest) 0 v.length = some (((v ++ rest).drop 0).take v.length) :=
    readRange_eq (show 0 + v.length ≤ (v ++ rest).length by rw [List.length_append]; omega)
  rw [List.drop_zero, List.take_left] at hread
  rw [readTmp, hrest]
  exact hread

theorem Buffered.write (hb : Buffered cut s.tmps) {k : Nat} (hk : k < cut.num_sect) {v : List β}
    (hv : v.length ≤ cut.sz) : ∃ tmps, writeTmp s k v = some ⟨s.listp, tmps⟩ ∧ Buffered cut tmps ∧ TmpAt tmps k v ∧
      ∀ i ≠ k, tmps[i]? = s.tmps[i]? := by
  have hlt : k < s.tmps.length := by rwa [hb.length]
  have hsize := hb.size _ (List.getElem_mem hlt)
  have hfits : 0 + v.length ≤ s.tmps[k].length := by omega
  have hwrite : writeRange s.tmps[k] 0 v = some (v ++ s.tmps[k].drop (0 + v.length)) := writeRange_eq hfits
  refine ⟨s.tmps.set k (v ++ s.tmps[k].drop (0 + v.length)), ?_, ⟨?_, fun tmp htmp => ?_⟩,
    ⟨_, List.getElem?_set_self hlt⟩, fun i hi => List.getElem?_set_ne hi.symm⟩
  · rw [writeTmp, List.getElem?_eq_getElem hlt, Option.bind_eq_bind, Option.bind_some, hwrite]
    rfl
  · rw [List.length_set, hb.length]
  · rcases List.mem_or_eq_of_mem_set htmp with htmp | rfl
    · exact hb.size tmp htmp
    · rw [List.length_append, List.length_drop, ← hsize]
      omega

end State

/-! ## Sorting the sections -/

section Initial

variable [LinearOrder β] {cmp : β → β → CFComparisonResult} {cut : Cut} {B : Nat → List β} {tmps : List (List β)}

variable (cmp) in
theorem sortSection_spec (hc : cut.Ok) (hB : Sized cut B) (hb : Buffered cut tmps) {sect : Nat}
    (hsect : sect < cut.num_sect) :
    ∃ r tmps', sortSection cmp cut sect ⟨joined B cut.num_sect, tmps⟩ =
        some ⟨joined (Function.update B sect r) cut.num_sect, tmps'⟩ ∧ Buffered cut tmps' ∧ Sorted cmp (B sect) r := by
  have hlen : (if sect < cut.num_sect - 1 then cut.sz else cut.last_sect_len) = cut.len sect := by
    rw [Cut.len]
    exact if_congr (by omega) rfl rfl
  have hlt : sect < tmps.length := by rwa [hb.length]
  have hsize := hb.size _ (List.getElem_mem hlt)
  have hroom : (B sect).length ≤ tmps[sect].length := by rw [hB sect hsect, hsize]; exact hc.len_le sect
  obtain ⟨r, tmp', hsort, hlen', hsorted⟩ := simpleMergeSort_spec cmp (B sect) hroom
  have hr : r.length = cut.len sect := hsorted.perm.length_eq.trans (hB sect hsect)
  refine ⟨r, tmps.set sect tmp', ?_, ⟨by rw [List.length_set, hb.length], fun tmp htmp => ?_⟩, hsorted⟩
  · simp only [sortSection, hlen, hB.read hsect, List.getElem?_eq_getElem hlt, hsort, hB.write hsect hr,
      Option.bind_eq_bind, Option.bind_some]
    rfl
  · rcases List.mem_or_eq_of_mem_set htmp with htmp | rfl
    · exact hb.size tmp htmp
    · rw [hlen', hsize]

variable (cmp) in
/-- The sections of `order` are sorted, each of them once. -/
theorem sortSections_spec (hc : cut.Ok) {order : List Nat} (hnodup : order.Nodup)
    (horder : ∀ sect ∈ order, sect < cut.num_sect) (hB : Sized cut B) (hb : Buffered cut tmps) :
    ∃ B' tmps', order.foldlM (fun s sect => sortSection cmp cut sect s) ⟨joined B cut.num_sect, tmps⟩ =
        some ⟨joined B' cut.num_sect, tmps'⟩ ∧ Sized cut B' ∧ Buffered cut tmps' ∧
      (∀ k ∈ order, Sorted cmp (B k) (B' k)) ∧ ∀ k, k ∉ order → B' k = B k := by
  induction order generalizing B tmps with
  | nil => exact ⟨B, tmps, rfl, hB, hb, fun k hk => absurd hk List.not_mem_nil, fun k _ => rfl⟩
  | cons sect order ih =>
    obtain ⟨hnot, hnodup⟩ := List.nodup_cons.mp hnodup
    have hsect := horder sect List.mem_cons_self
    obtain ⟨r, tmps₁, hsort, hb₁, hsorted⟩ := sortSection_spec cmp hc hB hb hsect
    have hB₁ : Sized cut (Function.update B sect r) := hB.update (hsorted.perm.length_eq.trans (hB sect hsect))
    obtain ⟨B', tmps', hrest, hB', hb', hsorted', hsame⟩ := ih hnodup
      (fun k hk => horder k (List.mem_cons_of_mem sect hk)) hB₁ hb₁
    refine ⟨B', tmps', by rw [List.foldlM_cons, hsort]; exact hrest, hB', hb', fun k hk => ?_, fun k hk => ?_⟩
    · rcases List.mem_cons.mp hk with rfl | hk
      · rw [hsame k hnot, Function.update_self]
        exact hsorted
      · have hne : k ≠ sect := fun heq => hnot (heq ▸ hk)
        have := hsorted' k hk
        rwa [Function.update_of_ne hne] at this
    · have hne : k ≠ sect := fun heq => hk (heq ▸ List.mem_cons_self)
      rw [hsame k fun hin => hk (List.mem_cons_of_mem sect hin), Function.update_of_ne hne]

end Initial

/-! ## Merging the sections -/

section Phase

variable [LinearOrder β] {cmp : β → β → CFComparisonResult} {cut : Cut} {B : Nat → List β}

/-- What is known of the blocks before a phase. -/
structure Ready (cmp : β → β → CFComparisonResult) (cut : Cut) (B : Nat → List β) : Prop where
  sized : Sized cut B
  sorted : ∀ k < cut.num_sect, (B k).Pairwise (Earlier cmp)
  ties : (joined B cut.num_sect).Pairwise (TiesKept cmp)

/-- The blocks after the phase of a parity. -/
def exchange (cmp : β → β → CFComparisonResult) (cut : Cut) (parity : Nat) (B : Nat → List β) : Nat → List β :=
  exchanged (takesFirst cmp) cut.num_sect cut.sz parity B

/-- The part of a pair for either of its sections. -/
theorem Ready.merge (h : TotalPreorder cmp) (hc : cut.Ok) (hB : Ready cmp cut B) {i parity : Nat}
    (hi : i + 1 < cut.num_sect) (hp : i % 2 = parity) (right : Bool) :
    sortIndexesNMerge cmp (B i) (B (i + 1)) right = some (exchange cmp cut parity B (if right then i + 1 else i)) := by
  have hleft : (B i).length = cut.sz := hB.sized.full i hi
  have hright := hB.sized (i + 1) hi
  rw [sortIndexesNMerge_spec h (hB.sorted i (by omega)) (hB.sorted (i + 1) hi) (rel_of_pairwise_joined hB.ties hi)
    (by rw [hleft, hright]; exact hc.len_le _) (by rw [hright]; exact hc.len_pos _), hleft, exchange]
  cases right with
  | false => exact congrArg some (exchanged_left hi hp).symm
  | true => exact congrArg some (exchanged_right hp).symm

theorem Ready.blocks (hc : cut.Ok) (hB : Ready cmp cut B) : Blocks (Earlier cmp) cut.num_sect cut.sz B :=
  ⟨hB.sized.full, fun k hk => (hB.sized k hk).trans_le (hc.len_le k), hB.sorted⟩

theorem Ready.next (h : TotalPreorder cmp) (hc : cut.Ok) (hB : Ready cmp cut B) (parity : Nat) :
    Ready cmp cut (exchange cmp cut parity B) := by
  have hphase : Phase (Earlier cmp) cut.num_sect parity B (exchange cmp cut parity B) :=
    exchanged_phase (fun _ _ _ => Earlier.trans h) (fun _ _ => TiesKept.of_takesFirst h) (hB.blocks hc) hB.ties
  exact ⟨fun k hk => (hphase.length_eq hk).trans (hB.sized k hk), (hphase.blocks (hB.blocks hc)).sorted,
    hphase.pairwise_joined (fun _ _ => Earlier.tiesKept) hB.ties⟩

omit [LinearOrder β] in
theorem exchange_rest {parity k : Nat} (hl : ¬ (k + 1 < cut.num_sect ∧ k % 2 = parity))
    (hr : ¬ (0 < k ∧ (k - 1) % 2 = parity)) : exchange cmp cut parity B k = B k := by
  rw [exchange, exchanged, if_neg hl, if_neg hr]

/-! ### From the list to the buffers -/

theorem mergeEven_eq (h : TotalPreorder cmp) (hc : cut.Ok) (hB : Ready cmp cut B) {sect : Nat}
    (hsect : sect < cut.num_sect / 2 * 2) (tmps : List (List β)) :
    mergeEven cmp cut sect ⟨joined B cut.num_sect, tmps⟩ =
      writeTmp ⟨joined B cut.num_sect, tmps⟩ sect (exchange cmp cut 0 B sect) := by
  have hread (k : Nat) (hk : k < cut.num_sect) := hB.sized.read hk
  rcases Nat.mod_two_eq_zero_or_one sect with hp | hp
  · have hi : sect + 1 < cut.num_sect := by omega
    have hlen : (if sect + 1 + 1 = cut.num_sect then cut.last_sect_len else cut.sz) = cut.len (sect + 1) := by
      rw [Cut.len]
      split <;> split <;> first | rfl | omega
    have hleft := hread sect (by omega)
    have hright := hread (sect + 1) hi
    rw [Cut.len_full hi] at hleft
    have hbase : ((sect * cut.sz : Nat) : Int) + (cut.sz : Nat) = ((sect + 1) * cut.sz : Nat) := by
      rw [Nat.succ_mul]; rfl
    have hmerge := hB.merge h hc hi hp false
    have hd : decide (sect % 2 = 1) = false := decide_eq_false (by omega)
    simp only [mergeEven, hd, Bool.false_eq_true, if_false, hlen, Int.natCast_zero, Int.sub_zero, hbase, hleft, hright,
      hmerge, Option.bind_eq_bind, Option.bind_some]
  · obtain ⟨i, rfl⟩ : ∃ i, sect = i + 1 := ⟨sect - 1, by omega⟩
    have hlen : (if i + 1 + 1 + 0 = cut.num_sect then cut.last_sect_len else cut.sz) = cut.len (i + 1) := by
      rw [Cut.len]
      split <;> split <;> first | rfl | omega
    have hi : i + 1 < cut.num_sect := by omega
    have hleft := hread i (by omega)
    have hright := hread (i + 1) hi
    rw [Cut.len_full hi] at hleft
    have hbase : (((i + 1) * cut.sz : Nat) : Int) - (cut.sz : Nat) = (i * cut.sz : Nat) := by
      rw [Nat.succ_mul]; omega
    have hmerge := hB.merge h hc hi (show i % 2 = 0 by omega) true
    have hd : decide ((i + 1) % 2 = 1) = true := decide_eq_true hp
    simp only [mergeEven, hd, if_true, hlen, Int.natCast_zero, Int.add_zero, hbase, hleft, hright, hmerge,
      Option.bind_eq_bind, Option.bind_some]

theorem Ready.length_exchange_le (h : TotalPreorder cmp) (hc : cut.Ok) (hB : Ready cmp cut B) (parity : Nat) {k : Nat}
    (hk : k < cut.num_sect) : (exchange cmp cut parity B k).length ≤ cut.sz :=
  ((hB.next h hc parity).sized k hk).trans_le (hc.len_le k)

theorem mergeEven_dispatch (h : TotalPreorder cmp) (hc : cut.Ok) (hB : Ready cmp cut B) {order : List Nat}
    (horder : ∀ sect ∈ order, sect < cut.num_sect / 2 * 2) {tmps : List (List β)} (hb : Buffered cut tmps) :
    ∃ tmps', order.foldlM (fun s sect => mergeEven cmp cut sect s) ⟨joined B cut.num_sect, tmps⟩ =
        some ⟨joined B cut.num_sect, tmps'⟩ ∧ Buffered cut tmps' ∧
      (∀ k ∈ order, TmpAt tmps' k (exchange cmp cut 0 B k)) ∧ ∀ k, k ∉ order → tmps'[k]? = tmps[k]? := by
  induction order generalizing tmps with
  | nil => exact ⟨tmps, rfl, hb, fun k hk => absurd hk List.not_mem_nil, fun k _ => rfl⟩
  | cons sect order ih =>
    have hsect := horder sect List.mem_cons_self
    have hlt : sect < cut.num_sect := by omega
    obtain ⟨tmps₁, hwrite, hb₁, hat, hothers⟩ := Buffered.write (s := ⟨joined B cut.num_sect, tmps⟩) hb hlt
      (hB.length_exchange_le h hc 0 hlt)
    rw [← mergeEven_eq h hc hB hsect] at hwrite
    obtain ⟨tmps', hrest, hb', hnew, hold⟩ := ih (fun k hk => horder k (List.mem_cons_of_mem sect hk)) hb₁
    refine ⟨tmps', by rw [List.foldlM_cons, hwrite]; exact hrest, hb', fun k hk => ?_, fun k hk => ?_⟩
    · by_cases hin : k ∈ order
      · exact hnew k hin
      · obtain rfl := (List.mem_cons.mp hk).resolve_right hin
        rwa [TmpAt, hold k hin]
    · have hne : k ≠ sect := fun heq => hk (heq ▸ List.mem_cons_self)
      rw [hold k fun hin => hk (List.mem_cons_of_mem sect hin), hothers k hne]

/-! ### From the buffers to the list -/

theorem mergeOdd_eq (h : TotalPreorder cmp) (hc : cut.Ok) {T : Nat → List β} (hT : Ready cmp cut T) {s : Sections β}
    (hs : ∀ k < cut.num_sect, TmpAt s.tmps k (T k)) {sect : Nat} (hsect : sect < (cut.num_sect - 1) / 2 * 2) :
    mergeOdd cmp cut sect s = writeList s ((sect + 1) * cut.sz) (exchange cmp cut 1 T (sect + 1)) := by
  have hread (k : Nat) (hk : k < cut.num_sect) : readTmp s k (cut.len k) = some (T k) := by
    rw [← hT.sized k hk]
    exact (hs k hk).read
  rcases Nat.mod_two_eq_zero_or_one sect with hp | hp
  · have hi : sect + 2 < cut.num_sect := by omega
    have hlen : (if sect + 1 + 2 = cut.num_sect then cut.last_sect_len else cut.sz) = cut.len (sect + 2) := by
      rw [Cut.len]
      split <;> split <;> first | rfl | omega
    have hleft := hread (sect + 1) (by omega)
    have hright := hread (sect + 2) hi
    rw [Cut.len_full hi] at hleft
    have hmerge := hT.merge h hc hi (show (sect + 1) % 2 = 1 by omega) false
    have hd : decide (sect % 2 = 1) = false := decide_eq_false (by omega)
    simp only [mergeOdd, hd, Bool.false_eq_true, if_false, hlen, hleft, hright, hmerge, Option.bind_eq_bind,
      Option.bind_some, Nat.succ_mul]
  · have hi : sect + 1 < cut.num_sect := by omega
    have hlen : (if sect + 1 + 1 = cut.num_sect then cut.last_sect_len else cut.sz) = cut.len (sect + 1) := by
      rw [Cut.len]
      split <;> split <;> first | rfl | omega
    have hleft := hread sect (by omega)
    have hright := hread (sect + 1) hi
    rw [Cut.len_full hi] at hleft
    have hmerge := hT.merge h hc hi hp true
    have hd : decide (sect % 2 = 1) = true := decide_eq_true hp
    simp only [mergeOdd, hd, if_true, hlen, Nat.add_zero, hleft, hright, hmerge, Option.bind_eq_bind,
      Option.bind_some, Nat.succ_mul]

omit [LinearOrder β] in
theorem Sized.writeList (hB : Sized cut B) {k : Nat} (hk : k < cut.num_sect) {v : List β} (hv : v.length = cut.len k)
    (tmps : List (List β)) : writeList ⟨joined B cut.num_sect, tmps⟩ (k * cut.sz) v =
      some ⟨joined (Function.update B k v) cut.num_sect, tmps⟩ := by
  rw [Sorting.writeList, hB.write hk hv]
  rfl

theorem mergeOdd_dispatch (h : TotalPreorder cmp) (hc : cut.Ok) {T : Nat → List β} (hT : Ready cmp cut T)
    {tmps : List (List β)} (hs : ∀ k < cut.num_sect, TmpAt tmps k (T k)) {order : List Nat}
    (horder : ∀ sect ∈ order, sect < (cut.num_sect - 1) / 2 * 2) (hB : Sized cut B) :
    ∃ B', order.foldlM (fun s sect => mergeOdd cmp cut sect s) ⟨joined B cut.num_sect, tmps⟩ =
        some ⟨joined B' cut.num_sect, tmps⟩ ∧ Sized cut B' ∧
      ∀ sect ∈ order, B' (sect + 1) = exchange cmp cut 1 T (sect + 1) := by
  have key : ∃ B', order.foldlM (fun s sect => mergeOdd cmp cut sect s) ⟨joined B cut.num_sect, tmps⟩ =
        some ⟨joined B' cut.num_sect, tmps⟩ ∧ Sized cut B' ∧
      (∀ sect ∈ order, B' (sect + 1) = exchange cmp cut 1 T (sect + 1)) ∧
      ∀ sect, sect ∉ order → B' (sect + 1) = B (sect + 1) := by
    induction order generalizing B with
    | nil => exact ⟨B, rfl, hB, fun k hk => absurd hk List.not_mem_nil, fun k _ => rfl⟩
    | cons sect order ih =>
      have hsect := horder sect List.mem_cons_self
      have hlt : sect + 1 < cut.num_sect := by omega
      have hlen := (hT.next h hc 1).sized (sect + 1) hlt
      have hwrite := hB.writeList hlt hlen tmps
      rw [← mergeOdd_eq h hc hT hs hsect] at hwrite
      obtain ⟨B', hrest, hB', hnew, hold⟩ := ih (fun k hk => horder k (List.mem_cons_of_mem sect hk)) (hB.update hlen)
      refine ⟨B', by rw [List.foldlM_cons, hwrite]; exact hrest, hB', fun k hk => ?_, fun k hk => ?_⟩
      · by_cases hin : k ∈ order
        · exact hnew k hin
        · obtain rfl := (List.mem_cons.mp hk).resolve_right hin
          rw [hold k hin, Function.update_self]
      · have hne : k + 1 ≠ sect + 1 := fun heq => hk (Nat.succ.inj heq ▸ List.mem_cons_self)
        rw [hold k fun hin => hk (List.mem_cons_of_mem sect hin), Function.update_of_ne hne]
  obtain ⟨B', hr, hB', hnew, -⟩ := key
  exact ⟨B', hr, hB', hnew⟩

/-! ## The loop -/

/-- Every buffer starts with the block of its section after the phase. -/
theorem evenPhase_spec (h : TotalPreorder cmp) (hc : cut.Ok) (schedule : Schedule) (hB : Ready cmp cut B)
    {tmps : List (List β)} (hb : Buffered cut tmps) (idx : Nat) :
    ∃ tmps', evenPhase cmp cut schedule idx ⟨joined B cut.num_sect, tmps⟩ = some ⟨joined B cut.num_sect, tmps'⟩ ∧
      Buffered cut tmps' ∧ ∀ k < cut.num_sect, TmpAt tmps' k (exchange cmp cut 0 B k) := by
  have htwo := hc.two
  have hin : ∀ k, k ∈ (schedule (2 * idx + 1) (cut.num_sect / 2 * 2)).val ↔ k < cut.num_sect / 2 * 2 := fun k =>
    (schedule _ _).property.mem_iff.trans List.mem_range
  obtain ⟨tmps₁, hr₁, hb₁, hnew₁, -⟩ := mergeEven_dispatch h hc hB (fun k hk => (hin k).mp hk) hb
  simp only [evenPhase, dispatchApply, hr₁, Option.bind_eq_bind, Option.bind_some]
  split
  · rename_i hodd
    have hlast : cut.num_sect - 1 < cut.num_sect := by omega
    have hread := hB.sized.read hlast
    have hlen := hB.sized (cut.num_sect - 1) hlast
    obtain ⟨tmps₂, hwrite, hb₂, hat, hothers⟩ := Buffered.write (s := ⟨joined B cut.num_sect, tmps₁⟩) hb₁ hlast
      (hlen.trans_le (hc.len_le _))
    rw [Cut.len_last (by omega)] at hread
    refine ⟨tmps₂, by rw [hread]; exact hwrite, hb₂, fun k hk => ?_⟩
    by_cases hk' : k = cut.num_sect - 1
    · rw [hk', exchange_rest (by omega) (by omega)]
      exact hat
    · rw [TmpAt, hothers k hk']
      exact hnew₁ k ((hin k).mpr (by omega))
  · exact ⟨tmps₁, rfl, hb₁, fun k hk => hnew₁ k ((hin k).mpr (by omega))⟩

/-- The list has the blocks after the phase. -/
theorem oddPhase_spec (h : TotalPreorder cmp) (hc : cut.Ok) (schedule : Schedule) {T : Nat → List β}
    (hT : Ready cmp cut T) {tmps : List (List β)} (hat : ∀ k < cut.num_sect, TmpAt tmps k (T k)) (hB : Sized cut B)
    (idx : Nat) : oddPhase cmp cut schedule idx ⟨joined B cut.num_sect, tmps⟩ =
      some ⟨joined (exchange cmp cut 1 T) cut.num_sect, tmps⟩ := by
  have htwo := hc.two
  have hin : ∀ k, k ∈ (schedule (2 * idx + 2) ((cut.num_sect - 1) / 2 * 2)).val ↔
      k < (cut.num_sect - 1) / 2 * 2 := fun k => (schedule _ _).property.mem_iff.trans List.mem_range
  obtain ⟨B₁, hr₁, hB₁, hnew₁⟩ := mergeOdd_dispatch h hc hT hat (fun k hk => (hin k).mp hk) hB
  have hread (k : Nat) (hk : k < cut.num_sect) (B : Nat → List β) :
      readTmp ⟨joined B cut.num_sect, tmps⟩ k (cut.len k) = some (T k) := by
    rw [← hT.sized k hk]
    exact TmpAt.read (s := ⟨joined B cut.num_sect, tmps⟩) (hat k hk)
  -- the first section
  have hread₀ := hread 0 (by omega) B₁
  have hwrite₀ := hB₁.writeList (show 0 < cut.num_sect by omega) (hT.sized 0 (by omega)) tmps
  have hB₂ := hB₁.update (hT.sized 0 (by omega))
  rw [Cut.len_full (by omega)] at hread₀
  rw [Nat.zero_mul] at hwrite₀
  simp only [oddPhase, dispatchApply, hr₁, hread₀, hwrite₀, Option.bind_eq_bind, Option.bind_some]
  obtain ⟨B₂, hB₂def⟩ : ∃ B₂, B₂ = Function.update B₁ 0 (T 0) := ⟨_, rfl⟩
  rw [← hB₂def] at hB₂ ⊢
  have hsame : ∀ k < cut.num_sect, k < (cut.num_sect - 1) / 2 * 2 + 1 → B₂ k = exchange cmp cut 1 T k := by
    intro k hk hlt
    rw [hB₂def]
    rcases Nat.eq_zero_or_pos k with rfl | hpos
    · rw [Function.update_self, exchange_rest (by omega) (by omega)]
    · obtain ⟨sect, rfl⟩ : ∃ sect, k = sect + 1 := ⟨k - 1, by omega⟩
      rw [Function.update_of_ne (Nat.succ_ne_zero sect), hnew₁ sect ((hin sect).mpr (by omega))]
  split
  · rename_i heven
    have hlast : cut.num_sect - 1 < cut.num_sect := by omega
    have hreadLast := hread (cut.num_sect - 1) hlast B₂
    rw [Cut.len_last (by omega)] at hreadLast
    rw [hreadLast, Option.bind_some, hB₂.writeList hlast (hT.sized _ hlast)]
    refine congrArg some (congrArg (Sections.mk · tmps) (joined_congr fun k hk => ?_))
    by_cases hk' : k = cut.num_sect - 1
    · rw [hk', Function.update_self, exchange_rest (by omega) (by omega)]
    · rw [Function.update_of_ne hk', hsame k hk (by omega)]
  · rw [joined_congr fun k hk => hsame k hk (by omega)]

/-- Two phases more in each round. -/
theorem mergePhases_spec (h : TotalPreorder cmp) (hc : cut.Ok) (schedule : Schedule) (hB : Ready cmp cut B)
    {tmps : List (List β)} (hb : Buffered cut tmps) (n idx : Nat) :
    ∃ tmps', mergePhases cmp cut schedule n idx
        ⟨joined (afterPhases (takesFirst cmp) cut.num_sect cut.sz B (2 * idx)) cut.num_sect, tmps⟩ =
      some ⟨joined (afterPhases (takesFirst cmp) cut.num_sect cut.sz B (2 * (idx + n))) cut.num_sect, tmps'⟩ := by
  have hready : ∀ t, Ready cmp cut (afterPhases (takesFirst cmp) cut.num_sect cut.sz B t) := fun t => by
    induction t with
    | zero => exact hB
    | succ t ih => exact ih.next h hc _
  induction n generalizing idx tmps with
  | zero => exact ⟨tmps, rfl⟩
  | succ n ih =>
    have hB' := hready (2 * idx)
    obtain ⟨tmps₁, heven, hb₁, hat⟩ := evenPhase_spec h hc schedule hB' hb idx
    have hodd := oddPhase_spec h hc schedule (hB'.next h hc 0) hat hB'.sized idx
    obtain ⟨tmps', hrest⟩ := ih hb₁ (idx + 1)
    have htwo : afterPhases (takesFirst cmp) cut.num_sect cut.sz B (2 * (idx + 1)) = exchange cmp cut 1
        (exchange cmp cut 0 (afterPhases (takesFirst cmp) cut.num_sect cut.sz B (2 * idx))) := by
      rw [Nat.mul_succ, afterPhases, afterPhases, show (2 * idx + 1) % 2 = 1 by omega, show 2 * idx % 2 = 0 by omega]
      rfl
    rw [htwo, show idx + 1 + n = idx + (n + 1) by omega] at hrest
    refine ⟨tmps', ?_⟩
    simp only [mergePhases, heven, hodd, hrest, Option.bind_eq_bind, Option.bind_some]

end Phase

/-! ## The whole function -/

/-- With two cores and enough elements there are two sections at least, and the
last one is what is left. -/
theorem cutFor_ok {count ncores : Nat} (hcount : 160 ≤ count) (hcores : 2 ≤ ncores) : (cutFor count ncores).Ok ∧
    (cutFor count ncores).sz * (cutFor count ncores).num_sect + (cutFor count ncores).last_sect_len =
      count + (cutFor count ncores).sz := by
  obtain ⟨q, hq⟩ : ∃ q, q = (count + ncores - 1) / ncores := ⟨_, rfl⟩
  obtain ⟨sz, hsz⟩ : ∃ sz, sz = (q + 15) / 16 * 16 := ⟨_, rfl⟩
  obtain ⟨n, hn⟩ : ∃ n, n = (count + sz - 1) / sz := ⟨_, rfl⟩
  have hcut : cutFor count ncores = ⟨sz, n, count + sz - sz * n⟩ := by
    rw [hn, hsz, hq]
    rfl
  have hq0 : 0 < q := by
    rw [hq]
    exact Nat.div_pos (by omega) (by omega)
  have hhalf : 2 * q ≤ count + 1 := by
    have hmul : q * ncores ≤ count + ncores - 1 := hq ▸ Nat.div_mul_le_self _ _
    obtain ⟨p, rfl⟩ : ∃ p, q = p + 1 := ⟨q - 1, by omega⟩
    have hpair : p * 2 ≤ p * ncores := Nat.mul_le_mul_left p hcores
    rw [Nat.succ_mul] at hmul
    omega
  have hsz0 : 0 < sz := by omega
  have htwo : 2 ≤ n := by
    rw [hn, Nat.le_div_iff_mul_le hsz0]
    omega
  have hle : sz * n ≤ count + sz - 1 := hn ▸ Nat.mul_div_le _ _
  have hlt : count + sz - 1 < sz * n + sz := hn ▸ Nat.lt_mul_div_succ _ hsz0
  rw [hcut]
  refine ⟨⟨htwo, ?_, ?_⟩, ?_⟩
  · show 0 < count + sz - sz * n
    omega
  · show count + sz - sz * n ≤ sz
    omega
  · show sz * n + (count + sz - sz * n) = count + sz
    omega

/-- The sections of a list. -/
def sectionsOf (sz : Nat) (listp : List β) (k : Nat) : List β := (listp.drop (k * sz)).take sz

theorem joined_sectionsOf (sz : Nat) (listp : List β) (k : Nat) : joined (sectionsOf sz listp) k = listp.take (k * sz) := by
  induction k with
  | zero => rw [Nat.zero_mul, List.take_zero]; rfl
  | succ k ih => rw [joined_succ, ih, sectionsOf, Nat.succ_mul, List.take_add]

theorem sized_sectionsOf {cut : Cut} (hc : cut.Ok) {listp : List β}
    (hlen : cut.sz * cut.num_sect + cut.last_sect_len = listp.length + cut.sz) :
    Sized cut (sectionsOf cut.sz listp) := by
  intro k hk
  have hle := hc.le
  obtain ⟨m, hm⟩ : ∃ m, m + 1 = cut.num_sect := ⟨cut.num_sect - 1, by omega⟩
  rw [← hm, Nat.mul_succ, Nat.mul_comm] at hlen
  rw [sectionsOf, List.length_take, List.length_drop]
  by_cases hlast : k + 1 < cut.num_sect
  · have hmul : (k + 1) * cut.sz ≤ m * cut.sz := Nat.mul_le_mul_right _ (by omega)
    rw [Nat.succ_mul] at hmul
    rw [Cut.len_full hlast]
    omega
  · rw [Cut.len_last (by omega), show k = m by omega]
    omega

variable [LinearOrder β] {cmp : β → β → CFComparisonResult}

/-- For increasing indexes and any order of the sections the list is sorted as
`__CFSimpleMergeSort` sorts it. -/
theorem sortIndexesN_sorted (h : TotalPreorder cmp) {listp : List β} (hlt : listp.Pairwise (· < ·))
    (hcount : 160 ≤ listp.length) {ncores : Nat} (hcores : 2 ≤ ncores) (schedule : Schedule) (junk : Nat → Nat → β) :
    ∃ r, sortIndexesN cmp schedule junk listp ncores = some r ∧ r.Perm listp ∧ r.Pairwise (Earlier cmp) := by
  obtain ⟨cut, hcut⟩ : ∃ cut, cut = cutFor listp.length ncores := ⟨_, rfl⟩
  obtain ⟨hc, hlen⟩ := cutFor_ok hcount hcores
  rw [← hcut] at hc hlen
  have hB₀ : Sized cut (sectionsOf cut.sz listp) := sized_sectionsOf hc hlen
  have hall : joined (sectionsOf cut.sz listp) cut.num_sect = listp := by
    have := hc.le
    rw [joined_sectionsOf, List.take_of_length_le (by rw [Nat.mul_comm]; omega)]
  have hb₀ : Buffered cut ((List.range cut.num_sect).map fun idx => reallocate (junk idx) [] cut.sz) := by
    refine ⟨by rw [List.length_map, List.length_range], fun tmp htmp => ?_⟩
    obtain ⟨idx, -, rfl⟩ := List.mem_map.mp htmp
    exact length_reallocate _ _ _
  -- the sections are sorted
  have hin : ∀ k, k ∈ (schedule 0 cut.num_sect).val ↔ k < cut.num_sect := fun k =>
    (schedule _ _).property.mem_iff.trans List.mem_range
  obtain ⟨B, tmps, hsort, hB, hb, hsorted, -⟩ := sortSections_spec cmp hc
    ((schedule 0 cut.num_sect).property.nodup_iff.mpr List.nodup_range) (fun k hk => (hin k).mp hk) hB₀ hb₀
  rw [hall] at hsort
  have hperm : ∀ k ≤ cut.num_sect, (joined B k).Perm (joined (sectionsOf cut.sz listp) k) := fun k hk =>
    joined_perm_congr fun i hi => (hsorted i ((hin i).mpr (by omega))).perm
  have hincreasing : ∀ k, (joined (sectionsOf cut.sz listp) k).Pairwise (· < ·) := fun k => by
    rw [joined_sectionsOf]
    exact hlt.sublist (List.take_sublist _ _)
  have hblock : ∀ k < cut.num_sect, (B k).Pairwise (Earlier cmp) := fun k hk =>
    (hsorted k ((hin k).mpr hk)).pairwise h
      (hlt.sublist ((List.take_sublist _ _).trans (List.drop_sublist _ _)))
  have hties : ∀ k ≤ cut.num_sect, (joined B k).Pairwise (TiesKept cmp) := by
    intro k hk
    induction k with
    | zero => exact List.Pairwise.nil
    | succ k ih =>
      have hcross := hincreasing (k + 1)
      rw [joined_succ, List.pairwise_append] at hcross
      rw [joined_succ]
      refine List.pairwise_append.mpr ⟨ih (by omega), (hblock k hk).imp Earlier.tiesKept, fun a ha b hb _ _ => ?_⟩
      exact hcross.2.2 a ((hperm k (by omega)).mem_iff.mp ha) b ((hsorted k ((hin k).mpr hk)).perm.mem_iff.mp hb)
  have hready : Ready cmp cut B := ⟨hB, hblock, hties _ le_rfl⟩
  obtain ⟨tmps', hloop⟩ := mergePhases_spec h hc schedule hready hb ((cut.num_sect + 1) / 2) 0
  have hlist := hperm _ le_rfl
  rw [hall] at hlist
  have hrun := afterPhases_sorted (R := Earlier cmp) (Q := TiesKept cmp) (fun _ _ _ => Earlier.trans h) (fun _ _ => TiesKept.of_takesFirst h)
    (fun _ _ => Earlier.tiesKept) (hlist.nodup_iff.mpr (hlt.imp fun hab => hab.ne)) (hready.blocks hc) hready.ties
    (show cut.num_sect ≤ 2 * (0 + (cut.num_sect + 1) / 2) by omega)
  refine ⟨_, ?_, hrun.2.trans hlist, hrun.1⟩
  rw [Nat.mul_zero, afterPhases] at hloop
  subst hcut
  simp only [sortIndexesN, dispatchApply, hsort, hloop, Option.bind_eq_bind, Option.bind_some]
  rfl

/-- The concurrent sort of the indexes leaves what the sequential one does. -/
theorem sortIndexesN_agrees {count ncores : Nat} (hcount : 160 ≤ count) (hcores : 2 ≤ ncores)
    (cmp : Fin count → Fin count → CFComparisonResult) (h : TotalPreorder cmp) (schedule : Schedule)
    (junk : Nat → Nat → Fin count) {tmp : List (Fin count)} (htmp : count ≤ tmp.length) :
    ∃ r tmp', sortIndexesN cmp schedule junk (List.finRange count) ncores = some r ∧
      simpleMergeSort cmp (List.finRange count) tmp = some (r, tmp') := by
  have hlt := List.pairwise_lt_finRange count
  have hlen : (List.finRange count).length = count := List.length_finRange
  obtain ⟨r, hr, hperm, hsorted⟩ := sortIndexesN_sorted h hlt (by rwa [hlen]) hcores schedule junk
  obtain ⟨r', tmp', hr', -, hsorted'⟩ := simpleMergeSort_spec cmp (List.finRange count)
    (show (List.finRange count).length ≤ tmp.length by rwa [hlen])
  obtain rfl := Earlier.eq_of_perm hsorted (hsorted'.pairwise h hlt) (hperm.trans hsorted'.perm.symm)
  exact ⟨r, tmp', hr, hr'⟩

/-- Three sections, the last one short, for a comparator that has everything
equal. -/
theorem sortIndexesN_agrees_ties : ∃ r tmp',
    sortIndexesN (fun _ _ : Fin 161 => .eq) (fun _ n => ⟨(List.range n).reverse, List.reverse_perm _⟩)
      (fun _ _ => 0) (List.finRange 161) 3 = some r ∧
    simpleMergeSort (fun _ _ : Fin 161 => .eq) (List.finRange 161) (List.replicate 161 0) = some (r, tmp') :=
  sortIndexesN_agrees (by decide) (by decide) _ ⟨fun _ _ => rfl, fun _ _ _ _ _ => by decide⟩ _ _ (by simp)

end CFLite.Sorting
