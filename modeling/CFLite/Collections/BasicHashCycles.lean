import CFLite.Collections.BasicHashBuckets

/-!
# Which probes are a full cycle

The probes of `CFBasicHash` visit every bucket once, but for the last of the sizes
with the exponential style and a hash code below it: its second hash is 0, so
that the number of buckets less 1 is taken, and the products with it leave 64
bits.

* `perm_path`: the probes that stay within 64 bits are a permutation of the buckets;
* `findLoop_notFound`: a search without a result has seen every probe taken;
* `fullCycle_iff`.
-/

namespace CFLite.BasicHash

open Framework

variable {idx : Nat} {style : HashStyle} {hashCode : Word}

/-! ## Permutations -/

theorem length_walk (p : Probes) (rest probe acc : Nat) : (p.walk rest probe acc).length = rest := by
  induction rest generalizing probe acc with
  | zero => rfl
  | succ rest ih => rw [Probes.walk, List.length_cons, ih]

theorem length_path (style : HashStyle) (idx : Nat) (hashCode : Word) :
    (path style idx hashCode).length = tableSize idx :=
  length_walk ..

/-- Every number is a step of a stride that is coprime to the modulus. -/
theorem exists_step {n h : Nat} (hn : 0 < n) (hc : Nat.Coprime n h) (start : Nat) {q : Nat} (hq : q < n) :
    ∃ a < n, (start + a * h) % n = q := by
  have hinj : Set.InjOn (fun a => (start + a * h) % n) (Finset.range n : Finset Nat) := by
    intro i hi j hj hij
    exact stride_injective hc start (Finset.mem_range.mp hi) (Finset.mem_range.mp hj) hij
  obtain ⟨a, ha, hqa⟩ := Finset.surj_on_of_inj_on_of_card_le (t := Finset.range n)
    (fun a _ => (start + a * h) % n) (fun a _ => Finset.mem_range.mpr (Nat.mod_lt _ hn))
    (fun i j hi hj hij => hinj hi hj hij) le_rfl q (Finset.mem_range.mpr hq)
  exact ⟨a, Finset.mem_range.mp ha, hqa.symm⟩

/-- The probes are a permutation of the buckets if no product leaves 64 bits. -/
theorem perm_path (h0 : 0 < idx) (h : idx ≤ lastIdx)
    (hwithin : style = .exponential → ∀ a < tableSize idx,
      (probesFor style idx hashCode).h1 + (probesFor style idx hashCode).h2 * a < 2 ^ 64) :
    (path style idx hashCode).Perm (List.range (tableSize idx)) := by
  have hsub : List.range (tableSize idx) ⊆ path style idx hashCode := by
    intro q hq
    obtain ⟨a, ha, hstep⟩ := exists_step (tableSize_prime h0 h).pos
      (show Nat.Coprime (tableSize idx) (stride style idx hashCode) from coprime_stride h0 h)
      (probesFor style idx hashCode).h1 (List.mem_range.mp hq)
    rw [← hstep]
    exact mem_path h0 h ha fun hs => hwithin hs a ha
  have hlen : (path style idx hashCode).length ≤ (List.range (tableSize idx)).length := by
    rw [length_path, List.length_range]
  exact ((List.nodup_range.subperm hsub).perm_of_length_le hlen).symm

/-- Below 2³² buckets no product leaves 64 bits. -/
theorem within_of_small (h0 : 0 < idx) (h : idx ≤ lastIdx) (hsmall : tableSize idx ≤ 2 ^ 32) {a : Nat}
    (ha : a < tableSize idx) :
    (probesFor style idx hashCode).h1 + (probesFor style idx hashCode).h2 * a < 2 ^ 64 := by
  have h1 := h1_lt style hashCode h0 h
  have h2 := (h2_bounds style hashCode h0 h).2
  calc (probesFor style idx hashCode).h1 + (probesFor style idx hashCode).h2 * a
      < tableSize idx + tableSize idx * a := Nat.add_lt_add_of_lt_of_le h1 (Nat.mul_le_mul_right _ h2.le)
    _ = tableSize idx * (a + 1) := by rw [Nat.mul_succ, Nat.add_comm]
    _ ≤ 2 ^ 32 * 2 ^ 32 := Nat.mul_le_mul hsmall (by omega)
    _ = 2 ^ 64 := by norm_num

/-- A hash code that is at least the number of buckets has a second hash, with
which the products stay below the hash code. -/
theorem within_of_large (h0 : 0 < idx) (h : idx ≤ lastIdx) (hlarge : 2 ^ 32 ≤ tableSize idx)
    (hcode : tableSize idx ≤ hashCode.toNat) {a : Nat} (ha : a < tableSize idx) :
    (probesFor style idx hashCode).h1 + (probesFor style idx hashCode).h2 * a < 2 ^ 64 := by
  have hpos := (tableSize_prime h0 h).pos
  have h64 : hashCode.toNat < 2 ^ 64 := hashCode.toNat_lt
  have hquot : 0 < hashCode.toNat / tableSize idx := Nat.div_pos hcode hpos
  have hless : hashCode.toNat / tableSize idx < tableSize idx := by
    refine (Nat.div_lt_iff_lt_mul hpos).mpr (h64.trans_le ?_)
    calc 2 ^ 64 = 2 ^ 32 * 2 ^ 32 := by norm_num
      _ ≤ tableSize idx * tableSize idx := Nat.mul_le_mul hlarge hlarge
  have h2 : (probesFor style idx hashCode).h2 = hashCode.toNat / tableSize idx := by
    unfold probesFor
    dsimp only
    rw [Nat.mod_eq_of_lt hless, if_neg hquot.ne']
  rw [h2]
  calc hashCode.toNat % tableSize idx + hashCode.toNat / tableSize idx * a
      ≤ hashCode.toNat % tableSize idx + hashCode.toNat / tableSize idx * tableSize idx :=
        Nat.add_le_add_left (Nat.mul_le_mul_left _ ha.le) _
    _ = hashCode.toNat := by rw [Nat.mul_comm, Nat.mod_add_div]
    _ < 2 ^ 64 := h64

/-! ## The last size -/

theorem tableSize_lastIdx : tableSize lastIdx = 5244622819 := rfl

theorem tableSize_lt (h : idx < lastIdx) : tableSize idx < 2 ^ 32 := by
  have hall : ∀ i < lastIdx, tableSize i < 2 ^ 32 := by decide
  exact hall idx h

/-- Two powers of the root lead to one bucket: the product of one of them leaves
64 bits. -/
theorem not_nodup_path (hcode : hashCode.toNat < tableSize lastIdx) :
    ¬ (path .exponential lastIdx hashCode).Nodup := by
  intro hnodup
  have h0 : 0 < lastIdx := by decide
  have hsize := tableSize_lastIdx
  have h1 : (probesFor .exponential lastIdx hashCode).h1 = hashCode.toNat := Nat.mod_eq_of_lt hcode
  have h2 : (probesFor .exponential lastIdx hashCode).h2 = 5244622818 := by
    unfold probesFor
    dsimp only
    rw [Nat.div_eq_of_lt hcode, Nat.zero_mod, if_pos rfl, hsize]
  obtain ⟨i, hi, hpowi, hgeti⟩ :=
    exists_power h0 le_rfl hashCode (show 0 < 2680208606 by norm_num) (by rw [hsize]; norm_num)
  obtain ⟨j, hj, hpowj, hgetj⟩ :=
    exists_power h0 le_rfl hashCode (show 0 < 5244622818 by norm_num) (by rw [hsize]; norm_num)
  rw [h1, h2, hsize] at hgeti hgetj
  have hsame : (hashCode.toNat + 5244622818 * 2680208606) % 2 ^ 64 % 5244622819 =
      (hashCode.toNat + 5244622818 * 5244622818) % 2 ^ 64 % 5244622819 := by
    rw [hsize] at hcode
    omega
  have hidx : i + 1 = j + 1 := by
    refine (List.getElem?_inj ?_ hnodup).mp ?_
    · rw [length_path]
      exact hi
    · rw [hgeti, hgetj, hsame]
  obtain rfl : i = j := Nat.succ.inj hidx
  have : (2680208606 : Nat) = 5244622818 := hpowi.symm.trans hpowj
  omega

/-! ## Searches -/

theorem cell_eq_ok {xs : List Word} {j : Nat} {x : Word} (h : cell xs j = .ok x) : xs[j]? = some x := by
  change cell xs (.ofNat j) = .ok x at h
  rw [cell] at h
  split at h
  · rename_i word hword
    rw [hword, Except.ok.inj h]
  · cases h

/-- A search that gives no index has seen only buckets that are taken. -/
theorem findLoop_notFound {ht : CFBasicHash} {p : Probes} {stackKey code : Word} {rest probe acc : Nat}
    {deletedIdx : Int} {bucket : Bucket} (h : ht.findLoop p stackKey code rest probe acc deletedIdx = .ok bucket)
    (hnone : bucket.idx = kCFNotFound) :
    deletedIdx = kCFNotFound ∧
      ∀ q ∈ p.walk rest probe acc, ∀ word, ht.probedKeys[q]? = some word → word ≠ 0 ∧ word ≠ allOnes := by
  have hfirst : ∀ (deletedIdx : Int) (probe : Nat), CFBasicHash.firstIdx deletedIdx probe ≠ kCFNotFound := by
    intro deletedIdx probe he
    unfold CFBasicHash.firstIdx at he
    split at he
    · exact absurd he (by rw [kCFNotFound]; omega)
    · exact absurd he (by assumption)
  induction rest generalizing probe acc deletedIdx with
  | zero =>
    obtain rfl := Except.ok.inj h
    exact ⟨hnone, fun q hq => absurd hq List.not_mem_nil⟩
  | succ rest ih =>
    rw [CFBasicHash.findLoop] at h
    rcases hcell : cell ht.probedKeys probe with fault | currKey
    · rw [hcell] at h
      cases h
    rw [hcell, ok_bind] at h
    by_cases hzero : currKey = 0
    · rw [if_pos hzero] at h
      obtain rfl := Except.ok.inj h
      exact absurd hnone (hfirst _ _)
    rw [if_neg hzero] at h
    by_cases hones : currKey = allOnes
    · rw [if_pos hones] at h
      exact absurd (ih h).1 (hfirst _ _)
    rw [if_neg hones] at h
    dsimp only at h
    rcases hsame : ht.sameKey probe (unstored currKey) stackKey code with fault | same
    · rw [hsame] at h
      cases h
    rw [hsame, ok_bind] at h
    cases same with
    | true =>
      -- the bucket that was found has an index
      rw [if_pos rfl] at h
      rcases hvalue : ht.getValue probe with fault | value
      · rw [hvalue] at h
        cases h
      rw [hvalue, ok_bind] at h
      rcases hcount : (if ht.hasCounts then ht.getSlotCount probe else .ok 1 : Except Fault Nat) with fault | count
      · rw [hcount] at h
        cases h
      rw [hcount, ok_bind] at h
      obtain rfl := Except.ok.inj h
      exact absurd hnone (by rw [kCFNotFound]; simp)
    | false =>
      rw [if_neg Bool.false_ne_true] at h
      obtain ⟨hdeleted, hrest⟩ := ih h
      refine ⟨hdeleted, fun q hq word hword => ?_⟩
      rw [Probes.walk] at hq
      rcases List.mem_cons.mp hq with rfl | hq
      · rw [cell_eq_ok hcell] at hword
        obtain rfl := Option.some.inj hword
        exact ⟨hzero, hones⟩
      · exact hrest q hq word hword

/-! ## Full cycles -/

/-- What the probes for a hash code are to do. -/
structure FullCycle (style : HashStyle) (idx : Nat) (hashCode : Word) : Prop where
  /-- They visit every bucket, and each of them once. -/
  perm : (path style idx hashCode).Perm (List.range (tableSize idx))
  /-- A lookup that returns no index proves that no bucket is empty or deleted. -/
  lookup : ∀ (ht : CFBasicHash) (stackKey : Word), ht.hashStyle = style → ht.numBucketsIdx = idx →
    ht.callbacks.hashKey stackKey = hashCode → ∀ bucket, ht.findBucketUnchecked stackKey = .ok bucket →
      bucket.idx = kCFNotFound →
        ∀ j < tableSize idx, ∀ word, ht.probedKeys[j]? = some word → word ≠ 0 ∧ word ≠ allOnes

theorem fullCycle_of_perm (h0 : 0 < idx) (h : idx ≤ lastIdx)
    (hperm : (path style idx hashCode).Perm (List.range (tableSize idx))) : FullCycle style idx hashCode := by
  refine ⟨hperm, ?_⟩
  rintro ht stackKey rfl rfl rfl bucket hfind hnone j hj
  have hbuckets : ¬ ht.getNumBuckets = 0 := (tableSize_prime h0 h).ne_zero
  rw [CFBasicHash.findBucketUnchecked, if_neg h0.ne', if_neg hbuckets] at hfind
  exact (findLoop_notFound hfind hnone).2 j (hperm.mem_iff.mpr (List.mem_range.mpr hj))

/-- The probes of every style are a full cycle for every size and hash code, but
for the exponential ones of the last size and a hash code below it. -/
theorem fullCycle_iff (style : HashStyle) (idx : Nat) (hashCode : Word) (h0 : 0 < idx) (h : idx ≤ lastIdx) :
    FullCycle style idx hashCode ↔ ¬ (style = .exponential ∧ idx = lastIdx ∧ hashCode.toNat < tableSize lastIdx) := by
  constructor
  · rintro hfull ⟨rfl, rfl, hcode⟩
    exact not_nodup_path hcode (hfull.perm.nodup_iff.mpr List.nodup_range)
  · intro hok
    refine fullCycle_of_perm h0 h (perm_path h0 h ?_)
    rintro rfl a ha
    rcases Nat.lt_or_eq_of_le h with hlt | rfl
    · exact within_of_small h0 h (tableSize_lt hlt).le ha
    · have hcode : tableSize lastIdx ≤ hashCode.toNat := Nat.le_of_not_lt fun hlt => hok ⟨rfl, rfl, hlt⟩
      exact within_of_large h0 le_rfl (by rw [tableSize_lastIdx]; norm_num) hcode ha

theorem fullCycle_double : 0 < 1 ∧ 1 ≤ lastIdx ∧ FullCycle .double 1 17 :=
  ⟨by decide, by decide, (fullCycle_iff .double 1 17 (by decide) (by decide)).mpr (by rintro ⟨hs, -⟩; cases hs)⟩

/-- The key whose hash code is 0, in the largest table. -/
theorem not_fullCycle_zero : ¬ FullCycle .exponential 44 0 := fun hfull =>
  not_nodup_path (show (0 : Word).toNat < tableSize lastIdx by rw [tableSize_lastIdx]; decide)
    (hfull.perm.nodup_iff.mpr List.nodup_range)

end CFLite.BasicHash
