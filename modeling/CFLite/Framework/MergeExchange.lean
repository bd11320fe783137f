import CFLite.Framework.StableSort
import Mathlib.Data.List.Flatten
import Mathlib.Data.List.Range

/-!
# Sorting blocks by merging neighbours

`n` sorted blocks of `sz` elements, of which the last one may be shorter. A phase
merges each second pair of neighbouring blocks: the smaller elements go to the left
block, the larger ones to the right one. Phases that take the pairs by turns sort
the whole in `n` phases.

The elements below a bound are followed through the phases. `Settled` says how many
of them the first `i` blocks have at least: as many as they can, or else as many as
a path of `d` steps to the left and `u` steps to the right, one in each phase, has
brought them.

* `Phase.joined_perm`: which blocks keep their elements together;
* `Phase.settled`: one phase;
* `sorted_of_phases`: the run;
* `exchanged`, `afterPhases`: the phases that merge with a comparison which is only
  right for elements that stand as `Q` says, and `afterPhases_sorted`.
-/

namespace CFLite.Framework

variable {γ : Type*} {R : γ → γ → Prop} {n sz parity : Nat} {B B' : Nat → List γ}

/-- The elements of the first `i` blocks. -/
def joined (B : Nat → List γ) (i : Nat) : List γ := ((List.range i).map B).flatten

theorem joined_succ (B : Nat → List γ) (i : Nat) : joined B (i + 1) = joined B i ++ B i := by
  rw [joined, joined, List.range_succ, List.map_append, List.flatten_append]
  simp

/-- What holds between the elements in their places holds between neighbouring
blocks. -/
theorem rel_of_pairwise_joined {Q : γ → γ → Prop} (h : (joined B n).Pairwise Q) {i : Nat} (hi : i + 1 < n) :
    ∀ x ∈ B i, ∀ y ∈ B (i + 1), Q x y := by
  have hlt := List.pairwise_map.mp (List.pairwise_flatten.mp h).2
  have hpair := List.pairwise_iff_getElem.mp hlt i (i + 1) (by rw [List.length_range]; omega)
    (by rwa [List.length_range]) (Nat.lt_succ_self i)
  rwa [List.getElem_range, List.getElem_range] at hpair

/-- The blocks before a phase. -/
structure Blocks (R : γ → γ → Prop) (n sz : Nat) (B : Nat → List γ) : Prop where
  full : ∀ k, k + 1 < n → (B k).length = sz
  le : ∀ k < n, (B k).length ≤ sz
  sorted : ∀ k < n, (B k).Pairwise R

/-- A phase merges the blocks `i` and `i + 1` for `i` of one parity. -/
structure Phase (R : γ → γ → Prop) (n parity : Nat) (B B' : Nat → List γ) : Prop where
  perm : ∀ i, i + 1 < n → i % 2 = parity → (B' i ++ B' (i + 1)).Perm (B i ++ B (i + 1))
  sorted : ∀ i, i + 1 < n → i % 2 = parity → (B' i ++ B' (i + 1)).Pairwise R
  length : ∀ i, i + 1 < n → i % 2 = parity → (B' i).length = (B i).length
  rest : ∀ i < n, ¬ (i + 1 < n ∧ i % 2 = parity) → ¬ (0 < i ∧ (i - 1) % 2 = parity) → B' i = B i

namespace Phase

theorem length_right (h : Phase R n parity B B') {i : Nat} (hi : i + 1 < n) (hp : i % 2 = parity) :
    (B' (i + 1)).length = (B (i + 1)).length := by
  have hlen := (h.perm i hi hp).length_eq
  have hleft := h.length i hi hp
  rw [List.length_append, List.length_append] at hlen
  omega

/-- Each block is the left one of a pair, the right one, or stays. -/
theorem cases (h : Phase R n parity B B') {k : Nat} (hk : k < n) :
    (k + 1 < n ∧ k % 2 = parity) ∨ (∃ i, k = i + 1 ∧ i % 2 = parity) ∨
      (∀ i, k = i + 1 → i % 2 ≠ parity) ∧ B' k = B k := by
  by_cases hleft : k + 1 < n ∧ k % 2 = parity
  · exact .inl hleft
  by_cases hright : 0 < k ∧ (k - 1) % 2 = parity
  · exact .inr (.inl ⟨k - 1, by omega, hright.2⟩)
  · refine .inr (.inr ⟨?_, h.rest k hk hleft hright⟩)
    rintro i rfl hp
    exact hright ⟨Nat.succ_pos i, hp⟩

theorem length_eq (h : Phase R n parity B B') {k : Nat} (hk : k < n) : (B' k).length = (B k).length := by
  rcases h.cases hk with ⟨hi, hp⟩ | ⟨i, rfl, hp⟩ | ⟨-, heq⟩
  · exact h.length k hi hp
  · exact h.length_right hk hp
  · rw [heq]

theorem blocks (h : Phase R n parity B B') (hB : Blocks R n sz B) : Blocks R n sz B' := by
  refine ⟨fun k hk => (h.length_eq (by omega)).trans (hB.full k hk), fun k hk => (h.length_eq hk).trans_le (hB.le k hk),
    fun k hk => ?_⟩
  rcases h.cases hk with ⟨hi, hp⟩ | ⟨i, rfl, hp⟩ | ⟨-, heq⟩
  · exact (List.pairwise_append.mp (h.sorted k hi hp)).1
  · exact (List.pairwise_append.mp (h.sorted i hk hp)).2.1
  · rw [heq]
    exact hB.sorted k hk

/-- No pair has a block on either side of the border `j`. -/
theorem joined_perm (h : Phase R n parity B B') {j : Nat} (hj : j ≤ n)
    (hborder : ∀ i, j = i + 1 → j < n → i % 2 ≠ parity) : (joined B' j).Perm (joined B j) := by
  induction j using Nat.strong_induction_on with
  | _ j ih =>
    match j, hj, hborder with
    | 0, _, _ => exact List.Perm.refl _
    | k + 1, hj, hborder =>
      rcases h.cases (show k < n by omega) with ⟨hi, hp⟩ | ⟨i, rfl, hp⟩ | ⟨hnot, heq⟩
      · exact absurd hp (hborder k rfl hi)
      · -- the blocks `i` and `i + 1` are a pair
        have hbefore := ih i (by omega) (by omega) fun i' hi' _ => by omega
        rw [joined_succ, joined_succ, joined_succ, joined_succ, List.append_assoc, List.append_assoc]
        exact hbefore.append (h.perm i (by omega) hp)
      · rw [joined_succ, joined_succ, heq]
        exact (ih k (by omega) (by omega) fun i hi _ => hnot i hi).append_right _

/-- What holds between elements in their places, and between elements of a pair
after it was merged, goes on to hold. -/
theorem pairwise_joined {Q : γ → γ → Prop} (h : Phase R n parity B B') (hR : ∀ a b, R a b → Q a b)
    (hQ : (joined B n).Pairwise Q) : (joined B' n).Pairwise Q := by
  have key : ∀ j ≤ n, (∀ i, j = i + 1 → j < n → i % 2 ≠ parity) → (joined B j).Pairwise Q →
      (joined B' j).Pairwise Q := by
    intro j
    induction j using Nat.strong_induction_on with
    | _ j ih =>
      intro hj hborder hq
      match j, hj, hborder with
      | 0, _, _ => exact List.Pairwise.nil
      | k + 1, hj, hborder =>
        rcases h.cases (show k < n by omega) with ⟨hi, hp⟩ | ⟨i, rfl, hp⟩ | ⟨hnot, heq⟩
        · exact absurd hp (hborder k rfl hi)
        · have hperm := h.joined_perm (j := i) (by omega) fun i' hi' _ => by omega
          rw [joined_succ, joined_succ, List.append_assoc] at hq ⊢
          obtain ⟨hq₁, -, hcross⟩ := List.pairwise_append.mp hq
          refine List.pairwise_append.mpr ⟨ih i (by omega) (by omega) (fun i' hi' _ => by omega) hq₁,
            (h.sorted i (by omega) hp).imp fun h => hR _ _ h, fun a ha b hb => ?_⟩
          exact hcross a (hperm.mem_iff.mp ha) b ((h.perm i (by omega) hp).mem_iff.mp hb)
        · have hperm := h.joined_perm (j := k) (by omega) fun i hi _ => hnot i hi
          rw [joined_succ] at hq ⊢
          rw [heq]
          obtain ⟨hq₁, hq₂, hcross⟩ := List.pairwise_append.mp hq
          exact List.pairwise_append.mpr ⟨ih k (by omega) (by omega) (fun i hi _ => hnot i hi) hq₁, hq₂,
            fun a ha b hb => hcross a (hperm.mem_iff.mp ha) b hb⟩
  exact key n le_rfl (fun i hi hlt => absurd hlt (lt_irrefl n)) hQ

end Phase

/-! ## The elements below a bound -/

section Count

variable {p : γ → Bool}

theorem countP_joined_succ (B : Nat → List γ) (i : Nat) :
    (joined B (i + 1)).countP p = (joined B i).countP p + (B i).countP p := by
  rw [joined_succ, List.countP_append]

theorem countP_joined_mono (B : Nat → List γ) {i j : Nat} (h : i ≤ j) :
    (joined B i).countP p ≤ (joined B j).countP p := by
  induction j, h using Nat.le_induction with
  | base => exact le_rfl
  | succ j _ ih => exact ih.trans (by rw [countP_joined_succ]; exact Nat.le_add_right _ _)

/-- The left part of a sorted list has as many small elements as it can. -/
theorem countP_left {l r : List γ} (hp : ∀ x y, R x y → p y → p x) (hsorted : (l ++ r).Pairwise R) :
    l.countP p = min ((l ++ r).countP p) l.length := by
  rw [List.countP_append]
  by_cases hr : ∃ y ∈ r, p y
  · obtain ⟨y, hy, hpy⟩ := hr
    have hall : l.countP p = l.length := List.countP_eq_length.mpr fun x hx =>
      hp x y ((List.pairwise_append.mp hsorted).2.2 x hx y hy) hpy
    omega
  · have hnone : r.countP p = 0 := List.countP_eq_zero.mpr fun y hy hpy => hr ⟨y, hy, hpy⟩
    have := List.countP_le_length (p := p) (l := l)
    omega

theorem Blocks.countP_le (hB : Blocks R n sz B) {k : Nat} (hk : k < n) : (B k).countP p ≤ sz :=
  List.countP_le_length.trans (hB.le k hk)

/-- The blocks from `i` on have room for the small elements that the others do
not have. -/
theorem Blocks.countP_joined_le (hB : Blocks R n sz B) {i k : Nat} (hk : i + k ≤ n) :
    (joined B (i + k)).countP p ≤ (joined B i).countP p + k * sz := by
  induction k with
  | zero => exact Nat.le_add_right _ _
  | succ k ih =>
    have hle := hB.countP_le (p := p) (show i + k < n by omega)
    have hstep := countP_joined_succ (p := p) B (i + k)
    rw [← Nat.add_assoc, hstep, Nat.succ_mul]
    have := ih (by omega)
    omega

/-- What a phase does to the count on the left of a border inside a pair. -/
theorem Phase.countP_border (h : Phase R n parity B B') (hB : Blocks R n sz B) (hp : ∀ x y, R x y → p y → p x) {i : Nat}
    (hi : i + 1 < n) (hparity : i % 2 = parity) :
    (joined B' (i + 1)).countP p = min ((joined B (i + 2)).countP p) ((joined B i).countP p + sz) := by
  have hbefore := (h.joined_perm (j := i) (by omega) fun i' hi' _ => by omega).countP_eq p
  have hpair := (h.perm i hi hparity).countP_eq p
  have hleft := countP_left hp (h.sorted i hi hparity)
  rw [h.length i hi hparity, hB.full i hi, hpair, List.countP_append] at hleft
  rw [countP_joined_succ, hbefore, hleft, countP_joined_succ, countP_joined_succ]
  omega

/-- The first `i` blocks have as many small elements as they can, or as many as
`m` steps of phases bring them. -/
def Settled (p : γ → Bool) (n sz : Nat) (B : Nat → List γ) (m i : Nat) : Prop :=
  min (i * sz) ((joined B n).countP p) ≤ (joined B i).countP p ∨
  ∃ d u, m ≤ d + u ∧ d * sz ≤ (joined B i).countP p ∧
    (joined B n).countP p + u * sz ≤ (joined B i).countP p + (n - i) * sz

theorem Settled.mono {m m' i : Nat} (h : Settled p n sz B m i) (hm : m' ≤ m) : Settled p n sz B m' i := by
  rcases h with h | ⟨d, u, hdu, hd, hu⟩
  · exact .inl h
  · exact .inr ⟨d, u, hm.trans hdu, hd, hu⟩

/-- Enough steps settle the border for good. -/
theorem Settled.done {m i : Nat} (h : Settled p n sz B m i) (hi : i ≤ n) (hm : n ≤ m + 1) :
    min (i * sz) ((joined B n).countP p) ≤ (joined B i).countP p := by
  rcases h with h | ⟨d, u, hdu, hd, hu⟩
  · exact h
  by_cases hid : i ≤ d
  · exact (min_le_left _ _).trans ((Nat.mul_le_mul_right sz hid).trans hd)
  · have := Nat.mul_le_mul_right sz (show n - i ≤ u by omega)
    omega

theorem Blocks.settled_zero (hB : Blocks R n sz B) {i : Nat} (hi : i ≤ n) : Settled p n sz B 0 i := by
  refine .inr ⟨0, 0, le_rfl, by omega, ?_⟩
  have := hB.countP_joined_le (p := p) (show i + (n - i) ≤ n by omega)
  rw [show i + (n - i) = n by omega] at this
  omega

/-- A phase brings the borders of its parity one step further than their
neighbours, and leaves the others where they are. -/
theorem Phase.settled {t : Nat} (h : Phase R n (t % 2) B B') (hB : Blocks R n sz B) (hp : ∀ x y, R x y → p y → p x)
    (hs : ∀ i ≤ n, Settled p n sz B (if i % 2 = t % 2 then t else t - 1) i) :
    ∀ i ≤ n, Settled p n sz B' (if i % 2 = (t + 1) % 2 then t + 1 else t) i := by
  intro i hi
  have htotal := (h.joined_perm le_rfl fun i' hi' _ => by omega).countP_eq p
  by_cases hparity : i % 2 = (t + 1) % 2
  · rw [if_pos hparity]
    rcases Nat.eq_zero_or_pos i with rfl | hpos
    · exact .inl (by omega)
    rcases Nat.eq_or_lt_of_le hi with rfl | hlt
    · exact .inl (min_le_right _ _)
    obtain ⟨j, rfl⟩ : ∃ j, i = j + 1 := ⟨i - 1, by omega⟩
    have hborder := h.countP_border hB hp (i := j) hlt (by omega)
    have hleft := hs j (by omega)
    have hright := hs (j + 2) (by omega)
    rw [if_pos (by omega)] at hleft hright
    have hj₁ : (j + 1) * sz = j * sz + sz := Nat.succ_mul j sz
    have hj₂ : (j + 2) * sz = j * sz + sz + sz := by rw [Nat.succ_mul, hj₁]
    have hn₀ : (n - j) * sz = (n - (j + 1)) * sz + sz := by rw [← Nat.succ_mul]; congr 1; omega
    have hn₁ : (n - (j + 1)) * sz = (n - (j + 2)) * sz + sz := by rw [← Nat.succ_mul]; congr 1; omega
    rw [Settled, htotal, hborder]
    rcases Nat.le_total ((joined B (j + 2)).countP p) ((joined B j).countP p + sz) with hmin | hmin
    · -- the count of the border to the right
      rw [min_eq_left hmin]
      rcases hright with hright | ⟨d, u, hdu, hd, hu⟩
      · exact .inl (by omega)
      · exact .inr ⟨d, u + 1, by omega, hd, by rw [Nat.succ_mul]; omega⟩
    · -- a full block more than the count of the border to the left
      rw [min_eq_right hmin]
      rcases hleft with hleft | ⟨d, u, hdu, hd, hu⟩
      · exact .inl (by omega)
      · exact .inr ⟨d + 1, u, by omega, by rw [Nat.succ_mul]; omega, by omega⟩
  · rw [if_neg hparity]
    have hsame := (h.joined_perm hi fun i' hi' hlt => by omega).countP_eq p
    have hold := hs i hi
    rw [if_pos (by omega)] at hold
    rwa [Settled, htotal, hsame]

end Count

/-! ## The run -/

variable {B : Nat → Nat → List γ} {t : Nat}

theorem blocks_of_phases (h₀ : Blocks R n sz (B 0)) (hphase : ∀ s < t, Phase R n (s % 2) (B s) (B (s + 1))) :
    Blocks R n sz (B t) ∧ (joined (B t) n).Perm (joined (B 0) n) := by
  induction t with
  | zero => exact ⟨h₀, List.Perm.refl _⟩
  | succ t ih =>
    obtain ⟨hB, hperm⟩ := ih fun s hs => hphase s (by omega)
    have h := hphase t (Nat.lt_succ_self t)
    exact ⟨h.blocks hB, (h.joined_perm le_rfl fun i hi _ => by omega).trans hperm⟩

theorem settled_of_phases {p : γ → Bool} (hp : ∀ x y, R x y → p y → p x) (h₀ : Blocks R n sz (B 0))
    (hphase : ∀ s < t, Phase R n (s % 2) (B s) (B (s + 1))) :
    ∀ i ≤ n, Settled p n sz (B t) (if i % 2 = t % 2 then t else t - 1) i := by
  induction t with
  | zero => exact fun i hi => (h₀.settled_zero hi).mono (by split <;> omega)
  | succ t ih =>
    have hbefore : ∀ s < t, Phase R n (s % 2) (B s) (B (s + 1)) := fun s hs => hphase s (by omega)
    exact (hphase t (Nat.lt_succ_self t)).settled (blocks_of_phases h₀ hbefore).1 hp (ih hbefore)

/-- After `n` phases everything is in order. -/
theorem sorted_of_phases (trans : ∀ a b c, R a b → R b c → R a c) (hnodup : (joined (B 0) n).Nodup)
    (h₀ : Blocks R n sz (B 0)) (hphase : ∀ s < t, Phase R n (s % 2) (B s) (B (s + 1))) (ht : n ≤ t) :
    (joined (B t) n).Pairwise R := by
  classical
  obtain ⟨hB, hperm⟩ := blocks_of_phases h₀ hphase
  refine List.pairwise_flatten.mpr ⟨fun l hl => ?_, List.pairwise_map.mpr ?_⟩
  · obtain ⟨k, hk, rfl⟩ := List.mem_map.mp hl
    exact hB.sorted k (List.mem_range.mp hk)
  have hne := List.pairwise_map.mp (List.pairwise_flatten.mp (hperm.nodup_iff.mpr hnodup)).2
  refine (hne.and List.pairwise_lt_range).imp_of_mem fun {i j} hi hj ⟨hne, hij⟩ x hx y hy => ?_
  have hjn : j < n := List.mem_range.mp hj
  -- the elements up to `y`
  have hp : ∀ a b, R a b → decide (b = y ∨ R b y) → decide (a = y ∨ R a y) := fun a b hab hb => by
    rcases of_decide_eq_true hb with rfl | hb
    · exact decide_eq_true (.inr hab)
    · exact decide_eq_true (.inr (trans _ _ _ hab hb))
  have hsettled := (settled_of_phases hp h₀ hphase (i + 1) (by omega)).done (by omega) (by split <;> omega)
  obtain ⟨p, hpdef⟩ : ∃ p : γ → Bool, p = fun z => decide (z = y ∨ R z y) := ⟨_, rfl⟩
  rw [← hpdef] at hsettled
  have hy' : 0 < (B t j).countP p := List.countP_pos_iff.mpr ⟨y, hy, by rw [hpdef]; exact decide_eq_true (.inl rfl)⟩
  have hbefore := countP_joined_mono (p := p) (B t) (show i + 1 ≤ j by omega)
  have hafter := countP_joined_mono (p := p) (B t) (show j + 1 ≤ n by omega)
  have hstart := hB.countP_joined_le (p := p) (show 0 + i ≤ n by omega)
  have hzero : (joined (B t) 0).countP p = 0 := rfl
  rw [Nat.zero_add, hzero] at hstart
  rw [countP_joined_succ] at hafter
  have hfull : (i + 1) * sz ≤ (joined (B t) (i + 1)).countP p := by omega
  rw [countP_joined_succ, Nat.succ_mul] at hfull
  have hle := hB.le i (by omega)
  have hcount := List.countP_le_length (p := p) (l := B t i)
  have hx' := List.countP_eq_length.mp (show (B t i).countP p = (B t i).length by omega) x hx
  rw [hpdef] at hx'
  exact (of_decide_eq_true hx').resolve_left (hne x hx y hy)

/-! ## Phases that merge -/

section Merge

variable (le : γ → γ → Bool) (n sz : Nat)

/-- Block `k` after a phase. -/
def exchanged (parity : Nat) (B : Nat → List γ) (k : Nat) : List γ :=
  if k + 1 < n ∧ k % 2 = parity then (List.merge (B k) (B (k + 1)) le).take sz
  else if 0 < k ∧ (k - 1) % 2 = parity then (List.merge (B (k - 1)) (B k) le).drop sz
  else B k

/-- The blocks after `t` phases. -/
def afterPhases (B : Nat → List γ) : Nat → Nat → List γ
  | 0 => B
  | t + 1 => exchanged le n sz (t % 2) (afterPhases B t)

variable {le n sz} {Q : γ → γ → Prop} {B : Nat → List γ}

theorem exchanged_left {i : Nat} (hi : i + 1 < n) (hp : i % 2 = parity) :
    exchanged le n sz parity B i = (List.merge (B i) (B (i + 1)) le).take sz := if_pos ⟨hi, hp⟩

theorem exchanged_right {i : Nat} (hp : i % 2 = parity) :
    exchanged le n sz parity B (i + 1) = (List.merge (B i) (B (i + 1)) le).drop sz := by
  rw [exchanged, if_neg (by omega), if_pos ⟨Nat.succ_pos i, hp⟩, Nat.add_sub_cancel]

variable (trans : ∀ a b c, R a b → R b c → R a c) (hcross : ∀ a b, Q a b → if le a b then R a b else R b a)
include trans hcross

theorem exchanged_phase (hB : Blocks R n sz B) (hQ : (joined B n).Pairwise Q) :
    Phase R n parity B (exchanged le n sz parity B) := by
  have hmerge : ∀ i, i + 1 < n → i % 2 = parity → exchanged le n sz parity B i ++ exchanged le n sz parity B (i + 1) =
      List.merge (B i) (B (i + 1)) le := fun i hi hp => by
    rw [exchanged_left hi hp, exchanged_right hp, List.take_append_drop]
  refine ⟨fun i hi hp => ?_, fun i hi hp => ?_, fun i hi hp => ?_, fun i _ hl hr => ?_⟩
  · rw [hmerge i hi hp]
    exact List.merge_perm_append le
  · rw [hmerge i hi hp]
    exact pairwise_merge_of trans (fun x hx y hy => hcross x y (rel_of_pairwise_joined hQ hi x hx y hy))
      (hB.sorted i (by omega)) (hB.sorted (i + 1) hi)
  · rw [exchanged_left hi hp, List.length_take, (List.merge_perm_append le).length_eq, List.length_append,
      hB.full i hi]
    omega
  · rw [exchanged, if_neg hl, if_neg hr]

theorem afterPhases_phase (hR : ∀ a b, R a b → Q a b) (hB : Blocks R n sz B) (hQ : (joined B n).Pairwise Q) (t : Nat) :
    Blocks R n sz (afterPhases le n sz B t) ∧ (joined (afterPhases le n sz B t) n).Pairwise Q ∧
      Phase R n (t % 2) (afterPhases le n sz B t) (afterPhases le n sz B (t + 1)) := by
  induction t with
  | zero => exact ⟨hB, hQ, exchanged_phase trans hcross hB hQ⟩
  | succ t ih =>
    obtain ⟨hB', hQ', hphase⟩ := ih
    have hB'' := hphase.blocks hB'
    have hQ'' := hphase.pairwise_joined hR hQ'
    exact ⟨hB'', hQ'', exchanged_phase trans hcross hB'' hQ''⟩

theorem afterPhases_sorted (hR : ∀ a b, R a b → Q a b) (hnodup : (joined B n).Nodup) (hB : Blocks R n sz B)
    (hQ : (joined B n).Pairwise Q) {t : Nat} (ht : n ≤ t) :
    (joined (afterPhases le n sz B t) n).Pairwise R ∧ (joined (afterPhases le n sz B t) n).Perm (joined B n) := by
  have hphase : ∀ s < t, Phase R n (s % 2) (afterPhases le n sz B s) (afterPhases le n sz B (s + 1)) := fun s _ =>
    (afterPhases_phase trans hcross hR hB hQ s).2.2
  exact ⟨sorted_of_phases trans hnodup hB hphase ht, (blocks_of_phases hB hphase).2⟩

end Merge

end CFLite.Framework
