import Mathlib.Data.Int.LeastGreatest

/-!
# Occurrences picked one after the other

A search through a range looks for the first occurrence of a pattern from its
start, or from its end, and a search for all of them goes on in what is left of
the range.

* `Occurrences.Greedy`: the occurrences picked greedily, without overlap;
* `Greedy.unique`, `exists_greedy`: there is one way to pick them;
* `Truncated.greedy_iff`: what a search picks that knows fewer occurrences, and
  goes on up to another limit than it began with.
-/

namespace CFLite.Framework

/-- Where a pattern occurs, its width, and how the search goes through a range. -/
structure Occurrences where
  occurs : Int → Prop
  width : Int
  backwards : Bool
  anchored : Bool

namespace Occurrences

variable (o : Occurrences)

/-- An occurrence inside a range, where an anchored search may find it. -/
structure Inside (lo hi p : Int) : Prop where
  occurs : o.occurs p
  lower : lo ≤ p
  upper : p + o.width ≤ hi
  anchored : o.anchored = true → if o.backwards then p + o.width = hi else p = lo

/-- The first occurrence on the way of the search. -/
structure First (lo hi p : Int) : Prop where
  inside : o.Inside lo hi p
  first : ∀ q, o.Inside lo hi q → if o.backwards then q ≤ p else p ≤ q

/-- The start of what is left of a range after an occurrence. -/
def nextLo (lo p : Int) : Int := if o.backwards then lo else p + o.width

/-- The end of what is left of a range after an occurrence. -/
def nextHi (hi p : Int) : Int := if o.backwards then p else hi

/-- The occurrences picked greedily. -/
inductive Greedy : Int → Int → List Int → Prop
  | nil {lo hi : Int} : (∀ p, ¬o.Inside lo hi p) → Greedy lo hi []
  | cons {lo hi p : Int} {ps : List Int} :
      o.First lo hi p → Greedy (o.nextLo lo p) (o.nextHi hi p) ps → Greedy lo hi (p :: ps)

variable {o} {lo hi : Int}

theorem nextHi_forwards (hb : o.backwards = false) (hi p : Int) : o.nextHi hi p = hi :=
  if_neg (by rw [hb]; exact Bool.false_ne_true)

theorem nextHi_backwards (hb : o.backwards = true) (hi p : Int) : o.nextHi hi p = p := if_pos hb

theorem nextHi_mono {limit : Int} (h : limit ≤ hi) (p : Int) : o.nextHi limit p ≤ o.nextHi hi p := by
  cases hb : o.backwards with
  | false => rwa [nextHi_forwards hb, nextHi_forwards hb]
  | true => rw [nextHi_backwards hb, nextHi_backwards hb]

theorem First.unique {p q : Int} (hp : o.First lo hi p) (hq : o.First lo hi q) : p = q := by
  have hpq := hp.first q hq.inside
  have hqp := hq.first p hp.inside
  cases hb : o.backwards <;> simp only [hb, if_true, Bool.false_eq_true, if_false] at hpq hqp <;> omega

theorem Greedy.unique {ps qs : List Int} (hp : o.Greedy lo hi ps) (hq : o.Greedy lo hi qs) : ps = qs := by
  induction hp generalizing qs with
  | nil hnone =>
    cases hq with
    | nil => rfl
    | cons hfirst => exact absurd hfirst.inside (hnone _)
  | cons hfirst _ ih =>
    cases hq with
    | nil hnone => exact absurd hfirst.inside (hnone _)
    | cons hfirst' hrest =>
      obtain rfl := hfirst.unique hfirst'
      rw [ih hrest]

theorem Greedy.occurs {ps : List Int} (h : o.Greedy lo hi ps) : ∀ p ∈ ps, o.occurs p := by
  induction h with
  | nil => exact nofun
  | cons hfirst _ ih => exact List.forall_mem_cons.mpr ⟨hfirst.inside.occurs, ih⟩

theorem Greedy.upper (hwidth : 0 ≤ o.width) {ps : List Int} (h : o.Greedy lo hi ps) : ∀ p ∈ ps, p + o.width ≤ hi := by
  induction h with
  | nil => exact nofun
  | @cons lo hi p ps hfirst _ ih =>
    have hupper := hfirst.inside.upper
    refine List.forall_mem_cons.mpr ⟨hupper, fun q hq => (ih q hq).trans ?_⟩
    cases hb : o.backwards with
    | false => rw [nextHi_forwards hb]
    | true =>
      rw [nextHi_backwards hb]
      omega

/-- Where the pattern occurs inside a range, there is a first place. -/
theorem exists_first {q : Int} (h : o.Inside lo hi q) : ∃ p, o.First lo hi p := by
  cases hb : o.backwards with
  | false =>
    obtain ⟨p, hp, hleast⟩ := @Int.exists_least_of_bdd (o.Inside lo hi) ⟨lo, fun _ hz => hz.lower⟩ ⟨q, h⟩
    exact ⟨p, hp, fun q hq => by rw [hb]; exact hleast q hq⟩
  | true =>
    have hbounded : ∀ z, o.Inside lo hi z → z ≤ hi - o.width := fun z hz => Int.le_sub_right_of_add_le hz.upper
    obtain ⟨p, hp, hgreatest⟩ := @Int.exists_greatest_of_bdd (o.Inside lo hi) ⟨_, hbounded⟩ ⟨q, h⟩
    exact ⟨p, hp, fun q hq => by rw [hb]; exact hgreatest q hq⟩

/-- An occurrence that is not empty leaves less of the range. -/
theorem Inside.left_lt {p : Int} (hwidth : 0 < o.width) (h : o.Inside lo hi p) :
    (o.nextHi hi p - o.nextLo lo p).toNat < (hi - lo).toNat := by
  have hlower := h.lower
  have hupper := h.upper
  unfold nextHi nextLo
  split <;> omega

theorem exists_greedy (hwidth : 0 < o.width) (lo hi : Int) : ∃ ps, o.Greedy lo hi ps := by
  induction hn : (hi - lo).toNat using Nat.strong_induction_on generalizing lo hi with
  | _ n ih =>
    by_cases h : ∃ q, o.Inside lo hi q
    · obtain ⟨q, hq⟩ := h
      obtain ⟨p, hp⟩ := exists_first hq
      obtain ⟨ps, hps⟩ := ih _ (hn ▸ hp.inside.left_lt hwidth) _ _ rfl
      exact ⟨p :: ps, .cons hp hps⟩
    · exact ⟨[], .nil (not_exists.mp h)⟩

/-! ## Place after place -/

/-- The places of a range in the order of the search. -/
def place (o : Occurrences) (lo hi : Int) (i : Nat) : Int := if o.backwards then hi - o.width - i else lo + i

/-- The last place that the search comes to. -/
def lastPlace (o : Occurrences) (lo hi : Int) : Int := if o.anchored then 0 else hi - o.width - lo

/-- The places are where the pattern may be inside the range. -/
theorem inside_iff (hfits : lo + o.width ≤ hi) {q : Int} :
    o.Inside lo hi q ↔ o.occurs q ∧ ∃ i : Nat, (i : Int) ≤ o.lastPlace lo hi ∧ q = o.place lo hi i := by
  unfold lastPlace place
  cases hb : o.backwards <;> cases ha : o.anchored <;> simp only [Bool.false_eq_true, if_false, if_true]
  · refine ⟨fun h => ⟨h.occurs, (q - lo).toNat, ?_, ?_⟩,
      fun ⟨h, i, hi', hq⟩ => ⟨h, by omega, by omega, by rw [ha]; nofun⟩⟩
    · have := h.upper
      omega
    · have := h.lower
      omega
  · refine ⟨fun h => ⟨h.occurs, 0, by omega, ?_⟩, fun ⟨h, i, hi', hq⟩ => ⟨h, by omega, by omega, fun _ => ?_⟩⟩
    · have := h.anchored ha
      rw [hb, if_neg Bool.false_ne_true] at this
      omega
    · rw [hb, if_neg Bool.false_ne_true]
      omega
  · refine ⟨fun h => ⟨h.occurs, (hi - o.width - q).toNat, ?_, ?_⟩,
      fun ⟨h, i, hi', hq⟩ => ⟨h, by omega, by omega, by rw [ha]; nofun⟩⟩
    · have := h.lower
      omega
    · have := h.upper
      omega
  · refine ⟨fun h => ⟨h.occurs, 0, by omega, ?_⟩, fun ⟨h, i, hi', hq⟩ => ⟨h, by omega, by omega, fun _ => ?_⟩⟩
    · have := h.anchored ha
      rw [hb, if_pos rfl] at this
      omega
    · rw [hb, if_pos rfl]
      omega

/-- The place where the pattern occurs, and not at one before it, is the first. -/
theorem first_place (hfits : lo + o.width ≤ hi) {i : Nat} (hi' : (i : Int) ≤ o.lastPlace lo hi)
    (hoccurs : o.occurs (o.place lo hi i)) (hbefore : ∀ j < i, ¬o.occurs (o.place lo hi j)) :
    o.First lo hi (o.place lo hi i) where
  inside := (inside_iff hfits).mpr ⟨hoccurs, i, hi', rfl⟩
  first q hq := by
    obtain ⟨hq, j, -, rfl⟩ := (inside_iff hfits).mp hq
    have hle : i ≤ j := Nat.le_of_not_lt fun hlt => hbefore j hlt hq
    unfold place
    split <;> omega

/-! ## A search that sees less -/

/-- The same search where the pattern occurs at fewer places. -/
def onlyAt (o : Occurrences) (occurs : Int → Prop) : Occurrences := { o with occurs }

/-- What is picked where a search forwards goes on up to another limit after the
first occurrence. -/
def Truncated (o : Occurrences) (lo hi limit : Int) : List Int → Prop
  | [] => ∀ p, ¬o.Inside lo hi p
  | p :: ps => o.First lo hi p ∧ o.Greedy (o.nextLo lo p) (o.nextHi limit p) ps

theorem Truncated.unique {limit : Int} {ps qs : List Int} (hp : o.Truncated lo hi limit ps)
    (hq : o.Truncated lo hi limit qs) : ps = qs := by
  cases ps with
  | nil =>
    cases qs with
    | nil => rfl
    | cons q qs => exact absurd hq.1.inside (hp q)
  | cons p ps =>
    cases qs with
    | nil => exact absurd hp.1.inside (hq p)
    | cons q qs =>
      obtain rfl := hp.1.unique hq.1
      rw [hp.2.unique hq.2]

/-- A search that goes on up to the end it began with picks greedily. -/
theorem Truncated.greedy {limit : Int} {ps : List Int} (h : o.Truncated lo hi limit ps)
    (hlimit : o.backwards = false → limit = hi) : o.Greedy lo hi ps := by
  cases ps with
  | nil => exact .nil h
  | cons p ps =>
    refine .cons h.1 ?_
    cases hb : o.backwards with
    | false => exact hlimit hb ▸ h.2
    | true =>
      have hrest := h.2
      rw [nextHi_backwards hb] at hrest ⊢
      exact hrest

variable {occurs : Int → Prop} (hsub : ∀ p, occurs p → o.occurs p) {limit : Int} (hlimit : limit ≤ hi)

section

include hsub hlimit

/-- What occurs in the smaller range occurs in the larger one. -/
theorem Inside.extend (hback : o.backwards = true → limit = hi) {p : Int} (h : (o.onlyAt occurs).Inside lo limit p) :
    o.Inside lo hi p where
  occurs := hsub p h.occurs
  lower := h.lower
  upper := Int.le_trans h.upper hlimit
  anchored hanchor := by
    have hp := h.anchored hanchor
    cases hb : o.backwards with
    | false =>
      rw [show (o.onlyAt occurs).backwards = false from hb] at hp
      exact hp
    | true =>
      rw [show (o.onlyAt occurs).backwards = true from hb, hback hb] at hp
      exact hp

/-- The first occurrence stays the first where the search still sees it. -/
theorem First.restrict (hback : o.backwards = true → limit = hi) {p : Int} (h : o.First lo hi p) (hoccurs : occurs p)
    (hfits : p + o.width ≤ limit) : (o.onlyAt occurs).First lo limit p where
  inside :=
    { occurs := hoccurs
      lower := h.inside.lower
      upper := hfits
      anchored := fun hanchor => by
        have hp := h.inside.anchored hanchor
        cases hb : o.backwards with
        | false =>
          rw [show (o.onlyAt occurs).backwards = false from hb]
          rw [hb] at hp
          exact hp
        | true =>
          rw [show (o.onlyAt occurs).backwards = true from hb, hback hb]
          rw [hb] at hp
          exact hp }
  first q hq := h.first q (hq.extend hsub hlimit hback)

end

include hsub

theorem Greedy.restrict {ps : List Int} (h : o.Greedy lo hi ps) {limit : Int} (hlimit : limit ≤ hi)
    (hback : o.backwards = true → limit = hi) (hoccurs : ∀ p ∈ ps, occurs p)
    (hfits : o.backwards = false → ∀ p ∈ ps, p + o.width ≤ limit) : (o.onlyAt occurs).Greedy lo limit ps := by
  induction h generalizing limit with
  | nil hnone => exact .nil fun p hp => hnone p (hp.extend hsub hlimit hback)
  | @cons lo hi p ps hfirst _ ih =>
    have hupper := hfirst.inside.upper
    have hends : p + o.width ≤ limit := by
      cases hb : o.backwards with
      | false => exact hfits hb p List.mem_cons_self
      | true => rw [hback hb]; exact hupper
    refine .cons (hfirst.restrict hsub hlimit hback (hoccurs p List.mem_cons_self) hends)
      (ih ?_ ?_ (fun q hq => hoccurs q (List.mem_cons_of_mem _ hq)) fun hb q hq => ?_)
    · exact nextHi_mono hlimit p
    · intro hb
      exact (nextHi_backwards hb limit p).trans (nextHi_backwards hb hi p).symm
    · exact (hfits hb q (List.mem_cons_of_mem _ hq)).trans (nextHi_forwards hb limit p).ge

/-- A search that sees fewer occurrences, and goes on up to another limit, picks
greedily exactly if it sees what is to be picked. -/
theorem Truncated.greedy_iff (hwidth : 0 < o.width) (hlimit : limit ≤ hi) {ps : List Int}
    (h : (o.onlyAt occurs).Truncated lo hi limit ps) :
    o.Greedy lo hi ps ↔ ∀ qs, o.Greedy lo hi qs →
      (∀ p ∈ qs, occurs p) ∧ (o.backwards = false → ∀ p ∈ qs.tail, p + o.width ≤ limit) := by
  constructor
  · intro hgreedy qs hqs
    obtain rfl := hgreedy.unique hqs
    cases ps with
    | nil => exact ⟨nofun, fun _ => nofun⟩
    | cons p ps =>
      have hrest : ∀ {lo hi : Int} {ps : List Int}, (o.onlyAt occurs).Greedy lo hi ps →
          (∀ p ∈ ps, occurs p) ∧ (o.backwards = false → ∀ p ∈ ps, p + o.width ≤ hi) := by
        intro lo hi ps hps
        induction hps with
        | nil => exact ⟨nofun, fun _ => nofun⟩
        | @cons lo hi p ps hfirst _ ih =>
          refine ⟨List.forall_mem_cons.mpr ⟨hfirst.inside.occurs, ih.1⟩, fun hb =>
            List.forall_mem_cons.mpr ⟨hfirst.inside.upper, ?_⟩⟩
          rw [← @nextHi_forwards (o.onlyAt occurs) hb hi p]
          exact ih.2 hb
      obtain ⟨hoccurs, hends⟩ := hrest h.2
      refine ⟨List.forall_mem_cons.mpr ⟨h.1.inside.occurs, hoccurs⟩, fun hb => ?_⟩
      rw [← @nextHi_forwards (o.onlyAt occurs) hb limit p]
      exact hends hb
  · intro hall
    obtain ⟨qs, hqs⟩ := exists_greedy hwidth lo hi
    obtain ⟨hoccurs, hfits⟩ := hall qs hqs
    suffices hseen : (o.onlyAt occurs).Truncated lo hi limit qs by rwa [h.unique hseen]
    cases hqs with
    | nil hnone => exact fun p hp => hnone p (hp.extend hsub (Int.le_refl hi) fun _ => rfl)
    | @cons _ _ q qs hfirst hrest =>
      refine ⟨hfirst.restrict hsub (Int.le_refl hi) (fun _ => rfl) (hoccurs q List.mem_cons_self) hfirst.inside.upper,
        hrest.restrict hsub ?_ ?_ (fun p hp => hoccurs p (List.mem_cons_of_mem _ hp)) fun hb p hp => ?_⟩
      · exact nextHi_mono hlimit q
      · intro hb
        exact (nextHi_backwards hb limit q).trans (nextHi_backwards hb hi q).symm
      · exact (hfits hb p hp).trans (nextHi_forwards hb limit q).ge

end Occurrences

end CFLite.Framework
