import Mathlib.Data.List.Basic
import Mathlib.Data.List.Flatten
import Mathlib.Data.List.Perm.Basic
import Mathlib.Logic.Relation

/-!
# A schedule of requests, with calls that nest

Requests wait in a row. A call takes the whole row and goes through it: it runs
the requests that fit its mode, and keeps the others. Before it comes to its
next request, further requests may be made, other modes may become common, and
other calls may begin and return. A call that returns puts what it kept in front
of what waits by then.

* `Step.sound`: requests are run or pending, each of them once, and the pending
  ones are in the order in which they were made;
* `Call.Did`: what a call has done of the row it took;
* `Step.calls_eq`: a call goes on until it returns.
-/

namespace CFLite.RunLoop.Blocks

open scoped List

variable {E Name : Type}

/-- A call: the row it took, the modes that were common then, and what it did
with the requests up to those that remain. -/
structure Call (E Name : Type) where
  curMode : Name
  taken : List E
  before : List Name
  kept : List E
  ran : List E
  remaining : List E

/-- The calls that have not returned, the innermost one first, those that have,
the requests that wait, and all requests that were ever made. -/
structure Schedule (E Name : Type) where
  calls : List (Call E Name)
  returned : List (Call E Name)
  waiting : List E
  commonModes : List Name
  performed : List E

/-- What was not run of the rows of the calls and of the row that waits, the
outermost call first. -/
def pendingOf : List (Call E Name) → List E → List E
  | [], waiting => waiting
  | c :: calls, waiting => pendingOf calls (c.kept ++ c.remaining ++ waiting)

namespace Schedule

def pending (t : Schedule E Name) : List E := pendingOf t.calls t.waiting

def ran (t : Schedule E Name) : List E := (t.calls ++ t.returned).flatMap Call.ran

/-- The steps of a schedule. -/
inductive Step (fits : List Name → Name → E → Bool) : Schedule E Name → Schedule E Name → Prop
  | perform (t : Schedule E Name) (e : E) :
    Step fits t { t with waiting := t.waiting ++ [e], performed := t.performed ++ [e] }
  | common (t : Schedule E Name) (m : Name) : Step fits t { t with commonModes := m :: t.commonModes }
  | start (t : Schedule E Name) (m : Name) :
    Step fits t { t with calls := ⟨m, t.waiting, t.commonModes, [], [], t.waiting⟩ :: t.calls, waiting := [] }
  | keep {t : Schedule E Name} {c : Call E Name} {calls : List (Call E Name)} {e : E} {rest : List E}
    (hcalls : t.calls = c :: calls) (hrest : c.remaining = e :: rest)
    (hfits : fits t.commonModes c.curMode e = false) :
    Step fits t { t with calls := { c with kept := c.kept ++ [e], remaining := rest } :: calls }
  | run {t : Schedule E Name} {c : Call E Name} {calls : List (Call E Name)} {e : E} {rest : List E}
    (hcalls : t.calls = c :: calls) (hrest : c.remaining = e :: rest)
    (hfits : fits t.commonModes c.curMode e = true) :
    Step fits t { t with calls := { c with ran := c.ran ++ [e], remaining := rest } :: calls }
  | finish {t : Schedule E Name} {c : Call E Name} {calls : List (Call E Name)}
    (hcalls : t.calls = c :: calls) (hrest : c.remaining = []) :
    Step fits t { t with calls := calls, returned := c :: t.returned, waiting := c.kept ++ t.waiting }

end Schedule

variable {fits : List Name → Name → E → Bool} {t t' : Schedule E Name} {c : Call E Name}
  {calls : List (Call E Name)} {waiting seen : List E} {now now' : List Name} {e : E}

/-! ## What is pending -/

theorem pendingOf_eq (calls : List (Call E Name)) (waiting : List E) :
    pendingOf calls waiting = pendingOf calls [] ++ waiting := by
  induction calls generalizing waiting with
  | nil => rfl
  | cons c calls ih =>
    show pendingOf calls _ = pendingOf calls _ ++ waiting
    rw [ih (c.kept ++ c.remaining ++ waiting), ih (c.kept ++ c.remaining ++ [])]
    simp

theorem Schedule.pending_cons (hcalls : t.calls = c :: calls) :
    t.pending = pendingOf calls [] ++ (c.kept ++ (c.remaining ++ t.waiting)) := by
  rw [Schedule.pending, hcalls, pendingOf, pendingOf_eq, List.append_assoc]

/-! ## What a call does -/

/-- What the call has done of the row it took, when `now` are the common modes.
More modes may have become common since it began. -/
structure Call.Did (fits : List Name → Name → E → Bool) (now : List Name) (c : Call E Name) (seen : List E) :
    Prop where
  taken_eq : c.taken = seen ++ c.remaining
  perm : (c.ran ++ c.kept).Perm seen
  ran_sublist : c.ran.Sublist (seen.filter (fits now c.curMode))
  sublist_ran : (seen.filter (fits c.before c.curMode)).Sublist c.ran
  kept_sublist : c.kept.Sublist (seen.filter fun e => !fits c.before c.curMode e)
  sublist_kept : (seen.filter fun e => !fits now c.curMode e).Sublist c.kept
  before_subset : c.before ⊆ now

def Call.Sound (fits : List Name → Name → E → Bool) (now : List Name) (c : Call E Name) : Prop :=
  ∃ seen, c.Did fits now seen

/-- What fits goes on to fit when more modes become common. -/
def Monotone (fits : List Name → Name → E → Bool) : Prop :=
  ∀ ⦃now now' : List Name⦄, now ⊆ now' → ∀ m e, fits now m e = true → fits now' m e = true

theorem Call.Did.mono (hfits : Monotone fits) (h : c.Did fits now seen) (hnow : now ⊆ now') :
    c.Did fits now' seen where
  taken_eq := h.taken_eq
  perm := h.perm
  ran_sublist := h.ran_sublist.trans (List.monotone_filter_right _ fun e => hfits hnow _ e)
  sublist_ran := h.sublist_ran
  kept_sublist := h.kept_sublist
  sublist_kept := by
    apply (List.monotone_filter_right _ fun e he => ?_).trans h.sublist_kept
    cases hfit : fits now c.curMode e with
    | true => simp [hfits hnow _ _ hfit] at he
    | false => rfl
  before_subset := List.Subset.trans h.before_subset hnow

/-- When no mode became common, a call runs what fits, and keeps the rest. -/
theorem Call.Did.eq_filter (h : c.Did fits c.before c.taken) :
    c.ran = c.taken.filter (fits c.before c.curMode) ∧
      c.kept = c.taken.filter fun e => !fits c.before c.curMode e :=
  ⟨h.ran_sublist.antisymm h.sublist_ran, h.kept_sublist.antisymm h.sublist_kept⟩

theorem Call.Did.start (m : Name) (waiting : List E) : Call.Did fits now ⟨m, waiting, now, [], [], waiting⟩ [] :=
  ⟨rfl, .nil, .slnil, .slnil, .slnil, .slnil, List.Subset.refl _⟩

/-- A request that does not fit now did not fit when the call began. -/
theorem Call.Did.not_before (hmono : Monotone fits) (h : c.Did fits now seen)
    (hfits : fits now c.curMode e = false) : fits c.before c.curMode e = false := by
  cases hbefore : fits c.before c.curMode e with
  | false => rfl
  | true => exact absurd (hmono h.before_subset _ _ hbefore) (by simp [hfits])

theorem Call.Did.keep (hmono : Monotone fits) {rest : List E} (h : c.Did fits now seen)
    (hrest : c.remaining = e :: rest) (hfits : fits now c.curMode e = false) :
    Call.Did fits now { c with kept := c.kept ++ [e], remaining := rest } (seen ++ [e]) where
  taken_eq := by simp [h.taken_eq, hrest]
  perm := by
    rw [← List.append_assoc]
    exact h.perm.append_right [e]
  ran_sublist := by simpa [List.filter_append, hfits] using h.ran_sublist
  sublist_ran := by simpa [List.filter_append, h.not_before hmono hfits] using h.sublist_ran
  kept_sublist := by simpa [List.filter_append, h.not_before hmono hfits] using h.kept_sublist.append_right [e]
  sublist_kept := by simpa [List.filter_append, hfits] using h.sublist_kept.append_right [e]
  before_subset := h.before_subset

theorem Call.Did.run {rest : List E} (h : c.Did fits now seen)
    (hrest : c.remaining = e :: rest) (hfits : fits now c.curMode e = true) :
    Call.Did fits now { c with ran := c.ran ++ [e], remaining := rest } (seen ++ [e]) where
  taken_eq := by simp [h.taken_eq, hrest]
  perm := by
    rw [List.append_assoc]
    exact (List.perm_middle.trans (h.perm.cons e)).trans (List.perm_append_singleton e seen).symm
  ran_sublist := by simpa [List.filter_append, hfits] using h.ran_sublist.append_right [e]
  sublist_ran := by
    rw [List.filter_append]
    exact h.sublist_ran.append List.filter_sublist
  kept_sublist := by
    rw [List.filter_append]
    exact h.kept_sublist.trans (List.sublist_append_left _ _)
  sublist_kept := by simpa [List.filter_append, hfits] using h.sublist_kept
  before_subset := h.before_subset

/-! ## Runs -/

/-- Each request is run or pending, and no one overtakes another while both are
pending. -/
structure Schedule.Sound (fits : List Name → Name → E → Bool) (t : Schedule E Name) : Prop where
  accounted : (t.ran ++ t.pending).Perm t.performed
  ordered : t.pending.Sublist t.performed
  calls : ∀ c ∈ t.calls ++ t.returned, c.Sound fits t.commonModes

/-- `e` is moved from the second list to the first one. -/
theorem perm_move (l₁ l₂ l₃ l₄ : List E) (e : E) :
    (l₁ ++ [e] ++ l₂ ++ (l₃ ++ l₄)).Perm (l₁ ++ l₂ ++ (l₃ ++ e :: l₄)) := by
  calc l₁ ++ [e] ++ l₂ ++ (l₃ ++ l₄) = l₁ ++ e :: (l₂ ++ (l₃ ++ l₄)) := by simp
    _ ~ e :: (l₁ ++ (l₂ ++ (l₃ ++ l₄))) := List.perm_middle
    _ = e :: ((l₁ ++ l₂ ++ l₃) ++ l₄) := by simp
    _ ~ (l₁ ++ l₂ ++ l₃) ++ e :: l₄ := List.perm_middle.symm
    _ = l₁ ++ l₂ ++ (l₃ ++ e :: l₄) := by simp

namespace Schedule

theorem ran_cons (hcalls : t.calls = c :: calls) : t.ran = c.ran ++ (calls ++ t.returned).flatMap Call.ran := by
  rw [ran, hcalls, List.cons_append, List.flatMap_cons]

theorem Step.accounted (h : Step fits t t') (ht : (t.ran ++ t.pending).Perm t.performed) :
    (t'.ran ++ t'.pending).Perm t'.performed := by
  cases h with
  | perform e =>
    show (t.ran ++ pendingOf t.calls (t.waiting ++ [e])).Perm (t.performed ++ [e])
    rw [pendingOf_eq, ← List.append_assoc (pendingOf _ _), ← pendingOf_eq, ← List.append_assoc]
    exact ht.append_right [e]
  | common m => exact ht
  | start m =>
    show (t.ran ++ pendingOf t.calls ([] ++ t.waiting ++ [])).Perm t.performed
    rw [List.nil_append, List.append_nil]
    exact ht
  | keep hcalls hrest hfits =>
    rw [ran_cons rfl, pending_cons rfl]
    rw [ran_cons hcalls, pending_cons hcalls, hrest] at ht
    simpa using ht
  | @run c calls e rest hcalls hrest hfits =>
    rw [ran_cons rfl, pending_cons rfl]
    rw [ran_cons hcalls, pending_cons hcalls, hrest] at ht
    have hmove := perm_move c.ran ((calls ++ t.returned).flatMap Call.ran) (pendingOf calls [] ++ c.kept)
      (rest ++ t.waiting) e
    simp only [List.append_assoc, List.cons_append] at hmove ht ⊢
    exact hmove.trans ht
  | @finish c calls hcalls hrest =>
    rw [ran_cons hcalls, pending_cons hcalls, hrest] at ht
    show ((calls ++ c :: t.returned).flatMap Call.ran ++ pendingOf calls (c.kept ++ t.waiting)).Perm t.performed
    rw [pendingOf_eq]
    refine List.Perm.trans (List.Perm.append_right _ ?_) ht
    exact List.Perm.flatMap_right _ List.perm_middle

theorem Step.ordered (h : Step fits t t') (ht : t.pending.Sublist t.performed) :
    t'.pending.Sublist t'.performed := by
  cases h with
  | perform e =>
    show (pendingOf t.calls (t.waiting ++ [e])).Sublist (t.performed ++ [e])
    rw [pendingOf_eq, ← List.append_assoc, ← pendingOf_eq]
    exact ht.append_right [e]
  | common m => exact ht
  | start m =>
    show (pendingOf t.calls ([] ++ t.waiting ++ [])).Sublist t.performed
    rw [List.nil_append, List.append_nil]
    exact ht
  | keep hcalls hrest hfits =>
    rw [pending_cons rfl]
    rw [pending_cons hcalls, hrest] at ht
    simpa using ht
  | run hcalls hrest hfits =>
    rw [pending_cons rfl]
    rw [pending_cons hcalls, hrest] at ht
    refine List.Sublist.trans ?_ ht
    exact (((List.sublist_cons_self _ _).append_right _).append_left _).append_left _
  | finish hcalls hrest =>
    rw [pending_cons hcalls, hrest, ← pendingOf_eq] at ht
    exact ht

theorem Step.calls_sound (hmono : Monotone fits) (h : Step fits t t')
    (ht : ∀ c ∈ t.calls ++ t.returned, c.Sound fits t.commonModes) :
    ∀ c ∈ t'.calls ++ t'.returned, c.Sound fits t'.commonModes := by
  cases h with
  | perform e => exact ht
  | common m =>
    intro c hc
    obtain ⟨seen, hseen⟩ := ht c hc
    exact ⟨seen, hseen.mono hmono (List.subset_cons_self m _)⟩
  | start m =>
    intro c hc
    rcases List.mem_cons.mp hc with rfl | hc
    · exact ⟨[], Call.Did.start m _⟩
    · exact ht c hc
  | keep hcalls hrest hfits =>
    rw [hcalls] at ht
    obtain ⟨seen, hseen⟩ := ht _ List.mem_cons_self
    exact List.forall_mem_cons.mpr ⟨⟨_, hseen.keep hmono hrest hfits⟩, (List.forall_mem_cons.mp ht).2⟩
  | run hcalls hrest hfits =>
    rw [hcalls] at ht
    obtain ⟨seen, hseen⟩ := ht _ List.mem_cons_self
    exact List.forall_mem_cons.mpr ⟨⟨_, hseen.run hrest hfits⟩, (List.forall_mem_cons.mp ht).2⟩
  | finish hcalls hrest =>
    rw [hcalls] at ht
    intro c hc
    exact ht c (List.perm_middle.mem_iff.mp hc)

/-- What a step keeps. -/
theorem Step.sound (hmono : Monotone fits) (h : Step fits t t') (ht : t.Sound fits) : t'.Sound fits :=
  ⟨h.accounted ht.accounted, h.ordered ht.ordered, h.calls_sound hmono ht.calls⟩

/-- A call goes on, with the calls below it as they were, until it returns. -/
theorem Step.calls_eq {newer older : List (Call E Name)} (h : Step fits t t') (ht : t.calls = newer ++ c :: older)
    (hlength : older.length < t'.calls.length) :
    ∃ newer' c', t'.calls = newer' ++ c' :: older ∧
      c'.curMode = c.curMode ∧ c'.taken = c.taken ∧ c'.before = c.before := by
  cases h with
  | perform e => exact ⟨newer, c, ht, rfl, rfl, rfl⟩
  | common m => exact ⟨newer, c, ht, rfl, rfl, rfl⟩
  | start m => exact ⟨_ :: newer, c, congrArg _ ht, rfl, rfl, rfl⟩
  | keep hcalls hrest hfits =>
    rw [ht] at hcalls
    cases newer with
    | nil =>
      obtain ⟨rfl, rfl⟩ := List.cons.inj hcalls
      exact ⟨[], _, rfl, rfl, rfl, rfl⟩
    | cons n newer =>
      obtain ⟨rfl, rfl⟩ := List.cons.inj hcalls
      exact ⟨_ :: newer, c, rfl, rfl, rfl, rfl⟩
  | run hcalls hrest hfits =>
    rw [ht] at hcalls
    cases newer with
    | nil =>
      obtain ⟨rfl, rfl⟩ := List.cons.inj hcalls
      exact ⟨[], _, rfl, rfl, rfl, rfl⟩
    | cons n newer =>
      obtain ⟨rfl, rfl⟩ := List.cons.inj hcalls
      exact ⟨_ :: newer, c, rfl, rfl, rfl, rfl⟩
  | finish hcalls hrest =>
    rw [ht] at hcalls
    cases newer with
    | nil =>
      obtain ⟨rfl, rfl⟩ := List.cons.inj hcalls
      exact absurd hlength (Nat.lt_irrefl _)
    | cons n newer =>
      obtain ⟨rfl, rfl⟩ := List.cons.inj hcalls
      exact ⟨newer, c, rfl, rfl, rfl, rfl⟩

end Schedule

end CFLite.RunLoop.Blocks
