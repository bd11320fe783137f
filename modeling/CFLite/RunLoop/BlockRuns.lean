import CFLite.RunLoop.Blocks
import CFLite.RunLoop.BlockSchedule

/-!
# Runs of the blocks of a run loop

Blocks are performed, modes become common, and `__CFRunLoopDoBlocks` is called, also
by a block that it runs, in any order. In every state the items in memory are those of
a schedule (`Represents`), and every step of the code is a step of the schedule.

* `Represents.step`: the simulation;
* `reachable_pending`: no block is lost, run twice or run in the wrong mode, and those
  that are not run yet keep their order;
* `reachable_steps`: the code never reads or writes an item that was freed;
* `doBlocks_result`: what a call of `__CFRunLoopDoBlocks` has run when it returns;
* `modeIsEmpty_result`: `__CFRunLoopModeIsEmpty` says what such a call will return.
-/

namespace CFLite.RunLoop.Blocks

open Framework Relation

variable {Address Name Block : Type}

/-- The blocks of the run loop, the calls of `__CFRunLoopDoBlocks` that have not
returned, the innermost one first, the variables of those that have, and all that was
ever performed. -/
structure Machine (Address Name Block : Type) where
  loop : Loop Address Name Block
  calls : List (DoBlocks Address Name Block)
  returned : List (DoBlocks Address Name Block)
  performed : Row Address Name Block

namespace Machine

/-- The blocks that were run. -/
def ran (s : Machine Address Name Block) : Row Address Name Block := (s.calls ++ s.returned).flatMap DoBlocks.ran

/-- A run loop that was just created. -/
def created (kCFRunLoopDefaultMode : Name) : Machine Address Name Block :=
  ⟨⟨fun _ => none, none, none, [kCFRunLoopDefaultMode]⟩, [], [], []⟩

variable [DecidableEq Address] [DecidableEq Name]

/-- What happens between two rounds of the innermost call may come from the block that it
runs, or from another thread. -/
inductive Step (common : Name) : Machine Address Name Block → Machine Address Name Block → Prop
  | performBlock {s : Machine Address Name Block} (newItem : Address) (mode : ModeArgument Name)
    (block : Option Block) {rl : Loop Address Name Block} (hnew : s.loop.items newItem = none)
    (hperform : performBlock s.loop newItem mode block = some rl) :
    Step common s
      { s with loop := rl, performed := s.performed ++ ((request mode block).map (Prod.mk newItem)).toList }
  | addCommonMode (s : Machine Address Name Block) (modeName : Name) :
    Step common s { s with loop := addCommonMode s.loop modeName }
  | doBlocks {s : Machine Address Name Block} (rlm : Option Name) {rl : Loop Address Name Block}
    {call : DoBlocks Address Name Block} (hbegin : doBlocksBegin s.loop rlm = some (rl, call)) :
    Step common s { s with loop := rl, calls := call :: s.calls }
  | item {s : Machine Address Name Block} {call call' : DoBlocks Address Name Block}
    {calls : List (DoBlocks Address Name Block)} {rl : Loop Address Name Block} (hcalls : s.calls = call :: calls)
    (hitem : call.item ≠ none) (hround : doBlocksItem common s.loop call = some (rl, call')) :
    Step common s { s with loop := rl, calls := call' :: calls }
  | finish {s : Machine Address Name Block} {call : DoBlocks Address Name Block}
    {calls : List (DoBlocks Address Name Block)} {rl : Loop Address Name Block} (hcalls : s.calls = call :: calls)
    (hitem : call.item = none) (hend : doBlocksEnd s.loop call = some rl) :
    Step common s { s with loop := rl, calls := calls, returned := call :: s.returned }

def Reachable (common default : Name) (s : Machine Address Name Block) : Prop :=
  ReflTransGen (Step common) (created default) s

/-- A run loop in which one block was performed, for the mode `0`. -/
def oneBlock : Machine Nat Nat Nat :=
  ⟨⟨Function.update (fun _ => none) 7 (some ⟨⟨.string 0, 5⟩, none⟩), some 7, some 7, [0]⟩, [], [],
    [(7, ⟨.string 0, 5⟩)]⟩

theorem oneBlock_reachable : oneBlock.Reachable 1 0 :=
  .single (.performBlock 7 (.string 0) (some 5) rfl rfl)

/-- The variables of a call that has run that block. -/
def walked : DoBlocks Nat Nat Nat := ⟨0, none, none, none, none, true, [(7, ⟨.string 0, 5⟩)]⟩

/-- A step after which more than `depth` calls have not returned. -/
def StepAbove (common : Name) (depth : Nat) (s s' : Machine Address Name Block) : Prop :=
  Step common s s' ∧ depth < s'.calls.length

end Machine

/-- The items say what is in a list. -/
theorem Listed.unique {items : Items Address Name Block} {head tail tail' : Option Address}
    {row row' : Row Address Name Block} (h : Listed items head tail row) (h' : Listed items head tail' row') :
    row = row' := by
  have hrequests : ∀ {row : Row Address Name Block}, Stored items row →
      row.map (fun p => (p.1, some p.2)) = row.addresses.map fun a => (a, requestOf items a) := by
    intro row hstored
    rw [Row.addresses, List.map_map]
    exact List.map_congr_left fun p hp => congrArg (Prod.mk p.1) (hstored p hp).symm
  have hinjective : Function.Injective fun p : Address × Request Name Block => (p.1, some p.2) := by
    rintro ⟨a, r⟩ ⟨b, r'⟩ he
    simpa using he
  apply List.map_injective_iff.mpr hinjective
  rw [hrequests h.stored, hrequests h'.stored, h.chain.unique h'.chain]

/-! ## The schedule of a run loop -/

/-- The variables of a call of `__CFRunLoopDoBlocks` that say what it has done. -/
structure SameCall (call : DoBlocks Address Name Block) (c : Call (Address × Request Name Block) Name) : Prop where
  curMode_eq : call.curMode = c.curMode
  ran_eq : call.ran = c.ran
  did_eq : call.did = !c.ran.isEmpty

/-- A call that has not returned. -/
structure FrameOf (items : Items Address Name Block) (call : DoBlocks Address Name Block)
    (c : Call (Address × Request Name Block) Name) : Prop extends SameCall call c where
  list : CallList items call c.kept c.remaining

theorem FrameOf.remaining_nil {items : Items Address Name Block} {call : DoBlocks Address Name Block}
    {c : Call (Address × Request Name Block) Name} (h : FrameOf items call c) (hitem : call.item = none) :
    c.remaining = [] := by
  have hnext := h.list.item_eq
  rw [hitem] at hnext
  simpa using hnext.symm

/-- The items in memory are those that are pending in the schedule, each one in the list
of the call that took it, or in that of the run loop. -/
structure Represents (s : Machine Address Name Block) (t : Schedule (Address × Request Name Block) Name) : Prop where
  waiting : s.loop.Waiting t.waiting
  calls : List.Forall₂ (FrameOf s.loop.items) s.calls t.calls
  returned : List.Forall₂ SameCall s.returned t.returned
  common : s.loop.commonModes = t.commonModes
  performed : s.performed = t.performed
  nodup : (Row.addresses t.pending).Nodup
  live : ∀ a, a ∉ Row.addresses t.pending → s.loop.items a = none

variable {items items' : Items Address Name Block} {s s' : Machine Address Name Block}
  {t t' : Schedule (Address × Request Name Block) Name} {frames : List (DoBlocks Address Name Block)}
  {cs : List (Call (Address × Request Name Block) Name)} {c : Call (Address × Request Name Block) Name}
  {call : DoBlocks Address Name Block} {a : Address}

/-- The frames depend on the items of their own lists. -/
theorem frames_congr (h : List.Forall₂ (FrameOf items) frames cs)
    (hitems : ∀ a ∈ Row.addresses (pendingOf cs []), items' a = items a) :
    List.Forall₂ (FrameOf items') frames cs := by
  induction h with
  | nil => exact .nil
  | @cons call c frames cs hhead hrest ih =>
    rw [pendingOf, pendingOf_eq, List.append_nil, Row.addresses, List.map_append] at hitems
    refine .cons { hhead with list := hhead.list.congr fun a ha => hitems a ?_ } (ih fun a ha => hitems a ?_)
    · exact List.mem_append_right _ ha
    · exact List.mem_append_left _ ha

theorem frames_stored (h : List.Forall₂ (FrameOf items) frames cs) : Stored items (pendingOf cs []) := by
  induction h with
  | nil => exact fun p hp => absurd hp List.not_mem_nil
  | cons hhead hrest ih =>
    rw [pendingOf, pendingOf_eq, List.append_nil]
    exact Stored.append_iff.mpr ⟨ih, hhead.list.listed.stored⟩

theorem exists_of_forall₂ {α β : Type} {R : α → β → Prop} {l : List α} {l' : List β} (h : List.Forall₂ R l l') {x : α}
    (hx : x ∈ l) : ∃ y ∈ l', R x y := by
  induction h with
  | nil => exact absurd hx List.not_mem_nil
  | cons hhead hrest ih =>
    rcases List.mem_cons.mp hx with rfl | hx
    · exact ⟨_, List.mem_cons_self, hhead⟩
    · obtain ⟨y, hy, hR⟩ := ih hx
      exact ⟨y, List.mem_cons_of_mem _ hy, hR⟩

namespace Represents

theorem stored (h : Represents s t) : Stored s.loop.items t.pending := by
  rw [Schedule.pending, pendingOf_eq]
  exact Stored.append_iff.mpr ⟨frames_stored h.calls, h.waiting.stored⟩

theorem live_iff (h : Represents s t) (a : Address) :
    (s.loop.items a).isSome ↔ a ∈ Row.addresses t.pending := by
  constructor
  · intro ha
    by_contra hmem
    simp [h.live a hmem] at ha
  · intro ha
    obtain ⟨⟨b, r⟩, hp, rfl⟩ := List.mem_map.mp ha
    obtain ⟨next, hitem⟩ := h.stored.item hp
    simp [hitem]

/-- What the calls took is not what waits. -/
theorem notMem_waiting (h : Represents s t) (ha : a ∈ Row.addresses (pendingOf t.calls [])) :
    a ∉ Row.addresses t.waiting := by
  have hnodup := h.nodup
  rw [Schedule.pending, pendingOf_eq, Row.addresses, List.map_append] at hnodup
  exact List.disjoint_of_nodup_append hnodup ha

/-- The lists of the outer calls, of the innermost one and of the run loop are apart. -/
theorem nodup_cons (h : Represents s t) (hcalls : t.calls = c :: cs) :
    (Row.addresses (pendingOf cs []) ++ (Row.addresses (c.kept ++ c.remaining) ++ Row.addresses t.waiting)).Nodup := by
  have hnodup := h.nodup
  rw [Schedule.pending_cons hcalls] at hnodup
  simpa [Row.addresses] using hnodup

/-- The innermost call. -/
theorem cons (h : Represents s t) (hcalls : s.calls = call :: frames) :
    ∃ c cs, t.calls = c :: cs ∧ FrameOf s.loop.items call c := by
  have hframes := h.calls
  rw [hcalls] at hframes
  obtain ⟨c, cs, hframe, -, htcalls⟩ := List.forall₂_cons_left_iff.mp hframes
  exact ⟨c, cs, htcalls, hframe⟩

theorem innermost (h : Represents s t) (hcalls : s.calls = call :: frames) (htcalls : t.calls = c :: cs) :
    FrameOf s.loop.items call c ∧ List.Forall₂ (FrameOf s.loop.items) frames cs := by
  have hframes := h.calls
  rw [hcalls, htcalls] at hframes
  exact List.forall₂_cons.mp hframes

theorem exists_call (h : Represents s t) (hcall : call ∈ s.calls ++ s.returned) :
    ∃ c ∈ t.calls ++ t.returned, SameCall call c := by
  rcases List.mem_append.mp hcall with hcall | hcall
  · obtain ⟨c, hc, hframe⟩ := exists_of_forall₂ h.calls hcall
    exact ⟨c, List.mem_append_left _ hc, hframe.toSameCall⟩
  · obtain ⟨c, hc, hsame⟩ := exists_of_forall₂ h.returned hcall
    exact ⟨c, List.mem_append_right _ hc, hsame⟩

theorem ran_eq (h : Represents s t) : s.ran = t.ran := by
  have hcalls : List.Forall₂ SameCall (s.calls ++ s.returned) (t.calls ++ t.returned) :=
    List.rel_append (h.calls.imp fun _ _ hframe => hframe.toSameCall) h.returned
  rw [Machine.ran, Schedule.ran]
  generalize s.calls ++ s.returned = frames at hcalls
  generalize t.calls ++ t.returned = cs at hcalls
  induction hcalls with
  | nil => rfl
  | cons hhead _ ih => rw [List.flatMap_cons, List.flatMap_cons, hhead.ran_eq, ih]

/-- A call begins. -/
theorem start (h : Represents s t) (hwaiting : t.waiting ≠ []) (curMode : Name) :
    ∃ call, doBlocksBegin s.loop (some curMode) =
        some ({ s.loop with blocksHead := none, blocksTail := none }, call) ∧
      Represents
        { s with loop := { s.loop with blocksHead := none, blocksTail := none }, calls := call :: s.calls }
        { t with calls := ⟨curMode, t.waiting, t.commonModes, [], [], t.waiting⟩ :: t.calls, waiting := [] } := by
  obtain ⟨call, hbegin, hlist, hmode, hdid, hran⟩ := doBlocksBegin_spec h.waiting hwaiting curMode
  have hpending : pendingOf (⟨curMode, t.waiting, t.commonModes, [], [], t.waiting⟩ :: t.calls) [] = t.pending := by
    rw [pendingOf, List.nil_append, List.append_nil, Schedule.pending]
  refine ⟨call, hbegin, ?_⟩
  exact
    { waiting := Listed.nil
      calls := .cons ⟨⟨hmode, hran, hdid⟩, hlist⟩ h.calls
      returned := h.returned
      common := h.common
      performed := h.performed
      nodup := by
        show (Row.addresses (pendingOf _ [])).Nodup
        rw [hpending]
        exact h.nodup
      live := by
        intro b hb
        change b ∉ Row.addresses (pendingOf _ []) at hb
        rw [hpending] at hb
        exact h.live b hb }

theorem created (default : Name) :
    Represents (Machine.created default : Machine Address Name Block) ⟨[], [], [], [default], []⟩ :=
  ⟨Listed.nil, .nil, .nil, rfl, rfl, List.nodup_nil, fun _ _ => rfl⟩

end Represents

section Links

variable [DecidableEq Address]

namespace Represents

/-- A block is performed. -/
theorem perform (h : Represents s t) {newItem : Address} {mode : ModeArgument Name} {block : Option Block}
    {r : Request Name Block} (hnew : s.loop.items newItem = none) (hr : request mode block = some r) :
    ∃ rl, performBlock s.loop newItem mode block = some rl ∧
      Represents { s with loop := rl, performed := s.performed ++ [(newItem, r)] }
        { t with waiting := t.waiting ++ [(newItem, r)], performed := t.performed ++ [(newItem, r)] } := by
  obtain ⟨rl, hperform, hwaiting, hcommon, hframe⟩ := performBlock_spec h.waiting hnew hr
  have hnot := h.stored.notMem hnew
  have hpending : Row.addresses (pendingOf t.calls (t.waiting ++ [(newItem, r)])) =
      Row.addresses t.pending ++ [newItem] := by
    rw [Schedule.pending, pendingOf_eq, pendingOf_eq t.calls t.waiting]
    simp [Row.addresses]
  have holder : ∀ a ∈ Row.addresses (pendingOf t.calls []), a ∈ Row.addresses t.pending := by
    intro a ha
    rw [Schedule.pending, pendingOf_eq, Row.addresses, List.map_append]
    exact List.mem_append_left _ ha
  refine ⟨rl, hperform, ?_⟩
  exact
    { waiting := hwaiting
      calls := frames_congr h.calls fun a ha =>
        hframe a (h.notMem_waiting ha) (ne_of_mem_of_not_mem (holder a ha) hnot)
      returned := h.returned
      common := hcommon.trans h.common
      performed := congrArg (· ++ [(newItem, r)]) h.performed
      nodup := by
        show (Row.addresses (pendingOf t.calls (t.waiting ++ [(newItem, r)]))).Nodup
        rw [hpending]
        exact List.nodup_append.mpr ⟨h.nodup, List.nodup_singleton _, by
          rintro a ha b hb rfl
          exact hnot (List.mem_singleton.mp hb ▸ ha)⟩
      live := by
        intro b hb
        change b ∉ Row.addresses (pendingOf t.calls (t.waiting ++ [(newItem, r)])) at hb
        rw [hpending, List.mem_append, not_or, List.mem_singleton] at hb
        rw [hframe b (fun hmem => hb.1 ?_) hb.2]
        · exact h.live b hb.1
        · rw [Schedule.pending, pendingOf_eq, Row.addresses, List.map_append]
          exact List.mem_append_right _ hmem }

/-- A call returns. -/
theorem finish (h : Represents s t) (hcalls : s.calls = call :: frames) (htcalls : t.calls = c :: cs)
    (hrest : c.remaining = []) :
    ∃ rl, doBlocksEnd s.loop call = some rl ∧
      Represents { s with loop := rl, calls := frames, returned := call :: s.returned }
        { t with calls := cs, returned := c :: t.returned, waiting := c.kept ++ t.waiting } := by
  obtain ⟨hframe, hothers⟩ := h.innermost hcalls htcalls
  have hlist := hframe.list
  rw [hrest] at hlist
  have hnodup := h.nodup_cons htcalls
  rw [hrest, List.append_nil] at hnodup
  have hpending : pendingOf cs (c.kept ++ t.waiting) = t.pending := by
    rw [Schedule.pending, htcalls, pendingOf, hrest, List.append_nil]
  obtain ⟨rl, hend, hwaiting, hcommon, hframe'⟩ := doBlocksEnd_spec hlist h.waiting
    (List.disjoint_of_nodup_append hnodup.of_append_right)
  refine ⟨rl, hend, ?_⟩
  exact
    { waiting := hwaiting
      calls := frames_congr hothers fun b hb => hframe' b fun hmem =>
        List.disjoint_of_nodup_append hnodup hb (List.mem_append_left _ hmem)
      returned := .cons hframe.toSameCall h.returned
      common := hcommon.trans h.common
      performed := h.performed
      nodup := by
        show (Row.addresses (pendingOf cs _)).Nodup
        rw [hpending]
        exact h.nodup
      live := by
        intro b hb
        change b ∉ Row.addresses (pendingOf cs _) at hb
        rw [hpending] at hb
        rw [hframe' b fun hmem => hb ?_]
        · exact h.live b hb
        · rw [Schedule.pending_cons htcalls, Row.addresses, List.map_append, List.map_append]
          exact List.mem_append_right _ (List.mem_append_left _ hmem) }

end Represents

end Links

/-- A block fits. -/
def itemFits [DecidableEq Name] (common : Name) (now : List Name) (curMode : Name) (p : Address × Request Name Block) :
    Bool :=
  p.2.mode.fits common now curMode

section Simulation

variable [DecidableEq Name] {common default : Name}

theorem itemFits_monotone : Monotone (@itemFits Address Name Block _ common) := by
  intro now now' hnow m p hfits
  have hsubset : now.contains m = true → now'.contains m = true := by
    simpa using fun h => hnow h
  cases hmode : p.2.mode with
  | string mode =>
    simp only [itemFits, hmode, ItemMode.fits, Bool.or_eq_true, Bool.and_eq_true] at hfits ⊢
    exact hfits.imp id (And.imp id hsubset)
  | set modes =>
    simp only [itemFits, hmode, ItemMode.fits, Bool.or_eq_true, Bool.and_eq_true] at hfits ⊢
    exact hfits.imp id (And.imp id hsubset)

variable [DecidableEq Address]

namespace Represents

/-- A call keeps its next request. -/
theorem keep (h : Represents s t) {r : Request Name Block} {rest : Row Address Name Block}
    (hcalls : s.calls = call :: frames) (htcalls : t.calls = c :: cs) (hrest : c.remaining = (a, r) :: rest)
    (hfits : itemFits common t.commonModes c.curMode (a, r) = false) :
    ∃ call', doBlocksItem common s.loop call = some (s.loop, call') ∧
      Represents { s with calls := call' :: frames }
        { t with calls := { c with kept := c.kept ++ [(a, r)], remaining := rest } :: cs } := by
  obtain ⟨hframe, hothers⟩ := h.innermost hcalls htcalls
  have hlist := hframe.list
  rw [hrest] at hlist
  have hfits' : r.mode.fits common s.loop.commonModes call.curMode = false := by
    rw [h.common, hframe.curMode_eq]
    exact hfits
  obtain ⟨call', hround, hlist', hmode, hdid, hran⟩ := doBlocksItem_keep hlist hfits'
  have hpending : pendingOf ({ c with kept := c.kept ++ [(a, r)], remaining := rest } :: cs) t.waiting = t.pending := by
    rw [Schedule.pending, htcalls, pendingOf, pendingOf, hrest]
    simp
  refine ⟨call', hround, ?_⟩
  exact
    { waiting := h.waiting
      calls := .cons ⟨⟨hmode.trans hframe.curMode_eq, hran.trans hframe.ran_eq, hdid.trans hframe.did_eq⟩, hlist'⟩
        hothers
      returned := h.returned
      common := h.common
      performed := h.performed
      nodup := by
        show (Row.addresses (pendingOf _ t.waiting)).Nodup
        rw [hpending]
        exact h.nodup
      live := by
        intro b hb
        change b ∉ Row.addresses (pendingOf _ t.waiting) at hb
        rw [hpending] at hb
        exact h.live b hb }

/-- A call frees the item of its next request and runs the block. -/
theorem run (h : Represents s t) {r : Request Name Block} {rest : Row Address Name Block}
    (hcalls : s.calls = call :: frames) (htcalls : t.calls = c :: cs) (hrest : c.remaining = (a, r) :: rest)
    (hfits : itemFits common t.commonModes c.curMode (a, r) = true) :
    ∃ items' call', doBlocksItem common s.loop call = some ({ s.loop with items := items' }, call') ∧
      Represents { s with loop := { s.loop with items := items' }, calls := call' :: frames }
        { t with calls := { c with ran := c.ran ++ [(a, r)], remaining := rest } :: cs } := by
  obtain ⟨hframe, hothers⟩ := h.innermost hcalls htcalls
  have hlist := hframe.list
  rw [hrest] at hlist
  have hfits' : r.mode.fits common s.loop.commonModes call.curMode = true := by
    rw [h.common, hframe.curMode_eq]
    exact hfits
  obtain ⟨items', call', hround, hlist', hfreed, hother, hmode, hdid, hran⟩ := doBlocksItem_run hlist hfits'
  have hpending : Row.addresses t.pending = Row.addresses (pendingOf cs []) ++
      (Row.addresses c.kept ++ a :: (Row.addresses rest ++ Row.addresses t.waiting)) := by
    rw [Schedule.pending_cons htcalls, hrest]
    simp [Row.addresses]
  have hpending' : Row.addresses (pendingOf ({ c with ran := c.ran ++ [(a, r)], remaining := rest } :: cs) t.waiting) =
      Row.addresses (pendingOf cs []) ++ (Row.addresses c.kept ++ (Row.addresses rest ++ Row.addresses t.waiting)) := by
    rw [pendingOf, pendingOf_eq]
    simp [Row.addresses]
  have hnodup := h.nodup
  rw [hpending] at hnodup
  -- the items of the other lists are none of those that are written
  have hkeep : ∀ b, b ∈ Row.addresses (pendingOf cs []) ∨ b ∈ Row.addresses t.waiting → items' b = s.loop.items b := by
    intro b hb
    have hmine := hnodup.of_append_right
    rcases hb with hb | hb
    · have houter := List.disjoint_of_nodup_append hnodup hb
      apply hother b (fun hmem => houter (List.mem_append_left _ hmem))
      exact fun he => houter (he ▸ List.mem_append_right _ List.mem_cons_self)
    · have hlater := List.mem_append_right (Row.addresses rest) hb
      apply hother b fun hmem => List.disjoint_of_nodup_append hmine hmem (List.mem_cons_of_mem a hlater)
      exact fun he => (List.nodup_cons.mp hmine.of_append_right).1 (he ▸ hlater)
  refine ⟨items', call', hround, ?_⟩
  exact
    { waiting := h.waiting.congr fun b hb => hkeep b (.inr hb)
      calls := .cons ⟨⟨hmode.trans hframe.curMode_eq, by rw [hran, hframe.ran_eq], by rw [hdid]; simp⟩, hlist'⟩
        (frames_congr hothers fun b hb => hkeep b (.inl hb))
      returned := h.returned
      common := h.common
      performed := h.performed
      nodup := by
        show (Row.addresses (pendingOf _ t.waiting)).Nodup
        rw [hpending']
        exact hnodup.sublist (((List.sublist_cons_self _ _).append_left _).append_left _)
      live := by
        intro b hb
        change b ∉ Row.addresses (pendingOf _ t.waiting) at hb
        rw [hpending'] at hb
        rcases eq_or_ne b a with rfl | hne
        · exact hfreed
        · show items' b = none
          rw [hother b (fun hmem => hb (List.mem_append_right _ (List.mem_append_left _ hmem))) hne]
          apply h.live
          rw [hpending]
          simpa [hne] using hb }

/-- Every step of the code is a step of the schedule, or changes nothing. -/
theorem step (h : Represents s t) (hs : s.Step common s') :
    ∃ t', ReflGen (Schedule.Step (itemFits common)) t t' ∧ Represents s' t' := by
  cases hs with
  | @performBlock newItem mode block rl hnew hperform =>
    cases hr : request mode block with
    | none =>
      obtain rfl : s.loop = rl := Option.some.inj ((performBlock_none hr).symm.trans hperform)
      refine ⟨t, .refl, ?_⟩
      simpa using h
    | some r =>
      obtain ⟨rl', hperform', ht⟩ := h.perform hnew hr
      obtain rfl : rl' = rl := Option.some.inj (hperform'.symm.trans hperform)
      exact ⟨_, .single (.perform t (newItem, r)), ht⟩
  | addCommonMode modeName =>
    by_cases hmode : s.loop.commonModes.contains modeName = true
    · rw [addCommonMode, if_pos hmode]
      exact ⟨t, .refl, h⟩
    · rw [addCommonMode, if_neg hmode]
      exact ⟨_, .single (.common t modeName), h.waiting, h.calls, h.returned, congrArg _ h.common, h.performed,
        h.nodup, h.live⟩
  | @doBlocks rlm rl call hbegin =>
    cases rlm with
    | none => exact absurd (doBlocksBegin_none.symm.trans hbegin) (Option.some_ne_none _).symm
    | some curMode =>
      rcases eq_or_ne t.waiting [] with hwaiting | hwaiting
      · have hnone := doBlocksBegin_nil (hwaiting ▸ h.waiting) (some curMode)
        exact absurd (hnone.symm.trans hbegin) (Option.some_ne_none _).symm
      · obtain ⟨call', hbegin', ht⟩ := h.start hwaiting curMode
        obtain ⟨rfl, rfl⟩ := Prod.mk.inj (Option.some.inj (hbegin'.symm.trans hbegin))
        exact ⟨_, .single (.start t curMode), ht⟩
  | @item call call' frames rl hcalls hitem hround =>
    obtain ⟨c, cs, htcalls, hframe⟩ := h.cons hcalls
    have hnext := hframe.list.item_eq
    cases hrest : c.remaining with
    | nil => exact absurd (hnext.trans (by rw [hrest]; rfl)) hitem
    | cons p rest =>
      obtain ⟨a, r⟩ := p
      cases hfits : itemFits common t.commonModes c.curMode (a, r) with
      | false =>
        obtain ⟨call'', hround', ht⟩ := h.keep hcalls htcalls hrest hfits
        obtain ⟨rfl, rfl⟩ := Prod.mk.inj (Option.some.inj (hround'.symm.trans hround))
        exact ⟨_, .single (.keep htcalls hrest hfits), ht⟩
      | true =>
        obtain ⟨items', call'', hround', ht⟩ := h.run hcalls htcalls hrest hfits
        obtain ⟨rfl, rfl⟩ := Prod.mk.inj (Option.some.inj (hround'.symm.trans hround))
        exact ⟨_, .single (.run htcalls hrest hfits), ht⟩
  | @finish call frames rl hcalls hitem hend =>
    obtain ⟨c, cs, htcalls, hframe⟩ := h.cons hcalls
    have hrest := hframe.remaining_nil hitem
    obtain ⟨rl', hend', ht⟩ := h.finish hcalls htcalls hrest
    obtain rfl : rl' = rl := Option.some.inj (hend'.symm.trans hend)
    exact ⟨_, .single (.finish htcalls hrest), ht⟩

end Represents

/-! ## Whole runs -/

/-- A run of the code is a run of the schedule. -/
theorem reachable_represents (h : s.Reachable common default) :
    ∃ t : Schedule (Address × Request Name Block) Name, t.Sound (itemFits common) ∧ Represents s t := by
  induction h with
  | refl =>
    refine ⟨⟨[], [], [], [default], []⟩, ⟨.nil, .slnil, ?_⟩, Represents.created default⟩
    exact fun c hc => absurd hc List.not_mem_nil
  | tail _ hstep ih =>
    obtain ⟨t, hsound, ht⟩ := ih
    obtain ⟨t', hstep', ht'⟩ := ht.step hstep
    cases hstep' with
    | refl => exact ⟨t, hsound, ht'⟩
    | single hstep' => exact ⟨t', hstep'.sound itemFits_monotone hsound, ht'⟩

/-- In every state the items in memory are the blocks that were performed and not run, in
the order in which they were performed. A block was run where it fits. -/
theorem reachable_pending (h : s.Reachable common default) :
    ∃ pending : Row Address Name Block,
      pending.addresses.Nodup ∧ (∀ a, (s.loop.items a).isSome ↔ a ∈ pending.addresses) ∧
      Stored s.loop.items pending ∧ (s.ran ++ pending).Perm s.performed ∧ pending.Sublist s.performed ∧
      (∀ call ∈ s.calls ++ s.returned, ∀ p ∈ call.ran,
        p.2.mode.fits common s.loop.commonModes call.curMode = true) ∧
      (s.calls = [] → s.loop.Waiting pending) := by
  obtain ⟨t, hsound, ht⟩ := reachable_represents h
  refine ⟨t.pending, ht.nodup, ht.live_iff, ht.stored, ?_, ?_, ?_, ?_⟩
  · rw [ht.ran_eq, ht.performed]
    exact hsound.accounted
  · rw [ht.performed]
    exact hsound.ordered
  · intro call hcall p hp
    obtain ⟨c, hc, hsame⟩ := ht.exists_call hcall
    obtain ⟨seen, hdid⟩ := hsound.calls c hc
    rw [hsame.ran_eq] at hp
    have hfits := (List.mem_filter.mp (hdid.ran_sublist.subset hp)).2
    rw [ht.common, hsame.curMode_eq]
    exact hfits
  · intro hcalls
    have htcalls := ht.calls
    rw [hcalls] at htcalls
    rw [Schedule.pending, List.forall₂_nil_left_iff.mp htcalls, pendingOf]
    exact ht.waiting

theorem oneBlock_pending :
    ∃ pending : Row Nat Nat Nat, Machine.oneBlock.loop.Waiting pending ∧
      (Machine.oneBlock.ran ++ pending).Perm Machine.oneBlock.performed := by
  obtain ⟨pending, -, -, -, hperm, -, -, hwaiting⟩ := reachable_pending Machine.oneBlock_reachable
  exact ⟨pending, hwaiting rfl, hperm⟩

/-- The code never reads or writes an item that was freed. -/
theorem reachable_steps (h : s.Reachable common default) :
    (∀ newItem mode block, s.loop.items newItem = none → (performBlock s.loop newItem mode block).isSome) ∧
      ∀ call frames, s.calls = call :: frames →
        (call.item ≠ none → (doBlocksItem common s.loop call).isSome) ∧
          (call.item = none → (doBlocksEnd s.loop call).isSome) := by
  obtain ⟨t, -, ht⟩ := reachable_represents h
  refine ⟨fun newItem mode block hnew => ?_, fun call frames hcalls => ?_⟩
  · cases hr : request mode block with
    | none => simp [performBlock_none hr]
    | some r =>
      obtain ⟨rl, hperform, -⟩ := ht.perform hnew hr
      simp [hperform]
  · obtain ⟨c, cs, htcalls, hframe⟩ := ht.cons hcalls
    refine ⟨fun hitem => ?_, fun hitem => ?_⟩
    · cases hrest : c.remaining with
      | nil => exact absurd (hframe.list.item_eq.trans (by rw [hrest]; rfl)) hitem
      | cons p rest =>
        obtain ⟨a, r⟩ := p
        cases hfits : itemFits common t.commonModes c.curMode (a, r) with
        | false =>
          obtain ⟨call', hround, -⟩ := ht.keep hcalls htcalls hrest hfits
          simp [hround]
        | true =>
          obtain ⟨items', call', hround, -⟩ := ht.run hcalls htcalls hrest hfits
          simp [hround]
    · obtain ⟨rl, hend, -⟩ := ht.finish hcalls htcalls (hframe.remaining_nil hitem)
      simp [hend]

theorem oneBlock_step : (performBlock Machine.oneBlock.loop 8 (.string 2) (some 6)).isSome = true :=
  (reachable_steps Machine.oneBlock_reachable).1 8 (.string 2) (some 6) rfl

/-- A call that took `row` goes on until it returns. -/
theorem call_goes_on {s₁ : Machine Address Name Block} {depth : Nat} {row : Row Address Name Block} {curMode : Name}
    {before : List Name} {older newer : List (Call (Address × Request Name Block) Name)}
    (hsound : t.Sound (itemFits common)) (ht : Represents s t) (hcalls : t.calls = newer ++ c :: older)
    (hdepth : older.length = depth) (hc : c.curMode = curMode ∧ c.taken = row ∧ c.before = before)
    (hrun : ReflTransGen (Machine.StepAbove common depth) s s₁) :
    ∃ (t₁ : Schedule (Address × Request Name Block) Name) (newer₁ : List _) (c₁ : Call _ Name),
      t₁.Sound (itemFits common) ∧ Represents s₁ t₁ ∧ t₁.calls = newer₁ ++ c₁ :: older ∧
        c₁.curMode = curMode ∧ c₁.taken = row ∧ c₁.before = before := by
  induction hrun with
  | refl => exact ⟨t, newer, c, hsound, ht, hcalls, hc⟩
  | @tail s₂ s₃ _ hstep ih =>
    obtain ⟨t₂, newer₂, c₂, hsound₂, ht₂, hcalls₂, hmode₂, htaken₂, hbefore₂⟩ := ih
    obtain ⟨t₃, hstep₃, ht₃⟩ := ht₂.step hstep.1
    cases hstep₃ with
    | refl => exact ⟨t₂, newer₂, c₂, hsound₂, ht₃, hcalls₂, hmode₂, htaken₂, hbefore₂⟩
    | single hstep₃ =>
      have hlength : older.length < t₃.calls.length := by
        rw [hdepth, ← ht₃.calls.length_eq]
        exact hstep.2
      obtain ⟨newer₃, c₃, hcalls₃, hmode₃, htaken₃, hbefore₃⟩ := hstep₃.calls_eq hcalls₂ hlength
      exact ⟨t₃, newer₃, c₃, hstep₃.sound itemFits_monotone hsound₂, ht₃, hcalls₃, hmode₃.trans hmode₂,
        htaken₃.trans htaken₂, hbefore₃.trans hbefore₂⟩

/-- The call that took what waited in `s`, when its walk is over in `s₁`. -/
theorem call_result {s₁ : Machine Address Name Block} {curMode : Name} {rl : Loop Address Name Block}
    {last : DoBlocks Address Name Block} (h : s.Reachable common default)
    (hbegin : doBlocksBegin s.loop (some curMode) = some (rl, call))
    (hrun : ReflTransGen (Machine.StepAbove common s.calls.length) { s with loop := rl, calls := call :: s.calls } s₁)
    (hcalls : s₁.calls = last :: frames) (hlength : frames.length = s.calls.length) (hlast : last.item = none) :
    ∃ (row : Row Address Name Block) (t₁ : Schedule _ Name) (c : Call _ Name) (cs : List _),
      s.loop.Waiting row ∧ Represents s₁ t₁ ∧ t₁.calls = c :: cs ∧ c.remaining = [] ∧ SameCall last c ∧
        c.curMode = curMode ∧ c.before = s.loop.commonModes ∧
        c.Did (itemFits common) s₁.loop.commonModes row := by
  obtain ⟨t, hsound, ht⟩ := reachable_represents h
  have hwaiting : t.waiting ≠ [] := by
    intro hnil
    have hnone := doBlocksBegin_nil (hnil ▸ ht.waiting) (some curMode)
    exact absurd (hnone.symm.trans hbegin) (Option.some_ne_none _).symm
  obtain ⟨call', hbegin', htstart⟩ := ht.start hwaiting curMode
  obtain ⟨rfl, rfl⟩ := Prod.mk.inj (Option.some.inj (hbegin'.symm.trans hbegin))
  obtain ⟨t₁, newer, c, hsound₁, ht₁, hcalls₁, hmode, htaken, hbefore⟩ := call_goes_on
    ((Schedule.Step.start t curMode).sound itemFits_monotone hsound) htstart (List.nil_append (_ :: t.calls)).symm
    ht.calls.length_eq.symm ⟨rfl, rfl, rfl⟩ hrun
  have hnewer : newer = [] := by
    have hlengths := ht₁.calls.length_eq
    rw [hcalls, hcalls₁, List.length_cons, List.length_append, List.length_cons, hlength, ht.calls.length_eq] at hlengths
    exact List.eq_nil_of_length_eq_zero (by omega)
  rw [hnewer, List.nil_append] at hcalls₁
  obtain ⟨c', cs, hcs, hframe⟩ := ht₁.cons hcalls
  obtain ⟨rfl, rfl⟩ := List.cons.inj (hcs.symm.trans hcalls₁)
  obtain ⟨seen, hdid⟩ := hsound₁.calls c' (by rw [hcs]; exact List.mem_cons_self)
  have hrest := hframe.remaining_nil hlast
  have hseen : c'.taken = seen := by rw [hdid.taken_eq, hrest, List.append_nil]
  have hrow : t.waiting = seen := htaken.symm.trans hseen
  rw [← hrow, ← ht₁.common] at hdid
  exact ⟨t.waiting, t₁, c', _, ht.waiting, ht₁, hcs, hrest, hframe.toSameCall, hmode,
    hbefore.trans ht.common.symm, hdid⟩

/-- When the walk of a call is over, it has run what fitted when it began, and only what
fits by now, of the blocks that waited when it began, in their order. The others are put
in front of those that wait by now. It returns whether it has run a block. -/
theorem doBlocks_result {s₁ : Machine Address Name Block} {curMode : Name} {rl : Loop Address Name Block}
    {last : DoBlocks Address Name Block} (h : s.Reachable common default)
    (hbegin : doBlocksBegin s.loop (some curMode) = some (rl, call))
    (hrun : ReflTransGen (Machine.StepAbove common s.calls.length) { s with loop := rl, calls := call :: s.calls } s₁)
    (hcalls : s₁.calls = last :: frames) (hlength : frames.length = s.calls.length) (hlast : last.item = none) :
    ∃ row kept later rl₁, s.loop.Waiting row ∧ s₁.loop.Waiting later ∧
      doBlocksEnd s₁.loop last = some rl₁ ∧ rl₁.Waiting (kept ++ later) ∧
      (last.ran ++ kept).Perm row ∧
      (row.filter (itemFits common s.loop.commonModes curMode)).Sublist last.ran ∧
      last.ran.Sublist (row.filter (itemFits common s₁.loop.commonModes curMode)) ∧
      kept.Sublist (row.filter fun p => !itemFits common s.loop.commonModes curMode p) ∧
      last.did = !last.ran.isEmpty := by
  obtain ⟨row, t₁, c, cs, hrow, ht₁, htcalls, hrest, hsame, rfl, hbefore, hdid⟩ :=
    call_result h hbegin hrun hcalls hlength hlast
  obtain ⟨rl₁, hend, ht₂⟩ := ht₁.finish hcalls htcalls hrest
  refine ⟨row, c.kept, t₁.waiting, rl₁, hrow, ht₁.waiting, hend, ht₂.waiting, ?_, ?_, ?_, ?_, ?_⟩
  · rw [hsame.ran_eq]
    exact hdid.perm
  · rw [hsame.ran_eq, ← hbefore]
    exact hdid.sublist_ran
  · rw [hsame.ran_eq]
    exact hdid.ran_sublist
  · rw [← hbefore]
    exact hdid.kept_sublist
  · rw [hsame.did_eq, hsame.ran_eq]

theorem oneBlock_run : ReflTransGen (Machine.StepAbove 1 Machine.oneBlock.calls.length)
    { Machine.oneBlock with
      loop := { Machine.oneBlock.loop with blocksHead := none, blocksTail := none }
      calls := [⟨0, some 7, some 7, none, some 7, false, []⟩] }
    { Machine.oneBlock with
      loop := ⟨Function.update Machine.oneBlock.loop.items 7 none, none, none, [0]⟩
      calls := [Machine.walked] } :=
  .single ⟨.item rfl (by simp) rfl, by decide⟩

theorem oneBlock_result :
    ∃ row kept : Row Nat Nat Nat, Machine.oneBlock.loop.Waiting row ∧ (Machine.walked.ran ++ kept).Perm row := by
  obtain ⟨row, kept, -, -, hrow, -, -, -, hperm, -⟩ :=
    doBlocks_result Machine.oneBlock_reachable rfl oneBlock_run rfl rfl rfl
  exact ⟨row, kept, hrow, hperm⟩

/-- `__CFRunLoopModeIsEmpty` finds a block in the mode exactly if a call that begins now
returns that it has run one, when no other mode becomes common meanwhile. -/
theorem modeIsEmpty_result (h : s.Reachable common default) (curMode : Name) :
    ∃ empty enough, (∀ rounds, enough ≤ rounds →
        blocksEmpty common s.loop curMode rounds s.loop.blocksHead = some empty) ∧
      (doBlocksBegin s.loop (some curMode) = none → empty = true) ∧
      ∀ rl call s₁ last frames, doBlocksBegin s.loop (some curMode) = some (rl, call) →
        ReflTransGen (Machine.StepAbove common s.calls.length) { s with loop := rl, calls := call :: s.calls } s₁ →
        s₁.calls = last :: frames → frames.length = s.calls.length → last.item = none →
        s₁.loop.commonModes = s.loop.commonModes → last.did = !empty := by
  obtain ⟨t, -, ht⟩ := reachable_represents h
  refine ⟨t.waiting.all fun p => !itemFits common s.loop.commonModes curMode p, t.waiting.length, ?_, ?_, ?_⟩
  · exact fun rounds hrounds => blocksEmpty_spec curMode ht.waiting.chain ht.waiting.stored hrounds
  · intro hnone
    have hwaiting : t.waiting = [] := by
      by_contra hwaiting
      obtain ⟨call, hbegin, -⟩ := ht.start hwaiting curMode
      exact absurd (hbegin.symm.trans hnone) (Option.some_ne_none _)
    rw [hwaiting]
    rfl
  · intro rl call s₁ last frames hbegin hrun hcalls hlength hlast hcommon
    obtain ⟨row, t₁, c, cs, hrow, ht₁, htcalls, hrest, hsame, rfl, hbefore, hdid⟩ :=
      call_result h hbegin hrun hcalls hlength hlast
    have htaken : c.taken = row := by rw [hdid.taken_eq, hrest, List.append_nil]
    rw [hcommon, ← hbefore, ← htaken] at hdid
    rw [hsame.did_eq, hdid.eq_filter.1, htaken, hrow.unique ht.waiting, hbefore, Bool.eq_iff_iff]
    simp

end Simulation

theorem oneBlock_isEmpty :
    ∃ empty enough, (∀ rounds, enough ≤ rounds →
        blocksEmpty 1 Machine.oneBlock.loop 0 rounds Machine.oneBlock.loop.blocksHead = some empty) ∧
      Machine.walked.did = !empty := by
  obtain ⟨empty, enough, hempty, -, hresult⟩ := modeIsEmpty_result Machine.oneBlock_reachable 0
  exact ⟨empty, enough, hempty, hresult _ _ _ _ _ rfl oneBlock_run rfl rfl rfl rfl⟩

end CFLite.RunLoop.Blocks
