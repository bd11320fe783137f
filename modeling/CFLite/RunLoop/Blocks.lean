import CFLite.Framework.LinkedList
import Mathlib.Logic.Function.Basic

/-!
# The blocks of a run loop

`CFRunLoopPerformBlock` puts a block at the end of a singly linked list of the
run loop, and `__CFRunLoopDoBlocks` runs those whose modes fit. It takes the
whole list out of the run loop and walks it without the lock, so that a block
may perform further blocks and run the run loop again, and other threads may
perform blocks, between any two items of the walk. What was not run is put back
in front of what came meanwhile.

`malloc` and `free` are the addresses at which `items` has an item; an
operation that reads or writes where there is none has no result.

* `performBlock_spec`: what `CFRunLoopPerformBlock` does to the list;
* `CallList`: what the variables of a walk say of the items, and
  `doBlocksBegin_spec`, `doBlocksItem_keep`, `doBlocksItem_run` and
  `doBlocksEnd_spec`: what the parts of `__CFRunLoopDoBlocks` do to it;
* `blocksEmpty_spec`: the walk of `__CFRunLoopModeIsEmpty`.
-/

namespace CFLite.RunLoop.Blocks

open Framework

variable {Address Name Block : Type}

/-- The mode argument of `CFRunLoopPerformBlock`. -/
inductive ModeArgument (Name : Type)
  | string (mode : Name)
  | array (modes : List Name)
  | set (modes : List Name)
  | other

/-- The `_mode` of an item: a string, or a set of strings. -/
inductive ItemMode (Name : Type)
  | string (mode : Name)
  | set (modes : List Name)

/-- A block that is to be run, and where. -/
structure Request (Name Block : Type) where
  mode : ItemMode Name
  block : Block

/-- `struct _block_item`. -/
structure BlockItem (Address Name Block : Type) extends Request Name Block where
  next : Option Address

/-- What `malloc` gave and `free` did not take back yet. -/
abbrev Items (Address Name Block : Type) := Address → Option (BlockItem Address Name Block)

/-- The blocks of a `__CFRunLoop`, and its `_commonModes`. -/
structure Loop (Address Name Block : Type) where
  items : Items Address Name Block
  blocksHead : Option Address
  blocksTail : Option Address
  commonModes : List Name

/-- The variables of `__CFRunLoopDoBlocks`, and the blocks it has run so far. -/
structure DoBlocks (Address Name Block : Type) where
  curMode : Name
  head : Option Address
  tail : Option Address
  prev : Option Address
  item : Option Address
  did : Bool
  ran : List (Address × Request Name Block)

section Source

variable [DecidableEq Address] [DecidableEq Name]

/-- `doit`. -/
def ItemMode.fits (kCFRunLoopCommonModes : Name) (commonModes : List Name) (curMode : Name) : ItemMode Name → Bool
  | .string mode => mode = curMode || (mode = kCFRunLoopCommonModes && commonModes.contains curMode)
  | .set modes => modes.contains curMode || (modes.contains kCFRunLoopCommonModes && commonModes.contains curMode)

/-- `item->_next = next`. -/
def setNext (items : Items Address Name Block) (item next : Option Address) : Option (Items Address Name Block) := do
  let a ← item
  let curr ← items a
  return Function.update items a (some { curr with next := next })

/-- `if (prev) prev->_next = item`. -/
def unlink (items : Items Address Name Block) (prev item : Option Address) : Option (Items Address Name Block) :=
  if prev.isNone then some items else setNext items prev item

/-- The copy of the mode argument that is stored in the item. -/
def ModeArgument.itemMode : ModeArgument Name → Option (ItemMode Name)
  | .string mode => some (.string mode)
  | .array modes => some (.set modes)
  | .set modes => some (.set modes)
  | .other => none

/-- What a call of `CFRunLoopPerformBlock` asks for, if it is not ignored. -/
def request (mode : ModeArgument Name) (block : Option Block) : Option (Request Name Block) := do
  let mode ← mode.itemMode
  let block ← block
  return ⟨mode, block⟩

/-- `CFRunLoopPerformBlock`, where `malloc` gives `newItem`. -/
def performBlock (rl : Loop Address Name Block) (newItem : Address) (mode : ModeArgument Name)
    (block : Option Block) : Option (Loop Address Name Block) :=
  match request mode block with
  | none => some rl
  | some r =>
    let items := Function.update rl.items newItem (some ⟨r, none⟩)
    if rl.blocksTail.isNone then
      some { rl with items := items, blocksHead := some newItem, blocksTail := some newItem }
    else
      (setNext items rl.blocksTail (some newItem)).map fun items =>
        { rl with items := items, blocksTail := some newItem }

/-- `CFRunLoopAddCommonMode`, as far as the blocks go. -/
def addCommonMode (rl : Loop Address Name Block) (modeName : Name) : Loop Address Name Block :=
  if rl.commonModes.contains modeName then rl else { rl with commonModes := modeName :: rl.commonModes }

/-- `__CFRunLoopDoBlocks` up to its loop, or that it returns at once. `rlm` is
the name of the mode. -/
def doBlocksBegin (rl : Loop Address Name Block) (rlm : Option Name) :
    Option (Loop Address Name Block × DoBlocks Address Name Block) :=
  match rl.blocksHead, rlm with
  | some head, some curMode =>
    some ({ rl with blocksHead := none, blocksTail := none },
      ⟨curMode, some head, rl.blocksTail, none, some head, false, []⟩)
  | _, _ => none

/-- One round of the loop of `__CFRunLoopDoBlocks`. A block that fits is run at
the end of the round: what it does comes before the next round. -/
def doBlocksItem (kCFRunLoopCommonModes : Name) (rl : Loop Address Name Block)
    (call : DoBlocks Address Name Block) :
    Option (Loop Address Name Block × DoBlocks Address Name Block) := do
  let a ← call.item
  let curr ← rl.items a
  if curr.mode.fits kCFRunLoopCommonModes rl.commonModes call.curMode then
    let items ← unlink rl.items call.prev curr.next
    return ({ rl with items := Function.update items a none },
      { call with
        head := if some a = call.head then curr.next else call.head
        tail := if some a = call.tail then call.prev else call.tail
        item := curr.next
        did := true
        ran := call.ran ++ [(a, curr.toRequest)] })
  else
    return (rl, { call with prev := some a, item := curr.next })

/-- `__CFRunLoopDoBlocks` after its loop. -/
def doBlocksEnd (rl : Loop Address Name Block) (call : DoBlocks Address Name Block) :
    Option (Loop Address Name Block) :=
  if call.head.isNone then some rl
  else
    (setNext rl.items call.tail rl.blocksHead).map fun items =>
      { rl with
        items := items
        blocksHead := call.head
        blocksTail := if rl.blocksTail.isNone then call.tail else rl.blocksTail }

/-- The loop of `__CFRunLoopModeIsEmpty` over the blocks, of at most `rounds`
rounds; `none` when a freed item is read, or the rounds are used up. -/
def blocksEmpty (kCFRunLoopCommonModes : Name) (rl : Loop Address Name Block) (rlm : Name) :
    (rounds : Nat) → (item : Option Address) → Option Bool
  | _, none => some true
  | 0, some _ => none
  | rounds + 1, some a => do
    let curr ← rl.items a
    if curr.mode.fits kCFRunLoopCommonModes rl.commonModes rlm then return false
    blocksEmpty kCFRunLoopCommonModes rl rlm rounds curr.next

end Source

/-! ## The items as a list -/

def nextOf (items : Items Address Name Block) (a : Address) : Option Address := (items a).bind BlockItem.next

def requestOf (items : Items Address Name Block) (a : Address) : Option (Request Name Block) :=
  (items a).map BlockItem.toRequest

/-- Items in a row, with what each one asks for. -/
abbrev Row (Address Name Block : Type) := List (Address × Request Name Block)

/-- The addresses of a row. -/
abbrev Row.addresses (row : Row Address Name Block) : List Address := row.map Prod.fst

/-- Each address has an item with this request. -/
def Stored (items : Items Address Name Block) (row : Row Address Name Block) : Prop :=
  ∀ p ∈ row, requestOf items p.1 = some p.2

variable {items items' : Items Address Name Block} {row row' kept remaining : Row Address Name Block}
  {a b : Address} {r : Request Name Block}

theorem Stored.append_iff : Stored items (row ++ row') ↔ Stored items row ∧ Stored items row' := by
  simp [Stored, or_imp, forall_and]

theorem Stored.item (h : Stored items row) (ha : (a, r) ∈ row) : ∃ next, items a = some ⟨r, next⟩ := by
  obtain ⟨⟨r', next⟩, hitem, hr⟩ := Option.map_eq_some_iff.mp (h _ ha)
  obtain rfl : r' = r := hr
  exact ⟨next, hitem⟩

theorem Stored.notMem (h : Stored items row) (ha : items a = none) : a ∉ row.addresses := by
  intro hmem
  obtain ⟨p, hp, rfl⟩ := List.mem_map.mp hmem
  have hstored := h p hp
  simp [requestOf, ha] at hstored

section Links

variable [DecidableEq Address]

@[simp] theorem nextOf_update (item : Option (BlockItem Address Name Block)) :
    nextOf (Function.update items a item) = Function.update (nextOf items) a (item.bind BlockItem.next) := by
  funext b
  by_cases hb : b = a
  · subst hb
    simp [nextOf]
  · simp [nextOf, hb]

@[simp] theorem requestOf_update (item : Option (BlockItem Address Name Block)) :
    requestOf (Function.update items a item) =
      Function.update (requestOf items) a (item.map BlockItem.toRequest) := by
  funext b
  by_cases hb : b = a
  · subst hb
    simp [requestOf]
  · simp [requestOf, hb]

theorem setNext_eq {next next' : Option Address} (h : items a = some ⟨r, next⟩) :
    setNext items (some a) next' = some (Function.update items a (some ⟨r, next'⟩)) := by
  simp [setNext, h]

/-- A link that is changed leaves what is asked for. -/
theorem requestOf_setNext {next next' : Option Address} (h : items a = some ⟨r, next⟩) :
    requestOf (Function.update items a (some ⟨r, next'⟩)) = requestOf items := by
  rw [requestOf_update, Function.update_eq_self_iff]
  simp [requestOf, h]

end Links

/-- The list that starts at `head` and ends at `tail` has these items. -/
structure Listed (items : Items Address Name Block) (head tail : Option Address) (row : Row Address Name Block) :
    Prop where
  chain : Chain (nextOf items) head row.addresses
  tail_eq : tail = row.addresses.getLast?
  stored : Stored items row

namespace Listed

variable {head tail head' tail' : Option Address}

theorem head_eq (h : Listed items head tail row) : head = row.addresses.head? := h.chain.head?

theorem nodup (h : Listed items head tail row) : row.addresses.Nodup := h.chain.nodup

theorem nil : Listed items none none ([] : Row Address Name Block) := ⟨rfl, rfl, fun _ h => absurd h List.not_mem_nil⟩

/-- A list depends on its own items only. -/
theorem congr (h : Listed items head tail row) (hitems : ∀ a ∈ row.addresses, items' a = items a) :
    Listed items' head tail row where
  chain := h.chain.congr fun a ha => by rw [nextOf, hitems a ha, nextOf]
  tail_eq := h.tail_eq
  stored := fun p hp => by
    rw [requestOf, hitems _ (List.mem_map_of_mem hp)]
    exact h.stored p hp

variable [DecidableEq Address]

theorem singleton : Listed (Function.update items a (some ⟨r, none⟩)) (some a) (some a) [(a, r)] := by
  refine ⟨⟨rfl, ?_⟩, rfl, ?_⟩
  · simp [nextOf]
  · intro p hp
    obtain rfl := List.mem_singleton.mp hp
    simp [requestOf]

/-- One list is put after another. -/
theorem append (h : Listed items head tail row) (h' : Listed items head' tail' row') (hrow : row ≠ [])
    (hdisjoint : row.addresses.Disjoint row'.addresses) :
    ∃ items', setNext items tail head' = some items' ∧
      Listed items' head (if tail'.isNone then tail else tail') (row ++ row') ∧
      ∀ b, b ∉ row.addresses → items' b = items b := by
  obtain ⟨init, ⟨a, r⟩, rfl⟩ := (List.eq_nil_or_concat' row).resolve_left hrow
  have ha : a ∈ Row.addresses (init ++ [(a, r)]) := by simp
  have htail : tail = some a := by simpa using h.tail_eq
  obtain ⟨next, hitem⟩ := h.stored.item (a := a) (r := r) (by simp)
  refine ⟨_, by rw [htail, setNext_eq hitem], ⟨?_, ?_, ?_⟩, ?_⟩
  · show Chain _ _ _
    rw [nextOf_update]
    simpa using Chain.append (by simpa using h.chain) h'.chain (hdisjoint ha)
  · rw [h'.tail_eq, htail]
    cases hlast : row'.addresses.getLast? with
    | none => simp [List.map_eq_nil_iff.mp (List.getLast?_eq_none_iff.mp hlast)]
    | some b =>
      rw [Row.addresses, List.map_append, List.getLast?_append, hlast]
      rfl
  · intro p hp
    rw [requestOf_setNext hitem]
    exact (List.mem_append.mp hp).elim (h.stored p) (h'.stored p)
  · intro b hb
    exact Function.update_of_ne (ne_of_mem_of_not_mem ha hb).symm _ _

/-- An item is taken out and freed. -/
theorem remove (h : Listed items head tail (kept ++ (a, r) :: remaining)) {prev next : Option Address}
    (hprev : prev = kept.addresses.getLast?) (hitem : items a = some ⟨r, next⟩) :
    ∃ items', unlink items prev next = some items' ∧
      Listed (Function.update items' a none) (if some a = head then next else head)
        (if some a = tail then prev else tail) (kept ++ remaining) ∧
      ∀ b, b ∉ kept.addresses → items' b = items b := by
  have hchain := h.chain
  rw [Row.addresses, List.map_append, List.map_cons] at hchain
  have hnext : nextOf items a = next := by simp [nextOf, hitem]
  have ha : a ∉ Row.addresses (kept ++ remaining) := by
    have hnodup := (List.nodup_middle.mp hchain.nodup)
    simpa using (List.nodup_cons.mp hnodup).1
  have htail : (if some a = tail then prev else tail) = (Row.addresses (kept ++ remaining)).getLast? := by
    rw [h.tail_eq, hprev, Row.addresses, Row.addresses, Row.addresses, List.map_append, List.map_append]
    exact hchain.getLast?_remove
  suffices hlinked : ∃ items', unlink items prev next = some items' ∧
      Chain (nextOf items') (if some a = head then next else head) (Row.addresses (kept ++ remaining)) ∧
      requestOf items' = requestOf items ∧ ∀ b, b ∉ kept.addresses → items' b = items b by
    obtain ⟨items', hitems', hchain', hreq, hframe⟩ := hlinked
    refine ⟨items', hitems', ⟨?_, htail, ?_⟩, hframe⟩
    · rw [nextOf_update]
      exact Segment.update hchain' ha _
    · intro p hp
      rw [requestOf_update, Function.update_of_ne (ne_of_mem_of_not_mem (List.mem_map_of_mem hp) ha), hreq]
      exact h.stored p (by simpa using Or.imp_right (Or.inr (a := _)) (List.mem_append.mp hp))
  rcases List.eq_nil_or_concat' kept with rfl | ⟨init, ⟨b, r'⟩, rfl⟩
  · obtain rfl : prev = none := by simpa using hprev
    obtain ⟨hhead, hrest⟩ := Segment.cons_iff.mp hchain
    refine ⟨items, rfl, ?_, rfl, fun _ _ => rfl⟩
    rw [if_pos (by simpa using hhead.symm), ← hnext]
    simpa using hrest
  · obtain rfl : prev = some b := by simpa using hprev
    obtain ⟨next', hitem'⟩ := h.stored.item (a := b) (r := r') (by simp)
    refine ⟨_, setNext_eq hitem', ?_, requestOf_setNext hitem', ?_⟩
    · rw [nextOf_update, if_neg (hchain.ne_middle (by simp)).symm, ← hnext]
      simpa using Chain.removeAfter (by simpa using hchain)
    · intro c hc
      exact Function.update_of_ne (by rintro rfl; simp at hc) _ _

end Listed

/-! ## What the operations do to the lists -/

/-- The blocks that are in the list of the run loop. -/
abbrev Loop.Waiting (rl : Loop Address Name Block) (row : Row Address Name Block) : Prop :=
  Listed rl.items rl.blocksHead rl.blocksTail row

/-- What a walk did not run of the list it took: the items it has seen, and the
ones before it. -/
structure CallList (items : Items Address Name Block) (call : DoBlocks Address Name Block)
    (kept remaining : Row Address Name Block) : Prop where
  listed : Listed items call.head call.tail (kept ++ remaining)
  prev_eq : call.prev = kept.addresses.getLast?
  item_eq : call.item = remaining.addresses.head?

/-- The item that the walk sees next. -/
theorem CallList.item {call : DoBlocks Address Name Block} (h : CallList items call kept ((a, r) :: remaining)) :
    items a = some ⟨r, remaining.addresses.head?⟩ := by
  obtain ⟨next, hnext⟩ := h.listed.stored.item (List.mem_append_right kept List.mem_cons_self)
  have hchain := h.listed.chain
  rw [Row.addresses, List.map_append] at hchain
  have hafter : nextOf items a = remaining.addresses.head? := Chain.head? (Segment.cons_iff.mp hchain).2
  rw [nextOf, hnext] at hafter
  rw [hnext, ← hafter]
  rfl

theorem CallList.congr {call : DoBlocks Address Name Block} (h : CallList items call kept remaining)
    (hitems : ∀ a ∈ Row.addresses (kept ++ remaining), items' a = items a) : CallList items' call kept remaining :=
  ⟨h.listed.congr hitems, h.prev_eq, h.item_eq⟩

variable {common : Name} {rl : Loop Address Name Block} {call : DoBlocks Address Name Block}

theorem doBlocksBegin_nil (h : rl.Waiting []) (rlm : Option Name) : doBlocksBegin rl rlm = none := by
  have hhead : rl.blocksHead = none := h.head_eq
  simp [doBlocksBegin, hhead]

theorem doBlocksBegin_none : doBlocksBegin rl none = none := by
  simp [doBlocksBegin]

theorem doBlocksBegin_spec (h : rl.Waiting row) (hrow : row ≠ []) (curMode : Name) :
    ∃ call, doBlocksBegin rl (some curMode) = some ({ rl with blocksHead := none, blocksTail := none }, call) ∧
      CallList rl.items call [] row ∧ call.curMode = curMode ∧ call.did = false ∧ call.ran = [] := by
  obtain ⟨⟨a, r⟩, rest, rfl⟩ := List.exists_cons_of_ne_nil hrow
  have hhead : rl.blocksHead = some a := h.head_eq
  refine ⟨⟨curMode, some a, rl.blocksTail, none, some a, false, []⟩, ?_, ⟨?_, rfl, rfl⟩, rfl, rfl, rfl⟩
  · simp [doBlocksBegin, hhead]
  · show Listed rl.items (some a) rl.blocksTail _
    rw [← hhead]
    exact h

section Links

variable [DecidableEq Address]

theorem performBlock_none {newItem : Address} {mode : ModeArgument Name} {block : Option Block}
    (hr : request mode block = none) : performBlock rl newItem mode block = some rl := by
  simp [performBlock, hr]

theorem performBlock_spec {newItem : Address} {mode : ModeArgument Name} {block : Option Block}
    (h : rl.Waiting row) (hnew : rl.items newItem = none) (hr : request mode block = some r) :
    ∃ rl', performBlock rl newItem mode block = some rl' ∧ rl'.Waiting (row ++ [(newItem, r)]) ∧
      rl'.commonModes = rl.commonModes ∧
      ∀ b, b ∉ row.addresses → b ≠ newItem → rl'.items b = rl.items b := by
  have hnot := h.stored.notMem hnew
  rcases eq_or_ne row [] with rfl | hrow
  · have htail : rl.blocksTail = none := h.tail_eq
    refine ⟨{ rl with
        items := Function.update rl.items newItem (some ⟨r, none⟩)
        blocksHead := some newItem
        blocksTail := some newItem }, ?_, Listed.singleton, rfl, fun b _ hb => Function.update_of_ne hb _ _⟩
    simp [performBlock, hr, htail]
  · have htail : rl.blocksTail.isNone = false := by
      rw [h.tail_eq]
      simpa using hrow
    have hold : Listed (Function.update rl.items newItem (some ⟨r, none⟩)) rl.blocksHead rl.blocksTail row :=
      h.congr fun b hb => Function.update_of_ne (ne_of_mem_of_not_mem hb hnot) _ _
    obtain ⟨items', hset, hlist, hframe⟩ := hold.append Listed.singleton hrow (by simpa using hnot)
    refine ⟨{ rl with items := items', blocksTail := some newItem }, ?_, hlist, rfl, ?_⟩
    · simp [performBlock, hr, htail, hset]
    · intro b hb hne
      exact (hframe b hb).trans (Function.update_of_ne hne _ _)

theorem doBlocksEnd_spec (h : CallList rl.items call kept []) (hw : rl.Waiting row)
    (hdisjoint : kept.addresses.Disjoint row.addresses) :
    ∃ rl', doBlocksEnd rl call = some rl' ∧ rl'.Waiting (kept ++ row) ∧ rl'.commonModes = rl.commonModes ∧
      ∀ b, b ∉ kept.addresses → rl'.items b = rl.items b := by
  have hlist := h.listed
  rw [List.append_nil] at hlist
  rcases eq_or_ne kept [] with rfl | hkept
  · have hhead : call.head = none := hlist.head_eq
    exact ⟨rl, by simp [doBlocksEnd, hhead], hw, rfl, fun _ _ => rfl⟩
  · have hhead : call.head.isNone = false := by
      rw [hlist.head_eq]
      simpa using hkept
    obtain ⟨items', hset, hlist', hframe⟩ := hlist.append hw hkept hdisjoint
    refine ⟨{ rl with
        items := items'
        blocksHead := call.head
        blocksTail := if rl.blocksTail.isNone then call.tail else rl.blocksTail }, ?_, hlist', rfl, hframe⟩
    simp [doBlocksEnd, hhead, hset]

end Links

variable [DecidableEq Name]

/-- The run loop is empty, as far as the blocks go, when none that waits fits. -/
theorem blocksEmpty_spec (rlm : Name) {rounds : Nat} {head : Option Address}
    (hchain : Chain (nextOf rl.items) head row.addresses) (hstored : Stored rl.items row)
    (hrounds : row.length ≤ rounds) :
    blocksEmpty common rl rlm rounds head =
      some (row.all fun p => !p.2.mode.fits common rl.commonModes rlm) := by
  induction row generalizing rounds head with
  | nil =>
    obtain rfl : head = none := hchain
    cases rounds <;> rfl
  | cons p row ih =>
    obtain ⟨a, r⟩ := p
    obtain ⟨rfl, hrest⟩ := hchain
    obtain ⟨rounds, rfl⟩ : ∃ n, rounds = n + 1 := ⟨rounds - 1, by simp at hrounds; omega⟩
    obtain ⟨next, hnext⟩ := hstored.item List.mem_cons_self
    rw [nextOf, hnext] at hrest
    have hih := ih hrest (fun p hp => hstored p (List.mem_cons_of_mem _ hp)) (by simpa using hrounds)
    cases hfits : r.mode.fits common rl.commonModes rlm with
    | true => simp [blocksEmpty, hnext, hfits]
    | false => simpa [blocksEmpty, hnext, hfits] using hih

variable [DecidableEq Address]

theorem doBlocksItem_keep (h : CallList rl.items call kept ((a, r) :: remaining))
    (hfits : r.mode.fits common rl.commonModes call.curMode = false) :
    ∃ call', doBlocksItem common rl call = some (rl, call') ∧
      CallList rl.items call' (kept ++ [(a, r)]) remaining ∧
      call'.curMode = call.curMode ∧ call'.did = call.did ∧ call'.ran = call.ran := by
  have hitem : call.item = some a := h.item_eq
  refine ⟨{ call with prev := some a, item := remaining.addresses.head? }, ?_, ⟨?_, ?_, rfl⟩, rfl, rfl, rfl⟩
  · simp [doBlocksItem, hitem, h.item, hfits]
  · simpa using h.listed
  · simp

theorem doBlocksItem_run (h : CallList rl.items call kept ((a, r) :: remaining))
    (hfits : r.mode.fits common rl.commonModes call.curMode = true) :
    ∃ items' call', doBlocksItem common rl call = some ({ rl with items := items' }, call') ∧
      CallList items' call' kept remaining ∧ items' a = none ∧
      (∀ b, b ∉ kept.addresses → b ≠ a → items' b = rl.items b) ∧
      call'.curMode = call.curMode ∧ call'.did = true ∧ call'.ran = call.ran ++ [(a, r)] := by
  have hitem : call.item = some a := h.item_eq
  obtain ⟨items', hset, hlist, hframe⟩ := h.listed.remove h.prev_eq h.item
  refine ⟨Function.update items' a none, { call with
      head := if some a = call.head then remaining.addresses.head? else call.head
      tail := if some a = call.tail then call.prev else call.tail
      item := remaining.addresses.head?
      did := true
      ran := call.ran ++ [(a, r)] }, ?_, ⟨hlist, h.prev_eq, rfl⟩, Function.update_self .., ?_, rfl, rfl, rfl⟩
  · simp [doBlocksItem, hitem, h.item, hfits, hset, -List.head?_map]
  · intro b hb hne
    exact (Function.update_of_ne hne _ _).trans (hframe b hb)

end CFLite.RunLoop.Blocks
