import CFLite.Storage.InsertCounts

/-!
# Reference counts across a deletion

A deletion keeps the reference counts exact: the caller holds the node that is
left, unless that is the root (`delete_counted`, `deleteUnfrozen_counted`).
-/

namespace CFLite.Storage

open Framework Run

variable {roots : List NodeId} {h h' : Heap} {held : Multiset NodeId} {rank : NodeId → Nat} {n : NodeId} {r : Nat}
  {P : NodeId → Prop}

/-- The references a deletion from `n` returns: a root is not retained. -/
def retainedAfter (roots : List NodeId) (n : NodeId) (result : Option NodeId) : Multiset NodeId :=
  if n ∈ roots ∧ result = some n then 0 else (result.toList : Multiset NodeId)

theorem retainedAfter_of_not_mem {result : Option NodeId} (hn : n ∉ roots) :
    retainedAfter roots n result = (result.toList : Multiset NodeId) :=
  if_neg fun h => hn h.1

/-- What a deletion from `n` that returned `result` did. -/
def DeleteCounted (roots : List NodeId) (rank : NodeId → Nat) (h : Heap) (held : Multiset NodeId) (n : NodeId)
    (result : Option NodeId) (h' : Heap) : Prop :=
  ∃ rank', Step roots (rank n) rank h rank' h' (retainedAfter roots n result + held) ∧
    ∀ c ∈ result, rank' c ≤ rank n

variable {storage : CFStorage} {range : CFRange}

theorem deleteCounted_none (hc : Counted roots h held rank) : DeleteCounted roots rank h held n none h :=
  ⟨rank, hc.step.congr (by simp [retainedAfter]), by simp⟩

theorem deleteLeafFrozen_counted (hc : Counted roots h held rank) :
    Ensures (deleteLeafFrozen storage n range) h (DeleteCounted roots rank h held n) := by
  rw [deleteLeafFrozen]
  refine ensures_bind (ensures_deref fun v hv => ensures_bind (ensures_derefLeaf fun _ leaf _ _ => ?_))
  refine wp_ite.mpr ⟨fun _ => wp_pure.mpr (deleteCounted_none hc), fun _ => ?_⟩
  refine ensures_bind (wp_createNode.mpr ?_)
  obtain ⟨S, hS⟩ : ∃ S : NodeId → Prop, S = fun m => m = h.nextNode := ⟨_, rfl⟩
  have hnew : S h.nextNode := by simp [hS]
  have hne : h.nextNode ≠ n := Nat.ne_of_gt (hc.lt_nextNode hv)
  refine ensures_data_bind (P := S) (ensures_when fun _ => ?_) fun h₁ hd₁ => wp_pure.mpr ?_
  · refine ensures_data_bind (ensures_allocLeafNodeMemory hnew) fun k₁ hk₁ => ?_
    refine ensures_data_bind (ensures_when fun _ => ensures_copyMem hnew) fun k₂ hk₂ => ?_
    exact (ensures_when (P := S) fun _ => ensures_copyMem hnew).mono fun _ _ hk₃ => (hk₁.trans hk₂).trans hk₃
  · have hs := hc.create (v := CFStorageNode.new storage true (v.numBytes - range.length)) rfl rfl (rank n)
    have hrank : Function.update rank h.nextNode (rank n) h.nextNode = rank n := Function.update_self _ _ _
    refine ⟨_, (hs.trans (hs.counted.data hd₁ fun m hm => ?_)).congr ?_, ?_⟩
    · rw [hS] at hm
      rw [hm, hrank]
    · simp [retainedAfter, hne]
    · simp

/-- The children that are left are held, and lie as low as the children. -/
theorem ensures_populateBranchChildrenAfterDeletion {delete : NodeId → CFRange → Op (Option NodeId)}
    {frozen : Bool} {child : List NodeId} {childByteOffset : Nat}
    (hrec : ∀ h held rank n range, Counted roots h held rank → n ∉ roots →
      Ensures (delete n range) h (DeleteCounted roots rank h held n))
    (hc : Counted roots h held rank) (hchild : ∀ c ∈ child, c ∉ roots ∧ c < h.nextNode ∧ rank c < r) :
    Ensures (populateBranchChildrenAfterDeletion delete range frozen child childByteOffset) h fun newChildren h' =>
      ∃ rank', Step roots (r - 1) rank h rank' h' ((newChildren : Multiset NodeId) + held) ∧
        ∀ c ∈ newChildren, rank' c < r := by
  induction child generalizing h held rank childByteOffset with
  | nil => exact wp_pure.mpr ⟨rank, hc.step.congr (by simp), by simp⟩
  | cons c child ih =>
    obtain ⟨hroot, hlt, hlow⟩ := hchild c List.mem_cons_self
    have hle : rank c ≤ r - 1 := by omega
    rw [populateBranchChildrenAfterDeletion]
    refine ensures_bind (ensures_numBytes fun v hv => wp_ite.mpr ⟨fun _ => ?_, fun _ => ?_⟩)
    · refine ensures_bind ((ensures_retainNode hc hroot hle).mono fun _ h₁ hs₁ => ?_)
      refine ensures_data_bind (P := (· = c)) (ensures_when fun _ => ensures_freezeNode rfl) fun h₂ hd₂ => ?_
      have hs₂ := hs₁.trans (hs₁.counted.data hd₂ fun m hm => by rw [hm]; exact hle)
      refine ensures_bind ((ih hs₂.counted fun c' hc' => ?_).mono ?_)
      · obtain ⟨hr', hlt', hlow'⟩ := hchild c' (List.mem_cons_of_mem _ hc')
        exact ⟨hr', hlt'.trans_le hs₂.next, hlow'⟩
      · rintro rest h₃ ⟨rank', hs₃, hrest⟩
        refine wp_pure.mpr ⟨rank', (hs₂.trans hs₃).congr ?_, ?_⟩
        · rw [← Multiset.cons_coe, Multiset.cons_add, Multiset.add_cons]
        · intro x hx
          rcases List.mem_cons.mp hx with rfl | hx
          · rwa [hs₃.rank_eq x (hlt.trans_le hs₂.next)]
          · exact hrest x hx
    · refine ensures_bind ((hrec h held rank c _ hc hroot).mono ?_)
      rintro newChild h₁ ⟨rank₁, hs₁, hnew⟩
      rw [retainedAfter_of_not_mem hroot] at hs₁
      have hs₁' := hs₁.mono hle
      refine ensures_bind ((ih hs₁.counted fun c' hc' => ?_).mono ?_)
      · obtain ⟨hr', hlt', hlow'⟩ := hchild c' (List.mem_cons_of_mem _ hc')
        exact ⟨hr', hlt'.trans_le hs₁.next, by rwa [hs₁.rank_eq c' hlt']⟩
      · rintro rest h₂ ⟨rank', hs₂, hrest⟩
        refine wp_pure.mpr ⟨rank', (hs₁'.trans hs₂).congr ?_, ?_⟩
        · rw [← Multiset.coe_add]
          ac_rfl
        · intro x hx
          rcases List.mem_append.mp hx with hx | hx
          · obtain ⟨w, hw⟩ := hs₁.counted.exists_of_mem (n := x) (Multiset.mem_add.mpr (.inl hx))
            rw [hs₂.rank_eq x (hs₁.counted.lt_nextNode hw)]
            exact (hnew x (Option.mem_toList.mp hx)).trans_lt hlow
          · exact hrest x hx

/-- What the children of a node are known to satisfy. -/
theorem Counted.children_low (hc : Counted roots h held rank) {child : List NodeId} (hchild : h.children n = child) :
    ∀ c ∈ child, c ∉ roots ∧ c < h.nextNode ∧ rank c < rank n := by
  intro c hcm
  rw [← hchild] at hcm
  obtain ⟨hroot, w, hw⟩ := hc.child hcm
  exact ⟨hroot, hc.lt_nextNode hw, hc.ranked n c hcm⟩

theorem deleteBranchFrozen_counted {deleteFrozen : NodeId → CFRange → Op (Option NodeId)}
    (hrec : ∀ h held rank n range, Counted roots h held rank → n ∉ roots →
      Ensures (deleteFrozen n range) h (DeleteCounted roots rank h held n))
    (hc : Counted roots h held rank) :
    Ensures (deleteBranchFrozen deleteFrozen storage n range) h (DeleteCounted roots rank h held n) := by
  rw [deleteBranchFrozen]
  refine ensures_bind (ensures_deref fun v hv => wp_ite.mpr ⟨fun _ => wp_pure.mpr (deleteCounted_none hc), fun _ => ?_⟩)
  refine ensures_bind (ensures_derefChildren fun v child hv hinfo => ?_)
  have hchild : h.children n = child := by
    rw [Heap.children_of_some hv, CFStorageNode.children, hinfo, Info.children]
  have hlt := hc.lt_nextNode hv
  refine ensures_bind ((ensures_populateBranchChildrenAfterDeletion hrec hc (hc.children_low hchild)).mono ?_)
  rintro newChildren h₁ ⟨rank₁, hs₁, hlow⟩
  have hs₁' := hs₁.mono (Nat.sub_le (rank n) 1)
  have hn₁ : n < h₁.nextNode := hlt.trans_le hs₁.next
  split
  · rename_i newChild
    have hx := hlow newChild List.mem_cons_self
    refine wp_pure.mpr ⟨rank₁, hs₁'.congr ?_, fun c hc' => ?_⟩
    · have hne : newChild ≠ n := by
        rintro rfl
        rw [hs₁.rank_eq newChild hlt] at hx
        exact Nat.lt_irrefl _ hx
      simp [retainedAfter, hne]
    · rw [Option.mem_some_iff] at hc'
      exact hc' ▸ hx.le
  · refine ensures_bind (wp_createNode.mpr ?_)
    have hs₂ := hs₁'.counted.create (v := CFStorageNode.new storage false 0) rfl rfl (rank n)
    set h₂ := h₁.create (CFStorageNode.new storage false 0) with hh₂
    set rank₂ := Function.update rank₁ h₁.nextNode (rank n) with hrank₂
    have hrank : rank₂ h₁.nextNode = rank n := Function.update_self _ _ _
    have hnil : h₂.children h₁.nextNode = [] := by
      rw [Heap.children_of_some Heap.create_nodes_self]
      rfl
    have hheld : h₁.nextNode ::ₘ ((newChildren : Multiset NodeId) + held) + (([] : List NodeId) : Multiset NodeId) =
        h₁.nextNode ::ₘ held + (newChildren : Multiset NodeId) := by
      rw [Multiset.coe_nil, add_zero]
      simp only [← Multiset.singleton_add]
      ac_rfl
    refine ensures_bind ((ensures_assignChildren hs₂.counted hnil hheld (fun c hcm => ?_) hrank.le).mono ?_)
    · obtain ⟨w, hw⟩ := hs₁.counted.exists_of_mem (n := c) (Multiset.mem_add.mpr (.inl hcm))
      rw [hrank, hs₂.rank_eq c (hs₁.counted.lt_nextNode hw)]
      exact hlow c hcm
    · rintro - h₃ ⟨hs₃, -, -⟩
      refine ensures_data_bind (P := (· = h₁.nextNode)) (ensures_assignNumBytes rfl) fun h₄ hd₄ => wp_pure.mpr ?_
      refine ⟨rank₂, ((hs₁'.trans hs₂).trans (hs₃.trans (hs₃.counted.data hd₄ fun m hm => ?_))).congr ?_, ?_⟩
      · rw [hm, hrank]
      · simp [retainedAfter, Nat.ne_of_gt hn₁]
      · simp [hrank]

theorem deleteFrozen_counted {depth : Nat} (hc : Counted roots h held rank) (hn : n ∉ roots) :
    Ensures (deleteFrozen storage depth n range) h (DeleteCounted roots rank h held n) := by
  induction depth generalizing h held rank n range with
  | zero => exact wp_outOfFuel.mpr not_false
  | succ depth ih =>
    rw [deleteFrozen]
    refine ensures_bind (ensures_deref fun v hv => ?_)
    split
    · exact deleteLeafFrozen_counted hc
    · exact deleteBranchFrozen_counted (fun _ _ _ _ _ hc hn => ih hc hn) hc

/-! ## Deletion in place -/

/-- A node is retained for the caller, a root is not. -/
theorem ensures_retainResult (hc : Counted roots h held rank) (hr : rank n ≤ r) :
    Ensures (retainNode n) h fun _ h' =>
      Step roots r rank h rank h' (retainedAfter roots n (some n) + held) := by
  by_cases hn : n ∈ roots
  · rw [retainNode]
    refine ensures_bind (ensures_deref fun v hv => ?_)
    rw [(hc.root n v hv hn).1, if_neg (Nat.lt_irrefl 0)]
    exact wp_pure.mpr (hc.step.congr (by simp [retainedAfter, hn]))
  · refine (ensures_retainNode hc hn hr).mono fun _ h₁ hs₁ => hs₁.congr ?_
    rw [retainedAfter_of_not_mem hn, Option.toList_some, Multiset.coe_singleton, Multiset.singleton_add]

/-- Nodes other than `n` have lost references, or are deallocated. -/
structure Dropped (n : NodeId) (h k : Heap) : Prop where
  next : k.nextNode = h.nextNode
  cache : k.cacheNode = h.cacheNode
  node : ∀ m, m ≠ n → k.nodes m = none ∨ ∃ v c, h.nodes m = some v ∧ k.nodes m = some { v with refCount := c }

theorem Dropped.refl : Dropped n h h where
  next := rfl
  cache := rfl
  node m _ := by
    cases hv : h.nodes m with
    | none => exact .inl rfl
    | some v => exact .inr ⟨v, v.refCount, rfl, rfl⟩

/-- The node `n` itself may be anything. -/
theorem Dropped.set {k : Heap} {x y : Option CFStorageNode} (hd : Dropped n h k) : Dropped n (h.set n x) (k.set n y) where
  next := hd.next
  cache := hd.cache
  node m hm := by
    rw [Heap.set_nodes_of_ne hm, Heap.set_nodes_of_ne hm]
    exact hd.node m hm

/-- The children of a node are released while it still has its slots, and the
node is then assigned: it may get children which the caller held. -/
theorem wp_releaseSlots {t : Prop} {E : Event → Prop} {newChildren : List NodeId} {depth : Nat} {v : CFStorageNode}
    (hc : Counted roots h ((newChildren : Multiset NodeId) + held) rank) (hv : h.nodes n = some v)
    (hdepth : t → rank n ≤ depth) :
    Wp t E (v.children.forM (releaseNode depth)) h fun _ k =>
      k.nodes n = some v ∧ Dropped n h k ∧ ∀ (v' : CFStorageNode) (rest : List NodeId), v'.refCount = v.refCount →
        (newChildren : Multiset NodeId) = v'.children + rest → (∀ c ∈ v'.children, rank c < rank n) →
        Step roots (rank n) rank h rank (k.set n (some v')) ((rest : Multiset NodeId) + held) := by
  have hlow : ∀ c ∈ v.children, rank c < rank n := fun c hcm =>
    hc.ranked n c (by rw [Heap.children_of_some hv]; exact hcm)
  by_cases hpos : 0 < rank n
  · set w : CFStorageNode := { v with info := .notLeaf [] } with hw
    -- the counts are right for the heap in which the slots are gone already
    have hc₁ : Counted roots (h.set n (some w))
        ((v.children : Multiset NodeId) + ((newChildren : Multiset NodeId) + held)) rank := by
      refine hc.setChildren hv rfl ?_ (by simp [hw, CFStorageNode.children, Info.children])
      show _ = _ + (([] : List NodeId) : Multiset NodeId)
      rw [Multiset.coe_nil, add_zero, add_comm]
    have hagree : AgreeOff (· = n) (h.set n (some w)) h := ⟨rfl, rfl, fun m hm => (Heap.set_record_of_ne hm).symm⟩
    have hchildren : ReleasesAs t E roots rank (rank n - 1) (v.children.forM (releaseNode depth)) v.children :=
      ReleasesAs.forM fun c hcm => (releaseNode_releases fun ht => by
        have := hlow c hcm
        have := hdepth ht
        omega).mono (by have := hlow c hcm; omega)
    have hrel := hchildren _ _ _ _ hc₁ hagree fun m hm => .inr (by rw [hm]; omega)
    refine hrel.mono ?_
    rintro - k ⟨h', hk, hkeep, hc', hrel'⟩
    have hkv : k.nodes n = some v := (Heap.nodes_of_record (hkeep n rfl)).trans hv
    have hn' : h'.nodes n = some w := by
      rw [hrel'.above n (by omega), Heap.set_nodes_self]
    refine ⟨hkv, ⟨hk.next.trans hrel'.next, hk.cache.trans hrel'.cache, fun m hm => ?_⟩,
      fun v' rest hcount hsplit hkept => ?_⟩
    · rw [Heap.nodes_of_record (hk.record m hm)]
      refine (hrel'.node m).imp_right ?_
      rintro ⟨u, c, hu, hu', -⟩
      exact ⟨u, c, (Heap.set_nodes_of_ne hm).symm.trans hu, hu'⟩
    have heq : k.set n (some v') = h'.set n (some v') := by
      refine Heap.ext_record hk.next hk.cache fun m => ?_
      by_cases hm : m = n
      · subst hm
        have hdealloc := congrArg Prod.snd (hkeep m rfl)
        refine Prod.ext (by rw [Heap.record, Heap.record, Heap.set_nodes_self, Heap.set_nodes_self])
          (hdealloc.trans ?_)
        exact (hc.allocated.deallocations_of_some hv).trans (hc'.allocated.deallocations_of_some hn').symm
      · rw [Heap.set_record_of_ne hm, Heap.set_record_of_ne hm, hk.record m hm]
    rw [heq]
    refine ⟨hc'.setChildren hn' hcount ?_ hkept, hrel'.next.ge, fun _ _ => rfl, fun m _ hm => ?_⟩
    · show (newChildren : Multiset NodeId) + held + (([] : List NodeId) : Multiset NodeId) = rest + held + v'.children
      rw [hsplit, Multiset.coe_nil, add_zero]
      ac_rfl
    · have hmn : m ≠ n := by
        rintro rfl
        exact Nat.lt_irrefl _ hm
      rw [Heap.set_nodes_of_ne hmn, hrel'.above m (by omega), Heap.set_nodes_of_ne hmn]
  · -- a node of rank 0 has no child
    have hnil : v.children = [] := List.eq_nil_iff_forall_not_mem.mpr fun c hcm => by
      have := hlow c hcm
      omega
    rw [hnil]
    refine wp_forM_nil.mpr ⟨hv, .refl, fun v' rest hcount hsplit hkept => ?_⟩
    refine ⟨hc.setChildren hv hcount ?_ hkept, le_rfl, fun _ _ => rfl, fun m _ hm => ?_⟩
    · rw [hnil, hsplit, Multiset.coe_nil, add_zero]
      ac_rfl
    · exact Heap.set_nodes_of_ne (by rintro rfl; exact Nat.lt_irrefl _ hm)

theorem wp_releaseChildren {t : Prop} {E : Event → Prop} {release : NodeId → Op Unit} {child : List NodeId}
    {Q : PUnit → Heap → Prop} (hne : t → child ≠ []) (hQ : Wp t E (child.forM release) h Q) :
    Wp t E (releaseChildren release child) h Q := by
  rw [releaseChildren, wp_bind]
  cases child with
  | nil => exact wp_halt.mpr fun ht => hne ht rfl
  | cons c tail =>
    rw [wp_childAt_of List.getElem?_cons_zero]
    exact wp_bind.mpr (wp_forM_cons.mp hQ)

theorem deleteUnfrozen_counted {delete : NodeId → CFRange → Op (Option NodeId)} {depth : Nat} {compact : Bool}
    (hrec : ∀ h held rank n range, Counted roots h held rank → n ∉ roots →
      Ensures (delete n range) h (DeleteCounted roots rank h held n))
    (hc : Counted roots h held rank) :
    Ensures (deleteUnfrozen delete (releaseNode depth) storage n range compact) h
      (DeleteCounted roots rank h held n) := by
  rw [deleteUnfrozen]
  refine ensures_bind (ensures_deref fun v hv => wp_ite.mpr ⟨fun _ => wp_pure.mpr (deleteCounted_none hc), fun _ => ?_⟩)
  have hlt := hc.lt_nextNode hv
  cases hinfo : v.info with
  | leaf leaf =>
    refine ensures_data_bind (P := (· = n)) (ensures_assignNumBytes rfl) fun h₁ hd₁ => ?_
    refine ensures_data_bind (P := (· = n)) (ensures_when fun _ => ?_) fun h₂ hd₂ => ?_
    · refine ensures_data_bind (P := (· = n)) (ensures_copyMem rfl) fun k₁ hk₁ => ?_
      exact (ensures_when (P := (· = n)) fun _ => ensures_allocLeafNodeMemory rfl).mono fun _ _ hk₂ => hk₁.trans hk₂
    · have hs₂ : Step roots (rank n) rank h rank h₂ held := hc.data (hd₁.trans hd₂) fun m hm => by rw [hm]
      refine ensures_bind ((ensures_retainResult hs₂.counted le_rfl).mono fun _ h₃ hs₃ => wp_pure.mpr ?_)
      exact ⟨rank, hs₂.trans hs₃, by simp⟩
  | notLeaf child =>
    have hchild : h.children n = child := by
      rw [Heap.children_of_some hv, CFStorageNode.children, hinfo, Info.children]
    refine ensures_bind ((ensures_populateBranchChildrenAfterDeletion hrec hc (hc.children_low hchild)).mono ?_)
    rintro newChildren h₁ ⟨rank₁, hs₁, hlow⟩
    have hnRank : rank₁ n = rank n := hs₁.rank_eq n hlt
    by_cases hpos : 0 < rank n
    · have hv₁ : h₁.nodes n = some v := (hs₁.above n hlt (by omega)).trans hv
      have hs₁' := hs₁.mono (Nat.sub_le (rank n) 1)
      rw [Ensures, wp_bind, wp_assignNumBytes_of hv₁, wp_bind]
      set v₂ : CFStorageNode := { v with numBytes := v.numBytes - range.length } with hv₂
      have hs₂ : Step roots (rank n) rank₁ h₁ rank₁ (h₁.set n (some v₂)) ((newChildren : Multiset NodeId) + held) :=
        hs₁.counted.data (DataStep.set (P := (· = n)) hv₁ rfl rfl rfl) fun m hm => by rw [hm, hnRank]
      have hslots : v₂.children = child := by rw [hv₂, CFStorageNode.children, hinfo, Info.children]
      rw [← hslots]
      refine (wp_releaseChildren False.elim (wp_releaseSlots hs₂.counted Heap.set_nodes_self False.elim)).mono ?_
      rintro - k ⟨hkv, -, hk⟩
      rw [hnRank] at hk
      split
      · rename_i newChild
        rw [wp_bind, wp_assignChildren_of hkv, wp_pure]
        have hs₃ := hk { v₂ with info := .notLeaf [] } [newChild] rfl (by simp [CFStorageNode.children, Info.children])
          (by simp [CFStorageNode.children, Info.children])
        have hx := hlow newChild List.mem_cons_self
        refine ⟨rank₁, ((hs₁'.trans hs₂).trans hs₃).congr ?_, fun c hcm => ?_⟩
        · have hne : newChild ≠ n := by
            rintro rfl
            rw [hnRank] at hx
            exact Nat.lt_irrefl _ hx
          simp [retainedAfter, hne]
        · rw [Option.mem_some_iff] at hcm
          exact hcm ▸ hx.le
      · rw [wp_bind, wp_assignChildren_of hkv, wp_bind]
        have hs₃ := hk { v₂ with info := .notLeaf newChildren } [] rfl (by simp [CFStorageNode.children, Info.children])
          hlow
        have hheld : held = ((([] : List NodeId) : Multiset NodeId) + held) := by simp
        have hs₃' := ((hs₁'.trans hs₂).trans hs₃).congr hheld
        refine (ensures_retainResult hs₃'.counted hnRank.le).mono fun _ h₄ hs₄ => wp_pure.mpr ?_
        exact ⟨rank₁, hs₃'.trans hs₄, by simp [hnRank]⟩
    · -- a branch of rank 0 has no child
      have hnil : child = [] := List.eq_nil_iff_forall_not_mem.mpr fun c hcm => by
        have := (hc.children_low hchild c hcm).2.2
        omega
      refine ensures_seq fun _ k => ?_
      rw [hnil, releaseChildren]
      refine ensures_bind (ensures_bind (ensures_childAt fun c hcm => ?_))
      cases hcm

/-- A branch whose only child is returned has no children any more. -/
theorem deleteUnfrozen_collapsed {delete : NodeId → CFRange → Op (Option NodeId)} {release : NodeId → Op Unit}
    {compact : Bool} : Ensures (deleteUnfrozen delete release storage n range compact) h
      fun result h' => ∀ c ∈ result, c ≠ n → h'.children n = [] := by
  rw [deleteUnfrozen]
  refine ensures_seq fun v k => wp_ite.mpr ⟨fun _ => wp_pure.mpr nofun, fun _ => ?_⟩
  split
  · refine ensures_seq fun _ _ => ensures_seq fun _ _ => ensures_seq fun _ _ => wp_pure.mpr ?_
    rintro c ⟨⟩ hne
    exact absurd rfl hne
  · refine ensures_seq fun newChildren _ => ensures_seq fun _ _ => ensures_seq fun _ k => ?_
    split
    · rw [assignChildren]
      refine ensures_bind (ensures_bind (ensures_deref fun w hw => wp_assign.mpr (wp_pure.mpr fun _ _ _ => ?_)))
      rw [Heap.children_of_some Heap.set_nodes_self]
      rfl
    · refine ensures_seq fun _ _ => ensures_seq fun _ _ => wp_pure.mpr ?_
      rintro c ⟨⟩ hne
      exact absurd rfl hne

theorem delete_counted {depth : Nat} {compact : Bool} (hc : Counted roots h held rank) (hn : n ∉ roots) :
    Ensures (delete storage compact depth n range) h (DeleteCounted roots rank h held n) := by
  induction depth generalizing h held rank n range with
  | zero => exact wp_outOfFuel.mpr not_false
  | succ depth ih =>
    rw [delete]
    refine ensures_staysFrozen_bind (deleteFrozen_counted hc hn) fun h₁ hd₁ => ?_
    have hs₁ : Step roots (rank n) rank h rank h₁ held := hc.data hd₁ fun m hm => by rw [hm]
    refine (deleteUnfrozen_counted (fun _ _ _ _ _ hc hn => ih hc hn) hs₁.counted).mono ?_
    rintro result h₂ ⟨rank₂, hs₂, hres⟩
    exact ⟨rank₂, hs₁.trans hs₂, hres⟩

end CFLite.Storage
