import CFLite.Storage.Counts

/-!
# Reference counts across an insertion

An insertion into a node keeps the reference counts exact: the caller holds
what it returns, except the node itself (`insert_counted`,
`insertUnfrozen_counted`).
-/

namespace CFLite.Storage

open Framework Run

variable {roots : List NodeId} {h h' : Heap} {held : Multiset NodeId} {rank : NodeId → Nat} {n : NodeId} {r : Nat}
  {P : NodeId → Prop}

/-! ## Results -/

/-- The references an insertion into `node` returns: none to `node` itself. -/
def DoubleNodeReturn.retained (result : DoubleNodeReturn) (node : NodeId) : Multiset NodeId :=
  (if result.child = node then 0 else {result.child}) + (result.sibling.toList : Multiset NodeId)

/-- The nodes an insertion returns. -/
def DoubleNodeReturn.nodes (result : DoubleNodeReturn) : List NodeId := result.child :: result.sibling.toList

/-- What an insertion into `n` that returned `result` did. -/
def InsertCounted (roots : List NodeId) (rank : NodeId → Nat) (h : Heap) (held : Multiset NodeId) (n : NodeId)
    (result : DoubleNodeReturn) (h' : Heap) : Prop :=
  ∃ rank', Step roots (rank n) rank h rank' h' (result.retained n + held) ∧
    ∀ c ∈ result.nodes, rank' c ≤ rank n

variable {storage : CFStorage} {byteNum size absoluteByteNum : Nat}

/-- The node stays, and a new leaf comes after it. -/
theorem insertCounted_of_new (hc : Counted roots h held rank) (hn : n < h.nextNode) {bytes : Nat}
    (hd : DataStep P (h.create (CFStorageNode.new storage true bytes)) h')
    (hP : ∀ m, P m → m = n ∨ m = h.nextNode) :
    InsertCounted roots rank h held n ⟨n, some h.nextNode⟩ h' := by
  have hstep := hc.create (v := CFStorageNode.new storage true bytes) rfl rfl (rank n)
  have hnew : Function.update rank h.nextNode (rank n) h.nextNode = rank n := Function.update_self _ _ _
  have hold : Function.update rank h.nextNode (rank n) n = rank n := hstep.rank_eq n hn
  refine ⟨_, (hstep.trans (hstep.counted.data hd fun m hm => ?_)).congr ?_, ?_⟩
  · rcases hP m hm with rfl | rfl
    · exact hold.le
    · exact hnew.le
  · simp [DoubleNodeReturn.retained]
  · simp [DoubleNodeReturn.nodes, hold]

theorem insertLeafUnfrozen_counted (hc : Counted roots h held rank) :
    Ensures (insertLeafUnfrozen storage n byteNum size absoluteByteNum) h (InsertCounted roots rank h held n) := by
  rw [insertLeafUnfrozen, Ensures, wp_bind]
  refine ensures_deref fun v hv => ?_
  rw [wp_bind, wp_derefLeaf]
  refine ⟨fun v' leaf hv' hl => ?_, False.elim⟩
  cases hv.symm.trans hv'
  have hlt := hc.lt_nextNode hv
  have hnil : ∀ bytes, (h.create (CFStorageNode.new storage true bytes)).children n = [] := by
    intro bytes
    rw [Heap.children_congr (Heap.create_nodes_of_ne (Nat.ne_of_lt hlt)), Heap.children_of_leaf hv hl]
  obtain ⟨S, hS⟩ : ∃ S : NodeId → Prop, S = fun m => m = n ∨ m = h.nextNode := ⟨_, rfl⟩
  have hold : S n := by simp [hS]
  have hnew : S h.nextNode := by simp [hS]
  have hboth : ∀ m, S m → m = n ∨ m = h.nextNode := fun m hm => by simpa [hS] using hm
  refine wp_ite.mpr ⟨fun _ => ?_, fun _ => ?_⟩
  · refine wp_ite.mpr ⟨fun _ => ?_, fun _ => wp_ite.mpr ⟨fun _ => ?_, fun _ => wp_ite.mpr ⟨fun _ => ?_, fun _ => ?_⟩⟩⟩
    · rw [wp_bind, wp_createNode]
      refine ensures_data_bind (ensures_setCache hnew) fun h₁ hd₁ => ?_
      exact wp_pure.mpr (insertCounted_of_new hc hlt hd₁ hboth)
    · rw [wp_bind, wp_createNode]
      refine ensures_data_bind (ensures_assignNumBytes hnew) fun h₁ hd₁ => ?_
      rw [Ensures, wp_bind]
      refine ensures_derefLeaf fun w leaf' hw hl' => ?_
      refine ensures_data_bind (ensures_assignLeaf (Heap.children_of_leaf hw hl') hnew) fun h₂ hd₂ => ?_
      refine ensures_data_bind (ensures_assignNumBytes hold) fun h₃ hd₃ => ?_
      have hd₃' := (hd₁.trans hd₂).trans hd₃
      refine ensures_data_bind (ensures_assignLeaf (hd₃'.children.trans (hnil _)) hold) fun h₄ hd₄ => ?_
      refine ensures_data_bind (ensures_setCache hold) fun h₅ hd₅ => ?_
      exact wp_pure.mpr (insertCounted_of_new hc hlt ((hd₃'.trans hd₄).trans hd₅) hboth)
    · rw [wp_bind, wp_createNode]
      refine ensures_data_bind (P := S) (ensures_when fun _ => ?_) fun h₁ hd₁ => ?_
      · refine ensures_data_bind (ensures_allocLeafNodeMemory hnew) fun k₁ hk₁ => ?_
        refine ensures_data_bind (ensures_copyMem hnew) fun k₂ hk₂ => ?_
        exact (ensures_allocLeafNodeMemory hold).mono fun _ _ hk₃ => (hk₁.trans hk₂).trans hk₃
      · refine ensures_data_bind (ensures_assignNumBytes hold) fun h₂ hd₂ => ?_
        refine ensures_data_bind (ensures_setCache hold) fun h₃ hd₃ => ?_
        exact wp_pure.mpr (insertCounted_of_new hc hlt ((hd₁.trans hd₂).trans hd₃) hboth)
    · rw [wp_bind, wp_createNode]
      refine ensures_data_bind (P := S) (ensures_when fun _ => ?_) fun h₁ hd₁ => ?_
      · refine ensures_data_bind (ensures_allocLeafNodeMemory hnew) fun k₁ hk₁ => ?_
        refine ensures_data_bind (ensures_copyMem hnew) fun k₂ hk₂ => ?_
        exact (ensures_allocLeafNodeMemory hold).mono fun _ _ hk₃ => (hk₁.trans hk₂).trans hk₃
      · refine ensures_data_bind (ensures_setCache hold) fun h₂ hd₂ => ?_
        refine ensures_data_bind (ensures_assignNumBytes hold) fun h₃ hd₃ => ?_
        exact wp_pure.mpr (insertCounted_of_new hc hlt ((hd₁.trans hd₂).trans hd₃) hboth)
  · obtain ⟨T, hT⟩ : ∃ T : NodeId → Prop, T = fun m => m = n := ⟨_, rfl⟩
    have hself : T n := by simp [hT]
    refine ensures_data_bind (P := T) (ensures_when fun _ => ?_) fun h₁ hd₁ => ?_
    · refine ensures_data_bind (ensures_allocLeafNodeMemory hself) fun k₁ hk₁ => ?_
      exact (ensures_copyMem hself).mono fun _ _ hk₂ => hk₁.trans hk₂
    · refine ensures_data_bind (ensures_assignNumBytes hself) fun h₂ hd₂ => ?_
      refine ensures_data_bind (ensures_setCache hself) fun h₃ hd₃ => ?_
      refine wp_pure.mpr ⟨rank, (hc.data ((hd₁.trans hd₂).trans hd₃) fun m hm => ?_).congr ?_, ?_⟩
      · rw [hT] at hm
        exact (congrArg rank hm).le
      · simp [DoubleNodeReturn.retained]
      · simp [DoubleNodeReturn.nodes]

theorem insertLeafFrozen_counted (hc : Counted roots h held rank) (hn : n ∉ roots) :
    Ensures (insertLeafFrozen storage n byteNum size absoluteByteNum) h (InsertCounted roots rank h held n) := by
  rw [insertLeafFrozen, Ensures, wp_bind]
  refine ensures_deref fun v hv => ?_
  rw [wp_bind]
  refine ensures_derefLeaf fun _ leaf _ _ => ?_
  have hlt := hc.lt_nextNode hv
  have hne : h.nextNode ≠ n := Nat.ne_of_gt hlt
  refine wp_ite.mpr ⟨fun _ => ?_, fun _ => wp_ite.mpr ⟨fun _ => ?_, fun _ => wp_ite.mpr ⟨fun _ => ?_, fun _ => ?_⟩⟩⟩
  · rw [wp_bind, wp_createNode]
    obtain ⟨S, hS⟩ : ∃ S : NodeId → Prop, S = fun m => m = h.nextNode := ⟨_, rfl⟩
    have hnew : S h.nextNode := by simp [hS]
    refine ensures_data_bind (P := S) (ensures_when fun _ => ?_) fun h₁ hd₁ => ?_
    · refine ensures_data_bind (ensures_allocLeafNodeMemory hnew) fun k₁ hk₁ => ?_
      refine ensures_data_bind (ensures_copyMem hnew) fun k₂ hk₂ => ?_
      exact (ensures_copyMem hnew).mono fun _ _ hk₃ => (hk₁.trans hk₂).trans hk₃
    · refine ensures_data_bind (ensures_setCache hnew) fun h₂ hd₂ => wp_pure.mpr ?_
      have hstep := hc.create (v := CFStorageNode.new storage true (size + v.numBytes)) rfl rfl (rank n)
      have hrank : Function.update rank h.nextNode (rank n) h.nextNode = rank n := Function.update_self _ _ _
      refine ⟨_, (hstep.trans (hstep.counted.data (hd₁.trans hd₂) fun m hm => ?_)).congr ?_, ?_⟩
      · rw [hS] at hm
        rw [hm, hrank]
      · simp [DoubleNodeReturn.retained, hne]
      · simp [DoubleNodeReturn.nodes]
  · rw [wp_bind, wp_createNode]
    obtain ⟨S, hS⟩ : ∃ S : NodeId → Prop, S = fun m => m = n ∨ m = h.nextNode := ⟨_, rfl⟩
    refine ensures_data_bind (P := S) (ensures_setCache (by simp [hS])) fun h₁ hd₁ => wp_pure.mpr ?_
    exact insertCounted_of_new hc hlt hd₁ fun m hm => by simpa [hS] using hm
  · rw [wp_bind]
    refine (ensures_retainNode hc hn le_rfl).mono fun _ h₁ hs₁ => ?_
    rw [wp_bind, wp_createNode]
    have hlt₁ : n < h₁.nextNode := hlt.trans_le hs₁.next
    obtain ⟨S, hS⟩ : ∃ S : NodeId → Prop, S = fun m => m = h₁.nextNode := ⟨_, rfl⟩
    refine ensures_data_bind (P := S) (ensures_setCache (by simp [hS])) fun h₂ hd₂ => wp_pure.mpr ?_
    have hstep := hs₁.counted.create (v := CFStorageNode.new storage true size) rfl rfl (rank n)
    have hrank : Function.update rank h₁.nextNode (rank n) h₁.nextNode = rank n := Function.update_self _ _ _
    refine ⟨_, ((hs₁.trans hstep).trans (hstep.counted.data hd₂ fun m hm => ?_)).congr ?_, ?_⟩
    · rw [hS] at hm
      rw [hm, hrank]
    · simp [DoubleNodeReturn.retained, Nat.ne_of_gt hlt₁]
    · simpa [DoubleNodeReturn.nodes] using (hstep.rank_eq n hlt₁).le
  · rw [wp_bind, wp_createNode, wp_bind, wp_createNode]
    set h₁ := h.create (CFStorageNode.new storage true storage.maxLeafCapacity) with hh₁
    obtain ⟨S, hS⟩ : ∃ S : NodeId → Prop, S = fun m => m = h.nextNode ∨ m = h₁.nextNode := ⟨_, rfl⟩
    have hleft : S h.nextNode := by simp [hS]
    have hright : S h₁.nextNode := by simp [hS]
    refine ensures_data_bind (ensures_allocLeafNodeMemory hleft) fun k₁ hk₁ => ?_
    refine ensures_data_bind (ensures_allocLeafNodeMemory hright) fun k₂ hk₂ => ?_
    refine ensures_data_bind (ensures_copyMem hleft) fun k₃ hk₃ => ?_
    refine ensures_data_bind (ensures_when fun _ => ensures_copyMem hleft) fun k₄ hk₄ => ?_
    refine ensures_data_bind (ensures_when fun _ => ensures_copyMem hright) fun k₅ hk₅ => ?_
    refine ensures_data_bind (ensures_setCache hleft) fun k₆ hk₆ => wp_pure.mpr ?_
    have hd := ((((hk₁.trans hk₂).trans hk₃).trans hk₄).trans hk₅).trans hk₆
    have hs₁ := hc.create (v := CFStorageNode.new storage true storage.maxLeafCapacity) rfl rfl (rank n)
    have hs₂ := hs₁.counted.create
      (v := CFStorageNode.new storage true (size + v.numBytes - storage.maxLeafCapacity)) rfl rfl (rank n)
    have hleftRank : Function.update (Function.update rank h.nextNode (rank n)) h₁.nextNode (rank n) h.nextNode
        = rank n := by
      rw [hs₂.rank_eq h.nextNode (Nat.lt_succ_self _), Function.update_self]
    have hrightRank : Function.update (Function.update rank h.nextNode (rank n)) h₁.nextNode (rank n) h₁.nextNode
        = rank n := Function.update_self _ _ _
    refine ⟨_, ((hs₁.trans hs₂).trans (hs₂.counted.data hd fun m hm => ?_)).congr ?_, ?_⟩
    · rw [hS] at hm
      rcases hm with rfl | rfl
      · exact hleftRank.le
      · exact hrightRank.le
    · simp only [DoubleNodeReturn.retained, if_neg hne, Option.toList_some, ← hh₁]
      simp only [Multiset.singleton_add, Multiset.coe_singleton, Multiset.cons_add]
      exact Multiset.cons_swap _ _ _
    · simp only [DoubleNodeReturn.nodes, Option.toList_some, List.mem_cons, List.not_mem_nil, or_false,
        forall_eq_or_imp, forall_eq]
      exact ⟨hleftRank.le, hrightRank.le⟩

/-- One child is replaced. -/
theorem coe_set_add {child : List NodeId} {i : Nat} {c : NodeId} (hi : child[i]? = some c) (x : NodeId) :
    ((child.set i x : List NodeId) : Multiset NodeId) + {c} = (child : Multiset NodeId) + {x} := by
  obtain ⟨hlt, rfl⟩ := List.getElem?_eq_some_iff.mp hi
  have h₁ := List.set_perm_cons_eraseIdx hlt x
  have h₂ := List.getElem_cons_eraseIdx_perm hlt
  rw [← Multiset.coe_eq_coe] at h₁ h₂
  rw [h₁, ← h₂, ← Multiset.cons_coe, ← Multiset.cons_coe, ← Multiset.singleton_add, ← Multiset.singleton_add]
  ac_rfl

/-- The children after an insertion into one of them. -/
theorem DoubleNodeReturn.newChildren_add {result : DoubleNodeReturn} {child : List NodeId} {i : Nat} {c : NodeId}
    (hi : child[i]? = some c) : (result.newChildren child i : Multiset NodeId) + {c} =
      (child : Multiset NodeId) + {result.child} + (result.sibling.toList : Multiset NodeId) := by
  have hlt := (List.getElem?_eq_some_iff.mp hi).1
  have hset := coe_set_add hi result.child
  cases hs : result.sibling with
  | none => simpa [newChildren, hs] using hset
  | some sibling =>
    have hlen : i + 1 ≤ (child.set i result.child).length := by
      rw [List.length_set]
      exact hlt
    have h₁ := List.perm_insertIdx sibling _ hlen
    rw [← Multiset.coe_eq_coe] at h₁
    simp only [newChildren, hs, Option.toList_some, Multiset.coe_singleton]
    rw [h₁, ← Multiset.cons_coe, ← Multiset.singleton_add, ← hset]
    ac_rfl

theorem DoubleNodeReturn.mem_newChildren {result : DoubleNodeReturn} {child : List NodeId} {i : Nat} {c x : NodeId}
    (hi : child[i]? = some c) (hx : x ∈ result.newChildren child i) : x ∈ child ∨ x ∈ result.nodes := by
  have hmem : x ∈ (result.newChildren child i : Multiset NodeId) + {c} := Multiset.mem_add.mpr (.inl hx)
  rw [newChildren_add hi, Multiset.mem_add, Multiset.mem_add] at hmem
  simp only [nodes, List.mem_cons]
  rcases hmem with (hm | hm) | hm
  · exact .inl hm
  · exact .inr (.inl (Multiset.mem_singleton.mp hm))
  · exact .inr (.inr hm)

/-- The part that insertions into a frozen branch share: the children are
retained, and one of them is replaced. -/
theorem insertBranchFrozen_children {result : DoubleNodeReturn} {child : List NodeId} {i depth : Nat} {c : NodeId}
    {α : Type} {f : Op α} {Q : α → Heap → Prop}
    (hc : Counted roots h (result.retained c + held) rank) (hchild : h.children n = child) (hi : child[i]? = some c)
    (hr : ∀ c ∈ child, rank c ≤ r)
    (hf : ∀ h', Step roots r rank h rank h' ((result.newChildren child i : Multiset NodeId) + held) →
      Ensures f h' Q) :
    Ensures (child.forM retainNode >>= fun _ => child.forM freezeNode >>= fun _ =>
      when (result.child ≠ c) (releaseNode depth c) >>= fun _ => f) h Q := by
  have hcm : c ∈ child := List.mem_of_getElem? hi
  have hadd : (result.newChildren child i : Multiset NodeId) + {c} =
      (child : Multiset NodeId) + {result.child} + (result.sibling.toList : Multiset NodeId) :=
    DoubleNodeReturn.newChildren_add hi
  rw [Ensures, wp_bind]
  refine (ensures_retainAll hc fun c' hc' => ⟨(hc.child (n := n) (hchild ▸ hc')).1, hr c' hc'⟩).mono fun _ h₁ hs₁ => ?_
  refine ensures_data_bind (P := (· ∈ child)) (ensures_freezeAll fun _ => id) fun h₂ hd₂ => ?_
  have hs₂ := hs₁.trans (hs₁.counted.data hd₂ hr)
  rw [Ensures, wp_bind, wp_when]
  refine ⟨fun hne => ?_, fun heq => hf h₂ (hs₂.congr ?_)⟩
  · have hheld : (child : Multiset NodeId) + (result.retained c + held) =
        c ::ₘ ((result.newChildren child i : Multiset NodeId) + held) := by
      rw [← Multiset.singleton_add, DoubleNodeReturn.retained, if_neg hne]
      calc _ = ((child : Multiset NodeId) + {result.child} + (result.sibling.toList : Multiset NodeId)) + held := by
            ac_rfl
        _ = _ := by
            rw [← hadd]
            ac_rfl
    refine (ensures_release (hs₂.counted.congr hheld.symm) (hr c hcm)).mono fun _ h₃ hs₃ => hf h₃ (hs₂.trans hs₃)
  · rw [not_not] at heq
    rw [heq] at hadd
    have hnew : (result.newChildren child i : Multiset NodeId) =
        (child : Multiset NodeId) + (result.sibling.toList : Multiset NodeId) := by
      refine add_right_cancel (b := ({c} : Multiset NodeId)) (hadd.trans ?_)
      ac_rfl
    rw [DoubleNodeReturn.retained, if_pos heq, zero_add, hnew, add_assoc]

/-- Two branches get four nodes as children. -/
theorem ensures_distribute {left right first second third fourth : NodeId} {old old' : List NodeId}
    {held₁ : Multiset NodeId} (hc : Counted roots h held rank) (hleft : h.children left = old)
    (hright : h.children right = old') (hne : right ≠ left)
    (hheld : held + (old : Multiset NodeId) = held₁ + ([first, second] : List NodeId))
    (hheld₁ : held₁ + (old' : Multiset NodeId) = held' + ([third, fourth] : List NodeId))
    (hleftRank : ∀ c ∈ [first, second], rank c < rank left)
    (hrightRank : ∀ c ∈ [third, fourth], rank c < rank right) (hr : rank left ≤ r ∧ rank right ≤ r) :
    Ensures (distribute left first second right third fourth) h fun _ h' => Step roots r rank h rank h' held' := by
  rw [distribute]
  refine ensures_bind ((ensures_assignChildren hc hleft hheld hleftRank hr.1).mono ?_)
  rintro - h₁ ⟨hs₁, -, hother₁⟩
  have hright₁ : h₁.children right = old' := (Heap.children_congr (hother₁ right hne)).trans hright
  refine ensures_bind ((ensures_assignChildren hs₁.counted hright₁ hheld₁ hrightRank hr.2).mono ?_)
  rintro - h₂ ⟨hs₂, -, -⟩
  obtain ⟨S, hS⟩ : ∃ S : NodeId → Prop, S = fun m => m = left ∨ m = right := ⟨_, rfl⟩
  refine ensures_bind (ensures_numBytes fun _ _ => ensures_bind (ensures_numBytes fun _ _ => ?_))
  refine ensures_data_bind (P := S) (ensures_assignNumBytes (by simp [hS])) fun h₃ hd₃ => ?_
  refine ensures_bind (ensures_numBytes fun _ _ => ensures_bind (ensures_numBytes fun _ _ => ?_))
  refine (ensures_assignNumBytes (P := S) (by simp [hS])).mono fun _ h₄ hd₄ => ?_
  refine (hs₁.trans hs₂).trans (hs₂.counted.data (hd₃.trans hd₄) fun m hm => ?_)
  rw [hS] at hm
  rcases hm with rfl | rfl
  · exact hr.1
  · exact hr.2

/-- A node below `n` is not `n`, and what is done below `n` leaves `n` as it is. -/
theorem Step.unchanged {h₁ h₂ : Heap} {rank₁ rank₂ : NodeId → Nat} {held₂ : Multiset NodeId}
    (hs : Step roots r rank₁ h₁ rank₂ h₂ held₂) (hn : n < h₁.nextNode) (hr : r < rank₁ n) :
    h₂.nodes n = h₁.nodes n ∧ rank₂ n = rank₁ n :=
  ⟨hs.above n hn hr, hs.rank_eq n hn⟩

theorem insertBranchFrozen_counted {insertFrozen : NodeId → Nat → Nat → Nat → Op DoubleNodeReturn} {depth : Nat}
    (hrec : ∀ h held rank n byteNum size absoluteByteNum, Counted roots h held rank → n ∉ roots →
      Ensures (insertFrozen n byteNum size absoluteByteNum) h (InsertCounted roots rank h held n))
    (hc : Counted roots h held rank) (hlt : n < h.nextNode) :
    Ensures (insertBranchFrozen insertFrozen (releaseNode depth) storage n byteNum size absoluteByteNum) h
      (InsertCounted roots rank h held n) := by
  rw [insertBranchFrozen, Ensures, wp_bind, wp_createNode]
  set h₁ := h.create (CFStorageNode.new storage false 0) with hh₁
  set copy := h.nextNode with hcopy
  have hs₁ := hc.create (v := CFStorageNode.new storage false 0) rfl rfl (rank n)
  have hcopyRank : Function.update rank h.nextNode (rank n) copy = rank n := Function.update_self _ _ _
  set rank₁ := Function.update rank h.nextNode (rank n) with hrank₁
  have hnRank : rank₁ n = rank n := hs₁.rank_eq n hlt
  have hcopy₁ : copy < h₁.nextNode := Nat.lt_succ_self _
  have hn₁ : n < h₁.nextNode := hlt.trans_le hs₁.next
  rw [wp_bind]
  refine ensures_findChild.mono ?_
  rintro ⟨c, i, relativeByteNum⟩ _ ⟨rfl, v, child, hv, hinfo, hi⟩
  have hchild₁ : h₁.children n = child := by
    rw [Heap.children_of_some hv, CFStorageNode.children, hinfo, Info.children]
  have hcm : c ∈ child := List.mem_of_getElem? hi
  have hlow : ∀ c ∈ child, rank₁ c < rank n := fun c' hc' => hnRank ▸ hs₁.counted.ranked n c' (hchild₁ ▸ hc')
  rw [wp_bind]
  refine (hrec h₁ _ rank₁ c _ _ _ hs₁.counted (hs₁.counted.child (n := n) (hchild₁ ▸ hcm)).1).mono ?_
  rintro result h₂ ⟨rank₂, hs₂, hres⟩
  obtain ⟨hn₂, hnRank₂⟩ := hs₂.unchanged hn₁ (hnRank ▸ hlow c hcm)
  obtain ⟨hcopy₂, hcopyRank₂⟩ := hs₂.unchanged hcopy₁ (hcopyRank ▸ hlow c hcm)
  rw [wp_bind, wp_derefChildren_of (hn₂.trans hv) hinfo]
  have hchildren : ∀ c ∈ child, c < h₁.nextNode := fun c' hc' => by
    obtain ⟨-, w, hw⟩ := hs₁.counted.child (n := n) (hchild₁ ▸ hc')
    exact hs₁.counted.lt_nextNode hw
  have hlow₂ : ∀ c ∈ child, rank₂ c ≤ rank n - 1 := fun c' hc' => by
    rw [hs₂.rank_eq c' (hchildren c' hc')]
    have := hlow c' hc'
    omega
  refine insertBranchFrozen_children hs₂.counted (n := n) ?_ hi hlow₂ fun h₃ hs₃ => ?_
  · rw [Heap.children_congr hn₂, hchild₁]
  · have hpos : rank n - 1 < rank n := by
      have := hlow c hcm
      omega
    have hcopy₃ := hs₃.unchanged (hcopy₁.trans_le hs₂.next) (by rw [hcopyRank₂, hcopyRank]; exact hpos)
    have hs := (hs₁.trans (hs₂.mono (hlow c hcm).le)).trans (hs₃.mono hpos.le)
    have hcopyChildren : h₃.children copy = [] := by
      rw [Heap.children_congr hcopy₃.1, Heap.children_congr hcopy₂,
        Heap.children_of_some (Heap.create_nodes_self (v := CFStorageNode.new storage false 0))]
      rfl
    have hcopyRank₃ : rank₂ copy = rank n := hcopyRank₂.trans hcopyRank
    have hcopy₃' : copy < h₃.nextNode := (hcopy₁.trans_le hs₂.next).trans_le hs₃.next
    have hnew : ∀ x ∈ result.newChildren child i, rank₂ x < rank n := by
      intro x hx
      rcases DoubleNodeReturn.mem_newChildren hi hx with hx | hx
      · exact (hlow₂ x hx).trans_lt hpos
      · exact (hres x hx).trans_lt (hlow c hcm)
    have hne : copy ≠ n := Nat.ne_of_gt hlt
    split
    · rename_i first second third fourth hfour
      rw [hfour] at hs hnew
      refine ensures_bind (wp_createNode.mpr ?_)
      have hs₄ := hs.counted.create (v := CFStorageNode.new storage false 0) rfl rfl (rank n)
      set sibling := h₃.nextNode with hsibling
      set rank₄ := Function.update rank₂ sibling (rank n) with hrank₄
      have hsiblingRank : rank₄ sibling = rank n := Function.update_self _ _ _
      have hcopyRank₄ : rank₄ copy = rank n := (hs₄.rank_eq copy hcopy₃').trans hcopyRank₃
      have hrank : ∀ x ∈ [first, second, third, fourth], rank₄ x < rank n := by
        intro x hx
        obtain ⟨w, hw⟩ := hs.counted.exists_of_mem (n := x) (Multiset.mem_add.mpr (.inl hx))
        rw [hs₄.rank_eq x (hs.counted.lt_nextNode hw)]
        exact hnew x hx
      have hcopy₄ : (h₃.create (CFStorageNode.new storage false 0)).children copy = [] := by
        rw [Heap.children_congr (Heap.create_nodes_of_ne (Nat.ne_of_lt hcopy₃')), hcopyChildren]
      have hsibling₄ : (h₃.create (CFStorageNode.new storage false 0)).children sibling = [] := by
        rw [Heap.children_of_some Heap.create_nodes_self]
        rfl
      have hpairs : (([first, second, third, fourth] : List NodeId) : Multiset NodeId) =
          (([first, second] : List NodeId) : Multiset NodeId) + ([third, fourth] : List NodeId) := rfl
      have hheld : sibling ::ₘ ((([first, second, third, fourth] : List NodeId) : Multiset NodeId) + (copy ::ₘ held)) +
          (([] : List NodeId) : Multiset NodeId) =
          (sibling ::ₘ ((([third, fourth] : List NodeId) : Multiset NodeId) + (copy ::ₘ held))) +
            ([first, second] : List NodeId) := by
        rw [hpairs, Multiset.coe_nil, add_zero]
        simp only [← Multiset.singleton_add]
        ac_rfl
      have hheld' : (sibling ::ₘ ((([third, fourth] : List NodeId) : Multiset NodeId) + (copy ::ₘ held))) +
          (([] : List NodeId) : Multiset NodeId) = (sibling ::ₘ copy ::ₘ held) + ([third, fourth] : List NodeId) := by
        rw [Multiset.coe_nil, add_zero]
        simp only [← Multiset.singleton_add]
        ac_rfl
      refine ensures_bind ((ensures_distribute hs₄.counted hcopy₄ hsibling₄ (Nat.ne_of_gt hcopy₃') hheld hheld'
        (fun x hx => ?_) (fun x hx => ?_) ⟨hcopyRank₄.le, hsiblingRank.le⟩).mono fun _ h₅ hs₅ => wp_pure.mpr ?_)
      · rw [hcopyRank₄]
        exact hrank x (List.mem_append_left [third, fourth] hx)
      · rw [hsiblingRank]
        exact hrank x (List.mem_append_right [first, second] hx)
      · refine ⟨rank₄, ((hs.trans hs₄).trans hs₅).congr ?_, ?_⟩
        · rw [DoubleNodeReturn.retained, if_neg hne, Option.toList_some, Multiset.coe_singleton]
          simp only [← Multiset.singleton_add]
          ac_rfl
        · simp [DoubleNodeReturn.nodes, hcopyRank₄, hsiblingRank]
    · have hheld : ((result.newChildren child i : List NodeId) : Multiset NodeId) + (copy ::ₘ held) +
          (([] : List NodeId) : Multiset NodeId) = copy ::ₘ held + (result.newChildren child i : List NodeId) := by
        rw [Multiset.coe_nil, add_zero, add_comm]
      refine ensures_bind ((ensures_assignChildren hs.counted hcopyChildren hheld (fun x hx => ?_)
        hcopyRank₃.le).mono ?_)
      · rw [hcopyRank₃]
        exact hnew x hx
      · rintro - h₄ ⟨hs₄, -, -⟩
        obtain ⟨S, hS⟩ : ∃ S : NodeId → Prop, S = fun m => m = copy := ⟨_, rfl⟩
        refine ensures_bind (ensures_numBytes fun _ _ => ?_)
        refine ensures_data_bind (P := S) (ensures_assignNumBytes (by simp [hS])) fun h₅ hd₅ => wp_pure.mpr ?_
        refine ⟨rank₂, ((hs.trans hs₄).trans (hs₄.counted.data hd₅ fun m hm => ?_)).congr ?_, ?_⟩
        · rw [hS] at hm
          rw [hm, hcopyRank₃]
        · simp [DoubleNodeReturn.retained, hne]
        · simp [DoubleNodeReturn.nodes, hcopyRank₃]

theorem insertFrozen_counted {depth : Nat} (hc : Counted roots h held rank) (hn : n ∉ roots) :
    Ensures (insertFrozen storage depth n byteNum size absoluteByteNum) h (InsertCounted roots rank h held n) := by
  induction depth generalizing h held rank n byteNum size absoluteByteNum with
  | zero => exact wp_outOfFuel.mpr not_false
  | succ depth ih =>
    rw [insertFrozen, Ensures, wp_bind]
    refine ensures_deref fun v hv => ?_
    split
    · exact insertLeafFrozen_counted hc hn
    · exact insertBranchFrozen_counted (fun _ _ _ _ _ _ _ hc hn => ih hc hn) hc (hc.lt_nextNode hv)

/-- A child is released, and its slot gets another node. -/
theorem ensures_replaceChild {c x : NodeId} {child : List NodeId} {i depth : Nat} {v : CFStorageNode}
    (hc : Counted roots h (x ::ₘ held) rank) (hv : h.nodes n = some v) (hinfo : v.info = .notLeaf child)
    (hi : child[i]? = some c) (hx : rank x < rank n) :
    Ensures (releaseNode depth c >>= fun _ => setChild n i x) h fun _ h' =>
      Step roots (rank n) rank h rank h' held ∧
        h'.nodes n = some { v with info := .notLeaf (child.set i x) } := by
  have hchildren : v.children = child := by rw [CFStorageNode.children, hinfo, Info.children]
  have hrank : ∀ c ∈ child, rank c < rank n := fun c' hc' =>
    hc.ranked n c' (by rw [Heap.children_of_some hv, hchildren]; exact hc')
  set v' : CFStorageNode := { v with info := .notLeaf (child.set i x) } with hv'
  have hset := coe_set_add hi x
  -- the slot is changed after the release: the counts are right for the heap in which it is changed already
  have hc₁ : Counted roots (h.set n (some v')) ({c} + held) rank := by
    refine hc.setChildren hv rfl ?_ fun c' hc' => ?_
    · rw [hchildren]
      show x ::ₘ held + (child : Multiset NodeId) = {c} + held + ((child.set i x : List NodeId) : Multiset NodeId)
      calc x ::ₘ held + (child : Multiset NodeId) = (child : Multiset NodeId) + {x} + held := by
            rw [← Multiset.singleton_add]
            ac_rfl
        _ = _ := by
            rw [← hset]
            ac_rfl
    · rcases List.mem_or_eq_of_mem_set hc' with hm | rfl
      · exact hrank c' hm
      · exact hx
  have hagree : AgreeOff (· = n) (h.set n (some v')) h := ⟨rfl, rfl, fun m hm => (Heap.set_record_of_ne hm).symm⟩
  have hlow : rank c < rank n := hrank _ (List.mem_of_getElem? hi)
  have hrel : ReleasesAs False (fun _ => True) roots rank (rank c) (releaseNode depth c) {c} :=
    releaseNode_releases False.elim
  refine ensures_bind ((hrel _ _ _ _ hc₁ hagree fun m hm => .inr (hm ▸ hlow)).mono ?_)
  rintro - k' ⟨h', hk', hkeep, hc', hrel'⟩
  have hkv : k'.nodes n = some v := (Heap.nodes_of_record (hkeep n rfl)).trans hv
  rw [setChild, Ensures, wp_bind, wp_derefChildren_of hkv hinfo, wp_assignChildren_of hkv]
  have heq : k'.set n (some v') = h' := by
    refine Heap.ext_record hk'.next hk'.cache fun m => ?_
    by_cases hm : m = n
    · subst hm
      have hnode : h'.nodes m = some v' := by rw [hrel'.above m hlow, Heap.set_nodes_self]
      have hlt := hc.lt_nextNode hv
      have hcount := congrArg Prod.snd (hkeep m rfl)
      refine Prod.ext (by rw [Heap.record, Heap.record, Heap.set_nodes_self, hnode]) (hcount.trans ?_)
      exact (hc.allocated.deallocations_of_some hv).trans (hc'.allocated.deallocations_of_some hnode).symm
    · rw [Heap.set_record_of_ne hm, hk'.record m hm]
  rw [← hv', heq]
  refine ⟨⟨hc', hrel'.next.ge, fun _ _ => rfl, fun m _ hm => ?_⟩, ?_⟩
  · rw [hrel'.above m (hlow.trans hm), Heap.set_nodes_of_ne (by rintro rfl; exact Nat.lt_irrefl _ hm)]
  · rw [hrel'.above n hlow, Heap.set_nodes_self]

/-- A branch that is split keeps its children and the new one. -/
theorem splitPlacement_children (childNum : Nat) (second third newChild : NodeId) :
    ([(splitPlacement childNum second third newChild).1] : Multiset NodeId) +
      ([(splitPlacement childNum second third newChild).2.1, (splitPlacement childNum second third newChild).2.2] :
        List NodeId) = {newChild} + ([second, third] : List NodeId) := by
  unfold splitPlacement
  split
  · rfl
  · exact Multiset.coe_eq_coe.mpr (List.Perm.swap _ _ _)
  · exact Multiset.coe_eq_coe.mpr (((List.Perm.swap _ _ _).cons _).trans (List.Perm.swap _ _ _))

theorem insertBranchUnfrozen_counted {insert : NodeId → Nat → Nat → Nat → Op DoubleNodeReturn} {depth : Nat}
    (hrec : ∀ h held rank n byteNum size absoluteByteNum, Counted roots h held rank → n ∉ roots →
      Ensures (insert n byteNum size absoluteByteNum) h (InsertCounted roots rank h held n))
    (hc : Counted roots h held rank) :
    Ensures (insertBranchUnfrozen insert (releaseNode depth) storage n byteNum size absoluteByteNum) h
      (InsertCounted roots rank h held n) := by
  rw [insertBranchUnfrozen, Ensures, wp_bind]
  refine ensures_findChild.mono ?_
  rintro ⟨c, i, relativeByteNum⟩ k ⟨hk, v, child, hv, hinfo, hi⟩
  subst k
  replace hi : child[i]? = some c := hi
  have hlt := hc.lt_nextNode hv
  have hchild : h.children n = child := by
    rw [Heap.children_of_some hv, CFStorageNode.children, hinfo, Info.children]
  have hcm : c ∈ h.children n := hchild ▸ List.mem_of_getElem? hi
  have hlow : rank c < rank n := hc.ranked n c hcm
  rw [wp_bind]
  refine (hrec h _ rank c _ _ _ hc (hc.child hcm).1).mono ?_
  rintro result h₁ ⟨rank₁, hs₁, hres⟩
  obtain ⟨hn₁, hnRank₁⟩ := hs₁.unchanged hlt hlow
  have hv₁ := hn₁.trans hv
  set v₂ : CFStorageNode := { v with info := .notLeaf (child.set i result.child) } with hv₂
  have hreplace : Ensures (when (result.child ≠ c)
      (releaseNode depth c >>= fun _ => setChild n i result.child)) h₁ fun _ h₂ =>
      Step roots (rank n) rank₁ h₁ rank₁ h₂ ((result.sibling.toList : Multiset NodeId) + held) ∧
        h₂.nodes n = some v₂ := by
    refine wp_when.mpr ⟨fun hne => ?_, fun heq => ?_⟩
    · have hheld : result.child ::ₘ ((result.sibling.toList : Multiset NodeId) + held) = result.retained c + held := by
        rw [DoubleNodeReturn.retained, if_neg hne, ← Multiset.singleton_add]
        ac_rfl
      have hx : rank₁ result.child < rank₁ n := by
        rw [hnRank₁]
        exact (hres result.child List.mem_cons_self).trans_lt hlow
      rw [← hnRank₁]
      exact ensures_replaceChild (hs₁.counted.congr hheld) hv₁ hinfo hi hx
    · rw [not_not] at heq
      refine ⟨(hs₁.counted.congr ?_).step, ?_⟩
      · rw [DoubleNodeReturn.retained, if_pos heq, zero_add]
      · obtain ⟨_, rfl⟩ := List.getElem?_eq_some_iff.mp hi
        rw [hv₁, hv₂, heq, List.set_getElem_self, ← hinfo]
  rw [wp_bind]
  refine hreplace.mono ?_
  rintro - h₂ ⟨hs₂, hv₂'⟩
  have hs := (hs₁.mono hlow.le).trans hs₂
  obtain ⟨S, hS⟩ : ∃ S : NodeId → Prop, S = fun m => m = n := ⟨_, rfl⟩
  have hself : S n := by simp [hS]
  have hdata : ∀ m, S m → rank₁ m ≤ rank n := by
    intro m hm
    rw [hS] at hm
    rw [hm, hnRank₁]
  cases hsib : result.sibling with
  | none =>
    rw [hsib] at hs
    refine ensures_bind (ensures_numBytes fun _ _ => ?_)
    refine ensures_data_bind (ensures_assignNumBytes hself) fun h₃ hd₃ => wp_pure.mpr ?_
    refine ⟨rank₁, (hs.trans (hs.counted.data hd₃ hdata)).congr ?_, ?_⟩
    · simp [DoubleNodeReturn.retained]
    · simp [DoubleNodeReturn.nodes, hnRank₁]
  | some newChild =>
    rw [hsib] at hs
    have hheld : newChild ::ₘ held = ((some newChild).toList : Multiset NodeId) + held := by
      rw [Option.toList_some, Multiset.coe_singleton, Multiset.singleton_add]
    have hs' := hs.congr hheld
    have hchild₂ : h₂.children n = child.set i result.child := Heap.children_of_some hv₂'
    have hrank₂ : ∀ x ∈ newChild :: child.set i result.child, rank₁ x < rank n := by
      intro x hx
      rcases List.mem_cons.mp hx with rfl | hx
      · exact (hres x (by simp [DoubleNodeReturn.nodes, hsib])).trans_lt hlow
      · rw [← hnRank₁]
        exact hs.counted.ranked n x (hchild₂ ▸ hx)
    rw [wp_bind, wp_derefChildren_of hv₂' rfl]
    split
    · rename_i first second third hthree
      rw [hthree] at hchild₂ hrank₂
      refine ensures_bind (wp_createNode.mpr ?_)
      have hs₃ := hs'.counted.create (v := CFStorageNode.new storage false 0) rfl rfl (rank n)
      set h₃ := h₂.create (CFStorageNode.new storage false 0) with hh₃
      set anotherNode := h₂.nextNode with hanother
      set rank₃ := Function.update rank₁ anotherNode (rank n) with hrank₃
      have hn₂ : n < h₂.nextNode := hlt.trans_le hs.next
      have hne : anotherNode ≠ n := Nat.ne_of_gt hn₂
      have hanotherRank : rank₃ anotherNode = rank n := Function.update_self _ _ _
      have hnRank₃ : rank₃ n = rank n := (hs₃.rank_eq n hn₂).trans hnRank₁
      have hchild₃ : h₃.children n = [first, second, third] :=
        (Heap.children_congr (Heap.create_nodes_of_ne hne.symm)).trans hchild₂
      have hanother₃ : h₃.children anotherNode = [] := by
        rw [Heap.children_of_some Heap.create_nodes_self]
        rfl
      have hlow₃ : ∀ x, (x ∈ ({newChild} : Multiset NodeId) ∨ x = first ∨ x ∈ [second, third]) → rank₃ x < rank n := by
        intro x hx
        have hmem : x ∈ newChild :: [first, second, third] := by
          simpa [or_assoc] using hx
        have hlive : ∃ w, h₂.nodes x = some w := by
          rcases List.mem_cons.mp hmem with rfl | hx
          · exact hs'.counted.exists_of_mem (Multiset.mem_cons_self _ _)
          · exact (hs'.counted.child (n := n) (hchild₂ ▸ hx)).2
        obtain ⟨w, hw⟩ := hlive
        rw [hs₃.rank_eq x (hs'.counted.lt_nextNode hw)]
        exact hrank₂ x hmem
      have hplace := splitPlacement_children i second third newChild
      generalize splitPlacement i second third newChild = placed at hplace ⊢
      obtain ⟨last, moved₀, moved₁⟩ := placed
      replace hplace : (([last] : List NodeId) : Multiset NodeId) + ([moved₀, moved₁] : List NodeId) =
        {newChild} + ([second, third] : List NodeId) := hplace
      have hmem : ∀ x ∈ [last, moved₀, moved₁], x ∈ ({newChild} : Multiset NodeId) ∨ x = first ∨ x ∈ [second, third] := by
        intro x hx
        have hx' : x ∈ (([last] : List NodeId) : Multiset NodeId) + ([moved₀, moved₁] : List NodeId) := hx
        rw [hplace, Multiset.mem_add] at hx'
        exact hx'.imp_right .inr
      have hheld₃ : anotherNode ::ₘ newChild ::ₘ held + ([first, second, third] : List NodeId) =
          (anotherNode ::ₘ held + ([moved₀, moved₁] : List NodeId)) + ([first, last] : List NodeId) := by
        have h₁ : (([first, second, third] : List NodeId) : Multiset NodeId) =
          {first} + ([second, third] : List NodeId) := rfl
        have h₂ : (([first, last] : List NodeId) : Multiset NodeId) = {first} + ([last] : List NodeId) := rfl
        rw [h₁, h₂]
        simp only [← Multiset.singleton_add]
        calc _ = {anotherNode} + held + {first} + ({newChild} + (([second, third] : List NodeId) : Multiset NodeId)) := by
              ac_rfl
          _ = _ := by
              rw [← hplace]
              ac_rfl
      have hheld₄ : (anotherNode ::ₘ held + (([moved₀, moved₁] : List NodeId) : Multiset NodeId)) +
          (([] : List NodeId) : Multiset NodeId) = (anotherNode ::ₘ held) + ([moved₀, moved₁] : List NodeId) := by
        rw [Multiset.coe_nil, add_zero]
      refine ensures_bind ((ensures_distribute hs₃.counted hchild₃ hanother₃ hne hheld₃ hheld₄ (fun x hx => ?_)
        (fun x hx => ?_) ⟨hnRank₃.le, hanotherRank.le⟩).mono fun _ h₄ hs₄ => wp_pure.mpr ?_)
      · rw [hnRank₃]
        rcases List.mem_cons.mp hx with rfl | hx
        · exact hlow₃ x (.inr (.inl rfl))
        · exact hlow₃ x (hmem x (List.mem_append_left [moved₀, moved₁] hx))
      · rw [hanotherRank]
        exact hlow₃ x (hmem x (List.mem_append_right [last] hx))
      · refine ⟨rank₃, ((hs'.trans hs₃).trans hs₄).congr ?_, ?_⟩
        · simp [DoubleNodeReturn.retained]
        · simp [DoubleNodeReturn.nodes, hnRank₃, hanotherRank]
    · have hlen : i + 1 ≤ (child.set i result.child).length := by
        rw [List.length_set]
        exact (List.getElem?_eq_some_iff.mp hi).1
      have hperm := List.perm_insertIdx newChild (child.set i result.child) hlen
      have hheld : newChild ::ₘ held + ((child.set i result.child : List NodeId) : Multiset NodeId) =
          held + (((child.set i result.child).insertIdx (i + 1) newChild : List NodeId) : Multiset NodeId) := by
        rw [Multiset.coe_eq_coe.mpr hperm, ← Multiset.cons_coe]
        simp only [← Multiset.singleton_add]
        ac_rfl
      refine ensures_bind ((ensures_assignChildren hs'.counted hchild₂ hheld (fun x hx => ?_) hnRank₁.le).mono ?_)
      · rw [hnRank₁]
        exact hrank₂ x (hperm.mem_iff.mp hx)
      · rintro - h₃ ⟨hs₃, -, -⟩
        refine ensures_bind (ensures_numBytes fun _ _ => ?_)
        refine ensures_data_bind (ensures_assignNumBytes hself) fun h₄ hd₄ => wp_pure.mpr ?_
        refine ⟨rank₁, ((hs'.trans hs₃).trans (hs₃.counted.data hd₄ hdata)).congr ?_, ?_⟩
        · simp [DoubleNodeReturn.retained]
        · simp [DoubleNodeReturn.nodes, hnRank₁]

theorem insertUnfrozen_counted {insert : NodeId → Nat → Nat → Nat → Op DoubleNodeReturn} {depth : Nat}
    (hrec : ∀ h held rank n byteNum size absoluteByteNum, Counted roots h held rank → n ∉ roots →
      Ensures (insert n byteNum size absoluteByteNum) h (InsertCounted roots rank h held n))
    (hc : Counted roots h held rank) :
    Ensures (insertUnfrozen insert (releaseNode depth) storage n byteNum size absoluteByteNum) h
      (InsertCounted roots rank h held n) := by
  rw [insertUnfrozen, Ensures, wp_bind]
  refine ensures_deref fun v hv => ?_
  split
  · exact insertLeafUnfrozen_counted hc
  · exact insertBranchUnfrozen_counted hrec hc

/-- An insertion in place returns the node itself. -/
theorem insertUnfrozen_child {insert : NodeId → Nat → Nat → Nat → Op DoubleNodeReturn} {release : NodeId → Op Unit} :
    Ensures (insertUnfrozen insert release storage n byteNum size absoluteByteNum) h
      fun result _ => result.child = n := by
  rw [insertUnfrozen]
  refine ensures_seq fun v k => ?_
  split
  · rw [insertLeafUnfrozen]
    refine ensures_seq fun v k => ensures_seq fun leaf k => wp_ite.mpr ⟨fun _ => ?_, fun _ => ?_⟩
    · refine wp_ite.mpr ⟨fun _ => ?_, fun _ => wp_ite.mpr ⟨fun _ => ?_, fun _ => wp_ite.mpr ⟨fun _ => ?_, fun _ => ?_⟩⟩⟩
      · exact ensures_seq fun _ _ => ensures_seq fun _ _ => wp_pure.mpr rfl
      · iterate 7 refine ensures_seq fun _ _ => ?_
        exact wp_pure.mpr rfl
      · iterate 4 refine ensures_seq fun _ _ => ?_
        exact wp_pure.mpr rfl
      · iterate 4 refine ensures_seq fun _ _ => ?_
        exact wp_pure.mpr rfl
    · iterate 3 refine ensures_seq fun _ _ => ?_
      exact wp_pure.mpr rfl
  · rw [insertBranchUnfrozen]
    refine ensures_seq fun found k => ensures_seq fun newNodes k => ensures_seq fun _ k => ?_
    split
    · exact ensures_seq fun _ _ => ensures_seq fun _ _ => wp_pure.mpr rfl
    · refine ensures_seq fun child k => ?_
      split
      · exact ensures_seq fun _ _ => ensures_seq fun _ _ => wp_pure.mpr rfl
      · exact ensures_seq fun _ _ => ensures_seq fun _ _ => ensures_seq fun _ _ => wp_pure.mpr rfl

/-- A node that is not unfrozen is left as it is. -/
theorem ensures_staysFrozen_bind {α : Type} {x y : Op α} {Q : α → Heap → Prop}
    (hx : Ensures x h Q) (hy : ∀ h', DataStep (· = n) h h' → Ensures y h' Q) :
    Ensures (staysFrozen n >>= fun b => if b = true then x else y) h Q := by
  cases hv : h.nodes n with
  | none =>
    rw [Ensures, wp_bind, staysFrozen, wp_bind, wp_deref]
    simp [hv]
  | some v =>
    rw [Ensures, wp_bind, wp_staysFrozen_of hv]
    split
    · simpa using hx
    · split
      · simpa using hy (h.set n (some { v with isFrozen := false })) (DataStep.set hv rfl rfl rfl)
      · simpa using hy h .refl

theorem insert_counted {depth : Nat} (hc : Counted roots h held rank) (hn : n ∉ roots) :
    Ensures (insert storage depth n byteNum size absoluteByteNum) h (InsertCounted roots rank h held n) := by
  induction depth generalizing h held rank n byteNum size absoluteByteNum with
  | zero => exact wp_outOfFuel.mpr not_false
  | succ depth ih =>
    rw [insert]
    refine ensures_staysFrozen_bind (insertFrozen_counted hc hn) fun h₁ hd₁ => ?_
    have hs₁ : Step roots (rank n) rank h rank h₁ held := hc.data hd₁ fun m hm => by rw [hm]
    refine (insertUnfrozen_counted (fun _ _ _ _ _ _ _ hc hn => ih hc hn) hs₁.counted).mono ?_
    rintro result h₂ ⟨rank₂, hs₂, hres⟩
    exact ⟨rank₂, hs₁.trans hs₂, hres⟩

end CFLite.Storage
