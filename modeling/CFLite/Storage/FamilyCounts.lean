import CFLite.Storage.DeleteCounts

/-!
# Reference counts of a family of storages

Between two calls of a client nobody but the child slots holds a reference,
and the reference counts are exact.

* `insertValues_counted`, `deleteValues_counted`, …: each function keeps the
  counts;
* `Reachable.counted`: they are exact in every state that calls lead to;
* `referenceCounts_exact`: the same in terms of nodes and slots.
-/

namespace CFLite.Storage

open Framework Run

variable {roots roots' : List NodeId} {h h' : Heap} {held : Multiset NodeId} {rank : NodeId → Nat} {n : NodeId}
  {P : NodeId → Prop} {v : CFStorageNode} {storage : CFStorage} {depth : Nat}

/-! ## Roots -/

namespace Counted

theorem congr_roots (hc : Counted roots h held rank) (hroots : ∀ m, m ∈ roots' ↔ m ∈ roots) :
    Counted roots' h held rank where
  allocated := hc.allocated
  dead m hm := by
    rw [hroots]
    exact hc.dead m hm
  root m v hv hm := hc.root m v hv ((hroots m).mp hm)
  count m v hv hm := hc.count m v hv (mt (hroots m).mpr hm)
  ranked := hc.ranked

/-- The cache does not matter. -/
theorem of_nodes (hc : Counted roots h held rank) (hnext : h'.nextNode = h.nextNode)
    (hdealloc : h'.deallocations = h.deallocations) (hnodes : ∀ m, h'.nodes m = h.nodes m) :
    Counted roots h' held rank :=
  hc.of_skeleton hnext hdealloc fun m => by rw [hnodes]

/-- A root is no child, and may have any higher rank. -/
theorem reRank (hc : Counted roots h held rank) (hn : n ∈ roots) {R : Nat} (hR : rank n ≤ R) :
    Counted roots h held (Function.update rank n R) := by
  refine { hc with ranked := fun p c hch => ?_ }
  have hcn : c ≠ n := fun heq => (hc.child hch).1 (heq ▸ hn)
  rw [Function.update_of_ne hcn]
  by_cases hp : p = n
  · subst hp
    rw [Function.update_self]
    exact (hc.ranked p c hch).trans_le hR
  · rw [Function.update_of_ne hp]
    exact hc.ranked p c hch

theorem not_mem_held (hc : Counted roots h held rank) (hn : n ∈ roots) : n ∉ held := fun hh =>
  hc.not_mem_roots hh hn

/-- A new root. -/
theorem addRoot (hc : Counted roots h held rank) (hcount : v.refCount = 0) (hchild : v.children = []) :
    Counted (h.nextNode :: roots) (h.create v) held rank := by
  have hdead := hc.dead h.nextNode (hc.fresh le_rfl)
  have hchildren : ∀ m, (h.create v).children m = h.children m := by
    intro m
    by_cases hm : m = h.nextNode
    · subst hm
      rw [Heap.children_of_some Heap.create_nodes_self, hchild]
      simp [Heap.children, hc.fresh le_rfl]
    · exact Heap.children_congr (Heap.create_nodes_of_ne hm)
  have hslots : ∀ m, (h.create v).slots m = h.slots m := by
    intro m
    have hnone : h.children h.nextNode = [] := by simp [Heap.children, hc.fresh le_rfl]
    simp only [Heap.slots, Heap.create_nextNode, hchildren]
    rw [Finset.sum_range_succ, hnone, List.count_nil, Nat.add_zero]
  refine ⟨hc.allocated.create, fun m hm => ?_, fun m w hm hr => ?_, fun m w hm hr => ?_, fun p c hch => ?_⟩
  · have hmn : m ≠ h.nextNode := by
      rintro rfl
      simp at hm
    rw [Heap.create_nodes_of_ne hmn] at hm
    obtain ⟨h₁, h₂, h₃⟩ := hc.dead m hm
    exact ⟨by simp [hmn, h₁], (hslots m).trans h₂, h₃⟩
  · rw [hslots]
    by_cases hmn : m = h.nextNode
    · subst hmn
      rw [Heap.create_nodes_self, Option.some.injEq] at hm
      exact ⟨hm ▸ hcount, hdead.2⟩
    · rw [Heap.create_nodes_of_ne hmn] at hm
      exact hc.root m w hm ((List.mem_cons.mp hr).resolve_left hmn)
  · rw [List.mem_cons, not_or] at hr
    rw [Heap.create_nodes_of_ne hr.1] at hm
    rw [hslots]
    exact hc.count m w hm hr.2
  · rw [hchildren] at hch
    exact hc.ranked p c hch

/-- A root that has no children goes. -/
theorem removeRoot (hc : Counted roots h held rank) (hv : h.nodes n = some v) (hn : n ∈ roots)
    (hchild : h.children n = []) : Counted (roots.filter (· ≠ n)) (h.free n) held rank := by
  have hchildren : ∀ m, (h.free n).children m = h.children m := by
    intro m
    by_cases hm : m = n
    · subst hm
      rw [hchild]
      simp [Heap.children]
    · exact Heap.children_congr (Heap.free_nodes_of_ne hm)
  have hslots : ∀ m, (h.free n).slots m = h.slots m := Heap.slots_congr rfl hchildren
  have hroot := hc.root n v hv hn
  refine ⟨hc.allocated.free hv, fun m hm => ?_, fun m w hm hr => ?_, fun m w hm hr => ?_, fun p c hch => ?_⟩
  · rw [hslots]
    by_cases hmn : m = n
    · subst hmn
      exact ⟨by simp, hroot.2⟩
    · rw [Heap.free_nodes_of_ne hmn] at hm
      obtain ⟨h₁, h₂⟩ := hc.dead m hm
      exact ⟨fun hr => h₁ (List.mem_of_mem_filter hr), h₂⟩
  · have hmn : m ≠ n := by
      rintro rfl
      simp at hm
    rw [Heap.free_nodes_of_ne hmn] at hm
    rw [hslots]
    exact hc.root m w hm (List.mem_of_mem_filter hr)
  · have hmn : m ≠ n := by
      rintro rfl
      simp at hm
    rw [Heap.free_nodes_of_ne hmn] at hm
    rw [hslots]
    exact hc.count m w hm fun hr' => hr (List.mem_filter.mpr ⟨hr', by simpa using hmn⟩)
  · rw [hchildren] at hch
    exact hc.ranked p c hch

end Counted

/-- No reference is held. -/
def Balanced (roots : List NodeId) (h : Heap) : Prop := ∃ rank, Counted roots h 0 rank

theorem Balanced.data (hb : Balanced roots h) (hd : DataStep P h h') : Balanced roots h' := by
  obtain ⟨rank, hc⟩ := hb
  exact ⟨rank, hc.of_skeleton hd.next hd.dealloc hd.skeleton⟩

/-! ## Access to values -/

theorem copyNode_counted (hc : Counted roots h held rank) :
    Ensures (copyNode storage n) h fun copy h' =>
      ∃ rank', Step roots (rank n) rank h rank' h' (copy ::ₘ held) ∧ rank' copy ≤ rank n := by
  rw [copyNode]
  refine ensures_bind (ensures_deref fun v hv => ?_)
  have hrank : Function.update rank h.nextNode (rank n) h.nextNode = rank n := Function.update_self _ _ _
  have hlt := hc.lt_nextNode hv
  cases hinfo : v.info with
  | leaf leaf =>
    refine ensures_bind (wp_createNode.mpr ?_)
    obtain ⟨S, hS⟩ : ∃ S : NodeId → Prop, S = fun m => m = h.nextNode := ⟨_, rfl⟩
    have hnew : S h.nextNode := by simp [hS]
    refine ensures_data_bind (P := S) (ensures_when fun _ => ?_) fun h₁ hd₁ => wp_pure.mpr ?_
    · refine ensures_data_bind (ensures_allocLeafNodeMemory hnew) fun k₁ hk₁ => ?_
      exact (ensures_copyMem hnew).mono fun _ _ hk₂ => hk₁.trans hk₂
    · have hs := hc.create (v := CFStorageNode.new storage true v.numBytes) rfl rfl (rank n)
      refine ⟨_, hs.trans (hs.counted.data hd₁ fun m hm => ?_), hrank.le⟩
      rw [hS] at hm
      rw [hm, hrank]
  | notLeaf child =>
    refine ensures_bind (wp_createNode.mpr ?_)
    have hs₁ := hc.create (v := CFStorageNode.new storage false v.numBytes) rfl rfl (rank n)
    set h₁ := h.create (CFStorageNode.new storage false v.numBytes) with hh₁
    have hnRank := hs₁.rank_eq n hlt
    have hchild₁ : h₁.children n = child := by
      rw [Heap.children_congr (Heap.create_nodes_of_ne (Nat.ne_of_lt hlt)), Heap.children_of_some hv,
        CFStorageNode.children, hinfo, Info.children]
    have hlow := hs₁.counted.children_low hchild₁
    rw [hnRank] at hlow
    refine ensures_bind (((ensures_retainAll (r := rank n) hs₁.counted fun c hcm =>
      ⟨(hlow c hcm).1, (hlow c hcm).2.2.le⟩).and ensures_retainAll_others).mono ?_)
    rintro - h₂ ⟨hs₂, hkeep⟩
    have hcopy : h.nextNode ∉ child := fun hcm => by
      have := (hlow _ hcm).2.2
      rw [hrank] at this
      exact Nat.lt_irrefl _ this
    have hnil : h₂.children h.nextNode = [] := by
      rw [Heap.children_congr (hkeep _ hcopy), Heap.children_of_some Heap.create_nodes_self]
      rfl
    have hheld : (child : Multiset NodeId) + (h.nextNode ::ₘ held) + (([] : List NodeId) : Multiset NodeId) =
        h.nextNode ::ₘ held + (child : Multiset NodeId) := by
      rw [Multiset.coe_nil, add_zero, add_comm]
    refine ensures_bind ((ensures_assignChildren hs₂.counted hnil hheld (fun c hcm => ?_) hrank.le).mono ?_)
    · rw [hrank]
      exact (hlow c hcm).2.2
    · rintro - h₃ ⟨hs₃, -, -⟩
      refine ensures_data_bind (P := (· ∈ child)) (ensures_when fun _ => ensures_freezeAll fun _ => id) fun h₄ hd₄ =>
        wp_pure.mpr ?_
      refine ⟨_, (hs₁.trans hs₂).trans (hs₃.trans (hs₃.counted.data hd₄ fun m hm => ?_)), hrank.le⟩
      exact (hlow m hm).2.2.le

/-- A child that stays frozen is replaced by a copy. -/
def unshareChild (storage : CFStorage) (depth : Nat) (node : NodeId) (childNum : Nat) (child : NodeId) : Op NodeId := do
  let unfrozenReplacement ← copyNode storage child
  setChild node childNum unfrozenReplacement
  releaseNode depth child
  return unfrozenReplacement

theorem unshareChild_counted {i : Nat} {c : NodeId} {child : List NodeId} {v : CFStorageNode}
    (hc : Counted roots h held rank) (hv : h.nodes n = some v) (hinfo : v.info = .notLeaf child)
    (hi : child[i]? = some c) :
    Ensures (unshareChild storage depth n i c) h fun copy h' =>
      ∃ rank', Step roots (rank n) rank h rank' h' held ∧ rank' copy ≤ rank c := by
  have hlt := hc.lt_nextNode hv
  have hchild : h.children n = child := by
    rw [Heap.children_of_some hv, CFStorageNode.children, hinfo, Info.children]
  obtain ⟨hroot, hcl, hlow⟩ := hc.children_low hchild c (List.mem_of_getElem? hi)
  rw [unshareChild]
  refine ensures_bind ((copyNode_counted hc).mono ?_)
  rintro copy h₁ ⟨rank₁, hs₁, hcopy⟩
  obtain ⟨hn₁, hnRank⟩ := hs₁.unchanged hlt hlow
  rw [Ensures, setChild, wp_bind, wp_bind, wp_derefChildren_of (hn₁.trans hv) hinfo]
  have hchild₁ : h₁.children n = child := (Heap.children_congr hn₁).trans hchild
  have hheld : copy ::ₘ held + (child : Multiset NodeId) = c ::ₘ held + ((child.set i copy : List NodeId) : Multiset NodeId) := by
    simp only [← Multiset.singleton_add]
    calc _ = (child : Multiset NodeId) + {copy} + held := by
          ac_rfl
      _ = _ := by
          rw [← coe_set_add hi copy]
          ac_rfl
  refine (ensures_assignChildren (r := rank n) hs₁.counted hchild₁ hheld (fun x hx => ?_) hnRank.le).mono ?_
  · rw [hnRank]
    rcases List.mem_or_eq_of_mem_set hx with hx | rfl
    · obtain ⟨-, hxl, hxr⟩ := hc.children_low hchild x hx
      rwa [hs₁.rank_eq x hxl]
    · exact hcopy.trans_lt hlow
  · rintro - h₂ ⟨hs₂, -, -⟩
    refine ensures_bind ((ensures_release hs₂.counted (r := rank n) ?_).mono fun _ h₃ hs₃ => wp_pure.mpr ?_)
    · rw [hs₁.rank_eq c hcl]
      exact hlow.le
    · exact ⟨rank₁, (hs₁.mono hlow.le).trans (hs₂.trans hs₃), hcopy⟩

theorem findByte_counted {requireUnfreezing : Bool} {byteNum offset : Nat} (hc : Counted roots h held rank) :
    Ensures (findByte storage requireUnfreezing depth n byteNum offset) h fun _ h' =>
      ∃ rank', Step roots (rank n) rank h rank' h' held := by
  induction depth generalizing h held rank n byteNum offset with
  | zero => exact wp_outOfFuel.mpr not_false
  | succ depth ih =>
    rw [findByte]
    refine ensures_bind (ensures_deref fun v hv => ?_)
    cases hinfo : v.info with
    | leaf leaf =>
      refine ensures_data_bind (P := (· = n)) (ensures_allocLeafNodeMemory rfl) fun h₁ hd₁ => wp_pure.mpr ?_
      exact ⟨rank, hc.data hd₁ fun m hm => by rw [hm]⟩
    | notLeaf child =>
      refine ensures_bind (ensures_findChild.mono ?_)
      rintro ⟨c, i, relativeByteNum⟩ k ⟨hk, v', child', hv', hinfo', hi⟩
      subst k
      replace hi : child'[i]? = some c := hi
      have hchild : h.children n = child' := by
        rw [Heap.children_of_some hv', CFStorageNode.children, hinfo', Info.children]
      obtain ⟨-, -, hlow⟩ := hc.children_low hchild c (List.mem_of_getElem? hi)
      have below : ∀ {h₁ : Heap} {rank₁ : NodeId → Nat} {c₁ : NodeId} {byteNum offset : Nat},
          Step roots (rank n) rank h rank₁ h₁ held → rank₁ c₁ ≤ rank n →
          Ensures (findByte storage requireUnfreezing depth c₁ byteNum offset) h₁ fun _ h' =>
            ∃ rank', Step roots (rank n) rank h rank' h' held := by
        intro h₁ rank₁ c₁ byteNum offset hs₁ hle
        refine (ih hs₁.counted).mono ?_
        rintro _ h₂ ⟨rank₂, hs₂⟩
        exact ⟨rank₂, hs₁.trans (hs₂.mono hle)⟩
      refine wp_ite.mpr ⟨fun _ => ?_, fun _ => below hc.step hlow.le⟩
      refine ensures_staysFrozen_bind ?_ fun h₁ hd₁ => below (hc.data hd₁ fun m hm => by rw [hm]; exact hlow.le) hlow.le
      have hcopy : Ensures (unshareChild storage depth n i c) h _ := unshareChild_counted hc hv' hinfo' hi
      simp only [unshareChild, Ensures, wp_bind, wp_pure] at hcopy ⊢
      refine hcopy.mono fun copy h₁ hset => hset.mono fun _ h₂ hrelease => hrelease.mono ?_
      rintro - h₃ ⟨rank₃, hs₃, hle⟩
      exact below hs₃ (hle.trans hlow.le)

theorem ensures_getFromCache {loc : Nat} {requireUnfrozenNode : Bool} :
    Ensures (getFromCache storage loc requireUnfrozenNode) h fun _ h' => DataStep (fun _ => True) h h' := by
  rw [getFromCache]
  refine ensures_bind (wp_get.mpr ?_)
  split
  · exact wp_pure.mpr .refl
  · refine ensures_bind (ensures_deref fun v hv => wp_ite.mpr ⟨fun _ => wp_pure.mpr .refl, fun _ => ?_⟩)
    refine ensures_bind (ensures_derefLeaf fun _ leaf _ _ => ?_)
    refine ensures_data_bind (P := fun _ => True) (ensures_when fun _ => ensures_allocLeafNodeMemory trivial) fun h₁ hd₁ => ?_
    exact wp_ite.mpr ⟨fun _ => wp_pure.mpr hd₁, fun _ => wp_pure.mpr hd₁⟩

theorem getValueAtIndex_counted {idx : Nat} {requireUnfreezing : Bool} (hb : Balanced roots h) :
    Ensures (getValueAtIndex depth storage idx requireUnfreezing) h fun _ h' => Balanced roots h' := by
  rw [getValueAtIndex]
  refine ensures_bind (ensures_getFromCache.mono fun found h₁ hd₁ => ?_)
  cases found with
  | some result => exact wp_pure.mpr (hb.data hd₁)
  | none =>
    obtain ⟨rank, hc⟩ := hb.data hd₁
    refine ensures_bind ((findByte_counted hc).mono ?_)
    rintro ⟨result, rangeInBytes⟩ h₂ ⟨rank₂, hs₂⟩
    refine ensures_data_bind (P := fun _ => True) (ensures_setCache trivial) fun h₃ hd₃ => wp_pure.mpr ?_
    exact Balanced.data ⟨rank₂, hs₂.counted⟩ hd₃

theorem ensures_copyTo {destination : Pointer} {bytes : Nat} {source : Nat → Cell} :
    Ensures (copyTo destination bytes source) h fun _ h' => DataStep (fun _ => True) h h' := by
  rw [copyTo]
  refine ensures_bind (ensures_derefLeaf fun v leaf hv hl => ensures_bind (wp_emit.mpr ⟨trivial, ?_⟩))
  exact ensures_assignLeaf (Heap.children_of_leaf hv hl) trivial

theorem ensures_copyFrom {source : Pointer} {bytes : Nat} :
    Ensures (copyFrom source bytes) h fun _ h' => h' = h := by
  rw [copyFrom]
  exact ensures_bind (ensures_derefLeaf fun _ _ _ _ => ensures_bind (wp_emit.mpr ⟨trivial, wp_pure.mpr rfl⟩))

theorem getValues_counted {range : CFRange} (hb : Balanced roots h) :
    Ensures (getValues depth storage range) h fun _ h' => Balanced roots h' := by
  rw [getValues]
  refine Wp.loop (I := fun _ h => Balanced roots h) (fun _ => 0) ?_ hb False.elim
  rintro ⟨range, values⟩ h hb
  refine wp_ite.mpr ⟨fun _ => wp_pure.mpr hb, fun _ => ?_⟩
  refine ensures_bind ((getValueAtIndex_counted hb).mono fun found h₁ hb₁ => ?_)
  refine ensures_bind (ensures_copyFrom.mono fun copied h₂ hk => ?_)
  subst h₂
  exact wp_pure.mpr ⟨hb₁, False.elim⟩

theorem replaceValues_counted {range : CFRange} {values : Nat → Cell} (hb : Balanced roots h) :
    Ensures (replaceValues depth storage range values) h fun _ h' => Balanced roots h' := by
  rw [replaceValues]
  refine Wp.loop (I := fun _ h => Balanced roots h) (fun _ => 0) ?_ hb False.elim
  rintro ⟨range, values⟩ h hb
  refine wp_ite.mpr ⟨fun _ => wp_pure.mpr hb, fun _ => ?_⟩
  refine ensures_bind ((getValueAtIndex_counted hb).mono fun found h₁ hb₁ => ?_)
  exact ensures_bind (ensures_copyTo.mono fun _ h₂ hd => wp_pure.mpr ⟨hb₁.data hd, False.elim⟩)

/-! ## Insertion and deletion -/

/-- The root becomes a branch with its old contents and the new node below it. -/
theorem deepen_counted {newNode : NodeId} (hc : Counted roots h (newNode ::ₘ held) rank)
    (hroot : storage.rootNode ∈ roots) :
    Ensures (deepen storage newNode) h fun _ h' => ∃ rank', Counted roots h' held rank' := by
  obtain ⟨n, hn⟩ : ∃ n, n = storage.rootNode := ⟨_, rfl⟩
  rw [← hn] at hroot
  rw [deepen, ← hn]
  refine ensures_bind (ensures_deref fun v hv => ensures_bind (wp_createNode.mpr ?_))
  have hlt := hc.lt_nextNode hv
  set w := CFStorageNode.new storage v.info.isLeaf v.numBytes with hw
  have hwc : w.children = [] := by
    rw [hw, CFStorageNode.children, CFStorageNode.new]
    split <;> rfl
  set heapRoot := h.nextNode with hheapRoot
  have hne : heapRoot ≠ n := Nat.ne_of_gt hlt
  have hs₁ := hc.create (v := w) rfl hwc (rank n)
  set h₁ := h.create w with hh₁
  set rank₁ := Function.update rank heapRoot (rank n) with hrank₁
  have hw₁ : h₁.nodes heapRoot = some w := Heap.create_nodes_self
  have hv₁ : h₁.nodes n = some v := (Heap.create_nodes_of_ne hne.symm).trans hv
  have hnRank : rank₁ n = rank n := hs₁.rank_eq n hlt
  set R := rank₁ heapRoot + rank₁ newNode + 1 with hR
  have hheapRootRank : rank₁ heapRoot = rank n := Function.update_self _ _ _
  have hc₂ := hs₁.counted.reRank hroot (R := R) (by omega)
  set rank₂ := Function.update rank₁ n R with hrank₂
  have hrank₂n : rank₂ n = R := Function.update_self _ _ _
  have hnew : newNode ≠ n := fun heq => hc.not_mem_held hroot (heq ▸ Multiset.mem_cons_self _ _)
  -- the root gets its new children first, and the new node the old ones then
  set v' : CFStorageNode := { v with info := .notLeaf [heapRoot, newNode] } with hv'
  have hc₃ : Counted roots (h₁.set n (some v')) ((v.children : Multiset NodeId) + held) rank₂ := by
    refine hc₂.setChildren hv₁ rfl ?_ fun c hcm => ?_
    · show heapRoot ::ₘ newNode ::ₘ held + (v.children : Multiset NodeId) =
        (v.children : Multiset NodeId) + held + ([heapRoot, newNode] : List NodeId)
      rw [← Multiset.cons_coe, Multiset.coe_singleton]
      simp only [← Multiset.singleton_add]
      ac_rfl
    · rw [hrank₂n]
      replace hcm : c ∈ [heapRoot, newNode] := hcm
      rw [List.mem_cons, List.mem_singleton] at hcm
      rcases hcm with rfl | rfl
      · rw [hrank₂, Function.update_of_ne hne]
        omega
      · rw [hrank₂, Function.update_of_ne hnew]
        omega
  have hw₃ : (h₁.set n (some v')).nodes heapRoot = some w := (Heap.set_nodes_of_ne hne).trans hw₁
  have hc₄ : Counted roots ((h₁.set n (some v')).set heapRoot (some { w with info := v.info })) held rank₂ := by
    refine hc₃.setChildren hw₃ rfl ?_ fun c hcm => ?_
    · rw [hwc, Multiset.coe_nil, add_zero, add_comm]
      rfl
    · have hcm' : c ∈ h₁.children n := by
        rw [Heap.children_of_some hv₁]
        exact hcm
      obtain ⟨hcroot, -, hlow⟩ := hs₁.counted.children_low rfl c hcm'
      rw [hrank₂, Function.update_of_ne (by rintro rfl; exact hcroot hroot), Function.update_of_ne hne]
      omega
  rw [Ensures, wp_bind, wp_deref_of hw₁, wp_bind, wp_assign, wp_bind]
  have hv₂ : (h₁.set heapRoot (some { w with info := v.info })).nodes n = some v :=
    (Heap.set_nodes_of_ne hne.symm).trans hv₁
  have hlast : ∀ k : Heap, k.nextNode = h₁.nextNode → k.deallocations = h₁.deallocations →
      k.nodes = (h₁.set heapRoot (some { w with info := v.info })).nodes →
      Ensures (assignChildren n [heapRoot, newNode] >>= fun _ => numBytes heapRoot >>= fun x => numBytes newNode >>=
        fun y => assignNumBytes n (x + y)) k fun _ h' => ∃ rank', Counted roots h' held rank' := by
    intro k hknext hkdealloc hknodes
    have hkv : k.nodes n = some v := by rw [hknodes, hv₂]
    rw [Ensures, wp_bind, wp_assignChildren_of hkv]
    have hc₅ : Counted roots (k.set n (some v')) held rank₂ := by
      refine hc₄.of_nodes hknext hkdealloc fun m => ?_
      by_cases hm : m = n
      · subst hm
        rw [Heap.set_nodes_self, Heap.set_nodes_of_ne hne.symm, Heap.set_nodes_self]
      · rw [Heap.set_nodes_of_ne hm, hknodes]
        by_cases hm' : m = heapRoot
        · subst hm'
          rw [Heap.set_nodes_self, Heap.set_nodes_self]
        · rw [Heap.set_nodes_of_ne hm', Heap.set_nodes_of_ne hm', Heap.set_nodes_of_ne hm]
    refine ensures_bind (ensures_numBytes fun _ _ => ensures_bind (ensures_numBytes fun _ _ => ?_))
    refine (ensures_assignNumBytes (P := fun _ => True) trivial).mono fun _ h₅ hd₅ => ?_
    exact ⟨rank₂, hc₅.of_skeleton hd₅.next hd₅.dealloc hd₅.skeleton⟩
  refine wp_when.mpr ⟨fun _ => wp_clearCache.mpr (hlast _ rfl rfl rfl), fun _ => hlast _ rfl rfl rfl⟩

theorem insertValues_counted {range : CFRange} (hb : Balanced roots h) (hroot : storage.rootNode ∈ roots) :
    Ensures (insertValues depth storage range) h fun _ h' => Balanced roots h' := by
  rw [insertValues]
  refine Wp.loop (I := fun _ h => Balanced roots h) (fun _ => 0) ?_ hb False.elim
  rintro ⟨numBytesToInsert, byteNum⟩ h ⟨rank, hc⟩
  refine wp_ite.mpr ⟨fun _ => wp_pure.mpr ⟨rank, hc⟩, fun _ => ?_⟩
  refine ensures_bind (((insertUnfrozen_counted (fun _ _ _ _ _ _ _ hc hn => insert_counted hc hn) hc).and
    insertUnfrozen_child).mono ?_)
  rintro result h₁ ⟨⟨rank₁, hs₁, -⟩, hchild⟩
  have hheld : (result.sibling.toList : Multiset NodeId) = result.retained storage.rootNode + 0 := by
    rw [DoubleNodeReturn.retained, if_pos hchild, zero_add, add_zero]
  have hs₁' := hs₁.congr hheld
  cases hsib : result.sibling with
  | none =>
    rw [hsib] at hs₁'
    exact ensures_bind (wp_forM_nil.mpr (wp_pure.mpr ⟨⟨rank₁, hs₁'.counted⟩, False.elim⟩))
  | some newNode =>
    rw [hsib] at hs₁'
    have hc₁ : Counted roots h₁ (newNode ::ₘ 0) rank₁ := hs₁'.counted.congr (by simp)
    refine ensures_bind (wp_forM_cons.mpr ((deepen_counted hc₁ hroot).mono fun _ h₂ hb₂ => ?_))
    exact wp_forM_nil.mpr (wp_pure.mpr ⟨hb₂, False.elim⟩)

/-- An empty root. -/
def CFStorageNode.cleared (value : CFStorageNode) : CFStorageNode :=
  { value with numBytes := 0, info := .leaf ⟨0, none, ⟨0, 0⟩⟩ }

theorem wp_clearRootNode {t : Prop} {E : Event → Prop} {v : CFStorageNode} (hc : Counted roots h 0 rank)
    (hv : h.nodes storage.rootNode = some v) (hdepth : t → rank storage.rootNode ≤ depth) :
    Wp t E (clearRootNode depth storage) h fun _ h' => Counted roots h' 0 rank ∧ Dropped storage.rootNode h h' ∧
      h'.nodes storage.rootNode = some v.cleared := by
  replace hc : Counted roots h ((([] : List NodeId) : Multiset NodeId) + 0) rank := hc
  rw [clearRootNode, wp_bind, wp_deref_of hv, wp_bind]
  refine (wp_releaseSlots hc hv hdepth).mono ?_
  rintro - k ⟨hkv, hdrop, hk⟩
  have hs := hk v.cleared [] rfl (by simp [CFStorageNode.cleared, CFStorageNode.children, Info.children])
    (by simp [CFStorageNode.cleared, CFStorageNode.children, Info.children])
  rw [wp_bind, wp_deref_of hkv, wp_assign]
  have hdrop' := hdrop.set (x := some v) (y := some v.cleared)
  rw [Heap.set_self hv] at hdrop'
  exact ⟨hs.counted.congr (by simp), hdrop', Heap.set_nodes_self⟩

theorem clearRootNode_counted (hb : Balanced roots h) (hroot : storage.rootNode ∈ roots) :
    Ensures (clearRootNode depth storage) h fun _ h' => Balanced roots h' ∧
      h'.children storage.rootNode = [] := by
  obtain ⟨rank, hc⟩ := hb
  obtain ⟨v, hv⟩ := hc.exists_root hroot
  refine (wp_clearRootNode hc hv False.elim).mono ?_
  rintro - h' ⟨hc', -, hv'⟩
  exact ⟨⟨rank, hc'⟩, Heap.children_of_some hv'⟩

/-- The root takes over the children of a node that is held. -/
theorem collapse_counted {newRoot : NodeId} (hc : Counted roots h held rank)
    (hroot : storage.rootNode ∈ roots) (hnil : h.children storage.rootNode = []) (hnew : rank newRoot ≤ rank storage.rootNode) :
    Ensures (collapse storage newRoot) h fun _ h' => ∃ rank', Counted roots h' held rank' := by
  obtain ⟨n, hn⟩ : ∃ n, n = storage.rootNode := ⟨_, rfl⟩
  rw [← hn] at hroot hnil hnew
  rw [collapse, ← hn]
  refine ensures_bind (ensures_deref fun v hv => ?_)
  obtain ⟨w, hw⟩ := hc.exists_root hroot
  have hwc : w.children = [] := by rw [← Heap.children_of_some hw, hnil]
  have done : ∀ {h'}, DataStep (fun _ => True) h h' → ∃ rank', Counted roots h' held rank' := fun hd =>
    ⟨rank, hc.of_skeleton hd.next hd.dealloc hd.skeleton⟩
  cases hinfo : v.info with
  | leaf leaf =>
    rw [Ensures, wp_bind, wp_deref_of hw]
    refine wp_ite.mpr ⟨fun _ => ?_, fun _ => ?_⟩
    · have hd₁ : DataStep (fun _ => True) h
          (h.set n (some { w with numBytes := v.numBytes, info := .leaf ⟨0, none, ⟨0, 0⟩⟩ })) :=
        DataStep.set hw rfl (by rw [hwc]; rfl) trivial
      rw [wp_bind, wp_assign]
      refine (ensures_when (P := fun _ => True) fun _ => ?_).mono fun _ h₂ hd₂ => done (hd₁.trans hd₂)
      refine ensures_data_bind (P := fun _ => True) (ensures_allocLeafNodeMemory trivial) fun k₁ hk₁ => ?_
      exact (ensures_copyMem (P := fun _ => True) trivial).mono fun _ _ hk₂ => hk₁.trans hk₂
    · have hd₁ : DataStep (fun _ => True) h
          (h.set n (some { w with numBytes := v.numBytes, info := .leaf ⟨0, leaf.memory, ⟨0, 0⟩⟩ })) :=
        DataStep.set hw rfl (by rw [hwc]; rfl) trivial
      rw [wp_bind, wp_assign]
      refine (ensures_assignLeaf (P := fun _ => True) ?_ trivial).mono fun _ h₂ hd₂ => done (hd₁.trans hd₂)
      rw [hd₁.children, Heap.children_of_leaf hv hinfo]
  | notLeaf child =>
    rw [Ensures, wp_bind, wp_deref_of hw]
    have hchild : h.children newRoot = child := by
      rw [Heap.children_of_some hv, CFStorageNode.children, hinfo, Info.children]
    have hlow := hc.children_low hchild
    refine ensures_bind (((ensures_retainAll (r := rank newRoot) hc fun c hcm =>
      ⟨(hlow c hcm).1, (hlow c hcm).2.2.le⟩).and ensures_retainAll_others).mono ?_)
    rintro - h₁ ⟨hs₁, hkeep⟩
    have hw₁ : h₁.nodes n = some w := (hkeep n fun hcm => (hlow n hcm).1 hroot).trans hw
    refine wp_assign.mpr ⟨rank, hs₁.counted.setChildren hw₁ rfl ?_ fun c hcm => ?_⟩
    · rw [hwc, Multiset.coe_nil, add_zero, add_comm]
      rfl
    · exact ((hlow c hcm).2.2).trans_le hnew

/-- Releasing a root does nothing. -/
theorem ensures_releaseRoot (hc : Counted roots h held rank) (hn : n ∈ roots) :
    Ensures (releaseNode depth n) h fun _ h' => h' = h := by
  cases depth with
  | zero => exact wp_outOfFuel.mpr not_false
  | succ depth =>
    obtain ⟨v, hv⟩ := hc.exists_root hn
    rw [releaseNode, Ensures, wp_bind, wp_deref_of hv, (hc.root n v hv hn).1, if_neg (Nat.lt_irrefl 0), wp_pure]

theorem deleteValues_counted {range : CFRange} (hb : Balanced roots h) (hroot : storage.rootNode ∈ roots) :
    Ensures (deleteValues depth storage range) h fun _ h' => Balanced roots h' := by
  obtain ⟨rank, hc⟩ := hb
  rw [deleteValues]
  refine ensures_bind (wp_clearCache.mpr ?_)
  replace hc : Counted roots (h.setCacheNode storage none) 0 rank := hc.of_nodes rfl rfl fun _ => rfl
  refine ensures_bind (((deleteUnfrozen_counted (fun _ _ _ _ _ hc hn => delete_counted hc hn) hc).and
    deleteUnfrozen_collapsed).mono ?_)
  rintro result h₁ ⟨⟨rank₁, hs₁, hres⟩, hcollapsed⟩
  cases result with
  | none =>
    exact (clearRootNode_counted ⟨rank₁, hs₁.counted.congr (by simp [retainedAfter])⟩ hroot).mono fun _ _ h => h.1
  | some newRoot =>
    by_cases heq : newRoot = storage.rootNode
    · have hc₁ : Counted roots h₁ 0 rank₁ := hs₁.counted.congr (by simp [retainedAfter, hroot, heq])
      refine ensures_bind (wp_when.mpr ⟨fun hne => absurd heq hne, fun _ => ?_⟩)
      rw [heq]
      refine (ensures_releaseRoot hc₁ hroot).mono fun _ h₂ hk => ?_
      subst hk
      exact ⟨rank₁, hc₁⟩
    · have hc₁ : Counted roots h₁ (newRoot ::ₘ 0) rank₁ := hs₁.counted.congr (by
        simp [retainedAfter, hroot, heq])
      have hrank : rank₁ newRoot ≤ rank₁ storage.rootNode := by
        obtain ⟨v, hv⟩ := hc.exists_root hroot
        rw [hs₁.rank_eq _ (hc.lt_nextNode hv)]
        exact hres newRoot rfl
      refine ensures_bind (wp_when.mpr ⟨fun _ => ?_, fun hne => absurd heq hne⟩)
      refine (collapse_counted hc₁ hroot (hcollapsed newRoot rfl heq) hrank).mono ?_
      rintro - h₂ ⟨rank₂, hc₂⟩
      exact (ensures_release hc₂ le_rfl).mono fun _ h₃ hs₃ => ⟨rank₂, hs₃.counted⟩

/-! ## Creation and deallocation -/

theorem storageCreate_counted {valueSize : Nat} (hb : Balanced roots h) :
    Ensures (storageCreate valueSize) h fun result h' => Balanced (result.rootNode :: roots) h' ∧
      h'.children result.rootNode = [] := by
  obtain ⟨rank, hc⟩ := hb
  rw [storageCreate]
  refine ensures_bind (wp_get.mpr (wp_bind.mpr (wp_modify.mpr (wp_pure.mpr ⟨⟨rank, ?_⟩, ?_⟩))))
  · have hc' := hc.addRoot (v := ⟨0, 0, false, .leaf ⟨0, none, ⟨0, 0⟩⟩⟩) rfl rfl
    exact hc'.of_nodes rfl rfl fun _ => rfl
  · exact Heap.children_of_some (v := ⟨0, 0, false, .leaf ⟨0, none, ⟨0, 0⟩⟩⟩)
      (Heap.set_nodes_self (h := h) (n := h.nextNode))

theorem ensures_childOffsets {child : List NodeId} {offset : Nat} :
    Ensures (childOffsets child offset) h fun _ h' => h' = h := by
  induction child generalizing offset with
  | nil => exact wp_pure.mpr rfl
  | cons c child ih =>
    rw [childOffsets]
    refine ensures_bind (ensures_numBytes fun v _ => ensures_bind (ih.mono fun _ h₁ hk => ?_))
    exact wp_pure.mpr hk

theorem ensures_findNodeContainingByteRange {nodeRange : CFRange} {globalOffset : Nat} :
    Ensures (findNodeContainingByteRange depth n nodeRange globalOffset) h fun _ h' => h' = h := by
  induction depth generalizing n nodeRange globalOffset with
  | zero => exact wp_outOfFuel.mpr not_false
  | succ depth ih =>
    rw [findNodeContainingByteRange]
    refine ensures_bind (ensures_deref fun v hv => ?_)
    split
    · exact wp_pure.mpr rfl
    · refine ensures_bind (ensures_childOffsets.mono fun offsets k hk => ?_)
      subst k
      dsimp only
      split
      · exact ih
      · exact wp_pure.mpr rfl

theorem shareSubrange_counted {result : CFStorage} {range : CFRange} (hb : Balanced roots h)
    (hroot : result.rootNode ∈ roots) (hnil : h.children result.rootNode = []) :
    Ensures (shareSubrange depth storage result range) h fun _ h' => Balanced roots h' := by
  rw [shareSubrange]
  refine ensures_bind (ensures_findNodeContainingByteRange.mono ?_)
  rintro ⟨containing, containingRange⟩ k hk
  subst k
  refine ensures_bind (ensures_deref fun v hv => ?_)
  cases hinfo : v.info with
  | leaf leaf =>
    refine ensures_bind ((insertValues_counted hb hroot).mono fun _ h₁ hb₁ => ?_)
    exact wp_when.mpr ⟨fun _ => replaceValues_counted hb₁, fun _ => hb₁⟩
  | notLeaf child =>
    refine ensures_data_bind (P := (· ∈ child)) (ensures_freezeAll fun _ => id) fun h₁ hd₁ => ?_
    obtain ⟨rank, hc⟩ := hb
    have hc₁ : Counted roots h₁ 0 rank := hc.of_skeleton hd₁.next hd₁.dealloc hd₁.skeleton
    have hchild₁ : h₁.children containing = child := by
      rw [hd₁.children, Heap.children_of_some hv, CFStorageNode.children, hinfo, Info.children]
    have hlow := hc₁.children_low hchild₁
    obtain ⟨w, hw⟩ := hc₁.exists_root hroot
    have hwc : w.children = [] := by rw [← Heap.children_of_some hw, hd₁.children, hnil]
    have hc₂ := hc₁.reRank hroot (Nat.le_max_left (rank result.rootNode) (rank containing))
    set rank₂ := Function.update rank result.rootNode (max (rank result.rootNode) (rank containing)) with hrank₂
    have hlow₂ : ∀ c ∈ child, c ∉ roots ∧ rank₂ c < rank₂ result.rootNode := by
      intro c hcm
      obtain ⟨hcr, -, hlt⟩ := hlow c hcm
      refine ⟨hcr, ?_⟩
      rw [hrank₂, Function.update_self, Function.update_of_ne (by rintro rfl; exact hcr hroot)]
      exact hlt.trans_le (Nat.le_max_right _ _)
    refine ensures_bind (((ensures_retainAll hc₂ fun c hcm =>
      ⟨(hlow₂ c hcm).1, (hlow₂ c hcm).2.le⟩).and ensures_retainAll_others).mono ?_)
    rintro - h₂ ⟨hs₂, hkeep⟩
    have hw₂ : h₂.nodes result.rootNode = some w := (hkeep _ fun hcm => (hlow₂ _ hcm).1 hroot).trans hw
    rw [Ensures, wp_bind, wp_deref_of hw₂, wp_bind, wp_assign]
    have hb₃ : Balanced roots (h₂.set result.rootNode
        (some { w with numBytes := containingRange.length, info := .notLeaf child })) := by
      refine ⟨rank₂, hs₂.counted.setChildren hw₂ rfl ?_ fun c hcm => (hlow₂ c hcm).2⟩
      rw [hwc, Multiset.coe_nil, add_zero, add_comm]
      rfl
    refine ensures_bind (wp_when.mpr ⟨fun _ => ?_, fun _ => ?_⟩)
    · refine (deleteValues_counted hb₃ hroot).mono fun _ h₄ hb₄ => ?_
      exact wp_when.mpr ⟨fun _ => deleteValues_counted hb₄ hroot, fun _ => hb₄⟩
    · exact wp_when.mpr ⟨fun _ => deleteValues_counted hb₃ hroot, fun _ => hb₃⟩

theorem createWithSubrange_counted {range : CFRange} (hb : Balanced roots h) :
    Ensures (createWithSubrange depth storage range) h fun result h' => Balanced (result.rootNode :: roots) h' := by
  rw [createWithSubrange]
  refine ensures_bind ((storageCreate_counted hb).mono ?_)
  rintro result h₁ ⟨hb₁, hnil⟩
  refine ensures_bind (wp_when.mpr ⟨fun _ => ?_, fun _ => wp_pure.mpr hb₁⟩)
  exact (shareSubrange_counted hb₁ List.mem_cons_self hnil).mono fun _ h₂ hb₂ => wp_pure.mpr hb₂

theorem storageDeallocate_counted (hb : Balanced roots h) (hroot : storage.rootNode ∈ roots) :
    Ensures (storageDeallocate depth storage) h fun _ h' => Balanced (roots.filter (· ≠ storage.rootNode)) h' := by
  rw [storageDeallocate]
  refine ensures_bind ((clearRootNode_counted hb hroot).mono ?_)
  rintro - h₁ ⟨⟨rank, hc⟩, hnil⟩
  obtain ⟨v, hv⟩ := hc.exists_root hroot
  exact wp_modify.mpr ⟨rank, hc.removeRoot hv hroot hnil⟩

/-! ## Families -/

def rootNodes (members : List CFStorage) : List NodeId := members.map (·.rootNode)

/-- One call keeps the counts exact. -/
theorem runCall_counted {members : List CFStorage} {call : Call} (hb : Balanced (rootNodes members) h)
    (hon : call.OnMember members h) :
    Ensures (runCall depth members call) h fun members' h' => Balanced (rootNodes members') h' := by
  have hroot : ∀ {storage}, storage ∈ call.storage → storage.rootNode ∈ rootNodes members := fun hs =>
    List.mem_map_of_mem (hon _ hs)
  have hnew : ∀ {result : CFStorage} {h' : Heap}, Balanced (result.rootNode :: rootNodes members) h' →
      Balanced (rootNodes (members ++ [result])) h' := by
    rintro result h' ⟨rank, hc⟩
    refine ⟨rank, hc.congr_roots fun m => ?_⟩
    simp [rootNodes, or_comm, eq_comm]
  cases call with
  | create valueSize =>
    exact ensures_bind ((storageCreate_counted hb).mono fun _ _ hb' => wp_pure.mpr (hnew hb'.1))
  | createWithSubrange storage range =>
    exact ensures_bind ((createWithSubrange_counted hb).mono fun _ _ hb' => wp_pure.mpr (hnew hb'))
  | deallocate storage =>
    refine ensures_bind ((storageDeallocate_counted hb (hroot rfl)).mono ?_)
    rintro - h' ⟨rank, hc⟩
    refine wp_pure.mpr ⟨rank, hc.congr_roots fun m => ?_⟩
    simp only [rootNodes, List.mem_map, List.mem_filter, decide_eq_true_eq]
    constructor
    · rintro ⟨s, ⟨hs, hne⟩, rfl⟩
      exact ⟨⟨s, hs, rfl⟩, hne⟩
    · rintro ⟨⟨s, hs, rfl⟩, hne⟩
      exact ⟨s, ⟨hs, hne⟩, rfl⟩
  | insertValues storage range =>
    exact ensures_bind ((insertValues_counted hb (hroot rfl)).mono fun _ _ hb' => wp_pure.mpr hb')
  | deleteValues storage range =>
    exact ensures_bind ((deleteValues_counted hb (hroot rfl)).mono fun _ _ hb' => wp_pure.mpr hb')
  | replaceValues storage range values =>
    exact ensures_bind ((replaceValues_counted hb).mono fun _ _ hb' => wp_pure.mpr hb')
  | setValueAtIndex storage range values =>
    refine ensures_bind (ensures_bind ((getValueAtIndex_counted hb).mono fun found h₁ hb₁ => ?_))
    exact ensures_copyTo.mono fun _ h₂ hd => wp_pure.mpr (hb₁.data hd)
  | getValues storage range =>
    exact ensures_bind ((getValues_counted hb).mono fun _ _ hb' => wp_pure.mpr hb')
  | getConstValueAtIndex storage idx =>
    refine ensures_bind (ensures_bind ((getValueAtIndex_counted hb).mono fun found h₁ hb₁ => ?_))
    refine ensures_copyFrom.mono fun _ h₂ hk => wp_pure.mpr ?_
    subst h₂
    exact hb₁

theorem Heap.empty_balanced : Balanced [] .empty := by
  refine ⟨fun _ => 0, ⟨fun _ _ => ⟨rfl, rfl⟩, nofun⟩, fun _ _ => ⟨List.not_mem_nil, rfl, Multiset.notMem_zero _⟩,
    nofun, nofun, nofun⟩

/-- The counts are exact in every state that calls lead to. -/
theorem Reachable.balanced {members : List CFStorage} (hreach : Reachable Call.OnMember members h) :
    Balanced (rootNodes members) h := by
  induction hreach with
  | empty => exact Heap.empty_balanced
  | call depth _ hon hrun ih => exact (runCall_counted ih hon).of_returns hrun

/-- Two storages of values of a leaf's size share two leaves. -/
def sharedPair : Option (List CFStorage × Heap) :=
  runCalls (fun members heap call => decide (call.OnMember members heap)) 4 [] .empty
    [.create 12288, .insertValues (.make 12288 0) ⟨0, 2⟩, .createWithSubrange (.make 12288 0) ⟨0, 2⟩]

end CFLite.Storage
