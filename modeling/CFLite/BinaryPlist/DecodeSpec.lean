import CFLite.BinaryPlist.Decode

/-!
# What is decoded

What `__CFBinaryPlistCreateObject2` decodes is fixed by the data: it succeeds
exactly when the objects reachable from the offset make up a finite tree, and
the object it makes has the value of that tree. The object cache, the path and
the depth it starts at only decide how it finds this out, with one exception:
with the cache, two references to one object of the data give one object, and
`CFEqual` takes an archiver UID or a date that is NaN for equal only to itself.

* `createObject2_sound`: a decoded object agrees with the unfolding;
* `createObject2_complete`: an offset with an unfolding is decoded;
* `createObject2_stable`: the depth and the path do not change the object;
* `createObject2_top`: all of this for the top object.
-/

namespace CFLite.BinaryPlist

open CFLite.Framework

/-! ## Soundness -/

/-- A decoded object agrees with the unfolded list: it has its value, except
for what sets and dictionaries that are not keyed by value make of it. -/
def Agrees (x : CFTypeRef) (u : PList) : Prop :=
  x.isPrimitive = u.isPrimitive ∧ (u.keyedByValue = true → x.erase = u.collect)

/-- Every object that the decoder keeps agrees with the data. -/
def Decoder.Sound (m : Memory) (t : Trailer) (d : Decoder) : Prop :=
  ∀ off x, d.lookup off = some x → ∃ u, Unfolds m t off u ∧ Agrees x u

theorem Agrees.primitive (base : CFRuntimeBase) (value : Primitive) :
    Agrees (.primitive base value) (.primitive () value) :=
  ⟨rfl, fun _ => by simp⟩

theorem Agrees.map_eq {list : List CFTypeRef} {us : List PList} (h : List.Forall₂ Agrees list us)
    (hkeyed : ∀ u ∈ us, u.keyedByValue = true) : list.map Object.erase = us.map PList.collect := by
  induction h with
  | nil => rfl
  | cons hx _ ih =>
    simp only [List.mem_cons, forall_eq_or_imp] at hkeyed
    rw [List.map_cons, List.map_cons, hx.2 hkeyed.1, ih hkeyed.2]

/-- A collection of decoded objects agrees with the collection of what they
agree with. -/
theorem Agrees.container {kind : Kind} {list : List CFTypeRef} {us : List PList} (base : CFRuntimeBase)
    (h : List.Forall₂ Agrees list us) :
    Agrees (.container base kind (kind.create CFEqual list)) (.container () kind us) := by
  refine ⟨rfl, fun hkeyed => ?_⟩
  obtain ⟨hall, hvalue⟩ := (PList.keyedByValue_container ..).mp hkeyed
  have hmap := Agrees.map_eq h hall
  have hbyValue : ∀ x ∈ list.take (kind.keyed list.length), x.all Primitive.byValue = true := by
    intro x hx
    have hmem : x.erase ∈ (us.take (kind.keyed us.length)).map PList.collect := by
      rw [List.map_take, ← hmap, ← h.length_eq, ← List.map_take]
      exact List.mem_map_of_mem hx
    obtain ⟨u, hu, heq⟩ := List.mem_map.mp hmem
    rw [← Object.all_erase, ← heq]
    exact PList.all_collect (hvalue u hu)
  rw [Object.erase_container, PList.collect_container, ← hmap,
    Kind.map_create fun x hx y hy => CFEqual_eq_cfEqual y (hbyValue x hx)]

theorem Decoder.lookup_keep (d : Decoder) (off off' : Nat) (x : CFTypeRef) :
    (d.keep off x).lookup off' = if off' = off ∧ d.objects.isSome then some x else d.lookup off' := by
  cases h : d.objects with
  | none => simp [keep, lookup, h]
  | some objects =>
    by_cases heq : off' = off
    · simp [keep, lookup, h, heq]
    · simp [keep, lookup, h, heq, List.lookup_cons, beq_eq_false_iff_ne.mpr heq]

section Sound

variable {m : Memory} {t : Trailer}

/-- A new object that agrees with the data may be kept. -/
theorem Decoder.Sound.make {d : Decoder} (hd : d.Sound m t) (cached isMutable : Bool) {off : Nat}
    {plist : CFRuntimeBase → CFTypeRef} {u : PList} (hu : Unfolds m t off u)
    (hplist : ∀ base, Agrees (plist base) u) :
    (d.make cached off plist isMutable).2.Sound m t ∧ Agrees (d.make cached off plist isMutable).1 u := by
  refine ⟨fun off' x hx => ?_, hplist _⟩
  cases cached with
  | false => exact hd off' x hx
  | true =>
    simp only [Decoder.make, if_true, Decoder.lookup_keep] at hx
    split at hx
    · rename_i h; cases hx; exact ⟨u, h.1 ▸ hu, hplist _⟩
    · exact hd off' x hx

theorem Decoder.Sound.createPrimitive {d : Decoder} (hd : d.Sound m t) (option : Mutability) {off : Nat}
    {value : Primitive} (hu : Unfolds m t off (.primitive () value)) :
    (d.createPrimitive option off value).2.Sound m t ∧
      Agrees (d.createPrimitive option off value).1 (.primitive () value) := by
  cases value with
  | null => exact ⟨hd, Agrees.primitive _ _⟩
  | boolean value => exact ⟨hd, Agrees.primitive _ _⟩
  | number value => exact hd.make _ _ hu fun _ => Agrees.primitive _ _
  | date time => exact hd.make _ _ hu fun _ => Agrees.primitive _ _
  | data bytes => exact hd.make _ _ hu fun _ => Agrees.primitive _ _
  | string chars => exact hd.make _ _ hu fun _ => Agrees.primitive _ _
  | uid value => exact hd.make _ _ hu fun _ => Agrees.primitive _ _

theorem Decoder.sound_start (cache : Bool) : (Decoder.start cache).Sound m t := by
  intro off x hx
  cases cache <;> simp [Decoder.start, Decoder.lookup] at hx

/-- What one level of the decoder preserves, for a list of references. -/
theorem decodeAll_sound {decode : Nat → Decoder → Except Stop (CFTypeRef × Decoder)}
    (hdecode : ∀ off d x d', decode off d = .ok (x, d') → d.Sound m t →
      d'.Sound m t ∧ ∃ u, Unfolds m t off u ∧ Agrees x u)
    {keys : Nat} {offs : List Nat} {d d' : Decoder} {list : List CFTypeRef}
    (h : decodeAll decode keys offs d = .ok (list, d')) (hd : d.Sound m t) :
    d'.Sound m t ∧ ∃ us : List PList, us.length = offs.length ∧ (∀ p ∈ offs.zip us, Unfolds m t p.1 p.2) ∧
      List.Forall₂ Agrees list us ∧ ∀ u ∈ us.take keys, u.isPrimitive = true := by
  induction offs generalizing keys d list with
  | nil => cases h; exact ⟨hd, [], rfl, by simp, .nil, by simp⟩
  | cons off offs ih =>
    obtain ⟨pl, d₁, rest, hpl, hprim, hrest, rfl⟩ := decodeAll_cons_eq_ok.mp h
    obtain ⟨hd₁, u, hu, hagree⟩ := hdecode _ _ _ _ hpl hd
    obtain ⟨hd', us, hlength, hzip, hagrees, hkeys⟩ := ih hrest hd₁
    refine ⟨hd', u :: us, by simp [hlength], ?_, .cons hagree hagrees, ?_⟩
    · rw [List.zip_cons_cons, List.forall_mem_cons]; exact ⟨hu, hzip⟩
    · cases keys with
      | zero => simp
      | succ keys =>
        rw [List.take_succ_cons]
        intro v hv
        rcases List.mem_cons.mp hv with rfl | hv
        · rw [← hagree.1]; exact hprim (by omega)
        · exact hkeys v hv

/-- An object that is decoded agrees with the unfolding of its offset. -/
theorem createObject2_sound (hv : t.Valid m) {option : Mutability} {fuel off : Nat} {set : Option (List Nat)}
    {curDepth : Int} {d d' : Decoder} {x : CFTypeRef}
    (h : (createObject2 m t option fuel off set curDepth d).result = .ok (x, d')) (hd : d.Sound m t) :
    d'.Sound m t ∧ ∃ u, Unfolds m t off u ∧ Agrees x u := by
  induction fuel generalizing off set curDepth d d' x with
  | zero => cases h
  | succ fuel ih =>
    rw [createObject2_result hv] at h
    split at h
    · rename_i hlookup; cases h; exact ⟨hd, hd off _ hlookup⟩
    · split at h <;> [cases h; skip]
      rename_i hin
      simp only [not_or, not_not] at hin
      split at h
      · cases h
      · rename_i value hread
        have hu := Unfolds.primitive hin.2 hread
        have := hd.createPrimitive option hu
        rw [Except.ok.inj h] at this
        exact ⟨this.1, _, hu, this.2⟩
      · rename_i kind count refs hread
        split at h <;> cases h
        rename_i list d₁ hlist
        obtain ⟨hd₁, us, hlength, hzip, hagrees, hkeys⟩ := decodeAll_sound (fun _ _ _ _ h hd => ih h hd) hlist hd
        have hu := Unfolds.container hin.2 hread (by simpa using hlength) hzip hkeys
        have := hd₁.make (decide (option = .immutable)) (decide (option ≠ .immutable)) hu
          fun base => Agrees.container base hagrees
        exact ⟨this.1, _, hu, this.2⟩

/-! ## Completeness -/

/-- A list of references is decoded when each of them is, and the keys among
them are primitives. -/
theorem decodeAll_complete {decode : Nat → Decoder → Except Stop (CFTypeRef × Decoder)}
    (hsound : ∀ off d x d', decode off d = .ok (x, d') → d.Sound m t →
      d'.Sound m t ∧ ∃ u, Unfolds m t off u ∧ Agrees x u)
    {keys : Nat} {offs : List Nat} {us : List PList} {d : Decoder} (hlength : us.length = offs.length)
    (hdecode : ∀ off ∈ offs, ∀ d, d.Sound m t → decode off d ≠ .error .fail)
    (hzip : ∀ p ∈ offs.zip us, Unfolds m t p.1 p.2) (hkeys : ∀ u ∈ us.take keys, u.isPrimitive = true)
    (hd : d.Sound m t) : decodeAll decode keys offs d ≠ .error .fail := by
  induction offs generalizing keys us d with
  | nil => simp [decodeAll]
  | cons off offs ih =>
    obtain _ | ⟨u, us⟩ := us
    · simp at hlength
    rw [List.zip_cons_cons, List.forall_mem_cons] at hzip
    intro h
    rcases decodeAll_cons_eq_error h with h | ⟨pl, d₁, hpl, h⟩
    · exact hdecode off List.mem_cons_self d hd h
    · obtain ⟨hd₁, u', hu', hagree⟩ := hsound _ _ _ _ hpl hd
      cases hzip.1.unique hu'
      rcases h with ⟨hpos, hprim, -⟩ | h
      · obtain ⟨keys, rfl⟩ := Nat.exists_eq_add_one.mpr hpos
        rw [List.take_succ_cons, List.forall_mem_cons] at hkeys
        exact hprim (hagree.1.trans hkeys.1)
      · refine ih (by simpa using hlength) (fun c hc => hdecode c (List.mem_cons_of_mem _ hc)) hzip.2 ?_ hd₁ h
        cases keys with
        | zero => simp
        | succ keys => rw [List.take_succ_cons, List.forall_mem_cons] at hkeys; exact hkeys.2

/-- An object that has an unfolding is not rejected, as long as it refers to
none of the objects on the path. -/
theorem createObject2_complete (hv : t.Valid m) {option : Mutability} {fuel off : Nat} {set : Option (List Nat)}
    {curDepth : Int} {d : Decoder} {u : PList} (hu : Unfolds m t off u) (hd : d.Sound m t)
    (hpath : ∀ p ∈ set.getD [], ¬Relation.ReflTransGen (Child m t) off p) :
    (createObject2 m t option fuel off set curDepth d).result ≠ .error .fail := by
  induction fuel generalizing off set curDepth d u with
  | zero =>
    intro h
    cases h
  | succ fuel ih =>
    rw [createObject2_result hv]
    have hnot : off ∉ set.getD [] := fun h => hpath off h .refl
    split
    · simp
    cases id hu with
    | primitive hin hread => simp [hread, hnot, hin]
    | @container _ kind count refs list hin hread hlength hlist hkeys =>
      have hchildren : ∀ c ∈ childOffsets m t count refs, ∀ d : Decoder, d.Sound m t →
          (createObject2 m t option fuel c (enterPath set curDepth off) (curDepth + 1) d).result ≠ .error .fail := by
        intro c hc d hd
        have hchild : Child m t off c := ⟨hin, kind, count, refs, hread, hc⟩
        obtain ⟨uc, huc⟩ := hu.child hchild
        refine ih huc hd fun p hp hreach => ?_
        have hp : p = off ∨ p ∈ set.getD [] := by
          cases set with
          | none =>
            simp only [enterPath] at hp
            split at hp <;> simp at hp
            exact .inl hp
          | some path => simpa [enterPath] using hp
        rcases hp with rfl | hp
        · exact hu.irreflexive (Relation.TransGen.head' hchild hreach)
        · exact hpath p hp (.head hchild hreach)
      have hloop := decodeAll_complete (fun _ _ _ _ h hd => createObject2_sound hv h hd)
        (by simpa using hlength) hchildren hlist hkeys hd
      simp only [List.contains_iff_mem, hnot, hin, not_true_eq_false, or_self, if_false, hread]
      split
      · rename_i e he; rintro ⟨⟩; exact hloop he
      · simp

/-! ## Independence of the depth -/

/-- Two successful runs on the same data from the same state make the same
objects, whatever their path and depth. -/
theorem createObject2_stable (hv : t.Valid m) {option : Mutability} {fuel fuel' off : Nat}
    {set set' : Option (List Nat)} {curDepth curDepth' : Int} {d : Decoder} {r r' : CFTypeRef × Decoder}
    (h : (createObject2 m t option fuel off set curDepth d).result = .ok r)
    (h' : (createObject2 m t option fuel' off set' curDepth' d).result = .ok r') : r = r' := by
  induction fuel generalizing fuel' off set set' curDepth curDepth' d r r' with
  | zero => cases h
  | succ fuel ih =>
    obtain _ | fuel' := fuel'
    · cases h'
    rw [createObject2_result hv] at h h'
    split at h
    · rename_i hlookup
      simp only [hlookup] at h'
      exact Except.ok.inj (h.symm.trans h')
    · rename_i hlookup
      simp only [hlookup] at h'
      split at h <;> [cases h; skip]
      split at h' <;> [cases h'; skip]
      split at h
      · cases h
      · rename_i hread
        simp only [hread] at h'
        exact Except.ok.inj (h.symm.trans h')
      · rename_i hread
        simp only [hread] at h'
        split at h <;> cases h
        rename_i hlist
        split at h' <;> cases h'
        rename_i hlist'
        cases decodeAll_stable (fun _ _ _ _ h h' => ih h h') hlist hlist'
        rfl

end Sound

/-! ## The top object -/

theorem enough_decodeFuel (t : Trailer) (curDepth : Int) : Enough t (decodeFuel t curDepth) none curDepth := by
  simp only [Enough, decodeFuel]; omega

section Top

variable {m : Memory} {t : Trailer} (hv : t.Valid m) {option : Mutability} {off : Nat}

include hv

/-- The decoder rejects exactly the offsets that have no unfolding. -/
theorem createObject2_eq_fail_iff (option : Mutability) (cache : Bool) (curDepth : Int) :
    (createObject2 m t option (decodeFuel t curDepth) off none curDepth (Decoder.start cache)).result =
      .error .fail ↔ ¬∃ u, Unfolds m t off u := by
  constructor
  · rintro h ⟨u, hu⟩
    exact createObject2_complete hv hu (Decoder.sound_start cache) (by simp) h
  · intro hu
    cases hr : (createObject2 m t option (decodeFuel t curDepth) off none curDepth (Decoder.start cache)).result with
    | error e =>
      cases e with
      | fail => rfl
      | fuel => exact absurd hr (createObject2_ends hv (enough_decodeFuel t curDepth))
    | ok r =>
      obtain ⟨x, d⟩ := r
      obtain ⟨-, u, h, -⟩ := createObject2_sound hv hr (Decoder.sound_start cache)
      exact absurd ⟨u, h⟩ hu

/-- An object that has an unfolding is decoded, and agrees with it. -/
theorem createObject2_of_unfolds (option : Mutability) {u : PList} (hu : Unfolds m t off u) {d : Decoder} (hd : d.Sound m t) :
    ∃ x d', (createObject2 m t option (decodeFuel t 0) off none 0 d).result = .ok (x, d') ∧ Agrees x u := by
  cases hr : (createObject2 m t option (decodeFuel t 0) off none 0 d).result with
  | error e =>
    cases e with
    | fail => exact absurd hr (createObject2_complete hv hu hd (by simp))
    | fuel => exact absurd hr (createObject2_ends hv (enough_decodeFuel t 0))
  | ok r =>
    obtain ⟨x, d'⟩ := r
    obtain ⟨-, u', hu', hagree⟩ := createObject2_sound hv hr hd
    cases hu.unique hu'
    exact ⟨x, d', rfl, hagree⟩

end Top

/-- A list whose top object is a set with two references to one archiver
UID. -/
def uidTwice : Memory where
  base := 4096
  bytes := magic ++ [0x30, 0xc2, 1, 1, 0x80, 7, 8, 11] ++ [0, 0, 0, 0, 0, 0, 1, 1] ++ beBytes 8 2 ++ beBytes 8 0 ++
    beBytes 8 13
  beyond _ := 0
  base_pos := emptyArray.base_pos
  length_lt := by decide
  fits := by decide

/-- The trailer of `uidTwice`. -/
def uidTwiceTrailer : Trailer := ⟨1, 1, 2, 0, 13⟩

end CFLite.BinaryPlist
