import Mathlib.Data.List.Range
import Mathlib.Data.List.Perm.Subperm
import Mathlib.Tactic.ByContra
import CFLite.BinaryPlist.Unfold

/-!
# The decoder, and that it ends

`__CFBinaryPlistCreateObject2` on data whose trailer was accepted, in terms of
what the data says rather than of the bytes it reads.

* `createObject2_result`: one level of the decoder;
* `createObject2_ends`: the recursion budget is never used up.
-/

namespace CFLite.BinaryPlist

open CFLite.Framework

/-- The loop over references, on the offsets that they name. -/
def decodeAll (decode : Nat → Decoder → Except Stop (CFTypeRef × Decoder)) :
    (keys : Nat) → (offs : List Nat) → Decoder → Except Stop (List CFTypeRef × Decoder)
  | _, [], d => .ok ([], d)
  | keys, off :: offs, d =>
    match decode off d with
    | .error e => .error e
    | .ok (pl, d) =>
      if 0 < keys ∧ ¬pl.isPrimitive then .error .fail
      else
        match decodeAll decode (keys - 1) offs d with
        | .error e => .error e
        | .ok (list, d) => .ok (pl :: list, d)

section decodeAll

variable {decode decode' : Nat → Decoder → Except Stop (CFTypeRef × Decoder)}

theorem decodeAll_cons_eq_ok {keys off : Nat} {offs : List Nat} {d d' : Decoder} {list : List CFTypeRef} :
    decodeAll decode keys (off :: offs) d = .ok (list, d') ↔
      ∃ pl d₁ list', decode off d = .ok (pl, d₁) ∧ (0 < keys → pl.isPrimitive = true) ∧
        decodeAll decode (keys - 1) offs d₁ = .ok (list', d') ∧ list = pl :: list' := by
  constructor
  · intro h
    simp only [decodeAll] at h
    split at h <;> [cases h; skip]
    rename_i pl d₁ hpl
    split at h <;> [cases h; skip]
    rename_i hkey
    split at h <;> cases h
    rename_i list' hlist
    exact ⟨pl, d₁, list', hpl, fun hk => by_contra fun hn => hkey ⟨hk, hn⟩, hlist, rfl⟩
  · rintro ⟨pl, d₁, list', hpl, hprim, hlist, rfl⟩
    have hkey : ¬(0 < keys ∧ ¬pl.isPrimitive) := fun hk => hk.2 (hprim hk.1)
    simp only [decodeAll, hpl, if_neg hkey, hlist]

/-- How the loop can end early: with the end of a decoder, or because a key
is not a primitive. -/
theorem decodeAll_cons_eq_error {keys off : Nat} {offs : List Nat} {d : Decoder} {e : Stop} :
    decodeAll decode keys (off :: offs) d = .error e →
      decode off d = .error e ∨ ∃ pl d₁, decode off d = .ok (pl, d₁) ∧
        ((0 < keys ∧ ¬pl.isPrimitive ∧ e = .fail) ∨ decodeAll decode (keys - 1) offs d₁ = .error e) := by
  intro h
  simp only [decodeAll] at h
  split at h
  · rename_i e' he; cases h; exact .inl he
  · rename_i pl d₁ hpl
    refine .inr ⟨pl, d₁, hpl, ?_⟩
    split at h
    · rename_i hkey; cases h; exact .inl ⟨hkey.1, hkey.2, rfl⟩
    · split at h <;> cases h
      rename_i hlist
      exact .inr hlist

theorem decodeAll_ne_fuel (hdecode : ∀ off d, decode off d ≠ .error .fuel) {keys : Nat} {offs : List Nat}
    {d : Decoder} : decodeAll decode keys offs d ≠ .error .fuel := by
  induction offs generalizing keys d with
  | nil => simp [decodeAll]
  | cons off offs ih =>
    intro h
    rcases decodeAll_cons_eq_error h with h | ⟨pl, d₁, -, ⟨-, -, h⟩ | h⟩
    · exact hdecode off d h
    · cases h
    · exact ih h

/-- Two decoders that agree wherever both succeed agree on a whole list. -/
theorem decodeAll_stable (h : ∀ off d r r', decode off d = .ok r → decode' off d = .ok r' → r = r')
    {keys : Nat} {offs : List Nat} {d : Decoder} {r r' : List CFTypeRef × Decoder}
    (hr : decodeAll decode keys offs d = .ok r) (hr' : decodeAll decode' keys offs d = .ok r') : r = r' := by
  induction offs generalizing keys d r r' with
  | nil => cases hr; cases hr'; rfl
  | cons off offs ih =>
    obtain ⟨list, d₂⟩ := r
    obtain ⟨list', d₂'⟩ := r'
    obtain ⟨pl, d₁, rest, hpl, -, hrest, rfl⟩ := decodeAll_cons_eq_ok.mp hr
    obtain ⟨pl', d₁', rest', hpl', -, hrest', rfl⟩ := decodeAll_cons_eq_ok.mp hr'
    cases h off d _ _ hpl hpl'
    cases ih hrest hrest'
    rfl

end decodeAll

/-! ## Reading one object ends -/

theorem derefBytes_ends (m : Memory) (a n : Nat) : (m.derefBytes a n).Ends := nofun

theorem getSizedInt_ends (m : Memory) (data : Nat) (valSize : UInt8) : (getSizedInt m data valSize).Ends := by
  rw [Read.Ends, getSizedInt_result]; nofun

theorem checkPtrAdd_ends (x y : Nat) : (checkPtrAdd x y).Ends := Read.Ends.failIf_bind (Read.Ends.pure _)

theorem checkMul_ends (x y : Nat) : (checkMul x y).Ends := by
  simp only [checkMul]
  split
  · exact Read.Ends.pure _
  · exact Read.Ends.failIf_bind (Read.Ends.pure _)

theorem checkExtent_ends (m : Memory) (t : Trailer) (p cnt : Nat) : (checkExtent m t p cnt).Ends :=
  Read.Ends.bind (checkPtrAdd_ends _ _) fun _ h => by simp at h

theorem readInt_ends (m : Memory) (p endBytePtr : Nat) : (readInt m p endBytePtr).Ends :=
  Read.Ends.failIf_bind <| Read.Ends.bind nofun fun _ => Read.Ends.failIf_bind <|
    Read.Ends.bind (checkPtrAdd_ends _ _) fun _ => Read.Ends.failIf_bind <|
      Read.Ends.bind (getSizedInt_ends _ _ _) fun _ => Read.Ends.pure _

theorem readCount_ends (m : Memory) (t : Trailer) (marker : UInt8) (p : Nat) : (readCount m t marker p).Ends := by
  simp only [readCount]
  split
  · exact Read.Ends.bind (readInt_ends _ _ _) fun _ => Read.Ends.failIf_bind (Read.Ends.pure _)
  · exact Read.Ends.pure _

/-- Reading `n` bytes after the check of their extent. -/
theorem checkExtent_derefBytes_ends {m : Memory} {t : Trailer} {p n : Nat} {α : Type} {f : List UInt8 → Read α}
    (hf : ∀ bytes, (f bytes).Ends) : (do checkExtent m t p n; let bytes ← m.derefBytes p n; f bytes).Ends :=
  Read.Ends.bind (checkExtent_ends _ _ _ _) fun _ => Read.Ends.bind (derefBytes_ends _ _ _) hf

theorem readIntObject_ends (m : Memory) (t : Trailer) (marker : UInt8) (p : Nat) :
    (readIntObject m t marker p).Ends := by
  refine Read.Ends.bind (checkExtent_ends _ _ _ _) fun _ => Read.Ends.failIf_bind ?_
  refine Read.Ends.bind (getSizedInt_ends _ _ _) fun _ => ?_
  split <;> exact Read.Ends.pure _

theorem readReal_ends (m : Memory) (t : Trailer) (marker : UInt8) (p : Nat) : (readReal m t marker p).Ends := by
  simp only [readReal]
  split
  · exact checkExtent_derefBytes_ends fun _ => Read.Ends.pure _
  · exact checkExtent_derefBytes_ends fun _ => Read.Ends.pure _
  · exact Read.Ends.fail

theorem readUnicode16String_ends (m : Memory) (t : Trailer) (marker : UInt8) (p : Nat) :
    (readUnicode16String m t marker p).Ends :=
  Read.Ends.bind (readCount_ends _ _ _ _) fun _ => Read.Ends.bind (checkPtrAdd_ends _ _) fun _ =>
    Read.Ends.bind (checkPtrAdd_ends _ _) fun _ => Read.Ends.failIf_bind <|
      Read.Ends.bind (checkMul_ends _ _) fun _ => Read.Ends.failIf_bind <|
        Read.Ends.bind (derefBytes_ends _ _ _) fun _ => Read.Ends.pure _

theorem readUID_ends (m : Memory) (t : Trailer) (marker : UInt8) (p : Nat) : (readUID m t marker p).Ends :=
  Read.Ends.bind (checkExtent_ends _ _ _ _) fun _ => Read.Ends.bind (getSizedInt_ends _ _ _) fun _ =>
    Read.Ends.failIf_bind (Read.Ends.pure _)

theorem readContainer_ends (m : Memory) (t : Trailer) (kind : Kind) (marker : UInt8) (p : Nat) :
    (readContainer m t kind marker p).Ends := by
  refine Read.Ends.bind (readCount_ends _ _ _ _) fun _ => Read.Ends.bind ?_ fun _ => ?_
  · simp only [refCount]
    split
    · exact checkMul_ends _ _
    · exact Read.Ends.pure _
  · exact Read.Ends.bind (checkMul_ends _ _) fun _ => Read.Ends.bind (checkExtent_ends _ _ _ _) fun _ =>
      Read.Ends.bind (checkMul_ends _ _) fun _ => Read.Ends.pure _

theorem readObject_ends (m : Memory) (t : Trailer) (startOffset : Nat) : (readObject m t startOffset).Ends := by
  refine Read.Ends.bind nofun fun marker => ?_
  refine Read.Ends.ite ?_ <| Read.Ends.bind (checkPtrAdd_ends _ _) fun p => ?_
  · exact .ite (.pure _) (.ite (.pure _) (.ite (.pure _) .fail))
  · refine .ite (readIntObject_ends _ _ _ _).map <| .ite (readReal_ends _ _ _ _).map <| .ite ?_ <| .ite ?_ <|
      .ite ?_ <| .ite (readUnicode16String_ends _ _ _ _).map <| .ite (readUID_ends _ _ _ _).map <|
      .ite (readContainer_ends _ _ _ _ _) <| .ite (readContainer_ends _ _ _ _ _) <|
      .ite (readContainer_ends _ _ _ _ _) .fail
    · exact Read.Ends.map (.failIf_bind (checkExtent_derefBytes_ends fun _ => .pure _))
    · exact Read.Ends.map (.bind (readCount_ends _ _ _ _) fun _ => checkExtent_derefBytes_ends fun _ => .pure _)
    · exact Read.Ends.map (.bind (readCount_ends _ _ _ _) fun _ => checkExtent_derefBytes_ends fun _ => .pure _)

/-! ## The equations of the decoder -/

section Valid

variable {m : Memory} {t : Trailer} (hv : t.Valid m)

include hv

theorem readRefs_result {decode : Nat → Decoder → Read (CFTypeRef × Decoder)} {count keys p : Nat} {d : Decoder}
    (hp : m.base + 8 ≤ p) (hu : p + count * t.objectRefSize.toNat ≤ m.base + t.offsetTableOffset) :
    (readRefs m t decode count keys p d).result =
      decodeAll (fun off d => (decode off d).result) keys (childOffsets m t count p) d := by
  have h := hv.offsetTableOffset_lt
  have hfits := m.fits
  induction count generalizing keys p d with
  | zero => rfl
  | succ count ih =>
    rw [Nat.add_mul, Nat.one_mul] at hu
    have hoff := getOffsetOfRefAt_result hv hp (by omega)
    simp only [readRefs, childOffsets, decodeAll, Read.bind_of_ok hoff]
    cases hr : (decode (offsetOfRef m t (refAt m t p)) d).result with
    | error e => simp only [Read.bind_of_error hr]
    | ok r =>
      obtain ⟨pl, d₁⟩ := r
      simp only [Read.bind_of_ok hr]
      by_cases hkey : 0 < keys ∧ ¬pl.isPrimitive = true
      · rw [Read.failIf_of hkey, Read.fail_bind, if_pos hkey]; rfl
      · rw [Read.failIf_of_not hkey, Read.pure_bind, if_neg hkey, addPtr_of_lt (by omega), Read.bind_result,
          ih (by omega) (by omega)]
        cases decodeAll (fun off d => (decode off d).result) (keys - 1)
          (childOffsets m t count (p + t.objectRefSize.toNat)) d₁ <;> rfl

/-- One level of the decoder, in terms of the data. -/
theorem createObject2_result {option : Mutability} {fuel off : Nat} {set : Option (List Nat)} {curDepth : Int}
    {d : Decoder} :
    (createObject2 m t option (fuel + 1) off set curDepth d).result =
      match d.lookup off with
      | some plist => .ok (plist, d)
      | none =>
        if (set.getD []).contains off ∨ ¬InTable t off then .error .fail
        else
          match (readObject m t off).result with
          | .error e => .error e
          | .ok (.primitive value) => .ok (d.createPrimitive option off value)
          | .ok (.container kind count refs) =>
            match decodeAll (fun c d => (createObject2 m t option fuel c (enterPath set curDepth off)
                (curDepth + 1) d).result) (keyCount kind count) (childOffsets m t count refs) d with
            | .error e => .error e
            | .ok (list, d) => .ok (d.createContainer option off kind list) := by
  rw [createObject2]
  cases d.lookup off with
  | some plist => rfl
  | none =>
    dsimp only
    by_cases hpath : (set.getD []).contains off = true
    · rw [Read.failIf_of hpath, if_pos (.inl hpath)]; rfl
    by_cases hin : InTable t off
    · rw [Read.failIf_of_not hpath, Read.pure_bind, Read.failIf_of_not, Read.pure_bind, Read.bind_result,
        if_neg (not_or.mpr ⟨hpath, not_not.mpr hin⟩)]
      · have hsafe := (readObject_safe hv hin.1 hin.2).2
        cases hr : (readObject m t off).result with
        | error e => rfl
        | ok node =>
          cases node with
          | primitive value => rfl
          | container kind count refs =>
            obtain ⟨hl, hu⟩ := hsafe _ hr
            simp only [Except.bind, Read.bind_result, readRefs_result hv hl hu]
            cases decodeAll (fun c d => (createObject2 m t option fuel c (enterPath set curDepth off)
              (curDepth + 1) d).result) (keyCount kind count) (childOffsets m t count refs) d <;> rfl
      · rintro (h | h)
        · exact absurd hin.1 (by omega)
        · exact absurd hin.2 (by omega)
    · rw [Read.failIf_of_not hpath, Read.pure_bind, Read.failIf_of, if_pos (.inr hin)]
      · rfl
      · by_contra h
        exact hin ⟨by omega, by omega⟩

end Valid

/-! ## Termination -/

/-- The budget is enough for what is left of the path: without a path, for the
levels until it is made and one for each offset, and with a path, for each
offset that is not on it. -/
def Enough (t : Trailer) (fuel : Nat) (set : Option (List Nat)) (curDepth : Int) : Prop :=
  match set with
  | none => (16 - curDepth).toNat + t.offsetTableOffset + 1 ≤ fuel
  | some path =>
    path.Nodup ∧ (∀ off ∈ path, off < t.offsetTableOffset) ∧ t.offsetTableOffset - path.length + 1 ≤ fuel

theorem Enough.pos {t : Trailer} {fuel : Nat} {set : Option (List Nat)} {curDepth : Int}
    (h : Enough t fuel set curDepth) : fuel ≠ 0 := by
  cases set with
  | none => simp only [Enough] at h; omega
  | some path => have := h.2.2; omega

/-- A list of different numbers below `n` has at most `n` members. -/
theorem length_le_of_nodup {n : Nat} {l : List Nat} (h : l.Nodup) (hlt : ∀ x ∈ l, x < n) : l.length ≤ n := by
  have := (h.subperm fun x hx => List.mem_range.mpr (hlt x hx)).length_le
  simpa using this

theorem Enough.enterPath {t : Trailer} {fuel off : Nat} {set : Option (List Nat)} {curDepth : Int}
    (h : Enough t (fuel + 1) set curDepth) (hpath : off ∉ set.getD []) (hoff : off < t.offsetTableOffset) :
    Enough t fuel (enterPath set curDepth off) (curDepth + 1) := by
  cases set with
  | none =>
    simp only [Enough] at h
    by_cases hdepth : 15 < curDepth
    · simp only [BinaryPlist.enterPath, if_pos hdepth]
      exact ⟨by simp, by simpa using hoff, by simp only [List.length_singleton]; omega⟩
    · simp only [BinaryPlist.enterPath, if_neg hdepth, Enough]
      omega
  | some path =>
    obtain ⟨hnodup, hlt, hfuel⟩ := h
    have hnodup' : (off :: path).Nodup := List.nodup_cons.mpr ⟨hpath, hnodup⟩
    have hlt' : ∀ x ∈ off :: path, x < t.offsetTableOffset := by simpa using ⟨hoff, hlt⟩
    have hlen := length_le_of_nodup hnodup' hlt'
    refine ⟨hnodup', hlt', ?_⟩
    simp only [List.length_cons] at hlen ⊢
    omega

/-- The decoder ends: with enough budget it is never cut off, whatever the
data, the cache and the depth. -/
theorem createObject2_ends {m : Memory} {t : Trailer} (hv : t.Valid m) {option : Mutability} {fuel off : Nat}
    {set : Option (List Nat)} {curDepth : Int} {d : Decoder} (h : Enough t fuel set curDepth) :
    (createObject2 m t option fuel off set curDepth d).result ≠ .error .fuel := by
  induction fuel generalizing off set curDepth d with
  | zero => exact absurd rfl h.pos
  | succ fuel ih =>
    rw [createObject2_result hv]
    split
    · simp
    · split
      · simp
      · rename_i hin
        simp only [not_or, not_not, List.contains_iff_mem] at hin
        have hoff : off < t.offsetTableOffset := by
          have := hin.2.1; have := hin.2.2; simp only [Trailer.objectsRangeEnd] at this; omega
        have hread := readObject_ends m t off
        split
        · rename_i e he; rintro ⟨⟩; exact hread he
        · simp
        · split
          · rename_i e he
            rintro ⟨⟩
            exact decodeAll_ne_fuel (fun c d => ih (h.enterPath hin.1 hoff)) he
          · simp

end CFLite.BinaryPlist
