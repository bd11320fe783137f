import CFLite.URL.ParseSteps

/-!
# Parsing is a partition

* `parseComponents_spec`: the ranges that `_parseComponents` keeps are those of
  the components of the string, in order and disjoint, and as many as there are
  flags set;
* `rangeForComponent_eq`: `_rangeForComponent` finds the range of a component;
* `parseComponents_partition`: with their delimiters the components are the
  string again, but for the `//` of an empty net location.
-/

namespace CFLite.URL

open Framework

variable {string rest : List UniChar} {p : Parse} {parts : Component → Option (List UniChar)} {c d : Component}
  {k : Nat}

/-! ## The network location -/

theorem parseUser_withBase {base idx j : Nat} :
    (parseUser string base idx (p.withBase j)).withBase k = (parseUser string base idx p).withBase k := by
  rw [parseUser, parseUser]
  split <;> rfl

theorem parseUser_stringLength {base idx : Nat} : (parseUser string base idx p).stringLength = p.stringLength := by
  rw [parseUser]
  split <;> rfl

theorem parseHost_withBase {base extent j : Nat} :
    (parseHost string base extent (p.withBase j)).withBase k = (parseHost string base extent p).withBase k := by
  rw [parseHost, parseHost]
  generalize findPort string base extent = result
  obtain ⟨found, ipv6⟩ := result
  cases found <;> cases ipv6 <;> rfl

theorem parseLogin_withBase {base extent j : Nat} :
    (parseLogin string base extent (p.withBase j)).withBase k = (parseLogin string base extent p).withBase k := by
  rw [parseLogin, parseLogin]
  cases firstIn (· == unichar '@') string base extent with
  | none => exact parseHost_withBase
  | some idx =>
    dsimp only
    rw [← parseHost_withBase (j := 0), ← parseHost_withBase (j := 0) (p := parseUser string base idx p),
      parseUser_withBase]

/-- Components with those of a net location. -/
def withNetLocation (parts : Component → Option (List UniChar)) (netLocation : Option NetLocation) :
    Component → Option (List UniChar) :=
  Function.update (Function.update (Function.update (Function.update parts
    .user (netLocation.bind NetLocation.user)) .password (netLocation.bind NetLocation.password))
    .host (netLocation.map NetLocation.host)) .port (netLocation.bind NetLocation.port)

theorem withNetLocation_none (h : ∀ d, parts d ≠ none → d.bit < 5 → d.bit < 1) :
    withNetLocation parts none = parts := by
  have hnone : ∀ d, 1 ≤ d.bit → d.bit < 5 → parts d = none := fun d hlow hhigh => by
    by_contra hne
    exact absurd (h d hne hhigh) (by omega)
  rw [withNetLocation]
  simp only [Option.bind_none, Option.map_none]
  rw [update_none (hnone .user (by decide) (by decide)), update_none (hnone .password (by decide) (by decide)),
    update_none (hnone .host (by decide) (by decide)), update_none (hnone .port (by decide) (by decide))]

/-- The parts of the net location between the base index and `k`. -/
theorem parseLogin_holds (h : Holds string p parts rest) (hbase : p.baseIdx ≤ k) (hlen : k ≤ p.stringLength)
    (hnew : ∀ d, parts d ≠ none → d.bit < 5 → d.bit < 1) :
    Holds string ((parseLogin string p.baseIdx k p).withBase k)
      (withNetLocation parts (some (netLocationParts (slice string p.baseIdx k))))
      (slice string k p.stringLength) := by
  have hcut := cut_slice (· == unichar '@') string p.baseIdx k
  have huser : parts .user = none := by
    by_contra hne
    exact absurd (hnew _ hne (by decide)) (by decide)
  have hpassword : parts .password = none := by
    by_contra hne
    exact absurd (hnew _ hne (by decide)) (by decide)
  rw [parseLogin, withNetLocation, netLocationParts, cutAt, hcut]
  cases hfirst : firstIn (· == unichar '@') string p.baseIdx k with
  | none =>
    simp only [Option.bind_some, Option.map_some]
    rw [update_none huser, update_none hpassword]
    exact parseHost_holds h hbase hlen fun d hd hlow => (hnew d hd hlow).trans (by decide)
  | some idx =>
    obtain ⟨hle, hlt, _⟩ := firstIn_eq_some hfirst
    have hlogin := (parseUser_holds h hle (by omega) hnew).advance (k := idx + 1) (Nat.le_succ idx)
      (by rw [Parse.withBase_stringLength, parseUser_stringLength]; omega)
    have hhost := parseHost_holds hlogin (k := k) hlt
      (by rw [Parse.withBase_stringLength, Parse.withBase_stringLength, parseUser_stringLength]; exact hlen)
      (fun d hd hlow => by
        by_cases hlogged : d = .user ∨ d = .password
        · rcases hlogged with rfl | rfl <;> decide
        · rw [not_or] at hlogged
          rw [Function.update_of_ne hlogged.2, Function.update_of_ne hlogged.1] at hd
          exact (hnew d hd hlow).trans (by decide))
    simp only [Parse.withBase_withBase, Parse.withBase_baseIdx, Parse.withBase_stringLength, parseHost_withBase,
      parseUser_stringLength] at hhost
    exact hhost

theorem take_two_slice {a b : Nat} (hb : b ≤ string.length) :
    (slice string a b).take 2 = literal ['/', '/'] ↔
      2 ≤ b - a ∧ string[a]? = some (unichar '/') ∧ string[a + 1]? = some (unichar '/') := by
  constructor
  · intro h
    have hlen := congrArg List.length h
    rw [List.length_take, length_slice hb] at hlen
    have htwo : 2 ≤ b - a := by simpa [literal] using hlen
    obtain ⟨x, hx⟩ : ∃ x, string[a]? = some x := ⟨_, List.getElem?_eq_getElem (by omega)⟩
    obtain ⟨y, hy⟩ : ∃ y, string[a + 1]? = some y := ⟨_, List.getElem?_eq_getElem (by omega)⟩
    rw [slice_cons hx (by omega), slice_cons hy (by omega)] at h
    have heq : x = unichar '/' ∧ y = unichar '/' := by simpa [literal] using h
    exact ⟨htwo, by rw [hx, heq.1], by rw [hy, heq.2]⟩
  · rintro ⟨htwo, hx, hy⟩
    rw [slice_cons hx (by omega), slice_cons hy (by omega)]
    rfl

theorem parseNetLocation_holds (h : Holds string p parts rest) (hnew : ∀ d, parts d ≠ none → d.bit < 5 → d.bit < 1) :
    Holds string (parseNetLocation string p)
      (withNetLocation parts (((splitNetLocation rest).1.filter (· ≠ [])).map netLocationParts))
      (splitNetLocation rest).2 := by
  obtain rfl := h.rest_eq
  rw [parseNetLocation, splitNetLocation]
  by_cases hslashes : (slice string p.baseIdx p.stringLength).take 2 = literal ['/', '/']
  · have hcond := (take_two_slice h.length_le).mp hslashes
    have htwo : 2 + p.baseIdx ≤ p.stringLength := by
      have := h.base_le
      omega
    have hdrop : (slice string p.baseIdx p.stringLength).drop 2 = slice string (2 + p.baseIdx) p.stringLength := by
      rw [slice_cons hcond.2.1 (by omega), slice_cons hcond.2.2 (by omega), Nat.add_comm 2]
      rfl
    obtain ⟨extent, hextent⟩ : ∃ extent, extent =
        (firstIn endsNetLocation string (2 + p.baseIdx) p.stringLength).getD p.stringLength := ⟨_, rfl⟩
    have hbounds : 2 + p.baseIdx ≤ extent ∧ extent ≤ p.stringLength := by
      cases hfirst : firstIn endsNetLocation string (2 + p.baseIdx) p.stringLength with
      | none =>
        rw [hfirst, Option.getD_none] at hextent
        omega
      | some idx =>
        obtain ⟨hle, hlt, _⟩ := firstIn_eq_some hfirst
        rw [hfirst, Option.getD_some] at hextent
        omega
    obtain ⟨htake, hrest⟩ := takeWhile_slice endsNetLocation string (2 + p.baseIdx) p.stringLength
    rw [if_pos hcond, if_pos hslashes, hdrop, htake, hrest, ← hextent]
    have hpassed := h.advance (k := 2 + p.baseIdx) (Nat.le_add_left _ _) htwo
    have hends : (firstIn (fun ch => ch == unichar '/' || ch == unichar '?') string (2 + p.baseIdx)
        p.stringLength).getD p.stringLength = extent := hextent.symm
    dsimp only
    rw [hends]
    by_cases hempty : extent = 2 + p.baseIdx
    · rw [if_neg (not_not.mpr hempty), hempty, slice_self]
      have hnothing : (some ([] : List UniChar)).filter (· ≠ []) = none := rfl
      rw [hnothing, Option.map_none, withNetLocation_none hnew]
      exact hpassed
    · have hne : slice string (2 + p.baseIdx) extent ≠ [] := by
        intro hnil
        have hlen := congrArg List.length hnil
        rw [length_slice (hbounds.2.trans h.length_le), List.length_nil] at hlen
        omega
      have hsome : (some (slice string (2 + p.baseIdx) extent)).filter (· ≠ []) =
          some (slice string (2 + p.baseIdx) extent) := by simp [Option.filter, hne]
      have hlogin := parseLogin_holds hpassed (k := extent) hbounds.1 hbounds.2 hnew
      rw [Parse.withBase_baseIdx, parseLogin_withBase] at hlogin
      rw [if_pos hempty, hsome, Option.map_some]
      exact hlogin
  · rw [if_neg fun hcond => hslashes ((take_two_slice h.length_le).mpr hcond), if_neg hslashes]
    rw [Option.filter_none, Option.map_none, withNetLocation_none hnew]
    exact h

/-! ## The path -/

theorem Recorded.setFlagsIf (h : Recorded string p parts) {condition : Bool} {bits : BitVec 32}
    (hbits : ∀ c, hasComponent bits c = false) : Recorded string (p.setFlagsIf condition bits) parts := by
  rw [Parse.setFlagsIf]
  split
  · exact { h with flags := fun c => by rw [Parse.setFlags, hasComponent_or, hbits, Bool.or_false, h.flags] }
  · exact h

theorem hasComponent_pathsMatch (c : Component) : hasComponent POSIX_AND_URL_PATHS_MATCH c = false := by
  cases c <;> decide

theorem hasComponent_directory (c : Component) : hasComponent IS_DIRECTORY c = false := by cases c <;> decide

theorem netLocationMask_iff (flags : BitVec 32) : flags &&& NET_LOCATION_MASK ≠ 0 ↔
    (hasComponent flags .host || hasComponent flags .user || hasComponent flags .password ||
      hasComponent flags .port) = true := by
  have hor : ∀ x y : BitVec 32, x ||| y ≠ 0 ↔ x ≠ 0 ∨ y ≠ 0 := fun x y => by
    simp [imp_iff_not_or]
  rw [NET_LOCATION_MASK, BitVec.and_or_distrib_left, BitVec.and_or_distrib_left, BitVec.and_or_distrib_left, hor, hor,
    hor]
  simp [hasComponent]

theorem slice_ne_nil {a b : Nat} (hb : b ≤ string.length) : slice string a b ≠ [] ↔ b - a ≠ 0 := by
  rw [← length_slice hb, ne_eq, ne_eq, List.length_eq_zero_iff]

/-- The path is what is left, when something is left or there is a net location. -/
theorem parsePath_recorded (baseHasDirectoryPath : Bool) (h : Holds string p parts rest) :
    Recorded string (parsePath string baseHasDirectoryPath p) (Function.update parts .path
      (if rest ≠ [] ∨ ((parts .host).isSome || (parts .user).isSome || (parts .password).isSome ||
        (parts .port).isSome) = true then some rest else none)) := by
  have hsome : ∀ c, hasComponent p.flags c = (parts c).isSome := fun c => by
    rw [h.flags, ← h.texts, Option.isSome_map]
  have hend : p.baseIdx + (p.stringLength - p.baseIdx) = p.stringLength := Nat.add_sub_cancel' h.base_le
  have hrest : rest ≠ [] ↔ p.stringLength - p.baseIdx ≠ 0 := by
    rw [← h.rest_eq]
    exact slice_ne_nil h.length_le
  have hnone : parts .path = none := h.toRecorded.none_iff.mp h.path
  have hrecord := h.toRecorded.record .path p.baseIdx (p.stringLength - p.baseIdx) hnone
    (by rw [hend]; exact h.length_le) (fun d r hr hlt => h.front d r hr hlt)
    (fun d r hr hlt => by rw [hend]; exact h.back d r hr hlt)
  rw [hend, h.rest_eq] at hrecord
  have hcond : (p.stringLength - p.baseIdx ≠ 0 ∨ p.flags &&& NET_LOCATION_MASK ≠ 0) ↔
      (rest ≠ [] ∨ ((parts .host).isSome || (parts .user).isSome || (parts .password).isSome ||
        (parts .port).isSome) = true) := by
    rw [netLocationMask_iff, hsome, hsome, hsome, hsome, ← hrest]
  rw [parsePath]
  by_cases hpath : p.stringLength - p.baseIdx ≠ 0 ∨ p.flags &&& NET_LOCATION_MASK ≠ 0
  · rw [if_pos hpath, if_pos (hcond.mp hpath)]
    dsimp only
    split
    · exact (hrecord.setFlagsIf hasComponent_pathsMatch).setFlagsIf hasComponent_directory
    · exact hrecord.setFlagsIf hasComponent_directory
  · rw [if_neg hpath, if_neg fun h => hpath (hcond.mpr h), update_none hnone]
    exact h.toRecorded

/-! ## Reading the ranges -/

theorem rangeIndex_eq {n : Nat} (hn : n < 32) (flags : BitVec 32) :
    rangeIndex flags (BitVec.twoPow 32 n) = ((List.range n).filter flags.getLsbD).length := by
  induction n generalizing flags with
  | zero =>
    rw [rangeIndex, if_pos (by decide)]
    rfl
  | succ n ih =>
    have hlow : (BitVec.twoPow 32 (n + 1)).getLsbD 0 = false := by simp
    have hzero : BitVec.twoPow 32 (n + 1) ≠ 0 := by
      intro heq
      have hbit := congrArg (fun x : BitVec 32 => x.getLsbD (n + 1)) heq
      simp [hn] at hbit
    have hshift : BitVec.twoPow 32 (n + 1) >>> 1 = BitVec.twoPow 32 n := by
      ext i hi
      simp only [BitVec.getElem_ushiftRight, BitVec.getElem_twoPow, BitVec.getLsbD_twoPow]
      simp [hn, Nat.add_comm 1 i, eq_comm]
    rw [rangeIndex, hlow, if_neg Bool.false_ne_true, if_neg hzero, hshift, ih (by omega)]
    have hbits : ∀ i, (flags >>> 1).getLsbD i = flags.getLsbD (i + 1) := fun i => by
      rw [BitVec.getLsbD_ushiftRight, Nat.add_comm]
    rw [List.range_succ_eq_map, List.filter_cons, List.filter_map]
    have hfun : flags.getLsbD ∘ Nat.succ = (flags >>> 1).getLsbD := funext fun i => (hbits i).symm
    rw [hfun]
    split
    · rw [List.length_cons, List.length_map, Nat.add_comm]
    · rw [List.length_map, Nat.zero_add]

theorem Component.all_split (c : Component) :
    Component.all = Component.all.take c.bit ++ c :: Component.all.drop (c.bit + 1) ∧
      (Component.all.take c.bit).map Component.bit = List.range c.bit := by
  cases c <;> exact ⟨rfl, rfl⟩

/-- `_rangeForComponent` finds the range of a component among those that are kept. -/
theorem rangeForComponent_eq {flags : BitVec 32} {f : Component → Option CFRange}
    (hflags : ∀ c, hasComponent flags c = (f c).isSome) (c : Component) :
    rangeForComponent ⟨flags, Component.all.filterMap f⟩ c.flag = f c := by
  have hbit := c.bit_lt
  rw [rangeForComponent]
  cases hf : f c with
  | none =>
    have hzero : flags &&& c.flag = 0 := by
      have hnot := hflags c
      rw [hf] at hnot
      simpa [hasComponent] using hnot
    rw [if_pos hzero]
  | some r =>
    have hnonzero : flags &&& c.flag ≠ 0 := by
      have hset := hflags c
      rw [hf] at hset
      simpa [hasComponent] using hset
    obtain ⟨hsplit, hbits⟩ := c.all_split
    have hcount : ((List.range c.bit).filter flags.getLsbD).length =
        ((Component.all.take c.bit).filterMap f).length := by
      have hfun : flags.getLsbD ∘ Component.bit = fun c => (f c).isSome :=
        funext fun d => by rw [Function.comp_apply, ← hasComponent_eq, hflags]
      rw [← hbits, List.filter_map, List.length_map, hfun, List.length_filterMap_eq_countP,
        List.countP_eq_length_filter]
    rw [if_neg hnonzero, Component.flag, rangeIndex_eq (by omega), hcount]
    have hranges : Component.all.filterMap f = (Component.all.take c.bit).filterMap f ++
        r :: (Component.all.drop (c.bit + 1)).filterMap f := by
      conv_lhs => rw [hsplit]
      rw [List.filterMap_append, List.filterMap_cons_some hf]
    dsimp only
    rw [hranges, List.getElem?_append_right le_rfl, Nat.sub_self]
    rfl

/-- The ranges that are kept. -/
theorem pack_eq (h : Recorded string p parts) : pack p = some (Component.all.filterMap p.ranges) := by
  have hkept : Component.all.filter (hasComponent p.flags) = Component.all.filter fun c => (p.ranges c).isSome :=
    List.filter_congr fun c _ => h.flags c
  have hmap : ∀ l : List Component,
      (l.filter fun c => (p.ranges c).isSome).mapM p.ranges = some (l.filterMap p.ranges) := by
    intro l
    induction l with
    | nil => rfl
    | cons c l ih =>
      cases hc : p.ranges c with
      | none =>
        rw [List.filter_cons_of_neg (by simp [hc]), List.filterMap_cons_none hc]
        exact ih
      | some r =>
        rw [List.filter_cons_of_pos (by simp [hc]), List.filterMap_cons_some hc, List.mapM_cons, hc, ih]
        rfl
  rw [pack, hkept, if_pos h.count.ge, hmap]

/-! ## The whole parse -/

/-- The text of a component. -/
def Parsed.component (string : List UniChar) (parsed : Parsed) (c : Component) : Option (List UniChar) :=
  (rangeForComponent parsed c.flag).map (CFRange.text string)

/-- What parsing a string has to keep. -/
structure IsPartition (string : List UniChar) (parsed : Parsed) : Prop where
  flags : ∀ c, hasComponent parsed.flags c = ((components string).get c).isSome
  count : parsed.ranges.length = (Component.all.filter (hasComponent parsed.flags)).length
  ranges : ∀ c, parsed.component string c = (components string).get c
  inside : ∀ r ∈ parsed.ranges, r.location + r.length ≤ string.length
  ordered : parsed.ranges.Pairwise fun r r' => r.location + r.length ≤ r'.location

theorem Component.all_sorted : Component.all.Pairwise fun c d => c.bit < d.bit := by decide

/-- The kept ranges of the components `parts`. -/
theorem isPartition_filterMap (string : List UniChar) {f : Component → Option CFRange} {flags : BitVec 32}
    (hflags : ∀ c, hasComponent flags c = (f c).isSome)
    (htexts : ∀ c, (f c).map (CFRange.text string) = (components string).get c)
    (hinside : ∀ c r, f c = some r → r.location + r.length ≤ string.length)
    (hordered : ∀ c d r r', f c = some r → f d = some r' → c.bit < d.bit → r.location + r.length ≤ r'.location) :
    IsPartition string ⟨flags, Component.all.filterMap f⟩ where
  flags c := by rw [hflags, ← htexts, Option.isSome_map]
  count := by
    have hfun : hasComponent flags = fun c => (f c).isSome := funext hflags
    rw [hfun, List.length_filterMap_eq_countP, List.countP_eq_length_filter]
  ranges c := by rw [Parsed.component, rangeForComponent_eq hflags, htexts]
  inside r hr := by
    obtain ⟨c, _, hc⟩ := List.mem_filterMap.mp hr
    exact hinside c r hc
  ordered := by
    refine List.pairwise_filterMap.mpr (Component.all_sorted.imp fun {c d} hlt r hr r' hr' => ?_)
    exact hordered c d r r' hr hr' hlt

theorem parseTail_baseIdx {delimiter : Char} : (parseTail delimiter c string p).baseIdx = p.baseIdx := by
  rw [parseTail]
  split <;> rfl

/-- The fragment and the scheme. -/
def outerParts (string : List UniChar) : Component → Option (List UniChar) :=
  Function.update (Function.update (fun _ => none) .fragment (cutAt '#' string).2) .scheme
    (splitScheme (cutAt '#' string).1).1

/-- The locals after the fragment and the scheme. -/
theorem parseScheme_start (string : List UniChar) {theFlags : BitVec 32} (hflags : ∀ c, hasComponent theFlags c = false) :
    Holds string (parseScheme string (parseFragment string
        { flags := IS_PARSED ||| theFlags, ranges := fun _ => none, numRanges := 0, baseIdx := 0,
          stringLength := string.length }))
      (outerParts string) (splitScheme (cutAt '#' string).1).2 := by
  have hparsed : ∀ c, hasComponent IS_PARSED c = false := by intro c; cases c <;> decide
  have hstart : Holds string
      { flags := IS_PARSED ||| theFlags, ranges := fun _ => none, numRanges := 0, baseIdx := 0,
        stringLength := string.length } (fun _ => none) string :=
    { flags := fun c => by simp [hasComponent_or, hparsed, hflags]
      count := rfl
      texts := fun _ => rfl
      inside := fun _ _ hr => by cases hr
      ordered := fun _ _ _ _ hr => by cases hr
      front := fun _ _ hr => by cases hr
      back := fun _ _ hr => by cases hr
      path := rfl
      base_le := Nat.zero_le _
      length_le := le_rfl
      rest_eq := slice_all }
  have hfragment := parseTail_holds '#' hstart (c := .fragment) (by decide) rfl
    (fun d hd _ => absurd rfl hd)
  rw [parseFragment_eq]
  refine parseScheme_holds hfragment parseTail_baseIdx fun d hd => ?_
  by_cases hd' : d = .fragment
  · subst hd'
    decide
  · rw [Function.update_of_ne hd'] at hd
    exact absurd rfl hd

theorem isCompliant_eq (h : Holds string p parts rest) :
    isCompliant string p = (!(parts .scheme).isSome || rest.head? == some (unichar '/')) := by
  have hscheme : hasComponent p.flags .scheme = (parts .scheme).isSome := by
    rw [h.flags, ← h.texts, Option.isSome_map]
  have hhead : (p.baseIdx = p.stringLength ∧ rest = []) ∨
      (p.baseIdx ≠ p.stringLength ∧ rest.head? = string[p.baseIdx]?) := by
    rcases h.base_le.eq_or_lt with heq | hlt
    · refine .inl ⟨heq, ?_⟩
      rw [← h.rest_eq, heq, slice_self]
    · obtain ⟨x, hx⟩ : ∃ x, string[p.baseIdx]? = some x := ⟨_, List.getElem?_eq_getElem (by
        have := h.length_le
        omega)⟩
      refine .inr ⟨by omega, ?_⟩
      rw [← h.rest_eq, slice_cons hx hlt, hx]
      rfl
  rw [isCompliant, hscheme]
  cases (parts .scheme).isSome with
  | false => rfl
  | true =>
    rcases hhead with ⟨heq, rfl⟩ | ⟨hne, hhead⟩
    · simp [heq]
    · rw [hhead, bne]
      cases string[p.baseIdx]? == some (unichar '/') <;> simp [hne]

theorem hasComponent_decomposable (c : Component) : hasComponent IS_DECOMPOSABLE c = false := by cases c <;> decide

/-- The locals after all steps. -/
theorem parse_hierarchical (h : Holds string p (outerParts string) (splitScheme (cutAt '#' string).1).2)
    (hhier : isHierarchical string = true) (baseHasDirectoryPath : Bool) :
    Recorded string (parsePath string baseHasDirectoryPath (parseTail ';' .parameters string
      (parseTail '?' .query string (parseNetLocation string (p.setFlags IS_DECOMPOSABLE)))))
      (components string).get := by
  have hlocated := parseNetLocation_holds (h.setFlags hasComponent_decomposable) fun d hd hlow => by
    cases d <;> simp [outerParts, Component.bit] at hd hlow ⊢
  have hquery := parseTail_holds '?' hlocated (c := .query) (by decide)
    (by simp [withNetLocation, outerParts]) fun d hd hlow => by
      cases d <;> simp [withNetLocation, outerParts, Component.bit] at hd hlow ⊢
  have hparams := parseTail_holds ';' hquery (c := .parameters) (by decide)
    (by simp [withNetLocation, outerParts]) fun d hd hlow => by
      cases d <;> simp [withNetLocation, outerParts, Component.bit] at hd hlow ⊢
  have hpath := parsePath_recorded baseHasDirectoryPath hparams
  refine cast (congrArg (Recorded string _) (funext fun c => ?_)) hpath
  have hcomponents : components string = hierarchicalComponents (splitScheme (cutAt '#' string).1).1
      (splitScheme (cutAt '#' string).1).2 (cutAt '#' string).2 := by
    rw [components, if_pos hhier]
  rw [hcomponents]
  cases c with
  | path =>
    simp only [Function.update_self, hierarchicalComponents, Components.get]
    generalize ((splitNetLocation (splitScheme (cutAt '#' string).1).2).1.filter (· ≠ [])).map netLocationParts = net
    cases net <;> simp [withNetLocation, outerParts]
  | scheme => rfl
  | user => rfl
  | password => rfl
  | host => rfl
  | port => rfl
  | parameters => rfl
  | query => rfl
  | fragment => rfl

/-- The range of a scheme that is all there is. -/
theorem parse_opaque (h : Holds string p (outerParts string) (splitScheme (cutAt '#' string).1).2)
    (hsole : isHierarchical string = false) :
    ∃ range, p.ranges .scheme = some range ∧
      IsPartition string ⟨p.flags &&& ~~~Component.fragment.flag, [range]⟩ := by
  have hcomponents : components string =
      { scheme := (splitScheme (cutAt '#' string).1).1, user := none, password := none, host := none, port := none,
        path := none, parameters := none, query := none, fragment := none } := by
    rw [components, hsole, if_neg Bool.false_ne_true]
  have hscheme := h.texts .scheme
  have houter : outerParts string .scheme = (splitScheme (cutAt '#' string).1).1 := Function.update_self ..
  obtain ⟨name, hname⟩ : ∃ name, (splitScheme (cutAt '#' string).1).1 = some name := by
    refine Option.isSome_iff_exists.mp ?_
    by_contra hnone
    simp [isHierarchical, hnone] at hsole
  rw [houter, hname] at hscheme
  obtain ⟨range, hrange, htext⟩ := Option.map_eq_some_iff.mp hscheme
  refine ⟨range, hrange, ?_⟩
  have hranges : Component.all.filterMap (Function.update (fun _ => none) Component.scheme (some range)) = [range] :=
    rfl
  rw [← hranges]
  refine isPartition_filterMap string (fun c => ?_) (fun c => ?_) (fun c r hr => ?_) fun c d r r' hr hr' hlt => ?_
  · have hclear : hasComponent (p.flags &&& ~~~Component.fragment.flag) c =
        (hasComponent p.flags c && !hasComponent Component.fragment.flag c) := by
      have hbit := c.bit_lt
      simp only [hasComponent_eq, BitVec.getLsbD_and, BitVec.getLsbD_not]
      simp [show c.bit < 32 by omega]
    rw [hclear, h.flags, ← Option.isSome_map, h.texts, hasComponent_flag]
    cases c <;> simp [outerParts, hname]
  · rw [hcomponents]
    cases c <;> simp [Components.get, hname, htext]
  · cases c <;> simp at hr
    subst hr
    exact h.inside .scheme range hrange
  · cases c <;> simp at hr
    cases d <;> simp [Component.bit] at hr' hlt

/-- Parsing always ends, and partitions the string. -/
theorem parseComponents_spec (string : List UniChar) (baseHasDirectoryPath : Bool) {theFlags : BitVec 32}
    (hflags : ∀ c, hasComponent theFlags c = false) :
    ∃ parsed, parseComponents string baseHasDirectoryPath theFlags = some parsed ∧ IsPartition string parsed := by
  have hstart := parseScheme_start string hflags
  have hcompliant := isCompliant_eq hstart
  rw [outerParts, Function.update_self] at hcompliant
  have hhier : isHierarchical string = (!(splitScheme (cutAt '#' string).1).1.isSome ||
      (splitScheme (cutAt '#' string).1).2.head? == some (unichar '/')) := rfl
  rw [← hhier] at hcompliant
  rw [parseComponents]
  dsimp only
  rw [hcompliant]
  cases hkind : isHierarchical string with
  | true =>
    have hparse := parse_hierarchical hstart hkind baseHasDirectoryPath
    refine ⟨_, by rw [if_pos rfl, pack_eq hparse, Option.map_some], ?_⟩
    exact isPartition_filterMap string hparse.flags hparse.texts hparse.inside hparse.ordered
  | false =>
    obtain ⟨range, hrange, hpartition⟩ := parse_opaque hstart hkind
    exact ⟨_, by rw [if_neg Bool.false_ne_true, hrange, Option.map_some], hpartition⟩

/-- All components with their texts. -/
def Parsed.components (string : List UniChar) (parsed : Parsed) : Components :=
  { scheme := parsed.component string .scheme, user := parsed.component string .user,
    password := parsed.component string .password, host := parsed.component string .host,
    port := parsed.component string .port, path := parsed.component string .path,
    parameters := parsed.component string .parameters, query := parsed.component string .query,
    fragment := parsed.component string .fragment }

theorem IsPartition.components_eq {parsed : Parsed} (h : IsPartition string parsed) :
    parsed.components string = components string := by
  rw [Parsed.components]
  simp only [h.ranges]
  rfl

/-- A scheme that no slash follows is all that there is; else the components and
their delimiters are the string, but for the `//` of an empty net location. -/
structure Rebuilds (string : List UniChar) (parsed : Parsed) : Prop where
  schemeOnly : isHierarchical string = false → ∀ c, hasComponent parsed.flags c = decide (c = .scheme)
  whole : isHierarchical string = true → hasEmptyNetLocation string = false →
    (parsed.components string).unparse = string
  slashes : isHierarchical string = true → hasEmptyNetLocation string = true →
    ∃ rest, string = before (parsed.component string .scheme) ':' ++ literal ['/', '/'] ++ rest ∧
      (parsed.components string).unparse = before (parsed.component string .scheme) ':' ++ rest

theorem IsPartition.rebuilds {parsed : Parsed} (h : IsPartition string parsed) : Rebuilds string parsed where
  schemeOnly hsole c := by
    have hscheme : (splitScheme (cutAt '#' string).1).1.isSome = true := by
      by_contra hnone
      simp [isHierarchical, hnone] at hsole
    rw [h.flags, components, hsole, if_neg Bool.false_ne_true]
    cases c <;> simp [Components.get, hscheme]
  whole hhier hnot := by
    rw [h.components_eq]
    exact (components_unparse hhier).1 hnot
  slashes hhier hempty := by
    rw [h.components_eq, h.ranges]
    exact (components_unparse hhier).2 hempty

/-- Parsing a string partitions it. -/
theorem parseComponents_partition (string : List UniChar) (baseHasDirectoryPath : Bool) {theFlags : BitVec 32}
    (hflags : ∀ c, hasComponent theFlags c = false) :
    ∃ parsed, parseComponents string baseHasDirectoryPath theFlags = some parsed ∧ IsPartition string parsed ∧
      Rebuilds string parsed := by
  obtain ⟨parsed, hparsed, hpartition⟩ := parseComponents_spec string baseHasDirectoryPath hflags
  exact ⟨parsed, hparsed, hpartition, hpartition.rebuilds⟩

theorem hasComponent_zero (c : Component) : hasComponent 0 c = false := by cases c <;> decide

theorem parseComponents_partition_file :
    ∃ parsed, parseComponents (literal ['f', ':', '/', '/', 'h', '/', 'p']) false 0 = some parsed ∧
      IsPartition (literal ['f', ':', '/', '/', 'h', '/', 'p']) parsed ∧
      Rebuilds (literal ['f', ':', '/', '/', 'h', '/', 'p']) parsed :=
  parseComponents_partition _ false hasComponent_zero

/-- No component keeps the `//` of `///p`. -/
theorem slashes_lost : ¬ ∀ string : List UniChar, ∃ parsed, parseComponents string false 0 = some parsed ∧
    (isHierarchical string = true → (parsed.components string).unparse = string) := by
  intro h
  obtain ⟨parsed, hparsed, hwhole⟩ := h (literal ['/', '/', '/', 'p'])
  obtain ⟨parsed', hparsed', hpartition⟩ := parseComponents_spec (literal ['/', '/', '/', 'p']) false
    hasComponent_zero
  obtain rfl : parsed = parsed' := Option.some_inj.mp (hparsed.symm.trans hparsed')
  have heq := hwhole (by decide)
  rw [hpartition.components_eq] at heq
  exact absurd heq (by decide)

end CFLite.URL
