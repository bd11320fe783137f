import CFLite.Framework.Utf16
import CFLite.URL.Extents

/-!
# The ranges of components

`CFURLGetByteRangeForComponent` of `CFURL.c`, and the functions that find the
characters of a component and of its separators.

A range that is `(kCFNotFound, 0)` among the characters is `none`; the bytes are
counted with signs, as the code does.

* `getCharRangeForMask_eq`: the characters, from the ranges of the components.
-/

namespace CFLite.URL

open Framework

/-- `CFURLComponentType` -/
inductive ComponentType
  | scheme | netLocation | path | resourceSpecifier | user | password | userInfo | host | port | parameterString
  | query | fragment
  deriving DecidableEq

/-- `RESOURCE_SPECIFIER_MASK` -/
def RESOURCE_SPECIFIER_MASK : BitVec 32 :=
  Component.parameters.flag ||| Component.query.flag ||| Component.fragment.flag

/-- The mask that `_getCharRangeInDecomposableURL` has for the component. -/
def ComponentType.mask : ComponentType → BitVec 32
  | .scheme => Component.scheme.flag
  | .netLocation => NET_LOCATION_MASK
  | .path => Component.path.flag
  | .resourceSpecifier => RESOURCE_SPECIFIER_MASK
  | .user => Component.user.flag
  | .password => Component.password.flag
  | .userInfo => Component.user.flag ||| Component.password.flag
  | .host => Component.host.flag
  | .port => Component.port.flag
  | .parameterString => Component.parameters.flag
  | .query => Component.query.flag
  | .fragment => Component.fragment.flag

/-- The loop of `insertionLocationForMask`. -/
def lastComponentBeforeMask (flags mask : BitVec 32) : List Component → (last : Option Component) → Option Component
  | [], last => last
  | firstMaskFlag :: cs, last =>
    if firstMaskFlag.flag &&& mask ≠ 0 then last
    else lastComponentBeforeMask flags mask cs (if hasComponent flags firstMaskFlag then some firstMaskFlag else last)

def insertionLocationForMask (url : Parsed) (mask : BitVec 32) : Option Nat :=
  match lastComponentBeforeMask url.flags mask Component.all none with
  | none => some 0
  | some .scheme => do
    let schemeRg ← rangeForComponent url Component.scheme.flag
    let pathRg := rangeForComponent url Component.path.flag
    if pathRg.map CFRange.location = some (schemeRg.length + 1) then some (schemeRg.length + 1)
    else some (schemeRg.length + 3)
  | some c => (rangeForComponent url c.flag).map fun rg => rg.location + rg.length

/-- The locals of `_CFURLGetCharRangeForMask`. -/
structure MaskSearch where
  haveReachedMask : Bool
  beforeMask : Nat
  maskRange : Option CFRange

/-- `maskRange`, with one range more. -/
def extendMaskRange (maskRange : Option CFRange) (currRange : CFRange) : CFRange :=
  match maskRange with
  | none => currRange
  | some r => ⟨r.location, currRange.location + currRange.length - r.location⟩

/-- The loop of `_CFURLGetCharRangeForMask`, with `afterMask`. There is no
result when it reads past the ranges. -/
def searchMask (flags mask : BitVec 32) : List Component → List CFRange → MaskSearch → Option (MaskSearch × Option Nat)
  | [], _, s => some (s, none)
  | currentOption :: cs, ranges, s =>
    let s := { s with haveReachedMask := s.haveReachedMask || currentOption.flag &&& mask != 0 }
    if !hasComponent flags currentOption then searchMask flags mask cs ranges s
    else
      match ranges with
      | [] => none
      | currRange :: ranges =>
        if !s.haveReachedMask then
          searchMask flags mask cs ranges { s with beforeMask := currRange.location + currRange.length }
        else if currentOption.flag ≤ mask then
          searchMask flags mask cs ranges { s with maskRange := some (extendMaskRange s.maskRange currRange) }
        else some (s, some currRange.location)

/-- `_CFURLGetCharRangeForMask`: the range, and the range with its separators. -/
def getCharRangeForMask (url : Parsed) (mask : BitVec 32) : Option (Option CFRange × CFRange) := do
  let (s, afterMask) ← searchMask url.flags mask Component.all url.ranges ⟨false, 0, none⟩
  let maskEnd ← afterMask <|> s.maskRange.map fun maskRange => maskRange.location + maskRange.length
  some (s.maskRange, ⟨s.beforeMask, maskEnd - s.beforeMask⟩)

/-- `_getCharRangeInDecomposableURL` -/
def getCharRangeInDecomposableURL (url : Parsed) (component : ComponentType) :
    Option (Option CFRange × Option CFRange) :=
  if url.flags &&& component.mask = 0 then
    (insertionLocationForMask url component.mask).map fun location => (none, some ⟨location, 0⟩)
  else (getCharRangeForMask url component.mask).map fun (range, separated) => (range, some separated)

/-- `_getCharRangeInNonDecomposableURL`. `stringLength` is that of the URL string. -/
def getCharRangeInNonDecomposableURL (url : Parsed) (stringLength : Nat) (component : ComponentType) :
    Option (Option CFRange × Option CFRange) :=
  match component with
  | .scheme => do
    let schemeRg ← rangeForComponent url Component.scheme.flag
    some (some schemeRg, some ⟨0, schemeRg.length + 1⟩)
  | .resourceSpecifier => do
    let schemeRg ← rangeForComponent url Component.scheme.flag
    if schemeRg.length + 1 = stringLength then some (none, some ⟨schemeRg.length + 1, 0⟩)
    else some (some ⟨schemeRg.length + 1, stringLength - schemeRg.length - 1⟩,
      some ⟨schemeRg.length, stringLength - schemeRg.length⟩)
  | _ => some (none, none)

/-- `CFRange`, of bytes -/
structure ByteRange where
  location : Int
  length : Int
  deriving DecidableEq

/-- `CFRangeMake(kCFNotFound, 0)` -/
def ByteRange.notFound : ByteRange := ⟨-1, 0⟩

/-- The number of bytes that `CFStringGetBytes` counts for a range. -/
def countBytes (encode : List UniChar → List UInt8) (string : List UniChar) (location length : Nat) : Int :=
  (encode (slice string location (location + length))).length

/-- The two ranges of characters that `CFURLGetByteRangeForComponent` begins with. -/
def charRanges (url : Parsed) (stringLength : Nat) (component : ComponentType) :
    Option (Option CFRange × Option CFRange) :=
  if url.flags &&& IS_DECOMPOSABLE = 0 then getCharRangeInNonDecomposableURL url stringLength component
  else getCharRangeInDecomposableURL url component

/-- `CFURLGetByteRangeForComponent`, of a URL that is parsed. The second range is
asked for or not. -/
def getByteRangeForComponent (encode : List UniChar → List UInt8) (string : List UniChar) (url : Parsed)
    (component : ComponentType) (wantsSeparators : Bool) : Option (ByteRange × Option ByteRange) := do
  let (charRange, charRangeWithSeparators) ← charRanges url string.length component
  let getBytes := countBytes encode string
  match charRangeWithSeparators with
  | none => some (.notFound, if wantsSeparators then some .notFound else none)
  | some separated =>
    if wantsSeparators then
      let location := getBytes 0 separated.location
      match charRange with
      | none => some (.notFound, some ⟨location, getBytes separated.location separated.length⟩)
      | some range =>
        let maxCharRange := range.location + range.length
        let maxCharRangeWithSeparators := separated.location + separated.length
        let byteLocation :=
          if separated.location = range.location then location
          else separated.location + getBytes separated.location (range.location - separated.location)
        let byteRange : ByteRange := ⟨byteLocation, getBytes range.location range.length⟩
        let length :=
          if maxCharRangeWithSeparators = maxCharRange then byteRange.location + byteRange.length - location
          else byteRange.location + byteRange.length +
            getBytes maxCharRange (maxCharRangeWithSeparators - maxCharRange) - location
        some (byteRange, some ⟨location, length⟩)
    else
      match charRange with
      | none => some (.notFound, none)
      | some range => some (⟨getBytes 0 range.location, getBytes range.location range.length⟩, none)

/-! ## The characters of a component -/

/-- The first and the last component that the mask covers. -/
def ComponentType.first : ComponentType → Component
  | .scheme => .scheme
  | .netLocation | .user | .userInfo => .user
  | .password => .password
  | .host => .host
  | .port => .port
  | .path => .path
  | .resourceSpecifier | .parameterString => .parameters
  | .query => .query
  | .fragment => .fragment

def ComponentType.last : ComponentType → Component
  | .scheme => .scheme
  | .user => .user
  | .password | .userInfo => .password
  | .host => .host
  | .netLocation | .port => .port
  | .path => .path
  | .parameterString => .parameters
  | .query => .query
  | .resourceSpecifier | .fragment => .fragment

/-- The components before those of the mask, those of it, and those after it. -/
def ComponentType.earlier (component : ComponentType) : List Component := Component.all.take component.first.bit

def ComponentType.members (component : ComponentType) : List Component :=
  (Component.all.drop component.first.bit).take (component.last.bit + 1 - component.first.bit)

def ComponentType.later (component : ComponentType) : List Component := Component.all.drop (component.last.bit + 1)

theorem ComponentType.all_eq (component : ComponentType) :
    Component.all = component.earlier ++ (component.members ++ component.later) := by cases component <;> rfl

theorem ComponentType.mask_earlier (component : ComponentType) :
    ∀ c ∈ component.earlier, c.flag &&& component.mask = 0 := by cases component <;> decide

theorem ComponentType.mask_members (component : ComponentType) :
    ∀ c ∈ component.members, c.flag &&& component.mask ≠ 0 ∧ c.flag ≤ component.mask := by
  cases component <;> decide

theorem ComponentType.mask_later (component : ComponentType) :
    ∀ c ∈ component.later, ¬ c.flag ≤ component.mask := by cases component <;> decide

/-- Where a range ends. -/
def CFRange.stop (r : CFRange) : Nat := r.location + r.length

/-- The characters from `start` to `stop`. -/
structure Span where
  start : Nat
  stop : Nat
  deriving DecidableEq

/-- The characters from the first to the last component that the mask covers. -/
def bodySpan (f : Component → Option CFRange) (component : ComponentType) : Option Span :=
  match component.members.filterMap f with
  | [] => none
  | r :: rs => some ⟨r.location, (rs.map CFRange.stop).getLastD r.stop⟩

/-- The body with its separators: from the component before it, or the start of
the string, and to the component after it, if there is one. -/
def separatedSpan (f : Component → Option CFRange) (component : ComponentType) (body : Span) : Span :=
  ⟨((component.earlier.filterMap f).map CFRange.stop).getLastD 0,
    ((component.later.filterMap f).map CFRange.location).headD body.stop⟩

theorem foldl_extendMaskRange {r : CFRange} {rs : List CFRange} (h : ∀ r' ∈ rs, r.location ≤ r'.stop) :
    rs.foldl (fun maskRange r => some (extendMaskRange maskRange r)) (some r) =
      some ⟨r.location, (rs.map CFRange.stop).getLastD r.stop - r.location⟩ := by
  induction rs generalizing r with
  | nil => simp [CFRange.stop]
  | cons r' rs ih =>
    obtain ⟨hr', hrs⟩ := List.forall_mem_cons.mp h
    have hstop : (⟨r.location, r'.stop - r.location⟩ : CFRange).stop = r'.stop := Nat.add_sub_cancel' hr'
    have hextend : extendMaskRange (some r) r' = ⟨r.location, r'.stop - r.location⟩ := rfl
    rw [List.foldl_cons, hextend, ih (r := ⟨r.location, r'.stop - r.location⟩) hrs, List.map_cons, List.getLastD_cons,
      hstop]

section Search

variable {flags mask : BitVec 32} {f : Component → Option CFRange} {ds : List Component} {rs : List CFRange}
  (hflags : ∀ c, hasComponent flags c = (f c).isSome)

theorem searchMask_absent {c : Component} {cs : List Component} (h : hasComponent flags c = false) (s : MaskSearch) :
    searchMask flags mask (c :: cs) rs s =
      searchMask flags mask cs rs ⟨s.haveReachedMask || c.flag &&& mask != 0, s.beforeMask, s.maskRange⟩ := by
  rw [searchMask.eq_def]
  dsimp only
  rw [h]
  rfl

theorem searchMask_present {c : Component} {cs : List Component} {r : CFRange} (h : hasComponent flags c = true)
    (s : MaskSearch) :
    searchMask flags mask (c :: cs) (r :: rs) s =
      if (s.haveReachedMask || c.flag &&& mask != 0) = false then
        searchMask flags mask cs rs ⟨s.haveReachedMask || c.flag &&& mask != 0, r.stop, s.maskRange⟩
      else if c.flag ≤ mask then
        searchMask flags mask cs rs ⟨s.haveReachedMask || c.flag &&& mask != 0, s.beforeMask,
          some (extendMaskRange s.maskRange r)⟩
      else some (⟨s.haveReachedMask || c.flag &&& mask != 0, s.beforeMask, s.maskRange⟩, some r.location) := by
  rw [searchMask.eq_def]
  dsimp only
  rw [h, Bool.not_true, if_neg Bool.false_ne_true]
  cases (s.haveReachedMask || c.flag &&& mask != 0) <;> rfl

include hflags

theorem searchMask_earlier (cs : List Component) (hmask : ∀ c ∈ cs, c.flag &&& mask = 0) (beforeMask : Nat) :
    searchMask flags mask (cs ++ ds) (cs.filterMap f ++ rs) ⟨false, beforeMask, none⟩ =
      searchMask flags mask ds rs ⟨false, ((cs.filterMap f).map CFRange.stop).getLastD beforeMask, none⟩ := by
  induction cs generalizing beforeMask with
  | nil => rfl
  | cons c cs ih =>
    obtain ⟨hc, hcs⟩ := List.forall_mem_cons.mp hmask
    have hreached : (false || c.flag &&& mask != 0) = false := by simp [hc]
    cases hr : f c with
    | none =>
      have hnone : hasComponent flags c = false := by rw [hflags, hr, Option.isSome_none]
      rw [List.cons_append, searchMask_absent hnone, hreached, List.filterMap_cons_none hr]
      exact ih hcs beforeMask
    | some r =>
      have hsome : hasComponent flags c = true := by rw [hflags, hr, Option.isSome_some]
      rw [List.cons_append, List.filterMap_cons_some hr, List.cons_append, searchMask_present hsome, hreached,
        if_pos rfl, List.map_cons, List.getLastD_cons]
      exact ih hcs r.stop

theorem searchMask_members (cs : List Component) (hmask : ∀ c ∈ cs, c.flag &&& mask ≠ 0 ∧ c.flag ≤ mask)
    (haveReachedMask : Bool) (beforeMask : Nat) (maskRange : Option CFRange) :
    searchMask flags mask (cs ++ ds) (cs.filterMap f ++ rs) ⟨haveReachedMask, beforeMask, maskRange⟩ =
      searchMask flags mask ds rs ⟨haveReachedMask || !cs.isEmpty, beforeMask,
        (cs.filterMap f).foldl (fun maskRange r => some (extendMaskRange maskRange r)) maskRange⟩ := by
  induction cs generalizing haveReachedMask maskRange with
  | nil =>
    rw [List.isEmpty_nil, Bool.not_true, Bool.or_false]
    rfl
  | cons c cs ih =>
    obtain ⟨⟨hc, hle⟩, hcs⟩ := List.forall_mem_cons.mp hmask
    have hreached : (haveReachedMask || c.flag &&& mask != 0) = true := by rw [bne_iff_ne.mpr hc, Bool.or_true]
    have hlast : (haveReachedMask || !(c :: cs).isEmpty) = (true || !cs.isEmpty) := by simp
    rw [hlast]
    cases hr : f c with
    | none =>
      have hnone : hasComponent flags c = false := by rw [hflags, hr, Option.isSome_none]
      rw [List.cons_append, searchMask_absent hnone, hreached, List.filterMap_cons_none hr]
      exact ih hcs true maskRange
    | some r =>
      have hsome : hasComponent flags c = true := by rw [hflags, hr, Option.isSome_some]
      rw [List.cons_append, List.filterMap_cons_some hr, List.cons_append, searchMask_present hsome, hreached,
        if_neg (by decide), if_pos hle]
      exact ih hcs true _

theorem searchMask_later (cs : List Component) (hmask : ∀ c ∈ cs, ¬ c.flag ≤ mask) (beforeMask : Nat)
    (maskRange : Option CFRange) :
    searchMask flags mask cs (cs.filterMap f) ⟨true, beforeMask, maskRange⟩ =
      some (⟨true, beforeMask, maskRange⟩, ((cs.filterMap f).map CFRange.location).head?) := by
  induction cs with
  | nil => rfl
  | cons c cs ih =>
    obtain ⟨hc, hcs⟩ := List.forall_mem_cons.mp hmask
    cases hr : f c with
    | none =>
      have hnone : hasComponent flags c = false := by rw [hflags, hr, Option.isSome_none]
      rw [searchMask_absent hnone, List.filterMap_cons_none hr]
      exact ih hcs
    | some r =>
      have hsome : hasComponent flags c = true := by rw [hflags, hr, Option.isSome_some]
      rw [List.filterMap_cons_some hr, searchMask_present hsome, Bool.true_or, if_neg (by decide), if_neg hc]
      rfl

/-- The range of a component, and with its separators. -/
theorem getCharRangeForMask_eq {url : Parsed} (hurl : url.flags = flags)
    (hranges : url.ranges = Component.all.filterMap f)
    (hordered : (Component.all.filterMap f).Pairwise fun r r' => r.stop ≤ r'.location) {component : ComponentType}
    {body : Span} (hbody : bodySpan f component = some body) :
    getCharRangeForMask url component.mask =
      some (some ⟨body.start, body.stop - body.start⟩, ⟨(separatedSpan f component body).start,
        (separatedSpan f component body).stop - (separatedSpan f component body).start⟩) := by
  cases hmembers : component.members.filterMap f with
  | nil =>
    rw [bodySpan, hmembers] at hbody
    cases hbody
  | cons r rs =>
    obtain rfl : body = ⟨r.location, (rs.map CFRange.stop).getLastD r.stop⟩ := by
      rw [bodySpan, hmembers] at hbody
      exact (Option.some_inj.mp hbody).symm
    have hinside : ∀ r' ∈ rs, r.stop ≤ r'.location := by
      have hsub : (component.members.filterMap f).Sublist (Component.all.filterMap f) := by
        rw [component.all_eq]
        exact ((List.sublist_append_left ..).trans (List.sublist_append_right ..)).filterMap f
      have hpairwise := hordered.sublist hsub
      rw [hmembers] at hpairwise
      exact fun r' hr' => List.rel_of_pairwise_cons hpairwise hr'
    have hafter : ∀ r' ∈ rs, r.location ≤ r'.stop := fun r' hr' =>
      (Nat.le_add_right ..).trans ((hinside r' hr').trans (Nat.le_add_right ..))
    have hreached : component.members.isEmpty = false := by cases component <;> rfl
    have hsearch : searchMask flags component.mask Component.all url.ranges ⟨false, 0, none⟩ =
        some (⟨true, ((component.earlier.filterMap f).map CFRange.stop).getLastD 0,
          some ⟨r.location, (rs.map CFRange.stop).getLastD r.stop - r.location⟩⟩,
          ((component.later.filterMap f).map CFRange.location).head?) := by
      rw [hranges, component.all_eq, List.filterMap_append, List.filterMap_append,
        searchMask_earlier hflags _ component.mask_earlier, searchMask_members hflags _ component.mask_members,
        hreached, Bool.not_false, Bool.or_true, searchMask_later hflags _ component.mask_later, hmembers, List.foldl_cons,
        extendMaskRange, foldl_extendMaskRange hafter]
    have hstop : r.location + ((rs.map CFRange.stop).getLastD r.stop - r.location) =
        (rs.map CFRange.stop).getLastD r.stop := by
      refine Nat.add_sub_cancel' ?_
      rcases rs.map CFRange.stop |>.eq_nil_or_concat with hnil | ⟨stops, last, hlast⟩
      · rw [hnil]
        exact Nat.le_add_right ..
      · have hmem : last ∈ rs.map CFRange.stop := by simp [hlast]
        obtain ⟨r', hr', rfl⟩ := List.mem_map.mp hmem
        rw [hlast, List.concat_eq_append, List.getLastD_concat]
        exact hafter r' hr'
    rw [getCharRangeForMask, hurl, hsearch]
    simp only [Option.bind_eq_bind, Option.bind_some, Option.map_some, separatedSpan, List.headD_eq_head?_getD]
    rw [hstop]
    cases ((component.later.filterMap f).map CFRange.location).head? <;> rfl

end Search

end CFLite.URL
