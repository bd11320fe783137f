import CFLite.URL.Encodings

/-!
# The bytes of a component

`CFURLGetByteRangeForComponent` finds the bytes of a component in the encoded
URL string. When it is asked for the range with the separators too, it adds a
number of characters to a number of bytes.

* `componentSpan`, `spanWithSeparators`: the characters that are meant;
* `encode_span`: the bytes of a span are a part of those of the string;
* `getByteRangeForComponent_right_iff`: when the two ranges are right.
-/

namespace CFLite.URL

open Framework

variable {text : List UniChar} {component : ComponentType} {body : Span} {url : Parsed}

/-! ## The characters that are meant -/

/-- The characters of a component. A URL that is not hierarchical has a scheme and,
behind the colon, a resource specifier. -/
def componentSpan (text : List UniChar) (component : ComponentType) : Option Span :=
  if isHierarchical text then bodySpan ((components text).extent (slashesOf text)) component
  else
    match component with
    | .scheme => (components text).scheme.map fun scheme => ⟨0, scheme.length⟩
    | .resourceSpecifier =>
      (components text).scheme.bind fun scheme =>
        if scheme.length + 1 = text.length then none else some ⟨scheme.length + 1, text.length⟩
    | _ => none

theorem componentSpan_hierarchical (h : isHierarchical text = true) :
    componentSpan text component = bodySpan ((components text).extent (slashesOf text)) component := by
  unfold componentSpan
  exact if_pos h

/-- The same with the separators on both sides. -/
def spanWithSeparators (text : List UniChar) (component : ComponentType) (body : Span) : Span :=
  if isHierarchical text then separatedSpan ((components text).extent (slashesOf text)) component body
  else if component = .scheme then ⟨0, body.stop + 1⟩
  else ⟨body.start - 1, body.stop⟩

/-- Where the bytes of the characters are in the encoded text. -/
def Span.bytes (span : Span) (encode : List UniChar → List UInt8) (text : List UniChar) : ByteRange :=
  ⟨(encode (slice text 0 span.start)).length, (encode (slice text span.start span.stop)).length⟩

/-- The spans begin and end between characters, one inside the other. -/
structure Nested (text : List UniChar) (body separated : Span) : Prop where
  before : separated.start ≤ body.start
  inside : body.start ≤ body.stop
  after : body.stop ≤ separated.stop
  bodyStart : Boundary text body.start
  bodyStop : Boundary text body.stop
  separatedStart : Boundary text separated.start
  separatedStop : Boundary text separated.stop

/-- The bytes of a span are a part of those of the text. -/
theorem encode_span (encoding : TextEncoding) {span : Span} (hstart : Boundary text span.start)
    (hstop : Boundary text span.stop) (hle : span.start ≤ span.stop) :
    encoding.encode text = encoding.encode (slice text 0 span.start) ++
      encoding.encode (slice text span.start span.stop) ++ encoding.encode (slice text span.stop text.length) := by
  have hall : slice text 0 text.length = text := slice_all ..
  have hlength := hstop.1
  conv_lhs => rw [← hall]
  rw [encoding.encode_slice hstop (Nat.zero_le _) hlength le_rfl,
    encoding.encode_slice hstart (Nat.zero_le _) hle hlength]

/-! ## Spans of hierarchical URLs -/

section Ordered

variable {f : Component → Option CFRange}

theorem getLastD_mem {α : Type*} (l : List α) (a : α) : l.getLastD a = a ∨ l.getLastD a ∈ l := by
  rcases l.eq_nil_or_concat with rfl | ⟨before, b, rfl⟩
  · exact .inl rfl
  · simp

theorem headD_mem {α : Type*} (l : List α) (a : α) : l.headD a = a ∨ l.headD a ∈ l := by
  cases l with
  | nil => exact .inl rfl
  | cons b l => simp

/-- The spans of a component, when the ranges are in order and are cut between
characters. -/
theorem nested_separatedSpan (hordered : (Component.all.filterMap f).Pairwise fun r r' => r.stop ≤ r'.location)
    (hboundary : ∀ c r, f c = some r → Boundary text r.location ∧ Boundary text r.stop)
    (hbody : bodySpan f component = some body) : Nested text body (separatedSpan f component body) := by
  rw [component.all_eq, List.filterMap_append, List.filterMap_append, List.pairwise_append,
    List.pairwise_append] at hordered
  obtain ⟨-, ⟨hmembers, -, hlater⟩, hearlier⟩ := hordered
  have hcut : ∀ (cs : List Component) (r : CFRange), r ∈ cs.filterMap f → Boundary text r.location ∧
      Boundary text r.stop := by
    intro cs r hr
    obtain ⟨c, -, hc⟩ := List.mem_filterMap.mp hr
    exact hboundary c r hc
  cases hrs : component.members.filterMap f with
  | nil =>
    rw [bodySpan, hrs] at hbody
    cases hbody
  | cons r rs =>
    obtain rfl : body = ⟨r.location, (rs.map CFRange.stop).getLastD r.stop⟩ := by
      rw [bodySpan, hrs] at hbody
      exact (Option.some_inj.mp hbody).symm
    -- the last range of the component
    obtain ⟨last, hlast, hstop, hle⟩ : ∃ last ∈ component.members.filterMap f,
        last.stop = (rs.map CFRange.stop).getLastD r.stop ∧ r.location ≤ last.stop := by
      rw [hrs] at hmembers ⊢
      rcases getLastD_mem (rs.map CFRange.stop) r.stop with h | h
      · exact ⟨r, List.mem_cons_self, h.symm, Nat.le_add_right ..⟩
      · obtain ⟨r', hr', hstop⟩ := List.mem_map.mp h
        have hinside := List.rel_of_pairwise_cons hmembers hr'
        refine ⟨r', List.mem_cons_of_mem _ hr', hstop, ?_⟩
        exact (Nat.le_add_right ..).trans (hinside.trans (Nat.le_add_right ..))
    have hfirst : r ∈ component.members.filterMap f := by simp [hrs]
    rw [← hstop]
    obtain ⟨hstart, hbefore⟩ : Boundary text (separatedSpan f component ⟨r.location, last.stop⟩).start ∧
        (separatedSpan f component ⟨r.location, last.stop⟩).start ≤ r.location := by
      dsimp only [separatedSpan]
      rcases getLastD_mem ((component.earlier.filterMap f).map CFRange.stop) 0 with h | h
      · rw [h]
        exact ⟨boundary_zero, Nat.zero_le _⟩
      · obtain ⟨r', hr', hstop'⟩ := List.mem_map.mp h
        rw [← hstop']
        exact ⟨(hcut _ r' hr').2, hearlier r' hr' r (List.mem_append_left _ hfirst)⟩
    obtain ⟨hend, hafter⟩ : Boundary text (separatedSpan f component ⟨r.location, last.stop⟩).stop ∧
        last.stop ≤ (separatedSpan f component ⟨r.location, last.stop⟩).stop := by
      dsimp only [separatedSpan]
      rcases headD_mem ((component.later.filterMap f).map CFRange.location) last.stop with h | h
      · rw [h]
        exact ⟨(hcut _ last hlast).2, le_rfl⟩
      · obtain ⟨r', hr', hlocation⟩ := List.mem_map.mp h
        rw [← hlocation]
        exact ⟨(hcut _ r' hr').1, hlater last hlast r' hr'⟩
    exact ⟨hbefore, hle, hafter, (hcut _ r hfirst).1, (hcut _ last hlast).2, hstart, hend⟩

end Ordered

/-- The extents of the components of a hierarchical URL are in order. -/
theorem extents_ordered {parts : Components} {slashes : List UniChar} (h : IsHierarchical parts slashes) :
    (Component.all.filterMap (parts.extent slashes)).Pairwise fun r r' => r.stop ≤ r'.location := by
  have hbits : Component.all.Pairwise fun c d => c.bit < d.bit := by decide
  rw [List.pairwise_filterMap]
  exact hbits.imp fun hlt r hr r' hr' => extent_stop_le h hlt hr hr'

/-! ## URLs that are not hierarchical -/

/-- The scheme, the colon and the rest. -/
theorem opaque_text (h : isHierarchical text = false) :
    ∃ scheme rest, (components text).scheme = some scheme ∧ text = scheme ++ unichar ':' :: rest ∧
      components text = { scheme := some scheme, user := none, password := none, host := none, port := none,
                          path := none, parameters := none, query := none, fragment := none } := by
  have hsplit := splitScheme_eq (cutAt '#' text).1
  have hcut := cutAt_eq '#' text
  have hparts : components text = { scheme := (splitScheme (cutAt '#' text).1).1, user := none, password := none,
                                    host := none, port := none, path := none, parameters := none, query := none,
                                    fragment := none } := by
    rw [components, h, if_neg Bool.false_ne_true]
  cases hscheme : (splitScheme (cutAt '#' text).1).1 with
  | none => simp [isHierarchical, hscheme] at h
  | some scheme =>
    rw [hscheme] at hsplit hparts
    refine ⟨scheme, (splitScheme (cutAt '#' text).1).2 ++ after '#' (cutAt '#' text).2, by rw [hparts], ?_, hparts⟩
    conv_lhs => rw [← hcut, ← hsplit]
    simp [before]

theorem opaque_boundary {scheme rest : List UniChar} (h : text = scheme ++ unichar ':' :: rest) :
    Boundary text scheme.length ∧ Boundary text (scheme.length + 1) := by
  refine ⟨?_, ?_⟩
  · rw [h]
    exact Edge.boundary (.inr (by simp))
  · have hedge : Edge (scheme ++ [unichar ':']) rest := .inl (by simp)
    have hboundary := hedge.boundary
    rw [List.length_append, List.append_assoc] at hboundary
    rw [h]
    exact hboundary

theorem nested_span (hbody : componentSpan text component = some body) :
    Nested text body (spanWithSeparators text component body) := by
  cases h : isHierarchical text with
  | true =>
    rw [componentSpan_hierarchical h] at hbody
    rw [spanWithSeparators, h, if_pos rfl]
    have hparts := isHierarchical_components h
    refine nested_separatedSpan (extents_ordered hparts) (fun c r hr => ?_) hbody
    have hboundary := extent_boundary hparts hr
    rwa [flatMap_piece h] at hboundary
  | false =>
    obtain ⟨scheme, rest, hscheme, htext, -⟩ := opaque_text h
    obtain ⟨hcolon, hrest⟩ := opaque_boundary htext
    have hend : Boundary text text.length := by
      have hedge : Edge text [] := .inr (by simp)
      simpa using hedge.boundary
    rw [spanWithSeparators, h, if_neg Bool.false_ne_true]
    cases component with
    | scheme =>
      obtain rfl : (⟨0, scheme.length⟩ : Span) = body := by simpa [componentSpan, h, hscheme] using hbody
      rw [if_pos rfl]
      exact ⟨Nat.zero_le _, Nat.zero_le _, Nat.le_add_right .., boundary_zero, hcolon, boundary_zero, hrest⟩
    | resourceSpecifier =>
      obtain ⟨-, rfl⟩ : scheme.length + 1 ≠ text.length ∧ (⟨scheme.length + 1, text.length⟩ : Span) = body := by
        simpa [componentSpan, h, hscheme] using hbody
      rw [if_neg (by decide)]
      exact ⟨Nat.sub_le _ _, hrest.1, le_rfl, hrest, hend, hcolon, hend⟩
    | _ => simp [componentSpan, h] at hbody

/-! ## The bytes -/

theorem decomposable_iff (flags : BitVec 32) : flags &&& IS_DECOMPOSABLE = 0 ↔ flags.getLsbD 15 = false := by
  rw [show IS_DECOMPOSABLE = BitVec.twoPow 32 15 by decide, BitVec.and_twoPow]
  cases flags.getLsbD 15 with
  | true => simpa using show BitVec.twoPow 32 15 ≠ 0 by decide
  | false => simp

theorem countBytes_span (encode : List UniChar → List UInt8) {a b : Nat} (h : a ≤ b) :
    countBytes encode text a (b - a) = (encode (slice text a b)).length := by
  rw [countBytes, Nat.add_sub_cancel' h]

/-- The bytes, from the characters. The locations are right when the separators begin
with the component, or the bytes before them are as many as the characters. -/
theorem getByteRange_of_charRanges (encoding : TextEncoding) {separated : Span} (h : Nested text body separated)
    (hranges : charRanges url text.length component = some (some ⟨body.start, body.stop - body.start⟩,
      some ⟨separated.start, separated.stop - separated.start⟩)) :
    getByteRangeForComponent encoding.encode text url component false =
        some (body.bytes encoding.encode text, none) ∧
      ∃ range rangeWithSeparators, getByteRangeForComponent encoding.encode text url component true =
          some (range, some rangeWithSeparators) ∧
        (range = body.bytes encoding.encode text ∧ rangeWithSeparators = separated.bytes encoding.encode text ↔
          separated.start = body.start ∨
            (encoding.encode (slice text 0 separated.start)).length = separated.start) := by
  have hbefore := h.before
  have hinside := h.inside
  have hafter := h.after
  have hbodyStop := h.bodyStop.1
  have hstop := h.separatedStop.1
  -- the bytes of the parts
  have hhead := congrArg List.length (encoding.encode_slice h.separatedStart (Nat.zero_le _) hbefore (by omega))
  have htail := congrArg List.length (encoding.encode_slice h.bodyStart hbefore (by omega) hstop)
  have hbody := congrArg List.length (encoding.encode_slice h.bodyStop hinside hafter hstop)
  rw [List.length_append] at hhead htail hbody
  refine ⟨?_, ?_⟩
  · rw [getByteRangeForComponent, hranges]
    simp only [Option.bind_eq_bind, Option.bind_some, Bool.false_eq_true, if_false, countBytes_span _ hinside]
    rw [← Nat.sub_zero body.start, countBytes_span _ (Nat.zero_le _)]
    rfl
  · rw [getByteRangeForComponent, hranges]
    simp only [Option.bind_eq_bind, Option.bind_some, if_true, countBytes_span _ hinside]
    refine ⟨_, _, rfl, ?_⟩
    have hzero : countBytes encoding.encode text 0 (separated.start - 0) =
        (encoding.encode (slice text 0 separated.start)).length := countBytes_span _ (Nat.zero_le _)
    have hbetween : countBytes encoding.encode text separated.start (body.start - separated.start) =
        (encoding.encode (slice text separated.start body.start)).length := countBytes_span _ hbefore
    rw [Nat.sub_zero] at hzero
    rw [Nat.add_sub_cancel' hinside, Nat.add_sub_cancel' (hbefore.trans (hinside.trans hafter)),
      countBytes_span _ hafter, hzero, hbetween]
    simp only [Span.bytes, ByteRange.mk.injEq, and_true, true_and]
    have hnone : ∀ i j, i = j → (encoding.encode (slice text i j)).length = 0 := by
      intro i j hij
      rw [hij, show slice text j j = [] by simp [slice], encoding.encode_nil]
      rfl
    have hnoneBefore := hnone separated.start body.start
    have hnoneAfter := hnone body.stop separated.stop
    clear hzero hbetween hranges h
    split_ifs <;> omega

/-! ## The characters that are found -/

section Flags

variable {flags : BitVec 32} {c : Component}

/-- The mask consists of the flags of the components that it covers. -/
theorem mask_eq (component : ComponentType) :
    component.mask = component.members.foldr (fun c mask => c.flag ||| mask) 0 := by
  cases component <;> decide

theorem mask_and_flag (component : ComponentType) : ∀ c ∈ component.members, component.mask &&& c.flag = c.flag := by
  cases component <;> decide

theorem mask_ne_zero (hc : c ∈ component.members) (h : hasComponent flags c = true) :
    flags &&& component.mask ≠ 0 := by
  intro hzero
  have hand : flags &&& c.flag = 0 := by
    rw [← mask_and_flag component c hc, ← BitVec.and_assoc, hzero]
    exact BitVec.zero_and
  rw [hasComponent, hand] at h
  simp at h

theorem mask_eq_zero (h : ∀ c ∈ component.members, hasComponent flags c = false) :
    flags &&& component.mask = 0 := by
  rw [mask_eq]
  generalize component.members = members at h
  induction members with
  | nil => simp
  | cons c cs ih =>
    obtain ⟨hc, hcs⟩ := List.forall_mem_cons.mp h
    have hand : flags &&& c.flag = 0 := by simpa [hasComponent] using hc
    rw [List.foldr_cons, BitVec.and_or_distrib_left, hand, ih hcs]
    simp

end Flags

theorem exists_member {f : Component → Option CFRange} (h : bodySpan f component = some body) :
    ∃ c ∈ component.members, (f c).isSome = true := by
  cases hrs : component.members.filterMap f with
  | nil =>
    rw [bodySpan, hrs] at h
    cases h
  | cons r rs =>
    obtain ⟨c, hc, hr⟩ := List.mem_filterMap.mp (show r ∈ component.members.filterMap f by simp [hrs])
    exact ⟨c, hc, by simp [hr]⟩

theorem charRanges_of_span (hbody : componentSpan text component = some body) (baseHasDirectoryPath : Bool)
    {theFlags : BitVec 32} (hflags : ∀ c, hasComponent theFlags c = false)
    (hdecomposable : theFlags.getLsbD 15 = false) :
    ∃ url, parseComponents text baseHasDirectoryPath theFlags = some url ∧
      charRanges url text.length component = some (some ⟨body.start, body.stop - body.start⟩,
        some ⟨(spanWithSeparators text component body).start,
          (spanWithSeparators text component body).stop - (spanWithSeparators text component body).start⟩) := by
  obtain ⟨url, hparse, hranges, hhas, hkind⟩ := ranges_of_parse text baseHasDirectoryPath hflags hdecomposable
  have hextents : ∀ c, hasComponent url.flags c = ((components text).extent (slashesOf text) c).isSome := fun c => by
    rw [hhas, Components.extent, Option.isSome_map]
  refine ⟨url, hparse, ?_⟩
  cases h : isHierarchical text with
  | true =>
    rw [componentSpan_hierarchical h] at hbody
    obtain ⟨c, hc, hsome⟩ := exists_member hbody
    have hmask := mask_ne_zero hc (by rwa [hextents])
    rw [h] at hkind
    have hbit : ¬ url.flags &&& IS_DECOMPOSABLE = 0 := by
      rw [decomposable_iff, hkind]
      decide
    rw [charRanges, if_neg hbit, getCharRangeInDecomposableURL, if_neg hmask,
      getCharRangeForMask_eq hextents rfl hranges (extents_ordered (isHierarchical_components h)) hbody,
      spanWithSeparators, h, if_pos rfl]
    rfl
  | false =>
    obtain ⟨scheme, rest, hscheme, htext, -⟩ := opaque_text h
    have hrange : rangeForComponent url Component.scheme.flag = some ⟨0, scheme.length⟩ := by
      have heq := rangeForComponent_eq hextents .scheme
      rw [← hranges] at heq
      rw [heq, Components.extent, show (components text).get .scheme = some scheme from hscheme]
      rfl
    rw [h] at hkind
    rw [charRanges, if_pos (by rwa [decomposable_iff]), spanWithSeparators, h, if_neg Bool.false_ne_true]
    cases component with
    | scheme =>
      obtain rfl : (⟨0, scheme.length⟩ : Span) = body := by simpa [componentSpan, h, hscheme] using hbody
      simp [getCharRangeInNonDecomposableURL, hrange]
    | resourceSpecifier =>
      obtain ⟨hne, rfl⟩ : scheme.length + 1 ≠ text.length ∧ (⟨scheme.length + 1, text.length⟩ : Span) = body := by
        simpa [componentSpan, h, hscheme] using hbody
      simp [getCharRangeInNonDecomposableURL, hrange, hne, Nat.sub_sub]
    | _ => simp [componentSpan, h] at hbody

/-! ## Components that are not there -/

theorem lastComponentBeforeMask_has {flags mask : BitVec 32} (cs : List Component) {last : Option Component}
    (hlast : ∀ c ∈ last, hasComponent flags c = true) :
    ∀ c ∈ lastComponentBeforeMask flags mask cs last, hasComponent flags c = true := by
  induction cs generalizing last with
  | nil => exact hlast
  | cons c cs ih =>
    rw [lastComponentBeforeMask]
    split
    · exact hlast
    · refine ih ?_
      split
      · rename_i hc
        simpa using hc
      · exact hlast

/-- Reading no range that is not there. -/
theorem insertionLocation_isSome {mask : BitVec 32}
    (h : ∀ c, hasComponent url.flags c = true → (rangeForComponent url c.flag).isSome = true) :
    (insertionLocationForMask url mask).isSome = true := by
  have hhas := @lastComponentBeforeMask_has url.flags mask Component.all none (by simp)
  rw [insertionLocationForMask]
  cases hlast : lastComponentBeforeMask url.flags mask Component.all none with
  | none => rfl
  | some c =>
    obtain ⟨r, hr⟩ := Option.isSome_iff_exists.mp (h c (hhas c hlast))
    cases c with
    | scheme =>
      simp only [hr, Option.bind_eq_bind, Option.bind_some]
      split <;> rfl
    | _ => simp [hr]

theorem charRanges_of_none (hbody : componentSpan text component = none) (baseHasDirectoryPath : Bool)
    {theFlags : BitVec 32} (hflags : ∀ c, hasComponent theFlags c = false)
    (hdecomposable : theFlags.getLsbD 15 = false) :
    ∃ url place, parseComponents text baseHasDirectoryPath theFlags = some url ∧
      charRanges url text.length component = some (none, place) := by
  obtain ⟨url, hparse, hranges, hhas, hkind⟩ := ranges_of_parse text baseHasDirectoryPath hflags hdecomposable
  have hextents : ∀ c, hasComponent url.flags c = ((components text).extent (slashesOf text) c).isSome := fun c => by
    rw [hhas, Components.extent, Option.isSome_map]
  have hrange : ∀ c, rangeForComponent url c.flag = (components text).extent (slashesOf text) c := fun c => by
    have heq := rangeForComponent_eq hextents c
    rwa [← hranges] at heq
  cases h : isHierarchical text with
  | true =>
    rw [componentSpan_hierarchical h] at hbody
    have hmask : url.flags &&& component.mask = 0 := by
      refine mask_eq_zero fun c hc => ?_
      rw [hextents]
      cases hrs : component.members.filterMap ((components text).extent (slashesOf text)) with
      | nil => simpa using List.filterMap_eq_nil_iff.mp hrs c hc
      | cons r rs => simp [bodySpan, hrs] at hbody
    have hbit : ¬ url.flags &&& IS_DECOMPOSABLE = 0 := by
      rw [decomposable_iff, hkind, h]
      decide
    have hsome : (insertionLocationForMask url component.mask).isSome = true :=
      insertionLocation_isSome fun c hc => by rwa [hrange, ← hextents]
    obtain ⟨place, hplace⟩ := Option.isSome_iff_exists.mp hsome
    refine ⟨url, some ⟨place, 0⟩, hparse, ?_⟩
    rw [charRanges, if_neg hbit, getCharRangeInDecomposableURL, if_pos hmask, hplace]
    rfl
  | false =>
    obtain ⟨scheme, rest, hscheme, htext, -⟩ := opaque_text h
    have hschemeRange : rangeForComponent url Component.scheme.flag = some ⟨0, scheme.length⟩ := by
      rw [hrange, Components.extent, show (components text).get .scheme = some scheme from hscheme]
      rfl
    have hbit : url.flags &&& IS_DECOMPOSABLE = 0 := by rwa [decomposable_iff, hkind]
    have hcases : ∃ place, getCharRangeInNonDecomposableURL url text.length component = some (none, place) := by
      cases component with
      | scheme => simp [componentSpan, h, hscheme] at hbody
      | resourceSpecifier =>
        have hlength : scheme.length + 1 = text.length := by simpa [componentSpan, h, hscheme] using hbody
        simp [getCharRangeInNonDecomposableURL, hschemeRange, hlength]
      | _ => exact ⟨none, rfl⟩
    obtain ⟨place, hplace⟩ := hcases
    refine ⟨url, place, hparse, ?_⟩
    rw [charRanges, if_pos hbit, hplace]

/-! ## The ranges of bytes -/

/-- What the two ranges are to be. -/
def RightRanges (encode : List UniChar → List UInt8) (text : List UniChar) (component : ComponentType)
    (answer : Option (ByteRange × Option ByteRange)) : Prop :=
  match componentSpan text component with
  | none => ∃ place, answer = some (.notFound, some place)
  | some body => answer = some (body.bytes encode text,
      some ((spanWithSeparators text component body).bytes encode text))

/-- Without the separators the code finds the bytes of every component, and none of
those that are not there. With them it is right exactly if the separators begin with the
component, or the bytes before them are as many as the characters. -/
theorem getByteRangeForComponent_right_iff (encoding : TextEncoding) (text : List UniChar) (component : ComponentType)
    (baseHasDirectoryPath : Bool) (theFlags : BitVec 32) (hflags : ∀ c, hasComponent theFlags c = false)
    (hdecomposable : theFlags.getLsbD 15 = false) :
    ∃ url, parseComponents text baseHasDirectoryPath theFlags = some url ∧
      getByteRangeForComponent encoding.encode text url component false =
        some ((componentSpan text component).elim .notFound fun body => body.bytes encoding.encode text, none) ∧
      (∀ body, componentSpan text component = some body → encoding.encode text =
        encoding.encode (slice text 0 body.start) ++ encoding.encode (slice text body.start body.stop) ++
          encoding.encode (slice text body.stop text.length)) ∧
      (RightRanges encoding.encode text component (getByteRangeForComponent encoding.encode text url component true) ↔
        ∀ body, componentSpan text component = some body →
          (spanWithSeparators text component body).start = body.start ∨
            (encoding.encode (slice text 0 (spanWithSeparators text component body).start)).length =
              (spanWithSeparators text component body).start) := by
  cases hbody : componentSpan text component with
  | none =>
    obtain ⟨url, place, hparse, hranges⟩ := charRanges_of_none hbody baseHasDirectoryPath hflags hdecomposable
    refine ⟨url, hparse, ?_, by simp, ?_⟩
    · rw [getByteRangeForComponent, hranges]
      cases place <;> rfl
    · refine iff_of_true ?_ (by simp)
      rw [RightRanges, hbody, getByteRangeForComponent, hranges]
      cases place with
      | none => exact ⟨_, rfl⟩
      | some place => exact ⟨_, rfl⟩
  | some body =>
    have hnested := nested_span hbody
    obtain ⟨url, hparse, hranges⟩ := charRanges_of_span hbody baseHasDirectoryPath hflags hdecomposable
    obtain ⟨hplain, range, rangeWithSeparators, hboth, hright⟩ := getByteRange_of_charRanges encoding hnested hranges
    refine ⟨url, hparse, hplain, ?_, ?_⟩
    · rintro _ ⟨⟩
      exact encode_span encoding hnested.bodyStart hnested.bodyStop hnested.inside
    · rw [RightRanges, hbody]
      simp only [hboth, Option.some.injEq, Prod.mk.injEq, hright, forall_eq']

/-- The host of `x://é@h` is where the code says, but not when it is asked for the
separators too. -/
theorem getByteRange_host :
    ∃ url, parseComponents (literal ['x', ':', '/', '/', 'é', '@', 'h']) false 0 = some url ∧
      getByteRangeForComponent utf8.encode (literal ['x', ':', '/', '/', 'é', '@', 'h']) url .host false =
        some (⟨7, 1⟩, none) ∧
      ¬ RightRanges utf8.encode (literal ['x', ':', '/', '/', 'é', '@', 'h']) .host
        (getByteRangeForComponent utf8.encode (literal ['x', ':', '/', '/', 'é', '@', 'h']) url .host true) := by
  obtain ⟨url, hparse, hplain, -, hright⟩ := getByteRangeForComponent_right_iff utf8
    (literal ['x', ':', '/', '/', 'é', '@', 'h']) .host false 0 (fun c => by cases c <;> decide) (by decide)
  have hbody : componentSpan (literal ['x', ':', '/', '/', 'é', '@', 'h']) .host = some ⟨6, 7⟩ := by decide
  refine ⟨url, hparse, ?_, fun h => ?_⟩
  · rw [hplain, hbody]
    decide
  · have hcases := hright.mp h ⟨6, 7⟩ hbody
    revert hcases
    decide

end CFLite.URL
