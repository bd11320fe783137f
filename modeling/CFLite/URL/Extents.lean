import CFLite.URL.ParseSpec

/-!
# Where the components are

A URL string is the texts of its components and the delimiters between them.
`Components.piece` is a component with the delimiters that belong to it, and
`Components.leading` what comes before the place of a component.

* `flatMap_piece`: the pieces are the string;
* `ranges_of_parse`: the ranges that `_parseComponents` keeps are where the
  pieces have the components.
-/

namespace CFLite.URL

open Framework

variable {string rest : List UniChar} {p : Parse} {parts : Component → Option (List UniChar)} {c d : Component}
  {k : Nat} {f : Component → Nat} {decomposable : Bool}

/-! ## Pieces -/

/-- The delimiter right before a component. -/
def Component.delimiter : Component → List UniChar
  | .password | .port => [unichar ':']
  | .parameters => [unichar ';']
  | .query => [unichar '?']
  | .fragment => [unichar '#']
  | .scheme | .user | .host | .path => []

/-- A component and its delimiters, with what comes before the net location as
a part of the scheme's. The `'@'` is there when there is a user. -/
def Components.piece (parts : Components) (slashes : List UniChar) : Component → List UniChar
  | .scheme => before parts.scheme ':' ++ slashes
  | .user => parts.user.getD []
  | .password => parts.user.elim [] fun _ => after ':' parts.password ++ [unichar '@']
  | .host => parts.host.getD []
  | .port => after ':' parts.port
  | .path => parts.path.getD []
  | .parameters => after ';' parts.parameters
  | .query => after '?' parts.query
  | .fragment => after '#' parts.fragment

/-- What comes before a component and its delimiter, or before the place for them. -/
def Components.leading (parts : Components) (slashes : List UniChar) (c : Component) : List UniChar :=
  (Component.all.take c.bit).flatMap (parts.piece slashes)

/-- What comes after the place of a component. -/
def Components.trailing (parts : Components) (slashes : List UniChar) (c : Component) : List UniChar :=
  (Component.all.drop c.bit).flatMap (parts.piece slashes)

/-- Where the text of a component starts. -/
def Components.start (parts : Components) (slashes : List UniChar) (c : Component) : Nat :=
  (parts.leading slashes c).length + c.delimiter.length

/-- The characters of a component. -/
def Components.extent (parts : Components) (slashes : List UniChar) (c : Component) : Option CFRange :=
  (parts.get c).map fun text => ⟨parts.start slashes c, text.length⟩

/-- What a URL string has before its net location, or where it would be. -/
def slashesOf (text : List UniChar) : List UniChar :=
  if (splitNetLocation (splitScheme (cutAt '#' text).1).2).1.isSome then literal ['/', '/'] else []

theorem leading_append_trailing (parts : Components) (slashes : List UniChar) (c : Component) :
    parts.leading slashes c ++ parts.trailing slashes c = Component.all.flatMap (parts.piece slashes) := by
  rw [Components.leading, Components.trailing, ← List.flatMap_append, List.take_append_drop]

theorem leading_next (parts : Components) (slashes : List UniChar) (h : d.bit = c.bit + 1) :
    parts.leading slashes d = parts.leading slashes c ++ parts.piece slashes c := by
  have htake : Component.all.take d.bit = Component.all.take c.bit ++ [c] := by
    cases c <;> cases d <;> first | rfl | cases h
  rw [Components.leading, htake, List.flatMap_append, List.flatMap_singleton, Components.leading]

theorem trailing_next (parts : Components) (slashes : List UniChar) (h : d.bit = c.bit + 1) :
    parts.trailing slashes c = parts.piece slashes c ++ parts.trailing slashes d := by
  have hdrop : Component.all.drop c.bit = c :: Component.all.drop d.bit := by
    cases c <;> cases d <;> first | rfl | cases h
  rw [Components.trailing, hdrop, List.flatMap_cons, Components.trailing]

theorem leading_scheme (parts : Components) (slashes : List UniChar) : parts.leading slashes .scheme = [] := rfl

theorem leading_user (parts : Components) (slashes : List UniChar) :
    parts.leading slashes .user = before parts.scheme ':' ++ slashes := by
  rw [leading_next parts slashes (c := .scheme) rfl]
  rfl

theorem before_login (user password : Option (List UniChar)) :
    before (user.map (· ++ after ':' password)) '@' =
      user.getD [] ++ user.elim [] fun _ => after ':' password ++ [unichar '@'] := by
  cases user <;> simp [before]

theorem leading_host (parts : Components) (slashes : List UniChar) :
    parts.leading slashes .host =
      parts.leading slashes .user ++ before (parts.user.map (· ++ after ':' parts.password)) '@' := by
  rw [leading_next parts slashes (c := .password) rfl, leading_next parts slashes (c := .user) rfl, before_login,
    List.append_assoc]
  rfl

theorem leading_path (parts : Components) (slashes : List UniChar) :
    parts.leading slashes .path = parts.leading slashes .host ++ parts.host.getD [] ++ after ':' parts.port := by
  rw [leading_next parts slashes (c := .port) rfl, leading_next parts slashes (c := .host) rfl]
  rfl

theorem trailing_fragment (parts : Components) (slashes : List UniChar) :
    parts.trailing slashes .fragment = after '#' parts.fragment := by
  rw [Components.trailing]
  exact List.flatMap_singleton ..

theorem trailing_path (parts : Components) (slashes : List UniChar) :
    parts.trailing slashes .path = parts.resource := by
  rw [trailing_next parts slashes (c := .path) (d := .parameters) rfl,
    trailing_next parts slashes (c := .parameters) (d := .query) rfl,
    trailing_next parts slashes (c := .query) (d := .fragment) rfl, trailing_fragment, Components.resource,
    List.append_assoc, List.append_assoc]
  rfl

/-! ## The pieces of a string -/

/-- The pieces up to the path are the scheme and the net location. -/
theorem leading_path_hierarchical (scheme : Option (List UniChar)) (rest : List UniChar)
    (fragment : Option (List UniChar)) :
    (hierarchicalComponents scheme rest fragment).leading
        (if (splitNetLocation rest).1.isSome then literal ['/', '/'] else []) .path =
      before scheme ':' ++ (splitNetLocation rest).1.elim [] (literal ['/', '/'] ++ ·) := by
  rw [leading_path, leading_host, leading_user]
  dsimp only [hierarchicalComponents]
  cases (splitNetLocation rest).1 with
  | none => simp [before, after]
  | some net =>
    by_cases hempty : net = []
    · subst hempty
      simp [Option.filter, before, after]
    · have htext := netLocationParts_text net
      have hfilter : (some net).filter (· ≠ []) = some net := by simp [Option.filter, hempty]
      rw [NetLocation.text, List.append_assoc] at htext
      rw [hfilter, Option.isSome_some, if_pos rfl, Option.elim_some]
      simp only [Option.map_some, Option.bind_some, Option.getD_some, List.append_assoc]
      rw [htext]

/-- The pieces are the string. -/
theorem flatMap_piece {text : List UniChar} (h : isHierarchical text = true) :
    Component.all.flatMap ((components text).piece (slashesOf text)) = text := by
  have hfragment := cutAt_eq '#' text
  have hscheme := splitScheme_eq (cutAt '#' text).1
  have hloc := splitNetLocation_eq (splitScheme (cutAt '#' text).1).2
  rw [← leading_append_trailing _ _ .path, trailing_path, components, if_pos h, slashesOf, leading_path_hierarchical,
    resource_hierarchicalComponents, List.append_assoc, ← List.append_assoc (Option.elim _ _ _), hloc,
    ← List.append_assoc, hscheme, hfragment]

/-! ## Where the ranges are recorded -/

/-- Every recorded range starts where `f` says, and `IS_DECOMPOSABLE` is set or not. -/
def Located (f : Component → Nat) (decomposable : Bool) (p : Parse) : Prop :=
  (∀ c r, p.ranges c = some r → r.location = f c) ∧ p.flags.getLsbD 15 = decomposable

theorem Located.record {loc len : Nat} (h : Located f decomposable p) (hloc : loc = f c) :
    Located f decomposable (p.record c loc len) := by
  refine ⟨fun d r hr => ?_, ?_⟩
  · by_cases hd : d = c
    · subst hd
      obtain rfl : (⟨loc, len⟩ : CFRange) = r := by simpa [Parse.record] using hr
      exact hloc
    · exact h.1 d r (by simpa [Parse.record, hd] using hr)
  · have hflag : c.flag.getLsbD 15 = false := by cases c <;> decide
    rw [Parse.record, BitVec.getLsbD_or, h.2, hflag, Bool.or_false]

theorem Located.setFlagsIf {condition : Bool} {bits : BitVec 32} (h : Located f decomposable p)
    (hbits : bits.getLsbD 15 = false) : Located f decomposable (p.setFlagsIf condition bits) := by
  rw [Parse.setFlagsIf]
  split
  · refine ⟨h.1, ?_⟩
    rw [Parse.setFlags, BitVec.getLsbD_or, h.2, hbits, Bool.or_false]
  · exact h

theorem Located.setDecomposable (h : Located f decomposable p) : Located f true (p.setFlags IS_DECOMPOSABLE) := by
  refine ⟨h.1, ?_⟩
  rw [Parse.setFlags, BitVec.getLsbD_or]
  exact Bool.or_true _

/-- A scan for a delimiter stops after the text that is cut off. -/
theorem firstIn_cut {delimiter : Char} {a b idx : Nat} (hb : b ≤ string.length)
    (h : firstIn (· == unichar delimiter) string a b = some idx) :
    idx = a + (cutAt delimiter (slice string a b)).1.length := by
  obtain ⟨hle, hlt, _⟩ := firstIn_eq_some h
  rw [cutAt, cut_slice, h]
  dsimp only
  rw [length_slice (by omega)]
  omega

theorem parseTail_located (delimiter : Char) (h : Located f decomposable p) (hlen : p.stringLength ≤ string.length)
    (hc : p.baseIdx + (cutAt delimiter (slice string p.baseIdx p.stringLength)).1.length + 1 = f c) :
    Located f decomposable (parseTail delimiter c string p) := by
  rw [parseTail]
  split
  · rename_i idx hfirst
    exact h.record (by rw [← hc, firstIn_cut hlen hfirst])
  · exact h

theorem parseScheme_located (h : Located f decomposable p) (hc : p.baseIdx = f .scheme) :
    Located f decomposable (parseScheme string p) := by
  rw [parseScheme]
  split
  · rename_i idx _
    split
    · have hrecord : Located f decomposable ((p.record .scheme p.baseIdx idx).withBase (idx + 1)) := h.record hc
      have habsolute : Located f decomposable
          (((p.record .scheme p.baseIdx idx).withBase (idx + 1)).setFlagsIf true IS_ABSOLUTE) :=
        hrecord.setFlagsIf (by decide)
      exact (habsolute.setFlagsIf (by decide)).setFlagsIf (by decide)
    · exact h
  · exact h

theorem parseUser_located {base idx : Nat} (h : Located f decomposable p) (hidx : idx ≤ string.length)
    (huser : base = f .user) (hpassword : base + (cutAt ':' (slice string base idx)).1.length + 1 = f .password) :
    Located f decomposable (parseUser string base idx p) := by
  rw [parseUser]
  split
  · rename_i idx2 hfirst
    exact (h.record huser).record (by rw [← hpassword, firstIn_cut hidx hfirst])
  · exact h.record huser

theorem parseHost_located {base extent : Nat} (h : Located f decomposable p) (hbase : base ≤ extent)
    (hextent : extent ≤ string.length) (hhost : base = f .host)
    (hport : base + (splitPort false (slice string base extent)).1.length + 1 = f .port) :
    Located f decomposable (parseHost string base extent p) := by
  have hfound := findPort_spec string hbase hextent
  rw [parseHost]
  generalize findPort string base extent = result at hfound
  obtain ⟨found, ipv6⟩ := result
  cases found with
  | none => exact (h.record hhost).setFlagsIf (by decide)
  | some idx =>
    obtain ⟨hle, hlt, hsplit⟩ := hfound
    rw [hsplit, length_slice (by omega)] at hport
    exact ((h.record hhost).record (by omega)).setFlagsIf (by decide)

/-- Where the components of a net location at `base` are. -/
structure NetLocation.At (net : NetLocation) (base : Nat) (f : Component → Nat) : Prop where
  user : base = f .user
  password : base + (net.user.getD []).length + 1 = f .password
  host : base + (before (net.user.map (· ++ after ':' net.password)) '@').length = f .host
  port : f .host + net.host.length + 1 = f .port

theorem parseLogin_located {base extent : Nat} (h : Located f decomposable p) (hbase : base ≤ extent)
    (hextent : extent ≤ string.length) (hat : (netLocationParts (slice string base extent)).At base f) :
    Located f decomposable (parseLogin string base extent p) := by
  have hcut := cut_slice (· == unichar '@') string base extent
  rw [parseLogin]
  cases hfirst : firstIn (· == unichar '@') string base extent with
  | none =>
    have hparts : netLocationParts (slice string base extent) =
        ⟨none, none, (splitPort false (slice string base extent)).1,
          (splitPort false (slice string base extent)).2⟩ := by
      rw [netLocationParts, cutAt, hcut, hfirst]
    rw [hparts] at hat
    have hhost := hat.host
    have hport := hat.port
    rw [← hhost] at hport
    exact parseHost_located h hbase hextent hhost hport
  | some idx =>
    obtain ⟨hle, hlt, _⟩ := firstIn_eq_some hfirst
    have hparts : netLocationParts (slice string base extent) =
        ⟨some (cutAt ':' (slice string base idx)).1, (cutAt ':' (slice string base idx)).2,
          (splitPort false (slice string (idx + 1) extent)).1,
          (splitPort false (slice string (idx + 1) extent)).2⟩ := by
      rw [netLocationParts, cutAt, hcut, hfirst]
    rw [hparts] at hat
    have hhost : idx + 1 = f .host := by
      have hlogin := hat.host
      rw [Option.map_some, cutAt_eq, before, Option.elim_some, List.length_append, length_slice (by omega),
        List.length_singleton] at hlogin
      omega
    have hport := hat.port
    rw [← hhost] at hport
    exact parseHost_located (parseUser_located h (by omega) hat.user hat.password) hlt hextent hhost hport

/-- The scan for the end of the net location. -/
theorem slice_netLocation {a b : Nat} (hcond : 2 ≤ b - a ∧ string[a]? = some (unichar '/') ∧
    string[a + 1]? = some (unichar '/')) (hb : b ≤ string.length) :
    (splitNetLocation (slice string a b)).1 =
      some (slice string (2 + a) ((firstIn endsNetLocation string (2 + a) b).getD b)) := by
  have hdrop : (slice string a b).drop 2 = slice string (2 + a) b := by
    rw [slice_cons hcond.2.1 (by omega), slice_cons hcond.2.2 (by omega), Nat.add_comm 2]
    rfl
  rw [splitNetLocation, if_pos ((take_two_slice hb).mpr hcond), hdrop,
    (takeWhile_slice endsNetLocation string (2 + a) b).1]

theorem parseNetLocation_located (h : Located f decomposable p) (hlen : p.stringLength ≤ string.length)
    (hat : ∀ net, (splitNetLocation (slice string p.baseIdx p.stringLength)).1 = some net → net ≠ [] →
      (netLocationParts net).At (2 + p.baseIdx) f) :
    Located f decomposable (parseNetLocation string p) := by
  rw [parseNetLocation]
  split
  · rename_i hcond
    have hnet := slice_netLocation hcond hlen
    obtain ⟨extent, hextent⟩ : ∃ extent, extent =
        (firstIn endsNetLocation string (2 + p.baseIdx) p.stringLength).getD p.stringLength := ⟨_, rfl⟩
    have hbounds : 2 + p.baseIdx ≤ extent ∧ extent ≤ p.stringLength := by
      cases hfirst : firstIn endsNetLocation string (2 + p.baseIdx) p.stringLength with
      | none =>
        rw [hfirst, Option.getD_none] at hextent
        omega
      | some idx =>
        obtain ⟨hle, hlt, _⟩ := firstIn_eq_some hfirst
        rw [hfirst, Option.getD_some] at hextent
        omega
    have hends : (firstIn (fun ch => ch == unichar '/' || ch == unichar '?') string (2 + p.baseIdx)
        p.stringLength).getD p.stringLength = extent := hextent.symm
    rw [← hextent] at hnet
    dsimp only
    rw [hends]
    split
    · rename_i hne
      have hnonempty : slice string (2 + p.baseIdx) extent ≠ [] :=
        (slice_ne_nil (hbounds.2.trans hlen)).mpr (by omega)
      exact parseLogin_located h hbounds.1 (hbounds.2.trans hlen) (hat _ hnet hnonempty)
    · exact h
  · exact h

theorem parsePath_located {baseHasDirectoryPath : Bool} (h : Located f decomposable p) (hpath : p.baseIdx = f .path) :
    Located f decomposable (parsePath string baseHasDirectoryPath p) := by
  rw [parsePath]
  split
  · dsimp only
    split
    · exact ((h.record hpath).setFlagsIf (by decide)).setFlagsIf (by decide)
    · exact (h.record hpath).setFlagsIf (by decide)
  · exact h

/-! ## The whole parse -/

theorem Holds.length_rest (h : Holds string p parts rest) : p.baseIdx + rest.length = p.stringLength := by
  have hlen := length_slice (a := p.baseIdx) h.length_le
  rw [h.rest_eq] at hlen
  have hle := h.base_le
  omega

theorem parseTail_stringLength {delimiter : Char} (hbase : p.baseIdx ≤ p.stringLength)
    (hlen : p.stringLength ≤ string.length) : (parseTail delimiter c string p).stringLength =
      p.baseIdx + (cutAt delimiter (slice string p.baseIdx p.stringLength)).1.length := by
  rw [parseTail]
  split
  · rename_i idx hfirst
    exact firstIn_cut hlen hfirst
  · rename_i hfirst
    rw [cutAt, cut_slice, hfirst]
    dsimp only
    rw [length_slice hlen]
    omega

theorem parseScheme_stringLength : (parseScheme string p).stringLength = p.stringLength := by
  have hflags : ∀ (q : Parse) (condition : Bool) (bits : BitVec 32),
      (q.setFlagsIf condition bits).stringLength = q.stringLength := fun q condition bits => by cases condition <;> rfl
  rw [parseScheme]
  split
  · split
    · dsimp only
      rw [hflags, hflags]
      rfl
    · rfl
  · rfl

theorem parseHost_stringLength {base extent : Nat} :
    (parseHost string base extent p).stringLength = p.stringLength := by
  rw [parseHost]
  generalize findPort string base extent = result
  obtain ⟨found, ipv6⟩ := result
  cases found <;> cases ipv6 <;> rfl

theorem parseNetLocation_stringLength : (parseNetLocation string p).stringLength = p.stringLength := by
  have hlogin : ∀ base extent, (parseLogin string base extent p).stringLength = p.stringLength := by
    intro base extent
    rw [parseLogin]
    split
    · rw [parseHost_stringLength, parseUser_stringLength]
    · exact parseHost_stringLength
  rw [parseNetLocation]
  split
  · dsimp only
    split
    · exact hlogin _ _
    · rfl
  · rfl

theorem path_getD (scheme : Option (List UniChar)) (rest : List UniChar) (fragment : Option (List UniChar)) :
    (hierarchicalComponents scheme rest fragment).path.getD [] =
      (cutAt ';' (cutAt '?' (splitNetLocation rest).2).1).1 := by
  dsimp only [hierarchicalComponents]
  split
  · rfl
  · rename_i hnot
    rw [not_or, not_not] at hnot
    exact hnot.1.symm

/-- Where the parts of the net location are. -/
theorem netLocation_at (scheme : Option (List UniChar)) (rest : List UniChar) (fragment : Option (List UniChar))
    {net : List UniChar} (hnet : (splitNetLocation rest).1 = some net) (hne : net ≠ []) :
    (netLocationParts net).At (2 + (before scheme ':').length)
      ((hierarchicalComponents scheme rest fragment).start (literal ['/', '/'])) := by
  obtain ⟨parts, hparts⟩ : ∃ parts, parts = hierarchicalComponents scheme rest fragment := ⟨_, rfl⟩
  have hfilter : (some net).filter (· ≠ []) = some net := by simp [Option.filter, hne]
  have huser : parts.user = (netLocationParts net).user := by
    rw [hparts]
    dsimp only [hierarchicalComponents]
    rw [hnet, hfilter, Option.map_some, Option.bind_some]
  have hpassword : parts.password = (netLocationParts net).password := by
    rw [hparts]
    dsimp only [hierarchicalComponents]
    rw [hnet, hfilter, Option.map_some, Option.bind_some]
  have hhost : parts.host = some (netLocationParts net).host := by
    rw [hparts]
    dsimp only [hierarchicalComponents]
    rw [hnet, hfilter, Option.map_some, Option.map_some]
  have hlead : parts.leading (literal ['/', '/']) .user = before scheme ':' ++ literal ['/', '/'] := by
    rw [leading_user, hparts]
    rfl
  have hstart : (parts.leading (literal ['/', '/']) .user).length = 2 + (before scheme ':').length := by
    rw [hlead, List.length_append, Nat.add_comm]
    rfl
  rw [← hparts]
  refine ⟨?_, ?_, ?_, ?_⟩
  · exact hstart.symm
  · rw [Components.start, leading_next parts _ (c := .user) rfl, List.length_append, hstart, ← huser]
    rfl
  · rw [Components.start, leading_host, List.length_append, hstart, huser, hpassword]
    rfl
  · rw [Components.start, Components.start, leading_next parts _ (d := .port) (c := .host) rfl, List.length_append]
    have hpiece : (parts.piece (literal ['/', '/']) .host).length = (netLocationParts net).host.length := by
      rw [Components.piece, hhost, Option.getD_some]
    rw [hpiece]
    rfl

theorem start_fragment {text : List UniChar} (h : isHierarchical text = true) :
    (components text).start (slashesOf text) .fragment = (cutAt '#' text).1.length + 1 := by
  have hpieces := flatMap_piece h
  rw [← leading_append_trailing _ _ .fragment, trailing_fragment] at hpieces
  have hfragment : (components text).fragment = (cutAt '#' text).2 := by
    rw [components, if_pos h]
    rfl
  have htext := hpieces.trans (cutAt_eq '#' text).symm
  rw [hfragment] at htext
  rw [Components.start, List.append_cancel_right htext]
  rfl

/-- The fragment and the scheme are recorded where the pieces have them. -/
theorem parseScheme_start_located (string : List UniChar) {theFlags : BitVec 32}
    (hflags : theFlags.getLsbD 15 = false) (hfragment : (cutAt '#' string).1.length + 1 = f .fragment)
    (hscheme : f .scheme = 0) :
    Located f false (parseScheme string (parseFragment string
      { flags := IS_PARSED ||| theFlags, ranges := fun _ => none, numRanges := 0, baseIdx := 0,
        stringLength := string.length })) := by
  refine parseScheme_located ?_ (by rw [parseFragment_eq, parseTail_baseIdx, hscheme])
  rw [parseFragment_eq]
  refine parseTail_located '#' ⟨fun c r hr => (by cases hr), ?_⟩ le_rfl ?_
  · rw [BitVec.getLsbD_or, hflags]
    decide
  · rw [slice_all, ← hfragment, Nat.zero_add]

/-- The components after the scheme are recorded where the pieces have them. -/
theorem parse_hierarchical_located (h : Holds string p (outerParts string) (splitScheme (cutAt '#' string).1).2)
    (hlen : p.stringLength = (cutAt '#' string).1.length) (hhier : isHierarchical string = true)
    (hstart : Located ((components string).start (slashesOf string)) decomposable p) (baseHasDirectoryPath : Bool) :
    Located ((components string).start (slashesOf string)) true (parsePath string baseHasDirectoryPath
      (parseTail ';' .parameters string (parseTail '?' .query string
        (parseNetLocation string (p.setFlags IS_DECOMPOSABLE))))) := by
  obtain ⟨scheme, hscheme⟩ : ∃ scheme, scheme = (splitScheme (cutAt '#' string).1).1 := ⟨_, rfl⟩
  obtain ⟨rest, hrest⟩ : ∃ rest, rest = (splitScheme (cutAt '#' string).1).2 := ⟨_, rfl⟩
  obtain ⟨fragment, hfragment⟩ : ∃ fragment, fragment = (cutAt '#' string).2 := ⟨_, rfl⟩
  have hsplit : before scheme ':' ++ rest = (cutAt '#' string).1 := by rw [hscheme, hrest, splitScheme_eq]
  have hparts : components string = hierarchicalComponents scheme rest fragment := by
    rw [components, if_pos hhier, hscheme, hrest, hfragment]
  have hslashes : slashesOf string = if (splitNetLocation rest).1.isSome then literal ['/', '/'] else [] := by
    rw [slashesOf, hrest]
  have hloc := splitNetLocation_eq rest
  rw [← hrest] at h
  have hbase : p.baseIdx = (before scheme ':').length := by
    have htotal := h.length_rest
    rw [hlen, ← hsplit, List.length_append] at htotal
    omega
  -- the path starts after the net location
  have hlead : (components string).leading (slashesOf string) .path =
      before scheme ':' ++ (splitNetLocation rest).1.elim [] (literal ['/', '/'] ++ ·) := by
    rw [hparts, hslashes, leading_path_hierarchical]
  have hlocated := parseNetLocation_holds (h.setFlags hasComponent_decomposable) fun d hd hlow => by
    cases d <;> simp [outerParts, Component.bit] at hd hlow ⊢
  have hpath : (parseNetLocation string (p.setFlags IS_DECOMPOSABLE)).baseIdx =
      ((components string).leading (slashesOf string) .path).length := by
    have htotal := hlocated.length_rest
    have hwhole : (p.setFlags IS_DECOMPOSABLE).stringLength = p.stringLength := rfl
    have hrestLength := congrArg List.length hloc
    rw [List.length_append] at hrestLength
    rw [parseNetLocation_stringLength, hwhole, hlen, ← hsplit, List.length_append, ← hrestLength] at htotal
    rw [hlead, List.length_append]
    omega
  have hgetD := path_getD scheme rest fragment
  have hparameters : ((components string).leading (slashesOf string) .parameters).length =
      ((components string).leading (slashesOf string) .path).length +
        (cutAt ';' (cutAt '?' (splitNetLocation rest).2).1).1.length := by
    rw [leading_next _ _ (d := .parameters) (c := .path) rfl, List.length_append, Components.piece, hparts, hgetD]
  have hquery : ((components string).leading (slashesOf string) .query).length =
      ((components string).leading (slashesOf string) .path).length +
        (cutAt '?' (splitNetLocation rest).2).1.length := by
    have hcut := congrArg List.length (cutAt_eq ';' (cutAt '?' (splitNetLocation rest).2).1)
    have hafter : (components string).piece (slashesOf string) .parameters =
        after ';' (cutAt ';' (cutAt '?' (splitNetLocation rest).2).1).2 := by
      rw [hparts]
      rfl
    rw [List.length_append] at hcut
    rw [leading_next _ _ (d := .query) (c := .parameters) rfl, List.length_append, hparameters, hafter]
    omega
  have hnet := parseNetLocation_located hstart.setDecomposable h.length_le fun net hnet hne => by
    have hslice : slice string (p.setFlags IS_DECOMPOSABLE).baseIdx (p.setFlags IS_DECOMPOSABLE).stringLength = rest :=
      h.rest_eq
    have hbaseIdx : (p.setFlags IS_DECOMPOSABLE).baseIdx = p.baseIdx := rfl
    rw [hslice] at hnet
    rw [hbaseIdx, hbase, hparts, hslashes, hnet]
    exact netLocation_at scheme rest fragment hnet hne
  have hqueried := parseTail_located '?' (c := .query) hnet hlocated.length_le (by
    rw [hlocated.rest_eq, hpath, Components.start, hquery]
    rfl)
  have hholds := parseTail_holds '?' hlocated (c := .query) (by decide)
    (by simp [withNetLocation, outerParts]) fun d hd hlow => by
      cases d <;> simp [withNetLocation, outerParts, Component.bit] at hd hlow ⊢
  have hparametered := parseTail_located ';' (c := .parameters) hqueried hholds.length_le (by
    rw [hholds.rest_eq, parseTail_baseIdx, hpath, Components.start, hparameters]
    rfl)
  exact parsePath_located hparametered (by rw [parseTail_baseIdx, parseTail_baseIdx, hpath]; rfl)

/-- A recorded range is that of its text. -/
theorem Recorded.ranges_eq (h : Recorded string p parts) (hlocated : Located f decomposable p) (c : Component) :
    p.ranges c = (parts c).map fun text => ⟨f c, text.length⟩ := by
  rw [← h.texts c, Option.map_map]
  cases hrange : p.ranges c with
  | none => rfl
  | some r =>
    have hlength : (r.text string).length = r.length := by
      rw [CFRange.text, length_slice (h.inside c r hrange)]
      omega
    rw [Option.map_some, Function.comp_apply, hlength, ← hlocated.1 c r hrange]

/-- The ranges that are kept, in their order, are the extents of the components. -/
theorem ranges_of_parse (string : List UniChar) (baseHasDirectoryPath : Bool) {theFlags : BitVec 32}
    (hflags : ∀ c, hasComponent theFlags c = false) (hdecomposable : theFlags.getLsbD 15 = false) :
    ∃ parsed, parseComponents string baseHasDirectoryPath theFlags = some parsed ∧
      parsed.ranges = Component.all.filterMap ((components string).extent (slashesOf string)) ∧
      (∀ c, hasComponent parsed.flags c = ((components string).get c).isSome) ∧
      parsed.flags.getLsbD 15 = isHierarchical string := by
  have hstart := parseScheme_start string hflags
  have hlength : (parseScheme string (parseFragment string
      { flags := IS_PARSED ||| theFlags, ranges := fun _ => none, numRanges := 0, baseIdx := 0,
        stringLength := string.length })).stringLength = (cutAt '#' string).1.length := by
    rw [parseScheme_stringLength, parseFragment_eq, parseTail_stringLength (Nat.zero_le _) le_rfl, slice_all,
      Nat.zero_add]
  have hcompliant := isCompliant_eq hstart
  rw [outerParts, Function.update_self] at hcompliant
  have hhier : isHierarchical string = (!(splitScheme (cutAt '#' string).1).1.isSome ||
      (splitScheme (cutAt '#' string).1).2.head? == some (unichar '/')) := rfl
  rw [← hhier] at hcompliant
  rw [parseComponents]
  dsimp only
  rw [hcompliant]
  cases hkind : isHierarchical string with
  | true =>
    have hparse := parse_hierarchical hstart hkind baseHasDirectoryPath
    have hlocated := parse_hierarchical_located hstart hlength hkind
      (parseScheme_start_located string hdecomposable (start_fragment hkind).symm rfl) baseHasDirectoryPath
    generalize parsePath string baseHasDirectoryPath (parseTail ';' .parameters string (parseTail '?' .query string
      (parseNetLocation string (Parse.setFlags _ IS_DECOMPOSABLE)))) = q at hparse hlocated ⊢
    refine ⟨⟨q.flags, Component.all.filterMap q.ranges⟩, by rw [if_pos rfl, pack_eq hparse, Option.map_some], ?_,
      fun c => ?_, hlocated.2⟩
    · exact congrArg (Component.all.filterMap ·) (funext fun c => hparse.ranges_eq hlocated c)
    · rw [← hparse.texts, Option.isSome_map]
      exact hparse.flags c
  | false =>
    have hlocated := parseScheme_start_located (f := fun c => if c = .fragment then (cutAt '#' string).1.length + 1
      else 0) string hdecomposable (if_pos rfl).symm (if_neg (by decide))
    obtain ⟨range, hrange, hpartition⟩ := parse_opaque hstart hkind
    generalize parseScheme string _ = q at hstart hlocated hrange hpartition ⊢
    refine ⟨_, by rw [if_neg Bool.false_ne_true, hrange, Option.map_some], ?_, hpartition.flags, ?_⟩
    · have hrange' := hstart.ranges_eq hlocated .scheme
      have hcomponents : components string =
          { scheme := (splitScheme (cutAt '#' string).1).1, user := none, password := none, host := none, port := none,
            path := none, parameters := none, query := none, fragment := none } := by
        rw [components, hkind, if_neg Bool.false_ne_true]
      have hscheme : outerParts string .scheme = (components string).get .scheme := by
        rw [hcomponents]
        exact Function.update_self ..
      have hextent : (components string).extent (slashesOf string) =
          Function.update (fun _ => none) .scheme (some range) := by
        funext c
        by_cases hc : c = .scheme
        · subst hc
          rw [Function.update_self, ← hrange, hrange', hscheme]
          rfl
        · have hnone : (components string).get c = none := by
            rw [hcomponents]
            cases c <;> first | rfl | exact absurd rfl hc
          rw [Function.update_of_ne hc, Components.extent, hnone, Option.map_none]
      rw [hextent]
      rfl
    · rw [BitVec.getLsbD_and, hlocated.2, Bool.false_and]

end CFLite.URL
