import CFLite.URL.Parse

/-!
# The components of a URL

What parsing a URL string is for, on texts: the steps of RFC 1808, as the code
takes them. Three things are the code's own: a scheme may be empty, a net
location also ends at a `'?'`, and an empty net location has no components.

* `components`: the components of a text;
* `unparse_components`: with their delimiters they are the text again.
-/

namespace CFLite.URL

open Framework

/-- The components of a URL. -/
structure Components where
  scheme : Option (List UniChar)
  user : Option (List UniChar)
  password : Option (List UniChar)
  host : Option (List UniChar)
  port : Option (List UniChar)
  path : Option (List UniChar)
  parameters : Option (List UniChar)
  query : Option (List UniChar)
  fragment : Option (List UniChar)
  deriving DecidableEq

def Components.get (parts : Components) : Component → Option (List UniChar)
  | .scheme => parts.scheme
  | .user => parts.user
  | .password => parts.password
  | .host => parts.host
  | .port => parts.port
  | .path => parts.path
  | .parameters => parts.parameters
  | .query => parts.query
  | .fragment => parts.fragment

/-- What comes before the first `c`, and what after it. -/
abbrev cutAt (c : Char) (text : List UniChar) : List UniChar × Option (List UniChar) := cut (· == unichar c) text

/-- The scheme is what comes before the first colon, if all its characters may
be in a scheme. -/
def splitScheme (text : List UniChar) : Option (List UniChar) × List UniChar :=
  match cutAt ':' text with
  | (name, some rest) => if name.all schemeValid then (some name, rest) else (none, text)
  | (_, none) => (none, text)

/-- A net location ends here. -/
def endsNetLocation (ch : UniChar) : Bool := ch == unichar '/' || ch == unichar '?'

/-- The net location comes after `//`. -/
def splitNetLocation (text : List UniChar) : Option (List UniChar) × List UniChar :=
  if text.take 2 = literal ['/', '/'] then
    (some ((text.drop 2).takeWhile fun ch => !endsNetLocation ch),
      (text.drop 2).dropWhile fun ch => !endsNetLocation ch)
  else (none, text)

/-- The port comes after the first colon outside the brackets of an address. -/
def splitPort (inAddress : Bool) : List UniChar → List UniChar × Option (List UniChar)
  | [] => ([], none)
  | ch :: text =>
    if inAddress then (ch :: (splitPort (ch != unichar ']') text).1, (splitPort (ch != unichar ']') text).2)
    else if ch = unichar '[' then (ch :: (splitPort true text).1, (splitPort true text).2)
    else if ch = unichar ':' then ([], some text)
    else (ch :: (splitPort false text).1, (splitPort false text).2)

/-- `user:password@host:port` -/
structure NetLocation where
  user : Option (List UniChar)
  password : Option (List UniChar)
  host : List UniChar
  port : Option (List UniChar)

/-- The parts of a net location: the user and the password come before the first `'@'`. -/
def netLocationParts (text : List UniChar) : NetLocation :=
  match cutAt '@' text with
  | (login, some rest) =>
    { user := some (cutAt ':' login).1, password := (cutAt ':' login).2,
      host := (splitPort false rest).1, port := (splitPort false rest).2 }
  | (_, none) =>
    { user := none, password := none, host := (splitPort false text).1, port := (splitPort false text).2 }

/-- The components after the scheme. -/
def hierarchicalComponents (scheme : Option (List UniChar)) (rest : List UniChar) (fragment : Option (List UniChar)) :
    Components :=
  let located := splitNetLocation rest
  let query := cutAt '?' located.2
  let parameters := cutAt ';' query.1
  let netLocation := (located.1.filter (· ≠ [])).map netLocationParts
  { scheme, fragment,
    user := netLocation.bind NetLocation.user
    password := netLocation.bind NetLocation.password
    host := netLocation.map NetLocation.host
    port := netLocation.bind NetLocation.port
    path := if parameters.1 ≠ [] ∨ netLocation.isSome then some parameters.1 else none
    parameters := parameters.2
    query := query.2 }

/-- A scheme that no slash follows is all there is. -/
def isHierarchical (text : List UniChar) : Bool :=
  let split := splitScheme (cutAt '#' text).1
  !split.1.isSome || split.2.head? == some (unichar '/')

/-- The components of a URL string. -/
def components (text : List UniChar) : Components :=
  let split := splitScheme (cutAt '#' text).1
  if isHierarchical text then hierarchicalComponents split.1 split.2 (cutAt '#' text).2
  else { scheme := split.1, user := none, password := none, host := none, port := none, path := none,
         parameters := none, query := none, fragment := none }

/-! ## Putting components together -/

/-- A component with the delimiter before it. -/
def after (delimiter : Char) (part : Option (List UniChar)) : List UniChar :=
  part.elim [] fun text => unichar delimiter :: text

/-- A component with the delimiter behind it. -/
def before (part : Option (List UniChar)) (delimiter : Char) : List UniChar :=
  part.elim [] fun text => text ++ [unichar delimiter]

/-- The net location that the parts make. -/
def NetLocation.text (parts : NetLocation) : List UniChar :=
  before (parts.user.map (· ++ after ':' parts.password)) '@' ++ parts.host ++ after ':' parts.port

/-- The net location with its `//`, when there is a host. -/
def Components.netLocation (parts : Components) : List UniChar :=
  parts.host.elim [] fun host =>
    literal ['/', '/'] ++ NetLocation.text ⟨parts.user, parts.password, host, parts.port⟩

/-- The components and their delimiters after the net location. -/
def Components.resource (parts : Components) : List UniChar :=
  parts.path.getD [] ++ after ';' parts.parameters ++ after '?' parts.query ++ after '#' parts.fragment

/-- The components and their delimiters. -/
def Components.unparse (parts : Components) : List UniChar :=
  before parts.scheme ':' ++ parts.netLocation ++ parts.resource

/-- The text has `//` and no net location after it. -/
def hasEmptyNetLocation (text : List UniChar) : Bool :=
  (splitNetLocation (splitScheme (cutAt '#' text).1).2).1 == some []

/-! ## Cutting and putting together -/

theorem cutAt_eq (c : Char) (text : List UniChar) : (cutAt c text).1 ++ after c (cutAt c text).2 = text := by
  have h := (cut_eq (· == unichar c) text).2
  cases hafter : (cutAt c text).2 with
  | none =>
    rw [hafter] at h
    simpa [after] using h.symm
  | some rest =>
    rw [hafter] at h
    obtain ⟨x, hx, heq⟩ := h
    obtain rfl : x = unichar c := by simpa using hx
    exact heq.symm

theorem splitScheme_eq (text : List UniChar) :
    before (splitScheme text).1 ':' ++ (splitScheme text).2 = text := by
  have h := cutAt_eq ':' text
  rw [splitScheme]
  split
  · rename_i name rest heq
    rw [heq] at h
    split
    · simpa [before, after] using h
    · rfl
  · rfl

theorem splitNetLocation_eq (text : List UniChar) :
    (splitNetLocation text).1.elim [] (literal ['/', '/'] ++ ·) ++ (splitNetLocation text).2 = text := by
  rw [splitNetLocation]
  split
  · rename_i h
    rw [Option.elim_some, List.append_assoc, List.takeWhile_append_dropWhile, ← h, List.take_append_drop]
  · rfl

theorem splitPort_eq (inAddress : Bool) (text : List UniChar) :
    (splitPort inAddress text).1 ++ after ':' (splitPort inAddress text).2 = text := by
  induction text generalizing inAddress with
  | nil => rfl
  | cons ch text ih =>
    rw [splitPort]
    split
    · rw [List.cons_append, ih]
    split
    · rw [List.cons_append, ih]
    split
    · rename_i h
      simp [after, h]
    · rw [List.cons_append, ih]

theorem netLocationParts_text (text : List UniChar) : (netLocationParts text).text = text := by
  have h := cutAt_eq '@' text
  rw [netLocationParts]
  split
  · rename_i login rest heq
    have hlogin := cutAt_eq ':' login
    have hport := splitPort_eq false rest
    rw [heq] at h
    rw [NetLocation.text, Option.map_some, hlogin, List.append_assoc, hport]
    simpa [before, after] using h
  · rw [NetLocation.text, List.append_assoc, splitPort_eq]
    rfl

theorem netLocation_hierarchicalComponents (scheme : Option (List UniChar)) (rest : List UniChar)
    (fragment : Option (List UniChar)) :
    (hierarchicalComponents scheme rest fragment).netLocation =
      ((splitNetLocation rest).1.filter (· ≠ [])).elim [] (literal ['/', '/'] ++ ·) := by
  dsimp only [hierarchicalComponents, Components.netLocation]
  cases (splitNetLocation rest).1.filter (· ≠ []) with
  | none => rfl
  | some net =>
    have htext : literal ['/', '/'] ++ (netLocationParts net).text = literal ['/', '/'] ++ net := by
      rw [netLocationParts_text]
    exact htext

theorem resource_hierarchicalComponents (scheme : Option (List UniChar)) (rest : List UniChar)
    (fragment : Option (List UniChar)) :
    (hierarchicalComponents scheme rest fragment).resource = (splitNetLocation rest).2 ++ after '#' fragment := by
  have hpath : ∀ (p : List UniChar) (b : Bool), (if p ≠ [] ∨ b = true then some p else none).getD [] = p := by
    intro p b
    by_cases hp : p = []
    · subst hp
      split <;> rfl
    · rw [if_pos (.inl hp)]
      rfl
  dsimp only [hierarchicalComponents, Components.resource]
  rw [hpath, cutAt_eq, cutAt_eq]

/-- A text whose net location is empty loses the `//`. -/
theorem hierarchicalComponents_unparse (scheme : Option (List UniChar)) (rest : List UniChar)
    (fragment : Option (List UniChar)) :
    (hierarchicalComponents scheme rest fragment).unparse = before scheme ':' ++
      (if (splitNetLocation rest).1 = some [] then rest.drop 2 else rest) ++ after '#' fragment := by
  have hloc := splitNetLocation_eq rest
  rw [Components.unparse, resource_hierarchicalComponents, netLocation_hierarchicalComponents]
  have hscheme : (hierarchicalComponents scheme rest fragment).scheme = scheme := rfl
  rw [hscheme, ← List.append_assoc, List.append_assoc (before scheme ':')]
  congr 2
  cases hnet : (splitNetLocation rest).1 with
  | none =>
    rw [hnet] at hloc
    simpa using hloc
  | some net =>
    rw [hnet, Option.elim_some] at hloc
    by_cases hempty : net = []
    · subst hempty
      have hdrop : rest.drop 2 = (splitNetLocation rest).2 := by
        have hrest := congrArg (List.drop 2) hloc
        simpa [literal] using hrest.symm
      rw [if_pos rfl, hdrop]
      rfl
    · rw [if_neg (by simpa using hempty)]
      simpa [Option.filter, hempty] using hloc

/-- A hierarchical URL is its components with their delimiters, but for the
`//` before an empty net location. -/
theorem components_unparse {text : List UniChar} (h : isHierarchical text = true) :
    (hasEmptyNetLocation text = false → (components text).unparse = text) ∧
      (hasEmptyNetLocation text = true → ∃ rest, text = before (components text).scheme ':' ++
        literal ['/', '/'] ++ rest ∧ (components text).unparse = before (components text).scheme ':' ++ rest) := by
  have hfragment := cutAt_eq '#' text
  have hscheme := splitScheme_eq (cutAt '#' text).1
  have hloc := splitNetLocation_eq (splitScheme (cutAt '#' text).1).2
  rw [components, if_pos h, hierarchicalComponents_unparse, hasEmptyNetLocation]
  refine ⟨fun hnot => ?_, fun hempty => ?_⟩
  · rw [if_neg (by simpa using hnot), hscheme, hfragment]
  · have hnet : (splitNetLocation (splitScheme (cutAt '#' text).1).2).1 = some [] := by simpa using hempty
    rw [hnet, Option.elim_some, List.append_nil] at hloc
    have hdrop : (splitScheme (cutAt '#' text).1).2.drop 2 = (splitNetLocation (splitScheme (cutAt '#' text).1).2).2 := by
      have hrest := congrArg (List.drop 2) hloc
      simpa [literal] using hrest.symm
    refine ⟨(splitNetLocation (splitScheme (cutAt '#' text).1).2).2 ++ after '#' (cutAt '#' text).2, ?_, ?_⟩
    · calc text = before (splitScheme (cutAt '#' text).1).1 ':' ++ (splitScheme (cutAt '#' text).1).2 ++
            after '#' (cutAt '#' text).2 := by rw [hscheme, hfragment]
        _ = _ := by
          conv_lhs => rw [← hloc]
          simp [hierarchicalComponents]
    · rw [if_pos hnet, hdrop, List.append_assoc]
      rfl

end CFLite.URL
