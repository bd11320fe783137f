import CFLite.Strings.UTF8Encode
import CFLite.URL.ByteRanges

/-!
# Encodings of URL strings

A text is cut between two characters, where no surrogate pair is cut. An
encoding gives each character its own bytes, so the bytes of the two parts are
those of the text.

* `utf8`: UTF-8 is such an encoding;
* `extent_boundary`: the components of a URL begin and end between characters.
-/

namespace CFLite.URL

open Framework Strings

variable {text xs ys zs : List UniChar} {x : UniChar} {i a b c : Nat} {d : Component}

/-! ## Cutting a text -/

/-- The two surrogates of a pair come apart. -/
def CutsPair (xs ys : List UniChar) : Prop :=
  ∃ high ∈ xs.getLast?, ∃ low ∈ ys.head?, IsHighSurrogate high.toNat ∧ IsLowSurrogate low.toNat

/-- The place `i` is between two characters. -/
def Boundary (text : List UniChar) (i : Nat) : Prop :=
  i ≤ text.length ∧ ¬ CutsPair (text.take i) (text.drop i)

/-- An encoding in which each character has its own bytes. -/
structure TextEncoding where
  encode : List UniChar → List UInt8
  encode_append : ∀ xs ys, ¬ CutsPair xs ys → encode (xs ++ ys) = encode xs ++ encode ys
  encode_ne_nil : ∀ xs, xs ≠ [] → encode xs ≠ []

theorem TextEncoding.encode_nil (encoding : TextEncoding) : encoding.encode [] = [] := by
  have happend := encoding.encode_append [] [] fun ⟨high, hhigh, _⟩ => by simp at hhigh
  simpa using happend

/-- The character before the place, or the one behind it, is no surrogate. -/
def Edge (xs ys : List UniChar) : Prop :=
  (∀ x ∈ xs.getLast?, x.toNat < 0xD800) ∨ ∀ y ∈ ys.head?, y.toNat < 0xD800

theorem Edge.boundary (h : Edge xs ys) : Boundary (xs ++ ys) xs.length := by
  refine ⟨by simp, ?_⟩
  rw [List.take_left, List.drop_left]
  rintro ⟨high, hhigh, low, hlow, hpair⟩
  rcases h with h | h
  · exact absurd hpair.1.1 (by have := h high hhigh; omega)
  · exact absurd hpair.2.1 (by have := h low hlow; omega)

theorem boundary_zero : Boundary text 0 := Edge.boundary (show Edge [] text from .inl (by simp))

/-- The bytes of a text that is cut between characters. -/
theorem TextEncoding.encode_slice (encoding : TextEncoding) (hb : Boundary text b) (hab : a ≤ b) (hbc : b ≤ c)
    (hc : c ≤ text.length) :
    encoding.encode (slice text a c) = encoding.encode (slice text a b) ++ encoding.encode (slice text b c) := by
  rw [← slice_append hab hbc]
  refine encoding.encode_append _ _ fun ⟨high, hhigh, low, hlow, hpair⟩ => hb.2 ⟨high, ?_, low, ?_, hpair⟩
  · have htake : text.take b = slice text 0 a ++ slice text a b := by
      rw [slice_append (Nat.zero_le a) hab, slice, List.drop_zero, Nat.sub_zero]
    rw [htake]
    exact List.mem_getLast?_append_of_mem_getLast? hhigh
  · have hdrop : text.drop b = slice text b c ++ slice text c text.length := by
      rw [slice_append hbc hc, slice, List.take_of_length_le (by simp)]
    rw [hdrop]
    exact List.mem_head?_append_of_mem_head? hlow

/-! ## UTF-8 -/

theorem not_cutsPair_tail (h : ¬ CutsPair (x :: xs) ys) : ¬ CutsPair xs ys := by
  rintro ⟨high, hhigh, low, hlow, hpair⟩
  cases xs with
  | nil => simp at hhigh
  | cons y xs => exact h ⟨high, by simpa using hhigh, low, hlow, hpair⟩

/-- The characters of a text that is cut between characters. -/
theorem codes_append (xs ys : List UniChar) (h : ¬ CutsPair xs ys) : codes (xs ++ ys) = codes xs ++ codes ys := by
  induction xs using codes.induct with
  | case1 => simp [codes]
  | case2 unit low rest hpair ih =>
    have hrest := ih (not_cutsPair_tail (not_cutsPair_tail h))
    simp only [List.cons_append] at hrest ⊢
    rw [codes, codes, if_pos hpair, if_pos hpair, hrest, List.cons_append]
  | case3 unit low rest hpair ih =>
    have hrest := ih (not_cutsPair_tail h)
    simp only [List.cons_append] at hrest ⊢
    rw [codes, codes, if_neg hpair, if_neg hpair, hrest, List.cons_append]
  | case4 unit =>
    cases ys with
    | nil => simp [codes]
    | cons low ys =>
      have hpair : ¬ (IsHighSurrogate unit.toNat ∧ IsLowSurrogate low.toNat) := fun hpair =>
        h ⟨unit, by simp, low, by simp, hpair⟩
      rw [List.singleton_append, codes, if_neg hpair]
      rfl

theorem codes_ne_nil (h : xs ≠ []) : codes xs ≠ [] := by
  cases xs with
  | nil => exact absurd rfl h
  | cons unit rest =>
    cases rest with
    | nil => simp [codes]
    | cons low rest =>
      rw [codes]
      split <;> simp

/-- UTF-8, in which a surrogate without its other half is a character too. -/
def utf8 : TextEncoding where
  encode text := (codes text).flatMap utf8Bytes
  encode_append xs ys h := by rw [codes_append xs ys h, List.flatMap_append]
  encode_ne_nil xs h := by
    obtain ⟨ch, chs, hcodes⟩ := List.exists_cons_of_ne_nil (codes_ne_nil h)
    have hlt : ch < 0x110000 := codes_lt xs ch (by simp [hcodes])
    have hlength : (utf8Bytes ch).length ≠ 0 := by
      rw [length_utf8Bytes]
      exact bytesToWrite_pos hlt
    rw [hcodes, List.flatMap_cons]
    exact List.append_ne_nil_of_left_ne_nil (by simpa using hlength) _

/-! ## The components of a URL -/

/-- What is known of the components of a hierarchical URL. -/
structure IsHierarchical (parts : Components) (slashes : List UniChar) : Prop where
  slashes : slashes = [] ∧ parts.host = none ∨ slashes = literal ['/', '/']
  userHost : parts.host = none → parts.user = none
  passwordUser : parts.user = none → parts.password = none
  portHost : parts.host = none → parts.port = none
  resource : parts.host ≠ none → ∀ x ∈ parts.resource.head?, x.toNat < 0xD800

theorem resource_edge {rest net : List UniChar} {fragment : Option (List UniChar)}
    (hnet : (splitNetLocation rest).1 = some net) :
    ∀ x ∈ ((splitNetLocation rest).2 ++ after '#' fragment).head?, x.toNat < 0xD800 := by
  have hdrop : (splitNetLocation rest).2 = (rest.drop 2).dropWhile fun ch => !endsNetLocation ch := by
    rw [splitNetLocation] at hnet ⊢
    split
    · rfl
    · rename_i hnot
      rw [if_neg hnot] at hnet
      cases hnet
  intro x hx
  cases hrest : (splitNetLocation rest).2 with
  | nil =>
    rw [hrest, List.nil_append] at hx
    cases fragment with
    | none => simp [after] at hx
    | some fragment =>
      obtain rfl : unichar '#' = x := by simpa [after] using hx
      decide
  | cons y ys =>
    rw [hrest, List.cons_append, List.head?_cons] at hx
    obtain rfl : y = x := by simpa using hx
    have hends : endsNetLocation y = true := by
      have hhead := List.head?_dropWhile_not (fun ch => !endsNetLocation ch) (rest.drop 2)
      rw [← hdrop, hrest, List.head?_cons] at hhead
      simpa using hhead
    have hchar : y = unichar '/' ∨ y = unichar '?' := by simpa [endsNetLocation] using hends
    rcases hchar with rfl | rfl <;> decide

theorem isHierarchical_components (h : isHierarchical text = true) :
    IsHierarchical (components text) (slashesOf text) := by
  rw [components, if_pos h, slashesOf]
  generalize (splitScheme (cutAt '#' text).1).1 = scheme
  generalize (splitScheme (cutAt '#' text).1).2 = rest
  generalize (cutAt '#' text).2 = fragment
  have hresource := resource_hierarchicalComponents scheme rest fragment
  cases hnet : (splitNetLocation rest).1 with
  | none =>
    refine ⟨.inl ⟨rfl, ?_⟩, ?_, ?_, ?_, ?_⟩ <;> simp [hierarchicalComponents, hnet]
  | some net =>
    refine ⟨.inr rfl, ?_, ?_, ?_, fun _ => ?_⟩
    · dsimp only [hierarchicalComponents]
      cases ((splitNetLocation rest).1.filter (· ≠ [])).map netLocationParts <;> simp
    · dsimp only [hierarchicalComponents]
      cases ((splitNetLocation rest).1.filter (· ≠ [])) with
      | none => simp
      | some net =>
        simp only [Option.map_some, Option.bind_some, netLocationParts]
        split <;> simp
    · dsimp only [hierarchicalComponents]
      cases ((splitNetLocation rest).1.filter (· ≠ [])).map netLocationParts <;> simp
    · rw [hresource]
      exact resource_edge hnet

/-! ## Components are cut between characters -/

theorem head_after {delimiter : Char} (hdelimiter : (unichar delimiter).toNat < 0xD800)
    (part : Option (List UniChar)) (h : ∀ x ∈ ys.head?, x.toNat < 0xD800) :
    ∀ x ∈ (after delimiter part ++ ys).head?, x.toNat < 0xD800 := by
  cases part with
  | none => simpa [after] using h
  | some part => simpa [after] using hdelimiter

theorem Edge.append_right (hys : ∀ y ∈ ys.head?, y.toNat < 0xD800) (h : ys = [] → Edge xs zs) :
    Edge xs (ys ++ zs) := by
  cases ys with
  | nil => simpa using h rfl
  | cons y ys => exact .inr (by simpa using hys)

theorem Edge.append_left (hys : ∀ y ∈ ys.getLast?, y.toNat < 0xD800) (h : ys = [] → Edge xs zs) :
    Edge (xs ++ ys) zs := by
  rcases ys.eq_nil_or_concat with rfl | ⟨before, y, rfl⟩
  · simpa using h rfl
  · refine .inl ?_
    simpa [← List.append_assoc] using hys

section Hierarchical

variable {parts : Components} {slashes : List UniChar} (h : IsHierarchical parts slashes)

/-- The components after the path are behind a delimiter. -/
theorem head_trailing (hc : 6 ≤ d.bit) : ∀ x ∈ (parts.trailing slashes d).head?, x.toNat < 0xD800 := by
  have hfragment : ∀ x ∈ (parts.trailing slashes .fragment).head?, x.toNat < 0xD800 := by
    rw [trailing_fragment, ← List.append_nil (after _ _)]
    exact head_after (by decide) _ (by simp)
  have hquery : ∀ x ∈ (parts.trailing slashes .query).head?, x.toNat < 0xD800 := by
    rw [trailing_next parts slashes (d := .fragment) rfl]
    exact head_after (by decide) _ hfragment
  cases d with
  | parameters =>
    rw [trailing_next parts slashes (d := .query) rfl]
    exact head_after (by decide) _ hquery
  | query => exact hquery
  | fragment => exact hfragment
  | _ => simp [Component.bit] at hc

include h

theorem last_leading_user : ∀ x ∈ (parts.leading slashes .user).getLast?, x.toNat < 0xD800 := by
  rw [leading_user]
  rcases h.slashes with ⟨hslashes, -⟩ | hslashes
  · rw [hslashes, List.append_nil]
    cases parts.scheme with
    | none => simp [before]
    | some scheme => simp [before]
  · rw [hslashes, show literal ['/', '/'] = [unichar '/'] ++ [unichar '/'] from rfl, ← List.append_assoc]
    simp

theorem last_leading_host : ∀ x ∈ (parts.leading slashes .host).getLast?, x.toNat < 0xD800 := by
  rw [leading_host]
  cases parts.user with
  | none => simpa [before] using last_leading_user h
  | some user =>
    rw [Option.map_some, before, Option.elim_some, ← List.append_assoc]
    simp

theorem head_trailing_path (hhost : parts.host ≠ none) :
    ∀ x ∈ (parts.trailing slashes .path).head?, x.toNat < 0xD800 := by
  rw [trailing_path]
  exact h.resource hhost

theorem head_trailing_port (hhost : parts.host ≠ none) :
    ∀ x ∈ (parts.trailing slashes .port).head?, x.toNat < 0xD800 := by
  rw [trailing_next parts slashes (d := .path) rfl]
  exact head_after (by decide) _ (head_trailing_path h hhost)

/-- The place of a component is between two characters. -/
theorem leading_edge (c : Component) : Edge (parts.leading slashes c) (parts.trailing slashes c) := by
  have huser := last_leading_user h
  have hhost := last_leading_host h
  have hport : parts.host = none → parts.leading slashes .port = parts.leading slashes .host := by
    intro hnone
    rw [leading_next parts slashes (c := .host) rfl, Components.piece, hnone, Option.getD_none, List.append_nil]
  cases c with
  | scheme => exact .inl (by simp [leading_scheme])
  | user => exact .inl huser
  | password =>
    rw [leading_next parts slashes (c := .user) rfl, trailing_next parts slashes (d := .host) rfl, Components.piece,
      Components.piece]
    cases parts.user with
    | none => exact .inl (by simpa using huser)
    | some user =>
      refine .inr ?_
      rw [Option.elim_some, List.append_assoc]
      exact head_after (by decide) _ (by simp)
  | host => exact .inl hhost
  | port =>
    by_cases hnone : parts.host = none
    · exact .inl (by rwa [hport hnone])
    · exact .inr (head_trailing_port h hnone)
  | path =>
    by_cases hnone : parts.host = none
    · refine .inl ?_
      rw [leading_next parts slashes (c := .port) rfl, hport hnone, Components.piece, h.portHost hnone]
      simpa [after] using hhost
    · exact .inr (head_trailing_path h hnone)
  | parameters | query | fragment => exact .inr (head_trailing (by simp [Component.bit]))

/-- So is what comes behind it. -/
theorem behind_edge (c : Component) : Edge (parts.leading slashes c ++ parts.piece slashes c)
    ((Component.all.drop (c.bit + 1)).flatMap (parts.piece slashes)) := by
  have hnext : ∀ d : Component, d.bit = c.bit + 1 → Edge (parts.leading slashes c ++ parts.piece slashes c)
      ((Component.all.drop (c.bit + 1)).flatMap (parts.piece slashes)) := by
    intro d hd
    rw [← leading_next parts slashes hd, ← hd]
    exact leading_edge h d
  cases c with
  | scheme => exact hnext .user rfl
  | user => exact hnext .password rfl
  | password => exact hnext .host rfl
  | host => exact hnext .port rfl
  | port => exact hnext .path rfl
  | path => exact hnext .parameters rfl
  | parameters => exact hnext .query rfl
  | query => exact hnext .fragment rfl
  | fragment => exact .inr (by simp [Component.bit, Component.all])

/-- A piece is the component between its delimiters, of which the first ends and the
second begins with an ASCII character. -/
theorem piece_eq {c : Component} {part : List UniChar} (hpart : parts.get c = some part) :
    ∃ closing, parts.piece slashes c = c.delimiter ++ part ++ closing ∧
      ∀ x ∈ closing.head?, x.toNat < 0xD800 := by
  cases c with
  | scheme =>
    have hscheme : parts.scheme = some part := hpart
    refine ⟨unichar ':' :: slashes, ?_, by simp⟩
    simp [Components.piece, Component.delimiter, hscheme, before]
  | password =>
    have hpassword : parts.password = some part := hpart
    refine ⟨[unichar '@'], ?_, by simp⟩
    cases huser : parts.user with
    | none => simp [h.passwordUser huser] at hpassword
    | some user => simp [Components.piece, Component.delimiter, hpassword, huser, after]
  | _ => exact ⟨[], by simp_all [Components.get, Components.piece, Component.delimiter, after], by simp⟩

/-- A component ends where the next piece begins, or before it. -/
theorem extent_stop_le {c d : Component} {r r' : CFRange} (hcd : c.bit < d.bit)
    (hr : parts.extent slashes c = some r) (hr' : parts.extent slashes d = some r') : r.stop ≤ r'.location := by
  obtain ⟨part, hpart, rfl⟩ := Option.map_eq_some_iff.mp hr
  obtain ⟨part', -, rfl⟩ := Option.map_eq_some_iff.mp hr'
  obtain ⟨closing, hpiece, -⟩ := piece_eq h hpart
  have htake : Component.all.take (c.bit + 1) = Component.all.take c.bit ++ [c] := by cases c <;> rfl
  have hprefix : Component.all.take (c.bit + 1) <+: Component.all.take d.bit :=
    List.take_prefix_take_left hcd
  obtain ⟨between, hbetween⟩ := hprefix
  have hlength : (parts.leading slashes d).length = (parts.leading slashes c).length +
      (parts.piece slashes c).length + (between.flatMap (parts.piece slashes)).length := by
    rw [Components.leading, ← hbetween, htake, List.flatMap_append, List.flatMap_append, List.flatMap_singleton,
      List.length_append, List.length_append, Components.leading]
  have hparts := congrArg List.length hpiece
  rw [List.length_append, List.length_append] at hparts
  simp only [CFRange.stop, Components.start]
  omega

/-- A component begins and ends between two characters. -/
theorem extent_boundary {c : Component} {r : CFRange} (hr : parts.extent slashes c = some r) :
    Boundary (Component.all.flatMap (parts.piece slashes)) r.location ∧
      Boundary (Component.all.flatMap (parts.piece slashes)) r.stop := by
  obtain ⟨part, hpart, rfl⟩ := Option.map_eq_some_iff.mp hr
  obtain ⟨closing, hpiece, hclosing⟩ := piece_eq h hpart
  have hdrop : Component.all.drop c.bit = c :: Component.all.drop (c.bit + 1) := by cases c <;> rfl
  have hpieces : Component.all.flatMap (parts.piece slashes) = parts.leading slashes c ++
      (c.delimiter ++ part ++ closing ++ (Component.all.drop (c.bit + 1)).flatMap (parts.piece slashes)) := by
    rw [← leading_append_trailing parts slashes c, Components.trailing, hdrop, List.flatMap_cons, hpiece]
  refine ⟨?_, ?_⟩
  · have hstart : Edge (parts.leading slashes c ++ c.delimiter)
        (part ++ closing ++ (Component.all.drop (c.bit + 1)).flatMap (parts.piece slashes)) := by
      refine Edge.append_left (by cases c <;> simp [Component.delimiter]) fun hnone => ?_
      have hedge := leading_edge h c
      rw [Components.trailing, hdrop, List.flatMap_cons, hpiece, hnone, List.nil_append] at hedge
      exact hedge
    have hboundary := hstart.boundary
    rw [List.length_append] at hboundary
    simpa only [hpieces, List.append_assoc, Components.start] using hboundary
  · have hstop : Edge (parts.leading slashes c ++ c.delimiter ++ part)
        (closing ++ (Component.all.drop (c.bit + 1)).flatMap (parts.piece slashes)) := by
      refine Edge.append_right hclosing fun hnone => ?_
      have hedge := behind_edge h c
      rw [hpiece, hnone, List.append_nil, ← List.append_assoc] at hedge
      exact hedge
    have hboundary := hstop.boundary
    rw [List.length_append, List.length_append] at hboundary
    simpa only [hpieces, List.append_assoc, CFRange.stop, Components.start] using hboundary

end Hierarchical

end CFLite.URL
