import Mathlib
import Quoin.Trans.Split

/-!
# Quoin — URLs of requests

`parseUrl` splits a URL at `://`, what follows at `/`, and the authority at `:`, and takes
the first pieces; the pieces of the path are put together again by the `join:` of List.
That loses nothing (`Kept`) as long as the URL is `Plain`: the host has no colon, and the
text behind the authority is empty, or begins with one slash and does not hold `://` itself.
Everything else is lost in one of four ways:

* a host with a colon (an IPv6 address) ends at the colon;
* a query without a path becomes part of the host or the port;
* a second `://` ends the path, whatever follows;
* slashes at the beginning of the path become one slash, since `join:` writes no separator
  as long as its text is empty.

Main results:

* `parseUrl_kept` — splitting a URL loses nothing exactly if it is `Plain`.
* `parseUrl_kept_login` — a URL in the query of another one is cut off.
-/

namespace Quoin.Http

open Trans

abbrev Text := List Char

/-! ## Splitting and resolving -/

def SCHEME_END : Text := [':', '/', '/']

/-- The scheme, host, port and path of a URL. -/
structure Target where
  scheme : Text
  host : Text
  port : Text
  path : Text
  deriving DecidableEq

def defaultPort (scheme : Text) : Text :=
  if scheme = "https".toList then "443".toList else "80".toList

/-- `join:` of a List of Strings. The separator is written only where there is some text before it,
so that empty pieces at the beginning leave nothing. -/
def join (sep : Text) (pieces : List Text) : Text :=
  pieces.foldl (fun out piece => (if out = [] then out else out ++ sep) ++ piece) []

/-- `parseUrl:`; nothing where a piece is missing, since nil does not understand
`splitString:`. -/
def parseUrl (url : Text) : Option Target := do
  let afterScheme := split SCHEME_END url
  let scheme ← afterScheme[0]?
  let rest ← afterScheme[1]?
  let restParts := split ['/'] rest
  let hostPort ← restParts[0]?
  let path := '/' :: join ['/'] (restParts.drop 1)
  let hp := split [':'] hostPort
  let host ← hp[0]?
  let port := hp[1]?.getD (defaultPort scheme)
  some ⟨scheme, host, port, path⟩

/-- `scheme://host:port`. -/
def Target.origin (t : Target) : Text := t.scheme ++ SCHEME_END ++ t.host ++ ':' :: t.port

/-- `resolveLocation:against:`. -/
def resolveLocation (loc base : Text) : Option Text :=
  if "http://".toList <+: loc ∨ "https://".toList <+: loc then some loc
  else do
    let parts ← parseUrl base
    if ['/'] <+: loc then some (parts.origin ++ loc)
    else
      let comps := (split ['/'] parts.path).drop 1
      let dirStr := join ['/'] (comps.take (comps.length - 1))
      let dirPath := if dirStr ≠ [] then '/' :: dirStr ++ ['/'] else ['/']
      some (parts.origin ++ dirPath ++ loc)

/-! ## What a URL says -/

/-- `scheme://host[:port][/path][?query]`. A host has colons only between brackets. -/
structure Url where
  scheme : Text
  host : Text
  port : Option Text
  /-- The path and the query: any text. -/
  tail : Text
  scheme_ok : ':' ∉ scheme
  host_ok : '/' ∉ host ∧ '?' ∉ host ∧ (':' ∈ host → ∃ address, host = '[' :: address ++ [']'])
  port_ok : ∀ p, port = some p → p ≠ [] ∧ '/' ∉ p ∧ '?' ∉ p ∧ ':' ∉ p
  tail_ok : tail = [] ∨ (∃ t, tail = '/' :: t) ∨ ∃ t, tail = '?' :: t

namespace Url

variable (u : Url)

def authority : Text := u.host ++ ((u.port.map (':' :: ·)).getD [])

def text : Text := u.scheme ++ SCHEME_END ++ (u.authority ++ u.tail)

def portOrDefault : Text := u.port.getD (defaultPort u.scheme)

/-- What is to be found in a URL: everything from the first slash behind the authority is the
path, and a slash if there is none. -/
def target : Target where
  scheme := u.scheme
  host := u.host
  port := u.portOrDefault
  path := if '/' ∈ u.tail then u.tail.dropWhile (· ≠ '/') else ['/']

/-- Splitting loses nothing: the parts are found, and a location that begins with a slash stays
on the origin, as it is. -/
def Kept : Prop :=
  parseUrl u.text = some u.target ∧
    ∀ loc, ['/'] <+: loc → resolveLocation loc u.text = some (u.target.origin ++ loc)

/-- The host has no colon, and the rest is empty, or begins with one slash and holds no `://`. -/
def Plain : Prop :=
  ':' ∉ u.host ∧ (∀ t, u.tail ≠ '?' :: t) ∧ ¬['/', '/'] <+: u.tail ∧ ¬SCHEME_END <:+: u.tail

end Url

/-! ## Putting pieces together -/

section Join

variable {sep p : Text} {ps : List Text} {c : Char}

/-- Once there is some text, every piece comes with its separator. -/
theorem foldl_join (h : p ≠ []) :
    ps.foldl (fun out piece => (if out = [] then out else out ++ sep) ++ piece) p =
      sep.intercalate (p :: ps) := by
  induction ps generalizing p with
  | nil => rw [List.foldl_nil, List.intercalate_singleton]
  | cons q ps ih =>
    have hNe : p ++ sep ++ q ≠ [] := by simp [h]
    rw [List.foldl_cons, if_neg h, ih hNe]
    cases ps with
    | nil => rw [List.intercalate_singleton, List.intercalate_cons_cons,
        List.intercalate_singleton]
    | cons q' ps => simp only [List.intercalate_cons_cons, List.append_assoc]

theorem join_nil_cons (sep : Text) (ps : List Text) : join sep ([] :: ps) = join sep ps := rfl

theorem join_cons (h : p ≠ []) : join sep (p :: ps) = sep.intercalate (p :: ps) := by
  rw [join, List.foldl_cons, if_pos rfl, List.nil_append, foldl_join h]

/-- Split and joined at the same character, a text has lost that character at its beginning. -/
theorem join_split_dropWhile (c : Char) (s : Text) :
    join [c] (split [c] s) = s.dropWhile (· = c) := by
  induction s with
  | nil => rfl
  | cons a s ih =>
    by_cases ha : a = c
    · -- an empty piece in front of the separator
      rw [split_start (by simp [ha]), join_nil_cons, List.dropWhile_cons_of_pos (by simp [ha])]
      exact ih
    · have hStart : ¬[c] <+: a :: s := by simp [Ne.symm ha]
      obtain ⟨p, ps, hSplit⟩ := List.exists_cons_of_ne_nil (split_ne_nil (List.cons_ne_nil c []) s)
      have hWhole : split [c] (a :: s) = (a :: p) :: ps := by
        rw [split_cons hStart, hSplit, List.modifyHead_cons]
      rw [List.dropWhile_cons_of_neg (by simp [ha]), hWhole, join_cons (List.cons_ne_nil a p),
        ← hWhole, join_split (List.cons_ne_nil c [])]

end Join

/-! ## What is found -/

variable {scheme rest a t : Text}

/-- The first piece behind the scheme, an authority and what begins with a slash, is taken
apart. -/
theorem parseUrl_eq {after : Text} {ps : List Text} (hScheme : ':' ∉ scheme)
    (hFirst : split SCHEME_END after = (a ++ t) :: ps) (hSlash : '/' ∉ a)
    (hPath : t = [] ∨ ∃ x, t = '/' :: x) :
    parseUrl (scheme ++ SCHEME_END ++ after) = some ⟨scheme, a.takeWhile (· ≠ ':'),
      (split [':'] a)[1]?.getD (defaultPort scheme), '/' :: t.dropWhile (· = '/')⟩ := by
  obtain ⟨hp, hColon⟩ := split_head ':' a
  have hOuter : split SCHEME_END (scheme ++ SCHEME_END ++ after) = scheme :: (a ++ t) :: ps := by
    rw [List.append_assoc, ← hFirst]
    exact split_at hScheme
  obtain ⟨qs, hInner, hJoin⟩ : ∃ qs, split ['/'] (a ++ t) = a :: qs ∧
      join ['/'] qs = t.dropWhile (· = '/') := by
    rcases hPath with rfl | ⟨x, rfl⟩
    · exact ⟨[], by rw [List.append_nil, split_of_not_mem hSlash], rfl⟩
    · refine ⟨split ['/'] x, split_at_one hSlash, ?_⟩
      rw [join_split_dropWhile, List.dropWhile_cons_of_pos (by simp)]
  unfold parseUrl
  simp only [hOuter, hInner, hColon, List.getElem?_cons_zero, List.getElem?_cons_succ,
    Option.bind_eq_bind, Option.bind_some, List.drop_succ_cons, List.drop_zero, hJoin]

namespace Url

variable (u : Url)

theorem schemeEnd_ne_nil : SCHEME_END ≠ [] := List.cons_ne_nil _ _

theorem not_slash_mem_authority : '/' ∉ u.authority := by
  unfold authority
  cases hPort : u.port with
  | none => simpa using u.host_ok.1
  | some p =>
    obtain ⟨-, hp, -⟩ := u.port_ok p hPort
    simp [u.host_ok.1, hp]

/-- No separator starts in an authority whose host has no colon. -/
theorem split_authority (hHost : ':' ∉ u.host) (s : Text) :
    split SCHEME_END (u.authority ++ s) = (split SCHEME_END s).modifyHead (u.authority ++ ·) := by
  unfold authority
  cases hPort : u.port with
  | none =>
    rw [Option.map_none, Option.getD_none, List.append_nil]
    exact split_append_of_not_mem hHost
  | some p =>
    obtain ⟨hNe, hSlash, -, hColon⟩ := u.port_ok p hPort
    have hStart : ¬SCHEME_END <+: ':' :: (p ++ s) := by
      cases p with
      | nil => exact absurd rfl hNe
      | cons c p =>
        intro hOccurs
        simp only [SCHEME_END, List.cons_append, List.cons_prefix_cons] at hOccurs
        exact hSlash (hOccurs.2.1 ▸ List.mem_cons_self)
    have hPart : split SCHEME_END (p ++ s) = (split SCHEME_END s).modifyHead (p ++ ·) :=
      split_append_of_not_mem hColon
    have hWhole : split SCHEME_END (u.host ++ ':' :: (p ++ s)) =
        (split SCHEME_END (':' :: (p ++ s))).modifyHead (u.host ++ ·) :=
      split_append_of_not_mem hHost
    rw [Option.map_some, Option.getD_some, List.append_assoc, List.cons_append, hWhole,
      split_cons hStart, hPart]
    cases split SCHEME_END s <;> simp

/-- The host and port of an authority whose host has no colon. -/
theorem split_colon (hHost : ':' ∉ u.host) :
    u.authority.takeWhile (· ≠ ':') = u.host ∧
      (split [':'] u.authority)[1]?.getD (defaultPort u.scheme) = u.portOrDefault := by
  unfold authority portOrDefault
  cases hPort : u.port with
  | none =>
    have hAll := takeWhile_ne hHost []
    refine ⟨?_, ?_⟩
    · simpa using hAll
    · simp [split_of_not_mem hHost]
  | some p =>
    obtain ⟨-, -, -, hColon⟩ := u.port_ok p hPort
    have hTake := takeWhile_ne hHost (':' :: p)
    have hSplit : split [':'] (u.host ++ ':' :: p) = u.host :: split [':'] p :=
      split_at_one hHost
    refine ⟨?_, ?_⟩
    · simpa using hTake
    · simp [hSplit, split_of_not_mem hColon]

/-- The parts of a URL whose host has no colon and whose tail is no lone query: the path ends
at a second `://`, and begins with one slash. -/
theorem parseUrl_text (hHost : ':' ∉ u.host) (hQuery : ∀ t, u.tail ≠ '?' :: t) :
    ∃ r, parseUrl u.text = some ⟨u.scheme, u.host, u.portOrDefault,
        '/' :: r.dropWhile (· = '/')⟩ ∧
      (r = u.tail ∧ ¬SCHEME_END <:+: u.tail ∨ ∃ t, u.tail = r ++ SCHEME_END ++ t) := by
  obtain ⟨r, ps, hFirst, hWhole⟩ := split_first schemeEnd_ne_nil u.tail
  refine ⟨r, ?_, hWhole⟩
  have hPath : r = [] ∨ ∃ x, r = '/' :: x := by
    cases r with
    | nil => exact .inl rfl
    | cons c r =>
      have hHead : ∃ s, u.tail = c :: s := by
        rcases hWhole with ⟨hEq, -⟩ | ⟨t, hEq⟩
        · exact ⟨r, hEq.symm⟩
        · exact ⟨_, hEq⟩
      obtain ⟨s, hTail⟩ := hHead
      rcases u.tail_ok with hNil | ⟨t, hSlash⟩ | ⟨t, hMark⟩
      · simp [hNil] at hTail
      · rw [hSlash, List.cons.injEq] at hTail
        exact .inr ⟨r, by rw [← hTail.1]⟩
      · exact absurd hMark (hQuery t)
  have hAfter : split SCHEME_END (u.authority ++ u.tail) = (u.authority ++ r) :: ps := by
    rw [u.split_authority hHost, hFirst, List.modifyHead_cons]
  obtain ⟨hName, hPort⟩ := u.split_colon hHost
  rw [text, parseUrl_eq u.scheme_ok hAfter u.not_slash_mem_authority hPath, hName, hPort]

theorem target_path (hQuery : ∀ t, u.tail ≠ '?' :: t) :
    u.target.path = if u.tail = [] then ['/'] else u.tail := by
  rcases u.tail_ok with hNil | ⟨t, hSlash⟩ | ⟨t, hMark⟩
  · simp [target, hNil]
  · simp [target, hSlash]
  · exact absurd hMark (hQuery t)

/-- The path that is found of a whole tail is that of the URL exactly if the tail does not begin
with two slashes. -/
theorem target_path_iff (hQuery : ∀ t, u.tail ≠ '?' :: t) :
    '/' :: u.tail.dropWhile (· = '/') = u.target.path ↔ ¬['/', '/'] <+: u.tail := by
  rw [u.target_path hQuery]
  rcases u.tail_ok with hNil | ⟨t, hSlash⟩ | ⟨t, hMark⟩
  · simp [hNil]
  · rw [hSlash, if_neg (List.cons_ne_nil _ _), List.dropWhile_cons_of_pos (by simp),
      List.cons.injEq]
    cases t with
    | nil => simp
    | cons c t =>
      by_cases hc : c = '/'
      · -- the second slash goes too, and what is left is too short
        subst hc
        have hShort : (t.dropWhile (· = '/')).length ≤ t.length := List.length_dropWhile_le _ _
        refine iff_of_false (fun h => ?_) (by simp)
        have hLength := congrArg List.length h.2
        rw [List.dropWhile_cons_of_pos (by simp), List.length_cons] at hLength
        omega
      · rw [List.dropWhile_cons_of_neg (by simp [hc])]
        exact iff_of_true ⟨rfl, rfl⟩ (by simp [Ne.symm hc])
  · exact absurd hMark (hQuery t)

/-- What `://`, a query and a second slash do not spoil. -/
theorem parseUrl_target (h : u.Plain) : parseUrl u.text = some u.target := by
  obtain ⟨hHost, hQuery, hOne, hNone⟩ := h
  obtain ⟨r, hParse, ⟨rfl, -⟩ | ⟨t, hTail⟩⟩ := u.parseUrl_text hHost hQuery
  · rw [hParse, (u.target_path_iff hQuery).mpr hOne]
    rfl
  · exact absurd ⟨r, t, hTail.symm⟩ hNone

/-- A host with a colon is cut off. -/
theorem host_of_parseUrl {url : Text} {target : Target} (h : parseUrl url = some target) :
    ':' ∉ target.host := by
  unfold parseUrl at h
  simp only [Option.bind_eq_bind, Option.bind_eq_some_iff, Option.some.injEq] at h
  obtain ⟨scheme, -, rest, -, hostPort, -, host, hHost, rfl⟩ := h
  obtain ⟨ps, hSplit⟩ := split_head ':' hostPort
  rw [hSplit, List.getElem?_cons_zero, Option.some.injEq] at hHost
  intro hMem
  rw [← hHost] at hMem
  simpa using List.mem_takeWhile_imp hMem

/-- A query without a path goes to the host or the port. -/
theorem parseUrl_query (hHost : ':' ∉ u.host) {t : Text} (hTail : u.tail = '?' :: t) :
    parseUrl u.text ≠ some u.target := by
  obtain ⟨r, ps, hFirst, hWhole⟩ := split_first schemeEnd_ne_nil u.tail
  obtain ⟨w, rfl⟩ : ∃ w, r = '?' :: w := by
    rcases hWhole with ⟨rfl, -⟩ | ⟨s, hEq⟩
    · exact ⟨t, hTail⟩
    · cases r with
      | nil => simp [hTail, SCHEME_END] at hEq
      | cons c r =>
        rw [hTail, List.cons_append, List.cons_append, List.cons.injEq] at hEq
        exact ⟨r, by rw [← hEq.1]⟩
  -- What is left of the query in front of the first slash stands behind the authority.
  obtain ⟨q, s, rfl, hSlash, hPath⟩ :
      ∃ q s, w = q ++ s ∧ '/' ∉ q ∧ (s = [] ∨ ∃ x, s = '/' :: x) := by
    by_cases hMem : '/' ∈ w
    · obtain ⟨q, s, hEq, hq⟩ := List.eq_append_cons_of_mem hMem
      exact ⟨q, _, hEq, hq, .inr ⟨s, rfl⟩⟩
    · exact ⟨w, [], (List.append_nil w).symm, hMem, .inl rfl⟩
  have hAfter : split SCHEME_END (u.authority ++ u.tail) =
      (u.authority ++ '?' :: q ++ s) :: ps := by
    rw [u.split_authority hHost, hFirst, List.modifyHead_cons, List.append_assoc,
      List.cons_append]
  have hClear : '/' ∉ u.authority ++ '?' :: q := by
    simp [u.not_slash_mem_authority, hSlash]
  intro hParse
  rw [text, parseUrl_eq u.scheme_ok hAfter hClear hPath, Option.some.injEq] at hParse
  have hName := congrArg Target.host hParse
  have hPort := congrArg Target.port hParse
  simp only [target, portOrDefault, authority] at hName hPort
  cases hGiven : u.port with
  | none =>
    rw [hGiven, Option.map_none, Option.getD_none, List.append_nil, takeWhile_ne hHost] at hName
    simp at hName
  | some p =>
    obtain ⟨-, -, -, hColon⟩ := u.port_ok p hGiven
    obtain ⟨qs, hRest⟩ := split_head ':' (p ++ '?' :: q)
    have hSplit : split [':'] (u.host ++ ':' :: (p ++ '?' :: q)) =
        u.host :: split [':'] (p ++ '?' :: q) := split_at_one hHost
    rw [hGiven, Option.map_some, Option.getD_some, Option.getD_some, List.append_assoc,
      List.cons_append, hSplit, hRest, takeWhile_ne hColon] at hPort
    simp at hPort

theorem parseUrl_eq_target_iff : parseUrl u.text = some u.target ↔ u.Plain := by
  refine ⟨fun hParse => ?_, u.parseUrl_target⟩
  have hHost : ':' ∉ u.host := host_of_parseUrl hParse
  have hQuery : ∀ t, u.tail ≠ '?' :: t := fun t hTail => u.parseUrl_query hHost hTail hParse
  obtain ⟨r, hFound, hWhole⟩ := u.parseUrl_text hHost hQuery
  have hPath : '/' :: r.dropWhile (· = '/') = u.target.path :=
    congrArg Target.path (Option.some.inj (hFound.symm.trans hParse))
  rcases hWhole with ⟨hTail, hNone⟩ | ⟨t, hTail⟩
  · rw [hTail] at hPath
    exact ⟨hHost, hQuery, (u.target_path_iff hQuery).mp hPath, hNone⟩
  · -- The path that is found ends before the separator.
    have hShort : (r.dropWhile (· = '/')).length ≤ r.length := List.length_dropWhile_le _ _
    have hLength : ('/' :: r.dropWhile (· = '/')).length < u.tail.length := by
      rw [hTail]
      simp only [SCHEME_END, List.length_append, List.length_cons, List.length_nil]
      omega
    rw [hPath, u.target_path hQuery] at hLength
    split at hLength
    next hNil => simp [hNil] at hLength
    next => exact absurd hLength (lt_irrefl _)

end Url

theorem resolveLocation_root {loc base : Text} (hRoot : ['/'] <+: loc) :
    resolveLocation loc base = (parseUrl base).map fun t => t.origin ++ loc := by
  have hRelative : ¬("http://".toList <+: loc ∨ "https://".toList <+: loc) := by
    obtain ⟨rest, rfl⟩ := hRoot
    simp
  rw [resolveLocation, if_neg hRelative]
  cases parseUrl base <;> simp [hRoot]

/-- **Splitting loses nothing exactly where the URL is plain**: the host has no colon and the rest
of the URL, if there is any, begins with one slash and holds no further `://`. Then the four parts
are those of the URL, and a location that begins with a slash is put behind its origin as it is. -/
theorem parseUrl_kept (u : Url) : u.Kept ↔ u.Plain := by
  refine ⟨fun h => u.parseUrl_eq_target_iff.mp h.1, fun h => ?_⟩
  have hParse := u.parseUrl_target h
  refine ⟨hParse, fun loc hRoot => ?_⟩
  rw [resolveLocation_root hRoot, hParse, Option.map_some]

/-- `http://example.org/login?next=http://example.org/a`. -/
def loginUrl : Url where
  scheme := "http".toList
  host := "example.org".toList
  port := none
  tail := "/login?next=http://example.org/a".toList
  scheme_ok := by decide
  host_ok := ⟨by decide, by decide, by simp⟩
  port_ok := by simp
  tail_ok := .inr (.inl ⟨_, rfl⟩)

/-- The path ends in front of the second `://`. -/
theorem parseUrl_kept_login :
    loginUrl.text = "http://example.org/login?next=http://example.org/a".toList ∧
      parseUrl loginUrl.text = some ⟨"http".toList, "example.org".toList, "80".toList,
        "/login?next=http".toList⟩ ∧
      loginUrl.target.path = loginUrl.tail ∧ ¬loginUrl.Kept := by
  have hParse : parseUrl loginUrl.text = some ⟨"http".toList, "example.org".toList, "80".toList,
      "/login?next=http".toList⟩ := by decide +kernel
  refine ⟨by decide +kernel, hParse, by decide +kernel, fun h => ?_⟩
  have hPath := congrArg Target.path (Option.some.inj (hParse.symm.trans h.1))
  exact absurd hPath (by decide +kernel)

end Quoin.Http
