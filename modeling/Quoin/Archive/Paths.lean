import Mathlib
import Quoin.Trans.Split
import Quoin.Streams.Utf8

/-!
# Quoin — paths

`[OS]Path` over Rust's lexical paths, as they are on Unix: bytes between slashes. The
parts of a path are its segments that are not empty. Joining a relative path appends its
parts (`parts_push`); the folder of a path has the first of its parts
(`parts_dirname`); and a relative path that does not climb above its start is normalised
to the parts that are left (`normalize_climbs`).
-/

namespace Quoin.Archive

open Trans Streams

/-! ## The operations -/

def SLASH : UInt8 := 0x2F

def DOT : UInt8 := 0x2E

/-- What stands between the slashes. -/
def segments (path : Bytes) : List Bytes := split [SLASH] path

def absolute (path : Bytes) : Bool := path.head? = some SLASH

inductive Component where
  | rootDir
  | curDir
  | parentDir
  | normal (name : Bytes)
  deriving DecidableEq

/-- The component of a segment; empty segments and dots are none. -/
def parseComponent (seg : Bytes) : Option Component :=
  if seg = [] ∨ seg = [DOT] then none
  else if seg = [DOT, DOT] then some .parentDir
  else some (.normal seg)

/-- `Path::components`: a dot counts at the start of a relative path only. -/
def components (path : Bytes) : List Component :=
  (if absolute path then [.rootDir]
    else if (segments path).head? = some [DOT] then [.curDir] else []) ++
    (segments path).filterMap parseComponent

/-- `as_os_str`. -/
def Component.text : Component → Bytes
  | .rootDir => [SLASH]
  | .curDir => [DOT]
  | .parentDir => [DOT, DOT]
  | .normal name => name

/-- `PathBuf::push`. -/
def push (buf path : Bytes) : Bytes :=
  if absolute path then path
  else if buf ≠ [] ∧ buf.getLast? ≠ some SLASH then buf ++ SLASH :: path
  else buf ++ path

/-- `[OS]Path.join:`. -/
def joinList (segs : List Bytes) : Bytes := segs.foldl push []

/-- A turn of `normalize`. -/
def normalizeStep (out : List Component) : Component → List Component
  | .curDir => out
  | .parentDir =>
    match out.getLast? with
    | some (.normal _) => out.dropLast
    | some .rootDir => out
    | _ => out ++ [.parentDir]
  | other => out ++ [other]

/-- `[OS]Path.normalize:`. -/
def normalize (path : Bytes) : Bytes :=
  let out := (components path).foldl normalizeStep []
  if out = [] then [DOT] else (out.map Component.text).foldl push []

/-- A segment that is no component. -/
def skipped (seg : Bytes) : Bool := seg = [] ∨ seg = [DOT]

/-- How much of a path stands in front of what its segments name: a root, or a first dot. -/
def lenBeforeBody (path : Bytes) : Nat :=
  if absolute path then 1
  else if (segments path).head? = some [DOT] then 1 else 0

/-- `Path::parent`: the path without its last component, and without the separators and dots
that are then at its end. -/
def parent (path : Bytes) : Option Bytes :=
  let start := path.take (lenBeforeBody path)
  let segs := (segments (path.drop (lenBeforeBody path))).rdropWhile skipped
  if segs = [] then (if start = [DOT] then some [] else none)
  else some (start ++ [SLASH].intercalate (segs.dropLast.rdropWhile skipped))

/-- `[OS]Path.dirname:`. -/
def dirname (path : Bytes) : Bytes :=
  match parent path with
  | some [] => [DOT]
  | some parent => parent
  | none => path

/-! ## Parts -/

/-- The segments that are not empty. -/
def parts (path : Bytes) : List Bytes := (segments path).filter (· ≠ [])

/-- The same place, lexically. -/
def SamePath (p q : Bytes) : Prop := absolute p = absolute q ∧ parts p = parts q

/-- A part that leads down. -/
def Clean (seg : Bytes) : Prop :=
  seg ≠ [] ∧ seg ≠ [DOT] ∧ seg ≠ [DOT, DOT] ∧ SLASH ∉ seg

section Parts

variable {p q : Bytes} {segs : List Bytes}

theorem slash_not_mem {seg : Bytes} (h : seg ∈ segments p) : SLASH ∉ seg :=
  not_mem_of_mem_split h

@[simp] theorem segments_nil : segments [] = [[]] := rfl

theorem parts_append_slash (p q : Bytes) : parts (p ++ SLASH :: q) = parts p ++ parts q := by
  rw [parts, segments, split_append_cons, List.filter_append]
  rfl

theorem parts_slash (p : Bytes) : parts (SLASH :: p) = parts p := parts_append_slash [] p

/-- A joined list has the segments that are joined. -/
theorem segments_join (hNe : segs ≠ []) (h : ∀ seg ∈ segs, SLASH ∉ seg) :
    segments ([SLASH].intercalate segs) = segs := split_join hNe h

theorem parts_join (h : ∀ seg ∈ segs, SLASH ∉ seg) :
    parts ([SLASH].intercalate segs) = segs.filter (· ≠ []) := by
  cases segs with
  | nil => rfl
  | cons seg segs => rw [parts, segments_join (List.cons_ne_nil _ _) h]

/-- To push a relative path appends its parts. -/
theorem parts_push (hRelative : absolute q = false) : parts (push p q) = parts p ++ parts q := by
  unfold push
  rw [if_neg (by simp [hRelative])]
  split
  · exact parts_append_slash p q
  next hEnd =>
    rcases List.eq_nil_or_concat p with rfl | ⟨init, b, rfl⟩
    · rfl
    · have hSlash : b = SLASH := by
        by_contra hOther
        exact hEnd ⟨by simp, by simpa using hOther⟩
      rw [hSlash, List.concat_eq_append, List.append_assoc, List.singleton_append,
        parts_append_slash, parts_append_slash]
      simp [parts]

theorem absolute_push (hRelative : absolute q = false) : absolute (push p q) = absolute p := by
  unfold push
  rw [if_neg (by simp [hRelative])]
  cases p with
  | nil => simpa [absolute] using hRelative
  | cons b p => split <;> rfl

end Parts

/-! ## The folder of a path -/

section Dirname

variable {p q : Bytes}

theorem dirname_of_parent (h : parent p = some q) (hNe : q ≠ []) : dirname p = q := by
  rw [dirname, h]
  cases q with
  | nil => exact absurd rfl hNe
  | cons => rfl

/-- A path whose last segment is a name. -/
def EndsInName (p : Bytes) : Prop := ∀ seg ∈ (segments p).getLast?, skipped seg = false

theorem rdropWhile_skipped {segs : List Bytes} (h : ∀ seg ∈ segs.getLast?, skipped seg = false) :
    segs.rdropWhile skipped = segs := by
  rw [List.rdropWhile_eq_self_iff]
  intro hNe
  have hLast := h (segs.getLast hNe) (by rw [List.getLast?_eq_getLast_of_ne_nil hNe]; rfl)
  simp [hLast]

/-- What is left for the folder. -/
theorem prefix_rest (segs : List Bytes) : segs.dropLast.rdropWhile skipped <+: segs := by
  have hRest := List.rdropWhile_prefix skipped segs.dropLast
  exact hRest.trans <| List.dropLast_prefix segs

theorem take_of_initial {segs rest : List Bytes} (h : rest <+: segs) :
    ∃ k, rest.filter (· ≠ []) = (segs.filter (· ≠ [])).take k :=
  ⟨_, List.prefix_iff_eq_take.mp (h.filter _)⟩

theorem segments_slash (b : Bytes) : segments (SLASH :: b) = [] :: segments b :=
  split_append_cons SLASH [] b

theorem segments_ne_nil (p : Bytes) : segments p ≠ [] := split_ne_nil (List.cons_ne_nil _ _) p

/-- Without a slash in front, the first segment of a path that is not empty is not empty. -/
theorem segments_cons {b : UInt8} (hb : b ≠ SLASH) (p : Bytes) :
    ∃ seg segs, segments p = seg :: segs ∧ segments (b :: p) = (b :: seg) :: segs := by
  have hNone : ¬[SLASH] <+: b :: p := fun h => hb (List.cons_prefix_cons.mp h).1.symm
  cases hSplit : segments p with
  | nil => exact absurd hSplit (segments_ne_nil p)
  | cons seg segs =>
    refine ⟨seg, segs, rfl, ?_⟩
    have hCons := split_cons hNone
    rw [segments] at hSplit ⊢
    rw [hCons, hSplit, List.modifyHead_cons]

theorem mem_rest {segs : List Bytes} {seg : Bytes}
    (h : seg ∈ segs.dropLast.rdropWhile skipped) : seg ∈ segs :=
  (prefix_rest segs).subset h

/-- The folder of an absolute path. -/
theorem parts_dirname_absolute {b : Bytes} (hName : EndsInName (SLASH :: b)) :
    absolute (dirname (SLASH :: b)) = true ∧
      ∃ k, parts (dirname (SLASH :: b)) = (parts (SLASH :: b)).take k := by
  have hBody : ∀ seg ∈ (segments b).getLast?, skipped seg = false := by
    intro seg hSeg
    refine hName seg ?_
    rw [segments_slash, List.getLast?_cons, Option.mem_def.mp hSeg]
    rfl
  have hParent : parent (SLASH :: b) =
      some (SLASH :: [SLASH].intercalate ((segments b).dropLast.rdropWhile skipped)) := by
    have hLen : lenBeforeBody (SLASH :: b) = 1 := by simp [lenBeforeBody, absolute]
    simp only [parent, hLen, List.take_succ_cons, List.take_zero, List.drop_succ_cons,
      List.drop_zero, rdropWhile_skipped hBody, if_neg (segments_ne_nil b), List.cons_append,
      List.nil_append]
  obtain ⟨k, hk⟩ := take_of_initial (prefix_rest (segments b))
  rw [dirname_of_parent hParent (List.cons_ne_nil _ _)]
  refine ⟨by simp [absolute], k, ?_⟩
  rw [parts_slash, parts_slash, parts_join fun seg hSeg => slash_not_mem (mem_rest hSeg), hk]
  rfl

theorem parts_dot_join {segs : List Bytes} (h : ∀ seg ∈ segs, SLASH ∉ seg) :
    parts (DOT :: [SLASH].intercalate ([] :: segs)) = [DOT] :: segs.filter (· ≠ []) := by
  cases segs with
  | nil => rfl
  | cons seg segs =>
    rw [List.intercalate_cons_cons, List.nil_append, List.singleton_append]
    have hSplit := parts_append_slash [DOT] ([SLASH].intercalate (seg :: segs))
    rw [parts_join h] at hSplit
    exact hSplit

/-- The folder of a path that begins with a dot. -/
theorem parts_dirname_dot {b : Bytes} (hName : EndsInName (DOT :: SLASH :: b)) :
    absolute (dirname (DOT :: SLASH :: b)) = false ∧
      ∃ k, parts (dirname (DOT :: SLASH :: b)) = (parts (DOT :: SLASH :: b)).take k := by
  have hSegments : segments (DOT :: SLASH :: b) = [DOT] :: segments b :=
    split_append_cons SLASH [DOT] b
  have hBody : ∀ seg ∈ (segments (SLASH :: b)).getLast?, skipped seg = false := by
    intro seg hSeg
    refine hName seg ?_
    rw [segments_slash] at hSeg
    rw [hSegments]
    cases hSplit : segments b with
    | nil => exact absurd hSplit (segments_ne_nil b)
    | cons => rwa [hSplit] at hSeg
  have hParent : parent (DOT :: SLASH :: b) = some (DOT ::
      [SLASH].intercalate ((segments (SLASH :: b)).dropLast.rdropWhile skipped)) := by
    have hLen : lenBeforeBody (DOT :: SLASH :: b) = 1 := by
      simp [lenBeforeBody, hSegments]
    simp only [parent, hLen, List.take_succ_cons, List.take_zero, List.drop_succ_cons,
      List.drop_zero, rdropWhile_skipped hBody, if_neg (segments_ne_nil _), List.cons_append,
      List.nil_append]
  rw [dirname_of_parent hParent (List.cons_ne_nil _ _)]
  have hPrefix := prefix_rest (segments (SLASH :: b))
  have hClear : ∀ seg ∈ (segments (SLASH :: b)).dropLast.rdropWhile skipped, SLASH ∉ seg :=
    fun seg hSeg => slash_not_mem (mem_rest hSeg)
  refine ⟨by simp [absolute, DOT, SLASH], ?_⟩
  rw [segments_slash] at hPrefix hClear
  rw [segments_slash]
  cases hRest : ([] :: segments b).dropLast.rdropWhile skipped with
  | nil => exact ⟨1, by simp [parts, hSegments]; rfl⟩
  | cons seg segs =>
    rw [hRest] at hPrefix hClear
    obtain ⟨rfl, hTail⟩ := List.cons_prefix_cons.mp hPrefix
    obtain ⟨k, hk⟩ := take_of_initial hTail
    refine ⟨k + 1, ?_⟩
    have hParts : parts (DOT :: SLASH :: b) = [DOT] :: (segments b).filter (· ≠ []) := by
      rw [parts, hSegments]
      rfl
    rw [parts_dot_join fun seg hSeg => hClear seg (List.mem_cons_of_mem _ hSeg), hParts,
      List.take_succ_cons, hk]

/-- The folder of a path that begins with a name. -/
theorem parts_dirname_plain {c : UInt8} {b : Bytes} (hc : c ≠ SLASH)
    (hDot : (segments (c :: b)).head? ≠ some [DOT]) (hName : EndsInName (c :: b)) :
    (absolute (dirname (c :: b)) = false ∧
        ∃ k, parts (dirname (c :: b)) = (parts (c :: b)).take k) ∨
      (segments (c :: b)).length = 1 ∧ dirname (c :: b) = [DOT] := by
  obtain ⟨seg, segs, -, hSegments⟩ := segments_cons hc b
  have hAbsolute : absolute (c :: b) = false := by simp [absolute, hc]
  have hLen : lenBeforeBody (c :: b) = 0 := by
    rw [lenBeforeBody, hAbsolute, if_neg (by simp), if_neg hDot]
  have hParent : parent (c :: b) =
      some ([SLASH].intercalate ((segments (c :: b)).dropLast.rdropWhile skipped)) := by
    simp only [parent, hLen, List.take_zero, List.drop_zero, rdropWhile_skipped hName,
      if_neg (segments_ne_nil _), List.nil_append]
  have hPrefix := prefix_rest (segments (c :: b))
  have hClear : ∀ seg ∈ (segments (c :: b)).dropLast.rdropWhile skipped, SLASH ∉ seg :=
    fun seg hSeg => slash_not_mem (mem_rest hSeg)
  cases hRest : (segments (c :: b)).dropLast.rdropWhile skipped with
  | nil =>
    -- Only the last segment names anything, so it is the first one too.
    right
    rw [hRest] at hParent
    refine ⟨?_, by rw [dirname, hParent]; rfl⟩
    rw [hSegments] at hRest hDot ⊢
    cases segs with
    | nil => rfl
    | cons next segs =>
      have hAll := List.rdropWhile_eq_nil_iff.mp hRest (c :: seg) (by simp)
      simp [skipped] at hAll
      simp [hAll] at hDot
  | cons first rest =>
    left
    rw [hRest] at hParent hPrefix hClear
    rw [hSegments] at hPrefix
    obtain ⟨rfl, -⟩ := List.cons_prefix_cons.mp hPrefix
    obtain ⟨tail, hJoin⟩ : ∃ tail, [SLASH].intercalate ((c :: seg) :: rest) = c :: tail := by
      cases rest with
      | nil => exact ⟨seg, by simp⟩
      | cons => exact ⟨_, by rw [List.intercalate_cons_cons, List.append_assoc, List.cons_append]⟩
    have hParts := parts_join hClear
    rw [hJoin] at hParent hParts
    obtain ⟨k, hk⟩ := take_of_initial hPrefix
    rw [dirname_of_parent hParent (List.cons_ne_nil _ _)]
    refine ⟨by simp [absolute, hc], k, ?_⟩
    rw [hParts, hk, parts, hSegments]

/-- The folder has the first parts of the path; one name alone is in the working folder. -/
theorem parts_dirname (hName : EndsInName p) :
    (absolute (dirname p) = absolute p ∧ ∃ k, parts (dirname p) = (parts p).take k) ∨
      (segments p).length = 1 ∧ dirname p = [DOT] := by
  cases p with
  | nil => simp [EndsInName, skipped] at hName
  | cons c b =>
    by_cases hc : c = SLASH
    · subst hc
      obtain ⟨hAbsolute, hParts⟩ := parts_dirname_absolute hName
      exact .inl ⟨hAbsolute, hParts⟩
    · have hAbsolute : absolute (c :: b) = false := by simp [absolute, hc]
      rw [hAbsolute]
      by_cases hDot : (segments (c :: b)).head? = some [DOT]
      · obtain ⟨rest, rfl, rfl⟩ : ∃ rest, c = DOT ∧ b = SLASH :: rest := by
          obtain ⟨seg, segs, hRest, hSegments⟩ := segments_cons hc b
          rw [hSegments, List.head?_cons, Option.some.injEq, List.cons.injEq] at hDot
          obtain ⟨rfl, rfl⟩ := hDot
          cases b with
          | nil =>
            cases hRest
            simp [EndsInName, hSegments, skipped] at hName
          | cons d rest =>
            by_cases hd : d = SLASH
            · exact ⟨rest, rfl, by rw [hd]⟩
            · obtain ⟨first, others, -, hNext⟩ := segments_cons hd rest
              simp [hNext] at hRest
        exact .inl (parts_dirname_dot hName)
      · exact parts_dirname_plain hc hDot hName

end Dirname

/-! ## Normal paths -/

section Normalize

variable {p : Bytes} {segs names : List Bytes} {out : List Component}

/-- Going through the segments at a depth leads above the start. -/
def climbsFrom : Nat → List Bytes → Bool
  | _, [] => false
  | depth, seg :: segs =>
    if skipped seg then climbsFrom depth segs
    else if seg = [DOT, DOT] then
      if depth = 0 then true else climbsFrom (depth - 1) segs
    else climbsFrom (depth + 1) segs

/-- The path leads above its start. -/
def climbs (path : Bytes) : Bool := climbsFrom 0 (segments path)

/-- Behind a first component that does not go away, it stays. -/
theorem foldl_normalizeStep_head {first : Component}
    (hFirst : first = .rootDir ∨ first = .parentDir) (rest comps : List Component) :
    ∃ rest', comps.foldl normalizeStep (first :: rest) = first :: rest' := by
  induction comps generalizing rest with
  | nil => exact ⟨rest, rfl⟩
  | cons comp comps ih =>
    have hStep : ∃ rest', normalizeStep (first :: rest) comp = first :: rest' := by
      cases comp with
      | curDir => exact ⟨rest, rfl⟩
      | rootDir => exact ⟨rest ++ [.rootDir], rfl⟩
      | normal name => exact ⟨rest ++ [.normal name], rfl⟩
      | parentDir =>
        rw [normalizeStep]
        split
        next hLast =>
          cases rest with
          | nil => rcases hFirst with rfl | rfl <;> cases hLast
          | cons comp rest => exact ⟨(comp :: rest).dropLast, rfl⟩
        · exact ⟨rest, rfl⟩
        · exact ⟨rest ++ [.parentDir], rfl⟩
    obtain ⟨rest', hEq⟩ := hStep
    rw [List.foldl_cons, hEq]
    exact ih rest'

/-- The names that are left of segments, or a climb. -/
theorem foldl_normalizeStep_names (hSegs : ∀ seg ∈ segs, SLASH ∉ seg)
    (hNames : ∀ name ∈ names, Clean name) :
    (climbsFrom names.length segs = true ∧
      ∃ rest, (segs.filterMap parseComponent).foldl normalizeStep (names.map .normal) =
        .parentDir :: rest) ∨
    climbsFrom names.length segs = false ∧
      ∃ names' : List Bytes, (segs.filterMap parseComponent).foldl normalizeStep
        (names.map .normal) = names'.map .normal ∧ ∀ name ∈ names', Clean name := by
  induction segs generalizing names with
  | nil => exact .inr ⟨rfl, names, rfl, hNames⟩
  | cons seg segs ih =>
    have hRest : ∀ seg ∈ segs, SLASH ∉ seg := fun x hx => hSegs x (List.mem_cons_of_mem _ hx)
    rw [List.filterMap_cons, climbsFrom]
    by_cases hTrivial : skipped seg = true
    · -- an empty segment and `.` change nothing
      have hNone : parseComponent seg = none := by
        rw [parseComponent, if_pos (by simpa [skipped] using hTrivial)]
      rw [hNone, if_pos hTrivial]
      exact ih hRest hNames
    · have hNot : ¬(seg = [] ∨ seg = [DOT]) := by simpa [skipped] using hTrivial
      rw [if_neg hTrivial]
      by_cases hUp : seg = [DOT, DOT]
      · have hParent : parseComponent seg = some .parentDir := by
          rw [parseComponent, if_neg hNot, if_pos hUp]
        rw [hParent, if_pos hUp, List.foldl_cons]
        rcases List.eq_nil_or_concat names with rfl | ⟨init, name, rfl⟩
        · -- a `..` with no name before it stays for good
          exact .inl ⟨rfl, foldl_normalizeStep_head (.inr rfl) [] _⟩
        · -- else it takes the last name away
          have hStep : normalizeStep ((init ++ [name]).map .normal) .parentDir =
              init.map .normal := by
            simp [normalizeStep]
          rw [List.concat_eq_append, hStep, List.length_append, List.length_singleton,
            if_neg (Nat.succ_ne_zero _), Nat.add_sub_cancel]
          exact ih hRest fun x hx => hNames x (by simp [hx])
      · -- a name is added, and it is clean
        have hNormal : parseComponent seg = some (.normal seg) := by
          rw [parseComponent, if_neg hNot, if_neg hUp]
        have hStep : normalizeStep (names.map .normal) (.normal seg) =
            (names ++ [seg]).map .normal := by
          simp [normalizeStep]
        have hLength : names.length + 1 = (names ++ [seg]).length := by simp
        rw [hNormal, if_neg hUp, List.foldl_cons, hStep, hLength]
        refine ih hRest fun x hx => ?_
        rcases List.mem_append.mp hx with hOld | hNew
        · exact hNames x hOld
        · rw [List.mem_singleton.mp hNew]
          exact ⟨fun hEq => hNot (.inl hEq), fun hEq => hNot (.inr hEq), hUp,
            hSegs seg List.mem_cons_self⟩

/-- To push parts is to join them. -/
theorem foldl_push {buf : Bytes} (hBuf : buf ≠ [] ∧ buf.getLast? ≠ some SLASH)
    (hSegs : ∀ seg ∈ segs, seg ≠ [] ∧ SLASH ∉ seg) :
    segs.foldl push buf = [SLASH].intercalate (buf :: segs) := by
  induction segs generalizing buf with
  | nil => simp
  | cons seg segs ih =>
    obtain ⟨hNe, hClear⟩ := hSegs seg List.mem_cons_self
    have hRelative : absolute seg = false := by
      refine decide_eq_false fun hHead => hClear ?_
      exact List.mem_of_head? hHead
    have hPush : push buf seg = buf ++ SLASH :: seg := by
      rw [push, if_neg (by simp [hRelative]), if_pos hBuf]
    have hLast : (buf ++ SLASH :: seg).getLast? ≠ some SLASH := by
      rw [List.getLast?_append_cons, List.getLast?_cons]
      cases hGet : seg.getLast? with
      | none => exact absurd (List.getLast?_eq_none_iff.mp hGet) hNe
      | some b =>
        rintro ⟨⟩
        exact hClear (List.mem_of_getLast? hGet)
    rw [List.foldl_cons, hPush, ih ⟨by simp, hLast⟩ fun x hx => hSegs x (List.mem_cons_of_mem _ hx),
      List.intercalate_cons_cons]
    cases segs with
    | nil => simp
    | cons => simp [List.intercalate_cons_cons]

/-- The text of parts that are names, but for the first one. -/
theorem segments_pushed {first : Bytes} (hFirst : first ≠ [] ∧ SLASH ∉ first)
    (hSegs : ∀ seg ∈ segs, seg ≠ [] ∧ SLASH ∉ seg) :
    segments ((first :: segs).foldl push []) = first :: segs := by
  have hRelative : absolute first = false :=
    decide_eq_false fun hHead => hFirst.2 (List.mem_of_head? hHead)
  have hPush : push [] first = first := by simp [push, hRelative]
  have hLast : first.getLast? ≠ some SLASH := fun h => hFirst.2 (List.mem_of_getLast? h)
  rw [List.foldl_cons, hPush, foldl_push ⟨hFirst.1, hLast⟩ hSegs]
  refine segments_join (List.cons_ne_nil _ _) fun x hx => ?_
  rcases List.mem_cons.mp hx with rfl | hx
  · exact hFirst.2
  · exact (hSegs x hx).2

/-- What is left was there. -/
theorem mem_foldl_normalizeStep {comp : Component} (comps : List Component)
    (h : comp ∈ comps.foldl normalizeStep out) : comp ∈ out ∨ comp ∈ comps := by
  induction comps generalizing out with
  | nil => exact .inl h
  | cons first comps ih =>
    rcases ih h with hStep | hRest
    · have hFrom : comp ∈ out ∨ comp = first := by
        cases first with
        | curDir => exact .inl hStep
        | rootDir => simpa [normalizeStep] using hStep
        | normal name => simpa [normalizeStep] using hStep
        | parentDir =>
          rw [normalizeStep] at hStep
          split at hStep
          · exact .inl (List.mem_of_mem_dropLast hStep)
          · exact .inl hStep
          · simpa using hStep
      rcases hFrom with hOut | rfl
      · exact .inl hOut
      · exact .inr List.mem_cons_self
    · exact .inr (List.mem_cons_of_mem _ hRest)

/-- Up, and the names of segments. -/
theorem text_of_parseComponent {seg : Bytes} {comp : Component}
    (h : parseComponent seg = some comp) : comp.text = seg ∧ seg ≠ [] := by
  unfold parseComponent at h
  split at h
  · cases h
  next hNot =>
    refine ⟨?_, fun hEq => hNot (.inl hEq)⟩
    split at h
    next hUp =>
      cases h
      exact hUp.symm
    · cases h
      rfl

/-- The first component of a relative path, if it is a dot, goes away. -/
theorem foldl_components (hRelative : absolute p = false) :
    (components p).foldl normalizeStep [] =
      ((segments p).filterMap parseComponent).foldl normalizeStep [] := by
  unfold components
  rw [hRelative, if_neg (by simp)]
  split <;> rfl

theorem absolute_push_absolute {q : Bytes} (h : absolute p = true) :
    absolute (push p q) = true := by
  unfold push
  split
  · assumption
  · cases p with
    | nil => cases h
    | cons b p => split <;> exact h

/-- An absolute path stays absolute. -/
theorem absolute_normalize (h : absolute p = true) : absolute (normalize p) = true := by
  have hComponents : ∃ rest, components p = .rootDir :: rest := by
    unfold components
    rw [if_pos h]
    exact ⟨_, rfl⟩
  obtain ⟨rest, hEq⟩ := hComponents
  obtain ⟨rest', hFold⟩ := foldl_normalizeStep_head (.inl rfl) [] rest
  have hOut : (components p).foldl normalizeStep [] = .rootDir :: rest' := by
    rw [hEq]
    exact hFold
  have hAll : ∀ (segs : List Bytes) (buf : Bytes), absolute buf = true →
      absolute (segs.foldl push buf) = true := by
    intro segs
    induction segs with
    | nil => exact fun _ hBuf => hBuf
    | cons seg segs ih => exact fun buf hBuf => ih _ (absolute_push_absolute hBuf)
  unfold normalize
  simp only [hOut, if_neg (List.cons_ne_nil _ _), List.map_cons, List.foldl_cons]
  exact hAll _ _ rfl

/-- A relative path that climbs begins with the way up; of another one the names are left. -/
theorem normalize_climbs (hRelative : absolute p = false) :
    (climbs p = true ∧ (normalize p = [DOT, DOT] ∨ [DOT, DOT, SLASH] <+: normalize p)) ∨
    climbs p = false ∧ (normalize p = [DOT] ∨
      ∃ names, names ≠ [] ∧ (∀ name ∈ names, Clean name) ∧ segments (normalize p) = names) := by
  have hSegs : ∀ seg ∈ segments p, SLASH ∉ seg := fun _ => slash_not_mem
  have hOut := foldl_components hRelative
  rcases foldl_normalizeStep_names hSegs (List.forall_mem_nil Clean) with
    ⟨hClimbs, rest, hFold⟩ | ⟨hStays, names, hFold, hClean⟩
  · -- a `..` is left at the start, and what stands behind it does not matter
    refine .inl ⟨hClimbs, ?_⟩
    -- what is behind it are names and dots of the path, without a slash
    have hRest : ∀ seg ∈ rest.map Component.text, seg ≠ [] ∧ SLASH ∉ seg := by
      intro seg hSeg
      obtain ⟨comp, hComp, rfl⟩ := List.mem_map.mp hSeg
      have hMem : comp ∈ ((segments p).filterMap parseComponent).foldl normalizeStep [] := by
        rw [show ((segments p).filterMap parseComponent).foldl normalizeStep [] =
          .parentDir :: rest from hFold]
        exact List.mem_cons_of_mem _ hComp
      rcases mem_foldl_normalizeStep _ hMem with hNil | hFrom
      · cases hNil
      · obtain ⟨seg, hSeg', hParse⟩ := List.mem_filterMap.mp hFrom
        obtain ⟨hText, hNe⟩ := text_of_parseComponent hParse
        rw [hText]
        exact ⟨hNe, hSegs seg hSeg'⟩
    have hUp : ([DOT, DOT] : Bytes) ≠ [] ∧ ([DOT, DOT] : Bytes).getLast? ≠ some SLASH :=
      ⟨List.cons_ne_nil _ _, by decide⟩
    -- the text of the path is theirs, put together with slashes
    have hText : normalize p = [SLASH].intercalate ([DOT, DOT] :: rest.map Component.text) := by
      unfold normalize
      rw [hOut, show ((segments p).filterMap parseComponent).foldl normalizeStep [] =
          .parentDir :: rest from hFold]
      exact foldl_push hUp hRest
    rw [hText]
    cases rest with
    | nil => exact .inl (by simp)
    | cons comp rest =>
      rw [List.map_cons, List.intercalate_cons_cons]
      exact .inr ⟨_, by rw [List.append_assoc]; rfl⟩
  · -- only names are left, clean ones; with none of them the path is `.`
    refine .inr ⟨hStays, ?_⟩
    have hFold' : ((segments p).filterMap parseComponent).foldl normalizeStep [] =
        names.map .normal := hFold
    cases names with
    | nil =>
      left
      unfold normalize
      rw [hOut, hFold']
      rfl
    | cons name names =>
      right
      refine ⟨name :: names, List.cons_ne_nil _ _, hClean, ?_⟩
      -- clean names are read back as they are
      have hPart : ∀ x ∈ name :: names, x ≠ [] ∧ SLASH ∉ x := fun x hx =>
        ⟨(hClean x hx).1, (hClean x hx).2.2.2⟩
      have hTexts : ((name :: names).map Component.normal).map Component.text = name :: names := by
        rw [List.map_map]
        exact List.map_id _
      unfold normalize
      rw [hOut, hFold']
      simp only [hTexts]
      exact segments_pushed (hPart name List.mem_cons_self) fun x hx =>
        hPart x (List.mem_cons_of_mem _ hx)

end Normalize

end Quoin.Archive
