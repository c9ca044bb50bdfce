import Mathlib
import Quoin.Archive.Paths
import Quoin.Archive.Zip

/-!
# Quoin — extraction

`extractTo:` of a tar reader and of a zip reader: for each entry the name is normalised,
refused where it is absolute or leads above its start, and joined to the destination;
folders are created by `mkdirs:`, one after the other, and then the file is written. An
operation on the file system may fail, which ends the extraction.

Everything that is written is the destination joined with clean parts. So are the folders
that are created, or they lead to the destination: `mkdirs:` creates these too
(`extract_confined`).

## Results

* `extract_confined` — whatever entries an archive has and whatever the file system answers, each
  operation on the file system stays at or below the destination, but for the folders that lead to
  it; an entry whose name is refused is refused before anything of it is written;
* `extract_confined_destination` — the folders on the way to the destination are created too.
-/

namespace Quoin.Archive

open Trans Streams

/-! ## Extracting -/

/-- The loop of `mkdirs:` over the pieces of a path: the folders that it creates. -/
def mkdirsLoop (rooted : Bool) : Bytes → List Bytes → List Bytes
  | _, [] => []
  | current, part :: pieces =>
    if part = [] then mkdirsLoop rooted current pieces
    else
      let current :=
        if current = [] then (if rooted then SLASH :: part else part) else current ++ SLASH :: part
      current :: mkdirsLoop rooted current pieces

def mkdirs (path : Bytes) : List Bytes := mkdirsLoop (absolute path) [] (segments path)

/-- An operation on the file system. -/
inductive FileOp where
  | createFolder (path : Bytes)
  | createFile (path : Bytes)
  | write (path content : Bytes)
  deriving DecidableEq

/-- A member of an archive as far as it is extracted. -/
structure Extracted where
  name : Bytes
  type : TypeSymbol
  content : Bytes
  deriving DecidableEq

/-- What differs between the readers: the word in the error, and whether a member that is no
folder is written. -/
structure Format where
  word : String
  writes : TypeSymbol → Bool

/-- A tar reader skips symlinks and specials. -/
def tarFormat : Format := ⟨"tar", fun type => type = .file⟩

def zipFormat : Format := ⟨"zip", fun _ => true⟩

def Entry.extracted (entry : Entry) (content : Bytes) : Extracted :=
  ⟨entry.name.bytes, entry.type, content⟩

/-- A zip entry is a folder if its name ends in a slash. -/
def ZipEntry.extracted (entry : ZipEntry) (content : Bytes) : Extracted :=
  ⟨entry.name.bytes, if entry.name.bytes.getLast? = some SLASH then .directory else .file, content⟩

/-- The three tests of a normalised name. -/
def refuses (norm : Bytes) : Bool :=
  absolute norm ∨ norm = [DOT, DOT] ∨ [DOT, DOT, SLASH] <+: norm

/-- What is done for an entry; nothing if its name is refused. -/
def entryOps (format : Format) (dir : Bytes) (entry : Extracted) : Option (List FileOp) :=
  let norm := normalize entry.name
  if refuses norm then none
  else if norm = [DOT] ∨ norm = [] then some []
  else
    let target := joinList [dir, norm]
    if entry.type = .directory then some ((mkdirs target).map .createFolder)
    else if format.writes entry.type then
      some ((mkdirs (dirname target)).map .createFolder ++
        [.createFile target, .write target entry.content])
    else some []

inductive ExtractEnd where
  | done
  /-- `ValueError`: the word, and `: refusing unsafe path` with the name. -/
  | refused (word : String) (name : Bytes)
  /-- An operation that failed. -/
  | failed
  deriving DecidableEq

/-- What was done for each entry, and how it ended. So many operations for an entry succeed as
`succeed` says, if it has as many. -/
def extractTo (format : Format) (dir : Bytes) (succeed : Nat → Nat) :
    Nat → List Extracted → List (Extracted × List FileOp) × ExtractEnd
  | _, [] => ([], .done)
  | i, entry :: entries =>
    match entryOps format dir entry with
    | none => ([(entry, [])], .refused format.word entry.name)
    | some ops =>
      if succeed i < ops.length then ([(entry, ops.take (succeed i))], .failed)
      else
        let rest := extractTo format dir succeed (i + 1) entries
        ((entry, ops) :: rest.1, rest.2)

/-! ## What is confined -/

/-- The destination joined with parts that lead down, at least one. -/
def Inside (dir path : Bytes) : Prop :=
  ∃ names, names ≠ [] ∧ (∀ name ∈ names, Clean name) ∧ SamePath path (joinList (dir :: names))

/-- A folder on the way to the destination, or the destination; for an empty one the working
folder. -/
def Leads (dir path : Bytes) : Prop :=
  (absolute path = absolute dir ∧ parts path ≠ [] ∧ parts path <+: parts dir) ∨
    dir = [] ∧ path = [DOT]

/-- An operation on what is inside the destination, or a folder created that leads there. -/
def FileOp.Confined (dir : Bytes) : FileOp → Prop
  | createFolder path => Inside dir path ∨ Leads dir path
  | createFile path => Inside dir path
  | write path _ => Inside dir path

/-- The name is absolute or leads above its start. -/
def Unsafe (name : Bytes) : Prop := absolute name = true ∨ climbs name = true

section Confined

variable {dir path norm : Bytes} {names : List Bytes}

theorem Clean.relative {name : Bytes} (h : Clean name) : absolute name = false :=
  decide_eq_false fun hHead => h.2.2.2 (List.mem_of_head? hHead)

theorem Clean.parts {name : Bytes} (h : Clean name) : parts name = [name] := by
  have hSegments : segments name = [name] := split_of_not_mem h.2.2.2
  simp [Archive.parts, hSegments, h.1]

theorem foldl_push_clean (hClean : ∀ name ∈ names, Clean name) (buf : Bytes) :
    parts (names.foldl push buf) = parts buf ++ names ∧
      absolute (names.foldl push buf) = absolute buf := by
  induction names generalizing buf with
  | nil => simp
  | cons name names ih =>
    have hName := hClean name List.mem_cons_self
    obtain ⟨hParts, hAbsolute⟩ := ih (fun x hx => hClean x (List.mem_cons_of_mem _ hx))
      (push buf name)
    rw [List.foldl_cons]
    refine ⟨?_, hAbsolute.trans (absolute_push hName.relative)⟩
    rw [hParts, parts_push hName.relative, hName.parts, List.append_assoc, List.singleton_append]

theorem push_nil (path : Bytes) : push [] path = path := by
  unfold push
  split <;> simp

/-- The first parts of something inside. -/
theorem confined_of_initial (hClean : ∀ name ∈ names, Clean name)
    (hAbsolute : absolute path = absolute dir) (hNe : parts path ≠ [])
    (hPrefix : parts path <+: parts dir ++ names) : Inside dir path ∨ Leads dir path := by
  rcases List.prefix_or_prefix_of_prefix hPrefix (List.prefix_append (parts dir) names) with
    hLeads | ⟨some, hSome⟩
  · exact .inr (.inl ⟨hAbsolute, hNe, hLeads⟩)
  · rw [← hSome, List.prefix_append_right_inj] at hPrefix
    cases some with
    | nil =>
      rw [List.append_nil] at hSome
      exact .inr (.inl ⟨hAbsolute, hNe, hSome ▸ List.prefix_rfl⟩)
    | cons name some =>
      have hSomeClean : ∀ x ∈ name :: some, Clean x := fun x hx => hClean x (hPrefix.subset hx)
      obtain ⟨hParts, hRoot⟩ := foldl_push_clean hSomeClean dir
      refine .inl ⟨name :: some, List.cons_ne_nil _ _, hSomeClean, ?_⟩
      rw [joinList, List.foldl_cons, push_nil]
      exact ⟨hAbsolute.trans hRoot.symm, hSome.symm.trans hParts.symm⟩

/-- The loop creates longer and longer beginnings of a path. -/
theorem mem_mkdirsLoop {rooted : Bool} {current : Bytes} {pieces : List Bytes}
    (hClear : ∀ piece ∈ pieces, SLASH ∉ piece)
    (hCurrent : current ≠ [] → absolute current = rooted) :
    ∀ made ∈ mkdirsLoop rooted current pieces, absolute made = rooted ∧ parts made ≠ [] ∧
      parts made <+: parts current ++ pieces.filter (· ≠ []) := by
  induction pieces generalizing current with
  | nil => exact fun made hMem => absurd hMem List.not_mem_nil
  | cons part pieces ih =>
    have hRest : ∀ piece ∈ pieces, SLASH ∉ piece := fun x hx =>
      hClear x (List.mem_cons_of_mem _ hx)
    have hPart := hClear part List.mem_cons_self
    intro made hMem
    rw [mkdirsLoop] at hMem
    by_cases hEmpty : part = []
    · rw [if_pos hEmpty] at hMem
      have hMade := ih hRest hCurrent made hMem
      simpa [hEmpty] using hMade
    · rw [if_neg hEmpty] at hMem
      have hSegments : segments part = [part] := split_of_not_mem hPart
      have hOwn : parts part = [part] := by simp [parts, hSegments, hEmpty]
      have hFilter : (part :: pieces).filter (· ≠ []) = part :: pieces.filter (· ≠ []) := by
        simp [hEmpty]
      -- What becomes of the current folder.
      obtain ⟨next, hNext, hRoot, hParts⟩ : ∃ next,
          (if current = [] then (if rooted then SLASH :: part else part)
            else current ++ SLASH :: part) = next ∧
          absolute next = rooted ∧ parts next = parts current ++ [part] := by
        refine ⟨_, rfl, ?_⟩
        by_cases hStart : current = []
        · subst hStart
          rw [if_pos rfl]
          cases rooted with
          | true => exact ⟨rfl, (parts_slash part).trans hOwn⟩
          | false =>
            exact ⟨decide_eq_false fun hHead => hPart (List.mem_of_head? hHead), hOwn⟩
        · rw [if_neg hStart, parts_append_slash, hOwn]
          refine ⟨?_, rfl⟩
          rw [← hCurrent hStart]
          cases current with
          | nil => exact absurd rfl hStart
          | cons => rfl
      simp only [hNext] at hMem
      rw [hFilter, ← List.singleton_append, ← List.append_assoc, ← hParts]
      rcases List.mem_cons.mp hMem with rfl | hMem
      · exact ⟨hRoot, by simp [hParts], List.prefix_append _ _⟩
      · exact ih hRest (fun _ => hRoot) made hMem

theorem mem_mkdirs {made : Bytes} (hMem : made ∈ mkdirs path) :
    absolute made = absolute path ∧ parts made ≠ [] ∧ parts made <+: parts path := by
  have hMade := mem_mkdirsLoop (fun _ => slash_not_mem) (fun h => absurd rfl h) made hMem
  exact hMade

theorem not_head_of_clean {head : Bytes} {rest : List Bytes} (hSegments : segments norm = names)
    (hClean : ∀ name ∈ names, Clean name) (hHead : head = [] ∨ head = [DOT, DOT]) :
    segments norm ≠ head :: rest := by
  intro hEq
  obtain ⟨hNe, -, hUp, -⟩ := hClean head (by rw [← hSegments, hEq]; exact List.mem_cons_self)
  exact hHead.elim hNe hUp

theorem relative_of_clean (hSegments : segments norm = names)
    (hClean : ∀ name ∈ names, Clean name) : absolute norm = false := by
  refine decide_eq_false fun hHead => ?_
  obtain ⟨b, rfl⟩ := List.head?_eq_some_iff.mp hHead
  exact not_head_of_clean hSegments hClean (.inl rfl) (segments_slash b)

/-- What leads down is not refused. -/
theorem refuses_of_clean (hSegments : segments norm = names)
    (hClean : ∀ name ∈ names, Clean name) : refuses norm = false := by
  refine decide_eq_false ?_
  rintro (hAbsolute | rfl | ⟨rest, rfl⟩)
  · rw [relative_of_clean hSegments hClean] at hAbsolute
    cases hAbsolute
  · have hEq : segments [DOT, DOT] = [[DOT, DOT]] := by decide
    exact not_head_of_clean hSegments hClean (.inr rfl) hEq
  · have hEq : segments ([DOT, DOT, SLASH] ++ rest) = [DOT, DOT] :: segments rest :=
      split_append_cons SLASH [DOT, DOT] rest
    exact not_head_of_clean hSegments hClean (.inr rfl) hEq

/-- A refused name is unsafe, and no other is refused. -/
theorem refuses_iff (name : Bytes) : refuses (normalize name) = true ↔ Unsafe name := by
  cases hAbsolute : absolute name with
  | true =>
    refine iff_of_true (decide_eq_true (.inl ?_)) (.inl hAbsolute)
    exact absolute_normalize hAbsolute
  | false =>
    have hNot : ¬absolute name = true := by simp [hAbsolute]
    rcases normalize_climbs hAbsolute with
      ⟨hClimbs, hUp⟩ | ⟨hStays, hDot | ⟨names, -, hClean, hSegments⟩⟩
    · exact iff_of_true (decide_eq_true (.inr hUp)) (.inr hClimbs)
    · refine iff_of_false ?_ (not_or.mpr ⟨hNot, by simp [hStays]⟩)
      rw [hDot]
      decide
    · refine iff_of_false ?_ (not_or.mpr ⟨hNot, by simp [hStays]⟩)
      simp [refuses_of_clean hSegments hClean]

/-- The segments of a joined path. -/
theorem segments_push (dir : Bytes) (hRelative : absolute norm = false) : ∃ front,
    segments (push dir norm) = front ++ segments norm ∧ (front = [] → dir = []) := by
  unfold push
  rw [if_neg (by simp [hRelative])]
  split
  · refine ⟨segments dir, split_append_cons SLASH dir norm, fun h => absurd h (segments_ne_nil dir)⟩
  next hEnd =>
    rcases List.eq_nil_or_concat dir with rfl | ⟨init, b, rfl⟩
    · exact ⟨[], rfl, fun _ => rfl⟩
    · have hSlash : b = SLASH := by
        by_contra hOther
        exact hEnd ⟨by simp, by simpa using hOther⟩
      refine ⟨segments init, ?_, fun h => absurd h (segments_ne_nil init)⟩
      rw [hSlash, List.concat_eq_append, List.append_assoc, List.singleton_append]
      exact split_append_cons SLASH init norm

/-- What is joined to the destination. -/
theorem target_spec (dir : Bytes) (hSegments : segments norm = names) (hNe : names ≠ [])
    (hClean : ∀ name ∈ names, Clean name) :
    absolute (joinList [dir, norm]) = absolute dir ∧
      parts (joinList [dir, norm]) = parts dir ++ names ∧ EndsInName (joinList [dir, norm]) ∧
      ((segments (joinList [dir, norm])).length = 1 → dir = []) := by
  have hRelative := relative_of_clean hSegments hClean
  have hJoin : joinList [dir, norm] = push dir norm := by
    rw [joinList, List.foldl_cons, List.foldl_cons, push_nil, List.foldl_nil]
  have hNorm : parts norm = names := by
    rw [parts, hSegments, List.filter_eq_self]
    exact fun name hMem => decide_eq_true (hClean name hMem).1
  obtain ⟨front, hFront, hEmpty⟩ := segments_push dir hRelative
  rw [hSegments] at hFront
  rw [hJoin]
  refine ⟨absolute_push hRelative, by rw [parts_push hRelative, hNorm], ?_, ?_⟩
  · intro seg hSeg
    rw [hFront, List.getLast?_append_of_ne_nil _ hNe] at hSeg
    have hLast := hClean seg (List.mem_of_getLast? hSeg)
    simp [skipped, hLast.1, hLast.2.1]
  · intro hOne
    refine hEmpty ?_
    have hPos := List.length_pos_iff.mpr hNe
    rw [hFront, List.length_append] at hOne
    exact List.length_eq_zero_iff.mp (by omega)

/-- The folders of a file inside. -/
theorem confined_mkdirs_dirname {target made : Bytes} (hName : EndsInName target)
    (hClean : ∀ name ∈ names, Clean name) (hAbsolute : absolute target = absolute dir)
    (hParts : parts target = parts dir ++ names)
    (hAlone : (segments target).length = 1 → dir = []) (hMem : made ∈ mkdirs (dirname target)) :
    Inside dir made ∨ Leads dir made := by
  rcases parts_dirname hName with ⟨hRoot, k, hTake⟩ | ⟨hOne, hDot⟩
  · obtain ⟨hMade, hNe, hPrefix⟩ := mem_mkdirs hMem
    refine confined_of_initial hClean (hMade.trans (hRoot.trans hAbsolute)) hNe ?_
    rw [hTake, hParts] at hPrefix
    exact hPrefix.trans <| List.take_prefix k _
  · rw [hDot] at hMem
    have hWorking : mkdirs [DOT] = [[DOT]] := by decide
    rw [hWorking, List.mem_singleton] at hMem
    exact .inr (.inr ⟨hAlone hOne, hMem⟩)

/-- What is done for an entry is confined, and nothing is done for an unsafe one. -/
theorem entryOps_confined {format : Format} {entry : Extracted} {ops : List FileOp}
    (h : entryOps format dir entry = some ops) :
    ¬Unsafe entry.name ∧ ∀ op ∈ ops, op.Confined dir := by
  simp only [entryOps] at h
  by_cases hRefused : refuses (normalize entry.name) = true
  · rw [if_pos hRefused] at h
    cases h
  rw [if_neg hRefused] at h
  -- a name that is not refused leads nowhere else
  have hSafe : ¬Unsafe entry.name := mt (refuses_iff entry.name).mpr hRefused
  refine ⟨hSafe, ?_⟩
  by_cases hNone : normalize entry.name = [DOT] ∨ normalize entry.name = []
  · rw [if_pos hNone] at h
    cases h
    exact fun op hMem => absurd hMem List.not_mem_nil
  rw [if_neg hNone] at h
  have hRelative : absolute entry.name = false := by
    simpa using fun hAbsolute => hSafe (.inl hAbsolute)
  rcases normalize_climbs hRelative with
    ⟨hClimbs, -⟩ | ⟨-, hDot | ⟨names, hNames, hClean, hSegments⟩⟩
  · exact absurd (.inr hClimbs) hSafe
  · exact absurd (.inl hDot) hNone
  · obtain ⟨hAbsolute, hParts, hLast, hAlone⟩ := target_spec dir hSegments hNames hClean
    -- what is joined to the destination are clean names
    have hInside : Inside dir (joinList [dir, normalize entry.name]) := by
      obtain ⟨hJoined, hRoot⟩ := foldl_push_clean hClean dir
      refine ⟨names, hNames, hClean, ?_⟩
      rw [SamePath, joinList.eq_1 (dir :: names), List.foldl_cons, push_nil]
      exact ⟨hAbsolute.trans hRoot.symm, hParts.trans hJoined.symm⟩
    by_cases hFolder : entry.type = .directory
    · rw [if_pos hFolder] at h
      cases h
      intro op hMem
      obtain ⟨made, hMade, rfl⟩ := List.mem_map.mp hMem
      obtain ⟨hRoot, hNe, hPrefix⟩ := mem_mkdirs hMade
      rw [hParts] at hPrefix
      exact confined_of_initial hClean (hRoot.trans hAbsolute) hNe hPrefix
    rw [if_neg hFolder] at h
    -- folders first, as far as the file's own
    by_cases hWrites : format.writes entry.type = true
    · rw [if_pos hWrites] at h
      cases h
      intro op hMem
      rcases List.mem_append.mp hMem with hMade | hFile
      · obtain ⟨folder, hFolder, rfl⟩ := List.mem_map.mp hMade
        exact confined_mkdirs_dirname hLast hClean hAbsolute hParts hAlone hFolder
      · rcases List.mem_cons.mp hFile with rfl | hFile
        · exact hInside
        · rw [List.mem_singleton.mp hFile]
          exact hInside
    · rw [if_neg hWrites] at h
      cases h
      exact fun op hMem => absurd hMem List.not_mem_nil

end Confined

/-! ## Whole extractions -/

/-- Every operation is confined; an entry with an unsafe name is the last one, with nothing done
for it and an error. -/
structure Extraction (format : Format) (dir : Bytes)
    (r : List (Extracted × List FileOp) × ExtractEnd) : Prop where
  confined : ∀ x ∈ r.1, ∀ op ∈ x.2, op.Confined dir
  refused : ∀ x ∈ r.1, Unsafe x.1.name →
    x.2 = [] ∧ r.1.getLast? = some x ∧ r.2 = .refused format.word x.1.name

/-- One entry more, in front. -/
theorem Extraction.cons {format : Format} {dir : Bytes} {entry : Extracted} {ops : List FileOp}
    {r : List (Extracted × List FileOp) × ExtractEnd} (h : Extraction format dir r)
    (hSafe : ¬Unsafe entry.name) (hConfined : ∀ op ∈ ops, op.Confined dir) :
    Extraction format dir ((entry, ops) :: r.1, r.2) := by
  constructor
  · intro x hMem
    rcases List.mem_cons.mp hMem with rfl | hMem
    · exact hConfined
    · exact h.confined x hMem
  · intro x hMem hUnsafe
    rcases List.mem_cons.mp hMem with rfl | hMem
    · exact absurd hUnsafe hSafe
    · obtain ⟨hNone, hLast, hEnd⟩ := h.refused x hMem hUnsafe
      refine ⟨hNone, ?_, hEnd⟩
      rw [List.getLast?_cons, hLast]
      rfl

theorem Extraction.nil (format : Format) (dir : Bytes) (ending : ExtractEnd) :
    Extraction format dir ([], ending) :=
  ⟨fun _ hMem => absurd hMem List.not_mem_nil, fun _ hMem => absurd hMem List.not_mem_nil⟩

/-- Extraction is confined to the destination and the way to it, for a tar archive and for a
zip archive. -/
theorem extract_confined (format : Format) (dir : Bytes) (succeed : Nat → Nat) (i : Nat)
    (entries : List Extracted) :
    Extraction format dir (extractTo format dir succeed i entries) := by
  induction entries generalizing i with
  | nil => exact .nil format dir .done
  | cons entry entries ih =>
    cases hOps : entryOps format dir entry with
    | none =>
      simp only [extractTo, hOps]
      constructor
      · intro x hMem op hOp
        rw [List.mem_singleton.mp hMem] at hOp
        cases hOp
      · intro x hMem _
        rw [List.mem_singleton.mp hMem]
        exact ⟨rfl, rfl, rfl⟩
    | some ops =>
      obtain ⟨hSafe, hConfined⟩ := entryOps_confined hOps
      by_cases hFails : succeed i < ops.length
      · simp only [extractTo, hOps, if_pos hFails]
        exact (Extraction.nil format dir .failed).cons hSafe fun op hMem =>
          hConfined op (List.mem_of_mem_take hMem)
      · simp only [extractTo, hOps, if_neg hFails]
        exact (ih (i + 1)).cons hSafe hConfined

/-- The member `a`, extracted into `d`, creates the folder `d`, which is not inside `d`. -/
theorem extract_confined_destination :
    (extractTo tarFormat [0x64] (fun _ => 3) 0 [⟨[0x61], .file, [1]⟩]).1 =
        [(⟨[0x61], .file, [1]⟩, [.createFolder [0x64], .createFile [0x64, SLASH, 0x61],
          .write [0x64, SLASH, 0x61] [1]])] ∧
      ¬Inside [0x64] [0x64] := by
  refine ⟨by decide +kernel, ?_⟩
  rintro ⟨names, hNames, hClean, -, hParts⟩
  rw [joinList, List.foldl_cons, push_nil, (foldl_push_clean hClean [0x64]).1] at hParts
  exact hNames (List.self_eq_append_right.mp hParts)

end Quoin.Archive
