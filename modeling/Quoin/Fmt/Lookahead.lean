import Mathlib
import Quoin.Fmt.Layout

/-!
# Quoin — what the formatter's lookahead promises

The lookahead of a group walks over the same work items as the renderer does after it,
so that what it has found holds until the line ends (`Ahead.step`): the renderer takes
groups as flat as the lookahead did, and what it writes on the line has room. Where a
group fits and has a text of one line, the renderer writes that text (`flat_run`), as
long as the flat width says (`flatWidth_eq`).

## Results

* `Ahead.step` — the renderer takes over what the lookahead has found, one work item at a time;
* `flat_run` — a group that fits is written as its flat text;
* `render_keeps` — for every document whose choices agree: the text without its gaps is the same at
  any width, and a group that fits is on one line;
* `render_trims` — blanks before a newline are cut off.
-/

namespace Quoin.Fmt

open Trans

/-! ## Texts of one line -/

mutual

/-- The text of a document on one line, if it can stand on one. -/
def oneLine : Doc → Option (List Char)
  | .nil | .softLine => some []
  | .text s => some s
  | .verbatim s => if '\n' ∈ s then none else some s
  | .line => some [' ']
  | .flatText s => some s
  | .hardLine => none
  | .concat ds => oneLines ds
  | .nest _ d => oneLine d
  | .align d => oneLine d
  | .group d => oneLine d
  | .preferIfFits _ _ fit _ => oneLine fit

def oneLines : List Doc → Option (List Char)
  | [] => some []
  | d :: ds => (oneLine d).bind fun t => (oneLines ds).map fun u => t ++ u

end

/-- What holds of a document if it does of all smaller ones. -/
theorem Doc.induction {P : Doc → Prop} (h : ∀ d, (∀ d', d'.size < d.size → P d') → P d)
    (d : Doc) : P d :=
  (measure Doc.size).wf.induction d h

theorem size_le_sizes {d : Doc} {ds : List Doc} (h : d ∈ ds) : d.size ≤ sizes ds := by
  induction ds with
  | nil => cases h
  | cons e ds ih =>
    rw [sizes]
    rcases List.mem_cons.mp h with rfl | h
    · exact Nat.le_add_right ..
    · exact (ih h).trans (Nat.le_add_left ..)

theorem size_lt_concat {d : Doc} {ds : List Doc} (h : d ∈ ds) : d.size < (Doc.concat ds).size := by
  rw [Doc.size]
  exact Nat.lt_succ_of_le (size_le_sizes h)

theorem flatWidths_eq {ds : List Doc}
    (h : ∀ d ∈ ds, flatWidth d = (oneLine d).map List.length) (acc : Nat) :
    flatWidths acc ds = (oneLines ds).map fun t => acc + t.length := by
  induction ds generalizing acc with
  | nil => rw [flatWidths, oneLines]; rfl
  | cons d ds ih =>
    rw [flatWidths, h d List.mem_cons_self, oneLines]
    cases oneLine d with
    | none => rfl
    | some t =>
      rw [Option.map_some, Option.bind_some, Option.map_map]
      dsimp only
      rw [ih fun e he => h e (List.mem_cons_of_mem d he)]
      congr 1
      funext u
      simp [Nat.add_assoc]

/-- The flat width is the length of the text on one line. -/
theorem flatWidth_eq (d : Doc) : flatWidth d = (oneLine d).map List.length := by
  induction d using Doc.induction with
  | h d ih =>
    cases d
    case concat ds =>
      rw [flatWidth, oneLine, flatWidths_eq fun d hd => ih d (size_lt_concat hd)]
      simp
    case verbatim s =>
      rw [flatWidth, oneLine]
      split <;> rfl
    case nest n d => rw [flatWidth, oneLine, ih d (by simp [Doc.size])]
    case align d => rw [flatWidth, oneLine, ih d (by simp [Doc.size])]
    case group d => rw [flatWidth, oneLine, ih d (by simp [Doc.size])]
    case preferIfFits need extra fit els =>
      rw [flatWidth, oneLine, ih fit (by simp only [Doc.size]; omega)]
    all_goals rw [flatWidth, oneLine]; rfl

/-- The characters of a document's text, and the line breaks that it has to have. -/
def plain (d : Doc) : List (Option Char) := (flatten d).map (Option.map Prod.fst)

theorem map_some_inj {s t : List Char} : s.map some = t.map some ↔ s = t :=
  ⟨fun h => List.map_injective_iff.mpr (Option.some_injective Char) h, fun h => h ▸ rfl⟩

theorem plain_chars (s : List Char) (dropped : Bool) :
    (s.map fun c => some (c, dropped)).map (Option.map Prod.fst) = s.map some := by
  rw [List.map_map]
  rfl

theorem oneLines_iff {ds : List Doc}
    (h : ∀ d ∈ ds, ∀ t, '\n' ∉ t → (oneLine d = some t ↔ plain d = t.map some))
    {t : List Char} (hLine : '\n' ∉ t) :
    oneLines ds = some t ↔ (flattenAll ds).map (Option.map Prod.fst) = t.map some := by
  induction ds generalizing t with
  | nil =>
    rw [oneLines, flattenAll, Option.some_inj]
    exact map_some_inj.symm
  | cons d ds ih =>
    have hRest := fun u => ih (fun e he => h e (List.mem_cons_of_mem d he)) (t := u)
    rw [oneLines, flattenAll, List.map_append, List.append_eq_map_iff]
    constructor
    · intro hEq
      obtain ⟨u, hu, hEq⟩ := Option.bind_eq_some_iff.mp hEq
      obtain ⟨v, hv, rfl⟩ := Option.map_eq_some_iff.mp hEq
      rw [List.mem_append, not_or] at hLine
      exact ⟨u, v, rfl, ((h d List.mem_cons_self u hLine.1).mp hu).symm,
        ((hRest v hLine.2).mp hv).symm⟩
    · rintro ⟨u, v, rfl, hu, hv⟩
      rw [List.mem_append, not_or] at hLine
      rw [(h d List.mem_cons_self u hLine.1).mpr hu.symm, (hRest v hLine.2).mpr hv.symm]
      rfl

/-- A text without a line break is a document's text on one line if its characters are. -/
theorem oneLine_iff {d : Doc} {t : List Char} (hLine : '\n' ∉ t) :
    oneLine d = some t ↔ plain d = t.map some := by
  induction d using Doc.induction generalizing t with
  | h d ih =>
    cases d
    case nil | softLine =>
      rw [oneLine, plain, flatten, Option.some_inj]
      exact map_some_inj.symm
    case text s | flatText s =>
      rw [oneLine, plain, flatten, plain_chars, map_some_inj, Option.some_inj]
    case verbatim s =>
      rw [oneLine, plain, flatten, plain_chars, map_some_inj]
      by_cases hs : '\n' ∈ s
      · rw [if_pos hs]
        exact ⟨(fun h => by cases h), fun h => absurd (h ▸ hs) hLine⟩
      · rw [if_neg hs, Option.some_inj]
    case line =>
      rw [oneLine, plain, flatten, Option.some_inj]
      exact (map_some_inj (s := [' '])).symm
    case hardLine =>
      rw [oneLine, plain, flatten]
      refine ⟨(fun h => by cases h), fun h => ?_⟩
      cases t <;> cases h
    case concat ds =>
      rw [oneLine, plain, flatten]
      exact oneLines_iff (fun d hd u hu => ih d (size_lt_concat hd) hu) hLine
    case nest n d => rw [oneLine, ih d (by simp [Doc.size]) hLine, plain, plain, flatten]
    case align d => rw [oneLine, ih d (by simp [Doc.size]) hLine, plain, plain, flatten]
    case group d => rw [oneLine, ih d (by simp [Doc.size]) hLine, plain, plain, flatten]
    case preferIfFits need extra fit els =>
      rw [oneLine, ih fit (by simp only [Doc.size]; omega) hLine, plain, plain, flatten]

/-- Branches with the same text have the same text of one line. -/
theorem oneLine_congr {d e : Doc} {t : List Char} (hSame : flatten d = flatten e)
    (hd : oneLine d = some t) (hLine : '\n' ∉ t) : oneLine e = some t := by
  rw [oneLine_iff hLine, plain] at hd ⊢
  rw [← hSame, hd]

/-! ## The lookahead over a text of one line -/

variable {room : Int} {pending : List Sight}

/-- Taking columns, where there are as many. -/
theorem take_room (n : Int) (b : Bool) :
    (if room - n < 0 then false else b) = (decide (n ≤ room) && b) := by
  by_cases hFits : n ≤ room
  · rw [if_neg (by omega), decide_eq_true hFits, Bool.true_and]
  · rw [if_pos (by omega), decide_eq_false hFits, Bool.false_and]

theorem scan_oneLines {ds : List Doc}
    (h : ∀ d ∈ ds, ∀ t room pending, oneLine d = some t → 0 ≤ room →
      scan room ((.flat, d) :: pending) =
        (decide (t.length ≤ room) && scan (room - t.length) pending))
    {t : List Char} (hText : oneLines ds = some t) (hRoom : 0 ≤ room) :
    scan room (sightsOf .flat ds ++ pending) =
      (decide (t.length ≤ room) && scan (room - t.length) pending) := by
  induction ds generalizing t room with
  | nil =>
    cases hText
    simp [hRoom, sightsOf]
  | cons d ds ih =>
    rw [oneLines] at hText
    obtain ⟨u, hu, hText⟩ := Option.bind_eq_some_iff.mp hText
    obtain ⟨v, hv, rfl⟩ := Option.map_eq_some_iff.mp hText
    rw [sightsOf, List.map_cons, List.cons_append, h d List.mem_cons_self u _ _ hu hRoom,
      ← sightsOf, List.length_append, Nat.cast_add]
    by_cases hFits : u.length ≤ room
    · have hLess : room - u.length - v.length = room - (u.length + v.length) := by omega
      have hIff : (v.length : Int) ≤ room - u.length ↔ (u.length + v.length : Int) ≤ room := by
        omega
      rw [decide_eq_true hFits, Bool.true_and,
        ih (fun e he => h e (List.mem_cons_of_mem d he)) hv (by omega), hLess,
        decide_eq_decide.mpr hIff]
    · rw [decide_eq_false hFits, decide_eq_false (by omega), Bool.false_and, Bool.false_and]

/-- Over a text of one line the lookahead takes its length. -/
theorem scan_oneLine {d : Doc} {t : List Char} (hText : oneLine d = some t) (hRoom : 0 ≤ room) :
    scan room ((.flat, d) :: pending) =
      (decide (t.length ≤ room) && scan (room - t.length) pending) := by
  induction d using Doc.induction generalizing t room pending with
  | h d ih =>
    cases d
    all_goals
      rw [scan]
      rw [oneLine] at hText
    case nil | softLine =>
      cases hText
      simp [hRoom]
    case text s =>
      cases hText
      exact take_room ..
    case verbatim s =>
      by_cases hs : '\n' ∈ s
      · simp [hs] at hText
      · simp only [hs, if_false, Option.some_inj] at hText ⊢
        subst hText
        exact take_room ..
    case line | flatText =>
      cases hText
      exact take_room ..
    case hardLine => cases hText
    case concat ds =>
      exact scan_oneLines (fun d hd u room pending hu hr => ih d (size_lt_concat hd) hu hr) hText
        hRoom
    case nest n d => exact ih d (by simp [Doc.size]) hText hRoom
    case align d => exact ih d (by simp [Doc.size]) hText hRoom
    case group d => exact ih d (by simp [Doc.size]) hText hRoom
    case preferIfFits need extra fit els =>
      exact ih fit (by simp only [Doc.size]; omega) hText hRoom

/-! ## Room -/

theorem remaining_eq (width : UInt64) (col : Nat) :
    remaining width col = ((width.toNat : Int) - col).bmod (2 ^ 64) := by
  rw [remaining, isize, isize, isize, Int.sub_bmod_bmod, Int.bmod_sub_bmod]

/-- As long as there is room, what is written takes as much of it. -/
theorem remaining_add {width : UInt64} {col n : Nat} (h : 0 ≤ remaining width col - n) :
    remaining width (col + n) = remaining width col - n := by
  have hBound : remaining width col < 2 ^ 63 := by
    rw [remaining_eq]
    exact Int.bmod_lt (by decide)
  have hExact : (remaining width col - n).bmod (2 ^ 64) = remaining width col - n :=
    Int.bmod_eq_of_le (by omega) (by omega)
  rw [← hExact, remaining_eq, remaining_eq, Int.bmod_sub_bmod, Nat.cast_add, Int.sub_sub]

/-- Where there is room, the column is not beyond the width. -/
theorem col_le_width {width : UInt64} {col : Nat} (h : 0 ≤ remaining width col)
    (hCol : col < 2 ^ 63) : col ≤ width.toNat := by
  by_contra hBeyond
  have hExact : ((width.toNat : Int) - col).bmod (2 ^ 64) = width.toNat - col :=
    Int.bmod_eq_of_le (by omega) (by omega)
  rw [remaining_eq, hExact] at h
  omega

/-! ## The line that a group ends on -/

/-- The step that is next starts no line, writes no block of lines, and takes no second branch
which the lookahead has not seen. -/
def Stays (width : UInt64) (s : State) : Prop :=
  match s.stack with
  | [] => True
  | (indent, mode, doc) :: _ =>
    match doc with
    | .verbatim t => '\n' ∉ t
    | .line | .softLine => mode = .flat
    | .hardLine => False
    | .preferIfFits need extra fit _ =>
      hasRoom width indent need extra = true ∨ mode = .flat ∧ ∃ t, oneLine fit = some t ∧ '\n' ∉ t
    | _ => True

/-- What the lookahead has found holds of a state. -/
structure Ahead (width : UInt64) (s : State) : Prop where
  room : 0 ≤ remaining width s.col
  seen : scan (remaining width s.col) (sights s.stack) = true
  agrees : AllAgree (docs s.stack)

variable {width : UInt64} {out : List Char} {col : Nat} {f : Frame} {frames rest : List Frame}
  {x : Item} {s s' : State}

/-- Columns that the lookahead has taken are there to be written on. -/
theorem Ahead.take {n : Nat} (h : Ahead width ⟨out, col, f :: rest⟩)
    (hScan : scan (remaining width col) (sights (f :: rest)) =
      (decide ((n : Int) ≤ remaining width col) && scan (remaining width col - n) (sights rest)))
    (out' : List Char) : Ahead width ⟨out', col + n, rest⟩ := by
  have hSeen := h.seen
  rw [hScan, Bool.and_eq_true, decide_eq_true_iff] at hSeen
  have hLess : remaining width (col + n) = remaining width col - n := remaining_add (by omega)
  have hAgrees := h.agrees
  rw [docs_cons, AllAgree] at hAgrees
  exact ⟨by rw [hLess]; omega, by rw [hLess]; exact hSeen.2, hAgrees.2⟩

theorem Ahead.write (h : Ahead width ⟨out, col, f :: rest⟩)
    (hStays : Stays width ⟨out, col, f :: rest⟩) (hx : Writes f x) :
    Ahead width ⟨x.write out, x.colAfter col, rest⟩ := by
  cases hx
  case text => exact h.take (by rw [sights_cons, scan, take_room]) _
  case verbatim t =>
    have hLine : '\n' ∉ t := hStays
    rw [Item.colAfter, colAfter, if_neg hLine]
    exact h.take (by rw [sights_cons, scan, if_neg hLine, take_room]) _
  case space => exact h.take (n := 1) (by rw [sights_cons, scan, if_pos rfl]; exact take_room ..) _
  case flat => exact h.take (by rw [sights_cons, scan, if_pos rfl, take_room]) _
  case line => cases hStays
  case softLine => cases hStays
  case hardLine => exact hStays.elim

/-- A group that is next is laid out flat. -/
theorem Ahead.modeOf {indent : Nat} {mode : Mode} {d : Doc}
    (h : Ahead width ⟨out, col, (indent, mode, .group d) :: rest⟩) :
    modeOf width col d rest = .flat := by
  have hRoom : ¬remaining width col < 0 := Int.not_lt.mpr h.room
  have hSeen := h.seen
  rw [sights_cons, scan] at hSeen
  rw [Fmt.modeOf, fits, if_neg hRoom, if_pos hSeen]

theorem Ahead.unfold (h : Ahead width ⟨out, col, f :: rest⟩)
    (hStays : Stays width ⟨out, col, f :: rest⟩) (hFrames : Unfolds width col rest f frames) :
    Ahead width ⟨out, col, frames ++ rest⟩ := by
  refine ⟨h.room, ?_, hFrames.agrees h.agrees⟩
  have hSeen := h.seen
  rw [sights_cons] at hSeen
  cases hFrames
  all_goals dsimp only at hSeen ⊢
  case concat =>
    rw [scan] at hSeen
    rw [sights_append, sights_framesOf]
    exact hSeen
  case flatText =>
    rw [scan, if_neg (by decide)] at hSeen
    exact hSeen
  case softLine =>
    rw [scan, if_neg (by decide)] at hSeen
    exact hSeen
  case els indent mode need extra fit els hRoom =>
    rcases hStays with hFit | ⟨rfl, t, hText, hLine⟩
    · rw [hRoom] at hFit
      cases hFit
    · have hAgrees := h.agrees
      rw [docs_cons, AllAgree, Doc.Agrees] at hAgrees
      have hOther := oneLine_congr hAgrees.1.1 hText hLine
      rw [scan, scan_oneLine hText h.room] at hSeen
      rw [List.singleton_append, sights_cons, scan_oneLine hOther h.room]
      exact hSeen
  case group indent mode d =>
    rw [scan] at hSeen
    rw [List.singleton_append, sights_cons, h.modeOf]
    exact hSeen
  all_goals
    rw [scan] at hSeen
    exact hSeen

/-- The lookahead holds as long as the line does. -/
theorem Ahead.step (h : Ahead width s) (hStays : Stays width s)
    (hStep : step width s = some s') : Ahead width s' := by
  obtain ⟨out, col, stack⟩ := s
  obtain ⟨f, rest, hStack, ⟨x, hx, rfl⟩ | ⟨frames, hFrames, rfl⟩⟩ := step_cases hStep
  · cases hStack
    exact h.write hStays hx
  · cases hStack
    exact h.unfold hStays hFrames

/-- The states that the renderer comes to on the same line. -/
abbrev OnLine (width : UInt64) : State → State → Prop :=
  Run (fun s (_ : Unit) => Fmt.step width s) fun s _ => Stays width s

theorem Ahead.run (h : Ahead width s) (hRun : OnLine width s s') : Ahead width s' :=
  hRun.invariant h fun _ _ _ hAhead hStays hStep => hAhead.step hStays hStep

theorem OnLine.write (hx : Writes f x) (hStays : Stays width ⟨out, col, f :: rest⟩) :
    OnLine width ⟨out, col, f :: rest⟩ ⟨x.write out, x.colAfter col, rest⟩ :=
  .tail (a := ()) .refl hStays hx.step

theorem OnLine.unfold (hFrames : Unfolds width col rest f frames)
    (hStays : Stays width ⟨out, col, f :: rest⟩)
    (hRun : OnLine width ⟨out, col, frames ++ rest⟩ s') :
    OnLine width ⟨out, col, f :: rest⟩ s' :=
  Run.trans (.tail (a := ()) .refl hStays hFrames.step) hRun

/-- A document that the lookahead has found to fit is written on the line, if it can stand on
one. -/
def Flat (width : UInt64) (d : Doc) : Prop :=
  ∀ t indent out col rest, oneLine d = some t → '\n' ∉ t →
    Ahead width ⟨out, col, (indent, .flat, d) :: rest⟩ →
    OnLine width ⟨out, col, (indent, .flat, d) :: rest⟩ ⟨out ++ t, col + t.length, rest⟩

theorem flat_runs {ds : List Doc} (h : ∀ d ∈ ds, Flat width d) {t : List Char} {indent : Nat}
    (hText : oneLines ds = some t) (hLine : '\n' ∉ t)
    (hAhead : Ahead width ⟨out, col, framesOf indent .flat ds ++ rest⟩) :
    OnLine width ⟨out, col, framesOf indent .flat ds ++ rest⟩
      ⟨out ++ t, col + t.length, rest⟩ := by
  induction ds generalizing t out col with
  | nil =>
    cases hText
    rw [List.append_nil]
    exact .refl
  | cons d ds ih =>
    rw [oneLines] at hText
    obtain ⟨u, hu, hText⟩ := Option.bind_eq_some_iff.mp hText
    obtain ⟨v, hv, rfl⟩ := Option.map_eq_some_iff.mp hText
    rw [List.mem_append, not_or] at hLine
    have hFirst : OnLine width ⟨out, col, framesOf indent .flat (d :: ds) ++ rest⟩
        ⟨out ++ u, col + u.length, framesOf indent .flat ds ++ rest⟩ :=
      h d List.mem_cons_self u indent out col _ hu hLine.1 hAhead
    have hRest := ih (fun e he => h e (List.mem_cons_of_mem d he)) hv hLine.2
      (hAhead.run hFirst)
    rw [← List.append_assoc, List.length_append, ← Nat.add_assoc]
    exact hFirst.trans hRest

/-- **A group that fits is written flat.** -/
theorem flat_run (d : Doc) : Flat width d := by
  -- on the document; `hAhead` is what the lookahead has seen of it
  induction d using Doc.induction with
  | h d ih =>
    intro t indent out col rest hText hLine hAhead
    cases d
    all_goals rw [oneLine] at hText
    case text s =>
      cases hText
      exact .write .text trivial
    case flatText s =>
      cases hText
      exact .write .flat trivial
    -- a text with a line break has no text of one line
    case verbatim s =>
      by_cases hs : '\n' ∈ s
      · rw [if_pos hs] at hText
        cases hText
      · rw [if_neg hs] at hText
        cases hText
        have hRun : OnLine width ⟨out, col, (indent, .flat, .verbatim t) :: rest⟩
            ⟨out ++ t, colAfter col t, rest⟩ := .write .verbatim hs
        rwa [colAfter, if_neg hs] at hRun
    case line =>
      cases hText
      exact .write .space rfl
    case nil =>
      cases hText
      rw [List.append_nil]
      exact .unfold .nil trivial .refl
    case softLine =>
      cases hText
      rw [List.append_nil]
      exact .unfold .softLine rfl .refl
    case hardLine => cases hText
    case concat ds =>
      exact .unfold .concat trivial (flat_runs (fun d hd => ih d (size_lt_concat hd)) hText hLine
        (hAhead.unfold trivial .concat))
    case nest n d =>
      exact .unfold .nest trivial (ih d (by simp [Doc.size]) t _ out col rest hText hLine
        (hAhead.unfold trivial .nest))
    case align d =>
      exact .unfold .align trivial (ih d (by simp [Doc.size]) t _ out col rest hText hLine
        (hAhead.unfold trivial .align))
    case group d =>
      -- the renderer takes the group as flat as the lookahead did
      have hFrames : Unfolds width col rest (indent, .flat, .group d) [(indent, .flat, d)] := by
        have hGroup : Unfolds width col rest (indent, .flat, .group d)
            [(indent, modeOf width col d rest, d)] := .group
        rwa [hAhead.modeOf] at hGroup
      exact .unfold hFrames trivial (ih d (by simp [Doc.size]) t _ out col rest hText hLine
        (hAhead.unfold trivial hFrames))
    case preferIfFits need extra fit els =>
      cases hRoom : hasRoom width indent need extra with
      | true =>
        exact .unfold (.fit hRoom) (.inl hRoom)
          (ih fit (by simp only [Doc.size]; omega) t _ out col rest hText hLine
            (hAhead.unfold (.inl hRoom) (.fit hRoom)))
      | false =>
        -- the branch taken is not the one the lookahead saw, but has the same text
        have hAgrees := hAhead.agrees
        rw [docs_cons, AllAgree, Doc.Agrees] at hAgrees
        have hOther := oneLine_congr hAgrees.1.1 hText hLine
        have hSeen : Stays width
            ⟨out, col, (indent, .flat, .preferIfFits need extra fit els) :: rest⟩ :=
          .inr ⟨rfl, t, hText, hLine⟩
        exact .unfold (.els hRoom) hSeen
          (ih els (by simp only [Doc.size]; omega) t _ out col rest hOther hLine
            (hAhead.unfold hSeen (.els hRoom)))

/-! ## Columns -/

/-- The characters after the last line break. -/
def column (out : List Char) : Nat := (out.rtakeWhile (· ≠ '\n')).length

theorem column_append (out t : List Char) : column (out ++ t) = colAfter (column out) t := by
  rw [column, List.rtakeWhile, List.reverse_append, List.takeWhile_append, colAfter]
  by_cases hLine : '\n' ∈ t
  · have hShort : (t.reverse.takeWhile (· ≠ '\n')).length ≠ t.reverse.length := by
      intro hLength
      have hAll := (List.takeWhile_prefix (l := t.reverse) (· ≠ '\n')).eq_of_length hLength
      rw [List.takeWhile_eq_self_iff] at hAll
      simpa using hAll '\n' (List.mem_reverse.mpr hLine)
    rw [if_neg hShort, if_pos hLine, List.rtakeWhile]
  · have hAll : t.reverse.takeWhile (· ≠ '\n') = t.reverse := by
      rw [List.takeWhile_eq_self_iff]
      intro c hc
      exact decide_eq_true fun hc' => hLine (hc' ▸ List.mem_reverse.mp hc)
    rw [hAll, if_pos rfl, if_neg hLine, column, List.rtakeWhile]
    simp [Nat.add_comm]

theorem colAfter_le (col : Nat) (t : List Char) : colAfter col t ≤ col + t.length := by
  rw [colAfter]
  split
  · exact (List.rtakeWhile_suffix (p := (· ≠ '\n')) (l := t)).length_le.trans
      (Nat.le_add_left ..)
  · exact le_rfl

theorem colAfter_mono {col col' : Nat} (h : col ≤ col') (t : List Char) :
    colAfter col t ≤ colAfter col' t := by
  rw [colAfter, colAfter]
  split
  · exact le_rfl
  · exact Nat.add_le_add_right h _

theorem column_newline (out : List Char) (indent : Nat) :
    column (newline out indent) = indent := by
  have hSpaces : '\n' ∉ List.replicate indent ' ' :=
    fun h => absurd (List.eq_of_mem_replicate h) (by decide)
  rw [newline, ← List.singleton_append, ← List.append_assoc, column_append, column_append, colAfter,
    if_neg hSpaces, List.length_replicate]
  exact Nat.zero_add indent

/-- The renderer's column is one that the output has room for, and not before the output's. -/
structure Tracks (s : State) : Prop where
  column : column s.out ≤ s.col
  length : s.col ≤ s.out.length

theorem Tracks.append {t : List Char} (h : Tracks ⟨out, col, f :: rest⟩) :
    Tracks ⟨out ++ t, col + t.length, rest⟩ := by
  refine ⟨?_, ?_⟩
  · rw [column_append]
    exact (colAfter_le _ t).trans (Nat.add_le_add_right h.column _)
  · rw [List.length_append]
    exact Nat.add_le_add_right h.length _

theorem Tracks.newline (out : List Char) (indent : Nat) (rest : List Frame) :
    Tracks ⟨newline out indent, indent, rest⟩ := by
  refine ⟨(column_newline out indent).le, ?_⟩
  rw [Fmt.newline, List.length_append, List.length_cons, List.length_replicate]
  show indent ≤ _
  omega

theorem Tracks.step (h : Tracks s) (hStep : Fmt.step width s = some s') : Tracks s' := by
  obtain ⟨out, col, stack⟩ := s
  obtain ⟨f, rest, hStack, ⟨x, hx, rfl⟩ | ⟨frames, hFrames, rfl⟩⟩ := step_cases hStep
  · cases hStack
    cases x with
    | text t | flat t => exact h.append
    | space => exact h.append (t := [' '])
    | newline indent => exact .newline out indent rest
    | verbatim t =>
      refine ⟨?_, ?_⟩
      · rw [Item.write, column_append]
        exact colAfter_mono h.column t
      · rw [Item.write, List.length_append]
        exact (colAfter_le col t).trans (Nat.add_le_add_right h.length _)
  · exact ⟨h.column, h.length⟩

/-! ## Documents as they are rendered -/

variable {doc : Doc}

/-- The renderer's steps, from state to state. -/
abbrev Reaches (width : UInt64) : State → State → Prop :=
  Reach fun s (_ : Unit) => step width s

theorem agrees_reach (hAgrees : doc.Agrees) (hReach : Reaches width (start doc) s) :
    AllAgree (docs s.stack) := by
  refine hReach.invariant (P := fun s => AllAgree (docs s.stack)) ?_ ?_
  · exact ⟨hAgrees, trivial⟩
  · rintro ⟨out, col, stack⟩ _ s' hAll - hStep
    obtain ⟨f, rest, hStack, ⟨x, hx, rfl⟩ | ⟨frames, hFrames, rfl⟩⟩ := step_cases hStep
    · cases hStack
      rw [docs_cons, AllAgree] at hAll
      exact hAll.2
    · cases hStack
      exact hFrames.agrees hAll

theorem tracks_reach (hReach : Reaches width (start doc) s) : Tracks s :=
  hReach.invariant (P := Tracks) ⟨le_rfl, le_rfl⟩ fun _ _ _ h _ hStep => h.step hStep

/-- What is written from a state on is written from the states after it. -/
theorem run_reach (hReach : Reaches width s s') : run width s = run width s' :=
  hReach.invariant (P := fun s' => run width s = run width s') rfl
    fun _ _ _ hSame _ hStep => hSame.trans (run_step hStep)

/-- What a group that fits is written as, and the line that it ends on: as long as the line does
not end, it is not longer than the width. An output has less than `2 ^ 63` bytes. -/
def GroupsFit (width : UInt64) (doc : Doc) : Prop :=
  ∀ out col indent mode d rest t,
    Reaches width (start doc) ⟨out, col, (indent, mode, .group d) :: rest⟩ →
    fits (remaining width col) d rest = true → oneLine d = some t → '\n' ∉ t →
    ∃ s, OnLine width ⟨out, col, (indent, mode, .group d) :: rest⟩ s ∧ s.stack = rest ∧
      s.out = out ++ t ∧
      ∀ s', OnLine width s s' → s'.out.length < 2 ^ 63 → column s'.out ≤ width.toNat

theorem groupsFit (hAgrees : doc.Agrees) (width : UInt64) : GroupsFit width doc := by
  intro out col indent mode d rest t hReach hFits hText hLine
  have hAll := agrees_reach hAgrees hReach
  have hFrames : Unfolds width col rest (indent, mode, .group d) [(indent, .flat, d)] := by
    have hGroup : Unfolds width col rest (indent, mode, .group d)
        [(indent, modeOf width col d rest, d)] := .group
    rwa [modeOf, if_pos hFits] at hGroup
  have hAhead : Ahead width ⟨out, col, (indent, .flat, d) :: rest⟩ := by
    rw [fits] at hFits
    split at hFits
    · cases hFits
    · next hRoom => exact ⟨Int.not_lt.mp hRoom, hFits, hFrames.agrees hAll⟩
  have hRun := flat_run d t indent out col rest hText hLine hAhead
  refine ⟨_, .unfold hFrames trivial hRun, rfl, rfl, fun s' hStays hLength => ?_⟩
  have hAfter : Reaches width (start doc) s' :=
    (hReach.trans (OnLine.unfold hFrames trivial hRun).reach).trans hStays.reach
  have hTracks := tracks_reach hAfter
  have hRoom := ((hAhead.run hRun).run hStays).room
  exact hTracks.column.trans (col_le_width hRoom (hTracks.length.trans_lt hLength))

/-- A document with a text of one line is rendered as it where that fits. -/
theorem render_flat (hAgrees : doc.Agrees) {t : List Char} (hText : oneLine doc = some t)
    (hLine : '\n' ∉ t) (hWidth : width.toNat < 2 ^ 63) (hFits : t.length ≤ width.toNat) :
    render (.group doc) width = t := by
  have hRemaining : remaining width 0 = width.toNat := by
    rw [remaining_eq, Nat.cast_zero, Int.sub_zero]
    exact Int.bmod_eq_of_le (by omega) (by omega)
  have hSeen : fits (remaining width 0) doc [] = true := by
    rw [hRemaining, fits, if_neg (by omega), scan_oneLine hText (by omega),
      decide_eq_true (by omega), Bool.true_and, sights, List.map_nil, scan]
  have hGroup : (Doc.group doc).Agrees := hAgrees
  obtain ⟨s, hRun, hStack, hOut, -⟩ :=
    groupsFit hGroup width [] 0 0 .break doc [] t .refl hSeen hText hLine
  rw [render, start, run_reach hRun.reach, run_done (by rw [step, hStack]), hOut,
    List.nil_append]

/-- **What a rendering keeps.** Where the branches of each choice have the same text, the width
changes the gaps and the `FlatText`s alone. The pieces are there, but for spaces at the ends of
lines. The flat width is the length of the text on one line, and a group that fits on its line is
written so. -/
theorem render_keeps (doc : Doc) (hAgrees : doc.Agrees) :
    (∀ width width', essence (cells width doc) = essence (cells width' doc)) ∧
    (∀ width, (cells width doc).map Prod.fst = render doc width ∧ Shows doc (pieces width doc) ∧
      ∀ piece ∈ pieces width doc, Appears piece (render doc width)) ∧
    flatWidth doc = (oneLine doc).map List.length ∧
    (∀ (width : UInt64) t, oneLine doc = some t → '\n' ∉ t → width.toNat < 2 ^ 63 →
      t.length ≤ width.toNat → render (.group doc) width = t) ∧
    ∀ width, GroupsFit width doc := by
  have hEssence : ∀ width, essence (cells width doc) = essenceOf [doc] := by
    intro width
    have hAll : AllAgree (docs (start doc).stack) := ⟨hAgrees, trivial⟩
    exact essence_laid (start doc) hAll []
  refine ⟨fun width width' => (hEssence width).trans (hEssence width').symm, fun width => ?_,
    flatWidth_eq doc, fun width t => render_flat hAgrees, groupsFit hAgrees⟩
  exact ⟨(render_cells width doc).symm, shows_pieces width doc, appears_pieces width doc⟩

/-- A choice between two branches with the same text: in two columns and in eighty it has the same
pieces, but for the gaps. -/
theorem render_keeps_choice :
    let doc := Doc.concat [.verbatim ['a', ' '], .preferIfFits (some 9) 0
      (.concat [.line, .text ['b'], .flatText [';']]) (.group (.concat [.text [' ', 'b'],
        .softLine, .flatText [';']]))]
    doc.Agrees ∧ essence (cells 2 doc) = essence (cells 80 doc) ∧ flatWidth doc = some 5 := by
  have hAgrees : (Doc.concat [.verbatim ['a', ' '], .preferIfFits (some 9) 0
      (.concat [.line, .text ['b'], .flatText [';']]) (.group (.concat [.text [' ', 'b'],
        .softLine, .flatText [';']]))]).Agrees := by
    simp [Doc.Agrees, AllAgree, flatten, flattenAll]
  have hKeeps := render_keeps _ hAgrees
  exact ⟨hAgrees, hKeeps.1 2 80, hKeeps.2.2.1.trans rfl⟩

/-- A space before a line break is lost. A branch that is not taken need not have its pieces in the
text. A line can go on beyond the width after a group that fits, with the start of a block of lines
or with a second branch. -/
theorem render_trims :
    render (.concat [.verbatim ['a', ' '], .hardLine]) 80 = ['a', '\n'] ∧
    render (.preferIfFits none 0 (.text ['a', 'b']) (.concat [.text ['a'], .softLine, .text ['b']]))
      80 = ['a', '\n', 'b'] ∧
    (modeOf 1 0 (.text ['a']) [(0, .break, .verbatim ['b', 'b', '\n'])] = .flat ∧
      render (.concat [.group (.text ['a']), .verbatim ['b', 'b', '\n']]) 1 =
        ['a', 'b', 'b', '\n']) ∧
    (modeOf 1 0 (.text ['a']) [(0, .break, .preferIfFits none 0 (.concat [.line, .text ['b']])
        (.text [' ', 'b']))] = .flat ∧
      render (.concat [.group (.text ['a']), .preferIfFits none 0 (.concat [.line, .text ['b']])
        (.text [' ', 'b'])]) 1 = ['a', ' ', 'b']) := by
  have hBlock : modeOf 1 0 (.text ['a']) [(0, .break, .verbatim ['b', 'b', '\n'])] = .flat := by
    simp [modeOf, fits, scan, remaining_eq]
  have hBranch : modeOf 1 0 (.text ['a']) [(0, .break, .preferIfFits none 0
      (.concat [.line, .text ['b']]) (.text [' ', 'b']))] = .flat := by
    simp [modeOf, fits, scan, sightsOf, remaining_eq]
  refine ⟨?_, ?_, ⟨hBlock, ?_⟩, hBranch, ?_⟩
  · rw [render, run_step rfl, run_step rfl, run_step rfl, run_done rfl]
    decide
  · rw [render, start, run_step (Unfolds.els rfl).step, run_step rfl, run_step rfl, run_step rfl,
      run_step rfl, run_done rfl]
    decide
  · show run 1 ⟨[], 0, [(0, .break, .concat _)]⟩ = _
    rw [run_step Unfolds.concat.step]
    show run 1 ⟨[], 0, [(0, .break, .group (.text ['a'])), _]⟩ = _
    rw [run_step Unfolds.group.step, hBlock, List.singleton_append, run_step Writes.text.step,
      run_step Writes.verbatim.step, run_done rfl]
    rfl
  · show run 1 ⟨[], 0, [(0, .break, .concat _)]⟩ = _
    rw [run_step Unfolds.concat.step]
    show run 1 ⟨[], 0, [(0, .break, .group (.text ['a'])), _]⟩ = _
    rw [run_step Unfolds.group.step, hBranch, List.singleton_append, run_step Writes.text.step,
      run_step (Unfolds.els rfl).step, List.singleton_append, run_step Writes.text.step,
      run_done rfl]
    rfl

end Quoin.Fmt
