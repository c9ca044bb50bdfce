import Mathlib
import Quoin.Streams.Account

/-!
# Quoin — buffered reading loses nothing

The steady operations answer as on the bytes at hand (`perform_plain`): a
delimiter that is found in the read-ahead is the first one there is, and at the
end of the conduit the read-ahead is all that is left. The streams that a
program makes of one another have one read-ahead between them (`OneOpen`), so
what holds of an operation holds of every run of them (`reads_account`).

## Results

* `perform_plain` — a buffered operation answers as it would on the bytes at hand;
* `reads_account` — over any run of operations, what was answered and what is left are what the
  conduit held, however it is cut into chunks;
* `reads_refused` — a line that is not UTF-8 is consumed and not answered.
-/

namespace Quoin.Streams

/-! ## Answers from the bytes at hand -/

/-- The bytes left: the read-ahead, and what the conduit still has. -/
def Source.rest (s : Source) : Bytes := s.rbuf ++ bytesOf s.reads

/-- No read fails. -/
def Unfailing (reads : List Read) : Prop :=
  ∀ kind message, Read.failed kind message ∉ reads

def plainOf (o : Outcome) : Except ReadError Value × Bytes := (o.1, o.2.rest)

section Plain

open Source

variable {s s' : Source} {n : Nat} {answer : Bytes → Except ReadError Value}

theorem Took.rest_eq (h : Took [] s s') : s.rest = s'.rest := h.rest

theorem rbuf_prefix_rest (s : Source) : s.rbuf <+: s.rest := List.prefix_append _ _

theorem rest_of_eof (h : s.reads = []) : s.rest = s.rbuf := by
  rw [rest, h]
  exact List.append_nil _

theorem plainOf_whenOpen (s : Source) (k : Source → Outcome) :
    plainOf (s.whenOpen k) = Plain.whenOpen s.closed s.rest (plainOf (k s)) := by
  unfold whenOpen Plain.whenOpen
  split_ifs <;> rfl

theorem take_rest (h : n ≤ s.rbuf.length) : s.rest.take n = s.rbuf.take n :=
  List.take_append_of_le_length h

theorem plainOf_drainUpTo (h : n ≤ s.rbuf.length) :
    plainOf (s.drainUpTo n answer) = (answer (s.rest.take n), s.rest.drop n) := by
  rw [take_rest h, rest, List.drop_append_of_le_length h]
  rfl

theorem plainOf_drainAll (h : s.reads = []) : plainOf (s.drainAll answer) = (answer s.rest, []) := by
  rw [drainAll, plainOf_drainUpTo le_rfl, rest_of_eof h, List.take_length, List.drop_length]

theorem holds_eq_some {u : Unit} : ByteStream.holds n s.rbuf = some u ↔ n ≤ s.rbuf.length := by
  unfold ByteStream.holds
  split_ifs with hLt
  · constructor
    · intro h
      cases h
    · omega
  · exact ⟨fun _ => by omega, fun _ => rfl⟩

/-- The steady operations answer as if the bytes were at hand, and leave what is left then. -/
theorem perform_plain (kind : Kind) {op : Op} (hSteady : op.Steady) (hReads : Unfailing s.reads) :
    plainOf (perform kind op s) = Plain.perform kind op s.closed s.rest := by
  cases kind with
  | byteStream =>
    cases op with
    -- the first three depend on what a fill brings, and are not steady
    | read => exact hSteady.elim
    | readN n => exact hSteady.elim
    | readUntilLimit delim limit => exact hSteady.elim
    | peek n =>
      refine (plainOf_whenOpen s _).trans (congrArg (Plain.whenOpen s.closed s.rest) ?_)
      refine fillUntil_elim _ s ?_ ?_ ?_
      · intro _ s' hTook hHolds
        rw [hTook.rest_eq, take_rest (holds_eq_some.mp hHolds)]
        rfl
      · intro s' hTook hEof _
        rw [hTook.rest_eq, rest_of_eof hEof]
        exact congrArg _ (rest_of_eof hEof)
      · exact fun kind message _ _ hMem => absurd hMem (hReads kind message)
    | readUntil delim =>
      show plainOf (ByteStream.readUntil delim s) = Plain.readUntil delim s.closed s.rest
      unfold ByteStream.readUntil Plain.readUntil
      split_ifs with hEmpty
      · rfl
      refine (plainOf_whenOpen s _).trans (congrArg (Plain.whenOpen s.closed s.rest) ?_)
      refine fillUntil_elim _ s ?_ ?_ ?_
      · -- the first in the read-ahead is the first of all
        intro stop s' hTook hFound
        rw [hTook.rest_eq, findSubsequence_mono hFound (rbuf_prefix_rest s')]
        exact plainOf_drainUpTo (findSubsequence_le hFound)
      · intro s' hTook hEof hNone
        rw [← rest_of_eof hEof] at hNone
        rw [hTook.rest_eq, hNone]
        exact plainOf_drainAll hEof
      · exact fun kind message _ _ hMem => absurd hMem (hReads kind message)
    | readExactly n =>
      refine (plainOf_whenOpen s _).trans (congrArg (Plain.whenOpen s.closed s.rest) ?_)
      refine fillUntil_elim _ s ?_ ?_ ?_
      · intro _ s' hTook hHolds
        have hLe := holds_eq_some.mp hHolds
        have hRest := (rbuf_prefix_rest s').length_le
        rw [hTook.rest_eq, if_neg (by omega)]
        exact plainOf_drainUpTo hLe
      · intro s' hTook hEof hShort
        have hLt : s'.rest.length < n.toNat := by
          rw [rest_of_eof hEof]
          by_contra hLe
          rw [holds_eq_some (u := ()) |>.mpr (by omega)] at hShort
          cases hShort
        rw [hTook.rest_eq, if_pos hLt]
        rfl
      · exact fun kind message _ _ hMem => absurd hMem (hReads kind message)
    | readAll =>
      refine (plainOf_whenOpen s _).trans (congrArg (Plain.whenOpen s.closed s.rest) ?_)
      refine fillUntil_elim _ s ?_ ?_ ?_
      · exact fun _ _ _ hSome => by cases hSome
      · intro s' hTook hEof _
        rw [hTook.rest_eq]
        exact plainOf_drainAll hEof
      · exact fun kind message _ _ hMem => absurd hMem (hReads kind message)
    | readLine => rfl
    | stringStream => rfl
    | stringStreamOver => rfl
  | stringStream =>
    cases op with
    | read => exact hSteady.elim
    | readN n => exact hSteady.elim
    | readUntilLimit delim limit => exact hSteady.elim
    | readAll =>
      refine (plainOf_whenOpen s _).trans (congrArg (Plain.whenOpen s.closed s.rest) ?_)
      refine fillUntil_elim _ s ?_ ?_ ?_
      · exact fun _ _ _ hSome => by cases hSome
      · intro s' hTook hEof _
        rw [hTook.rest_eq]
        exact plainOf_drainAll hEof
      · exact fun kind message _ _ hMem => absurd hMem (hReads kind message)
    | readLine =>
      refine (plainOf_whenOpen s _).trans (congrArg (Plain.whenOpen s.closed s.rest) ?_)
      refine fillUntil_elim _ s ?_ ?_ ?_
      · intro stop s' hTook hFound
        rw [hTook.rest_eq, findSubsequence_mono hFound (rbuf_prefix_rest s')]
        exact plainOf_drainUpTo (findSubsequence_le hFound)
      · intro s' hTook hEof hNone
        rw [← rest_of_eof hEof] at hNone
        rw [hTook.rest_eq, hNone]
        exact plainOf_drainAll hEof
      · exact fun kind message _ _ hMem => absurd hMem (hReads kind message)
    | peek n => rfl
    | readUntil delim => rfl
    | readExactly n => rfl
    | stringStream => rfl
    | stringStreamOver => rfl

/-- `readUntil:limit:` gives up only where no delimiter ends within the limit. -/
theorem readUntilLimit_limit {delim : Bytes} {limit : Int} (hReads : Unfailing s.reads)
    (h : (ByteStream.readUntilLimit delim limit s).1 =
      .error (ByteStream.limitError limit.toNat)) :
    ∀ stop ≤ limit.toNat, ¬ EndsAt delim s.rest stop := by
  unfold ByteStream.readUntilLimit whenOpen at h
  split_ifs at h with hEmpty hClosed
  · cases h
  · injection h with h
    injection h with h
    cases h
  revert h
  dsimp only
  refine fillUntil_elim (ByteStream.findWithin delim limit.toNat) s ?_ ?_ ?_
  · intro found s' hTook hFound h
    cases found with
    | some stop => cases h
    | none =>
      unfold ByteStream.findWithin at hFound
      cases hNone : findSubsequence delim s'.rbuf with
      | some stop =>
        rw [hNone] at hFound
        cases hFound
      | none =>
        rw [hNone] at hFound
        dsimp only at hFound
        split_ifs at hFound with hLong
        intro stop hStop hEnds
        -- an occurrence that early is one in the read-ahead
        rw [hTook.rest_eq] at hEnds
        have hWithin := hEnds.within (rbuf_prefix_rest s') (by omega)
        exact findSubsequence_eq_none.mp hNone stop hWithin
  · intro s' _ _ _ h
    cases h
  · exact fun kind message _ _ hMem => absurd hMem (hReads kind message)

/-- A closed stream refuses, and nothing is read. -/
theorem perform_closed (kind : Kind) (op : Op) (h : s.closed = true) :
    (perform kind op s).2 = s := by
  have hOpen : ∀ k, s.whenOpen k = (.error closedError, s) := fun k => if_pos h
  cases kind with
  | byteStream =>
    cases op with
    | read => exact congrArg Prod.snd (hOpen _)
    | readN n => exact congrArg Prod.snd (hOpen _)
    | peek n => exact congrArg Prod.snd (hOpen _)
    | readUntil delim =>
      show (ByteStream.readUntil delim s).2 = s
      unfold ByteStream.readUntil
      split_ifs
      · rfl
      · exact congrArg Prod.snd (hOpen _)
    | readUntilLimit delim limit =>
      show (ByteStream.readUntilLimit delim limit s).2 = s
      unfold ByteStream.readUntilLimit
      split_ifs
      · rfl
      · exact congrArg Prod.snd (hOpen _)
    | readExactly n => exact congrArg Prod.snd (hOpen _)
    | readAll => exact congrArg Prod.snd (hOpen _)
    | readLine => rfl
    | stringStream => rfl
    | stringStreamOver => rfl
  | stringStream =>
    cases op with
    | read => exact congrArg Prod.snd (hOpen _)
    | readAll => exact congrArg Prod.snd (hOpen _)
    | readLine => exact congrArg Prod.snd (hOpen _)
    | readN n => rfl
    | peek n => rfl
    | readUntil delim => rfl
    | readUntilLimit delim limit => rfl
    | readExactly n => rfl
    | stringStream => rfl
    | stringStreamOver => rfl

end Plain

/-! ## The streams of a program -/

/-- The last stream that was made is open. Those before it were consumed, and have no read-ahead. -/
def OneOpen (w : World) : Prop :=
  ∃ dead last, w.handles = dead ++ [last] ∧ last.closed = false ∧
    ∀ handle ∈ dead, handle.closed = true ∧ handle.rbuf = []

/-- The program's streams as one source. -/
def World.source (w : World) : Source := ⟨false, w.buffer, w.reads⟩

section Streams

variable {w w' : World} {h : Nat} {handle : Handle} {op : Op}
  {answer : Except ReadError Value}

theorem oneOpen_start (kind : Kind) (reads : List Read) : OneOpen (World.start kind reads) :=
  ⟨[], ⟨kind, false, []⟩, rfl, rfl, fun _ h => absurd h List.not_mem_nil⟩

theorem flatMap_dead {dead : List Handle}
    (hDead : ∀ handle ∈ dead, handle.closed = true ∧ handle.rbuf = []) :
    dead.flatMap Handle.rbuf = [] :=
  List.flatMap_eq_nil_iff.mpr fun handle hMem => (hDead handle hMem).2

/-- The read-ahead is that of the open stream. -/
theorem buffer_eq {dead : List Handle} {last : Handle} (hHandles : w.handles = dead ++ [last])
    (hDead : ∀ handle ∈ dead, handle.closed = true ∧ handle.rbuf = []) :
    w.buffer = last.rbuf := by
  rw [World.buffer, hHandles, List.flatMap_append, flatMap_dead hDead]
  exact List.append_nil _

/-- A stream of the program: consumed, or the one that is open. -/
theorem OneOpen.cases (hOne : OneOpen w) (hHandle : w.handles[h]? = some handle) :
    handle.closed = true ∧ handle.rbuf = [] ∨
      handle.closed = false ∧ w.buffer = handle.rbuf ∧
        ∀ new : Handle, ∃ dead, w.handles.set h new = dead ++ [new] ∧
          (∀ handle ∈ dead, handle.closed = true ∧ handle.rbuf = []) := by
  obtain ⟨dead, last, hHandles, hLast, hDead⟩ := hOne
  have hLt : h < w.handles.length := (List.getElem?_eq_some_iff.mp hHandle).1
  rw [hHandles, List.length_append, List.length_singleton] at hLt
  rw [hHandles] at hHandle
  by_cases hOld : h < dead.length
  · rw [List.getElem?_append_left hOld] at hHandle
    exact .inl (hDead handle (List.mem_of_getElem? hHandle))
  · have hEq : h = dead.length := by omega
    subst hEq
    rw [List.getElem?_concat_length] at hHandle
    obtain rfl := Option.some.inj hHandle
    refine .inr ⟨hLast, buffer_eq hHandles hDead, fun new => ⟨dead, ?_, hDead⟩⟩
    rw [hHandles, List.set_append_right _ _ le_rfl, Nat.sub_self]
    rfl

/-- A read on a consumed stream changes nothing. -/
theorem readOn_closed (hHandle : w.handles[h]? = some handle) (hClosed : handle.closed = true) :
    (w.readOn h handle op).2 = w := by
  have hSame := perform_closed handle.kind op
    (show (⟨handle.closed, handle.rbuf, w.reads⟩ : Source).closed = true from hClosed)
  simp only [World.readOn, hSame]
  obtain ⟨hLt, hGet⟩ := List.getElem?_eq_some_iff.mp hHandle
  have hSet : w.handles.set h handle = w.handles := by
    rw [← hGet]
    exact List.set_getElem_self hLt
  exact congrArg (fun handles => (⟨handles, w.reads⟩ : World)) hSet

/-- A read on a stream of the program is one on its source. -/
theorem readOn_took (hOne : OneOpen w) (hHandle : w.handles[h]? = some handle) :
    OneOpen (w.readOn h handle op).2 ∧
      ∃ taken, Took taken w.source (w.readOn h handle op).2.source ∧
        Accounts op (w.readOn h handle op).1 taken := by
  obtain ⟨taken, hTook, hAnswer⟩ :=
    accounted_perform handle.kind op ⟨handle.closed, handle.rbuf, w.reads⟩
  rcases hOne.cases hHandle with ⟨hClosed, hEmpty⟩ | ⟨hOpen, hBuffer, hSet⟩
  · rw [readOn_closed hHandle hClosed]
    refine ⟨hOne, taken, ?_, hAnswer⟩
    -- no bytes were taken: there were none
    rw [perform_closed handle.kind op hClosed] at hTook
    obtain ⟨pulled, hReads, hBytes⟩ := hTook.reads
    have hPulled : pulled = [] := List.append_left_eq_self.mp hReads.symm
    rw [hPulled] at hBytes
    have hTaken : taken = [] := by
      have hLength := congrArg List.length hBytes
      simp only [hEmpty, bytesOf, List.flatMap_nil, List.append_nil, List.length_nil] at hLength
      exact List.eq_nil_of_length_eq_zero hLength.symm
    rw [hTaken]
    exact .refl _
  · obtain ⟨dead, hHandles, hDead⟩ := hSet ⟨handle.kind,
      (perform handle.kind op ⟨handle.closed, handle.rbuf, w.reads⟩).2.closed,
      (perform handle.kind op ⟨handle.closed, handle.rbuf, w.reads⟩).2.rbuf⟩
    refine ⟨⟨dead, _, hHandles, hTook.closed.trans hOpen, hDead⟩, taken, ⟨rfl, ?_⟩, hAnswer⟩
    obtain ⟨pulled, hReads, hBytes⟩ := hTook.reads
    refine ⟨pulled, hReads, ?_⟩
    show w.buffer ++ bytesOf pulled = taken ++ World.buffer _
    rw [hBuffer, buffer_eq hHandles hDead]
    exact hBytes

/-- A text stream takes over the read-ahead. -/
theorem convert_took (hOne : OneOpen w) (hHandle : w.handles[h]? = some handle) (name : String) :
    OneOpen (w.convert h handle name).2 ∧
      Took [] w.source (w.convert h handle name).2.source ∧
        Returned op (w.convert h handle name).1 [] := by
  unfold World.convert
  split_ifs with hClosed
  · exact ⟨hOne, .refl _, .error⟩
  · rcases hOne.cases hHandle with ⟨hClosed', -⟩ | ⟨-, hBuffer, hSet⟩
    · exact absurd hClosed' hClosed
    obtain ⟨dead, hHandles, hDead⟩ := hSet ⟨handle.kind, true, []⟩
    have hDead' : ∀ handle' ∈ dead ++ [⟨handle.kind, true, []⟩],
        handle'.closed = true ∧ handle'.rbuf = [] := by
      intro handle' hMem
      rcases List.mem_append.mp hMem with hOld | hNew
      · exact hDead handle' hOld
      · obtain rfl := List.mem_singleton.mp hNew
        exact ⟨rfl, rfl⟩
    rw [hHandles]
    refine ⟨⟨_, _, rfl, rfl, hDead'⟩, ⟨rfl, [], rfl, ?_⟩, .stream⟩
    have hNew := @buffer_eq ⟨_, w.reads⟩ (dead ++ [⟨handle.kind, true, []⟩])
      ⟨.stringStream, false, handle.rbuf⟩ rfl hDead'
    exact (List.append_nil _).trans (hBuffer.trans hNew.symm)

/-- One operation: the answer accounts for the bytes that are taken. -/
theorem step_took {a : Nat × Op} (hOne : OneOpen w) (hStep : w.step a = some (answer, w')) :
    OneOpen w' ∧ ∃ taken, Took taken w.source w'.source ∧ Accounts a.2 answer taken := by
  obtain ⟨h, op⟩ := a
  obtain ⟨handle, hHandle, hSend⟩ := Option.map_eq_some_iff.mp hStep
  obtain ⟨rfl, rfl⟩ := Prod.mk.inj hSend
  have hRead := @readOn_took w h handle op hOne hHandle
  have hConvert : ∀ name, OneOpen (w.convert h handle name).2 ∧
      ∃ taken, Took taken w.source (w.convert h handle name).2.source ∧
        Accounts op (w.convert h handle name).1 taken := by
    intro name
    obtain ⟨hOne', hTook, hAnswer⟩ := @convert_took w h handle op hOne hHandle name
    exact ⟨hOne', [], hTook, .inl hAnswer⟩
  cases op with
  | stringStreamOver => exact hConvert "StringStream.over:"
  | stringStream =>
    obtain ⟨kind, closed, rbuf⟩ := handle
    cases kind with
    | byteStream => exact hConvert "stringStream"
    | stringStream => exact ⟨hOne, [], .refl _, .inl .error⟩
  | _ => exact hRead

/-- A closed stream's refusal does not go by the bytes. -/
theorem Plain.perform_closed (kind : Kind) (op : Op) :
    ∃ e, ∀ rest, Plain.perform kind op true rest = (.error e, rest) := by
  cases kind with
  | byteStream =>
    cases op with
    | readUntil delim =>
      by_cases hEmpty : delim = []
      · exact ⟨_, fun _ => if_pos hEmpty⟩
      · exact ⟨_, fun _ => if_neg hEmpty⟩
    | _ => exact ⟨_, fun _ => rfl⟩
  | stringStream => cases op with | _ => exact ⟨_, fun _ => rfl⟩

/-- Reading goes by the bytes left. -/
theorem readOn_plain (hOne : OneOpen w) (hHandle : w.handles[h]? = some handle)
    (hReads : Unfailing w.reads) (hSteady : op.Steady) :
    ((w.readOn h handle op).1, (w.readOn h handle op).2.plain) =
      ((Plain.perform handle.kind op handle.closed w.plain.rest).1,
        ⟨w.plain.handles, (Plain.perform handle.kind op handle.closed w.plain.rest).2⟩) := by
  have hPlain := @perform_plain ⟨handle.closed, handle.rbuf, w.reads⟩ handle.kind op hSteady hReads
  rcases hOne.cases hHandle with ⟨hClosed, hEmpty⟩ | ⟨hOpen, hBuffer, hSet⟩
  · obtain ⟨e, hRefused⟩ := Plain.perform_closed handle.kind op
    rw [readOn_closed hHandle hClosed, hClosed, hRefused]
    have hAnswer := congrArg Prod.fst hPlain
    rw [hClosed, hRefused] at hAnswer
    exact Prod.ext (by rw [← hClosed] at hAnswer; exact hAnswer) rfl
  · have hRest : w.plain.rest = Source.rest ⟨handle.closed, handle.rbuf, w.reads⟩ := by
      rw [World.plain, hBuffer]
      rfl
    obtain ⟨dead, hHandles, hDead⟩ := hSet ⟨handle.kind,
      (perform handle.kind op ⟨handle.closed, handle.rbuf, w.reads⟩).2.closed,
      (perform handle.kind op ⟨handle.closed, handle.rbuf, w.reads⟩).2.rbuf⟩
    obtain ⟨_, hTook, -⟩ := accounted_perform handle.kind op ⟨handle.closed, handle.rbuf, w.reads⟩
    have hNew := @buffer_eq (w.readOn h handle op).2 dead _ hHandles hDead
    -- the class and the flag stay
    have hShape : (w.readOn h handle op).2.plain.handles = w.plain.handles := by
      obtain ⟨hLt, hGet⟩ := List.getElem?_eq_some_iff.mp hHandle
      show (w.handles.set h _).map _ = w.handles.map _
      rw [List.map_set, hTook.closed]
      refine List.ext_getElem? fun i => ?_
      rw [List.getElem?_set]
      split_ifs with hEq hIn
      · rw [← hEq, List.getElem?_map, hHandle]
        rfl
      · rw [List.length_map] at hIn
        omega
      · rfl
    have hLeft : (w.readOn h handle op).2.plain.rest =
        (perform handle.kind op ⟨handle.closed, handle.rbuf, w.reads⟩).2.rest := by
      rw [World.plain, hNew]
      rfl
    rw [hRest, ← hPlain]
    exact Prod.ext rfl (congrArg₂ Plain.mk hShape hLeft)

theorem convert_plain (hOne : OneOpen w) (hHandle : w.handles[h]? = some handle) (name : String) :
    ((w.convert h handle name).1, (w.convert h handle name).2.plain) =
      w.plain.convert h (handle.kind, handle.closed) name := by
  obtain ⟨-, hTook, -⟩ := @convert_took w h handle .stringStreamOver hOne hHandle name
  have hLeft := hTook.rest
  unfold World.convert Plain.convert at *
  split_ifs with hClosed
  · rfl
  · rw [if_neg hClosed] at hLeft
    refine Prod.ext ?_ (congrArg₂ Plain.mk ?_ hLeft.symm)
    · exact congrArg (fun n => Except.ok (Value.stream n)) (List.length_map _).symm
    · show (w.handles.set h _ ++ [_]).map _ = (w.handles.map _).set h _ ++ [_]
      rw [List.map_append, List.map_set]
      rfl

/-- A steady operation of the streams is one on the bytes left. -/
theorem step_plain {a : Nat × Op} (hOne : OneOpen w) (hReads : Unfailing w.reads)
    (hSteady : a.2.Steady) :
    (w.step a).map (fun r => (r.1, r.2.plain)) = w.plain.step a := by
  obtain ⟨h, op⟩ := a
  have hGet : w.plain.handles[h]? =
      w.handles[h]?.map fun handle => (handle.kind, handle.closed) := List.getElem?_map
  unfold World.step Plain.step
  dsimp only
  rw [hGet]
  cases hHandle : w.handles[h]? with
  | none => rfl
  | some handle =>
    refine congrArg some ?_
    have hConvert := convert_plain hOne hHandle
    have hRead := readOn_plain hOne hHandle hReads hSteady
    cases op with
    | stringStreamOver => exact hConvert "StringStream.over:"
    | stringStream =>
      obtain ⟨kind, closed, rbuf⟩ := handle
      cases kind with
      | byteStream => exact hConvert "stringStream"
      | stringStream => rfl
    | _ => exact hRead

/-! ## Runs -/

/-- The bytes for each answer of a run. -/
def AccountsAll (as : List (Nat × Op)) (answers : List (Except ReadError Value))
    (taken : List Bytes) : Prop :=
  List.Forall₂ (fun sent b => Accounts sent.1.2 sent.2 b) (as.zip answers) taken

theorem run_took {as : List (Nat × Op)} {answers : List (Except ReadError Value)}
    (hOne : OneOpen w) (hRun : w.run as = some (answers, w')) :
    OneOpen w' ∧ ∃ taken, AccountsAll as answers taken ∧
      Took taken.flatten w.source w'.source := by
  induction as generalizing w answers with
  | nil =>
    obtain ⟨rfl, rfl⟩ := Prod.mk.inj (Option.some.inj hRun)
    exact ⟨hOne, [], .nil, .refl _⟩
  | cons a as ih =>
    obtain ⟨r, hStep, hRest⟩ := Option.bind_eq_some_iff.mp hRun
    obtain ⟨rs, hRun', hAnswers⟩ := Option.map_eq_some_iff.mp hRest
    obtain ⟨rfl, rfl⟩ := Prod.mk.inj hAnswers
    obtain ⟨hOne', taken, hTook, hAnswer⟩ := step_took hOne hStep
    obtain ⟨hEnd, takens, hAll, hTook'⟩ := ih hOne' hRun'
    exact ⟨hEnd, taken :: takens, .cons hAnswer hAll, hTook.trans hTook'⟩

theorem run_plain {as : List (Nat × Op)} (hOne : OneOpen w) (hReads : Unfailing w.reads)
    (hSteady : ∀ a ∈ as, a.2.Steady) :
    (w.run as).map (fun r => (r.1, r.2.plain)) = w.plain.run as := by
  induction as generalizing w with
  | nil => rfl
  | cons a as ih =>
    have hStep := step_plain hOne hReads (hSteady a List.mem_cons_self)
    rw [World.run, Plain.run, ← hStep]
    cases hNext : w.step a with
    | none => rfl
    | some r =>
      obtain ⟨answer, w'⟩ := r
      obtain ⟨hOne', _, hTook, -⟩ := step_took hOne hNext
      obtain ⟨pulled, hPulled, -⟩ := hTook.reads
      have hAll : w.reads = pulled ++ w'.reads := hPulled
      have hReads' : Unfailing w'.reads := fun kind message hMem =>
        hReads kind message (by rw [hAll]; exact List.mem_append_right _ hMem)
      have hRest := ih hOne' hReads' fun b hb => hSteady b (List.mem_cons_of_mem _ hb)
      simp only [Option.bind_some, Option.map_some, ← hRest, Option.map_map]
      rfl

/-- A `readExactly:` that fails consumes nothing. -/
theorem readExactly_error {n : Int} {e : ReadError} (hOne : OneOpen w)
    (hStep : w.step (h, .readExactly n) = some (.error e, w')) : w'.plain.rest = w.plain.rest := by
  obtain ⟨-, taken, hTook, hAnswer⟩ := step_took hOne hStep
  have hTaken : taken = [] := by
    rcases hAnswer with hReturned | hRefused
    · cases hReturned
      rfl
    · cases hRefused with
      | intro hOp _ _ => rcases hOp with hOp | hOp <;> cases hOp
  have hRest := hTook.rest
  rw [hTaken] at hRest
  exact hRest.symm

/-- A `readUntil:limit:` that gives up has no delimiter before it that ends within the limit. -/
theorem step_limit {delim : Bytes} {limit : Int} (hOne : OneOpen w) (hReads : Unfailing w.reads)
    (hStep : w.step (h, .readUntilLimit delim limit) =
      some (.error (ByteStream.limitError limit.toNat), w')) :
    ∀ stop ≤ limit.toNat, ¬ EndsAt delim w.plain.rest stop := by
  obtain ⟨handle, hHandle, hSend⟩ := Option.map_eq_some_iff.mp hStep
  have hAnswer : (perform handle.kind (.readUntilLimit delim limit)
      ⟨handle.closed, handle.rbuf, w.reads⟩).1 =
        .error (ByteStream.limitError limit.toNat) := congrArg Prod.fst hSend
  cases hKind : handle.kind with
  | stringStream =>
    rw [hKind] at hAnswer
    cases hAnswer
  | byteStream =>
    rw [hKind] at hAnswer
    have hNone := readUntilLimit_limit hReads hAnswer
    rcases hOne.cases hHandle with ⟨hClosed, -⟩ | ⟨-, hBuffer, -⟩
    · -- a closed stream gives another error
      have hOther : (ByteStream.readUntilLimit delim limit
          ⟨handle.closed, handle.rbuf, w.reads⟩).1 ≠
            .error (ByteStream.limitError limit.toNat) := by
        unfold ByteStream.readUntilLimit Source.whenOpen
        rw [hClosed]
        split_ifs
        · exact fun h => by cases h
        · intro h
          injection h with h
          injection h with h
          cases h
        · contradiction
      exact absurd hAnswer hOther
    · rw [World.plain, hBuffer]
      exact hNone

end Streams

/-- **Buffered reading loses nothing.** After any operations on the streams of a conduit, the bytes
that the answers return, with the ends of lines and the text that is refused, and then the
read-ahead are the bytes pulled, and a `readExactly:` that fails consumes nothing. Where no read
fails, the steady operations from there on answer by the bytes left alone, so from the start
they answer the same for all fills of the same bytes; and a `readUntil:limit:` gives up only where
no delimiter ends within the limit. -/
theorem reads_account {kind : Kind} {reads : List Read} {as : List (Nat × Op)}
    {answers : List (Except ReadError Value)} {w : World}
    (hRun : (World.start kind reads).run as = some (answers, w)) :
    (∃ pulled taken, reads = pulled ++ w.reads ∧ AccountsAll as answers taken ∧
      taken.flatten ++ w.buffer = bytesOf pulled) ∧
    (∀ h n e w', w.step (h, .readExactly n) = some (.error e, w') →
      w'.plain.rest = w.plain.rest) ∧
    (Unfailing reads →
      (∀ bs, (∀ b ∈ bs, b.2.Steady) →
        (w.run bs).map (fun r => (r.1, r.2.plain)) = w.plain.run bs) ∧
      (∀ reads', Unfailing reads' → bytesOf reads' = bytesOf reads →
        ∀ bs, (∀ b ∈ bs, b.2.Steady) →
          ((World.start kind reads').run bs).map Prod.fst =
            ((World.start kind reads).run bs).map Prod.fst) ∧
      ∀ h delim limit w', w.step (h, .readUntilLimit delim limit) =
          some (.error (ByteStream.limitError limit.toNat), w') →
        ∀ stop ≤ limit.toNat, ¬ EndsAt delim w.plain.rest stop) := by
  obtain ⟨hOne, taken, hAll, hTook⟩ := run_took (oneOpen_start kind reads) hRun
  obtain ⟨pulled, hPulled, hBytes⟩ := hTook.reads
  have hSplit : reads = pulled ++ w.reads := hPulled
  refine ⟨⟨pulled, taken, hSplit, hAll, hBytes.symm⟩, ?_, fun hReads => ⟨?_, ?_, ?_⟩⟩
  · exact fun h n e w' hStep => readExactly_error hOne hStep
  all_goals
    have hLater : Unfailing w.reads := fun kind message hMem =>
      hReads kind message (by rw [hSplit]; exact List.mem_append_right _ hMem)
  · exact fun bs hSteady => run_plain hOne hLater hSteady
  · intro reads' hReads' hSame bs hSteady
    have hStart : (World.start kind reads').plain = (World.start kind reads).plain :=
      congrArg (fun b => Plain.mk [(kind, false)] ([] ++ b)) hSame
    have hRun' := run_plain (oneOpen_start kind reads') hReads' hSteady
    rw [hStart, ← run_plain (oneOpen_start kind reads) hReads hSteady] at hRun'
    have hFst := congrArg (Option.map Prod.fst) hRun'
    rwa [Option.map_map, Option.map_map] at hFst
  · exact fun h delim limit w' hStep => step_limit hOne hLater hStep

/-- A line over three fills, with the rest of the last one in the read-ahead. -/
def threeFills : List Read :=
  [.chunk [0x61, 0xC3] (by decide), .chunk [0xA9, 0x0D] (by decide), .chunk [0x0A, 0x62] (by decide)]

/-- A line in three fills is read by a text stream that was made of the byte stream after a `peek:`.
-/
theorem reads_account_threeFills :
    ∃ answers w, (World.start .byteStream threeFills).run
        [(0, .peek 1), (0, .stringStream), (1, .readLine)] = some (answers, w) ∧
      w.buffer = [0x62] ∧
      ∃ pulled taken, threeFills = pulled ++ w.reads ∧
        AccountsAll [(0, .peek 1), (0, .stringStream), (1, .readLine)] answers taken ∧
        taken.flatten ++ w.buffer = bytesOf pulled := by
  have hRun : (World.start .byteStream threeFills).run
      [(0, .peek 1), (0, .stringStream), (1, .readLine)] =
        some ([.ok (.bytes [0x61]), .ok (.stream 1), .ok (.text ⟨[0x61, 0xC3, 0xA9], rfl⟩)],
          ⟨[⟨.byteStream, true, []⟩, ⟨.stringStream, false, [0x62]⟩], []⟩) := by
    rfl
  exact ⟨_, _, hRun, rfl, (reads_account hRun).1⟩

/-- A line that is not UTF-8 is taken and not returned; and after a `read`, which takes what one fill
brings, what is left for `readAll` depends on the fills. -/
theorem reads_refused :
    (¬ ∀ (kind : Kind) (reads : List Read) (as : List (Nat × Op))
        (answers : List (Except ReadError Value)) (w : World),
      (World.start kind reads).run as = some (answers, w) →
        ∃ pulled taken, reads = pulled ++ w.reads ∧
          List.Forall₂ (fun sent b => Returned sent.1.2 sent.2 b) (as.zip answers) taken ∧
          taken.flatten ++ w.buffer = bytesOf pulled) ∧
    ∃ reads reads', bytesOf reads = bytesOf reads' ∧
      ((World.start .byteStream reads).run [(0, .read), (0, .readAll)]).map (fun r => r.1[1]?) ≠
        ((World.start .byteStream reads').run [(0, .read), (0, .readAll)]).map fun r => r.1[1]? := by
  constructor
  · intro hAll
    have hRun : (World.start .stringStream [.chunk [0xFF, 0x0A] (by decide)]).run [(0, .readLine)] =
        some ([.error (.parseError "StringStream.readLine: not valid UTF-8")],
          ⟨[⟨.stringStream, false, []⟩], []⟩) := by
      rfl
    obtain ⟨pulled, taken, hReads, hTaken, hBytes⟩ := hAll _ _ _ _ _ hRun
    rw [List.append_nil] at hReads
    rw [← hReads] at hBytes
    -- the error returns nothing
    obtain ⟨b, rest, hError, hRest, rfl⟩ := List.forall₂_cons_left_iff.mp hTaken
    cases hError
    cases hRest
    cases hBytes
  · refine ⟨[.chunk [0x61, 0x62] (by decide)],
      [.chunk [0x61] (by decide), .chunk [0x62] (by decide)], rfl, ?_⟩
    decide

end Quoin.Streams
