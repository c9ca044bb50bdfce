import Mathlib
import Quoin.Streams.Lossless
import Quoin.Trans.Run

/-!
# Quoin — codecs on streams

`codecWrap:` puts a codec between a stream and its conduit, in place. A codec
should see the stream from its first byte, so a read codec is refused on a
stream that has read-ahead, and a write codec on one that was written. Both
travel with the stream when a text stream takes it over.

That a stream was written is remembered (`wrote`), that it was read is not: the
read-ahead is empty again once the reads have taken what was pulled. The state
here keeps what was pulled, taken and written, and what that was when a codec
was accepted (`Wrap`); none of the calls goes by it. In a run every codec sees
its stream from the first byte if and only if no read codec comes to a stream
by whose reads all has been taken that was pulled (`codecs_first`).

## Results

* `codecs_first` — in every run of calls each codec sees its stream from the first byte, exactly if
  no read codec comes to a stream that was read to its read-ahead's end;
* `codecs_first_spent` — a stream of which all that was pulled has been read takes a read codec.
-/

namespace Quoin.Streams.Codecs

open Trans

/-! ## Streams over a conduit -/

/-- Which half of the stream a codec transforms. -/
inductive Side where
  | read
  | write
  deriving DecidableEq

/-- `CODECS`. -/
def codecs : List (String × Side) := [("gunzip", .read), ("gzip", .write)]

/-- `io_codecs::lookup`. -/
def lookup (codec : String) : Except ReadError Side :=
  match codecs.find? fun entry => entry.1 = codec with
  | some entry => .ok entry.2
  | none => .error (.io .invalidInput s!"unknown stream codec '{codec}'")

structure NativeStream where
  kind : Kind
  closed : Bool
  rbuf : Bytes
  wbuf : Bytes
  wcap : Nat
  wrote : Bool
  needsFinish : Bool
  deriving DecidableEq

/-- `make_byte_stream_with`, `make_string_stream`. -/
def NativeStream.made (kind : Kind) (wcap : Nat) : NativeStream :=
  ⟨kind, false, [], [], wcap, false, false⟩

/-- A codec that was accepted, and what had been pulled and written by then. -/
structure Wrap where
  side : Side
  pulled : Bytes
  written : Bytes
  deriving DecidableEq

/-- The codec sees its side of the stream from the first byte. -/
def Wrap.First (wrap : Wrap) : Prop :=
  match wrap.side with
  | .read => wrap.pulled = []
  | .write => wrap.written = []

/-- The streams that a program has over one conduit, and the reads to come; what was pulled from the
conduit, taken by reads, written, and the codecs accepted. -/
structure World where
  streams : List NativeStream
  reads : List Read
  pulled : Bytes
  taken : Bytes
  written : Bytes
  wraps : List Wrap
  deriving DecidableEq

/-- A call on a stream, with what the backend answers where it is asked. -/
inductive Call where
  /-- a read, a look, or a text stream made of the stream -/
  | read (op : Op)
  | write (bytes : Bytes) (backend : Except ReadError Unit)
  | flush (backend : Except ReadError Unit)
  | close (backend finish : Except ReadError Unit)
  /-- the end of an `over:do:` that threw -/
  | reap
  /-- the backend's answer, and the reads that come then -/
  | codecWrap (codec : String) (backend : Except ReadError Unit) (reads : List Read)

abbrev Answer := Except ReadError Value × World

namespace World

/-- A stream just opened. -/
def start (kind : Kind) (wcap : Nat) (reads : List Read) : World :=
  ⟨[.made kind wcap], reads, [], [], [], []⟩

def put (w : World) (h : Nat) (s : NativeStream) : World :=
  { w with streams := w.streams.set h s }

def nilOf (backend : Except ReadError Unit) : Except ReadError Value := backend.map fun _ => .nil

/-- A read. What the conduit gives is pulled, and what is then not in the read-ahead is taken. -/
def readOn (w : World) (h : Nat) (s : NativeStream) (op : Op) : Answer :=
  let r := perform s.kind op ⟨s.closed, s.rbuf, w.reads⟩
  let got := bytesOf (w.reads.take (w.reads.length - r.2.reads.length))
  (r.1,
    { w.put h { s with rbuf := r.2.rbuf } with
      reads := r.2.reads
      pulled := w.pulled ++ got
      taken := w.taken ++ (s.rbuf ++ got).take ((s.rbuf ++ got).length - r.2.rbuf.length) })

/-- `consume_stream_or_raise`, then `make_string_stream_from`. -/
def convert (w : World) (h : Nat) (s : NativeStream) (op : String) : Answer :=
  if s.closed then
    (.error (.io .closed s!"{op}: the source is already closed"), w)
  else
    (.ok (.stream w.streams.length),
      { w with
        streams := w.streams.set h { s with closed := true, rbuf := [], wbuf := [] } ++
          [{ s with kind := .stringStream }] })

/-- `stream_write`. -/
def streamWrite (w : World) (h : Nat) (s : NativeStream) (bytes : Bytes)
    (backend : Except ReadError Unit) : Answer :=
  if s.closed then (.error Source.closedError, w) else
  let w := { w with written := w.written ++ bytes }
  let s := { s with wrote := true }
  if s.wcap = 0 then (nilOf backend, w.put h s) else
  let wbuf := s.wbuf ++ bytes
  if s.wcap ≤ wbuf.length then (nilOf backend, w.put h { s with wbuf := [] })
  else (.ok .nil, w.put h { s with wbuf })

/-- `stream_flush`. -/
def streamFlush (w : World) (h : Nat) (s : NativeStream) (backend : Except ReadError Unit) :
    Answer :=
  if s.closed then (.ok .nil, w) else
  if s.wbuf = [] then (.ok .nil, w) else (nilOf backend, w.put h { s with wbuf := [] })

/-- `mark_closed`. -/
def markClosed (w : World) (h : Nat) : World :=
  { w with streams := w.streams.modify h fun s => { s with closed := true } }

/-- `close_stream`: where the flush fails nothing is closed. -/
def closeStream (w : World) (h : Nat) (s : NativeStream) (backend finish : Except ReadError Unit) :
    Answer :=
  match w.streamFlush h s backend with
  | (.error e, w) => (.error e, w)
  | (.ok _, w) =>
    if !s.closed && s.needsFinish then (nilOf finish, w.markClosed h)
    else (.ok .nil, w.markClosed h)

/-- `reap_stream_handle`. -/
def reapStreamHandle (w : World) (h : Nat) : Answer := (.ok .nil, w.markClosed h)

/-- Why an open stream does not take the codec. -/
def refusal (who codec : String) (s : NativeStream) : Side → Option ReadError
  | .read =>
    if 0 < s.wcap then
      some (.io .invalidInput
        s!"{who}: this is a write stream — '{codec}' wraps read streams")
    else if 0 < s.rbuf.length then
      some (.io .invalidInput
        s!"{who}: the stream has already been read — wrap it before the first read")
    else none
  | .write =>
    if s.wcap = 0 then
      some (.io .invalidInput
        s!"{who}: '{codec}' wraps file write streams ([IO]File.create:/append:)")
    else if s.wrote then
      some (.io .invalidInput
        s!"{who}: the stream has already been written — wrap it before the first write")
    else none

/-- `codec_wrap`. -/
def codecWrap (who : String) (w : World) (h : Nat) (s : NativeStream) (codec : String)
    (backend : Except ReadError Unit) (reads : List Read) : Answer :=
  match lookup codec with
  | .error e => (.error e, w)
  | .ok side =>
    if s.closed then (.error (.io .closed s!"{who}: the stream is closed"), w) else
    match refusal who codec s side with
    | some e => (.error e, w)
    | none =>
      match backend with
      | .error e => (.error e, { w with reads })
      | .ok () =>
        (.ok (.stream h),
          { w.put h { s with needsFinish := s.needsFinish || side = .write } with
            reads
            wraps := w.wraps ++ [⟨side, w.pulled, w.written⟩] })

def call (w : World) (h : Nat) (s : NativeStream) : Call → Answer
  | .read .stringStream =>
    match s.kind with
    | .byteStream => w.convert h s "stringStream"
    | .stringStream => (.error .messageNotUnderstood, w)
  | .read .stringStreamOver => w.convert h s "StringStream.over:"
  | .read op => w.readOn h s op
  | .write bytes backend => w.streamWrite h s bytes backend
  | .flush backend => w.streamFlush h s backend
  | .close backend finish => w.closeStream h s backend finish
  | .reap => w.reapStreamHandle h
  | .codecWrap codec backend reads => codecWrap "codecWrap:" w h s codec backend reads

end World

/-- A call on one of the streams, `none` if there is no such stream. -/
def step (w : World) (a : Nat × Call) : Option World :=
  w.streams[a.1]?.map fun s => (w.call a.1 s a.2).2

/-! ## What should hold, and when it does -/

/-- Every codec that was accepted sees its stream from the first byte. -/
def AllFirst (w : World) : Prop := ∀ wrap ∈ w.wraps, wrap.First

/-- Bytes were pulled, and reads have taken them all. -/
def Spent (w : World) : Prop := w.pulled ≠ [] ∧ w.taken = w.pulled

/-- Not a read codec, that the backend would put there, on an open stream without a write buffer of
whose bytes none is left. -/
def Ok (w : World) (a : Nat × Call) : Prop :=
  match a.2 with
  | .codecWrap codec (.ok ()) _ =>
    lookup codec = .ok .read →
      ∀ s ∈ w.streams[a.1]?, s.closed = false → s.wcap = 0 → ¬ Spent w
  | _ => True

/-! ## What the open stream tells -/

/-- The read-ahead is what was pulled and not taken, and the flag says whether there were writes. -/
structure Accounts (w : World) (s : NativeStream) : Prop where
  pulled : w.pulled = w.taken ++ s.rbuf
  written : s.wrote = false → w.written = []

/-- A stream that is open is the last one, and tells what went through. -/
def Inv (w : World) : Prop :=
  ∀ h s, w.streams[h]? = some s → s.closed = false → h + 1 = w.streams.length ∧ Accounts w s

section Invariant

variable {w w' : World} {h : Nat} {s s' : NativeStream}

theorem inv_start (kind : Kind) (wcap : Nat) (reads : List Read) :
    Inv (World.start kind wcap reads) := by
  intro h s hStream _
  have hLt : h < 1 := (List.getElem?_eq_some_iff.mp hStream).1
  obtain rfl : h = 0 := by omega
  obtain rfl := Option.some.inj hStream
  exact ⟨rfl, rfl, fun _ => rfl⟩

/-- The open stream becomes another one, that accounts for what went through by then. -/
theorem Inv.put (hInv : Inv w) (hStream : w.streams[h]? = some s) (hOpen : s.closed = false)
    (hStreams : w'.streams = w.streams.set h s') (hNew : Accounts w' s') : Inv w' := by
  have hLast := (hInv h s hStream hOpen).1
  intro i t hOther hOtherOpen
  rw [hStreams, List.length_set]
  rw [hStreams, List.getElem?_set] at hOther
  split_ifs at hOther with hSame
  · obtain rfl := Option.some.inj hOther
    exact ⟨hSame ▸ hLast, hNew⟩
  · have hLast' := (hInv i t hOther hOtherOpen).1
    omega

/-- A text stream takes over the open stream. -/
theorem Inv.convert (hInv : Inv w) (hStream : w.streams[h]? = some s) (op : String) :
    Inv (w.convert h s op).2 := by
  unfold World.convert
  split_ifs with hClosed
  · exact hInv
  rw [Bool.not_eq_true] at hClosed
  obtain ⟨hLast, hAccounts⟩ := hInv h s hStream hClosed
  intro i t hOther hOpen
  simp only [List.length_append, List.length_set, List.length_singleton]
  by_cases hOld : i < w.streams.length
  · rw [List.getElem?_append_left (by rwa [List.length_set]), List.getElem?_set] at hOther
    split_ifs at hOther with hSame
    · obtain rfl := Option.some.inj hOther
      cases hOpen
    · have hLast' := (hInv i t hOther hOpen).1
      omega
  · have hLt := (List.getElem?_eq_some_iff.mp hOther).1
    simp only [List.length_append, List.length_set, List.length_singleton] at hLt
    have hEnd : i = (w.streams.set h { s with closed := true, rbuf := [], wbuf := [] }).length := by
      rw [List.length_set]
      omega
    rw [hEnd, List.getElem?_concat_length] at hOther
    obtain rfl := Option.some.inj hOther
    exact ⟨by omega, hAccounts.pulled, hAccounts.written⟩

theorem Inv.markClosed (hInv : Inv w) (h : Nat) : Inv (w.markClosed h) := by
  intro i t hOther hOpen
  obtain ⟨s, hStream, hMarked⟩ : ∃ s, w.streams[i]? = some s ∧
      (if h = i then { s with closed := true } else s) = t := by
    have hModify := hOther
    rw [World.markClosed, List.getElem?_modify] at hModify
    exact Option.map_eq_some_iff.mp hModify
  split_ifs at hMarked
  · subst hMarked
    cases hOpen
  · subst hMarked
    obtain ⟨hLast, hAccounts⟩ := hInv i s hStream hOpen
    exact ⟨hLast.trans (List.length_modify _ _ _).symm, hAccounts.pulled, hAccounts.written⟩

/-- What a read does to the pulled and the taken bytes. -/
theorem readOn_took (w : World) (h : Nat) (s : NativeStream) (op : Op) :
    ∃ got taken, (w.readOn h s op).2.pulled = w.pulled ++ got ∧
      (w.readOn h s op).2.taken = w.taken ++ taken ∧
      s.rbuf ++ got = taken ++ (perform s.kind op ⟨s.closed, s.rbuf, w.reads⟩).2.rbuf := by
  obtain ⟨taken, hTook, -⟩ := accounted_perform s.kind op ⟨s.closed, s.rbuf, w.reads⟩
  obtain ⟨done, hReads, hBytes⟩ := hTook.reads
  have hDone : w.reads.take (w.reads.length -
      (perform s.kind op ⟨s.closed, s.rbuf, w.reads⟩).2.reads.length) = done := by
    have hLength := congrArg List.length hReads
    rw [List.length_append] at hLength
    have hCount : w.reads.length -
        (perform s.kind op ⟨s.closed, s.rbuf, w.reads⟩).2.reads.length = done.length := by
      dsimp only at hLength
      omega
    rw [hCount]
    exact (congrArg (List.take done.length) hReads).trans List.take_left
  refine ⟨bytesOf done, taken, ?_, ?_, hBytes⟩
  · show w.pulled ++ bytesOf (w.reads.take _) = _
    rw [hDone]
  · show w.taken ++ (s.rbuf ++ bytesOf (w.reads.take _)).take
      ((s.rbuf ++ bytesOf (w.reads.take _)).length - _) = _
    rw [hDone]
    dsimp only at hBytes
    rw [hBytes, List.length_append, Nat.add_sub_cancel, List.take_left]

theorem readOn_closed (hStream : w.streams[h]? = some s) (hClosed : s.closed = true) (op : Op) :
    (w.readOn h s op).2 = w := by
  have hSame : (perform s.kind op ⟨s.closed, s.rbuf, w.reads⟩).2 = ⟨s.closed, s.rbuf, w.reads⟩ :=
    perform_closed s.kind op hClosed
  obtain ⟨hLt, hGet⟩ := List.getElem?_eq_some_iff.mp hStream
  have hSet : w.streams.set h s = w.streams := by
    rw [← hGet]
    exact List.set_getElem_self hLt
  unfold World.readOn World.put
  simp only [hSame, Nat.sub_self, List.take_zero, hSet]
  simp [bytesOf]

theorem Inv.readOn (hInv : Inv w) (hStream : w.streams[h]? = some s) (op : Op) :
    Inv (w.readOn h s op).2 := by
  cases hClosed : s.closed with
  | true => rwa [readOn_closed hStream hClosed]
  | false =>
    obtain ⟨got, taken, hPulled, hTaken, hBytes⟩ := readOn_took w h s op
    have hAccounts := (hInv h s hStream hClosed).2
    refine hInv.put hStream hClosed rfl ⟨?_, hAccounts.written⟩
    rw [hPulled, hTaken, hAccounts.pulled, List.append_assoc, hBytes, List.append_assoc]

theorem Inv.streamWrite (hInv : Inv w) (hStream : w.streams[h]? = some s) (bytes : Bytes)
    (backend : Except ReadError Unit) : Inv (w.streamWrite h s bytes backend).2 := by
  cases hClosed : s.closed with
  | true =>
    simp only [World.streamWrite, hClosed, if_true]
    exact hInv
  | false =>
    have hAccounts := (hInv h s hStream hClosed).2
    simp only [World.streamWrite, hClosed, Bool.false_eq_true, if_false]
    split_ifs
    all_goals
      exact hInv.put hStream hClosed rfl ⟨hAccounts.pulled, fun hWrote => by cases hWrote⟩

theorem Inv.streamFlush (hInv : Inv w) (hStream : w.streams[h]? = some s)
    (backend : Except ReadError Unit) : Inv (w.streamFlush h s backend).2 := by
  unfold World.streamFlush
  split_ifs with hClosed hEmpty
  · exact hInv
  · exact hInv
  · rw [Bool.not_eq_true] at hClosed
    have hAccounts := (hInv h s hStream hClosed).2
    exact hInv.put hStream hClosed rfl ⟨hAccounts.pulled, hAccounts.written⟩

theorem streamFlush_wraps (w : World) (h : Nat) (s : NativeStream)
    (backend : Except ReadError Unit) : (w.streamFlush h s backend).2.wraps = w.wraps := by
  unfold World.streamFlush
  split_ifs
  · rfl
  · rfl
  · rfl

theorem Inv.closeStream (hInv : Inv w) (hStream : w.streams[h]? = some s)
    (backend finish : Except ReadError Unit) : Inv (w.closeStream h s backend finish).2 := by
  have hFlush := hInv.streamFlush hStream backend
  unfold World.closeStream
  generalize w.streamFlush h s backend = flushed at hFlush
  obtain ⟨answer, w'⟩ := flushed
  cases answer with
  | error e => exact hFlush
  | ok _ =>
    dsimp only
    split_ifs
    · exact hFlush.markClosed h
    · exact hFlush.markClosed h

/-- What `codecWrap:` comes to: nothing, a backend that fails, or one more codec. -/
theorem codecWrap_cases (who codec : String) (w : World) (h : Nat) (s : NativeStream)
    (backend : Except ReadError Unit) (reads : List Read) :
    (World.codecWrap who w h s codec backend reads).2 = w ∨
      (World.codecWrap who w h s codec backend reads).2 = { w with reads } ∨
      ∃ side, (lookup codec = .ok side ∧ s.closed = false ∧ backend = .ok () ∧
          World.refusal who codec s side = none) ∧
        (World.codecWrap who w h s codec backend reads).2 =
          { w.put h { s with needsFinish := s.needsFinish || side = .write } with
            reads
            wraps := w.wraps ++ [⟨side, w.pulled, w.written⟩] } := by
  unfold World.codecWrap
  cases hLookup : lookup codec with
  | error e => exact .inl rfl
  | ok side =>
    dsimp only
    split_ifs with hClosed
    · exact .inl rfl
    rw [Bool.not_eq_true] at hClosed
    cases hRefusal : World.refusal who codec s side with
    | some e => exact .inl rfl
    | none =>
      cases backend with
      | error e => exact .inr (.inl rfl)
      | ok u => exact .inr (.inr ⟨side, ⟨rfl, hClosed, rfl, hRefusal⟩, rfl⟩)

theorem codecWrap_accepts {who codec : String} {side : Side} (hLookup : lookup codec = .ok side)
    (hOpen : s.closed = false) (hRefusal : World.refusal who codec s side = none)
    (reads : List Read) :
    (World.codecWrap who w h s codec (.ok ()) reads).2.wraps =
      w.wraps ++ [⟨side, w.pulled, w.written⟩] := by
  unfold World.codecWrap
  simp only [hLookup, hOpen, hRefusal, Bool.false_eq_true, if_false]

theorem Inv.codecWrap (hInv : Inv w) (hStream : w.streams[h]? = some s) (who codec : String)
    (backend : Except ReadError Unit) (reads : List Read) :
    Inv (World.codecWrap who w h s codec backend reads).2 := by
  rcases codecWrap_cases who codec w h s backend reads with
    hSame | hFailed | ⟨side, ⟨-, hOpen, -, -⟩, hAccepted⟩
  · rwa [hSame]
  · rw [hFailed]
    intro i t hOther hOtherOpen
    obtain ⟨hLast, hAccounts⟩ := hInv i t hOther hOtherOpen
    exact ⟨hLast, hAccounts.pulled, hAccounts.written⟩
  · rw [hAccepted]
    have hAccounts := (hInv h s hStream hOpen).2
    exact hInv.put hStream hOpen rfl ⟨hAccounts.pulled, hAccounts.written⟩

/-- **Step.** -/
theorem Inv.call (hInv : Inv w) (hStream : w.streams[h]? = some s) (c : Call) :
    Inv (w.call h s c).2 := by
  cases c with
  | read op =>
    cases op with
    | stringStream =>
      cases hKind : s.kind with
      | byteStream =>
        simp only [World.call, hKind]
        exact hInv.convert hStream _
      | stringStream =>
        simp only [World.call, hKind]
        exact hInv
    | stringStreamOver => exact hInv.convert hStream _
    | _ => exact hInv.readOn hStream _
  | write bytes backend => exact hInv.streamWrite hStream bytes backend
  | flush backend => exact hInv.streamFlush hStream backend
  | close backend finish => exact hInv.closeStream hStream backend finish
  | reap => exact hInv.markClosed h
  | codecWrap codec backend reads => exact hInv.codecWrap hStream _ codec backend reads

theorem inv_step {a : Nat × Call} (hInv : Inv w) (hStep : step w a = some w') : Inv w' := by
  obtain ⟨s, hStream, rfl⟩ := Option.map_eq_some_iff.mp hStep
  exact hInv.call hStream a.2

/-! ## The codecs that are accepted -/

/-- Only `codecWrap:` accepts codecs. -/
theorem call_wraps (w : World) (h : Nat) (s : NativeStream) (c : Call)
    (hOther : ∀ codec backend reads, c ≠ .codecWrap codec backend reads) :
    (w.call h s c).2.wraps = w.wraps := by
  cases c with
  | read op =>
    cases op with
    | stringStream =>
      cases hKind : s.kind with
      | byteStream =>
        simp only [World.call, hKind, World.convert]
        split_ifs <;> rfl
      | stringStream => simp only [World.call, hKind]
    | stringStreamOver =>
      simp only [World.call, World.convert]
      split_ifs <;> rfl
    | _ => rfl
  | write bytes backend =>
    simp only [World.call, World.streamWrite]
    split_ifs <;> rfl
  | flush backend => exact streamFlush_wraps w h s backend
  | close backend finish =>
    have hFlush := streamFlush_wraps w h s backend
    show (w.closeStream h s backend finish).2.wraps = _
    unfold World.closeStream
    generalize w.streamFlush h s backend = flushed at hFlush
    obtain ⟨answer, w'⟩ := flushed
    cases answer with
    | error e => exact hFlush
    | ok _ =>
      dsimp only
      split_ifs
      · exact hFlush
      · exact hFlush
  | reap => rfl
  | codecWrap codec backend reads => exact absurd rfl (hOther codec backend reads)

/-- A read codec is not refused by a stream without read-ahead. -/
theorem refusal_read {who codec : String} :
    World.refusal who codec s .read = none ↔ s.wcap = 0 ∧ s.rbuf = [] := by
  simp only [World.refusal]
  split_ifs with hCap hBuf
  · exact iff_of_false (fun h => by cases h) fun h => by omega
  · exact iff_of_false (fun h => by cases h) fun h => by
      rw [h.2] at hBuf
      exact absurd hBuf (lt_irrefl _)
  · exact iff_of_true rfl ⟨by omega, List.length_eq_zero_iff.mp (by omega)⟩

theorem unwritten_of_refusal {who codec : String} (h : World.refusal who codec s .write = none) :
    s.wrote = false := by
  simp only [World.refusal] at h
  split_ifs at h with hCap hWrote
  exact Bool.eq_false_iff.mpr hWrote

/-- A codec that is accepted sees its stream from the first byte, where the stream is not spent. -/
theorem first_of_ok (hInv : Inv w) (hStream : w.streams[h]? = some s) {codec : String}
    {reads : List Read} {side : Side} (hLookup : lookup codec = .ok side)
    (hOpen : s.closed = false) (hRefusal : World.refusal "codecWrap:" codec s side = none)
    (hOk : Ok w (h, .codecWrap codec (.ok ()) reads)) :
    Wrap.First ⟨side, w.pulled, w.written⟩ := by
  have hAccounts := (hInv h s hStream hOpen).2
  cases side with
  | write => exact hAccounts.written (unwritten_of_refusal hRefusal)
  | read =>
    obtain ⟨hCap, hEmpty⟩ := refusal_read.mp hRefusal
    have hTaken : w.taken = w.pulled := by rw [hAccounts.pulled, hEmpty, List.append_nil]
    by_contra hPulled
    exact hOk hLookup s hStream hOpen hCap ⟨hPulled, hTaken⟩

theorem allFirst_step {a : Nat × Call} (hInv : Inv w) (hFirst : AllFirst w) (hOk : Ok w a)
    (hStep : step w a = some w') : AllFirst w' := by
  obtain ⟨h, c⟩ := a
  obtain ⟨s, hStream, rfl⟩ := Option.map_eq_some_iff.mp hStep
  by_cases hWrap : ∃ codec backend reads, c = .codecWrap codec backend reads
  · obtain ⟨codec, backend, reads, rfl⟩ := hWrap
    show AllFirst (World.codecWrap _ w h s codec backend reads).2
    rcases codecWrap_cases "codecWrap:" codec w h s backend reads with
      hSame | hFailed | ⟨side, ⟨hLookup, hOpen, rfl, hRefusal⟩, hAccepted⟩
    · rwa [hSame]
    · rw [hFailed]
      exact hFirst
    · rw [hAccepted]
      intro wrap hMem
      rcases List.mem_append.mp hMem with hOld | hNew
      · exact hFirst wrap hOld
      · obtain rfl := List.mem_singleton.mp hNew
        exact first_of_ok hInv hStream hLookup hOpen hRefusal hOk
  · have hWraps := call_wraps w h s c fun codec backend reads hEq =>
      hWrap ⟨codec, backend, reads, hEq⟩
    show ∀ wrap ∈ (w.call h s c).2.wraps, wrap.First
    rwa [hWraps]

/-- On a spent stream a read codec is accepted all the same. -/
theorem ok_of_allFirst {a : Nat × Call} (hInv : Inv w) (hStep : step w a = some w')
    (hFirst : AllFirst w') : Ok w a := by
  obtain ⟨h, c⟩ := a
  cases c with
  | codecWrap codec backend reads =>
    cases backend with
    | error e => trivial
    | ok u =>
      intro hLookup s hStream hOpen hCap hSpent
      obtain ⟨s', hStream', rfl⟩ := Option.map_eq_some_iff.mp hStep
      obtain rfl := Option.some.inj (hStream.symm.trans hStream')
      have hAccounts := (hInv h s hStream hOpen).2
      have hEmpty : s.rbuf = [] := by
        have hAll := hAccounts.pulled
        rw [hSpent.2] at hAll
        exact List.append_right_eq_self.mp hAll.symm
      have hWraps := @codecWrap_accepts w h s "codecWrap:" codec .read hLookup hOpen
        (refusal_read.mpr ⟨hCap, hEmpty⟩) reads
      have hNew := hFirst ⟨.read, w.pulled, w.written⟩ (by
        show _ ∈ (World.codecWrap _ w h s codec (.ok ()) reads).2.wraps
        rw [hWraps]
        exact List.mem_append_right _ List.mem_cons_self)
      exact hSpent.1 hNew
  | _ => trivial

end Invariant

/-- A program's calls on the streams of a conduit, in any order: throughout, every codec that is
accepted sees its side from the first byte, if and only if no read codec comes, with the backend
willing, to an open stream of which all that was pulled has been taken. -/
theorem codecs_first (kind : Kind) (wcap : Nat) (reads : List Read) (calls : List (Nat × Call)) :
    States step AllFirst (World.start kind wcap reads) calls ↔
      Steps step Ok (World.start kind wcap reads) calls := by
  refine states_iff_steps (I := fun w => Inv w ∧ AllFirst w) ?_ ?_ ?_ calls ?_
  · exact fun w hInv => hInv.2
  · exact fun w a w' hInv hOk hStep =>
      ⟨inv_step hInv.1 hStep, allFirst_step hInv.1 hInv.2 hOk hStep⟩
  · exact fun w a w' hInv hStep hFirst => ok_of_allFirst hInv.1 hStep hFirst
  · exact ⟨inv_start kind wcap reads, fun _ hMem => absurd hMem List.not_mem_nil⟩

/-- A file of two bytes is read to its end and then unzipped: the read-ahead is empty again, so that
the codec is accepted, and the two bytes are not among those it sees. -/
theorem codecs_first_spent :
    ¬ States step AllFirst
      (World.start .byteStream 0 [.chunk [0x1F, 0x8B] (List.cons_ne_nil _ _)])
      [(0, .read .read), (0, .codecWrap "gunzip" (.ok ()) [])] := by
  rintro ⟨-, hRead⟩
  obtain ⟨-, hWrap⟩ := hRead _ rfl
  have hFirst := hWrap _ rfl ⟨.read, [0x1F, 0x8B], []⟩ (by decide)
  exact absurd hFirst (List.cons_ne_nil _ _)

end Quoin.Streams.Codecs
