import Mathlib
import Quoin.Http.SizeLines

/-!
# Quoin — what draining a body comes to

On a stream that does not fail a body comes out whole if its encoding is there
(`chunkedLoop_whole`, `lengthLoop_live`). Where the encoding is cut off the
framing ends in an error, but for a chunked body that is cut off in the last
chunk's line or in the trailers, or in a size line of which only zeros have come
(`Silent`): what follows a size of zero is skipped, and the end of the stream
ends that.

## Results

* `nextChunk_whole`, `nextChunk_cut`, `nextChunk_last` — the chunk that comes next,
  whole or cut off.
* `chunkedLoop_whole`, `chunkedLoop_cut` — a chunked body, whole or cut off.
* `lengthLoop_live` — a body with a length.
-/

namespace Quoin.Http.Bodies

open Trans Streams Streams.Source

/-! ## Reading off the stream -/

namespace Reading

variable {α β : Type} {m : Reading α} {f : α → Reading β} {s s' : Source}

theorem bind_ok {a : α} (h : m s = (.ok a, s')) : (m >>= f) s = f a s' := by
  show andThen m f s = _
  rw [andThen, h]

theorem bind_error {e : Error} (h : m s = (.error e, s')) : (m >>= f) s = (.error e, s') := by
  show andThen m f s = _
  rw [andThen, h]

/-- What has come to an end did so part by part. -/
theorem of_bind_ok {b : β} (h : (m >>= f) s = (.ok b, s')) :
    ∃ a s₁, m s = (.ok a, s₁) ∧ f a s₁ = (.ok b, s') := by
  cases hFirst : m s with
  | mk answer s₁ =>
    cases answer with
    | ok a => exact ⟨a, s₁, rfl, (bind_ok hFirst).symm.trans h⟩
    | error e => cases (bind_error hFirst).symm.trans h

theorem lift_ok {e : Except Error α} {a : α} (h : e = .ok a) (s : Source) :
    lift e s = (.ok a, s) := by
  rw [h]
  rfl

theorem lift_error {r : Except Error α} {e : Error} (h : r = .error e) (s : Source) :
    lift r s = (.error e, s) := by
  rw [h]
  rfl

theorem of_lift_ok {e : Except Error α} {a : α} (h : lift e s = (.ok a, s')) :
    e = .ok a ∧ s' = s := by
  cases e with
  | error e => cases h
  | ok b =>
    cases h
    exact ⟨rfl, rfl⟩

theorem bytes_ok {read : Source → Outcome} {b : Bytes} :
    bytes read s = (.ok b, s') ↔ read s = (.ok (.bytes b), s') := by
  unfold bytes
  generalize read s = outcome
  obtain ⟨answer, s₁⟩ := outcome
  cases answer with
  | error e => simp
  | ok v => cases v <;> simp

theorem bytes_error {read : Source → Outcome} {e : ReadError} (h : read s = (.error e, s')) :
    bytes read s = (.error (.raised e), s') := by
  rw [bytes, h]

end Reading

/-- An open stream that does not fail. -/
structure Live (s : Source) : Prop where
  isOpen : s.closed = false
  unfailing : Unfailing s.reads

section Reads

variable {s s' : Source} {b line more : Bytes} {n : Int}

/-- The bytes of an answer are taken off the stream. -/
theorem took_of_bytes (op : Op) (hPeek : ∀ n, op ≠ .peek n)
    (h : perform .byteStream op s = (.ok (.bytes b), s')) : Took b s s' := by
  obtain ⟨taken, hTook, hAnswer⟩ := accounted_perform .byteStream op s
  rw [h] at hTook hAnswer
  rcases hAnswer with hReturned | hRefused
  · cases hReturned with
    | bytes => exact hTook
    | peeked => exact absurd rfl (hPeek _)
  · cases hRefused

theorem Live.of_took (h : Live s) (hTook : Took b s s') : Live s' := by
  obtain ⟨done, hReads, -⟩ := hTook.reads
  refine ⟨hTook.closed.trans h.isOpen, fun kind message hMem => h.unfailing kind message ?_⟩
  rw [hReads]
  exact List.mem_append_right _ hMem

/-- Where a line of the bytes ends, or they do. -/
def lineStop (bs : Bytes) : Nat := (findSubsequence CRLF bs).getD bs.length

/-- What is answered is a line, or all there is, also where other reads fail. -/
theorem readUntil_rest (h : ByteStream.readUntil CRLF s = (.ok (.bytes b), s')) :
    b = s.rest.take (lineStop s.rest) ∧ s'.rest = s.rest.drop (lineStop s.rest) := by
  have hNe : CRLF ≠ [] := List.cons_ne_nil _ _
  rw [ByteStream.readUntil, if_neg hNe, whenOpen] at h
  split_ifs at h with hClosed
  case pos => cases h
  revert h
  refine fillUntil_elim (findSubsequence CRLF) s ?_ ?_ ?_
  · rintro stop s₁ hTook hFound h
    have hLe := findSubsequence_le hFound
    have hRest := findSubsequence_mono hFound (rbuf_prefix_rest s₁)
    cases h
    rw [lineStop, hTook.rest_eq, hRest, Option.getD_some, take_rest hLe]
    exact ⟨rfl, by rw [rest, rest, List.drop_append_of_le_length hLe]⟩
  · rintro s₁ hTook hEof hNone h
    cases h
    rw [lineStop, hTook.rest_eq, rest_of_eof hEof, hNone, Option.getD_none, List.take_length,
      List.drop_length]
    exact ⟨rfl, by rw [rest, hEof]; simp [bytesOf]⟩
  · rintro kind message s₁ hTook - h
    cases h

theorem readN_length (h : ByteStream.readN n s = (.ok (.bytes b), s')) : b.length ≤ n.toNat := by
  rw [ByteStream.readN, whenOpen] at h
  split_ifs at h with hClosed hEmpty
  · cases h
  · revert h
    refine fillOnce_elim s ?_ ?_
    · rintro eof s₁ - h
      cases h
      exact List.length_take_le _ _
    · rintro e s₁ - h
      cases h
  · cases h
    exact List.length_take_le _ _

/-- A read of a live stream gets something, unless there is nothing. -/
theorem readN_live (h : Live s) (hPos : 0 < n) :
    ∃ b s', ByteStream.readN n s = (.ok (.bytes b), s') ∧ (b = [] → s.rest = []) := by
  have hSome : ∀ {buf : Bytes}, buf.take n.toNat = [] → buf = [] := by
    intro buf hTake
    rcases List.take_eq_nil_iff.mp hTake with hZero | hNil
    · omega
    · exact hNil
  rw [ByteStream.readN, whenOpen, h.isOpen, if_neg Bool.false_ne_true]
  split_ifs with hEmpty
  · have hRbuf : s.rbuf = [] := List.length_eq_zero_iff.mp hEmpty
    cases hReads : s.reads with
    | nil =>
      rw [fillOnce, hReads]
      refine ⟨_, _, rfl, fun _ => ?_⟩
      rw [rest, hRbuf, hReads]
      rfl
    | cons r reads =>
      cases r with
      | failed kind message =>
        exact absurd (hReads ▸ List.mem_cons_self) (h.unfailing kind message)
      | chunk bytes hNe =>
        rw [fillOnce, hReads]
        refine ⟨_, _, rfl, fun hTake => ?_⟩
        have hBytes := hSome hTake
        rw [hRbuf] at hBytes
        exact absurd hBytes hNe
  · refine ⟨_, _, rfl, fun hTake => ?_⟩
    exact absurd (by rw [hSome hTake]; rfl) hEmpty

/-- On a live stream the bytes at hand are answered. -/
theorem perform_live (h : Live s) (op : Op) (hSteady : op.Steady)
    (hAnswer : Plain.perform .byteStream op false s.rest = (.ok (.bytes b), more)) :
    ∃ s', perform .byteStream op s = (.ok (.bytes b), s') := by
  have hPlain := perform_plain .byteStream hSteady h.unfailing
  rw [h.isOpen, hAnswer] at hPlain
  have hFirst : (perform .byteStream op s).1 = .ok (.bytes b) := congrArg Prod.fst hPlain
  exact ⟨_, Prod.ext hFirst rfl⟩

theorem readUntil_live (h : Live s) : ∃ s',
    Reading.bytes (ByteStream.readUntil CRLF) s = (.ok (s.rest.take (lineStop s.rest)), s') ∧
      s'.rest = s.rest.drop (lineStop s.rest) ∧ Live s' := by
  have hNe : CRLF ≠ [] := List.cons_ne_nil _ _
  obtain ⟨b, more, hAnswer⟩ : ∃ b more,
      Plain.perform .byteStream (.readUntil CRLF) false s.rest = (.ok (.bytes b), more) := by
    show ∃ b more, Plain.readUntil CRLF false s.rest = _
    rw [Plain.readUntil, if_neg hNe, Plain.whenOpen, if_neg Bool.false_ne_true]
    cases findSubsequence CRLF s.rest with
    | none => exact ⟨_, _, rfl⟩
    | some stop => exact ⟨_, _, rfl⟩
  obtain ⟨s', hRead⟩ := perform_live h (.readUntil CRLF) trivial hAnswer
  have hTook := took_of_bytes _ (fun n => by simp) hRead
  obtain ⟨rfl, hRest⟩ := readUntil_rest hRead
  exact ⟨s', Reading.bytes_ok.mpr hRead, hRest, h.of_took hTook⟩

theorem readExactly_live (h : Live s) (hRest : s.rest = b ++ more) (hLength : b.length = n.toNat) :
    ∃ s', Reading.bytes (ByteStream.readExactly n) s = (.ok b, s') ∧ s'.rest = more ∧ Live s' := by
  have hAnswer : Plain.perform .byteStream (.readExactly n) false s.rest =
      (.ok (.bytes b), more) := by
    show Plain.readExactly n.toNat false s.rest = _
    rw [Plain.readExactly, Plain.whenOpen, if_neg Bool.false_ne_true, if_neg, hRest, ← hLength,
      List.take_left, List.drop_left]
    rw [hRest, List.length_append]
    omega
  obtain ⟨s', hRead⟩ := perform_live h (.readExactly n) trivial hAnswer
  have hTook := took_of_bytes _ (fun n => by simp) hRead
  refine ⟨s', Reading.bytes_ok.mpr hRead, ?_, h.of_took hTook⟩
  exact List.append_cancel_left (hTook.rest.symm.trans hRest)

theorem readExactly_short (h : Live s) (hShort : s.rest.length < n.toNat) :
    ∃ e s', Reading.bytes (ByteStream.readExactly n) s = (.error e, s') := by
  have hPlain := @perform_plain s .byteStream (.readExactly n) trivial h.unfailing
  have hAnswer : (ByteStream.readExactly n s).1 = .error (ByteStream.eofError n.toNat) := by
    have hFirst := congrArg Prod.fst hPlain
    rw [h.isOpen] at hFirst
    refine hFirst.trans ?_
    show (Plain.readExactly n.toNat false s.rest).1 = _
    rw [Plain.readExactly, Plain.whenOpen, if_neg Bool.false_ne_true, if_pos hShort]
  exact ⟨_, _, Reading.bytes_error (Prod.ext hAnswer rfl)⟩

end Reads

/-! ## One chunk -/

/-- The extensions are text. -/
def SizeLine.Utf8 (l : SizeLine) : Prop := fromUtf8 l.exts = .ok ()

/-- There is room for a chunk: in an Integer, and under the ceiling. -/
def Room (max : Option Int) (got : Int) (size : Nat) : Prop :=
  got + size < 2 ^ 63 ∧ ∀ m ∈ max, got + size ≤ m

section Chunks

variable {max : Option Int} {got got' size : Int} {s s' s₁ : Source}
  {rawLine data more p : Bytes} {exts : List Extension} {e : Error} {c : SizedChunk} {l : SizeLine}

theorem underCeiling_eq (hGot : -2 ^ 63 ≤ got + size) :
    (got + size < 2 ^ 63 ∧ (∀ m ∈ max, got + size ≤ m) →
        underCeiling max got size = .ok (got + size)) ∧
      (¬ (got + size < 2 ^ 63 ∧ ∀ m ∈ max, got + size ≤ m) →
        ∃ e, underCeiling max got size = .error e) := by
  by_cases hRange : got + size < 2 ^ 63
  · have hAdd : add got size = .ok (got + size) := by
      rw [add, inI64, if_pos ⟨hGot, hRange⟩]
    unfold underCeiling
    rw [hAdd]
    cases max with
    | none => exact ⟨fun _ => rfl, fun h => absurd ⟨hRange, fun m hm => by cases hm⟩ h⟩
    | some m =>
      constructor
      · rintro ⟨-, hRoom⟩
        show (if m < got + size then _ else _) = _
        rw [if_neg (not_lt.mpr (hRoom m rfl))]
        rfl
      · intro hNot
        have hOver : m < got + size := by
          by_contra hFits
          refine hNot ⟨hRange, fun m' hm' => ?_⟩
          obtain rfl := Option.some.inj hm'
          omega
        refine ⟨tooLargeError m, ?_⟩
        show (if m < got + size then _ else _) = _
        rw [if_pos hOver]
        rfl
  · refine ⟨fun h => absurd h.1 hRange, fun _ => ⟨.overflow, ?_⟩⟩
    have hAdd : add got size = .error .overflow := by
      rw [add, inI64, if_neg fun h => hRange h.2]
    rw [underCeiling, hAdd]
    rfl

theorem nextChunk_of_lineError (max : Option Int) (got : Int)
    (hLine : Reading.bytes (ByteStream.readUntil CRLF) s = (.ok rawLine, s₁))
    (hSize : sizeLine rawLine = .error e) : nextChunk max got s = (.error e, s₁) := by
  rw [nextChunk, Reading.bind_ok hLine]
  exact Reading.bind_error (Reading.lift_error hSize s₁)

theorem nextChunk_of_zero (max : Option Int) (got : Int)
    (hLine : Reading.bytes (ByteStream.readUntil CRLF) s = (.ok rawLine, s₁))
    (hSize : sizeLine rawLine = .ok (0, exts)) : nextChunk max got s = (.ok none, s₁) := by
  rw [nextChunk, Reading.bind_ok hLine, Reading.bind_ok (Reading.lift_ok hSize s₁)]
  rfl

/-- What is read once the size is. -/
def readChunk (max : Option Int) (got size : Int) (exts : List Extension) :
    Reading (Option (Chunk × Int)) := do
  let got ← Reading.lift (underCeiling max got size)
  let data ← Reading.bytes (ByteStream.readExactly size)
  let _ ← Reading.bytes (ByteStream.readExactly 2)
  pure (some (⟨data, exts⟩, got))

theorem nextChunk_of_size (max : Option Int) (got : Int)
    (hLine : Reading.bytes (ByteStream.readUntil CRLF) s = (.ok rawLine, s₁))
    (hSize : sizeLine rawLine = .ok (size, exts)) (hNe : size ≠ 0) :
    nextChunk max got s = readChunk max got size exts s₁ := by
  rw [nextChunk, Reading.bind_ok hLine, Reading.bind_ok (Reading.lift_ok hSize s₁)]
  dsimp only
  rw [if_neg hNe]
  rfl

theorem readChunk_error (hRoom : underCeiling max got size = .error e) :
    readChunk max got size exts s = (.error e, s) :=
  Reading.bind_error (Reading.lift_error hRoom s)

/-- The chunk is there, with two bytes after it. -/
theorem readChunk_whole (exts : List Extension) (hLive : Live s)
    (hRoom : underCeiling max got size = .ok got') (hRest : s.rest = data ++ (CRLF ++ more))
    (hLength : data.length = size.toNat) :
    ∃ s', readChunk max got size exts s = (.ok (some (⟨data, exts⟩, got')), s') ∧
      s'.rest = more ∧ Live s' := by
  obtain ⟨s₁, hData, hRest₁, hLive₁⟩ := readExactly_live hLive hRest hLength
  obtain ⟨s₂, hEnd, hRest₂, hLive₂⟩ := readExactly_live (n := 2) hLive₁ hRest₁ rfl
  refine ⟨s₂, ?_, hRest₂, hLive₂⟩
  rw [readChunk, Reading.bind_ok (Reading.lift_ok hRoom s), Reading.bind_ok hData,
    Reading.bind_ok hEnd]
  rfl

/-- The stream ends within the chunk or the two bytes after it. -/
theorem readChunk_cut (hLive : Live s) (hShort : s.rest.length < size.toNat + 2) :
    ∃ e s', readChunk max got size exts s = (.error e, s') := by
  cases hRoom : underCeiling max got size with
  | error e => exact ⟨e, s, readChunk_error hRoom⟩
  | ok got' =>
    by_cases hData : s.rest.length < size.toNat
    · obtain ⟨e, s₁, hRead⟩ := readExactly_short hLive hData
      refine ⟨e, s₁, ?_⟩
      rw [readChunk, Reading.bind_ok (Reading.lift_ok hRoom s)]
      exact Reading.bind_error hRead
    · have hSplit : s.rest = s.rest.take size.toNat ++ s.rest.drop size.toNat :=
        (List.take_append_drop _ _).symm
      obtain ⟨s₁, hRead, hRest₁, hLive₁⟩ := readExactly_live (n := size) hLive hSplit (by
        rw [List.length_take]
        omega)
      obtain ⟨e, s₂, hEnd⟩ := readExactly_short (n := 2) hLive₁ (by
        rw [hRest₁, List.length_drop]
        show _ < 2
        omega)
      refine ⟨e, s₂, ?_⟩
      rw [readChunk, Reading.bind_ok (Reading.lift_ok hRoom s), Reading.bind_ok hRead]
      exact Reading.bind_error hEnd

/-- Where the bytes go on as a line does, what is read is the line or what has come of it. -/
theorem lineStop_part (l : SizeLine) (hPart : p <+: l.text ++ (CRLF ++ more)) :
    p.take (lineStop p) = p.take (l.text.length + 2) ∧
      p.drop (lineStop p) = p.drop (l.text.length + 2) := by
  by_cases hWhole : l.text ++ CRLF <+: p
  · obtain ⟨after, rfl⟩ := hWhole
    have hStop := findSubsequence_line l.oneLine after
    rw [lineStop, List.append_assoc, hStop]
    exact ⟨rfl, rfl⟩
  · have hShort : p.length < l.text.length + 2 := by
      by_contra hLong
      refine hWhole (List.prefix_of_prefix_length_le ?_ hPart ?_)
      · rw [← List.append_assoc]
        exact List.prefix_append _ _
      · simp only [List.length_append, CRLF, List.length_cons, List.length_nil]
        omega
    have hLine : OneLine p := by
      refine (oneLine_concat_cr l.oneLine).within (List.IsPrefix.isInfix ?_)
      refine List.prefix_of_prefix_length_le hPart (?_ : l.text ++ [0x0D] <+: _) ?_
      · simp [CRLF]
      · rw [List.length_append, List.length_singleton]
        omega
    rw [lineStop, findSubsequence_oneLine hLine, Option.getD_none]
    constructor
    · rw [List.take_length, List.take_of_length_le hShort.le]
    · rw [List.drop_length, List.drop_eq_nil_of_le hShort.le]

theorem take_line (l : SizeLine) (hNe : p ≠ []) (hPart : p <+: l.text ++ (CRLF ++ more)) :
    p.take (l.text.length + 2) ≠ [] ∧ p.take (l.text.length + 2) <+: l.text ++ CRLF := by
  constructor
  · intro hNil
    rcases List.take_eq_nil_iff.mp hNil with hZero | hNil
    · omega
    · exact hNe hNil
  · have hTake := hPart.take (l.text.length + 2)
    have hLength : l.text.length + 2 = (l.text ++ CRLF).length :=
      (@List.length_append _ l.text CRLF).symm
    rw [← List.append_assoc, hLength, List.take_left] at hTake
    rwa [hLength]

/-- A size line is read, or what has come of it. -/
theorem readUntil_line (l : SizeLine) (more : Bytes) (hLive : Live s)
    (hPart : s.rest <+: l.text ++ (CRLF ++ more)) :
    ∃ s₁, Reading.bytes (ByteStream.readUntil CRLF) s =
        (.ok (s.rest.take (l.text.length + 2)), s₁) ∧
      s₁.rest = s.rest.drop (l.text.length + 2) ∧ Live s₁ := by
  obtain ⟨s₁, hRead, hRest, hLive₁⟩ := readUntil_live hLive
  obtain ⟨hTake, hDrop⟩ := lineStop_part l hPart
  exact ⟨s₁, hTake ▸ hRead, hDrop ▸ hRest, hLive₁⟩

/-- The framing has read the last chunk's line. -/
def Ends (s : Source) (r : Except Error (Option (Chunk × Int)) × Source) : Prop :=
  ∃ s', r = (.ok none, s') ∧ Live s' ∧ s'.rest.length < s.rest.length

def Fails {α : Type} (r : Except Error α × Source) : Prop := ∃ e s', r = (.error e, s')

/-- A chunk that is there is yielded, where there is room and its line is text. -/
theorem nextChunk_whole (max : Option Int) (hLive : Live s) (hGot : 0 ≤ got)
    (hRest : s.rest = c.wire ++ more) :
    (c.line.Utf8 ∧ Room max got c.data.length →
        ∃ exts s', nextChunk max got s =
            (.ok (some (⟨c.data, exts⟩, got + c.data.length)), s') ∧
          s'.rest = more ∧ Live s') ∧
      (¬ (c.line.Utf8 ∧ Room max got c.data.length) → Fails (nextChunk max got s)) := by
  have hWire : s.rest = (c.line.text ++ CRLF) ++ (c.data ++ (CRLF ++ more)) := by
    rw [hRest, SizedChunk.wire]
    simp only [List.append_assoc]
  have hLength : (c.line.text ++ CRLF).length = c.line.text.length + 2 := List.length_append
  -- the size line is read to its end
  obtain ⟨s₁, hRead, hRest₁, hLive₁⟩ :=
    readUntil_line c.line (c.data ++ (CRLF ++ more)) hLive (by
      rw [hWire, List.append_assoc])
  rw [hWire, ← hLength, List.take_left] at hRead
  rw [hWire, ← hLength, List.drop_left] at hRest₁
  obtain ⟨digits, hDigits, -, hAll, hOk, hErr⟩ := sizeLine_part (l := c.line)
    (p := c.line.text ++ CRLF) (by simp [CRLF]) List.prefix_rfl
  -- the digits that were read are all of them, as the line is there as a whole
  obtain rfl : digits = c.line.digits := by
    rcases hAll with hEq | rfl
    · exact hEq
    · have hLe := hDigits.length_le
      rw [hLength, SizeLine.text, List.length_append, List.length_append] at hLe
      omega
  rw [utf8_line, c.size] at hOk hErr
  -- the line can be read exactly if it is UTF-8 and its size an Integer
  by_cases hSize : c.line.Utf8 ∧ c.data.length < 2 ^ 63
  · obtain ⟨exts, hSizeLine⟩ := hOk hSize
    have hPos : 0 < c.data.length := List.length_pos_iff.mpr c.data_ne
    have hNext := nextChunk_of_size max got hRead hSizeLine (by omega)
    obtain ⟨hFits, hOver⟩ := @underCeiling_eq max got c.data.length (by omega)
    constructor
    · -- under the ceiling: the data and its line end follow
      rintro ⟨-, hRoom⟩
      obtain ⟨s₂, hChunk, hRest₂, hLive₂⟩ :=
        readChunk_whole exts hLive₁ (hFits hRoom) hRest₁ rfl
      exact ⟨exts, s₂, hNext.trans hChunk, hRest₂, hLive₂⟩
    · intro hNot
      obtain ⟨e, hError⟩ := hOver fun hRoom => hNot ⟨hSize.1, hRoom⟩
      exact ⟨e, s₁, hNext.trans (readChunk_error hError)⟩
  · obtain ⟨e, hError⟩ := hErr hSize
    have hFails := nextChunk_of_lineError max got hRead hError
    refine ⟨fun hBoth => absurd ⟨hBoth.1, ?_⟩ hSize, fun _ => ⟨e, s₁, hFails⟩⟩
    have hInteger := hBoth.2.1
    omega

theorem nextChunk_nothing (hLive : Live s) (hEmpty : s.rest = []) :
    Fails (nextChunk max got s) := by
  obtain ⟨s₁, hRead, -, -⟩ := readUntil_live hLive
  rw [hEmpty, List.take_nil] at hRead
  exact ⟨sizeLineError, s₁, nextChunk_of_lineError max got hRead rfl⟩

/-- A chunk that is cut off is an error, but where only zeros of its size have come. -/
theorem nextChunk_cut (max : Option Int) (got : Int) (hLive : Live s)
    (hPart : s.rest <+: c.wire) (hCut : s.rest ≠ c.wire) :
    (s.rest ≠ [] ∧ s.rest <+: c.line.digits ∧ hexValue s.rest = 0 →
        Ends s (nextChunk max got s)) ∧
      (¬ (s.rest ≠ [] ∧ s.rest <+: c.line.digits ∧ hexValue s.rest = 0) →
        Fails (nextChunk max got s)) := by
  by_cases hNe : s.rest = []
  · exact ⟨fun h => absurd hNe h.1, fun _ => nextChunk_nothing hLive hNe⟩
  -- what has come is shorter than the chunk
  have hLength : s.rest.length < c.line.text.length + 2 + (c.data.length + 2) := by
    have hLt := hPart.length_le.lt_of_ne fun hEq => hCut (hPart.eq_of_length hEq)
    simpa only [SizedChunk.wire, List.length_append, CRLF, List.length_cons, List.length_nil]
      using hLt
  have hPart' : s.rest <+: c.line.text ++ (CRLF ++ (c.data ++ CRLF)) := by
    rwa [SizedChunk.wire, List.append_assoc] at hPart
  obtain ⟨s₁, hRead, hRest₁, hLive₁⟩ := readUntil_line c.line _ hLive hPart'
  have hShort : s₁.rest.length < c.data.length + 2 := by
    rw [hRest₁, List.length_drop]
    omega
  obtain ⟨hRawNe, hRaw⟩ := take_line c.line hNe hPart'
  -- the line that has come begins with digits, all of them or a part
  obtain ⟨digits, hDigits, hFront, hAll, hOk, hErr⟩ := sizeLine_part hRawNe hRaw
  have hPos : 0 < c.data.length := List.length_pos_iff.mpr c.data_ne
  by_cases hZero : s.rest <+: c.line.digits ∧ hexValue s.rest = 0
  · -- only zeros: the size is read as zero
    have hText : c.line.digits.length ≤ c.line.text.length := by
      rw [SizeLine.text, List.append_assoc, List.length_append]
      omega
    have hWhole : s.rest.take (c.line.text.length + 2) = s.rest :=
      List.take_of_length_le (by have := hZero.1.length_le; omega)
    rw [hWhole] at hRead hOk hFront hAll
    have hEq : digits = s.rest := by
      rcases hAll with rfl | hEq
      · exact (hFront.eq_of_length (le_antisymm hFront.length_le hZero.1.length_le))
      · exact hEq
    subst hEq
    obtain ⟨exts, hSizeLine⟩ := hOk
      ⟨utf8_digits fun b hMem => c.line.digits_hex b (hZero.1.subset hMem), by omega⟩
    rw [hZero.2] at hSizeLine
    refine ⟨fun _ => ⟨s₁, nextChunk_of_zero max got hRead hSizeLine, hLive₁, ?_⟩,
      fun hNot => absurd ⟨hNe, hZero⟩ hNot⟩
    rw [hRest₁, List.length_drop]
    have := List.length_pos_iff.mpr hNe
    omega
  · -- a size is read that is not zero, and its bytes are missing; or the line is no size
    refine ⟨fun h => absurd h.2 hZero, fun _ => ?_⟩
    by_cases hValid : fromUtf8 (s.rest.take (c.line.text.length + 2)) = .ok () ∧
        hexValue digits < 2 ^ 63
    · obtain ⟨exts, hSizeLine⟩ := hOk hValid
      have hSize : hexValue digits ≠ 0 ∧ s₁.rest.length < hexValue digits + 2 := by
        rcases hAll with rfl | rfl
        · rw [c.size]
          omega
        · -- nothing but digits has come
          have hText : c.line.digits.length ≤ c.line.text.length := by
            rw [SizeLine.text, List.append_assoc, List.length_append]
            omega
          have hLe := hDigits.length_le
          rw [List.length_take] at hLe
          have hWhole : s.rest.take (c.line.text.length + 2) = s.rest :=
            List.take_of_length_le (by omega)
          rw [hWhole] at hDigits ⊢
          refine ⟨fun hValue => hZero ⟨hDigits, hValue⟩, ?_⟩
          rw [hRest₁, List.length_drop]
          omega
      obtain ⟨e, s₂, hChunk⟩ := @readChunk_cut max got (hexValue digits) s₁ exts hLive₁ hSize.2
      exact ⟨e, s₂, (nextChunk_of_size max got hRead hSizeLine (by omega)).trans hChunk⟩
    · obtain ⟨e, hError⟩ := hErr hValid
      exact ⟨e, s₁, nextChunk_of_lineError max got hRead hError⟩

/-- The last chunk's line, or what has come of it, ends the chunks if it is text. -/
theorem nextChunk_last (max : Option Int) (got : Int) (l : SizeLine)
    (hZero : hexValue l.digits = 0) (hLive : Live s) (hNe : s.rest ≠ [])
    (hPart : s.rest <+: l.text ++ (CRLF ++ more)) :
    (fromUtf8 (s.rest.take (l.text.length + 2)) = .ok () → Ends s (nextChunk max got s)) ∧
      (fromUtf8 (s.rest.take (l.text.length + 2)) ≠ .ok () → Fails (nextChunk max got s)) := by
  obtain ⟨s₁, hRead, hRest₁, hLive₁⟩ := readUntil_line l _ hLive hPart
  obtain ⟨hRawNe, hRaw⟩ := take_line l hNe hPart
  obtain ⟨digits, hDigits, -, -, hOk, hErr⟩ := sizeLine_part hRawNe hRaw
  have hValue : hexValue digits = 0 := by
    have hLe := hexValue_front_le hDigits
    omega
  rw [hValue] at hOk hErr
  constructor
  · intro hUtf8
    obtain ⟨exts, hSizeLine⟩ := hOk ⟨hUtf8, by omega⟩
    refine ⟨s₁, nextChunk_of_zero max got hRead hSizeLine, hLive₁, ?_⟩
    rw [hRest₁, List.length_drop]
    have := List.length_pos_iff.mpr hNe
    omega
  · intro hUtf8
    obtain ⟨e, hError⟩ := hErr fun h => hUtf8 h.1
    exact ⟨e, s₁, nextChunk_of_lineError max got hRead hError⟩

end Chunks

/-! ## Chunked bodies -/

/-- The lines are text, and the sizes add up to an Integer. -/
def Readable (got : Int) (chunks : List SizedChunk) (last : SizeLine) : Prop :=
  (∀ c ∈ chunks, c.line.Utf8) ∧ last.Utf8 ∧
    got + (chunks.flatMap SizedChunk.data).length < 2 ^ 63

/-- The bytes end in the last chunk's line, which is text so far, or in the trailers, or in a size
line of which only zeros have come; and up to there nothing is wrong. -/
def Silent (max : Option Int) (last : SizeLine) : Int → List SizedChunk → Bytes → Prop
  | _, [], p => p ≠ [] ∧ fromUtf8 (p.take (last.text.length + 2)) = .ok ()
  | got, c :: chunks, p =>
    if c.wire <+: p then
      c.line.Utf8 ∧ Room max got c.data.length ∧
        Silent max last (got + c.data.length) chunks (p.drop c.wire.length)
    else p ≠ [] ∧ p <+: c.line.digits ∧ hexValue p = 0

section Loop

variable {max : Option Int} {fuel : Nat} {got got' : Int} {s s' : Source} {chunk : Chunk}
  {l : SizeLine} {more rest : Bytes} {chunks : List SizedChunk}

/-- Whatever lines there are, they are skipped. -/
theorem skipTrailers_live (hLive : Live s) (hFuel : s.rest.length < fuel) :
    (skipTrailers fuel s).1 = some (.ok ()) := by
  induction fuel generalizing s with
  | zero => omega
  | succ fuel ih =>
    obtain ⟨s₁, hRead, hRest, hLive₁⟩ := readUntil_live hLive
    rw [skipTrailers, hRead]
    dsimp only
    split_ifs with hShort
    · rfl
    · refine ih hLive₁ ?_
      rw [List.length_take] at hShort
      rw [hRest, List.length_drop]
      omega

theorem chunkedLoop_next (h : nextChunk max got s = (.ok (some (chunk, got')), s')) :
    chunkedLoop max (fuel + 1) got s = (chunkedLoop max fuel got' s').after chunk := by
  rw [chunkedLoop, h]

theorem chunkedLoop_ends (hFuel : s.rest.length < fuel + 1) (h : Ends s (nextChunk max got s)) :
    (chunkedLoop max (fuel + 1) got s).ended = some (.ok ()) ∧
      (chunkedLoop max (fuel + 1) got s).data = [] := by
  obtain ⟨s', hNext, hLive, hLess⟩ := h
  rw [chunkedLoop, hNext]
  exact ⟨skipTrailers_live hLive (by omega), rfl⟩

theorem chunkedLoop_fails (h : Fails (nextChunk max got s)) :
    ∃ e, (chunkedLoop max (fuel + 1) got s).ended = some (.error e) := by
  obtain ⟨e, s', hNext⟩ := h
  rw [chunkedLoop, hNext]
  exact ⟨e, rfl⟩

theorem data_after (c : Chunk) (p : Pulled) : (p.after c).data = c.data ++ p.data := rfl

/-- **A chunked body that is there comes out whole**, if it is readable. -/
theorem chunkedLoop_whole (hZero : hexValue l.digits = 0) (hLive : Live s) (hGot : 0 ≤ got)
    (hInteger : got < 2 ^ 63) (hFuel : s.rest.length < fuel)
    (hRest : s.rest = chunks.flatMap SizedChunk.wire ++ (l.text ++ (CRLF ++ more)))
    (hMax : ∀ m ∈ max, got + (chunks.flatMap SizedChunk.data).length ≤ m) :
    (Readable got chunks l →
        (chunkedLoop max fuel got s).ended = some (.ok ()) ∧
          (chunkedLoop max fuel got s).data = chunks.flatMap SizedChunk.data) ∧
      (¬ Readable got chunks l → ∃ e, (chunkedLoop max fuel got s).ended = some (.error e)) := by
  -- on the chunks that are still to come
  induction chunks generalizing fuel got s with
  | nil =>
    obtain ⟨fuel, rfl⟩ : ∃ n, fuel = n + 1 := ⟨fuel - 1, by omega⟩
    rw [List.flatMap_nil, List.nil_append] at hRest
    have hNe : s.rest ≠ [] := by simp [hRest, CRLF]
    have hPart : s.rest <+: l.text ++ (CRLF ++ more) := by rw [hRest]
    -- only the last chunk's line is left
    have hLine : s.rest.take (l.text.length + 2) = l.text ++ CRLF := by
      rw [hRest, List.take_length_add_append]
      rfl
    obtain ⟨hEnds, hFails⟩ := nextChunk_last max got l hZero hLive hNe hPart
    rw [hLine, ne_eq, utf8_line] at hFails
    rw [hLine, utf8_line] at hEnds
    constructor
    · rintro ⟨-, hUtf8, -⟩
      exact chunkedLoop_ends hFuel (hEnds hUtf8)
    · intro hNot
      refine chunkedLoop_fails (hFails fun hUtf8 => hNot ⟨?_, hUtf8, ?_⟩)
      · exact fun c hMem => by cases hMem
      · simpa using hInteger
  | cons c chunks ih =>
    obtain ⟨fuel, rfl⟩ : ∃ n, fuel = n + 1 := ⟨fuel - 1, by omega⟩
    rw [List.flatMap_cons, List.append_assoc] at hRest
    simp only [List.flatMap_cons, List.length_append, Nat.cast_add, ← add_assoc] at hMax
    obtain ⟨hNext, hFails⟩ := nextChunk_whole max hLive hGot hRest
    by_cases hStep : c.line.Utf8 ∧ Room max got c.data.length
    · -- the next chunk is read, and its bytes are counted
      obtain ⟨exts, s₁, hChunk, hRest₁, hLive₁⟩ := hNext hStep
      have hLess : s₁.rest.length < fuel := by
        rw [hRest₁]
        rw [hRest, List.length_append, SizedChunk.wire] at hFuel
        simp only [List.length_append, CRLF, List.length_cons, List.length_nil] at hFuel ⊢
        omega
      obtain ⟨hWhole, hError⟩ := ih hLive₁ (by omega) hStep.2.1 hLess hRest₁ hMax
      have hReadable : Readable got (c :: chunks) l ↔ Readable (got + c.data.length) chunks l := by
        simp only [Readable, List.forall_mem_cons, List.flatMap_cons, List.length_append,
          Nat.cast_add, ← add_assoc, hStep.1, true_and]
      rw [chunkedLoop_next hChunk, hReadable]
      refine ⟨fun h => ⟨(hWhole h).1, ?_⟩, hError⟩
      rw [data_after, (hWhole h).2, List.flatMap_cons]
    · -- its line is not text, or the count does not fit: both are errors
      refine ⟨fun hReadable => absurd ⟨?_, ?_, ?_⟩ hStep, fun _ => chunkedLoop_fails (hFails hStep)⟩
      · exact hReadable.1 c List.mem_cons_self
      · have hSum := hReadable.2.2
        rw [List.flatMap_cons, List.length_append] at hSum
        push_cast at hSum
        omega
      · intro m hm
        have hSum := hMax m hm
        omega

/-- **A chunked body that is cut off is an error**, but where it is cut off silently. -/
theorem chunkedLoop_cut (max : Option Int) (hZero : hexValue l.digits = 0) (hLive : Live s)
    (hGot : 0 ≤ got) (hFuel : s.rest.length < fuel)
    (hPart : s.rest <+: chunks.flatMap SizedChunk.wire ++ (l.text ++ (CRLF ++ more)))
    (hCut : s.rest ≠ chunks.flatMap SizedChunk.wire ++ (l.text ++ (CRLF ++ more))) :
    (Silent max l got chunks s.rest → (chunkedLoop max fuel got s).ended = some (.ok ())) ∧
      (¬ Silent max l got chunks s.rest →
        ∃ e, (chunkedLoop max fuel got s).ended = some (.error e)) := by
  induction chunks generalizing fuel got s with
  | nil =>
    obtain ⟨fuel, rfl⟩ : ∃ n, fuel = n + 1 := ⟨fuel - 1, by omega⟩
    rw [List.flatMap_nil, List.nil_append] at hPart
    by_cases hNe : s.rest = []
    · exact ⟨fun h => absurd hNe h.1, fun _ => chunkedLoop_fails (nextChunk_nothing hLive hNe)⟩
    · obtain ⟨hEnds, hFails⟩ := nextChunk_last max got l hZero hLive hNe hPart
      refine ⟨fun h => (chunkedLoop_ends hFuel (hEnds h.2)).1, fun hNot => ?_⟩
      exact chunkedLoop_fails (hFails fun hUtf8 => hNot ⟨hNe, hUtf8⟩)
  | cons c chunks ih =>
    obtain ⟨fuel, rfl⟩ : ∃ n, fuel = n + 1 := ⟨fuel - 1, by omega⟩
    rw [List.flatMap_cons, List.append_assoc] at hPart hCut
    rw [Silent]
    -- the next chunk is whole, and what is cut off comes behind it
    split_ifs with hWire
    · obtain ⟨q, hq⟩ := hWire
      rw [← hq] at hPart hCut
      rw [← hq, List.drop_left]
      obtain ⟨hNext, hFails⟩ := nextChunk_whole max hLive hGot hq.symm
      by_cases hStep : c.line.Utf8 ∧ Room max got c.data.length
      · obtain ⟨exts, s₁, hChunk, hRest₁, hLive₁⟩ := hNext hStep
        have hLess : s₁.rest.length < fuel := by
          rw [hRest₁]
          rw [← hq, List.length_append, SizedChunk.wire] at hFuel
          simp only [List.length_append, CRLF, List.length_cons, List.length_nil] at hFuel
          omega
        have hPart₁ := (List.prefix_append_right_inj c.wire).mp hPart
        obtain ⟨hSilent, hError⟩ := @ih fuel (got + c.data.length) s₁ hLive₁ (by omega) hLess
          (hRest₁ ▸ hPart₁) (fun hEq => hCut (by rw [← hEq, hRest₁]))
        rw [hRest₁] at hSilent hError
        rw [chunkedLoop_next hChunk]
        refine ⟨fun h => hSilent h.2.2, fun hNot => hError fun h => hNot ⟨hStep.1, hStep.2, h⟩⟩
      · exact ⟨fun h => absurd ⟨h.1, h.2.1⟩ hStep, fun _ => chunkedLoop_fails (hFails hStep)⟩
    · -- the chunk itself is cut off
      have hWithin : s.rest <+: c.wire := by
        rcases List.prefix_or_prefix_of_prefix hPart (List.prefix_append _ _) with hShort | hLong
        · exact hShort
        · exact absurd hLong hWire
      obtain ⟨hEnds, hFails⟩ := nextChunk_cut max got hLive hWithin
        fun hEq => hWire (hEq ▸ List.prefix_rfl)
      exact ⟨fun h => (chunkedLoop_ends hFuel (hEnds h)).1, fun h => chunkedLoop_fails (hFails h)⟩

end Loop

/-! ## Bodies of a given length -/

section Length

variable {length remaining want : Int} {fuel : Nat} {s s' : Source} {data : Bytes}

/-- A read of a live stream: something, and no more than is wanted, where there is anything. -/
theorem readN_reading (want : Int) (hLive : Live s) (hPos : 0 < want) :
    ∃ data s', Reading.bytes (ByteStream.readN want) s = (.ok data, s') ∧ s.rest = data ++ s'.rest ∧
      data.length ≤ want.toNat ∧ (data = [] → s.rest = []) ∧ Live s' := by
  obtain ⟨data, s', hRead, hSome⟩ := readN_live hLive hPos
  have hTook := took_of_bytes (.readN want) (fun n => by simp) hRead
  exact ⟨data, s', Reading.bytes_ok.mpr hRead, hTook.rest, readN_length hRead, hSome,
    hLive.of_took hTook⟩

theorem lengthLoop_done (h : ¬ 0 < remaining) :
    lengthLoop length (fuel + 1) remaining s = ⟨[], some (.ok ()), s⟩ := by
  rw [lengthLoop, if_neg h]

theorem lengthLoop_next (hPos : 0 < remaining)
    (hRead : Reading.bytes (ByteStream.readN (if remaining < 8192 then remaining else 8192)) s =
      (.ok data, s')) (hNe : data ≠ []) :
    lengthLoop length (fuel + 1) remaining s =
      (lengthLoop length fuel (remaining - data.length) s').after ⟨data, []⟩ := by
  rw [lengthLoop, if_pos hPos]
  dsimp only
  rw [hRead]
  dsimp only
  rw [if_neg fun h => hNe (List.length_eq_zero_iff.mp h)]

/-- **A body of a given length comes out whole**, or is an error if the stream ends before. -/
theorem lengthLoop_live (length remaining : Int) (hLive : Live s) (hFuel : s.rest.length < fuel) :
    (remaining ≤ s.rest.length →
        (lengthLoop length fuel remaining s).ended = some (.ok ()) ∧
          (lengthLoop length fuel remaining s).data = s.rest.take remaining.toNat) ∧
      (s.rest.length < remaining →
        ∃ e, (lengthLoop length fuel remaining s).ended = some (.error e)) := by
  induction fuel generalizing remaining s with
  | zero => omega
  | succ fuel ih =>
    by_cases hPos : 0 < remaining
    · -- one read, and induction on what remains
      obtain ⟨data, s', hRead, hRest, hWant, hSome, hLive'⟩ := readN_reading
        (if remaining < 8192 then remaining else 8192) hLive (by split_ifs <;> omega)
      have hLe : (data.length : Int) ≤ remaining := by
        split_ifs at hWant <;> omega
      by_cases hNe : data = []
      · -- the stream has ended
        have hEmpty := hSome hNe
        refine ⟨fun hAll => ?_, fun _ => ?_⟩
        · rw [hEmpty, List.length_nil] at hAll
          omega
        · rw [lengthLoop, if_pos hPos]
          dsimp only
          rw [hRead]
          dsimp only
          rw [if_pos (List.length_eq_zero_iff.mpr hNe)]
          exact ⟨_, rfl⟩
      · have hLengths := congrArg List.length hRest
        rw [List.length_append] at hLengths
        have hData := List.length_pos_iff.mpr hNe
        obtain ⟨hWhole, hError⟩ := ih (remaining - data.length) hLive' (by omega)
        rw [lengthLoop_next hPos hRead hNe]
        constructor
        · intro hAll
          obtain ⟨hEnded, hRestData⟩ := hWhole (by omega)
          refine ⟨hEnded, ?_⟩
          have hTake : remaining.toNat = data.length + (remaining - data.length).toNat := by omega
          rw [data_after, hRestData, hRest, hTake, List.take_length_add_append]
        · exact fun hShort => hError (by omega)
    · -- a length of nothing, or below
      rw [lengthLoop_done hPos]
      refine ⟨fun _ => ⟨rfl, ?_⟩, fun hShort => by omega⟩
      rw [Int.toNat_eq_zero.mpr (by omega), List.take_zero]
      rfl

end Length

end Quoin.Http.Bodies
