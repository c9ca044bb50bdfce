import Mathlib
import Quoin.Http.Ceiling

/-!
# Quoin — the framing of HTTP bodies

A peer writes a body in chunks, or with its length. On a stream that holds the
encoding the drained body is the one that was written, and where the stream ends
before draining is an error (`Framed`), just if the size lines are text, the body
is no larger than an Integer, and the end does not come silently (`Sound`).

Whatever a stream holds, the framing ends (`pull_ends`), and yields no more than
the ceiling exactly if the body keeps to it (`Under`): a negative size may make
room for more, and a body that is not chunked is not compared with the ceiling.

## Results

* `framed_chunked`, `framed_length` — when a body comes out, or an error does.
* `pull_ends` — no stream keeps the framing from ending.
* `bodies_framed` — both, and what keeps a body under its ceiling.
* `bodies_framed_cut` — a chunked body cut off behind its last chunk's line is
  drained as if it were there, and a size of -2 lets five bytes through a ceiling
  of four.
-/

namespace Quoin.Http.Bodies

open Trans Streams Streams.Source

/-! ## The framing ends -/

section Ends

variable {max : Option Int} {got size : Int} {s s' : Source} {exts : List Extension}
  {next : Option (Chunk × Int)} {fuel : Nat}

theorem bytes_length {read : Source → Outcome} (op : Op) (hOp : perform .byteStream op = read)
    (hPeek : ∀ n, op ≠ .peek n) {data : Bytes} (h : Reading.bytes read s = (.ok data, s')) :
    s.rest.length = data.length + s'.rest.length := by
  subst hOp
  have hTook := took_of_bytes op hPeek (Reading.bytes_ok.mp h)
  exact (congrArg List.length hTook.rest).trans List.length_append

theorem readChunk_length (h : readChunk max got size exts s = (.ok next, s')) :
    s'.rest.length ≤ s.rest.length := by
  obtain ⟨got', s₁, hLift, hData⟩ := Reading.of_bind_ok h
  obtain ⟨-, rfl⟩ := Reading.of_lift_ok hLift
  obtain ⟨data, s₂, hRead, hEnd⟩ := Reading.of_bind_ok hData
  obtain ⟨crlf, s₃, hCrlf, hDone⟩ := Reading.of_bind_ok hEnd
  have hFirst := bytes_length (.readExactly size) rfl (fun n => by simp) hRead
  have hSecond := bytes_length (.readExactly 2) rfl (fun n => by simp) hCrlf
  cases hDone
  omega

/-- Where the framing goes on, a line was read that is not empty. -/
theorem nextChunk_length (h : nextChunk max got s = (.ok next, s')) :
    s'.rest.length < s.rest.length := by
  obtain ⟨rawLine, s₁, hRead, hLine⟩ := Reading.of_bind_ok h
  obtain ⟨⟨size, exts⟩, s₂, hLift, hRest⟩ := Reading.of_bind_ok hLine
  obtain ⟨hSize, rfl⟩ := Reading.of_lift_ok hLift
  have hLengths := bytes_length (.readUntil CRLF) rfl (fun n => by simp) hRead
  have hNe : rawLine ≠ [] := by
    rintro rfl
    cases hSize
  have hPos := List.length_pos_iff.mpr hNe
  by_cases hZero : size = 0
  · subst hZero
    cases hRest
    omega
  · have hChunk : readChunk max got size exts s₂ = (.ok next, s') := by
      rw [← hRest]
      dsimp only
      rw [if_neg hZero]
      rfl
    have hLe := readChunk_length hChunk
    omega

theorem skipTrailers_ends (hFuel : s.rest.length < fuel) : (skipTrailers fuel s).1 ≠ none := by
  induction fuel generalizing s with
  | zero => omega
  | succ fuel ih =>
    rw [skipTrailers]
    cases hRead : Reading.bytes (ByteStream.readUntil CRLF) s with
    | mk answer s' =>
      cases answer with
      | error e => exact Option.some_ne_none _
      | ok line =>
        have hLengths := bytes_length (.readUntil CRLF) rfl (fun n => by simp) hRead
        dsimp only
        split_ifs
        · exact Option.some_ne_none _
        · exact ih (by omega)

theorem chunkedLoop_ends_fuel (hFuel : s.rest.length < fuel) :
    (chunkedLoop max fuel got s).ended ≠ none := by
  induction fuel generalizing got s with
  | zero => omega
  | succ fuel ih =>
    cases hNext : nextChunk max got s with
    | mk answer s' =>
      cases answer with
      | error e =>
        rw [chunkedLoop, hNext]
        exact Option.some_ne_none _
      | ok next =>
        have hLess := nextChunk_length hNext
        cases next with
        | none =>
          rw [chunkedLoop, hNext]
          exact skipTrailers_ends (by omega)
        | some next =>
          rw [chunkedLoop_next hNext]
          exact ih (by omega)

theorem lengthLoop_ends (length remaining : Int) (hFuel : s.rest.length < fuel) :
    (lengthLoop length fuel remaining s).ended ≠ none := by
  induction fuel generalizing remaining s with
  | zero => omega
  | succ fuel ih =>
    by_cases hPos : 0 < remaining
    · rw [lengthLoop, if_pos hPos]
      dsimp only
      cases hRead : Reading.bytes
          (ByteStream.readN (if remaining < 8192 then remaining else 8192)) s with
      | mk answer s' =>
        cases answer with
        | error e => exact Option.some_ne_none _
        | ok data =>
          have hLengths := bytes_length (.readN _) rfl (fun n => by simp) hRead
          dsimp only
          split_ifs
          · exact Option.some_ne_none _
          · exact ih _ (by omega)
    · rw [lengthLoop_done hPos]
      exact Option.some_ne_none _

theorem closeLoop_ends (hFuel : s.rest.length < fuel) : (closeLoop fuel s).ended ≠ none := by
  induction fuel generalizing s with
  | zero => omega
  | succ fuel ih =>
    rw [closeLoop]
    cases hRead : Reading.bytes ByteStream.read s with
    | mk answer s' =>
      cases answer with
      | error e => exact Option.some_ne_none _
      | ok data =>
        have hLengths := bytes_length .read rfl (fun n => by simp) hRead
        dsimp only
        split_ifs
        · exact Option.some_ne_none _
        · exact ih (by omega)

/-- **The framing ends**, well or with an error, on every stream. -/
theorem pull_ends (b : Body) (s : Source) : (b.pull s).ended ≠ none := by
  unfold Body.pull
  cases b.framing with
  | chunked => exact chunkedLoop_ends_fuel (Nat.lt_succ_self _)
  | length => exact lengthLoop_ends _ _ (Nat.lt_succ_self _)
  | close => exact closeLoop_ends (Nat.lt_succ_self _)

end Ends

/-! ## Draining -/

/-- The body is below the ceiling. -/
def Message.Within (m : Message) (max : Option Int) : Prop :=
  ∀ ceiling ∈ max, (m.content.length : Int) ≤ ceiling

/-- The body comes out where its encoding is there, and where the stream ends before is an error. -/
structure Framed (decodeBody : Bytes → Bytes → Except Error Bytes) (m : Message) (owns : Bool)
    (max : Option Int) (s : Source) : Prop where
  whole : m.wire <+: s.rest → m.Within max →
    ((m.body owns max).drain decodeBody s).1 = some (.ok m.content)
  cut : s.rest <+: m.wire → s.rest ≠ m.wire →
    ∃ e, ((m.body owns max).drain decodeBody s).1 = some (.error e)

/-- The chunked body is readable where it is there, and does not end silently where it is not. -/
def Message.Sound (max : Option Int) (bs : Bytes) (m : Message) : Prop :=
  match m with
  | .chunked e =>
    (m.wire <+: bs → m.Within max → Readable 0 e.chunks e.last) ∧
      (bs <+: m.wire → bs ≠ m.wire → ¬ Silent max e.last 0 e.chunks bs)
  | .length _ => True

section Drain

variable {decodeBody : Bytes → Bytes → Except Error Bytes} {m : Message} {owns : Bool}
  {max : Option Int} {b : Body} {s : Source} {ceiling : Int}

theorem closing_ended (owns : Bool) (p : Pulled) :
    (p.closing owns).ended = p.ended ∧ (p.closing owns).data = p.data := by
  unfold Pulled.closing
  split_ifs
  · exact ⟨rfl, rfl⟩
  · exact ⟨rfl, rfl⟩

theorem rawChunks_pull (hBytes : b.bytes = none) :
    (b.rawChunks s).ended = (b.pull s).ended ∧ (b.rawChunks s).data = (b.pull s).data := by
  rw [Body.rawChunks, hBytes]
  exact closing_ended b.ownsStream (b.pull s)

/-- A body that is framed well is drained. -/
theorem drain_ok (decodeBody : Bytes → Bytes → Except Error Bytes) (b : Body) {content : Bytes}
    (hBytes : b.bytes = none) (hEncoding : b.encoding = none)
    (h : (b.pull s).ended = some (.ok ())) (hContent : (b.pull s).data = content) :
    (b.drain decodeBody s).1 = some (.ok content) := by
  obtain ⟨hEnded, hData⟩ := @rawChunks_pull b s hBytes
  rw [h] at hEnded
  rw [hContent] at hData
  simp only [Body.drain, hBytes, hEnded, hEncoding, Option.elim, hData]

theorem drain_error (decodeBody : Bytes → Bytes → Except Error Bytes) (b : Body) {e : Error}
    (hBytes : b.bytes = none) (h : (b.pull s).ended = some (.error e)) :
    (b.drain decodeBody s).1 = some (.error e) := by
  obtain ⟨hEnded, -⟩ := @rawChunks_pull b s hBytes
  rw [h] at hEnded
  simp only [Body.drain, hBytes, hEnded]

theorem framed_chunked (e : Chunked) (hLive : Live s) :
    Framed decodeBody (.chunked e) owns max s ↔ (Message.chunked e).Sound max s.rest := by
  have hFuel : s.rest.length < s.rest.length + 1 := Nat.lt_succ_self _
  have hWire : (Message.chunked e).wire = e.chunks.flatMap SizedChunk.wire ++
      (e.last.text ++ (CRLF ++ (e.trailers.flatMap (· ++ CRLF) ++ CRLF))) := by
    show _ ++ e.ending = _
    rw [Chunked.ending, List.append_assoc]
  -- the whole encoding is there: it is read exactly if it is readable
  have hWhole : (Message.chunked e).wire <+: s.rest → (Message.chunked e).Within max →
      ((((Message.chunked e).body owns max).drain decodeBody s).1 =
        some (.ok (Message.chunked e).content) ↔ Readable 0 e.chunks e.last) := by
    rintro ⟨after, hAfter⟩ hWithin
    rw [hWire, List.append_assoc, List.append_assoc, List.append_assoc] at hAfter
    obtain ⟨hOk, hError⟩ := chunkedLoop_whole e.last_zero hLive (le_refl 0) (by norm_num)
      hFuel hAfter.symm (fun ceiling hCeiling => by
        rw [zero_add]
        exact hWithin ceiling hCeiling)
    by_cases hReadable : Readable 0 e.chunks e.last
    · obtain ⟨hEnded, hData⟩ := hOk hReadable
      exact iff_of_true
        (drain_ok decodeBody ((Message.chunked e).body owns max) rfl rfl hEnded hData) hReadable
    · obtain ⟨err, hEnded⟩ := hError hReadable
      refine iff_of_false (fun hSame => ?_) hReadable
      have hDrain := drain_error decodeBody ((Message.chunked e).body owns max) rfl hEnded
      rw [hDrain] at hSame
      cases hSame
  -- a part of it is there: it ends in an error exactly if the end is not silent
  have hCut : s.rest <+: (Message.chunked e).wire → s.rest ≠ (Message.chunked e).wire →
      ((∃ err, (((Message.chunked e).body owns max).drain decodeBody s).1 = some (.error err)) ↔
        ¬ Silent max e.last 0 e.chunks s.rest) := by
    intro hPart hNe
    rw [hWire] at hPart hNe
    obtain ⟨hOk, hError⟩ := chunkedLoop_cut max e.last_zero hLive (le_refl 0) hFuel
      hPart hNe
    by_cases hSilent : Silent max e.last 0 e.chunks s.rest
    · refine iff_of_false ?_ (not_not.mpr hSilent)
      rintro ⟨err, hSame⟩
      have hDrain := drain_ok decodeBody ((Message.chunked e).body owns max) rfl rfl
        (hOk hSilent) rfl
      rw [hDrain] at hSame
      cases hSame
    · obtain ⟨err, hEnded⟩ := hError hSilent
      exact iff_of_true
        ⟨err, drain_error decodeBody ((Message.chunked e).body owns max) rfl hEnded⟩ hSilent
  constructor
  · rintro ⟨hFramedWhole, hFramedCut⟩
    exact ⟨fun hAll hWithin => (hWhole hAll hWithin).mp (hFramedWhole hAll hWithin),
      fun hPart hNe => (hCut hPart hNe).mp (hFramedCut hPart hNe)⟩
  · rintro ⟨hReadable, hSilent⟩
    exact ⟨fun hAll hWithin => (hWhole hAll hWithin).mpr (hReadable hAll hWithin),
      fun hPart hNe => (hCut hPart hNe).mpr (hSilent hPart hNe)⟩

theorem framed_length (content : Bytes) (hLive : Live s) :
    Framed decodeBody (.length content) owns max s := by
  obtain ⟨hOk, hError⟩ := lengthLoop_live content.length content.length hLive (Nat.lt_succ_self _)
  constructor
  · rintro ⟨after, hAfter⟩ -
    have hLength := congrArg List.length hAfter
    rw [List.length_append] at hLength
    obtain ⟨hEnded, hData⟩ := hOk (by
      have hLe : content.length ≤ s.rest.length := by
        rw [← hLength]
        exact Nat.le_add_right _ _
      exact_mod_cast hLe)
    refine drain_ok decodeBody ((Message.length content).body owns max) rfl rfl hEnded
      (hData.trans ?_)
    rw [← hAfter, Int.toNat_natCast]
    exact List.take_left
  · intro hPart hNe
    have hLess : s.rest.length < content.length := by
      refine hPart.length_le.lt_of_ne fun hEq => hNe (hPart.eq_of_length hEq)
    obtain ⟨err, hEnded⟩ := hError (by exact_mod_cast hLess)
    exact ⟨err, drain_error decodeBody ((Message.length content).body owns max) rfl hEnded⟩

/-- The framing of any stream ends, and keeps to the ceiling exactly if the body does. -/
theorem rawChunks_under (hBytes : b.bytes = none) (hMax : b.maxBytes = some ceiling) :
    (b.rawChunks s).ended ≠ none ∧
      ((b.rawChunks s).data.length ≤ ceiling.toNat ↔ b.Under ceiling (front s)) := by
  obtain ⟨hEnded, hData⟩ := @rawChunks_pull b s hBytes
  rw [hEnded, hData]
  exact ⟨pull_ends b s, pull_under b s hMax⟩

end Drain

/-- **The framing of bodies.** On a stream that does not fail, a body comes out whole where its
encoding is there, and is an error where the stream ends before, exactly if it is sound. On any
stream at all, also one that fails or is closed, the framing ends, and no more is yielded than the
ceiling exactly if the body keeps to it. -/
theorem bodies_framed (decodeBody : Bytes → Bytes → Except Error Bytes) :
    (∀ (m : Message) (owns : Bool) (max : Option Int) (s : Source), Live s →
      (Framed decodeBody m owns max s ↔ m.Sound max s.rest)) ∧
    ∀ (b : Body) (ceiling : Int) (s : Source), b.bytes = none → b.maxBytes = some ceiling →
      (b.rawChunks s).ended ≠ none ∧
        ((b.rawChunks s).data.length ≤ ceiling.toNat ↔ b.Under ceiling (front s)) := by
  refine ⟨fun m owns max s hLive => ?_, fun b ceiling s => rawChunks_under⟩
  cases m with
  | chunked e => exact framed_chunked e hLive
  | length content => exact iff_of_true (framed_length content hLive) trivial

namespace Hello

/-- A size line that is digits only. -/
def sizeLineOf (digits : Bytes) (hNe : digits ≠ []) (hHex : ∀ b ∈ digits, (hexDigit b).isSome) :
    SizeLine where
  digits := digits
  blanks := []
  exts := []
  digits_ne := hNe
  digits_hex := hHex
  blanks_blank := fun _ hMem => nomatch hMem
  exts_head := fun _ hMem => nomatch hMem
  exts_line := oneLine_nil

theorem five_hex : ∀ b ∈ [(0x35 : UInt8)], (hexDigit b).isSome := by
  intro b hMem
  obtain rfl := List.mem_singleton.mp hMem
  decide

theorem zero_hex : ∀ b ∈ [(0x30 : UInt8)], (hexDigit b).isSome := by
  intro b hMem
  obtain rfl := List.mem_singleton.mp hMem
  decide

def chunk : SizedChunk where
  line := sizeLineOf [0x35] (List.cons_ne_nil _ _) five_hex
  data := [0x68, 0x65, 0x6C, 0x6C, 0x6F]
  data_ne := List.cons_ne_nil _ _
  size := rfl

/-- `5`, `hello`, `0` and an empty line. -/
def hello : Chunked where
  chunks := [chunk]
  last := sizeLineOf [0x30] (List.cons_ne_nil _ _) zero_hex
  last_zero := rfl
  trailers := []
  trailers_lines := fun _ hMem => nomatch hMem

/-- The encoding without the empty line. -/
def cutStream : Source := ⟨false, hello.chunks.flatMap SizedChunk.wire ++ [0x30, 0x0D, 0x0A], []⟩

/-- A size of -2 without bytes, then `hello`. -/
def negativeStream : Source :=
  ⟨false, [0x2D, 0x32, 0x0D, 0x0A, 0x0D, 0x0A] ++ (Message.chunked hello).wire, []⟩

/-- `hello`, and a size of -2 behind it. -/
def overStream : Source :=
  ⟨false, chunk.wire ++ [0x2D, 0x32, 0x0D, 0x0A, 0x0D, 0x0A], []⟩

end Hello

open Hello in
/-- Neither half of the framing holds of every stream. The stream of the first part holds the chunk
`hello` and the line of the last chunk, and ends before the empty line that ends the trailers: it is
drained without an error. The second one begins with a chunk of size -2, so that the count is -2 when
`hello` comes: five bytes are yielded under a ceiling of four. -/
theorem bodies_framed_cut :
    ¬ Framed (fun bs _ => .ok bs) (.chunked hello) true none cutStream ∧
      ((Body.over .chunked 0 none false (some 4)).rawChunks negativeStream).data.length = 5 := by
  constructor
  · intro h
    obtain ⟨e, hError⟩ := h.cut (by decide) (by decide)
    have hOk : (((Message.chunked hello).body true none).drain (fun bs _ => .ok bs) cutStream).1 =
        some (.ok [0x68, 0x65, 0x6C, 0x6C, 0x6F]) := by rfl
    rw [hOk] at hError
    cases hError
  · rfl

open Hello in
/-- `hello` comes out of a stream that holds it, with a ceiling of five too; with a ceiling of four
nothing is yielded where a negative size comes behind it; and a length of five is under eight. -/
theorem bodies_framed_hello :
    Framed (fun bs _ => .ok bs) (.chunked hello) true none
        ⟨false, (Message.chunked hello).wire, []⟩ ∧
      ((Body.over .chunked 0 none false (some 5)).rawChunks
        ⟨false, (Message.chunked hello).wire, []⟩).data.length ≤ 5 ∧
      ((Body.over .chunked 0 none false (some 4)).rawChunks overStream).data.length ≤ 4 ∧
      ((Body.over .length 5 none false (some 8)).rawChunks cutStream).data.length ≤ 8 := by
  have hLive : Live ⟨false, (Message.chunked hello).wire, []⟩ :=
    ⟨rfl, fun _ _ hMem => absurd hMem List.not_mem_nil⟩
  have hSound : (Message.chunked hello).Sound none
      (Source.rest ⟨false, (Message.chunked hello).wire, []⟩) := by
    refine ⟨fun _ _ => ⟨?_, rfl, by decide⟩, fun _ hNe => absurd (by rfl) hNe⟩
    intro c hMem
    obtain rfl := List.mem_singleton.mp hMem
    rfl
  have hFive : (Body.over .chunked 0 none false (some 5)).Under 5
      (front ⟨false, (Message.chunked hello).wire, []⟩) := by
    refine under_of_nonneg rfl fun size hMem => ?_
    have hSizes : sizes (front ⟨false, (Message.chunked hello).wire, []⟩) = [5] := rfl
    rw [hSizes, List.mem_singleton] at hMem
    omega
  -- the first size is above the ceiling already
  have hFour : (Body.over .chunked 0 none false (some 4)).Under 4 (front overStream) := by
    intro counted hPrefix hCounted
    have hSizes : sizes (front overStream) = [5, -2] := rfl
    rw [hSizes] at hPrefix
    cases counted with
    | nil => decide
    | cons first counted =>
      obtain ⟨rfl, -⟩ := List.cons_prefix_cons.mp hPrefix
      have hSum := (hCounted [5] (by simp) (List.cons_ne_nil _ _)).2.2
      exact absurd hSum (by decide)
  have hLength : (Body.over .length 5 none false (some 8)).Under 8 (front cutStream) :=
    .inl (by decide)
  have hAll := bodies_framed fun bs _ => .ok bs
  exact ⟨(hAll.1 _ true none _ hLive).mpr hSound, (hAll.2 _ 5 _ rfl rfl).2.mpr hFive,
    (hAll.2 _ 4 overStream rfl rfl).2.mpr hFour, (hAll.2 _ 8 cutStream rfl rfl).2.mpr hLength⟩

end Quoin.Http.Bodies
