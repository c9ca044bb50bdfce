import Mathlib
import Quoin.Http.Draining

/-!
# Quoin — the ceiling of an HTTP body

`maxBytes` is compared with what the sizes of the chunks add up to, before each
chunk is read. The sizes are those that stand in the stream (`sizes`), as far as
the stream can be read (`front`: to its end, or to a read that fails). A size may
be negative: then the sum falls, and makes room for bytes above the ceiling.

A body that is not chunked goes by its length or by the end of the stream, and
the ceiling is not looked at.

## Results

* `chunkedLoop_yields` — the chunks that are yielded are those that stand in the
  stream, up to the first one for which the sum is above the ceiling.
* `lengthLoop_yields`, `closeLoop_yields` — what is yielded otherwise.
* `pull_under` — no more than the ceiling is yielded exactly if the body keeps to it
  (`Body.Under`).
* `under_of_nonneg` — as it does where no size is negative.
-/

namespace Quoin.Http.Bodies

open Trans Streams Streams.Source

/-! ## The bytes that can be read -/

/-- The bytes of the reads before the first that fails. -/
def frontOf : List Read → Bytes
  | [] => []
  | .chunk bytes _ :: reads => bytes ++ frontOf reads
  | .failed _ _ :: _ => []

/-- The bytes that can be read off a stream: none if it is closed, and none behind a read that
fails. -/
def front (s : Source) : Bytes := if s.closed then [] else s.rbuf ++ frontOf s.reads

section Front

variable {α : Type} {s s' : Source} {n : Int} {b : Bytes} {e : Error}

theorem front_open (h : s.closed = false) : front s = s.rbuf ++ frontOf s.reads := by
  rw [front, h, if_neg Bool.false_ne_true]

theorem front_closed (h : s.closed = true) : front s = [] := by rw [front, if_pos h]

/-- What can be read is what the stream begins with. -/
theorem front_prefix_rest (s : Source) : front s <+: s.rest := by
  unfold front rest
  split_ifs
  · exact List.nil_prefix
  · refine (List.prefix_append_right_inj _).mpr ?_
    generalize s.reads = reads
    induction reads with
    | nil => exact List.nil_prefix
    | cons r reads ih =>
      cases r with
      | failed kind message => exact List.nil_prefix
      | chunk bytes hNe => exact (List.prefix_append_right_inj _).mpr ih

/-- The loop of the operations, seen on the bytes that can be read: what is found in the read-ahead
is found in all of them, and where nothing is found the loop gets to the end, or to a read that
fails. -/
theorem fillUntil_front {stop : Bytes → Option α}
    (hMono : ∀ a buf more, stop buf = some a → stop (buf ++ more) = some a)
    (hOpen : s.closed = false) :
    (∀ a, stop (front s) = some a → ∃ s', s.fillUntil stop = (.ok (some a), s') ∧
        s'.closed = false ∧ front s' = front s ∧ stop s'.rbuf = some a) ∧
      (stop (front s) = none → (∃ e s', s.fillUntil stop = (.error e, s')) ∨
        ∃ s', s.fillUntil stop = (.ok none, s') ∧ s'.closed = false ∧ s'.rbuf = front s ∧
          s'.reads = []) := by
  obtain ⟨closed, rbuf, reads⟩ := s
  obtain rfl : closed = false := hOpen
  rw [front_open rfl]
  show (∀ a, stop (rbuf ++ frontOf reads) = some a →
      ∃ s', fillLoop false stop reads rbuf = (.ok (some a), s') ∧ s'.closed = false ∧
        front s' = rbuf ++ frontOf reads ∧ stop s'.rbuf = some a) ∧
    (stop (rbuf ++ frontOf reads) = none →
      (∃ e s', fillLoop false stop reads rbuf = (.error e, s')) ∨
        ∃ s', fillLoop false stop reads rbuf = (.ok none, s') ∧ s'.closed = false ∧
          s'.rbuf = rbuf ++ frontOf reads ∧ s'.reads = [])
  -- induction on the reads; the buffer has all that came before
  induction reads generalizing rbuf with
  | nil =>
    rw [frontOf, List.append_nil]
    cases hStop : stop rbuf with
    | some a =>
      rw [fillLoop_found hStop]
      refine ⟨fun a' h => ?_, fun h => (by cases h)⟩
      obtain rfl := Option.some.inj h
      exact ⟨_, rfl, rfl, by rw [front_open rfl, frontOf, List.append_nil], hStop⟩
    | none =>
      rw [fillLoop_nil hStop]
      exact ⟨fun a h => (by cases h), fun _ => .inr ⟨_, rfl, rfl, rfl, rfl⟩⟩
  | cons r reads ih =>
    cases hStop : stop rbuf with
    | some a =>
      rw [fillLoop_found hStop, hMono a rbuf _ hStop]
      refine ⟨fun a' h => ?_, fun h => (by cases h)⟩
      obtain rfl := Option.some.inj h
      exact ⟨_, rfl, rfl, by rw [front_open rfl], hStop⟩
    | none =>
      cases r with
      | chunk bytes hNe =>
        rw [fillLoop_chunk hStop, frontOf, ← List.append_assoc]
        exact ih (rbuf ++ bytes)
      -- a read that fails ends what can be read
      | failed kind message =>
        rw [fillLoop_failed hStop, frontOf, List.append_nil, hStop]
        exact ⟨fun a h => (by cases h), fun _ => .inl ⟨_, _, rfl⟩⟩

/-- Bytes are taken off the front of those that can be read. -/
theorem front_drainUpTo {k : Nat} (hOpen : s.closed = false) (hLe : k ≤ s.rbuf.length) :
    s.rbuf.take k = (front s).take k ∧
      front { s with rbuf := s.rbuf.drop k } = (front s).drop k := by
  rw [front_open hOpen, List.take_append_of_le_length hLe, List.drop_append_of_le_length hLe]
  exact ⟨rfl, front_open hOpen⟩

theorem bytes_fails {read : Source → Outcome} {e : ReadError} (h : (read s).1 = .error e) :
    ∃ e s', Reading.bytes read s = (.error e, s') :=
  ⟨.raised e, (read s).2, Reading.bytes_error (Prod.ext h rfl)⟩

/-- Of a closed stream nothing is read. -/
theorem whenOpen_closed (k : Source → Outcome) (h : s.closed = true) :
    (s.whenOpen k).1 = .error closedError := by
  rw [whenOpen, if_pos h]

theorem crlf_ne_nil : CRLF ≠ [] := List.cons_ne_nil _ _

/-- A line comes off the front, or an error does where no line ends. -/
theorem readUntil_front (s : Source) :
    (∃ s', Reading.bytes (ByteStream.readUntil CRLF) s =
          (.ok ((front s).take (lineStop (front s))), s') ∧
        s'.closed = false ∧ front s' = (front s).drop (lineStop (front s))) ∨
      (∃ e s', Reading.bytes (ByteStream.readUntil CRLF) s = (.error e, s')) ∧
        (front s).drop (lineStop (front s)) = [] := by
  by_cases hClosed : s.closed = true
  · refine .inr ⟨bytes_fails (e := closedError) ?_, by rw [front_closed hClosed, List.drop_nil]⟩
    rw [ByteStream.readUntil, if_neg crlf_ne_nil, whenOpen_closed _ hClosed]
  · have hOpen : s.closed = false := Bool.eq_false_iff.mpr hClosed
    obtain ⟨hFound, hNone⟩ := @fillUntil_front _ s (findSubsequence CRLF)
      (fun a buf more h => findSubsequence_mono h (List.prefix_append buf more)) hOpen
    unfold lineStop
    cases hStop : findSubsequence CRLF (front s) with
    | some k =>
      obtain ⟨s₁, hFill, hOpen₁, hFront, hBuf⟩ := hFound k hStop
      obtain ⟨hTake, hDrop⟩ := front_drainUpTo hOpen₁ (findSubsequence_le hBuf)
      rw [Option.getD_some, ← hFront, ← hTake, ← hDrop]
      refine .inl ⟨{ s₁ with rbuf := s₁.rbuf.drop k }, Reading.bytes_ok.mpr ?_, hOpen₁, rfl⟩
      rw [ByteStream.readUntil, if_neg crlf_ne_nil, whenOpen, if_neg hClosed, hFill]
      rfl
    | none =>
      rw [Option.getD_none, List.take_length, List.drop_length]
      rcases hNone hStop with ⟨e, s₁, hFill⟩ | ⟨s₁, hFill, hOpen₁, hBuf, hReads⟩
      · refine .inr ⟨bytes_fails (e := e) ?_, rfl⟩
        rw [ByteStream.readUntil, if_neg crlf_ne_nil, whenOpen, if_neg hClosed, hFill]
      · -- the end of the stream ends the line
        refine .inl ⟨{ s₁ with rbuf := [] }, Reading.bytes_ok.mpr ?_, hOpen₁, ?_⟩
        · rw [ByteStream.readUntil, if_neg crlf_ne_nil, whenOpen, if_neg hClosed, hFill]
          show (Except.ok (Value.bytes (s₁.rbuf.take s₁.rbuf.length)), Source.mk s₁.closed
            (s₁.rbuf.drop s₁.rbuf.length) s₁.reads) = _
          rw [List.take_length, List.drop_length, hBuf]
        · refine (front_open (s := { s₁ with rbuf := [] }) hOpen₁).trans ?_
          rw [hReads]
          rfl

/-- So many bytes come off the front, or an error does where there are fewer. -/
theorem readExactly_front (n : Int) (hOpen : s.closed = false) :
    (n.toNat ≤ (front s).length →
        ∃ s', Reading.bytes (ByteStream.readExactly n) s = (.ok ((front s).take n.toNat), s') ∧
          s'.closed = false ∧ front s' = (front s).drop n.toNat) ∧
      ((front s).length < n.toNat →
        ∃ e s', Reading.bytes (ByteStream.readExactly n) s = (.error e, s')) := by
  have hHolds : ∀ (u : Unit) (buf : Bytes), ByteStream.holds n.toNat buf = some u ↔
      n.toNat ≤ buf.length := fun u buf => by
    unfold ByteStream.holds
    split_ifs with hLt
    · exact iff_of_false (fun h => by cases h) (by omega)
    · exact iff_of_true rfl (by omega)
  obtain ⟨hFound, hNone⟩ := @fillUntil_front _ s (ByteStream.holds n.toNat)
    (fun a buf more h => (hHolds a _).mpr (by
      rw [List.length_append]
      exact Nat.le_add_right_of_le ((hHolds a buf).mp h))) hOpen
  constructor
  · intro hLe
    obtain ⟨s₁, hFill, hOpen₁, hFront, hBuf⟩ := hFound () ((hHolds () _).mpr hLe)
    obtain ⟨hTake, hDrop⟩ := front_drainUpTo hOpen₁ ((hHolds () _).mp hBuf)
    rw [← hFront, ← hTake, ← hDrop]
    refine ⟨{ s₁ with rbuf := s₁.rbuf.drop n.toNat }, Reading.bytes_ok.mpr ?_, hOpen₁, rfl⟩
    rw [ByteStream.readExactly, whenOpen, hOpen, if_neg Bool.false_ne_true, hFill]
    rfl
  · intro hLt
    have hShort : ByteStream.holds n.toNat (front s) = none := if_pos hLt
    rcases hNone hShort with ⟨e, s₁, hFill⟩ | ⟨s₁, hFill, -⟩
    · refine bytes_fails (e := e) ?_
      rw [ByteStream.readExactly, whenOpen, hOpen, if_neg Bool.false_ne_true, hFill]
    · refine bytes_fails (e := ByteStream.eofError n.toNat) ?_
      rw [ByteStream.readExactly, whenOpen, hOpen, if_neg Bool.false_ne_true, hFill]

/-- The reads that answer what is at hand, so many bytes of it at most. -/
def readSome (limit : Source → Nat) (s : Source) : Outcome :=
  s.whenOpen fun s =>
    if s.rbuf.length = 0 then
      match s.fillOnce with
      | (.error e, s) => (.error e, s)
      | (.ok _, s) => s.drainUpTo (limit s) bytesValue
    else s.drainUpTo (limit s) bytesValue

theorem readN_eq (n : Int) : ByteStream.readN n = readSome fun _ => n.toNat := rfl

theorem read_eq : ByteStream.read = readSome fun s => s.rbuf.length := rfl

/-- What is at hand comes off the front. -/
theorem drain_front (k : Nat) (hOpen : s.closed = false) :
    front s = s.rbuf.take k ++ front { s with rbuf := s.rbuf.drop k } := by
  rw [front_open hOpen, front_open (s := { s with rbuf := s.rbuf.drop k }) hOpen,
    ← List.append_assoc, List.take_append_drop]

/-- Some bytes come off the front, if there are any. -/
theorem readSome_front {limit : Source → Nat} (hLimit : ∀ s, s.rbuf ≠ [] → 0 < limit s)
    (s : Source) :
    (∃ b s₁ s', Reading.bytes (readSome limit) s = (.ok b, s') ∧ b ≠ [] ∧ b.length ≤ limit s₁ ∧
        front s = b ++ front s') ∨
      front s = [] ∧ ((∃ s', Reading.bytes (readSome limit) s = (.ok [], s')) ∨
        ∃ e s', Reading.bytes (readSome limit) s = (.error e, s')) := by
  by_cases hClosed : s.closed = true
  · refine .inr ⟨front_closed hClosed, .inr (bytes_fails (e := closedError) ?_)⟩
    exact whenOpen_closed _ hClosed
  · have hOpen : s.closed = false := Bool.eq_false_iff.mpr hClosed
    -- from a read-ahead that is not empty some bytes are taken
    have hTake : ∀ s₁ : Source, s₁.rbuf ≠ [] →
        s₁.rbuf.take (limit s₁) ≠ [] ∧ (s₁.rbuf.take (limit s₁)).length ≤ limit s₁ := by
      intro s₁ hNe
      refine ⟨fun hNil => ?_, List.length_take_le _ _⟩
      rcases List.take_eq_nil_iff.mp hNil with hZero | hEmpty
      · exact absurd hZero (hLimit s₁ hNe).ne'
      · exact hNe hEmpty
    by_cases hEmpty : s.rbuf = []
    · have hFill : ∀ {eof s₁}, s.fillOnce = (.ok eof, s₁) →
          readSome limit s = s₁.drainUpTo (limit s₁) bytesValue := fun h => by
        rw [readSome, whenOpen, if_neg hClosed, if_pos (List.length_eq_zero_iff.mpr hEmpty), h]
      cases hReads : s.reads with
      | nil =>
        refine .inr ⟨by rw [front_open hOpen, hEmpty, hReads]; rfl, .inl ⟨s, ?_⟩⟩
        refine Reading.bytes_ok.mpr ((@hFill true s (by
          rw [fillOnce, hReads])).trans ?_)
        rw [drainUpTo, hEmpty, List.take_nil, List.drop_nil, ← hEmpty]
        rfl
      | cons r reads =>
        cases r with
        | failed kind message =>
          refine .inr ⟨by rw [front_open hOpen, hEmpty, hReads]; rfl, .inr ?_⟩
          refine bytes_fails (e := .io kind message) ?_
          rw [readSome, whenOpen, if_neg hClosed, if_pos (List.length_eq_zero_iff.mpr hEmpty),
            fillOnce, hReads]
        | chunk bytes hBytes =>
          have hSome : s.rbuf ++ bytes ≠ [] := by rwa [hEmpty, List.nil_append]
          obtain ⟨hNe, hLe⟩ := hTake { s with rbuf := s.rbuf ++ bytes, reads } hSome
          refine .inl ⟨_, _, _, Reading.bytes_ok.mpr (hFill (by rw [fillOnce, hReads])), hNe, hLe, ?_⟩
          refine Eq.trans ?_ (drain_front (s := { s with rbuf := s.rbuf ++ bytes, reads }) _ hOpen)
          rw [front_open hOpen, front_open (s := { s with rbuf := s.rbuf ++ bytes, reads }) hOpen,
            hReads, frontOf, List.append_assoc]
    · obtain ⟨hNe, hLe⟩ := hTake s hEmpty
      refine .inl ⟨_, s, _, Reading.bytes_ok.mpr ?_, hNe, hLe, drain_front (limit s) hOpen⟩
      rw [readSome, whenOpen, if_neg hClosed, if_neg fun h => hEmpty (List.length_eq_zero_iff.mp h)]
      rfl

end Front

/-! ## The sizes in the stream -/

/-- The size of the chunk that comes first in the bytes, if it is there as a whole and is not the
last one, and what follows the chunk. -/
def chunkAt (bs : Bytes) : Option (Int × Bytes) :=
  match sizeLine (bs.take (lineStop bs)) with
  | .ok (size, _) =>
    let more := bs.drop (lineStop bs)
    if size ≠ 0 ∧ size.toNat + 2 ≤ more.length then some (size, more.drop (size.toNat + 2)) else none
  | .error _ => none

/-- The sizes of the chunks that stand one after the other at the front of the bytes, so many at
most. -/
def sizesIn : Nat → Bytes → List Int
  | 0, _ => []
  | n + 1, bs =>
    match chunkAt bs with
    | some (size, more) => size :: sizesIn n more
    | none => []

/-- All of them: each takes some bytes. -/
def sizes (bs : Bytes) : List Int := sizesIn bs.length bs

/-- The sizes of the chunks that are yielded: as long as the ceiling allows the sum. -/
def admitted (max : Option Int) : Int → List Int → List Int
  | _, [] => []
  | got, size :: sizes =>
    match underCeiling max got size with
    | .ok got' => size :: admitted max got' sizes
    | .error _ => []

section Sizes

variable {bs more : Bytes} {size got got' : Int} {max : Option Int} {s s' : Source} {fuel n : Nat}
  {c : Chunk}

theorem chunkAt_eq_some (h : chunkAt bs = some (size, more)) :
    (∃ exts, sizeLine (bs.take (lineStop bs)) = .ok (size, exts)) ∧ size ≠ 0 ∧
      size.toNat + 2 ≤ (bs.drop (lineStop bs)).length ∧
      more = (bs.drop (lineStop bs)).drop (size.toNat + 2) := by
  unfold chunkAt at h
  cases hLine : sizeLine (bs.take (lineStop bs)) with
  | error e =>
    rw [hLine] at h
    cases h
  | ok line =>
    rw [hLine] at h
    dsimp only at h
    split_ifs at h with hThere
    obtain ⟨rfl, rfl⟩ := Prod.mk.injEq .. ▸ Option.some.inj h
    exact ⟨⟨line.2, rfl⟩, hThere.1, hThere.2, rfl⟩

theorem chunkAt_length (h : chunkAt bs = some (size, more)) : more.length < bs.length := by
  obtain ⟨-, -, hLe, rfl⟩ := chunkAt_eq_some h
  rw [List.length_drop] at hLe ⊢
  rw [List.length_drop]
  omega

theorem sizesIn_cons (h : chunkAt bs = some (size, more)) :
    sizesIn (n + 1) bs = size :: sizesIn n more := by
  rw [sizesIn, h]

theorem sizesIn_stop (h : chunkAt bs = none) : sizesIn n bs = [] := by
  cases n with
  | zero => rfl
  | succ n => rw [sizesIn, h]

/-- As many as there can be are all of them. -/
theorem sizesIn_eq (h : bs.length ≤ n) : sizesIn n bs = sizes bs := by
  have hSame : ∀ {n m : Nat} {bs : Bytes}, bs.length ≤ n → bs.length ≤ m →
      sizesIn n bs = sizesIn m bs := by
    intro n
    induction n with
    | zero =>
      intro m bs hn hm
      obtain rfl := List.length_eq_zero_iff.mp (Nat.le_zero.mp hn)
      exact (sizesIn_stop rfl).symm
    | succ n ih =>
      intro m bs hn hm
      cases hChunk : chunkAt bs with
      | none => rw [sizesIn_stop hChunk, sizesIn_stop hChunk]
      | some next =>
        obtain ⟨size, more⟩ := next
        have hLess := chunkAt_length hChunk
        cases m with
        | zero => omega
        | succ m =>
          rw [sizesIn_cons hChunk, sizesIn_cons hChunk, @ih m more (by omega) (by omega)]
  exact hSame h le_rfl

/-- What is read behind the size: a chunk if there is room for it and it is there, with the two
bytes after it. -/
theorem readChunk_front (max : Option Int) (got : Int) (exts : List Extension)
    (hOpen : s.closed = false) :
    (∀ got', underCeiling max got size = .ok got' → size.toNat + 2 ≤ (front s).length →
        ∃ c s', readChunk max got size exts s = (.ok (some (c, got')), s') ∧
          c.data.length = size.toNat ∧ front s' = (front s).drop (size.toNat + 2)) ∧
      ((∀ got', underCeiling max got size = .ok got' → (front s).length < size.toNat + 2) →
        Fails (readChunk max got size exts s)) := by
  cases hRoom : underCeiling max got size with
  -- above the ceiling nothing is read
  | error e => exact ⟨fun got' h => (by cases h), fun _ => ⟨e, s, readChunk_error hRoom⟩⟩
  | ok got' =>
    have hStart : readChunk max got size exts s = (Reading.bytes (ByteStream.readExactly size) >>=
        fun data => Reading.bytes (ByteStream.readExactly 2) >>= fun _ =>
          pure (some (⟨data, exts⟩, got'))) s := by
      rw [readChunk, Reading.bind_ok (Reading.lift_ok hRoom s)]
    obtain ⟨hData, hNoData⟩ := readExactly_front size hOpen
    -- by where the bytes end: in the data, in its line end, or behind it
    by_cases hFits : size.toNat ≤ (front s).length
    · obtain ⟨s₁, hRead, hOpen₁, hFront₁⟩ := hData hFits
      obtain ⟨hEnd, hNoEnd⟩ := readExactly_front 2 hOpen₁
      rw [hFront₁, List.length_drop] at hEnd hNoEnd
      constructor
      · rintro got'' hSame hThere
        obtain rfl := Except.ok.inj hSame
        obtain ⟨s₂, hRead₂, -, hFront₂⟩ := hEnd (by show 2 ≤ _; omega)
        refine ⟨⟨(front s).take size.toNat, exts⟩, s₂, ?_, ?_, ?_⟩
        · rw [hStart, Reading.bind_ok hRead, Reading.bind_ok hRead₂]
          rfl
        · exact List.length_take_of_le hFits
        · rw [hFront₂, List.drop_drop]
          rfl
      · intro hShort
        obtain ⟨e, s₂, hRead₂⟩ := hNoEnd (by
          have := hShort got' rfl
          show _ < 2
          omega)
        refine ⟨e, s₂, ?_⟩
        rw [hStart, Reading.bind_ok hRead]
        exact Reading.bind_error hRead₂
    · obtain ⟨e, s₁, hRead⟩ := hNoData (by omega)
      refine ⟨fun got'' _ hThere => absurd hThere (by omega), fun _ => ⟨e, s₁, ?_⟩⟩
      rw [hStart]
      exact Reading.bind_error hRead

/-- The next chunk is the one that stands at the front, if the ceiling allows it. -/
theorem nextChunk_front (max : Option Int) (got : Int) (s : Source) :
    (∃ size more got' c s', chunkAt (front s) = some (size, more) ∧
        underCeiling max got size = .ok got' ∧ nextChunk max got s = (.ok (some (c, got')), s') ∧
        c.data.length = size.toNat ∧ front s' = more) ∨
      (∀ size more got', chunkAt (front s) = some (size, more) →
        underCeiling max got size ≠ .ok got') ∧
        ∀ next s', nextChunk max got s = (.ok next, s') → next = none := by
  -- the line of the size, or the end of the stream in front of it
  rcases readUntil_front s with ⟨s₁, hRead, hOpen₁, hFront₁⟩ | ⟨⟨e, s₁, hRead⟩, hNone⟩
  · cases hLine : sizeLine ((front s).take (lineStop (front s))) with
    | error e =>
      refine .inr ⟨fun size more got' hChunk => ?_, fun next s' h => ?_⟩
      · obtain ⟨⟨exts, hSize⟩, -⟩ := chunkAt_eq_some hChunk
        rw [hLine] at hSize
        cases hSize
      · rw [nextChunk_of_lineError max got hRead hLine] at h
        cases h
    | ok line =>
      obtain ⟨size, exts⟩ := line
      by_cases hZero : size = 0
      · -- the last chunk: nothing is yielded
        subst hZero
        refine .inr ⟨fun size more got' hChunk => ?_, fun next s' h => ?_⟩
        · obtain ⟨⟨exts', hSize⟩, hNe, -⟩ := chunkAt_eq_some hChunk
          rw [hLine] at hSize
          cases hSize
          exact absurd rfl hNe
        · rw [nextChunk_of_zero max got hRead hLine] at h
          cases h
          rfl
      · have hNext := nextChunk_of_size max got hRead hLine hZero
        obtain ⟨hThere, hFails⟩ := @readChunk_front size _ max got exts hOpen₁
        -- under the ceiling and all there, or an error
        by_cases hRoom : ∃ got', underCeiling max got size = .ok got' ∧
            size.toNat + 2 ≤ (front s₁).length
        · obtain ⟨got', hRoom, hLe⟩ := hRoom
          obtain ⟨c, s', hChunk, hLength, hFront⟩ := hThere got' hRoom hLe
          refine .inl ⟨size, _, got', c, s', ?_, hRoom, hNext.trans hChunk, hLength, hFront⟩
          rw [chunkAt, hLine, ← hFront₁]
          exact if_pos ⟨hZero, hLe⟩
        · obtain ⟨e, s', hError⟩ := hFails fun got' hOk =>
            not_le.mp fun hLe => hRoom ⟨got', hOk, hLe⟩
          refine .inr ⟨fun size' more got' hChunk hOk => ?_, fun next s'' h => ?_⟩
          · obtain ⟨⟨exts', hSize⟩, -, hLe, -⟩ := chunkAt_eq_some hChunk
            rw [hLine] at hSize
            cases hSize
            exact hRoom ⟨got', hOk, hFront₁ ▸ hLe⟩
          · rw [hNext, hError] at h
            cases h
  · refine .inr ⟨fun size more got' hChunk => ?_, fun next s' h => ?_⟩
    · obtain ⟨-, -, hLe, -⟩ := chunkAt_eq_some hChunk
      rw [hNone] at hLe
      exact absurd hLe (by rw [List.length_nil]; omega)
    · rw [nextChunk, Reading.bind_error hRead] at h
      cases h

/-- **The chunks that are yielded are those that stand in the stream**, up to the first one for
which the sum of the sizes is above the ceiling. -/
theorem chunkedLoop_yields (max : Option Int) (got : Int) (hFuel : (front s).length < fuel) :
    (chunkedLoop max fuel got s).data.length =
      ((admitted max got (sizes (front s))).map Int.toNat).sum := by
  induction fuel generalizing got s with
  | zero => omega
  | succ fuel ih =>
    rcases nextChunk_front max got s with ⟨size, more, got', c, s', hChunk, hRoom, hNext, hLength,
      rfl⟩ | ⟨hStop, hNone⟩
    · have hLess := chunkAt_length hChunk
      have hSizes : sizes (front s) = size :: sizes (front s') := by
        rw [← sizesIn_eq (n := fuel + 1) (by omega), sizesIn_cons hChunk, sizesIn_eq (by omega)]
      rw [chunkedLoop_next hNext, data_after, List.length_append, ih got' (by omega), hSizes,
        admitted, hRoom, List.map_cons, List.sum_cons, hLength]
    · have hData : (chunkedLoop max (fuel + 1) got s).data = [] := by
        cases hNext : nextChunk max got s with
        | mk answer s' =>
          cases answer with
          | error e =>
            rw [chunkedLoop, hNext]
            rfl
          | ok next =>
            obtain rfl := hNone next s' hNext
            rw [chunkedLoop, hNext]
            rfl
      have hAdmitted : admitted max got (sizes (front s)) = [] := by
        cases hChunk : chunkAt (front s) with
        | none =>
          rw [sizes, sizesIn_stop hChunk]
          rfl
        | some next =>
          obtain ⟨size, more⟩ := next
          have hLess := chunkAt_length hChunk
          rw [← sizesIn_eq (n := fuel + 1) (by omega), sizesIn_cons hChunk, admitted]
          cases hRoom : underCeiling max got size with
          | error e => rfl
          | ok got' => exact absurd hRoom (hStop size more got' hChunk)
      rw [hData, hAdmitted]
      rfl

end Sizes

/-! ## The other framings -/

/-- A body with a length comes out up to its length, or as far as it can be read. -/
theorem lengthLoop_yields (length remaining : Int) {s : Source} {fuel : Nat}
    (hFuel : (front s).length < fuel) :
    (lengthLoop length fuel remaining s).data.length =
      min remaining.toNat (front s).length := by
  induction fuel generalizing remaining s with
  | zero => omega
  | succ fuel ih =>
    by_cases hPos : 0 < remaining
    · have hWant : 0 < (if remaining < 8192 then remaining else 8192).toNat ∧
          (if remaining < 8192 then remaining else 8192).toNat ≤ remaining.toNat := by
        split_ifs <;> omega
      rcases readSome_front (fun _ _ => hWant.1) s with ⟨b, s₁, s', hRead, hNe, hLe, hFront⟩ |
        ⟨hEmpty, ⟨s', hRead⟩ | ⟨e, s', hRead⟩⟩
      · rw [← readN_eq] at hRead
        have hSome := List.length_pos_iff.mpr hNe
        have hSum := congrArg List.length hFront
        rw [List.length_append] at hSum
        rw [lengthLoop_next hPos hRead hNe, data_after, List.length_append,
          ih (remaining - b.length) (by omega)]
        dsimp only
        omega
      all_goals
        rw [← readN_eq] at hRead
        rw [hEmpty, List.length_nil, Nat.min_zero, lengthLoop, if_pos hPos]
        dsimp only
        rw [hRead]
        rfl
    · rw [lengthLoop_done hPos, Int.toNat_eq_zero.mpr (not_lt.mp hPos), Nat.zero_min]
      rfl

/-- A body that goes to the end of the stream comes out as far as it can be read. -/
theorem closeLoop_yields {s : Source} {fuel : Nat} (hFuel : (front s).length < fuel) :
    (closeLoop fuel s).data.length = (front s).length := by
  induction fuel generalizing s with
  | zero => omega
  | succ fuel ih =>
    rcases @readSome_front (fun s => s.rbuf.length) (fun _ hNe =>
      List.length_pos_iff.mpr hNe) s with ⟨b, s₁, s', hRead, hNe, -, hFront⟩ |
      ⟨hEmpty, ⟨s', hRead⟩ | ⟨e, s', hRead⟩⟩
    · rw [← read_eq] at hRead
      have hSome := List.length_pos_iff.mpr hNe
      have hSum := congrArg List.length hFront
      rw [List.length_append] at hSum
      rw [closeLoop, hRead]
      dsimp only
      rw [if_neg hSome.ne', data_after, List.length_append, ih (by omega)]
      dsimp only
      omega
    all_goals
      rw [← read_eq] at hRead
      rw [hEmpty, closeLoop, hRead]
      rfl

/-! ## Keeping to the ceiling -/

/-- The sizes, each added to those before it, never come to more than the ceiling (or out of an
Integer). -/
def Counted (ceiling : Int) (sizes : List Int) : Prop :=
  ∀ front, front <+: sizes → front ≠ [] →
    -2 ^ 63 ≤ front.sum ∧ front.sum < 2 ^ 63 ∧ front.sum ≤ ceiling

/-- What keeps a body under a ceiling. In a chunked one: as far as the sizes that stand in the stream
come to no more than the ceiling with the negative ones counted, they do so with these left out. Of
another one the ceiling is not looked at, so its length does, or the length of the stream. -/
def Body.Under (b : Body) (ceiling : Int) (bs : Bytes) : Prop :=
  match b.framing with
  | .chunked => ∀ counted, counted <+: sizes bs → Counted ceiling counted →
      (counted.map Int.toNat).sum ≤ ceiling.toNat
  | .length => b.length.toNat ≤ ceiling.toNat ∨ bs.length ≤ ceiling.toNat
  | .close => bs.length ≤ ceiling.toNat

section Ceiling

variable {ceiling got size : Int} {sizes counted : List Int}

theorem underCeiling_some_iff {got' : Int} : underCeiling (some ceiling) got size = .ok got' ↔
    got' = got + size ∧ -2 ^ 63 ≤ got + size ∧ got + size < 2 ^ 63 ∧ got + size ≤ ceiling := by
  unfold underCeiling add inI64
  split_ifs with hRange
  · show (if ceiling < got + size then Except.error (tooLargeError ceiling) else .ok (got + size)) =
      .ok got' ↔ _
    split_ifs with hOver
    · exact iff_of_false (fun h => by cases h) fun h => by omega
    · rw [Except.ok.injEq]
      exact ⟨fun h => ⟨h.symm, hRange.1, hRange.2, not_lt.mp hOver⟩, fun h => h.1.symm⟩
  · exact iff_of_false (fun h => by cases h) fun h => hRange ⟨h.2.1, h.2.2.1⟩

/-- What is admitted is a front of the sizes that counts, -/
theorem admitted_counted (ceiling got : Int) (sizes : List Int) :
    admitted (some ceiling) got sizes <+: sizes ∧
      ∀ front, front <+: admitted (some ceiling) got sizes → front ≠ [] →
        -2 ^ 63 ≤ got + front.sum ∧ got + front.sum < 2 ^ 63 ∧ got + front.sum ≤ ceiling := by
  induction sizes generalizing got with
  | nil => exact ⟨List.prefix_rfl, fun front h hNe => absurd (List.prefix_nil.mp h) hNe⟩
  | cons size sizes ih =>
    rw [admitted]
    cases hRoom : underCeiling (some ceiling) got size with
    | error e => exact ⟨List.nil_prefix, fun front h hNe => absurd (List.prefix_nil.mp h) hNe⟩
    | ok got' =>
      obtain ⟨rfl, hLow, hHigh, hLe⟩ := underCeiling_some_iff.mp hRoom
      obtain ⟨hFront, hSums⟩ := ih (got + size)
      refine ⟨List.cons_prefix_cons.mpr ⟨rfl, hFront⟩, fun front h hNe => ?_⟩
      cases front with
      | nil => exact absurd rfl hNe
      | cons first front =>
        obtain ⟨rfl, hRest⟩ := List.cons_prefix_cons.mp h
        rw [List.sum_cons, ← add_assoc]
        by_cases hLast : front = []
        · rw [hLast, List.sum_nil, add_zero]
          exact ⟨hLow, hHigh, hLe⟩
        · exact hSums front hRest hLast

/-- and the longest one. -/
theorem prefix_admitted (got : Int) (hPrefix : counted <+: sizes)
    (hCounted : ∀ front, front <+: counted → front ≠ [] →
      -2 ^ 63 ≤ got + front.sum ∧ got + front.sum < 2 ^ 63 ∧ got + front.sum ≤ ceiling) :
    counted <+: admitted (some ceiling) got sizes := by
  induction sizes generalizing got counted with
  | nil => rw [List.prefix_nil.mp hPrefix]; exact List.nil_prefix
  | cons size sizes ih =>
    cases counted with
    | nil => exact List.nil_prefix
    | cons first counted =>
      obtain ⟨rfl, hRest⟩ := List.cons_prefix_cons.mp hPrefix
      have hFirst := hCounted [first] (by simp) (List.cons_ne_nil _ _)
      rw [List.sum_singleton] at hFirst
      rw [admitted, underCeiling_some_iff.mpr ⟨rfl, hFirst⟩]
      refine List.cons_prefix_cons.mpr ⟨rfl, ih (got + first) hRest fun front h hNe => ?_⟩
      have hSum := hCounted (first :: front) (List.cons_prefix_cons.mpr ⟨rfl, h⟩)
        (List.cons_ne_nil _ _)
      rwa [List.sum_cons, ← add_assoc] at hSum

/-- **A body yields no more than the ceiling exactly if it keeps to it**, on any stream. -/
theorem pull_under (b : Body) (s : Source) (hMax : b.maxBytes = some ceiling) :
    (b.pull s).data.length ≤ ceiling.toNat ↔ b.Under ceiling (front s) := by
  have hFuel : (front s).length < s.rest.length + 1 :=
    Nat.lt_succ_of_le (front_prefix_rest s).length_le
  unfold Body.pull Body.Under
  cases b.framing with
  | chunked =>
    dsimp only
    rw [hMax, chunkedLoop_yields (some ceiling) 0 hFuel]
    obtain ⟨hFront, hSums⟩ := admitted_counted ceiling 0 (Bodies.sizes (front s))
    constructor
    · intro hLe counted hPrefix hCounted
      obtain ⟨more, hMore⟩ := prefix_admitted 0 hPrefix fun front h hNe => by
        rw [zero_add]
        exact hCounted front h hNe
      rw [← hMore, List.map_append, List.sum_append] at hLe
      omega
    · intro hUnder
      refine hUnder _ hFront fun front h hNe => ?_
      have hSum := hSums front h hNe
      rwa [zero_add] at hSum
  | length =>
    dsimp only
    rw [lengthLoop_yields b.length b.length hFuel, min_le_iff]
  | close =>
    dsimp only
    rw [closeLoop_yields hFuel]

/-- Where no size is negative a chunked body keeps to the ceiling. -/
theorem under_of_nonneg {b : Body} {bs : Bytes} (hChunked : b.framing = .chunked)
    (hSizes : ∀ size ∈ Bodies.sizes bs, 0 ≤ size) : b.Under ceiling bs := by
  unfold Body.Under
  rw [hChunked]
  intro counted hPrefix hCounted
  have hSum : ((counted.map Int.toNat).sum : Int) = counted.sum := by
    have hAll : ∀ size ∈ counted, 0 ≤ size := fun size hMem => hSizes size (hPrefix.subset hMem)
    clear hPrefix hCounted
    induction counted with
    | nil => rfl
    | cons size counted ih =>
      have hSize := hAll size List.mem_cons_self
      rw [List.map_cons, List.sum_cons, List.sum_cons, Nat.cast_add, Int.toNat_of_nonneg hSize,
        ih fun other hMem => hAll other (List.mem_cons_of_mem _ hMem)]
  by_cases hNil : counted = []
  · rw [hNil]
    exact Nat.zero_le _
  · have hLe := (hCounted counted List.prefix_rfl hNil).2.2
    omega

end Ceiling

end Quoin.Http.Bodies
