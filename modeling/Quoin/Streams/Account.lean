import Mathlib
import Quoin.Streams.Reads

/-!
# Quoin — what buffered reading does with the bytes

`Took` says what an operation does to a source: reads are done, some bytes are
taken, and the rest is the read-ahead. `accounted_perform` gives the bytes for each
operation, in terms of its answer (`Accounts`); `perform_plain` says that the
steady ones answer as if all the bytes were at hand. Both are lifted to the
streams of a program, of which one is open (`OneOpen`).
-/

namespace Quoin.Streams

/-! ## Occurrences of a delimiter -/

section Delimiters

variable {delim buf rest : Bytes} {stop : Nat}

/-- An occurrence of the delimiter ends at `stop`. -/
def EndsAt (delim buf : Bytes) (stop : Nat) : Prop :=
  ∃ before, before ++ delim <+: buf ∧ before.length + delim.length = stop

/-- An occurrence among the windows. -/
theorem endsAt_iff : EndsAt delim buf stop ↔
    ∃ pos < buf.length + 1 - delim.length,
      (buf.drop pos).take delim.length = delim ∧ pos + delim.length = stop := by
  constructor
  · rintro ⟨before, ⟨after, rfl⟩, rfl⟩
    refine ⟨before.length, ?_, ?_, rfl⟩
    · simp only [List.length_append]
      omega
    · rw [List.append_assoc, List.drop_left, List.take_left]
  · rintro ⟨pos, hPos, hTake, rfl⟩
    refine ⟨buf.take pos, ⟨(buf.drop pos).drop delim.length, ?_⟩, ?_⟩
    · have hSplit : delim ++ (buf.drop pos).drop delim.length = buf.drop pos := by
        have hAll := List.take_append_drop delim.length (buf.drop pos)
        rwa [hTake] at hAll
      rw [List.append_assoc, hSplit, List.take_append_drop]
    · rw [List.length_take]
      omega

theorem EndsAt.mono (h : EndsAt delim buf stop) (hPrefix : buf <+: rest) :
    EndsAt delim rest stop := by
  obtain ⟨before, hBefore, hStop⟩ := h
  exact ⟨before, hBefore.trans hPrefix, hStop⟩

/-- An occurrence that ends within a part of the bytes is one in that part. -/
theorem EndsAt.within (h : EndsAt delim rest stop) (hPrefix : buf <+: rest)
    (hStop : stop ≤ buf.length) : EndsAt delim buf stop := by
  obtain ⟨before, hBefore, rfl⟩ := h
  refine ⟨before, List.prefix_of_prefix_length_le hBefore hPrefix ?_, rfl⟩
  rw [List.length_append]
  exact hStop

/-- What is found is the first occurrence. -/
theorem findSubsequence_eq_some : findSubsequence delim buf = some stop ↔
    EndsAt delim buf stop ∧ ∀ stop' < stop, ¬ EndsAt delim buf stop' := by
  simp only [findSubsequence, Option.map_eq_some_iff, List.find?_range_eq_some, endsAt_iff,
    List.mem_range, decide_eq_true_eq, Bool.not_eq_true', decide_eq_false_iff_not]
  constructor
  · rintro ⟨pos, ⟨hTake, hPos, hFirst⟩, rfl⟩
    refine ⟨⟨pos, hPos, hTake, rfl⟩, ?_⟩
    rintro stop' hLt ⟨pos', -, hTake', rfl⟩
    exact hFirst pos' (by omega) hTake'
  · rintro ⟨⟨pos, hPos, hTake, rfl⟩, hFirst⟩
    refine ⟨pos, ⟨hTake, hPos, fun pos' hLt hTake' => ?_⟩, rfl⟩
    exact hFirst (pos' + delim.length) (by omega) ⟨pos', by omega, hTake', rfl⟩

theorem findSubsequence_eq_none : findSubsequence delim buf = none ↔
    ∀ stop, ¬ EndsAt delim buf stop := by
  simp only [findSubsequence, Option.map_eq_none_iff, List.find?_range_eq_none, endsAt_iff,
    Bool.not_eq_true', decide_eq_false_iff_not]
  constructor
  · rintro h stop ⟨pos, hPos, hTake, -⟩
    exact h pos hPos hTake
  · intro h pos hPos hTake
    exact h _ ⟨pos, hPos, hTake, rfl⟩

theorem findSubsequence_le (h : findSubsequence delim buf = some stop) : stop ≤ buf.length := by
  obtain ⟨⟨before, hPrefix, rfl⟩, -⟩ := findSubsequence_eq_some.mp h
  have hLength := hPrefix.length_le
  rwa [List.length_append] at hLength

/-- More bytes do not change what was found first. -/
theorem findSubsequence_mono (h : findSubsequence delim buf = some stop) (hPrefix : buf <+: rest) :
    findSubsequence delim rest = some stop := by
  have hLe := findSubsequence_le h
  obtain ⟨hEnds, hFirst⟩ := findSubsequence_eq_some.mp h
  refine findSubsequence_eq_some.mpr ⟨hEnds.mono hPrefix, fun stop' hLt hEnds' => ?_⟩
  exact hFirst stop' hLt (hEnds'.within hPrefix (by omega))

end Delimiters

/-! ## Reads done and bytes taken -/

theorem bytesOf_append (reads reads' : List Read) :
    bytesOf (reads ++ reads') = bytesOf reads ++ bytesOf reads' :=
  List.flatMap_append

/-- From `s` to `s'` some reads are done and bytes are taken: the read-ahead is what there was and
what the reads got, without them. -/
structure Took (taken : Bytes) (s s' : Source) : Prop where
  closed : s'.closed = s.closed
  reads : ∃ pulled, s.reads = pulled ++ s'.reads ∧ s.rbuf ++ bytesOf pulled = taken ++ s'.rbuf

namespace Took

variable {taken taken' : Bytes} {s s' s'' : Source}

theorem refl (s : Source) : Took [] s s := ⟨rfl, [], rfl, List.append_nil _⟩

theorem trans (h : Took taken s s') (h' : Took taken' s' s'') : Took (taken ++ taken') s s'' := by
  obtain ⟨pulled, hReads, hBytes⟩ := h.reads
  obtain ⟨pulled', hReads', hBytes'⟩ := h'.reads
  refine ⟨h'.closed.trans h.closed, pulled ++ pulled', ?_, ?_⟩
  · rw [hReads, hReads', List.append_assoc]
  · calc s.rbuf ++ bytesOf (pulled ++ pulled')
        = (s.rbuf ++ bytesOf pulled) ++ bytesOf pulled' := by
          rw [bytesOf_append, List.append_assoc]
      _ = taken ++ (s'.rbuf ++ bytesOf pulled') := by rw [hBytes, List.append_assoc]
      _ = (taken ++ taken') ++ s''.rbuf := by rw [hBytes', List.append_assoc]

theorem of_pull (h : Took [] s s') (h' : Took taken s' s'') : Took taken s s'' := h.trans h'

/-- What is left of the bytes. -/
theorem rest (h : Took taken s s') :
    s.rbuf ++ bytesOf s.reads = taken ++ (s'.rbuf ++ bytesOf s'.reads) := by
  obtain ⟨pulled, hReads, hBytes⟩ := h.reads
  rw [hReads, bytesOf_append, ← List.append_assoc, hBytes, List.append_assoc]

end Took

namespace Source

variable {α : Type} {s : Source}

theorem took_drainUpTo (n : Nat) (s : Source) (answer : Bytes → Except ReadError Value) :
    Took (s.rbuf.take n) s (s.drainUpTo n answer).2 :=
  ⟨rfl, [], rfl, by simp [drainUpTo, bytesOf]⟩

theorem took_fillOnce (s : Source) : Took [] s s.fillOnce.2 := by
  unfold fillOnce
  cases hReads : s.reads with
  | nil => exact .refl s
  | cons r reads =>
    cases r with
    | chunk bytes hBytes =>
      exact ⟨rfl, [.chunk bytes hBytes], hReads, by simp [bytesOf, Read.bytes]⟩
    | failed kind message =>
      exact ⟨rfl, [.failed kind message], hReads, by simp [bytesOf, Read.bytes]⟩

section Loop

variable {closed : Bool} {stop : Bytes → Option α} {rbuf : Bytes} {reads : List Read}

theorem fillLoop_found {a : α} (h : stop rbuf = some a) :
    fillLoop closed stop reads rbuf = (.ok (some a), ⟨closed, rbuf, reads⟩) := by
  rw [fillLoop.eq_def]
  simp only [h]

theorem fillLoop_nil (h : stop rbuf = none) :
    fillLoop closed stop [] rbuf = (.ok none, ⟨closed, rbuf, []⟩) := by
  rw [fillLoop.eq_def]
  simp only [h]

theorem fillLoop_chunk (h : stop rbuf = none) {bytes : Bytes} {hBytes : bytes ≠ []} :
    fillLoop closed stop (.chunk bytes hBytes :: reads) rbuf =
      fillLoop closed stop reads (rbuf ++ bytes) := by
  rw [fillLoop.eq_def]
  simp only [h]

theorem fillLoop_failed (h : stop rbuf = none) {kind : IoErrorKind} {message : String} :
    fillLoop closed stop (.failed kind message :: reads) rbuf =
      (.error (.io kind message), ⟨closed, rbuf, reads⟩) := by
  rw [fillLoop.eq_def]
  simp only [h]

end Loop

/-- What a fill comes to. -/
@[elab_as_elim]
theorem fillOnce_elim {motive : Except ReadError Bool × Source → Prop} (s : Source)
    (hFill : ∀ eof s', Took [] s s' → motive (.ok eof, s'))
    (hErr : ∀ e s', Took [] s s' → motive (.error e, s')) : motive s.fillOnce := by
  have hTook := took_fillOnce s
  generalize s.fillOnce = r at hTook
  obtain ⟨answer, s'⟩ := r
  cases answer with
  | ok eof => exact hFill eof s' hTook
  | error e => exact hErr e s' hTook

/-- What the loop comes to: it takes nothing, and stops where it is answered, at the end of the
conduit, or with a read that fails. -/
@[elab_as_elim]
theorem fillUntil_elim {motive : Except ReadError (Option α) × Source → Prop}
    (stop : Bytes → Option α) (s : Source)
    (hFound : ∀ a s', Took [] s s' → stop s'.rbuf = some a → motive (.ok (some a), s'))
    (hEof : ∀ s', Took [] s s' → s'.reads = [] → stop s'.rbuf = none → motive (.ok none, s'))
    (hErr : ∀ kind message s', Took [] s s' → .failed kind message ∈ s.reads →
      motive (.error (.io kind message), s')) :
    motive (s.fillUntil stop) := by
  obtain ⟨closed, rbuf, reads⟩ := s
  show motive (fillLoop closed stop reads rbuf)
  induction reads generalizing rbuf with
  | nil =>
    cases hStop : stop rbuf with
    | some a =>
      rw [fillLoop_found hStop]
      exact hFound a _ (.refl _) hStop
    | none =>
      rw [fillLoop_nil hStop]
      exact hEof _ (.refl _) rfl hStop
  | cons r reads ih =>
    cases hStop : stop rbuf with
    | some a =>
      rw [fillLoop_found hStop]
      exact hFound a _ (.refl _) hStop
    | none =>
      cases r with
      | failed kind message =>
        rw [fillLoop_failed hStop]
        refine hErr kind message _ ⟨rfl, [.failed kind message], rfl, ?_⟩ List.mem_cons_self
        simp [bytesOf, Read.bytes]
      | chunk bytes hBytes =>
        rw [fillLoop_chunk hStop]
        -- this fill, then the others
        have hFill : Took [] ⟨closed, rbuf, .chunk bytes hBytes :: reads⟩
            ⟨closed, rbuf ++ bytes, reads⟩ :=
          ⟨rfl, [.chunk bytes hBytes], rfl, by simp [bytesOf, Read.bytes]⟩
        refine ih (rbuf ++ bytes) ?_ ?_ ?_
        · exact fun a s' hTook => hFound a s' (hFill.of_pull hTook)
        · exact fun s' hTook => hEof s' (hFill.of_pull hTook)
        · exact fun kind message s' hTook hMem =>
            hErr kind message s' (hFill.of_pull hTook) (List.mem_cons_of_mem _ hMem)

end Source

/-! ## Answers and the bytes they are about -/

def lineEnds : List Bytes := [[], [0x0A], [0x0D, 0x0A]]

/-- The bytes that an answer returns, with the end of a line that is stripped. -/
inductive Returned : Op → Except ReadError Value → Bytes → Prop
  | bytes {op : Op} {b : Bytes} : (∀ n, op ≠ .peek n) → Returned op (.ok (.bytes b)) b
  | peeked {n : Int} {b : Bytes} : Returned (.peek n) (.ok (.bytes b)) []
  | text {op : Op} {t : Text} : op ≠ .readLine → Returned op (.ok (.text t)) t.bytes
  | line {t : Text} {ending : Bytes} :
      ending ∈ lineEnds → Returned .readLine (.ok (.text t)) (t.bytes ++ ending)
  | nil {op : Op} : Returned op (.ok .nil) []
  | stream {op : Op} {h : Nat} : Returned op (.ok (.stream h)) []
  | error {op : Op} {e : ReadError} : Returned op (.error e) []

/-- The bytes of a line or a remainder that is refused, since it is not UTF-8. -/
inductive Refused : Op → Except ReadError Value → Bytes → Prop
  | intro {op : Op} {message : String} {text ending : Bytes} :
      op = .readAll ∨ op = .readLine → fromUtf8 text ≠ .ok () → ending ∈ lineEnds →
        Refused op (.error (.parseError message)) (text ++ ending)

/-- The bytes that an operation with this answer takes. -/
def Accounts (op : Op) (answer : Except ReadError Value) (taken : Bytes) : Prop :=
  Returned op answer taken ∨ Refused op answer taken

/-- An operation takes what its answer accounts for. -/
def Accounted (op : Op) (s : Source) (outcome : Outcome) : Prop :=
  ∃ taken, Took taken s outcome.2 ∧ Accounts op outcome.1 taken

section Accounted

open Source

variable {op : Op} {s s' : Source}

theorem accounted_error (op : Op) (s : Source) (e : ReadError) : Accounted op s (.error e, s) :=
  ⟨[], .refl s, .inl .error⟩

theorem Accounted.of_pull {outcome : Outcome} (hTook : Took [] s s')
    (h : Accounted op s' outcome) : Accounted op s outcome := by
  obtain ⟨taken, hTaken, hAnswer⟩ := h
  exact ⟨taken, hTook.of_pull hTaken, hAnswer⟩

theorem accounted_whenOpen {k : Source → Outcome} (h : Accounted op s (k s)) :
    Accounted op s (s.whenOpen k) := by
  unfold whenOpen
  split_ifs
  · exact accounted_error op s closedError
  · exact h

theorem accounted_drainUpTo (n : Nat) {answer : Bytes → Except ReadError Value}
    (h : Accounts op (answer (s.rbuf.take n)) (s.rbuf.take n)) :
    Accounted op s (s.drainUpTo n answer) :=
  ⟨_, took_drainUpTo n s answer, h⟩

theorem accounted_drainAll {answer : Bytes → Except ReadError Value}
    (h : Accounts op (answer s.rbuf) s.rbuf) : Accounted op s (s.drainAll answer) := by
  refine accounted_drainUpTo _ ?_
  rwa [List.take_length]

/-- Bytes that are handed out, by anything but a look. -/
theorem accounts_bytes (b : Bytes) (h : ∀ n, op ≠ .peek n) : Accounts op (bytesValue b) b :=
  .inl (.bytes h)

/-- A decoded remainder: returned, or refused. -/
theorem accounts_decodeUtf8 (name : String) (b : Bytes) (h : op = .readAll) :
    Accounts op (decodeUtf8 name b) b := by
  unfold decodeUtf8
  split_ifs with hValid
  · exact .inl (.text (by rw [h]; exact fun h => by cases h))
  · have hRefused := @Refused.intro op s!"StringStream.{name}: not valid UTF-8" b [] (.inl h) hValid
      List.mem_cons_self
    rw [List.append_nil] at hRefused
    exact .inr hRefused

/-- A decoded line, with what was stripped. -/
theorem accounts_line (name : String) {line ending : Bytes} (h : ending ∈ lineEnds) :
    Accounts .readLine (decodeUtf8 name line) (line ++ ending) := by
  unfold decodeUtf8
  split_ifs with hValid
  · exact .inl (.line h)
  · exact .inr (.intro (.inr rfl) hValid h)

/-- What is stripped off a line is its end. -/
theorem stripLine_append (line : Bytes) :
    ∃ ending ∈ lineEnds, line ++ [0x0A] = stripLine (line ++ [0x0A]) ++ ending := by
  unfold stripLine
  simp only [List.dropLast_concat]
  split_ifs with hCr
  · refine ⟨[0x0D, 0x0A], by simp [lineEnds], ?_⟩
    have hSplit := List.dropLast_append_getLast? _ hCr
    calc line ++ [0x0A] = (line.dropLast ++ [0x0D]) ++ [0x0A] := by rw [hSplit]
      _ = line.dropLast ++ [0x0D, 0x0A] := List.append_assoc _ _ _
  · exact ⟨[0x0A], by simp [lineEnds], rfl⟩

/-- The bytes up to a line feed end with it. -/
theorem take_lineFeed {buf : Bytes} {stop : Nat} (h : findSubsequence [0x0A] buf = some stop) :
    ∃ line, buf.take stop = line ++ [0x0A] := by
  obtain ⟨⟨line, ⟨after, rfl⟩, rfl⟩, -⟩ := findSubsequence_eq_some.mp h
  refine ⟨line, ?_⟩
  rw [← List.length_append, List.take_left]

/-- Each operation of a byte stream takes what it answers, or nothing. -/
theorem accounted_byteStream (op : Op) (s : Source) :
    Accounted op s (perform .byteStream op s) := by
  -- by the operation: what is at hand first, then what the fills bring, then the failing fill
  cases op with
  | read =>
    refine accounted_whenOpen ?_
    split_ifs
    · refine fillOnce_elim s (fun _ s' hTook => ?_) fun e s' hTook => ?_
      · exact .of_pull hTook (accounted_drainAll (accounts_bytes _ fun _ h => by cases h))
      · exact .of_pull hTook (accounted_error _ s' e)
    · exact accounted_drainAll (accounts_bytes _ fun _ h => by cases h)
  | readN n =>
    refine accounted_whenOpen ?_
    split_ifs
    · refine fillOnce_elim s (fun _ s' hTook => ?_) fun e s' hTook => ?_
      · exact .of_pull hTook (accounted_drainUpTo _ (accounts_bytes _ fun _ h => by cases h))
      · exact .of_pull hTook (accounted_error _ s' e)
    · exact accounted_drainUpTo _ (accounts_bytes _ fun _ h => by cases h)
  | peek n =>
    refine accounted_whenOpen (fillUntil_elim _ s ?_ ?_ ?_)
    · exact fun _ s' hTook _ => ⟨[], hTook, .inl .peeked⟩
    · exact fun s' hTook _ _ => ⟨[], hTook, .inl .peeked⟩
    · exact fun _ _ s' hTook _ => .of_pull hTook (accounted_error _ s' _)
  | readUntil delim =>
    show Accounted _ s (ByteStream.readUntil delim s)
    unfold ByteStream.readUntil
    split_ifs
    · exact accounted_error _ s _
    refine accounted_whenOpen (fillUntil_elim _ s ?_ ?_ ?_)
    · exact fun stop s' hTook _ =>
        .of_pull hTook (accounted_drainUpTo stop (accounts_bytes _ fun _ h => by cases h))
    · exact fun s' hTook _ _ =>
        .of_pull hTook (accounted_drainAll (accounts_bytes _ fun _ h => by cases h))
    · exact fun _ _ s' hTook _ => .of_pull hTook (accounted_error _ s' _)
  | readUntilLimit delim limit =>
    show Accounted _ s (ByteStream.readUntilLimit delim limit s)
    unfold ByteStream.readUntilLimit
    split_ifs
    · exact accounted_error _ s _
    refine accounted_whenOpen (fillUntil_elim _ s ?_ ?_ ?_)
    · intro found s' hTook _
      cases found with
      | some stop =>
        exact .of_pull hTook (accounted_drainUpTo stop (accounts_bytes _ fun _ h => by cases h))
      | none => exact .of_pull hTook (accounted_error _ s' _)
    · exact fun s' hTook _ _ =>
        .of_pull hTook (accounted_drainAll (accounts_bytes _ fun _ h => by cases h))
    · exact fun _ _ s' hTook _ => .of_pull hTook (accounted_error _ s' _)
  | readExactly n =>
    refine accounted_whenOpen (fillUntil_elim _ s ?_ ?_ ?_)
    · exact fun _ s' hTook _ =>
        .of_pull hTook (accounted_drainUpTo _ (accounts_bytes _ fun _ h => by cases h))
    · exact fun s' hTook _ _ => .of_pull hTook (accounted_error _ s' _)
    · exact fun _ _ s' hTook _ => .of_pull hTook (accounted_error _ s' _)
  | readAll =>
    refine accounted_whenOpen (fillUntil_elim _ s ?_ ?_ ?_)
    · exact fun _ s' hTook _ =>
        .of_pull hTook (accounted_drainAll (accounts_bytes _ fun _ h => by cases h))
    · exact fun s' hTook _ _ =>
        .of_pull hTook (accounted_drainAll (accounts_bytes _ fun _ h => by cases h))
    · exact fun _ _ s' hTook _ => .of_pull hTook (accounted_error _ s' _)
  | readLine => exact accounted_error _ s _
  | stringStream => exact accounted_error _ s _
  | stringStreamOver => exact accounted_error _ s _

/-- The text that is found at the front of the read-ahead is UTF-8. -/
theorem decodeUtf8_someText {name : String} {buf : Bytes} {valid : Nat}
    (h : StringStream.someText buf = some (some valid)) :
    ∃ t : Text, t.bytes = buf.take valid ∧ decodeUtf8 name (buf.take valid) = .ok (.text t) := by
  have hValid : fromUtf8 (buf.take valid) = .ok () := by
    unfold StringStream.someText StringStream.utf8Split at h
    cases hCheck : fromUtf8 buf with
    | ok u =>
      rw [hCheck] at h
      dsimp only at h
      split_ifs at h
      · obtain rfl := Option.some.inj (Option.some.inj h)
        rw [List.take_length]
        exact hCheck
      · cases h
    | error e =>
      rw [hCheck] at h
      dsimp only at h
      split_ifs at h
      · obtain rfl := Option.some.inj (Option.some.inj h)
        exact (fromUtf8_take_validUpTo hCheck).2
      · cases h
  exact ⟨⟨_, hValid⟩, rfl, dif_pos hValid⟩

/-- Each operation of a text stream takes the text it answers, with the end of a line, or what it
refuses, or nothing. -/
theorem accounted_stringStream (op : Op) (s : Source) :
    Accounted op s (perform .stringStream op s) := by
  cases op with
  | read =>
    refine accounted_whenOpen (fillUntil_elim _ s ?_ ?_ ?_)
    · -- the valid front of the buffer is taken, as text
      intro found s' hTook hFound
      refine .of_pull hTook ?_
      cases found with
      | some valid =>
        obtain ⟨t, hBytes, hText⟩ := @decodeUtf8_someText "read" s'.rbuf valid hFound
        refine accounted_drainUpTo valid ?_
        rw [hText, ← hBytes]
        exact .inl (.text fun h => by cases h)
      | none => exact accounted_error _ s' _
    · intro s' hTook _ _
      refine .of_pull hTook ?_
      -- at the end of the stream only an empty buffer is no error
      dsimp only
      split_ifs
      · exact ⟨[], .refl s', .inl (@Returned.text .read ⟨[], rfl⟩ fun h => by cases h)⟩
      · exact accounted_error _ s' _
    · exact fun _ _ s' hTook _ => .of_pull hTook (accounted_error _ s' _)
  | readAll =>
    refine accounted_whenOpen (fillUntil_elim _ s ?_ ?_ ?_)
    · exact fun _ s' hTook _ =>
        .of_pull hTook (accounted_drainAll (accounts_decodeUtf8 "readAll" _ rfl))
    · exact fun s' hTook _ _ =>
        .of_pull hTook (accounted_drainAll (accounts_decodeUtf8 "readAll" _ rfl))
    · exact fun _ _ s' hTook _ => .of_pull hTook (accounted_error _ s' _)
  | readLine =>
    refine accounted_whenOpen (fillUntil_elim _ s ?_ ?_ ?_)
    · intro stop s' hTook hFound
      refine .of_pull hTook (accounted_drainUpTo stop ?_)
      -- the line and what was stripped from its end are what left the buffer
      obtain ⟨line, hLine⟩ := take_lineFeed hFound
      obtain ⟨ending, hEnding, hStrip⟩ := stripLine_append line
      rw [hLine]
      nth_rewrite 2 [hStrip]
      exact accounts_line "readLine" hEnding
    · intro s' hTook _ _
      refine .of_pull hTook (accounted_drainAll ?_)
      split_ifs with hRest
      · rw [hRest]
        exact .inl .nil
      · have hLine := @accounts_line "readLine" s'.rbuf [] (by simp [lineEnds])
        rwa [List.append_nil] at hLine
    · exact fun _ _ s' hTook _ => .of_pull hTook (accounted_error _ s' _)
  -- a text stream refuses every read of bytes
  | readN n => exact accounted_error _ s _
  | peek n => exact accounted_error _ s _
  | readUntil delim => exact accounted_error _ s _
  | readUntilLimit delim limit => exact accounted_error _ s _
  | readExactly n => exact accounted_error _ s _
  | stringStream => exact accounted_error _ s _
  | stringStreamOver => exact accounted_error _ s _

theorem accounted_perform (kind : Kind) (op : Op) (s : Source) :
    Accounted op s (perform kind op s) := by
  cases kind with
  | byteStream => exact accounted_byteStream op s
  | stringStream => exact accounted_stringStream op s

end Accounted

end Quoin.Streams
