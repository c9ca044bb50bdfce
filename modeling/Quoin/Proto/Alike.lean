import Quoin.Proto.RoundTrip

/-!
# Quoin — structured values are read one way

What `read_dv` makes of the bytes of a value when the value does not read
back: nested too deep, or a resource whose ext payload is too long. It
refuses, and with the same error whatever follows, so two frames that carry
the same value agree on it (`readDvRoom_agrees`, `readOptDv_agrees`, stated
with `Wire.Agree`) without anyone asking which error it is.
-/

namespace Quoin.Proto

open Wire

/-! ## Lengths -/

/-- Every string, binary and array inside a value fits its 32-bit header. -/
def LengthsFit (dv : DataValue) : Prop := ∀ n ∈ dv.lengths, n < 2 ^ 32

namespace LengthsFit

theorem of_parts {dv part : DataValue} (h : LengthsFit dv)
    (hsub : ∀ p ∈ part.parts, p ∈ dv.parts) : LengthsFit part := by
  intro n hn
  obtain ⟨p, hp, hnp⟩ := List.mem_flatMap.mp hn
  exact h n (List.mem_flatMap.mpr ⟨p, hsub p hp, hnp⟩)

theorem node {dv : DataValue} (h : LengthsFit dv) {n : Nat} (hn : n ∈ dv.nodeLengths) :
    n < 2 ^ 32 :=
  h n (List.mem_flatMap.mpr ⟨dv, dv.mem_parts_self, hn⟩)

theorem item {items : List DataValue} (h : LengthsFit (.list items)) {item : DataValue}
    (hmem : item ∈ items) : LengthsFit item :=
  h.of_parts fun p hp => by
    simp [DataValue.parts, mem_itemsParts hmem hp]

theorem entry {entries : List (String × DataValue)} (h : LengthsFit (.map entries))
    {entry : String × DataValue} (hmem : entry ∈ entries) : LengthsFit entry.2 :=
  h.of_parts fun p hp => by
    simp [DataValue.parts, mem_entriesParts hmem hp]

theorem key {entries : List (String × DataValue)} (h : LengthsFit (.map entries))
    {entry : String × DataValue} (hmem : entry ∈ entries) : strFits entry.1 := by
  have hlen : (utf8 entry.1).length ∈ (DataValue.map entries).nodeLengths := by
    simp only [DataValue.nodeLengths, List.mem_cons, List.mem_map]
    exact Or.inr ⟨entry, hmem, rfl⟩
  exact h.node hlen

/-- A value with no resource inside has no ext payload to bound. -/
theorem fits {dv : DataValue} (h : LengthsFit dv) (hpayloads : dv.payloads = []) : Fits dv where
  lengths := h
  payloads n hn := by simp [hpayloads] at hn

end LengthsFit

/-! ## Collections -/

variable {inner : Dec DataValue}

theorem readDvBody_arrayHeader_agrees {n : Nat} (hn : n < 2 ^ 32) {s : Bytes}
    (h : Agree (readList inner n) s (readList inner n) s) :
    Agree (readDvBody inner) (writeArrayHeader n ++ s) (readDvBody inner)
      (writeArrayHeader n ++ s) := by
  obtain ⟨r, hr, -⟩ := h
  have hanswer : Answers (readDvBody inner) (writeArrayHeader n ++ s) r := by
    intro rest
    rw [List.append_assoc, readDvBody_arrayHeader hn]
    exact hr rest
  exact ⟨r, hanswer, hanswer⟩

theorem readDvBody_mapHeader_agrees {n : Nat} (hn : n < 2 ^ 32) {s : Bytes}
    (h : Agree (readMap inner n) s (readMap inner n) s) :
    Agree (readDvBody inner) (writeMapHeader n ++ s) (readDvBody inner)
      (writeMapHeader n ++ s) := by
  obtain ⟨r, hr, -⟩ := h
  have hanswer : Answers (readDvBody inner) (writeMapHeader n ++ s) r := by
    intro rest
    rw [List.append_assoc, readDvBody_mapHeader hn]
    exact hr rest
  exact ⟨r, hanswer, hanswer⟩

/-- The elements of a counted list, each read one way. -/
theorem forall₂_map_self {α : Type} {R : Bytes → Bytes → Prop} {write : α → Bytes}
    {xs : List α} (h : ∀ x ∈ xs, R (write x) (write x)) :
    List.Forall₂ R (xs.map write) (xs.map write) := by
  induction xs with
  | nil => exact .nil
  | cons x xs ih => exact .cons (h x (by simp)) (ih fun y hy => h y (by simp [hy]))

theorem repeatN_agrees {α β : Type} {p : Dec β} {write : α → Bytes} {xs : List α}
    (h : ∀ x ∈ xs, Agree p (write x) p (write x)) :
    Agree (Reader.repeatN p xs.length) (xs.flatMap write) (Reader.repeatN p xs.length)
      (xs.flatMap write) := by
  have hlist := Agree.repeatN (forall₂_map_self h)
  rwa [List.length_map, ← List.flatMap_def] at hlist

theorem readEntry_agrees {entry : String × DataValue}
    (hkey : Agree inner (writeStr entry.1) inner (writeStr entry.1))
    (hvalue : Agree inner (writeDv entry.2) inner (writeDv entry.2)) :
    Agree (readEntry inner) (writeEntry entry) (readEntry inner) (writeEntry entry) := by
  unfold readEntry writeEntry
  refine hkey.bind fun key => ?_
  cases key with
  | str k => exact hvalue.bind_pure fun _ => Agree.pure _
  | _ => exact Agree.of_refuses (fun _ => rfl) (fun _ => rfl)

/-! ## The whole value -/

/-- A key, read as a value. With no room left it is refused. -/
theorem readDvRoom_key_agrees {s : String} (hs : strFits s) (room : Nat) :
    Agree (readDvRoom room) (writeStr s) (readDvRoom room) (writeStr s) := by
  cases room with
  | zero => exact Agree.of_refuses (fun _ => rfl) (fun _ => rfl)
  | succ room => exact Agree.same (readDvBody_writeStr hs)

/-- Whatever a value nests and however little room there is, the reader makes one
thing of its bytes. By induction on the room, as `readDvRoom_reads`. -/
theorem readDvRoom_agrees {room : Nat} {dv : DataValue} (h : LengthsFit dv) :
    Agree (readDvRoom room) (writeDv dv) (readDvRoom room) (writeDv dv) := by
  induction room generalizing dv with
  | zero => exact Agree.of_refuses (fun _ => rfl) (fun _ => rfl)
  | succ room ih =>
    cases dv with
    | list items =>
      rw [readDvRoom, writeDv, writeItems_eq]
      refine readDvBody_arrayHeader_agrees (h.node (by simp [DataValue.nodeLengths])) ?_
      have hitems := repeatN_agrees fun item hmem => ih (h.item hmem)
      exact hitems.bind_pure fun _ => Agree.pure _
    | map entries =>
      rw [readDvRoom, writeDv, writeEntries_eq]
      refine readDvBody_mapHeader_agrees (h.node (by simp [DataValue.nodeLengths])) ?_
      have hentries := repeatN_agrees fun entry hmem =>
        readEntry_agrees (readDvRoom_key_agrees (h.key hmem) room) (ih (h.entry hmem))
      exact hentries.bind_pure fun _ => Agree.pure _
    | resource id className =>
      have hname : strFits className := h.node (by simp [DataValue.nodeLengths])
      by_cases hpay : 8 + (utf8 className).length < 2 ^ 32
      · rw [readDvRoom, writeDv]
        refine Agree.same (readDvBody_writeExt ?_ (extPayload_resource id className))
        simpa [resourcePayload] using hpay
      · have hrefuse : Refuses (readDvRoom (room + 1)) (writeDv (.resource id className))
            .resourcePayloadShort :=
          readDvBody_longResource id (Nat.le_of_not_lt hpay) hname
        exact Agree.of_refuses hrefuse hrefuse
    | _ =>
      refine Agree.same (readDvRoom_reads (by simp [DataValue.nesting]) (h.fits ?_))
      simp [DataValue.payloads, DataValue.parts, DataValue.nodePayloads]

/-! ## Optional values -/

theorem writeArrayHeader_head (n : Nat) :
    ∃ b t, writeArrayHeader n = b :: t ∧ b ≠ 0xc0 := by
  unfold writeArrayHeader
  split_ifs with h16
  · refine ⟨_, _, rfl, ?_⟩
    revert h16 n
    decide
  · exact ⟨0xdc, _, rfl, by decide⟩
  · exact ⟨0xdd, _, rfl, by decide⟩

theorem writeMapHeader_head (n : Nat) : ∃ b t, writeMapHeader n = b :: t ∧ b ≠ 0xc0 := by
  unfold writeMapHeader
  split_ifs with h16
  · refine ⟨_, _, rfl, ?_⟩
    revert h16 n
    decide
  · exact ⟨0xde, _, rfl, by decide⟩
  · exact ⟨0xdf, _, rfl, by decide⟩

theorem writeExtHeader_head (n : Nat) : ∃ b t, writeExtHeader n = b :: t ∧ b ≠ 0xc0 := by
  unfold writeExtHeader
  split_ifs
  all_goals exact ⟨_, _, rfl, by decide⟩

theorem readDvRoom_nil (room : Nat) : Reads (readDvRoom (room + 1)) [0xc0] .null :=
  (takeU8_reads 0xc0).bind_pure (Reads.pure _)

/-- What starts with the nil marker reads as null. -/
theorem writeDv_head_of_fits {dv : DataValue} (h : Fits dv) (hnull : dv ≠ .null) :
    ∃ b t, writeDv dv = b :: t ∧ b ≠ 0xc0 := by
  have hread := readDvRoom_reads (Nat.lt_succ_self dv.nesting) h []
  rw [List.append_nil] at hread
  cases hbytes : writeDv dv with
  | nil =>
    rw [hbytes] at hread
    cases hread
  | cons b t =>
    refine ⟨b, t, rfl, ?_⟩
    rintro rfl
    rw [hbytes] at hread
    have heq := Reads.eq_of_run (readDvRoom_nil dv.nesting) hread
    exact hnull heq.1

/-- Only nil is written starting with the nil marker. -/
theorem writeDv_head {dv : DataValue} (h : LengthsFit dv) (hnull : dv ≠ .null) :
    ∃ b t, writeDv dv = b :: t ∧ b ≠ 0xc0 := by
  cases dv with
  | list items =>
    obtain ⟨b, t, hhead, hb⟩ := writeArrayHeader_head items.length
    exact ⟨b, t ++ writeItems items, by simp [writeDv, hhead], hb⟩
  | map entries =>
    obtain ⟨b, t, hhead, hb⟩ := writeMapHeader_head entries.length
    exact ⟨b, t ++ writeEntries entries, by simp [writeDv, hhead], hb⟩
  | resource id className =>
    obtain ⟨b, t, hhead, hb⟩ := writeExtHeader_head (resourcePayload id className).length
    exact ⟨b, _, by rw [writeDv, writeExt, hhead, List.cons_append], hb⟩
  | _ =>
    refine writeDv_head_of_fits (h.fits ?_) hnull
    simp [DataValue.payloads, DataValue.parts, DataValue.nodePayloads]

theorem readOptDv_agrees {dv : Option DataValue} (h : ∀ d ∈ dv, LengthsFit d) :
    Agree readOptDv (writeOptDv dv) readOptDv (writeOptDv dv) := by
  cases dv with
  | none => exact Agree.same takeNil_or_nil
  | some d =>
    by_cases hnull : d = .null
    · subst hnull
      exact Agree.same takeNil_or_nil
    · obtain ⟨b, t, hhead, hb⟩ := writeDv_head (h d rfl) hnull
      have hwrite : writeOptDv (some d) = writeDv d := by
        cases d <;> first | contradiction | rfl
      have hread : Agree (readDv 0 >>= fun a => pure (some a)) (writeDv d)
          (readDv 0 >>= fun a => pure (some a)) (writeDv d) :=
        (readDvRoom_agrees (h d rfl)).bind_pure fun _ => Agree.pure _
      obtain ⟨r, hr, -⟩ := hread
      have hanswer : Answers readOptDv (writeDv d) r := by
        intro rest
        have hnil : takeNil (writeDv d ++ rest) = .ok (false, writeDv d ++ rest) := by
          rw [hhead, List.cons_append, takeNil]
          rintro tail heq
          injection heq with hfirst
          exact hb hfirst
        have heq : readOptDv (writeDv d ++ rest)
            = (readDv 0 >>= fun a => pure (some a)) (writeDv d ++ rest) := by
          show (takeNil (writeDv d ++ rest) >>= fun q => _) = _
          rw [hnil]
          rfl
        rw [heq]
        exact hr rest
      rw [hwrite]
      exact ⟨r, hanswer, hanswer⟩

end Quoin.Proto
