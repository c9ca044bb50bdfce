import Mathlib
import Quoin.Proto.Evolution

/-!
# Quoin — the nesting limit of a value

`read_dv` counts the levels it goes down and refuses the value at level
`MAX_DV_DEPTH + 1`; `write_dv` counts nothing. So a packed value comes back
exactly when it nests within the limit, and otherwise the reader refuses it
with the depth error and no other (`readDvRoom_refuses`): what it meets on the
way to the first value that lies too deep reads back. In the other direction,
whatever bytes it is given, what it answers nests within the limit
(`skips_readDvRoom`, which knows how deep a value goes).

Both ask that the 32-bit headers can announce the value (`Fits`). A longer
string comes back shorter, or is refused for another reason than its depth
(`unpackDv_wrapped`).

## Results

* `readDvRoom_refuses` — a value that lies too deep is refused for its depth;
* `unpackDv_limit` — a packed value comes back exactly if it nests within the limit, and what comes
  back always does;
* `unpackDv_wrapped` — a text beyond 32 bits is refused for something else.
-/

namespace Quoin.Proto

open Wire

/-! ## Too deep -/

/-- Past the last level nothing is read, not even a key. -/
theorem readDvRoom_zero_refuses (s : Bytes) : Refuses (readDvRoom 0) s .nestingTooDeep :=
  fun _ => rfl

theorem readEntry_refuses_key {inner : Dec DataValue} {entry : String × DataValue}
    {err : DecodeError} (hkey : Refuses inner (writeStr entry.1) err) :
    Refuses (readEntry inner) (writeEntry entry) err := by
  unfold readEntry writeEntry
  exact hkey.bind' _

theorem readEntry_refuses_value {inner : Dec DataValue} {entry : String × DataValue}
    {err : DecodeError} (hkey : Reads inner (writeStr entry.1) (.str entry.1))
    (hvalue : Refuses inner (writeDv entry.2) err) :
    Refuses (readEntry inner) (writeEntry entry) err := by
  unfold readEntry writeEntry
  exact Refuses.of_reads hkey hvalue.bind

/-- With no more room than the value nests, the reader refuses what the writer
wrote, because of its depth. By induction on the room: the members before the
first one that is too deep read back. -/
theorem readDvRoom_refuses {room : Nat} {dv : DataValue} (hdeep : room ≤ dv.nesting)
    (hfits : Fits dv) : Refuses (readDvRoom room) (writeDv dv) .nestingTooDeep := by
  -- on the room: where none is left, and where there is some
  induction room generalizing dv with
  | zero => exact readDvRoom_zero_refuses _
  | succ room ih =>
    cases dv with
    | list items =>
      rw [DataValue.nesting] at hdeep
      have hitem : ∀ item ∈ items, Reads (readDvRoom room) (writeDv item) item ∨
          Refuses (readDvRoom room) (writeDv item) .nestingTooDeep := by
        intro item hmem
        rcases Nat.lt_or_ge item.nesting room with hlt | hge
        · exact Or.inl (readDvRoom_reads hlt (hfits.item hmem))
        · exact Or.inr (ih hge (hfits.item hmem))
      -- the first child that is too deep is met behind ones that are read
      obtain ⟨item, hmem, hge⟩ := exists_item_of_lt_nesting hdeep
      have hitems := Refuses.repeatN hitem ⟨item, hmem, ih hge (hfits.item hmem)⟩
      intro rest
      rw [readDvRoom, writeDv, List.append_assoc,
        readDvBody_arrayHeader (hfits.node (by simp [DataValue.nodeLengths])), writeItems_eq]
      exact hitems.bind rest
    | map entries =>
      rw [DataValue.nesting] at hdeep
      have hrefuse : ∀ entry ∈ entries, room ≤ entry.2.nesting →
          Refuses (readEntry (readDvRoom room)) (writeEntry entry) .nestingTooDeep := by
        intro entry hmem hge
        cases room with
        | zero => exact readEntry_refuses_key (readDvRoom_zero_refuses _)
        | succ room =>
          have hkey : strFits entry.1 := hfits.key hmem
          exact readEntry_refuses_value (readDvBody_writeStr hkey) (ih hge (hfits.entry hmem))
      have hentry : ∀ entry ∈ entries,
          Reads (readEntry (readDvRoom room)) (writeEntry entry) entry ∨
          Refuses (readEntry (readDvRoom room)) (writeEntry entry) .nestingTooDeep := by
        intro entry hmem
        rcases Nat.lt_or_ge entry.2.nesting room with hlt | hge
        · -- there is room for the value, so there is for its key
          obtain ⟨r, rfl⟩ : ∃ r, room = r + 1 := ⟨room - 1, by omega⟩
          exact Or.inl (readEntry_reads (readDvBody_writeStr (hfits.key hmem))
            (readDvRoom_reads hlt (hfits.entry hmem)))
        · exact Or.inr (hrefuse entry hmem hge)
      obtain ⟨entry, hmem, hge⟩ := exists_entry_of_lt_nesting hdeep
      have hentries := Refuses.repeatN hentry ⟨entry, hmem, hrefuse entry hmem hge⟩
      intro rest
      rw [readDvRoom, writeDv, List.append_assoc,
        readDvBody_mapHeader (hfits.node (by simp [DataValue.nodeLengths])), writeEntries_eq]
      exact hentries.bind rest
    | _ => simp [DataValue.nesting] at hdeep

theorem unpackDv_packDv_tooDeep {dv : DataValue} (hdeep : maxDvDepth < dv.nesting)
    (hfits : Fits dv) : unpackDv (packDv dv) = .error .nestingTooDeep := by
  have hrefuse := readDvRoom_refuses hdeep hfits []
  rw [List.append_nil] at hrefuse
  have hread : readDv 0 (writeDv dv) = .error .nestingTooDeep := hrefuse
  rw [unpackDv, packDv, hread]
  rfl

/-! ## Whatever the bytes -/

/-- An unpacked value is one that was read. -/
theorem read_of_unpackDv {bytes : Bytes} {dv : DataValue} (h : unpackDv bytes = .ok dv) :
    ∃ rest, readDv 0 bytes = .ok (dv, rest) := by
  obtain ⟨⟨value, rest⟩, hread, hrest⟩ := bind_ok h
  refine ⟨rest, ?_⟩
  have hsame : value = dv := by
    cases rest with
    | nil => exact Except.ok.inj hrest
    | cons b rest => cases hrest
  rw [hread, hsame]

theorem nesting_le_of_unpackDv {bytes : Bytes} {dv : DataValue} (h : unpackDv bytes = .ok dv) :
    dv.nesting ≤ maxDvDepth := by
  obtain ⟨rest, hread⟩ := read_of_unpackDv h
  obtain ⟨_, -, hwithin⟩ := skips_readDvRoom (maxDvDepth + 1) bytes dv rest hread
  exact Nat.le_of_lt_succ hwithin

/-- **The nesting limit.** A value that the headers can announce comes back from
its bytes if it nests within the limit and is refused for its depth if it does
not; and no bytes at all unpack to a value that nests deeper. -/
theorem unpackDv_limit (dv : DataValue) (bytes : Bytes) :
    (Fits dv → unpackDv (packDv dv)
        = if dv.nesting ≤ maxDvDepth then .ok dv else .error .nestingTooDeep) ∧
      ∀ answer, unpackDv bytes = .ok answer → answer.nesting ≤ maxDvDepth := by
  refine ⟨fun hfits => ?_, fun answer h => nesting_le_of_unpackDv h⟩
  split_ifs with hnest
  · exact unpackDv_packDv hnest hfits
  · exact unpackDv_packDv_tooDeep (by omega) hfits

/-- A list in a list, and so on: `n` lists around `dv`. -/
def nested : (n : Nat) → DataValue → DataValue
  | 0, dv => dv
  | n + 1, dv => .list [nested n dv]

theorem nesting_nested (n : Nat) (dv : DataValue) : (nested n dv).nesting = n + dv.nesting := by
  induction n with
  | zero => simp [nested]
  | succ n ih =>
    rw [nested, DataValue.nesting, itemsNesting, itemsNesting, ih]
    omega

theorem fits_nested (n : Nat) : Fits (nested n (.int 1)) := by
  induction n with
  | zero => exact ⟨by decide, by decide⟩
  | succ n ih =>
    have hparts : (nested (n + 1) (.int 1)).parts
        = .list [nested n (.int 1)] :: (nested n (.int 1)).parts := by
      simp [nested, DataValue.parts, itemsParts]
    constructor
    · intro k hk
      rw [DataValue.lengths, hparts, List.flatMap_cons] at hk
      rcases List.mem_append.mp hk with hnode | hinner
      · have hone : k = 1 := by simpa [DataValue.nodeLengths] using hnode
        omega
      · exact ih.lengths k hinner
    · intro k hk
      rw [DataValue.payloads, hparts, List.flatMap_cons] at hk
      rcases List.mem_append.mp hk with hnode | hinner
      · simp [DataValue.nodePayloads] at hnode
      · exact ih.payloads k hinner

/-- The value of the source's own test, one level at the limit and one past it. -/
theorem unpackDv_limit_nested :
    unpackDv (packDv (nested 64 (.int 1))) = .ok (nested 64 (.int 1)) ∧
      unpackDv (packDv (nested 65 (.int 1))) = .error .nestingTooDeep := by
  have hAt : (nested 64 (.int 1)).nesting = 64 := nesting_nested 64 _
  have hPast : (nested 65 (.int 1)).nesting = 65 := nesting_nested 65 _
  have hLast := (unpackDv_limit (nested 64 (.int 1)) []).1 (fits_nested 64)
  have hNext := (unpackDv_limit (nested 65 (.int 1)) []).1 (fits_nested 65)
  rw [if_pos (by rw [hAt]; decide)] at hLast
  rw [if_neg (by rw [hPast]; decide)] at hNext
  exact ⟨hLast, hNext⟩

/-! ## Where the lengths wrap -/

theorem unpackDv_trailing {bytes rest : Bytes} {dv : DataValue}
    (h : readDv 0 bytes = .ok (dv, rest)) (hrest : rest ≠ []) :
    unpackDv bytes = .error (.packedTrailingBytes rest.length) := by
  have hempty : rest.isEmpty = false := by simpa using hrest
  rw [unpackDv, h]
  show (if rest.isEmpty then _ else _) = _
  rw [hempty]
  rfl

theorem readDv_wrapped : Reads (readDv 0) (0xdb :: beBytes 4 0) (.str "") := by
  refine (takeU8_reads 0xdb).bind (c := beBytes 4 0) ?_
  refine (takeU32_reads 0).bind_pure ?_
  exact (Reads.take (s := []) rfl).bind_nil (Reads.pure (DataValue.str ""))

/-- A string of 2^32 letters comes back empty, with all its letters behind it; a
resource whose name alone would fit is refused for its payload. Neither nests. -/
theorem unpackDv_wrapped :
    (DataValue.str longText).nesting = 0 ∧ (DataValue.resource 0 longName).nesting = 0 ∧
      unpackDv (packDv (.str longText)) = .error (.packedTrailingBytes (2 ^ 32)) ∧
      unpackDv (packDv (.resource 0 longName)) = .error .resourcePayloadShort := by
  refine ⟨rfl, rfl, ?_, ?_⟩
  · have hlen : (utf8 longText).length = 2 ^ 32 := length_utf8_replicate _
    have hread : readDv 0 (packDv (.str longText)) = .ok (.str "", utf8 longText) := by
      rw [packDv, writeDv, writeStr_wrapped hlen]
      exact readDv_wrapped (utf8 longText)
    have hne : utf8 longText ≠ [] := by
      rw [← List.length_pos_iff, hlen]
      norm_num
    rw [unpackDv_trailing hread hne, hlen]
  · have hlen : (utf8 longName).length = 2 ^ 32 - 1 := length_utf8_replicate _
    have hfits : strFits longName := by
      rw [strFits]
      omega
    have hlong : 2 ^ 32 ≤ 8 + (utf8 longName).length := by omega
    have hrefuse := @readDvBody_longResource (readDv 1) 0 _ hlong hfits []
    rw [List.append_nil] at hrefuse
    have hread : readDv 0 (writeDv (.resource 0 longName)) = .error .resourcePayloadShort := by
      rw [readDv_eq, if_neg (by decide)]
      exact hrefuse
    rw [unpackDv, packDv, hread]
    rfl

end Quoin.Proto
