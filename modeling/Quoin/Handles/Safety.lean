import Quoin.Handles.Ledger

/-!
# Quoin — handle-table safety

The invariant `TableOk` says that the slots are those of the newest mints, and
each operation of the table keeps it together with what the ledger does.
`Safe` follows.

Two steps can leave it, and `Clear` is exactly that they do not: a new slot
whose position does not fit in 32 bits gets the handle of slot 0, and the end
of a call whose epoch is also that of another call (the counter wraps after
2^32 calls) sweeps the other call's handles.

## Results

* `handles_safe` — a run is safe in every state as long as its steps are clear, and a step that is
  not clear ends in an unsafe state;
* `epoch_wrap_unsafe` — after 2^32 calls the end of one call sweeps the handles of another.
-/

namespace Quoin.Handles

open Trans

variable {V : Type} {t t' : HandleTable V} {ms : List (Minted V)} {m : Minted V}
  {index : UInt32} {S : Nat → Bool} {q : Minted V → Bool}

/-! ## The invariant -/

structure TableOk (t : HandleTable V) (ms : List (Minted V)) : Prop where
  sized : t.slots.length ≤ 2 ^ 32
  slots : ∀ index : UInt32, t.slots[index.toNat]? = (newest index ms).map Minted.slot
  numbered : Numbered ms
  older : OlderDead ms
  freeNodup : t.free.Nodup
  freeEmpty : ∀ index : UInt32, index ∈ t.free ↔ ∃ m, newest index ms = some m ∧ m.live = false

theorem slot_of_live (h : m.live = true) :
    m.slot = ⟨some m.value, m.scope, m.generation, m.extId⟩ := by
  simp [Minted.slot, h]

theorem slot_of_dead (h : m.live = false) :
    m.slot = ⟨none, .free, nextGeneration m.generation, m.extId⟩ := by
  simp [Minted.slot, h]

theorem slot_value_isSome : m.slot.value.isSome = m.live := by
  cases h : m.live with
  | true => simp [slot_of_live h]
  | false => simp [slot_of_dead h]

theorem dead_of_dead (h : m.live = false) : m.dead = m := by
  cases m
  simp_all [Minted.dead]

theorem TableOk.empty : TableOk ({} : HandleTable V) [] := by
  refine ⟨by simp, fun index => rfl, trivial, List.Pairwise.nil, List.nodup_nil, fun index => ?_⟩
  simp [newest]

/-! ## Resolving -/

theorem TableOk.current (h : TableOk t ms) (handle : UInt64) :
    t.current handle = ((newest (split handle).1 ms).map Minted.slot).filter
      fun slot => slot.generation == (split handle).2 := by
  rw [HandleTable.current, h.slots]

theorem handle_eq {handle : UInt64} (hindex : m.index = (split handle).1)
    (hgeneration : m.generation = (split handle).2) : m.handle = handle := by
  rw [← handleOf_split m.handle, ← handleOf_split handle, ← hindex, ← hgeneration]
  rfl

/-- The live handle of a slot is the one the slot answers to. -/
theorem TableOk.current_live (h : TableOk t ms) (hin : m ∈ ms) (hlive : m.live = true) :
    t.current m.handle = some m.slot := by
  have hnewest := h.older.newest_of_live hin hlive
  rw [h.current, ← Minted.index, hnewest, Option.map_some, ← Minted.generation]
  simp [slot_of_live hlive]

/-- What a handle's slot holds, when it holds a value and has the handle's generation. -/
theorem TableOk.live_of_current (h : TableOk t ms) {handle : UInt64} {slot : HandleSlot V}
    (hcurrent : t.current handle = some slot) (hsome : slot.value.isSome = true) :
    ∃ m ∈ ms, m.live = true ∧ m.handle = handle ∧ m.slot = slot := by
  rw [h.current, Option.filter_eq_some_iff, Option.map_eq_some_iff] at hcurrent
  obtain ⟨⟨m, hnewest, rfl⟩, hgeneration⟩ := hcurrent
  obtain ⟨hin, hindex⟩ := newest_mem hnewest
  have hlive : m.live = true := by rwa [slot_value_isSome] at hsome
  rw [slot_of_live hlive, beq_iff_eq] at hgeneration
  exact ⟨m, hin, hlive, handle_eq hindex hgeneration, rfl⟩

theorem TableOk.resolves (h : TableOk t ms) (handle : UInt64) (value : V) :
    t.get handle = .ok value ↔ ∃ m ∈ ms, m.live = true ∧ m.handle = handle ∧ m.value = value := by
  constructor
  · intro hget
    unfold HandleTable.get at hget
    split at hget
    · cases hget
    · rename_i slot hcurrent
      split at hget
      · cases hget
      · rename_i value' hvalue
        obtain rfl := Except.ok.inj hget
        obtain ⟨m, hin, hlive, rfl, rfl⟩ := h.live_of_current hcurrent (by simp [hvalue])
        rw [slot_of_live hlive] at hvalue
        exact ⟨m, hin, hlive, rfl, Option.some.inj hvalue⟩
  · rintro ⟨m, hin, hlive, rfl, rfl⟩
    rw [HandleTable.get, h.current_live hin hlive]
    simp [slot_of_live hlive]

theorem TableOk.slot_empty (h : TableOk t ms) (index : UInt32) :
    index ∈ t.free ↔ ∃ slot, t.slots[index.toNat]? = some slot ∧ slot.value = none := by
  rw [h.freeEmpty, h.slots]
  constructor
  · rintro ⟨m, hnewest, hdead⟩
    exact ⟨m.slot, by rw [hnewest, Option.map_some], by rw [slot_of_dead hdead]⟩
  · rintro ⟨slot, hslot, hvalue⟩
    obtain ⟨m, hnewest, rfl⟩ := Option.map_eq_some_iff.mp hslot
    refine ⟨m, hnewest, ?_⟩
    rw [← slot_value_isSome, hvalue, Option.isSome_none]

theorem TableOk.safe {s : State V} (h : TableOk s.table s.minted) : Safe s := by
  refine ⟨h.resolves, h.numbered.distinct, ?_, fun m hin => h.numbered.notNull hin, h.freeNodup, ?_⟩
  · -- No other mint has the older handle, and it is dead.
    refine h.older.imp_of_mem fun {newer older} _ hin hdead hindex value hget => ?_
    obtain ⟨m, hin', hlive, hhandle, -⟩ := (h.resolves _ _).mp hget
    obtain rfl := h.numbered.handle_inj hin' hin hhandle
    rw [hdead hindex] at hlive
    cases hlive
  · intro i
    constructor
    · rintro ⟨index, hin, rfl⟩
      exact (h.slot_empty index).mp hin
    · rintro ⟨slot, hslot, hvalue⟩
      have hlength := (List.getElem?_eq_some_iff.mp hslot).1
      have hsized := h.sized
      have hindex : (UInt32.ofNat i).toNat = i := by
        rw [UInt32.toNat_ofNat']
        exact Nat.mod_eq_of_lt (by omega)
      refine ⟨UInt32.ofNat i, (h.slot_empty _).mpr ⟨slot, ?_, hvalue⟩, hindex⟩
      rw [hindex]
      exact hslot

/-! ## Freeing -/

/-- Emptying exactly the slots whose live handles die. -/
theorem TableOk.freed (h : TableOk t ms) (hfreed : Freed t t' S)
    (hlive : ∀ m ∈ ms, m.live = true → S m.index.toNat = q m)
    (hdead : ∀ m ∈ ms, m.live = false → newest m.index ms = some m → S m.index.toNat = false)
    (hnone : ∀ index, newest index ms = none → S index.toNat = false) :
    TableOk t' (ms.map (kill q)) := by
  obtain ⟨added, hfree, hnodup, hadded⟩ := hfreed.free
  have hlength : t'.slots.length = t.slots.length := by
    apply Nat.le_antisymm
    · rw [← List.getElem?_eq_none_iff, hfreed.slots]
      simp
    · rw [← List.getElem?_eq_none_iff, ← Option.map_eq_none_iff, ← hfreed.slots]
      simp
  -- A slot of `S` is the slot of a live handle that dies.
  have hkilled : ∀ index, S index.toNat = true →
      ∃ m, newest index ms = some m ∧ m.live = true ∧ q m = true := by
    intro index hS
    cases hnewest : newest index ms with
    | none =>
      rw [hnone index hnewest] at hS
      cases hS
    | some m =>
      obtain ⟨hin, rfl⟩ := newest_mem hnewest
      cases hm : m.live with
      | false =>
        rw [hdead m hin hm hnewest] at hS
        cases hS
      | true =>
        rw [hlive m hin hm] at hS
        exact ⟨m, rfl, hm, hS⟩
  refine ⟨hlength ▸ h.sized, fun index => ?_, h.numbered.map (kill_handle q),
    h.older.map (kill_handle q) fun _ => kill_live, ?_, fun index => ?_⟩
  · rw [hfreed.slots, h.slots, newest_map (kill_handle q)]
    cases hnewest : newest index ms with
    | none => rfl
    | some m =>
      obtain ⟨hin, rfl⟩ := newest_mem hnewest
      simp only [Option.map_some, Option.some.injEq]
      cases hm : m.live with
      | true =>
        rw [hlive m hin hm, kill]
        split
        · simp [HandleSlot.emptied, Minted.dead, Minted.slot, Minted.generation, hm]
        · rfl
      | false =>
        rw [hdead m hin hm hnewest, kill, dead_of_dead hm, ite_self, if_neg Bool.false_ne_true]
  · rw [hfree, List.nodup_append]
    refine ⟨hnodup, h.freeNodup, fun index hin index' hin' heq => ?_⟩
    subst heq
    obtain ⟨m, hnewest, hm, -⟩ := hkilled index ((hadded index).mp hin)
    obtain ⟨m', hnewest', hm'⟩ := (h.freeEmpty index).mp hin'
    rw [hnewest, Option.some.injEq] at hnewest'
    rw [hnewest', hm'] at hm
    cases hm
  · rw [hfree, List.mem_append, hadded, h.freeEmpty, newest_map (kill_handle q)]
    constructor
    · rintro (hS | ⟨m, hnewest, hm⟩)
      · obtain ⟨m, hnewest, -, hq⟩ := hkilled index hS
        refine ⟨m.dead, ?_, rfl⟩
        rw [hnewest, Option.map_some, kill, if_pos hq]
      · exact ⟨kill q m, by rw [hnewest, Option.map_some], kill_live hm⟩
    · rintro ⟨m', hnewest', hm'⟩
      obtain ⟨m, hnewest, rfl⟩ := Option.map_eq_some_iff.mp hnewest'
      obtain ⟨hin, rfl⟩ := newest_mem hnewest
      cases hm : m.live with
      | false => exact .inr ⟨m, hnewest, hm⟩
      | true =>
        refine .inl ?_
        rw [hlive m hin hm]
        by_contra hq
        rw [kill, if_neg hq, hm] at hm'
        cases hm'

/-- The loops over all slots. -/
theorem TableOk.freeWhere (h : TableOk t ms) {p : HandleSlot V → Bool}
    (hlive : ∀ m ∈ ms, m.live = true → p m.slot = q m)
    (hdead : ∀ m : Minted V, m.live = false → p m.slot = false) :
    TableOk (t.freeWhere p) (ms.map (kill q)) := by
  refine h.freed (Freed.freeWhere h.sized p) (fun m hin hm => ?_) (fun m hin hm hnewest => ?_)
    fun index hnone => ?_
  · rw [h.slots, h.older.newest_of_live hin hm]
    exact hlive m hin hm
  · rw [h.slots, hnewest]
    exact hdead m hm
  · rw [h.slots, hnone]
    rfl

theorem TableOk.endCall (h : TableOk t ms) {call : Call}
    (hclear : ∀ m ∈ ms, m.live = true → m.retained = false → m.call.epoch = call.epoch →
      m.call = call) :
    TableOk (t.endCall call.epoch) (ms.map (kill fun m => m.call == call && !m.retained)) := by
  refine h.freeWhere (fun m hin hm => ?_) fun m hm => by rw [slot_of_dead hm]; rfl
  rw [slot_of_live hm, Bool.eq_iff_iff]
  cases hretained : m.retained with
  | true => simp [Minted.scope, hretained]
  | false =>
    simp only [Minted.scope, hretained, Bool.false_eq_true, if_false, beq_iff_eq,
      HandleScope.callLocal.injEq, Bool.not_false, Bool.and_true]
    exact ⟨hclear m hin hm hretained, fun heq => by rw [heq]⟩

theorem TableOk.releaseForExt (h : TableOk t ms) (extId : UInt64) :
    TableOk (t.releaseForExt extId) (ms.map (kill fun m => m.extId == extId)) := by
  refine h.freeWhere (fun m _ hm => ?_) fun m hm => by rw [slot_of_dead hm]; rfl
  rw [slot_of_live hm]
  rfl

/-- No slot answers to a handle that is not live. -/
theorem TableOk.dead_of_current (h : TableOk t ms) {handle : UInt64}
    (hcurrent : ¬(t.current handle).any fun slot => slot.value.isSome) (hin : m ∈ ms)
    (hhandle : m.handle = handle) : m.live = false := by
  by_contra hm
  rw [Bool.not_eq_false] at hm
  subst hhandle
  apply hcurrent
  rw [h.current_live hin hm, slot_of_live hm]
  rfl

theorem TableOk.releaseOne (h : TableOk t ms) (handle : UInt64) :
    TableOk (t.releaseOne handle) (ms.map (kill fun m => m.handle == handle)) := by
  unfold HandleTable.releaseOne
  split
  · -- the slot of the handle is freed: its newest handle is this one
    rename_i hany
    obtain ⟨slot, hcurrent, hsome⟩ := (Option.any_eq_true _ _).mp hany
    obtain ⟨m, hin, hm, rfl, rfl⟩ := h.live_of_current hcurrent hsome
    have hnewest := h.older.newest_of_live hin hm
    have hindex : ∀ index : UInt32, (index.toNat == (split m.handle).1.toNat) = true →
        newest index ms = some m := by
      intro index heq
      rw [beq_iff_eq, UInt32.toNat_inj] at heq
      rw [heq]
      exact hnewest
    refine h.freed (Freed.freeIndex t _) (fun m' hin' hm' => ?_) (fun m' _ hm' hnewest' => ?_)
      fun index hnone => ?_
    · rw [Bool.eq_iff_iff]
      constructor
      · intro heq
        have hnewest' := h.older.newest_of_live hin' hm'
        rw [hindex _ heq, Option.some.injEq] at hnewest'
        rw [hnewest', beq_self_eq_true]
      · intro heq
        rw [Minted.index, beq_iff_eq.mp heq, beq_self_eq_true]
    · rw [← Bool.not_eq_true]
      intro heq
      rw [hindex _ heq, Option.some.injEq] at hnewest'
      rw [hnewest', hm'] at hm
      cases hm
    · rw [← Bool.not_eq_true]
      intro heq
      rw [hindex _ heq] at hnone
      cases hnone
  · -- no live handle: nothing is killed that lives
    rename_i hany
    have hsame : ms.map (kill fun m => m.handle == handle) = ms := by
      refine (List.map_congr_left fun m hin => ?_).trans (List.map_id ms)
      unfold kill
      split
      · rename_i heq
        exact dead_of_dead (h.dead_of_current hany hin (beq_iff_eq.mp heq))
      · rfl
    rw [hsame]
    exact h

theorem TableOk.release (h : TableOk t ms) (handles : List UInt64) :
    TableOk (t.release handles) (ms.map (kill fun m => handles.contains m.handle)) := by
  induction handles generalizing t ms with
  | nil =>
    have hsame : ms.map (kill fun m => List.contains [] m.handle) = ms :=
      (List.map_congr_left fun m _ => by simp [kill]).trans (List.map_id ms)
    rw [hsame]
    exact h
  | cons handle rest ih =>
    have hrest := ih (h.releaseOne handle)
    have hcomp : (kill fun m : Minted V => rest.contains m.handle) ∘
        (kill fun m => m.handle == handle) =
        kill fun m => (handle :: rest).contains m.handle := by
      funext m
      simp only [Function.comp_apply, kill, List.contains_cons]
      by_cases heq : m.handle = handle
      · simp [heq, Minted.dead]
      · simp [heq]
    rw [List.map_map, hcomp] at hrest
    exact hrest

/-! ## Retaining -/

theorem markRetained_live (handle : UInt64) (m : Minted V) :
    (markRetained handle m).live = m.live := by
  unfold markRetained
  split <;> rfl

theorem TableOk.retain (h : TableOk t ms) (handle : UInt64) :
    TableOk ((t.retain handle).toOption.getD t) (ms.map (markRetained handle)) := by
  unfold HandleTable.retain
  split
  · -- No live handle to mark.
    rename_i hnone
    -- a live handle that is marked would be the current one of its slot
    have hsame : ms.map (markRetained handle) = ms := by
      refine (List.map_congr_left fun m hin => ?_).trans (List.map_id ms)
      unfold markRetained
      split
      · rename_i hmark
        simp only [Bool.and_eq_true, beq_iff_eq] at hmark
        obtain ⟨hm, rfl⟩ := hmark
        rw [h.current_live hin hm, slot_of_live hm] at hnone
        cases hnone
      · rfl
    rw [hsame]
    exact h
  · -- the newest handle of the slot is marked, and nothing else
    rename_i slot hsome
    rw [Option.filter_eq_some_iff] at hsome
    obtain ⟨m, hin, hm, rfl, rfl⟩ := h.live_of_current hsome.1 hsome.2
    have hnewest := h.older.newest_of_live hin hm
    have hhandle := markRetained_handle (V := V) m.handle
    refine ⟨by simpa [Except.toOption] using h.sized, fun index => ?_, h.numbered.map hhandle,
      h.older.map hhandle fun m' hm' => by rw [markRetained_live, hm'], h.freeNodup,
      fun index => ?_⟩
    · simp only [Except.toOption, Option.getD_some, List.getElem?_modify, h.slots,
        newest_map hhandle]
      -- only the slot of the handle is another one
      by_cases hindex : index = m.index
      · subst hindex
        rw [hnewest]
        simp [Minted.index, markRetained, hm, Minted.slot, Minted.scope, Minted.generation]
      · have hne : (split m.handle).1.toNat ≠ index.toNat := by
          rw [ne_eq, UInt32.toNat_inj, eq_comm]
          exact hindex
        cases hnewest' : newest index ms with
        | none => simp [hne]
        | some m' =>
          have hother : m'.handle ≠ m.handle := by
            intro heq
            apply hindex
            rw [← (newest_mem hnewest').2, Minted.index, heq, Minted.index]
          simp [hne, markRetained, hother]
    · show index ∈ t.free ↔ _
      rw [h.freeEmpty, newest_map hhandle]
      cases newest index ms with
      | none => simp
      | some m' => simp [markRetained_live]

/-! ## Minting -/

/-- A mint from a slot without a live handle. -/
theorem TableOk.cons (h : TableOk t ms) (hm : m.live = true) (hsized : t'.slots.length ≤ 2 ^ 32)
    (hslots : ∀ index : UInt32,
      t'.slots[index.toNat]? = if m.index = index then some m.slot else t.slots[index.toNat]?)
    (hgeneration : m.generation.toNat = uses m.index ms + 1)
    (hvacant : ∀ m', newest m.index ms = some m' → m'.live = false)
    (hnodup : t'.free.Nodup)
    (hfree : ∀ index, index ∈ t'.free ↔ index ∈ t.free ∧ m.index ≠ index) :
    TableOk t' (m :: ms) := by
  refine ⟨hsized, fun index => ?_, ⟨hgeneration, h.numbered⟩,
    List.pairwise_cons.mpr ⟨fun m' hin hindex => ?_, h.older⟩, hnodup, fun index => ?_⟩
  · rw [hslots]
    split
    · rename_i hindex
      subst hindex
      rw [newest_cons_self, Option.map_some]
    · rename_i hindex
      rw [newest_cons_of_ne hindex, h.slots]
  · by_contra hlive
    rw [Bool.not_eq_false] at hlive
    have hdead := hvacant m' (hindex ▸ h.older.newest_of_live hin hlive)
    rw [hlive] at hdead
    cases hdead
  · rw [hfree, h.freeEmpty]
    by_cases hindex : m.index = index
    · subst hindex
      simp [newest_cons_self, hm]
    · simp [newest_cons_of_ne hindex, hindex]

theorem nextGeneration_toNat {generation : UInt32} (h : generation.toNat < 2 ^ 32 - 1) :
    (nextGeneration generation).toNat = generation.toNat + 1 := by
  have hnext : (generation + 1).toNat = generation.toNat + 1 := by
    rw [UInt32.toNat_add]
    exact Nat.mod_eq_of_lt (by simp; omega)
  have hne : generation + 1 ≠ 0 := by
    intro heq
    rw [heq] at hnext
    simp at hnext
  rw [nextGeneration, if_neg hne, hnext]

theorem TableOk.mintLocal (h : TableOk t ms)
    (hreuse : ∀ index ∈ t.free.head?, uses index ms < 2 ^ 32 - 1)
    (hroom : t.free = [] → t.slots.length < 2 ^ 32) (value : V) (call : Call) (extId : UInt64) :
    TableOk (t.mintLocal value call.epoch extId).2
      ({ handle := (t.mintLocal value call.epoch extId).1, value, call, extId } :: ms) := by
  unfold HandleTable.mintLocal HandleTable.alloc
  split
  · -- A freed slot: its newest handle is dead, and left it the next generation.
    rename_i index free hfree
    have hmem : index ∈ t.free := hfree ▸ List.mem_cons_self
    obtain ⟨old, hnewest, hdead⟩ := (h.freeEmpty index).mp hmem
    have hnodup := h.freeNodup
    rw [hfree, List.nodup_cons] at hnodup
    have hslot := h.slots index
    rw [hnewest, Option.map_some, slot_of_dead hdead] at hslot
    have hat : t.generationAt index = nextGeneration old.generation := by
      simp [HandleTable.generationAt, hslot]
    have hold := h.numbered.newest hnewest
    have hnext : (t.generationAt index).toNat = uses index ms + 1 := by
      rw [hat, nextGeneration_toNat, hold]
      rw [hold]
      exact hreuse index (by simp [hfree])
    refine h.cons rfl (by simpa using h.sized) (fun index' => ?_) ?_ ?_ hnodup.2 fun index' => ?_
    · simp only [Minted.index, split_handleOf, List.getElem?_modify]
      by_cases hindex : index = index'
      · subst hindex
        simp [hslot, Minted.slot, Minted.scope, Minted.generation, split_handleOf, hat]
      · have hne : index.toNat ≠ index'.toNat := by
          rw [ne_eq, UInt32.toNat_inj]
          exact hindex
        simp [hindex, hne]
    · simp only [Minted.index, Minted.generation, split_handleOf]
      exact hnext
    · simp only [Minted.index, split_handleOf, hnewest, Option.some.injEq]
      rintro m' rfl
      exact hdead
    · simp only [Minted.index, split_handleOf, hfree, List.mem_cons]
      constructor
      · intro hin
        exact ⟨.inr hin, fun heq => hnodup.1 (heq ▸ hin)⟩
      · rintro ⟨rfl | hin, hne⟩
        · exact absurd rfl hne
        · exact hin
  · -- A new slot, at the position its index names.
    rename_i hfree
    have hlt := hroom hfree
    have hindex : (UInt32.ofNat t.slots.length).toNat = t.slots.length := by
      rw [UInt32.toNat_ofNat']
      exact Nat.mod_eq_of_lt (by omega)
    generalize UInt32.ofNat t.slots.length = index at hindex
    -- the table has no slot at that position, so nothing was minted for it
    have hnone : newest index ms = none := by
      have hslot := h.slots index
      rw [hindex, List.getElem?_eq_none (Nat.le_refl _), eq_comm, Option.map_eq_none_iff] at hslot
      exact hslot
    have hat : ∀ slot : HandleSlot V, slot.generation = 1 →
        HandleTable.generationAt { t with slots := t.slots ++ [slot] } index = 1 := by
      intro slot hslot
      simp [HandleTable.generationAt, hindex, hslot]
    dsimp only
    rw [hat _ rfl]
    -- the invariant of the longer table, field by field
    refine h.cons rfl (by simp; omega) (fun index' => ?_) ?_ ?_ (by simp [hfree]) fun index' => ?_
    · simp only [Minted.index, split_handleOf]
      by_cases heq : index = index'
      · subst heq
        simp [hindex, Minted.slot, Minted.scope, Minted.generation, split_handleOf]
      · have hne : index'.toNat ≠ t.slots.length := by
          rw [← hindex, ne_eq, UInt32.toNat_inj, eq_comm]
          exact heq
        rw [if_neg heq, List.getElem?_append]
        split
        · rfl
        · rw [List.getElem?_eq_none (l := t.slots) (by omega), List.getElem?_eq_none (by simp; omega)]
    · simp only [Minted.index, Minted.generation, split_handleOf, newest_eq_none.mp hnone]
      rfl
    · simp only [Minted.index, split_handleOf, hnone]
      rintro m' ⟨⟩
    · simp [hfree]

/-! ## Every run -/

variable {s s' : State V} {a : Action V}

theorem TableOk.step (h : TableOk s.table s.minted) (hreuse : s.ReuseBounded a) (hclear : s.Clear a)
    (hs : s.step a = some s') : TableOk s'.table s'.minted := by
  cases a with
  | beginCall =>
    obtain rfl := Option.some.inj hs
    exact ⟨h.sized, h.slots, h.numbered, h.older, h.freeNodup, h.freeEmpty⟩
  | endCall serial =>
    obtain ⟨call, hcall, rfl⟩ := Option.map_eq_some_iff.mp hs
    exact h.endCall (hclear call hcall)
  | mintLocal serial value extId =>
    obtain ⟨call, -, rfl⟩ := Option.map_eq_some_iff.mp hs
    exact h.mintLocal hreuse hclear value call extId
  | retain handle =>
    obtain rfl := Option.some.inj hs
    exact h.retain handle
  | release handles =>
    obtain rfl := Option.some.inj hs
    exact h.release handles
  | releaseForExt extId =>
    obtain rfl := Option.some.inj hs
    exact h.releaseForExt extId

/-- The end of a call sweeps the local handles of every call with its epoch. -/
theorem TableOk.endCall_unsafe (h : TableOk s.table s.minted) {call : Call} {m : Minted V}
    (hin : m ∈ s.minted) (hm : m.live = true) (hretained : m.retained = false)
    (hepoch : m.call.epoch = call.epoch) (hcall : m.call ≠ call)
    (hs' : s'.table = s.table.endCall call.epoch)
    (hminted : s'.minted = s.minted.map (kill fun m => m.call == call && !m.retained)) :
    ¬Safe s' := by
  intro hsafe
  have hin' : m ∈ s'.minted := by
    rw [hminted]
    refine List.mem_map.mpr ⟨m, hin, ?_⟩
    simp [kill, hcall]
  have hget := (hsafe.resolves m.handle m.value).mpr ⟨m, hin', hm, rfl, rfl⟩
  have hslot : s'.table.slots[m.index.toNat]? = some m.slot.emptied := by
    rw [hs', HandleTable.endCall, (Freed.freeWhere h.sized _).slots, h.slots,
      h.older.newest_of_live hin hm]
    simp [slot_of_live hm, Minted.scope, hretained, hepoch]
  unfold HandleTable.get HandleTable.current at hget
  rw [← Minted.index, hslot, Option.filter] at hget
  split at hget
  · cases hget
  · rename_i slot hcurrent
    split at hcurrent
    · obtain rfl := Option.some.inj hcurrent
      cases hget
    · cases hcurrent

/-- With 2^32 slots in use, a mint hands out the handle of slot 0 again. -/
theorem TableOk.mintLocal_unsafe (h : TableOk s.table s.minted) (hfree : s.table.free = [])
    (hfull : 2 ^ 32 ≤ s.table.slots.length) {value : V} {call : Call} {extId : UInt64}
    (hminted : s'.minted =
      { handle := (s.table.mintLocal value call.epoch extId).1, value, call, extId } :: s.minted) :
    ¬Safe s' := by
  intro hsafe
  have hlength : s.table.slots.length = 2 ^ 32 := Nat.le_antisymm h.sized hfull
  obtain ⟨slot, hslot⟩ : ∃ slot, s.table.slots[(0 : UInt32).toNat]? = some slot :=
    ⟨_, List.getElem?_eq_getElem (by simp; omega)⟩
  have hslot' := hslot
  rw [h.slots] at hslot'
  obtain ⟨m, hnewest, rfl⟩ := Option.map_eq_some_iff.mp hslot'
  obtain ⟨hin, hindex⟩ := newest_mem hnewest
  have hm : m.live = true := by
    by_contra hm
    have hmem := (h.freeEmpty 0).mpr ⟨m, hnewest, by simpa using hm⟩
    rw [hfree] at hmem
    cases hmem
  have hhandle : (s.table.mintLocal value call.epoch extId).1 = m.handle := by
    unfold HandleTable.mintLocal HandleTable.alloc
    have hzero : UInt32.ofNat (2 ^ 32) = 0 := by decide
    have hat : ∀ slot, HandleTable.generationAt
        { s.table with slots := s.table.slots ++ [slot] } 0 = m.generation := by
      intro slot
      rw [HandleTable.generationAt, List.getElem?_append_left (by simp; omega), hslot,
        slot_of_live hm]
      rfl
    split
    · rename_i hcons
      rw [hfree] at hcons
      cases hcons
    · dsimp only
      rw [hlength, hzero, hat, ← hindex]
      exact handleOf_split m.handle
  have hdistinct := hsafe.distinct
  rw [hminted, List.pairwise_cons] at hdistinct
  exact hdistinct.1 m hin hhandle

/-- **Handle-table safety.** With fewer than 2^32 - 1 reuses of every slot, the table is safe in
every run whose steps are `Clear`; and a step that is not leaves it unsafe. -/
theorem handles_safe
    (hRun : Run State.step (fun s a => s.ReuseBounded a ∧ s.Clear a) ({} : State V) s) :
    Safe s ∧ ∀ a s', s.ReuseBounded a → s.step a = some s' → (Safe s' ↔ s.Clear a) := by
  have htable : TableOk s.table s.minted := by
    refine hRun.invariant (P := fun s => TableOk s.table s.minted) .empty ?_
    rintro s a s' h ⟨hreuse, hclear⟩ hs
    exact h.step hreuse hclear hs
  refine ⟨htable.safe, fun a s' hreuse hs => ⟨fun hsafe => ?_, fun hclear => ?_⟩⟩
  · by_contra hclear
    cases a with
    | endCall serial =>
      obtain ⟨call, hcall, rfl⟩ := Option.map_eq_some_iff.mp hs
      apply hclear
      intro call' hcall' m hin hm hretained hepoch
      obtain rfl : call' = call := Option.some.inj (hcall'.symm.trans hcall)
      by_contra hne
      exact htable.endCall_unsafe hin hm hretained hepoch hne rfl rfl hsafe
    | mintLocal serial value extId =>
      obtain ⟨call, -, rfl⟩ := Option.map_eq_some_iff.mp hs
      apply hclear
      intro hfree
      by_contra hfull
      exact htable.mintLocal_unsafe hfree (by omega) rfl hsafe
    | beginCall => exact hclear trivial
    | retain handle => exact hclear trivial
    | release handles => exact hclear trivial
    | releaseForExt extId => exact hclear trivial
  · exact (htable.step hreuse hclear hs).safe

/-- A slot reused after its handle was released, under a call that stays open. -/
theorem handles_safe_reused : ∃ s : State Nat,
    Run State.step (fun s a => s.ReuseBounded a ∧ s.Clear a) {} s ∧
    s.minted.map (·.handle) = [0x200000000, 0x100000000] ∧
    Safe s ∧ ∀ a s', s.ReuseBounded a → s.step a = some s' → (Safe s' ↔ s.Clear a) := by
  have hexec : (exec State.step (fun s a => s.ReuseBounded a ∧ s.Clear a) ({} : State Nat)
      [.beginCall, .mintLocal 0 7 1, .release [0x100000000], .mintLocal 0 8 1]).map
      (fun s => s.minted.map (·.handle)) = some [0x200000000, 0x100000000] := by decide +kernel
  obtain ⟨s, hRun, hminted⟩ := run_of_exec_map hexec
  exact ⟨s, hRun, hminted, handles_safe hRun⟩

/-! ## The epoch counter wraps -/

/-- One call holds a handle while `n` others begin and end. -/
def otherCalls (n : Nat) : List (Action Nat) :=
  (List.range n).flatMap fun i => [.beginCall, .endCall (i + 1)]

def heldState (n : Nat) : State Nat where
  table := { slots := [⟨some 7, .callLocal 1, 1, 1⟩], free := [], epoch := UInt32.ofNat (n + 1) }
  begun := n + 1
  calls := [⟨0, 1⟩]
  minted := [{ handle := 0x100000000, value := 7, call := ⟨0, 1⟩, extId := 1 }]

/-- Only the end of a call with its epoch touches the handle. -/
theorem endCall_heldState {t : HandleTable Nat} {epoch : UInt32} (hepoch : 1 ≠ epoch)
    (hslots : t.slots = [⟨some 7, .callLocal 1, 1, 1⟩]) : t.endCall epoch = t := by
  simp [HandleTable.endCall, HandleTable.freeWhere, HandleTable.freeIf, hslots, List.range_succ,
    hepoch]

theorem exec_otherCall {n : Nat} (hn : n + 1 < 2 ^ 32) :
    exec State.step State.ReuseBounded (heldState n) [.beginCall, .endCall (n + 1)] =
      some (heldState (n + 1)) := by
  -- Of the epochs after 1, the first to be 1 again is the 2^32nd.
  have hother : 1 ≠ UInt32.ofNat (n + 1) + 1 := by
    rw [ne_eq, ← UInt32.toNat_inj, UInt32.toNat_add, UInt32.toNat_ofNat']
    simp
    omega
  have hnext : UInt32.ofNat (n + 1) + 1 = UInt32.ofNat (n + 1 + 1) := by
    rw [← UInt32.toNat_inj]
    simp
  have hbegin : (heldState n).ReuseBounded .beginCall := trivial
  have hend : ∀ s : State Nat, s.ReuseBounded (.endCall (n + 1)) := fun _ => trivial
  rw [exec, if_pos hbegin, State.step, Option.bind_some, exec, if_pos (hend _), State.step]
  simp only [HandleTable.beginCall, heldState, State.call?, List.find?_cons, beq_self_eq_true,
    Option.map_some, Option.bind_some, exec, List.erase_cons_head, hnext]
  rw [hnext] at hother
  rw [endCall_heldState hother rfl]
  simp [kill]

theorem exec_otherCalls {n : Nat} (hn : n < 2 ^ 32) :
    exec State.step State.ReuseBounded (heldState 0) (otherCalls n) = some (heldState n) := by
  induction n with
  | zero => rfl
  | succ n ih =>
    rw [otherCalls, List.range_succ, List.flatMap_append, ← otherCalls, exec_append, ih (by omega),
      Option.bind_some, List.flatMap_singleton]
    exact exec_otherCall hn

/-- The first call still holds its handle when another gets its epoch, and ends. -/
theorem epoch_wrap_unsafe : ∃ s : State Nat,
    exec State.step State.ReuseBounded {} ([.beginCall, .mintLocal 0 7 1] ++
      otherCalls (2 ^ 32 - 1) ++ [.beginCall, .endCall (2 ^ 32)]) = some s ∧ ¬Safe s := by
  have hheld : exec State.step State.ReuseBounded {} [.beginCall, .mintLocal 0 7 1] =
      some (heldState 0) := by rfl
  rw [exec_append, exec_append, hheld, Option.bind_some, exec_otherCalls (by decide),
    Option.bind_some]
  refine ⟨{ heldState (2 ^ 32 - 1) with
    table := { slots := [⟨none, .free, 2, 1⟩], free := [0], epoch := 1 }, begun := 2 ^ 32 + 1 },
    by rfl, fun hsafe => ?_⟩
  have hget := (hsafe.resolves 0x100000000 7).mpr ⟨_, List.mem_singleton_self _, rfl, rfl, rfl⟩
  cases hget

end Quoin.Handles
