import Quoin.Handles.Table
import Quoin.Trans.Run

/-!
# Quoin — what a handle is for

The table under the calls of the extension tier: calls begin and end in any
order, and while a call is open handles are minted under it. Beside the table
runs a ledger of every mint: the handle that was returned, what it was minted
for, and whether it is still to resolve. It is `live` from its mint until it
is released, alone or with all of its extension's handles, or until the call
it was minted under ends, unless it was retained by then. The ledger never
looks at the table, so what the table does can be compared with it
(`Safe`).

The table is a function of the ledger (`TableOk.slots`): a slot holds what its
newest mint says, and the generation that mint was given, or the next one once
it is dead.
-/

namespace Quoin.Handles

variable {V : Type}

/-! ## The ledger -/

/-- A call of the extension tier, and the epoch `begin_call` gave it. -/
structure Call where
  serial : Nat
  epoch : UInt32
  deriving DecidableEq

structure Minted (V : Type) where
  handle : UInt64
  value : V
  call : Call
  extId : UInt64
  retained : Bool := false
  live : Bool := true

namespace Minted

def index (m : Minted V) : UInt32 := (split m.handle).1

def generation (m : Minted V) : UInt32 := (split m.handle).2

def dead (m : Minted V) : Minted V := { m with live := false }

def scope (m : Minted V) : HandleScope :=
  if m.retained then .global else .callLocal m.call.epoch

/-- The slot of a handle, as long as the slot is not reused. -/
def slot (m : Minted V) : HandleSlot V :=
  if m.live then ⟨some m.value, m.scope, m.generation, m.extId⟩
  else ⟨none, .free, nextGeneration m.generation, m.extId⟩

end Minted

def kill (q : Minted V → Bool) (m : Minted V) : Minted V := if q m then m.dead else m

def markRetained (handle : UInt64) (m : Minted V) : Minted V :=
  if m.live && m.handle == handle then { m with retained := true } else m

/-! ## The system -/

structure State (V : Type) where
  table : HandleTable V := {}
  /-- How many calls have begun. -/
  begun : Nat := 0
  /-- The calls that are open, in any order of nesting. -/
  calls : List Call := []
  /-- Every mint there was, the newest first. -/
  minted : List (Minted V) := []

inductive Action (V : Type)
  | beginCall
  | endCall (serial : Nat)
  | mintLocal (serial : Nat) (value : V) (extId : UInt64)
  | retain (handle : UInt64)
  | release (handles : List UInt64)
  | releaseForExt (extId : UInt64)

def State.call? (s : State V) (serial : Nat) : Option Call :=
  s.calls.find? fun call => call.serial == serial

/-- How often the slot `index` was minted from. -/
def uses (index : UInt32) (minted : List (Minted V)) : Nat :=
  minted.countP fun m => m.index == index

def State.step (s : State V) : Action V → Option (State V)
  | .beginCall =>
    let (epoch, table) := s.table.beginCall
    some { s with table, begun := s.begun + 1, calls := ⟨s.begun, epoch⟩ :: s.calls }
  | .endCall serial => (s.call? serial).map fun call =>
    { s with
      table := s.table.endCall call.epoch
      calls := s.calls.erase call
      minted := s.minted.map (kill fun m => m.call == call && !m.retained) }
  | .mintLocal serial value extId => (s.call? serial).map fun call =>
    let (handle, table) := s.table.mintLocal value call.epoch extId
    { s with table, minted := { handle, value, call, extId } :: s.minted }
  | .retain handle => some
    { s with
      table := (s.table.retain handle).toOption.getD s.table
      minted := s.minted.map (markRetained handle) }
  | .release handles => some
    { s with
      table := s.table.release handles
      minted := s.minted.map (kill fun m => handles.contains m.handle) }
  | .releaseForExt extId => some
    { s with
      table := s.table.releaseForExt extId
      minted := s.minted.map (kill fun m => m.extId == extId) }

/-- No slot is reused 2^32 - 1 times: the slot this mint reuses was minted from less often. -/
def State.ReuseBounded (s : State V) : Action V → Prop
  | .mintLocal .. => ∀ index ∈ s.table.free.head?, uses index s.minted < 2 ^ 32 - 1
  | _ => True

/-- A new slot's position fits in 32 bits; a call's epoch is not also that of another call with
local handles. -/
def State.Clear (s : State V) : Action V → Prop
  | .mintLocal .. => s.table.free = [] → s.table.slots.length < 2 ^ 32
  | .endCall serial => ∀ call ∈ s.call? serial, ∀ m ∈ s.minted, m.live = true →
    m.retained = false → m.call.epoch = call.epoch → m.call = call
  | _ => True

instance (s : State V) (a : Action V) : Decidable (s.ReuseBounded a) :=
  match a with
  -- the head is looked at, not every `UInt32`
  | .mintLocal .. => Option.decidableForallMem s.table.free.head?
  | .beginCall | .endCall _ | .retain _ | .release _ | .releaseForExt _ => .isTrue trivial

instance (s : State V) (a : Action V) : Decidable (s.Clear a) :=
  match a with
  | .mintLocal .. =>
    inferInstanceAs (Decidable (s.table.free = [] → s.table.slots.length < 2 ^ 32))
  | .endCall serial =>
    inferInstanceAs (Decidable (∀ call ∈ s.call? serial, ∀ m ∈ s.minted, m.live = true →
      m.retained = false → m.call.epoch = call.epoch → m.call = call))
  | .beginCall | .retain _ | .release _ | .releaseForExt _ => .isTrue trivial

/-- What the extension tier relies on. -/
structure Safe (s : State V) : Prop where
  /-- A handle resolves exactly while it is live, and to what it was minted for. -/
  resolves : ∀ handle value, s.table.get handle = .ok value ↔
    ∃ m ∈ s.minted, m.live = true ∧ m.handle = handle ∧ m.value = value
  distinct : s.minted.Pairwise fun newer older => newer.handle ≠ older.handle
  /-- Once its slot is reused, a handle does not resolve. -/
  stale : s.minted.Pairwise fun newer older => newer.index = older.index →
    ∀ value, s.table.get older.handle ≠ .ok value
  notNull : ∀ m ∈ s.minted, m.handle ≠ NULL_HANDLE
  freeNodup : s.table.free.Nodup
  freeEmpty : ∀ i, (∃ index ∈ s.table.free, index.toNat = i) ↔
    ∃ slot, s.table.slots[i]? = some slot ∧ slot.value = none

/-! ## The newest mint of a slot -/

def newest (index : UInt32) (minted : List (Minted V)) : Option (Minted V) :=
  minted.find? fun m => m.index == index

/-- Every mint got the number of its slot's mints so far as its generation. -/
def Numbered : List (Minted V) → Prop
  | [] => True
  | m :: ms => m.generation.toNat = uses m.index ms + 1 ∧ Numbered ms

/-- A mint leaves the older handles of its slot dead. -/
def OlderDead (minted : List (Minted V)) : Prop :=
  minted.Pairwise fun newer older => newer.index = older.index → older.live = false

variable {m m' : Minted V} {ms : List (Minted V)} {index : UInt32}

theorem newest_mem (h : newest index ms = some m) : m ∈ ms ∧ m.index = index :=
  ⟨List.mem_of_find?_eq_some h, by simpa using List.find?_some h⟩

theorem newest_cons_self : newest m.index (m :: ms) = some m := by
  simp [newest]

theorem newest_cons_of_ne (h : m.index ≠ index) : newest index (m :: ms) = newest index ms := by
  simp [newest, h]

theorem uses_cons_self : uses m.index (m :: ms) = uses m.index ms + 1 := by
  simp [uses]

theorem uses_cons_of_ne (h : m.index ≠ index) : uses index (m :: ms) = uses index ms := by
  simp [uses, h]

theorem newest_eq_none : newest index ms = none ↔ uses index ms = 0 := by
  simp [newest, uses]

/-- Only the newest handle of a slot can be live. -/
theorem OlderDead.newest_of_live (h : OlderDead ms) (hin : m ∈ ms) (hlive : m.live = true) :
    newest m.index ms = some m := by
  induction ms with
  | nil => cases hin
  | cons head rest ih =>
    obtain ⟨hhead, hrest⟩ := List.pairwise_cons.mp h
    rcases List.mem_cons.mp hin with rfl | hin
    · exact newest_cons_self
    · have hne : head.index ≠ m.index := by
        intro heq
        rw [hhead m hin heq] at hlive
        cases hlive
      rw [newest_cons_of_ne hne]
      exact ih hrest hin

theorem Numbered.newest (h : Numbered ms) (hnewest : newest index ms = some m) :
    m.generation.toNat = uses index ms := by
  induction ms with
  | nil => cases hnewest
  | cons head rest ih =>
    by_cases hhead : head.index = index
    · subst hhead
      rw [newest_cons_self] at hnewest
      obtain rfl := Option.some.inj hnewest
      rw [uses_cons_self]
      exact h.1
    · rw [newest_cons_of_ne hhead] at hnewest
      rw [uses_cons_of_ne hhead]
      exact ih h.2 hnewest

theorem Numbered.generation_mem (h : Numbered ms) (hin : m ∈ ms) :
    1 ≤ m.generation.toNat ∧ m.generation.toNat ≤ uses m.index ms := by
  induction ms with
  | nil => cases hin
  | cons head rest ih =>
    rcases List.mem_cons.mp hin with rfl | hin
    · have := h.1
      rw [uses_cons_self]
      omega
    · obtain ⟨hlow, hhigh⟩ := ih h.2 hin
      have : uses m.index rest ≤ uses m.index (head :: rest) :=
        (List.sublist_cons_self head rest).countP_le
      omega

/-- A slot's generations do not repeat within 2^32 - 1 mints, so neither do handles. -/
theorem Numbered.distinct (h : Numbered ms) :
    ms.Pairwise fun newer older => newer.handle ≠ older.handle := by
  induction ms with
  | nil => exact List.Pairwise.nil
  | cons head rest ih =>
    refine List.pairwise_cons.mpr ⟨fun m hin heq => ?_, ih h.2⟩
    have hindex : head.index = m.index := by rw [Minted.index, heq, Minted.index]
    have hgeneration : head.generation = m.generation := by
      rw [Minted.generation, heq, Minted.generation]
    have hhead := h.1
    have hle := (h.2.generation_mem hin).2
    rw [hindex, hgeneration] at hhead
    omega

theorem Numbered.handle_inj (h : Numbered ms) (hin : m ∈ ms) (hin' : m' ∈ ms)
    (heq : m.handle = m'.handle) : m = m' :=
  List.inj_on_of_nodup_map (List.pairwise_map.mpr h.distinct) hin hin' heq

theorem Numbered.notNull (h : Numbered ms) (hin : m ∈ ms) : m.handle ≠ NULL_HANDLE := by
  intro heq
  have hpos := (h.generation_mem hin).1
  have hzero : m.generation = 0 := by
    rw [Minted.generation, heq]
    rfl
  rw [hzero] at hpos
  exact absurd hpos (by decide)

-- Marking a mint dead or retained changes neither its slot nor its generation.

variable {f : Minted V → Minted V}

theorem newest_map (hf : ∀ m, (f m).handle = m.handle) :
    newest index (ms.map f) = (newest index ms).map f := by
  simp only [newest, List.find?_map, Minted.index, Function.comp_def, hf]

theorem uses_map (hf : ∀ m, (f m).handle = m.handle) : uses index (ms.map f) = uses index ms := by
  simp only [uses, List.countP_map, Minted.index, Function.comp_def, hf]

theorem Numbered.map (hf : ∀ m, (f m).handle = m.handle) (h : Numbered ms) :
    Numbered (ms.map f) := by
  induction ms with
  | nil => exact h
  | cons head rest ih =>
    refine ⟨?_, ih h.2⟩
    rw [uses_map hf, Minted.generation, Minted.index, hf]
    exact h.1

theorem OlderDead.map (hf : ∀ m, (f m).handle = m.handle)
    (hlive : ∀ m, m.live = false → (f m).live = false) (h : OlderDead ms) :
    OlderDead (ms.map f) := by
  refine List.pairwise_map.mpr (h.imp fun hdead hindex => hlive _ (hdead ?_))
  rwa [Minted.index, Minted.index, hf, hf] at hindex

@[simp] theorem kill_handle (q : Minted V → Bool) (m : Minted V) :
    (kill q m).handle = m.handle := by
  unfold kill
  split <;> rfl

@[simp] theorem markRetained_handle (handle : UInt64) (m : Minted V) :
    (markRetained handle m).handle = m.handle := by
  unfold markRetained
  split <;> rfl

theorem kill_live {q : Minted V → Bool} (h : m.live = false) : (kill q m).live = false := by
  unfold kill
  split
  · rfl
  · exact h

end Quoin.Handles
