import Mathlib

/-!
# Quoin — the extension handle table

An extension holds host values as opaque 64-bit handles: a slot index below, a
generation above. `HandleTable` follows the source's table: a vector of slots,
a stack of free indices (its top is the list's head), and the counter of call
epochs. All arithmetic is the source's 32- and 64-bit arithmetic, so the
epoch counter wraps, the generation wraps past 0, and the index of a new slot
is cut to 32 bits.

Every operation that frees slots is described by one relation, `Freed`: which
slots it empties, and that their indices, each once, are what it pushes.
-/

namespace Quoin.Handles

/-! ## Handles -/

/-- The reserved null handle. -/
def NULL_HANDLE : UInt64 := 0

/-- Pack a slot index and a generation. -/
def handleOf (index generation : UInt32) : UInt64 :=
  generation.toUInt64 <<< 32 ||| index.toUInt64

/-- Unpack a handle into its index and its generation. -/
def split (handle : UInt64) : UInt32 × UInt32 :=
  (handle.toUInt32, (handle >>> 32).toUInt32)

theorem handleOf_toNat (index generation : UInt32) :
    (handleOf index generation).toNat = generation.toNat * 2 ^ 32 + index.toNat := by
  have hindex := index.toNat_lt
  have hgeneration := generation.toNat_lt
  have hfits : 4294967296 * generation.toNat % 18446744073709551616 =
      4294967296 * generation.toNat := Nat.mod_eq_of_lt (by omega)
  rw [Nat.mul_comm, Nat.two_pow_add_eq_or_of_lt hindex]
  simp [handleOf, Nat.shiftLeft_eq, Nat.mul_comm, hfits]

theorem split_handleOf (index generation : UInt32) :
    split (handleOf index generation) = (index, generation) := by
  have hindex := index.toNat_lt
  have hgeneration := generation.toNat_lt
  have hhandle := handleOf_toNat index generation
  refine Prod.ext (UInt32.toNat.inj ?_) (UInt32.toNat.inj ?_)
  · simp only [split, UInt64.toNat_toUInt32, hhandle]
    omega
  · simp only [split, UInt64.toNat_toUInt32, UInt64.toNat_shiftRight, hhandle,
      Nat.shiftRight_eq_div_pow, UInt64.reduceToNat, Nat.reduceMod]
    omega

theorem handleOf_split (handle : UInt64) :
    handleOf (split handle).1 (split handle).2 = handle := by
  have hhandle := handle.toNat_lt
  refine UInt64.toNat.inj ?_
  rw [handleOf_toNat]
  simp only [split, UInt64.toNat_toUInt32, UInt64.toNat_shiftRight,
    Nat.shiftRight_eq_div_pow, UInt64.reduceToNat, Nat.reduceMod]
  omega

/-! ## The table -/

/-- The lifetime of an occupied slot, or `free` for an empty one. -/
inductive HandleScope
  | free
  | callLocal (epoch : UInt32)
  | global
  deriving DecidableEq

structure HandleSlot (V : Type) where
  value : Option V
  scope : HandleScope
  /-- Bumped on every free, so a stale handle no longer resolves. -/
  generation : UInt32
  extId : UInt64

structure HandleTable (V : Type) where
  slots : List (HandleSlot V) := []
  free : List UInt32 := []
  epoch : UInt32 := 0

variable {V : Type}

/-- The generation after a free: wrapping, and never 0. -/
def nextGeneration (generation : UInt32) : UInt32 :=
  if generation + 1 = 0 then 1 else generation + 1

def HandleSlot.emptied (slot : HandleSlot V) : HandleSlot V :=
  { slot with value := none, scope := .free, generation := nextGeneration slot.generation }

namespace HandleTable

def freeIndex (t : HandleTable V) (index : UInt32) : HandleTable V :=
  { t with slots := t.slots.modify index.toNat HandleSlot.emptied, free := index :: t.free }

/-- One round of the loops over all slots: `i` is cut to 32 bits for `free_index`. -/
def freeIf (p : HandleSlot V → Bool) (t : HandleTable V) (i : Nat) : HandleTable V :=
  if t.slots[i]?.any p then t.freeIndex (UInt32.ofNat i) else t

def freeWhere (t : HandleTable V) (p : HandleSlot V → Bool) : HandleTable V :=
  (List.range t.slots.length).foldl (freeIf p) t

/-- The new epoch, and the table that remembers it. -/
def beginCall (t : HandleTable V) : UInt32 × HandleTable V :=
  (t.epoch + 1, { t with epoch := t.epoch + 1 })

def endCall (t : HandleTable V) (epoch : UInt32) : HandleTable V :=
  t.freeWhere fun slot => slot.scope == .callLocal epoch

def releaseForExt (t : HandleTable V) (extId : UInt64) : HandleTable V :=
  t.freeWhere fun slot => slot.value.isSome && slot.extId == extId

/-- The slot a handle names, if the slot still has the handle's generation. -/
def current (t : HandleTable V) (handle : UInt64) : Option (HandleSlot V) :=
  t.slots[(split handle).1.toNat]?.filter fun slot => slot.generation == (split handle).2

def get (t : HandleTable V) (handle : UInt64) : Except String V :=
  match t.current handle with
  | none => .error s!"extension handle {handle} is invalid or stale"
  | some slot =>
    match slot.value with
    | none => .error s!"extension handle {handle} has been released"
    | some value => .ok value

def retain (t : HandleTable V) (handle : UInt64) : Except String (HandleTable V) :=
  match (t.current handle).filter fun slot => slot.value.isSome with
  | none => .error s!"retain: extension handle {handle} is invalid or released"
  | some _ =>
    .ok { t with
      slots := t.slots.modify (split handle).1.toNat fun slot => { slot with scope := .global } }

/-- Unknown and stale handles are ignored. -/
def releaseOne (t : HandleTable V) (handle : UInt64) : HandleTable V :=
  if (t.current handle).any fun slot => slot.value.isSome then
    t.freeIndex (split handle).1
  else t

def release (t : HandleTable V) (handles : List UInt64) : HandleTable V :=
  handles.foldl releaseOne t

def generationAt (t : HandleTable V) (index : UInt32) : UInt32 :=
  (t.slots[index.toNat]?.map (·.generation)).getD 0

/-- Where `alloc` puts the value: a freed slot, or a new one, whose position is cut to 32 bits. -/
def alloc (t : HandleTable V) (value : V) (scope : HandleScope) (extId : UInt64) :
    UInt64 × HandleTable V :=
  match t.free with
  | index :: free =>
    let slots := t.slots.modify index.toNat fun slot =>
      { slot with value := some value, scope, extId }
    (handleOf index (t.generationAt index), { t with slots, free })
  | [] =>
    let index := UInt32.ofNat t.slots.length
    -- Generations start at 1, so that slot 0's first handle is not the null handle.
    let t := { t with slots := t.slots ++ [{ value := some value, scope, generation := 1, extId }] }
    (handleOf index (t.generationAt index), t)

def mintLocal (t : HandleTable V) (value : V) (epoch : UInt32) (extId : UInt64) :
    UInt64 × HandleTable V :=
  t.alloc value (.callLocal epoch) extId

end HandleTable

/-! ## What frees -/

/-- `t'` is `t` with the slots of `S` emptied and their indices pushed, each once. -/
structure Freed (t t' : HandleTable V) (S : Nat → Bool) : Prop where
  slots : ∀ i, t'.slots[i]? = t.slots[i]?.map fun slot => if S i then slot.emptied else slot
  free : ∃ added, t'.free = added ++ t.free ∧ added.Nodup ∧ ∀ index, index ∈ added ↔ S index.toNat
  epoch : t'.epoch = t.epoch

variable {t t' t'' : HandleTable V} {S S' : Nat → Bool}

theorem Freed.refl (t : HandleTable V) : Freed t t fun _ => false := by
  refine ⟨fun i => ?_, ⟨[], rfl, List.nodup_nil, by simp⟩, rfl⟩
  simp

theorem Freed.trans (h : Freed t t' S) (h' : Freed t' t'' S')
    (hdisjoint : ∀ i, S i = true → S' i = false) : Freed t t'' fun i => S i || S' i := by
  obtain ⟨added, hadded, hnodup, hmem⟩ := h.free
  obtain ⟨added', hadded', hnodup', hmem'⟩ := h'.free
  refine ⟨fun i => ?_, ⟨added' ++ added, ?_, ?_, ?_⟩, h'.epoch.trans h.epoch⟩
  · rw [h'.slots, h.slots, Option.map_map]
    congr 1
    funext slot
    cases hS : S i with
    | true => simp [hdisjoint i hS]
    | false => simp
  · rw [hadded', hadded, List.append_assoc]
  · rw [List.nodup_append]
    refine ⟨hnodup', hnodup, fun index hin' index' hin heq => ?_⟩
    subst heq
    have htrue := (hmem' index).mp hin'
    rw [hdisjoint _ ((hmem index).mp hin)] at htrue
    cases htrue
  · intro index
    rw [List.mem_append, hmem, hmem', Bool.or_eq_true, or_comm]

theorem Freed.freeIndex (t : HandleTable V) (index : UInt32) :
    Freed t (t.freeIndex index) fun i => i == index.toNat := by
  refine ⟨fun i => ?_, ⟨[index], rfl, List.nodup_singleton index, fun index' => ?_⟩, rfl⟩
  · simp only [HandleTable.freeIndex, List.getElem?_modify, eq_comm (a := index.toNat), beq_iff_eq]
    rfl
  · rw [List.mem_singleton, beq_iff_eq, UInt32.toNat_inj]

/-- A loop over the slots empties those it is to empty, each at its own turn. -/
theorem Freed.freeWhere (hsized : t.slots.length ≤ 2 ^ 32) (p : HandleSlot V → Bool) :
    Freed t (t.freeWhere p) fun i => t.slots[i]?.any p := by
  -- After the first `n` turns, exactly the slots below `n` have had theirs.
  have hloop : ∀ n ≤ t.slots.length,
      Freed t ((List.range n).foldl (HandleTable.freeIf p) t)
        fun i => decide (i < n) && t.slots[i]?.any p := by
    intro n
    induction n with
    | zero =>
      intro _
      simpa using Freed.refl t
    | succ n ih =>
      intro hn
      specialize ih (by omega)
      rw [List.range_succ, List.foldl_append, List.foldl_cons, List.foldl_nil]
      generalize hmid : (List.range n).foldl (HandleTable.freeIf p) t = mid at ih
      have hsame : mid.slots[n]? = t.slots[n]? := by
        rw [ih.slots]
        simp
      have hindex : (UInt32.ofNat n).toNat = n := by
        rw [UInt32.toNat_ofNat']
        exact Nat.mod_eq_of_lt (by omega)
      unfold HandleTable.freeIf
      rw [hsame]
      split
      · rename_i hp
        have hfreed := ih.trans (Freed.freeIndex mid (UInt32.ofNat n)) ?_
        · convert hfreed using 2 with i
          rw [hindex]
          by_cases hi : i = n
          · subst hi
            simp [hp]
          · have : i < n + 1 ↔ i < n := by omega
            simp [hi, this]
        · intro i hi
          simp only [Bool.and_eq_true, decide_eq_true_eq] at hi
          simp only [hindex, beq_eq_false_iff_ne]
          omega
      · rename_i hp
        convert ih using 2 with i
        by_cases hi : i = n
        · subst hi
          simp [hp]
        · have : i < n + 1 ↔ i < n := by omega
          simp [this]
  have hall := hloop _ (Nat.le_refl _)
  rw [← HandleTable.freeWhere] at hall
  convert hall using 2 with i
  by_cases hi : i < t.slots.length
  · simp [hi]
  · simp [hi]

end Quoin.Handles
