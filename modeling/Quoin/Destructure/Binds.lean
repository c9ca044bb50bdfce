import Mathlib
import Quoin.Trans.Plan
import Quoin.Destructure.Run

/-!
# Quoin — what destructuring binds

A level of a pattern gives each of its targets a part of the list (`part`): a
target before the splat the element at its position, one behind it the element at
its position from the end, the splat what is between, and nil where the list has
no such element. `writes` is what a whole pattern writes so, names and values in
order; a sub-pattern goes on with its part, which fails where that is nil. The
compiled code writes just that (`destructuring`).
-/

namespace Quoin.Destructure

open Trans Lexical

variable {R O E : Type}

/-! ## What a pattern writes -/

/-- The position of the splat of a level. -/
def splatAt (lvalues : List LValue) : Option Nat := lvalues.findIdx? LValue.isSplat

/-- What target `i` of a level is given of a list. -/
def part (lvalues : List LValue) (l : List (Value O)) (i : Nat) : Value O :=
  match splatAt lvalues with
  | none => l[i]?.getD .nil
  | some k =>
    if i < k then l[i]?.getD .nil
    else if i = k then .list ((l.take (l.length - (lvalues.length - 1 - k))).drop k)
    else l.reverse[lvalues.length - 1 - i]?.getD .nil

section Writes

variable (h : Host R O E)

/-- The count of a level with targets behind its splat. -/
def counted (lvalues : List LValue) (v : Value O) : Except (QuoinError E) (Option (Value O)) :=
  if 0 < Level.tail lvalues.length (splatAt lvalues) then (send h v .count []).map some else .ok none

/-- What `at:` answers for a target. -/
def sendAt (lvalues : List LValue) (v : Value O) (count : Option (Value O)) (i : Nat) :
    Except (QuoinError E) (Value O) :=
  match count, splatAt lvalues with
  | some count, some k =>
    if k < i then send h count .minus [.int (lvalues.length - i : Nat)] >>= fun idx =>
      send h v .at [idx]
    else send h v .at [.int i]
  | _, _ => send h v .at [.int i]

/-- What the slice of a splat answers. -/
def sendSplat (lvalues : List LValue) (v : Value O) (count : Option (Value O)) (i : Nat) :
    Except (QuoinError E) (Value O) :=
  match count with
  | some count =>
    send h count .minus [.int (Level.tail lvalues.length (splatAt lvalues))] >>= fun stop =>
      send h v .sliceFromTo [.int i, stop]
  | none => send h v .sliceFrom [.int i]

/-- What target `i` is given: its part of a List, or what another object answers. -/
def share (lvalues : List LValue) (v : Value O) (count : Option (Value O)) (i : Nat) :
    Except (QuoinError E) (Value O) :=
  match v with
  | .list l => .ok (part lvalues l i)
  | v => if splatAt lvalues = some i then sendSplat h lvalues v count i
    else sendAt h lvalues v count i

/-- What the targets of a level write, from target `i` on. -/
def writesFrom (lvalues : List LValue) (v : Value O) (count : Option (Value O)) (i : Nat) :
    List LValue → Plan (IdentifierNode × Value O) (QuoinError E)
  | [] => .done
  | .ident id :: rest | .splat id :: rest => .reading (share h lvalues v count i) fun x =>
    (Plan.write (id, x)).andThen (writesFrom lvalues v count (i + 1) rest)
  | .ignored :: rest | .ignoredSplat :: rest => writesFrom lvalues v count (i + 1) rest
  | .sub inner :: rest => .reading (share h lvalues v count i) fun x =>
    .reading (counted h inner x) fun count' =>
      (writesFrom inner x count' 0 inner).andThen (writesFrom lvalues v count (i + 1) rest)

/-- What a pattern writes of a value. -/
def writes (lvalues : List LValue) (v : Value O) :
    Plan (IdentifierNode × Value O) (QuoinError E) :=
  .reading (counted h lvalues v) fun count => writesFrom h lvalues v count 0 lvalues

/-- Store a value under a name. -/
def storeName (c : Compiler) (declaring : Bool) (w : IdentifierNode × Value O) (s : State O) :
    Except (QuoinError E) (State O) :=
  match (compileIdentStore c declaring w.1 : Except String (Instruction R)) with
  | .ok store => storeAt h s w.2 store
  | .error msg => .error (.other msg)

end Writes

/-- The names of a pattern. -/
def names : List LValue → List IdentifierNode
  | [] => []
  | .ident id :: rest | .splat id :: rest => id :: names rest
  | .ignored :: rest | .ignoredSplat :: rest => names rest
  | .sub inner :: rest => names inner ++ names rest

/-- The sub-patterns have at most one splat on each level. -/
def SubsOneSplat : List LValue → Prop
  | [] => True
  | .sub inner :: rest =>
    (inner.countP LValue.isSplat ≤ 1 ∧ SubsOneSplat inner) ∧ SubsOneSplat rest
  | _ :: rest => SubsOneSplat rest

/-- At most one splat on each level. -/
def OneSplat (lvalues : List LValue) : Prop :=
  lvalues.countP LValue.isSplat ≤ 1 ∧ SubsOneSplat lvalues

/-! ## Positions -/

section Positions

variable {h : Host R O E} {all pre rest : List LValue} {lv : LValue} {l : List (Value O)}
  {count : Option (Value O)} {i : Nat}

theorem head_zipIdx (all : List LValue) (n : Nat) :
    ((all.zipIdx n).filter fun (lv, _) => lv.isSplat).head?.map Prod.snd
      = (splatAt all).map (· + n) := by
  induction all generalizing n with
  | nil => rfl
  | cons lv rest ih =>
    rw [List.zipIdx_cons, List.filter_cons, splatAt, List.findIdx?_cons]
    by_cases hSplat : lv.isSplat
    · simp [hSplat]
    · rw [if_neg (by simpa using hSplat), if_neg (by simpa using hSplat), ih, Option.map_map,
        splatAt]
      congr 1
      funext k
      simp only [Function.comp_apply]
      omega

theorem splatAt_eq_head : (all.zipIdx.filter fun (lv, _) => lv.isSplat).head?.map Prod.snd
    = splatAt all := by
  rw [head_zipIdx]
  exact Option.map_id'

theorem length_splats : (all.zipIdx.filter fun (lv, _) => lv.isSplat).length
    = all.countP LValue.isSplat := by
  show (all.zipIdx.filter (LValue.isSplat ∘ Prod.fst)).length = _
  rw [← List.countP_eq_length_filter, ← List.countP_map, List.zipIdx_map_fst]

theorem splatAt_of_splat (hOne : all.countP LValue.isSplat ≤ 1) (hAll : all = pre ++ lv :: rest)
    (hSplat : lv.isSplat) : splatAt all = some pre.length := by
  rw [hAll, List.countP_append, List.countP_cons_of_pos hSplat] at hOne
  have hPre : splatAt pre = none := by
    rw [splatAt, List.findIdx?_eq_none_iff]
    intro x hx
    have hZero : pre.countP LValue.isSplat = 0 := by omega
    simpa using List.countP_eq_zero.mp hZero x hx
  rw [splatAt] at hPre
  rw [hAll, splatAt, List.findIdx?_append, hPre, List.findIdx?_cons, if_pos hSplat]
  simp

theorem splatAt_ne (hAll : all = pre ++ lv :: rest) (hNot : lv.isSplat = false) :
    splatAt all ≠ some pre.length := by
  intro hAt
  obtain ⟨hLt, hSplat, -⟩ := List.findIdx?_eq_some_iff_getElem.mp hAt
  simp only [hAll, List.getElem_append_right (Nat.le_refl _), Nat.sub_self,
    List.getElem_cons_zero, hNot] at hSplat
  cases hSplat

theorem splatAt_lt {k : Nat} (hAt : splatAt all = some k) : k < all.length :=
  (List.findIdx?_eq_some_iff_getElem.mp hAt).1

/-- The count of a List is taken where targets follow the splat. -/
theorem counted_list (hCount : counted h all (.list l) = .ok count) {k : Nat}
    (hAt : splatAt all = some k) :
    (k + 1 < all.length ∧ count = some (.int l.length)) ∨ (k + 1 = all.length ∧ count = none) := by
  have hLt := splatAt_lt hAt
  rw [counted, hAt] at hCount
  by_cases hBehind : k + 1 < all.length
  · have hTail : 0 < Level.tail all.length (some k) := by
      simp only [Level.tail, if_pos hBehind]
      omega
    rw [if_pos hTail] at hCount
    exact .inl ⟨hBehind, (Except.ok.inj hCount).symm⟩
  · have hTail : ¬0 < Level.tail all.length (some k) := by
      simp [Level.tail, if_neg hBehind]
    rw [if_neg hTail] at hCount
    exact .inr ⟨by omega, (Except.ok.inj hCount).symm⟩

theorem part_before (hBefore : ∀ k, splatAt all = some k → i < k) :
    part all l i = l[i]?.getD .nil := by
  unfold part
  cases hAt : splatAt all with
  | none => rfl
  | some k => exact if_pos (hBefore k hAt)

theorem part_splat {k : Nat} (hAt : splatAt all = some k) :
    part all l k = .list ((l.take (l.length - (all.length - 1 - k))).drop k) := by
  unfold part
  rw [hAt]
  exact (if_neg (Nat.lt_irrefl k)).trans (if_pos rfl)

theorem part_behind {k : Nat} (hAt : splatAt all = some k) (hBehind : k < i) :
    part all l i = l.reverse[all.length - 1 - i]?.getD .nil := by
  unfold part
  rw [hAt]
  exact (if_neg (by omega)).trans (if_neg (by omega))

/-- A position counted from the end, which may be before the start. -/
theorem listGet_end {j : Nat} (hj : 0 < j) :
    listGet l ((l.length : Int) - (j : Nat)) = l.reverse[j - 1]?.getD .nil := by
  unfold listGet
  by_cases hIn : j ≤ l.length
  · rw [if_pos (by omega), List.getElem?_reverse (by omega)]
    congr 2
    omega
  · rw [if_neg (by omega), List.getElem?_eq_none (by rw [List.length_reverse]; omega)]
    rfl

/-- The part of a target is the element that `at:` answers. -/
theorem sendAt_list (hCount : counted h all (.list l) = .ok count) (hLt : i < all.length)
    (hNot : splatAt all ≠ some i) : sendAt h all (.list l) count i = .ok (part all l i) := by
  have hFromStart (hBefore : ∀ k, splatAt all = some k → i < k) :
      send h (.list l) .at [.int i] = .ok (part all l i) := by
    rw [part_before hBefore, send, listGet, if_pos (by omega), Int.toNat_natCast]
  unfold sendAt
  cases hAt : splatAt all with
  | none => cases count <;> exact hFromStart (by simp [hAt])
  | some k =>
    have hi : i ≠ k := fun hi => hNot (hi ▸ hAt)
    obtain ⟨hBehind, rfl⟩ | ⟨hLast, rfl⟩ := counted_list hCount hAt
    · by_cases hBefore : k < i
      · have hGet := listGet_end (l := l) (j := all.length - i) (by omega)
        rw [part_behind hAt hBefore, Nat.sub_right_comm, ← hGet]
        exact if_pos hBefore
      · refine (if_neg hBefore).trans (hFromStart fun k' hk' => ?_)
        have : k = k' := Option.some.inj (hAt.symm.trans hk')
        omega
    · refine hFromStart fun k' hk' => ?_
      have : k = k' := Option.some.inj (hAt.symm.trans hk')
      omega

theorem sliceFromTo_end (n : Nat) :
    sliceFromTo l i ((l.length : Int) - (n : Nat)) = (l.take (l.length - n)).drop i := by
  have hStart : (max (i : Int) 0).toNat = i := by omega
  have hStop : min (max ((l.length : Int) - (n : Nat)) 0).toNat l.length = l.length - n := by omega
  unfold sliceFromTo
  dsimp only
  rw [hStart, hStop]
  by_cases hIn : i < l.length - n
  · rw [if_pos hIn]
  · rw [if_neg hIn, List.drop_of_length_le (by rw [List.length_take]; omega)]

theorem sliceFrom_eq : sliceFrom l i = l.drop i := by
  have hStart : (max (i : Int) 0).toNat = i := by omega
  unfold sliceFrom
  dsimp only
  rw [hStart]
  by_cases hIn : i < l.length
  · rw [if_pos hIn]
  · rw [if_neg hIn, List.drop_of_length_le (by omega)]

/-- The part of a splat is the slice. -/
theorem sendSplat_list (hCount : counted h all (.list l) = .ok count)
    (hAt : splatAt all = some i) : sendSplat h all (.list l) count i = .ok (part all l i) := by
  rw [part_splat hAt]
  obtain ⟨hBehind, rfl⟩ | ⟨hLast, rfl⟩ := counted_list hCount hAt
  · have hTail : Level.tail all.length (splatAt all) = all.length - 1 - i := by
      rw [hAt]
      exact if_pos hBehind
    rw [← sliceFromTo_end, ← hTail]
    rfl
  · have hAll : l.take (l.length - (all.length - 1 - i)) = l :=
      List.take_of_length_le (by omega)
    rw [hAll, ← sliceFrom_eq]
    rfl

/-! ## No element twice, none left out -/

theorem parts_before {n : Nat} (hBefore : ∀ k, splatAt all = some k → n ≤ k)
    (hLong : n ≤ l.length) : (List.range n).map (part all l) = l.take n := by
  refine List.ext_getElem (by simp [hLong]) fun j hj _ => ?_
  have hj : j < n := by simpa using hj
  rw [List.getElem_map, List.getElem_range, List.getElem_take,
    part_before fun k hk => hj.trans_le (hBefore k hk), List.getElem?_eq_getElem (hj.trans_le hLong)]
  rfl

theorem parts_behind {k : Nat} (hAt : splatAt all = some k) (hLong : all.length - 1 - k ≤ l.length) :
    (List.range' (k + 1) (all.length - 1 - k)).map (part all l)
      = l.drop (l.length - (all.length - 1 - k)) := by
  refine List.ext_getElem (by simp; omega) fun j hj _ => ?_
  have hj : j < all.length - 1 - k := by simpa using hj
  rw [List.getElem_map, List.getElem_range', List.getElem_drop, part_behind hAt (by omega),
    List.getElem?_reverse (by omega), List.getElem?_eq_getElem (by omega)]
  simp only [Option.getD_some]
  congr 1
  omega

/-- A list that is long enough is what the targets are given, one after the other. -/
theorem parts_cover {k : Nat} (hAt : splatAt all = some k) (hLong : all.length - 1 ≤ l.length) :
    ∃ mid, part all l k = .list mid ∧
      (List.range k).map (part all l) ++ mid ++
        (List.range' (k + 1) (all.length - 1 - k)).map (part all l) = l := by
  have hLt := splatAt_lt hAt
  refine ⟨_, part_splat hAt, ?_⟩
  rw [parts_behind hAt (by omega),
    parts_before (fun k' hk' => (Option.some.inj (hAt.symm.trans hk')).le) (by omega)]
  have hTake : l.take k = (l.take (l.length - (all.length - 1 - k))).take k := by
    rw [List.take_take]
    congr 1
    omega
  rw [hTake, List.take_append_drop, List.take_append_drop]

end Positions

/-! ## Sub-patterns of nil -/

section OfNil

variable {h : Host R O E} {all : List LValue}

def LValue.isIgnored : LValue → Bool
  | .ignored | .ignoredSplat => true
  | .ident _ | .splat _ | .sub _ => false

/-- Whether a pattern asks its value anything: for its count, or for a part. -/
def asks (lvalues : List LValue) : Bool :=
  0 < Level.tail lvalues.length (splatAt lvalues) || lvalues.any fun lv => !lv.isIgnored

/-- nil does not understand what it is asked. -/
theorem share_nil (all : List LValue) (i : Nat) : ∃ selector,
    share h all .nil none i = .error (.messageNotUnderstood selector) := by
  unfold share
  dsimp only
  split_ifs
  · exact ⟨.sliceFrom, rfl⟩
  · exact ⟨.at, rfl⟩

theorem writesFrom_nil (targets : List LValue) (i : Nat) :
    ((targets.any fun lv => !lv.isIgnored) = true → ∃ selector,
      writesFrom h all .nil none i targets = .fail (.messageNotUnderstood selector)) ∧
    ((targets.any fun lv => !lv.isIgnored) = false →
      writesFrom h all .nil none i targets = .done) := by
  induction targets generalizing i with
  | nil => exact ⟨nofun, fun _ => by rw [writesFrom]⟩
  | cons lv rest ih =>
    obtain ⟨selector, hShare⟩ := share_nil (h := h) all i
    cases lv with
    | ignored =>
      simp only [writesFrom]
      exact ih (i + 1)
    | ignoredSplat =>
      simp only [writesFrom]
      exact ih (i + 1)
    | _ => exact ⟨fun _ => ⟨selector, by rw [writesFrom, hShare]; rfl⟩, nofun⟩

/-- A pattern of nil raises, unless it asks nothing. -/
theorem writes_nil :
    (asks all = true → ∃ selector, writes h all .nil = .fail (.messageNotUnderstood selector)) ∧
    (asks all = false → writes h all .nil = .done) := by
  unfold writes asks counted
  by_cases hTail : 0 < Level.tail all.length (splatAt all)
  · rw [if_pos hTail, decide_eq_true hTail, Bool.true_or]
    exact ⟨fun _ => ⟨.count, rfl⟩, nofun⟩
  · rw [if_neg hTail, decide_eq_false hTail, Bool.false_or]
    exact writesFrom_nil all 0

end OfNil

end Quoin.Destructure
