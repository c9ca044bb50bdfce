import Mathlib
import Quoin.Destructure.Binds

/-!
# Quoin — the code of destructuring

The code of a pattern is followed next to what the pattern writes: it does the
same stores, or fails with the same error, and beyond them only binds temporaries
of its own (`Agree`), which keep what they hold until they are read (`Kept`).
-/

namespace Quoin.Destructure

open Trans Lexical

variable {R O E : Type} {h : Host R O E} {k₀ k k' : Nat} {s s' s'' t t' : State O}
  {v : Value O}

/-! ## Temporaries -/

/-- A temporary made after the first `k₀`. -/
def Temp (k₀ : Nat) (x : String) : Prop := ∃ k, k₀ < k ∧ x = tempVar k

theorem tempVar_injective : Function.Injective tempVar :=
  fun _ _ hEq => Nat.repr_injective ((String.append_right_inj _).mp hEq)

theorem tempVar_ne {x : String} (hx : x.toList.head? ≠ some '_') : tempVar k ≠ x := by
  rintro rfl
  refine hx ?_
  rw [tempVar, String.toList_append]
  rfl

theorem not_temp {x : String} (hx : x.toList.head? ≠ some '_') : ¬Temp k₀ x := by
  rintro ⟨k, -, hEq⟩
  exact tempVar_ne hx hEq.symm

theorem isReserved_tempVar : State.isReserved (tempVar k) = false := by
  have hTrue : tempVar k ≠ "true" := tempVar_ne (by decide)
  have hFalse : tempVar k ≠ "false" := tempVar_ne (by decide)
  have hNil : tempVar k ≠ "nil" := tempVar_ne (by decide)
  simp [State.isReserved, hTrue, hFalse, hNil]

/-- Two states that differ in temporaries only. -/
structure Agree (k₀ : Nat) (s t : State O) : Prop where
  stack : s.stack = t.stack
  outer : s.outer = t.outer
  initFrame : s.initFrame = t.initFrame
  globals : s.globals = t.globals
  fields : s.fields = t.fields
  locals : ∀ x, ¬Temp k₀ x → s.locals.lookup x = t.locals.lookup x

/-- The temporaries up to the k-th hold what they did. -/
def Kept (k₀ k : Nat) (s s' : State O) : Prop :=
  ∀ j, k₀ < j → j ≤ k → s'.locals.lookup (tempVar j) = s.locals.lookup (tempVar j)

theorem Kept.trans (h : Kept k₀ k s s') (h' : Kept k₀ k s' s'') : Kept k₀ k s s'' :=
  fun j hj hjk => (h' j hj hjk).trans (h j hj hjk)

theorem Kept.mono (h : Kept k₀ k' s s') (hk : k ≤ k') : Kept k₀ k s s' :=
  fun j hj hjk => h j hj (hjk.trans hk)

/-- A temporary among the first `k` that holds a value. -/
structure Made (k₀ k : Nat) (s : State O) (temp : String) (v : Value O) : Prop where
  made : ∃ j, k₀ < j ∧ j ≤ k ∧ temp = tempVar j
  value : s.locals.lookup temp = some v

namespace Made

variable {temp : String}

theorem mono (h : Made k₀ k s temp v) (hk : k ≤ k') : Made k₀ k' s temp v :=
  ⟨h.made.imp fun _ hj => ⟨hj.1, hj.2.1.trans hk, hj.2.2⟩, h.value⟩

theorem kept (h : Made k₀ k s temp v) (hKept : Kept k₀ k s s') : Made k₀ k s' temp v := by
  obtain ⟨j, hj, hjk, rfl⟩ := h.made
  exact ⟨⟨j, hj, hjk, rfl⟩, (hKept j hj hjk).trans h.value⟩

end Made

/-- A run does what another does, with temporaries of its own. -/
def Follows (k₀ k : Nat) (s : State O) (r q : Except (QuoinError E) (State O)) : Prop :=
  match q with
  | .error e => r = .error e
  | .ok t' => ∃ s', r = .ok s' ∧ Agree k₀ s' t' ∧ Kept k₀ k s s'

namespace Follows

variable {r q : Except (QuoinError E) (State O)} {f g : State O → Except (QuoinError E) (State O)}

theorem ok (hAgree : Agree k₀ s' t) (hKept : Kept k₀ k s s') :
    Follows (E := E) k₀ k s (.ok s') (.ok t) := ⟨s', rfl, hAgree, hKept⟩

theorem mono (h : Follows k₀ k' s r q) (hk : k ≤ k') : Follows k₀ k s r q := by
  rcases q with e | t'
  · exact h
  · obtain ⟨s', hRun, hAgree, hKept⟩ := h
    exact ⟨s', hRun, hAgree, hKept.mono hk⟩

/-- Seen from before. -/
theorem after (h : Follows k₀ k s' r q) (hKept : Kept k₀ k s s') : Follows k₀ k s r q := by
  rcases q with e | t'
  · exact h
  · obtain ⟨s'', hRun, hAgree, hKept'⟩ := h
    exact ⟨s'', hRun, hAgree, hKept.trans hKept'⟩

/-- One run, and then another. -/
theorem bind (h : Follows k₀ k s r q)
    (hNext : ∀ s' t', Agree k₀ s' t' → Kept k₀ k s s' → Follows k₀ k s' (f s') (g t')) :
    Follows k₀ k s (r >>= f) (q >>= g) := by
  rcases q with e | t'
  · rw [show r = .error e from h]
    rfl
  · obtain ⟨s', rfl, hAgree, hKept⟩ := h
    have hNext := hNext s' t' hAgree hKept
    show Follows k₀ k s (f s') (g t')
    rcases hq : g t' with e | t'' <;> rw [hq] at hNext
    · exact hNext
    · obtain ⟨s'', hRun, hAgree', hKept'⟩ := hNext
      exact ⟨s'', hRun, hAgree', hKept.trans hKept'⟩

end Follows

/-! ## Stores -/

/-- A store to no temporary. -/
def Instruction.Avoids (k₀ : Nat) : Instruction R → Prop
  | .defineLocal name | .storeLocal name => ¬Temp k₀ name
  | _ => True

namespace Agree

/-- Binding a name of the frame in both. -/
theorem bind {x : String} (h : Agree k₀ s t) (hx : ¬Temp k₀ x) :
    Follows (E := E) k₀ k s (.ok { s with locals := s.locals.bind x v })
      (.ok { t with locals := t.locals.bind x v }) := by
  refine .ok ⟨h.stack, h.outer, h.initFrame, h.globals, h.fields, fun y hy => ?_⟩
    fun j hj _ => Vars.lookup_bind_ne fun hEq => hx ⟨j, hj, hEq.symm⟩
  by_cases hEq : y = x
  · rw [hEq, Vars.lookup_bind_self, Vars.lookup_bind_self]
  · rw [Vars.lookup_bind_ne hEq, Vars.lookup_bind_ne hEq]
    exact h.locals y hy

/-- A temporary more. -/
theorem temp {x : String} (h : Agree k₀ s t) (hx : Temp k₀ x) :
    Agree k₀ { s with locals := s.locals.bind x v } t :=
  ⟨h.stack, h.outer, h.initFrame, h.globals, h.fields, fun y hy =>
    (Vars.lookup_bind_ne (by rintro rfl; exact hy hx)).trans (h.locals y hy)⟩

/-- An assignment does the same in both. -/
theorem assign {x : String} (h : Agree k₀ s t) (hx : ¬Temp k₀ x) :
    Follows (E := E) k₀ k s (s.assign x v) (t.assign x v) := by
  have hHere : (s.initFrame || (s.locals.lookup x).isSome)
      = (t.initFrame || (t.locals.lookup x).isSome) := by rw [h.initFrame, h.locals x hx]
  have hOuter : assignIn x v s.outer = assignIn x v t.outer := by rw [h.outer]
  unfold State.assign
  rw [hHere, hOuter]
  split_ifs
  · rfl
  · exact h.bind hx
  · cases assignIn x v t.outer with
    | none => exact h.bind hx
    | some outer =>
      exact .ok ⟨h.stack, rfl, h.initFrame, h.globals, h.fields, h.locals⟩ fun _ _ _ => rfl

theorem setGlobal {x : String} {isDefine : Bool} (h : Agree k₀ s t) :
    Follows (E := E) k₀ k s (s.setGlobal x isDefine v) (t.setGlobal x isDefine v) := by
  have hBound : (s.globals.lookup x).isSome = (t.globals.lookup x).isSome := by rw [h.globals]
  have hBind : s.globals.bind x v = t.globals.bind x v := by rw [h.globals]
  unfold State.setGlobal
  rw [hBound]
  split_ifs
  · rfl
  · rfl
  · rfl
  · exact .ok ⟨h.stack, h.outer, h.initFrame, hBind, h.fields, h.locals⟩ fun _ _ _ => rfl

theorem setField {x : String} (hAgree : Agree k₀ s t) :
    Follows k₀ k s (s.setField h x v) (t.setField h x v) := by
  have hHas : (s.fields.lookup x).isSome = (t.fields.lookup x).isSome := by rw [hAgree.fields]
  have hBind : s.fields.bind x v = t.fields.bind x v := by rw [hAgree.fields]
  unfold State.setField
  rw [hHas]
  split_ifs
  · exact .ok ⟨hAgree.stack, hAgree.outer, hAgree.initFrame, hAgree.globals, hBind, hAgree.locals⟩
      fun _ _ _ => rfl
  · rfl

/-- A store does the same in both. -/
theorem storeAt {ins : Instruction R} (hAgree : Agree k₀ s t) (hAvoids : ins.Avoids k₀) :
    Follows k₀ k s (storeAt h s v ins) (storeAt h t v ins) := by
  cases ins with
  | defineLocal x =>
    show Follows k₀ k s (s.define x v) (t.define x v)
    unfold State.define
    split_ifs
    · rfl
    · exact hAgree.bind hAvoids
  | storeLocal x => exact hAgree.assign hAvoids
  | storeGlobal x isDefine => exact hAgree.setGlobal
  | storeField x => exact hAgree.setField
  | _ => exact .ok hAgree fun _ _ _ => rfl

end Agree

/-! ## The compiler's state -/

section Compiler

variable {c c' c'' : Compiler} {declaring : Bool} {x y : String} {id : IdentifierNode}

namespace Compiler

theorem isLocal_insertLocal (hne : y ≠ x) : (c.insertLocal x).isLocal y = c.isLocal y := by
  obtain ⟨n, _ | ⟨s, rest⟩, overrides, depth⟩ := c
  · rfl
  · simp [isLocal, insertLocal, hne]

/-- The scope that binds a name is the same, but for its locals. -/
theorem scopeOf_insertLocal (hne : y ≠ x) {α : Type} (f : Scope → α)
    (hf : ∀ s locals, f { s with locals := locals } = f s) :
    ((c.insertLocal x).scopeOf y).map f = (c.scopeOf y).map f := by
  obtain ⟨n, _ | ⟨s, rest⟩, overrides, depth⟩ := c
  · rfl
  · have hFirst : (x :: s.locals).contains y = s.locals.contains y := by simp [hne]
    simp only [scopeOf, insertLocal, List.modifyHead_cons, List.find?_cons, hFirst]
    cases s.locals.contains y with
    | true => exact congrArg some (hf s _)
    | false => rfl

theorem isImmutable_insertLocal (hne : y ≠ x) :
    (c.insertLocal x).isImmutable y = c.isImmutable y := by
  have hScope := scopeOf_insertLocal (c := c) hne (fun s => s.immutable.contains y) fun _ _ => rfl
  unfold isImmutable
  cases hs : (c.insertLocal x).scopeOf y <;> cases hs' : c.scopeOf y <;>
    rw [hs, hs'] at hScope <;> first | rfl | cases hScope | exact Option.some.inj hScope

theorem localSymbol_insertLocal (hne : y ≠ x) :
    (c.insertLocal x).localSymbol y = c.localSymbol y := by
  have hScope := scopeOf_insertLocal (c := c) hne (fun s => (s.renames.lookup y).getD y)
    fun _ _ => rfl
  unfold localSymbol
  cases hs : (c.insertLocal x).scopeOf y <;> cases hs' : c.scopeOf y <;>
    rw [hs, hs'] at hScope <;> first | rfl | cases hScope | exact Option.some.inj hScope

theorem inInit_insertLocal : (c.insertLocal x).inInit = c.inInit := by
  obtain ⟨n, _ | ⟨s, rest⟩, overrides, depth⟩ := c <;> rfl

end Compiler

/-- Names are stored as before, whatever temporaries there are. -/
theorem compileIdentStore_insertLocal (hne : id.name ≠ x) :
    compileIdentStore (R := R) (c.insertLocal x) declaring id
      = compileIdentStore c declaring id := by
  unfold compileIdentStore
  rw [Compiler.isLocal_insertLocal hne, Compiler.isImmutable_insertLocal hne,
    Compiler.localSymbol_insertLocal hne, Compiler.inInit_insertLocal]
  rfl

/-- A state of the compiler with more temporaries. -/
structure Extends (R : Type) (declaring : Bool) (c c' : Compiler) : Prop where
  counter : c.tempCounter ≤ c'.tempCounter
  stores : ∀ id : IdentifierNode, ¬Temp c.tempCounter id.name →
    (compileIdentStore c' declaring id : Except String (Instruction R))
      = compileIdentStore c declaring id

namespace Extends

theorem refl : Extends R declaring c c := ⟨Nat.le_refl _, fun _ _ => rfl⟩

theorem trans (h : Extends R declaring c c') (h' : Extends R declaring c' c'') :
    Extends R declaring c c'' := by
  refine ⟨h.counter.trans h'.counter, fun id hid => (h'.stores id ?_).trans (h.stores id hid)⟩
  rintro ⟨k, hk, hName⟩
  exact hid ⟨k, lt_of_le_of_lt h.counter hk, hName⟩

theorem newTempVar : Extends R declaring c c.newTempVar.2 := by
  refine ⟨Nat.le_succ _, fun id hid => ?_⟩
  have hne : id.name ≠ tempVar (c.tempCounter + 1) :=
    fun hEq => hid ⟨_, Nat.lt_succ_self _, hEq⟩
  exact compileIdentStore_insertLocal (c := { c with tempCounter := c.tempCounter + 1 }) hne

end Extends

end Compiler

/-! ## Reading a target's part -/

section Reading

variable {L : Level} {all pre rest : List LValue} {lv : LValue} {count : Option (Value O)}
  {i : Nat} {code code' : CodeBlock R}

theorem run_append : run h (code ++ code') s = run h code s >>= run h code' :=
  List.foldlM_append ..

theorem run_cons {ins : Instruction R} : run h (ins :: code) s = exec h s ins >>= run h code :=
  List.foldlM_cons ..

/-- Push what is answered. -/
def push (s : State O) (x : Value O) : State O := { s with stack := x :: s.stack }

theorem exec_load {temp : String} (hMade : Made k₀ k s temp v) (s' : State O)
    (hLocals : s'.locals = s.locals) :
    exec h s' (.loadLocal temp : Instruction R) = .ok (push s' v) := by
  have hGet : s'.get temp = some v := by
    rw [State.get, hLocals, hMade.value]
    rfl
  rw [exec, hGet]
  rfl

theorem exec_pushInt {j : Int} :
    exec h s (.pushInt j : Instruction R) = .ok (push s (.int j)) := rfl

/-- A message with one argument. -/
theorem exec_send {receiver arg : Value O} {selector : Selector} :
    exec h (push (push s receiver) arg) (.send selector 1 : Instruction R)
      = (send h receiver selector [arg]).map (push s) := by
  show (send h receiver selector [arg] >>= fun x => pure (push s x)) = _
  rcases send h receiver selector [arg] with _ | _ <;> rfl

/-- A message with two. -/
theorem exec_send_two {receiver arg arg' : Value O} {selector : Selector} :
    exec h (push (push (push s receiver) arg) arg') (.send selector 2 : Instruction R)
      = (send h receiver selector [arg, arg']).map (push s) := by
  show (send h receiver selector [arg, arg'] >>= fun x => pure (push s x)) = _
  rcases send h receiver selector [arg, arg'] with _ | _ <;> rfl

/-- A level whose temporaries hold what is to be read. -/
structure Ready (k₀ k : Nat) (L : Level) (all : List LValue) (s : State O) (v : Value O)
    (count : Option (Value O)) : Prop where
  temp : Made k₀ k s L.temp v
  n : L.n = all.length
  splat : L.splatAt = splatAt all
  len : ∀ lt, L.lenTemp = some lt → ∃ cnt, count = some cnt ∧ Made k₀ k s lt cnt
  none : L.lenTemp = none → count = none

namespace Ready

theorem kept (hReady : Ready k₀ k L all s v count) (hKept : Kept k₀ k s s') :
    Ready k₀ k L all s' v count :=
  ⟨hReady.temp.kept hKept, hReady.n, hReady.splat,
    fun lt hlt => (hReady.len lt hlt).imp fun _ h => ⟨h.1, h.2.kept hKept⟩, hReady.none⟩

theorem mono (hReady : Ready k₀ k L all s v count) (hk : k ≤ k') :
    Ready k₀ k' L all s v count :=
  ⟨hReady.temp.mono hk, hReady.n, hReady.splat,
    fun lt hlt => (hReady.len lt hlt).imp fun _ h => ⟨h.1, h.2.mono hk⟩, hReady.none⟩

/-- Counting back from the count. -/
theorem run_minus {lt : String} {cnt : Value O} (hMade : Made k₀ k s lt cnt) (j : Int)
    (s' : State O) (hLocals : s'.locals = s.locals) :
    run h [.loadLocal lt, .pushInt j, (.send .minus 1 : Instruction R)] s'
      = (send h cnt .minus [.int j]).map (push s') := by
  rw [run_cons, exec_load hMade s' hLocals]
  show run h [.pushInt j, .send .minus 1] (push s' cnt) = _
  rw [run_cons, exec_pushInt]
  show run h [.send .minus 1] (push (push s' cnt) (.int j)) = _
  rw [run_cons, exec_send]
  rcases send h cnt .minus [.int j] with _ | _ <;> rfl

/-- `at:` with an index that some code pushes. -/
theorem run_at (hReady : Ready k₀ k L all s v count)
    {r : Except (QuoinError E) (Value O)} (hIndex : run h code (push s v) = r.map (push (push s v))) :
    run h ([.loadLocal L.temp] ++ code ++ [.send .at 1]) s
      = r >>= fun idx => (send h v .at [idx]).map (push s) := by
  rw [run_append, run_append, run_cons, exec_load hReady.temp s rfl]
  show (run h code (push s v) >>= _) = _
  rw [hIndex]
  rcases r with e | idx
  · rfl
  · show run h [.send .at 1] (push (push s v) idx) = _
    rw [run_cons, exec_send]
    show (send h v .at [idx]).map (push s) >>= _ = (send h v .at [idx]).map (push s)
    rcases send h v .at [idx] with _ | _ <;> rfl

theorem run_readAt (hReady : Ready k₀ k L all s v count) :
    run h (L.readAt i : CodeBlock R) s = (sendAt h all v count i).map (push s) := by
  have hFromStart : run h ([.loadLocal L.temp] ++ [.pushInt i] ++ [.send .at 1] : CodeBlock R) s
      = (send h v .at [.int i]).map (push s) :=
    hReady.run_at (r := .ok (.int i)) rfl
  unfold Level.readAt Level.pushIndex sendAt
  rw [hReady.splat, hReady.n]
  cases hLen : L.lenTemp with
  | none =>
    rw [hReady.none hLen]
    exact hFromStart
  | some lt =>
    obtain ⟨cnt, rfl, hMade⟩ := hReady.len lt hLen
    cases splatAt all with
    | none => exact hFromStart
    | some j =>
      dsimp only
      split_ifs
      · rw [hReady.run_at (run_minus hMade _ (push s v) rfl)]
        rcases send h cnt .minus [.int (all.length - i : Nat)] with _ | idx
        · rfl
        · rfl
      · exact hFromStart

theorem run_readSplat (hReady : Ready k₀ k L all s v count) :
    run h (L.readSplat i : CodeBlock R) s = (sendSplat h all v count i).map (push s) := by
  unfold Level.readSplat sendSplat
  rw [hReady.splat, hReady.n, run_append, run_cons, exec_load hReady.temp s rfl]
  show (run h _ (push (push s v) (.int i))) = _
  cases hLen : L.lenTemp with
  | none =>
    rw [hReady.none hLen]
    show run h [.send .sliceFrom 1] (push (push s v) (.int i)) = _
    rw [run_cons, exec_send]
    rcases send h v .sliceFrom [.int i] with _ | _ <;> rfl
  | some lt =>
    obtain ⟨cnt, rfl, hMade⟩ := hReady.len lt hLen
    show run h ([.loadLocal lt, .pushInt _, .send .minus 1] ++ [.send .sliceFromTo 2])
      (push (push s v) (.int i)) = _
    rw [run_append, run_minus hMade _ (push (push s v) (.int i)) rfl]
    dsimp only
    rcases send h cnt .minus [.int (Level.tail all.length (splatAt all) : Nat)] with e | stop
    · rfl
    · show run h [.send .sliceFromTo 2] (push (push (push s v) (.int i)) stop) = _
      rw [run_cons, exec_send_two]
      show _ = (send h v .sliceFromTo [.int i, stop]).map (push s)
      rcases send h v .sliceFromTo [.int i, stop] with _ | _ <;> rfl

end Ready

/-- A target that is no splat is given what `at:` answers. -/
theorem share_at (hCount : counted h all v = .ok count) (hAll : all = pre ++ lv :: rest)
    (hNot : lv.isSplat = false) :
    share h all v count pre.length = sendAt h all v count pre.length := by
  have hAt := splatAt_ne hAll hNot
  cases v with
  | list l =>
    have hLt : pre.length < all.length := by
      rw [hAll, List.length_append, List.length_cons]
      omega
    exact (sendAt_list hCount hLt hAt).symm
  | _ => exact if_neg hAt

theorem share_splat (hCount : counted h all v = .ok count) (hAll : all = pre ++ lv :: rest)
    (hOne : all.countP LValue.isSplat ≤ 1) (hSplat : lv.isSplat) :
    share h all v count pre.length = sendSplat h all v count pre.length := by
  have hAt := splatAt_of_splat hOne hAll hSplat
  cases v with
  | list l => exact (sendSplat_list hCount hAt).symm
  | _ => exact if_pos hAt

end Reading

/-! ## The code of a level -/

section Levels

variable {declaring : Bool} {c c₀ c' c₁ c₂ c₃ : Compiler} {L L' : Level}
  {all pre rest inner : List LValue} {i : Nat} {id : IdentifierNode} {ins : Instruction R}
  {code body count : CodeBlock R} {x : Value O}

theorem compileTargets_ident (hStore : compileIdentStore c declaring id = .ok ins)
    (hRest : compileTargets declaring L (i + 1) rest c = .ok (code, c')) :
    compileTargets declaring L i (.ident id :: rest) c
      = .ok (L.readAt i ++ [ins] ++ code, c') := by
  rw [compileTargets]
  show ((compileIdentStore c declaring id >>= fun ins => .ok (ins, c)) >>= fun p =>
    compileTargets declaring L (i + 1) rest p.2 >>= fun q =>
      .ok (L.readAt i ++ [p.1] ++ q.1, q.2)) = _
  rw [hStore]
  show (compileTargets declaring L (i + 1) rest c >>= _) = _
  rw [hRest]
  rfl

theorem compileTargets_splat (hStore : compileIdentStore c declaring id = .ok ins)
    (hRest : compileTargets declaring L (i + 1) rest c = .ok (code, c')) :
    compileTargets declaring L i (.splat id :: rest) c
      = .ok (L.readSplat i ++ [ins] ++ code, c') := by
  rw [compileTargets]
  show ((compileIdentStore c declaring id >>= fun ins => .ok (ins, c)) >>= fun p =>
    compileTargets declaring L (i + 1) rest p.2 >>= fun q =>
      .ok (L.readSplat i ++ [p.1] ++ q.1, q.2)) = _
  rw [hStore]
  show (compileTargets declaring L (i + 1) rest c >>= _) = _
  rw [hRest]
  rfl

theorem compileTargets_sub
    (hEnter : enterLevel inner c.newTempVar.1 c.newTempVar.2 = .ok ((L', count), c₁))
    (hBody : compileTargets declaring L' 0 inner c₁ = .ok (body, c₂))
    (hRest : compileTargets declaring L (i + 1) rest c₂ = .ok (code, c₃)) :
    compileTargets declaring L i (.sub inner :: rest) c
      = .ok (L.readAt i ++ [.defineLocal c.newTempVar.1] ++ count ++ body ++ code, c₃) := by
  rw [compileTargets]
  show (enterLevel inner c.newTempVar.1 c.newTempVar.2 >>= fun p =>
    compileTargets declaring p.1.1 0 inner p.2 >>= fun q =>
    compileTargets declaring L (i + 1) rest q.2 >>= fun r =>
      .ok (L.readAt i ++ [.defineLocal c.newTempVar.1] ++ p.1.2 ++ q.1 ++ r.1, r.2)) = _
  rw [hEnter]
  show (compileTargets declaring L' 0 inner c₁ >>= _) = _
  rw [hBody]
  show (compileTargets declaring L (i + 1) rest c₂ >>= _) = _
  rw [hRest]
  rfl

/-- What binding a new temporary does. -/
theorem exec_defineTemp {j : Nat} (hj : k < j) (hj₀ : k₀ < j) (hAgree : Agree k₀ s t) :
    ∃ s', exec h (push s x) (.defineLocal (tempVar j) : Instruction R) = .ok s' ∧
      Agree k₀ s' t ∧ Kept k₀ k s s' ∧ Made k₀ j s' (tempVar j) x := by
  refine ⟨{ s with locals := s.locals.bind (tempVar j) x }, ?_, hAgree.temp ⟨j, hj₀, rfl⟩,
    fun i _ hik => Vars.lookup_bind_ne fun hEq => ?_, ⟨j, hj₀, Nat.le_refl j, rfl⟩,
    Vars.lookup_bind_self _ _ _⟩
  · show s.define (tempVar j) x = _
    rw [State.define, isReserved_tempVar]
    rfl
  · have := tempVar_injective hEq
    omega

theorem enterLevel_eq (temp : String) (c : Compiler) (hOne : inner.countP LValue.isSplat ≤ 1) :
    (enterLevel inner temp c : Except String ((Level × CodeBlock R) × Compiler))
      = .ok (if 0 < Level.tail inner.length (splatAt inner) then
          ((⟨temp, inner.length, splatAt inner, some c.newTempVar.1⟩,
            [.loadLocal temp, .send .count 0, .defineLocal c.newTempVar.1]), c.newTempVar.2)
        else ((⟨temp, inner.length, splatAt inner, none⟩, []), c)) := by
  have hFew : ¬1 < (inner.zipIdx.filter fun p => p.1.isSplat).length := by
    rw [length_splats]
    omega
  unfold enterLevel
  dsimp only
  rw [if_neg hFew, splatAt_eq_head]
  split_ifs <;> rfl

/-- A level that is entered is ready to be read. -/
theorem enterLevel_ok (k₀ : Nat) (declaring : Bool) (temp : String) (c : Compiler)
    (hOne : inner.countP LValue.isSplat ≤ 1) :
    ∃ (L : Level) (count : CodeBlock R) (c' : Compiler),
      enterLevel inner temp c = .ok ((L, count), c') ∧ Extends R declaring c c' ∧
      ∀ (h : Host R O E) (s t : State O) (x : Value O), Agree k₀ s t → Made k₀ c.tempCounter s temp x →
        (∀ e, counted h inner x = .error e → run h count s = .error e) ∧
        ∀ n, counted h inner x = .ok n → ∃ s', run h count s = .ok s' ∧ Agree k₀ s' t ∧
          Kept k₀ c.tempCounter s s' ∧ Ready k₀ c'.tempCounter L inner s' x n := by
  rw [enterLevel_eq temp c hOne]
  -- behind the splat the positions count from the end, so that the count is needed
  by_cases hTail : 0 < Level.tail inner.length (splatAt inner)
  · rw [if_pos hTail]
    refine ⟨_, _, _, rfl, .newTempVar, fun h s t x hAgree hMade => ?_⟩
    obtain ⟨j, hj, hjc, -⟩ := hMade.made
    have hRun : run h [.loadLocal temp, .send .count 0,
        (.defineLocal c.newTempVar.1 : Instruction R)] s
        = send h x .count [] >>= fun n => exec h (push s n) (.defineLocal c.newTempVar.1) := by
      rw [run_cons, exec_load hMade s rfl]
      show (send h x .count [] >>= fun n => .ok (push s n)) >>= _ = _
      rcases send h x .count [] with e | n
      · rfl
      · show exec h (push s n) (.defineLocal c.newTempVar.1) >>= pure = _
        exact bind_pure _
    unfold counted
    rw [if_pos hTail, hRun]
    rcases send h x .count [] with e | n
    · exact ⟨fun e' he' => congrArg Except.error (Except.error.inj he'), nofun⟩
    · refine ⟨nofun, fun n' hn' => ?_⟩
      cases hn'
      -- the count is in the new temporary from here on
      obtain ⟨s', hDefine, hAgree', hKept, hCount⟩ :=
        exec_defineTemp (h := h) (R := R) (x := n) (Nat.lt_succ_self c.tempCounter)
          (by omega : k₀ < c.tempCounter + 1) hAgree
      refine ⟨s', hDefine, hAgree', hKept, (hMade.kept hKept).mono (Nat.le_succ _), rfl, rfl,
        fun lt hlt => ?_, nofun⟩
      cases hlt
      exact ⟨n, rfl, hCount⟩
  · -- no count, and no code for it
    rw [if_neg hTail]
    refine ⟨_, _, _, rfl, .refl, fun h s t x hAgree hMade => ?_⟩
    unfold counted
    rw [if_neg hTail]
    refine ⟨nofun, fun n hn => ?_⟩
    cases hn
    exact ⟨s, rfl, hAgree, fun _ _ _ => rfl, hMade, rfl, rfl, nofun, fun _ => rfl⟩

/-- A name that can be stored to, and is no temporary made later. -/
def Assignable (R : Type) (c₀ : Compiler) (declaring : Bool) (id : IdentifierNode) : Prop :=
  ∃ ins : Instruction R, compileIdentStore c₀ declaring id = .ok ins ∧
    ¬Temp c₀.tempCounter id.name ∧ ins.Avoids c₀.tempCounter

theorem exec_store (hStore : compileIdentStore c declaring id = .ok ins) :
    exec h (push s x) ins = storeAt h s x ins := by
  unfold compileIdentStore at hStore
  repeat' split at hStore
  all_goals cases hStore <;> rfl

/-- A name's store does what storing under the name does. -/
theorem Assignable.follows (hId : Assignable R c₀ declaring id) (hExt : Extends R declaring c₀ c) :
    ∃ ins : Instruction R, compileIdentStore c declaring id = .ok ins ∧
      ∀ (h : Host R O E) (k : Nat) (x : Value O) (s t : State O), Agree c₀.tempCounter s t →
        Follows c₀.tempCounter k s (exec h (push s x) ins)
          (storeName h c₀ declaring (id, x) t) := by
  obtain ⟨ins, hStore, hName, hAvoids⟩ := hId
  have hStore' := (hExt.stores id hName).trans hStore
  refine ⟨ins, hStore', fun h k x s t hAgree => ?_⟩
  unfold storeName
  rw [exec_store hStore', hStore]
  exact hAgree.storeAt hAvoids

/-- Reading a part, and going on with it. -/
theorem follows_reading {read : CodeBlock R} {r : Except (QuoinError E) (Value O)}
    {W : Value O → Plan (IdentifierNode × Value O) (QuoinError E)}
    (hRead : run h read s = r.map (push s))
    (hNext : ∀ x, Follows k₀ k s (run h code (push s x))
      ((W x).carry (storeName h c₀ declaring) t)) :
    Follows k₀ k s (run h (read ++ code) s)
      ((Plan.reading r W).carry (storeName h c₀ declaring) t) := by
  rw [run_append, hRead]
  rcases r with e | x
  · rfl
  · exact hNext x

/-- A name's store, and what comes behind it. -/
theorem follows_store {W : Plan (IdentifierNode × Value O) (QuoinError E)}
    (hStore : Follows k₀ k s (exec h (push s x) ins)
      (storeName h c₀ declaring (id, x) t))
    (hRest : ∀ s' t', Agree k₀ s' t' → Kept k₀ k s s' →
      Follows k₀ k s' (run h code s') (W.carry (storeName h c₀ declaring) t')) :
    Follows k₀ k s (run h (ins :: code) (push s x))
      (((Plan.write (id, x)).andThen W).carry (storeName h c₀ declaring) t) := by
  rw [run_cons, Plan.carry_andThen, Plan.carry_write]
  exact hStore.bind hRest

/-- **The code of the targets does what they write.** -/
theorem compileTargets_follows (L : Level) (i : Nat) (targets : List LValue) (all pre : List LValue)
    (c : Compiler) (hAll : all = pre ++ targets) (hi : pre.length = i)
    (hOne : all.countP LValue.isSplat ≤ 1) (hSubs : SubsOneSplat targets)
    (hNames : ∀ id ∈ names targets, Assignable R c₀ declaring id)
    (hExt : Extends R declaring c₀ c) :
    ∃ (code : CodeBlock R) (c' : Compiler),
      compileTargets declaring L i targets c = .ok (code, c') ∧ Extends R declaring c c' ∧
      ∀ (h : Host R O E) (s t : State O) (v : Value O) (n : Option (Value O)), Agree c₀.tempCounter s t →
        Ready c₀.tempCounter c.tempCounter L all s v n → counted h all v = .ok n →
        Follows c₀.tempCounter c.tempCounter s (run h code s)
          ((writesFrom h all v n i targets).carry (storeName h c₀ declaring) t) := by
  induction L, i, targets using compileTargets.induct generalizing all pre c with
  | case1 L i =>
    refine ⟨[], c, by rw [compileTargets]; rfl, .refl, fun h s t v n hAgree _ _ => ?_⟩
    rw [writesFrom, Plan.carry_done]
    exact .ok hAgree fun _ _ _ => rfl
  | case2 L i id rest ih =>
    subst hi
    obtain ⟨ins, hStore, hFollows⟩ := (hNames id (by simp [names])).follows hExt
    obtain ⟨code, c', hRest, hExt', hBehind⟩ := ih all (pre ++ [.ident id]) c (by simpa using hAll)
      (by simp) hOne (by simpa [SubsOneSplat] using hSubs)
      (fun id' hid' => hNames id' (by simp [names, hid'])) hExt
    refine ⟨_, c', compileTargets_ident hStore hRest, hExt', fun h s t v n hAgree hReady hCount => ?_⟩
    rw [writesFrom, share_at hCount hAll rfl, List.append_assoc]
    refine follows_reading hReady.run_readAt fun x => follows_store (hFollows h _ x s t hAgree) ?_
    exact fun s' t' hAgree' hKept => hBehind h s' t' v n hAgree' (hReady.kept hKept) hCount
  | case3 L i id rest ih =>
    subst hi
    obtain ⟨ins, hStore, hFollows⟩ := (hNames id (by simp [names])).follows hExt
    obtain ⟨code, c', hRest, hExt', hBehind⟩ := ih all (pre ++ [.splat id]) c (by simpa using hAll)
      (by simp) hOne (by simpa [SubsOneSplat] using hSubs)
      (fun id' hid' => hNames id' (by simp [names, hid'])) hExt
    refine ⟨_, c', compileTargets_splat hStore hRest, hExt', fun h s t v n hAgree hReady hCount => ?_⟩
    rw [writesFrom, share_splat hCount hAll hOne rfl, List.append_assoc]
    refine follows_reading hReady.run_readSplat fun x =>
      follows_store (hFollows h _ x s t hAgree) ?_
    exact fun s' t' hAgree' hKept => hBehind h s' t' v n hAgree' (hReady.kept hKept) hCount
  | case4 L i rest ih =>
    obtain ⟨code, c', hRest, hExt', hBehind⟩ := ih all (pre ++ [.ignored]) c (by simpa using hAll)
      (by simp [hi]) hOne (by simpa [SubsOneSplat] using hSubs)
      (by simpa only [names] using hNames) hExt
    refine ⟨code, c', by rwa [compileTargets], hExt', ?_⟩
    simpa only [writesFrom] using hBehind
  | case5 L i rest ih =>
    obtain ⟨code, c', hRest, hExt', hBehind⟩ := ih all (pre ++ [.ignoredSplat]) c
      (by simpa using hAll) (by simp [hi]) hOne (by simpa [SubsOneSplat] using hSubs)
      (by simpa only [names] using hNames) hExt
    refine ⟨code, c', by rwa [compileTargets], hExt', ?_⟩
    simpa only [writesFrom] using hBehind
  | case6 L i inner rest ihInner ih =>
    subst hi
    rw [SubsOneSplat] at hSubs
    obtain ⟨⟨hInnerOne, hInnerSubs⟩, hRestSubs⟩ := hSubs
    have hNew : Extends R declaring c c.newTempVar.2 := .newTempVar
    obtain ⟨L', count, c₁, hEnter, hExt₁, hEntered⟩ := enterLevel_ok c₀.tempCounter declaring
      c.newTempVar.1 c.newTempVar.2 hInnerOne
    obtain ⟨body, c₂, hBody, hExt₂, hInside⟩ := ihInner L' inner [] c₁ rfl rfl hInnerOne hInnerSubs
      (fun id hid => hNames id (by simp [names, hid])) ((hExt.trans hNew).trans hExt₁)
    obtain ⟨code, c₃, hRest, hExt₃, hBehind⟩ := ih all (pre ++ [.sub inner]) c₂ (by simpa using hAll)
      (by simp) hOne hRestSubs (fun id hid => hNames id (by simp [names, hid]))
      (((hExt.trans hNew).trans hExt₁).trans hExt₂)
    refine ⟨_, c₃, compileTargets_sub hEnter hBody hRest,
      ((hNew.trans hExt₁).trans hExt₂).trans hExt₃, fun h s t v n hAgree hReady hCount => ?_⟩
    rw [writesFrom, share_at hCount hAll rfl, List.append_assoc, List.append_assoc,
      List.append_assoc]
    refine follows_reading hReady.run_readAt fun x => ?_
    obtain ⟨s₁, hDefine, hAgree₁, hKept₁, hMade⟩ := exec_defineTemp (h := h) (R := R) (x := x)
      (Nat.lt_succ_self c.tempCounter) (Nat.lt_succ_of_le hExt.counter) hAgree
    obtain ⟨hFails, hEnters⟩ := hEntered h s₁ t x hAgree₁ hMade
    rw [List.singleton_append, run_cons]
    show Follows _ _ s (exec h (push s x) (.defineLocal (tempVar (c.tempCounter + 1))) >>= _) _
    rw [hDefine]
    refine Follows.after ?_ hKept₁
    show Follows _ _ s₁ (run h (count ++ (body ++ code)) s₁) _
    rw [run_append]
    rcases hCounted : counted h inner x with e | n'
    · rw [hFails e hCounted]
      rfl
    · obtain ⟨s₂, hRun, hAgree₂, hKept₂, hReady'⟩ := hEnters n' hCounted
      have hLe : c.tempCounter ≤ c₁.tempCounter := (hNew.trans hExt₁).counter
      rw [hRun]
      refine Follows.after ?_ (hKept₂.mono hNew.counter)
      show Follows _ _ s₂ (run h (body ++ code) s₂)
        (((writesFrom h inner x n' 0 inner).andThen (writesFrom h all v n _ rest)).carry _ t)
      rw [run_append, Plan.carry_andThen]
      -- the temporaries of the level around are older, and are kept
      refine ((hInside h s₂ t x n' hAgree₂ hReady' hCounted).mono hLe).bind fun s₃ t' hAgree₃ hKept₃ => ?_
      have hReady₃ := ((hReady.kept hKept₁).kept (hKept₂.mono hNew.counter)).kept hKept₃
      exact (hBehind h s₃ t' v n hAgree₃ (hReady₃.mono (hLe.trans hExt₂.counter)) hCount).mono
        (hLe.trans hExt₂.counter)

/-- The code of a statement. -/
theorem compileSeveral_eq {lvalues : List LValue} {rvalue : R}
    (hEnter : enterLevel lvalues c.newTempVar.1 c.newTempVar.2 = .ok ((L, count), c₁))
    (hBody : compileTargets declaring L 0 lvalues c₁ = .ok (body, c₂)) :
    compileSeveral declaring lvalues rvalue c
      = .ok ([.node rvalue, .dup, .defineLocal c.newTempVar.1] ++ (count ++ body), c₂) := by
  have hDestruct : compileDestruct declaring lvalues c.newTempVar.1 c.newTempVar.2
      = .ok (count ++ body, c₂) := by
    show (enterLevel lvalues c.newTempVar.1 c.newTempVar.2 >>= fun p =>
      compileTargets declaring p.1.1 0 lvalues p.2 >>= fun q => .ok (p.1.2 ++ q.1, q.2)) = _
    rw [hEnter]
    show (compileTargets declaring L 0 lvalues c₁ >>= _) = _
    rw [hBody]
    rfl
  show (compileDestruct declaring lvalues c.newTempVar.1 c.newTempVar.2 >>= fun p =>
    .ok ([.node rvalue, .dup, .defineLocal c.newTempVar.1] ++ p.1, p.2)) = _
  rw [hDestruct]
  rfl

/-- **The code of a statement does what the pattern writes of the value.** -/
theorem compileSeveral_follows (lvalues : List LValue) (rvalue : R) (hOne : OneSplat lvalues)
    (hNames : ∀ id ∈ names lvalues, Assignable R c₀ declaring id) :
    ∃ (code : CodeBlock R) (c' : Compiler),
      compileSeveral declaring lvalues rvalue c₀ = .ok (code, c') ∧
      ∀ (h : Host R O E) (s : State O),
        (∀ e, h.eval rvalue s = .error e → run h code s = .error e) ∧
        ∀ v s', h.eval rvalue s = .ok (v, s') →
          Follows c₀.tempCounter c₀.tempCounter (push s' v) (run h code s)
            ((writes h lvalues v).carry (storeName h c₀ declaring) (push s' v)) := by
  have hNew : Extends R declaring c₀ c₀.newTempVar.2 := .newTempVar
  obtain ⟨L, count, c₁, hEnter, hExt₁, hEntered⟩ := enterLevel_ok (O := O) (E := E)
    c₀.tempCounter declaring c₀.newTempVar.1 c₀.newTempVar.2 hOne.1
  obtain ⟨body, c₂, hBody, -, hInside⟩ := compileTargets_follows (O := O) (E := E) L 0 lvalues
    lvalues [] c₁ rfl rfl hOne.1 hOne.2 hNames (hNew.trans hExt₁)
  refine ⟨_, c₂, compileSeveral_eq hEnter hBody,
    fun h s => ⟨fun e hEval => ?_, fun v s' hEval => ?_⟩⟩
  · rw [List.cons_append, run_cons, exec, hEval]
    rfl
  · obtain ⟨s₁, hDefine, hAgree₁, hKept₁, hMade⟩ := exec_defineTemp (h := h) (R := R) (x := v)
      (s := push s' v) (t := push s' v) (Nat.lt_succ_self c₀.tempCounter)
      (Nat.lt_succ_self c₀.tempCounter) ⟨rfl, rfl, rfl, rfl, rfl, fun _ _ => rfl⟩
    obtain ⟨hFails, hEnters⟩ := hEntered h s₁ _ v hAgree₁ hMade
    have hRun : run h ([.node rvalue, .dup, .defineLocal c₀.newTempVar.1] ++ (count ++ body)) s
        = run h (count ++ body) s₁ := by
      rw [run_append, run_cons, exec, hEval]
      show exec h (push (push s' v) v) (.defineLocal (tempVar (c₀.tempCounter + 1))) >>= pure
        >>= run h (count ++ body) = _
      rw [hDefine]
      rfl
    rw [hRun, run_append, writes]
    refine Follows.after ?_ hKept₁
    rcases hCounted : counted h lvalues v with e | n
    · rw [hFails e hCounted]
      rfl
    · obtain ⟨s₂, hCount, hAgree₂, hKept₂, hReady⟩ := hEnters n hCounted
      rw [hCount]
      exact ((hInside h s₂ _ v n hAgree₂ hReady hCounted).mono (hNew.trans hExt₁).counter).after
        (hKept₂.mono hNew.counter)

end Levels

end Quoin.Destructure
