import Mathlib
import Quoin.Destructure.Correct

/-!
# Quoin — destructuring binds names

What the code of an assignment or a declaration of several targets does, in one
theorem (`destructuring`): the right-hand side is evaluated once, the writes of
the pattern are carried out in order, and each name then holds what was written
there last. A sub-pattern whose element is missing raises, as nil does not
understand what it is asked.

## Results

* `destructuring` — for every pattern and right-hand side: what the compiled code binds, and when it
  raises;
* `destructuring_missing` — a nested pattern whose element is missing raises.
-/

namespace Quoin.Destructure

open Trans Lexical

variable {R O E : Type} {h : Host R O E} {s s' : State O} {v : Value O} {x y : String}

/-! ## Places -/

/-- Where a name is kept. -/
inductive Place where
  | var (name : String)
  | global (name : String)
  | field (name : String)
  deriving DecidableEq

def Instruction.place : Instruction R → Option Place
  | .defineLocal name | .storeLocal name => some (.var name)
  | .storeGlobal name _ => some (.global name)
  | .storeField name => some (.field name)
  | _ => none

/-- Where a name of a pattern is kept. -/
def placeOf (R : Type) (c : Compiler) (declaring : Bool) (id : IdentifierNode) : Option Place :=
  match (compileIdentStore c declaring id : Except String (Instruction R)) with
  | .ok ins => ins.place
  | .error _ => none

def State.read (s : State O) : Place → Option (Value O)
  | .var name => s.get name
  | .global name => s.globals.lookup name
  | .field name => s.fields.lookup name

/-- A write at a place: it holds the value, and the others are kept. -/
structure Sets (s : State O) (p : Place) (v : Value O) (s' : State O) : Prop where
  self : s'.read p = some v
  others : ∀ q, q ≠ p → s'.read q = s.read q

namespace Sets

theorem bindLocal : Sets s (.var x) v { s with locals := s.locals.bind x v } := by
  refine ⟨?_, fun q hq => ?_⟩
  · show ((s.locals.bind x v).lookup x).or _ = some v
    rw [Vars.lookup_bind_self]
    rfl
  · cases q with
    | var y =>
      have hne : y ≠ x := fun hEq => hq (congrArg Place.var hEq)
      show ((s.locals.bind x v).lookup y).or _ = (s.locals.lookup y).or _
      rw [Vars.lookup_bind_ne hne]
    | _ => rfl

theorem findSome_assignIn {fs fs' : List (Vars String (Value O))}
    (hSet : assignIn x v fs = some fs') :
    (fs'.findSome? fun f => f.lookup x) = some v ∧
      ∀ y, y ≠ x → (fs'.findSome? fun f => f.lookup y) = fs.findSome? fun f => f.lookup y := by
  induction fs generalizing fs' with
  | nil => cases hSet
  | cons f rest ih =>
    rw [assignIn] at hSet
    split at hSet
    · cases hSet
      refine ⟨?_, fun y hy => ?_⟩
      · rw [List.findSome?_cons, Vars.lookup_bind_self]
      · rw [List.findSome?_cons, List.findSome?_cons, Vars.lookup_bind_ne hy]
    · next hNone =>
      obtain ⟨rest', hRest, rfl⟩ := Option.map_eq_some_iff.mp hSet
      obtain ⟨hSelf, hOthers⟩ := ih hRest
      have hFirst : f.lookup x = none := by simpa using hNone
      refine ⟨?_, fun y hy => ?_⟩
      · rw [List.findSome?_cons, hFirst]
        exact hSelf
      · rw [List.findSome?_cons, List.findSome?_cons, hOthers y hy]

theorem assign (hSet : s.assign x v = (.ok s' : Except (QuoinError E) (State O))) :
    Sets s (.var x) v s' := by
  unfold State.assign at hSet
  split at hSet
  · cases hSet
  split at hSet
  · cases hSet
    exact bindLocal
  · next hNot =>
    rcases hOuter : assignIn x v s.outer with _ | outer <;> rw [hOuter] at hSet <;> cases hSet
    · exact bindLocal
    · obtain ⟨hSelf, hOthers⟩ := findSome_assignIn hOuter
      have hFirst : s.locals.lookup x = none := by
        simp only [Bool.or_eq_true, not_or, Option.not_isSome_iff_eq_none] at hNot
        exact hNot.2
      refine ⟨?_, fun q hq => ?_⟩
      · show (s.locals.lookup x).or _ = some v
        rw [hFirst]
        exact hSelf
      · cases q with
        | var y =>
          have hne : y ≠ x := fun hEq => hq (congrArg Place.var hEq)
          show (s.locals.lookup y).or _ = (s.locals.lookup y).or _
          rw [hOthers y hne]
        | _ => rfl

/-- What a store writes. -/
theorem storeAt {ins : Instruction R} {p : Place} (hPlace : ins.place = some p)
    (hStore : storeAt h s v ins = .ok s') : Sets s p v s' := by
  cases ins with
  | defineLocal x =>
    cases hPlace
    have hStore : s.define x v = .ok s' := hStore
    unfold State.define at hStore
    split at hStore <;> cases hStore
    exact bindLocal
  | storeLocal x =>
    cases hPlace
    exact assign (E := E) hStore
  | storeGlobal x isDefine =>
    cases hPlace
    have hStore : s.setGlobal x isDefine v = .ok s' := hStore
    unfold State.setGlobal at hStore
    split at hStore
    · cases hStore
    split at hStore <;> cases hStore
    refine ⟨Vars.lookup_bind_self _ _ _, fun q hq => ?_⟩
    cases q with
    | global y => exact Vars.lookup_bind_ne fun hEq => hq (congrArg Place.global hEq)
    | _ => rfl
  | storeField x =>
    cases hPlace
    have hStore : s.setField h x v = .ok s' := hStore
    unfold State.setField at hStore
    split at hStore <;> cases hStore
    refine ⟨Vars.lookup_bind_self _ _ _, fun q hq => ?_⟩
    cases q with
    | field y => exact Vars.lookup_bind_ne fun hEq => hq (congrArg Place.field hEq)
    | _ => rfl
  | _ => cases hPlace

end Sets

theorem place_of_compile {c : Compiler} {declaring : Bool} {id : IdentifierNode}
    {ins : Instruction R} (hStore : compileIdentStore c declaring id = .ok ins) :
    ∃ p, ins.place = some p := by
  unfold compileIdentStore at hStore
  repeat' split at hStore
  all_goals cases hStore <;> exact ⟨_, rfl⟩

/-- What storing under a name writes. -/
theorem storeName_sets {c : Compiler} {declaring : Bool} {w : IdentifierNode × Value O}
    (hStore : storeName h c declaring w s = .ok s') :
    ∃ p, placeOf R c declaring w.1 = some p ∧ Sets s p w.2 s' := by
  unfold storeName at hStore
  unfold placeOf
  rcases hCompile : (compileIdentStore c declaring w.1 : Except String (Instruction R))
    with msg | ins <;> rw [hCompile] at hStore
  · cases hStore
  · obtain ⟨p, hPlace⟩ := place_of_compile hCompile
    exact ⟨p, hPlace, .storeAt hPlace hStore⟩

/-- A name holds what was written there last. -/
theorem carry_storeName {c : Compiler} {declaring : Bool} {id : IdentifierNode}
    {plan : Plan (IdentifierNode × Value O) (QuoinError E)}
    {pre post : List (IdentifierNode × Value O)}
    (hCarry : plan.carry (storeName h c declaring) s = .ok s')
    (hWrites : plan.writes = pre ++ (id, v) :: post)
    (hLast : ∀ w ∈ post, placeOf R c declaring w.1 ≠ placeOf R c declaring id) :
    ∃ p, placeOf R c declaring id = some p ∧ s'.read p = some v := by
  have hRead := Plan.carry_holds (w := (id, v)) (fun w => placeOf R c declaring w.1)
    (fun p s => p.bind s.read) Prod.snd
    (fun w s s' hStore => by
      obtain ⟨p, hPlace, hSets⟩ := storeName_sets hStore
      show (placeOf R c declaring w.1).bind _ = _
      rw [hPlace]
      exact hSets.self)
    (fun w s s' x hStore hne => by
      obtain ⟨p, hPlace, hSets⟩ := storeName_sets hStore
      cases x with
      | none => rfl
      | some q => exact hSets.others q fun hEq => hne (hEq ▸ hPlace.symm))
    hCarry hWrites hLast
  exact Option.bind_eq_some_iff.mp hRead

/-! ## The theorem -/

/-- States that differ in temporaries hold the same elsewhere. -/
theorem Agree.read {k₀ : Nat} {t : State O} {p : Place} (hAgree : Agree k₀ s t)
    (hPlace : ∀ x, p = .var x → ¬Temp k₀ x) : s.read p = t.read p := by
  cases p with
  | var x =>
    show (s.locals.lookup x).or (s.outer.findSome? _) = (t.locals.lookup x).or (t.outer.findSome? _)
    rw [hAgree.locals x (hPlace x rfl), hAgree.outer]
  | global x => exact congrArg (Vars.lookup x) hAgree.globals
  | field x => exact congrArg (Vars.lookup x) hAgree.fields

/-- What a name of a pattern needs: no namespace, a store, and to be no temporary of the compiler. -/
structure Plain (R : Type) (c : Compiler) (declaring : Bool) (id : IdentifierNode) : Prop where
  path : id.path = none
  type : id.identifierType ≠ .namespaced
  assignable : Assignable R c declaring id

theorem Assignable.place {c : Compiler} {declaring : Bool} {id : IdentifierNode}
    (hId : Assignable R c declaring id) (hPlace : placeOf R c declaring id = some (.var x)) :
    ¬Temp c.tempCounter x := by
  obtain ⟨ins, hStore, -, hAvoids⟩ := hId
  unfold placeOf at hPlace
  rw [hStore] at hPlace
  cases ins <;> cases hPlace <;> exact hAvoids

theorem mem_namesFrom {targets all : List LValue} {w : IdentifierNode × Value O}
    {count : Option (Value O)} {i : Nat} (hw : w ∈ (writesFrom h all v count i targets).writes) :
    w.1 ∈ names targets := by
  induction targets using names.induct generalizing all v count i with
  | case1 =>
    rw [writesFrom] at hw
    cases hw
  | case2 id rest ih | case3 id rest ih =>
    rw [writesFrom] at hw
    obtain ⟨x, -, hw⟩ := Plan.mem_reading hw
    rw [names]
    obtain hw | hw := Plan.mem_andThen hw
    · exact List.mem_singleton.mp hw ▸ List.mem_cons_self
    · exact List.mem_cons_of_mem id (ih hw)
  | case4 rest ih | case5 rest ih =>
    rw [writesFrom] at hw
    rw [names]
    exact ih hw
  | case6 inner rest ihInner ih =>
    rw [writesFrom] at hw
    obtain ⟨x, -, hw⟩ := Plan.mem_reading hw
    obtain ⟨n, -, hw⟩ := Plan.mem_reading hw
    rw [names]
    obtain hw | hw := Plan.mem_andThen hw
    · exact List.mem_append_left _ (ihInner hw)
    · exact List.mem_append_right _ (ih hw)

/-- The names that are written are names of the pattern. -/
theorem mem_names {lvalues : List LValue} {w : IdentifierNode × Value O}
    (hw : w ∈ (writes h lvalues v).writes) : w.1 ∈ names lvalues := by
  obtain ⟨n, -, hw⟩ := Plan.mem_reading hw
  exact mem_namesFrom hw

/-- **What destructuring does.** -/
theorem destructuring {R O E : Type} (c : Compiler) (declaring : Bool) (lvalues : List LValue)
    (rvalue : R) (hOne : OneSplat lvalues) (hNames : ∀ id ∈ names lvalues, Plain R c declaring id) :
    (∃ (code : CodeBlock R) (c' : Compiler),
      compileSeveral declaring lvalues rvalue c = .ok (code, c') ∧
      ∀ (h : Host R O E) (s : State O),
        (∀ e, h.eval rvalue s = .error e → run h code s = .error e) ∧
        ∀ v s₁, h.eval rvalue s = .ok (v, s₁) →
          (∀ e, (writes h lvalues v).carry (storeName h c declaring) (push s₁ v) = .error e →
            run h code s = .error e) ∧
          ∀ t, (writes h lvalues v).carry (storeName h c declaring) (push s₁ v) = .ok t →
            ∃ s', run h code s = .ok s' ∧ Agree c.tempCounter s' t ∧
              ∀ pre id x post, (writes h lvalues v).writes = pre ++ (id, x) :: post →
                (∀ w ∈ post, placeOf R c declaring w.1 ≠ placeOf R c declaring id) →
                ∃ p, placeOf R c declaring id = some p ∧ s'.read p = some x) ∧
    (∀ (level : List LValue) (l : List (Value O)),
      (splatAt level = none → level.length ≤ l.length →
        (List.range level.length).map (part level l) = l.take level.length) ∧
      ∀ k, splatAt level = some k → level.length - 1 ≤ l.length →
        ∃ mid, part level l k = .list mid ∧
          (List.range k).map (part level l) ++ mid ++
            (List.range' (k + 1) (level.length - 1 - k)).map (part level l) = l) ∧
    ∀ (h : Host R O E) (level : List LValue),
      (asks level = true →
        ∃ selector, writes h level .nil = .fail (.messageNotUnderstood selector)) ∧
      (asks level = false → writes h level .nil = .done) := by
  refine ⟨?_, fun level l => ⟨fun hAt hLong => ?_, fun k hAt hLong => parts_cover hAt hLong⟩,
    fun h level => writes_nil⟩
  · obtain ⟨code, c', hCompile, hRun⟩ := compileSeveral_follows (O := O) (E := E) lvalues rvalue
      hOne fun id hid => (hNames id hid).assignable
    -- the right-hand side is evaluated before anything is written
    refine ⟨code, c', hCompile, fun h s => ⟨(hRun h s).1, fun v s₁ hEval => ?_⟩⟩
    have hFollows := (hRun h s).2 v s₁ hEval
    refine ⟨fun e hCarry => ?_, fun t hCarry => ?_⟩ <;> rw [hCarry] at hFollows
    · exact hFollows
    · obtain ⟨s', hOk, hAgree, -⟩ := hFollows
      refine ⟨s', hOk, hAgree, fun pre id x post hWrites hLast => ?_⟩
      obtain ⟨p, hPlace, hRead⟩ := carry_storeName hCarry hWrites hLast
      refine ⟨p, hPlace, ?_⟩
      -- the name is not a temporary, so it is read from where it was written
      have hid : id ∈ names lvalues := mem_names (h := h) (v := v) (w := (id, x))
        (by rw [hWrites]; simp)
      rw [hAgree.read fun y hy => (hNames id hid).assignable.place (hy ▸ hPlace), hRead]
  · exact parts_before (fun k hk => by rw [hAt] at hk; cases hk) hLong

/-- A compiler in a scope that declares some names. -/
def inScope (locals : List String) : Compiler := ⟨0, [⟨locals, [], false, []⟩], [], 0⟩

def named (name : String) : IdentifierNode := ⟨none, name, .loc⟩

/-- The right-hand side is a list. -/
def ofList (l : List (Value Empty)) : Host Unit Empty Empty where
  eval _ s := .ok (.list l, s)
  answer _ selector _ := .error (.messageNotUnderstood selector)
  noField name := .other ("No instance variable '@" ++ name ++ "' declared")

def atStart : State Empty := ⟨[], [], [], false, [], []⟩

/-- `var *init last = #(9)`: the last element is `last`, and nothing is left for the splat. -/
theorem destructuring_short : ∃ (code : CodeBlock Unit) (c' : Compiler) (s' : State Empty),
    compileSeveral true [.splat (named "init"), .ident (named "last")] ()
      (inScope ["init", "last"]) = .ok (code, c') ∧
    run (ofList [.int 9]) code atStart = .ok s' ∧
    s'.read (.var "init") = some (.list []) ∧ s'.read (.var "last") = some (.int 9) := by
  have hPlain (x : String) (hx : x ∈ ["init", "last"]) :
      Plain Unit (inScope ["init", "last"]) true (named x) := by
    have hFirst : x.toList.head? ≠ some '_' := by fin_cases hx <;> decide
    refine ⟨rfl, nofun, .defineLocal x, ?_, not_temp hFirst, not_temp hFirst⟩
    fin_cases hx <;> rfl
  have hOne : OneSplat [.splat (named "init"), .ident (named "last")] :=
    ⟨by decide, by simp [SubsOneSplat]⟩
  obtain ⟨⟨code, c', hCompile, hRun⟩, -⟩ := destructuring (O := Empty) (E := Empty)
    (inScope ["init", "last"]) true [.splat (named "init"), .ident (named "last")] () hOne
    fun id hid => by
      obtain rfl | rfl : id = named "init" ∨ id = named "last" := by simpa [names] using hid
      · exact hPlain "init" (by simp)
      · exact hPlain "last" (by simp)
  have hWrites : writes (ofList [.int 9]) [.splat (named "init"), .ident (named "last")]
      (.list [.int 9]) = ⟨[(named "init", .list []), (named "last", .int 9)], none⟩ := by
    show writesFrom _ _ _ _ _ _ = _
    rw [writesFrom, writesFrom, writesFrom]
    rfl
  have hRan := ((hRun (ofList [.int 9]) atStart).2 _ _ rfl).2
  rw [hWrites] at hRan
  obtain ⟨s', hOk, -, hHolds⟩ := hRan _ rfl
  refine ⟨code, c', s', hCompile, hOk, ?_, ?_⟩
  · obtain ⟨p, hp, hRead⟩ := hHolds [] _ _ _ rfl (by decide)
    cases hp
    exact hRead
  · obtain ⟨p, hp, hRead⟩ := hHolds [_] _ _ [] rfl (by simp)
    cases hp
    exact hRead

/-- `var a (b *c) *d = #()`: the sub-pattern has no element, and raises. -/
theorem destructuring_missing : ∃ (code : CodeBlock Unit) (c' : Compiler),
    compileSeveral true [.ident (named "a"), .sub [.ident (named "b"), .splat (named "c")],
      .splat (named "d")] () (inScope ["a", "b", "c", "d"]) = .ok (code, c') ∧
    run (ofList []) code atStart = .error (.messageNotUnderstood .at) := by
  have hNil (L : Level) (i : Nat) (c : Compiler) :
      compileTargets (R := Unit) true L i [] c = .ok ([], c) := by
    rw [compileTargets]
    rfl
  refine ⟨_, _, compileSeveral_eq rfl (compileTargets_ident rfl (compileTargets_sub rfl
    (compileTargets_ident rfl (compileTargets_splat rfl (hNil ..)))
    (compileTargets_splat rfl (hNil ..)))), ?_⟩
  rfl

end Quoin.Destructure
