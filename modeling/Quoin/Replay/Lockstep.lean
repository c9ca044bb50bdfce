import Mathlib
import Quoin.Replay.Driver

/-!
# Quoin — a replay makes the recorded run

A replay and the run that it replays go in step (`InStep`): the loop's variables and
what has been decided are the same, and the operations in flight are those in flight
there, some of which the replay already holds. Each step of the recorded run is one or
more of the replay (`step`): where an operation is delivered, the replay first awaits
operations until it holds one with the event that the log has.

That this is the right one rests on the scheduler (`Tidy`): a task waits for one I/O
operation at a time, so no two that are in flight have the same event and different
results; and it is ready once at most, so that the log's name for it is enough.

## Results

* `step` — a step of the recorded run is one or more of the replay;
* `wake_log_replays` — for every deterministic VM and every recorded run, a replay decides the same,
  in any order of arrival.
-/

namespace Quoin.Replay

variable {σ ρ ε : Type} {vm : Vm σ ρ ε}

/-! ## What a step of the loop can be -/

inductive Turn (vm : Vm σ ρ ε) (completions : Nat → Option ρ) (d : Driver σ ρ ε) :
    Driver σ ρ ε → Prop
  | drain {i cur : Nat} {op : Op ρ} : d.atBoundary = true → d.current = some cur →
      d.futures[i]? = some op → Turn vm completions d (d.deliver vm i op)
  | rotate {cur : Nat} {preempt : Bool} : d.atBoundary = true → d.current = some cur →
      Turn vm completions d { d with
        toLoop := d.toLoop.rotate vm cur preempt
        made := d.made ++ [.rotate preempt] }
  | exit {code : Int} : d.atBoundary = false → vm.requestedExit d.vm = some code →
      Turn vm completions d { d with toLoop := d.toLoop.exit code }
  | resume {cur : Nat} : d.atBoundary = false → vm.requestedExit d.vm = none →
      d.current = some cur → Turn vm completions d { d with
        toLoop := (d.toLoop.resume vm completions cur).1
        futures := d.futures ++ (d.toLoop.resume vm completions cur).2 }
  | pick {i tid : Nat} : d.atBoundary = false → vm.requestedExit d.vm = none → d.current = none →
      d.ready[i]? = some tid → Turn vm completions d { d with
        toLoop := d.toLoop.pick i tid
        made := d.made ++ [.pick tid] }
  | arrive {i : Nat} {op : Op ρ} : d.atBoundary = false → vm.requestedExit d.vm = none →
      d.current = none → d.ready = [] → d.futures[i]? = some op →
      Turn vm completions d (d.deliver vm i op)
  | conclude : d.atBoundary = false → vm.requestedExit d.vm = none → d.current = none →
      d.ready = [] → d.futures = [] →
      Turn vm completions d { d with toLoop := d.toLoop.conclude vm }

theorem turn_of_recordStep {d d' : Driver σ ρ ε} {stress : Bool} {completions : Nat → Option ρ}
    {c : Chance} (hStep : d.recordStep vm stress completions c = some d') :
    d.outcome = none ∧ Turn vm completions d d' := by
  unfold Driver.recordStep at hStep
  by_cases hOver : d.outcome.isSome
  · rw [if_pos hOver] at hStep
    contradiction
  rw [if_neg hOver] at hStep
  refine ⟨by simpa using hOver, ?_⟩
  -- at the boundary a turn is chosen; between two of them the current task goes on
  by_cases hBoundary : d.atBoundary
  · rw [if_pos hBoundary] at hStep
    split at hStep
    · next hCur =>
      obtain ⟨op, hop, rfl⟩ := Option.map_eq_some_iff.mp hStep
      exact .drain hBoundary hCur hop
    · next hCur =>
      obtain rfl := Option.some.inj hStep
      exact .rotate hBoundary hCur
    · contradiction
  · have hTop : d.atBoundary = false := by simpa using hBoundary
    rw [if_neg hBoundary] at hStep
    split at hStep
    · next hExit =>
      obtain rfl := Option.some.inj hStep
      exact .exit hTop hExit
    · next hExit hCur =>
      obtain rfl := Option.some.inj hStep
      exact .resume hTop hExit hCur
    · next hExit hCur =>
      split at hStep
      · obtain ⟨tid, hTid, rfl⟩ := Option.map_eq_some_iff.mp hStep
        exact .pick hTop hExit hCur hTid
      · contradiction
    · next hExit hCur =>
      split at hStep
      · next hReady =>
        obtain ⟨op, hop, rfl⟩ := Option.map_eq_some_iff.mp hStep
        exact .arrive hTop hExit hCur (List.isEmpty_iff.mp hReady) hop
      · contradiction
    · next hExit hCur =>
      split at hStep
      · next hNothing =>
        obtain ⟨hReady, hFutures⟩ := Bool.and_eq_true_iff.mp hNothing
        obtain rfl := Option.some.inj hStep
        exact .conclude hTop hExit hCur (List.isEmpty_iff.mp hReady) (List.isEmpty_iff.mp hFutures)
      · contradiction
    · contradiction

/-! ## The scheduler -/

def TaskWakeup.isIo : TaskWakeup ρ → Bool
  | .io _ => true
  | .deadline _ _ => false

/-- Tasks that are ready are ready once, and a task with an I/O operation in flight has one, and
waits for it. -/
structure Tidy (vm : Vm σ ρ ε) (d : Driver σ ρ ε) : Prop where
  nodup : d.ready.Nodup
  ready : ∀ t ∈ d.ready, vm.place d.vm t = .runnable
  current : d.outcome = none → ∀ t, d.current = some t → vm.place d.vm t = .runnable ∧ t ∉ d.ready
  waits : ∀ op ∈ d.futures, op.wakeup.isIo → vm.place d.vm op.tid = .io
  single : d.futures.Pairwise fun a b => a.wakeup.isIo → b.wakeup.isIo → a.tid ≠ b.tid

namespace Tidy

variable {d d' : Driver σ ρ ε} {stress : Bool} {completions : Nat → Option ρ} {c : Chance}

theorem start : Tidy vm (Driver.start vm) where
  nodup := List.nodup_nil
  ready := fun _ ht => absurd ht List.not_mem_nil
  current := by
    rintro - t ⟨⟩
    exact ⟨vm.init_place, List.not_mem_nil⟩
  waits := fun _ hop => absurd hop List.not_mem_nil
  single := List.Pairwise.nil

theorem drop (h : Tidy vm d) (i : Nat) {made : List (Decision ρ)} :
    Tidy vm { d with futures := d.futures.eraseIdx i, made } where
  nodup := h.nodup
  ready := h.ready
  current := h.current
  waits op hop := h.waits op (List.mem_of_mem_eraseIdx hop)
  single := h.single.sublist (List.eraseIdx_sublist _ _)

/-- One more task is ready, which was neither ready nor current, and waits for nothing in flight. -/
theorem wake (h : Tidy vm d) (hLive : d.outcome = none) {i tid : Nat} {s : σ}
    {made : List (Decision ρ)} (hAway : vm.place d.vm tid ≠ .runnable)
    (hOther : ∀ op ∈ d.futures.eraseIdx i, op.wakeup.isIo → op.tid ≠ tid)
    (hPlace : ∀ u, vm.place s u = if u = tid then .runnable else vm.place d.vm u) :
    Tidy vm { d with vm := s, ready := d.ready ++ [tid], futures := d.futures.eraseIdx i, made } where
  nodup := by
    refine List.nodup_append.mpr ⟨h.nodup, List.nodup_singleton _, ?_⟩
    rintro t ht u hu rfl
    obtain rfl := List.mem_singleton.mp hu
    exact hAway (h.ready t ht)
  ready := by
    intro t ht
    show vm.place s t = .runnable
    rw [hPlace]
    split_ifs with hEq
    · rfl
    · rcases List.mem_append.mp ht with ht | ht
      · exact h.ready t ht
      · exact absurd (List.mem_singleton.mp ht) hEq
  current := by
    intro _ t ht
    obtain ⟨hRunnable, hNotReady⟩ := h.current hLive t ht
    have hNe : t ≠ tid := fun hEq => hAway (hEq ▸ hRunnable)
    refine ⟨?_, ?_⟩
    · show vm.place s t = .runnable
      rw [hPlace, if_neg hNe, hRunnable]
    · show t ∉ d.ready ++ [tid]
      rw [List.mem_append, List.mem_singleton]
      exact fun hIn => hIn.elim hNotReady hNe
  waits := by
    intro op hop hIo
    show vm.place s op.tid = .io
    rw [hPlace, if_neg (hOther op hop hIo)]
    exact h.waits op (List.mem_of_mem_eraseIdx hop) hIo
  single := h.single.sublist (List.eraseIdx_sublist _ _)

/-- The other operations in flight are not I/O of the same task. -/
theorem other (h : Tidy vm d) {i : Nat} {op : Op ρ} (hop : d.futures[i]? = some op)
    (hIo : op.wakeup.isIo) : ∀ op' ∈ d.futures.eraseIdx i, op'.wakeup.isIo → op'.tid ≠ op.tid := by
  intro op' hop' hIo'
  obtain ⟨j, hji, hGet⟩ := List.mem_eraseIdx_iff_getElem?.mp hop'
  obtain ⟨hi, rfl⟩ := List.getElem?_eq_some_iff.mp hop
  obtain ⟨hj, rfl⟩ := List.getElem?_eq_some_iff.mp hGet
  rcases Nat.lt_or_gt_of_ne hji with hLt | hGt
  · exact List.pairwise_iff_getElem.mp h.single j i hj hi hLt hIo' hIo
  · exact (List.pairwise_iff_getElem.mp h.single i j hi hj hGt hIo hIo').symm

theorem deliver (h : Tidy vm d) (hLive : d.outcome = none) {i : Nat} {op : Op ρ}
    (hop : d.futures[i]? = some op) : Tidy vm (d.deliver vm i op) := by
  obtain ⟨id, tid, wakeup⟩ := op
  cases wakeup with
  | io result =>
    have hWaits : vm.place d.vm tid = .io := h.waits _ (List.mem_of_getElem? hop) rfl
    have hAway : vm.place d.vm tid ≠ .runnable := by
      rw [hWaits]
      decide
    exact h.wake hLive hAway (h.other hop rfl) (vm.setWake_place _ _ _ hWaits)
  | deadline target epoch =>
    unfold Driver.deliver Loop.deliver
    dsimp only
    cases hLate : vm.deliverDeadline d.vm tid target epoch with
    | none => exact h.drop i
    | some s =>
      obtain ⟨hJoins, hPlace⟩ := vm.deliverDeadline_place _ _ _ _ _ hLate
      have hAway : vm.place d.vm tid ≠ .runnable := by
        rw [hJoins]
        decide
      have hOther : ∀ op ∈ d.futures.eraseIdx i, op.wakeup.isIo → op.tid ≠ tid := by
        rintro op hIn hIo rfl
        have hWaits := h.waits op (List.mem_of_mem_eraseIdx hIn) hIo
        rw [hJoins] at hWaits
        contradiction
      exact h.wake hLive hAway hOther hPlace

/-- What a resumed task does to the others. -/
theorem resumed (h : Tidy vm d) (hLive : d.outcome = none) {cur : Nat} (hCur : d.current = some cur)
    {s : σ} (hLoaded : vm.place s = vm.place d.vm) :
    (d.ready ++ (vm.resume s cur).woken).Nodup ∧
      (∀ t ∈ d.ready ++ (vm.resume s cur).woken, vm.place (vm.resume s cur).vm t = .runnable) ∧
      ((vm.resume s cur).step.place ≠ .elsewhere →
        vm.place (vm.resume s cur).vm cur = (vm.resume s cur).step.place ∧
          cur ∉ d.ready ++ (vm.resume s cur).woken) ∧
      ∀ op ∈ d.futures, op.wakeup.isIo →
        op.tid ≠ cur ∧ vm.place (vm.resume s cur).vm op.tid = .io := by
  obtain ⟨hRunnable, hNotReady⟩ := h.current hLive cur hCur
  have hHere : vm.place s cur = .runnable := by rw [hLoaded, hRunnable]
  have hAfter := vm.resume_place s cur hHere
  have hWoken := vm.woken_place s cur hHere
  -- a task in a place of its own is not woken
  have hStays (t : Nat) (hNe : t ≠ cur) (hPlace : vm.place d.vm t ≠ .elsewhere) :
      t ∉ (vm.resume s cur).woken ∧ vm.place (vm.resume s cur).vm t = vm.place d.vm t := by
    have hNot : t ∉ (vm.resume s cur).woken := by
      intro hIn
      have hElse := hWoken t hIn
      rw [if_neg hNe, hLoaded] at hElse
      exact hPlace hElse
    refine ⟨hNot, ?_⟩
    rw [hAfter, if_neg hNot, if_neg hNe, hLoaded]
  have hReady (t : Nat) (ht : t ∈ d.ready) :
      t ∉ (vm.resume s cur).woken ∧ vm.place (vm.resume s cur).vm t = vm.place d.vm t := by
    have hNe : t ≠ cur := fun hEq => hNotReady (hEq ▸ ht)
    refine hStays t hNe ?_
    rw [h.ready t ht]
    decide
  refine ⟨?_, ?_, ?_, ?_⟩
  · refine List.nodup_append.mpr ⟨h.nodup, vm.woken_nodup s cur hHere, ?_⟩
    rintro t ht u hu rfl
    exact (hReady t ht).1 hu
  · intro t ht
    rcases List.mem_append.mp ht with ht | ht
    · rw [(hReady t ht).2, h.ready t ht]
    · rw [hAfter, if_pos ht]
  · intro hStep
    have hNot : cur ∉ (vm.resume s cur).woken := by
      intro hIn
      have hElse := hWoken cur hIn
      rw [if_pos rfl] at hElse
      exact hStep hElse
    refine ⟨?_, ?_⟩
    · rw [hAfter, if_neg hNot, if_pos rfl]
    · rw [List.mem_append]
      exact fun hIn => hIn.elim hNotReady hNot
  · intro op hop hIo
    have hWaits := h.waits op hop hIo
    have hNe : op.tid ≠ cur := by
      intro hEq
      rw [hEq, hRunnable] at hWaits
      contradiction
    refine ⟨hNe, ?_⟩
    rw [(hStays op.tid hNe (by rw [hWaits]; decide)).2, hWaits]

theorem resume (h : Tidy vm d) (hLive : d.outcome = none) {cur : Nat}
    (hCur : d.current = some cur) :
    Tidy vm { d with
      toLoop := (d.toLoop.resume vm completions cur).1
      futures := d.futures ++ (d.toLoop.resume vm completions cur).2 } := by
  have hLoaded : vm.place (if d.needsLoad then vm.load d.vm cur else d.vm) = vm.place d.vm := by
    split_ifs
    · exact vm.load_place _ _
    · rfl
  obtain ⟨hNodup, hReady, hCurrent, hWaits⟩ := h.resumed hLive hCur hLoaded
  unfold Loop.resume
  dsimp only
  generalize vm.resume (if d.needsLoad then vm.load d.vm cur else d.vm) cur = r at *
  obtain ⟨step, s, woken⟩ := r
  have hSame : ∀ op ∈ d.futures, op.wakeup.isIo → vm.place s op.tid = .io :=
    fun op hop hIo => (hWaits op hop hIo).2
  -- the task that goes on is where it was
  have hGoesOn (hStep : step.place = .runnable) (t : Nat) (ht : d.current = some t) :
      vm.place s t = .runnable ∧ t ∉ d.ready ++ woken := by
    obtain rfl : cur = t := Option.some.inj (hCur.symm.trans ht)
    have hPlace := hCurrent (by rw [hStep]; decide)
    exact ⟨hPlace.1.trans hStep, hPlace.2⟩
  cases step with
  | yielded | running =>
    exact ⟨hNodup, hReady, fun _ => hGoesOn rfl, by simpa using hSame, by simpa using h.single⟩
  | parkedIo =>
    have hParked : vm.place s cur = .io := (hCurrent (by show Place.io ≠ .elsewhere; decide)).1
    refine ⟨hNodup, ?_, fun _ t ht => by contradiction, ?_, ?_⟩
    · intro t ht
      show vm.place (vm.setAbortHandle s cur) t = .runnable
      rw [vm.setAbortHandle_place]
      exact hReady t ht
    · intro op hop hIo
      show vm.place (vm.setAbortHandle s cur) op.tid = .io
      rw [vm.setAbortHandle_place]
      rcases List.mem_append.mp hop with hop | hop
      · exact hSame op hop hIo
      · obtain rfl := List.mem_singleton.mp hop
        exact hParked
    · refine List.pairwise_append.mpr ⟨h.single, List.pairwise_singleton _ _, ?_⟩
      intro op hop op' hop' hIo _
      obtain rfl := List.mem_singleton.mp hop'
      exact (hWaits op hop hIo).1
  | parkedJoinTimed target =>
    refine ⟨hNodup, ?_, fun _ t ht => by contradiction, ?_, ?_⟩
    · intro t ht
      show vm.place (vm.setDeadlineAbort s cur) t = .runnable
      rw [vm.setDeadlineAbort_place]
      exact hReady t ht
    · intro op hop hIo
      show vm.place (vm.setDeadlineAbort s cur) op.tid = .io
      rw [vm.setDeadlineAbort_place]
      rcases List.mem_append.mp hop with hop | hop
      · exact hSame op hop hIo
      · obtain rfl := List.mem_singleton.mp hop
        contradiction
    · refine List.pairwise_append.mpr ⟨h.single, List.pairwise_singleton _ _, ?_⟩
      intro op _ op' hop' _ hIo'
      obtain rfl := List.mem_singleton.mp hop'
      contradiction
  | parked | done =>
    exact ⟨hNodup, hReady, fun _ t ht => by contradiction, by simpa using hSame,
      by simpa using h.single⟩
  | finished | failed =>
    exact ⟨hNodup, hReady, fun hOn => by contradiction, by simpa using hSame,
      by simpa using h.single⟩

theorem rotate (h : Tidy vm d) (hLive : d.outcome = none) {cur : Nat} (hCur : d.current = some cur)
    (preempt : Bool) {made : List (Decision ρ)} :
    Tidy vm { d with toLoop := d.toLoop.rotate vm cur preempt, made } := by
  obtain ⟨hRunnable, hNotReady⟩ := h.current hLive cur hCur
  have hWaits : ∀ op ∈ d.futures, op.wakeup.isIo → vm.place (vm.save d.vm cur) op.tid = .io := by
    rw [vm.save_place]
    exact h.waits
  unfold Loop.rotate
  cases preempt with
  | false => exact ⟨h.nodup, h.ready, h.current, h.waits, h.single⟩
  | true =>
    refine ⟨?_, ?_, fun _ t ht => by contradiction, hWaits, h.single⟩
    · refine List.nodup_append.mpr ⟨h.nodup, List.nodup_singleton _, ?_⟩
      rintro t ht u hu rfl
      obtain rfl := List.mem_singleton.mp hu
      exact hNotReady ht
    · intro t ht
      show vm.place (vm.save d.vm cur) t = .runnable
      rw [vm.save_place]
      rcases List.mem_append.mp ht with ht | ht
      · exact h.ready t ht
      · obtain rfl := List.mem_singleton.mp ht
        exact hRunnable

theorem pick (h : Tidy vm d) {i tid : Nat} (hTid : d.ready[i]? = some tid)
    {made : List (Decision ρ)} : Tidy vm { d with toLoop := d.toLoop.pick i tid, made } := by
  refine ⟨h.nodup.sublist (List.eraseIdx_sublist _ _), ?_, ?_, h.waits, h.single⟩
  · exact fun t ht => h.ready t (List.mem_of_mem_eraseIdx ht)
  · rintro - t ⟨⟩
    refine ⟨h.ready tid (List.mem_of_getElem? hTid), fun hIn => ?_⟩
    -- the queue has it once
    obtain ⟨j, hj, hGet⟩ := List.mem_eraseIdx_iff_getElem?.mp hIn
    have hLt : j < d.ready.length := (List.getElem?_eq_some_iff.mp hGet).1
    exact hj ((List.getElem?_inj hLt h.nodup).mp (hGet.trans hTid.symm))

theorem turn (h : Tidy vm d) (hLive : d.outcome = none) (hTurn : Turn vm completions d d') :
    Tidy vm d' := by
  cases hTurn with
  | drain _ _ hop => exact h.deliver hLive hop
  | arrive _ _ _ _ hop => exact h.deliver hLive hop
  | rotate _ hCur => exact h.rotate hLive hCur _
  | exit => exact ⟨h.nodup, h.ready, fun hOn => by contradiction, h.waits, h.single⟩
  | resume _ _ hCur => exact h.resume hLive hCur
  | pick _ _ _ hTid => exact h.pick hTid
  | conclude => exact ⟨h.nodup, h.ready, fun hOn => by contradiction, h.waits, h.single⟩

end Tidy

/-! ## In step -/

def Op.content (op : Op ρ) : Nat × TaskWakeup ρ := (op.tid, op.wakeup)

/-- A replay that has made the decisions of a run so far; `rest` is what is left of the log. -/
structure InStep (d : Driver σ ρ ε) (r : Replayer σ ρ ε) (rest : List WakeEvent) : Prop where
  loop : r.toLoop = d.toLoop
  made : r.made = d.made
  pending : ((r.futures ++ r.held).map Op.content).Perm (d.futures.map Op.content)
  log : r.events.drop r.pos = rest
  diverged : r.diverged = none
  idle : r.idle = none ∨ (r.idle = some true ∧ d.atBoundary = false ∧ d.current = none)

section Steps

variable {hash : ρ → UInt64} {completions : Nat → Option ρ} {order : Nat → Nat}
  {d d' : Driver σ ρ ε} {r : Replayer σ ρ ε} {rest : List WakeEvent} {op : Op ρ} {i : Nat}

theorem peek_eq (hLog : r.events.drop r.pos = rest) : r.peek = rest.head? := by
  rw [Replayer.peek, ← hLog, List.head?_drop]

theorem drop_consumed {ev : WakeEvent} (hLog : r.events.drop r.pos = ev :: rest) :
    r.events.drop (r.pos + 1) = rest := by
  rw [← List.drop_drop, hLog]
  rfl

theorem isDelivery_wakeEventFor {tid : Nat} {wakeup : TaskWakeup ρ} :
    (wakeEventFor hash tid wakeup).isDelivery = true := by
  rcases wakeup with (_ | _) | _ <;> rfl

/-- Of the operations in flight, those with the same event are the same. -/
theorem Tidy.content_eq (h : Tidy vm d) {op' : Op ρ} (hop : op ∈ d.futures) (hop' : op' ∈ d.futures)
    (hEvent : wakeEventFor hash op'.tid op'.wakeup = wakeEventFor hash op.tid op.wakeup) :
    op'.content = op.content := by
  obtain ⟨id, tid, wakeup⟩ := op
  obtain ⟨id', tid', wakeup'⟩ := op'
  have hTid : tid' = tid := by
    rcases wakeup with (_ | _) | _ <;> rcases wakeup' with (_ | _) | _ <;>
      simp_all [wakeEventFor]
  subst hTid
  cases wakeup with
  | io result =>
    cases wakeup' with
    | io result' =>
      obtain ⟨i, hGet⟩ := List.mem_iff_getElem?.mp hop
      obtain ⟨j, hGet'⟩ := List.mem_iff_getElem?.mp hop'
      by_cases hji : j = i
      · subst hji
        obtain ⟨-, -, rfl⟩ : id = id' ∧ tid' = tid' ∧ result = result' := by
          simpa using hGet.symm.trans hGet'
        rfl
      · have hRest := List.mem_eraseIdx_iff_getElem?.mpr ⟨j, hji, hGet'⟩
        have hNe : tid' ≠ tid' := h.other hGet rfl _ hRest rfl
        exact absurd rfl hNe
    | deadline target epoch => rcases result with _ | _ <;> simp [wakeEventFor] at hEvent
  | deadline target epoch =>
    cases wakeup' with
    | io result' => rcases result' with _ | _ <;> simp [wakeEventFor] at hEvent
    | deadline target' epoch' =>
      obtain ⟨-, rfl, rfl⟩ : tid' = tid' ∧ target' = target ∧ epoch' = epoch := by
        simpa [wakeEventFor] using hEvent
      rfl

/-- The operation that the log wants is delivered; till then, others may arrive. -/
theorem replayStep_land (hLoop : r.toLoop = d.toLoop) (hLive : d.outcome = none)
    (hDiverged : r.diverged = none) {want : WakeEvent}
    (hWant : r.peek.filter WakeEvent.isDelivery = some want)
    (hWhere : (d.atBoundary = true ∧ d.current.isSome) ∨ (d.atBoundary = false ∧ r.idle.isSome)) :
    r.replayStep vm hash completions order = r.land vm hash order want := by
  unfold Replayer.replayStep
  have hOn : (r.outcome.isSome || r.diverged.isSome) = false := by
    rw [hLoop, hLive, hDiverged]
    rfl
  rw [hOn, hWant, hLoop]
  rcases hWhere with ⟨hBoundary, hCur⟩ | ⟨hTop, hIdle⟩
  · obtain ⟨cur, hCur⟩ := Option.isSome_iff_exists.mp hCur
    rw [hBoundary, hCur]
    rfl
  · obtain ⟨b, hIdle⟩ := Option.isSome_iff_exists.mp hIdle
    rw [hTop, hIdle]
    cases b <;> rfl

theorem perm_eraseIdx {α : Type} {l : List α} {x : α} (hGet : l[i]? = some x) :
    (x :: l.eraseIdx i).Perm l := by
  obtain ⟨hLt, rfl⟩ := List.getElem?_eq_some_iff.mp hGet
  exact List.getElem_cons_eraseIdx_perm hLt

theorem deliver_same (vm : Vm σ ρ ε) (l : Loop σ ε) (tid : Nat) (wakeup : TaskWakeup ρ) :
    (l.deliver vm tid wakeup).current = l.current ∧
      (l.deliver vm tid wakeup).atBoundary = l.atBoundary ∧
      (l.deliver vm tid wakeup).started = l.started := by
  cases wakeup with
  | io result => exact ⟨rfl, rfl, rfl⟩
  | deadline target epoch =>
    unfold Loop.deliver
    dsimp only
    split <;> exact ⟨rfl, rfl, rfl⟩

/-- A replay that is to deliver what the run delivers next. -/
structure Landing (hash : ρ → UInt64) (d : Driver σ ρ ε) (op : Op ρ) (rest : List WakeEvent)
    (r : Replayer σ ρ ε) : Prop where
  loop : r.toLoop = d.toLoop
  made : r.made = d.made
  pending : ((r.futures ++ r.held).map Op.content).Perm (d.futures.map Op.content)
  log : r.events.drop r.pos = wakeEventFor hash op.tid op.wakeup :: rest
  diverged : r.diverged = none
  idle : (d.atBoundary = true ∧ d.current.isSome ∧ r.idle = none) ∨
    (d.atBoundary = false ∧ d.current = none ∧ r.idle.isSome)

theorem Landing.step (h : Landing hash d op rest r) (hLive : d.outcome = none) :
    r.replayStep vm hash completions order =
      r.land vm hash order (wakeEventFor hash op.tid op.wakeup) := by
  refine replayStep_land h.loop hLive h.diverged ?_ ?_
  · rw [peek_eq h.log, List.head?_cons, Option.filter_some, if_pos isDelivery_wakeEventFor]
  · rcases h.idle with ⟨hBoundary, hCur, -⟩ | ⟨hTop, -, hIdle⟩
    · exact .inl ⟨hBoundary, hCur⟩
    · exact .inr ⟨hTop, hIdle⟩

/-- An operation with the event has arrived. -/
theorem Landing.found (h : Landing hash d op rest r) (hTidy : Tidy vm d)
    (hop : d.futures[i]? = some op) {j : Nat}
    (hFound : (r.held.findIdx? fun x =>
      wakeEventFor hash x.tid x.wakeup = wakeEventFor hash op.tid op.wakeup) = some j) :
    InStep (d.deliver vm i op) (r.land vm hash order (wakeEventFor hash op.tid op.wakeup)) rest := by
  obtain ⟨hLt, hEvent, -⟩ := List.findIdx?_eq_some_iff_getElem.mp hFound
  have hHeld : r.held[j]? = some r.held[j] := List.getElem?_eq_getElem hLt
  generalize r.held[j] = x at hHeld hEvent
  have hEvent : wakeEventFor hash x.tid x.wakeup = wakeEventFor hash op.tid op.wakeup := by
    simpa using hEvent
  -- it is one of those in flight in the run, and so the one delivered there
  have hSame : x.content = op.content := by
    have hAny : x.content ∈ (r.futures ++ r.held).map Op.content :=
      List.mem_map_of_mem (List.mem_append_right _ (List.mem_of_getElem? hHeld))
    obtain ⟨y, hy, hContent⟩ := List.mem_map.mp (h.pending.mem_iff.mp hAny)
    have hSameEvent : wakeEventFor hash y.tid y.wakeup = wakeEventFor hash op.tid op.wakeup := by
      rw [← hEvent, (Prod.mk.inj hContent).1, (Prod.mk.inj hContent).2]
    rw [← hContent]
    exact hTidy.content_eq (List.mem_of_getElem? hop) hy hSameEvent
  obtain ⟨hTid, hWakeup⟩ := Prod.mk.inj hSame
  unfold Replayer.land
  rw [hFound]
  dsimp only
  rw [hHeld]
  refine ⟨?_, ?_, ?_, drop_consumed h.log, h.diverged, ?_⟩
  · show r.toLoop.deliver vm x.tid x.wakeup = d.toLoop.deliver vm op.tid op.wakeup
    rw [h.loop, hTid, hWakeup]
  · show r.made ++ [.deliver x.tid x.wakeup] = d.made ++ [.deliver op.tid op.wakeup]
    rw [h.made, hTid, hWakeup]
  · show ((r.futures ++ r.held.eraseIdx j).map Op.content).Perm
      ((d.futures.eraseIdx i).map Op.content)
    have hLeft : (op.content :: (r.futures ++ r.held.eraseIdx j).map Op.content).Perm
        ((r.futures ++ r.held).map Op.content) := by
      rw [← hSame, ← List.map_cons]
      exact (List.perm_middle.symm.trans ((perm_eraseIdx hHeld).append_left _)).map _
    have hRight := (perm_eraseIdx hop).map Op.content
    exact (hLeft.trans (h.pending.trans hRight.symm)).cons_inv
  · rcases h.idle with ⟨hBoundary, hCur, hIdle⟩ | ⟨hTop, hCur, hIdle⟩
    · left
      show r.idle.map _ = none
      rw [hIdle]
      rfl
    · right
      obtain ⟨b, hIdle⟩ := Option.isSome_iff_exists.mp hIdle
      obtain ⟨hSameCur, hSameTop, -⟩ := deliver_same vm d.toLoop op.tid op.wakeup
      refine ⟨?_, hSameTop.trans hTop, hSameCur.trans hCur⟩
      show r.idle.map _ = some true
      rw [hIdle]
      rfl

/-- None has yet, and the next one is held. -/
theorem Landing.missing (vm : Vm σ ρ ε) (order : Nat → Nat) (h : Landing hash d op rest r)
    (hop : d.futures[i]? = some op)
    (hMissing : (r.held.findIdx? fun x =>
      wakeEventFor hash x.tid x.wakeup = wakeEventFor hash op.tid op.wakeup) = none) :
    ∃ r', r.land vm hash order (wakeEventFor hash op.tid op.wakeup) = r' ∧
      Landing hash d op rest r' ∧ r'.futures.length < r.futures.length := by
  -- what is in flight in the run and not held is still to arrive
  have hSome : r.futures ≠ [] := by
    intro hNil
    have hIn : op.content ∈ (r.futures ++ r.held).map Op.content :=
      h.pending.mem_iff.mpr (List.mem_map_of_mem (List.mem_of_getElem? hop))
    rw [hNil, List.nil_append] at hIn
    obtain ⟨x, hx, hContent⟩ := List.mem_map.mp hIn
    have hNot := List.findIdx?_eq_none_iff.mp hMissing x hx
    rw [(Prod.mk.inj hContent).1, (Prod.mk.inj hContent).2] at hNot
    simp at hNot
  have hLt : order r.awaited % r.futures.length < r.futures.length :=
    Nat.mod_lt _ (List.length_pos_iff.mpr hSome)
  generalize hj : order r.awaited % r.futures.length = j at hLt
  have hGet : r.futures[j]? = some r.futures[j] := List.getElem?_eq_getElem hLt
  generalize r.futures[j] = x at hGet
  have hNext : r.next order =
      some (x, { r with futures := r.futures.eraseIdx j, awaited := r.awaited + 1 }) := by
    unfold Replayer.next
    dsimp only
    rw [hj, hGet]
    rfl
  refine ⟨_, rfl, ?_⟩
  unfold Replayer.land
  rw [hMissing]
  dsimp only
  rw [hNext]
  refine ⟨⟨h.loop, h.made, ?_, h.log, h.diverged, h.idle⟩, ?_⟩
  · show ((r.futures.eraseIdx j ++ (r.held ++ [x])).map Op.content).Perm _
    refine List.Perm.trans (List.Perm.map _ ?_) h.pending
    rw [← List.append_assoc]
    refine (List.perm_append_singleton _ _).trans ?_
    exact (perm_eraseIdx hGet).append_right _
  · show (r.futures.eraseIdx j).length < r.futures.length
    rw [List.length_eraseIdx_of_lt hLt]
    omega

theorem Landing.lands (h : Landing hash d op rest r) (hTidy : Tidy vm d) (hLive : d.outcome = none)
    (hop : d.futures[i]? = some op) :
    ∃ k, InStep (d.deliver vm i op) ((Replayer.replayStep vm hash completions order)^[k] r)
      rest := by
  induction hn : r.futures.length using Nat.strong_induction_on generalizing r with
  | _ n ih =>
    cases hFound : r.held.findIdx? fun x =>
        wakeEventFor hash x.tid x.wakeup = wakeEventFor hash op.tid op.wakeup with
    | some j =>
      refine ⟨1, ?_⟩
      rw [Function.iterate_one, h.step hLive]
      exact h.found hTidy hop hFound
    | none =>
      obtain ⟨r', hLand, hNext, hLess⟩ := h.missing vm order hop hFound
      obtain ⟨k, hk⟩ := ih _ (hn ▸ hLess) hNext rfl
      refine ⟨k + 1, ?_⟩
      rw [Function.iterate_succ_apply, h.step hLive, hLand]
      exact hk

/-- A replay at the top of the loop. -/
structure AtTop (d : Driver σ ρ ε) (r : Replayer σ ρ ε) : Prop where
  loop : r.toLoop = d.toLoop
  live : d.outcome = none
  diverged : r.diverged = none
  top : d.atBoundary = false
  idle : r.idle = none

namespace AtTop

theorem exits (h : AtTop d r) {code : Int} (hExit : vm.requestedExit d.vm = some code) :
    r.replayStep vm hash completions order = { r with toLoop := r.toLoop.exit code } := by
  unfold Replayer.replayStep
  rw [h.loop, h.live, h.diverged, h.top, h.idle, hExit]
  rfl

theorem resumes (h : AtTop d r) {cur : Nat} (hExit : vm.requestedExit d.vm = none)
    (hCur : d.current = some cur) :
    r.replayStep vm hash completions order = { r with
      toLoop := (r.toLoop.resume vm completions cur).1
      futures := r.futures ++ (r.toLoop.resume vm completions cur).2 } := by
  unfold Replayer.replayStep
  rw [h.loop, h.live, h.diverged, h.top, h.idle, hExit, hCur]
  rfl

variable (hExit : vm.requestedExit d.vm = none) (hCur : d.current = none)
include hExit hCur

theorem picks (h : AtTop d r) (hReady : d.ready ≠ []) :
    r.replayStep vm hash completions order = r.atPick := by
  have hSome : (!d.ready.isEmpty) = true := by simpa using hReady
  unfold Replayer.replayStep
  rw [h.loop, h.live, h.diverged, h.top, h.idle, hExit, hCur, hSome]
  rfl

theorem concludes (h : AtTop d r) (hReady : d.ready = []) (hFutures : r.futures = [])
    (hHeld : r.held = []) :
    r.replayStep vm hash completions order = { r with toLoop := r.toLoop.conclude vm } := by
  unfold Replayer.replayStep
  rw [h.loop, h.live, h.diverged, h.top, h.idle, hExit, hCur, hReady, hFutures, hHeld]
  rfl

theorem idles (h : AtTop d r) (hReady : d.ready = []) (hPending : r.futures ++ r.held ≠ []) :
    r.replayStep vm hash completions order = { r with idle := some false } := by
  have hSome : (r.futures.isEmpty && r.held.isEmpty) = false := by
    rw [Bool.eq_false_iff]
    intro hNone
    obtain ⟨hFutures, hHeld⟩ := Bool.and_eq_true_iff.mp hNone
    rw [List.isEmpty_iff.mp hFutures, List.isEmpty_iff.mp hHeld] at hPending
    exact hPending rfl
  unfold Replayer.replayStep
  rw [h.loop, h.live, h.diverged, h.top, h.idle, hExit, hCur, hReady, hSome]
  rfl

end AtTop

/-- Where nothing is to be delivered, a replay gets to the top of the loop. -/
theorem InStep.toTop (vm : Vm σ ρ ε) (hash : ρ → UInt64) (completions : Nat → Option ρ)
    (order : Nat → Nat) {log : List WakeEvent} (h : InStep d r log) (hLive : d.outcome = none)
    (hTop : d.atBoundary = false) (hNext : log.head?.filter WakeEvent.isDelivery = none) :
    ∃ k, InStep d ((Replayer.replayStep vm hash completions order)^[k] r) log ∧
      AtTop d ((Replayer.replayStep vm hash completions order)^[k] r) := by
  rcases h.idle with hIdle | ⟨hIdle, -, hCur⟩
  · exact ⟨0, h, h.loop, hLive, h.diverged, hTop, hIdle⟩
  · have hStep : r.replayStep vm hash completions order = { r with idle := none } := by
      unfold Replayer.replayStep
      dsimp only
      rw [h.loop, hLive, h.diverged, hTop, hIdle, peek_eq h.log, hNext]
      rfl
    refine ⟨1, ?_⟩
    rw [Function.iterate_one, hStep]
    exact ⟨⟨h.loop, h.made, h.pending, h.log, h.diverged, .inl rfl⟩, h.loop, hLive, h.diverged,
      hTop, rfl⟩

/-- Gets in step with what the run does next. -/
def Follows (vm : Vm σ ρ ε) (hash : ρ → UInt64) (completions : Nat → Option ρ) (order : Nat → Nat)
    (d d' : Driver σ ρ ε) (log rest : List WakeEvent) : Prop :=
  ∀ r, InStep d r log →
    ∃ k, InStep d' ((Replayer.replayStep vm hash completions order)^[k] r) rest

theorem Follows.trans {d'' : Driver σ ρ ε} {log rest rest' : List WakeEvent}
    (h : Follows vm hash completions order d d' log rest)
    (h' : Follows vm hash completions order d' d'' rest rest') :
    Follows vm hash completions order d d'' log rest' := by
  intro r hStep
  obtain ⟨k, hk⟩ := h r hStep
  obtain ⟨k', hk'⟩ := h' _ hk
  refine ⟨k' + k, ?_⟩
  rw [Function.iterate_add_apply]
  exact hk'

/-- At the top of the loop one step does what the run does. -/
theorem follows_of_top {log : List WakeEvent} (hLive : d.outcome = none)
    (hTop : d.atBoundary = false) (hNext : log.head?.filter WakeEvent.isDelivery = none)
    (hStep : ∀ r, InStep d r log → AtTop d r →
      InStep d' (r.replayStep vm hash completions order) rest) :
    Follows vm hash completions order d d' log rest := by
  intro r h
  obtain ⟨k, hInStep, hAtTop⟩ := h.toTop vm hash completions order hLive hTop hNext
  refine ⟨k + 1, ?_⟩
  rw [Function.iterate_succ_apply']
  exact hStep _ hInStep hAtTop

theorem follows_exit {code : Int} (hLive : d.outcome = none) (hTop : d.atBoundary = false)
    (hExit : vm.requestedExit d.vm = some code) :
    Follows vm hash completions order d { d with toLoop := d.toLoop.exit code } [] [] := by
  refine follows_of_top hLive hTop rfl fun r h hAtTop => ?_
  rw [hAtTop.exits hExit]
  exact ⟨congrArg (Loop.exit · code) h.loop, h.made, h.pending, h.log, h.diverged,
    .inl hAtTop.idle⟩

theorem follows_resume {cur : Nat} {log : List WakeEvent} (hLive : d.outcome = none)
    (hTop : d.atBoundary = false) (hExit : vm.requestedExit d.vm = none)
    (hCur : d.current = some cur) :
    Follows vm hash completions order d { d with
      toLoop := (d.toLoop.resume vm completions cur).1
      futures := d.futures ++ (d.toLoop.resume vm completions cur).2 } log log := by
  intro r h
  -- a task is current, so nothing has been delivered since the last pick
  have hIdle : r.idle = none := by
    rcases h.idle with hIdle | ⟨-, -, hNone⟩
    · exact hIdle
    · rw [hCur] at hNone
      contradiction
  have hAtTop : AtTop d r := ⟨h.loop, hLive, h.diverged, hTop, hIdle⟩
  refine ⟨1, ?_⟩
  rw [Function.iterate_one, hAtTop.resumes hExit hCur, h.loop]
  refine ⟨rfl, h.made, ?_, h.log, h.diverged, .inl hIdle⟩
  show ((r.futures ++ (d.toLoop.resume vm completions cur).2 ++ r.held).map Op.content).Perm
    ((d.futures ++ (d.toLoop.resume vm completions cur).2).map Op.content)
  rw [List.append_assoc, List.map_append, List.map_append, List.map_append]
  have hPending := h.pending
  rw [List.map_append] at hPending
  refine (List.Perm.append_left _ List.perm_append_comm).trans ?_
  rw [← List.append_assoc]
  exact hPending.append_right _

theorem follows_pick (hTidy : Tidy vm d) {tid : Nat} (hLive : d.outcome = none)
    (hTop : d.atBoundary = false) (hExit : vm.requestedExit d.vm = none) (hCur : d.current = none)
    (hTid : d.ready[i]? = some tid) :
    Follows vm hash completions order d { d with
      toLoop := d.toLoop.pick i tid
      made := d.made ++ [.pick tid] } (.pick tid :: rest) rest := by
  refine follows_of_top hLive hTop rfl fun r h hAtTop => ?_
  have hReady : d.ready ≠ [] := List.ne_nil_of_mem (List.mem_of_getElem? hTid)
  -- the queue has the task once, so where the run has picked it
  have hFind : d.ready.findIdx? (· = tid) = some i := by
    obtain ⟨hLt, hAt⟩ := List.getElem?_eq_some_iff.mp hTid
    refine List.findIdx?_eq_some_iff_getElem.mpr ⟨hLt, by simpa using hAt, fun j hj hEq => ?_⟩
    have hEq : d.ready[j] = tid := by simpa using hEq
    have hIndex : j = i := (List.Nodup.getElem_inj_iff hTidy.nodup).mp (hEq.trans hAt.symm)
    omega
  rw [hAtTop.picks hExit hCur hReady]
  unfold Replayer.atPick
  rw [peek_eq h.log, List.head?_cons]
  dsimp only
  rw [h.loop, hFind]
  exact ⟨rfl, congrArg (· ++ [Decision.pick tid]) h.made, h.pending, drop_consumed h.log,
    h.diverged, .inl hAtTop.idle⟩

theorem follows_conclude (hLive : d.outcome = none) (hTop : d.atBoundary = false)
    (hExit : vm.requestedExit d.vm = none) (hCur : d.current = none) (hReady : d.ready = [])
    (hFutures : d.futures = []) :
    Follows vm hash completions order d { d with toLoop := d.toLoop.conclude vm } [] [] := by
  refine follows_of_top hLive hTop rfl fun r h hAtTop => ?_
  have hNothing : r.futures ++ r.held = [] := by
    have hPending := h.pending
    rw [hFutures] at hPending
    exact List.map_eq_nil_iff.mp hPending.eq_nil
  obtain ⟨hNone, hHeld⟩ := List.append_eq_nil_iff.mp hNothing
  rw [hAtTop.concludes hExit hCur hReady hNone hHeld]
  exact ⟨congrArg (Loop.conclude vm) h.loop, h.made, h.pending, h.log, h.diverged,
    .inl hAtTop.idle⟩

theorem follows_rotate {cur : Nat} {preempt : Bool} (hLive : d.outcome = none)
    (hBoundary : d.atBoundary = true) (hCur : d.current = some cur) :
    Follows vm hash completions order d { d with
      toLoop := d.toLoop.rotate vm cur preempt
      made := d.made ++ [.rotate preempt] } (.rotate preempt :: rest) rest := by
  intro r h
  have hIdle : r.idle = none := by
    rcases h.idle with hIdle | ⟨-, hTop, -⟩
    · exact hIdle
    · rw [hBoundary] at hTop
      contradiction
  have hPeek : r.peek = some (.rotate preempt) := peek_eq h.log
  have hStep : r.replayStep vm hash completions order = r.atRotate vm cur := by
    unfold Replayer.replayStep
    dsimp only
    rw [h.loop, hLive, h.diverged, hBoundary, hCur, hPeek]
    rfl
  refine ⟨1, ?_⟩
  rw [Function.iterate_one, hStep]
  unfold Replayer.atRotate
  rw [hPeek]
  exact ⟨congrArg (Loop.rotate vm · cur preempt) h.loop,
    congrArg (· ++ [Decision.rotate preempt]) h.made, h.pending, drop_consumed h.log, h.diverged,
    .inl hIdle⟩

theorem follows_drain (hTidy : Tidy vm d) {cur : Nat} (hLive : d.outcome = none)
    (hBoundary : d.atBoundary = true) (hCur : d.current = some cur)
    (hop : d.futures[i]? = some op) :
    Follows vm hash completions order d (d.deliver vm i op)
      (wakeEventFor hash op.tid op.wakeup :: rest) rest := by
  intro r h
  have hIdle : r.idle = none := by
    rcases h.idle with hIdle | ⟨-, hTop, -⟩
    · exact hIdle
    · rw [hBoundary] at hTop
      contradiction
  have hLanding : Landing hash d op rest r := ⟨h.loop, h.made, h.pending, h.log, h.diverged,
    .inl ⟨hBoundary, by rw [hCur]; rfl, hIdle⟩⟩
  exact hLanding.lands hTidy hLive hop

theorem follows_arrive (hTidy : Tidy vm d) (hLive : d.outcome = none) (hTop : d.atBoundary = false)
    (hExit : vm.requestedExit d.vm = none) (hCur : d.current = none) (hReady : d.ready = [])
    (hop : d.futures[i]? = some op) :
    Follows vm hash completions order d (d.deliver vm i op)
      (wakeEventFor hash op.tid op.wakeup :: rest) rest := by
  intro r h
  rcases h.idle with hIdle | ⟨hIdle, -, -⟩
  · -- the replay has to find nothing ready first
    have hPending : r.futures ++ r.held ≠ [] := by
      intro hNil
      have hIn : op.content ∈ (r.futures ++ r.held).map Op.content :=
        h.pending.mem_iff.mpr (List.mem_map_of_mem (List.mem_of_getElem? hop))
      rw [hNil] at hIn
      exact absurd hIn List.not_mem_nil
    have hAtTop : AtTop d r := ⟨h.loop, hLive, h.diverged, hTop, hIdle⟩
    have hLanding : Landing hash d op rest { r with idle := some false } :=
      ⟨h.loop, h.made, h.pending, h.log, h.diverged, .inr ⟨hTop, hCur, rfl⟩⟩
    obtain ⟨k, hk⟩ : ∃ k, InStep (d.deliver vm i op)
        ((Replayer.replayStep vm hash completions order)^[k] { r with idle := some false }) rest :=
      hLanding.lands hTidy hLive hop
    refine ⟨k + 1, ?_⟩
    rw [Function.iterate_succ_apply, hAtTop.idles hExit hCur hReady hPending]
    exact hk
  · have hLanding : Landing hash d op rest r := ⟨h.loop, h.made, h.pending, h.log, h.diverged,
      .inr ⟨hTop, hCur, by rw [hIdle]; rfl⟩⟩
    exact hLanding.lands hTidy hLive hop

/-- Each turn of a run is followed; `later` is what the run decides after it. -/
theorem follows_turn (hash : ρ → UInt64) (order : Nat → Nat) (hTidy : Tidy vm d)
    (hLive : d.outcome = none) (hTurn : Turn vm completions d d') (later : List (Decision ρ))
    (hLast : d'.outcome ≠ none → later = []) :
    ∃ new, d'.made = d.made ++ new ∧ Follows vm hash completions order d d'
      ((new ++ later).map (Decision.event hash)) (later.map (Decision.event hash)) := by
  cases hTurn with
  | drain hBoundary hCur hop =>
    exact ⟨[.deliver _ _], rfl, follows_drain hTidy hLive hBoundary hCur hop⟩
  | rotate hBoundary hCur => exact ⟨[.rotate _], rfl, follows_rotate hLive hBoundary hCur⟩
  | exit hTop hExit =>
    refine ⟨[], (List.append_nil _).symm, ?_⟩
    rw [hLast (by simp [Loop.exit])]
    exact follows_exit hLive hTop hExit
  | resume hTop hExit hCur =>
    exact ⟨[], (List.append_nil _).symm, follows_resume hLive hTop hExit hCur⟩
  | pick hTop hExit hCur hTid =>
    exact ⟨[.pick _], rfl, follows_pick hTidy hLive hTop hExit hCur hTid⟩
  | arrive hTop hExit hCur hReady hop =>
    exact ⟨[.deliver _ _], rfl, follows_arrive hTidy hLive hTop hExit hCur hReady hop⟩
  | conclude hTop hExit hCur hReady hFutures =>
    refine ⟨[], (List.append_nil _).symm, ?_⟩
    rw [hLast (by simp [Loop.conclude])]
    exact follows_conclude hLive hTop hExit hCur hReady hFutures

/-- A run that has ended takes no more steps. -/
theorem record_ended {stress : Bool} {cs : List Chance} (hEnd : d.outcome ≠ none)
    (hRun : d.record vm stress completions cs = some d') : d' = d := by
  cases cs with
  | nil => exact (Option.some.inj hRun).symm
  | cons c cs =>
    obtain ⟨mid, hStep, -⟩ := Option.bind_eq_some_iff.mp hRun
    exact absurd (turn_of_recordStep hStep).1 hEnd

/-- **Run lemma.** -/
theorem follows_record (hash : ρ → UInt64) (order : Nat → Nat) {stress : Bool} (cs : List Chance) :
    ∀ {d : Driver σ ρ ε}, Tidy vm d → d.record vm stress completions cs = some d' →
      ∃ new, d'.made = d.made ++ new ∧
        Follows vm hash completions order d d' (new.map (Decision.event hash)) [] := by
  induction cs with
  | nil =>
    rintro d - hRun
    obtain rfl := Option.some.inj hRun
    exact ⟨[], (List.append_nil _).symm, fun r h => ⟨0, h⟩⟩
  | cons c cs ih =>
    intro d hTidy hRun
    obtain ⟨mid, hStep, hRest⟩ := Option.bind_eq_some_iff.mp hRun
    obtain ⟨hLive, hTurn⟩ := turn_of_recordStep hStep
    obtain ⟨later, hLater, hFollows⟩ := ih (hTidy.turn hLive hTurn) hRest
    have hLast : mid.outcome ≠ none → later = [] := by
      intro hEnd
      rw [record_ended hEnd hRest] at hLater
      simpa using hLater
    obtain ⟨new, hNew, hFirst⟩ := follows_turn hash order hTidy hLive hTurn later hLast
    refine ⟨new ++ later, ?_, hFirst.trans hFollows⟩
    rw [hLater, hNew, List.append_assoc]

end Steps

/-! ## Once -/

section Once

variable {hash : ρ → UInt64} {completions : Nat → Option ρ} {order : Nat → Nat}
  {r : Replayer σ ρ ε} {log : List WakeEvent}

def deliveries (made : List (Decision ρ)) : List (Nat × TaskWakeup ρ) :=
  made.filterMap fun
    | .deliver tid wakeup => some (tid, wakeup)
    | .pick _ | .rotate _ => none

/-- Every operation started is delivered, held or to arrive, and only one of them; what has been
delivered is what is logged. -/
structure Accounted (log : List WakeEvent) (r : Replayer σ ρ ε) : Prop where
  events : r.events = log
  ids : ((r.delivered ++ (r.held ++ r.futures)).map Op.id).Perm (List.range r.started)
  contents : r.delivered.map Op.content = deliveries r.made

namespace Accounted

theorem start : Accounted log (Replayer.start vm log) := ⟨rfl, List.Perm.refl _, rfl⟩

/-- An operation that is neither delivered yet nor counted as one to come. -/
theorem deliver {op : Op ρ} (hEvents : r.events = log)
    (hIds : ((r.delivered ++ op :: (r.held ++ r.futures)).map Op.id).Perm (List.range r.started))
    (hContents : r.delivered.map Op.content = deliveries r.made) :
    Accounted log (r.deliver vm op) where
  events := hEvents
  ids := by
    show (((r.delivered ++ [op]) ++ (r.held ++ r.futures)).map Op.id).Perm
      (List.range (r.toLoop.deliver vm op.tid op.wakeup).started)
    rw [(deliver_same vm r.toLoop op.tid op.wakeup).2.2, List.append_assoc]
    exact hIds
  contents := by
    show (r.delivered ++ [op]).map Op.content = deliveries (r.made ++ [.deliver op.tid op.wakeup])
    unfold deliveries
    rw [List.map_append, hContents, List.filterMap_append]
    rfl

theorem land (h : Accounted log r) (want : WakeEvent) :
    Accounted log (r.land vm hash order want) := by
  unfold Replayer.land
  split
  · split
    · next op hGet =>
      refine deliver h.events ?_ h.contents
      show ((r.delivered ++ op :: (r.held.eraseIdx _ ++ r.futures)).map Op.id).Perm _
      refine List.Perm.trans (List.Perm.map _ (List.Perm.append_left _ ?_)) h.ids
      exact (perm_eraseIdx hGet).append_right _
    · exact h
  · unfold Replayer.next
    dsimp only
    cases hGet : r.futures[order r.awaited % r.futures.length]? with
    | none => exact ⟨h.events, h.ids, h.contents⟩
    | some op =>
      refine ⟨h.events, ?_, h.contents⟩
      show ((r.delivered ++ ((r.held ++ [op]) ++ r.futures.eraseIdx _)).map Op.id).Perm _
      refine List.Perm.trans (List.Perm.map _ (List.Perm.append_left _ ?_)) h.ids
      rw [List.append_assoc]
      exact (perm_eraseIdx hGet).append_left _

theorem atEnd (h : Accounted log r) : Accounted log (r.atEnd vm order) := by
  unfold Replayer.atEnd Replayer.next
  dsimp only
  cases hGet : r.futures[order r.awaited % r.futures.length]? with
  | none => exact ⟨h.events, h.ids, h.contents⟩
  | some op =>
    refine deliver h.events ?_ h.contents
    show ((r.delivered ++ op :: (r.held ++ r.futures.eraseIdx _)).map Op.id).Perm _
    refine List.Perm.trans (List.Perm.map _ (List.Perm.append_left _ ?_)) h.ids
    exact List.perm_middle.symm.trans ((perm_eraseIdx hGet).append_left _)

theorem atRotate (h : Accounted log r) (cur : Nat) : Accounted log (r.atRotate vm cur) := by
  unfold Replayer.atRotate
  split
  · next preempt _ =>
    refine ⟨h.events, ?_, ?_⟩
    · show ((r.delivered ++ (r.held ++ r.futures)).map Op.id).Perm
        (List.range (r.toLoop.rotate vm cur preempt).started)
      cases preempt <;> exact h.ids
    · show r.delivered.map Op.content = deliveries (r.made ++ [.rotate preempt])
      rw [h.contents, deliveries, deliveries, List.filterMap_append]
      simp
  · exact ⟨h.events, h.ids, h.contents⟩

theorem atPick (h : Accounted log r) : Accounted log r.atPick := by
  unfold Replayer.atPick
  split
  · next want _ =>
    split
    · refine ⟨h.events, h.ids, ?_⟩
      show r.delivered.map Op.content = deliveries (r.made ++ [.pick want])
      rw [h.contents, deliveries, deliveries, List.filterMap_append]
      simp
    · exact ⟨h.events, h.ids, h.contents⟩
  · exact ⟨h.events, h.ids, h.contents⟩

/-- An operation that is started gets the next number. -/
theorem resume (h : Accounted log r) (cur : Nat) :
    Accounted log { r with
      toLoop := (r.toLoop.resume vm completions cur).1
      futures := r.futures ++ (r.toLoop.resume vm completions cur).2 } := by
  refine ⟨h.events, ?_, h.contents⟩
  show ((r.delivered ++ (r.held ++ (r.futures ++ (r.toLoop.resume vm completions cur).2))).map
    Op.id).Perm (List.range (r.toLoop.resume vm completions cur).1.started)
  have hOne {op : Op ρ} (hId : op.id = r.started) :
      ((r.delivered ++ (r.held ++ (r.futures ++ [op]))).map Op.id).Perm
        (List.range (r.started + 1)) := by
    rw [← List.append_assoc, ← List.append_assoc, List.append_assoc r.delivered, List.map_append,
      List.map_singleton, hId, List.range_succ]
    exact h.ids.append_right _
  unfold Loop.resume
  dsimp only
  split
  · simpa using h.ids
  · simpa using h.ids
  · exact hOne rfl
  · exact hOne rfl
  · simpa using h.ids
  · simpa using h.ids
  · simpa using h.ids
  · simpa using h.ids

theorem replayStep (h : Accounted log r) :
    Accounted log (r.replayStep vm hash completions order) := by
  unfold Replayer.replayStep
  dsimp only
  split
  · exact h
  · split
    · -- at a yield boundary
      split
      · exact h.land _
      · exact h.atRotate _
      · exact h
    · split
      · exact h.land _
      · exact ⟨h.events, h.ids, h.contents⟩
      · split
        · exact ⟨h.events, h.ids, h.contents⟩
        · exact h.atEnd
      · -- at the top of the loop
        split
        · exact ⟨h.events, h.ids, h.contents⟩
        · exact h.resume _
        · split
          · exact h.atPick
          · split
            · exact ⟨h.events, h.ids, h.contents⟩
            · exact ⟨h.events, h.ids, h.contents⟩

theorem iterate (h : Accounted log r) (k : Nat) :
    Accounted log ((Replayer.replayStep vm hash completions order)^[k] r) := by
  induction k generalizing r with
  | zero => exact h
  | succ k ih =>
    rw [Function.iterate_succ_apply]
    exact ih h.replayStep

end Accounted

end Once

/-! ## Two requests -/

/-- How far a task of the program below has come. -/
inductive Phase where
  | unborn | fresh | waiting | served | over
  deriving DecidableEq

def Phase.place : Phase → Place
  | .fresh | .served => .runnable
  | .waiting => .io
  | .unborn | .over => .elsewhere

theorem place_update (s : Nat → Phase) (t u : Nat) (p : Phase) :
    (Function.update s t p u).place = if u = t then p.place else (s u).place := by
  by_cases hSelf : u = t <;> simp [hSelf]

/-- Each task makes one request and is done when it is served; the main task starts task #1 before
that, and ends the program. -/
def twoRequests : Vm (Nat → Phase) Nat Unit where
  init := fun t => if t = 0 then .fresh else .unborn
  resume s t :=
    if s t = .fresh then
      if t = 0 ∧ s 1 = .unborn then
        ⟨.parkedIo, Function.update (Function.update s 1 .fresh) 0 .waiting, [1]⟩
      else ⟨.parkedIo, Function.update s t .waiting, []⟩
    else if t = 0 then ⟨.finished, Function.update s t .over, []⟩
    else ⟨.done, Function.update s t .over, []⟩
  load s _ := s
  save s _ := s
  setAbortHandle s _ := s
  setDeadlineAbort s _ := s
  parkEpoch _ _ := 0
  setWake s t _ := Function.update s t .served
  deliverDeadline _ _ _ _ := none
  requestedExit _ := none
  mainParked _ := false
  place s t := (s t).place
  init_place := rfl
  load_place _ _ := rfl
  save_place _ _ := rfl
  setAbortHandle_place _ _ := rfl
  setDeadlineAbort_place _ _ := rfl
  woken_nodup := by
    intro s t _
    split_ifs <;> simp
  woken_place := by
    intro s t _ u hu
    split_ifs at hu with hFresh hMain
    · -- only task #1 is started, where it has not been
      obtain ⟨rfl, hUnborn⟩ := hMain
      obtain rfl := List.mem_singleton.mp hu
      rw [if_neg (by decide), hUnborn]
      rfl
    · contradiction
    · contradiction
    · contradiction
  resume_place := by
    intro s t _ u
    by_cases hFresh : s t = .fresh
    · by_cases hMain : t = 0 ∧ s 1 = .unborn
      · have hUnborn := hMain.2
        obtain rfl := hMain.1
        rw [if_pos hFresh, if_pos ⟨rfl, hUnborn⟩]
        by_cases hOne : u = 1
        · subst hOne
          rfl
        · simp [place_update, hOne]
          rfl
      · rw [if_pos hFresh, if_neg hMain]
        simp [place_update]
        rfl
    · rw [if_neg hFresh]
      by_cases hMain : t = 0 <;> simp [hMain, place_update] <;> rfl
  setWake_place s t _ _ u := place_update s t u .served
  deliverDeadline_place _ _ _ _ _ hLate := by contradiction

/-! ## The run again -/

/-- A replay of a recorded run, to its end or as far as it has come, makes the same decisions in the
same order and gets to the same state, with the whole log behind it and no divergence, in whatever
order the operations arrive; and each is delivered once, where it is logged. -/
theorem wake_log_replays (vm : Vm σ ρ ε) (hash : ρ → UInt64) (stress : Bool)
    (completions : Nat → Option ρ) (order : Nat → Nat) (cs : List Chance) (d : Driver σ ρ ε)
    (hRun : (Driver.start vm).record vm stress completions cs = some d) :
    ∃ k r, (Replayer.replayStep vm hash completions order)^[k]
        (Replayer.start vm (d.made.map (Decision.event hash))) = r ∧
      r.toLoop = d.toLoop ∧ r.made = d.made ∧ r.diverged = none ∧
      r.events = d.made.map (Decision.event hash) ∧ r.events.length ≤ r.pos ∧
      ((r.futures ++ r.held).map Op.content).Perm (d.futures.map Op.content) ∧
      r.delivered.map Op.content = deliveries d.made ∧
      ((r.delivered ++ (r.held ++ r.futures)).map Op.id).Perm (List.range d.started) := by
  obtain ⟨new, hNew, hFollows⟩ := follows_record hash order cs Tidy.start hRun
  have hMade : d.made = new := hNew
  subst hMade
  have hStart : InStep (Driver.start vm) (Replayer.start vm (d.made.map (Decision.event hash)))
      (d.made.map (Decision.event hash)) :=
    ⟨rfl, rfl, List.Perm.refl _, rfl, rfl, .inl rfl⟩
  obtain ⟨k, h⟩ := hFollows _ hStart
  have hOnce : Accounted (d.made.map (Decision.event hash))
      ((Replayer.replayStep vm hash completions order)^[k] (Replayer.start vm _)) :=
    Accounted.start.iterate k
  refine ⟨k, _, rfl, h.loop, h.made, h.diverged, hOnce.events, ?_, h.pending, ?_, ?_⟩
  · exact List.drop_eq_nil_iff.mp h.log
  · exact hOnce.contents.trans (congrArg deliveries h.made)
  · have hIds := hOnce.ids
    rw [h.loop] at hIds
    exact hIds

/-- Task #1 is served first. -/
def secondFirst : List Chance :=
  [.go, .pick 0, .go, .arrive 1, .pick 0, .go, .arrive 0, .pick 0, .go]

/-- In the replay the operation of task #1 arrives last. -/
theorem wake_log_replays_reordered :
    ∃ d, (Driver.start twoRequests).record twoRequests false some secondFirst = some d ∧
      d.made.map (Decision.event UInt64.ofNat) = [.pick 1, .io 1 false 1, .pick 1, .io 0 false 0,
        .pick 0] ∧
      ∃ k r, (Replayer.replayStep twoRequests UInt64.ofNat some fun _ => 0)^[k]
          (Replayer.start twoRequests (d.made.map (Decision.event UInt64.ofNat))) = r ∧
        r.toLoop = d.toLoop ∧ r.made = d.made ∧ r.diverged = none ∧
        r.events = d.made.map (Decision.event UInt64.ofNat) ∧ r.events.length ≤ r.pos ∧
        ((r.futures ++ r.held).map Op.content).Perm (d.futures.map Op.content) ∧
        r.delivered.map Op.content = deliveries d.made ∧
        ((r.delivered ++ (r.held ++ r.futures)).map Op.id).Perm (List.range d.started) :=
  ⟨_, rfl, rfl, wake_log_replays twoRequests UInt64.ofNat false some (fun _ => 0)
    secondFirst _ rfl⟩

end Quoin.Replay
