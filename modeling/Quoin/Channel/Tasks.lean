import Quoin.Channel.State
import Quoin.Trans.Tally

/-!
# Quoin — the task table under change

What the changes of `Sched` do to a single task (`task?`), to what the tasks
hold together (`tallyTasks`), and to the promise a queue entry makes about the
task that left it (`Suspended`): as long as the task is at the epoch of the
entry, it is in the operation the entry belongs to. Epochs are never reused,
so a promise once made is kept until the slot is loaded or freed, and is empty
from then on.
-/

namespace Quoin.Channel

open Trans

variable {P V : Type}

namespace Sched

variable {s : Sched P V} {t u : TaskId} {task : Task P V} {f : Task P V → Nat}
  {g : Task P V → Task P V}

/-! ## One task -/

theorem task?_eq_some : s.task? t = some task ↔ s.tasks[t]? = some (some task) := by
  rw [task?, Option.join_eq_some_iff]

theorem task?_setTask (h : s.task? t = some task) (x : Option (Task P V)) :
    (s.setTask t x).task? u = if u = t then x else s.task? u := by
  have hlen : t < s.tasks.length := (List.getElem?_eq_some_iff.mp (task?_eq_some.mp h)).1
  unfold task? setTask
  by_cases hut : u = t
  · subst hut
    rw [if_pos rfl, List.getElem?_set_self hlen, Option.join_some]
  · rw [if_neg hut, List.getElem?_set_ne (Ne.symm hut)]

theorem task?_modifyTask :
    (s.modifyTask t g).task? u = if u = t then (s.task? t).map g else s.task? u := by
  unfold modifyTask
  cases h : s.task? t with
  | some task => rw [task?_setTask h, Option.map_some]
  | none =>
    by_cases hut : u = t
    · rw [if_pos hut, Option.map_none, hut]
      exact h
    · rw [if_neg hut]

/-- A task after a change is one from before, changed if it is the one addressed. -/
theorem of_task?_modifyTask {task' : Task P V} (h : (s.modifyTask t g).task? u = some task') :
    ∃ task, s.task? u = some task ∧ (task' = task ∧ u ≠ t ∨ task' = g task ∧ u = t) := by
  rw [task?_modifyTask] at h
  by_cases hut : u = t
  · rw [if_pos hut] at h
    obtain ⟨task, htask, rfl⟩ := Option.map_eq_some_iff.mp h
    exact ⟨task, hut ▸ htask, Or.inr ⟨rfl, hut⟩⟩
  · rw [if_neg hut] at h
    exact ⟨task', h, Or.inl ⟨rfl, hut⟩⟩

theorem parkSeq_modifyTask : (s.modifyTask t g).parkSeq = s.parkSeq := by
  unfold modifyTask
  split <;> rfl

theorem of_task?_allocTask (h : s.allocTask.task? t = some task) :
    s.task? t = some task ∨ task = {} := by
  unfold allocTask at h
  split at h
  · rename_i i hi
    have hlen : i < s.tasks.length := (List.findIdx?_eq_some_iff_getElem.mp hi).1
    rw [task?_eq_some, setTask] at h
    by_cases hit : i = t
    · subst hit
      rw [List.getElem?_set_self hlen, Option.some.injEq, Option.some.injEq] at h
      exact Or.inr h.symm
    · rw [List.getElem?_set_ne hit] at h
      exact Or.inl (task?_eq_some.mpr h)
  · rw [task?_eq_some] at h
    dsimp only at h
    rcases Nat.lt_trichotomy t s.tasks.length with hlt | heq | hgt
    · rw [List.getElem?_append_left hlt] at h
      exact Or.inl (task?_eq_some.mpr h)
    · rw [heq, List.getElem?_concat_length, Option.some.injEq, Option.some.injEq] at h
      exact Or.inr h.symm
    · rw [List.getElem?_eq_none_iff.mpr (by rw [List.length_append]; exact hgt)] at h
      cases h

theorem task?_allocTask (h : s.task? t = some task) : s.allocTask.task? t = some task := by
  have hget := task?_eq_some.mp h
  unfold allocTask
  split
  · rename_i i hi
    obtain ⟨hlen, hnone, -⟩ := List.findIdx?_eq_some_iff_getElem.mp hi
    have hit : i ≠ t := by
      rintro rfl
      rw [List.getElem?_eq_getElem hlen, Option.some.injEq] at hget
      rw [hget] at hnone
      cases hnone
    rw [task?_eq_some, setTask]
    dsimp only
    rw [List.getElem?_set_ne hit]
    exact hget
  · rw [task?_eq_some]
    exact List.getElem?_append_left (List.getElem?_eq_some_iff.mp hget).1 ▸ hget

theorem parkSeq_allocTask : s.allocTask.parkSeq = s.parkSeq := by
  unfold allocTask
  split <;> rfl

theorem of_task?_complete (h : (s.complete t).task? u = some task) :
    s.task? u = some task := by
  rw [complete, task?_eq_some, setTask] at h
  by_cases htu : t = u
  · subst htu
    by_cases hlen : t < s.tasks.length
    · rw [List.getElem?_set_self hlen] at h
      cases h
    · rw [List.getElem?_eq_none_iff.mpr (by rw [List.length_set]; exact Nat.le_of_not_lt hlen)] at h
      cases h
  · rw [List.getElem?_set_ne htu] at h
    exact task?_eq_some.mpr h

theorem running_eq_some (h : s.running t = some task) :
    s.task? t = some task ∧ task.park = none ∧ 1 ≤ task.parkEpoch := by
  rw [running, Option.filter_eq_some_iff] at h
  obtain ⟨htask, hrun⟩ := h
  rw [Bool.and_eq_true, Option.isNone_iff_eq_none, decide_eq_true_eq] at hrun
  exact ⟨htask, hrun.1, hrun.2⟩

theorem channelWaiterLive_eq_true {e : Epoch} (h : s.channelWaiterLive t e = true) :
    ∃ task, s.task? t = some task ∧ task.parkedOnChannel = true ∧ task.parkEpoch = e ∧
      task.cancelRequested = false := by
  unfold channelWaiterLive at h
  cases htask : s.task? t with
  | none =>
    rw [htask] at h
    cases h
  | some task =>
    rw [htask, Option.any_some] at h
    refine ⟨task, rfl, ?_⟩
    simpa [and_assoc] using h

/-! ## All tasks -/

/-- What the tasks hold together. -/
def tallyTasks (f : Task P V → Nat) (s : Sched P V) : Nat :=
  tally (fun slot => slot.elim 0 f) s.tasks

theorem tallyTasks_setTask (h : s.task? t = some task) (x : Option (Task P V)) :
    (s.setTask t x).tallyTasks f + f task = s.tallyTasks f + x.elim 0 f :=
  tally_set (f := fun slot => slot.elim 0 f) (task?_eq_some.mp h)

theorem tallyTasks_modifyTask (h : s.task? t = some task) :
    (s.modifyTask t g).tallyTasks f + f task = s.tallyTasks f + f (g task) := by
  unfold modifyTask
  rw [h]
  exact tallyTasks_setTask h _

/-- A change that leaves alone what is counted. -/
theorem tallyTasks_modifyTask_same (h : ∀ task, f (g task) = f task) :
    (s.modifyTask t g).tallyTasks f = s.tallyTasks f := by
  cases htask : s.task? t with
  | none =>
    unfold modifyTask
    rw [htask]
  | some task =>
    have := tallyTasks_modifyTask (f := f) (g := g) htask
    have := h task
    omega

theorem tallyTasks_allocTask (h : f {} = 0) : s.allocTask.tallyTasks f = s.tallyTasks f := by
  unfold allocTask
  split
  · rename_i i hi
    obtain ⟨hlen, hnone, -⟩ := List.findIdx?_eq_some_iff_getElem.mp hi
    have hget : s.tasks[i]? = some none := by
      rw [List.getElem?_eq_getElem hlen, Option.isNone_iff_eq_none.mp hnone]
    have := tally_set (f := fun slot => slot.elim 0 f) (b := some {}) hget
    dsimp only [Option.elim_none, Option.elim_some] at this
    rw [h] at this
    exact this
  · unfold tallyTasks
    dsimp only
    rw [tally_append, tally_cons, Option.elim_some, h]
    rfl

theorem tallyTasks_complete (h : s.task? t = some task) :
    (s.complete t).tallyTasks f + f task = s.tallyTasks f :=
  tallyTasks_setTask h none

theorem le_tallyTasks (h : s.task? t = some task) : f task ≤ s.tallyTasks f :=
  le_tally_of_getElem? (f := fun slot => slot.elim 0 f) (task?_eq_some.mp h)

theorem add_le_tallyTasks {task' : Task P V} (hne : t ≠ u) (h : s.task? t = some task)
    (h' : s.task? u = some task') : f task + f task' ≤ s.tallyTasks f :=
  add_le_tally (f := fun slot => slot.elim 0 f) hne (task?_eq_some.mp h) (task?_eq_some.mp h')

/-! ## Queue entries -/

/-- A task that is still at the epoch is suspended in this operation. -/
def Suspended (s : Sched P V) (t : TaskId) (e : Epoch) (p : P) : Prop :=
  ∀ task, s.task? t = some task → task.parkEpoch = e → task.park = some p

theorem Suspended.modifyTask {e : Epoch} {p : P} (h : s.Suspended t e p)
    (hepoch : ∀ task, (g task).parkEpoch = task.parkEpoch)
    (hpark : ∀ task, (g task).park = task.park) : (s.modifyTask u g).Suspended t e p := by
  intro task' htask' he
  obtain ⟨task, htask, ⟨rfl, -⟩ | ⟨rfl, -⟩⟩ := of_task?_modifyTask htask'
  · exact h _ htask he
  · rw [hpark]
    exact h _ htask ((hepoch task).symm.trans he)

theorem Suspended.allocTask {e : Epoch} {p : P} (h : s.Suspended t e p) (he : 1 ≤ e) :
    s.allocTask.Suspended t e p := by
  intro task htask hepoch
  rcases of_task?_allocTask htask with htask | rfl
  · exact h _ htask hepoch
  · subst hepoch
    exact absurd he (Nat.not_succ_le_zero 0)

theorem Suspended.complete {e : Epoch} {p : P} (h : s.Suspended t e p) :
    (s.complete u).Suspended t e p :=
  fun _ htask => h _ (of_task?_complete htask)

theorem Suspended.loadTaskContext {e : Epoch} {p : P} (h : s.Suspended t e p)
    (he : e ≤ s.parkSeq) : (s.loadTaskContext u).Suspended t e p := by
  intro task' htask' hepoch
  obtain ⟨task, htask, ⟨rfl, -⟩ | ⟨rfl, -⟩⟩ := of_task?_modifyTask htask'
  · exact h _ htask hepoch
  · exact absurd (hepoch ▸ he) (Nat.not_succ_le_self _)

/-- No task that can run is at the epoch of another entry. -/
theorem Suspended.park {e : Epoch} {p p' : P} (h : s.Suspended t e p)
    (hidle : ∀ task, s.task? u = some task → task.park = none) :
    (s.park u p').Suspended t e p := by
  intro task' htask' hepoch
  obtain ⟨task, htask, ⟨rfl, -⟩ | ⟨rfl, rfl⟩⟩ := of_task?_modifyTask htask'
  · exact h _ htask hepoch
  · have hpark := h task htask hepoch
    rw [hidle task htask] at hpark
    cases hpark

/-- The entry of the task that parks. -/
theorem suspended_park {e : Epoch} {p : P} : (s.park t p).Suspended t e p := by
  intro task' htask' _
  obtain ⟨_, _, ⟨_, hne⟩ | ⟨rfl, -⟩⟩ := of_task?_modifyTask htask'
  · exact absurd rfl hne
  · rfl

/-! ## Suspended operations -/

/-- Some task is suspended in this operation. -/
def Parks (s : Sched P V) (p : P) : Prop := ∃ t task, s.task? t = some task ∧ task.park = some p

theorem Parks.of_modifyTask {p : P} (h : (s.modifyTask t g).Parks p)
    (hpark : ∀ task, (g task).park = some p → task.park = some p) : s.Parks p := by
  obtain ⟨u, task', htask', hp⟩ := h
  obtain ⟨task, htask, ⟨rfl, -⟩ | ⟨rfl, -⟩⟩ := of_task?_modifyTask htask'
  · exact ⟨u, _, htask, hp⟩
  · exact ⟨u, task, htask, hpark task hp⟩

theorem Parks.of_loadTaskContext {p : P} (h : (s.loadTaskContext t).Parks p) : s.Parks p :=
  Parks.of_modifyTask (s := { s with parkSeq := s.parkSeq + 1 }) h fun _ hne => by cases hne

theorem Parks.of_allocTask {p : P} (h : s.allocTask.Parks p) : s.Parks p := by
  obtain ⟨u, task, htask, hp⟩ := h
  rcases of_task?_allocTask htask with htask | rfl
  · exact ⟨u, task, htask, hp⟩
  · cases hp

theorem Parks.of_complete {p : P} (h : (s.complete t).Parks p) : s.Parks p := by
  obtain ⟨u, task, htask, hp⟩ := h
  exact ⟨u, task, of_task?_complete htask, hp⟩

theorem Parks.of_park {p p' : P} (h : (s.park t p').Parks p) : p = p' ∨ s.Parks p := by
  obtain ⟨u, task', htask', hp⟩ := h
  obtain ⟨task, htask, ⟨rfl, -⟩ | ⟨rfl, -⟩⟩ := of_task?_modifyTask htask'
  · exact Or.inr ⟨u, _, htask, hp⟩
  · exact Or.inl (Option.some.inj hp).symm

end Sched

end Quoin.Channel
